import SmartDisk.ActionSystem
import SmartDisk.EventRuns
import Mathlib.Algebra.BigOperators.Group.Finset.Basic
import Mathlib.Algebra.Order.Group.Multiset

/-!
# What the pending work of a simulator still owes

A process that is scheduled, or waits for a resource, owes the outputs it has not
made yet. An event only moves this debt from one place to another or pays some of
it, so outputs made and outputs owed always add up to what was started. Neither
the clock nor the order of events matters for that.

The debt of a generator is read off along one path, on which every read finds the
state `s₀`. `Honest` says that other states lead to the same debt, as far as
`accepts` lets the process read them, and that no path raises. A `Silent` generator
may raise; none of its outputs counts. States that are written satisfy `P`.
-/
namespace SmartDisk.EventDelivery
open DiscreteEvents EventInvariants EventRuns

variable {τ R σ O E α β γ : Type}

section
variable [Zero τ] [LE τ]

theorem bind_bind (g : Gen τ R σ O E α) (f : α → Gen τ R σ O E β)
    (k : β → Gen τ R σ O E γ) : (g.bind f).bind k = g.bind fun a => (f a).bind k := by
  induction g with
  | ret a => rfl
  | raise e => rfl
  | timeout d next ih => exact congrArg (Gen.timeout d) ih
  | hold r d next ih => exact congrArg (Gen.hold r d) ih
  | relay p next ih => exact congrArg (Gen.relay p) ih
  | read next ih => exact congrArg Gen.read (funext ih)
  | write s next ih => exact congrArg (Gen.write s) ih
  | emit o next ih => exact congrArg (Gen.emit o) ih

def owed (s₀ : σ) : Gen τ R σ O E α → Multiset O
  | .ret _ | .raise _ => 0
  | .timeout _ next | .hold _ _ next | .relay _ next | .write _ next => owed s₀ next
  | .read next => owed s₀ (next s₀)
  | .emit o next => o ::ₘ owed s₀ next

/-- The generator reads nothing before its next `yield`. -/
def Settles : Gen τ R σ O E α → Prop
  | .read _ => False
  | .write _ next | .emit _ next => Settles next
  | _ => True

/-- The generator raises before it yields, or a sub-process of it does and ends with that. -/
def raises : Gen τ R σ O E α → σ → Bool
  | .raise _, _ | .relay .normal (.raise _), _ => true
  | .read next, s => raises (next s) s
  | .write s next, _ | .emit _ next, s => raises next s
  | _, _ => false

/-- The generator never raises, and owes the same whatever accepted state it reads. A
state is read at the beginning of a step only. -/
def Honest (P : σ → Prop) (s₀ : σ) (accepts : Gen τ R σ O E α → σ → Prop) :
    Gen τ R σ O E α → Prop
  | .ret _ => True
  | .raise _ => False
  | .timeout _ next | .hold _ _ next | .relay _ next => Honest P s₀ accepts next
  | .write s next => P s ∧ Settles next ∧ Honest P s₀ accepts next
  | .emit _ next => Settles next ∧ Honest P s₀ accepts next
  | .read next => ∀ s, P s → accepts (.read next) s →
      Settles (next s) ∧ Honest P s₀ accepts (next s) ∧ owed s₀ (next s) = owed s₀ (next s₀)

end

section
variable [AddCommGroup τ] [LinearOrder τ]

/-- The task an event belongs to. -/
def task : Work τ R σ O E → Option (Task τ R σ O E)
  | .resume t | .grant _ _ t | .leave _ t => some t
  | _ => none

/-- The task an event resumes. A granted request with a duration is not resumed yet. -/
def resumed : Work τ R σ O E → Option (Task τ R σ O E)
  | .resume t | .grant _ none t | .leave _ t => some t
  | _ => none

def workOwed (s₀ : σ) (w : Work τ R σ O E) : Multiset O :=
  match task w with
  | some t => owed s₀ t.code
  | none => 0

/-- The task of an event is of the kind `H`, and the event is no failure. -/
def WorkOf (H : Gen τ R σ O E Unit → Prop) : Work τ R σ O E → Prop
  | .failed _ => False
  | w => ∀ t ∈ task w, H t.code

def owedPending (s₀ : σ) (ps : List (τ × Work τ R σ O E)) : Multiset O :=
  (ps.map fun x => workOwed s₀ x.2).sum

def owedWaiting [Fintype R] (s₀ : σ) (env : Env τ R σ O E) : Multiset O :=
  ∑ r, ((env.res r).waiting.map fun w => owed s₀ w.task.code).sum

/-- What is owed by pending and waiting processes. -/
def scheduled [Fintype R] (s₀ : σ) (extra : List (Work τ R σ O E)) (env : Env τ R σ O E) :
    Multiset O :=
  owedPending s₀ (pending extra env) + owedWaiting s₀ env

/-- Outputs owed and outputs made. -/
def due [Fintype R] (s₀ : σ) (extra : List (Work τ R σ O E)) (env : Env τ R σ O E) :
    Multiset O :=
  scheduled s₀ extra env + (env.out.map Output.value : List O)

/-- The tasks that are pending or wait are of the kind `H`. -/
structure EachTask (P : σ → Prop) (H : Gen τ R σ O E Unit → Prop)
    (extra : List (Work τ R σ O E)) (env : Env τ R σ O E) : Prop where
  comp : P env.comp
  tasks : ∀ x ∈ pending extra env, WorkOf H x.2
  waiting : ∀ r, ∀ w ∈ (env.res r).waiting, H w.task.code

variable [DecidableEq R] {P : σ → Prop} {s₀ : σ} {H : Gen τ R σ O E Unit → Prop}

omit [DecidableEq R] in
theorem EachTask.schedule {env : Env τ R σ O E} {prio : Priority} {d : τ}
    {w : Work τ R σ O E} (h : EachTask P H [] env) (hw : WorkOf H w) :
    EachTask P H [] (env.schedule prio d w) := by
  refine ⟨h.comp, fun x hx => ?_, h.waiting⟩
  rcases mem_pending_schedule.mp hx with rfl | hx
  · exact hw
  · exact h.tasks x hx

omit [DecidableEq R] in
theorem due_schedule [Fintype R] (env : Env τ R σ O E) (prio : Priority) (d : τ)
    (w : Work τ R σ O E) :
    due s₀ [] (env.schedule prio d w) = workOwed s₀ w + due s₀ [] env := by
  have hperm : owedPending s₀ (pending [] (env.schedule prio d w)) =
      workOwed s₀ w + owedPending s₀ (pending [] env) := by
    unfold owedPending
    rw [((pending_schedule env prio d w).map _).sum_eq, List.map_cons, List.sum_cons]
  unfold due scheduled
  rw [hperm]
  simp only [owedWaiting, Env.schedule_res, Env.schedule_out, add_assoc]

/-- A resource that gives up part of its queue. -/
theorem owedWaiting_setRes [Fintype R] (env : Env τ R σ O E) (r : R) (x : Resource τ R σ O E)
    {m : Multiset O} (h : (x.waiting.map fun w => owed s₀ w.task.code).sum + m =
      ((env.res r).waiting.map fun w => owed s₀ w.task.code).sum) :
    owedWaiting s₀ (env.setRes r x) + m = owedWaiting s₀ env := by
  have hsum := ActionSystem.sum_update_balance
    (fun _ (x : Resource τ R σ O E) => (x.waiting.map fun w => owed s₀ w.task.code).sum)
    env.res r x (a := 0) (b := m) (by rw [h, add_zero])
  rwa [add_zero] at hsum

theorem EachTask.trigger {env : Env τ R σ O E} (r : R) (h : EachTask P H [] env) :
    EachTask P H [] (env.trigger r) := by
  unfold Env.trigger
  split
  · exact h
  rename_i w ws hws
  split
  swap
  · exact h
  have hmem : ∀ v ∈ w :: ws, H v.task.code := hws ▸ h.waiting r
  apply EachTask.schedule
  · refine ⟨h.comp, h.tasks, fun q v hv => ?_⟩
    by_cases hq : q = r
    · subst hq
      simp only [Env.setRes_res, Function.update_self] at hv
      exact hmem v (List.mem_cons_of_mem w hv)
    · simp only [Env.setRes_res, Function.update_of_ne hq] at hv
      exact h.waiting q v hv
  · intro t ht
    cases ht
    exact hmem w List.mem_cons_self

theorem due_trigger [Fintype R] (env : Env τ R σ O E) (r : R) :
    due s₀ [] (env.trigger r) = due s₀ [] env := by
  unfold Env.trigger
  split
  · rfl
  rename_i w ws hws
  split
  swap
  · rfl
  have hwait : owedWaiting s₀ (env.setRes r ⟨(env.res r).capacity, (env.res r).users + 1, ws⟩) +
      owed s₀ w.task.code = owedWaiting s₀ env := by
    apply owedWaiting_setRes
    rw [hws, List.map_cons, List.sum_cons, add_comm]
  rw [due_schedule]
  unfold due scheduled
  rw [← hwait]
  simp only [workOwed, task, pending_setRes, Env.setRes_out]
  abel

theorem EachTask.request {env : Env τ R σ O E} (r : R) (d : Option (Delay τ))
    {t : Task τ R σ O E} (h : EachTask P H [] env) (ht : H t.code) :
    EachTask P H [] (env.request r d t) := by
  apply EachTask.trigger
  refine ⟨h.comp, h.tasks, fun q v hv => ?_⟩
  by_cases hq : q = r
  · subst hq
    simp only [Env.setRes_res, Function.update_self] at hv
    rcases List.mem_append.mp hv with hv | hv
    · exact h.waiting q v hv
    · rw [List.mem_singleton.mp hv]
      exact ht
  · simp only [Env.setRes_res, Function.update_of_ne hq] at hv
    exact h.waiting q v hv

theorem due_request [Fintype R] (env : Env τ R σ O E) (r : R) (d : Option (Delay τ))
    (t : Task τ R σ O E) :
    due s₀ [] (env.request r d t) = owed s₀ t.code + due s₀ [] env := by
  have hwait := ActionSystem.sum_update_balance
    (fun _ (x : Resource τ R σ O E) => (x.waiting.map fun w => owed s₀ w.task.code).sum)
    env.res r { env.res r with waiting := (env.res r).waiting ++ [⟨env.now, d, t⟩] }
    (a := owed s₀ t.code) (b := 0) (by simp)
  unfold Env.request
  rw [due_trigger]
  unfold due scheduled
  rw [add_zero] at hwait
  simp only [owedWaiting, Env.setRes_res, hwait, pending_setRes, Env.setRes_out]
  abel

theorem EachTask.release {env : Env τ R σ O E} (r : R) (h : EachTask P H [] env) :
    EachTask P H [] (env.release r) := by
  apply EachTask.schedule
  · refine ⟨h.comp, h.tasks, fun q v hv => h.waiting q v ?_⟩
    by_cases hq : q = r
    · subst hq
      simpa using hv
    · simpa [Function.update_of_ne hq] using hv
  · rintro t ⟨⟩

theorem due_release [Fintype R] (env : Env τ R σ O E) (r : R) :
    due s₀ [] (env.release r) = due s₀ [] env := by
  have hwait : owedWaiting s₀ (env.setRes r { env.res r with users := (env.res r).users - 1 }) + 0 =
      owedWaiting s₀ env := owedWaiting_setRes env r _ (add_zero _)
  unfold Env.release
  rw [due_schedule]
  unfold due scheduled
  rw [← hwait]
  simp [workOwed, task]

/-! ### Running a task -/

variable {accepts : Gen τ R σ O E Unit → σ → Prop} {counted : O → Bool}

omit [DecidableEq R] in
theorem EachTask.write {env : Env τ R σ O E} {s : σ} (h : EachTask P H [] env)
    (hs : P s) : EachTask P H [] { env with comp := s } := ⟨hs, h.tasks, h.waiting⟩

omit [DecidableEq R] in
theorem EachTask.emit {env : Env τ R σ O E} (o : Output τ R O) (h : EachTask P H [] env) :
    EachTask P H [] { env with out := env.out ++ [o] } := ⟨h.comp, h.tasks, h.waiting⟩

omit [DecidableEq R] in
theorem due_emit [Fintype R] (env : Env τ R σ O E) (o : Output τ R O) :
    due s₀ [] { env with out := env.out ++ [o] } = o.value ::ₘ due s₀ [] env := by
  unfold due
  rw [List.map_append, ← Multiset.coe_add, ← add_assoc, add_comm, ← Multiset.singleton_add]
  rfl

/-- Running a generator up to its next `yield` pays some of its debt and schedules the rest. -/
theorem run_settles [Fintype R] (hH : ∀ g, Honest P s₀ accepts g → H g) (born : τ)
    (g : Gen τ R σ O E Unit) (cs : List (Option R × τ)) (env : Env τ R σ O E)
    (hset : Settles g) (hg : Honest P s₀ accepts g) (h : EachTask P H [] env) :
    EachTask P H [] (Env.run born g cs env) ∧
      due s₀ [] (Env.run born g cs env) = owed s₀ g + due s₀ [] env := by
  have hresume : ∀ (next : Gen τ R σ O E Unit) (cs : List (Option R × τ)),
      Honest P s₀ accepts next → WorkOf H (.resume ⟨next, born, cs⟩) := by
    rintro next cs hn t ⟨⟩
    exact hH next hn
  induction g generalizing cs env with
  | ret a => exact ⟨h.schedule (by rintro t ⟨⟩), due_schedule env _ _ _⟩
  | raise e => exact hg.elim
  | timeout d next => exact ⟨h.schedule (hresume _ _ hg), due_schedule env _ _ _⟩
  | hold r d next => exact ⟨h.request r d (hH next hg), due_request env r d _⟩
  | relay prio next => exact ⟨h.schedule (hresume _ _ hg), due_schedule env _ _ _⟩
  | read next => exact hset.elim
  | write s next ih => exact ih cs _ hg.2.1 hg.2.2 (h.write hg.1)
  | emit o next ih =>
      obtain ⟨hn, hrest⟩ := ih cs _ hg.1 hg.2 (h.emit ⟨env.now, born, cs, o⟩)
      refine ⟨hn, hrest.trans ?_⟩
      rw [due_emit, Multiset.add_cons]
      exact (Multiset.cons_add o _ _).symm

/-- The same for a generator that first reads an accepted state. -/
theorem runTask_honest [Fintype R] (hH : ∀ g, Honest P s₀ accepts g → H g)
    {env : Env τ R σ O E} {t : Task τ R σ O E} (ht : Honest P s₀ accepts t.code)
    (hok : accepts t.code env.comp) (h : EachTask P H [] env) :
    EachTask P H [] (env.runTask t) ∧
      due s₀ [] (env.runTask t) = owed s₀ t.code + due s₀ [] env := by
  obtain ⟨code, born, cs⟩ := t
  cases code with
  | read next =>
      obtain ⟨hset, hn, howed⟩ := ht env.comp h.comp hok
      have hrun := run_settles hH born (next env.comp) cs env hset hn h
      exact ⟨hrun.1, hrun.2.trans (by rw [howed]; rfl)⟩
  | write s next => exact run_settles hH born _ cs env ht.2.1 ht h
  | emit o next => exact run_settles hH born _ cs env ht.1 ht h
  | ret | raise | timeout | hold | relay => exact run_settles hH born _ cs env trivial ht h

/-- The generator makes no output that counts. -/
def Silent (P : σ → Prop) (counted : O → Bool) (g : Gen τ R σ O E Unit) : Prop :=
  ∃ cs, Ensures P (fun _ o => counted o = false) (fun _ _ => True) g cs

omit [AddCommGroup τ] [LinearOrder τ] [DecidableEq R] in
theorem owed_silent [Zero τ] [LE τ] (hs₀ : P s₀) (g : Gen τ R σ O E Unit)
    {cs : List (Option R × τ)}
    (hg : Ensures P (fun _ o => counted o = false) (fun _ _ => True) g cs) :
    (owed s₀ g).filter (counted ·) = 0 := by
  induction g generalizing cs with
  | ret a => rfl
  | raise e => rfl
  | timeout d next ih => exact ih hg
  | hold r d next ih => cases d <;> exact ih hg
  | relay prio next ih => exact ih hg
  | read next ih => exact ih s₀ (hg s₀ hs₀)
  | write s next ih => exact ih hg.2
  | emit o next ih =>
      change Multiset.filter _ (o ::ₘ owed s₀ next) = 0
      rw [Multiset.filter_cons_of_neg _ (by rw [hg.1]; exact Bool.false_ne_true)]
      exact ih hg.2

/-- As long as it does not raise, what counts stays as it is. -/
theorem run_silent [Fintype R] (hs₀ : P s₀) (hH : ∀ g, Silent P counted g → H g) (born : τ)
    (g : Gen τ R σ O E Unit) (cs : List (Option R × τ)) (env : Env τ R σ O E)
    {cs' : List (Option R × τ)}
    (hg : Ensures P (fun _ o => counted o = false) (fun _ _ => True) g cs')
    (hraises : raises g env.comp = false) (h : EachTask P H [] env) :
    EachTask P H [] (Env.run born g cs env) ∧
      (due s₀ [] (Env.run born g cs env)).filter (counted ·) =
        (due s₀ [] env).filter (counted ·) := by
  have hresume : ∀ (next : Gen τ R σ O E Unit) (cs cs' : List (Option R × τ)),
      Ensures P (fun _ o => counted o = false) (fun _ _ => True) next cs' →
      WorkOf H (.resume ⟨next, born, cs⟩) := by
    rintro next cs cs' hn t ⟨⟩
    exact hH next ⟨cs', hn⟩
  have hnothing : ∀ (next : Gen τ R σ O E Unit) (cs' : List (Option R × τ)) (m : Multiset O),
      Ensures P (fun _ o => counted o = false) (fun _ _ => True) next cs' →
      (owed s₀ next + m).filter (counted ·) = m.filter (counted ·) := by
    intro next cs' m hn
    rw [Multiset.filter_add, owed_silent hs₀ next hn, zero_add]
  induction g generalizing cs cs' env with
  | ret a =>
      refine ⟨h.schedule (by rintro t ⟨⟩), ?_⟩
      exact congrArg _ ((due_schedule env .normal 0 .ended).trans (zero_add _))
  | raise e => cases hraises
  | timeout d next =>
      refine ⟨h.schedule (hresume _ _ _ hg), ?_⟩
      exact (congrArg _ (due_schedule env _ _ _)).trans (hnothing next _ _ hg)
  | hold r d next =>
      have hn : ∃ ds, Ensures P (fun _ o => counted o = false) (fun _ _ => True) next ds := by
        cases d <;> exact ⟨_, hg⟩
      obtain ⟨ds, hn⟩ := hn
      refine ⟨h.request r d (hH next ⟨ds, hn⟩), ?_⟩
      exact (congrArg _ (due_request env r d _)).trans (hnothing next ds _ hn)
  | relay prio next =>
      refine ⟨h.schedule (hresume _ _ _ hg), ?_⟩
      exact (congrArg _ (due_schedule env _ _ _)).trans (hnothing next _ _ hg)
  | read next ih => exact ih env.comp cs env (hg env.comp h.comp) hraises h
  | write s next ih => exact ih cs { env with comp := s } hg.2 hraises (h.write hg.1)
  | emit o next ih =>
      obtain ⟨hn, hrest⟩ := ih cs { env with out := env.out ++ [⟨env.now, born, cs, o⟩] } hg.2
        hraises (h.emit ⟨env.now, born, cs, o⟩)
      refine ⟨hn, hrest.trans ?_⟩
      rw [due_emit, Multiset.filter_cons_of_neg _ (by rw [hg.1]; exact Bool.false_ne_true)]

/-- A task of the kind `H` that is run from an accepted state moves or pays its debt, as far as
it counts. -/
def Settling [Fintype R] (P : σ → Prop) (s₀ : σ) (accepts : Gen τ R σ O E Unit → σ → Prop)
    (counted : O → Bool) (H : Gen τ R σ O E Unit → Prop) : Prop :=
  ∀ (env : Env τ R σ O E) (t : Task τ R σ O E), H t.code → accepts t.code env.comp →
    EachTask P H [] env → EachTask P H [] (env.runTask t) ∧
      (due s₀ [] (env.runTask t)).filter (counted ·) =
        (owed s₀ t.code + due s₀ [] env).filter (counted ·)

theorem settling_honest [Fintype R] :
    Settling P s₀ accepts counted (Honest (τ := τ) (R := R) (E := E) P s₀ accepts) := by
  intro env t ht hok h
  obtain ⟨hn, hdue⟩ := runTask_honest (fun _ hg => hg) ht hok h
  exact ⟨hn, congrArg _ hdue⟩

/-- Nothing that is resumed raises. -/
theorem settling_mixed [Fintype R] (hs₀ : P s₀)
    (haccepts : ∀ g s, accepts g s → raises g s = false) :
    Settling P s₀ accepts counted fun g : Gen τ R σ O E Unit =>
      Honest P s₀ accepts g ∨ Silent P counted g := by
  intro env t ht hok h
  rcases ht with ht | ⟨cs, ht⟩
  · obtain ⟨hn, hdue⟩ := runTask_honest (fun _ hg => .inl hg) ht hok h
    exact ⟨hn, congrArg _ hdue⟩
  · obtain ⟨hn, hdue⟩ := run_silent hs₀ (fun _ hg => .inr hg) t.born t.code t.charges env ht
      (haccepts _ _ hok) h
    refine ⟨hn, hdue.trans ?_⟩
    rw [Multiset.filter_add, owed_silent hs₀ t.code ht, zero_add]

/-! ### One step -/

omit [DecidableEq R] in
theorem EachTask.drop {env : Env τ R σ O E} {w : Work τ R σ O E}
    (h : EachTask P H [w] env) : WorkOf H w ∧ EachTask P H [] env :=
  ⟨h.tasks _ List.mem_cons_self, h.comp,
    fun x hx => h.tasks x (List.mem_cons_of_mem _ hx), h.waiting⟩

omit [DecidableEq R] in
theorem due_cons [Fintype R] (w : Work τ R σ O E) (env : Env τ R σ O E) :
    due s₀ [w] env = workOwed s₀ w + due s₀ [] env := by
  unfold due scheduled owedPending
  rw [pending_cons, List.map_cons, List.sum_cons, add_assoc, add_assoc, add_assoc]

/-- How an event can end: it is not an exception, and outputs made and outputs owed add up as
before, as far as they count. -/
inductive Delivers [Fintype R] (P : σ → Prop) (s₀ : σ) (counted : O → Bool)
    (H : Gen τ R σ O E Unit → Prop) (m : Multiset O) : Env.Step τ R σ O E → Prop
  | next (env : Env τ R σ O E) : EachTask P H [] env → (due s₀ [] env).filter (counted ·) = m →
      Delivers P s₀ counted H m (.next env)
  | stopped (env : Env τ R σ O E) : EachTask P H [] env →
      (due s₀ [] env).filter (counted ·) = m → Delivers P s₀ counted H m (.stopped env)

/-- A task that is resumed as it leaves a resource. -/
theorem release_delivers [Fintype R] (hsettling : Settling P s₀ accepts counted H)
    {env : Env τ R σ O E} {r : R} {t : Task τ R σ O E} (henv : EachTask P H [] env)
    (ht : H t.code) (hok : accepts t.code env.comp) :
    Delivers P s₀ counted H ((owed s₀ t.code + due s₀ [] env).filter (counted ·))
      (.next ((env.release r).runTask t)) := by
  have hcomp : accepts t.code (env.release r).comp := hok
  obtain ⟨hn, hd⟩ := hsettling _ t ht hcomp (henv.release r)
  refine .next _ hn (hd.trans ?_)
  rw [due_release]

theorem fire_delivers [Fintype R] (hsettling : Settling P s₀ accepts counted H)
    {env : Env τ R σ O E} {w : Work τ R σ O E} (h : EachTask P H [w] env)
    (hok : ∀ t ∈ resumed w, accepts t.code env.comp) :
    Delivers P s₀ counted H ((due s₀ [w] env).filter (counted ·)) (env.fire w) := by
  obtain ⟨hw, henv⟩ := h.drop
  rw [due_cons]
  cases w with
  | resume t =>
      obtain ⟨hn, hd⟩ := hsettling env t (hw t rfl) (hok t rfl) henv
      exact .next _ hn hd
  | grant r d t =>
      cases d with
      | some d =>
          refine .next _ (EachTask.schedule ⟨henv.comp, henv.tasks, henv.waiting⟩ ?_)
            (congrArg _ (due_schedule _ _ _ _))
          rintro t' ⟨⟩
          exact hw t rfl
      | none =>
          exact release_delivers hsettling henv (hw t rfl) (hok t rfl)
  | leave r t => exact release_delivers hsettling henv (hw t rfl) (hok t rfl)
  | released r =>
      exact .next _ (henv.trigger r) (congrArg _ ((due_trigger env r).trans (zero_add _).symm))
  | ended => exact .next _ henv (congrArg _ (zero_add _).symm)
  | failed e => exact hw.elim
  | stop => exact .stopped _ henv (congrArg _ (zero_add _).symm)

theorem step_delivers [Fintype R] (hsettling : Settling P s₀ accepts counted H)
    {env : Env τ R σ O E} {st : Env.Step τ R σ O E} (h : EachTask P H [] env)
    (hok : ∀ p ∈ env.queue.pop, ∀ t ∈ resumed p.1.work, accepts t.code env.comp)
    (hst : env.step = some st) :
    Delivers P s₀ counted H ((due s₀ [] env).filter (counted ·)) st := by
  obtain ⟨⟨e, q⟩, hp, rfl⟩ := Option.map_eq_some_iff.mp hst
  have hpend := pending_pop hp
  have hdue : due s₀ [e.work] (afterPop env e q) = due s₀ [] env := by
    unfold due scheduled
    rw [hpend]
    rfl
  rw [← hdue]
  refine fire_delivers hsettling ⟨h.comp, ?_, h.waiting⟩ (hok (e, q) hp)
  exact hpend ▸ h.tasks

/-! ### Starting processes -/

omit [DecidableEq R] in
/-- The clock may be set to anything. -/
theorem EachTask.setNow {env : Env τ R σ O E} (h : EachTask P H [] env) (now : τ) :
    EachTask P H [] (setNow env now) := ⟨h.comp, h.tasks, h.waiting⟩

omit [DecidableEq R] in
theorem EachTask.start {env : Env τ R σ O E} (h : EachTask P H [] env)
    {g : Gen τ R σ O E Unit} (hg : H g) : EachTask P H [] (env.start g) := by
  apply h.schedule
  rintro t ⟨⟩
  exact hg

omit [DecidableEq R] in
theorem EachTask.stopAt {env : Env τ R σ O E} (h : EachTask P H [] env) (u : τ) :
    EachTask P H [] (stopAt env u) :=
  h.schedule (by rintro t ⟨⟩)

omit [DecidableEq R] in
theorem due_start [Fintype R] (env : Env τ R σ O E) (g : Gen τ R σ O E Unit) :
    due s₀ [] (env.start g) = owed s₀ g + due s₀ [] env := due_schedule env _ _ _

omit [DecidableEq R] in
theorem due_stopAt [Fintype R] (env : Env τ R σ O E) (u : τ) :
    due s₀ [] (stopAt env u) = due s₀ [] env :=
  (due_schedule env _ _ _).trans (zero_add _)

/-! ### Nobody waits for ever -/

/-- Units in use belong to pending processes, and requests wait only for such units. Unlike
`Valid`, this does not depend on the clock. -/
structure Staffed (extra : List (Work τ R σ O E)) (env : Env τ R σ O E) : Prop where
  users : ∀ r, (env.res r).users = count (Holds r) (pending extra env)
  busy : ∀ r, Busy extra env r

theorem Staffed.drop {env : Env τ R σ O E} {w : Work τ R σ O E} (h : Staffed [w] env)
    (hholds : ∀ r, Holds r w = false) (hfrees : ∀ r, Frees r w = false) : Staffed [] env where
  users r := by simpa [pending_cons, hholds] using h.users r
  busy r := (h.busy r).drop (hfrees r)

theorem Staffed.schedule {env : Env τ R σ O E} {prio : Priority} {d : τ} {w : Work τ R σ O E}
    (h : Staffed [] env) (hholds : ∀ r, Holds r w = false) :
    Staffed [] (env.schedule prio d w) where
  users r := by
    rw [count_schedule, hholds]
    exact h.users r
  busy r := (h.busy r).schedule

theorem users_trigger {env : Env τ R σ O E} {r : R}
    (h : ∀ q, (env.res q).users = count (Holds q) (pending [] env)) (q : R) :
    ((env.trigger r).res q).users = count (Holds q) (pending [] (env.trigger r)) := by
  unfold Env.trigger
  split
  · exact h q
  split
  · rw [count_schedule, pending_setRes, ← h q]
    by_cases hq : q = r
    · subst hq
      simp
    · simp [Function.update_of_ne hq, Ne.symm hq]
  · exact h q

theorem Staffed.request {env : Env τ R σ O E} (h : Staffed [] env) (r : R)
    (d : Option (Delay τ)) (t : Task τ R σ O E) : Staffed [] (env.request r d t) where
  users := by
    apply users_trigger
    intro q
    by_cases hq : q = r
    · subst hq
      simpa using h.users q
    · simpa [Function.update_of_ne hq] using h.users q
  busy := Busy.request h.busy r d t

theorem Staffed.release {env : Env τ R σ O E} {r : R} {w : Work τ R σ O E}
    (h : Staffed [w] env) (hw : ∀ q, Holds q w = true ↔ q = r)
    (hfrees : ∀ q, Frees q w = false) : Staffed [] (env.release r) where
  users q := by
    have husers := h.users q
    rw [pending_cons, count_cons] at husers
    unfold Env.release
    rw [count_schedule, pending_setRes]
    by_cases hq : q = r
    · subst hq
      simp [husers, (hw q).mpr rfl]
    · have hne : Holds q w = false := by simpa using fun hh => hq ((hw q).mp hh)
      simp [husers, Function.update_of_ne hq, hne]
  busy q := (h.busy q).release (h.users q) hw (hfrees q)

theorem Staffed.run {born : τ} (g : Gen τ R σ O E Unit) (cs : List (Option R × τ))
    (env : Env τ R σ O E) (h : Staffed [] env) : Staffed [] (Env.run born g cs env) := by
  induction g generalizing cs env with
  | hold r d next => exact h.request r d _
  | read next ih => exact ih _ cs env h
  | write s next ih => exact ih cs _ ⟨h.users, h.busy⟩
  | emit o next ih => exact ih cs _ ⟨h.users, h.busy⟩
  | ret | raise | timeout | relay => exact h.schedule fun _ => rfl

theorem Staffed.fire {env env' : Env τ R σ O E} {w : Work τ R σ O E} (h : Staffed [w] env)
    (hf : env.fire w = .next env' ∨ env.fire w = .stopped env') : Staffed [] env' := by
  cases w with
  | resume t =>
      obtain hf | hf := hf <;> cases hf
      exact (h.drop (fun _ => rfl) fun _ => rfl).run _ _ _
  | grant r d t =>
      have hholds : ∀ q, Holds q (Work.grant r d t) = true ↔ q = r := by simp [eq_comm]
      cases d with
      | some d =>
          obtain hf | hf := hf <;> cases hf
          refine ⟨fun q => ?_, fun q => ((h.busy q).drop rfl).schedule⟩
          unfold Env.serve
          rw [count_schedule]
          change (env.res q).users = count (Holds q) (pending [] env) + _
          simpa [pending_cons] using h.users q
      | none =>
          obtain hf | hf := hf <;> cases hf
          exact (h.release hholds fun _ => rfl).run _ _ _
  | leave r t =>
      have hholds : ∀ q, Holds q (Work.leave r t) = true ↔ q = r := by simp [eq_comm]
      obtain hf | hf := hf <;> cases hf
      exact (h.release hholds fun _ => rfl).run _ _ _
  | released r =>
      obtain hf | hf := hf <;> cases hf
      refine ⟨users_trigger fun q => ?_, Busy.released h.busy⟩
      simpa [pending_cons] using h.users q
  | ended =>
      obtain hf | hf := hf <;> cases hf
      exact h.drop (fun _ => rfl) fun _ => rfl
  | failed e => obtain hf | hf := hf <;> cases hf
  | stop =>
      obtain hf | hf := hf <;> cases hf
      exact h.drop (fun _ => rfl) fun _ => rfl

theorem Staffed.step {env env' : Env τ R σ O E} (h : Staffed [] env)
    (hst : env.step = some (.next env') ∨ env.step = some (.stopped env')) :
    Staffed [] env' := by
  have hpop : ∀ {st}, env.step = some st → ∃ e q, Staffed [e.work] (afterPop env e q) ∧
      (afterPop env e q).fire e.work = st := by
    intro st hst
    obtain ⟨⟨e, q⟩, hp, hf⟩ := Option.map_eq_some_iff.mp hst
    have hpend := pending_pop hp
    refine ⟨e, q, ⟨fun r => ?_, fun r => ?_⟩, hf⟩
    · rw [hpend]
      exact h.users r
    · unfold Busy
      rw [hpend]
      exact h.busy r
  obtain hst | hst := hst
  · obtain ⟨e, q, hs, hf⟩ := hpop hst
    exact hs.fire (.inl hf)
  · obtain ⟨e, q, hs, hf⟩ := hpop hst
    exact hs.fire (.inr hf)

/-- With nothing pending nobody waits, as long as every resource has a unit. -/
theorem Staffed.waiting_eq {env : Env τ R σ O E} (h : Staffed [] env)
    (hempty : env.queue.events = []) {r : R} (hcap : 0 < (env.res r).capacity) :
    (env.res r).waiting = [] := by
  by_contra hne
  have hbusy := h.busy r hne
  have husers := h.users r
  simp only [pending, hempty, List.map_nil, List.append_nil, count, List.countP_nil] at hbusy husers
  omega

omit [DecidableEq R] in
/-- What is left to do when nothing is pending and nobody waits. -/
theorem scheduled_eq_zero [Fintype R] {env : Env τ R σ O E} (hempty : env.queue.events = [])
    (hwait : ∀ r, (env.res r).waiting = []) : scheduled s₀ [] env = 0 := by
  simp [scheduled, owedPending, owedWaiting, pending, hempty, hwait]

end

end SmartDisk.EventDelivery
