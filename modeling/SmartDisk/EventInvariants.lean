import SmartDisk.DiscreteEvents
import Mathlib.Algebra.Order.Monoid.Defs
import Mathlib.Tactic.Abel

/-!
# Invariants of the event loop that survive a clock set backwards

Nothing here assumes that `now` grows from step to step. What a step relies on is
that the popped event is a minimum of the heap, so while its callbacks run every
other event lies ahead. `Sound` collects what holds of the heap, the waiting
requests and the outputs; `Ahead` and `Busy` complete it.

An invariant speaks of the work still to be done. Work that has been popped but
not carried out counts as pending at the current time, which makes the pop itself
invisible: see `pending_pop`.
-/
namespace SmartDisk.EventInvariants
open DiscreteEvents

variable {τ R σ O E α β : Type}

/-! ### Properties of a generator along its own path -/

section
variable [Zero τ] [LE τ]

/-- `Q` holds of every output together with the durations passed to `env.timeout`
before it, if the shared state satisfies `P` whenever it is read; every state that is
written satisfies `P`. -/
def Ensures (P : σ → Prop) (Q : List (Option R × τ) → O → Prop)
    (post : List (Option R × τ) → α → Prop) : Gen τ R σ O E α → List (Option R × τ) → Prop
  | .ret a, cs => post cs a
  | .raise _, _ => True
  | .timeout d next, cs => Ensures P Q post next (cs ++ [(none, d.1)])
  | .hold r (some d) next, cs => Ensures P Q post next (cs ++ [(some r, d.1)])
  | .hold _ none next, cs => Ensures P Q post next cs
  | .relay _ next, cs => Ensures P Q post next cs
  | .read next, cs => ∀ s, P s → Ensures P Q post (next s) cs
  | .write s next, cs => P s ∧ Ensures P Q post next cs
  | .emit o next, cs => Q cs o ∧ Ensures P Q post next cs

variable {P : σ → Prop} {Q : List (Option R × τ) → O → Prop}

theorem ensures_bind {post : List (Option R × τ) → β → Prop} (g : Gen τ R σ O E α)
    (f : α → Gen τ R σ O E β) (cs : List (Option R × τ)) :
    Ensures P Q post (g >>= f) cs ↔
      Ensures P Q (fun cs a => Ensures P Q post (f a) cs) g cs := by
  change Ensures P Q post (g.bind f) cs ↔ _
  induction g generalizing cs with
  | ret a => rfl
  | raise e => rfl
  | timeout d next ih => exact ih _
  | hold r d next ih =>
      cases d with
      | none => exact ih _
      | some d => exact ih _
  | relay p next ih => exact ih _
  | read next ih => exact forall_congr' fun s => imp_congr_right fun _ => ih s cs
  | write s next ih => exact and_congr_right fun _ => ih cs
  | emit o next ih => exact and_congr_right fun _ => ih cs

theorem ensures_ended {post : List (Option R × τ) → α → Prop} (g : Gen τ R σ O E α)
    (cs : List (Option R × τ)) : Ensures P Q post g.ended cs ↔ Ensures P Q post g cs := by
  induction g generalizing cs with
  | ret a => rfl
  | raise e => rfl
  | timeout d next ih => exact ih _
  | hold r d next ih =>
      cases d with
      | none => exact ih _
      | some d => exact ih _
  | relay p next ih => exact ih _
  | read next ih => exact forall_congr' fun s => imp_congr_right fun _ => ih s cs
  | write s next ih => exact and_congr_right fun _ => ih cs
  | emit o next ih => exact and_congr_right fun _ => ih cs

/-- A sub-process is transparent. -/
theorem ensures_process {post : List (Option R × τ) → α → Prop} (g : Gen τ R σ O E α)
    (cs : List (Option R × τ)) : Ensures P Q post g.process cs ↔ Ensures P Q post g cs :=
  ensures_ended g cs

theorem Ensures.mono {post post' : List (Option R × τ) → α → Prop}
    (h : ∀ cs a, post cs a → post' cs a) {g : Gen τ R σ O E α} {cs : List (Option R × τ)}
    (hg : Ensures P Q post g cs) : Ensures P Q post' g cs := by
  induction g generalizing cs with
  | ret a => exact h _ _ hg
  | raise e => trivial
  | timeout d next ih => exact ih hg
  | hold r d next ih =>
      cases d with
      | none => exact ih hg
      | some d => exact ih hg
  | relay p next ih => exact ih hg
  | read next ih => exact fun s hs => ih s (hg s hs)
  | write s next ih => exact ⟨hg.1, ih hg.2⟩
  | emit o next ih => exact ⟨hg.1, ih hg.2⟩

theorem Ensures.mono_out {Q' : List (Option R × τ) → O → Prop}
    {post : List (Option R × τ) → α → Prop} (h : ∀ cs o, Q cs o → Q' cs o)
    {g : Gen τ R σ O E α} {cs : List (Option R × τ)} (hg : Ensures P Q post g cs) :
    Ensures P Q' post g cs := by
  induction g generalizing cs with
  | ret a => exact hg
  | raise e => trivial
  | timeout d next ih => exact ih hg
  | hold r d next ih =>
      cases d with
      | none => exact ih hg
      | some d => exact ih hg
  | relay p next ih => exact ih hg
  | read next ih => exact fun s hs => ih s (hg s hs)
  | write s next ih => exact ⟨hg.1, ih hg.2⟩
  | emit o next ih => exact ⟨h cs o hg.1, ih hg.2⟩

end

theorem total_append [AddMonoid τ] (cs ds : List (Option R × τ)) :
    total (cs ++ ds) = total cs + total ds := by
  simp [total]

@[simp] theorem total_singleton [AddMonoid τ] (c : Option R × τ) : total [c] = c.2 := by
  simp [total]

/-! ### The work still to be done -/

section
variable [AddCommGroup τ] [LinearOrder τ]

/-- Popped work `extra`, at the current time, and the events of the heap. -/
def pending (extra : List (Work τ R σ O E)) (env : Env τ R σ O E) :
    List (τ × Work τ R σ O E) :=
  extra.map (Prod.mk env.now) ++ env.queue.events.map fun e => (e.time, e.work)

def afterPop (env : Env τ R σ O E) (e : Event τ (Work τ R σ O E))
    (h : Heap τ (Work τ R σ O E)) : Env τ R σ O E :=
  { env with now := e.time, queue := h }

theorem pending_pop {env : Env τ R σ O E} {e : Event τ (Work τ R σ O E)}
    {h : Heap τ (Work τ R σ O E)} (hp : env.queue.pop = some (e, h)) :
    pending [e.work] (afterPop env e h) = pending [] env := by
  simp [pending, afterPop, Heap.pop_events hp]

theorem pending_cons (w : Work τ R σ O E) (env : Env τ R σ O E) :
    pending [w] env = (env.now, w) :: pending [] env := rfl

theorem pending_schedule (env : Env τ R σ O E) (prio : Priority) (d : τ)
    (w : Work τ R σ O E) :
    (pending [] (env.schedule prio d w)).Perm ((env.now + d, w) :: pending [] env) :=
  (Heap.push_perm _ _).map _

/-- The work belongs to a process that holds a unit of `r`. -/
def Holds [DecidableEq R] (r : R) : Work τ R σ O E → Bool
  | .grant r' _ _ => r' = r
  | .leave r' _ => r' = r
  | _ => false

/-- A freed unit of `r` is about to be passed on. -/
def Frees [DecidableEq R] (r : R) : Work τ R σ O E → Bool
  | .released r' => r' = r
  | _ => false

section
variable [DecidableEq R] (q r : R) (d : Option (Delay τ)) (t : Task τ R σ O E)

@[simp] theorem holds_resume : Holds q (.resume t) = false := rfl
@[simp] theorem holds_grant : Holds q (.grant r d t) = decide (r = q) := rfl
@[simp] theorem holds_leave : Holds q (.leave r t) = decide (r = q) := rfl
@[simp] theorem holds_released : Holds q (.released r : Work τ R σ O E) = false := rfl
@[simp] theorem frees_resume : Frees q (.resume t) = false := rfl
@[simp] theorem frees_grant : Frees q (.grant r d t) = false := rfl
@[simp] theorem frees_leave : Frees q (.leave r t) = false := rfl
@[simp] theorem frees_released :
    Frees q (.released r : Work τ R σ O E) = decide (r = q) := rfl

end

def count (p : Work τ R σ O E → Bool) (ps : List (τ × Work τ R σ O E)) : ℕ :=
  ps.countP fun x => p x.2

@[simp] theorem count_cons (p : Work τ R σ O E → Bool) (x : τ × Work τ R σ O E)
    (ps : List (τ × Work τ R σ O E)) :
    count p (x :: ps) = count p ps + if p x.2 then 1 else 0 := by
  simp [count, List.countP_cons]

theorem count_schedule (p : Work τ R σ O E → Bool) (env : Env τ R σ O E) (prio : Priority)
    (d : τ) (w : Work τ R σ O E) :
    count p (pending [] (env.schedule prio d w)) =
      count p (pending [] env) + if p w then 1 else 0 := by
  rw [count, (pending_schedule env prio d w).countP_eq, ← count, count_cons]

theorem mem_pending_schedule {env : Env τ R σ O E} {prio : Priority} {d : τ}
    {w : Work τ R σ O E} {x : τ × Work τ R σ O E} :
    x ∈ pending [] (env.schedule prio d w) ↔ x = (env.now + d, w) ∨ x ∈ pending [] env := by
  rw [(pending_schedule env prio d w).mem_iff, List.mem_cons]

theorem exists_of_count_pos {p : Work τ R σ O E → Bool} {ps : List (τ × Work τ R σ O E)}
    (h : 0 < count p ps) : ∃ x ∈ ps, p x.2 = true := by
  simpa [count] using h

end

/-! ### Soundness -/

section
variable [AddCommGroup τ] [LinearOrder τ]
variable (P : σ → Prop) (Q : τ → List (Option R × τ) → O → Prop)

/-- A task that may be resumed at `time`: it is not ahead of its own durations. -/
def Fit (time : τ) (t : Task τ R σ O E) : Prop :=
  t.born + total t.charges ≤ time ∧ Ensures P (Q t.born) (fun _ _ => True) t.code t.charges

/-- The same for a task that waits to be served by `r` for the duration `d`. -/
def Waits (r : R) (d : Option (Delay τ)) (time : τ) (t : Task τ R σ O E) : Prop :=
  Fit P Q time { t with code := .hold r d t.code }

def Meets (time : τ) : Work τ R σ O E → Prop
  | .resume t | .leave _ t => Fit P Q time t
  | .grant r d t => Waits P Q r d time t
  | _ => True

/-- Work that `run` schedules by itself. -/
def Passive : Work τ R σ O E → Prop
  | .resume _ | .ended | .failed _ => True
  | _ => False

theorem Waits.mono {r : R} {d : Option (Delay τ)} {a b : τ} {t : Task τ R σ O E}
    (h : Waits P Q r d a t) (hab : a ≤ b) : Waits P Q r d b t :=
  ⟨h.1.trans hab, h.2⟩

/-- `I` is kept by everything a running generator does before its next `yield`. -/
structure Stays [DecidableEq R] (I : Env τ R σ O E → Prop) : Prop where
  comp : ∀ env, I env → P env.comp
  schedule : ∀ env prio d w, I env → 0 ≤ d → (prio = .urgent → d = 0) → Passive w →
    Meets P Q (env.now + d) w → I (env.schedule prio d w)
  request : ∀ env r d t, I env → Waits P Q r d env.now t → I (env.request r d t)
  write : ∀ env s, I env → P s → I { env with comp := s }
  emit : ∀ env o, I env → o.time = env.now → o.born + total o.charges ≤ o.time →
    Q o.born o.charges o.value → I { env with out := env.out ++ [o] }

variable [DecidableEq R] [IsOrderedAddMonoid τ] {P Q}

theorem Stays.run {I : Env τ R σ O E → Prop} (h : Stays P Q I) {born : τ}
    (g : Gen τ R σ O E Unit) (cs : List (Option R × τ)) (env : Env τ R σ O E) (henv : I env)
    (hfit : Fit P Q env.now ⟨g, born, cs⟩) : I (Env.run born g cs env) := by
  obtain ⟨hdue, hcode⟩ := hfit
  induction g generalizing cs env with
  | ret a => exact h.schedule _ _ _ _ henv le_rfl (by simp) trivial trivial
  | raise e => exact h.schedule _ _ _ _ henv le_rfl (by simp) trivial trivial
  | timeout d next ih =>
      refine h.schedule _ _ _ _ henv d.2 (by simp) trivial ⟨?_, hcode⟩
      rw [total_append, total_singleton, ← add_assoc]
      exact add_le_add_left hdue d.1
  | hold r d next ih => exact h.request _ _ _ _ henv ⟨hdue, hcode⟩
  | relay prio next ih =>
      refine h.schedule _ _ _ _ henv le_rfl (fun _ => rfl) trivial ⟨?_, hcode⟩
      rw [add_zero]
      exact hdue
  | read next ih => exact ih _ cs env henv hdue (hcode _ (h.comp _ henv))
  | write s next ih => exact ih cs _ (h.write _ _ henv hcode.1) hdue hcode.2
  | emit o next ih => exact ih cs _ (h.emit _ _ henv rfl hdue hcode.1) hdue hcode.2

variable (P Q) in
/-- What holds between two steps and, with the popped work as `extra`, inside one. -/
structure Sound (extra : List (Work τ R σ O E)) (env : Env τ R σ O E) : Prop where
  comp : P env.comp
  tasks : ∀ x ∈ pending extra env, Meets P Q x.1 x.2
  waiting : ∀ r, ∀ w ∈ (env.res r).waiting, Waits P Q r w.delay w.asked w.task
  out : ∀ o ∈ env.out, o.born + total o.charges ≤ o.time ∧ Q o.born o.charges o.value
  behind : ∀ r, ∀ w ∈ (env.res r).waiting, ∀ x ∈ pending extra env,
    Holds r x.2 = true ∨ Frees r x.2 = true → w.asked ≤ x.1
  users : ∀ r, (env.res r).users = count (Holds r) (pending extra env)
  room : ∀ r, (env.res r).users ≤ (env.res r).capacity
  prompt : ∀ x ∈ pending extra env, ∀ r, Frees r x.2 = true →
    x.1 = env.now ∧ ∀ y ∈ pending extra env, env.now ≤ y.1

/-- A request waits only while every unit is in use or about to be passed on. -/
def Busy (extra : List (Work τ R σ O E)) (env : Env τ R σ O E) (r : R) : Prop :=
  (env.res r).waiting ≠ [] →
    (env.res r).capacity ≤ (env.res r).users + count (Frees r) (pending extra env)

/-- Nothing that is pending lies in the past. -/
def Ahead (env : Env τ R σ O E) : Prop := ∀ x ∈ pending [] env, env.now ≤ x.1

variable (P Q) in
/-- The state between two callbacks of one step. -/
structure Settled (env : Env τ R σ O E) : Prop where
  sound : Sound P Q [] env
  busy : ∀ r, Busy [] env r
  ahead : Ahead env

/-! ### Resources -/

omit [IsOrderedAddMonoid τ] in
@[simp] theorem pending_setRes (extra : List (Work τ R σ O E)) (env : Env τ R σ O E) (r : R)
    (x : Resource τ R σ O E) : pending extra (env.setRes r x) = pending extra env := rfl

/-- Passive work and freed units change neither a count of holders nor a queue. -/
theorem Sound.schedule {env : Env τ R σ O E} {prio : Priority} {d : τ} {w : Work τ R σ O E}
    (h : Sound P Q [] env) (hd : 0 ≤ d) (hmeets : Meets P Q (env.now + d) w)
    (hholds : ∀ r, Holds r w = false) (hfrees : ∀ r, Frees r w = false) :
    Sound P Q [] (env.schedule prio d w) where
  comp := h.comp
  tasks x hx := by
    rcases mem_pending_schedule.mp hx with rfl | hx
    · exact hmeets
    · exact h.tasks x hx
  waiting := h.waiting
  out := h.out
  behind r v hv x hx hocc := by
    rcases mem_pending_schedule.mp hx with rfl | hx
    · simp [hholds, hfrees] at hocc
    · exact h.behind r v hv x hx hocc
  users r := by
    rw [count_schedule, hholds]
    exact h.users r
  room := h.room
  prompt x hx r hr := by
    rcases mem_pending_schedule.mp hx with rfl | hx
    · simp [hfrees] at hr
    · refine ⟨(h.prompt x hx r hr).1, fun y hy => ?_⟩
      rcases mem_pending_schedule.mp hy with rfl | hy
      · exact le_add_of_nonneg_right hd
      · exact (h.prompt x hx r hr).2 y hy

omit [DecidableEq R] in
theorem Ahead.schedule {env : Env τ R σ O E} {prio : Priority} {d : τ} {w : Work τ R σ O E}
    (h : Ahead env) (hd : 0 ≤ d) : Ahead (env.schedule prio d w) := by
  intro x hx
  rcases mem_pending_schedule.mp hx with rfl | hx
  · exact le_add_of_nonneg_right hd
  · exact h x hx

omit [IsOrderedAddMonoid τ] in
theorem Ahead.setRes {env : Env τ R σ O E} {r : R} {x : Resource τ R σ O E} (h : Ahead env) :
    Ahead (env.setRes r x) := h

omit [DecidableEq R] in
theorem Ahead.serve {env : Env τ R σ O E} {r : R} {d : Delay τ} {t : Task τ R σ O E}
    (h : Ahead env) : Ahead (env.serve r d t) := by
  unfold Env.serve
  apply Ahead.schedule _ d.2
  exact h

omit [IsOrderedAddMonoid τ] in
theorem Busy.schedule {env : Env τ R σ O E} {prio : Priority} {d : τ} {w : Work τ R σ O E}
    {r : R} (h : Busy [] env r) : Busy [] (env.schedule prio d w) r := by
  intro hr
  have := h hr
  rw [count_schedule]
  exact this.trans (Nat.add_le_add_left (Nat.le_add_right _ _) _)

/-- Granting the first waiting request, which asked no later than now. -/
theorem Sound.trigger {env : Env τ R σ O E} {r : R} (h : Sound P Q [] env) (ha : Ahead env)
    (hasked : (env.res r).users < (env.res r).capacity →
      ∀ w ∈ (env.res r).waiting, w.asked ≤ env.now) : Sound P Q [] (env.trigger r) := by
  unfold Env.trigger
  split
  · exact h
  rename_i w ws hws
  split
  swap
  · exact h
  rename_i hfree
  have hhead : w ∈ (env.res r).waiting := by rw [hws]; exact List.mem_cons_self
  have hmem : ∀ {q : R}, ∀ v ∈ (Function.update env.res r ⟨(env.res r).capacity,
      (env.res r).users + 1, ws⟩ q).waiting, v ∈ (env.res q).waiting := by
    intro q v hv
    by_cases hq : q = r
    · subst hq
      rw [hws]
      exact List.mem_cons_of_mem w (by simpa using hv)
    · simpa [Function.update_of_ne hq] using hv
  constructor
  · exact h.comp
  · intro x hx
    rcases mem_pending_schedule.mp hx with rfl | hx
    · exact Waits.mono P Q (h.waiting r w hhead) (by simpa using hasked hfree w hhead)
    · exact h.tasks x hx
  · exact fun q v hv => h.waiting q v (hmem v hv)
  · exact h.out
  · intro q v hv x hx hocc
    rcases mem_pending_schedule.mp hx with rfl | hx
    · have hq : r = q := by simpa using hocc
      subst hq
      simpa using hasked hfree v (hmem v hv)
    · exact h.behind q v (hmem v hv) x hx hocc
  · intro q
    rw [count_schedule, pending_setRes, ← h.users q]
    by_cases hq : q = r
    · subst hq
      simp
    · simp [Function.update_of_ne hq, Ne.symm hq]
  · intro q
    by_cases hq : q = r
    · subst hq
      simpa [Nat.add_one_le_iff] using hfree
    · simpa [Function.update_of_ne hq] using h.room q
  · intro x hx q hq
    rcases mem_pending_schedule.mp hx with rfl | hx
    · simp at hq
    · exact ⟨(h.prompt x hx q hq).1, ha.setRes.schedule le_rfl⟩

omit [IsOrderedAddMonoid τ] in
/-- After granting one request, those behind it must be matched by units still to be passed on. -/
theorem Busy.trigger {env : Env τ R σ O E} {r q : R} (hne : q ≠ r → Busy [] env q)
    (htail : q = r → (env.res q).waiting.tail ≠ [] →
      (env.res q).capacity ≤ (env.res q).users + count (Frees q) (pending [] env) + 1) :
    Busy [] (env.trigger r) q := by
  unfold Env.trigger
  split
  · rename_i hws
    by_cases hq : q = r
    · subst hq
      exact fun hw => absurd hws hw
    · exact hne hq
  rename_i w ws hws
  split
  · apply Busy.schedule
    by_cases hq : q = r
    · subst hq
      intro hw
      have := htail rfl (by simpa [hws] using hw)
      simp only [pending_setRes, Env.setRes_res, Function.update_self]
      omega
    · simpa [Busy, Function.update_of_ne hq] using hne hq
  · rename_i hfull
    by_cases hq : q = r
    · subst hq
      exact fun _ => (Nat.le_of_not_lt hfull).trans (Nat.le_add_right _ _)
    · exact hne hq

theorem Ahead.trigger {env : Env τ R σ O E} {r : R} (h : Ahead env) : Ahead (env.trigger r) := by
  unfold Env.trigger
  split
  · exact h
  split
  · exact h.setRes.schedule le_rfl
  · exact h

omit [IsOrderedAddMonoid τ] in
theorem Busy.request {env : Env τ R σ O E} (h : ∀ q, Busy [] env q) (r : R)
    (d : Option (Delay τ)) (t : Task τ R σ O E) (q : R) : Busy [] (env.request r d t) q := by
  apply Busy.trigger
  · intro hq
    simpa [Busy, Function.update_of_ne hq] using h q
  · rintro rfl htail
    have hold : (env.res q).waiting ≠ [] := by
      intro hnil
      simp [hnil] at htail
    simpa using (h q hold).trans (Nat.le_succ _)

theorem Settled.request {env : Env τ R σ O E} {r : R} {d : Option (Delay τ)}
    {t : Task τ R σ O E} (h : Settled P Q env) (hw : Waits P Q r d env.now t) :
    Settled P Q (env.request r d t) := by
  obtain ⟨hs, hb, ha⟩ := h
  have hmem : ∀ {q : R}, ∀ v ∈ (Function.update env.res r { env.res r with
      waiting := (env.res r).waiting ++ [⟨env.now, d, t⟩] } q).waiting,
      v ∈ (env.res q).waiting ∨ q = r ∧ v = ⟨env.now, d, t⟩ := by
    intro q v hv
    by_cases hq : q = r
    · subst hq
      simpa using hv
    · exact .inl (by simpa [Function.update_of_ne hq] using hv)
  have hqueued : Sound P Q [] (env.setRes r { env.res r with
      waiting := (env.res r).waiting ++ [⟨env.now, d, t⟩] }) := by
    constructor
    · exact hs.comp
    · exact hs.tasks
    · intro q v hv
      rcases hmem v hv with hv | ⟨rfl, rfl⟩
      · exact hs.waiting q v hv
      · exact hw
    · exact hs.out
    · intro q v hv x hx hocc
      rcases hmem v hv with hv | ⟨rfl, rfl⟩
      · exact hs.behind q v hv x hx hocc
      · exact ha x hx
    · intro q
      by_cases hq : q = r
      · subst hq
        simpa using hs.users q
      · simpa [Function.update_of_ne hq] using hs.users q
    · intro q
      by_cases hq : q = r
      · subst hq
        simpa using hs.room q
      · simpa [Function.update_of_ne hq] using hs.room q
    · exact hs.prompt
  -- a free unit next to a waiting request means that a unit is being passed on right now
  have hnow : (env.res r).users < (env.res r).capacity →
      ∀ v ∈ (env.res r).waiting, v.asked ≤ env.now := by
    intro hfree v hv
    have := hb r (List.ne_nil_of_mem hv)
    have hpos : 0 < count (Frees r) (pending [] env) := by omega
    obtain ⟨x, hx, hfr⟩ := exists_of_count_pos hpos
    exact (hs.behind r v hv x hx (.inr hfr)).trans_eq (hs.prompt x hx r hfr).1
  refine ⟨hqueued.trigger ha fun hfree v hv => ?_, Busy.request hb r d t, ha.setRes.trigger⟩
  rcases hmem v hv with hv | ⟨-, rfl⟩
  · exact hnow (by simpa using hfree) v hv
  · exact le_rfl

/-- The end of a `with` block: the work `w` was holding a unit of `r`. -/
theorem Sound.release {env : Env τ R σ O E} {r : R} {w : Work τ R σ O E}
    (h : Sound P Q [w] env) (ha : Ahead env) (hw : ∀ q, Holds q w = true ↔ q = r) :
    Sound P Q [] (env.release r) := by
  have hsame : ∀ {q : R}, (Function.update env.res r { env.res r with
      users := (env.res r).users - 1 } q).waiting = (env.res q).waiting := by
    intro q
    by_cases hq : q = r
    · subst hq
      simp
    · simp [Function.update_of_ne hq]
  unfold Env.release
  constructor
  · exact h.comp
  · intro x hx
    rcases mem_pending_schedule.mp hx with rfl | hx
    · trivial
    · exact h.tasks x (List.mem_cons_of_mem _ hx)
  · exact fun q v hv => h.waiting q v (hsame ▸ hv)
  · exact h.out
  · intro q v hv x hx hocc
    have hv : v ∈ (env.res q).waiting := hsame ▸ hv
    rcases mem_pending_schedule.mp hx with rfl | hx
    · have hq : r = q := by simpa using hocc
      subst hq
      simpa using h.behind r v hv (env.now, w) List.mem_cons_self (.inl ((hw r).mpr rfl))
    · exact h.behind q v hv x (List.mem_cons_of_mem _ hx) hocc
  · intro q
    have husers := h.users q
    rw [count_schedule, pending_setRes]
    rw [pending_cons, count_cons] at husers
    by_cases hq : q = r
    · subst hq
      simp [husers, (hw q).mpr rfl]
    · have : Holds q w = false := by simpa using fun hh => hq ((hw q).mp hh)
      simp [husers, Function.update_of_ne hq, this]
  · intro q
    by_cases hq : q = r
    · subst hq
      simpa using (Nat.sub_le _ _).trans (h.room q)
    · simpa [Function.update_of_ne hq] using h.room q
  · intro x hx q hq
    refine ⟨?_, ha.setRes.schedule le_rfl⟩
    rcases mem_pending_schedule.mp hx with rfl | hx
    · simp
    · exact (h.prompt x (List.mem_cons_of_mem _ hx) q hq).1

theorem Ahead.release {env : Env τ R σ O E} {r : R} (h : Ahead env) : Ahead (env.release r) :=
  h.setRes.schedule le_rfl

omit [IsOrderedAddMonoid τ] in
theorem Busy.release {env : Env τ R σ O E} {r : R} {w : Work τ R σ O E} {q : R}
    (husers : (env.res q).users = count (Holds q) (pending [w] env)) (h : Busy [w] env q)
    (hw : ∀ q, Holds q w = true ↔ q = r) (hfrees : Frees q w = false) :
    Busy [] (env.release r) q := by
  unfold Env.release Busy at *
  rw [pending_cons, count_cons] at husers h
  rw [count_schedule, pending_setRes]
  by_cases hq : q = r
  · subst hq
    simp only [(hw q).mpr rfl, hfrees, if_true, Bool.false_eq_true, if_false, add_zero,
      Env.schedule_res, Env.setRes_res, Function.update_self, frees_released, decide_true] at husers h ⊢
    intro hwait
    have := h hwait
    omega
  · simpa [Function.update_of_ne hq, Ne.symm hq, hfrees] using h

omit [IsOrderedAddMonoid τ] in
/-- Work that holds no unit and passes none on can be forgotten once it is taken up. -/
theorem Sound.drop {env : Env τ R σ O E} {w : Work τ R σ O E} (h : Sound P Q [w] env)
    (hholds : ∀ r, Holds r w = false) : Sound P Q [] env where
  comp := h.comp
  tasks x hx := h.tasks x (List.mem_cons_of_mem _ hx)
  waiting := h.waiting
  out := h.out
  behind r v hv x hx := h.behind r v hv x (List.mem_cons_of_mem _ hx)
  users r := by simpa [pending_cons, hholds] using h.users r
  room := h.room
  prompt x hx r hr :=
    let hp := h.prompt x (List.mem_cons_of_mem _ hx) r hr
    ⟨hp.1, fun y hy => hp.2 y (List.mem_cons_of_mem _ hy)⟩

omit [IsOrderedAddMonoid τ] in
theorem Busy.drop {env : Env τ R σ O E} {w : Work τ R σ O E} {r : R} (h : Busy [w] env r)
    (hfrees : Frees r w = false) : Busy [] env r := by
  simpa [Busy, pending_cons, hfrees] using h

/-- A granted request enters service: the unit is kept until the end of the timeout. -/
theorem Sound.serve {env : Env τ R σ O E} {r : R} {d : Delay τ} {t : Task τ R σ O E}
    (h : Sound P Q [.grant r (some d) t] env) (ha : Ahead env) :
    Sound P Q [] (env.serve r d t) := by
  have hfit : Waits P Q r (some d) env.now t := h.tasks (env.now, _) List.mem_cons_self
  unfold Env.serve
  constructor
  · exact h.comp
  · intro x hx
    rcases mem_pending_schedule.mp hx with rfl | hx
    · refine ⟨?_, hfit.2⟩
      rw [total_append, total_singleton, ← add_assoc]
      exact add_le_add_left hfit.1 d.1
    · exact h.tasks x (List.mem_cons_of_mem _ hx)
  · exact h.waiting
  · exact h.out
  · intro q v hv x hx hocc
    rcases mem_pending_schedule.mp hx with rfl | hx
    · have hq : r = q := by simpa using hocc
      subst hq
      have hasked := h.behind r v hv (env.now, _) List.mem_cons_self (.inl (by simp))
      exact hasked.trans (le_add_of_nonneg_right d.2)
    · exact h.behind q v hv x (List.mem_cons_of_mem _ hx) hocc
  · intro q
    rw [count_schedule]
    change (env.res q).users = count (Holds q) (pending [] env) + _
    simpa [pending_cons] using h.users q
  · exact h.room
  · intro x hx q hq
    refine ⟨?_, ha.serve⟩
    rcases mem_pending_schedule.mp hx with rfl | hx
    · simp at hq
    · exact (h.prompt x (List.mem_cons_of_mem _ hx) q hq).1

theorem settled_stays : Stays P Q (Settled (E := E) (R := R) P Q) where
  comp env h := h.sound.comp
  schedule env prio d w h hd _ hpass hmeets := by
    refine ⟨h.sound.schedule hd hmeets ?_ ?_, fun r => (h.busy r).schedule, h.ahead.schedule hd⟩
    · intro r
      cases w <;> first | rfl | cases hpass
    · intro r
      cases w <;> first | rfl | cases hpass
  request env r d t h hw := h.request hw
  write env s h hs := ⟨{ h.sound with comp := hs }, h.busy, h.ahead⟩
  emit env o h htime hdue hQ := by
    refine ⟨{ h.sound with out := ?_ }, h.busy, h.ahead⟩
    intro o' ho'
    rcases List.mem_append.mp ho' with ho' | ho'
    · exact h.sound.out o' ho'
    · rw [List.mem_singleton.mp ho']
      exact ⟨hdue, hQ⟩

/-! ### One step of the loop -/

/-- `Sound` together with `Busy`: what holds whenever the loop is between two events. -/
structure Valid (P : σ → Prop) (Q : τ → List (Option R × τ) → O → Prop)
    (env : Env τ R σ O E) : Prop where
  sound : Sound P Q [] env
  busy : ∀ r, Busy [] env r

omit [IsOrderedAddMonoid τ] in
theorem Settled.valid {env : Env τ R σ O E} (h : Settled P Q env) : Valid P Q env :=
  ⟨h.sound, h.busy⟩

omit [DecidableEq R] [IsOrderedAddMonoid τ] in
/-- The popped event is the earliest, so what is left lies ahead of it. -/
theorem ahead_popped {env : Env τ R σ O E} {e : Event τ (Work τ R σ O E)}
    {h : Heap τ (Work τ R σ O E)} (hp : env.queue.pop = some (e, h)) :
    ∀ x ∈ pending [e.work] (afterPop env e h), (afterPop env e h).now ≤ x.1 := by
  intro x hx
  rcases List.mem_cons.mp hx with rfl | hx
  · exact le_rfl
  · obtain ⟨a, ha, rfl⟩ := List.mem_map.mp hx
    exact (Heap.pop_le hp a ha).time_le

omit [IsOrderedAddMonoid τ] in
theorem Valid.popped {env : Env τ R σ O E} {e : Event τ (Work τ R σ O E)}
    {h : Heap τ (Work τ R σ O E)} (hv : Valid P Q env) (hp : env.queue.pop = some (e, h)) :
    Sound P Q [e.work] (afterPop env e h) ∧ (∀ r, Busy [e.work] (afterPop env e h) r) ∧
      Ahead (afterPop env e h) := by
  have hpend := pending_pop hp
  have hahead := ahead_popped hp
  obtain ⟨hs, hb⟩ := hv
  refine ⟨⟨hs.comp, ?_, hs.waiting, hs.out, ?_, ?_, hs.room, ?_⟩, ?_, ?_⟩
  · rw [hpend]; exact hs.tasks
  · rw [hpend]; exact hs.behind
  · rw [hpend]; exact hs.users
  · intro x hx r hr
    refine ⟨le_antisymm ?_ (hahead x hx), hahead⟩
    rw [hpend] at hx
    obtain ⟨hnow, hall⟩ := hs.prompt x hx r hr
    rw [hnow]
    exact hall (e.time, e.work) (hpend ▸ List.mem_cons_self)
  · intro r
    unfold Busy
    rw [hpend]
    exact hb r
  · exact fun x hx => hahead x (List.mem_cons_of_mem _ hx)

omit [IsOrderedAddMonoid τ] in
/-- A freed unit goes to the first waiting request. -/
theorem Busy.released {env : Env τ R σ O E} {r : R} (h : ∀ q, Busy [.released r] env q) (q : R) :
    Busy [] (env.trigger r) q := by
  apply Busy.trigger
  · intro hq
    exact (h q).drop (by simpa using Ne.symm hq)
  · rintro rfl htail
    have := h q (fun hnil => by simp [hnil] at htail)
    simpa [pending_cons, add_assoc] using this

theorem settled_runTask {env : Env τ R σ O E} {t : Task τ R σ O E} (h : Settled P Q env)
    (ht : Fit P Q env.now t) : Settled P Q (env.runTask t) :=
  settled_stays.run t.code t.charges env h ht

/-- The callbacks of the popped work restore the invariant. -/
theorem settled_fire {env env' : Env τ R σ O E} {w : Work τ R σ O E}
    (hs : Sound P Q [w] env) (hb : ∀ r, Busy [w] env r) (ha : Ahead env)
    (h : env.fire w = .next env') : Settled P Q env' := by
  have htask : Meets P Q env.now w := hs.tasks (env.now, w) List.mem_cons_self
  cases w with
  | resume t =>
      cases h
      exact settled_runTask ⟨hs.drop fun _ => rfl, fun r => (hb r).drop rfl, ha⟩ htask
  | grant r d t =>
      have hholds : ∀ q, Holds q (Work.grant r d t) = true ↔ q = r := by simp [eq_comm]
      cases d with
      | some d =>
          cases h
          exact ⟨hs.serve ha, fun q => ((hb q).drop rfl).schedule,
            ha.serve⟩
      | none =>
          cases h
          have hrel : Settled P Q (env.release r) :=
            ⟨hs.release ha hholds, fun q => (hb q).release (hs.users q) hholds rfl, ha.release⟩
          exact settled_runTask hrel htask
  | leave r t =>
      have hholds : ∀ q, Holds q (Work.leave r t) = true ↔ q = r := by simp [eq_comm]
      cases h
      have hrel : Settled P Q (env.release r) :=
        ⟨hs.release ha hholds, fun q => (hb q).release (hs.users q) hholds rfl, ha.release⟩
      exact settled_runTask hrel htask
  | released r =>
      cases h
      have hdrop : Sound P Q [] env := hs.drop fun _ => rfl
      refine ⟨hdrop.trigger ha fun _ w hw => ?_, Busy.released hb, ha.trigger⟩
      exact hs.behind r w hw (env.now, _) List.mem_cons_self (.inr (by simp))
  | ended =>
      cases h
      exact ⟨hs.drop fun _ => rfl, fun r => (hb r).drop rfl, ha⟩
  | failed e => cases h
  | stop => cases h

/-- One step of the loop. -/
theorem Valid.step {env env' : Env τ R σ O E} (hv : Valid P Q env)
    (h : env.step = some (.next env')) : Settled P Q env' := by
  obtain ⟨⟨e, q⟩, hp, hf⟩ := Option.map_eq_some_iff.mp h
  obtain ⟨hs, hb, ha⟩ := hv.popped hp
  exact settled_fire hs hb ha hf

end

end SmartDisk.EventInvariants
