import SmartDisk.EventRuns

/-!
# A process that has the simulator to itself

`alone` evaluates a generator from end to end. A process that is started in a
simulator where nobody else is active does exactly that: it ends with the same
state and result, and takes the sum of its durations. What earlier processes may
have left in the heap are units on their way back, which find nobody waiting.
-/
namespace SmartDisk.EventSolo
open DiscreteEvents EventInvariants EventRuns

variable {τ R σ O E α β : Type}

/-- The durations passed to `env.timeout`, the final state, and the result or exception. -/
structure Outcome (τ R σ E α : Type) where
  charges : List (Option R × τ)
  state : σ
  result : Except E α

def Outcome.charge (c : Option R × τ) (o : Outcome τ R σ E α) : Outcome τ R σ E α :=
  { o with charges := c :: o.charges }

section
variable [Zero τ] [LE τ]

def alone : Gen τ R σ O E α → σ → Outcome τ R σ E α
  | .ret a, s => ⟨[], s, .ok a⟩
  | .raise e, s => ⟨[], s, .error e⟩
  | .timeout d next, s => (alone next s).charge (none, d.1)
  | .hold r (some d) next, s => (alone next s).charge (some r, d.1)
  | .hold _ none next, s | .relay _ next, s | .emit _ next, s => alone next s
  | .read next, s => alone (next s) s
  | .write s next, _ => alone next s

end

/-! ### Composition -/

/-- Go on with what `f` does after a result. -/
def Outcome.andThen (o : Outcome τ R σ E α) (f : α → σ → Outcome τ R σ E β) :
    Outcome τ R σ E β :=
  match o.result with
  | .ok a => { f a o.state with charges := o.charges ++ (f a o.state).charges }
  | .error e => ⟨o.charges, o.state, .error e⟩

theorem andThen_charge (c : Option R × τ) (o : Outcome τ R σ E α)
    (f : α → σ → Outcome τ R σ E β) : (o.charge c).andThen f = (o.andThen f).charge c := by
  unfold Outcome.andThen Outcome.charge
  cases o.result <;> rfl

section
variable [Zero τ] [LE τ]

theorem alone_bind (g : Gen τ R σ O E α) (f : α → Gen τ R σ O E β) (s : σ) :
    alone (g.bind f) s = (alone g s).andThen fun a => alone (f a) := by
  induction g generalizing s with
  | ret a => rfl
  | raise e => rfl
  | timeout d next ih => exact (congrArg _ (ih s)).trans (andThen_charge _ _ _).symm
  | hold r d next ih =>
      cases d with
      | none => exact ih s
      | some d => exact (congrArg _ (ih s)).trans (andThen_charge _ _ _).symm
  | relay p next ih => exact ih s
  | read next ih => exact ih s s
  | write s' next ih => exact ih s'
  | emit o next ih => exact ih s

theorem alone_ended (g : Gen τ R σ O E α) (s : σ) : alone g.ended s = alone g s := by
  induction g generalizing s with
  | ret a => rfl
  | raise e => rfl
  | timeout d next ih => exact congrArg _ (ih s)
  | hold r d next ih =>
      cases d with
      | none => exact ih s
      | some d => exact congrArg _ (ih s)
  | relay p next ih => exact ih s
  | read next ih => exact ih s s
  | write s' next ih => exact ih s'
  | emit o next ih => exact ih s

/-- A sub-process is transparent. -/
theorem alone_process (g : Gen τ R σ O E α) (s : σ) : alone g.process s = alone g s :=
  alone_ended g s

end

variable [AddCommGroup τ]

theorem total_charge (c : Option R × τ) (o : Outcome τ R σ E α) :
    total (o.charge c).charges = c.2 + total o.charges :=
  List.sum_cons

variable [LinearOrder τ] [DecidableEq R]

/-- Steps of the event loop, none of which stops it. -/
inductive Steps : Env τ R σ O E → Env τ R σ O E → Prop
  | refl (env : Env τ R σ O E) : Steps env env
  | head {env env₁ env₂ : Env τ R σ O E} :
      env.step = some (.next env₁) → Steps env₁ env₂ → Steps env env₂

theorem Steps.trans {env env₁ env₂ : Env τ R σ O E} (h : Steps env env₁) (h' : Steps env₁ env₂) :
    Steps env env₂ := by
  induction h with
  | refl env => exact h'
  | head hs _ ih => exact .head hs (ih h')

def IsReleased : Work τ R σ O E → Prop
  | .released _ => True
  | _ => False

/-- One process is active. Its next event, at time `t`, does `w`. -/
structure Lone (t : τ) (w : Work τ R σ O E) (env : Env τ R σ O E) : Prop where
  own : ∃ before e after, env.queue.events = before ++ e :: after ∧ e.time = t ∧ e.work = w ∧
    ∀ x ∈ before ++ after, IsReleased x.work
  waiting : ∀ r, (env.res r).waiting = []
  users : ∀ r, (env.res r).users = if Holds r w then 1 else 0
  room : ∀ r, 0 < (env.res r).capacity

/-- The state in which the callbacks of the process's own event run. With `ended` for `w`
nobody is active. -/
structure Turn (t : τ) (w : Work τ R σ O E) (env : Env τ R σ O E) : Prop where
  now : env.now = t
  pending : ∀ e ∈ env.queue.events, IsReleased e.work
  waiting : ∀ r, (env.res r).waiting = []
  users : ∀ r, (env.res r).users = if Holds r w then 1 else 0
  room : ∀ r, 0 < (env.res r).capacity

theorem trigger_idle {env : Env τ R σ O E} {r : R} (h : (env.res r).waiting = []) :
    env.trigger r = env := by
  unfold Env.trigger
  rw [h]

/-- Units that are given back do not disturb the process: its own event is next in the end. -/
theorem Lone.advance {t : τ} {w : Work τ R σ O E} {env : Env τ R σ O E} (h : Lone t w env) :
    ∃ env₁ env₂, Steps env env₁ ∧ env₁.step = some (env₂.fire w) ∧ Turn t w env₂ ∧
      env₂.comp = env.comp := by
  obtain ⟨⟨before, e, after, hevents, htime, hwork, hrest⟩, hwait, husers, hroom⟩ := h
  induction before generalizing env with
  | nil =>
      have hne : env.queue.events ≠ [] := by simp [hevents]
      obtain ⟨e', q, hp⟩ := Heap.exists_pop hne
      have hpop := Heap.pop_events hp
      rw [hevents] at hpop
      obtain ⟨rfl, hafter⟩ := List.cons.inj hpop
      refine ⟨env, afterPop env e q, .refl env, ?_, ⟨htime, ?_, hwait, husers, hroom⟩, rfl⟩
      · unfold Env.step
        rw [hp, Option.map_some, ← hwork]
        rfl
      · exact fun x hx => hrest x (by rw [List.nil_append, hafter]; exact hx)
  | cons b before ih =>
      have hne : env.queue.events ≠ [] := by simp [hevents]
      obtain ⟨e', q, hp⟩ := Heap.exists_pop hne
      have hpop := Heap.pop_events hp
      rw [hevents, List.cons_append] at hpop
      obtain ⟨rfl, hq⟩ := List.cons.inj hpop
      have hreleased : IsReleased b.work := hrest b (by simp)
      have hstep : env.step = some (.next (afterPop env b q)) := by
        unfold Env.step
        rw [hp, Option.map_some]
        cases hb : b.work with
        | released r => exact congrArg (some ∘ Env.Step.next) (trigger_idle (hwait r))
        | _ => simp [hb, IsReleased] at hreleased
      obtain ⟨env₁, env₂, hsteps, hrun⟩ := @ih (afterPop env b q) hwait husers hroom hq.symm
        fun x hx => hrest x (List.mem_cons_of_mem b hx)
      exact ⟨env₁, env₂, .head hstep hsteps, hrun⟩

/-- Scheduling the next event of the process. -/
theorem Turn.schedule {t : τ} {w : Work τ R σ O E} {env : Env τ R σ O E} (h : Turn t w env)
    (prio : Priority) (d : τ) (w' : Work τ R σ O E) (hholds : ∀ r, Holds r w' = Holds r w) :
    Lone (t + d) w' (env.schedule prio d w') := by
  obtain ⟨hnow, hpend, hwait, husers, hroom⟩ := h
  refine ⟨?_, hwait, fun r => by rw [hholds]; exact husers r, hroom⟩
  refine ⟨_, ⟨env.now + d, prio, env.eid, w'⟩, _, List.orderedInsert_eq_take_drop _ _ _, ?_,
    rfl, ?_⟩
  · exact congrArg (· + d) hnow
  · intro x hx
    rw [List.takeWhile_append_dropWhile] at hx
    exact hpend x hx

theorem request_comp (env : Env τ R σ O E) (r : R) (d : Option (Delay τ)) (t : Task τ R σ O E) :
    (env.request r d t).comp = env.comp := by
  unfold Env.request Env.trigger
  split
  · rfl
  split <;> rfl

/-- A request is granted at once. -/
theorem Turn.request {t : τ} {env : Env τ R σ O E} (h : Turn t .ended env) (r : R)
    (d : Option (Delay τ)) (task : Task τ R σ O E) :
    Lone t (.grant r d task) (env.request r d task) := by
  obtain ⟨hnow, hpend, hwait, husers, hroom⟩ := h
  have hgranted : env.request r d task =
      (env.setRes r ⟨(env.res r).capacity, 1, []⟩).schedule .normal 0 (.grant r d task) := by
    have hfree : (env.res r).users = 0 := husers r
    unfold Env.request Env.trigger
    simp only [Env.setRes_res, Function.update_self, hwait r, List.nil_append, hfree, hroom r,
      if_true, zero_add]
    unfold Env.setRes
    simp only [Function.update_idem]
  rw [hgranted]
  refine ⟨?_, fun q => ?_, fun q => ?_, fun q => ?_⟩
  · refine ⟨_, ⟨env.now + 0, .normal, env.eid, .grant r d task⟩, _,
      List.orderedInsert_eq_take_drop _ _ _, (add_zero _).trans hnow, rfl, ?_⟩
    intro x hx
    rw [List.takeWhile_append_dropWhile] at hx
    exact hpend x hx
  · by_cases hq : q = r
    · subst hq; simp
    · simpa [Function.update_of_ne hq] using hwait q
  · by_cases hq : q = r
    · subst hq; simp
    · simpa [Function.update_of_ne hq, Ne.symm hq, Holds] using husers q
  · by_cases hq : q = r
    · subst hq; simpa using hroom q
    · simpa [Function.update_of_ne hq] using hroom q

/-- The unit is free again as soon as it is left. -/
theorem Turn.release {t : τ} {w : Work τ R σ O E} {env : Env τ R σ O E} (h : Turn t w env) {r : R}
    (hw : ∀ q, Holds q w = true ↔ q = r) : Turn t .ended (env.release r) := by
  obtain ⟨hnow, hpend, hwait, husers, hroom⟩ := h
  refine ⟨hnow, fun e he => ?_, fun q => ?_, fun q => ?_, fun q => ?_⟩
  · rcases (Heap.mem_push _ _ _).mp he with rfl | he
    · exact True.intro
    · exact hpend e he
  · by_cases hq : q = r
    · subst hq; simpa [Env.release] using hwait q
    · simpa [Env.release, Function.update_of_ne hq] using hwait q
  · have hu := husers q
    by_cases hq : q = r
    · subst hq
      rw [if_pos ((hw q).mpr rfl)] at hu
      simp [Env.release, hu, Holds]
    · rw [if_neg fun hh => hq ((hw q).mp hh)] at hu
      simpa [Env.release, Function.update_of_ne hq, Holds] using hu
  · by_cases hq : q = r
    · subst hq; simpa [Env.release] using hroom q
    · simpa [Env.release, Function.update_of_ne hq] using hroom q

/-! ### The whole process -/

/-- The last event of a process. -/
def ending : Except E Unit → Work τ R σ O E
  | .ok _ => .ended
  | .error e => .failed e

/-- The process gets through to its last event, as `o` says. -/
def Finishes (t : τ) (o : Outcome τ R σ E Unit) (env : Env τ R σ O E) : Prop :=
  ∃ env', Steps env env' ∧ Lone (t + total o.charges) (ending o.result) env' ∧ env'.comp = o.state

theorem Finishes.of_turn {t : τ} {w : Work τ R σ O E} {env : Env τ R σ O E}
    {o : Outcome τ R σ E Unit} (h : Lone t w env)
    (hw : ∀ env₂, Turn t w env₂ → env₂.comp = env.comp →
      ∃ env₃, env₂.fire w = .next env₃ ∧ Finishes t o env₃) : Finishes t o env := by
  obtain ⟨env₁, env₂, hsteps, hstep, hturn, hcomp⟩ := h.advance
  obtain ⟨env₃, hfire, env', hsteps', hlone, hstate⟩ := hw env₂ hturn hcomp
  exact ⟨env', hsteps.trans (.head (hfire ▸ hstep) hsteps'), hlone, hstate⟩

theorem Finishes.charge {t : τ} {c : Option R × τ} {o : Outcome τ R σ E Unit}
    {env : Env τ R σ O E} (h : Finishes (t + c.2) o env) : Finishes t (o.charge c) env := by
  obtain ⟨env', hsteps, hlone, hstate⟩ := h
  refine ⟨env', hsteps, ?_, hstate⟩
  rw [total_charge, ← add_assoc]
  exact hlone

theorem Turn.free {t : τ} {w : Work τ R σ O E} {env : Env τ R σ O E} (h : Turn t w env)
    (hw : ∀ r, Holds r w = false) : Turn t .ended env :=
  ⟨h.now, h.pending, h.waiting, fun r => by rw [h.users r, hw r]; rfl, h.room⟩

/-- The process goes on after an event that only resumes it. -/
theorem Finishes.resume {t d : τ} {env : Env τ R σ O E} {o : Outcome τ R σ E Unit}
    (h : Turn t .ended env) (prio : Priority) (task : Task τ R σ O E)
    (ih : ∀ env₂, Turn (t + d) .ended env₂ → env₂.comp = env.comp →
      Finishes (t + d) o (env₂.runTask task)) :
    Finishes (t + d) o (env.schedule prio d (.resume task)) := by
  apply Finishes.of_turn (h.schedule prio d (.resume task) fun _ => rfl)
  intro env₂ hturn hcomp
  exact ⟨_, rfl, ih env₂ (hturn.free fun _ => rfl) hcomp⟩

/-- In a simulator it has to itself, a process does what `alone` says. -/
theorem finishes_alone {born : τ} (g : Gen τ R σ O E Unit) (cs : List (Option R × τ)) {t : τ}
    {env : Env τ R σ O E} (h : Turn t .ended env) :
    Finishes t (alone g env.comp) (Env.run born g cs env) := by
  induction g generalizing cs t env with
  | ret a => exact ⟨_, .refl _, h.schedule .normal 0 _ fun _ => rfl, rfl⟩
  | raise e => exact ⟨_, .refl _, h.schedule .normal 0 _ fun _ => rfl, rfl⟩
  | timeout d next ih =>
      apply Finishes.charge
      apply Finishes.resume h
      intro env₂ hturn hcomp
      rw [← hcomp]
      exact ih _ hturn
  | relay prio next ih =>
      have hnext : Finishes (t + 0) (alone next env.comp)
          (env.schedule prio 0 (.resume ⟨next, born, cs⟩)) := by
        apply Finishes.resume h
        intro env₂ hturn hcomp
        rw [← hcomp]
        exact ih _ hturn
      rwa [add_zero] at hnext
  | hold r d next ih =>
      apply Finishes.of_turn (h.request r d ⟨next, born, cs⟩)
      intro env₂ hturn hcomp
      have hcomp' : env₂.comp = env.comp := hcomp.trans (request_comp env r d _)
      cases d with
      | none =>
          have hfree := hturn.release (r := r) (by simp [eq_comm])
          refine ⟨_, rfl, ?_⟩
          rw [← hcomp']
          exact ih cs hfree
      | some d =>
          refine ⟨_, rfl, ?_⟩
          apply Finishes.charge
          have hserved : Turn t (.grant r (some d) ⟨next, born, cs⟩) { env₂ with
              served := env₂.served ++ [(r, env₂.now, env₂.now + d.1)] } :=
            ⟨hturn.now, hturn.pending, hturn.waiting, hturn.users, hturn.room⟩
          apply Finishes.of_turn (hserved.schedule .normal d.1
            (.leave r ⟨next, born, cs ++ [(some r, d.1)]⟩) fun _ => rfl)
          intro env₃ hturn' hcomp₃
          have hfree := hturn'.release (r := r) (by simp [eq_comm])
          refine ⟨_, rfl, ?_⟩
          rw [← hcomp', show env₂.comp = env₃.comp from hcomp₃.symm]
          exact ih _ hfree
  | read next ih => exact ih _ cs h
  | write s next ih =>
      have hwrite : Turn t .ended { env with comp := s } :=
        ⟨h.now, h.pending, h.waiting, h.users, h.room⟩
      exact ih cs hwrite
  | emit o next ih =>
      have hemit : Turn t .ended { env with out := env.out ++ [⟨env.now, born, cs, o⟩] } :=
        ⟨h.now, h.pending, h.waiting, h.users, h.room⟩
      exact ih cs hemit

/-- The same for a process that is started between two others. -/
theorem start_alone (g : Gen τ R σ O E Unit) {env : Env τ R σ O E}
    (h : Turn env.now .ended env) : Finishes env.now (alone g env.comp) (env.start g) := by
  have hstart : Finishes (env.now + 0) (alone g env.comp) (env.start g) := by
    apply Finishes.resume h
    intro env₂ hturn hcomp
    rw [← hcomp]
    exact finishes_alone g [] hturn
  rwa [add_zero] at hstart

/-- After a process that has ended nobody is active. -/
theorem Lone.ended {t : τ} {env : Env τ R σ O E} (h : Lone t .ended env) :
    ∃ env', Steps env env' ∧ Turn t .ended env' ∧ env'.comp = env.comp := by
  obtain ⟨env₁, env₂, hsteps, hstep, hturn, hcomp⟩ := h.advance
  exact ⟨env₂, hsteps.trans (.head hstep (.refl _)), hturn, hcomp⟩

/-- A process that raises takes the event loop down with it. -/
theorem Lone.failed {t : τ} {e : E} {env : Env τ R σ O E} (h : Lone t (.failed e) env) :
    ∃ env₁ env₂, Steps env env₁ ∧ env₁.step = some (.raised e env₂) := by
  obtain ⟨env₁, env₂, hsteps, hstep, -⟩ := h.advance
  exact ⟨env₁, env₂, hsteps, hstep⟩

end SmartDisk.EventSolo
