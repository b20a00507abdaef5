import SmartDisk.EventInvariants

/-!
# Running the event loop up to an instant

`env.run(until=u)` schedules an urgent event at `u` and steps until that event is
processed. A run leaves nothing behind that was due before `u`: neither urgent
events nor units on their way to the next request. That is why the clock may be
set to any value between two runs, which `Idle` makes precise.
-/
namespace SmartDisk.EventRuns
open DiscreteEvents EventInvariants

variable {τ R σ O E : Type} [AddCommGroup τ] [LinearOrder τ] [DecidableEq R]

def IsStop : Work τ R σ O E → Bool
  | .stop => true
  | _ => false

/-- `I` does not look at the tasks, and is kept by every elementary update but one: the
start of a service. -/
structure Plain (I : Env τ R σ O E → Prop) : Prop where
  schedule : ∀ env prio d w, I env → 0 ≤ d → (prio = .urgent → d = 0) → IsStop w = false →
    I (env.schedule prio d w)
  setRes : ∀ env r x, I env → x.capacity = (env.res r).capacity → I (env.setRes r x)
  write : ∀ env s, I env → I { env with comp := s }
  emit : ∀ env o, I env → o.time = env.now → I { env with out := env.out ++ [o] }

namespace Plain
variable {I : Env τ R σ O E → Prop}

theorem trigger (h : Plain I) {env : Env τ R σ O E} (r : R) (henv : I env) :
    I (env.trigger r) := by
  unfold Env.trigger
  split
  · exact henv
  split
  · exact h.schedule _ _ _ _ (h.setRes _ _ _ henv rfl) le_rfl (by simp) rfl
  · exact henv

theorem request (h : Plain I) {env : Env τ R σ O E} (r : R) (d : Option (Delay τ))
    (t : Task τ R σ O E) (henv : I env) : I (env.request r d t) :=
  h.trigger r (h.setRes _ _ _ henv rfl)

theorem release (h : Plain I) {env : Env τ R σ O E} (r : R) (henv : I env) :
    I (env.release r) :=
  h.schedule _ _ _ _ (h.setRes _ _ _ henv rfl) le_rfl (by simp) rfl

theorem run (h : Plain I) {born : τ} (g : Gen τ R σ O E Unit) (cs : List (Option R × τ))
    (env : Env τ R σ O E) (henv : I env) : I (Env.run born g cs env) := by
  induction g generalizing cs env with
  | ret a => exact h.schedule _ _ _ _ henv le_rfl (by simp) rfl
  | raise e => exact h.schedule _ _ _ _ henv le_rfl (by simp) rfl
  | timeout d next ih => exact h.schedule _ _ _ _ henv d.2 (by simp) rfl
  | hold r d next ih => exact h.request r d _ henv
  | relay prio next ih => exact h.schedule _ _ _ _ henv le_rfl (fun _ => rfl) rfl
  | read next ih => exact ih _ cs env henv
  | write s next ih => exact ih cs _ (h.write _ _ henv)
  | emit o next ih => exact ih cs _ (h.emit _ _ henv rfl)

/-- The callbacks of one event. -/
theorem fire (h : Plain I) {env env' : Env τ R σ O E} {w : Work τ R σ O E} (henv : I env)
    (hserve : ∀ r d t, w = .grant r (some d) t → I (env.serve r d t)) (hf : env.fire w = .next env') : I env' := by
  cases w with
  | resume t => cases hf; exact h.run _ _ _ henv
  | grant r d t =>
      cases d with
      | some d => cases hf; exact hserve r d t rfl
      | none => cases hf; exact h.run _ _ _ (h.release r henv)
  | leave r t => cases hf; exact h.run _ _ _ (h.release r henv)
  | released r => cases hf; exact h.trigger r henv
  | ended => cases hf; exact henv
  | failed e => cases hf
  | stop => cases hf

end Plain

theorem fire_stopped {env env' : Env τ R σ O E} {w : Work τ R σ O E}
    (h : env.fire w = .stopped env') : w = .stop ∧ env' = env := by
  cases w with
  | grant r d t => cases d <;> cases h
  | stop => cases h; exact ⟨rfl, rfl⟩
  | _ => cases h

theorem fire_raised {env env' : Env τ R σ O E} {w : Work τ R σ O E} {e : E}
    (h : env.fire w = .raised e env') : env' = env := by
  cases w with
  | grant r d t => cases d <;> cases h
  | failed e => cases h; rfl
  | _ => cases h

/-! ### What a step does to the clock, the outputs and the capacities -/

/-- Reached from `env₀` within one step: the clock stands still, the capacities are as
before, and every new output carries the current time. -/
structure Within (env₀ env : Env τ R σ O E) : Prop where
  now : env.now = env₀.now
  capacity : ∀ r, (env.res r).capacity = (env₀.res r).capacity
  out : ∃ new, env.out = env₀.out ++ new ∧ ∀ o ∈ new, o.time = env₀.now

omit [DecidableEq R] in
theorem Within.refl (env : Env τ R σ O E) : Within env env :=
  ⟨rfl, fun _ => rfl, [], by simp, by simp⟩

theorem within_plain (env₀ : Env τ R σ O E) : Plain (Within env₀) where
  schedule env prio d w h _ _ _ := ⟨h.now, h.capacity, h.out⟩
  setRes env r x h hx := by
    refine ⟨h.now, fun q => ?_, h.out⟩
    by_cases hq : q = r
    · subst hq
      simp [hx, h.capacity]
    · simp [Function.update_of_ne hq, h.capacity]
  write env s h := ⟨h.now, h.capacity, h.out⟩
  emit env o h ho := by
    obtain ⟨hnow, hcap, new, hout, hnew⟩ := h
    refine ⟨hnow, hcap, new ++ [o], by simp [hout], fun o' ho' => ?_⟩
    rcases List.mem_append.mp ho' with ho' | ho'
    · exact hnew o' ho'
    · rw [List.mem_singleton.mp ho', ho, hnow]

theorem within_fire {env env' : Env τ R σ O E} {w : Work τ R σ O E}
    (h : env.fire w = .next env') : Within env env' :=
  (within_plain env).fire (Within.refl env)
    (fun _ _ _ _ => ⟨rfl, fun _ => rfl, [], by simp [Env.serve], by simp⟩) h

/-! ### Until the stop event -/

/-- A run until `u` is under way. -/
structure Runs (u : τ) (env : Env τ R σ O E) : Prop where
  now : env.now < u
  urgent : ∀ e ∈ env.queue.events, e.prio = .urgent → IsStop e.work = false → e.time < u
  stop : ∀ e ∈ env.queue.events, IsStop e.work = true → e.prio = .urgent ∧ e.time = u
  one : count IsStop (pending [] env) = 1

/-- No run is under way, and nothing is left that depends on the clock. -/
structure Idle (env : Env τ R σ O E) : Prop where
  urgent : ∀ e ∈ env.queue.events, e.prio = .normal
  stop : ∀ e ∈ env.queue.events, IsStop e.work = false
  released : ∀ e ∈ env.queue.events, ∀ r, Frees r e.work = false

/-- `env._now = now`. -/
def setNow (env : Env τ R σ O E) (now : τ) : Env τ R σ O E := { env with now := now }

/-- The event that `env.run(until=u)` schedules before it steps. -/
def stopAt (env : Env τ R σ O E) (u : τ) : Env τ R σ O E :=
  env.schedule .urgent (u - env.now) .stop

section
variable {P : σ → Prop} {Q : τ → List (Option R × τ) → O → Prop}
variable {env env' : Env τ R σ O E} {u : τ}

theorem runs_plain (u : τ) : Plain (Runs (R := R) (σ := σ) (O := O) (E := E) u) where
  schedule env prio d w h hd hprio hw := by
    refine ⟨h.now, fun e he hurg hstop => ?_, fun e he hstop => ?_, ?_⟩
    · rcases (Heap.mem_push _ _ _).mp he with rfl | he
      · have hnow := h.now
        simpa [hprio hurg] using hnow
      · exact h.urgent e he hurg hstop
    · rcases (Heap.mem_push _ _ _).mp he with rfl | he
      · simp [hw] at hstop
      · exact h.stop e he hstop
    · rw [count_schedule, h.one, hw]
      rfl
  setRes env r x h _ := ⟨h.now, h.urgent, h.stop, h.one⟩
  write env s h := ⟨h.now, h.urgent, h.stop, h.one⟩
  emit env o h _ := ⟨h.now, h.urgent, h.stop, h.one⟩

omit [DecidableEq R] in
/-- Everything that is processed before the stop event is processed before its time. -/
theorem Runs.time_lt {e : Event τ (Work τ R σ O E)} {h : Heap τ (Work τ R σ O E)}
    (hr : Runs u env) (hp : env.queue.pop = some (e, h)) (he : IsStop e.work = false) :
    e.time < u := by
  have hpos : 0 < count IsStop (pending [] env) := hr.one ▸ Nat.one_pos
  obtain ⟨x, hx, hstop⟩ := exists_of_count_pos hpos
  obtain ⟨s, hs, rfl⟩ := List.mem_map.mp hx
  obtain ⟨hprio, htime⟩ := hr.stop s hs hstop
  rw [Heap.pop_events hp, List.mem_cons] at hs
  rcases hs with rfl | hs
  · simp [he] at hstop
  rcases Prod.Lex.le_iff.mp (Heap.pop_le hp s hs) with hlt | ⟨heq, hrank⟩
  · exact htime ▸ hlt
  -- at the time of the stop event only an urgent one could come first
  · apply hr.urgent e (Heap.pop_events hp ▸ List.mem_cons_self) ?_ he
    rcases Prod.Lex.le_iff.mp hrank with hlt | ⟨heq', -⟩
    · simp [Event.key, hprio, Priority.rank] at hlt
    · cases hpr : e.prio
      · rfl
      · simp [Event.key, hprio, hpr, Priority.rank] at heq'

omit [DecidableEq R] in
theorem Runs.popped {e : Event τ (Work τ R σ O E)} {h : Heap τ (Work τ R σ O E)}
    (hr : Runs u env) (hp : env.queue.pop = some (e, h)) (he : IsStop e.work = false) :
    Runs u (afterPop env e h) := by
  have hsub : ∀ a ∈ h.events, a ∈ env.queue.events := fun a ha => by
    rw [Heap.pop_events hp]
    exact List.mem_cons_of_mem e ha
  refine ⟨hr.time_lt hp he, fun a ha => hr.urgent a (hsub a ha),
    fun a ha => hr.stop a (hsub a ha), ?_⟩
  have hone := hr.one
  rw [← pending_pop hp, pending_cons, count_cons] at hone
  simpa [he] using hone

theorem Runs.step (hr : Runs u env) (h : env.step = some (.next env')) : Runs u env' := by
  obtain ⟨⟨e, q⟩, hp, hf⟩ := Option.map_eq_some_iff.mp h
  have hpop : Runs u (afterPop env e q) := by
    apply hr.popped hp
    cases hw : e.work <;> first | rfl | simp [Env.fire, hw] at hf
  refine (runs_plain u).fire hpop (fun r d t hw => ?_) hf
  have hserved : Runs u { afterPop env e q with
      served := env.served ++ [(r, e.time, e.time + d.1)] } :=
    ⟨hpop.now, hpop.urgent, hpop.stop, hpop.one⟩
  exact (runs_plain u).schedule _ _ _ _ hserved d.2 (by simp) rfl

/-- The stop event finds the clock at `u` and nothing left that was due before. -/
theorem Runs.stopped (hv : Valid P Q env) (hr : Runs u env)
    (h : env.step = some (.stopped env')) :
    Valid P Q env' ∧ Idle env' ∧ env'.now = u ∧ env'.out = env.out := by
  obtain ⟨⟨e, q⟩, hp, hf⟩ := Option.map_eq_some_iff.mp h
  obtain ⟨he, henv⟩ := fire_stopped hf
  replace henv : env' = afterPop env e q := henv
  have hmem : e ∈ env.queue.events := Heap.pop_events hp ▸ List.mem_cons_self
  have hu : e.time = u := (hr.stop e hmem (by rw [he]; rfl)).2
  have hsub : ∀ a ∈ q.events, a ∈ env.queue.events ∧ u ≤ a.time := fun a ha =>
    ⟨Heap.pop_events hp ▸ List.mem_cons_of_mem e ha, hu ▸ (Heap.pop_le hp a ha).time_le⟩
  have hnostop : ∀ a ∈ q.events, IsStop a.work = false := by
    have hone := hr.one
    rw [← pending_pop hp, pending_cons, count_cons, he] at hone
    have hzero : count IsStop (pending [] (afterPop env e q)) = 0 :=
      Nat.succ.inj hone
    intro a ha
    simpa using List.countP_eq_zero.mp hzero (a.time, a.work) (List.mem_map_of_mem ha)
  obtain ⟨hs, hb, -⟩ := hv.popped hp
  rw [he] at hs hb
  subst henv
  refine ⟨⟨hs.drop fun _ => rfl, fun r => (hb r).drop rfl⟩, ⟨fun a ha => ?_, hnostop, ?_⟩,
    hu, rfl⟩
  · cases hprio : a.prio with
    | normal => rfl
    | urgent =>
        exact absurd (hr.urgent a (hsub a ha).1 hprio (hnostop a ha)) (not_lt.mpr (hsub a ha).2)
  · intro a ha r
    by_contra hfree
    have hx : (a.time, a.work) ∈ pending [] env := List.mem_map_of_mem (hsub a ha).1
    have hnow := (hv.sound.prompt _ hx r (by simpa using hfree)).1
    exact absurd hr.now (not_lt.mpr (hnow ▸ (hsub a ha).2))

/-! ### Between two runs -/

theorem valid_initial {s : σ} (now : τ) (capacity : R → ℕ) (hs : P s) :
    Valid P Q (Env.initial (E := E) now capacity s) where
  sound :=
    { comp := hs, tasks := by simp [pending, Env.initial, Heap.empty]
      waiting := by simp [Env.initial], out := by simp [Env.initial]
      behind := by simp [Env.initial]
      users := by simp [pending, Env.initial, Heap.empty, count]
      room := by simp [Env.initial]
      prompt := by simp [pending, Env.initial, Heap.empty] }
  busy r := by simp [Busy, Env.initial]

theorem idle_initial (now : τ) (capacity : R → ℕ) (s : σ) :
    Idle (Env.initial (O := O) (E := E) now capacity s) :=
  ⟨by simp [Env.initial, Heap.empty], by simp [Env.initial, Heap.empty],
    by simp [Env.initial, Heap.empty]⟩

theorem Idle.setNow (hi : Idle env) (now : τ) : Idle (setNow env now) :=
  ⟨hi.urgent, hi.stop, hi.released⟩

theorem valid_setNow (hv : Valid P Q env) (hi : Idle env) (now : τ) :
    Valid P Q (setNow env now) := by
  obtain ⟨hs, hb⟩ := hv
  refine ⟨⟨hs.comp, hs.tasks, hs.waiting, hs.out, hs.behind, hs.users, hs.room, ?_⟩, hb⟩
  intro x hx r hr
  obtain ⟨e, he, rfl⟩ := List.mem_map.mp hx
  simp [hi.released e he r] at hr

/-- The clock may also move up to the next event, whatever is left to do. -/
theorem valid_forward {a : τ} (hv : Valid P Q env) (hle : env.now ≤ a)
    (hall : ∀ x ∈ pending [] env, a ≤ x.1) : Valid P Q (setNow env a) := by
  obtain ⟨hs, hb⟩ := hv
  refine ⟨⟨hs.comp, hs.tasks, hs.waiting, hs.out, hs.behind, hs.users, hs.room, ?_⟩, hb⟩
  intro x hx r hr
  have hnow := (hs.prompt x hx r hr).1
  exact ⟨le_antisymm (hnow.trans_le hle) (hall x hx), hall⟩

theorem valid_start [IsOrderedAddMonoid τ] (hv : Valid P Q env) {g : Gen τ R σ O E Unit}
    (hg : Ensures P (Q env.now) (fun _ _ => True) g []) : Valid P Q (env.start g) :=
  ⟨hv.sound.schedule le_rfl ⟨by simp [total], hg⟩ (fun _ => rfl) fun _ => rfl,
    fun r => (hv.busy r).schedule⟩

theorem valid_stopAt [IsOrderedAddMonoid τ] (hv : Valid P Q env) (hu : env.now ≤ u) : Valid P Q (stopAt env u) :=
  ⟨hv.sound.schedule (sub_nonneg.mpr hu) trivial (fun _ => rfl) fun _ => rfl,
    fun r => (hv.busy r).schedule⟩

omit [DecidableEq R] in
theorem runs_stopAt (hnow : env.now < u)
    (hurgent : ∀ e ∈ env.queue.events, e.prio = .urgent → e.time < u)
    (hstop : ∀ e ∈ env.queue.events, IsStop e.work = false) : Runs u (stopAt env u) := by
  refine ⟨hnow, fun e he hprio hs => ?_, fun e he hs => ?_, ?_⟩
  · rcases (Heap.mem_push _ _ _).mp he with rfl | he
    · simp [IsStop] at hs
    · exact hurgent e he hprio
  · rcases (Heap.mem_push _ _ _).mp he with rfl | he
    · exact ⟨rfl, add_sub_cancel _ _⟩
    · simp [hstop e he] at hs
  · have hzero : count IsStop (pending [] env) = 0 := by
      rw [count, List.countP_eq_zero]
      intro x hx
      obtain ⟨e, he, rfl⟩ := List.mem_map.mp hx
      simp [hstop e he]
    unfold stopAt
    rw [count_schedule, hzero]
    rfl

theorem Idle.runs (hi : Idle env) (hnow : env.now < u) : Runs u (EventRuns.stopAt env u) :=
  runs_stopAt hnow (fun e he hprio => by simp [hi.urgent e he] at hprio) hi.stop

/-- A process started at `now` does not disturb a run that ends later. -/
theorem Idle.runs_start (hi : Idle env) (g : Gen τ R σ O E Unit) (hnow : env.now < u) :
    Runs u (EventRuns.stopAt (env.start g) u) := by
  refine runs_stopAt (show (env.start g).now < u from hnow) ?_ ?_
  · intro e he hprio
    rcases (Heap.mem_push _ _ _).mp he with rfl | he
    · simpa using hnow
    · simp [hi.urgent e he] at hprio
  · intro e he
    rcases (Heap.mem_push _ _ _).mp he with rfl | he
    · rfl
    · exact hi.stop e he

end

/-! ### Services that are open at an instant -/

section
variable {env env' : Env τ R σ O E} {t : τ}

/-- The service intervals of `r` that contain the instant `t`. -/
def openCount (served : List (R × τ × τ)) (r : R) (t : τ) : ℕ :=
  served.countP fun x => x.1 = r ∧ x.2.1 ≤ t ∧ t < x.2.2

/-- Units of `r` whose service ends after `t`, as far as the heap knows. -/
def LeavesAfter (r : R) (t : τ) (x : τ × Work τ R σ O E) : Bool :=
  match x.2 with
  | .leave r' _ => r' = r ∧ t < x.1
  | _ => false

/-- Every open service still has its end in the heap. -/
def Covered (t : τ) (env : Env τ R σ O E) : Prop :=
  ∀ r, openCount env.served r t ≤ (pending [] env).countP (LeavesAfter r t)

/-- The loop has gone past `t`: nothing that can still happen contains it. -/
structure Past (t : τ) (env : Env τ R σ O E) : Prop where
  room : ∀ r, openCount env.served r t ≤ (env.res r).capacity
  now : t < env.now
  ahead : ∀ x ∈ pending [] env, t < x.1

omit [DecidableEq R] in
theorem countP_pending_schedule (p : τ × Work τ R σ O E → Bool) (env : Env τ R σ O E)
    (prio : Priority) (d : τ) (w : Work τ R σ O E) :
    (pending [] (env.schedule prio d w)).countP p =
      (pending [] env).countP p + if p (env.now + d, w) then 1 else 0 := by
  rw [(pending_schedule env prio d w).countP_eq, List.countP_cons]

omit [AddCommGroup τ] in
theorem openCount_append (served : List (R × τ × τ)) (r q : R) (a b : τ) :
    openCount (served ++ [(q, a, b)]) r t =
      openCount served r t + if q = r ∧ a ≤ t ∧ t < b then 1 else 0 := by
  simp [openCount, List.countP_append, List.countP_singleton]

theorem Covered.schedule {prio : Priority} {d : τ} {w : Work τ R σ O E} (h : Covered t env) :
    Covered t (env.schedule prio d w) := by
  intro r
  rw [countP_pending_schedule]
  exact (h r).trans (Nat.le_add_right _ _)

theorem Past.schedule [IsOrderedAddMonoid τ] {prio : Priority} {d : τ} {w : Work τ R σ O E}
    (h : Past t env) (hd : 0 ≤ d) : Past t (env.schedule prio d w) := by
  refine ⟨h.room, h.now, fun x hx => ?_⟩
  rcases mem_pending_schedule.mp hx with rfl | hx
  · exact h.now.trans_le (le_add_of_nonneg_right hd)
  · exact h.ahead x hx

theorem covered_plain (t : τ) : Plain (Covered (R := R) (σ := σ) (O := O) (E := E) t) where
  schedule _ _ _ _ h _ _ _ := h.schedule
  setRes _ _ _ h _ := h
  write _ _ h := h
  emit _ _ h _ := h

theorem past_plain [IsOrderedAddMonoid τ] (t : τ) :
    Plain (Past (R := R) (σ := σ) (O := O) (E := E) t) where
  schedule _ _ _ _ h hd _ _ := h.schedule hd
  setRes env r x h hx := by
    refine ⟨fun q => ?_, h.now, h.ahead⟩
    change openCount env.served q t ≤ _
    by_cases hq : q = r
    · subst hq
      simpa [hx] using h.room q
    · simpa [Function.update_of_ne hq] using h.room q
  write env s h := ⟨h.room, h.now, h.ahead⟩
  emit env o h _ := ⟨h.room, h.now, h.ahead⟩

/-- A service that starts now ends with an event that is in the heap from now on. -/
theorem Covered.serve {q : R} {d : Delay τ} {k : Task τ R σ O E} (h : Covered t env) :
    Covered t (env.serve q d k) := by
  intro r
  unfold Env.serve
  rw [countP_pending_schedule, Env.schedule_served, openCount_append]
  apply Nat.add_le_add (h r)
  by_cases hin : q = r ∧ env.now ≤ t ∧ t < env.now + d.1
  · rw [if_pos hin, if_pos (by simp [LeavesAfter, hin.1, hin.2.2])]
  · simp [hin]

theorem Past.serve [IsOrderedAddMonoid τ] {q : R} {d : Delay τ} {k : Task τ R σ O E}
    (h : Past t env) : Past t (env.serve q d k) := by
  have hserved : Past t { env with served := env.served ++ [(q, env.now, env.now + d.1)] } := by
    refine ⟨fun r => ?_, h.now, h.ahead⟩
    rw [openCount_append, if_neg fun hin => absurd h.now (not_lt.mpr hin.2.1), add_zero]
    exact h.room r
  exact hserved.schedule d.2

/-- The events that end after `t` belong to units in use. -/
theorem Covered.le_capacity {P : σ → Prop} {Q : τ → List (Option R × τ) → O → Prop}
    (hv : Valid P Q env) (h : Covered t env) (r : R) :
    openCount env.served r t ≤ (env.res r).capacity := by
  have hsub : ∀ x ∈ pending [] env, LeavesAfter r t x = true → Holds r x.2 = true := by
    intro x _ hx
    unfold LeavesAfter at hx
    split at hx
    · simp_all
    · cases hx
  calc openCount env.served r t ≤ (pending [] env).countP (LeavesAfter r t) := h r
    _ ≤ count (Holds r) (pending [] env) := List.countP_mono_left hsub
    _ = (env.res r).users := (hv.sound.users r).symm
    _ ≤ (env.res r).capacity := hv.sound.room r

/-- The event that takes the loop past `t` finds every open service in the heap. -/
theorem covered_or_past_pop {P : σ → Prop} {Q : τ → List (Option R × τ) → O → Prop}
    {e : Event τ (Work τ R σ O E)} {q : Heap τ (Work τ R σ O E)} (hv : Valid P Q env)
    (h : Covered t env ∨ Past t env) (hp : env.queue.pop = some (e, q)) :
    Covered t (afterPop env e q) ∨ Past t (afterPop env e q) := by
  have hpast : (∀ r, openCount env.served r t ≤ (env.res r).capacity) → t < e.time →
      Past t (afterPop env e q) := fun hroom hlt =>
    ⟨hroom, hlt, fun x hx => hlt.trans_le (ahead_popped hp x (List.mem_cons_of_mem _ hx))⟩
  rcases h with h | h
  · by_cases hlt : t < e.time
    · exact .inr (hpast (h.le_capacity hv) hlt)
    · left
      intro r
      have hr := h r
      rw [← pending_pop hp, pending_cons, List.countP_cons] at hr
      have hgone : LeavesAfter r t (e.time, e.work) = false := by
        unfold LeavesAfter
        split <;> simp_all
      change openCount env.served r t ≤ _ + if LeavesAfter r t (e.time, e.work) then 1 else 0
        at hr
      rwa [hgone] at hr
  · have he : (e.time, e.work) ∈ pending [] env := pending_pop hp ▸ List.mem_cons_self
    exact .inr (hpast h.room (h.ahead _ he))

theorem covered_or_past_fire [IsOrderedAddMonoid τ] {w : Work τ R σ O E}
    (h : Covered t env ∨ Past t env) (hf : env.fire w = .next env') :
    Covered t env' ∨ Past t env' := by
  rcases h with hc | hp
  · exact .inl ((covered_plain t).fire hc (fun _ _ _ _ => hc.serve) hf)
  · exact .inr ((past_plain t).fire hp (fun _ _ _ _ => hp.serve) hf)

theorem covered_or_past_room {P : σ → Prop} {Q : τ → List (Option R × τ) → O → Prop}
    (hv : Valid P Q env) (h : Covered t env ∨ Past t env) (r : R) :
    openCount env.served r t ≤ (env.res r).capacity :=
  h.elim (fun h => h.le_capacity hv r) fun h => h.room r

end

end SmartDisk.EventRuns
