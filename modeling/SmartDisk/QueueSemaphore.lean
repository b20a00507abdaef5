import SmartDisk.ActionSystem

/-!
# The queue semaphore of `kv_client/client.py`

A command takes a place in the queue with `acquire`, and its response gives it back with
`release`, which wakes the thread that has waited longest. `wait_q` waits on the same condition
for the queue to drain, so that it may be the one that is woken. A woken thread gets the lock
later, and looks at the counter again.
-/
namespace SmartDisk.QueueSemaphore
open ActionSystem

/-- A blocking call. -/
inductive Call where
  | acquire
  | wait_q (outstanding : ℕ)
  deriving DecidableEq, Repr

/-- Where a thread is: in no call, in `Condition.wait`, or on its way out of it. -/
inductive Thread where
  | outside
  | waiting (call : Call)
  | woken (call : Call)
  deriving DecidableEq, Repr

structure State (n : ℕ) where
  depth : ℕ
  outstanding : ℕ := 0
  waiters : List (Fin n) := []
  threads : Fin n → Thread := fun _ => .outside

inductive Action (n : ℕ) where
  | call (i : Fin n) (call : Call)
  | resume (i : Fin n)
  | expire (i : Fin n)
  | release
  | clear
  | set_depth (depth : ℕ)

variable {n : ℕ}

def Call.satisfied (call : Call) (s : State n) : Prop :=
  match call with
  | .acquire => s.outstanding < s.depth
  | .wait_q outstanding => s.outstanding ≤ outstanding

instance (call : Call) (s : State n) : Decidable (call.satisfied s) :=
  match call with
  | .acquire => inferInstanceAs (Decidable (s.outstanding < s.depth))
  | .wait_q outstanding => inferInstanceAs (Decidable (s.outstanding ≤ outstanding))

def Call.taken : Call → ℕ
  | .acquire => 1
  | .wait_q _ => 0

def Thread.wake : Thread → Thread
  | .waiting call => .woken call
  | .outside => .outside
  | .woken call => .woken call

namespace State

def set (s : State n) (i : Fin n) (thread : Thread) : State n :=
  { s with threads := Function.update s.threads i thread }

/-- The check of the loop, under the lock. -/
def enter (s : State n) (i : Fin n) (call : Call) : State n :=
  if call.satisfied s then { s.set i .outside with outstanding := s.outstanding + call.taken }
  else { s.set i (.waiting call) with waiters := s.waiters ++ [i] }

def notify (s : State n) : State n :=
  match s.waiters with
  | [] => s
  | i :: waiters => { s.set i (s.threads i).wake with waiters }

end State

/-- `acquire` of a thread that already waits in one is none. Only `wait_q` has a timeout. -/
def step : Action n → State n → Option (State n)
  | .call i call, s => if s.threads i = .outside then some (s.enter i call) else none
  | .resume i, s =>
      match s.threads i with
      | .woken call => some (s.enter i call)
      | .outside | .waiting _ => none
  | .expire i, s =>
      match s.threads i with
      | .waiting (.wait_q _) => some { s.set i .outside with waiters := s.waiters.erase i }
      | .woken (.wait_q _) => some (s.set i .outside)
      | .outside | .waiting .acquire | .woken .acquire => none
  | .release, s =>
      some (if s.outstanding = 0 then s else { s with outstanding := s.outstanding - 1 }.notify)
  | .clear, s =>
      some { s with outstanding := 0, waiters := [], threads := fun i => (s.threads i).wake }
  | .set_depth depth, s => some { s with depth }

def semaphore (n depth : ℕ) : System (State n) (Action n) where
  start := { depth }
  step := step

/-! ### Sleeping threads -/

/-- Whether a thread is on its way out of `acquire`. -/
def Thread.coming : Thread → ℕ
  | .woken .acquire => 1
  | .outside | .waiting _ | .woken (.wait_q _) => 0

def Thread.draining : Thread → Bool
  | .waiting (.wait_q _) | .woken (.wait_q _) => true
  | .outside | .waiting .acquire | .woken .acquire => false

/-- Nobody else is in a call while a thread drains the queue, and the depth is raised only when
nobody waits. -/
def Undisturbed (a : Action n) (s : State n) : Prop :=
  match a with
  | .call _ .acquire => ∀ j, (s.threads j).draining = false
  | .call _ (.wait_q _) => ∀ j, s.threads j = .outside
  | .set_depth depth => depth ≤ s.depth ∨ s.waiters = []
  | .resume _ | .expire _ | .release | .clear => True

instance (a : Action n) (s : State n) : Decidable (Undisturbed a s) :=
  match a with
  | .call _ .acquire => inferInstanceAs (Decidable (∀ j, (s.threads j).draining = false))
  | .call _ (.wait_q _) => inferInstanceAs (Decidable (∀ j, s.threads j = .outside))
  | .set_depth depth => inferInstanceAs (Decidable (depth ≤ s.depth ∨ s.waiters = []))
  | .resume _ | .expire _ | .release | .clear => .isTrue trivial

/-- The woken threads on their way out of `acquire`. -/
def coming (s : State n) : ℕ := ∑ i, (s.threads i).coming

/-- A waiting thread has reason to, or for every free place a woken one is on its way. -/
structure Inv (s : State n) : Prop where
  waiters : ∀ i, i ∈ s.waiters ↔ ∃ call, s.threads i = .waiting call
  nodup : s.waiters.Nodup
  places : ∀ i, s.threads i = .waiting .acquire → s.depth ≤ s.outstanding + coming s
  drains : ∀ i outstanding, s.threads i = .waiting (.wait_q outstanding) →
    outstanding < s.outstanding
  alone : ∀ i, (s.threads i).draining = true → ∀ j, j ≠ i → s.threads j = .outside

variable {s t : State n} {i : Fin n}

theorem set_same (s : State n) (i : Fin n) (thread : Thread) :
    (s.set i thread).threads i = thread := Function.update_self ..

theorem set_other (s : State n) {i j : Fin n} (thread : Thread) (h : j ≠ i) :
    (s.set i thread).threads j = s.threads j := Function.update_of_ne h ..

theorem coming_set (s : State n) (i : Fin n) (thread : Thread) :
    coming (s.set i thread) + (s.threads i).coming = coming s + thread.coming :=
  sum_update_balance (fun _ => Thread.coming) s.threads i thread (Nat.add_comm _ _)

/-- A thread that starts a call or comes out of the wait finds the others so. -/
def Others (s : State n) (i : Fin n) : Call → Prop
  | .acquire => ∀ j, j ≠ i → (s.threads j).draining = false
  | .wait_q _ => ∀ j, j ≠ i → s.threads j = .outside

theorem Others.not_draining {call : Call} (h : Others s i call) {j : Fin n} (hj : j ≠ i) :
    (s.threads j).draining = false := by
  cases call with
  | acquire => exact h j hj
  | wait_q outstanding => rw [h j hj]; rfl

/-- Who waits when a thread does not. -/
theorem waiting_set {thread : Thread} (h : ∀ c, thread ≠ .waiting c) {j : Fin n} {c : Call} :
    (s.set i thread).threads j = .waiting c ↔ j ≠ i ∧ s.threads j = .waiting c := by
  by_cases hj : j = i
  · subst hj
    rw [set_same]
    exact iff_of_false (h c) fun hc => hc.1 rfl
  · rw [set_other s _ hj]
    exact ⟨fun hc => ⟨hj, hc⟩, fun hc => hc.2⟩

/-- Two threads that wait both do so in `acquire`: the others of one that drains are outside. -/
theorem Inv.both_acquire (hs : Inv s) {j : Fin n} (hj : j ≠ i) {call c : Call}
    (hi : s.threads i = .waiting call) (hc : s.threads j = .waiting c) :
    call = .acquire ∧ c = .acquire := by
  constructor
  · cases call with
    | acquire => rfl
    | wait_q outstanding =>
      have hout := hs.alone i (by rw [hi]; rfl) j hj
      exact nomatch hc.symm.trans hout
  · cases c with
    | acquire => rfl
    | wait_q outstanding =>
      have hout := hs.alone j (by rw [hc]; rfl) i (Ne.symm hj)
      exact nomatch hi.symm.trans hout

/-- A thread that gets what it wants. -/
theorem Inv.leave (hs : Inv s) {call : Call} (hi : ∀ c, s.threads i ≠ .waiting c)
    (hcoming : (s.threads i).coming ≤ call.taken) (hothers : Others s i call) :
    Inv { s.set i .outside with outstanding := s.outstanding + call.taken } := by
  have hcount := coming_set s i .outside
  change _ = _ + 0 at hcount
  have hkeep : ∀ j c, (s.set i .outside).threads j = .waiting c ↔ s.threads j = .waiting c := by
    intro j c
    have houtside : ∀ c, Thread.outside ≠ .waiting c := nofun
    refine (waiting_set houtside).trans (and_iff_right_of_imp fun hc hj => ?_)
    exact hi c (hj ▸ hc)
  constructor
  · intro j
    simp only [hkeep]
    exact hs.waiters j
  · exact hs.nodup
  · intro j hj
    have hplaces := hs.places j ((hkeep j _).mp hj)
    change s.depth ≤ s.outstanding + call.taken + coming (s.set i .outside)
    omega
  · intro j outstanding hj
    have hne : j ≠ i := by
      rintro rfl
      exact hi _ ((hkeep j _).mp hj)
    have hdraining := hothers.not_draining hne
    rw [(hkeep j _).mp hj] at hdraining
    cases hdraining
  · intro j hj
    have hne : j ≠ i := by
      rintro rfl
      change ((s.set j .outside).threads j).draining = true at hj
      rw [set_same] at hj
      cases hj
    change ((s.set i .outside).threads j).draining = true at hj
    rw [set_other s _ hne, hothers.not_draining hne] at hj
    cases hj

/-- A thread that has to wait. -/
theorem Inv.wait (hs : Inv s) {call : Call} (hi : ∀ c, s.threads i ≠ .waiting c)
    (hothers : Others s i call) (hunsatisfied : ¬ call.satisfied s) :
    Inv { s.set i (.waiting call) with waiters := s.waiters ++ [i] } := by
  have hnot : i ∉ s.waiters := fun h => by
    obtain ⟨c, hc⟩ := (hs.waiters i).mp h
    exact hi c hc
  constructor
  · intro j
    change j ∈ s.waiters ++ [i] ↔ ∃ c, (s.set i (.waiting call)).threads j = .waiting c
    rw [List.mem_append, List.mem_singleton]
    by_cases hj : j = i
    · subst hj
      exact iff_of_true (.inr rfl) ⟨call, set_same ..⟩
    · rw [set_other s _ hj, ← hs.waiters j]
      exact or_iff_left hj
  · exact List.nodup_append.mpr ⟨hs.nodup, List.nodup_singleton i, fun a ha b hb => by
      rintro rfl
      exact hnot (List.mem_singleton.mp hb ▸ ha)⟩
  · intro j hj
    cases call with
    | acquire => exact Nat.le_add_right_of_le (Nat.not_lt.mp hunsatisfied)
    | wait_q outstanding =>
      by_cases hne : j = i
      · subst hne
        have hsame := set_same s j (.waiting (.wait_q outstanding))
        exact nomatch hj.symm.trans hsame
      · have hother := (set_other s (.waiting (.wait_q outstanding)) hne).symm.trans hj
        exact nomatch (hothers j hne).symm.trans hother
  · intro j outstanding hj
    by_cases hne : j = i
    · subst hne
      have hsame := (set_same s j (.waiting call)).symm.trans hj
      cases hsame
      exact Nat.not_le.mp hunsatisfied
    · have hother := (set_other s (.waiting call) hne).symm.trans hj
      have hdraining := hothers.not_draining hne
      rw [hother] at hdraining
      cases hdraining
  · intro j hj k hk
    by_cases hne : j = i
    · subst hne
      cases call with
      | acquire =>
        change ((s.set j (.waiting .acquire)).threads j).draining = true at hj
        rw [set_same] at hj
        cases hj
      | wait_q outstanding => exact (set_other s _ hk).trans (hothers k hk)
    · change ((s.set i (.waiting call)).threads j).draining = true at hj
      rw [set_other s _ hne, hothers.not_draining hne] at hj
      cases hj

theorem Inv.enter (hs : Inv s) {call : Call} (hi : ∀ c, s.threads i ≠ .waiting c)
    (hcoming : (s.threads i).coming ≤ call.taken) (hothers : Others s i call) :
    Inv (s.enter i call) := by
  unfold State.enter
  split
  · exact hs.leave hi hcoming hothers
  · rename_i hunsatisfied
    exact hs.wait hi hothers hunsatisfied

theorem notify_nil (h : s.waiters = []) : s.notify = s := by
  unfold State.notify
  rw [h]

theorem notify_cons {waiters : List (Fin n)} (h : s.waiters = i :: waiters) :
    s.notify = { s.set i (s.threads i).wake with waiters } := by
  unfold State.notify
  rw [h]

theorem wake_ne_waiting (thread : Thread) (call : Call) : thread.wake ≠ .waiting call := by
  cases thread <;> exact nofun

theorem draining_wake (thread : Thread) : thread.wake.draining = thread.draining := by
  cases thread with
  | waiting call => cases call <;> rfl
  | outside | woken call => rfl

theorem draining_set_wake (s : State n) (i j : Fin n) :
    ((s.set i (s.threads i).wake).threads j).draining = (s.threads j).draining := by
  by_cases hj : j = i
  · subst hj
    rw [set_same, draining_wake]
  · rw [set_other s _ hj]

/-- The thread that is woken for a place is on its way to it, unless it drains the queue alone. -/
theorem Inv.wake (hs : Inv s) {waiters : List (Fin n)} (hwaiters : s.waiters = i :: waiters) :
    Inv { s.set i (s.threads i).wake with outstanding := s.outstanding - 1, waiters } := by
  obtain ⟨call, hcall⟩ := (hs.waiters i).mp (hwaiters ▸ List.mem_cons_self)
  have hnodup := hs.nodup
  rw [hwaiters, List.nodup_cons] at hnodup
  have hkeep : ∀ j c, (s.set i (s.threads i).wake).threads j = .waiting c ↔
      j ≠ i ∧ s.threads j = .waiting c := fun j c => waiting_set (wake_ne_waiting _)
  constructor
  · intro j
    change j ∈ waiters ↔ ∃ c, (s.set i (s.threads i).wake).threads j = .waiting c
    simp only [hkeep, exists_and_left]
    rw [← hs.waiters j, hwaiters, List.mem_cons]
    constructor
    · intro hj
      exact ⟨fun h => hnodup.1 (h ▸ hj), .inr hj⟩
    · rintro ⟨hne, hj⟩
      exact hj.resolve_left hne
  · exact hnodup.2
  · intro j hj
    obtain ⟨hne, hj⟩ := (hkeep j _).mp hj
    have hplaces := hs.places j hj
    obtain ⟨rfl, -⟩ := hs.both_acquire hne hcall hj
    have hcount := coming_set s i (s.threads i).wake
    rw [hcall] at hcount
    change coming (s.set i (.woken .acquire)) + 0 = coming s + 1 at hcount
    rw [hcall]
    change s.depth ≤ s.outstanding - 1 + coming (s.set i (.woken .acquire))
    omega
  · intro j outstanding hj
    obtain ⟨hne, hj⟩ := (hkeep j _).mp hj
    exact nomatch (hs.both_acquire hne hcall hj).2
  · intro j hj k hk
    have hout := hs.alone j ((draining_set_wake s i j).symm.trans hj) k hk
    change (s.set i (s.threads i).wake).threads k = .outside
    by_cases hki : k = i
    · subst hki
      rw [hcall] at hout
      cases hout
    · rw [set_other s _ hki]
      exact hout

/-- The release of a place wakes a thread for it. -/
theorem Inv.release (hs : Inv s) :
    Inv { s with outstanding := s.outstanding - 1 }.notify := by
  by_cases hempty : s.waiters = []
  · have hnotify : { s with outstanding := s.outstanding - 1 }.notify =
        { s with outstanding := s.outstanding - 1 } := notify_nil hempty
    rw [hnotify]
    have hnone : ∀ j c, s.threads j ≠ .waiting c := by
      intro j c hj
      have hmem := (hs.waiters j).mpr ⟨c, hj⟩
      rw [hempty] at hmem
      cases hmem
    exact ⟨hs.waiters, hs.nodup, fun j hj => absurd hj (hnone j _),
      fun j _ hj => absurd hj (hnone j _), hs.alone⟩
  · obtain ⟨i, waiters, hwaiters⟩ := List.exists_cons_of_ne_nil hempty
    have hnotify : { s with outstanding := s.outstanding - 1 }.notify =
        { s.set i (s.threads i).wake with outstanding := s.outstanding - 1, waiters } :=
      notify_cons hwaiters
    rw [hnotify]
    exact hs.wake hwaiters

theorem Inv.clear (hs : Inv s) :
    Inv { s with outstanding := 0, waiters := [], threads := fun i => (s.threads i).wake } where
  waiters j := iff_of_false List.not_mem_nil fun ⟨c, hc⟩ => wake_ne_waiting _ c hc
  nodup := List.nodup_nil
  places j hj := absurd hj (wake_ne_waiting _ _)
  drains j _ hj := absurd hj (wake_ne_waiting _ _)
  alone j hj k hk := by
    change (s.threads j).wake.draining = true at hj
    rw [draining_wake] at hj
    change (s.threads k).wake = .outside
    rw [hs.alone j hj k hk]
    rfl

theorem Inv.set_depth (hs : Inv s) {depth : ℕ} (h : depth ≤ s.depth ∨ s.waiters = []) :
    Inv { s with depth } where
  waiters := hs.waiters
  nodup := hs.nodup
  places j hj := by
    rcases h with h | h
    · exact h.trans (hs.places j hj)
    · have hmem := (hs.waiters j).mpr ⟨_, hj⟩
      rw [h] at hmem
      cases hmem
  drains := hs.drains
  alone := hs.alone

/-- A thread that gives up draining the queue was the only one. -/
theorem Inv.expire (hs : Inv s) (hi : (s.threads i).draining = true) (waiters : List (Fin n))
    (hwaiters : waiters = s.waiters.erase i) : Inv { s.set i .outside with waiters } := by
  have hout : ∀ j, (s.set i .outside).threads j = .outside := by
    intro j
    by_cases hj : j = i
    · subst hj
      exact set_same ..
    · rw [set_other s _ hj]
      exact hs.alone i hi j hj
  have hnone : ∀ j c, (s.set i .outside).threads j ≠ .waiting c := by
    intro j c h
    rw [hout j] at h
    cases h
  constructor
  · intro j
    refine iff_of_false (fun hj => ?_) fun ⟨c, hc⟩ => hnone j c hc
    change j ∈ waiters at hj
    rw [hwaiters, hs.nodup.mem_erase_iff] at hj
    obtain ⟨c, hc⟩ := (hs.waiters j).mp hj.2
    rw [hs.alone i hi j hj.1] at hc
    cases hc
  · exact hwaiters ▸ hs.nodup.erase i
  · exact fun j hj => absurd hj (hnone j _)
  · exact fun j _ hj => absurd hj (hnone j _)
  · exact fun j hj k hk => hout k

theorem Inv.step (hs : Inv s) {a : Action n} (ha : Undisturbed a s) (h : step a s = some t) :
    Inv t := by
  cases a with
  | call i call =>
    simp only [QueueSemaphore.step, Option.ite_none_right_eq_some, Option.some.injEq] at h
    obtain ⟨hi, rfl⟩ := h
    refine hs.enter (fun c hc => nomatch hi.symm.trans hc) ?_ ?_
    · rw [hi]
      exact Nat.zero_le _
    · cases call with
      | acquire => exact fun j _ => ha j
      | wait_q outstanding => exact fun j _ => ha j
  | resume i =>
    cases hi : s.threads i with
    | outside | waiting call =>
      simp only [QueueSemaphore.step, hi] at h
      cases h
    | woken call =>
      simp only [QueueSemaphore.step, hi, Option.some.injEq] at h
      subst h
      refine hs.enter (fun c hc => nomatch hi.symm.trans hc) ?_ ?_
      · rw [hi]
        cases call <;> exact Nat.le_refl _
      · cases call with
        | acquire =>
          intro j hj
          cases hdraining : (s.threads j).draining with
          | false => rfl
          | true =>
            have hout := hs.alone j hdraining i (Ne.symm hj)
            exact nomatch hi.symm.trans hout
        | wait_q outstanding => exact hs.alone i (by rw [hi]; rfl)
  | expire i =>
    cases hi : s.threads i with
    | outside =>
      simp only [QueueSemaphore.step, hi] at h
      cases h
    | waiting call =>
      cases call with
      | acquire =>
        simp only [QueueSemaphore.step, hi] at h
        cases h
      | wait_q outstanding =>
        simp only [QueueSemaphore.step, hi, Option.some.injEq] at h
        subst h
        exact hs.expire (by rw [hi]; rfl) _ rfl
    | woken call =>
      cases call with
      | acquire =>
        simp only [QueueSemaphore.step, hi] at h
        cases h
      | wait_q outstanding =>
        simp only [QueueSemaphore.step, hi, Option.some.injEq] at h
        subst h
        have hnot : i ∉ s.waiters := fun hmem => by
          obtain ⟨c, hc⟩ := (hs.waiters i).mp hmem
          exact nomatch hi.symm.trans hc
        exact hs.expire (by rw [hi]; rfl) s.waiters (List.erase_of_not_mem hnot).symm
  | release =>
    simp only [QueueSemaphore.step, Option.some.injEq] at h
    subst h
    split
    · exact hs
    · exact hs.release
  | clear =>
    simp only [QueueSemaphore.step, Option.some.injEq] at h
    exact h ▸ hs.clear
  | set_depth depth =>
    simp only [QueueSemaphore.step, Option.some.injEq] at h
    exact h ▸ hs.set_depth ha

theorem reachable_inv {depth : ℕ} (hs : (semaphore n depth).ReachableWith Undisturbed s) :
    Inv s := by
  refine hs.invariant ?_ fun a s t hs ha h => hs.step ha h
  exact ⟨fun i => iff_of_false List.not_mem_nil nofun, List.nodup_nil, nofun, nofun, nofun⟩

/-- `wait_q` of thread 1 gets the wake-up that is meant for thread 0. Thread 0 sleeps with the
queue empty, and no response will wake it. -/
example :
    let s := (semaphore 2 1).last [.call 0 .acquire, .call 1 (.wait_q 0), .call 0 .acquire,
      .release, .resume 1] (by decide)
    s.threads 0 = .waiting .acquire ∧ s.threads 1 = .outside ∧ Call.acquire.satisfied s ∧
      s.outstanding = 0 := by
  decide

end SmartDisk.QueueSemaphore
