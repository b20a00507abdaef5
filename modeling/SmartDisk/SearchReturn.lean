import SmartDisk.SearchProgress

/-!
# What the statistics hold when `run_search` returns

`q.join()` waits for the elements, not for the workers: each worker adds its counters
to the shared statistics only after its last `task_done`. What is left is
`w.join(5)`, which returns without a word when the time is over.
-/
namespace SmartDisk.SearchReturn
open ActionSystem SearchPool SearchSteps SearchTotals SearchProgress
variable {P : Type} {N : ℕ} {c : Config P N}

def hasExited : Pc P → Bool
  | .exited | .died => true
  | _ => false

/-- If `run_search` is about to come back from `w.join(5)`, then `w` has exited. The workers are
joined in the order in which they were started. -/
def joinsExited (s : State P N) : Bool :=
  match s.phase with
  | .reaping (n + 1) => ∀ i : Fin N, i.val = N - (n + 1) → hasExited (s.workers i).pc = true
  | _ => true

/-- No join runs into its timeout. -/
def Patient (a : Action N) (s : State P N) : Prop := a = .produce → joinsExited s = true

instance (a : Action N) (s : State P N) : Decidable (Patient a s) :=
  inferInstanceAs (Decidable (a = .produce → joinsExited s = true))

/-- The workers whose join has returned. -/
def reaped (N : ℕ) : Phase P → ℕ
  | .reaping n => N - n
  | .returned => N
  | _ => 0

/-- Who has been joined has exited. -/
def Reaped (s : State P N) : Prop :=
  ∀ i : Fin N, i.val < reaped N s.phase → hasExited (s.workers i).pc = true

theorem Moves.reaped {i : Fin N} {s t : State P N} (hs : Reaped s) (h : Moves c i s t) :
    Reaped t := by
  have hphase : t.phase = s.phase := by cases h <;> rfl
  intro j hj
  rw [hphase] at hj
  by_cases hji : j = i
  · -- the worker that moves has not exited
    subst hji
    have hexited := hs j hj
    cases h <;> simp_all [hasExited]
  · rw [Moves.workers_ne h hji]
    exact hs j hj

theorem Produces.reaped {s t : State P N} (hs : Reaped s) (hg : joinsExited s = true)
    (h : Produces c s t) : Reaped t := by
  intro j hj
  cases h with
  | path p rest hp hq => exact absurd hj (Nat.not_lt_zero _)
  | pushed hp => exact absurd hj (Nat.not_lt_zero _)
  | sentinel n hp hq => exact absurd hj (Nat.not_lt_zero _)
  | joins hp => exact absurd hj (Nat.not_lt_zero _)
  | joined hp hu =>
      have hj' : j.val < N - N := hj
      omega
  | reaps n hp =>
      have hj' : j.val < N - n := hj
      by_cases hlast : j.val = N - (n + 1)
      · -- the join that comes back now
        unfold joinsExited at hg
        rw [hp] at hg
        exact of_decide_eq_true hg j hlast
      · refine hs j ?_
        rw [hp]
        change j.val < N - (n + 1)
        omega
  | returns hp =>
      refine hs j ?_
      rw [hp]
      exact hj

theorem reaped_of_reachable {s : State P N} (hs : (system c).ReachableWith Patient s) :
    Reaped s := by
  refine hs.invariant (fun j hj => absurd hj (Nat.not_lt_zero _)) ?_
  intro a s t h hg hst
  cases a with
  | produce => exact Produces.reaped h (hg rfl) (run_search_produces hst)
  | work i => exact Moves.reaped h (search_work_moves hst)

/-- Where every filter can be constructed and no join runs into its timeout, the statistics that
`run_search` leaves behind are complete, and they are the same for every schedule. -/
theorem complete_at_return (c : Config P N) (hN : 1 ≤ N) (hup : ∀ j, c.instantiates j = true)
    {s : State P N} (hs : (system c).ReachableWith Patient s) (hreturned : s.phase = .returned) :
    s.stats .num_workers = N ∧
    s.stats .num_items = (sequential c.filters c.paths).num_items ∧
    s.stats .passed_items = (sequential c.filters c.paths).passed_items ∧
    s.stats .bytes_from_disk = (sequential c.filters c.paths).bytes_from_disk ∧
    s.stats .cpu_time = ∑ j, c.elapsed_cpu j := by
  have hreach : (system c).Reachable s := hs.mono fun _ _ _ => True.intro
  have hexited : ∀ j, (s.workers j).pc = .exited := by
    intro j
    have hreaped := reaped_of_reachable hs j (by rw [hreturned]; exact j.isLt)
    cases hpc : (s.workers j).pc with
    | exited => rfl
    | died =>
        have hdown := (reachable_alive hreach).died j hpc
        rw [hup j] at hdown
        cases hdown
    | _ => simp [hpc, hasExited] at hreaped
  obtain ⟨hworkers, hitems, hpassed, hbytes, hcpu⟩ :=
    (reachable_invariant hreach).totals hN hexited
  rw [sequential_eq]
  exact ⟨hworkers, hitems, hpassed, hbytes, hcpu⟩

/-- The joins of `twoPaths` come after its workers are done. -/
def reapedRun : List (Action 2) := twoPathsRun ++ .replicate 3 .produce

theorem reapedRun_runs :
    ((system twoPaths).exec reapedRun (system twoPaths).start).isSome = true := by decide +kernel

theorem complete_at_return_twoPaths : ∃ s, (system twoPaths).ReachableWith Patient s ∧
    s.phase = .returned ∧ s.stats .num_workers = 2 ∧ s.stats .num_items = 2 ∧
    s.stats .passed_items = 1 ∧ s.stats .bytes_from_disk = 20 := by
  have hs : (system twoPaths).ReachableWith Patient _ :=
    System.reachableWith_last reapedRun reapedRun_runs (by decide +kernel)
  obtain ⟨hworkers, hitems, hpassed, hbytes, -⟩ :=
    complete_at_return twoPaths (by decide) (fun _ => rfl) hs rfl
  refine ⟨_, hs, rfl, hworkers, hitems, hpassed, hbytes.trans ?_⟩
  decide +kernel

/-- One worker and no path. -/
def nothingToDo : Config ℕ 1 where
  filters := []
  paths := []
  qsize := 1
  instantiates _ := true
  elapsed_cpu _ := 0

/-- The worker has marked its `None` as done and has not come to the lock when its join gives
up. -/
def slowFlush : List (Action 1) :=
  .replicate 3 .produce ++ .replicate 3 (.work (Fin.last 0)) ++ .replicate 3 .produce

theorem slowFlush_runs :
    ((system nothingToDo).exec slowFlush (system nothingToDo).start).isSome = true := by
  decide +kernel

theorem slowFlush_incomplete : ¬ ∀ s, (system nothingToDo).Reachable s → s.phase = .returned →
    s.stats .num_workers = 1 := by
  intro h
  have hcomplete := h _ (System.reachable_last slowFlush slowFlush_runs) rfl
  revert hcomplete
  decide +kernel

end SmartDisk.SearchReturn
