import SmartDisk.SearchTotals

/-!
# When the search can deadlock

`q.join()` waits for one `task_done` for every element that was put, so each of
the `N` `None`s needs a live worker. A worker whose filters do not instantiate
fails before its `try` blocks and never takes its `None`. The pool always runs
into a state in which nothing moves, and that state is the normal end exactly
when every worker came up.
-/
namespace SmartDisk.SearchProgress
open ActionSystem SearchPool SearchSteps SearchTotals
variable {P : Type} {N : ℕ} {c : Config P N}

/-- `run_search` waits inside `q.put` or `q.join`. -/
def Blocked (c : Config P N) (s : State P N) : Prop :=
  match s.phase with
  | .putting (_ :: _) | .sentinels (_ + 1) => c.qsize ≤ s.q.length
  | .joining => s.unfinished ≠ 0
  | _ => False

def Deadlocked (c : Config P N) (s : State P N) : Prop :=
  Blocked c s ∧ ∀ i, search_work c i s = none

theorem blocked_of_refused {s : State P N} (h : run_search c s = none)
    (hj : ¬ joined s.phase) : Blocked c s := by
  cases hp : s.phase with
  | putting rest => cases rest <;> simp_all [run_search, put, Blocked]
  | sentinels n => cases n <;> simp_all [run_search, put, Blocked]
  | joining => simp_all [run_search, Blocked]
  | reaping n => simp_all [joined]
  | returned => simp_all [joined]

/-- The four ways in which a worker cannot move. -/
theorem refused_worker {i : Fin N} {s : State P N} (h : search_work c i s = none) :
    ((s.workers i).pc = .get ∧ s.q = []) ∨
      ((s.workers i).pc = .acquire ∧ ∃ j, s.lock = some j) ∨
      (s.workers i).pc = .exited ∨ (s.workers i).pc = .died := by
  cases hpc : (s.workers i).pc with
  | get =>
      cases hq : s.q with
      | nil => exact .inl ⟨rfl, rfl⟩
      | cons x q => cases x <;> simp [search_work, hpc, hq] at h
  | acquire =>
      cases hl : s.lock with
      | none => simp [search_work, hpc, hl] at h
      | some j => exact .inr (.inl ⟨rfl, j, rfl⟩)
  | filtering src todo => cases todo <;> simp [search_work, hpc] at h
  | flush todo => cases todo <;> simp [search_work, hpc] at h
  | exited => exact .inr (.inr (.inl rfl))
  | died => exact .inr (.inr (.inr rfl))
  | instantiate | task_done again | write f v todo => simp [search_work, hpc] at h

/-- Who got past the construction of its filters. -/
structure Alive (c : Config P N) (s : State P N) : Prop where
  died : ∀ j, (s.workers j).pc = .died → c.instantiates j = false
  instantiated : ∀ j, c.instantiates j = false →
    (s.workers j).pc = .instantiate ∨ (s.workers j).pc = .died

theorem Moves.alive {i : Fin N} {s t : State P N} (hs : Alive c s) (h : Moves c i s t) :
    Alive c t := by
  obtain ⟨hdied, hinst⟩ := hs
  refine ⟨?_, ?_⟩
  · intro j hj
    by_cases hji : j = i
    · subst hji
      cases h <;> simp_all
    · rw [Moves.workers_ne h hji] at hj
      exact hdied j hj
  · intro j hj
    by_cases hji : j = i
    · subst hji
      have := hinst j hj
      cases h <;> simp_all
    · rw [Moves.workers_ne h hji]
      exact hinst j hj

theorem Produces.alive {s t : State P N} (hs : Alive c s) (h : Produces c s t) : Alive c t := by
  obtain ⟨hdied, hinst⟩ := hs
  cases h <;> exact ⟨hdied, hinst⟩

theorem reachable_alive {s : State P N} (hs : (system c).Reachable s) : Alive c s :=
  hs.invariant ⟨by simp [system], by simp [system]⟩
    (preserves_of (fun _ _ _ => Moves.alive) fun _ _ => Produces.alive)

/-! ### No deadlock while every worker comes up -/

/-- Where no worker can move, a worker that still lacks its `None` waits for the queue. -/
theorem waiting_worker {s : State P N} (hi : Invariant c s) (ha : Alive c s)
    (hup : ∀ j, c.instantiates j = true) {j : Fin N} (h : search_work c j s = none)
    (hj : (s.workers j).nones = 0) : s.q = [] := by
  rw [(hi.sound j).nones] at hj
  rcases refused_worker h with ⟨_, hq⟩ | ⟨hpc, _⟩ | hpc | hpc
  · exact hq
  · simp [hpc, leaving] at hj
  · simp [hpc, leaving] at hj
  · simpa [hup j] using ha.died j hpc

/-- Where no worker can move, none of them owes a `task_done`. -/
theorem refused_holding {s : State P N} (h : ∀ i, search_work c i s = none) (j : Fin N) :
    holding (s.workers j).pc = 0 := by
  rcases refused_worker (h j) with ⟨hpc, _⟩ | ⟨hpc, _⟩ | hpc | hpc <;> simp [hpc, holding]

theorem exists_nones_zero {s : State P N} (hi : Invariant c s) (h : sentinels s ≠ 0) :
    ∃ j, (s.workers j).nones = 0 := by
  by_contra hno
  have hone : ∑ _j : Fin N, 1 ≤ ∑ j, (s.workers j).nones :=
    Finset.sum_le_sum fun j _ => Nat.one_le_iff_ne_zero.mpr fun hj => hno ⟨j, hj⟩
  rw [Finset.sum_const, Finset.card_univ, Fintype.card_fin, Nat.nsmul_eq_mul, Nat.mul_one] at hone
  have hsum := hi.nones
  omega

/-- Only paths are queued while no `None` is, and they leave before the first one. -/
theorem queue_empty {s : State P N} (hi : Invariant c s) (hN : 1 ≤ N) (h : sentinels s = 0) :
    s.q = [] := by
  have hones := all_eq_one hi.nones_le_one (by simpa [h] using hi.nones)
  have hb := hi.ordered.drained ⟨0, hN⟩ (by rw [hones]; exact Nat.one_pos)
  simp only [backlog, add_eq_zero, Multiset.coe_eq_zero, reduceOption_eq,
    List.filterMap_eq_nil_iff] at hb
  simp only [sentinels, Nat.add_eq_zero_iff, List.countP_eq_zero] at h
  refine List.eq_nil_iff_forall_not_mem.mpr fun x hx => h.1 x hx ?_
  have hnone : x = none := hb.1 x hx
  rw [hnone]
  rfl

theorem not_deadlocked (hN : 1 ≤ N) (hq : 1 ≤ c.qsize) (hup : ∀ j, c.instantiates j = true)
    {s : State P N} (hs : (system c).Reachable s) : ¬ Deadlocked c s := by
  rintro ⟨hb, hw⟩
  have hi := reachable_invariant hs
  -- a `None` that is not consumed yet has a worker waiting for it
  have hempty : s.q = [] := by
    by_cases hsent : sentinels s = 0
    · exact queue_empty hi hN hsent
    · obtain ⟨j, hj⟩ := exists_nones_zero hi hsent
      exact waiting_worker hi (reachable_alive hs) hup (hw j) hj
  have hsettled : 0 = s.unfinished := by
    simpa [Settled, refused_holding hw, hempty] using hi.settled
  cases hp : s.phase with
  | putting rest => cases rest <;> simp [Blocked, hp, hempty] at hb; omega
  | sentinels n => cases n <;> simp [Blocked, hp, hempty] at hb; omega
  | joining => simp only [Blocked, hp] at hb; omega
  | reaping n => simp [Blocked, hp] at hb
  | returned => simp [Blocked, hp] at hb

/-! ### A worker that does not come up blocks the join -/

/-- Steps a worker can still take without reading the queue. -/
def pcRank : Pc P → ℕ
  | .instantiate => 15
  | .get => 14
  | .filtering _ todo => todo.length + 16
  | .task_done true => 15
  | .task_done false => 13
  | .acquire => 12
  | .flush todo => 2 * todo.length + 1
  | .write _ _ todo => 2 * todo.length + 2
  | .exited | .died => 0

/-- What one queued element can still cause. -/
def cost (c : Config P N) : ℕ := c.filters.length + 3

def phaseRank (c : Config P N) : Phase P → ℕ
  | .putting rest => rest.length * (cost c + 1) + N * (cost c + 1) + N + 5
  | .sentinels n => n * (cost c + 1) + N + 4
  | .joining => N + 3
  | .reaping n => n + 2
  | .returned => 0

def rank (c : Config P N) (s : State P N) : ℕ :=
  phaseRank c s.phase + s.q.length * cost c + ∑ j, pcRank (s.workers j).pc

/-- A move spends rank of its worker, or takes an element and pays with its cost. -/
theorem Moves.pcRank_lt {i : Fin N} {s t : State P N} (h : Moves c i s t) :
    ∃ w : Worker P, t.workers = Function.update s.workers i w ∧ t.phase = s.phase ∧
      (t.q = s.q ∧ pcRank w.pc < pcRank (s.workers i).pc ∨
        s.q.length = t.q.length + 1 ∧ pcRank w.pc < pcRank (s.workers i).pc + cost c) := by
  cases h <;> refine ⟨_, rfl, rfl, ?_⟩ <;> simp_all [pcRank, cost, flushed_fields] <;> omega

theorem Moves.rank_lt {i : Fin N} {s t : State P N} (h : Moves c i s t) : rank c t < rank c s := by
  obtain ⟨w, hworkers, hphase, hcase⟩ := Moves.pcRank_lt h
  have hsum : ∑ j, pcRank (t.workers j).pc + pcRank (s.workers i).pc =
      ∑ j, pcRank (s.workers j).pc + pcRank w.pc := by
    rw [hworkers]
    exact sum_update_balance (fun _ w => pcRank w.pc) s.workers i w (Nat.add_comm _ _)
  unfold rank
  rw [hphase]
  rcases hcase with ⟨hq, hlt⟩ | ⟨hq, hlt⟩
  · rw [hq]; omega
  · rw [hq, Nat.succ_mul]; omega

theorem Produces.rank_lt {s t : State P N} (h : Produces c s t) : rank c t < rank c s := by
  cases h with
  | path p ps hp hl =>
      simp only [rank, hp, phaseRank, List.length_append, List.length_cons, List.length_nil,
        Nat.succ_mul]
      omega
  | sentinel n hp hl =>
      simp only [rank, hp, phaseRank, List.length_append, List.length_cons, List.length_nil,
        Nat.succ_mul]
      omega
  | pushed hp | joins hp | joined hp | reaps n hp | returns hp =>
      simp only [rank, hp, phaseRank, List.length_nil]
      omega

theorem step_rank_lt (a : Action N) (s t : State P N) (h : (system c).step a s = some t) :
    rank c t < rank c s := by
  cases a with
  | produce => exact Produces.rank_lt (run_search_produces h)
  | work i => exact Moves.rank_lt (search_work_moves h)

/-- A pool with a dead worker runs into a state where `run_search` waits for ever. -/
theorem exists_deadlock {i : Fin N} (hi : c.instantiates i = false) :
    ∃ s, (system c).Reachable s ∧ Deadlocked c s := by
  obtain ⟨s, hs, hstuck⟩ := System.exists_stuck (rank c) step_rank_lt (M := system c) .start
  have hw : ∀ j, search_work c j s = none := fun j => hstuck (.work j)
  have hinv := reachable_invariant hs
  have hdied : (s.workers i).pc = .died := by
    rcases (reachable_alive hs).instantiated i hi with hpc | hpc
    · rcases refused_worker (hw i) with ⟨h, _⟩ | ⟨h, _⟩ | h | h <;> simp [hpc] at h
    · exact hpc
  refine ⟨s, hs, blocked_of_refused (hstuck .produce) fun hj => ?_, hw⟩
  -- the dead worker's `None` is still unread, so the join cannot have returned
  have hnones : (s.workers i).nones = 0 := by rw [(hinv.sound i).nones, hdied]; rfl
  have hsum := hinv.nones
  rw [(hinv.joined_empty hj).2.1] at hsum
  have := all_eq_one hinv.nones_le_one hsum i
  omega

/-- `run_search` can deadlock exactly when some worker fails to instantiate its
filters; exceptions raised while filtering never block it. -/
theorem no_deadlock_iff (c : Config P N) (hN : 1 ≤ N) (hq : 1 ≤ c.qsize) :
    (∀ s, (system c).Reachable s → ¬ Deadlocked c s) ↔ ∀ i, c.instantiates i = true := by
  constructor
  · intro h i
    by_contra hi
    obtain ⟨s, hs, hd⟩ := exists_deadlock (Bool.eq_false_of_not_eq_true hi)
    exact h s hs hd
  · exact fun hup s hs => not_deadlocked hN hq hup hs

theorem no_deadlock_iff_twoPaths :
    (∀ s, (system twoPaths).Reachable s → ¬ Deadlocked twoPaths s) ↔
      ∀ i, twoPaths.instantiates i = true :=
  no_deadlock_iff twoPaths (by decide) (by decide)

/-- One worker whose only filter needs constructor arguments it is not given. -/
def missingArguments : Config ℕ 1 where
  filters := []
  paths := [0]
  qsize := 1000
  instantiates _ := false
  elapsed_cpu _ := 0

/-- The worker is dead and `run_search` waits in `q.join()` for two elements. -/
theorem missingArguments_deadlock :
    ∃ s, (system missingArguments).Reachable s ∧ Deadlocked missingArguments s := by
  have hrun : ((system missingArguments).exec
      [.work 0, .produce, .produce, .produce, .produce] (system missingArguments).start).isSome =
        true := by decide +kernel
  refine ⟨_, System.reachable_last _ hrun, ?_, fun i => ?_⟩
  · exact Nat.succ_ne_zero 1
  · rw [Subsingleton.elim i 0]
    rfl

end SmartDisk.SearchProgress
