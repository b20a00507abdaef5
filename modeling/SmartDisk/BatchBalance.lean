import SmartDisk.BatchDriver

/-!
# Tensors put and tensors taken

The driver computes the number of its gets from `len(paths)` before the first
tensor arrives, while a tensor is put only for a path that the whole chain
accepts. The two agree exactly when every path is accepted and some worker is
there to evaluate it. Otherwise the driver always runs into a state in which it
waits and no process is left.
-/
namespace SmartDisk.BatchBalance
open ActionSystem SearchPool SearchSteps SearchTotals SearchProgress BatchDriver
variable {P T : Type} {N : ℕ}

/-! ### More about the pool -/

section
variable {c : SearchPool.Config P N}

/-- The lock is held in the critical section only, a worker filters with an end of the
chain, and one that never came up has evaluated nothing. -/
structure Steady (c : SearchPool.Config P N) (s : SearchPool.State P N) : Prop where
  lock : ∀ k, s.lock = some k → critical (s.workers k).pc = true
  suffix : ∀ j src todo, (s.workers j).pc = .filtering src todo → todo <:+ c.filters
  idle : ∀ j, c.instantiates j = false → (s.workers j).evaluated = []

theorem Moves.steady {i : Fin N} {s t : SearchPool.State P N} (ha : Alive c s)
    (hs : Steady c s) (h : Moves c i s t) : Steady c t := by
  refine ⟨?_, ?_, ?_⟩
  · intro k hk
    by_cases hki : k = i
    · subst hki
      have := hs.lock k
      cases h <;> simp_all [critical]
    · rw [Moves.workers_ne h hki]
      -- only the holder could have changed the lock
      have hsame : s.lock = some k := by
        cases h with
        | acquires hpc hfree => simp_all
        | releases hpc => simp_all
        | _ => exact hk
      exact hs.lock k hsame
  · intro j src todo hj
    by_cases hji : j = i
    · subst hji
      have := hs.suffix j
      cases h with
      | takes p q hpc hq => simp_all
      | passes p f rest hpc hf =>
          simp only [State.setWorker_workers, Function.update_self, Pc.filtering.injEq] at hj
          obtain ⟨rfl, rfl⟩ := hj
          exact (List.suffix_cons f rest).trans (hs.suffix j p (f :: rest) hpc)
      | _ => simp_all
    · rw [Moves.workers_ne h hji] at hj
      exact hs.suffix j src todo hj
  · intro j hj
    by_cases hji : j = i
    · subst hji
      have := hs.idle j hj
      have := ha.instantiated j hj
      cases h <;> simp_all
    · rw [Moves.workers_ne h hji]
      exact hs.idle j hj

theorem Produces.steady {s t : SearchPool.State P N} (hs : Steady c s) (h : Produces c s t) :
    Steady c t := by
  obtain ⟨h₁, h₂, h₃⟩ := hs
  cases h <;> exact ⟨h₁, h₂, h₃⟩

theorem start_steady (c : SearchPool.Config P N) : Steady c (SearchPool.system c).start :=
  ⟨by simp [SearchPool.system], by simp [SearchPool.system], by simp [SearchPool.system]⟩

theorem reachable_steady {s : SearchPool.State P N} (hs : (SearchPool.system c).Reachable s) :
    Steady c s := by
  have h : Alive c s ∧ Steady c s := by
    apply hs.invariant (I := fun s => Alive c s ∧ Steady c s)
    · exact ⟨reachable_alive .start, start_steady c⟩
    · apply preserves_of
      · exact fun i s t hs h => ⟨Moves.alive hs.1 h, Moves.steady hs.1 hs.2 h⟩
      · exact fun s t hs h => ⟨Produces.alive hs.1 h, Produces.steady hs.2 h⟩
  exact h.2

/-- A pool in which nothing moves has no worker left. -/
theorem stuck_ended (hq : 1 ≤ c.qsize) {s : SearchPool.State P N}
    (hs : (SearchPool.system c).Reachable s) (hw : ∀ i, search_work c i s = none)
    (hp : run_search c s = none) (j : Fin N) :
    (s.workers j).pc = .exited ∨ (s.workers j).pc = .died := by
  have hi := reachable_invariant hs
  rcases refused_worker (hw j) with ⟨hpc, hempty⟩ | ⟨hpc, k, hk⟩ | h | h
  · -- the `None` of a waiting worker has been put and nobody else takes two of them
    exfalso
    have hzero : (s.workers j).nones = 0 := by rw [(hi.sound j).nones, hpc]; rfl
    have hnone : nonesLeft N s.phase ≠ 0 := by
      intro hleft
      have hsum := hi.nones
      rw [sentinels, hempty, hleft] at hsum
      have := all_eq_one hi.nones_le_one hsum j
      omega
    have hroom : s.q.length < c.qsize := by rw [hempty]; exact hq
    cases hphase : s.phase with
    | putting ps => cases ps <;> simp [run_search, put, hphase, hroom] at hp
    | sentinels n =>
        cases n with
        | zero => simp [nonesLeft, hphase] at hnone
        | succ n => simp [run_search, put, hphase, hroom] at hp
    | joining | reaping n | returned => simp [nonesLeft, hphase] at hnone
  · -- whoever holds the lock can go on
    exfalso
    have hcrit := (reachable_steady hs).lock k hk
    rcases refused_worker (hw k) with ⟨h, -⟩ | ⟨h, -⟩ | h | h <;> simp [h, critical] at hcrit
  · exact .inl h
  · exact .inr h

end

variable {c : BatchDriver.Config P T N}

/-! ### What one step of the driver can do -/

/-- `main` moves on with a tensor it was waiting for. -/
inductive Takes : Main → Main → Prop
  | collect (todo missing n : ℕ) :
      Takes (.collect todo (missing + 1) n) (.collect todo missing n)
  | flush (left : ℕ) : Takes (.flush (left + 1)) (.flush left)

/-- `main` moves on by itself. -/
inductive Goes (c : BatchDriver.Config P T N) : Main → Main → Prop
  | batch (todo n : ℕ) : Goes c (.loop (todo + 1) n) (.collect todo c.batch_size n)
  | run (todo n : ℕ) : Goes c (.collect todo 0 n) (.loop todo (n + 1))
  | rest (n : ℕ) : Goes c (.loop 0 n) (.flush (c.paths.length - n * c.batch_size))
  | join : Goes c (.flush 0) .joining
  | finish : Goes c .joining .finished

inductive Driven (c : BatchDriver.Config P T N) (s : BatchDriver.State P T N) :
    BatchDriver.State P T N → Prop
  | search (pool : SearchPool.State P N) : run_search c.search s.pool = some pool →
      Driven c s { s with pool := pool }
  | works (i : Fin N) (pool : SearchPool.State P N) : search_work c.search i s.pool = some pool →
      Driven c s { s with
        pool := pool
        feeding := Function.update s.feeding i (s.feeding i ++ c.sent (s.pool.workers i))
        puts := s.puts + (c.sent (s.pool.workers i)).length }
  | feeds (i : Fin N) (x : T) (xs : List T) : s.feeding i = x :: xs →
      Driven c s { s with
        feeding := Function.update s.feeding i xs, preprocessed_q := s.preprocessed_q ++ [x] }
  | takes (x : T) (q : List T) (next : Main) : s.preprocessed_q = x :: q → Takes s.main next →
      Driven c s { s with preprocessed_q := q, gets := s.gets + 1, main := next }
  | goes (next : Main) : Goes c s.main next → Driven c s { s with main := next }

theorem get_driven {s t : BatchDriver.State P T N} {next : Main} (hn : Takes s.main next)
    (h : BatchDriver.get s next = some t) : Driven c s t := by
  unfold BatchDriver.get at h
  split at h
  · cases h
  · cases h
    exact .takes _ _ _ ‹_› hn

theorem main_driven {s t : BatchDriver.State P T N} (h : BatchDriver.main c s = some t) :
    Driven c s t := by
  unfold BatchDriver.main at h
  split at h
  · cases h
    exact .goes _ (by rw [‹s.main = _›]; exact .batch _ _)
  · cases h
    exact .goes _ (by rw [‹s.main = _›]; exact .rest _)
  · exact get_driven (by rw [‹s.main = _›]; exact .collect _ _ _) h
  · cases h
    exact .goes _ (by rw [‹s.main = _›]; exact .run _ _)
  · exact get_driven (by rw [‹s.main = _›]; exact .flush _) h
  · cases h
    exact .goes _ (by rw [‹s.main = _›]; exact .join)
  · split at h
    · cases h
      exact .goes _ (by rw [‹s.main = _›]; exact .finish)
    · cases h
  · cases h

theorem step_driven {a : BatchDriver.Action N} {s t : BatchDriver.State P T N}
    (h : (BatchDriver.system c).step a s = some t) : Driven c s t := by
  cases a with
  | search_thread =>
      obtain ⟨pool, hp, rfl⟩ := Option.map_eq_some_iff.mp h
      exact .search pool hp
  | work i =>
      obtain ⟨pool, hp, rfl⟩ := Option.map_eq_some_iff.mp h
      exact .works i pool hp
  | feed i =>
      change BatchDriver.feed i s = some t at h
      unfold BatchDriver.feed at h
      split at h
      · cases h
      · cases h
        exact .feeds i _ _ ‹_›
  | main => exact main_driven h

/-- An invariant of the driver is one case for each kind of step. -/
theorem preserves_of {I : BatchDriver.State P T N → Prop} (h : ∀ s t, I s → Driven c s t → I t) :
    (BatchDriver.system c).Preserves (fun _ _ => True) I :=
  fun _ s t hs _ ht => h s t hs (step_driven ht)

/-- The workers and the search thread do not notice the driver. -/
theorem pool_reachable {s : BatchDriver.State P T N} (hs : (BatchDriver.system c).Reachable s) :
    (SearchPool.system c.search).Reachable s.pool := by
  induction hs with
  | start => exact .start
  | step a _ _ h ih =>
      cases step_driven h with
      | search pool hp => exact .step .produce ih True.intro hp
      | works i pool hp => exact .step (.work i) ih True.intro hp
      | feeds | takes | goes => exact ih

/-! ### Balances -/

/-- Tensors a worker has put: one for each path it has counted as passed, and one for a
path whose last filter has just answered. -/
def delivered (w : Worker P) : ℕ :=
  w.count_passed + match w.pc with
    | .filtering _ [] => 1
    | _ => 0

theorem last_filter {f : SearchPool.Filter P} (h : [f] <:+ c.search.filters) :
    f = c.transformAndSendFilter := by
  obtain ⟨front, hfront⟩ := h
  simpa using (List.append_inj' hfront rfl).2

theorem sent_cons {w : Worker P} {src : P} {f g : SearchPool.Filter P}
    {todo : List (SearchPool.Filter P)} (hpc : w.pc = .filtering src (f :: g :: todo)) :
    c.sent w = [] := by
  simp [BatchDriver.Config.sent, hpc]

/-- A worker puts a tensor exactly when the last filter answers. -/
theorem delivered_balance {i : Fin N} {s t : SearchPool.State P N} (hs : Steady c.search s)
    (h : Moves c.search i s t) :
    ∑ j, delivered (t.workers j) =
      ∑ j, delivered (s.workers j) + (c.sent (s.workers i)).length := by
  have key : ∃ w, t.workers = Function.update s.workers i w ∧
      delivered w = delivered (s.workers i) + (c.sent (s.workers i)).length := by
    cases h with
    | takes src q hpc hq =>
        refine ⟨_, rfl, ?_⟩
        cases hf : c.search.filters with
        | nil => simp [BatchDriver.Config.search] at hf
        | cons f fs => simp [delivered, hpc, BatchDriver.Config.sent]
    | raises src f todo hpc hf =>
        refine ⟨_, rfl, ?_⟩
        cases todo with
        | nil =>
            obtain rfl := last_filter (hs.suffix i src [f] hpc)
            simp_all [delivered, BatchDriver.Config.sent, BatchDriver.Config.transformAndSendFilter]
        | cons g todo => simp [delivered, hpc, sent_cons hpc]
    | rejects src f todo hpc hf =>
        refine ⟨_, rfl, ?_⟩
        cases todo with
        | nil =>
            obtain rfl := last_filter (hs.suffix i src [f] hpc)
            simp [BatchDriver.Config.transformAndSendFilter] at hf
        | cons g todo => simp [delivered, hpc, sent_cons hpc]
    | passes src f todo hpc hf =>
        refine ⟨_, rfl, ?_⟩
        cases todo with
        | nil =>
            obtain rfl := last_filter (hs.suffix i src [f] hpc)
            obtain ⟨x, hx, -⟩ := Option.map_eq_some_iff.mp hf
            simp [delivered, hpc, BatchDriver.Config.sent, hx]
        | cons g todo => simp [delivered, hpc, sent_cons hpc]
    | _ =>
        refine ⟨_, rfl, ?_⟩
        simp_all [delivered, BatchDriver.Config.sent]
  obtain ⟨w, hw, hd⟩ := key
  rw [hw]
  exact sum_update_balance (fun _ => delivered) s.workers i w (b := 0) hd

/-- The gets `main` has made when it is at this point of its loops. -/
def Counted (c : BatchDriver.Config P T N) (gets : ℕ) : Main → Prop
  | .loop todo n => n + todo = c.paths.length / c.batch_size ∧ gets = n * c.batch_size
  | .collect todo missing n =>
      n + todo + 1 = c.paths.length / c.batch_size ∧ gets + missing = (n + 1) * c.batch_size
  | .flush left => gets + left = c.paths.length
  | .joining | .finished => gets = c.paths.length

theorem Takes.counted {gets : ℕ} {m n : Main} (h : Takes m n) (hm : Counted c gets m) :
    Counted c (gets + 1) n := by
  cases h with
  | collect todo missing k => exact ⟨hm.1, by have := hm.2; omega⟩
  | flush left => exact (Nat.add_right_comm gets 1 left).trans hm

theorem Goes.counted {gets : ℕ} {m n : Main} (h : Goes c m n) (hm : Counted c gets m) :
    Counted c gets n := by
  cases h with
  | batch todo k => exact ⟨hm.1, by rw [hm.2, Nat.succ_mul]⟩
  | run todo k => exact ⟨by have := hm.1; omega, hm.2⟩
  | rest k =>
      obtain ⟨hk, hgets⟩ := hm
      have hle : k * c.batch_size ≤ c.paths.length := by
        rw [show k = c.paths.length / c.batch_size from hk]
        exact Nat.div_mul_le_self _ _
      change gets + (c.paths.length - k * c.batch_size) = c.paths.length
      omega
  | join => exact hm
  | finish => exact hm

/-- A waiting `main` has not made all its gets. -/
theorem Counted.lt_of_waiting {gets : ℕ} {m : Main} (hm : Counted c gets m) (hw : Waiting m) :
    gets < c.paths.length := by
  cases m with
  | collect todo missing n =>
      cases missing with
      | zero => cases hw
      | succ missing =>
          obtain ⟨hn, hgets⟩ := hm
          have hle : (n + 1) * c.batch_size ≤ c.paths.length :=
            (Nat.mul_le_mul_right _ (by omega)).trans (Nat.div_mul_le_self _ _)
          omega
  | flush left =>
      cases left with
      | zero => cases hw
      | succ left =>
          have : gets + (left + 1) = c.paths.length := hm
          omega
  | loop | joining | finished => cases hw

theorem Counted.eq_of_past {gets : ℕ} {m : Main} (hm : Counted c gets m) (hp : Past m) :
    gets = c.paths.length := by
  cases m with
  | joining | finished => exact hm
  | _ => cases hp

structure Balanced (c : BatchDriver.Config P T N) (s : BatchDriver.State P T N) : Prop where
  delivered : ∑ j, delivered (s.pool.workers j) = s.puts
  conserved : s.gets + s.preprocessed_q.length + ∑ j, (s.feeding j).length = s.puts
  counted : Counted c s.gets s.main

theorem Driven.balanced {s t : BatchDriver.State P T N} (hp : Steady c.search s.pool)
    (hs : Balanced c s) (h : Driven c s t) : Balanced c t := by
  obtain ⟨hdel, hcons, hcount⟩ := hs
  cases h with
  | search pool hpool =>
      have hw := Produces.workers (run_search_produces hpool)
      exact ⟨by simpa [hw] using hdel, hcons, hcount⟩
  | works i pool hpool =>
      refine ⟨?_, ?_, hcount⟩
      · simpa [hdel] using delivered_balance hp (search_work_moves hpool)
      · have hsum := sum_update_balance (fun _ xs => xs.length) s.feeding i
          (s.feeding i ++ c.sent (s.pool.workers i)) (a := (c.sent (s.pool.workers i)).length)
          (b := 0) (by simp)
        simp only
        omega
  | feeds i x xs hf =>
      have hsum := sum_update_balance (fun _ xs => xs.length) s.feeding i xs (a := 0) (b := 1)
        (by simp [hf])
      refine ⟨hdel, ?_, hcount⟩
      simp only [List.length_append, List.length_singleton]
      omega
  | takes x q next hq hn =>
      refine ⟨hdel, ?_, hn.counted hcount⟩
      rw [hq, List.length_cons] at hcons
      simp only
      omega
  | goes next hn => exact ⟨hdel, hcons, hn.counted hcount⟩

theorem reachable_balanced {s : BatchDriver.State P T N}
    (hs : (BatchDriver.system c).Reachable s) : Balanced c s := by
  induction hs with
  | start =>
      refine ⟨by simp [BatchDriver.system, SearchPool.system, BatchBalance.delivered],
        by simp [BatchDriver.system], Nat.zero_add _, ?_⟩
      simp [BatchDriver.system]
  | step a hr _ h ih => exact (step_driven h).balanced (reachable_steady (pool_reachable hr)) ih

/-! ### What has been put when the workers have left -/

theorem chain_append (fs : List (SearchPool.Filter P)) (f : SearchPool.Filter P) (p : P) :
    (chain (fs ++ [f]) p).1 = some true ↔ (chain fs p).1 = some true ∧ f.call p = some true := by
  induction fs with
  | nil =>
      cases hf : f.call p with
      | none => simp [chain, hf]
      | some b => cases b <;> simp [chain, hf]
  | cons g fs ih =>
      cases hg : g.call p with
      | none => simp [chain, hg]
      | some b => cases b <;> simp [chain, hg, ih]

theorem passedAll_iff (p : P) : passedAll c.search p = true ↔ c.Delivers p := by
  simp only [passedAll, decide_eq_true_eq, BatchDriver.Config.search, chain_append,
    BatchDriver.Config.Delivers, and_congr_right_iff]
  intro _
  cases hx : c.transform p <;> simp [BatchDriver.Config.transformAndSendFilter, hx]

theorem Balanced.puts_eq {s : BatchDriver.State P T N} (hb : Balanced c s)
    (hi : SearchTotals.Invariant c.search s.pool) (he : Ended s) :
    s.puts = ∑ j, (s.pool.workers j).evaluated.countP (passedAll c.search) := by
  rw [← hb.delivered]
  refine Finset.sum_congr rfl fun j _ => ?_
  rw [← (hi.sound j).passed]
  rcases (he j).1 with hpc | hpc <;> simp [BatchBalance.delivered, hpc]

/-- Once somebody has come up and everybody has left, every path has been evaluated. -/
theorem puts_of_served {s : BatchDriver.State P T N} (hs : (BatchDriver.system c).Reachable s)
    (he : Ended s) {i : Fin N} (hi : c.instantiates i = true)
    (hall : ∀ p ∈ c.paths, c.Delivers p) : s.puts = c.paths.length := by
  have hinv := reachable_invariant (pool_reachable hs)
  have hexited : (s.pool.workers i).pc = .exited := by
    rcases (he i).1 with hpc | hpc
    · exact hpc
    · have hdown : c.instantiates i = false := (reachable_alive (pool_reachable hs)).died i hpc
      rw [hi] at hdown
      cases hdown
  have hempty : backlog s.pool = 0 := by
    apply hinv.ordered.drained i
    rw [(hinv.sound i).nones, hexited]
    exact Nat.one_pos
  have hsplit : ∑ j, ((s.pool.workers j).evaluated : Multiset P) = (c.paths : Multiset P) := by
    refine hinv.evaluated hempty fun j => ?_
    rcases (he j).1 with hpc | hpc <;> rw [hpc] <;> rfl
  calc s.puts = ∑ j, (s.pool.workers j).evaluated.countP (passedAll c.search) :=
        (reachable_balanced hs).puts_eq hinv he
    _ = c.paths.countP (passedAll c.search) := by
        simpa using sum_split (Multiset.countPAddMonoidHom (passedAll c.search · = true)) _ hsplit
    _ = c.paths.length :=
        List.countP_eq_length.mpr fun p hp => (passedAll_iff p).mpr (hall p hp)

theorem puts_le {s : BatchDriver.State P T N} (hs : (BatchDriver.system c).Reachable s)
    (he : Ended s) : s.puts ≤ c.paths.countP (passedAll c.search) := by
  have hinv := reachable_invariant (pool_reachable hs)
  have hle : ∑ j, ((s.pool.workers j).evaluated : Multiset P) ≤ (c.paths : Multiset P) := by
    have hitems : ∑ j, items (s.pool.workers j) + backlog s.pool = (c.paths : Multiset P) :=
      hinv.items
    rw [← hitems]
    refine le_trans (Finset.sum_le_sum fun j _ => ?_) (Multiset.le_add_right _ _)
    exact Multiset.le_add_right _ _
  calc s.puts = ∑ j, (s.pool.workers j).evaluated.countP (passedAll c.search) :=
        (reachable_balanced hs).puts_eq hinv he
    _ = (∑ j, ((s.pool.workers j).evaluated : Multiset P)).countP (passedAll c.search · = true) := by
        rw [← Multiset.coe_countPAddMonoidHom, map_sum]
        simp
    _ ≤ c.paths.countP (passedAll c.search) := by
        simpa using Multiset.countP_le_of_le (passedAll c.search · = true) hle

/-- A path that is not delivered, or the lack of any worker, leaves a tensor out. -/
theorem puts_lt {s : BatchDriver.State P T N} (hs : (BatchDriver.system c).Reachable s)
    (he : Ended s) (hne : c.paths ≠ [])
    (h : (∀ i, c.instantiates i = false) ∨ ∃ p ∈ c.paths, ¬ c.Delivers p) :
    s.puts < c.paths.length := by
  rcases h with hdown | ⟨p, hp, hfail⟩
  · have hidle : ∀ j, (s.pool.workers j).evaluated = [] := fun j =>
      (reachable_steady (pool_reachable hs)).idle j (hdown j)
    rw [(reachable_balanced hs).puts_eq (reachable_invariant (pool_reachable hs)) he]
    simpa [hidle] using List.length_pos_of_ne_nil hne
  · have hlt : c.paths.countP (passedAll c.search) ≠ c.paths.length := by
      intro heq
      exact hfail ((passedAll_iff p).mp (List.countP_eq_length.mp heq p hp))
    exact (puts_le hs he).trans_lt (lt_of_le_of_ne List.countP_le_length hlt)

/-! ### The end of a run -/

def mainRank : Main → ℕ
  | .loop todo _ => 2 * todo + 3
  | .collect todo _ _ => 2 * todo + 4
  | .flush _ => 2
  | .joining => 1
  | .finished => 0

def rank (c : BatchDriver.Config P T N) (s : BatchDriver.State P T N) : ℕ :=
  3 * SearchProgress.rank c.search s.pool + 2 * ∑ j, (s.feeding j).length +
    s.preprocessed_q.length + mainRank s.main

theorem Takes.rank_eq {m n : Main} (h : Takes m n) : mainRank n = mainRank m := by
  cases h <;> rfl

theorem Goes.rank_lt {m n : Main} (h : Goes c m n) : mainRank n < mainRank m := by
  cases h <;> simp only [mainRank] <;> omega

theorem sent_length_le (c : BatchDriver.Config P T N) (w : Worker P) : (c.sent w).length ≤ 1 := by
  unfold BatchDriver.Config.sent
  split
  · cases c.transform _ <;> simp
  · simp

theorem Driven.rank_lt {s t : BatchDriver.State P T N} (h : Driven c s t) : rank c t < rank c s := by
  cases h with
  | search pool hp =>
      have := Produces.rank_lt (run_search_produces hp)
      simp only [rank]
      omega
  | works i pool hp =>
      have hlt := Moves.rank_lt (search_work_moves hp)
      have hle := sent_length_le c (s.pool.workers i)
      have hsum := sum_update_balance (fun _ xs => xs.length) s.feeding i
        (s.feeding i ++ c.sent (s.pool.workers i)) (a := (c.sent (s.pool.workers i)).length)
        (b := 0) (by simp)
      simp only [rank]
      omega
  | feeds i x xs hf =>
      have hsum := sum_update_balance (fun _ xs => xs.length) s.feeding i xs (a := 0) (b := 1)
        (by simp [hf])
      simp only [rank, List.length_append, List.length_singleton]
      omega
  | takes x q next hq hn =>
      simp only [rank, hq, List.length_cons, hn.rank_eq]
      omega
  | goes next hn =>
      have := hn.rank_lt
      simp only [rank]
      omega

/-- A driver in which nothing moves has no worker left, and `main` is past its loops or
waits in vain. -/
theorem stuck_cases {s : BatchDriver.State P T N} (hs : (BatchDriver.system c).Reachable s)
    (h : (BatchDriver.system c).Stuck s) :
    Ended s ∧ (Past s.main ∨ Waiting s.main ∧ s.preprocessed_q = []) := by
  refine ⟨fun j => ⟨?_, ?_⟩, ?_⟩
  · refine stuck_ended (show 1 ≤ 1000 by omega) (pool_reachable hs) (fun i => ?_) ?_ j
    · exact Option.map_eq_none_iff.mp (h (.work i))
    · exact Option.map_eq_none_iff.mp (h .search_thread)
  · have hfeed : BatchDriver.feed j s = none := h (.feed j)
    unfold BatchDriver.feed at hfeed
    split at hfeed
    · assumption
    · cases hfeed
  · have hmain : BatchDriver.main c s = none := h .main
    have hget : ∀ next, BatchDriver.get s next = none → s.preprocessed_q = [] := by
      intro next hnext
      unfold BatchDriver.get at hnext
      split at hnext
      · assumption
      · cases hnext
    cases hm : s.main with
    | loop todo n => cases todo <;> simp [BatchDriver.main, hm] at hmain
    | collect todo missing n =>
        cases missing with
        | zero => simp [BatchDriver.main, hm] at hmain
        | succ missing =>
            simp only [BatchDriver.main, hm] at hmain
            exact .inr ⟨trivial, hget _ hmain⟩
    | flush left =>
        cases left with
        | zero => simp [BatchDriver.main, hm] at hmain
        | succ left =>
            simp only [BatchDriver.main, hm] at hmain
            exact .inr ⟨trivial, hget _ hmain⟩
    | joining | finished => exact .inl trivial

/-- Where no process is left and the queue is empty, every tensor has been taken. -/
theorem Balanced.gets_eq {s : BatchDriver.State P T N} (hb : Balanced c s) (he : Ended s)
    (hq : s.preprocessed_q = []) : s.gets = s.puts := by
  have hcons := hb.conserved
  have hfed : ∑ j, (s.feeding j).length = 0 := by simp [fun j => (he j).2]
  rw [hq, hfed] at hcons
  exact hcons

theorem Balanced.not_starved {s : BatchDriver.State P T N} (hb : Balanced c s)
    (hputs : Ended s → s.puts = c.paths.length) : ¬ Starved s := by
  rintro ⟨he, hw, hq⟩
  have hlt := hb.counted.lt_of_waiting hw
  rw [hb.gets_eq he hq, hputs he] at hlt
  exact lt_irrefl _ hlt

theorem consumes_of_delivered
    (h : c.paths = [] ∨ (∃ i, c.instantiates i = true) ∧ ∀ p ∈ c.paths, c.Delivers p) :
    Consumes c := by
  -- when the last process ends, as many tensors have been put as there are paths
  have hputs : ∀ s, (BatchDriver.system c).Reachable s → Ended s → s.puts = c.paths.length := by
    intro s hs he
    rcases h with hnil | ⟨⟨i, hi⟩, hall⟩
    · have hle := puts_le hs he
      simpa [hnil] using hle
    · exact puts_of_served hs he hi hall
  have hfed : ∀ s, (BatchDriver.system c).Reachable s → ¬ Starved s := fun s hs =>
    (reachable_balanced hs).not_starved (hputs s hs)
  refine ⟨hfed, fun s hs hstuck => ?_, fun s hs hp he => ?_⟩
  · obtain ⟨he, hp | ⟨hw, hq⟩⟩ := stuck_cases hs hstuck
    · exact hp
    · exact absurd ⟨he, hw, hq⟩ (hfed s hs)
  · rw [hputs s hs he]
    exact (reachable_balanced hs).counted.eq_of_past hp

/-- Every run of a driver that lacks a tensor can be continued until it starves. -/
theorem exists_starved (hne : c.paths ≠ [])
    (h : (∀ i, c.instantiates i = false) ∨ ∃ p ∈ c.paths, ¬ c.Delivers p) :
    ∃ s, (BatchDriver.system c).Reachable s ∧ Starved s := by
  obtain ⟨s, hs, hstuck⟩ := System.exists_stuck (rank c)
    (fun a s t ht => (step_driven ht).rank_lt) (M := BatchDriver.system c) .start
  obtain ⟨he, hp | ⟨hw, hq⟩⟩ := stuck_cases hs hstuck
  · -- past the loops it would have made more gets than there are tensors
    exfalso
    have hb := reachable_balanced hs
    have hlt := puts_lt hs he hne h
    have hcons := hb.conserved
    rw [hb.counted.eq_of_past hp] at hcons
    omega
  · exact ⟨s, hs, he, hw, hq⟩

/-- The driver takes exactly the tensors the chain puts if and only if there is nothing to
do, or some worker comes up and every path passes the whole chain. -/
theorem consumes_iff (c : BatchDriver.Config P T N) :
    Consumes c ↔
      c.paths = [] ∨ (∃ i, c.instantiates i = true) ∧ ∀ p ∈ c.paths, c.Delivers p := by
  refine ⟨fun hc => ?_, consumes_of_delivered⟩
  by_contra hno
  rw [not_or] at hno
  obtain ⟨hne, hno⟩ := hno
  have h : (∀ i, c.instantiates i = false) ∨ ∃ p ∈ c.paths, ¬ c.Delivers p := by
    by_cases hup : ∃ i, c.instantiates i = true
    · refine .inr ?_
      by_contra hall
      exact hno ⟨hup, fun p hp => by_contra fun hd => hall ⟨p, hp, hd⟩⟩
    · exact .inl fun i => Bool.eq_false_of_not_eq_true fun hi => hup ⟨i, hi⟩
  obtain ⟨s, hs, hstarved⟩ := exists_starved hne h
  exact hc.fed s hs hstarved

/-- One worker, two pictures, and a reading filter that rejects the second. -/
def rejectedPicture : BatchDriver.Config ℕ ℕ 1 where
  front := [⟨fun p => some (p = 0), fun _ => 0⟩]
  transform p := some p
  paths := [0, 1]
  batch_size := 1
  batch_size_pos := Nat.one_pos
  instantiates _ := true
  elapsed_cpu _ := 0

def rejectedPictureRun : List (BatchDriver.Action 1) :=
  .replicate 5 .search_thread ++ .replicate 23 (.work (Fin.last 0)) ++ [.feed (Fin.last 0)] ++
    .replicate 4 .main

theorem rejectedPicture_runs : ((BatchDriver.system rejectedPicture).exec rejectedPictureRun
    (BatchDriver.system rejectedPicture).start).isSome = true := by decide +kernel

/-- The worker has left and `main` waits for the tensor of the second batch. -/
theorem rejectedPicture_not_consumed : ¬ Consumes rejectedPicture := by
  intro h
  apply h.fed _ (System.reachable_last rejectedPictureRun rejectedPicture_runs)
  refine ⟨fun i => ?_, ?_, ?_⟩
  · rw [Subsingleton.elim i 0]
    exact ⟨.inl rfl, rfl⟩
  · trivial
  · rfl

end SmartDisk.BatchBalance
