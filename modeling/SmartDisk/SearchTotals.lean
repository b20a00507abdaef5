import SmartDisk.SearchSteps
import Mathlib.Algebra.BigOperators.Ring.Finset
import Mathlib.Algebra.Order.BigOperators.Group.Finset

/-!
# Parallel search computes the sequential totals

Each worker's private counters are a function of what it has evaluated, the
shared dictionary is the sum of what the workers have already added, and the
lock makes each read-modify-write of it exclusive. With the balances of
`SearchSteps` these give the totals of one sequential worker, whatever the
interleaving and however the paths are split.
-/
namespace SmartDisk.SearchTotals
open ActionSystem SearchPool SearchSteps
variable {P : Type} {N : ℕ} {c : Config P N}

/-! ### The counters of one worker -/

/-- True from the moment a worker has read its `None`. -/
def leaving : Pc P → Bool
  | .task_done false | .acquire | .flush _ | .write _ _ _ | .exited => true
  | _ => false

def ranCleanly (c : Config P N) (p : P) : Bool := (chain c.filters p).1.isSome
def passedAll (c : Config P N) (p : P) : Bool := (chain c.filters p).1 = some true
def bytesOf (c : Config P N) (ps : List P) : ℚ := (ps.map fun p => (chain c.filters p).2).sum

/-- While a path is being filtered, what is left of the chain determines the
verdict and the bytes still to come. -/
def BytesSound (c : Config P N) (w : Worker P) : Prop :=
  match w.pc with
  | .filtering src todo => ∃ spent, w.bytes_from_disk = bytesOf c w.evaluated + spent ∧
      chain c.filters src = ((chain todo src).1, spent + (chain todo src).2)
  | _ => w.bytes_from_disk = bytesOf c w.evaluated

structure Sound (c : Config P N) (w : Worker P) : Prop where
  count : w.count = w.evaluated.countP (ranCleanly c)
  passed : w.count_passed = w.evaluated.countP (passedAll c)
  bytes : BytesSound c w
  nones : w.nones = if leaving w.pc then 1 else 0

theorem bytesOf_append (ps : List P) (p : P) :
    bytesOf c (ps ++ [p]) = bytesOf c ps + (chain c.filters p).2 := by
  simp [bytesOf]

/-- A worker that is done with a path counts it by the chain's verdict. -/
theorem Sound.finish {w : Worker P} {src : P} {todo : List (SearchPool.Filter P)} (hs : Sound c w)
    (hpc : w.pc = .filtering src todo) (verdict : Option Bool) (b : ℚ)
    (hv : chain todo src = (verdict, b)) :
    Sound c { w with
      pc := .task_done true, evaluated := w.evaluated ++ [src]
      count := w.count + (if verdict.isSome then 1 else 0)
      count_passed := w.count_passed + (if verdict = some true then 1 else 0)
      bytes_from_disk := w.bytes_from_disk + b } := by
  obtain ⟨hcount, hpassed, hbytes, hnones⟩ := hs
  simp only [BytesSound, hpc, leaving] at hbytes hnones
  obtain ⟨spent, hb, hchain⟩ := hbytes
  rw [hv] at hchain
  refine ⟨?_, ?_, ?_, by simpa [leaving] using hnones⟩
  · simp [hcount, List.countP_append, List.countP_cons, ranCleanly, hchain]
  · simp [hpassed, List.countP_append, List.countP_cons, passedAll, hchain]
  · simp [BytesSound, bytesOf_append, hchain, hb, add_assoc]

theorem Moves.sound {i : Fin N} {s t : State P N} (h : Moves c i s t)
    (hs : Sound c (s.workers i)) : Sound c (t.workers i) := by
  cases h with
  | takes src q hpc hq =>
      obtain ⟨hcount, hpassed, hbytes, hnones⟩ := hs
      simp only [BytesSound, hpc, leaving] at hbytes hnones
      refine ⟨by simpa using hcount, by simpa using hpassed, ?_, by simpa [leaving] using hnones⟩
      simp only [State.setWorker_workers, Function.update_self, BytesSound]
      exact ⟨0, by simpa using hbytes, by simp⟩
  | accepts src hpc => simpa using hs.finish hpc (some true) 0 rfl
  | raises src f todo hpc hf =>
      simpa using hs.finish hpc none (f.bytes src) (by simp [chain, hf])
  | rejects src f todo hpc hf =>
      simpa using hs.finish hpc (some false) (f.bytes src) (by simp [chain, hf])
  | passes src f todo hpc hf =>
      obtain ⟨hcount, hpassed, hbytes, hnones⟩ := hs
      simp only [BytesSound, hpc, leaving] at hbytes hnones
      obtain ⟨spent, hb, hchain⟩ := hbytes
      refine ⟨by simpa using hcount, by simpa using hpassed, ?_, by simpa [leaving] using hnones⟩
      simp only [State.setWorker_workers, Function.update_self, BytesSound]
      refine ⟨spent + f.bytes src, by rw [hb, add_assoc], ?_⟩
      simpa [chain, hf, add_assoc] using hchain
  | _ =>
      obtain ⟨hcount, hpassed, hbytes, hnones⟩ := hs
      refine ⟨?_, ?_, ?_, ?_⟩ <;> simp_all [BytesSound, leaving]

theorem Moves.workers_ne {i j : Fin N} {s t : State P N} (h : Moves c i s t) (hj : j ≠ i) :
    t.workers j = s.workers j := by
  cases h <;> simp [hj]

theorem Produces.workers {s t : State P N} (h : Produces c s t) : t.workers = s.workers := by
  cases h <;> rfl

/-! ### The shared dictionary -/

/-- The fields a worker has not added to yet. -/
def owed : Pc P → List Field
  | .flush todo => todo
  | .write f _ todo => f :: todo
  | .exited => []
  | _ => flushed_fields

/-- What `context.stats[f]` holds on behalf of worker `i`. -/
def share (c : Config P N) (f : Field) (i : Fin N) (w : Worker P) : ℚ :=
  if f ∈ owed w.pc then 0 else c.contribution i w f

def critical : Pc P → Bool
  | .flush _ | .write _ _ _ => true
  | _ => false

/-- The critical section is entered by the lock holder only, so the value read
for a `+=` is still the stored one when it is written back. -/
structure Locked (c : Config P N) (s : State P N) : Prop where
  holder : ∀ j, critical (s.workers j).pc = true → s.lock = some j
  current : ∀ j f v todo, (s.workers j).pc = .write f v todo → v = s.stats f
  nodup : ∀ j, (owed (s.workers j).pc).Nodup
  shares : ∀ f, ∑ j, share c f j (s.workers j) = s.stats f

theorem mem_flushed_fields (f : Field) : f ∈ flushed_fields := by
  cases f <;> decide

theorem flushed_fields_nodup : flushed_fields.Nodup := by decide

theorem share_pc (f : Field) (i : Fin N) (w : Worker P) {pc : Pc P}
    (h : f ∈ owed pc ↔ f ∈ owed w.pc) : share c f i { w with pc := pc } = share c f i w := by
  refine if_congr h rfl ?_
  cases f <;> rfl

/-- A move that leaves the dictionary alone keeps every share. -/
theorem share_balance {i : Fin N} {s : State P N} {w : Worker P} (f : Field)
    (h : share c f i w = share c f i (s.workers i)) :
    ∑ j, share c f j (Function.update s.workers i w j) = ∑ j, share c f j (s.workers j) := by
  simpa using sum_update_balance (share c f) s.workers i w (a := 0) (b := 0) (by simp [h])

/-- Moves of a worker that has not added anything yet. -/
theorem Locked.outside {i : Fin N} {s t : State P N} (hs : Locked c s) (w : Worker P)
    (hlock : ∀ j, critical (s.workers j).pc = true → t.lock = some j)
    (hi : critical w.pc = true → t.lock = some i) (hstats : t.stats = s.stats)
    (hworkers : t.workers = Function.update s.workers i w)
    (hwrite : ∀ f v todo, w.pc ≠ .write f v todo)
    (howed : owed w.pc = flushed_fields) (howed' : owed (s.workers i).pc = flushed_fields) :
    Locked c t := by
  have hne : ∀ j, j ≠ i → t.workers j = s.workers j := fun j hj => by simp [hworkers, hj]
  have hw : t.workers i = w := by simp [hworkers]
  refine ⟨?_, ?_, ?_, ?_⟩
  · intro j hj
    by_cases hji : j = i
    · subst hji; exact hi (hw ▸ hj)
    · exact hlock j (hne j hji ▸ hj)
  · intro j f v todo hj
    by_cases hji : j = i
    · subst hji; exact absurd (hw ▸ hj) (hwrite f v todo)
    · rw [hstats]; exact hs.current j f v todo (hne j hji ▸ hj)
  · intro j
    by_cases hji : j = i
    · subst hji; rw [hw, howed]; exact flushed_fields_nodup
    · rw [hne j hji]; exact hs.nodup j
  · intro f
    rw [hstats, hworkers, ← hs.shares f]
    exact share_balance f (by simp [share, howed, howed', mem_flushed_fields])

/-- Moves of the lock holder `i` that keep the counters of its worker. -/
theorem Locked.inside {i : Fin N} {s t : State P N} (hs : Locked c s) (pc : Pc P)
    (hi : critical (s.workers i).pc = true)
    (hworkers : t.workers = Function.update s.workers i { s.workers i with pc := pc })
    (hlock : t.lock = s.lock ∨ t.lock = none ∧ critical pc = false)
    (hstats : ∀ f v todo, pc = .write f v todo → v = t.stats f)
    (hnodup : (owed pc).Nodup)
    (hshares : ∀ f, ∑ j, share c f j (t.workers j) = t.stats f) : Locked c t := by
  have hlocki := hs.holder i hi
  have hne : ∀ j, j ≠ i → t.workers j = s.workers j := fun j hj => by simp [hworkers, hj]
  have alone : ∀ j, j ≠ i → critical (t.workers j).pc = false := by
    intro j hj
    by_contra hcrit
    rw [Bool.not_eq_false, hne j hj] at hcrit
    have := hs.holder j hcrit
    rw [hlocki, Option.some.injEq] at this
    exact hj this.symm
  refine ⟨?_, ?_, ?_, hshares⟩
  · intro j hj
    by_cases hji : j = i
    · subst hji
      rcases hlock with hlock | ⟨_, hcrit⟩
      · exact hlock.trans hlocki
      · simp [hworkers, hcrit] at hj
    · rw [alone j hji] at hj; cases hj
  · intro j f v todo hj
    by_cases hji : j = i
    · subst hji
      exact hstats f v todo (by simpa [hworkers] using hj)
    · have hcrit := alone j hji
      simp [hj, critical] at hcrit
  · intro j
    by_cases hji : j = i
    · subst hji; simpa [hworkers] using hnodup
    · rw [hne j hji]; exact hs.nodup j

theorem Moves.locked {i : Fin N} {s t : State P N} (hs : Locked c s) (h : Moves c i s t) :
    Locked c t := by
  cases h with
  | acquires hpc hl =>
      refine hs.outside _ ?_ (fun _ => rfl) rfl rfl (by simp) rfl (by simp [owed, hpc])
      intro j hj
      rw [hs.holder j hj] at hl
      cases hl
  | reads f todo hpc =>
      refine hs.inside (i := i) (.write f (s.stats f) todo) (by simp [hpc, critical]) rfl
        (.inl rfl) ?_ ?_ ?_
      · rintro _ _ _ ⟨⟩; rfl
      · simpa [owed, hpc] using hs.nodup i
      · intro g
        exact (share_balance g (share_pc g i _ (by simp [owed, hpc]))).trans (hs.shares g)
  | releases hpc =>
      refine hs.inside (i := i) .exited (by simp [hpc, critical]) rfl (.inr ⟨rfl, rfl⟩) ?_ ?_ ?_
      · rintro _ _ _ ⟨⟩
      · exact List.nodup_nil
      · intro g
        exact (share_balance g (share_pc g i _ (by simp [owed, hpc]))).trans (hs.shares g)
  | writes f v todo hpc =>
      have hnd : (f :: todo).Nodup := by simpa [owed, hpc] using hs.nodup i
      have hv := hs.current i f v todo hpc
      refine hs.inside (i := i) (.flush todo) (by simp [hpc, critical]) rfl (.inl rfl) ?_ ?_ ?_
      · rintro _ _ _ ⟨⟩
      · exact (List.nodup_cons.mp hnd).2
      · intro g
        by_cases hg : g = f
        · -- the worker's share of `f` appears and the stored value grows by as much
          subst hg
          have hsum := sum_update_balance (share c g) s.workers i
            { s.workers i with pc := .flush todo } (a := c.contribution i (s.workers i) g) (b := 0)
            (by cases g <;> simp_all [share, owed, Config.contribution])
          rw [hs.shares g, ← hv, add_zero] at hsum
          simpa using hsum
        · refine (share_balance g (share_pc g i _ ?_)).trans ((hs.shares g).trans ?_)
          · simp [owed, hpc, hg]
          · simp [hg]
  | _ =>
      refine hs.outside _ hs.holder (by simp [critical]) rfl rfl (by simp) rfl ?_
      simp_all [owed]

/-! ### The run -/

/-- `q.join()` has returned. -/
def joined : Phase P → Prop
  | .reaping _ | .returned => True
  | _ => False

structure Invariant (c : Config P N) (s : State P N) : Prop where
  items : ∑ j, items (s.workers j) + backlog s = c.paths
  nones : ∑ j, (s.workers j).nones + sentinels s = N
  settled : Settled s
  ordered : Ordered s
  joined : joined s.phase → s.unfinished = 0
  sound : ∀ j, Sound c (s.workers j)
  locked : Locked c s

theorem start_invariant (c : Config P N) : Invariant c (system c).start where
  items := by simp [system, items, current, backlog, rest, reduceOption_eq]
  nones := by simp [system, sentinels, nonesLeft]
  settled := by simp [Settled, system, holding]
  ordered := ⟨by simp [system], by simp [system], by simp [system]⟩
  joined := by simp [system, joined]
  sound j := ⟨rfl, rfl, rfl, rfl⟩
  locked := ⟨by simp [system, critical], by simp [system], fun _ => flushed_fields_nodup,
    by simp [system, share, owed, mem_flushed_fields]⟩

theorem Moves.invariant {i : Fin N} {s t : State P N} (hs : Invariant c s)
    (h : Moves c i s t) : Invariant c t where
  items := h.items_balance.trans hs.items
  nones := h.nones_balance.trans hs.nones
  settled := h.settled hs.settled
  ordered := h.ordered hs.ordered
  joined := by
    have hj := hs.joined
    cases h <;> simp_all
  sound j := by
    by_cases hj : j = i
    · subst hj; exact Moves.sound h (hs.sound j)
    · rw [Moves.workers_ne h hj]; exact hs.sound j
  locked := Moves.locked hs.locked h

theorem Produces.invariant {s t : State P N} (hs : Invariant c s) (h : Produces c s t) :
    Invariant c t where
  items := h.items_balance.trans hs.items
  nones := h.nones_balance.trans hs.nones
  settled := h.settled hs.settled
  ordered := h.ordered hs.ordered
  joined := by
    have hj := hs.joined
    cases h <;> simp_all [joined]
  sound := by rw [Produces.workers h]; exact hs.sound
  locked := by
    obtain ⟨h₁, h₂, h₃, h₄⟩ := hs.locked
    cases h <;> exact ⟨h₁, h₂, h₃, h₄⟩

theorem reachable_invariant {s : State P N} (hs : (system c).Reachable s) : Invariant c s :=
  hs.invariant (start_invariant c)
    (preserves_of (fun _ _ _ => Moves.invariant) fun _ _ => Produces.invariant)

theorem sequential_eq (c : Config P N) (ps : List P) :
    sequential c.filters ps =
      ⟨ps.countP (ranCleanly c), ps.countP (passedAll c), bytesOf c ps⟩ := by
  induction ps with
  | nil => rfl
  | cons p ps ih =>
      simp only [sequential, ih, Totals.mk.injEq]
      refine ⟨?_, ?_, by simp [bytesOf]⟩ <;>
        rcases hr : (chain c.filters p).1 with _ | b <;>
        simp [List.countP_cons, ranCleanly, passedAll, hr, Nat.add_comm]

theorem Invariant.nones_le_one {s : State P N} (hs : Invariant c s) (j : Fin N) :
    (s.workers j).nones ≤ 1 := by
  rw [(hs.sound j).nones]
  split_ifs <;> omega

theorem current_eq_zero {pc : Pc P} (h : holding pc = 0) : current pc = 0 := by
  cases pc <;> simp_all [holding, current]

/-- Nothing queued, nothing being worked on and nothing left to put. -/
theorem Invariant.joined_empty {s : State P N} (hs : Invariant c s) (hj : SearchTotals.joined s.phase) :
    backlog s = 0 ∧ sentinels s = 0 ∧ ∀ j, current (s.workers j).pc = 0 := by
  have hsettled := hs.settled
  simp only [Settled, hs.joined hj, Nat.add_eq_zero_iff, Finset.sum_eq_zero_iff,
    Finset.mem_univ, true_implies, List.length_eq_zero_iff] at hsettled
  obtain ⟨hhold, hq⟩ := hsettled
  refine ⟨?_, ?_, fun j => current_eq_zero (hhold j)⟩
  · cases hp : s.phase <;> simp_all [backlog, rest, SearchTotals.joined, reduceOption_eq]
  · cases hp : s.phase <;> simp_all [sentinels, nonesLeft, SearchTotals.joined]

/-- Once every worker has left, no path is queued or still to be put. -/
theorem Invariant.exited_backlog {s : State P N} (hs : Invariant c s) (hN : 1 ≤ N)
    (he : ∀ j, (s.workers j).pc = .exited) : backlog s = 0 := by
  refine hs.ordered.drained ⟨0, hN⟩ ?_
  rw [(hs.sound _).nones, he]
  exact Nat.one_pos

theorem Invariant.evaluated {s : State P N} (hs : Invariant c s) (hb : backlog s = 0)
    (hc : ∀ j, current (s.workers j).pc = 0) :
    ∑ j, ((s.workers j).evaluated : Multiset P) = (c.paths : Multiset P) := by
  rw [← hs.items, hb, add_zero]
  exact Finset.sum_congr rfl fun j _ => by rw [SearchSteps.items, hc, add_zero]

/-- Totals that only depend on the multiset of paths do not see how it is split. -/
theorem sum_split {M : Type*} [AddCommMonoid M] (φ : Multiset P →+ M) (evaluated : Fin N → List P)
    {ps : List P} (h : ∑ j, (evaluated j : Multiset P) = (ps : Multiset P)) :
    ∑ j, φ (evaluated j) = φ ps := by
  rw [← map_sum, h]

theorem all_eq_one {f : Fin N → ℕ} (hle : ∀ j, f j ≤ 1) (hsum : ∑ j, f j = N) (j : Fin N) :
    f j = 1 := by
  have hone : ∑ j, f j = ∑ _j : Fin N, 1 := by simp [hsum]
  exact (Finset.sum_eq_sum_iff_of_le fun i _ => hle i).mp hone j (Finset.mem_univ j)

/-- Once all workers have left, the statistics are the sequential totals. -/
theorem Invariant.totals {s : State P N} (hi : Invariant c s) (hN : 1 ≤ N)
    (he : ∀ j, (s.workers j).pc = .exited) :
    s.stats .num_workers = N ∧
    s.stats .num_items = (c.paths.countP fun p => (chain c.filters p).1.isSome) ∧
    s.stats .passed_items = (c.paths.countP fun p => (chain c.filters p).1 = some true) ∧
    s.stats .bytes_from_disk = (c.paths.map fun p => (chain c.filters p).2).sum ∧
    s.stats .cpu_time = ∑ j, c.elapsed_cpu j := by
  have hsplit := hi.evaluated (hi.exited_backlog hN he) fun j => by rw [he]; rfl
  have hstat : ∀ f, s.stats f = ∑ j, c.contribution j (s.workers j) f := by
    intro f
    rw [← hi.locked.shares f]
    exact Finset.sum_congr rfl fun j _ => by simp [share, owed, he]
  have hcount : ∀ p : P → Bool, ∑ j, (s.workers j).evaluated.countP p = c.paths.countP p := by
    intro p
    simpa using sum_split (Multiset.countPAddMonoidHom (p · = true)) _ hsplit
  have hbytes : ∑ j, bytesOf c (s.workers j).evaluated = bytesOf c c.paths := by
    simpa [bytesOf] using sum_split (Multiset.sumAddMonoidHom.comp
      (Multiset.mapAddMonoidHom fun p => (chain c.filters p).2)) _ hsplit
  have hworkers : s.stats .num_workers = N := by simp [hstat, Config.contribution]
  have hitems : s.stats .num_items = c.paths.countP (ranCleanly c) := by
    rw [hstat, ← hcount]
    simp only [Config.contribution, (hi.sound _).count, Nat.cast_sum]
  have hpassed : s.stats .passed_items = c.paths.countP (passedAll c) := by
    rw [hstat, ← hcount]
    simp only [Config.contribution, (hi.sound _).passed, Nat.cast_sum]
  have htotal : s.stats .bytes_from_disk = bytesOf c c.paths := by
    rw [hstat, ← hbytes]
    refine Finset.sum_congr rfl fun j _ => ?_
    have hb := (hi.sound j).bytes
    simpa only [BytesSound, he, Config.contribution] using hb
  exact ⟨hworkers, hitems, hpassed, htotal, hstat .cpu_time⟩

/-- Whatever the interleaving, the pool does the work of one sequential worker.
After `q.join()` each path has been evaluated by exactly one worker and each
worker has read exactly one `None`; once all workers have left, the shared
statistics are the sequential totals. -/
theorem parallel_eq_sequential (c : Config P N) (hN : 1 ≤ N) {s : State P N}
    (hs : (system c).Reachable s) :
    (joined s.phase →
      ∑ j, ((s.workers j).evaluated : Multiset P) = (c.paths : Multiset P) ∧
      ∀ j, (s.workers j).nones = 1) ∧
    ((∀ j, (s.workers j).pc = .exited) →
      s.stats .num_workers = N ∧
      s.stats .num_items = (c.paths.countP fun p => (chain c.filters p).1.isSome) ∧
      s.stats .passed_items = (c.paths.countP fun p => (chain c.filters p).1 = some true) ∧
      s.stats .bytes_from_disk = (c.paths.map fun p => (chain c.filters p).2).sum ∧
      s.stats .num_items = (sequential c.filters c.paths).num_items ∧
      s.stats .passed_items = (sequential c.filters c.paths).passed_items ∧
      s.stats .bytes_from_disk = (sequential c.filters c.paths).bytes_from_disk) := by
  have hi := reachable_invariant hs
  constructor
  · intro hj
    obtain ⟨hb, hn, hc⟩ := hi.joined_empty hj
    refine ⟨hi.evaluated hb hc, fun j => ?_⟩
    have hsum := hi.nones
    rw [hn, add_zero] at hsum
    exact all_eq_one hi.nones_le_one hsum j
  · intro he
    obtain ⟨hworkers, hitems, hpassed, htotal, -⟩ := hi.totals hN he
    rw [sequential_eq]
    exact ⟨hworkers, hitems, hpassed, htotal, hitems, hpassed, htotal⟩

/-- Two workers and two paths; the filter accepts `0` and rejects `1`. -/
def twoPaths : Config ℕ 2 where
  filters := [⟨fun p => some (p = 0), fun _ => 10⟩]
  paths := [0, 1]
  qsize := 4
  instantiates _ := true
  elapsed_cpu _ := 0

def twoPathsRun : List (Action 2) :=
  .replicate 6 .produce ++ .replicate 5 (.work 0) ++ .replicate 4 (.work 1) ++
  .replicate 2 (.work 0) ++ .replicate 2 (.work 1) ++ [.produce] ++
  .replicate 12 (.work 0) ++ .replicate 12 (.work 1)

theorem twoPaths_runs : ((system twoPaths).exec twoPathsRun (system twoPaths).start).isSome = true := by
  decide +kernel

theorem parallel_eq_sequential_twoPaths : ∃ s, (system twoPaths).Reachable s ∧
    (∀ j, (s.workers j).nones = 1) ∧ s.stats .num_workers = 2 ∧ s.stats .num_items = 2 ∧
    s.stats .passed_items = 1 ∧ s.stats .bytes_from_disk = 20 := by
  have hs := System.reachable_last twoPathsRun twoPaths_runs
  have h := parallel_eq_sequential twoPaths (by decide) hs
  obtain ⟨h₁, h₂, h₃, h₄, -⟩ := h.2 (Fin.forall_fin_two.mpr ⟨rfl, rfl⟩)
  refine ⟨_, hs, (h.1 True.intro).2, h₁, h₂, h₃, h₄.trans ?_⟩
  decide +kernel

end SmartDisk.SearchTotals
