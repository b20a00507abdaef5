import SmartDisk.SearchPool

/-!
# What one step of the pool can do

Each move of a worker and of the producer is named once, with its guard and the
exact next state. Every invariant is proved by cases on these moves and no later
proof unfolds the step functions.

The balances are the quantities a step only passes on: the paths not yet
evaluated, the `None`s not yet consumed and the elements whose `task_done` is
still missing.
-/
namespace SmartDisk.SearchSteps
open ActionSystem SearchPool
variable {P : Type} {N : ℕ} {c : Config P N}

inductive Moves (c : Config P N) (i : Fin N) (s : State P N) : State P N → Prop
  | ready : (s.workers i).pc = .instantiate → c.instantiates i = true →
      Moves c i s (s.setWorker i { s.workers i with pc := .get })
  | dies : (s.workers i).pc = .instantiate → c.instantiates i = false →
      Moves c i s (s.setWorker i { s.workers i with pc := .died })
  | takes (src : P) (q : List (Option P)) : (s.workers i).pc = .get → s.q = some src :: q →
      Moves c i s ({ s with q := q }.setWorker i
        { s.workers i with pc := .filtering src c.filters })
  | sentinel (q : List (Option P)) : (s.workers i).pc = .get → s.q = none :: q →
      Moves c i s ({ s with q := q }.setWorker i
        { s.workers i with pc := .task_done false, nones := (s.workers i).nones + 1 })
  | accepts (src : P) : (s.workers i).pc = .filtering src [] →
      Moves c i s (s.setWorker i { s.workers i with
        pc := .task_done true, count := (s.workers i).count + 1,
        count_passed := (s.workers i).count_passed + 1,
        evaluated := (s.workers i).evaluated ++ [src] })
  | raises (src : P) (f : SearchPool.Filter P) (todo : List (SearchPool.Filter P)) :
      (s.workers i).pc = .filtering src (f :: todo) → f.call src = none →
      Moves c i s (s.setWorker i { s.workers i with
        pc := .task_done true, evaluated := (s.workers i).evaluated ++ [src],
        bytes_from_disk := (s.workers i).bytes_from_disk + f.bytes src })
  | rejects (src : P) (f : SearchPool.Filter P) (todo : List (SearchPool.Filter P)) :
      (s.workers i).pc = .filtering src (f :: todo) → f.call src = some false →
      Moves c i s (s.setWorker i { s.workers i with
        pc := .task_done true, count := (s.workers i).count + 1,
        evaluated := (s.workers i).evaluated ++ [src],
        bytes_from_disk := (s.workers i).bytes_from_disk + f.bytes src })
  | passes (src : P) (f : SearchPool.Filter P) (todo : List (SearchPool.Filter P)) :
      (s.workers i).pc = .filtering src (f :: todo) → f.call src = some true →
      Moves c i s (s.setWorker i { s.workers i with
        pc := .filtering src todo
        bytes_from_disk := (s.workers i).bytes_from_disk + f.bytes src })
  | again : (s.workers i).pc = .task_done true →
      Moves c i s ({ s with unfinished := s.unfinished - 1 }.setWorker i
        { s.workers i with pc := .get })
  | leaves : (s.workers i).pc = .task_done false →
      Moves c i s ({ s with unfinished := s.unfinished - 1 }.setWorker i
        { s.workers i with pc := .acquire })
  | acquires : (s.workers i).pc = .acquire → s.lock = none →
      Moves c i s ({ s with lock := some i }.setWorker i
        { s.workers i with pc := .flush flushed_fields })
  | reads (f : Field) (todo : List Field) : (s.workers i).pc = .flush (f :: todo) →
      Moves c i s (s.setWorker i { s.workers i with pc := .write f (s.stats f) todo })
  | releases : (s.workers i).pc = .flush [] →
      Moves c i s ({ s with lock := none }.setWorker i { s.workers i with pc := .exited })
  | writes (f : Field) (v : ℚ) (todo : List Field) : (s.workers i).pc = .write f v todo →
      Moves c i s ({ s with
        stats := Function.update s.stats f (v + c.contribution i (s.workers i) f)
        }.setWorker i { s.workers i with pc := .flush todo })

theorem search_work_moves {i : Fin N} {s t : State P N} (h : search_work c i s = some t) :
    Moves c i s t := by
  cases hpc : (s.workers i).pc with
  | instantiate =>
      simp only [search_work, hpc, Option.some.injEq] at h
      subst h
      by_cases hi : c.instantiates i = true
      · simpa [hi] using Moves.ready hpc hi
      · simpa [hi] using Moves.dies hpc (by simpa using hi)
  | get =>
      cases hq : s.q with
      | nil => simp [search_work, hpc, hq] at h
      | cons x q =>
          cases x <;> simp only [search_work, hpc, hq, Option.some.injEq] at h <;> subst h
          · exact .sentinel q hpc hq
          · exact .takes _ q hpc hq
  | filtering src todo =>
      cases todo with
      | nil =>
          simp only [search_work, hpc, Option.some.injEq] at h
          exact h ▸ .accepts src hpc
      | cons f todo =>
          simp only [search_work, hpc, Option.some.injEq, Worker.callFilter] at h
          subst h
          cases hc : f.call src with
          | none => exact .raises src f todo hpc hc
          | some b =>
              cases b
              · exact .rejects src f todo hpc hc
              · exact .passes src f todo hpc hc
  | task_done again =>
      simp only [search_work, hpc, Option.some.injEq] at h
      subst h
      cases again
      · exact .leaves hpc
      · exact .again hpc
  | acquire =>
      cases hl : s.lock with
      | none =>
          simp only [search_work, hpc, hl, Option.some.injEq] at h
          exact h ▸ .acquires hpc hl
      | some j => simp [search_work, hpc, hl] at h
  | flush todo =>
      cases todo with
      | nil =>
          simp only [search_work, hpc, Option.some.injEq] at h
          exact h ▸ .releases hpc
      | cons f todo =>
          simp only [search_work, hpc, Option.some.injEq] at h
          exact h ▸ .reads f todo hpc
  | write f v todo =>
      simp only [search_work, hpc, Option.some.injEq] at h
      exact h ▸ .writes f v todo hpc
  | exited => simp [search_work, hpc] at h
  | died => simp [search_work, hpc] at h

/-- The producer either puts one element or only moves on; the last move out of
`joining` is the return of `q.join()`. -/
inductive Produces (c : Config P N) (s : State P N) : State P N → Prop
  | path (p : P) (rest : List P) : s.phase = .putting (p :: rest) → s.q.length < c.qsize →
      Produces c s { s with
        q := s.q ++ [some p], unfinished := s.unfinished + 1, phase := .putting rest }
  | pushed : s.phase = .putting [] → Produces c s { s with phase := .sentinels N }
  | sentinel (n : ℕ) : s.phase = .sentinels (n + 1) → s.q.length < c.qsize →
      Produces c s { s with
        q := s.q ++ [none], unfinished := s.unfinished + 1, phase := .sentinels n }
  | joins : s.phase = .sentinels 0 → Produces c s { s with phase := .joining }
  | joined : s.phase = .joining → s.unfinished = 0 →
      Produces c s { s with phase := .reaping N }
  | reaps (n : ℕ) : s.phase = .reaping (n + 1) → Produces c s { s with phase := .reaping n }
  | returns : s.phase = .reaping 0 → Produces c s { s with phase := .returned }

theorem run_search_produces {s t : State P N} (h : run_search c s = some t) :
    Produces c s t := by
  cases hp : s.phase with
  | putting rest =>
      cases rest with
      | nil =>
          simp only [run_search, hp, Option.some.injEq] at h
          exact h ▸ .pushed hp
      | cons p rest =>
          simp only [run_search, hp, put, Option.ite_none_right_eq_some, Option.some.injEq] at h
          exact h.2 ▸ .path p rest hp h.1
  | sentinels n =>
      cases n with
      | zero =>
          simp only [run_search, hp, Option.some.injEq] at h
          exact h ▸ .joins hp
      | succ n =>
          simp only [run_search, hp, put, Option.ite_none_right_eq_some, Option.some.injEq] at h
          exact h.2 ▸ .sentinel n hp h.1
  | joining =>
      simp only [run_search, hp, Option.ite_none_right_eq_some, Option.some.injEq] at h
      exact h.2 ▸ .joined hp h.1
  | reaping n =>
      cases n with
      | zero =>
          simp only [run_search, hp, Option.some.injEq] at h
          exact h ▸ .returns hp
      | succ n =>
          simp only [run_search, hp, Option.some.injEq] at h
          exact h ▸ .reaps n hp
  | returned => simp [run_search, hp] at h

/-! ### Balances -/

/-- The path a worker has taken off the queue and not finished. -/
def current : Pc P → Multiset P
  | .filtering src _ => {src}
  | _ => 0

def items (w : Worker P) : Multiset P := ↑w.evaluated + current w.pc

/-- One while `task_done` is owed for the element last taken. -/
def holding : Pc P → ℕ
  | .filtering _ _ => 1
  | .task_done _ => 1
  | _ => 0

def rest : Phase P → List P
  | .putting ps => ps
  | _ => []

def nonesLeft (N : ℕ) : Phase P → ℕ
  | .putting _ => N
  | .sentinels n => n
  | _ => 0

theorem reduceOption_eq {α : Type*} (xs : List (Option α)) : xs.reduceOption = xs.filterMap id := rfl

/-- Paths that no worker has taken: queued ones and ones still to be put. -/
def backlog (s : State P N) : Multiset P := ↑s.q.reduceOption + ↑(rest s.phase)

/-- `None`s that no worker has taken. -/
def sentinels (s : State P N) : ℕ := s.q.countP Option.isNone + nonesLeft N s.phase

theorem Moves.items_balance {i : Fin N} {s t : State P N} (h : Moves c i s t) :
    ∑ j, items (t.workers j) + backlog t = ∑ j, items (s.workers j) + backlog s := by
  cases h <;> refine sum_update_balance (fun _ => items) s.workers i _ ?_ <;>
    simp_all [items, current, backlog, reduceOption_eq, ← Multiset.coe_add]
  -- the head of the queue becomes the worker's current path
  simp only [← Multiset.cons_coe, ← Multiset.singleton_add]
  abel

theorem Produces.items_balance {s t : State P N} (h : Produces c s t) :
    ∑ j, items (t.workers j) + backlog t = ∑ j, items (s.workers j) + backlog s := by
  cases h <;> simp_all [backlog, rest, reduceOption_eq]

theorem Moves.nones_balance {i : Fin N} {s t : State P N} (h : Moves c i s t) :
    ∑ j, (t.workers j).nones + sentinels t = ∑ j, (s.workers j).nones + sentinels s := by
  cases h <;> refine sum_update_balance (fun _ => Worker.nones) s.workers i _ ?_ <;>
    simp_all [sentinels]
  omega

theorem Produces.nones_balance {s t : State P N} (h : Produces c s t) :
    ∑ j, (t.workers j).nones + sentinels t = ∑ j, (s.workers j).nones + sentinels s := by
  cases h <;> simp_all [sentinels, nonesLeft]
  omega

/-- `task_done` is the only move that settles an element for good. -/
theorem Moves.holding_balance {i : Fin N} {s t : State P N} (h : Moves c i s t) :
    ∑ j, holding (t.workers j).pc + t.q.length = ∑ j, holding (s.workers j).pc + s.q.length ∧
        t.unfinished = s.unfinished ∨
      ∑ j, holding (t.workers j).pc + (t.q.length + 1) =
        ∑ j, holding (s.workers j).pc + s.q.length ∧ t.unfinished = s.unfinished - 1 := by
  cases h with
  | again hpc | leaves hpc =>
      refine .inr ⟨sum_update_balance (fun _ w => holding w.pc) s.workers i _ ?_, rfl⟩
      simp [holding, hpc, Nat.add_comm]
  | _ =>
      refine .inl ⟨sum_update_balance (fun _ w => holding w.pc) s.workers i _ ?_, rfl⟩
      simp_all [holding] <;> omega

/-- `unfinished_tasks` counts the queued elements and the ones being worked on. -/
def Settled (s : State P N) : Prop :=
  ∑ j, holding (s.workers j).pc + s.q.length = s.unfinished

theorem Moves.settled {i : Fin N} {s t : State P N} (hs : Settled s) (h : Moves c i s t) :
    Settled t := by
  unfold Settled at *
  have hb := h.holding_balance
  omega

theorem Produces.settled {s t : State P N} (hs : Settled s) (h : Produces c s t) :
    Settled t := by
  unfold Settled at *
  cases h <;> simp_all
  all_goals omega

/-- First in, first out: all paths go through the queue before the first `None`. -/
structure Ordered (s : State P N) : Prop where
  fifo : s.q.Pairwise fun x y => x = none → y = none
  last : none ∈ s.q → rest s.phase = []
  drained : ∀ j, 0 < (s.workers j).nones → backlog s = 0

theorem Moves.ordered {i : Fin N} {s t : State P N} (hs : Ordered s) (h : Moves c i s t) :
    Ordered t := by
  have keep : t.q = s.q → t.phase = s.phase →
      (∀ j, (t.workers j).nones = (s.workers j).nones) → Ordered t := by
    intro hq hp hn
    refine ⟨hq ▸ hs.fifo, by simpa only [hq, hp] using hs.last, ?_⟩
    intro j hj
    simpa only [backlog, hq, hp] using hs.drained j (hn j ▸ hj)
  have same : ∀ w : Worker P, w.nones = (s.workers i).nones →
      ∀ j, (Function.update s.workers i w j).nones = (s.workers j).nones := by
    intro w hw j
    by_cases hj : j = i
    · subst hj; simpa using hw
    · simp [hj]
  cases h with
  | takes src q hpc hq =>
      have hf := hq ▸ hs.fifo
      refine ⟨(List.pairwise_cons.mp hf).2, fun hn => hs.last ?_, ?_⟩
      · exact hq ▸ List.mem_cons_of_mem _ hn
      · -- a path is still queued, so no worker has read a `None` yet
        intro j hj
        have hn := same { s.workers i with pc := .filtering src c.filters } rfl j
        have hb := hs.drained j (lt_of_lt_of_eq hj hn)
        simp [backlog, hq, reduceOption_eq] at hb
  | sentinel q hpc hq =>
      have hf := List.pairwise_cons.mp (hq ▸ hs.fifo)
      have hall : ∀ x ∈ q, x = none := fun x hx => hf.1 x hx rfl
      have hrest : rest s.phase = [] := hs.last (by simp [hq])
      refine ⟨hf.2, fun _ => hrest, fun _ _ => ?_⟩
      have hq' : q.reduceOption = [] := by
        simp only [reduceOption_eq, List.filterMap_eq_nil_iff]
        exact hall
      simp [backlog, hrest, hq']
  | _ => exact keep rfl rfl (same _ rfl)

theorem Produces.ordered {s t : State P N} (hs : Ordered s) (h : Produces c s t) :
    Ordered t := by
  cases h with
  | path p ps hp hl =>
      have hno : none ∉ s.q := fun hn => by simpa [rest, hp] using hs.last hn
      have hone : ∀ j, ¬ 0 < (s.workers j).nones := fun j hj => by
        simpa [backlog, rest, hp] using hs.drained j hj
      refine ⟨?_, fun hn => absurd hn (by simp [hno]), fun j hj => absurd hj (hone j)⟩
      refine List.pairwise_append.mpr ⟨hs.fifo, List.pairwise_singleton _ _, ?_⟩
      rintro x hx _ _ rfl
      exact absurd hx hno
  | sentinel n hp hl =>
      refine ⟨?_, fun _ => rfl, ?_⟩
      · refine List.pairwise_append.mpr ⟨hs.fifo, List.pairwise_singleton _ _, ?_⟩
        intro _ _ y hy _
        simpa using hy
      · intro j hj
        simpa [backlog, rest, hp, reduceOption_eq] using hs.drained j hj
  | pushed hp | joins hp | joined hp | reaps n hp | returns hp =>
      have hr : rest s.phase = [] := by simp [rest, hp]
      refine ⟨hs.fifo, fun _ => rfl, fun j hj => ?_⟩
      have hb := hs.drained j hj
      rw [backlog, hr] at hb
      exact hb

/-- An invariant of the pool is one case for each kind of step. -/
theorem preserves_of {I : State P N → Prop}
    (hwork : ∀ i s t, I s → Moves c i s t → I t) (hprod : ∀ s t, I s → Produces c s t → I t) :
    (system c).Preserves (fun _ _ => True) I := by
  intro a s t hs _ h
  cases a with
  | produce => exact hprod s t hs (run_search_produces h)
  | work i => exact hwork i s t hs (search_work_moves h)

end SmartDisk.SearchSteps
