import SmartDisk.ActionSystem
import SmartDisk.EventRuns
import Mathlib.Data.Multiset.Basic
import Mathlib.Data.Multiset.AddSub
import Mathlib.Algebra.Order.BigOperators.Group.List
import Mathlib.Tactic.Abel

/-!
# First-in-first-out service by identical units

The closed form keeps the sorted list of the times at which the units become free
and gives each job, in order of arrival, to the unit that is free first. The
driver starts processes in a simulator, the `n`th when the clock shows its
arrival, and lets events be processed in between.
-/
namespace SmartDisk.FifoStation
open DiscreteEvents

structure Job (τ : Type) [Zero τ] [LE τ] where
  arrival : τ
  service : Delay τ

section
variable {τ : Type} [AddCommGroup τ] [LinearOrder τ]

/-- When a job is finished that finds the units free from the given times on. -/
def finishAt (free : List τ) (j : Job τ) : τ :=
  j.service.1 + max j.arrival (free.headD j.arrival)

/-- The sorted times at which the units are free after the first `n` jobs. -/
def freeAfter (free : List τ) (job : ℕ → Job τ) : ℕ → List τ
  | 0 => free
  | n + 1 =>
      (freeAfter free job n).tail.orderedInsert (· ≤ ·) (finishAt (freeAfter free job n) (job n))

def finish (free : List τ) (job : ℕ → Job τ) (n : ℕ) : τ :=
  finishAt (freeAfter free job n) (job n)

variable {free : List τ} {job : ℕ → Job τ}

theorem freeAfter_sorted (h : free.Pairwise (· ≤ ·)) (n : ℕ) :
    (freeAfter free job n).Pairwise (· ≤ ·) := by
  induction n with
  | zero => exact h
  | succ n ih => exact List.Pairwise.orderedInsert _ _ ih.tail

theorem length_freeAfter (h : free ≠ []) (n : ℕ) :
    (freeAfter free job n).length = free.length := by
  induction n with
  | zero => rfl
  | succ n ih =>
      have hpos := List.length_pos_iff.mpr h
      rw [freeAfter, List.orderedInsert_length, List.length_tail, ih]
      omega

theorem coe_freeAfter_succ (n : ℕ) :
    (freeAfter free job (n + 1) : Multiset τ) =
      finish free job n ::ₘ ((freeAfter free job n).tail : Multiset τ) :=
  Multiset.coe_eq_coe.mpr (List.perm_orderedInsert _ _ _)

omit [AddCommGroup τ] in
/-- The first of a sorted list is whatever is a minimum of it. -/
theorem exists_cons_of_min {l : List τ} (hl : l.Pairwise (· ≤ ·)) {m : τ} (hm : m ∈ l)
    (hmin : ∀ x ∈ l, m ≤ x) : ∃ rest, l = m :: rest := by
  cases l with
  | nil => cases hm
  | cons a rest =>
      have ha : a ≤ m := by
        rcases List.mem_cons.mp hm with rfl | hm
        · exact le_rfl
        · exact (List.pairwise_cons.mp hl).1 m hm
      rw [le_antisymm ha (hmin a List.mem_cons_self)]
      exact ⟨rest, rfl⟩

/-- A unit that is free at `x` and is the first to be free serves the next job. -/
theorem freeAfter_serve (hs : free.Pairwise (· ≤ ·)) {n : ℕ} {x now : τ} {busy idle : Multiset τ}
    (hfree : (freeAfter free job n : Multiset τ) = busy + x ::ₘ idle)
    (hbusy : ∀ b ∈ busy, x ≤ b) (hidle : ∀ b ∈ idle, x ≤ b)
    (hnow : max (job n).arrival x = now) :
    finish free job n = (job n).service.1 + now ∧
      (freeAfter free job (n + 1) : Multiset τ) = finish free job n ::ₘ busy + idle := by
  have hmem : ∀ y, y ∈ freeAfter free job n ↔ y ∈ busy ∨ y = x ∨ y ∈ idle := by
    intro y
    rw [← Multiset.mem_coe, hfree, Multiset.mem_add, Multiset.mem_cons]
  obtain ⟨rest, hrest⟩ := exists_cons_of_min (freeAfter_sorted hs n) ((hmem x).mpr (by simp)) (by
    intro y hy
    rcases (hmem y).mp hy with hy | rfl | hy
    · exact hbusy y hy
    · exact le_rfl
    · exact hidle y hy)
  have htail : (rest : Multiset τ) = busy + idle := by
    rw [hrest, ← Multiset.cons_coe, Multiset.add_cons] at hfree
    exact (Multiset.cons_inj_right x).mp hfree
  refine ⟨?_, ?_⟩
  · rw [finish, finishAt, hrest, List.headD_cons, hnow]
  · rw [coe_freeAfter_succ, hrest, List.tail_cons, htail, Multiset.cons_add]

/-- With one unit the times are those of a running maximum. -/
theorem freeAfter_single {first : τ} (n : ℕ) :
    freeAfter [first] job (n + 1) = [finish [first] job n] := by
  have hlen : (freeAfter [first] job n).length = 1 := length_freeAfter (List.cons_ne_nil _ _) n
  obtain ⟨a, ha⟩ := List.length_eq_one_iff.mp hlen
  rw [freeAfter, ha, List.tail_cons, List.orderedInsert_nil, finish, ha]

/-- Jobs that one unit finds waiting at the same time are done one after the other. -/
theorem finish_burst [IsOrderedAddMonoid τ] {first t : τ} (hfirst : first ≤ t)
    (harrival : ∀ i, (job i).arrival = t) (n : ℕ) :
    finish [first] job n = t + ((List.range (n + 1)).map fun i => (job i).service.1).sum := by
  induction n with
  | zero =>
      rw [finish, freeAfter, finishAt, List.headD_cons, harrival, max_eq_left hfirst, add_comm]
      simp
  | succ n ih =>
      have hsum : 0 ≤ ((List.range (n + 1)).map fun i => (job i).service.1).sum := by
        apply List.sum_nonneg
        intro x hx
        obtain ⟨i, -, rfl⟩ := List.mem_map.mp hx
        exact (job i).service.2
      rw [finish, freeAfter_single, finishAt, List.headD_cons, harrival, ih,
        max_eq_right (le_add_of_nonneg_right hsum), List.range_succ (n := n + 1),
        List.map_append, List.sum_append, List.map_singleton, List.sum_singleton]
      abel

end

/-! ### The driver -/

section
variable {τ R σ O E : Type} [AddCommGroup τ] [LinearOrder τ] [DecidableEq R]

structure Clocked (τ R σ O E : Type) [AddCommGroup τ] [LinearOrder τ] where
  env : Env τ R σ O E
  started : ℕ

/-- `start` is `env.process(...)` of the next job, `advance` moves the clock where
`env.run(until=a)` leaves it, and `tick` is `env.step()`. -/
inductive Move (τ : Type) where
  | start
  | advance (a : τ)
  | tick

def move (arrival : ℕ → τ) (code : ℕ → Gen τ R σ O E Unit) :
    Move τ → Clocked τ R σ O E → Option (Clocked τ R σ O E)
  | .start, s =>
      if s.env.now = arrival s.started then
        some ⟨s.env.start (code s.started), s.started + 1⟩
      else none
  | .advance a, s =>
      if s.env.now ≤ a ∧ ∀ e ∈ s.env.queue.events, a ≤ e.time then
        some { s with env := { s.env with now := a } }
      else none
  | .tick, s =>
      match s.env.step with
      | some (.next env) => some { s with env := env }
      | _ => none

def driver (arrival : ℕ → τ) (code : ℕ → Gen τ R σ O E Unit) (env : Env τ R σ O E) :
    ActionSystem.System (Clocked τ R σ O E) (Move τ) where
  start := ⟨env, 0⟩
  step := move arrival code

end

end SmartDisk.FifoStation
