import Mathlib.Algebra.BigOperators.Group.List.Lemmas
import Mathlib.Algebra.GroupWithZero.Nat
import Mathlib.Data.Int.Notation
import Mathlib.Data.List.Range
import Mathlib.Data.Nat.Notation

/-!
# Counts by cell

A histogram says for every cell how many elements of a list fall into it. Sums over a
slice of the cells are counts again, of the elements whose cell is in the slice; along
several axes one axis is summed at a time. Slices are given by integers, a negative one
counts from the end.
-/
namespace SmartDisk.Histogram

variable {α β ι : Type}

inductive Slice where
  | upto (n : ℤ)
  | onward (n : ℤ)

/-- `xs[:n]` and `xs[n:]`. -/
def Slice.get : Slice → List β → List β
  | .upto n, xs => if 0 ≤ n then xs.take n.toNat else xs.take (xs.length + n).toNat
  | .onward n, xs => if 0 ≤ n then xs.drop n.toNat else xs.drop (xs.length + n).toNat

namespace Slice

@[simp] theorem get_map (s : Slice) (f : ι → β) (xs : List ι) :
    s.get (xs.map f) = (s.get xs).map f := by
  cases s with
  | upto n => by_cases hn : 0 ≤ n <;> simp [get, hn]
  | onward n => by_cases hn : 0 ≤ n <;> simp [get, hn]

theorem get_sublist (s : Slice) (xs : List β) : (s.get xs).Sublist xs := by
  cases s with
  | upto n => by_cases hn : 0 ≤ n <;> simp [get, hn, List.take_sublist]
  | onward n => by_cases hn : 0 ≤ n <;> simp [get, hn, List.drop_sublist]

theorem nodup_get_range (s : Slice) (m : ℕ) : (s.get (List.range m)).Nodup :=
  List.nodup_range.sublist (s.get_sublist _)

theorem mem_upto_range {n : ℤ} (hn : 0 ≤ n) (m i : ℕ) :
    i ∈ (upto n).get (List.range m) ↔ i < m ∧ (i : ℤ) < n := by
  rw [get, if_pos hn, List.take_range, List.mem_range]
  omega

theorem mem_onward_range {n : ℤ} (hn : 0 ≤ n) (m i : ℕ) :
    i ∈ (onward n).get (List.range m) ↔ i < m ∧ n ≤ (i : ℤ) := by
  rw [get, if_pos hn, List.range_eq_range', List.drop_range', List.mem_range'_1]
  omega

end Slice

/-- Each element is counted in the one cell that it falls into. -/
theorem sum_countP [DecidableEq ι] {cells : List ι} (hc : cells.Nodup) (f : α → ι) (P : α → Prop)
    [DecidablePred P] (l : List α) :
    (cells.map fun c => l.countP fun x => decide (f x = c ∧ P x)).sum =
      l.countP fun x => decide (f x ∈ cells ∧ P x) := by
  induction l with
  | nil => simp
  | cons x l ih =>
    have hx : (cells.map fun c => if f x = c ∧ P x then 1 else 0).sum =
        if f x ∈ cells ∧ P x then 1 else 0 := by
      clear ih
      induction cells with
      | nil => simp
      | cons c cells ih =>
        have hd : c ∉ cells := (List.nodup_cons.mp hc).1
        rw [List.map_cons, List.sum_cons, ih (List.nodup_cons.mp hc).2]
        by_cases hfc : f x = c
        · subst hfc
          simp [hd]
        · simp [hfc]
    simp only [List.countP_cons, decide_eq_true_eq, List.sum_map_add, ih, hx]

/-- The sum over the block `h[a, b, c]` of a table with three axes. -/
def sum3 (a b c : Slice) (h : List (List (List ℕ))) : ℕ :=
  ((a.get h).map fun p => ((b.get p).map fun r => (c.get r).sum).sum).sum

/-- How many elements fall in each cell of a grid with `m` cells along each axis. -/
def counts3 (m : ℕ) (f g h : α → ℕ) (l : List α) : List (List (List ℕ)) :=
  (List.range m).map fun i => (List.range m).map fun j => (List.range m).map fun k =>
    l.countP fun x => decide (f x = i ∧ g x = j ∧ h x = k)

theorem sum3_counts3 (a b c : Slice) (m : ℕ) (f g h : α → ℕ) (l : List α) :
    sum3 a b c (counts3 m f g h l) =
      l.countP fun x => decide (f x ∈ a.get (List.range m) ∧ g x ∈ b.get (List.range m) ∧
        h x ∈ c.get (List.range m)) := by
  have third : ∀ i j, ((c.get (List.range m)).map fun k =>
      l.countP fun x => decide (f x = i ∧ g x = j ∧ h x = k)).sum =
        l.countP fun x => decide (g x = j ∧ f x = i ∧ h x ∈ c.get (List.range m)) := by
    intro i j
    simpa only [and_assoc, and_comm, and_left_comm] using
      sum_countP (c.nodup_get_range m) h (fun x => f x = i ∧ g x = j) l
  have second : ∀ i, ((b.get (List.range m)).map fun j =>
      l.countP fun x => decide (g x = j ∧ f x = i ∧ h x ∈ c.get (List.range m))).sum =
        l.countP fun x => decide (f x = i ∧ g x ∈ b.get (List.range m) ∧
          h x ∈ c.get (List.range m)) := by
    intro i
    simpa only [and_comm, and_left_comm] using
      sum_countP (b.nodup_get_range m) g (fun x => f x = i ∧ h x ∈ c.get (List.range m)) l
  unfold sum3 counts3
  simp only [Slice.get_map, List.map_map, Function.comp_def, third, second]
  exact sum_countP (a.nodup_get_range m) f _ l

end SmartDisk.Histogram
