import Mathlib.Algebra.BigOperators.Fin
import Mathlib.Algebra.BigOperators.Group.List.Basic
import Mathlib.Algebra.GroupWithZero.Nat
import Mathlib.Tactic.Ring

/-!
# Lists in chunks

A loop over `range(0, n, k)` that looks at the rows `x` to `x + k` sees each of the `n`
rows once, also when the last chunk is short. The rows stand one after another in a list,
each `s` elements long.
-/
namespace SmartDisk.Chunks

variable {α β γ : Type}

/-- `xs[i:j]` -/
def slice (i j : ℕ) (xs : List α) : List α := (xs.drop i).take (j - i)

/-- `range(0, n, k)`, for a `k` that is not 0. -/
def starts (n k : ℕ) : List ℕ := List.range' 0 ((n + k - 1) / k) k

theorem length_slice (i j : ℕ) (xs : List α) :
    (slice i j xs).length = min j xs.length - i := by
  unfold slice
  rw [List.length_take, List.length_drop]
  omega

theorem slice_all {j : ℕ} {xs : List α} (h : xs.length ≤ j) : slice 0 j xs = xs := by
  unfold slice
  rw [List.drop_zero, Nat.sub_zero]
  exact List.take_of_length_le h

@[simp] theorem slice_self (i : ℕ) (xs : List α) : slice i i xs = [] := by
  unfold slice
  rw [Nat.sub_self, List.take_zero]

/-- Slices that touch are one slice. -/
theorem slice_append {i j l : ℕ} (hij : i ≤ j) (hjl : j ≤ l) (xs : List α) :
    slice i j xs ++ slice j l xs = slice i l xs := by
  have hsecond : xs.drop j = (xs.drop i).drop (j - i) := by
    rw [List.drop_drop, Nat.add_sub_cancel' hij]
  have hwhole : l - i = (j - i) + (l - j) := by omega
  unfold slice
  rw [hsecond, hwhole, List.take_add]

theorem slice_zipWith (f : α → β → γ) (i j : ℕ) (xs : List α) (ys : List β) :
    slice i j (List.zipWith f xs ys) = List.zipWith f (slice i j xs) (slice i j ys) := by
  unfold slice
  rw [List.drop_zipWith, List.take_zipWith]

/-- `m` chunks, one after another. -/
theorem flatMap_slices (s k a m : ℕ) (xs : List α) :
    (List.range' a m k).flatMap (fun x => slice (x * s) ((x + k) * s) xs) =
      slice (a * s) ((a + m * k) * s) xs := by
  induction m generalizing a with
  | zero =>
    rw [Nat.zero_mul, Nat.add_zero, slice_self]
    rfl
  | succ m ih =>
    have hfirst : a * s ≤ (a + k) * s := Nat.mul_le_mul_right s (Nat.le_add_right a k)
    have hrest : (a + k) * s ≤ (a + k + m * k) * s :=
      Nat.mul_le_mul_right s (Nat.le_add_right _ _)
    have hend : a + (m + 1) * k = a + k + m * k := by ring
    rw [List.range'_succ, List.flatMap_cons, ih, slice_append hfirst hrest, hend]

/-- The last chunk reaches the end. -/
theorem le_chunks {k : ℕ} (hk : 0 < k) (n : ℕ) : n ≤ (n + k - 1) / k * k := by
  have hdiv := Nat.div_add_mod (n + k - 1) k
  have hmod := Nat.mod_lt (n + k - 1) hk
  rw [Nat.mul_comm] at hdiv
  omega

/-- No row is left out, and none is there twice. -/
theorem flatMap_starts {k : ℕ} (hk : 0 < k) {n s : ℕ} {xs : List α} (h : xs.length = n * s) :
    (starts n k).flatMap (fun x => slice (x * s) ((x + k) * s) xs) = xs := by
  unfold starts
  rw [flatMap_slices, Nat.zero_mul, Nat.zero_add]
  apply slice_all
  rw [h]
  exact Nat.mul_le_mul_right s (le_chunks hk n)

/-- Sums of chunks add up to the whole sum. -/
theorem sum_starts [AddMonoid γ] {k : ℕ} (hk : 0 < k) {n s : ℕ} {xs : List γ}
    (h : xs.length = n * s) :
    ((starts n k).map fun x => (slice (x * s) ((x + k) * s) xs).sum).sum = xs.sum := by
  calc ((starts n k).map fun x => (slice (x * s) ((x + k) * s) xs).sum).sum
      = ((starts n k).flatMap fun x => slice (x * s) ((x + k) * s) xs).sum := by
        rw [List.flatMap_def, List.sum_flatten, List.map_map]
        rfl
    _ = xs.sum := by rw [flatMap_starts hk h]

theorem starts_eq_nil_iff {k : ℕ} (hk : 0 < k) (n : ℕ) : starts n k = [] ↔ n = 0 := by
  unfold starts
  rw [List.range'_eq_nil_iff, Nat.div_eq_zero_iff]
  omega

/-! ### Rows of a list -/

variable {n s : ℕ}

theorem place_lt (i : Fin n) (p : Fin s) : (i : ℕ) * s + p < n * s := by
  calc (i : ℕ) * s + p < i * s + s := Nat.add_lt_add_left p.isLt _
    _ = (i + 1) * s := (Nat.succ_mul _ _).symm
    _ ≤ n * s := Nat.mul_le_mul_right s i.isLt

/-- Where element `p` of row `i` stands. -/
def place (i : Fin n) (p : Fin s) : Fin (n * s) := ⟨i * s + p, place_lt i p⟩

theorem place_eq (i : Fin n) (p : Fin s) : finProdFinEquiv (i, p) = place i p := by
  apply Fin.ext
  change (p : ℕ) + s * i = i * s + p
  ring

theorem sum_place [AddCommMonoid γ] (f : Fin (n * s) → γ) :
    ∑ q, f q = ∑ i, ∑ p, f (place i p) := by
  rw [← finProdFinEquiv.sum_comp, Fintype.sum_prod_type]
  simp only [place_eq]

theorem sum_get [AddCommMonoid γ] {m : ℕ} {xs : List γ} (h : m = xs.length) :
    xs.sum = ∑ q : Fin m, xs.get (q.cast h) := by
  subst h
  exact (Fin.sum_univ_getElem xs).symm

end SmartDisk.Chunks
