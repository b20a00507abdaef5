import Mathlib.Data.Int.Notation
import Mathlib.Data.Nat.Notation
import Mathlib.Logic.Basic

/-!
# Tables of descriptors

A table has finitely many descriptors in use, and gives out the lowest free one.
A negative number is no descriptor.
-/
namespace SmartDisk.DescriptorTable
variable {α : Type}

/-- From `bound` on nothing is in use. -/
structure Table (α : Type) where
  entry : ℕ → Option α
  bound : ℕ
  free : ∀ i, bound ≤ i → entry i = none

namespace Table

def empty : Table α where
  entry _ := none
  bound := 0
  free _ _ := rfl

/-- The first free place from `i` on, looking at `fuel` places. -/
def firstFree (entry : ℕ → Option α) : ℕ → ℕ → ℕ
  | 0, i => i
  | fuel + 1, i => if (entry i).isNone then i else firstFree entry fuel (i + 1)

def lowest (t : Table α) : ℕ := firstFree t.entry t.bound 0

theorem firstFree_free (entry : ℕ → Option α) (fuel i : ℕ) (h : entry (i + fuel) = none) :
    entry (firstFree entry fuel i) = none := by
  induction fuel generalizing i with
  | zero => exact h
  | succ fuel ih =>
      unfold firstFree
      split
      · rename_i hfree
        exact Option.isNone_iff_eq_none.mp hfree
      · apply ih
        rw [Nat.add_right_comm]
        exact h

theorem entry_lowest (t : Table α) : t.entry t.lowest = none := by
  apply firstFree_free
  apply t.free
  omega

def set (t : Table α) (i : ℕ) (a : α) : Table α where
  entry := fun j => if j = i then some a else t.entry j
  bound := max t.bound (i + 1)
  free := by
    intro j hj
    have hne : j ≠ i := by omega
    rw [if_neg hne]
    apply t.free
    omega

def erase (t : Table α) (i : ℕ) : Table α where
  entry := fun j => if j = i then none else t.entry j
  bound := t.bound
  free := by
    intro j hj
    split
    · rfl
    · exact t.free j hj

/-- Descriptor `fd`, as the caller gives it. -/
def lookup (t : Table α) (fd : ℤ) : Option α := if fd < 0 then none else t.entry fd.toNat

@[simp] theorem lookup_ofNat (t : Table α) (i : ℕ) : t.lookup i = t.entry i := by
  unfold lookup
  rw [if_neg (by omega)]
  rfl

theorem lookup_of_neg (t : Table α) {fd : ℤ} (h : fd < 0) : t.lookup fd = none := if_pos h

theorem nonneg_of_lookup {t : Table α} {fd : ℤ} {a : α} (h : t.lookup fd = some a) :
    0 ≤ fd := by
  apply Int.not_lt.mp
  intro hneg
  rw [t.lookup_of_neg hneg] at h
  cases h

@[simp] theorem entry_set_self (t : Table α) (i : ℕ) (a : α) :
    (t.set i a).entry i = some a := if_pos rfl

theorem entry_set_ne (t : Table α) {i j : ℕ} (a : α) (h : j ≠ i) :
    (t.set i a).entry j = t.entry j := if_neg h

end Table
end SmartDisk.DescriptorTable
