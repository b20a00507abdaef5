import Mathlib.Algebra.BigOperators.Group.List.Basic
import Mathlib.Algebra.Order.Ring.Int

/-!
# Streams that arrive in pieces

A stream arrives in pieces of any length, and a read may also find that nothing arrives in
time. What has been read by then is lost. Only the bursts matter, the elements between two
timeouts: where their pieces end does not.
-/
namespace SmartDisk.Segments

variable {α : Type*}

/-- A piece, or nothing in time. -/
abbrev Arrivals (α : Type*) := List (Option (List α))

inductive Short where
  | timeout
  | closed
  deriving DecidableEq, Repr

/-- Read `n` elements. -/
def read : ℕ → Arrivals α → Except Short (List α) × Arrivals α
  | 0, s => (.ok [], s)
  | _ + 1, [] => (.error .closed, [])
  | _ + 1, none :: s => (.error .timeout, s)
  | n + 1, some xs :: s =>
      if n + 1 < xs.length then (.ok (xs.take (n + 1)), some (xs.drop (n + 1)) :: s)
      else
        match read (n + 1 - xs.length) s with
        | (.ok ys, s) => (.ok (xs ++ ys), s)
        | (.error e, s) => (.error e, s)

/-! ### Bursts -/

/-- What arrives before the first timeout, and the later bursts. -/
structure Bursts (α : Type*) where
  current : List α
  later : List (List α)

namespace Bursts

def read (n : ℕ) (b : Bursts α) : Except Short (List α) × Bursts α :=
  if n ≤ b.current.length then (.ok (b.current.take n), ⟨b.current.drop n, b.later⟩)
  else
    match b.later with
    | [] => (.error .closed, ⟨[], []⟩)
    | next :: later => (.error .timeout, ⟨next, later⟩)

/-- The number of elements and of timeouts. -/
def size (b : Bursts α) : ℕ := b.current.length + (b.later.map fun xs => xs.length + 1).sum

end Bursts

def bursts : Arrivals α → Bursts α
  | [] => ⟨[], []⟩
  | none :: s => ⟨[], (bursts s).current :: (bursts s).later⟩
  | some xs :: s => ⟨xs ++ (bursts s).current, (bursts s).later⟩

/-! ### Reads -/

theorem Bursts.read_of_le {n : ℕ} {b : Bursts α} (h : n ≤ b.current.length) :
    b.read n = (.ok (b.current.take n), ⟨b.current.drop n, b.later⟩) := if_pos h

theorem Bursts.read_of_lt {n : ℕ} {b : Bursts α} (h : b.current.length < n) :
    b.read n = match b.later with
      | [] => (.error .closed, ⟨[], []⟩)
      | next :: later => (.error .timeout, ⟨next, later⟩) := if_neg (Nat.not_le.mpr h)

/-- A piece that is not too long comes in front of what is read after it. -/
theorem Bursts.read_append (n : ℕ) (xs : List α) (b : Bursts α) (h : xs.length ≤ n) :
    (⟨xs ++ b.current, b.later⟩ : Bursts α).read n =
      match b.read (n - xs.length) with
      | (.ok ys, b) => (.ok (xs ++ ys), b)
      | (.error e, b) => (.error e, b) := by
  by_cases hn : n - xs.length ≤ b.current.length
  · rw [read_of_le hn, read_of_le (by rw [List.length_append]; omega)]
    dsimp only
    rw [List.take_append, List.drop_append, List.take_of_length_le h, List.drop_of_length_le h,
      List.nil_append]
  · rw [Nat.not_le] at hn
    rw [read_of_lt hn, read_of_lt (by rw [List.length_append]; omega)]
    cases b.later <;> rfl

/-- Where the pieces of a burst end makes no difference. -/
theorem read_bursts (n : ℕ) (s : Arrivals α) :
    (bursts s).read n = ((read n s).1, bursts (read n s).2) := by
  induction s generalizing n with
  | nil => cases n <;> rfl
  | cons piece s ih =>
    cases n with
    | zero => exact Bursts.read_of_le (Nat.zero_le _)
    | succ n =>
      cases piece with
      | none => rfl
      | some xs =>
        unfold read
        split
        · rename_i hlong
          have hle : n + 1 ≤ (bursts (some xs :: s)).current.length := by
            change _ ≤ (xs ++ _).length
            rw [List.length_append]
            omega
          rw [Bursts.read_of_le hle]
          change (Except.ok ((xs ++ _).take (n + 1)), (⟨(xs ++ _).drop (n + 1), _⟩ : Bursts α)) = _
          rw [List.take_append_of_le_length (Nat.le_of_lt hlong),
            List.drop_append_of_le_length (Nat.le_of_lt hlong)]
          rfl
        · rename_i hshort
          have happend := Bursts.read_append (n + 1) xs (bursts s) (Nat.not_lt.mp hshort)
          rw [ih] at happend
          refine happend.trans ?_
          cases read (n + 1 - xs.length) s with
          | mk result s' => cases result <;> rfl

theorem Bursts.size_read {n : ℕ} {b : Bursts α} {ys : List α} (h : (b.read n).1 = .ok ys) :
    ys.length = n ∧ (b.read n).2.size + n = b.size := by
  by_cases hn : n ≤ b.current.length
  · rw [read_of_le hn] at h ⊢
    cases h
    refine ⟨List.length_take_of_le hn, ?_⟩
    change (b.current.drop n).length + (b.later.map fun xs => xs.length + 1).sum + n =
      b.current.length + (b.later.map fun xs => xs.length + 1).sum
    rw [List.length_drop]
    omega
  · rw [read_of_lt (Nat.not_le.mp hn)] at h
    cases hlater : b.later <;> · rw [hlater] at h; cases h

theorem Bursts.size_timeout {n : ℕ} {b : Bursts α} (h : (b.read n).1 = .error .timeout) :
    (b.read n).2.size < b.size := by
  by_cases hn : n ≤ b.current.length
  · rw [read_of_le hn] at h
    cases h
  · rw [read_of_lt (Nat.not_le.mp hn)] at h ⊢
    cases hlater : b.later with
    | nil =>
      rw [hlater] at h
      cases h
    | cons next later =>
      change next.length + (later.map fun xs => xs.length + 1).sum <
        b.current.length + (b.later.map fun xs => xs.length + 1).sum
      rw [hlater, List.map_cons, List.sum_cons]
      omega

theorem Bursts.size_read_le (n : ℕ) (b : Bursts α) : (b.read n).2.size ≤ b.size := by
  cases h : (b.read n).1 with
  | ok ys => exact Nat.le_of_add_right_le (Nat.le_of_eq (size_read h).2)
  | error e =>
    cases e with
    | timeout => exact Nat.le_of_lt (size_timeout h)
    | closed =>
      by_cases hn : n ≤ b.current.length
      · rw [read_of_le hn] at h
        cases h
      · rw [read_of_lt (Nat.not_le.mp hn)] at h ⊢
        cases hlater : b.later with
        | nil => exact Nat.zero_le _
        | cons next later =>
          rw [hlater] at h
          cases h

/-! ### Programs that read -/

/-- A program that changes a state and may fail. -/
def Program (S E X : Type) := S → Except E X × S

section
variable {S T E X Y : Type}

instance : Monad (Program S E) where
  pure x := fun s => (.ok x, s)
  bind m f := fun s =>
    match m s with
    | (.ok x, s) => f x s
    | (.error e, s) => (.error e, s)

def Program.fail (e : E) : Program S E X := fun s => (.error e, s)

def Program.of_option (e : E) : Option X → Program S E X
  | some x => pure x
  | none => .fail e

theorem bind_ok {m : Program S E X} {f : X → Program S E Y} {s t : S} {x : X}
    (h : m s = (.ok x, t)) : (m >>= f) s = f x t := by
  change (match m s with | (.ok x, s) => f x s | (.error e, s) => (.error e, s)) = _
  rw [h]

theorem bind_error {m : Program S E X} {f : X → Program S E Y} {s t : S} {e : E}
    (h : m s = (.error e, t)) : (m >>= f) s = (.error e, t) := by
  change (match m s with | (.ok x, s) => f x s | (.error e, s) => (.error e, s)) = _
  rw [h]

/-- `m` does on a state what `m'` does on the state that stands for it. -/
def Simulates (abs : S → T) (m : Program S E X) (m' : Program T E X) : Prop :=
  ∀ s, m' (abs s) = ((m s).1, abs (m s).2)

variable {abs : S → T}

theorem Simulates.pure (x : X) :
    Simulates abs (Pure.pure x : Program S E X) (Pure.pure x) := fun _ => rfl

theorem Simulates.fail (e : E) :
    Simulates abs (Program.fail e : Program S E X) (Program.fail e) := fun _ => rfl

theorem Simulates.of_option (e : E) (x : Option X) :
    Simulates abs (Program.of_option e x : Program S E X) (Program.of_option e x) := by
  cases x <;> exact fun _ => rfl

theorem Simulates.bind {m : Program S E X} {m' : Program T E X}
    {f : X → Program S E Y} {f' : X → Program T E Y} (hm : Simulates abs m m')
    (hf : ∀ x, Simulates abs (f x) (f' x)) : Simulates abs (m >>= f) (m' >>= f') := by
  intro s
  have h := hm s
  cases hs : m s with
  | mk result t =>
    rw [hs] at h
    cases result with
    | ok x =>
      rw [bind_ok h, bind_ok hs]
      exact hf x t
    | error e => rw [bind_error h, bind_error hs]

/-- `m` never makes the state larger. -/
def Shrinks (size : S → ℕ) (m : Program S E X) : Prop := ∀ s, size (m s).2 ≤ size s

variable {size : S → ℕ}

theorem Shrinks.pure (x : X) : Shrinks size (Pure.pure x : Program S E X) := fun _ => Nat.le_refl _

theorem Shrinks.of_option (e : E) (x : Option X) :
    Shrinks size (Program.of_option e x : Program S E X) := by
  cases x <;> exact fun _ => Nat.le_refl _

theorem Shrinks.bind {m : Program S E X} {f : X → Program S E Y} (hm : Shrinks size m)
    (hf : ∀ x, Shrinks size (f x)) : Shrinks size (m >>= f) := by
  intro s
  have h := hm s
  cases hs : m s with
  | mk result t =>
    rw [hs] at h
    cases result with
    | ok x =>
      rw [bind_ok hs]
      exact Nat.le_trans (hf x t) h
    | error e =>
      rw [bind_error hs]
      exact h

end

end SmartDisk.Segments
