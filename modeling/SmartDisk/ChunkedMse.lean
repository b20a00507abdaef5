import Mathlib.Algebra.BigOperators.Ring.Finset
import Mathlib.Algebra.Order.BigOperators.Group.List
import Mathlib.Algebra.Order.Field.Rat
import Mathlib.Algebra.Order.Ring.Abs
import Mathlib.Algebra.Order.Ring.Int
import SmartDisk.Chunks

/-!
# The difference of two images

`mse` of `script/video_search.py` and of `script/profile_video.py` adds up the squared
differences of two arrays over a few rows at a time. The two copies differ in the number
of rows. An array has a shape and its elements in row-major order, so that consecutive
rows are a piece of them. Floats are exact here, since what the loop adds up are integers.
-/
namespace SmartDisk.ChunkedMse
open Chunks

inductive Exn where
  | AssertionError (shapes : Option (List ℕ × List ℕ))
  | IndexError | ValueError | ZeroDivisionError
  deriving DecidableEq, Repr

/-! ### Arrays -/

/-- A type of elements of 8 bits, signed or not, and the integers they stand for. -/
class Dtype (α : Type) where
  value : α → ℤ
  value_mem : ∀ v, -128 ≤ value v ∧ value v ≤ 255

theorem uint8_mem (v : UInt8) : -128 ≤ (v.toNat : ℤ) ∧ (v.toNat : ℤ) ≤ 255 := by
  have hv := v.toNat_lt
  omega

theorem int8_mem (v : Int8) : -128 ≤ v.toInt ∧ v.toInt ≤ 255 := by
  have hlower := v.le_toInt
  have hupper := v.toInt_lt
  omega

instance : Dtype UInt8 := ⟨fun v => v.toNat, uint8_mem⟩
instance : Dtype Int8 := ⟨Int8.toInt, int8_mem⟩

structure NdArray (α : Type) where
  shape : List ℕ
  data : List α
  length_data : data.length = shape.prod

section
variable {α β : Type}

namespace NdArray

def ndim (self : NdArray α) : ℕ := self.shape.length

def size (self : NdArray α) : ℕ := self.shape.prod

def height (self : NdArray α) : ℕ := self.shape.headD 0

/-- The number of elements of a row. -/
def stride (self : NdArray α) : ℕ := self.shape.tail.prod

theorem size_pos (self : NdArray α) (h : self.size ≠ 0) : (0 : ℚ) < self.size := by
  exact_mod_cast Nat.pos_of_ne_zero h

theorem shape_eq (self : NdArray α) (h : 3 ≤ self.ndim) :
    self.shape = self.height :: self.shape.tail := by
  unfold height
  unfold ndim at h
  cases hs : self.shape with
  | nil =>
    rw [hs] at h
    cases h
  | cons n ns => rfl

theorem size_eq (self : NdArray α) (h : 3 ≤ self.ndim) :
    self.size = self.height * self.stride := by
  unfold size stride
  nth_rewrite 1 [self.shape_eq h]
  exact List.prod_cons

theorem length_rows (self : NdArray α) (h : 3 ≤ self.ndim) (i j : ℕ) :
    (slice (i * self.stride) (j * self.stride) self.data).length =
      ((min j self.height - i) :: self.shape.tail).prod := by
  have hdata : self.data.length = self.height * self.stride :=
    self.length_data.trans (self.size_eq h)
  calc (slice (i * self.stride) (j * self.stride) self.data).length
      = min (j * self.stride) (self.height * self.stride) - i * self.stride := by
        rw [length_slice, hdata]
    _ = (min j self.height - i) * self.stride := by
        rw [Nat.mul_min_mul_right, Nat.sub_mul]
    _ = ((min j self.height - i) :: self.shape.tail).prod := List.prod_cons.symm

/-- `self[i:j,:,:]` -/
def rows (self : NdArray α) (i j : ℕ) : Except Exn (NdArray α) :=
  if h : 3 ≤ self.ndim then
    .ok
      { shape := (min j self.height - i) :: self.shape.tail
        data := slice (i * self.stride) (j * self.stride) self.data
        length_data := self.length_rows h i j }
  else .error .IndexError

/-- The elements of `self.astype(np.float)`. -/
def astype_float [Dtype α] (self : NdArray α) : List ℚ :=
  self.data.map fun v => (Dtype.value v : ℚ)

end NdArray

/-- `range(0, n, step)` -/
def range (n step : ℕ) : Except Exn (List ℕ) :=
  if step = 0 then .error .ValueError else .ok (starts n step)

/-- Division by an integer. A numpy float divided by 0 is nan, which is `none` here; it is a
float of Python that raises. -/
def divide (x : ℚ) (numpy : Bool) (n : ℕ) : Except Exn (Option ℚ) :=
  if n ≠ 0 then .ok (some (x / n))
  else if numpy then .ok none
  else .error .ZeroDivisionError

/-! ### `mse` -/

section
variable [Dtype α] [Dtype β]

/-- `np.sum((rows1.astype(np.float) - rows2.astype(np.float))**2)` for rows of one shape. -/
def squared_error (rows1 : NdArray α) (rows2 : NdArray β) : ℚ :=
  ((List.zipWith (· - ·) rows1.astype_float rows2.astype_float).map (· ^ 2)).sum

/-- The loop of `mse`. -/
def add_errors (X_CHUNKSIZE : ℕ) (arr1 : NdArray α) (arr2 : NdArray β) :
    List ℕ → ℚ → Except Exn ℚ
  | [], sum_squared_error => .ok sum_squared_error
  | x :: xs, sum_squared_error => do
      let rows1 ← arr1.rows x (x + X_CHUNKSIZE)
      let rows2 ← arr2.rows x (x + X_CHUNKSIZE)
      add_errors X_CHUNKSIZE arr1 arr2 xs (sum_squared_error + squared_error rows1 rows2)

/-- `mse` with its chunk size. Anything that is not an array is `none`. -/
def mse (X_CHUNKSIZE : ℕ) (arr1 : Option (NdArray α)) (arr2 : Option (NdArray β)) :
    Except Exn (Option ℚ) :=
  match arr1, arr2 with
  | some arr1, some arr2 =>
      if arr1.shape = arr2.shape then
        match arr1.shape with
        | [] => .error .IndexError
        | height :: _ => do
            let xs ← range height X_CHUNKSIZE
            let sum_squared_error ← add_errors X_CHUNKSIZE arr1 arr2 xs 0
            divide sum_squared_error (!xs.isEmpty) arr1.size
      else .error (.AssertionError (some (arr1.shape, arr2.shape)))
  | _, _ => .error (.AssertionError none)

end

end

namespace video_search
variable {α β : Type} [Dtype α] [Dtype β]

def X_CHUNKSIZE : ℕ := 40

def mse : Option (NdArray α) → Option (NdArray β) → Except Exn (Option ℚ) :=
  ChunkedMse.mse X_CHUNKSIZE

end video_search

namespace profile_video
variable {α β : Type} [Dtype α] [Dtype β]

def X_CHUNKSIZE : ℕ := 4

def mse : Option (NdArray α) → Option (NdArray β) → Except Exn (Option ℚ) :=
  ChunkedMse.mse X_CHUNKSIZE

end profile_video

/-! ### The plain mean -/

section
variable {α β : Type} [Dtype α] [Dtype β]

/-- The squared differences of the elements, as integers. -/
def errors (arr1 : NdArray α) (arr2 : NdArray β) : List ℤ :=
  List.zipWith (fun v w => (Dtype.value v - Dtype.value w) ^ 2) arr1.data arr2.data

/-- The mean over all elements. -/
def mean_squared_error (arr1 : NdArray α) (arr2 : NdArray β) : ℚ :=
  (errors arr1 arr2).sum / arr1.size

variable {arr1 : NdArray α} {arr2 : NdArray β}

theorem length_errors (h : arr1.shape = arr2.shape) :
    (errors arr1 arr2).length = arr1.size := by
  unfold errors
  rw [List.length_zipWith, arr1.length_data, arr2.length_data, ← h, Nat.min_self]
  rfl

theorem squared_error_eq (rows1 : NdArray α) (rows2 : NdArray β) :
    squared_error rows1 rows2 = ((errors rows1 rows2).sum : ℚ) := by
  unfold squared_error errors NdArray.astype_float
  rw [List.zipWith_map, List.map_zipWith, Int.cast_list_sum, List.map_zipWith]
  simp only [Int.cast_pow, Int.cast_sub]

/-- What one round of the loop adds. -/
theorem rows_error (hshape : arr1.shape = arr2.shape) (h : 3 ≤ arr1.ndim) (i j : ℕ) :
    ∃ rows1 rows2, arr1.rows i j = .ok rows1 ∧ arr2.rows i j = .ok rows2 ∧
      squared_error rows1 rows2 =
        ((slice (i * arr1.stride) (j * arr1.stride) (errors arr1 arr2)).sum : ℚ) := by
  have h2 : 3 ≤ arr2.ndim := by
    unfold NdArray.ndim at h ⊢
    rwa [← hshape]
  have hstride : arr2.stride = arr1.stride := by
    unfold NdArray.stride
    rw [hshape]
  refine ⟨_, _, dif_pos h, dif_pos h2, ?_⟩
  rw [squared_error_eq]
  change (((List.zipWith _ (slice (i * arr1.stride) (j * arr1.stride) arr1.data)
    (slice (i * arr2.stride) (j * arr2.stride) arr2.data)).sum : ℤ) : ℚ) = _
  rw [hstride, ← slice_zipWith]
  rfl

/-- What the whole loop adds. -/
theorem add_errors_eq (hshape : arr1.shape = arr2.shape) (h : 3 ≤ arr1.ndim)
    (X_CHUNKSIZE : ℕ) (xs : List ℕ) (sum_squared_error : ℚ) :
    add_errors X_CHUNKSIZE arr1 arr2 xs sum_squared_error = .ok (sum_squared_error +
      ((xs.map fun x => (slice (x * arr1.stride) ((x + X_CHUNKSIZE) * arr1.stride)
        (errors arr1 arr2)).sum).sum : ℤ)) := by
  induction xs generalizing sum_squared_error with
  | nil =>
    rw [List.map_nil, List.sum_nil, Int.cast_zero, add_zero]
    rfl
  | cons x xs ih =>
    obtain ⟨rows1, rows2, hrows1, hrows2, herror⟩ :=
      rows_error hshape h x (x + X_CHUNKSIZE)
    rw [add_errors, hrows1, hrows2]
    change add_errors X_CHUNKSIZE arr1 arr2 xs (sum_squared_error + squared_error rows1 rows2) = _
    rw [ih, herror, List.map_cons, List.sum_cons, Int.cast_add, add_assoc]

/-- The chunks make no difference to the sum. -/
theorem add_errors_starts (hshape : arr1.shape = arr2.shape) (h : 3 ≤ arr1.ndim)
    {X_CHUNKSIZE : ℕ} (hchunk : 0 < X_CHUNKSIZE) :
    add_errors X_CHUNKSIZE arr1 arr2 (starts arr1.height X_CHUNKSIZE) 0 =
      .ok ((errors arr1 arr2).sum : ℚ) := by
  have hlength : (errors arr1 arr2).length = arr1.height * arr1.stride :=
    (length_errors hshape).trans (arr1.size_eq h)
  rw [add_errors_eq hshape h, sum_starts hchunk hlength, zero_add]

theorem mse_shapes (X_CHUNKSIZE : ℕ) (h : arr1.shape ≠ arr2.shape) :
    mse X_CHUNKSIZE (some arr1) (some arr2) =
      .error (.AssertionError (some (arr1.shape, arr2.shape))) :=
  if_neg h

/-- The loop and the division, for arrays that have a height. -/
theorem mse_loop (hshape : arr1.shape = arr2.shape) {height : ℕ} {dims : List ℕ}
    (hdims : arr1.shape = height :: dims) {X_CHUNKSIZE : ℕ} (hchunk : 0 < X_CHUNKSIZE) :
    mse X_CHUNKSIZE (some arr1) (some arr2) =
      add_errors X_CHUNKSIZE arr1 arr2 (starts height X_CHUNKSIZE) 0 >>= fun sum_squared_error =>
        divide sum_squared_error (decide (height ≠ 0)) arr1.size := by
  have hrange : range height X_CHUNKSIZE = .ok (starts height X_CHUNKSIZE) :=
    if_neg hchunk.ne'
  have hempty : (!(starts height X_CHUNKSIZE).isEmpty) = decide (height ≠ 0) := by
    rw [Bool.eq_iff_iff, Bool.not_eq_true', List.isEmpty_eq_false_iff, decide_eq_true_iff,
      Ne, starts_eq_nil_iff hchunk]
  unfold mse
  dsimp only
  rw [if_pos hshape, hdims]
  dsimp only
  rw [hrange, ← hempty]
  rfl

/-- Arrays of at least three dimensions. -/
theorem mse_eq (hshape : arr1.shape = arr2.shape) (h : 3 ≤ arr1.ndim)
    {X_CHUNKSIZE : ℕ} (hchunk : 0 < X_CHUNKSIZE) :
    mse X_CHUNKSIZE (some arr1) (some arr2) =
      divide ((errors arr1 arr2).sum : ℚ) (decide (arr1.height ≠ 0)) arr1.size := by
  rw [mse_loop hshape (arr1.shape_eq h) hchunk, add_errors_starts hshape h hchunk]
  rfl

/-- Fewer dimensions. The index fails in the first round, if there is one. -/
theorem mse_flat (hshape : arr1.shape = arr2.shape) (h : arr1.ndim < 3)
    {X_CHUNKSIZE : ℕ} (hchunk : 0 < X_CHUNKSIZE) :
    mse X_CHUNKSIZE (some arr1) (some arr2) =
      .error (if arr1.shape.head? = some 0 then .ZeroDivisionError else .IndexError) := by
  have hrows : ∀ i j, arr1.rows i j = .error .IndexError :=
    fun i j => dif_neg (Nat.not_le_of_lt h)
  cases hdims : arr1.shape with
  | nil =>
    unfold mse
    dsimp only
    rw [if_pos hshape, hdims]
    rfl
  | cons height dims =>
    rw [mse_loop hshape hdims hchunk, List.head?_cons]
    cases hxs : starts height X_CHUNKSIZE with
    | nil =>
      have hheight : height = 0 := (starts_eq_nil_iff hchunk height).mp hxs
      have hsize : arr1.size = 0 := by
        unfold NdArray.size
        rw [hdims, hheight, List.prod_cons, Nat.zero_mul]
      rw [if_pos (congrArg some hheight), add_errors, hsize, hheight]
      rfl
    | cons x xs =>
      have hheight : height ≠ 0 := fun hzero =>
        List.cons_ne_nil x xs (hxs.symm.trans ((starts_eq_nil_iff hchunk height).mpr hzero))
      rw [if_neg (mt Option.some_inj.mp hheight), add_errors, hrows]
      rfl

/-- The result does not depend on the chunk size, whatever it is called with. -/
theorem mse_chunk_irrel {X_CHUNKSIZE Y_CHUNKSIZE : ℕ} (hx : 0 < X_CHUNKSIZE)
    (hy : 0 < Y_CHUNKSIZE) (arr1 : Option (NdArray α)) (arr2 : Option (NdArray β)) :
    mse X_CHUNKSIZE arr1 arr2 = mse Y_CHUNKSIZE arr1 arr2 := by
  cases arr1 with
  | none => rfl
  | some arr1 =>
    cases arr2 with
    | none => rfl
    | some arr2 =>
      by_cases hshape : arr1.shape = arr2.shape
      · by_cases h : 3 ≤ arr1.ndim
        · rw [mse_eq hshape h hx, mse_eq hshape h hy]
        · have hflat : arr1.ndim < 3 := Nat.lt_of_not_le h
          rw [mse_flat hshape hflat hx, mse_flat hshape hflat hy]
      · rw [mse_shapes X_CHUNKSIZE hshape, mse_shapes Y_CHUNKSIZE hshape]

theorem mse_eq_mean (hshape : arr1.shape = arr2.shape) (h : 3 ≤ arr1.ndim)
    (hsize : arr1.size ≠ 0) {X_CHUNKSIZE : ℕ} (hchunk : 0 < X_CHUNKSIZE) :
    mse X_CHUNKSIZE (some arr1) (some arr2) = .ok (some (mean_squared_error arr1 arr2)) := by
  rw [mse_eq hshape h hchunk]
  exact if_pos hsize

end

/-- For every chunk size `mse` is the mean of the squared differences, and the two copies
of it agree on everything they can be called with. -/
theorem chunked_mse {α β : Type} [Dtype α] [Dtype β] :
    (∀ (X_CHUNKSIZE : ℕ) (arr1 : NdArray α) (arr2 : NdArray β),
      1 ≤ X_CHUNKSIZE → 3 ≤ arr1.ndim → arr1.shape = arr2.shape → arr1.size ≠ 0 →
      mse X_CHUNKSIZE (some arr1) (some arr2) = .ok (some (mean_squared_error arr1 arr2))) ∧
    ∀ (arr1 : Option (NdArray α)) (arr2 : Option (NdArray β)),
      video_search.mse arr1 arr2 = profile_video.mse arr1 arr2 := by
  constructor
  · intro X_CHUNKSIZE arr1 arr2 hchunk h hshape hsize
    exact mse_eq_mean hshape h hsize hchunk
  · intro arr1 arr2
    have hvideo : 0 < video_search.X_CHUNKSIZE := Nat.succ_pos 39
    have hprofile : 0 < profile_video.X_CHUNKSIZE := Nat.succ_pos 3
    exact mse_chunk_irrel hvideo hprofile arr1 arr2

/-- Five rows in chunks of two, with differences of both signs, and no rows at all. -/
theorem chunked_mse_five :
    mse 2 (some (⟨[5, 1, 1], [0, 10, 20, 30, 255], rfl⟩ : NdArray UInt8))
        (some (⟨[5, 1, 1], [255, 20, 10, 30, 0], rfl⟩ : NdArray UInt8)) = .ok (some 26050) ∧
      video_search.mse (some (⟨[0, 1, 1], [], rfl⟩ : NdArray UInt8))
          (some (⟨[0, 1, 1], [], rfl⟩ : NdArray UInt8)) =
        profile_video.mse (some (⟨[0, 1, 1], [], rfl⟩ : NdArray UInt8))
          (some (⟨[0, 1, 1], [], rfl⟩ : NdArray UInt8)) := by
  have hmean := chunked_mse.1 2 (⟨[5, 1, 1], [0, 10, 20, 30, 255], rfl⟩ : NdArray UInt8)
    (⟨[5, 1, 1], [255, 20, 10, 30, 0], rfl⟩ : NdArray UInt8) (by decide) (by decide) rfl
    (by decide)
  have hvalue : mean_squared_error (⟨[5, 1, 1], [0, 10, 20, 30, 255], rfl⟩ : NdArray UInt8)
      (⟨[5, 1, 1], [255, 20, 10, 30, 0], rfl⟩ : NdArray UInt8) = 26050 := by
    decide +kernel
  rw [hvalue] at hmean
  exact ⟨hmean, chunked_mse.2 _ _⟩

/-! ### Pixels -/

section
variable {α β : Type} {n w c : ℕ}

theorem NdArray.length_image (self : NdArray α) (h : self.shape = [n, w, c]) :
    n * (w * c) = self.data.length := by
  rw [self.length_data, h, List.prod_cons, List.prod_cons, List.prod_singleton]

/-- `self[i,j,k]` -/
def NdArray.item (self : NdArray α) (h : self.shape = [n, w, c])
    (i : Fin n) (j : Fin w) (k : Fin c) : α :=
  self.data.get ((place i (place j k)).cast (self.length_image h))

/-- Row `i` of the rows from `x` on is row `x + i` of the picture. -/
theorem rows_item (arr : NdArray α) (h : arr.shape = [n, w, c]) (x y : ℕ) :
    ∃ (rows : NdArray α) (hrows : rows.shape = [min y n - x, w, c]), arr.rows x y = .ok rows ∧
      ∀ (i : Fin (min y n - x)) (hi : x + i < n) (j : Fin w) (k : Fin c),
        rows.item hrows i j k = arr.item h ⟨x + i, hi⟩ j k := by
  have hdim : 3 ≤ arr.ndim := by
    unfold NdArray.ndim
    rw [h]
    exact Nat.le_refl 3
  have hheight : arr.height = n := by
    unfold NdArray.height
    rw [h, List.headD_cons]
  have hstride : arr.stride = w * c := by
    unfold NdArray.stride
    rw [h, List.tail_cons, List.prod_cons, List.prod_singleton]
  have hrows : (min y arr.height - x) :: arr.shape.tail = [min y n - x, w, c] := by
    rw [hheight, h, List.tail_cons]
  refine ⟨_, hrows, dif_pos hdim, ?_⟩
  intro i hi j k
  have hplace : x * (w * c) + (i * (w * c) + (j * c + k)) =
      (x + i) * (w * c) + (j * c + k) := by ring
  unfold NdArray.item place slice
  simp only [List.get_eq_getElem, Fin.val_cast, List.getElem_take, List.getElem_drop, hstride,
    hplace]

variable [Dtype α] [Dtype β] {arr1 : NdArray α} {arr2 : NdArray β}

/-- The sum over all rows, columns and colors. -/
theorem sum_errors (h1 : arr1.shape = [n, w, c]) (h2 : arr2.shape = [n, w, c]) :
    (errors arr1 arr2).sum = ∑ i, ∑ j, ∑ k,
      (Dtype.value (arr1.item h1 i j k) - Dtype.value (arr2.item h2 i j k)) ^ 2 := by
  have hlength : n * (w * c) = (errors arr1 arr2).length := by
    rw [length_errors (h1.trans h2.symm), arr1.length_image h1, arr1.length_data]
    rfl
  rw [sum_get hlength, sum_place]
  apply Fintype.sum_congr
  intro i
  rw [sum_place]
  unfold errors NdArray.item
  simp only [List.get_eq_getElem, List.getElem_zipWith]
  rfl

theorem mem_errors {e : ℤ} (he : e ∈ errors arr1 arr2) : 0 ≤ e ∧ e ≤ 383 ^ 2 := by
  unfold errors at he
  rw [← List.map_uncurry_zip_eq_zipWith] at he
  obtain ⟨⟨v, w⟩, -, rfl⟩ := List.mem_map.mp he
  have hv := Dtype.value_mem v
  have hw := Dtype.value_mem w
  have hlower : -383 ≤ Dtype.value v - Dtype.value w := by omega
  have hupper : Dtype.value v - Dtype.value w ≤ 383 := by omega
  exact ⟨sq_nonneg _, sq_le_sq' hlower hupper⟩

/-- Whatever is added up on the way, the squares of some of the elements, is an integer
that a float holds exactly, as long as there are at most 2^35 elements. -/
theorem sum_sublist_errors (hshape : arr1.shape = arr2.shape) {es : List ℤ}
    (hes : es.Sublist (errors arr1 arr2)) : 0 ≤ es.sum ∧ es.sum ≤ 383 ^ 2 * arr1.size := by
  have hlength : (es.length : ℤ) ≤ arr1.size := by
    rw [← length_errors hshape]
    exact_mod_cast hes.length_le
  constructor
  · exact List.sum_nonneg fun e he => (mem_errors (hes.subset he)).1
  · calc es.sum ≤ es.length • 383 ^ 2 :=
        List.sum_le_card_nsmul es _ fun e he => (mem_errors (hes.subset he)).2
      _ = 383 ^ 2 * es.length := by rw [nsmul_eq_mul, mul_comm]
      _ ≤ 383 ^ 2 * arr1.size := mul_le_mul_of_nonneg_left hlength (sq_nonneg 383)

end

/-! ### `DiffAndDetector` -/

namespace video_search
variable {α β : Type} [Dtype α] [Dtype β]

/-- `detect` is whether there is a `detect_filter`. -/
structure DiffAndDetector (α : Type) where
  diff_threshold : ℚ := 1000
  detect_filter : Option (NdArray α → Except Exn Bool) := none

/-- `diff >= diff_threshold`, which nan never is. -/
def reaches (diff : Option ℚ) (diff_threshold : ℚ) : Bool :=
  match diff with
  | some diff => decide (diff_threshold ≤ diff)
  | none => false

namespace DiffAndDetector

/-- The object detection, if it is on. -/
def detect (self : DiffAndDetector α) (array : NdArray α) : Except Exn Bool :=
  match self.detect_filter with
  | some detect_filter => detect_filter array
  | none => .ok true

/-- `__call__`, for an item with this array. -/
def call (self : DiffAndDetector α) (array : NdArray α) (reference : Option (NdArray β)) :
    Except Exn Bool := do
  let accept ← match reference with
    | none => pure true
    | some reference => do
        let diff ← video_search.mse (some array) (some reference)
        pure (reaches diff self.diff_threshold)
  if accept then self.detect array else .ok false

/-- The detector sees the pictures that differ enough from their reference. -/
theorem call_eq (self : DiffAndDetector α) {array : NdArray α} {reference : NdArray β}
    (hshape : array.shape = reference.shape) (h : 3 ≤ array.ndim) (hsize : array.size ≠ 0) :
    self.call array (some reference) =
      if self.diff_threshold * array.size ≤ (errors array reference).sum then self.detect array
      else .ok false := by
  have hchunk : 0 < X_CHUNKSIZE := Nat.succ_pos 39
  have hmse : video_search.mse (some array) (some reference) =
      .ok (some (mean_squared_error array reference)) :=
    mse_eq_mean hshape h hsize hchunk
  have hreaches : reaches (some (mean_squared_error array reference)) self.diff_threshold = true ↔
      self.diff_threshold * array.size ≤ (errors array reference).sum := by
    unfold reaches mean_squared_error
    rw [decide_eq_true_iff, le_div_iff₀ (array.size_pos hsize)]
  unfold call
  dsimp only
  rw [hmse]
  change (if reaches (some (mean_squared_error array reference)) self.diff_threshold then
    self.detect array else .ok false) = _
  simp only [hreaches]

/-- A picture is not told from itself, whatever the detector says. -/
theorem call_self (self : DiffAndDetector α) (hthreshold : 0 < self.diff_threshold)
    {array : NdArray α} (h : 3 ≤ array.ndim) (hsize : array.size ≠ 0) :
    self.call array (some array) = .ok false := by
  have hzero : (errors array array).sum = 0 := by
    unfold errors
    rw [List.zipWith_self]
    simp only [sub_self, ne_eq, OfNat.ofNat_ne_zero, not_false_eq_true, zero_pow,
      List.map_const', List.sum_replicate, nsmul_zero]
  have hless : ¬ self.diff_threshold * array.size ≤ ((0 : ℤ) : ℚ) := by
    rw [Int.cast_zero, not_le]
    exact mul_pos hthreshold (array.size_pos hsize)
  rw [call_eq self rfl h hsize, hzero, if_neg hless]

end DiffAndDetector

end video_search

end SmartDisk.ChunkedMse
