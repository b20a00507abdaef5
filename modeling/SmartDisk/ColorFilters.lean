import Mathlib.Tactic.NormNum
import SmartDisk.Histogram

/-!
# Filters on colour histograms

`RGBHist1dFilter` and `RGBHist3dFilter` of `s3dexp/filter/rgbhist.py`. The first counts the
values of one channel in 256 bins of one value each, the second counts the pixels in a grid
of `8 * 8 * 8` bins and sums over a block of it: bright in its own colour and dark in the
other two. `cv2.calcHist` with uniform bins over `[0, 256)` is a function here, its counts
are exact, and an array has its channels in BGR order.
-/
namespace SmartDisk.ColorFilters
open Histogram

inductive Exn where
  | AssertionError | KeyError | IndexError | UnboundLocalError | cv2_error
  deriving DecidableEq, Repr

/-- An 8-bit array of two or of three dimensions, as its pixels. -/
inductive Image where
  | gray (pixels : List UInt8)
  | color (channels : ℕ) (pixels : List (Vector UInt8 channels))

namespace Image

def ndim : Image → ℕ
  | gray _ => 2
  | color _ _ => 3

def num_channels : Image → ℕ
  | gray _ => 1
  | color channels _ => channels

def pixels : (img : Image) → List (Vector UInt8 img.num_channels)
  | gray pixels => pixels.map fun v => #v[v]
  | color _ pixels => pixels

/-- The values of one channel. -/
def channel (img : Image) (i : ℕ) (h : i < img.num_channels) : List UInt8 :=
  img.pixels.map fun p => p[i]

end Image

/-- The bin of a value among `bins` uniform ones. -/
def bin (bins : ℕ) (v : UInt8) : ℕ := v.toNat * bins / 256

/-- `calcHist([array], [i], None, [bins], [0, 256])` -/
def calcHist (bins : ℕ) (values : List UInt8) : List ℕ :=
  (List.range bins).map fun k => values.countP fun v => bin bins v = k

/-- `calcHist([array], [0, 1, 2], None, [bins, bins, bins], [0, 256, 0, 256, 0, 256])` -/
def calcHist3 (bins : ℕ) (img : Image) : Except Exn (List (List (List ℕ))) :=
  if h : 3 ≤ img.num_channels then
    .ok (counts3 bins (fun p => bin bins p[0]) (fun p => bin bins p[1])
      (fun p => bin bins p[2]) img.pixels)
  else .error .cv2_error

/-- `xs[n]`, where a negative `n` counts from the end. -/
def index {β : Type} (xs : List β) (n : ℤ) : Option β :=
  if 0 ≤ n then xs[n.toNat]? else if 0 ≤ xs.length + n then xs[(xs.length + n).toNat]? else none

/-! ### One channel -/

structure RGBHist1dFilter where
  channel : ℕ
  higher_than : ℤ
  pixels_threshold : ℚ

def color_to_channel (color : List Char) : Except Exn ℕ :=
  if color = ['b'] then .ok 0
  else if color = ['g'] then .ok 1
  else if color = ['r'] then .ok 2
  else .error .KeyError

def RGBHist1dFilter.init (color : List Char := ['r']) (higher_than : ℤ := 200)
    (pixels_threshold : ℚ := 1000) : Except Exn RGBHist1dFilter := do
  let channel ← color_to_channel (color.map Char.toLower)
  pure { channel, higher_than, pixels_threshold }

/-- With the attribute `rgb_hist_1d` that the call leaves in the item. -/
def RGBHist1dFilter.call (self : RGBHist1dFilter) (img : Image) :
    Except Exn (List (List ℕ) × Bool) :=
  let hists := List.ofFn fun i : Fin img.num_channels => calcHist 256 (img.channel i i.isLt)
  match hists[self.channel]? with
  | none => .error .IndexError
  | some hist =>
      match index hist self.higher_than with
      | none => .error .IndexError
      | some pixels => .ok (hists, decide (self.pixels_threshold < pixels))

def RGBHist1dFilter.Accepts (self : RGBHist1dFilter) (img : Image) : Prop :=
  ∃ hists, self.call img = .ok (hists, true)

theorem bin_unit (v : UInt8) : bin 256 v = v.toNat := by
  unfold bin
  exact Nat.mul_div_cancel _ (Nat.succ_pos _)

theorem calcHist_unit_getElem? (values : List UInt8) {k : ℕ} (hk : k < 256) :
    (calcHist 256 values)[k]? = some (values.countP fun v => v.toNat = k) := by
  simp [calcHist, bin_unit, hk]

theorem RGBHist1dFilter.init_fields {color : List Char} {higher_than : ℤ}
    {pixels_threshold : ℚ} {self : RGBHist1dFilter}
    (hs : RGBHist1dFilter.init color higher_than pixels_threshold = .ok self) :
    self.higher_than = higher_than ∧ self.pixels_threshold = pixels_threshold := by
  unfold init at hs
  cases hcol : color_to_channel (color.map Char.toLower) with
  | error e => rw [hcol] at hs; cases hs
  | ok channel => rw [hcol] at hs; cases hs; exact ⟨rfl, rfl⟩

/-- The value read from the histogram is the count of one value, not of a tail. -/
theorem RGBHist1dFilter.accepts_iff (self : RGBHist1dFilter) (h0 : 0 ≤ self.higher_than)
    (h1 : self.higher_than ≤ 255) {img : Image} (hc : self.channel < img.num_channels) :
    self.Accepts img ↔ self.pixels_threshold <
      ((img.channel self.channel hc).countP fun v => (v.toNat : ℤ) = self.higher_than) := by
  have hk : self.higher_than.toNat < 256 := by omega
  have hv : ∀ v : UInt8, v.toNat = self.higher_than.toNat ↔
      (v.toNat : ℤ) = self.higher_than := by omega
  unfold Accepts call
  simp [hc, index, h0, calcHist_unit_getElem? _ hk, hv]

/-- The bright tail is counted as documented unless it exceeds the threshold while the
pixels at `higher_than` itself do not. -/
theorem bright_tail_iff {color : List Char} {higher_than : ℤ} {pixels_threshold : ℚ}
    {self : RGBHist1dFilter}
    (hs : RGBHist1dFilter.init color higher_than pixels_threshold = .ok self)
    (h0 : 0 ≤ higher_than) (h1 : higher_than ≤ 255) {img : Image}
    (hc : self.channel < img.num_channels) :
    ((pixels_threshold <
          ((img.channel self.channel hc).countP fun v => higher_than < (v.toNat : ℤ)) →
        self.Accepts img) ∧
      (self.Accepts img → pixels_threshold <
          ((img.channel self.channel hc).countP fun v => higher_than ≤ (v.toNat : ℤ)))) ↔
    (((img.channel self.channel hc).countP fun v => higher_than < (v.toNat : ℤ)) ≤
        pixels_threshold ∨
      pixels_threshold <
        ((img.channel self.channel hc).countP fun v => (v.toNat : ℤ) = higher_than)) := by
  obtain ⟨rfl, rfl⟩ := RGBHist1dFilter.init_fields hs
  rw [self.accepts_iff h0 h1 hc]
  have hle : ((img.channel self.channel hc).countP fun v =>
      (v.toNat : ℤ) = self.higher_than) ≤ (img.channel self.channel hc).countP fun v =>
        self.higher_than ≤ (v.toNat : ℤ) := by
    apply List.countP_mono_left
    intro v _ hv
    simp only [decide_eq_true_eq] at hv ⊢
    omega
  have hq : (((img.channel self.channel hc).countP fun v =>
      (v.toNat : ℤ) = self.higher_than) : ℚ) ≤ (img.channel self.channel hc).countP fun v =>
        self.higher_than ≤ (v.toNat : ℤ) := by exact_mod_cast hle
  constructor
  · rintro ⟨h, -⟩
    by_cases ht : self.pixels_threshold <
        ((img.channel self.channel hc).countP fun v => self.higher_than < (v.toNat : ℤ))
    · exact Or.inr (h ht)
    · exact Or.inl (not_lt.mp ht)
  · intro h
    constructor
    · intro ht
      exact h.resolve_left (not_le.mpr ht)
    · intro ha
      exact ha.trans_le hq

theorem bright_tail_iff_red :
    ((1 : ℚ) < (((Image.color 3 [#v[0, 0, 200], #v[0, 0, 200]]).channel 2
          (Nat.lt_succ_self 2)).countP fun v => (200 : ℤ) < (v.toNat : ℤ)) →
        RGBHist1dFilter.Accepts ⟨2, 200, 1⟩ (.color 3 [#v[0, 0, 200], #v[0, 0, 200]])) ∧
      (RGBHist1dFilter.Accepts ⟨2, 200, 1⟩ (.color 3 [#v[0, 0, 200], #v[0, 0, 200]]) →
        (1 : ℚ) < (((Image.color 3 [#v[0, 0, 200], #v[0, 0, 200]]).channel 2
          (Nat.lt_succ_self 2)).countP fun v => (200 : ℤ) ≤ (v.toNat : ℤ))) := by
  have hc : 2 < (Image.color 3 [#v[0, 0, 200], #v[0, 0, 200]]).num_channels := by decide
  have here : (((Image.color 3 [#v[0, 0, 200], #v[0, 0, 200]]).channel 2 hc).countP fun v =>
      (v.toNat : ℤ) = (200 : ℤ)) = 2 := rfl
  apply (@bright_tail_iff ['r'] 200 1 ⟨2, 200, 1⟩ rfl (by decide) (by decide) _ hc).mpr
  exact Or.inr (by rw [here]; norm_num)

/-- One pixel brighter than the limit, none at it. -/
theorem bright_pixel_missed : ¬ ∀ (color : List Char) (higher_than : ℤ)
    (pixels_threshold : ℚ) (self : RGBHist1dFilter) (img : Image),
    RGBHist1dFilter.init color higher_than pixels_threshold = .ok self →
    0 ≤ higher_than → higher_than ≤ 255 → 0 ≤ pixels_threshold →
    ∀ hc : self.channel < img.num_channels,
      (pixels_threshold <
          ((img.channel self.channel hc).countP fun v => higher_than < (v.toNat : ℤ)) →
        self.Accepts img) ∧
      (self.Accepts img → pixels_threshold <
          ((img.channel self.channel hc).countP fun v => higher_than ≤ (v.toNat : ℤ))) := by
  intro h
  have hc : 2 < (Image.color 3 [#v[0, 0, 255]]).num_channels := by decide
  have above : (((Image.color 3 [#v[0, 0, 255]]).channel 2 hc).countP fun v =>
      (200 : ℤ) < (v.toNat : ℤ)) = 1 := rfl
  have here : (((Image.color 3 [#v[0, 0, 255]]).channel 2 hc).countP fun v =>
      (v.toNat : ℤ) = (200 : ℤ)) = 0 := rfl
  have ha := (h ['r'] 200 0 ⟨2, 200, 0⟩ (.color 3 [#v[0, 0, 255]]) rfl (by decide) (by decide)
    le_rfl hc).1 (by rw [above]; norm_num)
  rw [RGBHist1dFilter.accepts_iff _ (by decide) (by decide) hc, here] at ha
  norm_num at ha

/-! ### Three channels -/

structure RGBHist3dFilter where
  color : List Char
  color_bin : ℤ
  other_color_bin : ℤ
  pixels_threshold : ℚ

def N_BINS : ℕ := 8

/-- Positive integers are divided rounding down. -/
def RGBHist3dFilter.init (color : List Char := ['r']) (higher_than : ℤ := 200)
    (pixels_threshold : ℚ := 1000) (other_lower_than : ℤ := 128) :
    Except Exn RGBHist3dFilter :=
  let color := color.map Char.toLower
  if ¬ [['r'], ['g'], ['b']].contains color then .error .AssertionError
  else if ¬ (0 < other_lower_than ∧ other_lower_than < higher_than ∧ higher_than < 255) then
    .error .AssertionError
  else .ok
    { color
      color_bin := higher_than / (256 / N_BINS)
      other_color_bin := other_lower_than / (256 / N_BINS)
      pixels_threshold }

/-- The sum over the block of the colour. -/
def RGBHist3dFilter.pixels (self : RGBHist3dFilter) (hist : List (List (List ℕ))) :
    Except Exn ℕ :=
  let dark := Slice.upto (self.other_color_bin + 1)
  let bright := Slice.onward self.color_bin
  if self.color = ['r'] then .ok (sum3 dark dark bright hist)
  else if self.color = ['g'] then .ok (sum3 dark bright dark hist)
  else if self.color = ['b'] then .ok (sum3 bright dark dark hist)
  else .error .UnboundLocalError

/-- With the attribute `rgb_hist_3d` that the call leaves in the item. -/
def RGBHist3dFilter.call (self : RGBHist3dFilter) (img : Image) :
    Except Exn (List (List (List ℕ)) × Bool) := do
  if img.ndim ≠ 3 then throw .AssertionError
  let hist ← calcHist3 N_BINS img
  let pixels ← self.pixels hist
  pure (hist, decide (self.pixels_threshold < pixels))

/-- "simple definition of redness (ditto for blueness and greenness)" -/
def Colored (color : List Char) (higher_than other_lower_than : ℤ)
    (p : Vector UInt8 3) : Bool :=
  let high := fun v : UInt8 => decide (higher_than < (v.toNat : ℤ))
  let low := fun v : UInt8 => decide ((v.toNat : ℤ) < other_lower_than)
  if color = ['r'] then low p[0] && low p[1] && high p[2]
  else if color = ['g'] then low p[0] && high p[1] && low p[2]
  else high p[0] && low p[1] && low p[2]

theorem mem_dark {n : ℤ} (hn : 0 < n) (v : UInt8) :
    bin N_BINS v ∈ (Slice.upto (n / (256 / N_BINS) + 1)).get (List.range N_BINS) ↔
      ((v.toNat / 32 : ℕ) : ℤ) ≤ n / 32 := by
  have hv := v.toNat_lt
  rw [Slice.mem_upto_range (by unfold N_BINS; omega)]
  unfold bin N_BINS
  omega

theorem mem_bright {n : ℤ} (hn : 0 < n) (v : UInt8) :
    bin N_BINS v ∈ (Slice.onward (n / (256 / N_BINS))).get (List.range N_BINS) ↔
      n / 32 ≤ ((v.toNat / 32 : ℕ) : ℤ) := by
  have hv := v.toNat_lt
  rw [Slice.mem_onward_range (by unfold N_BINS; omega)]
  unfold bin N_BINS
  omega

/-- What the sum counts lies between the definition and the definition one bin wider. -/
theorem RGBHist3dFilter.pixels_bounds (self : RGBHist3dFilter) {higher_than other : ℤ}
    (hcol : self.color ∈ [['r'], ['g'], ['b']]) (h0 : 0 < other) (h1 : 0 < higher_than)
    (hb : self.color_bin = higher_than / (256 / N_BINS))
    (ho : self.other_color_bin = other / (256 / N_BINS)) (pixels : List (Vector UInt8 3)) :
    ∃ hist n, calcHist3 N_BINS (.color 3 pixels) = .ok hist ∧ self.pixels hist = .ok n ∧
      pixels.countP (Colored self.color higher_than other) ≤ n ∧
      n ≤ pixels.countP (Colored self.color (higher_than - 32) (other + 32)) := by
  have hist : calcHist3 N_BINS (.color 3 pixels) =
      .ok (counts3 N_BINS (fun p => bin N_BINS p[0]) (fun p => bin N_BINS p[1])
        (fun p => bin N_BINS p[2]) pixels) := rfl
  simp only [List.mem_cons, List.not_mem_nil, or_false] at hcol
  unfold RGBHist3dFilter.pixels
  rw [hb, ho]
  rcases hcol with hcol | hcol | hcol
  all_goals
    rw [hcol]
    refine ⟨_, _, hist, rfl, ?_, ?_⟩
    all_goals
      rw [sum3_counts3]
      apply List.countP_mono_left
      intro p _ hp
      simp [Colored, mem_dark h0, mem_bright h1] at hp ⊢
      omega

/-- No image that exceeds the threshold under the definition is rejected. -/
theorem rgbhist3d_bounds {color : List Char}
    (hcol : color.map Char.toLower ∈ [['r'], ['g'], ['b']]) {higher_than other : ℤ}
    (h0 : 0 < other) (h1 : other < higher_than) (h2 : higher_than < 255)
    (pixels_threshold : ℚ) (pixels : List (Vector UInt8 3)) :
    ∃ self hist n accept,
      RGBHist3dFilter.init color higher_than pixels_threshold other = .ok self ∧
      calcHist3 N_BINS (.color 3 pixels) = .ok hist ∧ self.pixels hist = .ok n ∧
      self.call (.color 3 pixels) = .ok (hist, accept) ∧
      pixels.countP (Colored (color.map Char.toLower) higher_than other) ≤ n ∧
      n ≤ pixels.countP (Colored (color.map Char.toLower) (higher_than - 32) (other + 32)) ∧
      (pixels_threshold <
          pixels.countP (Colored (color.map Char.toLower) higher_than other) →
        accept = true) := by
  have hinit : RGBHist3dFilter.init color higher_than pixels_threshold other =
      .ok ⟨color.map Char.toLower, higher_than / (256 / N_BINS), other / (256 / N_BINS),
        pixels_threshold⟩ := by
    unfold RGBHist3dFilter.init
    rw [if_neg (not_not_intro (List.contains_iff_mem.mpr hcol)),
      if_neg (not_not_intro ⟨h0, h1, h2⟩)]
  obtain ⟨hist, n, hh, hn, hl, hu⟩ := RGBHist3dFilter.pixels_bounds
    ⟨color.map Char.toLower, higher_than / (256 / N_BINS), other / (256 / N_BINS),
      pixels_threshold⟩ hcol h0 (h0.trans h1) rfl rfl pixels
  refine ⟨_, hist, n, decide (pixels_threshold < n), hinit, hh, hn, ?_, hl, hu, ?_⟩
  · unfold RGBHist3dFilter.call
    rw [hh]
    simp only [bind, Except.bind, hn]
    rfl
  · intro ht
    have hq : (pixels.countP (Colored (color.map Char.toLower) higher_than other) : ℚ) ≤ n := by
      exact_mod_cast hl
    exact decide_eq_true (ht.trans_le hq)

theorem rgbhist3d_bounds_red : ∃ self hist n accept,
    RGBHist3dFilter.init ['R'] 200 0 128 = .ok self ∧
    calcHist3 N_BINS (.color 3 [#v[0, 0, 255]]) = .ok hist ∧ self.pixels hist = .ok n ∧
    self.call (.color 3 [#v[0, 0, 255]]) = .ok (hist, accept) ∧
    [#v[0, 0, 255]].countP (Colored (['R'].map Char.toLower) 200 128) ≤ n ∧
    n ≤ [#v[0, 0, 255]].countP (Colored (['R'].map Char.toLower) (200 - 32) (128 + 32)) ∧
    ((0 : ℚ) < [#v[0, 0, 255]].countP (Colored (['R'].map Char.toLower) 200 128) →
      accept = true) :=
  rgbhist3d_bounds (by decide) (by decide) (by decide) (by decide) 0 [#v[0, 0, 255]]

end SmartDisk.ColorFilters
