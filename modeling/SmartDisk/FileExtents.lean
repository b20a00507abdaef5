import Mathlib.Data.List.Nodup

/-!
# The extents of a file

`fiemap2` of `s3dexp/fiemap.py` asks the kernel for the extents of a file, at most `count` at a
time, and after each answer goes on behind it: it moves the start by the length of the last
extent of the answer, wherever that extent lies. `get_fie_physical_start` of `s3dexp/utils.py`
takes the first record. The scripts sort their paths by it.

The kernel answers with the extents that overlap the range, in the order of the file, and marks
the last one of the file. The flags of a request, which come back with its answer, its packing
and `IOError` are left out.
-/
namespace SmartDisk.FileExtents

def FIEMAP_EXTENT_LAST : ℕ := 0x0001

structure fiemap_rec where
  logical : ℕ
  physical : ℕ
  length : ℕ
  flags : ℕ
  deriving DecidableEq, Repr

namespace fiemap_rec

/-- `rec.flags & FIEMAP_EXTENT_LAST` -/
def last (e : fiemap_rec) : Bool := e.flags &&& FIEMAP_EXTENT_LAST ≠ 0

def stop (e : fiemap_rec) : ℕ := e.logical + e.length

def overlaps (e : fiemap_rec) (start length : ℕ) : Bool :=
  e.logical < start + length && start < e.stop

end fiemap_rec

/-- The extents of a file as the kernel keeps them. Only the last one may be marked. -/
structure Layout where
  extents : List fiemap_rec
  positive : ∀ e ∈ extents, 0 < e.length
  ordered : extents.Pairwise fun x y => x.stop ≤ y.logical
  marked : ∀ e ∈ extents.dropLast, e.last = false

/-- The extents in a range. -/
def Layout.covered (file : Layout) (start length : ℕ) : List fiemap_rec :=
  file.extents.filter (·.overlaps start length)

/-- `fcntl.ioctl(fd, _FS_IOC_FIEMAP, buf)` -/
def Layout.ioctl (file : Layout) (start length count : ℕ) : List fiemap_rec :=
  (file.covered start length).take count

theorem Layout.mem_extents (file : Layout) {start length count : ℕ} {e : fiemap_rec}
    (h : e ∈ file.ioctl start length count) : e ∈ file.extents :=
  List.mem_of_mem_filter (List.mem_of_mem_take h)

/-- The records that the generator yields from here on. -/
def fiemap2 (file : Layout) (start length count : ℕ) : List fiemap_rec :=
  if 0 < length then
    match hlast : (file.ioctl start length count).getLast? with
    | none => []
    | some e =>
        have : 0 < e.length := file.positive e (file.mem_extents (List.mem_of_getLast? hlast))
        file.ioctl start length count ++
          if e.last then [] else fiemap2 file (start + e.length) (length - e.length) count
  else []
termination_by length
decreasing_by omega

inductive Exn where
  | StopIteration
  deriving DecidableEq, Repr

def get_fie_physical_start (file : Layout) : Except Exn ℕ :=
  match (fiemap2 file 0 1024 10000).head? with
  | some first_rec => .ok first_rec.physical
  | none => .error .StopIteration

/-! ### One answer -/

variable (file : Layout) {start length count : ℕ} {e x y : fiemap_rec}

theorem overlaps_iff : e.overlaps start length = true ↔
    e.logical < start + length ∧ start < e.stop := by
  unfold fiemap_rec.overlaps
  rw [Bool.and_eq_true, decide_eq_true_iff, decide_eq_true_iff]

theorem mem_covered : e ∈ file.covered start length ↔
    e ∈ file.extents ∧ e.logical < start + length ∧ start < e.stop := by
  unfold Layout.covered
  rw [List.mem_filter, overlaps_iff]

variable (start length) in
theorem covered_ordered :
    (file.covered start length).Pairwise fun x y => x.stop ≤ y.logical :=
  file.ordered.filter _

variable (start length) in
theorem covered_nodup : (file.covered start length).Nodup := by
  refine (covered_ordered file start length).imp_of_mem fun hx _ hle he => ?_
  have hpos := file.positive _ (List.mem_of_mem_filter hx)
  rw [he] at hle hpos
  unfold fiemap_rec.stop at hle
  omega

/-- The answer, its last extent, and what did not fit. With room for two extents that one is not
alone in an answer that is full. -/
theorem covered_split (hlast : (file.ioctl start length count).getLast? = some e) :
    ∃ before after, file.ioctl start length count = before ++ [e] ∧
      file.covered start length = before ++ e :: after ∧
      (2 ≤ count → after ≠ [] → ∃ p, p ∈ before) := by
  obtain ⟨before, hbefore⟩ := List.getLast?_eq_some_iff.mp hlast
  refine ⟨before, (file.covered start length).drop count, hbefore, ?_, fun hcount hafter => ?_⟩
  · have htake := List.take_append_drop count (file.covered start length)
    rw [show (file.covered start length).take count = before ++ [e] from hbefore,
      List.append_assoc] at htake
    exact htake.symm
  · have hlt : count < (file.covered start length).length :=
      Nat.lt_of_not_le fun hle => hafter (List.drop_eq_nil_of_le hle)
    have hlen := congrArg List.length hbefore
    rw [Layout.ioctl, List.length_take, Nat.min_eq_left (Nat.le_of_lt hlt),
      List.length_append, List.length_singleton] at hlen
    exact List.exists_mem_of_length_pos (by omega)

theorem covered_before {before after : List fiemap_rec}
    (h : file.covered start length = before ++ e :: after) (hx : x ∈ before) :
    start < e.logical := by
  have hordered := covered_ordered file start length
  rw [h] at hordered
  have hle := (List.pairwise_append.mp hordered).2.2 x hx e List.mem_cons_self
  have hcovered : x ∈ file.covered start length := h ▸ List.mem_append_left _ hx
  exact Nat.lt_of_lt_of_le ((mem_covered file).mp hcovered).2.2 hle

theorem covered_after {before after : List fiemap_rec}
    (h : file.covered start length = before ++ e :: after) (hy : y ∈ after) :
    e.stop ≤ y.logical := by
  have hordered := covered_ordered file start length
  rw [h] at hordered
  exact List.rel_of_pairwise_cons (List.pairwise_append.mp hordered).2.1 hy

/-- Behind the last extent of the file there is none. -/
theorem last_extent {before after : List fiemap_rec}
    (h : file.covered start length = before ++ e :: after) (hmark : e.last = true) :
    after = [] := by
  have hmem : e ∈ file.extents := List.mem_of_mem_filter (h ▸ List.mem_append_right _
    List.mem_cons_self)
  obtain ⟨front, back, hsplit⟩ := List.append_of_mem hmem
  have hback : back = [] := by
    by_contra hne
    have hinner : e ∈ file.extents.dropLast := by
      rw [hsplit, List.dropLast_append_of_ne_nil (List.cons_ne_nil _ _),
        List.dropLast_cons_of_ne_nil hne]
      exact List.mem_append_right _ List.mem_cons_self
    rw [file.marked e hinner] at hmark
    cases hmark
  subst hback
  rw [List.eq_nil_iff_forall_not_mem]
  intro y hy
  have hle := covered_after file h hy
  have hyext : y ∈ file.extents := List.mem_of_mem_filter (h ▸ List.mem_append_right _
    (List.mem_cons_of_mem _ hy))
  have hpos := file.positive y hyext
  have hepos := file.positive e hmem
  rw [hsplit] at hyext
  rcases List.mem_append.mp hyext with hy | hy
  · have hordered := file.ordered
    rw [hsplit] at hordered
    have hback := (List.pairwise_append.mp hordered).2.2 y hy e List.mem_cons_self
    unfold fiemap_rec.stop at hle hback
    omega
  · rw [List.mem_singleton.mp hy] at hle
    unfold fiemap_rec.stop at hle
    omega

/-! ### The loop -/

theorem fiemap2_none (h : (file.ioctl start length count).getLast? = none) :
    fiemap2 file start length count = [] := by
  unfold fiemap2
  split
  · split
    · rfl
    · next e hlast =>
        rw [h] at hlast
        cases hlast
  · rfl

theorem fiemap2_some (hlength : 0 < length)
    (h : (file.ioctl start length count).getLast? = some e) :
    fiemap2 file start length count = file.ioctl start length count ++
      if e.last then [] else fiemap2 file (start + e.length) (length - e.length) count := by
  rw [fiemap2, if_pos hlength]
  split
  · next hlast =>
      rw [h] at hlast
      cases hlast
  · next e' hlast =>
      rw [h] at hlast
      cases hlast
      rfl

theorem fiemap2_zero : fiemap2 file start 0 count = [] := by
  unfold fiemap2
  rw [if_neg (Nat.lt_irrefl 0)]

/-- What is yielded lies in the range. -/
theorem covered_of_mem (h : x ∈ fiemap2 file start length count) :
    x ∈ file.covered start length := by
  induction length using Nat.strongRecOn generalizing start with
  | _ length ih =>
      rcases Nat.eq_zero_or_pos length with rfl | hlength
      · rw [fiemap2_zero] at h
        cases h
      cases hlast : (file.ioctl start length count).getLast? with
      | none =>
          rw [fiemap2_none file hlast] at h
          cases h
      | some e =>
          have hpos := file.positive e (file.mem_extents (List.mem_of_getLast? hlast))
          rw [fiemap2_some file hlength hlast] at h
          rcases List.mem_append.mp h with h | h
          · exact List.mem_of_mem_take h
          · split at h
            · cases h
            · obtain ⟨hext, hlogical, hstop⟩ :=
                (mem_covered file).mp (ih _ (by omega) h)
              refine (mem_covered file).mpr ⟨hext, ?_, by omega⟩
              by_cases hle : e.length ≤ length
              · omega
              · have hzero : length - e.length = 0 := by omega
                rw [hzero, fiemap2_zero] at h
                cases h

/-- With room for two extents in an answer none is missed: the last one of the answer begins
behind the start, so that what follows it lies in the rest of the range. -/
theorem mem_of_covered (hcount : 2 ≤ count) (hlength : 0 < length)
    (h : x ∈ file.covered start length) : x ∈ fiemap2 file start length count := by
  induction length using Nat.strongRecOn generalizing start with
  | _ length ih =>
      cases hlast : (file.ioctl start length count).getLast? with
      | none =>
          have hnone := List.getLast?_eq_none_iff.mp hlast
          rcases List.take_eq_nil_iff.mp hnone with hzero | hzero
          · omega
          · rw [hzero] at h
            cases h
      | some e =>
          have hpos := file.positive e (file.mem_extents (List.mem_of_getLast? hlast))
          obtain ⟨before, after, hioctl, hcovered, hfull⟩ := covered_split file hlast
          have hx := h
          rw [fiemap2_some file hlength hlast, List.mem_append, hioctl]
          rw [hcovered, List.append_cons] at hx
          refine (List.mem_append.mp hx).imp_right fun hafter => ?_
          have hne : after ≠ [] := List.ne_nil_of_mem hafter
          have hmark : e.last = false := Bool.eq_false_iff.mpr fun hmark =>
            hne (last_extent file hcovered hmark)
          obtain ⟨p, hp⟩ := hfull hcount hne
          have hstart := covered_before file hcovered hp
          have hbehind := covered_after file hcovered hafter
          obtain ⟨hext, hlogical, -⟩ := (mem_covered file).mp h
          have hxpos := file.positive x hext
          unfold fiemap_rec.stop at hbehind
          rw [hmark, if_neg Bool.false_ne_true]
          refine ih _ (by omega) (by omega) ((mem_covered file).mpr ⟨hext, by omega, ?_⟩)
          unfold fiemap_rec.stop
          omega

/-- An answer that ends before the file and the range do, and behind the start, is followed by
its last extent once more. -/
theorem last_again (hcount : 2 ≤ count) (hlast : (file.ioctl start length count).getLast? = some e)
    (hmark : e.last = false) (hlong : e.length < length) (hbehind : start < e.logical) :
    fiemap2 file start length count ≠ file.covered start length := by
  intro hall
  obtain ⟨before, after, -, hcovered, -⟩ := covered_split file hlast
  have he : e ∈ file.covered start length :=
    hcovered ▸ List.mem_append_right _ List.mem_cons_self
  obtain ⟨hext, hlogical, -⟩ := (mem_covered file).mp he
  have hagain : e ∈ fiemap2 file (start + e.length) (length - e.length) count := by
    refine mem_of_covered file hcount (by omega) ((mem_covered file).mpr ⟨hext, by omega, ?_⟩)
    unfold fiemap_rec.stop
    omega
  have hnodup := covered_nodup file start length
  rw [← hall, fiemap2_some file (by omega) hlast, hmark, if_neg Bool.false_ne_true] at hnodup
  exact (List.nodup_append.mp hnodup).2.2 e (List.mem_of_getLast? hlast) e hagain rfl

/-- An extent as long as the range lies behind its start only when it is the last one there. -/
theorem long_extent {before after : List fiemap_rec}
    (h : file.covered start length = before ++ e :: after) (hp : ∃ p, p ∈ before)
    (hlong : length ≤ e.length) : after = [] := by
  by_contra hne
  obtain ⟨y, hy⟩ := List.exists_mem_of_ne_nil after hne
  obtain ⟨p, hp⟩ := hp
  have hbehind := covered_before file h hp
  have hle := covered_after file h hy
  have hcovered : y ∈ file.covered start length :=
    h ▸ List.mem_append_right _ (List.mem_cons_of_mem _ hy)
  have hlogical := ((mem_covered file).mp hcovered).2.1
  unfold fiemap_rec.stop at hle
  omega

/-- Behind the only extent of a range that reaches back to its start nothing is found. -/
theorem rest_of_only (h : file.covered start length = [e]) (hstart : e.logical ≤ start) :
    fiemap2 file (start + e.length) (length - e.length) count = [] := by
  refine List.eq_nil_iff_forall_not_mem.mpr fun x hx => ?_
  obtain ⟨hext, hlogical, hstop⟩ := (mem_covered file).mp (covered_of_mem file hx)
  by_cases hle : e.length ≤ length
  · have hx : x ∈ file.covered start length :=
      (mem_covered file).mpr ⟨hext, by omega, by omega⟩
    rw [h] at hx
    rw [List.mem_singleton.mp hx] at hstop
    unfold fiemap_rec.stop at hstop
    omega
  · have hzero : length - e.length = 0 := by omega
    rw [hzero, fiemap2_zero] at hx
    cases hx

/-- The generator yields the extents of the range, all of them and no others. Each comes once, in
the order of the file, if and only if the last one of the first answer is the last one of the
file, or is as long as the range, or does not begin behind its start. -/
theorem fiemap2_extents (hcount : 2 ≤ count) (hlength : 0 < length) :
    (∀ e, e ∈ fiemap2 file start length count ↔ e ∈ file.covered start length) ∧
      (fiemap2 file start length count = file.covered start length ↔
        ∀ e ∈ (file.ioctl start length count).getLast?,
          e.last = true ∨ length ≤ e.length ∨ e.logical ≤ start) := by
  refine ⟨fun e => ⟨covered_of_mem file, mem_of_covered file hcount hlength⟩, ?_⟩
  constructor
  · intro hall e hlast
    by_contra hnot
    simp only [not_or, Nat.not_le, Bool.not_eq_true] at hnot
    obtain ⟨hmark, hlong, hbehind⟩ := hnot
    exact last_again file hcount hlast hmark hlong hbehind hall
  · intro hone
    cases hlast : (file.ioctl start length count).getLast? with
    | none =>
        rw [fiemap2_none file hlast]
        rcases List.take_eq_nil_iff.mp (List.getLast?_eq_none_iff.mp hlast) with hzero | hzero
        · omega
        · exact hzero.symm
    | some e =>
        obtain ⟨before, after, hioctl, hcovered, hfull⟩ := covered_split file hlast
        have hdone : after = [] ∧ (e.last = true ∨
            fiemap2 file (start + e.length) (length - e.length) count = []) := by
          rcases hone e hlast with hmark | hlong | hstart
          · exact ⟨last_extent file hcovered hmark, .inl hmark⟩
          · have hzero : length - e.length = 0 := by omega
            refine ⟨?_, .inr (by rw [hzero, fiemap2_zero])⟩
            by_contra hne
            exact hne (long_extent file hcovered (hfull hcount hne) hlong)
          · have hbefore : before = [] := List.eq_nil_iff_forall_not_mem.mpr fun p hp =>
              absurd (covered_before file hcovered hp) (Nat.not_lt_of_le hstart)
            have hafter : after = [] := by
              by_contra hne
              obtain ⟨p, hp⟩ := hfull hcount hne
              rw [hbefore] at hp
              cases hp
            rw [hbefore, hafter] at hcovered
            exact ⟨hafter, .inr (rest_of_only file hcovered hstart)⟩
        obtain ⟨rfl, hrest⟩ := hdone
        rw [fiemap2_some file hlength hlast, hioctl, hcovered]
        rcases hrest with hmark | hrest
        · rw [if_pos hmark, List.append_nil]
        · rw [hrest, ite_self, List.append_nil]

/-- A path is sorted by the place of its first extent, when that one begins in the first KiB. -/
theorem physical_start : get_fie_physical_start file =
    match (file.covered 0 1024).head? with
    | some e => .ok e.physical
    | none => .error .StopIteration := by
  have hhead : (fiemap2 file 0 1024 10000).head? = (file.covered 0 1024).head? := by
    cases hlast : (file.ioctl 0 1024 10000).getLast? with
    | none =>
        rw [fiemap2_none file hlast]
        rcases List.take_eq_nil_iff.mp (List.getLast?_eq_none_iff.mp hlast) with hzero | hzero
        · cases hzero
        · rw [hzero]
    | some e =>
        obtain ⟨before, after, hioctl, hcovered, -⟩ := covered_split file hlast
        rw [fiemap2_some file (by decide) hlast, hioctl, hcovered]
        cases before <;> rfl
  unfold get_fie_physical_start
  rw [hhead]

/-- Two extents, and a third one behind a hole. -/
def holed : Layout where
  extents := [⟨0, 800, 10, 0⟩, ⟨10, 400, 10, 0⟩, ⟨40, 100, 10, FIEMAP_EXTENT_LAST⟩]
  positive := by decide
  ordered := by decide
  marked := by decide

/-- Two at a time the second extent comes twice. -/
theorem fiemap2_extents_holed :
    fiemap2 holed 0 50 2 ≠ holed.covered 0 50 ∧ fiemap2 holed 0 50 3 = holed.covered 0 50 := by
  have hcount : 2 ≤ 2 := Nat.le_refl 2
  have hroom : 2 ≤ 3 := Nat.le_succ 2
  have hlength : 0 < 50 := by decide
  constructor
  · exact fun h => absurd ((fiemap2_extents holed hcount hlength).2.mp h) (by decide)
  · exact (fiemap2_extents holed hroom hlength).2.mpr (by decide)

end SmartDisk.FileExtents
