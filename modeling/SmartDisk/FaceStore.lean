import SmartDisk.Calibration
import SmartDisk.FaceFilters

/-!
# Face boxes in the profile store

`run_face` of `script/profile_face.py` writes the boxes of an image as a JSON text into the
column `FaceExp.box`, which holds 1024 characters, and `FaceDetectorSim` reads them back. A
database refuses a text that is longer than its column, or cuts it off. The other columns
of a row are taken to hold what is written to them.
-/
namespace SmartDisk.FaceStore
open StorageSim ProfileTables JsonText
open FaceFilters (Detection)

/-! ### `script/profile_face.py` -/

/-- A picture as `cv2.imdecode` gives it, with what `model.forward()` returns for it and
the times that were measured. -/
structure Measured where
  path : Path
  bytes : ℕ
  height : ℕ
  width : ℕ
  detections : List Detection
  read_ms : ℚ
  decode_ms : ℚ
  total_ms : ℚ

/-- `astype('int')` -/
def astype_int (x : ℚ) : ℤ := x.num.tdiv x.den

def threshold : ℚ := 4 / 5

/-- The corners of the detections above the threshold, in pixels. -/
def boxes (m : Measured) : List (List ℤ) :=
  (m.detections.filter fun d => threshold < d.confidence).map fun d =>
    [astype_int (d.left * m.width), astype_int (d.top * m.height),
      astype_int (d.right * m.width), astype_int (d.bottom * m.height)]

/-- The value that `json.dumps` is called with and that `json.loads` returns. -/
def toJson (boxes : List (List ℤ)) : Json := .arr (boxes.map fun b => .arr (b.map .int))

/-- The row that `run_face` writes for one picture. -/
def run_face (m : Measured) : FaceExp where
  expname := "face_detection".toList
  path := m.path
  basename := basename m.path
  device := "cpu".toList
  disk := "hdd".toList
  read_ms := m.read_ms
  decode_ms := m.decode_ms
  total_ms := m.total_ms
  size := m.bytes
  width := m.width
  height := m.height
  num_faces := (boxes m).length
  box := dumps (toJson (boxes m))

/-! ### `s3dexp/db/models.py` -/

/-- What a database does with a text that is too long for its column. -/
inductive Overlong where
  | reject | truncate
  deriving DecidableEq

inductive DBError where
  | DataError

/-- A column `String(n)`. -/
def String_ (overlong : Overlong) (n : ℕ) (text : List Char) : Except DBError (List Char) :=
  if text.length ≤ n then .ok text
  else
    match overlong with
    | .reject => .error .DataError
    | .truncate => .ok (text.take n)

/-- The row as the table holds it. -/
def FaceExp.stored (overlong : Overlong) (row : FaceExp) : Except DBError FaceExp := do
  let box ← String_ overlong 1024 row.box
  pure { row with box }

/-! ### The length of the text -/

/-- The characters of a number: its digits and its sign. -/
def chars (n : ℤ) : ℕ := (dumpsInt n).length

/-- Four numbers, two brackets and three separators, and the separator behind the box. -/
def encoded (b : List ℤ) : ℕ := (b.map chars).sum + 10

theorem length_box {b : List ℤ} (h : b.length = 4) :
    (dumps (.arr (b.map .int))).length + 2 = encoded b := by
  obtain ⟨w, x, y, z, rfl⟩ : ∃ w x y z, b = [w, x, y, z] := by
    match b, h with
    | [w, x, y, z], _ => exact ⟨w, x, y, z, rfl⟩
  rw [length_dumps_arr (by simp)]
  simp [encoded, chars, dumps]
  omega

theorem length_boxes (m : Measured) : ∀ b ∈ boxes m, b.length = 4 := by
  intro b hb
  obtain ⟨d, -, rfl⟩ := List.mem_map.mp hb
  rfl

theorem length_text {bs : List (List ℤ)} (h : ∀ b ∈ bs, b.length = 4) (hne : bs ≠ []) :
    (dumps (toJson bs)).length = (bs.map encoded).sum := by
  unfold toJson
  rw [length_dumps_arr (by simpa using hne), List.map_map]
  congr 1
  apply List.map_congr_left
  intro b hb
  exact length_box (h b hb)

/-- The text fits unless the boxes are too many, or their numbers too long. -/
theorem text_fits_iff (m : Measured) : (run_face m).box.length ≤ 1024 ↔
    boxes m = [] ∨ ((boxes m).map encoded).sum ≤ 1024 := by
  change (dumps (toJson (boxes m))).length ≤ 1024 ↔ _
  by_cases hne : boxes m = []
  · rw [hne]
    exact iff_of_true (by decide) (.inl rfl)
  · rw [length_text (length_boxes m) hne, or_iff_right hne]

/-! ### What is read back -/

/-- The entry of the simulator's table that belongs to the boxes. -/
def exactEntry (m : Measured) (time_scaling : ℚ) : Path × ℚ × ℤ × ℤ × Json :=
  (basename m.path, FaceDetectorSim.seconds (run_face m) * time_scaling, (m.width : ℤ),
    (m.height : ℤ), toJson (boxes m))

theorem stored_eq {overlong : Overlong} {m : Measured} {row : FaceExp}
    (h : FaceExp.stored overlong (run_face m) = .ok row) :
    row = { run_face m with box := (run_face m).box.take 1024 } := by
  unfold FaceExp.stored String_ at h
  by_cases hlen : (run_face m).box.length ≤ 1024
  · rw [if_pos hlen] at h
    cases h
    rw [List.take_of_length_le hlen]
  · rw [if_neg hlen] at h
    cases overlong with
    | reject => cases h
    | truncate => cases h; rfl

theorem stored_of_fits (overlong : Overlong) {m : Measured}
    (h : (run_face m).box.length ≤ 1024) :
    FaceExp.stored overlong (run_face m) =
      .ok { run_face m with box := (run_face m).box.take 1024 } := by
  unfold FaceExp.stored String_
  rw [if_pos h, List.take_of_length_le h]
  rfl

theorem entry_eq (m : Measured) (time_scaling : ℚ) :
    FaceDetectorSim.entry time_scaling { run_face m with box := (run_face m).box.take 1024 } =
      if (run_face m).box.length ≤ 1024 then .ok (exactEntry m time_scaling)
      else .error .ValueError := by
  unfold FaceDetectorSim.entry
  by_cases hlen : (run_face m).box.length ≤ 1024
  · have hread : loads ((run_face m).box.take 1024) = some (toJson (boxes m)) := by
      rw [List.take_of_length_le hlen]
      exact loads_dumps _
    rw [if_pos hlen]
    simp only [hread]
    rfl
  · have hread : loads ((run_face m).box.take 1024) = none := loads_take _ (by
      rw [not_le] at hlen
      exact hlen)
    rw [if_neg hlen]
    simp only [hread]

/-- Whatever a simulator accepts of a stored row are the boxes that were detected. -/
theorem lut_boxes {overlong : Overlong} {m : Measured} {row : FaceExp}
    (hrow : FaceExp.stored overlong (run_face m) = .ok row) {table : List FaceExp}
    {db : Databases.Database} {target_fps : ℚ} {base_dir ext : Path} {capacity : ℕ}
    {self : FaceDetectorSim}
    (h : FaceDetectorSim.init db table target_fps base_dir ext capacity = .ok self)
    (hmem : row ∈ FaceDetectorSim.profiles db table base_dir ext) :
    (run_face m).box.length ≤ 1024 ∧
      self.lut (basename m.path) = some (exactEntry m self.time_scaling).2 := by
  obtain ⟨-, -, -, -, hlut⟩ := Calibration.detector_init_ok h
  obtain ⟨bs, hread, hentry⟩ := hlut row hmem
  rw [stored_eq hrow] at hread hentry
  by_cases hlen : (run_face m).box.length ≤ 1024
  · simp only [List.take_of_length_le hlen] at hread
    have hbs : some bs = some (toJson (boxes m)) := hread.symm.trans (loads_dumps _)
    cases hbs
    exact ⟨hlen, hentry⟩
  · rw [not_le] at hlen
    have hcut : loads ((run_face m).box.take 1024) = none := loads_take _ hlen
    rw [hcut] at hread
    cases hread

/-- The boxes of an image survive exactly as long as their text fits its column. -/
theorem boxes_survive_iff (overlong : Overlong) (m : Measured) :
    ((run_face m).box.length ≤ 1024 ∧
      ∃ row, FaceExp.stored overlong (run_face m) = .ok row ∧
        ∀ time_scaling, FaceDetectorSim.entry time_scaling row =
          .ok (exactEntry m time_scaling)) ↔
    (boxes m = [] ∨ ((boxes m).map encoded).sum ≤ 1024) := by
  rw [← text_fits_iff]
  constructor
  · exact And.left
  · intro hlen
    refine ⟨hlen, _, stored_of_fits overlong hlen, ?_⟩
    intro time_scaling
    rw [entry_eq, if_pos hlen]

/-- The face in column `i` and row `j` of an audience. -/
def seat (i j : ℕ) : Detection := ⟨9 / 10, i / 10, j / 6, (i + 1) / 10, (j + 1) / 6⟩

/-- A picture of 1920 x 1080 pixels with 60 faces side by side. -/
def crowd : Measured :=
  ⟨"/d/a.jpg".toList, 0, 1080, 1920,
    (List.range 10).flatMap fun i => (List.range 6).map fun j => seat i j, 0, 0, 0⟩

theorem crowd_boxes_lost : ¬ ∀ (overlong : Overlong) (m : Measured),
    (run_face m).box.length ≤ 1024 ∧
      ∃ row, FaceExp.stored overlong (run_face m) = .ok row ∧
        ∀ time_scaling, FaceDetectorSim.entry time_scaling row =
          .ok (exactEntry m time_scaling) := by
  intro h
  exact absurd (h .truncate crowd).1 (by decide +kernel)

end SmartDisk.FaceStore
