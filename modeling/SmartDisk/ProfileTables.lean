import SmartDisk.Databases
import SmartDisk.JsonText
import SmartDisk.LookupTable
import SmartDisk.StorageSim

/-!
# Simulators built from profile tables

`DecoderSim` and `FaceDetectorSim` of `s3dexp/sim` select rows of a table of measured
times, scale the times so that the whole of them is processed at a target rate, and keep
them in a dictionary under the file's basename. Rows are those of `s3dexp/db/models.py`
with all their columns set, without the id, and arithmetic is exact. Which rows a query
selects is up to the database.
-/
namespace SmartDisk.ProfileTables
open Databases StorageSim LookupTable JsonText

structure DecodeProfile where
  path : Path
  basename : Path
  size : ℤ
  width : ℕ
  height : ℕ
  decode_ms : ℚ
  hostname : Path
  deriving DecidableEq

structure FaceExp where
  expname : Path
  path : Path
  basename : Path
  device : Path
  disk : Path
  read_ms : ℚ
  decode_ms : ℚ
  total_ms : ℚ
  size : ℤ
  width : ℕ
  height : ℕ
  num_faces : ℕ
  box : List Char

/-- `'{}%'.format(base_dir)` -/
def below (base_dir : Path) : Path := base_dir ++ ['%']

/-- `'%.{}'.format(ext)` -/
def with_ext (ext : Path) : Path := '%' :: '.' :: ext

/-- Python's `/`, which raises on a zero divisor. -/
def quotient (a b : ℚ) : Except Exn ℚ := if b = 0 then .error .ZeroDivisionError else .ok (a / b)

/-- The loop that fills a `lut`, and the assertion behind it. -/
def fill_lut {ν : Type} (entries : List (Path × ν)) : Except Exn (Path → Option ν) :=
  if (keys entries).length = entries.length then .ok (fill entries) else .error .AssertionError

/-- `simpy.Resource` refuses a capacity that is not positive. -/
def resource (capacity : ℕ) : Except Exn Unit :=
  if 0 < capacity then .ok () else .error .ValueError

/-! ### `s3dexp/sim/decoder.py` -/

/-- `'cloudlet029'` -/
def cloudlet029 : Path := ['c', 'l', 'o', 'u', 'd', 'l', 'e', 't', '0', '2', '9']

structure DecoderSim where
  ext : Path
  capacity : ℕ
  time_scaling : ℚ
  lut : Path → Option (ℚ × ℤ × ℤ)

namespace DecoderSim

/-- The query for `profiles`. -/
def profiles (db : Database) (table : List DecodeProfile) (base_dir ext : Path) :
    List DecodeProfile :=
  table.filter fun p =>
    db.equal (.text p.hostname) (.text cloudlet029) && db.like p.path (below base_dir) &&
      db.like p.basename (with_ext ext)

def megapixels (p : DecodeProfile) : ℚ := p.height * p.width / 10 ^ 6

def seconds (p : DecodeProfile) : ℚ := p.decode_ms * (1 / 1000)

def entry (time_scaling : ℚ) (p : DecodeProfile) : Path × ℚ × ℤ × ℤ :=
  (basename p.path, seconds p * time_scaling, p.width, p.height)

def init (db : Database) (table : List DecodeProfile) (target_mpixps : ℚ) (base_dir : Path)
    (ext : Path := StorageSim.ext) (capacity : ℕ := 1) : Except Exn DecoderSim := do
  resource capacity
  let profiles := profiles db table base_dir ext
  let orig_mpixps ← quotient (profiles.map megapixels).sum (profiles.map seconds).sum
  let time_scaling ← quotient orig_mpixps target_mpixps
  let lut ← fill_lut (profiles.map (entry time_scaling))
  pure { ext, capacity, time_scaling, lut }

/-- `DecoderSim.decode`. -/
def decode {O : Type} (self : DecoderSim) (path : Path) : Proc O (ℤ × ℤ) := do
  require (endswith path self.ext)
  match self.lut (basename path) with
  | none => raise .KeyError
  | some (sim_elapsed, width, height) =>
      occupy .decoder sim_elapsed
      pure (width, height)

end DecoderSim

/-! ### `s3dexp/sim/face_detector.py` -/

structure FaceDetectorSim where
  ext : Path
  capacity : ℕ
  time_scaling : ℚ
  lut : Path → Option (ℚ × ℤ × ℤ × Json)

namespace FaceDetectorSim

/-- The query for `profiles`. -/
def profiles (db : Database) (table : List FaceExp) (base_dir ext : Path) : List FaceExp :=
  table.filter fun p => db.like p.path (below base_dir) && db.like p.basename (with_ext ext)

def seconds (p : FaceExp) : ℚ := (p.total_ms - p.decode_ms) * (1 / 1000)

/-- `json.loads` raises `ValueError`. -/
def entry (time_scaling : ℚ) (p : FaceExp) : Except Exn (Path × ℚ × ℤ × ℤ × Json) :=
  match loads p.box with
  | some boxes => .ok (basename p.path, seconds p * time_scaling, p.width, p.height, boxes)
  | none => .error .ValueError

def init (db : Database) (table : List FaceExp) (target_fps : ℚ) (base_dir : Path)
    (ext : Path := StorageSim.ext) (capacity : ℕ := 1) : Except Exn FaceDetectorSim := do
  resource capacity
  let profiles := profiles db table base_dir ext
  let orig_fps ← quotient profiles.length (profiles.map seconds).sum
  let time_scaling ← quotient orig_fps target_fps
  let lut ← fill_lut (← profiles.mapM (entry time_scaling))
  pure { ext, capacity, time_scaling, lut }

/-- `FaceDetectorSim.detect_face`. -/
def detect_face {O : Type} (self : FaceDetectorSim) (path : Path) : Proc O Json := do
  require (endswith path self.ext)
  match self.lut (basename path) with
  | none => raise .KeyError
  | some (sim_elapsed, _, _, boxes) =>
      occupy .face_detector sim_elapsed
      pure boxes

end FaceDetectorSim

end SmartDisk.ProfileTables
