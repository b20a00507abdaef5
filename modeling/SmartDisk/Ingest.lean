import SmartDisk.KineticClient
import Mathlib.Data.List.TakeWhile

/-!
# `ingest` of `kinetic/tool.py`

The tool walks a directory tree and puts each file with the given suffix under its
name. A file above 5 MiB is skipped. A directory with the suffix is not filtered out; to open
it raises `IOError`, which ends the loop.

The puts are listed in the order of the calls, which is the order in which they reach
the drive. Each is forced, so the drive accepts them all. Symbolic links, the progress bar
and the figures of the throughput are left out.
-/
namespace SmartDisk.Ingest
open KineticClient

/-! ### Directory trees -/

/-- The name of a directory entry. -/
def Name := { name : Bytes // name ≠ [] ∧ 0 ∉ name ∧ 47 ∉ name }

/-- A directory, with the entries in the order the system lists them. -/
inductive Dir where
  | nil
  | file (name : Name) (content : Bytes) (rest : Dir)
  | dir (name : Name) (sub : Dir) (rest : Dir)

/-- A path below the root; a directory has no content to read. -/
structure Path where
  parents : List Name
  name : Name
  content : Option Bytes

def Dir.children (parents : List Name) : Dir → List Path
  | .nil => []
  | .file name content rest => ⟨parents, name, some content⟩ :: rest.children parents
  | .dir name _ rest => ⟨parents, name, none⟩ :: rest.children parents

/-- What lies in the subdirectories, at any depth. -/
def Dir.descendants (parents : List Name) : Dir → List Path
  | .nil => []
  | .file _ _ rest => rest.descendants parents
  | .dir name sub rest =>
      sub.children (parents ++ [name]) ++ sub.descendants (parents ++ [name]) ++ rest.descendants parents

/-- `rglob('*')`: the entries of a directory come before those of its subdirectories. -/
def Dir.rglob (d : Dir) : List Path := d.children [] ++ d.descendants []

/-- `str.rfind`. -/
def rfind (s : Bytes) (c : UInt8) : ℤ :=
  match s.reverse.idxOf? c with
  | some j => s.length - 1 - j
  | none => -1

/-- `PurePath.suffix`: a dot at the beginning or at the end makes none. -/
def Path.suffix (p : Path) : Bytes :=
  let name := p.name.1
  let i := rfind name 46
  if 0 < i ∧ i < name.length - 1 then name.drop i.toNat else []

example (parents : List Name) (content : Option Bytes) :
    (Path.mk parents ⟨[97, 46, 98, 46, 99], by decide⟩ content).suffix = [46, 99] ∧
      (Path.mk parents ⟨[46, 99], by decide⟩ content).suffix = [] := ⟨rfl, rfl⟩

/-- The default of `ext`. -/
def jpg : Bytes := [46, 106, 112, 103]

def Dir.matching (d : Dir) (ext : Bytes) : List Path := d.rglob.filter fun x => x.suffix = ext

/-! ### The loop -/

def MAX_FILE_LEN : ℕ := 5 * 1024 * 1024

structure Totals where
  puts : List (Key × Bytes) := []
  large_files : List (List Name) := []
  count : ℕ := 0
  size : ℕ := 0

inductive Outcome where
  | Success | IOError
  deriving DecidableEq

def Totals.add (s : Totals) (p : Path) (payload : Bytes) : Totals :=
  if payload.length > MAX_FILE_LEN then
    { s with large_files := s.large_files ++ [p.parents ++ [p.name]] }
  else
    { s with
      puts := s.puts ++ [(p.name.1, payload)]
      count := s.count + 1
      size := s.size + payload.length }

def ingest_loop (s : Totals) : List Path → Totals × Outcome
  | [] => (s, .Success)
  | p :: rest =>
      match p.content with
      | some payload => ingest_loop (s.add p payload) rest
      | none => (s, .IOError)

def ingest (d : Dir) (ext : Bytes) : Totals × Outcome := ingest_loop {} (d.matching ext)

/-- What the drive holds after the puts. -/
def put_all (store : Dict Key Bytes) (puts : List (Key × Bytes)) : Dict Key Bytes :=
  puts.foldl (fun store x => store.insert x.1 x.2) store

/-! ### What is stored -/

/-- The key and the value of a file. -/
def Path.file (p : Path) : Option (Key × Bytes) := p.content.map fun payload => (p.name.1, payload)

def Dir.files (d : Dir) (ext : Bytes) : List (Key × Bytes) := (d.matching ext).filterMap Path.file

/-- The figures that are printed are those of the puts. -/
def Totals.Correct (s : Totals) : Prop :=
  s.count = s.puts.length ∧ s.size = (s.puts.flatMap Prod.snd).length

theorem Totals.Correct.add {s : Totals} (h : s.Correct) (p : Path) (payload : Bytes) :
    (s.add p payload).Correct := by
  unfold Totals.add
  split
  · exact h
  · constructor
    · simp [h.1]
    · simp [h.2]

theorem correct_loop {s : Totals} (h : s.Correct) (ps : List Path) :
    (ingest_loop s ps).1.Correct := by
  induction ps generalizing s with
  | nil => exact h
  | cons p rest ih =>
      unfold ingest_loop
      split
      · exact ih (h.add p _)
      · exact h

theorem correct_ingest (d : Dir) (ext : Bytes) : (ingest d ext).1.Correct :=
  correct_loop ⟨rfl, rfl⟩ _

/-- Of the files before the first directory, those that are not too large. -/
theorem puts_loop (s : Totals) (ps : List Path) :
    (ingest_loop s ps).1.puts = s.puts ++
      ((ps.takeWhile fun p => p.content.isSome).filterMap Path.file).filter
        fun x => x.2.length ≤ MAX_FILE_LEN := by
  induction ps generalizing s with
  | nil => simp [ingest_loop]
  | cons p rest ih =>
      unfold ingest_loop
      cases hp : p.content with
      | none => simp [hp]
      | some payload =>
          simp only [ih, List.takeWhile_cons, hp, Option.isSome_some, if_true]
          rw [List.filterMap_cons_some (by simp [Path.file, hp]; rfl)]
          unfold Totals.add
          split
          · rw [List.filter_cons_of_neg (by simpa using ‹_›)]
          · rw [List.filter_cons_of_pos (by simpa using Nat.le_of_not_gt ‹_›)]
            simp

theorem puts_sublist (d : Dir) (ext : Bytes) : (ingest d ext).1.puts.Sublist (d.files ext) := by
  unfold ingest Dir.files
  rw [puts_loop, List.nil_append]
  exact List.filter_sublist.trans ((List.takeWhile_sublist _).filterMap _)

/-- Where no directory has the suffix, the tool comes to its end, and no file is forgotten. -/
theorem mem_puts_iff (d : Dir) (ext : Bytes) (hdirs : ∀ p ∈ d.matching ext, p.content ≠ none)
    (x : Key × Bytes) :
    x ∈ (ingest d ext).1.puts ↔ x ∈ d.files ext ∧ x.2.length ≤ MAX_FILE_LEN := by
  have hall : (d.matching ext).takeWhile (fun p => p.content.isSome) = d.matching ext := by
    rw [List.takeWhile_eq_self_iff]
    intro p hp
    exact Option.isSome_iff_ne_none.mpr (hdirs p hp)
  unfold ingest Dir.files
  rw [puts_loop, List.nil_append, hall, List.mem_filter]
  simp

/-! ### What the drive has -/

theorem lookup_put_all_of_notMem (store : Dict Key Bytes) {puts : List (Key × Bytes)} {key : Key}
    (h : key ∉ puts.map Prod.fst) : (put_all store puts).lookup key = store.lookup key := by
  unfold put_all
  induction puts generalizing store with
  | nil => rfl
  | cons x rest ih =>
      obtain ⟨hne, hrest⟩ := List.ne_and_not_mem_of_not_mem_cons h
      rw [List.foldl_cons, ih _ hrest, AList.lookup_insert_ne hne]

/-- A later put of another key leaves a value alone. -/
theorem lookup_put_all (store : Dict Key Bytes) {puts : List (Key × Bytes)}
    (hnodup : (puts.map Prod.fst).Nodup) {key : Key} {value : Bytes} (h : (key, value) ∈ puts) :
    (put_all store puts).lookup key = some value := by
  unfold put_all
  induction puts generalizing store with
  | nil => cases h
  | cons x rest ih =>
      obtain ⟨hnew, hrest⟩ := List.nodup_cons.mp hnodup
      rw [List.foldl_cons]
      obtain rfl | h := List.mem_cons.mp h
      · exact (lookup_put_all_of_notMem _ hnew).trans (AList.lookup_insert store)
      · exact ih _ hrest h

/-- With one file of each name, the drive has each stored file under its name. -/
theorem lookup_ingest (store : Dict Key Bytes) {d : Dir} {ext : Bytes}
    (hdistinct : ((d.files ext).map Prod.fst).Nodup) {key : Key} {content : Bytes}
    (h : (key, content) ∈ (ingest d ext).1.puts) :
    (put_all store (ingest d ext).1.puts).lookup key = some content :=
  lookup_put_all store (hdistinct.sublist ((puts_sublist d ext).map Prod.fst)) h

theorem ne_nil_of_mem_puts {d : Dir} {ext : Bytes} {x : Key × Bytes}
    (h : x ∈ (ingest d ext).1.puts) : x.1 ≠ [] := by
  obtain ⟨p, -, hp⟩ := List.mem_filterMap.mp ((puts_sublist d ext).subset h)
  obtain ⟨payload, -, rfl⟩ := Option.map_eq_some_iff.mp hp
  exact p.name.2.1

end SmartDisk.Ingest
