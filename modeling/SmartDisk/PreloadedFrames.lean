import SmartDisk.PathNames
import SmartDisk.LookupTable

/-!
# Frames loaded in advance

With `preload` the constructor of `SmartStorageClient` walks through the directory of the
decoded frames, reads every picture it meets and keeps it under the path it met it at.
`decode_video` then asks this table under a path that it puts together by itself. The walk
leaves out directories behind symbolic links, through which a plain `cv2.imread` reads.

The files do not change between the walk and the calls. Patterns with brackets are left out
of `fnmatch`.
-/
namespace SmartDisk.PreloadedFrames
open StorageSim hiding Exn get set
open PathNames SmartClient LookupTable KeptState

/-! ### A directory and the walk through it -/

/-- What stands in a directory, in the order it is listed. A link leads to a directory. -/
inductive Tree where
  | nil
  | file (name : Name) (rest : Tree)
  | dir (name : Name) (below rest : Tree)
  | link (name : Name) (below rest : Tree)

def Tree.filenames : Tree → List Name
  | .nil => []
  | .file name rest => name :: rest.filenames
  | .dir _ _ rest => rest.filenames
  | .link _ _ rest => rest.filenames

/-- The directories that `os.walk` descends into, each with its files. -/
def Tree.walk_below (followlinks : Bool) : Tree → Path → List (Path × List Name)
  | .nil, _ => []
  | .file _ rest, root => rest.walk_below followlinks root
  | .dir name below rest, root =>
      (join root name.1, below.filenames) :: below.walk_below followlinks (join root name.1) ++
        rest.walk_below followlinks root
  | .link name below rest, root =>
      (if followlinks then
        (join root name.1, below.filenames) :: below.walk_below followlinks (join root name.1)
      else []) ++ rest.walk_below followlinks root

/-- `os.walk`. -/
def walk (base_dir : Path) (followlinks : Bool) (t : Tree) : List (Path × List Name) :=
  (base_dir, t.filenames) :: t.walk_below followlinks base_dir

/-- `fnmatch.fnmatch`. -/
def fnmatch : (pattern name : Path) → Bool
  | [], name => name.isEmpty
  | '*' :: pattern, name => name.tails.any (fnmatch pattern)
  | '?' :: pattern, name => match name with
      | [] => false
      | _ :: name => fnmatch pattern name
  | d :: pattern, name => match name with
      | [] => false
      | c :: name => c = d && fnmatch pattern name

/-- `recursive_glob` of `s3dexp/utils.py`. -/
def recursive_glob (base_dir pattern : Path) (t : Tree) : List Path :=
  (walk base_dir false t).flatMap fun (root, filenames) =>
    (filenames.filter fun filename => fnmatch pattern filename.1).map fun filename =>
      join root filename.1

/-! ### The constructor -/

section
variable {Arr : Type}

/-- The table that `preload` fills. -/
def preload_lut (imread : Path → Except Exn (Option Arr)) (map_to_ppm_dir : Path) (t : Tree) :
    Except Exn (Path → Option (Option Arr)) := do
  let entries ← (recursive_glob map_to_ppm_dir "*.ppm".toList t).mapM fun path => do
    let arr ← imread path
    pure (path, arr)
  pure (fill entries)

/-- The constructor. There is a tree where `map_to_ppm_dir` is a directory. -/
def SmartStorageClient.init (cwd map_from_dir map_to_ppm_dir : Path) (preload : Bool)
    (from_isdir : Bool) (ppm : Option Tree) (imread : Path → Except Exn (Option Arr)) :
    Except Exn (SmartStorageClient Arr) := do
  let some t := ppm | throw .AssertionError
  if ¬ from_isdir then throw .AssertionError
  if preload then
    let lut ← preload_lut imread map_to_ppm_dir t
    pure ⟨cwd, map_from_dir, map_to_ppm_dir, some lut⟩
  else pure ⟨cwd, map_from_dir, map_to_ppm_dir, none⟩

end

/-! ### What the walk meets -/

/-- Is there a file with these directories and this name? -/
def Tree.Holds (followlinks : Bool) : Tree → List Name → Name → Prop
  | .nil, _, _ => False
  | .file n rest, dirs, name => (dirs = [] ∧ n = name) ∨ rest.Holds followlinks dirs name
  | .dir n below rest, dirs, name =>
      (∃ inner, dirs = n :: inner ∧ below.Holds followlinks inner name) ∨
        rest.Holds followlinks dirs name
  | .link n below rest, dirs, name =>
      (followlinks = true ∧ ∃ inner, dirs = n :: inner ∧ below.Holds followlinks inner name) ∨
        rest.Holds followlinks dirs name

theorem Tree.holds_nil (followlinks : Bool) (t : Tree) (name : Name) :
    t.Holds followlinks [] name ↔ name ∈ t.filenames := by
  induction t with
  | nil => exact iff_of_false id List.not_mem_nil
  | file n rest ih =>
      unfold Tree.Holds Tree.filenames
      rw [ih, List.mem_cons, eq_comm (a := name)]
      exact or_congr_left ⟨And.right, fun h => ⟨rfl, h⟩⟩
  | dir n below rest _ ih =>
      unfold Tree.Holds Tree.filenames
      rw [ih]
      refine or_iff_right ?_
      rintro ⟨inner, h, -⟩
      cases h
  | link n below rest _ ih =>
      unfold Tree.Holds Tree.filenames
      rw [ih]
      refine or_iff_right ?_
      rintro ⟨-, inner, h, -⟩
      cases h

/-- A file that is met is there. -/
theorem Tree.Holds.follow {t : Tree} {dirs : List Name} {name : Name}
    (h : t.Holds false dirs name) : t.Holds true dirs name := by
  induction t generalizing dirs with
  | nil => exact h
  | file n rest ih => exact h.imp_right fun h => ih h
  | dir n below rest ihbelow ih =>
      rcases h with ⟨inner, hdirs, h⟩ | h
      · exact .inl ⟨inner, hdirs, ihbelow h⟩
      · exact .inr (ih h)
  | link n below rest ihbelow ih =>
      rcases h with ⟨h, -⟩ | h
      · cases h
      · exact .inr (ih h)

/-- Where a directory below another one is. -/
def at_dirs (base_dir : Path) (dirs : List Name) : Path :=
  dirs.foldl (fun root name => join root name.1) base_dir

/-- A directory of the walk, with the directories that lead to it. -/
def Walked (followlinks : Bool) (t : Tree) (base_dir root : Path) (name : Name) : Prop :=
  ∃ dirs, dirs ≠ [] ∧ t.Holds followlinks dirs name ∧ root = at_dirs base_dir dirs

/-- Below one directory there are its own files and what is further below. -/
theorem mem_descend {followlinks : Bool} {base_dir root : Path} {name : Name} (n : Name)
    {below : Tree}
    (h : (∃ filenames, (root, filenames) ∈ below.walk_below followlinks (join base_dir n.1) ∧
        name ∈ filenames) ↔ Walked followlinks below (join base_dir n.1) root name) :
    (∃ filenames, (root, filenames) ∈ (join base_dir n.1, below.filenames) ::
        below.walk_below followlinks (join base_dir n.1) ∧ name ∈ filenames) ↔
      ∃ dirs, dirs ≠ [] ∧ (∃ inner, dirs = n :: inner ∧ below.Holds followlinks inner name) ∧
        root = at_dirs base_dir dirs := by
  constructor
  · rintro ⟨filenames, hmem, hname⟩
    rcases List.mem_cons.mp hmem with hown | hbelow
    · cases hown
      exact ⟨[n], List.cons_ne_nil _ _,
        ⟨[], rfl, (below.holds_nil followlinks name).mpr hname⟩, rfl⟩
    · obtain ⟨dirs, -, hholds, hroot⟩ := h.mp ⟨filenames, hbelow, hname⟩
      exact ⟨n :: dirs, List.cons_ne_nil _ _, ⟨dirs, rfl, hholds⟩, hroot⟩
  · rintro ⟨dirs, -, ⟨inner, rfl, hholds⟩, hroot⟩
    cases inner with
    | nil =>
        exact ⟨below.filenames, hroot ▸ List.mem_cons_self,
          (below.holds_nil followlinks name).mp hholds⟩
    | cons d inner =>
        obtain ⟨filenames, hmem, hname⟩ :=
          h.mpr ⟨d :: inner, List.cons_ne_nil _ _, hholds, hroot⟩
        exact ⟨filenames, List.mem_cons_of_mem _ hmem, hname⟩

theorem mem_walk_below (followlinks : Bool) (t : Tree) (base_dir root : Path) (name : Name) :
    (∃ filenames, (root, filenames) ∈ t.walk_below followlinks base_dir ∧ name ∈ filenames) ↔
      Walked followlinks t base_dir root name := by
  induction t generalizing base_dir with
  | nil =>
      refine iff_of_false ?_ ?_
      · rintro ⟨_, h, -⟩
        cases h
      · rintro ⟨_, -, h, -⟩
        exact h
  | file n rest ih =>
      refine (ih base_dir).trans ?_
      refine exists_congr fun dirs => and_congr_right fun hdirs => and_congr_left fun _ => ?_
      exact (or_iff_right fun h => hdirs h.1).symm
  | dir n below rest ihbelow ih =>
      unfold Walked Tree.walk_below Tree.Holds
      simp only [List.mem_append, or_and_right, and_or_left, exists_or]
      exact or_congr (mem_descend n (ihbelow _)) (ih base_dir)
  | link n below rest ihbelow ih =>
      unfold Walked Tree.walk_below Tree.Holds
      simp only [List.mem_append, or_and_right, and_or_left, exists_or]
      refine or_congr ?_ (ih base_dir)
      cases followlinks with
      | false => simp
      | true =>
          simp only [if_true, true_and]
          exact mem_descend n (ihbelow _)

/-- The walk lists each file under the directories that lead to it. -/
theorem mem_walk (followlinks : Bool) (t : Tree) (base_dir root : Path) (name : Name) :
    (∃ filenames, (root, filenames) ∈ walk base_dir followlinks t ∧ name ∈ filenames) ↔
      ∃ dirs, t.Holds followlinks dirs name ∧ root = at_dirs base_dir dirs := by
  constructor
  · rintro ⟨filenames, hmem, hname⟩
    rcases List.mem_cons.mp hmem with hown | hbelow
    · cases hown
      exact ⟨[], (t.holds_nil followlinks name).mpr hname, rfl⟩
    · obtain ⟨dirs, -, hholds⟩ :=
        (mem_walk_below followlinks t base_dir root name).mp ⟨filenames, hbelow, hname⟩
      exact ⟨dirs, hholds⟩
  · rintro ⟨dirs, hholds, hroot⟩
    cases dirs with
    | nil =>
        exact ⟨t.filenames, hroot ▸ List.mem_cons_self, (t.holds_nil followlinks name).mp hholds⟩
    | cons d dirs =>
        obtain ⟨filenames, hmem, hname⟩ := (mem_walk_below followlinks t base_dir root name).mpr
          ⟨d :: dirs, List.cons_ne_nil _ _, hholds, hroot⟩
        exact ⟨filenames, List.mem_cons_of_mem _ hmem, hname⟩

/-! ### The paths it lists -/

theorem join_nested (dir : Path) (d : Name) (e : Entry) :
    join (join dir d.1) e.rel = join dir (d.1 ++ '/' :: e.rel) := by
  have hd := d.2.head_ne []
  rw [List.append_nil] at hd
  have hlast : ∀ s : Path, (s ++ d.1).getLast? ≠ some '/' := by
    intro s h
    rw [List.getLast?_append_of_ne_nil _ d.2.ne_nil] at h
    exact d.2.no_slash (List.mem_of_getLast? h)
  have hfull : join dir d.1 ≠ [] ∧ (join dir d.1).getLast? ≠ some '/' := by
    unfold join
    rw [if_neg hd]
    split
    · exact ⟨List.append_ne_nil_of_right_ne_nil _ d.2.ne_nil, hlast dir⟩
    · refine ⟨List.append_ne_nil_of_right_ne_nil _ (List.cons_ne_nil _ _), ?_⟩
      have h := hlast (dir ++ ['/'])
      rwa [List.append_assoc] at h
  rw [join, if_neg e.head_ne, if_neg (not_or_intro hfull.1 hfull.2)]
  unfold join
  rw [if_neg hd, if_neg (d.2.head_ne _)]
  split
  · exact List.append_assoc _ _ _
  · exact List.append_assoc _ _ _

/-- The walk's path of a file is the path that leads to it from the directory. -/
theorem join_at_dirs (base_dir : Path) (e : Entry) :
    join (at_dirs base_dir e.dirs) e.name.1 = join base_dir e.rel := by
  obtain ⟨dirs, name⟩ := e
  induction dirs generalizing base_dir with
  | nil =>
      change _ = join base_dir (['/'].intercalate [name.1])
      rw [List.intercalate_singleton]
      rfl
  | cons d dirs ih =>
      change join (at_dirs (join base_dir d.1) dirs) name.1 = _
      rw [ih, join_nested]
      congr 1
      change _ = ['/'].intercalate (d.1 :: (dirs.map (·.1) ++ [name.1]))
      rw [List.intercalate_cons_of_ne_nil (List.concat_ne_nil _ _)]
      exact List.append_cons _ _ _

theorem join_rel_injective {base_dir : Path} {e e' : Entry}
    (h : join base_dir e.rel = join base_dir e'.rel) : e = e' := by
  have hparse := congrArg PurePath.parse h
  rw [parse_join, parse_join] at hparse
  exact Entry.div_path_injective hparse

theorem recursive_glob_iff (base_dir pattern path : Path) (t : Tree) :
    path ∈ recursive_glob base_dir pattern t ↔
      ∃ e : Entry, path = join base_dir e.rel ∧ t.Holds false e.dirs e.name ∧
        fnmatch pattern e.name.1 = true := by
  unfold recursive_glob
  rw [List.mem_flatMap]
  constructor
  · rintro ⟨⟨root, filenames⟩, hmem, hpath⟩
    obtain ⟨name, hname, rfl⟩ := List.mem_map.mp hpath
    obtain ⟨hname, hmatch⟩ := List.mem_filter.mp hname
    obtain ⟨dirs, hholds, rfl⟩ := (mem_walk false t base_dir root name).mp ⟨filenames, hmem, hname⟩
    exact ⟨⟨dirs, name⟩, join_at_dirs base_dir ⟨dirs, name⟩, hholds, hmatch⟩
  · rintro ⟨e, rfl, hholds, hmatch⟩
    obtain ⟨filenames, hmem, hname⟩ :=
      (mem_walk false t base_dir _ e.name).mpr ⟨e.dirs, hholds, rfl⟩
    exact ⟨_, hmem, List.mem_map.mpr ⟨e.name, List.mem_filter.mpr ⟨hname, hmatch⟩,
      join_at_dirs base_dir e⟩⟩

theorem mem_recursive_glob (base_dir pattern : Path) (t : Tree) (e : Entry) :
    join base_dir e.rel ∈ recursive_glob base_dir pattern t ↔
      t.Holds false e.dirs e.name ∧ fnmatch pattern e.name.1 = true := by
  rw [recursive_glob_iff]
  constructor
  · rintro ⟨e', he, h⟩
    rwa [join_rel_injective he]
  · intro h
    exact ⟨e, rfl, h⟩

/-! ### The pattern and the names of frames -/

theorem fnmatch_literal {pattern : Path} (h : '*' ∉ pattern ∧ '?' ∉ pattern) (name : Path) :
    fnmatch pattern name = true ↔ name = pattern := by
  induction pattern generalizing name with
  | nil => exact List.isEmpty_iff
  | cons d pattern ih =>
      have hstar : d ≠ '*' := fun he => h.1 (he ▸ List.mem_cons_self)
      have hquery : d ≠ '?' := fun he => h.2 (he ▸ List.mem_cons_self)
      have hrest := ih ⟨fun hm => h.1 (List.mem_cons_of_mem _ hm),
        fun hm => h.2 (List.mem_cons_of_mem _ hm)⟩
      cases name with
      | nil =>
          rw [fnmatch.eq_5 d pattern hstar hquery]
          exact iff_of_false Bool.false_ne_true (List.cons_ne_nil _ _).symm
      | cons c name =>
          rw [fnmatch.eq_6 d pattern c name hstar hquery, Bool.and_eq_true, decide_eq_true_iff,
            hrest, List.cons.injEq]

/-- A star in front leaves a suffix. -/
theorem fnmatch_star {pattern : Path} (h : '*' ∉ pattern ∧ '?' ∉ pattern) (name : Path) :
    fnmatch ('*' :: pattern) name = true ↔ pattern <:+ name := by
  change name.tails.any (fnmatch pattern) = true ↔ _
  rw [List.any_eq_true]
  constructor
  · rintro ⟨s, hs, hmatch⟩
    rw [← (fnmatch_literal h s).mp hmatch]
    exact (List.mem_tails s name).mp hs
  · intro hsuffix
    exact ⟨pattern, (List.mem_tails pattern name).mpr hsuffix, (fnmatch_literal h pattern).mpr rfl⟩

theorem basename_of_no_slash {name : Path} (h : '/' ∉ name) : basename name = name := by
  unfold basename
  have hall : ∀ c ∈ name.reverse, decide (c ≠ '/') = true := fun c hc =>
    decide_eq_true fun he => h (he ▸ List.mem_reverse.mp hc)
  have htake : (name.reverse ++ []).takeWhile (fun c => decide (c ≠ '/')) =
      name.reverse ++ [].takeWhile _ := List.takeWhile_append_of_pos hall
  rw [List.append_nil] at htake
  rw [htake, List.takeWhile_nil, List.append_nil, List.reverse_reverse]

theorem plain_of_mem {name : Path} {c : Char} (hc : c ∈ name) (hdot : c ≠ '.')
    (hslash : '/' ∉ name) : Plain name := by
  refine ⟨?_, ?_, ?_, hslash⟩
  · rintro rfl
    cases hc
  · rintro rfl
    exact hdot (List.mem_singleton.mp hc)
  · rintro rfl
    rcases List.mem_cons.mp hc with hc | hc
    · exact hdot hc
    · exact hdot (List.mem_singleton.mp hc)

/-- Without its extension a name is a name again. -/
theorem plain_splitext {name : Path} (h : Plain name) : Plain (splitext name).1 := by
  unfold splitext
  rw [basename_of_no_slash h.no_slash]
  simp only
  split
  · next hdots =>
      obtain ⟨c, hc, hdot⟩ := List.any_eq_true.mp hdots
      rw [List.splitAt_eq]
      exact plain_of_mem hc (of_decide_eq_true hdot) fun hslash =>
        h.no_slash (List.mem_of_mem_take hslash)
  · exact h

theorem plain_format06d (n : ℤ) : Plain (format06d n ++ ".ppm".toList) := by
  have hdigits : '/' ∉ Nat.toDigits 10 n.natAbs := fun hc =>
    absurd (Nat.isDigit_of_mem_toDigits (by decide) (by decide) hc) (by decide)
  have hpad : ∀ k, '/' ∉ (Nat.toDigits 10 n.natAbs).leftpad k '0' := by
    intro k hc
    rcases List.mem_append.mp hc with hc | hc
    · exact absurd (List.eq_of_mem_replicate hc) (by decide)
    · exact hdigits hc
  refine plain_of_mem (c := 'p') (List.mem_append_right _ (by decide)) (by decide) fun hslash => ?_
  rcases List.mem_append.mp hslash with hc | hc
  · unfold format06d at hc
    split at hc
    · rcases List.mem_cons.mp hc with hc | hc
      · exact absurd hc (by decide)
      · exact hpad 5 hc
    · exact hpad 6 hc
  · exact absurd hc (by decide)

/-- The file of a frame, below the directory that has the name of its video. -/
def frame_entry {path : Path} (h : Plain (basename path)) (frame_id : ℤ) : Entry :=
  ⟨[⟨(splitext (basename path)).1, plain_splitext h⟩],
    ⟨format06d (frame_id + 1) ++ ".ppm".toList, plain_format06d _⟩⟩

theorem frame_path (dir : Path) {path : Path} (h : Plain (basename path)) (frame_id : ℤ) :
    join (join dir (splitext (basename path)).1) (format06d (frame_id + 1) ++ ".ppm".toList) =
      join dir (frame_entry h frame_id).rel :=
  join_at_dirs dir (frame_entry h frame_id)

theorem is_ppm_iff (name : Path) :
    fnmatch "*.ppm".toList name = true ↔ ".ppm".toList <:+ name :=
  fnmatch_star (by decide) name

/-! ### The table -/

variable {Arr : Type} {imread : Path → Except Exn (Option Arr)}

/-- A loop over paths keeps each path with its picture, or raises what a picture raises. -/
theorem mapM_reads {paths : List Path} {entries : List (Path × Option Arr)}
    (h : (paths.mapM fun path => do
      let arr ← imread path
      pure (path, arr) : Except Exn (List (Path × Option Arr))) = .ok entries) :
    entries.map Prod.fst = paths ∧ ∀ e ∈ entries, imread e.1 = .ok e.2 := by
  induction paths generalizing entries with
  | nil =>
      cases h
      exact ⟨rfl, fun e he => absurd he List.not_mem_nil⟩
  | cons path paths ih =>
      rw [List.mapM_cons] at h
      cases hread : imread path with
      | error e =>
          rw [hread] at h
          cases h
      | ok arr =>
          rw [hread] at h
          cases hrest : (paths.mapM fun path => do
              let arr ← imread path
              pure (path, arr) : Except Exn (List (Path × Option Arr))) with
          | error e =>
              rw [hrest] at h
              cases h
          | ok rest =>
              rw [hrest] at h
              cases h
              obtain ⟨hfst, hreads⟩ := ih hrest
              refine ⟨congrArg (path :: ·) hfst, fun e he => ?_⟩
              rcases List.mem_cons.mp he with rfl | he
              · exact hread
              · exact hreads e he

theorem mapM_readable {paths : List Path} (h : ∀ path ∈ paths, ∃ arr, imread path = .ok arr) :
    ∃ entries, (paths.mapM fun path => do
      let arr ← imread path
      pure (path, arr) : Except Exn (List (Path × Option Arr))) = .ok entries := by
  induction paths with
  | nil => exact ⟨[], rfl⟩
  | cons path paths ih =>
      obtain ⟨arr, hread⟩ := h path List.mem_cons_self
      obtain ⟨rest, hrest⟩ := ih fun path hpath => h path (List.mem_cons_of_mem _ hpath)
      refine ⟨(path, arr) :: rest, ?_⟩
      rw [List.mapM_cons, hread, hrest]
      rfl

/-- The table has the pictures of the files that the walk meets, and no others. -/
theorem lut_of_preload {dir : Path} {t : Tree} {lut : Path → Option (Option Arr)}
    (h : preload_lut imread dir t = .ok lut) (path : Path) :
    (path ∈ recursive_glob dir "*.ppm".toList t →
      ∃ arr, imread path = .ok arr ∧ lut path = some arr) ∧
    (path ∉ recursive_glob dir "*.ppm".toList t → lut path = none) := by
  unfold preload_lut at h
  cases hmap : ((recursive_glob dir "*.ppm".toList t).mapM fun path => do
      let arr ← imread path
      pure (path, arr) : Except Exn (List (Path × Option Arr))) with
  | error e =>
      rw [hmap] at h
      cases h
  | ok entries =>
      rw [hmap] at h
      cases h
      obtain ⟨hfst, hreads⟩ := mapM_reads hmap
      constructor
      · intro hpath
        obtain ⟨arr, harr⟩ := Option.isSome_iff_exists.mp (fill_isSome (hfst ▸ hpath))
        exact ⟨arr, hreads _ (mem_of_fill harr), harr⟩
      · intro hpath
        cases hlut : fill entries path with
        | none => rfl
        | some arr => exact absurd (hfst ▸ List.mem_map_of_mem (mem_of_fill hlut)) hpath

/-! ### The two clients -/

/-- What `cv2.imread` gives below the directory: a picture for every `.ppm` file, `None` where
there is no file. It reads through links. -/
structure Pictures (imread : Path → Except Exn (Option Arr)) (dir : Path) (t : Tree) :
    Prop where
  there (e : Entry) : t.Holds true e.dirs e.name → ".ppm".toList <:+ e.name.1 →
    ∃ arr, imread (join dir e.rel) = .ok (some arr)
  missing (e : Entry) : ¬ t.Holds true e.dirs e.name → imread (join dir e.rel) = .ok none

/-- The walk meets the frame, if its file is there. -/
def Met (t : Tree) {path : Path} (h : Plain (basename path)) (frame_id : ℤ) : Prop :=
  let e := frame_entry h frame_id
  t.Holds true e.dirs e.name → t.Holds false e.dirs e.name

/-- The call finds the pictures of the directory, and asks for frames that the walk met. -/
def AsksMet (imread : Path → Except Exn (Option Arr)) (t : Tree) (c : Call Arr) : Prop :=
  c.imread = imread ∧ ∀ frame_id, c.op = .decode_video frame_id →
    ∃ h : Plain (basename c.path), Met t h frame_id

/-- Two results, but for a `KeyError` in place of a failed assertion. -/
def SameResult {α : Type} (preloaded plain : Except Exn α) : Prop :=
  preloaded = plain ∨ preloaded = .error .KeyError ∧ plain = .error .AssertionError

/-- The same result and the same socket, but for a `KeyError` in place of a failed assertion. -/
def Agree {α : Type} (preloaded plain : Except Exn α × Socket) : Prop :=
  SameResult preloaded.1 plain.1 ∧ preloaded.2 = plain.2

theorem SameResult.map {α β : Type} {x y : Except Exn α} (h : SameResult x y) (f : α → β) :
    SameResult (x.map f) (y.map f) := by
  rcases h with rfl | ⟨rfl, rfl⟩
  · exact .inl rfl
  · exact .inr ⟨rfl, rfl⟩

theorem exchange_agree {α : Type} (server : List Request → Body) (request : Request)
    {x y : Except Exn α} (h : SameResult x y) (s : Socket) :
    Agree ((exchange server request x).run.run s) ((exchange server request y).run.run s) := by
  rcases h with rfl | ⟨rfl, rfl⟩
  · exact ⟨.inl rfl, rfl⟩
  · by_cases hs : s.awaiting = true
    · rw [exchange_stuck server request _ hs, exchange_stuck server request _ hs]
      exact ⟨.inl rfl, rfl⟩
    · rw [exchange_raises server request rfl (Bool.eq_false_iff.mpr hs),
        exchange_raises server request rfl (Bool.eq_false_iff.mpr hs)]
      exact ⟨.inr ⟨rfl, rfl⟩, rfl⟩

/-- What follows on the result may raise for itself, and leaves the socket alone. -/
theorem Agree.bind {α β : Type} {x y : Client α} {f : α → Client β} {s : Socket}
    (h : Agree (x.run.run s) (y.run.run s)) :
    Agree ((x >>= f).run.run s) ((y >>= f).run.run s) := by
  obtain ⟨hresult, hsocket⟩ := h
  rcases hx : x.run.run s with ⟨rx, sx⟩
  rcases hy : y.run.run s with ⟨ry, sy⟩
  rw [hx, hy] at hresult hsocket
  change sx = sy at hsocket
  subst hsocket
  rcases hresult with hresult | ⟨hrx, hry⟩
  · change rx = ry at hresult
    subst hresult
    cases rx with
    | error e =>
        rw [bind_raises hx, bind_raises hy]
        exact ⟨.inl rfl, rfl⟩
    | ok a =>
        rw [bind_ok hx, bind_ok hy]
        exact ⟨.inl rfl, rfl⟩
  · change rx = _ at hrx
    change ry = _ at hry
    subst hrx hry
    rw [bind_raises hx, bind_raises hy]
    exact ⟨.inr ⟨rfl, rfl⟩, rfl⟩

section
variable (cwd map_from_dir : Path) {dir : Path} {t : Tree} {lut : Path → Option (Option Arr)}

/-- The two clients that the constructor gives. -/
def preloaded (dir : Path) (lut : Path → Option (Option Arr)) : SmartStorageClient Arr :=
  ⟨cwd, map_from_dir, dir, some lut⟩

def plain (Arr : Type) (dir : Path) : SmartStorageClient Arr := ⟨cwd, map_from_dir, dir, none⟩

variable {path : Path} (h : Plain (basename path)) (frame_id : ℤ)

theorem frame_is_ppm : ".ppm".toList <:+ (frame_entry h frame_id).name.1 := ⟨_, rfl⟩

/-- The end of `load_frame`. -/
def asserted (arr : Option Arr) : Except Exn Arr := arr.elim (.error .AssertionError) .ok

theorem preloaded_load_frame :
    (preloaded cwd map_from_dir dir lut).load_frame imread path frame_id =
      match lut (join dir (frame_entry h frame_id).rel) with
      | none => .error .KeyError
      | some arr => asserted arr := by
  rw [← frame_path]
  unfold SmartStorageClient.load_frame preloaded
  simp only
  cases lut _ <;> rfl

theorem plain_load_frame :
    (plain cwd map_from_dir Arr dir).load_frame imread path frame_id =
      (imread (join dir (frame_entry h frame_id).rel)).bind asserted := by
  rw [← frame_path]
  rfl

/-- A frame that the walk meets is loaded alike by both. -/
theorem load_frame_walked (hlut : preload_lut imread dir t = .ok lut)
    (hwalked : t.Holds false (frame_entry h frame_id).dirs (frame_entry h frame_id).name) :
    (preloaded cwd map_from_dir dir lut).load_frame imread path frame_id =
      (plain cwd map_from_dir Arr dir).load_frame imread path frame_id := by
  have hmem := (mem_recursive_glob dir "*.ppm".toList t (frame_entry h frame_id)).mpr
    ⟨hwalked, (is_ppm_iff _).mpr (frame_is_ppm h frame_id)⟩
  obtain ⟨arr, hread, hfound⟩ := (lut_of_preload hlut _).1 hmem
  rw [preloaded_load_frame cwd map_from_dir h frame_id,
    plain_load_frame cwd map_from_dir h frame_id, hread, hfound]
  rfl

theorem load_frame_unwalked (hlut : preload_lut imread dir t = .ok lut)
    (hwalked : ¬ t.Holds false (frame_entry h frame_id).dirs (frame_entry h frame_id).name) :
    (preloaded cwd map_from_dir dir lut).load_frame imread path frame_id = .error .KeyError := by
  have hmem : join dir (frame_entry h frame_id).rel ∉ recursive_glob dir "*.ppm".toList t :=
    fun hmem => hwalked ((mem_recursive_glob dir _ t _).mp hmem).1
  rw [preloaded_load_frame cwd map_from_dir h frame_id, (lut_of_preload hlut _).2 hmem]

theorem load_frame_there (hpictures : Pictures imread dir t)
    (hthere : t.Holds true (frame_entry h frame_id).dirs (frame_entry h frame_id).name) :
    ∃ arr, (plain cwd map_from_dir Arr dir).load_frame imread path frame_id = .ok arr := by
  obtain ⟨arr, hread⟩ := hpictures.there _ hthere (frame_is_ppm h frame_id)
  refine ⟨arr, ?_⟩
  rw [plain_load_frame cwd map_from_dir h frame_id, hread]
  rfl

theorem load_frame_missing (hpictures : Pictures imread dir t)
    (hthere : ¬ t.Holds true (frame_entry h frame_id).dirs (frame_entry h frame_id).name) :
    (plain cwd map_from_dir Arr dir).load_frame imread path frame_id = .error .AssertionError := by
  rw [plain_load_frame cwd map_from_dir h frame_id, hpictures.missing _ hthere]
  rfl

/-- The two clients load the same, exactly where the walk meets what is there. -/
theorem load_frame_iff (hpictures : Pictures imread dir t)
    (hlut : preload_lut imread dir t = .ok lut) :
    SameResult ((preloaded cwd map_from_dir dir lut).load_frame imread path frame_id)
      ((plain cwd map_from_dir Arr dir).load_frame imread path frame_id) ↔ Met t h frame_id := by
  constructor
  · intro hsame hthere
    by_contra hwalked
    obtain ⟨arr, harr⟩ := load_frame_there cwd map_from_dir h frame_id hpictures hthere
    rw [harr, load_frame_unwalked cwd map_from_dir h frame_id hlut hwalked] at hsame
    rcases hsame with hsame | ⟨-, hsame⟩ <;> cases hsame
  · intro hmet
    by_cases hwalked : t.Holds false (frame_entry h frame_id).dirs (frame_entry h frame_id).name
    · exact .inl (load_frame_walked cwd map_from_dir h frame_id hlut hwalked)
    · have hthere := fun hthere => hwalked (hmet hthere)
      exact .inr ⟨load_frame_unwalked cwd map_from_dir h frame_id hlut hwalked,
        load_frame_missing cwd map_from_dir h frame_id hpictures hthere⟩

/-- A call leaves both sockets in the same state. -/
theorem perform_agree (hpictures : Pictures imread dir t)
    (hlut : preload_lut imread dir t = .ok lut) (server : List Request → Body) {c : Call Arr}
    (hc : AsksMet imread t c) (s : Socket) :
    Agree ((c.perform (preloaded cwd map_from_dir dir lut) server).run.run s)
      ((c.perform (plain cwd map_from_dir Arr dir) server).run.run s) := by
  obtain ⟨hread, hmet⟩ := hc
  obtain ⟨op, path, timestamp, _⟩ := c
  change _ = imread at hread
  subst hread
  cases op with
  | decode_only => exact ⟨.inl rfl, rfl⟩
  | decode_face => exact ⟨.inl rfl, rfl⟩
  | decode_video frame_id =>
      obtain ⟨h, hmet⟩ := hmet frame_id rfl
      exact (exchange_agree server _
        ((load_frame_iff cwd map_from_dir h frame_id hpictures hlut).mpr hmet) s).bind.bind

theorem calls_agree (hpictures : Pictures imread dir t)
    (hlut : preload_lut imread dir t = .ok lut) (server : List Request → Body)
    {cs : List (Call Arr)} (hcs : ∀ c ∈ cs, AsksMet imread t c) (s : Socket) :
    calls (preloaded cwd map_from_dir dir lut) server cs s =
      calls (plain cwd map_from_dir Arr dir) server cs s := by
  induction cs using List.reverseRecOn with
  | nil => rfl
  | append_singleton cs c ih =>
      rw [calls_concat, calls_concat, ih fun c hc => hcs c (List.mem_append_left _ hc)]
      exact (perform_agree cwd map_from_dir hpictures hlut server (hcs c (by simp)) _).2

end

/-- With pictures in the directory the constructor returns with `preload` as without it. -/
theorem preload_returns {dir : Path} {t : Tree} (hpictures : Pictures imread dir t) :
    ∃ lut, preload_lut imread dir t = .ok lut := by
  have hreadable : ∀ path ∈ recursive_glob dir "*.ppm".toList t,
      ∃ arr, imread path = .ok arr := by
    intro path hpath
    obtain ⟨e, rfl, hholds, hmatch⟩ := (recursive_glob_iff dir _ path t).mp hpath
    obtain ⟨arr, harr⟩ := hpictures.there e hholds.follow ((is_ppm_iff _).mp hmatch)
    exact ⟨some arr, harr⟩
  obtain ⟨entries, hentries⟩ := mapM_readable hreadable
  exact ⟨fill entries, by rw [preload_lut, hentries]; rfl⟩

theorem decode_video_socket (client : SmartStorageClient Arr) (server : List Request → Body)
    (timestamp : ℚ) (path : Path) (frame_id : ℤ) :
    ((client.decode_video server timestamp imread path frame_id).run.run {}).2.awaiting = true ↔
      ∃ e, client.load_frame imread path frame_id = .error e := by
  unfold SmartStorageClient.decode_video
  rw [bind_state _ fun _ _ => rfl, exchange_socket server _ _ rfl]
  cases hload : client.load_frame imread path frame_id with
  | error e => exact iff_of_true rfl ⟨e, rfl⟩
  | ok arr =>
      refine iff_of_false Bool.false_ne_true ?_
      rintro ⟨e, he⟩
      cases he

/-- With `preload` a client answers, after any calls that ask for frames the walk meets, what it
answers without, if and only if the walk meets the file of this frame too, when it is there. -/
theorem preload_agrees (cwd map_from_dir : Path) {dir : Path} {t : Tree}
    (hpictures : Pictures imread dir t) :
    ∃ pre pla, SmartStorageClient.init cwd map_from_dir dir true true (some t) imread = .ok pre ∧
      SmartStorageClient.init cwd map_from_dir dir false true (some t) imread = .ok pla ∧
      ∀ path (h : Plain (basename path)) frame_id,
        (∀ server timestamp cs, (∀ c ∈ cs, AsksMet imread t c) →
          Agree ((pre.decode_video server timestamp imread path frame_id).run.run
              (calls pre server cs {}))
            ((pla.decode_video server timestamp imread path frame_id).run.run
              (calls pla server cs {}))) ↔ Met t h frame_id := by
  obtain ⟨lut, hlut⟩ := preload_returns hpictures
  refine ⟨preloaded cwd map_from_dir dir lut, plain cwd map_from_dir Arr dir, ?_, rfl, ?_⟩
  · unfold SmartStorageClient.init
    simp only [hlut]
    rfl
  intro path h frame_id
  constructor
  · intro hagree hthere
    by_contra hwalked
    have hsocket := (hagree (fun _ => .error .DecodeError) 0 [] (by simp)).2
    have hpre := (decode_video_socket (preloaded cwd map_from_dir dir lut)
      (fun _ => .error .DecodeError) 0 path frame_id).mpr
        ⟨_, load_frame_unwalked cwd map_from_dir h frame_id hlut hwalked⟩
    obtain ⟨arr, harr⟩ := load_frame_there cwd map_from_dir h frame_id hpictures hthere
    obtain ⟨e, he⟩ := (decode_video_socket (plain cwd map_from_dir Arr dir)
      (fun _ => .error .DecodeError) 0 path frame_id).mp (hsocket ▸ hpre)
    rw [harr] at he
    cases he
  · intro hmet server timestamp cs hcs
    rw [calls_agree cwd map_from_dir hpictures hlut server hcs]
    exact (exchange_agree server _
      ((load_frame_iff cwd map_from_dir h frame_id hpictures hlut).mpr hmet) _).bind

/-! ### A directory behind a link -/

def clip : Name := ⟨"clip".toList, plain_of_mem (c := 'c') (by decide) (by decide) (by decide)⟩

def old : Name := ⟨"old".toList, plain_of_mem (c := 'o') (by decide) (by decide) (by decide)⟩

def first : Name := ⟨format06d 1 ++ ".ppm".toList, plain_format06d 1⟩

/-- Two videos with one frame each, the second in a directory that is a link. -/
def videos : Tree := .dir clip (.file first .nil) (.link old (.file first .nil) .nil)

def readVideos (path : Path) : Except Exn (Option Unit) :=
  .ok (if path = join "/ppm".toList (Entry.rel ⟨[clip], first⟩) ∨
    path = join "/ppm".toList (Entry.rel ⟨[old], first⟩) then some () else none)

theorem videos_hold (dirs : List Name) (name : Name) :
    videos.Holds true dirs name ↔
      (⟨dirs, name⟩ : Entry) = ⟨[clip], first⟩ ∨ (⟨dirs, name⟩ : Entry) = ⟨[old], first⟩ := by
  simp only [videos, Tree.Holds, or_false, true_and, Entry.mk.injEq]
  constructor
  · rintro (⟨inner, rfl, rfl, rfl⟩ | ⟨inner, rfl, rfl, rfl⟩)
    · exact .inl ⟨rfl, rfl⟩
    · exact .inr ⟨rfl, rfl⟩
  · rintro (⟨rfl, rfl⟩ | ⟨rfl, rfl⟩)
    · exact .inl ⟨[], rfl, rfl, rfl⟩
    · exact .inr ⟨[], rfl, rfl, rfl⟩

theorem videos_pictures : Pictures readVideos "/ppm".toList videos := by
  constructor
  · intro e hthere _
    refine ⟨(), congrArg Except.ok (if_pos ?_)⟩
    rcases (videos_hold e.dirs e.name).mp hthere with he | he
    · exact .inl (congrArg (fun e => join "/ppm".toList (Entry.rel e)) he)
    · exact .inr (congrArg (fun e => join "/ppm".toList (Entry.rel e)) he)
  · intro e hthere
    refine congrArg Except.ok (if_neg fun hread => hthere ((videos_hold e.dirs e.name).mpr ?_))
    exact hread.imp join_rel_injective join_rel_injective

theorem plain_mp4 : Plain (basename "clip.mp4".toList) ∧ Plain (basename "old.mp4".toList) :=
  ⟨plain_of_mem (c := 'c') (by decide) (by decide) (by decide),
    plain_of_mem (c := 'o') (by decide) (by decide) (by decide)⟩

theorem preload_agrees_linked :
    ∃ pre pla, SmartStorageClient.init [] [] "/ppm".toList true true (some videos) readVideos =
        .ok pre ∧
      SmartStorageClient.init [] [] "/ppm".toList false true (some videos) readVideos = .ok pla ∧
      (∀ server timestamp cs, (∀ c ∈ cs, AsksMet readVideos videos c) →
        Agree ((pre.decode_video server timestamp readVideos "clip.mp4".toList 0).run.run
            (calls pre server cs {}))
          ((pla.decode_video server timestamp readVideos "clip.mp4".toList 0).run.run
            (calls pla server cs {}))) ∧
      ¬ ∀ server timestamp cs, (∀ c ∈ cs, AsksMet readVideos videos c) →
        Agree ((pre.decode_video server timestamp readVideos "old.mp4".toList 0).run.run
            (calls pre server cs {}))
          ((pla.decode_video server timestamp readVideos "old.mp4".toList 0).run.run
            (calls pla server cs {})) := by
  obtain ⟨pre, pla, hpre, hpla, hiff⟩ := preload_agrees [] [] videos_pictures
  refine ⟨pre, pla, hpre, hpla, (hiff _ plain_mp4.1 0).mpr ?_, fun h => ?_⟩
  · intro _
    exact .inl ⟨[], rfl, .inl ⟨rfl, rfl⟩⟩
  · have hmet := (hiff _ plain_mp4.2 0).mp h (.inr (.inl ⟨rfl, [], rfl, .inl ⟨rfl, rfl⟩⟩))
    rcases hmet with ⟨inner, hdirs, -⟩ | ⟨h, -⟩ | h
    · have hname : "old".toList = "clip".toList := congrArg Subtype.val (List.cons.inj hdirs).1
      exact absurd hname (by decide)
    · cases h
    · exact h

end SmartDisk.PreloadedFrames
