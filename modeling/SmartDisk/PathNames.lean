import SmartDisk.SmartClient

/-!
# Files below a directory

A file below a directory is known by the names that lead to it. `pathlib` keeps
such names apart, `os.path` keeps one string; both name the same file when the
string has the same names after empty ones and `.` are dropped.
-/
namespace SmartDisk.PathNames
open StorageSim SmartClient DecoderQueue

/-! ### Names in a directory -/

/-- What may stand in a directory beside `.` and `..`. -/
structure Plain (name : Path) : Prop where
  ne_nil : name ≠ []
  ne_dot : name ≠ ['.']
  ne_dotdot : name ≠ ['.', '.']
  no_slash : '/' ∉ name

abbrev Name := {name : Path // Plain name}

theorem Plain.head_ne {name : Path} (h : Plain name) (s : Path) :
    (name ++ s).head? ≠ some '/' := by
  cases name with
  | nil => exact absurd rfl h.ne_nil
  | cons c name =>
      intro hc
      exact h.no_slash (Option.some.inj hc ▸ List.mem_cons_self)

/-- A name with a suffix of three letters. -/
theorem Plain.with_suffix {name stem : Path} (h : Plain name) (hstem : stem <+: name)
    {suffix : Path} (hlen : 3 ≤ suffix.length) (hslash : '/' ∉ suffix) :
    Plain (stem ++ suffix) := by
  have hlong : 3 ≤ (stem ++ suffix).length := by
    rw [List.length_append]
    omega
  refine ⟨?_, ?_, ?_, ?_⟩
  · intro he
    rw [he] at hlong
    cases hlong
  · intro he
    rw [he] at hlong
    exact absurd hlong (by decide)
  · intro he
    rw [he] at hlong
    exact absurd hlong (by decide)
  · intro hmem
    exact (List.mem_append.mp hmem).elim (fun hs => h.no_slash (hstem.subset hs)) hslash

/-- A file or directory, as it is found below another directory. -/
structure Entry where
  dirs : List Name
  name : Name
  deriving DecidableEq

def Entry.parts (e : Entry) : List Path := e.dirs.map (·.1) ++ [e.name.1]

theorem Entry.parts_injective {e e' : Entry} (h : e.parts = e'.parts) : e = e' := by
  obtain ⟨dirs, name⟩ := e
  obtain ⟨dirs', name'⟩ := e'
  obtain ⟨hdirs, hname⟩ := List.append_inj' h rfl
  have hdirs : dirs = dirs' := List.map_injective_iff.mpr Subtype.val_injective hdirs
  have hname : name = name' := Subtype.ext (List.singleton_inj.mp hname)
  rw [hdirs, hname]

/-- The path that leads to the entry. -/
def Entry.rel (e : Entry) : Path := ['/'].intercalate e.parts

theorem Entry.plain_parts (e : Entry) : ∀ c ∈ e.parts, Plain c := by
  intro c hc
  rcases List.mem_append.mp hc with hd | hn
  · obtain ⟨d, -, rfl⟩ := List.mem_map.mp hd
    exact d.2
  · rw [List.mem_singleton.mp hn]
    exact e.name.2

theorem Entry.parts_ne_nil (e : Entry) : e.parts ≠ [] := List.concat_ne_nil _ _

theorem Entry.splitOn_rel (e : Entry) : e.rel.splitOn '/' = e.parts :=
  List.splitOn_intercalate '/' (fun c hc => (e.plain_parts c hc).no_slash) e.parts_ne_nil

/-- The directories, each with its slash. -/
def Entry.lead (e : Entry) : Path := e.dirs.flatMap (·.1 ++ ['/'])

theorem Entry.rel_eq (e : Entry) : e.rel = e.lead ++ e.name.1 := by
  obtain ⟨dirs, name⟩ := e
  unfold Entry.rel Entry.parts Entry.lead
  induction dirs with
  | nil => exact List.intercalate_singleton
  | cons d dirs ih =>
      rw [List.map_cons, List.cons_append,
        List.intercalate_cons_of_ne_nil (List.concat_ne_nil _ _), ih, List.flatMap_cons,
        List.append_assoc]
      simp only [List.append_assoc]

theorem Entry.head_ne (e : Entry) : e.rel.head? ≠ some '/' := by
  obtain ⟨dirs, name⟩ := e
  rw [Entry.rel_eq]
  unfold Entry.lead
  cases dirs with
  | nil =>
      have := name.2.head_ne []
      rwa [List.append_nil] at this
  | cons d dirs =>
      rw [List.flatMap_cons, List.append_assoc, List.append_assoc]
      exact d.2.head_ne _

/-! ### `pathlib` -/

/-- The suffix of a name. A dot in the first or the last place starts none. -/
def suffix (name : Path) : Path :=
  let ext := (name.reverse.takeWhile (· ≠ '.')).reverse
  if ext ≠ [] ∧ ext.length + 1 < name.length then '.' :: ext else []

def stem (name : Path) : Path := name.take (name.length - (suffix name).length)

/-- A path is absolute or not, and has parts. -/
structure PurePath where
  root : Bool
  parts : List Path
  deriving DecidableEq, Repr

/-- `pathlib.Path(p)`, which drops empty parts and `.`. Two strings with the same path name
the same file. -/
def PurePath.parse (p : Path) : PurePath :=
  ⟨p.head? = some '/', (p.splitOn '/').filter fun c => c ≠ [] ∧ c ≠ ['.']⟩

def PurePath.div (p q : PurePath) : PurePath :=
  if q.root then q else ⟨p.root, p.parts ++ q.parts⟩

def PurePath.relative_to (p q : PurePath) : Except SmartClient.Exn PurePath :=
  if p.root = q.root ∧ q.parts <+: p.parts then .ok ⟨false, p.parts.drop q.parts.length⟩
  else .error .ValueError

def PurePath.name (p : PurePath) : Path := p.parts.getLastD []

def PurePath.with_suffix (p : PurePath) (ext : Path) : Except SmartClient.Exn PurePath :=
  if '/' ∈ ext ∨ ext = ['.'] ∨ (ext ≠ [] ∧ ext.head? ≠ some '.') ∨ p.name = [] then
    .error .ValueError
  else .ok ⟨p.root, p.parts.dropLast ++ [stem p.name ++ ext]⟩

def Entry.path (e : Entry) : PurePath := ⟨false, e.parts⟩

/-- What follows the last dot, when there is one. -/
theorem last_dot {name : Path}
    (h : (name.reverse.takeWhile (· ≠ '.')).length < name.length) :
    ∃ before, name = before ++ '.' :: (name.reverse.takeWhile (· ≠ '.')).reverse := by
  have hsplit := List.takeWhile_append_dropWhile (p := (· ≠ '.')) (l := name.reverse)
  cases hrest : name.reverse.dropWhile (· ≠ '.') with
  | nil =>
      rw [hrest, List.append_nil] at hsplit
      rw [hsplit, List.length_reverse] at h
      exact absurd h (Nat.lt_irrefl _)
  | cons c rest =>
      have hc : c = '.' := by
        have := List.head?_dropWhile_not (· ≠ '.') name.reverse
        rw [hrest] at this
        simpa using this
      refine ⟨rest.reverse, ?_⟩
      calc name = (name.reverse.takeWhile (· ≠ '.') ++ c :: rest).reverse := by
            rw [← hrest, hsplit, List.reverse_reverse]
        _ = rest.reverse ++ '.' :: (name.reverse.takeWhile (· ≠ '.')).reverse := by
            rw [List.reverse_append, List.reverse_cons, List.append_assoc, hc]
            rfl

theorem suffix_isSuffix (name : Path) : suffix name <:+ name := by
  unfold suffix
  by_cases h : (name.reverse.takeWhile (· ≠ '.')).reverse ≠ [] ∧
      (name.reverse.takeWhile (· ≠ '.')).reverse.length + 1 < name.length
  · have hlt := h.2
    rw [List.length_reverse] at hlt
    obtain ⟨before, hbefore⟩ := last_dot (Nat.lt_of_succ_lt hlt)
    rw [if_pos h]
    exact ⟨before, hbefore.symm⟩
  · rw [if_neg h]
    exact List.nil_suffix

theorem stem_append (name : Path) : stem name ++ suffix name = name :=
  List.suffix_iff_eq_append.mp (suffix_isSuffix name)

theorem stem_leads (name : Path) : stem name <+: name := List.take_prefix _ _

theorem Entry.div_path_injective {dir : PurePath} {e e' : Entry}
    (h : dir.div e.path = dir.div e'.path) : e = e' :=
  Entry.parts_injective (List.append_cancel_left (congrArg PurePath.parts h))

theorem Entry.relative_path (e : Entry) (src : PurePath) :
    (src.div e.path).relative_to src = .ok e.path := by
  unfold PurePath.relative_to PurePath.div Entry.path
  simp only [Bool.false_eq_true, if_false, List.prefix_append, and_self, if_true,
    List.drop_left]

theorem Entry.name_path (e : Entry) (dir : PurePath) : (dir.div e.path).name = e.name.1 := by
  unfold PurePath.name PurePath.div Entry.path Entry.parts
  simp only [Bool.false_eq_true, if_false, ← List.append_assoc, List.getLastD_concat]

/-- The entry beside `e` with another name. -/
def Entry.rename (e : Entry) (name : Name) : Entry := { e with name }

/-- `with_suffix` gives the last part another suffix. -/
theorem Entry.with_suffix_path (e : Entry) (dir : PurePath) {ext : Path}
    (hslash : '/' ∉ ext) (hdot : ext.head? = some '.') (hlong : ext ≠ ['.'])
    {name : Name} (hname : name.1 = stem e.name.1 ++ ext) :
    (dir.div e.path).with_suffix ext = .ok (dir.div (e.rename name).path) := by
  unfold PurePath.with_suffix
  rw [Entry.name_path, if_neg]
  · unfold PurePath.div Entry.path Entry.rename Entry.parts
    simp only [Bool.false_eq_true, if_false, ← List.append_assoc, List.dropLast_concat, hname]
  · rintro (h | h | h | h)
    · exact hslash h
    · exact hlong h
    · exact h.2 hdot
    · exact e.name.2.ne_nil h

/-! ### Joined strings -/

/-- Joining splits at a slash, whether the directory ends in one or not. -/
theorem splitOn_join (dir rel : Path) (hrel : rel.head? ≠ some '/') :
    ∃ front, (dir.splitOn '/' = front ∨ dir.splitOn '/' = front ++ [[]]) ∧
      (join dir rel).splitOn '/' = front ++ rel.splitOn '/' := by
  unfold join
  rw [if_neg hrel]
  by_cases hnil : dir = []
  · rw [if_pos (Or.inl hnil), hnil]
    exact ⟨[], .inr rfl, rfl⟩
  · by_cases hlast : dir.getLast? = some '/'
    · obtain ⟨dir, rfl⟩ := List.getLast?_eq_some_iff.mp hlast
      refine ⟨dir.splitOn '/', .inr ?_, ?_⟩
      · exact List.splitOn_append_cons_self dir []
      · rw [if_pos (Or.inr hlast), List.append_assoc]
        exact List.splitOn_append_cons_self dir rel
    · rw [if_neg (not_or_intro hnil hlast)]
      exact ⟨dir.splitOn '/', .inl rfl, List.splitOn_append_cons_self dir rel⟩

theorem head_join (dir rel : Path) (hrel : rel.head? ≠ some '/') :
    (join dir rel).head? = some '/' ↔ dir.head? = some '/' := by
  unfold join
  rw [if_neg hrel]
  cases dir with
  | nil =>
      rw [if_pos (Or.inl rfl), List.nil_append]
      exact ⟨fun h => absurd h hrel, fun h => absurd h (by decide)⟩
  | cons c dir =>
      split <;> exact Iff.rfl

/-- Both libraries mean the same file below a directory. -/
theorem parse_join (dir : Path) (e : Entry) :
    PurePath.parse (join dir e.rel) = (PurePath.parse dir).div e.path := by
  obtain ⟨front, hfront, hjoin⟩ := splitOn_join dir e.rel e.head_ne
  have hparts : (e.parts.filter fun c => c ≠ [] ∧ c ≠ ['.']) = e.parts := by
    apply List.filter_eq_self.mpr
    intro c hc
    exact decide_eq_true ⟨(e.plain_parts c hc).ne_nil, (e.plain_parts c hc).ne_dot⟩
  have hdir : ((dir.splitOn '/').filter fun c => c ≠ [] ∧ c ≠ ['.']) =
      front.filter fun c => c ≠ [] ∧ c ≠ ['.'] := by
    rcases hfront with h | h
    · rw [h]
    · rw [h, List.filter_append]
      exact List.append_nil _
  unfold PurePath.parse PurePath.div Entry.path
  rw [hjoin, Entry.splitOn_rel, List.filter_append, hparts, hdir]
  simp only [Bool.false_eq_true, if_false, head_join dir e.rel e.head_ne]

theorem Entry.lead_last (e : Entry) : e.lead = [] ∨ e.lead.getLast? = some '/' := by
  unfold Entry.lead
  rcases List.eq_nil_or_concat e.dirs with h | ⟨dirs, d, h⟩
  · rw [h]
    exact .inl rfl
  · rw [h, List.concat_eq_append, List.flatMap_append, List.flatMap_singleton,
      ← List.append_assoc]
    exact .inr List.getLast?_concat

/-- What stands before the name of an entry is empty or ends in a slash. -/
theorem join_rename (dir : Path) (e : Entry) :
    ∃ front, (front = [] ∨ front.getLast? = some '/') ∧
      ∀ name, join dir (e.rename name).rel = front ++ name.1 := by
  have hrel : ∀ name, (e.rename name).rel = e.lead ++ name.1 := fun name => Entry.rel_eq _
  by_cases hdir : dir = [] ∨ dir.getLast? = some '/'
  · refine ⟨dir ++ e.lead, ?_, fun name => ?_⟩
    · rcases e.lead_last with h | h
      · rwa [h, List.append_nil]
      · right
        rw [List.getLast?_append, h]
        rfl
    · unfold join
      rw [if_neg (Entry.head_ne _), if_pos hdir, hrel, List.append_assoc]
  · refine ⟨dir ++ '/' :: e.lead, .inr ?_, fun name => ?_⟩
    · rw [List.getLast?_append]
      rcases e.lead_last with h | h
      · rw [h]
        rfl
      · rw [List.getLast?_cons, h]
        rfl
    · unfold join
      rw [if_neg (Entry.head_ne _), if_neg hdir, hrel, List.append_assoc]
      rfl

/-! ### `os.path.relpath` -/

theorem normalize_plain {comps parts : List Path} (h : ∀ c ∈ parts, Plain c) :
    parts.foldl normalize comps = comps ++ parts := by
  induction parts generalizing comps with
  | nil => exact (List.append_nil _).symm
  | cons c parts ih =>
      have hc := h c List.mem_cons_self
      have hstep : normalize comps c = comps ++ [c] := by
        change (if c = [] ∨ c = ['.'] then comps
          else if c = ['.', '.'] then comps.dropLast else comps ++ [c]) = _
        rw [if_neg (not_or_intro hc.ne_nil hc.ne_dot), if_neg hc.ne_dotdot]
      rw [List.foldl_cons, hstep, ih fun c hc => h c (List.mem_cons_of_mem _ hc),
        List.append_assoc, List.singleton_append]

theorem dropCommon_append (as bs : List Path) : dropCommon as (as ++ bs) = ([], bs) := by
  induction as with
  | nil => rfl
  | cons a as ih => rw [List.cons_append, dropCommon, if_pos rfl, ih]

/-- A path, read from the working directory. -/
def full (cwd path : Path) : Path :=
  if path.head? = some '/' then path else cwd ++ '/' :: path

theorem abspath_full (cwd path : Path) :
    abspath cwd path = ((full cwd path).splitOn '/').foldl normalize [] := rfl

theorem full_join (cwd dir rel : Path) (hrel : rel.head? ≠ some '/') :
    full cwd (join dir rel) = join (full cwd dir) rel := by
  unfold full
  by_cases hdir : dir.head? = some '/'
  · rw [if_pos ((head_join dir rel hrel).mpr hdir), if_pos hdir]
  · rw [if_neg fun h => hdir ((head_join dir rel hrel).mp h), if_neg hdir]
    unfold join
    rw [if_neg hrel, if_neg hrel]
    by_cases hnil : dir = []
    · have hlast : (cwd ++ ['/']).getLast? = some '/' := List.getLast?_concat
      rw [hnil, if_pos (Or.inl rfl), if_pos (Or.inr hlast), List.append_assoc]
      rfl
    · have hne : cwd ++ '/' :: dir ≠ [] := List.append_ne_nil_of_right_ne_nil _ (by simp)
      have hlast : (cwd ++ '/' :: dir).getLast? = dir.getLast? := by
        rw [List.getLast?_append_of_ne_nil _ (by simp)]
        cases dir with
        | nil => exact absurd rfl hnil
        | cons c dir => exact List.getLast?_cons_cons
      simp only [hnil, hne, hlast, false_or]
      split
      · rw [List.append_assoc, List.cons_append]
      · rw [List.append_assoc, List.cons_append]

theorem abspath_join (cwd dir : Path) (e : Entry) :
    abspath cwd (join dir e.rel) = abspath cwd dir ++ e.parts := by
  obtain ⟨front, hfront, hjoin⟩ := splitOn_join (full cwd dir) e.rel e.head_ne
  have hdir : ((full cwd dir).splitOn '/').foldl normalize [] = front.foldl normalize [] := by
    rcases hfront with h | h
    · rw [h]
    · rw [h, List.foldl_append]
      rfl
  rw [abspath_full, abspath_full, full_join cwd dir e.rel e.head_ne, hjoin, hdir,
    List.foldl_append, Entry.splitOn_rel, normalize_plain e.plain_parts]

/-- Below its directory an entry has its own path. -/
theorem relpath_join (cwd dir : Path) (e : Entry) :
    relpath cwd (join dir e.rel) dir = .ok e.rel := by
  obtain ⟨front, -, hfront⟩ := join_rename dir e
  have hne : join dir e.rel ≠ [] := by
    rw [show e.rel = (e.rename e.name).rel from rfl, hfront]
    exact List.append_ne_nil_of_right_ne_nil _ e.name.2.ne_nil
  unfold relpath
  rw [if_neg hne, abspath_join, dropCommon_append]
  simp only [List.length_nil, List.replicate_zero, List.nil_append, e.parts_ne_nil, if_false]
  rfl

/-! ### `os.path.splitext` -/

/-- A name that is a suffix after dots only has no extension for `os.path`. -/
theorem splitext_name {front name : Path} (hfront : front = [] ∨ front.getLast? = some '/')
    (hname : '/' ∉ name) {letters before : Path} (hletters : '.' ∉ letters)
    (h : name = before ++ '.' :: letters) :
    splitext (front ++ name) =
      if before.any (· ≠ '.') then (front ++ before, '.' :: letters) else (front ++ name, []) := by
  have hbase : basename (front ++ name) = name := by
    unfold basename
    have hall : ∀ c ∈ name.reverse, decide (c ≠ '/') = true := fun c hc =>
      decide_eq_true fun he => hname (he ▸ List.mem_reverse.mp hc)
    rw [List.reverse_append, List.takeWhile_append_of_pos hall]
    rcases hfront with h | h
    · rw [h, List.reverse_nil, List.takeWhile_nil, List.append_nil, List.reverse_reverse]
    · obtain ⟨front, rfl⟩ := List.getLast?_eq_some_iff.mp h
      rw [List.reverse_concat, List.takeWhile_cons_of_neg (by decide), List.append_nil,
        List.reverse_reverse]
  have hext : (name.reverse.takeWhile (· ≠ '.')).reverse = letters := by
    have hall : ∀ c ∈ letters.reverse, decide (c ≠ '.') = true := fun c hc =>
      decide_eq_true fun he => hletters (he ▸ List.mem_reverse.mp hc)
    rw [h, List.reverse_append, List.reverse_cons, List.append_assoc,
      List.takeWhile_append_of_pos hall, List.singleton_append,
      List.takeWhile_cons_of_neg (by decide), List.append_nil, List.reverse_reverse]
  have hbefore : name.take (name.length - letters.length - 1) = before := by
    have hlen : name.length - letters.length - 1 = before.length := by
      rw [h, List.length_append, List.length_cons]
      omega
    rw [hlen, h, List.take_left]
  have hcut : (front ++ name).length - letters.length - 1 = (front ++ before).length := by
    rw [h, List.length_append, List.length_append, List.length_append, List.length_cons]
    omega
  have hsplit : (front ++ name).splitAt (front ++ before).length =
      (front ++ before, '.' :: letters) := by
    rw [List.splitAt_eq, h, ← List.append_assoc, List.take_left, List.drop_left]
  unfold splitext
  simp only [hbase, hext, hbefore, hcut, hsplit]

end SmartDisk.PathNames
