import Mathlib.Tactic.LinearCombination
import SmartDisk.Calibration
import SmartDisk.DecoderQueue

/-!
# Calibration of the decoder of `s3dexp/smart`

`EmDecoder.__init__` scales by all rows of the profile table that it selects, and keeps one
row for each path: the last one. `DecoderSim.__init__` selects the rows of one host and
asserts that no two of them share a key, `EmDecoder.__init__` does neither. And `decode`
asserts that a path ends with `ext`, which the database's `LIKE` need not see to.
-/
namespace SmartDisk.EmCalibration
open Databases StorageSim LookupTable ProfileTables Calibration
open DecoderQueue (EmDecoder relpath)

/-- The query for `profiles`. -/
def profiles (db : Database) (table : List DecodeProfile) (map_from_dir ext : Path) :
    List DecodeProfile :=
  table.filter fun p => db.like p.path (below map_from_dir) && db.like p.basename (with_ext ext)

def entry (cwd map_from_dir : Path) (time_scaling : ℚ) (p : DecodeProfile) :
    Except Exn (Path × ℚ) := do
  let rel ← relpath cwd p.path map_from_dir
  pure (rel, DecoderSim.seconds p * time_scaling)

/-- `EmDecoder.__init__`; the working directory is what `os.path.relpath` looks at. -/
def init (cwd : Path) (db : Database) (table : List DecodeProfile) (target_mpixps : ℚ)
    (map_from_dir : Path) (ext : Path := StorageSim.ext) (init_time : ℚ) :
    Except Exn EmDecoder := do
  let profiles := profiles db table map_from_dir ext
  let orig_mpixps ←
    quotient (profiles.map DecoderSim.megapixels).sum (profiles.map DecoderSim.seconds).sum
  let time_scaling ← quotient orig_mpixps target_mpixps
  let entries ← profiles.mapM (entry cwd map_from_dir time_scaling)
  pure { ext, map_from_dir, lut := fill entries, next_available_time := init_time }

/-- One call of `decode` after the other, each with a path and the time of its arrival. -/
def serve (cwd : Path) : List (Path × ℚ) → EmDecoder → Except Exn EmDecoder
  | [], em => .ok em
  | (path, arrival_time) :: requests, em => do
      let (_, em) ← em.decode cwd arrival_time path
      serve cwd requests em

/-! ### Serving from a table -/

section
variable {cwd : Path} {em : EmDecoder}

/-- Requests that find the decoder busy are served one after the other. -/
theorem serve_backlog {time : Path → ℚ} (requests : List (Path × ℚ))
    (hknown : ∀ r ∈ requests, endswith r.1 em.ext = true ∧ 0 ≤ time r.1 ∧
      ∃ rel, relpath cwd r.1 em.map_from_dir = .ok rel ∧ em.lut rel = some (time r.1))
    (next : ℚ) (harrival : ∀ r ∈ requests, r.2 ≤ next) :
    serve cwd requests { em with next_available_time := next } = .ok { em with
      next_available_time := next + (requests.map fun r => time r.1).sum } := by
  induction requests generalizing next with
  | nil =>
    rw [List.map_nil, List.sum_nil, add_zero]
    rfl
  | cons r requests ih =>
    obtain ⟨hext, hpos, rel, hrel, hlut⟩ := hknown r List.mem_cons_self
    have hdecode : ({ em with next_available_time := next } : EmDecoder).decode cwd r.2 r.1 =
        .ok (next + time r.1, { em with next_available_time := next + time r.1 }) := by
      have hmax : max next r.2 = next := max_eq_left (harrival r List.mem_cons_self)
      simp only [EmDecoder.decode, hext, if_true, hrel, hmax, bind, Except.bind, hlut, pure,
        Except.pure]
    have hrest := ih (fun q hq => hknown q (List.mem_cons_of_mem _ hq)) (next + time r.1)
      fun q hq => (harrival q (List.mem_cons_of_mem _ hq)).trans (le_add_of_nonneg_right hpos)
    rw [List.map_cons, List.sum_cons, ← add_assoc, ← hrest, serve, hdecode]
    rfl

end

theorem decode_ok {cwd path : Path} {em em' : EmDecoder} {arrival_time eta : ℚ}
    (h : em.decode cwd arrival_time path = .ok (eta, em')) :
    endswith path em.ext = true ∧ em'.ext = em.ext := by
  unfold EmDecoder.decode at h
  split at h
  swap
  · cases h
  obtain ⟨rel, -, h⟩ := of_bind_ok h
  split at h
  · cases h
  · cases h
    exact ⟨‹_›, rfl⟩

/-- No request got past the assertion with another ending. -/
theorem serve_ok {cwd : Path} {requests : List (Path × ℚ)} {em em' : EmDecoder}
    (h : serve cwd requests em = .ok em') : ∀ r ∈ requests, endswith r.1 em.ext = true := by
  induction requests generalizing em with
  | nil => exact fun r hr => absurd hr List.not_mem_nil
  | cons r requests ih =>
    obtain ⟨⟨eta, next⟩, hdecode, hrest⟩ := of_bind_ok h
    obtain ⟨hends, hext⟩ := decode_ok hdecode
    intro q hq
    rcases List.mem_cons.mp hq with rfl | hq
    · exact hends
    · rw [← hext]
      exact ih hrest q hq

/-! ### The table that is built -/

section
variable {cwd map_from_dir ext : Path} {rows : List DecodeProfile} {target_mpixps init_time : ℚ}

/-- The row that the dictionary keeps for a path. -/
def kept (cwd map_from_dir : Path) (rows : List DecodeProfile) (path : Path) :
    Option DecodeProfile :=
  (rows.filter fun p =>
    relpath cwd p.path map_from_dir = relpath cwd path map_from_dir).getLast?

theorem exists_relpath (cwd start : Path) {path : Path} (h : path ≠ []) :
    ∃ rel, relpath cwd path start = .ok rel := by
  unfold relpath
  rw [if_neg h]
  exact ⟨_, rfl⟩

theorem mapM_entry (time_scaling : ℚ) (hrows : ∀ p ∈ rows, p.path ≠ []) :
    rows.mapM (entry cwd map_from_dir time_scaling) = .ok (rows.map fun p =>
      ((relpath cwd p.path map_from_dir).toOption.getD [],
        DecoderSim.seconds p * time_scaling)) := by
  induction rows with
  | nil => rfl
  | cons p rows ih =>
    obtain ⟨rel, hrel⟩ := exists_relpath cwd map_from_dir (hrows p List.mem_cons_self)
    rw [List.mapM_cons, ih fun q hq => hrows q (List.mem_cons_of_mem _ hq), entry, List.map_cons,
      hrel]
    rfl

/-- `os.path.relpath` raises on a path without a character, and the table is not built. -/
theorem mapM_entry_raises (time_scaling : ℚ) {p : DecodeProfile} (hp : p ∈ rows)
    (hpath : p.path = []) (entries : List (Path × ℚ)) :
    rows.mapM (entry cwd map_from_dir time_scaling) ≠ .ok entries := by
  intro h
  obtain ⟨e, -, hentry⟩ := mapM_ok h p hp
  obtain ⟨rel, hrel, -⟩ := of_bind_ok hentry
  rw [hpath] at hrel
  cases hrel

/-- What the dictionary has for a file is the scaled time of the row that it kept. -/
theorem lut_kept (time_scaling : ℚ) (hrows : ∀ p ∈ rows, p.path ≠ []) {path rel : Path}
    (hrel : relpath cwd path map_from_dir = .ok rel) :
    fill (rows.map fun p => ((relpath cwd p.path map_from_dir).toOption.getD [],
        DecoderSim.seconds p * time_scaling)) rel =
      (kept cwd map_from_dir rows path).map fun p => DecoderSim.seconds p * time_scaling := by
  have hfilter : (rows.filter fun p =>
      (relpath cwd p.path map_from_dir).toOption.getD [] = rel) = rows.filter fun p =>
        relpath cwd p.path map_from_dir = relpath cwd path map_from_dir := by
    apply List.filter_congr
    intro p hp
    obtain ⟨rel', hrel'⟩ := exists_relpath cwd map_from_dir (hrows p hp)
    rw [hrel', hrel]
    exact decide_eq_decide.mpr (by simp [Except.toOption])
  rw [fill_map, kept, hfilter]

variable (cwd map_from_dir) in
theorem kept_isSome (rows : List DecodeProfile) {p : DecodeProfile} (hp : p ∈ rows) :
    ∃ q ∈ rows, kept cwd map_from_dir rows p.path = some q := by
  have hmem : p ∈ rows.filter fun q =>
      relpath cwd q.path map_from_dir = relpath cwd p.path map_from_dir :=
    List.mem_filter.mpr ⟨hp, decide_eq_true rfl⟩
  have hne := List.ne_nil_of_mem hmem
  refine ⟨_, ?_, List.getLast?_eq_some_getLast hne⟩
  exact (List.mem_filter.mp (List.getLast_mem hne)).1

/-- The paths that were profiled, each once. -/
def paths (rows : List DecodeProfile) : List Path := (rows.map (·.path)).dedup

def keptSeconds (cwd map_from_dir : Path) (rows : List DecodeProfile) (path : Path) : ℚ :=
  ((kept cwd map_from_dir rows path).map DecoderSim.seconds).getD 0

def lastRow (rows : List DecodeProfile) (path : Path) : Option DecodeProfile :=
  (rows.filter fun p => p.path = path).getLast?

/-- The size of a picture; all rows of a path have the same width and height. -/
def area (rows : List DecodeProfile) (path : Path) : ℚ :=
  ((lastRow rows path).map DecoderSim.megapixels).getD 0

/-- The rows that are not the last one of their path. -/
def overwritten : List DecodeProfile → List DecodeProfile
  | [] => []
  | p :: rows =>
      if rows.any fun q => q.path = p.path then p :: overwritten rows else overwritten rows

theorem overwritten_of_mem {p : DecodeProfile} (h : p.path ∈ rows.map (·.path)) :
    overwritten (p :: rows) = p :: overwritten rows := by
  obtain ⟨q, hq, hpath⟩ := List.mem_map.mp h
  exact if_pos (List.any_eq_true.mpr ⟨q, hq, decide_eq_true hpath⟩)

theorem overwritten_of_notMem {p : DecodeProfile} (h : p.path ∉ rows.map (·.path)) :
    overwritten (p :: rows) = overwritten rows := by
  refine if_neg fun hany => ?_
  obtain ⟨q, hq, hpath⟩ := List.any_eq_true.mp hany
  exact h (List.mem_map.mpr ⟨q, hq, of_decide_eq_true hpath⟩)

/-- The measured time that is not served when each path is decoded once. -/
def unserved (cwd map_from_dir : Path) (rows : List DecodeProfile) : ℚ :=
  (rows.map DecoderSim.seconds).sum -
    ((paths rows).map (keptSeconds cwd map_from_dir rows)).sum

/-- Taken together, the rows that were overwritten have as many pixels for their time as those
that are served. -/
def SameRate (cwd map_from_dir : Path) (rows : List DecodeProfile) : Prop :=
  ((overwritten rows).map DecoderSim.megapixels).sum *
      ((paths rows).map (keptSeconds cwd map_from_dir rows)).sum =
    ((paths rows).map (area rows)).sum * unserved cwd map_from_dir rows

theorem mem_paths {path : Path} : path ∈ paths rows ↔ ∃ p ∈ rows, p.path = path := by
  unfold paths
  rw [List.mem_dedup, List.mem_map]

theorem lastRow_cons_of_mem {p : DecodeProfile} {path : Path} (h : path ∈ paths rows) :
    lastRow (p :: rows) path = lastRow rows path := by
  obtain ⟨q, hq, hpath⟩ := mem_paths.mp h
  have hne : (rows.filter fun p => p.path = path) ≠ [] :=
    List.ne_nil_of_mem (List.mem_filter.mpr ⟨hq, decide_eq_true hpath⟩)
  unfold lastRow
  rw [List.filter_cons]
  split
  · obtain ⟨r, rs, hrs⟩ := List.exists_cons_of_ne_nil hne
    rw [hrs, List.getLast?_cons_cons]
  · rfl

theorem lastRow_cons_self {p : DecodeProfile} (h : p.path ∉ rows.map (·.path)) :
    lastRow (p :: rows) p.path = some p := by
  have hnone : (rows.filter fun q => q.path = p.path) = [] := by
    apply List.filter_eq_nil_iff.mpr
    intro q hq hpath
    exact h (List.mem_map.mpr ⟨q, hq, of_decide_eq_true hpath⟩)
  unfold lastRow
  rw [List.filter_cons, if_pos (decide_eq_true rfl), hnone]
  rfl

/-- A table consists of the last rows of its paths and of those that were overwritten. -/
theorem sum_rows (f : DecodeProfile → ℚ) (rows : List DecodeProfile) : (rows.map f).sum =
    ((paths rows).map fun path => ((lastRow rows path).map f).getD 0).sum +
      ((overwritten rows).map f).sum := by
  induction rows with
  | nil => exact (add_zero _).symm
  | cons p rows ih =>
    have hrest : ∀ path ∈ paths rows, ((lastRow (p :: rows) path).map f).getD 0 =
        ((lastRow rows path).map f).getD 0 := by
      intro path hpath
      rw [lastRow_cons_of_mem hpath]
    by_cases hmem : p.path ∈ rows.map (·.path)
    · have hpaths : paths (p :: rows) = paths rows := List.dedup_cons_of_mem hmem
      rw [hpaths, List.map_congr_left hrest, overwritten_of_mem hmem, List.map_cons,
        List.sum_cons, List.map_cons, List.sum_cons, ih, add_left_comm]
    · have hpaths : paths (p :: rows) = p.path :: paths rows := List.dedup_cons_of_notMem hmem
      rw [hpaths, List.map_cons (f := fun path => ((lastRow (p :: rows) path).map f).getD 0),
        List.map_congr_left hrest, overwritten_of_notMem hmem, List.map_cons, List.sum_cons,
        List.sum_cons, lastRow_cons_self hmem, ih, add_assoc]
      rfl

/-- When no two paths name one file, what is not served is what was overwritten. -/
theorem unserved_eq (hfiles : ∀ p ∈ rows, ∀ q ∈ rows,
      relpath cwd p.path map_from_dir = relpath cwd q.path map_from_dir → p.path = q.path) :
    unserved cwd map_from_dir rows = ((overwritten rows).map DecoderSim.seconds).sum := by
  have hkept : ∀ path ∈ paths rows, keptSeconds cwd map_from_dir rows path =
      ((lastRow rows path).map DecoderSim.seconds).getD 0 := by
    intro path hpath
    obtain ⟨p, hp, rfl⟩ := mem_paths.mp hpath
    have hsame : (rows.filter fun q =>
        relpath cwd q.path map_from_dir = relpath cwd p.path map_from_dir) =
          rows.filter fun q => q.path = p.path := by
      apply List.filter_congr
      intro q hq
      exact decide_eq_decide.mpr ⟨hfiles q hq p hp, fun h => by rw [h]⟩
    unfold keptSeconds kept lastRow
    rw [hsame]
  unfold unserved
  rw [sum_rows, List.map_congr_left hkept, add_sub_cancel_left]

theorem overwritten_of_nodup (h : (rows.map (·.path)).Nodup) : overwritten rows = [] := by
  induction rows with
  | nil => rfl
  | cons p rows ih =>
    obtain ⟨hnew, hrest⟩ := List.nodup_cons.mp h
    rw [overwritten_of_notMem hnew, ih hrest]

/-- In particular a table with one row for each file has nothing to lose. -/
theorem sameRate_of_nodup (h : (rows.map fun p => relpath cwd p.path map_from_dir).Nodup) :
    SameRate cwd map_from_dir rows := by
  have hpaths : (rows.map (·.path)).Nodup :=
    List.Nodup.of_map (fun path => relpath cwd path map_from_dir) (by rwa [List.map_map])
  have hfiles : ∀ p ∈ rows, ∀ q ∈ rows,
      relpath cwd p.path map_from_dir = relpath cwd q.path map_from_dir → p.path = q.path := by
    intro p hp q hq hrel
    rw [List.inj_on_of_nodup_map h hp hq hrel]
  unfold SameRate
  rw [unserved_eq hfiles, overwritten_of_nodup hpaths]
  exact (zero_mul _).trans (mul_zero _).symm

/-- The time that a decoder built from these rows takes for a path. -/
def emulated (cwd map_from_dir : Path) (rows : List DecodeProfile) (target_mpixps : ℚ)
    (path : Path) : ℚ :=
  keptSeconds cwd map_from_dir rows path *
    ((rows.map DecoderSim.megapixels).sum / (rows.map DecoderSim.seconds).sum / target_mpixps)

theorem seconds_pos (hms : ∀ p ∈ rows, 0 < p.decode_ms) {p : DecodeProfile} (hp : p ∈ rows) :
    0 < DecoderSim.seconds p :=
  mul_pos (hms p hp) (by norm_num)

theorem sum_seconds_pos (hms : ∀ p ∈ rows, 0 < p.decode_ms) (hne : rows ≠ []) :
    0 < (rows.map DecoderSim.seconds).sum := by
  apply List.sum_pos
  · intro x hx
    obtain ⟨p, hp, rfl⟩ := List.mem_map.mp hx
    exact seconds_pos hms hp
  · simpa using hne

theorem sum_megapixels_nonneg (rows : List DecodeProfile) :
    0 ≤ (rows.map DecoderSim.megapixels).sum := by
  apply List.sum_nonneg
  intro x hx
  obtain ⟨p, -, rfl⟩ := List.mem_map.mp hx
  exact div_nonneg (mul_nonneg (Nat.cast_nonneg _) (Nat.cast_nonneg _)) (by norm_num)

variable {db : Database} {table : List DecodeProfile}

variable (cwd init_time) in
/-- A table that selects something, each row with a path, is accepted. -/
theorem init_accepts (hrows : profiles db table map_from_dir ext = rows)
    (hms : ∀ p ∈ rows, 0 < p.decode_ms) (htarget : 0 < target_mpixps) (hne : rows ≠ [])
    (hpaths : ∀ p ∈ rows, p.path ≠ []) :
    ∃ em, init cwd db table target_mpixps map_from_dir ext init_time = .ok em ∧
      em.ext = ext ∧ em.map_from_dir = map_from_dir ∧
      ∀ path ∈ paths rows, 0 ≤ emulated cwd map_from_dir rows target_mpixps path ∧
        ∃ rel, relpath cwd path map_from_dir = .ok rel ∧
          em.lut rel = some (emulated cwd map_from_dir rows target_mpixps path) := by
  have hsum := sum_seconds_pos hms hne
  have hinit : init cwd db table target_mpixps map_from_dir ext init_time = .ok
      { ext, map_from_dir, next_available_time := init_time
        lut := fill (rows.map fun p =>
          ((relpath cwd p.path map_from_dir).toOption.getD [], DecoderSim.seconds p *
            ((rows.map DecoderSim.megapixels).sum / (rows.map DecoderSim.seconds).sum /
              target_mpixps))) } := by
    unfold init
    simp only [hrows, quotient, if_neg hsum.ne', if_neg htarget.ne', bind, Except.bind,
      mapM_entry _ hpaths, pure, Except.pure]
  refine ⟨_, hinit, rfl, rfl, ?_⟩
  intro path hpath
  obtain ⟨p, hp, rfl⟩ := mem_paths.mp hpath
  obtain ⟨rel, hrel⟩ := exists_relpath cwd map_from_dir (hpaths p hp)
  obtain ⟨q, hq, hkept⟩ := kept_isSome cwd map_from_dir rows hp
  have htime : emulated cwd map_from_dir rows target_mpixps p.path =
      DecoderSim.seconds q *
        ((rows.map DecoderSim.megapixels).sum / (rows.map DecoderSim.seconds).sum /
          target_mpixps) := by
    unfold emulated keptSeconds
    rw [hkept]
    rfl
  refine ⟨?_, rel, hrel, ?_⟩
  · rw [htime]
    exact mul_nonneg (seconds_pos hms hq).le
      (div_nonneg (div_nonneg (sum_megapixels_nonneg _) hsum.le) htarget.le)
  · rw [htime]
    simp only [lut_kept _ hpaths hrel, hkept, Option.map_some]

/-- Each profiled path is decoded once, and the decoder is busy for `advance`. -/
def Advances (cwd : Path) (rows : List DecodeProfile) (em : EmDecoder) (advance : ℚ) : Prop :=
  ∀ requests, (requests.map Prod.fst).Perm (paths rows) →
    (∀ r ∈ requests, r.2 ≤ em.next_available_time) →
    ∃ em', serve cwd requests em = .ok em' ∧
      em'.next_available_time = em.next_available_time + advance

/-- One such order: that of the table, all at once. -/
def atOnce (rows : List DecodeProfile) (em : EmDecoder) : List (Path × ℚ) :=
  (paths rows).map fun path => (path, em.next_available_time)

theorem atOnce_perm (rows : List DecodeProfile) (em : EmDecoder) :
    ((atOnce rows em).map Prod.fst).Perm (paths rows) := by
  unfold atOnce
  rw [List.map_map]
  exact List.Perm.of_eq (List.map_id' _)

theorem atOnce_arrival (em : EmDecoder) : ∀ r ∈ atOnce rows em, r.2 ≤ em.next_available_time := by
  intro r hr
  obtain ⟨path, -, rfl⟩ := List.mem_map.mp hr
  exact le_rfl

theorem Advances.endswith {em : EmDecoder} {advance : ℚ} (h : Advances cwd rows em advance) :
    ∀ p ∈ rows, endswith p.path em.ext = true := by
  obtain ⟨em', hserve, -⟩ := h _ (atOnce_perm rows em) (atOnce_arrival em)
  intro p hp
  have hmem : (p.path, em.next_available_time) ∈ atOnce rows em :=
    List.mem_map_of_mem (mem_paths.mpr ⟨p, hp, rfl⟩)
  exact serve_ok hserve _ hmem

/-- The decoder is busy for the times that its table has. -/
theorem advances_iff {em : EmDecoder} {time : Path → ℚ}
    (hknown : ∀ path ∈ paths rows, StorageSim.endswith path em.ext = true ∧ 0 ≤ time path ∧
      ∃ rel, relpath cwd path em.map_from_dir = .ok rel ∧ em.lut rel = some (time path))
    (advance : ℚ) : Advances cwd rows em advance ↔ ((paths rows).map time).sum = advance := by
  have hrun : ∀ requests : List (Path × ℚ), (requests.map Prod.fst).Perm (paths rows) →
      (∀ r ∈ requests, r.2 ≤ em.next_available_time) →
      serve cwd requests em = .ok { em with
        next_available_time := em.next_available_time + ((paths rows).map time).sum } := by
    intro requests hperm harrival
    have hall : ∀ r ∈ requests, StorageSim.endswith r.1 em.ext = true ∧ 0 ≤ time r.1 ∧
        ∃ rel, relpath cwd r.1 em.map_from_dir = .ok rel ∧ em.lut rel = some (time r.1) :=
      fun r hr => hknown r.1 (hperm.mem_iff.mp (List.mem_map_of_mem hr))
    have hsum : (requests.map fun r => time r.1).sum = ((paths rows).map time).sum := by
      rw [← (hperm.map time).sum_eq, List.map_map]
      rfl
    rw [← hsum]
    exact serve_backlog requests hall em.next_available_time harrival
  constructor
  · intro h
    obtain ⟨em', hserve, hnext⟩ := h _ (atOnce_perm rows em) (atOnce_arrival em)
    rw [hrun _ (atOnce_perm rows em) (atOnce_arrival em)] at hserve
    cases hserve
    exact add_left_cancel hnext
  · rintro rfl requests hperm harrival
    exact ⟨_, hrun requests hperm harrival, rfl⟩

/-- Served times are scaled by the rate of all rows, so they fit the pictures if and only if the
overwritten rows have the same rate. -/
theorem emulated_sum_iff (hms : ∀ p ∈ rows, 0 < p.decode_ms) (htarget : 0 < target_mpixps)
    (hne : rows ≠ []) :
    ((paths rows).map (emulated cwd map_from_dir rows target_mpixps)).sum =
      ((paths rows).map (area rows)).sum / target_mpixps ↔ SameRate cwd map_from_dir rows := by
  have hsum := sum_seconds_pos hms hne
  have hpixels : (rows.map DecoderSim.megapixels).sum = ((paths rows).map (area rows)).sum +
      ((overwritten rows).map DecoderSim.megapixels).sum := sum_rows _ _
  unfold emulated SameRate unserved
  rw [List.sum_map_mul_right, hpixels]
  field_simp
  constructor
  · intro h
    linear_combination h
  · intro h
    linear_combination h

/-- `EmDecoder` decodes at the target rate exactly on tables that it rejects, and on those whose
paths all end with `ext` and whose overwritten rows have the rate of the others. -/
theorem em_calibrated_iff (hms : ∀ p ∈ table, 0 < p.decode_ms) (htarget : 0 < target_mpixps) :
    (∀ em, init cwd db table target_mpixps map_from_dir ext init_time = .ok em →
      Advances cwd (profiles db table map_from_dir ext) em
        (((paths (profiles db table map_from_dir ext)).map
          (area (profiles db table map_from_dir ext))).sum / target_mpixps)) ↔
    (∃ p ∈ profiles db table map_from_dir ext, p.path = []) ∨
      (∀ p ∈ profiles db table map_from_dir ext, endswith p.path ext = true) ∧
        SameRate cwd map_from_dir (profiles db table map_from_dir ext) := by
  generalize hrows : profiles db table map_from_dir ext = rows
  have hselected : ∀ p ∈ rows, 0 < p.decode_ms := by
    intro p hp
    rw [← hrows] at hp
    exact hms p (List.mem_filter.mp hp).1
  by_cases hempty : ∃ p ∈ rows, p.path = []
  · refine iff_of_true ?_ (.inl hempty)
    obtain ⟨p, hp, hpath⟩ := hempty
    intro em h
    obtain ⟨orig_mpixps, -, h⟩ := of_bind_ok h
    obtain ⟨time_scaling, -, h⟩ := of_bind_ok h
    obtain ⟨entries, hentries, -⟩ := of_bind_ok h
    rw [hrows] at hentries
    exact absurd hentries (mapM_entry_raises _ hp hpath entries)
  rw [or_iff_right hempty]
  by_cases hne : rows = []
  · subst hne
    refine iff_of_true ?_ ⟨fun p hp => absurd hp List.not_mem_nil, by
      simp [SameRate, overwritten, unserved, paths]⟩
    intro em h
    unfold init at h
    rw [hrows] at h
    cases h
  have hpaths : ∀ p ∈ rows, p.path ≠ [] := fun p hp hpath => hempty ⟨p, hp, hpath⟩
  obtain ⟨em, hem, hext, hdir, hlut⟩ :=
    init_accepts cwd init_time hrows hselected htarget hne hpaths
  have hadvances : (∀ p ∈ rows, endswith p.path ext = true) →
      (Advances cwd rows em (((paths rows).map (area rows)).sum / target_mpixps) ↔
        SameRate cwd map_from_dir rows) := by
    intro hends
    rw [← emulated_sum_iff hselected htarget hne]
    apply advances_iff
    intro path hpath
    obtain ⟨p, hp, rfl⟩ := mem_paths.mp hpath
    rw [hext, hdir]
    exact ⟨hends p hp, hlut _ hpath⟩
  constructor
  · intro h
    have hends := (h em hem).endswith
    rw [hext] at hends
    exact ⟨hends, (hadvances hends).mp (h em hem)⟩
  · rintro ⟨hends, hrate⟩ em' hem'
    rw [hem] at hem'
    cases hem'
    exact (hadvances hends).mpr hrate

end

/-- One file that two hosts have profiled. -/
def twoHosts : List DecodeProfile :=
  [⟨['/', 'a', '.', 'j'], ['a', '.', 'j'], 9, 10, 10, 1, cloudlet029⟩,
    ⟨['/', 'a', '.', 'j'], ['a', '.', 'j'], 9, 10, 10, 3, ['p', 'c']⟩]

/-- The time of the last host is scaled by the mean of both. -/
theorem twoHosts_uncalibrated : ¬ ∀ (db : Database) (cwd map_from_dir ext : Path)
    (table : List DecodeProfile) (target_mpixps init_time : ℚ), db.Lawful →
    table.Pairwise (fun p q => (p.path, p.hostname) ≠ (q.path, q.hostname)) →
    (∀ p ∈ table, p.basename = basename p.path) → (∀ p ∈ table, 0 < p.decode_ms) →
    (∀ p ∈ table, ∀ q ∈ table, p.path = q.path → p.width = q.width ∧ p.height = q.height) →
    0 < target_mpixps →
    ∀ em, init cwd db table target_mpixps map_from_dir ext init_time = .ok em →
      Advances cwd (profiles db table map_from_dir ext) em
        (((paths (profiles db table map_from_dir ext)).map
          (area (profiles db table map_from_dir ext))).sum / target_mpixps) := by
  intro h
  have hrows : profiles mysql twoHosts ['/'] ['j'] = twoHosts := by decide +kernel
  obtain ⟨em, hem, hext, hdir, hlut⟩ := @init_accepts ['/'] ['/'] ['j'] twoHosts 1 0 mysql twoHosts
    hrows (by decide) (by decide) (by decide) (by decide)
  have hadv := h mysql ['/'] ['/'] ['j'] twoHosts 1 0 mysql_lawful (by decide) (by decide)
    (by decide) (by decide) (by decide) em hem
  rw [hrows] at hadv
  have hends : ∀ p ∈ twoHosts, endswith p.path ['j'] = true := by decide
  have hsum := (advances_iff (fun path hpath => by
    obtain ⟨p, hp, rfl⟩ := mem_paths.mp hpath
    rw [hext, hdir]
    exact ⟨hends p hp, hlut _ hpath⟩) _).mp hadv
  exact absurd hsum (by decide +kernel)

/-- Two files; another host has found the same time for the first of them. -/
def agreeingHosts : List DecodeProfile :=
  [⟨['/', 'a', '.', 'j'], ['a', '.', 'j'], 9, 10, 10, 1, cloudlet029⟩,
    ⟨['/', 'a', '.', 'j'], ['a', '.', 'j'], 9, 10, 10, 1, ['p', 'c']⟩,
    ⟨['/', 'b', '.', 'j'], ['b', '.', 'j'], 9, 20, 10, 2, cloudlet029⟩]

theorem em_calibrated_agreeingHosts :
    (∃ em, init ['/'] mysql agreeingHosts 20 ['/'] ['j'] 0 = .ok em) ∧
      ∀ em, init ['/'] mysql agreeingHosts 20 ['/'] ['j'] 0 = .ok em →
        Advances ['/'] (profiles mysql agreeingHosts ['/'] ['j']) em
          (((paths (profiles mysql agreeingHosts ['/'] ['j'])).map
            (area (profiles mysql agreeingHosts ['/'] ['j']))).sum / 20) := by
  refine ⟨exists_ok (by decide +kernel), ?_⟩
  refine (em_calibrated_iff (by decide) (by decide)).mpr (.inr ⟨by decide +kernel, ?_⟩)
  unfold SameRate
  decide +kernel

end SmartDisk.EmCalibration
