import SmartDisk.Databases
import SmartDisk.KeptState
import SmartDisk.MergeMap
import Mathlib.Data.Fintype.Basic
import Mathlib.Data.Fintype.Defs
import Mathlib.Data.Fintype.Pi

/-!
# One row for each key

`insert_or_update_one` of `s3dexp/db/utils.py` looks for the row with the given key
columns and updates it, or adds one. The session holds what it has added until the
next query flushes it. `none` is NULL. The columns of a model are those other than
`id`. The database may refuse a value or store another one, and may find one row for
two keys.
-/
namespace SmartDisk.Upsert
open Databases KeptState MergeMap

inductive Exn where
  | MultipleResultsFound | IntegrityError | DataError | InvalidRequestError | ProgrammingError
  deriving DecidableEq, Repr

abbrev Columns (Col : Type) := Col → Option Value

/-- The columns that are named, each with its value. -/
abbrev Dict (Col : Type) := Col → Option (Option Value)

structure Model (Col : Type) where
  type : Col → ColumnType
  nullable : Col → Bool

structure Row (Col : Type) where
  id : ℕ
  cols : Columns Col

/-- A transaction. Nothing more can be done in it when a flush has failed. -/
structure Session (Col : Type) where
  committed : List (Row Col) := []
  table : List (Row Col) := []
  pending : List (Columns Col) := []
  next_id : ℕ := 1
  failed : Bool := false

abbrev Sess (Col : Type) := ExceptT Exn (StateM (Session Col))

section
variable {Col : Type} [Fintype Col]

/-! ### What SQLAlchemy and the database do -/

/-- Is a value there for every column that needs one? -/
def Model.accepts (m : Model Col) (cols : Columns Col) : Bool :=
  decide (∀ c, m.nullable c = true ∨ cols c ≠ none)

/-- The error of a statement that sets these columns. When there are several reasons, the
column that must not be NULL is the one reported. -/
def Model.refuses (m : Model Col) (db : Database) (dict : Dict Col) : Option Exn :=
  if ∃ c, m.nullable c = false ∧ dict c = some none then some .IntegrityError
  else if ∃ c, ∃ v ∈ (dict c).join, db.store (m.type c) v = none then some .DataError
  else none

def Model.cell (m : Model Col) (db : Database) (c : Col) (v : Option Value) : Option Value :=
  v.bind (db.store (m.type c))

/-- What the columns hold after `INSERT`. -/
def Model.stored (m : Model Col) (db : Database) (cols : Columns Col) : Columns Col :=
  fun c => m.cell db c (cols c)

/-- What the columns that are named hold after `UPDATE`. -/
def Model.assigned (m : Model Col) (db : Database) (dict : Dict Col) : Dict Col :=
  fun c => (dict c).map (m.cell db c)

/-- `IS NULL`, or a comparison by the database. -/
def matched (db : Database) : Option Value → Option Value → Bool
  | none, none => true
  | some v, some w => db.equal v w
  | _, _ => false

/-- `filter_by(**keys_dict)`. -/
def selects (db : Database) (keys_dict : Dict Col) (cols : Columns Col) : Bool :=
  decide (∀ c, ∀ v ∈ keys_dict c, matched db (cols c) v = true)

def Session.flushed (s : Session Col) (m : Model Col) (db : Database) : Session Col :=
  { s with
    table := s.table ++ ((s.pending.map (m.stored db)).zipIdx s.next_id).map fun p => ⟨p.2, p.1⟩
    pending := []
    next_id := s.next_id + s.pending.length }

def Session.rolled_back (s : Session Col) : Session Col :=
  { s with table := s.committed, pending := [], failed := true }

/-- The flush before every query. -/
def flush (m : Model Col) (db : Database) : Sess Col Unit := do
  let s ← get
  if s.failed then throw .InvalidRequestError
  else
    match s.pending.findSome? fun cols => m.refuses db fun c => some (cols c) with
    | none => set (s.flushed m db)
    | some e => do
        set s.rolled_back
        throw e

def one_or_none (m : Model Col) (db : Database) (keys_dict : Dict Col) :
    Sess Col (Option (Row Col)) := do
  flush m db
  let s ← get
  match s.table.filter fun r => selects db keys_dict r.cols with
  | [] => pure none
  | [record] => pure (some record)
  | _ => throw .MultipleResultsFound

def Session.updated (s : Session Col) (m : Model Col) (db : Database)
    (keys_dict vals_dict : Dict Col) : Session Col :=
  { s with
    table := s.table.map fun r =>
      if selects db keys_dict r.cols then
        { r with cols := overlay (m.assigned db vals_dict) r.cols }
      else r }

/-- `update` without a column to set is no statement. -/
def update (m : Model Col) (db : Database) (keys_dict vals_dict : Dict Col) : Sess Col Unit := do
  flush m db
  let s ← get
  if ∀ c, vals_dict c = none then throw .ProgrammingError
  else if ∃ r ∈ s.table, selects db keys_dict r.cols = true then
    match m.refuses db vals_dict with
    | none => set (s.updated m db keys_dict vals_dict)
    | some e => throw e
  else pure ()

def add (record : Columns Col) : Sess Col Unit :=
  modify fun s => { s with pending := s.pending ++ [record] }

/-! ### `s3dexp/db/utils.py` -/

/-- The record that is made from `create_dict`. -/
def created (keys_dict vals_dict : Dict Col) : Columns Col :=
  let create_dict : Dict Col := fun c => (vals_dict c).or (keys_dict c)
  fun c => (create_dict c).getD none

def merge_one (m : Model Col) (db : Database) (keys_dict vals_dict : Dict Col) :
    Sess Col (Columns Col) := do
  let record ← one_or_none m db keys_dict
  match record with
  | some record => do
      update m db keys_dict vals_dict
      pure (overlay vals_dict record.cols)
  | none => do
      let record := created keys_dict vals_dict
      add record
      pure record

/-- `insert_or_update_one`. Without a session nothing happens. -/
def insert_or_update_one (m : Model Col) (db : Database) (sess : Option (Session Col))
    (keys_dict vals_dict : Dict Col) :
    Except Exn (Option (Columns Col)) × Option (Session Col) :=
  match sess with
  | none => (.ok none, none)
  | some s =>
      let (record, s) := (merge_one m db keys_dict vals_dict).run.run s
      (record.map some, some s)

structure Call (Col : Type) where
  keys_dict : Dict Col
  vals_dict : Dict Col

/-- A sequence of calls, up to the first that raises. -/
def calls (m : Model Col) (db : Database) : List (Call Col) → Option (Session Col) →
    Except Exn Unit × Option (Session Col)
  | [], sess => (.ok (), sess)
  | c :: cs, sess =>
      match insert_or_update_one m db sess c.keys_dict c.vals_dict with
      | (.error e, sess) => (.error e, sess)
      | (.ok _, sess) => calls m db cs sess

end

/-! ### `s3dexp/db/models.py` -/

inductive DiskReadColumn where
  | path | disk | seq_read_ms | rand_read_ms | size
  deriving DecidableEq, Repr

theorem DiskReadColumn.complete (c : DiskReadColumn) :
    c ∈ ({path, disk, seq_read_ms, rand_read_ms, size} : Finset DiskReadColumn) := by
  cases c <;> decide

instance : Fintype DiskReadColumn := ⟨_, DiskReadColumn.complete⟩

def DiskReadProfile : Model DiskReadColumn where
  type
    | .path => .String 1024
    | .disk => .String 20
    | .seq_read_ms | .rand_read_ms => .Float
    | .size => .Integer
  nullable c := c ≠ .path

inductive DecodeColumn where
  | path | basename | size | width | height | decode_ms | hostname
  deriving DecidableEq, Repr

theorem DecodeColumn.complete (c : DecodeColumn) :
    c ∈ ({path, basename, size, width, height, decode_ms, hostname} : Finset DecodeColumn) := by
  cases c <;> decide

instance : Fintype DecodeColumn := ⟨_, DecodeColumn.complete⟩

def DecodeProfile : Model DecodeColumn where
  type
    | .path | .basename | .hostname => .String 1024
    | .size | .width | .height => .Integer
    | .decode_ms => .Float
  nullable c := c ≠ .path ∧ c ≠ .basename ∧ c ≠ .hostname

/-! ### Values that the database takes as they are -/

/-- Every value is of its column's type, and not too long or too large for it. -/
def Fits {Col : Type} (m : Model Col) (dict : Dict Col) : Prop :=
  ∀ c, ∀ v ∈ (dict c).join, (m.type c).fits v = true

/-- Two keys that the database would take for one are one. -/
def Apart {Col : Type} (db : Database) (keys : List (Dict Col)) : Prop :=
  ∀ k ∈ keys, ∀ k' ∈ keys, ∀ c, ∀ v ∈ (k c).join, ∀ w ∈ (k' c).join, db.equal v w = true → v = w

section
variable {Col : Type} {m : Model Col} {db : Database} {dict keys_dict vals_dict : Dict Col}

theorem cell_eq (hdb : db.Lawful) {c : Col} {v : Option Value}
    (h : ∀ w ∈ v, (m.type c).fits w = true) : m.cell db c v = v := by
  cases v with
  | none => rfl
  | some w => exact hdb.keeps _ w (h w rfl)

theorem stored_eq (hdb : db.Lawful) {cols : Columns Col} (h : Fits m fun c => some (cols c)) :
    m.stored db cols = cols := by
  funext c
  exact cell_eq hdb (h c)

theorem assigned_eq (hdb : db.Lawful) (h : Fits m dict) : m.assigned db dict = dict := by
  funext c
  unfold Model.assigned
  have hc := h c
  cases hdict : dict c with
  | none => rfl
  | some v =>
      rw [hdict] at hc
      exact congrArg some (cell_eq hdb hc)

theorem fits_created (hkeys : Fits m keys_dict) (hvals : Fits m vals_dict) :
    Fits m fun c => some (created keys_dict vals_dict c) := by
  intro c v hv
  have hv : ((vals_dict c).or (keys_dict c)).getD none = some v := hv
  cases hvals' : vals_dict c with
  | some w =>
      rw [hvals'] at hv
      exact hvals c v (by rw [hvals']; exact hv)
  | none =>
      rw [hvals', Option.none_or] at hv
      apply hkeys c v
      cases hkeys' : keys_dict c with
      | none =>
          rw [hkeys'] at hv
          cases hv
      | some w =>
          rw [hkeys'] at hv
          exact hv

variable [Fintype Col]

theorem refuses_eq_none (hdb : db.Lawful) (hfits : Fits m dict)
    (hkeep : ∀ c, m.nullable c = false → dict c ≠ some none) : m.refuses db dict = none := by
  unfold Model.refuses
  rw [if_neg fun ⟨c, hneeded, hnull⟩ => hkeep c hneeded hnull, if_neg]
  rintro ⟨c, v, hv, hnone⟩
  rw [hdb.keeps _ v (hfits c v hv)] at hnone
  cases hnone

/-- A record with a value for every column that needs one is inserted. -/
theorem refuses_created (hdb : db.Lawful) {cols : Columns Col}
    (hfits : Fits m fun c => some (cols c)) (haccepts : m.accepts cols = true) :
    (m.refuses db fun c => some (cols c)) = none := by
  apply refuses_eq_none hdb hfits
  intro c hneeded hnull
  rcases of_decide_eq_true haccepts c with hnullable | hvalue
  · rw [hneeded] at hnullable
    cases hnullable
  · exact hvalue (Option.some.inj hnull)

end

/-! ### Rows and their keys -/

section
variable {Col : Type} {K : Col → Bool} {keys_dict vals_dict : Dict Col} {m : Model Col}
  {db : Database}

/-- What a query would see, without ids. -/
def Session.rows (s : Session Col) (m : Model Col) (db : Database) : List (Columns Col) :=
  s.table.map (·.cols) ++ s.pending.map (m.stored db)

theorem Session.rows_flushed (s : Session Col) : (s.flushed m db).rows m db = s.rows m db := by
  have hpending : ((s.pending.map (m.stored db)).zipIdx s.next_id).map (fun p => p.1) =
      s.pending.map (m.stored db) := List.zipIdx_map_fst _ _
  unfold Session.rows Session.flushed
  rw [List.map_append, List.map_map, List.map_nil, List.append_nil]
  exact congrArg _ hpending

/-- The key columns of a row. -/
def keyOf (K : Col → Bool) (cols : Columns Col) : Dict Col :=
  fun c => if K c then some (cols c) else none

/-- The dictionary names the columns of `K`. -/
def Names (K : Col → Bool) (keys_dict : Dict Col) : Prop := ∀ c, (keys_dict c).isSome = K c

theorem keyOf_created (h : Names K keys_dict)
    (hdisjoint : ∀ c, K c = true → vals_dict c = none) :
    keyOf K (created keys_dict vals_dict) = keys_dict := by
  funext c
  have hc := h c
  unfold keyOf created
  cases hK : K c with
  | false =>
      rw [hK, Option.isSome_eq_false_iff, Option.isNone_iff_eq_none] at hc
      rw [hc]
      rfl
  | true =>
      rw [hK] at hc
      obtain ⟨v, hv⟩ := Option.isSome_iff_exists.mp hc
      simp only [if_true, hdisjoint c hK, hv, Option.none_or, Option.getD_some]

theorem keyOf_overlay (hdisjoint : ∀ c, K c = true → vals_dict c = none)
    (cols : Columns Col) : keyOf K (overlay vals_dict cols) = keyOf K cols := by
  funext c
  unfold keyOf overlay
  cases hK : K c with
  | false => rfl
  | true => rw [hdisjoint c hK, Option.getD_none]

theorem matched_self (hdb : db.Lawful) (v : Option Value) : matched db v v = true := by
  cases v with
  | none => rfl
  | some v => exact hdb.refl v

variable [Fintype Col]

/-- Among keys that are apart the query finds the row with this very key. -/
theorem selects_iff (hdb : db.Lawful) {keys : List (Dict Col)} (hapart : Apart db keys)
    (hkey : keys_dict ∈ keys) (h : Names K keys_dict) {cols : Columns Col}
    (hcols : keyOf K cols ∈ keys) :
    selects db keys_dict cols = true ↔ keyOf K cols = keys_dict := by
  unfold selects
  rw [decide_eq_true_eq]
  constructor
  · intro hsel
    funext c
    have hc := h c
    cases hK : K c with
    | false =>
        rw [hK, Option.isSome_eq_false_iff, Option.isNone_iff_eq_none] at hc
        rw [hc]
        exact if_neg (by rw [hK]; exact Bool.false_ne_true)
    | true =>
        rw [hK] at hc
        obtain ⟨v, hv⟩ := Option.isSome_iff_exists.mp hc
        have hrow : keyOf K cols c = some (cols c) := if_pos hK
        have hmatched := hsel c v hv
        rw [hrow, hv]
        cases hcell : cols c with
        | none =>
            rw [hcell] at hmatched
            cases v with
            | none => rfl
            | some w => cases hmatched
        | some u =>
            rw [hcell] at hmatched hrow
            cases v with
            | none => cases hmatched
            | some w =>
                have hu : u ∈ (keyOf K cols c).join := by rw [hrow]; rfl
                have hw : w ∈ (keys_dict c).join := by rw [hv]; rfl
                rw [hapart _ hcols _ hkey c u hu w hw hmatched]
  · intro heq c v hv
    rw [← heq] at hv
    obtain ⟨-, hv⟩ := Option.ite_none_right_eq_some.mp hv
    rw [Option.some.inj hv]
    exact matched_self hdb v

/-! ### The keyed map -/

/-- A record that has only its key. -/
def blank (keys_dict : Dict Col) : Columns Col := fun c => (keys_dict c).getD none

omit [Fintype Col] in
theorem created_eq (keys_dict vals_dict : Dict Col) :
    created keys_dict vals_dict = overlay vals_dict (blank keys_dict) := by
  funext c
  unfold created overlay blank
  cases h : vals_dict c with
  | none => simp only [h, Option.none_or, Option.getD_none]
  | some v => simp only [h, Option.some_or, Option.getD_some]

def Call.write (c : Call Col) : Write (Dict Col) Col (Option Value) :=
  ⟨c.keys_dict, c.vals_dict⟩

/-- The call uses the key columns `K`, and some value column that is none of them. -/
structure Call.Uses (K : Col → Bool) (c : Call Col) : Prop where
  names : Names K c.keys_dict
  disjoint : ∀ col, K col = true → c.vals_dict col = none
  nonempty : ∃ col, c.vals_dict col ≠ none

/-- The values of the call fit their columns. -/
structure Call.Fits (m : Model Col) (c : Call Col) : Prop where
  keys : Upsert.Fits m c.keys_dict
  vals : Upsert.Fits m c.vals_dict

end

section
variable {Col : Type} [Fintype Col] {m : Model Col} {db : Database} {s : Session Col}

/-- A call with new keys gives a value to every column that needs one, and no call takes one
away. -/
def Provides (m : Model Col) : List (Dict Col) → List (Call Col) → Prop
  | _, [] => True
  | seen, c :: cs =>
      (c.keys_dict ∈ seen ∨ m.accepts (created c.keys_dict c.vals_dict) = true) ∧
      (∀ col, m.nullable col = false → c.vals_dict col ≠ some none) ∧
      Provides m (c.keys_dict :: seen) cs

/-- The session can go on, and its rows are the records of `f`, each under one of the keys. -/
structure Holds (m : Model Col) (db : Database) (K : Col → Bool) (keys : List (Dict Col))
    (f : Dict Col → Option (Columns Col)) (s : Session Col) : Prop where
  live : s.failed = false
  accepted : ∀ cols ∈ s.pending, (m.refuses db fun c => some (cols c)) = none
  represents : Represents (keyOf K) (s.rows m db) f
  known : ∀ k, f k ≠ none → k ∈ keys

variable {K : Col → Bool} {keys : List (Dict Col)} {f : Dict Col → Option (Columns Col)}

theorem holds_initial (m : Model Col) (db : Database) (K : Col → Bool) (keys : List (Dict Col)) :
    Holds m db K keys (fun _ => none) {} where
  live := rfl
  accepted _ h := absurd h List.not_mem_nil
  represents := represents_empty
  known _ h := absurd rfl h

theorem Holds.flushed (h : Holds m db K keys f s) : Holds m db K keys f (s.flushed m db) where
  live := h.live
  accepted cols hcols := absurd hcols List.not_mem_nil
  represents := by
    rw [Session.rows_flushed]
    exact h.represents
  known := h.known

theorem Holds.flush_run (h : Holds m db K keys f s) :
    (flush m db).run.run s = (.ok (), s.flushed m db) := by
  have hnone : (s.pending.findSome? fun cols => m.refuses db fun c => some (cols c)) = none :=
    List.findSome?_eq_none_iff.mpr h.accepted
  unfold flush
  rw [get_bind, h.live, if_neg Bool.false_ne_true, hnone]
  rfl

theorem Provides.mono {seen seen' : List (Dict Col)} (h : ∀ k ∈ seen, k ∈ seen')
    {cs : List (Call Col)} (hcs : Provides m seen cs) : Provides m seen' cs := by
  induction cs generalizing seen seen' with
  | nil => trivial
  | cons c cs ih =>
      obtain ⟨hcreates, hkeep, hrest⟩ := hcs
      refine ⟨hcreates.imp_left (h _), hkeep, ih ?_ hrest⟩
      intro k hk
      exact (List.mem_cons.mp hk).elim (fun he => he ▸ List.mem_cons_self)
        fun hk => List.mem_cons_of_mem _ (h k hk)

/-- What is missing after some calls is missing in the whole sequence. -/
theorem provides_append {seen : List (Dict Col)} {before after : List (Call Col)} :
    Provides m seen (before ++ after) ↔
      Provides m seen before ∧ Provides m ((before.map (·.keys_dict)).reverse ++ seen) after := by
  induction before generalizing seen with
  | nil => exact (and_iff_right trivial).symm
  | cons c before ih =>
      rw [List.cons_append, Provides, Provides, ih, List.map_cons, List.reverse_cons,
        List.append_assoc, List.singleton_append, and_assoc, and_assoc]

theorem Provides.repeat {seen : List (Dict Col)} {a : Call Col} {after : List (Call Col)}
    (h : Provides m seen (a :: after)) : Provides m seen (a :: a :: after) :=
  ⟨h.1, h.2.1, .inl List.mem_cons_self, h.2.1,
    h.2.2.mono fun _ hk => List.mem_cons_of_mem _ hk⟩

theorem Provides.swap {seen : List (Dict Col)} {a b : Call Col} (hne : a.keys_dict ≠ b.keys_dict)
    {after : List (Call Col)} (h : Provides m seen (a :: b :: after)) :
    Provides m seen (b :: a :: after) := by
  obtain ⟨ha, hakeep, hb, hbkeep, hrest⟩ := h
  refine ⟨?_, hbkeep, ?_, hakeep, hrest.mono ?_⟩
  · exact hb.imp_left fun hmem => (List.mem_cons.mp hmem).resolve_left hne.symm
  · exact ha.imp_left (List.mem_cons_of_mem _)
  · intro k hk
    rw [List.mem_cons, List.mem_cons] at hk ⊢
    exact or_left_comm.mp hk

/-- All calls use the key columns `K`, their values fit, nothing is missing, and the database
tells their keys apart. -/
structure Supported (m : Model Col) (db : Database) (K : Col → Bool) (cs : List (Call Col)) :
    Prop where
  uses : ∀ c ∈ cs, c.Uses K
  fits : ∀ c ∈ cs, c.Fits m
  provides : Provides m [] cs
  apart : Apart db (cs.map (·.keys_dict))

/-- Calls that are taken from a supported sequence. -/
theorem Supported.of_mem {cs ds : List (Call Col)} (h : Supported m db K cs)
    (hmem : ∀ c ∈ ds, c ∈ cs) (hprovides : Provides m [] ds) : Supported m db K ds where
  uses c hc := h.uses c (hmem c hc)
  fits c hc := h.fits c (hmem c hc)
  provides := hprovides
  apart k hk k' hk' := by
    obtain ⟨c, hc, rfl⟩ := List.mem_map.mp hk
    obtain ⟨c', hc', rfl⟩ := List.mem_map.mp hk'
    exact h.apart _ (List.mem_map_of_mem (hmem c hc)) _ (List.mem_map_of_mem (hmem c' hc'))

theorem Supported.swap {before after : List (Call Col)} {a b : Call Col}
    (hne : a.keys_dict ≠ b.keys_dict) (h : Supported m db K (before ++ ([a, b] ++ after))) :
    Supported m db K (before ++ ([b, a] ++ after)) := by
  obtain ⟨hbefore, hrest⟩ := provides_append.mp h.provides
  apply h.of_mem
  · intro c hc
    simp only [List.mem_append, List.mem_cons] at hc ⊢
    tauto
  · exact provides_append.mpr ⟨hbefore, hrest.swap hne⟩

theorem Supported.repeat {before after : List (Call Col)} {a : Call Col}
    (h : Supported m db K (before ++ ([a] ++ after))) :
    Supported m db K (before ++ ([a, a] ++ after)) := by
  obtain ⟨hbefore, hrest⟩ := provides_append.mp h.provides
  apply h.of_mem
  · intro c hc
    simp only [List.mem_append, List.mem_cons] at hc ⊢
    tauto
  · exact provides_append.mpr ⟨hbefore, hrest.repeat⟩

variable {keys_dict vals_dict : Dict Col}

theorem Holds.key_mem (h : Holds m db K keys f s) :
    ∀ cols ∈ s.rows m db, keyOf K cols ∈ keys := by
  intro cols hcols
  apply h.known
  rw [(h.represents.mem_iff cols).mp hcols]
  exact Option.some_ne_none _

/-- The query finds the record of the map. -/
theorem Holds.one_or_none_run (h : Holds m db K keys f s) (hdb : db.Lawful)
    (hapart : Apart db keys) (hkey : keys_dict ∈ keys) (hnames : Names K keys_dict) :
    ∃ record, (one_or_none m db keys_dict).run.run s = (.ok record, s.flushed m db) ∧
      record.map (·.cols) = f keys_dict ∧ ∀ r ∈ record, r ∈ (s.flushed m db).table := by
  have hrows : (s.flushed m db).rows m db = (s.flushed m db).table.map (·.cols) :=
    List.append_nil _
  have hfilter : ((s.flushed m db).table.filter fun r => selects db keys_dict r.cols).map
      (·.cols) = (f keys_dict).toList := by
    rw [← h.flushed.represents.filter fun cols hcols =>
      selects_iff hdb hapart hkey hnames (h.flushed.key_mem cols hcols), hrows, List.filter_map]
    rfl
  unfold one_or_none
  rw [bind_ok h.flush_run, get_bind]
  cases hfound : (s.flushed m db).table.filter fun r => selects db keys_dict r.cols with
  | nil =>
      rw [hfound, List.map_nil] at hfilter
      refine ⟨none, rfl, ?_, fun r hr => nomatch hr⟩
      exact (Option.toList_eq_nil_iff.mp hfilter.symm).symm
  | cons r rest =>
      have hmem : r ∈ (s.flushed m db).table := by
        have : r ∈ (s.flushed m db).table.filter fun r => selects db keys_dict r.cols := by
          rw [hfound]
          exact List.mem_cons_self
        exact (List.mem_filter.mp this).1
      rw [hfound, List.map_cons] at hfilter
      cases hf : f keys_dict with
      | none =>
          rw [hf] at hfilter
          cases hfilter
      | some cols =>
          rw [hf, Option.toList_some] at hfilter
          obtain ⟨hcols, hrest⟩ := List.cons.inj hfilter
          obtain rfl := List.map_eq_nil_iff.mp hrest
          refine ⟨some r, rfl, congrArg some hcols, ?_⟩
          intro r' hr'
          rw [← Option.some.inj hr']
          exact hmem

theorem Session.rows_updated (s : Session Col) (hpending : s.pending = [])
    (hassigned : m.assigned db vals_dict = vals_dict) :
    (s.updated m db keys_dict vals_dict).rows m db = (s.rows m db).map fun x =>
      if selects db keys_dict x then overlay vals_dict x else x := by
  unfold Session.rows Session.updated
  rw [hpending, hassigned, List.map_nil, List.append_nil, List.append_nil, List.map_map,
    List.map_map]
  apply List.map_congr_left
  intro r _
  simp only [Function.comp_apply]
  split <;> rfl

/-- The update changes the record of the map. -/
theorem Holds.update_run (h : Holds m db K keys f s) (hdb : db.Lawful) (hapart : Apart db keys)
    (hkey : keys_dict ∈ keys) (hnames : Names K keys_dict)
    (hdisjoint : ∀ c, K c = true → vals_dict c = none) (hnonempty : ∃ c, vals_dict c ≠ none)
    (hfits : Fits m vals_dict) (hkeep : ∀ c, m.nullable c = false → vals_dict c ≠ some none)
    {old : Columns Col} (hold : f keys_dict = some old) :
    ∃ t, (update m db keys_dict vals_dict).run.run s = (.ok (), t) ∧
      Holds m db K keys (Function.update f keys_dict (some (overlay vals_dict old))) t := by
  have hf := h.flushed
  have hsel : ∀ cols ∈ (s.flushed m db).rows m db,
      (selects db keys_dict cols = true ↔ keyOf K cols = keys_dict) := fun cols hcols =>
    selects_iff hdb hapart hkey hnames (hf.key_mem cols hcols)
  have holdkey := h.represents.keyed _ _ hold
  have holdrow : old ∈ (s.flushed m db).rows m db :=
    (hf.represents.mem_iff old).mpr (holdkey.symm ▸ hold)
  refine ⟨(s.flushed m db).updated m db keys_dict vals_dict, ?_, h.live, hf.accepted, ?_, ?_⟩
  · obtain ⟨c, hc⟩ := hnonempty
    have hset : ¬ ∀ c, vals_dict c = none := fun hall => hc (hall c)
    have hmatch : ∃ r ∈ (s.flushed m db).table, selects db keys_dict r.cols = true := by
      have hmem := holdrow
      unfold Session.rows at hmem
      rw [show (s.flushed m db).pending = [] from rfl, List.map_nil, List.append_nil] at hmem
      obtain ⟨r, hr, rfl⟩ := List.mem_map.mp hmem
      exact ⟨r, hr, (hsel _ holdrow).mpr holdkey⟩
    unfold update
    rw [bind_ok h.flush_run, get_bind, if_neg hset, if_pos hmatch,
      refuses_eq_none hdb hfits hkeep]
    rfl
  · rw [Session.rows_updated _ rfl (assigned_eq hdb hfits)]
    refine hf.represents.replace hold ((keyOf_overlay hdisjoint old).trans holdkey) ?_ ?_
    · exact if_pos ((hsel old holdrow).mpr holdkey)
    · exact fun r hr hne => if_neg fun hs => hne ((hsel r hr).mp hs)
  · intro k hk
    by_cases hkk : k = keys_dict
    · rw [hkk]
      exact hkey
    · rw [Function.update_of_ne hkk] at hk
      exact h.known k hk

/-- One call writes to the map. -/
theorem Holds.merge_one_run (h : Holds m db K keys f s) (hdb : db.Lawful)
    (hapart : Apart db keys) (c : Call Col) (hkey : c.keys_dict ∈ keys) (huse : c.Uses K)
    (hfits : c.Fits m)
    (hnew : f c.keys_dict = none → m.accepts (created c.keys_dict c.vals_dict) = true)
    (hkeep : ∀ col, m.nullable col = false → c.vals_dict col ≠ some none) :
    ∃ record t, (merge_one m db c.keys_dict c.vals_dict).run.run s = (.ok record, t) ∧
      Holds m db K keys (put blank f c.write) t := by
  obtain ⟨record, hrun, hrecord, -⟩ := h.one_or_none_run hdb hapart hkey huse.names
  unfold merge_one
  rw [bind_ok hrun]
  cases record with
  | none =>
      have hf : f c.keys_dict = none := hrecord.symm
      have hcreated := fits_created hfits.keys hfits.vals
      have hput : put blank f c.write =
          Function.update f c.keys_dict (some (created c.keys_dict c.vals_dict)) := by
        rw [created_eq]
        unfold put Call.write
        rw [hf, Option.getD_none]
      refine ⟨_, _, rfl, h.live, ?_, ?_, ?_⟩
      · intro cols hcols
        rw [List.mem_singleton.mp hcols]
        exact refuses_created hdb hcreated (hnew hf)
      · have hrow := keyOf_created huse.names huse.disjoint
        have happend := h.flushed.represents.append hf hrow
        rw [hput]
        unfold Session.rows at happend ⊢
        rw [List.map_append, List.map_singleton, stored_eq hdb hcreated, ← List.append_assoc]
        exact happend
      · intro k hk
        by_cases hkk : k = c.keys_dict
        · rw [hkk]
          exact hkey
        · rw [hput, Function.update_of_ne hkk] at hk
          exact h.known k hk
  | some r =>
      have hf : f c.keys_dict = some r.cols := hrecord.symm
      obtain ⟨t, hupdate, ht⟩ := h.flushed.update_run hdb hapart hkey huse.names huse.disjoint
        huse.nonempty hfits.vals hkeep hf
      refine ⟨overlay c.vals_dict r.cols, t, ?_, ?_⟩
      · change (update m db c.keys_dict c.vals_dict >>= fun _ => _).run.run _ = _
        rw [bind_ok hupdate]
        rfl
      · have hput : put blank f c.write =
            Function.update f c.keys_dict (some (overlay c.vals_dict r.cols)) := by
          unfold put Call.write
          rw [hf, Option.getD_some]
        rw [hput]
        exact ht

/-- A sequence of calls writes to the map, one after the other. -/
theorem Holds.calls_run (h : Holds m db K keys f s) (hdb : db.Lawful) (hapart : Apart db keys)
    {cs : List (Call Col)} (hkeys : ∀ c ∈ cs, c.keys_dict ∈ keys) {seen : List (Dict Col)}
    (hseen : ∀ k ∈ seen, f k ≠ none) (huse : ∀ c ∈ cs, c.Uses K) (hfits : ∀ c ∈ cs, c.Fits m)
    (hprovides : Provides m seen cs) :
    ∃ t, calls m db cs (some s) = (.ok (), some t) ∧
      Holds m db K keys (puts blank f (cs.map Call.write)) t := by
  induction cs generalizing f s seen with
  | nil => exact ⟨s, rfl, h⟩
  | cons c cs ih =>
      obtain ⟨hcreates, hkeep, hrest⟩ := hprovides
      have hnew : f c.keys_dict = none →
          m.accepts (created c.keys_dict c.vals_dict) = true := fun hf =>
        hcreates.resolve_left fun hmem => hseen _ hmem hf
      obtain ⟨record, t, hrun, ht⟩ := h.merge_one_run hdb hapart c (hkeys c List.mem_cons_self)
        (huse c List.mem_cons_self) (hfits c List.mem_cons_self) hnew hkeep
      have hseen' : ∀ k ∈ c.keys_dict :: seen, put blank f c.write k ≠ none := by
        intro k hk
        by_cases hkey : k = c.keys_dict
        · rw [hkey, show c.keys_dict = c.write.key from rfl, put_self]
          exact Option.some_ne_none _
        · rw [put_of_ne hkey]
          exact hseen k ((List.mem_cons.mp hk).resolve_left hkey)
      obtain ⟨t', hcalls, ht'⟩ := ih ht (fun c' hc' => hkeys c' (List.mem_cons_of_mem _ hc')) hseen'
        (fun c' hc' => huse c' (List.mem_cons_of_mem _ hc'))
        (fun c' hc' => hfits c' (List.mem_cons_of_mem _ hc')) hrest
      refine ⟨t', ?_, ht'⟩
      unfold calls insert_or_update_one
      simp only [hrun]
      exact hcalls

/-! ### Sequences of calls -/

/-- The record of a key: in each column the last value written there, NULL if there is none. -/
def recorded (cs : List (Call Col)) (keys_dict : Dict Col) : Option (Columns Col) :=
  if keys_dict ∈ cs.map (·.keys_dict) then
    some fun c => ((written (cs.map Call.write) keys_dict c).getLast?).getD
      ((keys_dict c).getD none)
  else none

theorem recorded_eq (cs : List (Call Col)) :
    puts blank (fun _ => none) (cs.map Call.write) = recorded cs := by
  funext keys_dict
  rw [puts_eq, List.map_map]
  rfl

/-- No call of either sequence raises on an empty table, and they leave the same rows, up to
their ids. -/
def Same (m : Model Col) (db : Database) (cs ds : List (Call Col)) : Prop :=
  ∃ s t, calls m db cs (some {}) = (.ok (), some s) ∧
    calls m db ds (some {}) = (.ok (), some t) ∧ (s.rows m db).Perm (t.rows m db)

theorem Supported.run (hdb : db.Lawful) {cs : List (Call Col)} (h : Supported m db K cs) :
    ∃ t, calls m db cs (some {}) = (.ok (), some t) ∧
      Represents (keyOf K) (t.rows m db) (recorded cs) := by
  have hkeys : ∀ c ∈ cs, c.keys_dict ∈ cs.map (·.keys_dict) := fun c hc => List.mem_map_of_mem hc
  obtain ⟨t, ht, hholds⟩ := (holds_initial m db K _).calls_run hdb h.apart hkeys
    (fun k hk => absurd hk List.not_mem_nil) h.uses h.fits h.provides
  rw [recorded_eq] at hholds
  exact ⟨t, ht, hholds.represents⟩

theorem same_of_puts (hdb : db.Lawful) {before cs ds after : List (Call Col)}
    (hcs : Supported m db K (before ++ (cs ++ after)))
    (hds : Supported m db K (before ++ (ds ++ after)))
    (h : ∀ f, puts blank f (cs.map Call.write) = puts blank f (ds.map Call.write)) :
    Same m db (before ++ (cs ++ after)) (before ++ (ds ++ after)) := by
  obtain ⟨s, hs, hrows⟩ := hcs.run hdb
  obtain ⟨t, ht, hrows'⟩ := hds.run hdb
  have hsame : recorded (before ++ (cs ++ after)) = recorded (before ++ (ds ++ after)) := by
    rw [← recorded_eq, ← recorded_eq]
    simp only [List.map_append, puts_append, h]
  rw [← hsame] at hrows'
  exact ⟨s, t, hs, ht, hrows.perm hrows'⟩

/-- As long as nothing is missing, the values fit and the database tells the keys apart, no call
raises, there is at most one row for a key, and it holds the last values. So calls with
different keys commute, calls with one key commute when no column is in both, and repeating a
call changes nothing. -/
theorem upsert_keyed_merge (hdb : db.Lawful) (m : Model Col) (K : Col → Bool) :
    (∀ cs, Supported m db K cs → ∀ sofar, sofar <+: cs →
      ∃ s, calls m db sofar (some {}) = (.ok (), some s) ∧
        ∀ keys_dict, ((s.rows m db).filter fun cols => keyOf K cols = keys_dict) =
          (recorded sofar keys_dict).toList) ∧
    (∀ before after a b, a.keys_dict ≠ b.keys_dict →
      Supported m db K (before ++ ([a, b] ++ after)) →
        Same m db (before ++ ([a, b] ++ after)) (before ++ ([b, a] ++ after))) ∧
    (∀ before after a b, (∀ c, a.vals_dict c = none ∨ b.vals_dict c = none) →
      Supported m db K (before ++ ([a, b] ++ after)) →
      Supported m db K (before ++ ([b, a] ++ after)) →
        Same m db (before ++ ([a, b] ++ after)) (before ++ ([b, a] ++ after))) ∧
    ∀ before after a, Supported m db K (before ++ ([a] ++ after)) →
      Same m db (before ++ ([a, a] ++ after)) (before ++ ([a] ++ after)) := by
  refine ⟨?_, ?_, ?_, ?_⟩
  · intro cs hcs sofar hsofar
    obtain ⟨rest, rfl⟩ := hsofar
    have hsofar : Supported m db K sofar :=
      hcs.of_mem (fun c hc => List.mem_append_left _ hc) (provides_append.mp hcs.provides).1
    obtain ⟨s, hs, hrows⟩ := hsofar.run hdb
    exact ⟨s, hs, fun keys_dict => hrows.filter fun cols _ => decide_eq_true_iff⟩
  · intro before after a b hne hab
    exact same_of_puts hdb hab (hab.swap hne) fun f => put_comm_of_ne hne
  · intro before after a b hdisjoint hab hba
    refine same_of_puts hdb hab hba fun f => ?_
    by_cases hkey : a.keys_dict = b.keys_dict
    · exact put_comm_of_disjoint hkey hdisjoint
    · exact put_comm_of_ne hkey
  · intro before after a ha
    exact same_of_puts hdb ha.repeat ha fun f => put_put_self _

end

/-! ### The profiles -/

/-- The key of `disk_read`. -/
def diskKeys (c : DiskReadColumn) : Bool := c = .path ∨ c = .disk

/-- `disk_read` never misses a value: it names the path in the key. -/
theorem disk_read_provides {seen : List (Dict DiskReadColumn)} {cs : List (Call DiskReadColumn)}
    (huse : ∀ c ∈ cs, c.Uses diskKeys) (hpath : ∀ c ∈ cs, c.keys_dict .path ≠ some none) :
    Provides DiskReadProfile seen cs := by
  induction cs generalizing seen with
  | nil => trivial
  | cons c cs ih =>
      have hc := huse c List.mem_cons_self
      have hvals : c.vals_dict .path = none := hc.disjoint .path rfl
      obtain ⟨v, hv⟩ := Option.isSome_iff_exists.mp (hc.names .path)
      refine ⟨.inr ?_, ?_, ih (fun c hc => huse c (List.mem_cons_of_mem _ hc))
        fun c hc => hpath c (List.mem_cons_of_mem _ hc)⟩
      · unfold Model.accepts
        rw [decide_eq_true_eq]
        intro col
        by_cases hcol : col = .path
        · right
          rw [hcol, created_eq]
          unfold overlay blank
          rw [hvals, hv, Option.getD_none, Option.getD_some]
          intro hnull
          rw [hnull] at hv
          exact hpath c List.mem_cons_self hv
        · left
          exact decide_eq_true hcol
      · intro col hcol
        have : col = .path := by
          by_contra hne
          rw [show DiskReadProfile.nullable col = true from decide_eq_true hne] at hcol
          cases hcol
        rw [this, hvals]
        exact fun h => nomatch h

/-- A call of `disk_read`, with one of the columns that it measures. -/
def measured (path disk : List Char) (column : DiskReadColumn) (ms : ℚ) :
    Call DiskReadColumn where
  keys_dict c :=
    if c = .path then some (some (.text path))
    else if c = .disk then some (some (.text disk))
    else none
  vals_dict c := if c = column then some (some (.float ms)) else none

theorem measured_uses (path disk : List Char) {column : DiskReadColumn} (ms : ℚ)
    (hcolumn : diskKeys column = false) : (measured path disk column ms).Uses diskKeys := by
  refine ⟨?_, ?_, ⟨column, ?_⟩⟩
  · intro col
    cases col <;> rfl
  · intro col hcol
    refine if_neg fun he => ?_
    rw [he, hcolumn] at hcol
    cases hcol
  · rw [show (measured path disk column ms).vals_dict column = some (some (.float ms)) from
      if_pos rfl]
    exact Option.some_ne_none _

def seqRead : Call DiskReadColumn := measured "/d/a.jpg".toList "hdd".toList .seq_read_ms 5
def randRead : Call DiskReadColumn := measured "/d/a.jpg".toList "hdd".toList .rand_read_ms 9
def otherRead : Call DiskReadColumn := measured "/d/b.jpg".toList "hdd".toList .seq_read_ms 3

theorem reads_use : ∀ c ∈ [seqRead, randRead, otherRead], c.Uses diskKeys := by
  intro c hc
  simp only [List.mem_cons, List.not_mem_nil, or_false] at hc
  rcases hc with rfl | rfl | rfl <;> exact measured_uses _ _ _ rfl

theorem reads_supported {cs : List (Call DiskReadColumn)}
    (h : ∀ c ∈ cs, c ∈ [seqRead, randRead, otherRead]) :
    Supported DiskReadProfile mysql diskKeys cs := by
  have hall : Supported DiskReadProfile mysql diskKeys [seqRead, randRead, otherRead] := by
    refine ⟨reads_use, ?_, disk_read_provides reads_use (by decide +kernel), ?_⟩
    · intro c hc
      simp only [List.mem_cons, List.not_mem_nil, or_false] at hc
      rcases hc with rfl | rfl | rfl <;> constructor <;> unfold Fits <;> decide +kernel
    · unfold Apart
      decide +kernel
  apply hall.of_mem h
  exact disk_read_provides (fun c hc => reads_use c (h c hc)) fun c hc =>
    (by decide +kernel : ∀ c ∈ [seqRead, randRead, otherRead], c.keys_dict .path ≠ some none) c
      (h c hc)

theorem upsert_keyed_merge_reads :
    (∃ s, calls DiskReadProfile mysql [seqRead, randRead] (some {}) = (.ok (), some s) ∧
      ((s.rows DiskReadProfile mysql).filter fun cols => keyOf diskKeys cols = seqRead.keys_dict) =
        (recorded [seqRead, randRead] seqRead.keys_dict).toList) ∧
    Same DiskReadProfile mysql [seqRead, otherRead] [otherRead, seqRead] ∧
    Same DiskReadProfile mysql [seqRead, randRead] [randRead, seqRead] ∧
    Same DiskReadProfile mysql [seqRead, seqRead] [seqRead] := by
  obtain ⟨hrun, hkeys, hcolumns, hrepeat⟩ :=
    upsert_keyed_merge mysql_lawful DiskReadProfile diskKeys
  refine ⟨?_, ?_, ?_, ?_⟩
  · obtain ⟨s, hs, hrows⟩ := hrun [seqRead, randRead] (reads_supported (by simp)) _
      (List.prefix_refl _)
    exact ⟨s, hs, hrows _⟩
  · refine hkeys [] [] seqRead otherRead (fun he => ?_) (reads_supported (by simp))
    exact absurd (congrFun he .path) (by decide +kernel)
  · refine hcolumns [] [] seqRead randRead (fun c => ?_) (reads_supported (by simp))
      (reads_supported (by simp))
    cases c with
    | rand_read_ms => exact .inl rfl
    | path | disk | seq_read_ms | size => exact .inr rfl
  · exact hrepeat [] [] seqRead (reads_supported (by simp))

/-- The key of `decode_time`. -/
def decodeKeys (c : DecodeColumn) : Bool := c = .path ∨ c = .hostname

/-- A call with this key that leaves the basename out. -/
def sizeOnly (size : ℤ) : Call DecodeColumn where
  keys_dict c := if decodeKeys c then some (some (.text "a".toList)) else none
  vals_dict c := if c = .size then some (some (.int size)) else none

theorem sizeOnly_uses (size : ℤ) : (sizeOnly size).Uses decodeKeys := by
  refine ⟨?_, ?_, ⟨.size, fun h => nomatch h⟩⟩
  · intro col
    cases col <;> rfl
  · intro col hcol
    cases col with
    | size => cases hcol
    | path | basename | width | height | decode_ms | hostname => rfl

/-- A path, read on a disk whose name has 21 characters. -/
def longDisk : Call DiskReadColumn :=
  measured "/d/a.jpg".toList "/dev/disk/by-id/wwn-0".toList .seq_read_ms 5

/-- The path of `seqRead` in capitals. -/
def capitalRead : Call DiskReadColumn :=
  measured "/D/A.JPG".toList "hdd".toList .seq_read_ms 7

/-- Each condition is needed. A row without its basename and a value that is too long raise when
the next call flushes them, and of two paths that differ only in case one has no row. -/
theorem upsert_loses :
    ((∀ c ∈ [sizeOnly 1, sizeOnly 2], c.Uses decodeKeys) ∧
      (calls DecodeProfile mysql [sizeOnly 1, sizeOnly 2] (some {})).1 = .error .IntegrityError) ∧
    ((∀ c ∈ [longDisk, seqRead], c.Uses diskKeys) ∧
      (calls DiskReadProfile mysql [longDisk, seqRead] (some {})).1 = .error .DataError) ∧
    (∀ c ∈ [seqRead, capitalRead], c.Uses diskKeys) ∧
      ∃ s, calls DiskReadProfile mysql [seqRead, capitalRead] (some {}) = (.ok (), some s) ∧
        ((s.rows DiskReadProfile mysql).filter fun cols =>
          keyOf diskKeys cols = capitalRead.keys_dict) = [] := by
  refine ⟨⟨?_, by decide +kernel⟩, ⟨?_, by decide +kernel⟩, ?_, ?_⟩
  · exact List.forall_mem_cons.mpr
      ⟨sizeOnly_uses 1, List.forall_mem_singleton.mpr (sizeOnly_uses 2)⟩
  · exact List.forall_mem_cons.mpr
      ⟨measured_uses _ _ _ rfl, List.forall_mem_singleton.mpr (measured_uses _ _ _ rfl)⟩
  · exact List.forall_mem_cons.mpr
      ⟨measured_uses _ _ _ rfl, List.forall_mem_singleton.mpr (measured_uses _ _ _ rfl)⟩
  · refine ⟨_, rfl, ?_⟩
    decide +kernel

end SmartDisk.Upsert
