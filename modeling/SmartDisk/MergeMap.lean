import Mathlib.Data.List.Nodup
import Mathlib.Data.List.Perm.Basic
import Mathlib.Data.List.Induction
import Mathlib.Logic.Function.Basic

/-!
# Keyed maps with a merge of columns

A write names a key and gives values to some columns. Under its key the map keeps
the other columns, or those of a blank record when the key is new. Rows in any
order represent the map when each key has at most one.
-/
namespace SmartDisk.MergeMap

variable {K C V : Type}

structure Write (K C V : Type) where
  key : K
  vals : C → Option V

def overlay (vals : C → Option V) (r : C → V) : C → V := fun c => (vals c).getD (r c)

theorem overlay_comm {vals vals' : C → Option V} (h : ∀ c, vals c = none ∨ vals' c = none)
    (r : C → V) : overlay vals (overlay vals' r) = overlay vals' (overlay vals r) := by
  funext c
  unfold overlay
  rcases h c with hc | hc
  · rw [hc, Option.getD_none, Option.getD_none]
  · rw [hc, Option.getD_none, Option.getD_none]

theorem overlay_self (vals : C → Option V) (r : C → V) :
    overlay vals (overlay vals r) = overlay vals r := by
  funext c
  unfold overlay
  cases vals c <;> rfl

section Map
variable [DecidableEq K] (blank : K → C → V)

def put (m : K → Option (C → V)) (w : Write K C V) : K → Option (C → V) :=
  Function.update m w.key (some (overlay w.vals ((m w.key).getD (blank w.key))))

def puts (m : K → Option (C → V)) (ws : List (Write K C V)) : K → Option (C → V) :=
  ws.foldl (put blank) m

/-- The values that were written to a column under a key, in the order of the writes. -/
def written (ws : List (Write K C V)) (k : K) (c : C) : List V :=
  (ws.filter fun w => w.key = k).filterMap fun w => w.vals c

variable {blank} {m : K → Option (C → V)}

theorem put_self (w : Write K C V) :
    put blank m w w.key = some (overlay w.vals ((m w.key).getD (blank w.key))) :=
  Function.update_self ..

theorem put_of_ne {w : Write K C V} {k : K} (h : k ≠ w.key) : put blank m w k = m k :=
  Function.update_of_ne h ..

/-- Writes under different keys commute. -/
theorem put_comm_of_ne {v w : Write K C V} (h : v.key ≠ w.key) :
    put blank (put blank m v) w = put blank (put blank m w) v := by
  unfold put
  rw [Function.update_of_ne h.symm, Function.update_of_ne h, Function.update_comm h]

/-- Writes under one key commute when no column is in both. -/
theorem put_comm_of_disjoint {v w : Write K C V} (hkey : v.key = w.key)
    (h : ∀ c, v.vals c = none ∨ w.vals c = none) :
    put blank (put blank m v) w = put blank (put blank m w) v := by
  have hset : ∀ x, some (overlay w.vals (overlay v.vals x)) =
      some (overlay v.vals (overlay w.vals x)) := fun x =>
    congrArg some (overlay_comm (fun c => (h c).symm) x)
  unfold put
  rw [hkey, Function.update_self, Function.update_self, Function.update_idem,
    Function.update_idem, Option.getD_some, Option.getD_some, hset]

/-- Repeating a write changes nothing. -/
theorem put_put_self (w : Write K C V) : put blank (put blank m w) w = put blank m w := by
  unfold put
  rw [Function.update_self, Function.update_idem, Option.getD_some, overlay_self]

theorem puts_append (m : K → Option (C → V)) (vs ws : List (Write K C V)) :
    puts blank m (vs ++ ws) = puts blank (puts blank m vs) ws := List.foldl_append

theorem written_concat_self (ws : List (Write K C V)) (w : Write K C V) (c : C) :
    written (ws ++ [w]) w.key c = written ws w.key c ++ (w.vals c).toList := by
  have hw : (([w] : List (Write K C V)).filter fun v => v.key = w.key) = [w] := by simp
  have hvals : [w].filterMap (fun w => w.vals c) = (w.vals c).toList := by
    rw [List.filterMap_cons]
    cases w.vals c <;> rfl
  unfold written
  rw [List.filter_append, hw, List.filterMap_append, hvals]

theorem written_concat_of_ne {ws : List (Write K C V)} {w : Write K C V} {k : K}
    (h : k ≠ w.key) : written (ws ++ [w]) k = written ws k := by
  have hw : (([w] : List (Write K C V)).filter fun v => v.key = k) = [] := by simp [h.symm]
  funext c
  unfold written
  rw [List.filter_append, hw, List.append_nil]

theorem written_of_new {ws : List (Write K C V)} {k : K} (h : k ∉ ws.map (·.key)) (c : C) :
    written ws k c = [] := by
  have hws : (ws.filter fun w => w.key = k) = [] := by
    apply List.filter_eq_nil_iff.mpr
    intro w hw hkey
    exact h (of_decide_eq_true hkey ▸ List.mem_map_of_mem hw)
  unfold written
  rw [hws, List.filterMap_nil]

/-- What the map holds after a list of writes: the last value of each column. -/
theorem puts_eq (ws : List (Write K C V)) (k : K) :
    puts blank (fun _ => none) ws k =
      if k ∈ ws.map (·.key) then some fun c => ((written ws k c).getLast?).getD (blank k c)
      else none := by
  induction ws using List.reverseRecOn with
  | nil => rfl
  | append_singleton ws w ih =>
      rw [puts_append]
      change put blank (puts blank (fun _ => none) ws) w k = _
      by_cases hk : k = w.key
      · subst hk
        have hmem : w.key ∈ (ws ++ [w]).map (·.key) := by simp
        rw [put_self, if_pos hmem, ih]
        congr 1
        funext c
        unfold overlay
        rw [written_concat_self]
        cases h : w.vals c with
        | some v =>
            rw [Option.toList_some, List.getLast?_concat]
            rfl
        | none =>
            rw [Option.toList_none, List.append_nil, Option.getD_none]
            by_cases hold : w.key ∈ ws.map (·.key)
            · rw [if_pos hold, Option.getD_some]
            · rw [if_neg hold, written_of_new hold]
              rfl
      · have hmem : k ∈ (ws ++ [w]).map (·.key) ↔ k ∈ ws.map (·.key) := by simp [hk]
        rw [put_of_ne hk, ih, written_concat_of_ne hk]
        simp only [hmem]

end Map

/-! ### Rows -/

/-- The rows are the records of the map, one for each key. -/
structure Represents (keyOf : (C → V) → K) (rows : List (C → V)) (m : K → Option (C → V)) :
    Prop where
  nodup : (rows.map keyOf).Nodup
  mem_iff : ∀ r, r ∈ rows ↔ m (keyOf r) = some r
  keyed : ∀ k r, m k = some r → keyOf r = k

variable {keyOf : (C → V) → K} {rows rows' : List (C → V)} {m : K → Option (C → V)}

theorem represents_empty : Represents keyOf [] fun _ => none where
  nodup := List.nodup_nil
  mem_iff _ := ⟨fun h => absurd h List.not_mem_nil, fun h => nomatch h⟩
  keyed _ _ h := nomatch h

/-- Rows of the same map differ in their order only. -/
theorem Represents.perm (h : Represents keyOf rows m) (h' : Represents keyOf rows' m) :
    rows.Perm rows' :=
  (List.perm_ext_iff_of_nodup (h.nodup.of_map keyOf) (h'.nodup.of_map keyOf)).mpr fun r =>
    (h.mem_iff r).trans (h'.mem_iff r).symm

/-- A query by key finds the record of the map. -/
theorem Represents.filter (h : Represents keyOf rows m) {k : K} {p : (C → V) → Bool}
    (hp : ∀ r ∈ rows, p r = true ↔ keyOf r = k) : rows.filter p = (m k).toList := by
  have hmem : ∀ r, r ∈ rows.filter p ↔ m k = some r := by
    intro r
    rw [List.mem_filter]
    constructor
    · rintro ⟨hr, hsel⟩
      rw [← (hp r hr).mp hsel]
      exact (h.mem_iff r).mp hr
    · intro hr
      have hkey := h.keyed k r hr
      have hold : r ∈ rows := (h.mem_iff r).mpr (hkey.symm ▸ hr)
      exact ⟨hold, (hp r hold).mpr hkey⟩
  have hnodup : (rows.filter p).Nodup := (h.nodup.of_map keyOf).filter p
  cases hk : m k with
  | none =>
      rw [Option.toList_none]
      apply List.eq_nil_iff_forall_not_mem.mpr
      intro r hr
      rw [hmem, hk] at hr
      cases hr
  | some r =>
      rw [Option.toList_some]
      apply List.perm_singleton.mp
      apply (List.perm_ext_iff_of_nodup hnodup (List.nodup_singleton r)).mpr
      intro x
      rw [hmem, hk, List.mem_singleton, Option.some.injEq]
      exact eq_comm

variable [DecidableEq K]

/-- A record under a new key is one more row. -/
theorem Represents.append (h : Represents keyOf rows m) {k : K} (hk : m k = none) {r : C → V}
    (hr : keyOf r = k) : Represents keyOf (rows ++ [r]) (Function.update m k (some r)) := by
  have hnew : ∀ x ∈ rows, keyOf x ≠ k := by
    intro x hx he
    have := (h.mem_iff x).mp hx
    rw [he, hk] at this
    cases this
  constructor
  · rw [List.map_append, List.map_singleton, hr]
    refine List.nodup_append.mpr ⟨h.nodup, List.nodup_singleton k, ?_⟩
    intro a ha b hb
    obtain ⟨x, hx, rfl⟩ := List.mem_map.mp ha
    rw [List.mem_singleton.mp hb]
    exact hnew x hx
  · intro x
    rw [List.mem_append, List.mem_singleton]
    by_cases hx : keyOf x = k
    · rw [hx, Function.update_self, Option.some.injEq]
      exact ⟨fun hmem => hmem.elim (fun hold => absurd hx (hnew x hold)) Eq.symm,
        fun he => .inr he.symm⟩
    · rw [Function.update_of_ne hx, ← h.mem_iff]
      exact or_iff_left fun he => hx (he ▸ hr)
  · intro k' r' h'
    by_cases hkey : k' = k
    · rw [hkey, Function.update_self] at h'
      rw [hkey, ← Option.some.inj h', hr]
    · rw [Function.update_of_ne hkey] at h'
      exact h.keyed k' r' h'

/-- Changing the row of a key changes the record of the map. -/
theorem Represents.replace (h : Represents keyOf rows m) {k : K} {old new : C → V}
    (hk : m k = some old) (hnew : keyOf new = k) {f : (C → V) → C → V} (hf : f old = new)
    (hsame : ∀ r ∈ rows, keyOf r ≠ k → f r = r) :
    Represents keyOf (rows.map f) (Function.update m k (some new)) := by
  have hold : ∀ x ∈ rows, keyOf x = k → x = old := by
    intro x hx hkey
    have := (h.mem_iff x).mp hx
    rw [hkey, hk] at this
    exact (Option.some.inj this).symm
  have hkeys : ∀ x ∈ rows, keyOf (f x) = keyOf x := by
    intro x hx
    by_cases hkey : keyOf x = k
    · rw [hold x hx hkey, hf, hnew, h.keyed k old hk]
    · rw [hsame x hx hkey]
  constructor
  · have hmap : (rows.map f).map keyOf = rows.map keyOf := by
      rw [List.map_map]
      exact List.map_congr_left hkeys
    rw [hmap]
    exact h.nodup
  · intro x
    rw [List.mem_map]
    by_cases hx : keyOf x = k
    · rw [hx, Function.update_self, Option.some.injEq]
      constructor
      · rintro ⟨y, hy, rfl⟩
        rw [hold y hy ((hkeys y hy).symm.trans hx), hf]
      · rintro rfl
        exact ⟨old, (h.mem_iff old).mpr (h.keyed k old hk ▸ hk), hf⟩
    · rw [Function.update_of_ne hx, ← h.mem_iff]
      constructor
      · rintro ⟨y, hy, rfl⟩
        rw [hkeys y hy] at hx
        rwa [hsame y hy hx]
      · exact fun hmem => ⟨x, hmem, hsame x hmem hx⟩
  · intro k' r' h'
    by_cases hkey : k' = k
    · rw [hkey, Function.update_self] at h'
      rw [hkey, ← Option.some.inj h', hnew]
    · rw [Function.update_of_ne hkey] at h'
      exact h.keyed k' r' h'

end SmartDisk.MergeMap
