import Mathlib.Data.List.Dedup
import Mathlib.Data.List.Induction
import Mathlib.Logic.Function.Basic

/-!
# Tables that a loop fills

A dictionary to which a loop assigns one entry after the other keeps the last value under
each key. With pairwise distinct keys it is the list of its entries.
-/
namespace SmartDisk.LookupTable

variable {κ ν : Type} [DecidableEq κ]

def fill (entries : List (κ × ν)) : κ → Option ν :=
  entries.foldl (fun lut e => Function.update lut e.1 (some e.2)) fun _ => none

/-- The keys of the dictionary, each once. -/
def keys (entries : List (κ × ν)) : List κ := (entries.map Prod.fst).dedup

theorem fill_concat (entries : List (κ × ν)) (e : κ × ν) :
    fill (entries ++ [e]) = Function.update (fill entries) e.1 (some e.2) := by
  unfold fill
  rw [List.foldl_append]
  rfl

/-- No entry is lost when the keys are distinct. -/
theorem fill_of_nodup {entries : List (κ × ν)} (h : (entries.map Prod.fst).Nodup) {k : κ}
    {v : ν} (he : (k, v) ∈ entries) : fill entries k = some v := by
  induction entries using List.reverseRecOn with
  | nil => cases he
  | append_singleton entries e ih =>
    rw [List.map_append, List.nodup_append] at h
    obtain ⟨hn, -, hd⟩ := h
    rw [fill_concat]
    rcases List.mem_append.mp he with he | he
    · have hk : k ≠ e.1 := hd k (List.mem_map_of_mem he) e.1 List.mem_cons_self
      rw [Function.update_of_ne hk]
      exact ih hn he
    · cases List.mem_singleton.mp he
      rw [Function.update_self]

/-- What is found under a key is the last entry that was put there. -/
theorem fill_map {ρ : Type} (key : ρ → κ) (val : ρ → ν) (rows : List ρ) (k : κ) :
    fill (rows.map fun p => (key p, val p)) k =
      ((rows.filter fun p => key p = k).getLast?).map val := by
  induction rows using List.reverseRecOn with
  | nil => rfl
  | append_singleton rows p ih =>
    rw [List.map_append, List.map_singleton, fill_concat, List.filter_append]
    by_cases hk : key p = k
    · subst hk
      simp
    · rw [Function.update_of_ne (Ne.symm hk), ih]
      simp [hk]

theorem mem_of_fill {entries : List (κ × ν)} {k : κ} {v : ν} (h : fill entries k = some v) :
    (k, v) ∈ entries := by
  induction entries using List.reverseRecOn with
  | nil => cases h
  | append_singleton entries e ih =>
    rw [fill_concat] at h
    by_cases hk : k = e.1
    · rw [hk, Function.update_self] at h
      cases h
      rw [hk]
      exact List.mem_append_right _ List.mem_cons_self
    · rw [Function.update_of_ne hk] at h
      exact List.mem_append_left _ (ih h)

/-- Under every key that was assigned something is found. -/
theorem fill_isSome {entries : List (κ × ν)} {k : κ} (h : k ∈ entries.map Prod.fst) :
    (fill entries k).isSome := by
  induction entries using List.reverseRecOn with
  | nil => cases h
  | append_singleton entries e ih =>
    rw [fill_concat]
    by_cases hk : k = e.1
    · rw [hk, Function.update_self]
      rfl
    · rw [Function.update_of_ne hk]
      rw [List.map_append, List.mem_append] at h
      exact ih (h.resolve_right fun h => hk (List.mem_singleton.mp h))

theorem length_keys_iff (entries : List (κ × ν)) :
    (keys entries).length = entries.length ↔ (entries.map Prod.fst).Nodup := by
  unfold keys
  constructor
  · intro h
    rw [← List.length_map (f := Prod.fst)] at h
    exact List.dedup_eq_self.mp ((List.dedup_sublist _).eq_of_length h)
  · intro h
    rw [List.dedup_eq_self.mpr h, List.length_map]

end SmartDisk.LookupTable
