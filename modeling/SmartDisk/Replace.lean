import Mathlib.Data.List.Basic
import Mathlib.Data.Nat.Notation

/-!
# Replacing every occurrence of a word

The occurrences are taken from left to right and do not overlap, as
`str.replace` takes them. For a word whose first letter does not come back the
result is described through a letter of the word that its substitute lacks.
-/
namespace SmartDisk.Replace

variable {α : Type} [DecidableEq α]

/-- The first `n` letters belong to an occurrence that has been replaced. -/
def replaceFrom (old new : List α) : ℕ → List α → List α
  | _, [] => []
  | n + 1, _ :: s => replaceFrom old new n s
  | 0, c :: s =>
      if old <+: c :: s then new ++ replaceFrom old new (old.length - 1) s
      else c :: replaceFrom old new 0 s

/-- `s.replace(old, new)` for a nonempty `old`. -/
def replace (old new s : List α) : List α := replaceFrom old new 0 s

example : replace ['a', 'b'] ['c'] ['a', 'a', 'b', 'a', 'b', 'b'] = ['a', 'c', 'c', 'b'] := by
  decide

variable {old new : List α}

theorem replaceFrom_occurs {c : α} {s : List α} (h : old <+: c :: s) :
    replaceFrom old new 0 (c :: s) = new ++ replaceFrom old new (old.length - 1) s := by
  rw [replaceFrom, if_pos h]

theorem replaceFrom_skip {c : α} {s : List α} (h : ¬ old <+: c :: s) :
    replaceFrom old new 0 (c :: s) = c :: replaceFrom old new 0 s := by
  rw [replaceFrom, if_neg h]

/-- Without an occurrence nothing changes. -/
theorem replace_of_absent {s : List α} (h : ¬ old <:+: s) : replace old new s = s := by
  unfold replace
  induction s with
  | nil => rfl
  | cons c s ih =>
      rw [replaceFrom_skip fun hp => h hp.isInfix,
        ih fun hs => h (hs.trans (List.suffix_cons c s).isInfix)]

section Word
variable {a : α} {l : List α}

omit [DecidableEq α] in
/-- An occurrence does not reach into a second one. -/
theorem prefix_of_prefix_append (ha : a ∉ l) {c : α} {s : List α}
    (h : a :: l <+: (c :: s) ++ a :: l) : a :: l <+: c :: s := by
  apply List.prefix_of_prefix_length_le h (List.prefix_append _ _)
  by_contra hlt
  have hs : s.length < l.length := by
    simp only [List.length_cons] at hlt
    omega
  have hprefix : l <+: s ++ a :: l := (List.cons_prefix_cons.mp h).2
  have hat : l[s.length]? = some a := by
    rw [List.getElem?_eq_getElem hs, hprefix.getElem hs,
      List.getElem_append_right (Nat.le_refl _)]
    simp only [Nat.sub_self, List.getElem_cons_zero]
  exact ha (List.mem_of_getElem? hat)

theorem replaceFrom_append (ha : a ∉ l) (s : List α) (n : ℕ) (hn : n ≤ s.length) :
    replaceFrom (a :: l) new n (s ++ a :: l) = replaceFrom (a :: l) new n s ++ new := by
  induction s generalizing n with
  | nil =>
      obtain rfl : n = 0 := Nat.le_zero.mp hn
      have hrest : replaceFrom (a :: l) new l.length l = [] := by
        have hskip : ∀ r : List α, replaceFrom (a :: l) new r.length r = [] := by
          intro r
          induction r with
          | nil => rfl
          | cons c r ih => exact ih
        exact hskip l
      rw [List.nil_append, replaceFrom_occurs (List.prefix_refl _), List.length_cons,
        Nat.add_sub_cancel, hrest, List.append_nil]
      rfl
  | cons c s ih =>
      cases n with
      | succ n => exact ih n (Nat.le_of_succ_le_succ hn)
      | zero =>
          rw [List.cons_append]
          by_cases hp : a :: l <+: c :: s
          · have hlen : l.length ≤ s.length := by
              have := hp.length_le
              simp only [List.length_cons] at this
              omega
            have happ : a :: l <+: c :: (s ++ a :: l) := hp.trans (List.prefix_append _ _)
            rw [replaceFrom_occurs happ, replaceFrom_occurs hp, List.length_cons,
              Nat.add_sub_cancel, ih l.length hlen, List.append_assoc]
          · have happ : ¬ a :: l <+: c :: (s ++ a :: l) := fun happ =>
              hp (prefix_of_prefix_append ha happ)
            rw [replaceFrom_skip hp, replaceFrom_skip happ, ih 0 (Nat.zero_le _),
              List.cons_append]

/-- An occurrence at the end is replaced, whatever stands before it. -/
theorem replace_append (ha : a ∉ l) (s : List α) :
    replace (a :: l) new (s ++ a :: l) = replace (a :: l) new s ++ new :=
  replaceFrom_append ha s 0 (Nat.zero_le _)

end Word

/-! ### Counting a letter that the substitute lacks -/

section Count
variable {x : α}

theorem count_replaceFrom_le (hnew : x ∉ new) (s : List α) (n : ℕ) :
    (replaceFrom old new n s).count x ≤ (s.drop n).count x := by
  induction s generalizing n with
  | nil => exact Nat.zero_le _
  | cons c s ih =>
      cases n with
      | succ n => exact ih n
      | zero =>
          by_cases hp : old <+: c :: s
          · rw [replaceFrom_occurs hp, List.count_append, List.count_eq_zero_of_not_mem hnew,
              Nat.zero_add]
            calc (replaceFrom old new (old.length - 1) s).count x
                ≤ (s.drop (old.length - 1)).count x := ih _
              _ ≤ s.count x := (List.drop_sublist _ _).count_le x
              _ ≤ (c :: s).count x := (List.sublist_cons_self c s).count_le x
          · rw [replaceFrom_skip hp, List.drop_zero, List.count_cons, List.count_cons]
            have := ih 0
            rw [List.drop_zero] at this
            omega

/-- An occurrence costs the letters it has. -/
theorem count_replace_lt (hold : x ∈ old) (hnew : x ∉ new) {s : List α} (h : old <:+: s) :
    (replace old new s).count x < s.count x := by
  unfold replace
  induction s with
  | nil =>
      rw [List.infix_nil.mp h] at hold
      cases hold
  | cons c s ih =>
      by_cases hp : old <+: c :: s
      · obtain ⟨rest, hrest⟩ := hp
        have hdrop : s.drop (old.length - 1) = rest := by
          cases old with
          | nil => cases hold
          | cons b old =>
              rw [← (List.cons.inj hrest).2, List.length_cons, Nat.add_sub_cancel]
              exact List.drop_left
        have hle := @count_replaceFrom_le _ _ old new x hnew s (old.length - 1)
        have hpos : 0 < old.count x := List.count_pos_iff.mpr hold
        rw [replaceFrom_occurs ⟨rest, hrest⟩, List.count_append,
          List.count_eq_zero_of_not_mem hnew, Nat.zero_add, ← hrest, List.count_append]
        rw [hdrop] at hle
        omega
      · have hs : old <:+: s := (List.infix_cons_iff.mp h).resolve_left hp
        rw [replaceFrom_skip hp, List.count_cons, List.count_cons]
        have := ih hs
        omega

end Count

end SmartDisk.Replace
