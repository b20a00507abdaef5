import Mathlib.Algebra.BigOperators.Group.List.Basic
import Mathlib.Algebra.GroupWithZero.Nat
import Mathlib.Data.Int.Notation
import Mathlib.Data.List.Infix

/-!
# JSON texts of nested lists of integers

`dumps` writes them as the standard library of Python does, with a comma and a blank between
two items, and `loads` reads them back. Numbers with a fraction or an exponent, strings and
objects are not among the values here: a text of the ten digits, signs, brackets, commas
and blanks has none.
-/
namespace SmartDisk.JsonText

inductive Json where
  | int (n : ℤ)
  | arr (items : List Json)

def dumpsInt (n : ℤ) : List Char :=
  if n < 0 then '-' :: Nat.toDigits 10 n.natAbs else Nat.toDigits 10 n.natAbs

mutual

def dumps : Json → List Char
  | .int n => dumpsInt n
  | .arr items => '[' :: dumpsItems items

/-- The items and the bracket that closes them. -/
def dumpsItems : List Json → List Char
  | [] => [']']
  | x :: xs => dumps x ++ dumpsTail xs

def dumpsTail : List Json → List Char
  | [] => [']']
  | x :: xs => ',' :: ' ' :: (dumps x ++ dumpsTail xs)

end

def isSpace (c : Char) : Bool := c = ' ' || c = '\t' || c = '\n' || c = '\r'

def skip (s : List Char) : List Char := s.dropWhile isSpace

/-- No digit follows a leading zero. -/
def natural : List Char → Option (ℕ × List Char)
  | [] => none
  | c :: s =>
    if c = '0' then some (0, s)
    else if c.isDigit then
      some (Nat.ofDigitChars 10 ((c :: s).takeWhile Char.isDigit) 0,
        (c :: s).dropWhile Char.isDigit)
    else none

def number : List Char → Option (Json × List Char)
  | [] => none
  | c :: s =>
    if c = '-' then (natural s).map fun r => (.int (-r.1), r.2)
    else (natural (c :: s)).map fun r => (.int r.1, r.2)

mutual

/-- The value at the head of a text, and what follows it. Every call has a character of the
text to itself, so the length of the text is fuel enough. -/
def value : ℕ → List Char → Option (Json × List Char)
  | 0, _ => none
  | _ + 1, [] => none
  | fuel + 1, c :: s =>
    if c = '[' then
      let t := skip s
      if t.head? = some ']' then some (.arr [], t.tail)
      else (items fuel t).map fun r => (.arr r.1, r.2)
    else number (c :: s)

/-- The items of a list up to the bracket that closes it, at least one. -/
def items : ℕ → List Char → Option (List Json × List Char)
  | 0, _ => none
  | fuel + 1, s => do
    let (x, s) ← value fuel s
    match skip s with
    | [] => none
    | c :: t =>
      if c = ']' then some ([x], t)
      else if c = ',' then (items fuel (skip t)).map fun r => (x :: r.1, r.2)
      else none

end

/-- Nothing but blanks may follow the value. -/
def loads (s : List Char) : Option Json :=
  match value (s.length + 1) (skip s) with
  | some (v, t) => if skip t = [] then some v else none
  | none => none

/-! ### Reading what was written -/

/-- A number that stands before this text ends there. -/
def NoDigit (t : List Char) : Prop := ∀ c ∈ t.head?, c.isDigit = false

theorem takeWhile_noDigit {t : List Char} (h : NoDigit t) : t.takeWhile Char.isDigit = [] := by
  cases t with
  | nil => rfl
  | cons c t => rw [List.takeWhile_cons, if_neg (by simp [h c rfl])]

theorem dropWhile_noDigit {t : List Char} (h : NoDigit t) : t.dropWhile Char.isDigit = t := by
  cases t with
  | nil => rfl
  | cons c t => rw [List.dropWhile_cons, if_neg (by simp [h c rfl])]

/-- A positive number does not begin with a zero. -/
theorem toDigits_head {n : ℕ} (hn : 0 < n) :
    ∃ c s, Nat.toDigits 10 n = c :: s ∧ c ≠ '0' := by
  induction n using Nat.strongRecOn with
  | _ n ih =>
    by_cases hlt : n < 10
    · have hdigit : ∀ m < 10, 0 < m → m.digitChar ≠ '0' := by decide
      exact ⟨n.digitChar, [], Nat.toDigits_of_lt_base hlt, hdigit n hlt hn⟩
    · obtain ⟨c, s, hc, hne⟩ := ih (n / 10) (by omega) (by omega)
      rw [Nat.toDigits_of_base_le (by decide) (by omega), hc]
      exact ⟨c, s ++ [(n % 10).digitChar], rfl, hne⟩

theorem natural_toDigits (n : ℕ) {t : List Char} (ht : NoDigit t) :
    natural (Nat.toDigits 10 n ++ t) = some (n, t) := by
  rcases Nat.eq_zero_or_pos n with rfl | hn
  · rfl
  · have hdigits : ∀ c ∈ Nat.toDigits 10 n, c.isDigit = true := fun c hc =>
      Nat.isDigit_of_mem_toDigits (by decide) (by decide) hc
    obtain ⟨c, s, hs, hne⟩ := toDigits_head hn
    have hc : c.isDigit = true := hdigits c (by rw [hs]; exact List.mem_cons_self)
    rw [hs, List.cons_append, natural, if_neg hne, if_pos hc, ← List.cons_append, ← hs,
      List.takeWhile_append_of_pos hdigits, List.dropWhile_append_of_pos hdigits,
      takeWhile_noDigit ht, dropWhile_noDigit ht, List.append_nil, Nat.ofDigitChars_ten_toDigits]

/-- The first character of a value is neither a blank nor a bracket that closes. -/
def Opens (s : List Char) : Prop :=
  ∃ c t, s = c :: t ∧ isSpace c = false ∧ c ≠ ']'

theorem Opens.skip {s : List Char} (h : Opens s) (t : List Char) :
    skip (s ++ t) = s ++ t := by
  obtain ⟨c, u, rfl, hc, -⟩ := h
  exact List.dropWhile_cons_of_neg (by simp [hc])

theorem digit_opens {c : Char} (h : c.isDigit = true) :
    isSpace c = false ∧ c ≠ ']' ∧ c ≠ '[' ∧ c ≠ '-' := by
  have hne : ∀ d : Char, d.isDigit = false → c ≠ d := fun d hd he => by
    rw [he, hd] at h
    cases h
  refine ⟨?_, hne _ rfl, hne _ rfl, hne _ rfl⟩
  simp [isSpace, hne ' ' rfl, hne '\t' rfl, hne '\n' rfl, hne '\r' rfl]

theorem toDigits_cons (n : ℕ) :
    ∃ c s, Nat.toDigits 10 n = c :: s ∧ c.isDigit = true := by
  obtain ⟨c, s, hs⟩ := List.exists_cons_of_ne_nil (Nat.toDigits_ne_nil (n := n) (b := 10))
  have hc : c ∈ Nat.toDigits 10 n := by
    rw [hs]
    exact List.mem_cons_self
  exact ⟨c, s, hs, Nat.isDigit_of_mem_toDigits (by decide) (by decide) hc⟩

theorem dumpsInt_opens (n : ℤ) : ∃ c s, dumpsInt n = c :: s ∧ isSpace c = false ∧
    c ≠ ']' ∧ c ≠ '[' := by
  unfold dumpsInt
  split
  · exact ⟨_, _, rfl, by decide, by decide, by decide⟩
  · obtain ⟨c, s, hs, hc⟩ := toDigits_cons n.natAbs
    obtain ⟨hspace, hclose, hopen, -⟩ := digit_opens hc
    exact ⟨c, s, hs, hspace, hclose, hopen⟩

theorem dumps_opens (v : Json) : Opens (dumps v) := by
  cases v with
  | int n =>
    obtain ⟨c, s, hs, hspace, hclose, -⟩ := dumpsInt_opens n
    rw [dumps]
    exact ⟨c, s, hs, hspace, hclose⟩
  | arr xs =>
    rw [dumps]
    exact ⟨_, _, rfl, by decide, by decide⟩

theorem number_dumpsInt (n : ℤ) {t : List Char} (ht : NoDigit t) :
    number (dumpsInt n ++ t) = some (.int n, t) := by
  unfold dumpsInt
  split
  · rename_i hneg
    rw [List.cons_append, number, if_pos rfl, natural_toDigits _ ht, Option.map_some]
    have hn : -(n.natAbs : ℤ) = n := by omega
    rw [hn]
  · rename_i hneg
    obtain ⟨c, s, hs, hc⟩ := toDigits_cons n.natAbs
    have hn : (n.natAbs : ℤ) = n := by omega
    rw [hs, List.cons_append, number, if_neg (digit_opens hc).2.2.2, ← List.cons_append, ← hs,
      natural_toDigits _ ht, Option.map_some, hn]

theorem dumpsTail_noDigit (xs : List Json) (t : List Char) : NoDigit (dumpsTail xs ++ t) := by
  cases xs with
  | nil =>
    intro c hc
    rw [dumpsTail] at hc
    cases hc
    rfl
  | cons x xs =>
    intro c hc
    rw [dumpsTail] at hc
    cases hc
    rfl

theorem length_dumpsTail (xs : List Json) : 0 < (dumpsTail xs).length := by
  cases xs with
  | nil => rw [dumpsTail]; exact Nat.one_pos
  | cons x xs => rw [dumpsTail]; exact Nat.succ_pos _

mutual

theorem value_dumps (v : Json) (fuel : ℕ) {t : List Char} (h : (dumps v).length < fuel)
    (ht : NoDigit t) : value fuel (dumps v ++ t) = some (v, t) := by
  cases fuel with
  | zero => cases h
  | succ fuel =>
    cases v with
    | int n =>
      obtain ⟨c, s, hs, -, -, hopen⟩ := dumpsInt_opens n
      rw [dumps, hs, List.cons_append, value, if_neg hopen, ← List.cons_append, ← hs]
      exact number_dumpsInt n ht
    | arr xs =>
      rw [dumps] at h ⊢
      rw [List.cons_append, value, if_pos rfl]
      cases xs with
      | nil => rw [dumpsItems]; rfl
      | cons x xs =>
        rw [dumpsItems] at h ⊢
        have hitems := items_dumps x xs fuel (t := t) (by simp at h ⊢; omega)
        have hhead : (dumps x ++ (dumpsTail xs ++ t)).head? ≠ some ']' := by
          obtain ⟨c, s, hs, -, hclose⟩ := dumps_opens x
          rw [hs]
          exact fun h => hclose (Option.some.inj h)
        simp only
        rw [List.append_assoc, (dumps_opens x).skip, if_neg hhead, ← List.append_assoc, hitems]
        rfl

theorem items_dumps (x : Json) (xs : List Json) (fuel : ℕ) {t : List Char}
    (h : (dumps x ++ dumpsTail xs).length < fuel) :
    items fuel (dumps x ++ dumpsTail xs ++ t) = some (x :: xs, t) := by
  cases fuel with
  | zero => cases h
  | succ fuel =>
    have hpos := length_dumpsTail xs
    rw [List.append_assoc, items, value_dumps x fuel (by simp at h; omega)
      (dumpsTail_noDigit xs t)]
    cases xs with
    | nil => rw [dumpsTail]; rfl
    | cons y ys =>
      rw [dumpsTail] at h ⊢
      have hitems := items_dumps y ys fuel (t := t) (by simp at h ⊢; omega)
      have hskip : skip (' ' :: (dumps y ++ dumpsTail ys ++ t)) = dumps y ++ dumpsTail ys ++ t := by
        rw [List.append_assoc]
        exact (List.dropWhile_cons_of_pos (by decide)).trans ((dumps_opens y).skip _)
      change (items fuel (skip (' ' :: (dumps y ++ dumpsTail ys ++ t)))).map _ = _
      rw [hskip, hitems]
      rfl

end

/-- What `dumps` writes is read back. -/
theorem loads_dumps (v : Json) : loads (dumps v) = some v := by
  have hskip := (dumps_opens v).skip []
  have hvalue := value_dumps v ((dumps v).length + 1) (t := []) (Nat.lt_succ_self _)
    (by intro c hc; cases hc)
  rw [List.append_nil] at hskip hvalue
  unfold loads
  rw [hskip, hvalue]
  rfl

/-! ### Lengths -/

theorem length_dumpsTail_eq (xs : List Json) :
    (dumpsTail xs).length = (xs.map fun x => (dumps x).length + 2).sum + 1 := by
  induction xs with
  | nil => rw [dumpsTail]; rfl
  | cons x xs ih =>
    rw [dumpsTail, List.map_cons, List.sum_cons]
    simp only [List.length_cons, List.length_append, ih]
    omega

/-- Every item has two characters beside its own: a separator, or the brackets. -/
theorem length_dumps_arr {xs : List Json} (h : xs ≠ []) :
    (dumps (.arr xs)).length = (xs.map fun x => (dumps x).length + 2).sum := by
  cases xs with
  | nil => exact absurd rfl h
  | cons x xs =>
    rw [dumps, dumpsItems, List.map_cons, List.sum_cons]
    simp only [List.length_cons, List.length_append, length_dumpsTail_eq]
    omega

/-! ### Texts that were cut off -/

/-- How many brackets of a text are left open. -/
def depth (s : List Char) : ℤ := (s.count '[' : ℤ) - s.count ']'

@[simp] theorem depth_nil : depth [] = 0 := rfl

theorem depth_append (s t : List Char) : depth (s ++ t) = depth s + depth t := by
  unfold depth
  rw [List.count_append, List.count_append]
  omega

theorem depth_cons (c : Char) (s : List Char) : depth (c :: s) =
    (if c = '[' then 1 else 0) - (if c = ']' then 1 else 0) + depth s := by
  unfold depth
  rw [List.count_cons, List.count_cons]
  simp only [beq_iff_eq]
  split <;> split <;> omega

theorem depth_plain {c : Char} (hopen : c ≠ '[') (hclose : c ≠ ']') (s : List Char) :
    depth (c :: s) = depth s := by
  rw [depth_cons, if_neg hopen, if_neg hclose]
  omega

theorem depth_dropWhile {p : Char → Bool} (hopen : p '[' = false) (hclose : p ']' = false)
    (s : List Char) : depth (s.dropWhile p) = depth s := by
  induction s with
  | nil => rfl
  | cons c s ih =>
    by_cases hc : p c = true
    · rw [List.dropWhile_cons_of_pos hc, ih, depth_plain]
      · rintro rfl
        rw [hopen] at hc
        cases hc
      · rintro rfl
        rw [hclose] at hc
        cases hc
    · rw [List.dropWhile_cons_of_neg hc]

theorem depth_skip (s : List Char) : depth (skip s) = depth s := depth_dropWhile rfl rfl s

theorem depth_natural {s t : List Char} {n : ℕ} (h : natural s = some (n, t)) :
    depth t = depth s := by
  cases s with
  | nil => cases h
  | cons c s =>
    rw [natural] at h
    split at h
    · rename_i hc
      cases h
      exact (depth_plain (by rw [hc]; decide) (by rw [hc]; decide) _).symm
    · split at h
      · cases h
        exact depth_dropWhile rfl rfl _
      · cases h

theorem depth_number {s t : List Char} {v : Json} (h : number s = some (v, t)) :
    depth t = depth s := by
  cases s with
  | nil => cases h
  | cons c s =>
    rw [number] at h
    split at h
    · rename_i hc
      obtain ⟨⟨n, u⟩, hn, hr⟩ := Option.map_eq_some_iff.mp h
      cases hr
      rw [depth_natural hn, depth_plain (by rw [hc]; decide) (by rw [hc]; decide)]
    · obtain ⟨⟨n, u⟩, hn, hr⟩ := Option.map_eq_some_iff.mp h
      cases hr
      exact depth_natural hn

/-- A value closes the brackets that it opens, and its items close one more. -/
theorem depth_value (fuel : ℕ) :
    (∀ {s t v}, value fuel s = some (v, t) → depth t = depth s) ∧
    (∀ {s t xs}, items fuel s = some (xs, t) → depth t = depth s + 1) := by
  induction fuel with
  | zero => exact ⟨nofun, nofun⟩
  | succ fuel ih =>
    constructor
    · intro s t v h
      cases s with
      | nil => cases h
      | cons c s =>
        rw [value] at h
        split at h
        · rename_i hc
          rw [depth_cons, if_pos hc, if_neg (by rw [hc]; decide), ← depth_skip s]
          simp only at h
          split at h
          · rename_i hhead
            cases h
            rw [← List.cons_head?_tail hhead, depth_cons, if_neg (by decide), if_pos rfl]
            simp only [List.tail_cons]
            omega
          · obtain ⟨⟨xs, u⟩, hxs, hr⟩ := Option.map_eq_some_iff.mp h
            cases hr
            rw [ih.2 hxs]
            omega
        · exact depth_number h
    · intro s t xs h
      rw [items] at h
      obtain ⟨⟨x, u⟩, hx, h⟩ := Option.bind_eq_some_iff.mp h
      rw [← ih.1 hx, ← depth_skip u]
      simp only at h
      cases hu : skip u with
      | nil => rw [hu] at h; cases h
      | cons c w =>
        rw [hu] at h
        simp only at h
        split at h
        · rename_i hc
          cases h
          rw [depth_cons, if_pos hc, if_neg (by rw [hc]; decide)]
          omega
        · rename_i hclose
          split at h
          · rename_i hc
            obtain ⟨⟨ys, r⟩, hys, hr⟩ := Option.map_eq_some_iff.mp h
            cases hr
            rw [ih.2 hys, depth_skip, depth_plain (by rw [hc]; decide) hclose]
          · cases h

/-- A text with an open bracket is not read. -/
theorem depth_loads {s : List Char} {v : Json} (h : loads s = some v) : depth s = 0 := by
  unfold loads at h
  cases hv : value (s.length + 1) (skip s) with
  | none => rw [hv] at h; cases h
  | some r =>
    obtain ⟨v', t⟩ := r
    rw [hv] at h
    simp only at h
    split at h
    · rename_i ht
      rw [← depth_skip s, ← (depth_value _).1 hv, ← depth_skip t, ht, depth_nil]
    · cases h

theorem depth_eq_zero {s : List Char} (h : ∀ c ∈ s, c ≠ '[' ∧ c ≠ ']') : depth s = 0 := by
  induction s with
  | nil => rfl
  | cons c s ih =>
    obtain ⟨hopen, hclose⟩ := h c List.mem_cons_self
    rw [depth_plain hopen hclose, ih fun d hd => h d (List.mem_cons_of_mem _ hd)]

theorem dumpsInt_plain (n : ℤ) : ∀ c ∈ dumpsInt n, c ≠ '[' ∧ c ≠ ']' := by
  have hdigits : ∀ c ∈ Nat.toDigits 10 n.natAbs, c ≠ '[' ∧ c ≠ ']' := fun c hc => by
    have hc := digit_opens (Nat.isDigit_of_mem_toDigits (by decide) (by decide) hc)
    exact ⟨hc.2.2.1, hc.2.1⟩
  unfold dumpsInt
  intro c hc
  split at hc
  · rcases List.mem_cons.mp hc with rfl | hc
    · exact ⟨by decide, by decide⟩
    · exact hdigits c hc
  · exact hdigits c hc

mutual

theorem depth_dumps (v : Json) : depth (dumps v) = 0 := by
  cases v with
  | int n => rw [dumps]; exact depth_eq_zero (dumpsInt_plain n)
  | arr xs =>
    rw [dumps, depth_cons, if_pos rfl, if_neg (by decide), depth_dumpsItems xs]
    rfl

theorem depth_dumpsItems (xs : List Json) : depth (dumpsItems xs) = -1 := by
  cases xs with
  | nil => rw [dumpsItems]; rfl
  | cons x xs => rw [dumpsItems, depth_append, depth_dumps x, depth_dumpsTail xs]; rfl

theorem depth_dumpsTail (xs : List Json) : depth (dumpsTail xs) = -1 := by
  cases xs with
  | nil => rw [dumpsTail]; rfl
  | cons x xs =>
    rw [dumpsTail, depth_plain (by decide) (by decide), depth_plain (by decide) (by decide),
      depth_append, depth_dumps x, depth_dumpsTail xs]
    rfl

end

theorem prefix_append_cases {p a b : List Char} (h : p <+: a ++ b) :
    p <+: a ∨ ∃ q, p = a ++ q ∧ q <+: b := by
  rcases List.prefix_or_prefix_of_prefix h (List.prefix_append a b) with h' | h'
  · exact .inl h'
  · obtain ⟨q, rfl⟩ := h'
    exact .inr ⟨q, rfl, (List.prefix_append_right_inj a).mp h⟩

/-- Before its last character no text of a list has closed what it opened. -/
def Open (s : List Char) : Prop := ∀ p, p <+: s → p ≠ s → 0 ≤ depth p

theorem open_append {a b : List Char} (ha : ∀ p, p <+: a → 0 ≤ depth p) (hb : Open b) :
    Open (a ++ b) := by
  intro p hp hne
  rcases prefix_append_cases hp with h | ⟨q, rfl, hq⟩
  · exact ha p h
  · have hqb : q ≠ b := fun h => hne (by rw [h])
    have hdepth := hb q hq hqb
    have htotal := ha a (List.prefix_refl a)
    rw [depth_append]
    omega

theorem open_close : Open [']'] := by
  intro p hp hne
  rcases List.prefix_cons_iff.mp hp with rfl | ⟨q, rfl, hq⟩
  · exact Int.le_refl 0
  · rw [List.prefix_nil] at hq
    exact absurd (by rw [hq]) hne

mutual

theorem depth_prefix_dumps (v : Json) {p : List Char} (h : p <+: dumps v) : 0 ≤ depth p := by
  cases v with
  | int n =>
    rw [dumps] at h
    exact Int.le_of_eq (depth_eq_zero fun c hc => dumpsInt_plain n c (h.subset hc)).symm
  | arr xs =>
    rw [dumps] at h
    rcases List.prefix_cons_iff.mp h with rfl | ⟨q, rfl, hq⟩
    · exact Int.le_refl 0
    · rw [depth_cons, if_pos rfl, if_neg (by decide)]
      by_cases hall : q = dumpsItems xs
      · rw [hall, depth_dumpsItems xs]
        decide
      · have hopen := open_dumpsItems xs q hq hall
        omega

theorem open_dumpsItems (xs : List Json) : Open (dumpsItems xs) := by
  cases xs with
  | nil => rw [dumpsItems]; exact open_close
  | cons x xs =>
    rw [dumpsItems]
    exact open_append (fun p hp => depth_prefix_dumps x hp) (open_dumpsTail xs)

theorem open_dumpsTail (xs : List Json) : Open (dumpsTail xs) := by
  cases xs with
  | nil => rw [dumpsTail]; exact open_close
  | cons x xs =>
    rw [dumpsTail]
    have hsep : ∀ p, p <+: [',', ' '] → 0 ≤ depth p := by
      intro p hp
      have hplain : ∀ c ∈ p, c ≠ '[' ∧ c ≠ ']' := by
        intro c hc
        rcases List.mem_pair.mp (hp.subset hc) with rfl | rfl <;> decide
      exact Int.le_of_eq (depth_eq_zero hplain).symm
    exact open_append hsep
      (open_append (fun p hp => depth_prefix_dumps x hp) (open_dumpsTail xs))

end

/-- A list that was cut off is not read. -/
theorem loads_take (xs : List Json) {n : ℕ} (h : n < (dumps (.arr xs)).length) :
    loads ((dumps (.arr xs)).take n) = none := by
  cases hl : loads ((dumps (.arr xs)).take n) with
  | none => rfl
  | some v =>
    have hzero := depth_loads hl
    rw [dumps] at hzero hl h
    cases n with
    | zero => cases hl
    | succ n =>
      rw [List.take_succ_cons, depth_cons, if_pos rfl, if_neg (by decide)] at hzero
      have hne : (dumpsItems xs).take n ≠ dumpsItems xs := by
        intro heq
        have hlen := congrArg List.length heq
        rw [List.length_take] at hlen
        rw [List.length_cons] at h
        omega
      have hopen := open_dumpsItems xs _ (List.take_prefix n _) hne
      omega

end SmartDisk.JsonText
