import SmartDisk.ActionSystem
import Mathlib.Algebra.Order.BigOperators.Group.Finset
import Mathlib.Data.List.FinRange

/-!
# Workers on a bounded queue that can be joined

A main thread puts elements into a bounded queue, then a sentinel for each worker, waits
until every entry has been marked as done and then for the workers to end. A worker takes
entries until it finds a sentinel and adds its own totals to the shared ones at the end.
An exception that a worker does not catch ends it: the element it holds is never marked.
A sentinel is `none`.
-/
namespace SmartDisk.JoinablePools
open ActionSystem

/-- `construct i` is whether worker `i` gets to its loop, and `work` what an element adds to
the worker's totals, or that it ends the worker. -/
structure Pool (X M : Type) (n : ℕ) where
  jobs : List X
  construct : Fin n → Bool
  work : X → Option M
  capacity : ℕ
  capacity_pos : 0 < capacity

inductive Worker (X M : Type) where
  | start
  | getting (totals : M)
  | working (x : X) (totals : M)
  | marking (totals : M)
  | leaving (totals : M)
  | flushing (totals : M)
  | exited
  | died (unmarked : Option X)

def Worker.over {X M : Type} : Worker X M → Bool
  | .exited | .died _ => true
  | _ => false

inductive Main (X : Type) (n : ℕ) where
  | putting (rest : List X)
  | closing (sentinels : ℕ)
  | joining
  | waiting (workers : List (Fin n))
  | finished

structure State (X M : Type) (n : ℕ) where
  main : Main X n
  q : List (Option X) := []
  unfinished : ℕ := 0
  workers : Fin n → Worker X M := fun _ => .start
  total : M

inductive Action (n : ℕ) where
  | main
  | worker (i : Fin n)

variable {X M : Type} {n : ℕ} (c : Pool X M n)

def State.set (s : State X M n) (i : Fin n) (w : Worker X M) : State X M n :=
  { s with workers := Function.update s.workers i w }

/-- A put waits while the queue is full. -/
def step_main (s : State X M n) : Option (State X M n) :=
  match s.main with
  | .putting [] => some { s with main := .closing n }
  | .putting (x :: rest) =>
      if s.q.length < c.capacity then
        some { s with
          main := .putting rest, q := s.q ++ [some x], unfinished := s.unfinished + 1 }
      else none
  | .closing 0 => some { s with main := .joining }
  | .closing (k + 1) =>
      if s.q.length < c.capacity then
        some { s with
          main := .closing k, q := s.q ++ [none], unfinished := s.unfinished + 1 }
      else none
  | .joining =>
      if s.unfinished = 0 then some { s with main := .waiting (List.finRange n) } else none
  | .waiting [] => some { s with main := .finished }
  | .waiting (i :: rest) =>
      if (s.workers i).over then some { s with main := .waiting rest } else none
  | .finished => none

/-! ### The main thread -/

inductive Advances (s : State X M n) : State X M n → Prop
  | closes : s.main = .putting [] → Advances s { s with main := .closing n }
  | puts (x : X) (rest : List X) : s.main = .putting (x :: rest) → s.q.length < c.capacity →
      Advances s { s with
        main := .putting rest, q := s.q ++ [some x], unfinished := s.unfinished + 1 }
  | closed : s.main = .closing 0 → Advances s { s with main := .joining }
  | sentinel (k : ℕ) : s.main = .closing (k + 1) → s.q.length < c.capacity →
      Advances s { s with
        main := .closing k, q := s.q ++ [none], unfinished := s.unfinished + 1 }
  | joins : s.main = .joining → s.unfinished = 0 →
      Advances s { s with main := .waiting (List.finRange n) }
  | waits (i : Fin n) (rest : List (Fin n)) : s.main = .waiting (i :: rest) →
      (s.workers i).over = true → Advances s { s with main := .waiting rest }
  | ends : s.main = .waiting [] → Advances s { s with main := .finished }

variable {c} {s t : State X M n}

theorem step_main_advances (h : step_main c s = some t) : Advances c s t := by
  unfold step_main at h
  cases hm : s.main with
  | putting rest =>
    cases rest with
    | nil =>
      simp only [hm, Option.some.injEq] at h
      exact h ▸ .closes hm
    | cons x rest =>
      simp only [hm, Option.ite_none_right_eq_some, Option.some.injEq] at h
      exact h.2 ▸ .puts x rest hm h.1
  | closing k =>
    cases k with
    | zero =>
      simp only [hm, Option.some.injEq] at h
      exact h ▸ .closed hm
    | succ k =>
      simp only [hm, Option.ite_none_right_eq_some, Option.some.injEq] at h
      exact h.2 ▸ .sentinel k hm h.1
  | joining =>
    simp only [hm, Option.ite_none_right_eq_some, Option.some.injEq] at h
    exact h.2 ▸ .joins hm h.1
  | waiting is =>
    cases is with
    | nil =>
      simp only [hm, Option.some.injEq] at h
      exact h ▸ .ends hm
    | cons i rest =>
      simp only [hm, Option.ite_none_right_eq_some, Option.some.injEq] at h
      exact h.2 ▸ .waits i rest hm h.1
  | finished =>
    simp only [hm] at h
    cases h

/-! ### The count of unfinished entries -/

/-- The entries a worker has taken and not marked. -/
def Worker.unmarked : Worker X M → ℕ
  | .working _ _ | .marking _ | .leaving _ | .died (some _) => 1
  | .start | .getting _ | .flushing _ | .exited | .died none => 0

/-- The sentinels a worker has taken. -/
def Worker.closed : Worker X M → ℕ
  | .leaving _ | .flushing _ | .exited => 1
  | .start | .getting _ | .working _ _ | .marking _ | .died _ => 0

/-- The sentinels that are still to be put. -/
def Main.unclosed : Main X n → ℕ
  | .putting _ => n
  | .closing k => k
  | .joining | .waiting _ | .finished => 0

/-- Replacing one worker. -/
theorem sum_set {A : Type*} [AddCommMonoid A] [IsRightCancelAdd A] (f : Worker X M → A)
    (s : State X M n) (i : Fin n) (w : Worker X M) :
    ∑ j, f ((s.set i w).workers j) + f (s.workers i) = ∑ j, f (s.workers j) + f w :=
  sum_update_balance (fun _ => f) s.workers i w (add_comm _ _)

def Counted (s : State X M n) : Prop :=
  s.unfinished = s.q.length + ∑ i, (s.workers i).unmarked

theorem Counted.pos (h : Counted s) {i : Fin n} (hi : (s.workers i).unmarked = 1) :
    s.unfinished ≠ 0 := by
  have hle : (s.workers i).unmarked ≤ ∑ j, (s.workers j).unmarked :=
    Finset.single_le_sum (f := fun j => (s.workers j).unmarked) (fun _ _ => Nat.zero_le _)
      (Finset.mem_univ i)
  unfold Counted at h
  omega

/-- No worker marks more entries than there are. -/
theorem Counted.not_overmarked (h : Counted s) {i : Fin n} {totals : M}
    (hw : s.workers i = .marking totals ∨ s.workers i = .leaving totals) : s.unfinished ≠ 0 := by
  rcases hw with hw | hw
  · exact h.pos (i := i) (by rw [hw]; rfl)
  · exact h.pos (i := i) (by rw [hw]; rfl)

theorem Advances.counted (h : Advances c s t) (hs : Counted s) : Counted t := by
  unfold Counted at hs ⊢
  cases h with
  | puts x rest | sentinel k =>
    rw [List.length_append, List.length_singleton]
    change s.unfinished + 1 = s.q.length + 1 + ∑ i, (s.workers i).unmarked
    omega
  | closes | closed | joins | waits | ends => exact hs

/-! ### The workers -/

section
variable [AddCommMonoid M]

variable (c) in
/-- A get waits while the queue is empty. Marking more entries than were put is an error. -/
def step_worker (i : Fin n) (s : State X M n) : Option (State X M n) :=
  match s.workers i with
  | .start => some (s.set i (if c.construct i then .getting 0 else .died none))
  | .getting totals =>
      match s.q with
      | [] => none
      | some x :: q => some { s.set i (.working x totals) with q }
      | none :: q => some { s.set i (.leaving totals) with q }
  | .working x totals =>
      match c.work x with
      | some m => some (s.set i (.marking (totals + m)))
      | none => some (s.set i (.died (some x)))
  | .marking totals =>
      if s.unfinished = 0 then some (s.set i (.died none))
      else some { s.set i (.getting totals) with unfinished := s.unfinished - 1 }
  | .leaving totals =>
      if s.unfinished = 0 then some (s.set i (.died none))
      else some { s.set i (.flushing totals) with unfinished := s.unfinished - 1 }
  | .flushing totals => some { s.set i .exited with total := s.total + totals }
  | .exited | .died _ => none

variable (c) in
def system : System (State X M n) (Action n) where
  start := { main := .putting c.jobs, total := 0 }
  step
    | .main, s => step_main c s
    | .worker i, s => step_worker c i s

variable (c) in
inductive Works (i : Fin n) (s : State X M n) : State X M n → Prop
  | starts : s.workers i = .start → c.construct i = true → Works i s (s.set i (.getting 0))
  | fails : s.workers i = .start → c.construct i = false → Works i s (s.set i (.died none))
  | takes (x : X) (q : List (Option X)) (totals : M) : s.workers i = .getting totals →
      s.q = some x :: q → Works i s { s.set i (.working x totals) with q }
  | takes_sentinel (q : List (Option X)) (totals : M) : s.workers i = .getting totals →
      s.q = none :: q → Works i s { s.set i (.leaving totals) with q }
  | works (x : X) (totals m : M) : s.workers i = .working x totals → c.work x = some m →
      Works i s (s.set i (.marking (totals + m)))
  | breaks (x : X) (totals : M) : s.workers i = .working x totals → c.work x = none →
      Works i s (s.set i (.died (some x)))
  | marks (totals : M) : s.workers i = .marking totals → s.unfinished ≠ 0 →
      Works i s { s.set i (.getting totals) with unfinished := s.unfinished - 1 }
  | marks_sentinel (totals : M) : s.workers i = .leaving totals → s.unfinished ≠ 0 →
      Works i s { s.set i (.flushing totals) with unfinished := s.unfinished - 1 }
  | overmarks (totals : M) :
      s.workers i = .marking totals ∨ s.workers i = .leaving totals → s.unfinished = 0 →
      Works i s (s.set i (.died none))
  | flushes (totals : M) : s.workers i = .flushing totals →
      Works i s { s.set i .exited with total := s.total + totals }

theorem step_worker_works {i : Fin n} (h : step_worker c i s = some t) : Works c i s t := by
  unfold step_worker at h
  cases hw : s.workers i with
  | start =>
    simp only [hw, Option.some.injEq] at h
    cases hc : c.construct i with
    | true =>
      rw [hc, if_pos rfl] at h
      exact h ▸ .starts hw hc
    | false =>
      rw [hc, if_neg Bool.false_ne_true] at h
      exact h ▸ .fails hw hc
  | getting totals =>
    cases hq : s.q with
    | nil =>
      simp only [hw, hq] at h
      cases h
    | cons entry q =>
      cases entry with
      | some x =>
        simp only [hw, hq, Option.some.injEq] at h
        exact h ▸ .takes x q totals hw hq
      | none =>
        simp only [hw, hq, Option.some.injEq] at h
        exact h ▸ .takes_sentinel q totals hw hq
  | working x totals =>
    cases hx : c.work x with
    | some m =>
      simp only [hw, hx, Option.some.injEq] at h
      exact h ▸ .works x totals m hw hx
    | none =>
      simp only [hw, hx, Option.some.injEq] at h
      exact h ▸ .breaks x totals hw hx
  | marking totals =>
    simp only [hw] at h
    split_ifs at h with hu
    · exact Option.some.inj h ▸ .overmarks totals (.inl hw) hu
    · exact Option.some.inj h ▸ .marks totals hw hu
  | leaving totals =>
    simp only [hw] at h
    split_ifs at h with hu
    · exact Option.some.inj h ▸ .overmarks totals (.inr hw) hu
    · exact Option.some.inj h ▸ .marks_sentinel totals hw hu
  | flushing totals =>
    simp only [hw, Option.some.injEq] at h
    exact h ▸ .flushes totals hw
  | exited =>
    simp only [hw] at h
    cases h
  | died x =>
    simp only [hw] at h
    cases h

theorem Works.counted {i : Fin n} (h : Works c i s t) (hs : Counted s) : Counted t := by
  have hset := fun w => sum_set Worker.unmarked s i w
  cases h with
  | starts hw hc =>
    have h := hset (.getting 0)
    rw [hw] at h
    exact hs.trans (congrArg _ h.symm)
  | fails hw hc =>
    have h := hset (.died none)
    rw [hw] at h
    exact hs.trans (congrArg _ h.symm)
  | takes x q totals hw hq =>
    have h := hset (.working x totals)
    rw [hw] at h
    unfold Counted at hs ⊢
    rw [hq, List.length_cons] at hs
    change s.unfinished = q.length + ∑ j, ((s.set i (.working x totals)).workers j).unmarked
    change _ + 0 = _ + 1 at h
    omega
  | takes_sentinel q totals hw hq =>
    have h := hset (.leaving totals)
    rw [hw] at h
    unfold Counted at hs ⊢
    rw [hq, List.length_cons] at hs
    change s.unfinished = q.length + ∑ j, ((s.set i (.leaving totals)).workers j).unmarked
    change _ + 0 = _ + 1 at h
    omega
  | works x totals m hw hx =>
    have h := hset (.marking (totals + m))
    rw [hw] at h
    exact hs.trans (congrArg _ (Nat.add_right_cancel h).symm)
  | breaks x totals hw hx =>
    have h := hset (.died (some x))
    rw [hw] at h
    exact hs.trans (congrArg _ (Nat.add_right_cancel h).symm)
  | marks totals hw hu =>
    have h := hset (.getting totals)
    rw [hw] at h
    unfold Counted at hs ⊢
    change s.unfinished - 1 = s.q.length + ∑ j, ((s.set i (.getting totals)).workers j).unmarked
    change _ + 1 = _ + 0 at h
    omega
  | marks_sentinel totals hw hu =>
    have h := hset (.flushing totals)
    rw [hw] at h
    unfold Counted at hs ⊢
    change s.unfinished - 1 = s.q.length + ∑ j, ((s.set i (.flushing totals)).workers j).unmarked
    change _ + 1 = _ + 0 at h
    omega
  | overmarks totals hw hu => exact absurd hu (hs.not_overmarked hw)
  | flushes totals hw =>
    have h := hset .exited
    rw [hw] at h
    exact hs.trans (congrArg _ h.symm)


/-! ### The sentinels -/

/-- Elements come before sentinels, and when a worker has found a sentinel no element is left.
Every sentinel is still to be put, in the queue or taken. -/
def Ordered (s : State X M n) : Prop :=
  ∃ (xs : List X) (k : ℕ), s.q = xs.map some ++ List.replicate k none ∧
    k + ∑ i, (s.workers i).closed + s.main.unclosed = n ∧
    (∑ i, (s.workers i).closed ≠ 0 → xs = [])

omit [AddCommMonoid M] in
theorem Advances.ordered (h : Advances c s t) (hs : Ordered s) : Ordered t := by
  obtain ⟨xs, k, hq, hn, hxs⟩ := hs
  cases h with
  | closes hm | closed hm =>
    rw [hm] at hn
    exact ⟨xs, k, hq, hn, hxs⟩
  | joins hm | waits i rest hm | ends hm =>
    rw [hm] at hn
    exact ⟨xs, k, hq, hn, hxs⟩
  | puts x rest hm hroom =>
    rw [hm] at hn
    change k + ∑ i, (s.workers i).closed + n = n at hn
    obtain rfl : k = 0 := by omega
    have hzero : ∑ i, (s.workers i).closed = 0 := by omega
    refine ⟨xs ++ [x], 0, ?_, hn, fun h => absurd hzero h⟩
    change s.q ++ [some x] = _
    rw [hq, List.replicate_zero, List.append_nil, List.append_nil, List.map_append]
    rfl
  | sentinel j hm hroom =>
    rw [hm] at hn
    change k + ∑ i, (s.workers i).closed + (j + 1) = n at hn
    refine ⟨xs, k + 1, ?_, ?_, hxs⟩
    · change s.q ++ [none] = _
      rw [hq, List.append_assoc, List.replicate_succ']
    · change k + 1 + ∑ i, (s.workers i).closed + j = n
      omega

omit [AddCommMonoid M] in
/-- A step of a worker that is not about a sentinel. -/
theorem Ordered.set (hs : Ordered s) {i : Fin n} {w : Worker X M}
    (hw : w.closed = (s.workers i).closed) {q : List (Option X)}
    (hq : s.q = q ∨ ∃ x, s.q = some x :: q) (unfinished : ℕ) (total : M) :
    Ordered { s.set i w with q, unfinished, total } := by
  obtain ⟨xs, k, hsplit, hn, hxs⟩ := hs
  have hsum : ∑ j, ((s.set i w).workers j).closed = ∑ j, (s.workers j).closed := by
    have h := sum_set Worker.closed s i w
    rw [hw] at h
    exact Nat.add_right_cancel h
  rcases hq with rfl | ⟨x, hx⟩
  · exact ⟨xs, k, hsplit, hsum.symm ▸ hn, hsum.symm ▸ hxs⟩
  · cases xs with
    | nil =>
      rw [hx] at hsplit
      cases k with
      | zero => cases hsplit
      | succ k => exact nomatch (List.cons.inj hsplit).1
    | cons y xs =>
      rw [hx] at hsplit
      refine ⟨xs, k, (List.cons.inj hsplit).2, hsum.symm ▸ hn, fun h => ?_⟩
      exact nomatch hxs (hsum ▸ h)

theorem Works.ordered {i : Fin n} (h : Works c i s t) (hcount : Counted s) (hs : Ordered s) :
    Ordered t := by
  cases h with
  | starts hw hc => exact hs.set (by rw [hw]; rfl) (.inl rfl) _ _
  | fails hw hc => exact hs.set (by rw [hw]; rfl) (.inl rfl) _ _
  | takes x q totals hw hq => exact hs.set (by rw [hw]; rfl) (.inr ⟨x, hq⟩) _ _
  | works x totals m hw hx => exact hs.set (by rw [hw]; rfl) (.inl rfl) _ _
  | breaks x totals hw hx => exact hs.set (by rw [hw]; rfl) (.inl rfl) _ _
  | marks totals hw hu => exact hs.set (by rw [hw]; rfl) (.inl rfl) _ _
  | marks_sentinel totals hw hu => exact hs.set (by rw [hw]; rfl) (.inl rfl) _ _
  | flushes totals hw => exact hs.set (by rw [hw]; rfl) (.inl rfl) _ _
  | overmarks totals hw hu => exact absurd hu (hcount.not_overmarked hw)
  | takes_sentinel q totals hw hq =>
    obtain ⟨xs, k, hsplit, hn, hxs⟩ := hs
    have hsum := sum_set Worker.closed s i (.leaving totals)
    rw [hw] at hsum
    change ∑ j, ((s.set i (.leaving totals)).workers j).closed + 0 = _ + 1 at hsum
    rw [hq] at hsplit
    cases xs with
    | cons x xs => exact nomatch (List.cons.inj hsplit).1
    | nil =>
      cases k with
      | zero => cases hsplit
      | succ k =>
        refine ⟨[], k, (List.cons.inj hsplit).2, ?_, fun _ => rfl⟩
        change k + ∑ j, ((s.set i (.leaving totals)).workers j).closed + s.main.unclosed = n
        omega

theorem reachable_counted (hs : (system c).Reachable s) : Counted s ∧ Ordered s := by
  refine hs.invariant (I := fun s => Counted s ∧ Ordered s) ⟨?_, [], 0, rfl, ?_, fun _ => rfl⟩ ?_
  · change 0 = 0 + ∑ _ : Fin n, 0
    rw [Finset.sum_const_zero, Nat.add_zero]
  · change 0 + ∑ _ : Fin n, 0 + n = n
    rw [Finset.sum_const_zero, Nat.zero_add, Nat.zero_add]
  · rintro a s t ⟨hcount, horder⟩ - h
    cases a with
    | main => exact ⟨(step_main_advances h).counted hcount, (step_main_advances h).ordered horder⟩
    | worker i =>
      exact ⟨(step_worker_works h).counted hcount, (step_worker_works h).ordered hcount horder⟩

/-! ### After the join -/

def Main.joined : Main X n → Bool
  | .waiting _ | .finished => true
  | _ => false

/-- Nothing is unfinished after the join. -/
def Joined (s : State X M n) : Prop := s.main.joined = true → s.unfinished = 0

omit [AddCommMonoid M] in
theorem Advances.joined (h : Advances c s t) (hs : Joined s) : Joined t := by
  unfold Joined at hs ⊢
  cases h with
  | closes | puts | closed | sentinel => exact nofun
  | joins hm hu => exact fun _ => hu
  | waits i rest hm =>
    rw [hm] at hs
    exact hs
  | ends hm =>
    rw [hm] at hs
    exact hs

theorem Works.joined {i : Fin n} (h : Works c i s t) (hs : Joined s) : Joined t := by
  unfold Joined at hs ⊢
  cases h with
  | marks totals hw hu | marks_sentinel totals hw hu => exact fun h => absurd (hs h) hu
  | starts | fails | takes | takes_sentinel | works | breaks | overmarks | flushes => exact hs

theorem reachable_joined (hs : (system c).Reachable s) : Joined s := by
  refine hs.invariant nofun ?_
  intro a s t hs _ h
  cases a with
  | main => exact (step_main_advances h).joined hs
  | worker i => exact (step_worker_works h).joined hs

/-- After the join the queue is empty, nothing is left unmarked, and every worker has taken
its sentinel. -/
theorem all_closed (hs : (system c).Reachable s) (hj : s.main.joined = true) :
    s.q = [] ∧ ∀ i, (s.workers i).unmarked = 0 ∧ (s.workers i).closed = 1 := by
  obtain ⟨hcount, xs, k, hq, hn, hxs⟩ := reachable_counted hs
  have hzero := reachable_joined hs hj
  unfold Counted at hcount
  have hunclosed : s.main.unclosed = 0 := by
    cases hm : s.main with
    | waiting is | finished => rfl
    | putting rest | closing j | joining =>
      rw [hm] at hj
      cases hj
  have hempty : s.q = [] := List.eq_nil_of_length_eq_zero (by omega)
  have hk : k = 0 := by
    rw [hempty] at hq
    have hlength := congrArg List.length hq
    rw [List.length_append, List.length_replicate] at hlength
    change 0 = _ at hlength
    omega
  have hmarked : ∑ i, (s.workers i).unmarked = 0 := by omega
  have hclosed : ∑ i, (s.workers i).closed = ∑ _ : Fin n, 1 := by
    rw [← Finset.card_eq_sum_ones, Finset.card_univ, Fintype.card_fin]
    omega
  have hle : ∀ i ∈ Finset.univ, (s.workers i).closed ≤ 1 := by
    intro i _
    unfold Worker.closed
    split <;> omega
  exact ⟨hempty, fun i => ⟨Finset.sum_eq_zero_iff.mp hmarked i (Finset.mem_univ i),
    (Finset.sum_eq_sum_iff_of_le hle).mp hclosed i (Finset.mem_univ i)⟩⟩


/-! ### When the join never comes -/

/-- A worker whose construction fails never takes a sentinel. -/
theorem never_joins_of_construct {i : Fin n} (hi : c.construct i = false)
    (hs : (system c).Reachable s) : s.main.joined = false := by
  have hnever : s.workers i = .start ∨ s.workers i = .died none := by
    refine hs.invariant (I := fun s => s.workers i = .start ∨ s.workers i = .died none)
      (.inl rfl) ?_
    intro a s t hs _ h
    cases a with
    | main => cases step_main_advances h <;> exact hs
    | worker j =>
      by_cases hj : i = j
      · subst hj
        cases step_worker_works h with
        | starts hw hc =>
          rw [hi] at hc
          cases hc
        | fails hw hc => exact .inr (Function.update_self ..)
        | takes x q totals hw | takes_sentinel q totals hw | works x totals m hw
          | breaks x totals hw | marks totals hw | marks_sentinel totals hw | flushes totals hw =>
          rcases hs with hs | hs <;> · rw [hw] at hs; cases hs
        | overmarks totals hw hu =>
          rcases hs with hs | hs <;> rcases hw with hw | hw <;> · rw [hw] at hs; cases hs
      · have hsame : t.workers i = s.workers i := by
          cases step_worker_works h <;> exact Function.update_of_ne hj ..
        rw [hsame]
        exact hs
  cases hj : s.main.joined with
  | false => rfl
  | true =>
    have hclosed := ((all_closed hs hj).2 i).2
    rcases hnever with h | h <;> · rw [h] at hclosed; cases hclosed

/-- Where an element that ends its worker can be. -/
def Lost (x : X) (s : State X M n) : Prop :=
  (∃ rest, s.main = .putting rest ∧ x ∈ rest) ∨ some x ∈ s.q ∨
    ∃ i, (∃ totals, s.workers i = .working x totals) ∨ s.workers i = .died (some x)

theorem Works.lost {i : Fin n} {x : X} (hx : c.work x = none) (h : Works c i s t)
    (hs : Lost x s) : Lost x t := by
  have hkeep : ∀ (w : Worker X M) (j : Fin n), j ≠ i →
      (s.set i w).workers j = s.workers j := fun w j hj => Function.update_of_ne hj ..
  have hset : ∀ w : Worker X M, (s.set i w).workers i = w := fun w => Function.update_self ..
  rcases hs with ⟨rest, hm, hrest⟩ | hq | ⟨j, hj⟩
  · cases h <;> exact .inl ⟨rest, hm, hrest⟩
  · cases h with
    | takes y q totals hw hy =>
      rw [hy] at hq
      rcases List.mem_cons.mp hq with hxy | hq
      · cases hxy
        exact .inr (.inr ⟨i, .inl ⟨totals, hset _⟩⟩)
      · exact .inr (.inl hq)
    | takes_sentinel q totals hw hy =>
      rw [hy] at hq
      exact .inr (.inl ((List.mem_cons.mp hq).resolve_left nofun))
    | starts | fails | works | breaks | marks | marks_sentinel | overmarks | flushes =>
      exact .inr (.inl hq)
  · by_cases hji : j = i
    · subst hji
      rcases hj with ⟨totals, hj⟩ | hj
      · cases h with
        | breaks y totals' hw hy =>
          rw [hj] at hw
          cases hw
          exact .inr (.inr ⟨j, .inr (hset _)⟩)
        | works y totals' m hw hy =>
          rw [hj] at hw
          cases hw
          rw [hx] at hy
          cases hy
        | starts hw | fails hw | takes y q totals' hw | takes_sentinel q totals' hw
          | marks totals' hw | marks_sentinel totals' hw | flushes totals' hw =>
          rw [hj] at hw
          cases hw
        | overmarks totals' hw =>
          rw [hj] at hw
          rcases hw with hw | hw <;> cases hw
      · cases h with
        | starts hw | fails hw | takes y q totals' hw | takes_sentinel q totals' hw
          | works y totals' m hw | breaks y totals' hw | marks totals' hw
          | marks_sentinel totals' hw | flushes totals' hw =>
          rw [hj] at hw
          cases hw
        | overmarks totals' hw =>
          rw [hj] at hw
          rcases hw with hw | hw <;> cases hw
    · have hsame : t.workers j = s.workers j := by
        cases h <;> exact hkeep _ j hji
      exact .inr (.inr ⟨j, by rw [hsame]; exact hj⟩)

omit [AddCommMonoid M] in
theorem Advances.lost {x : X} (h : Advances c s t) (hs : Lost x s) : Lost x t := by
  rcases hs with ⟨rest, hm, hrest⟩ | hq | hw
  · cases h with
    | puts y rest' hm' =>
      rw [hm] at hm'
      cases hm'
      rcases List.mem_cons.mp hrest with rfl | hrest
      · exact .inr (.inl (List.mem_append_right _ (List.mem_singleton_self _)))
      · exact .inl ⟨rest', rfl, hrest⟩
    | closes hm' =>
      rw [hm] at hm'
      cases hm'
      cases hrest
    | closed hm' | sentinel k hm' | joins hm' | waits i rest' hm' | ends hm' =>
      rw [hm] at hm'
      cases hm'
  · cases h with
    | puts | sentinel => exact .inr (.inl (List.mem_append_left _ hq))
    | closes | closed | joins | waits | ends => exact .inr (.inl hq)
  · cases h <;> exact .inr (.inr hw)

/-- An element that ends its worker is never marked. -/
theorem never_joins_of_work {x : X} (hx : x ∈ c.jobs) (hwork : c.work x = none)
    (hs : (system c).Reachable s) : s.main.joined = false := by
  have hlost : Lost x s := by
    refine hs.invariant (.inl ⟨c.jobs, rfl, hx⟩) ?_
    intro a s t hs _ h
    cases a with
    | main => exact (step_main_advances h).lost hs
    | worker i => exact (step_worker_works h).lost hwork hs
  cases hj : s.main.joined with
  | false => rfl
  | true =>
    obtain ⟨hq, hall⟩ := all_closed hs hj
    rcases hlost with ⟨rest, hm, -⟩ | hmem | ⟨i, ⟨totals, hi⟩ | hi⟩
    · rw [hm] at hj
      cases hj
    · rw [hq] at hmem
      cases hmem
    · have h := (hall i).1
      rw [hi] at h
      cases h
    · have h := (hall i).1
      rw [hi] at h
      cases h


/-- Without workers an element stays in the queue. -/
theorem never_joins_of_no_worker (hn : n = 0) {x : X} (hx : x ∈ c.jobs)
    (hs : (system c).Reachable s) : s.main.joined = false := by
  subst hn
  have hlost : Lost x s := by
    refine hs.invariant (.inl ⟨c.jobs, rfl, hx⟩) ?_
    intro a s t hs _ h
    cases a with
    | main => exact (step_main_advances h).lost hs
    | worker i => exact i.elim0
  cases hj : s.main.joined with
  | false => rfl
  | true =>
    rcases hlost with ⟨rest, hm, -⟩ | hmem | ⟨i, -⟩
    · rw [hm] at hj
      cases hj
    · rw [(all_closed hs hj).1] at hmem
      cases hmem
    · exact i.elim0

/-! ### The totals -/

variable (c)

/-- What an element adds. -/
def Pool.value (x : X) : M := (c.work x).getD 0

def Pool.values (xs : List X) : M := (xs.map c.value).sum

/-- What is still to be added from the queue. -/
def Pool.queued (q : List (Option X)) : M := c.values (q.filterMap id)

/-- What a worker has to add to the shared totals. -/
def Pool.carried : Worker X M → M
  | .working x totals => totals + c.value x
  | .getting totals | .marking totals | .leaving totals | .flushing totals => totals
  | .start | .exited | .died _ => 0

def Pool.unput : Main X n → M
  | .putting rest => c.values rest
  | .closing _ | .joining | .waiting _ | .finished => 0

/-- Every constructor and every element succeeds, and there is a worker for the elements. -/
structure Pool.Sound : Prop where
  construct : ∀ i, c.construct i = true
  work : ∀ x ∈ c.jobs, ∃ m, c.work x = some m
  staffed : c.jobs ≠ [] → 0 < n

variable {c}

theorem Pool.values_cons (x : X) (xs : List X) :
    c.values (x :: xs) = c.value x + c.values xs := List.sum_cons

theorem Pool.queued_concat (q : List (Option X)) (x : X) :
    c.queued (q ++ [some x]) = c.queued q + c.value x := by
  unfold Pool.queued Pool.values
  rw [List.filterMap_append, List.map_append, List.sum_append]
  change _ + (c.value x + 0) = _
  rw [add_zero]

theorem Pool.queued_concat_sentinel (q : List (Option X)) :
    c.queued (q ++ [none]) = c.queued q := by
  unfold Pool.queued
  rw [List.filterMap_append]
  exact congrArg c.values (List.append_nil _)

/-- No worker has died, and nothing has been added twice or left out. -/
structure Balanced (c : Pool X M n) (s : State X M n) : Prop where
  alive : ∀ i x, s.workers i ≠ .died x
  total : s.total + ∑ i, c.carried (s.workers i) + c.queued s.q + c.unput s.main =
    c.values c.jobs

theorem Advances.balanced (h : Advances c s t) (hs : Balanced c s) : Balanced c t := by
  obtain ⟨halive, htotal⟩ := hs
  cases h with
  | puts x rest hm hroom =>
    refine ⟨halive, ?_⟩
    rw [hm, Pool.unput, Pool.values_cons] at htotal
    rw [Pool.queued_concat]
    change s.total + ∑ i, c.carried (s.workers i) + (c.queued s.q + c.value x) + c.values rest = _
    rw [← htotal]
    abel
  | sentinel k hm hroom =>
    refine ⟨halive, ?_⟩
    rw [hm] at htotal
    rw [Pool.queued_concat_sentinel]
    exact htotal
  | closes hm | closed hm | joins hm | waits i rest hm | ends hm =>
    refine ⟨halive, ?_⟩
    rw [hm] at htotal
    exact htotal

/-- Every element on its way is a job. -/
structure Drawn (c : Pool X M n) (s : State X M n) : Prop where
  rest : ∀ rest, s.main = .putting rest → ∀ x ∈ rest, x ∈ c.jobs
  queue : ∀ x, some x ∈ s.q → x ∈ c.jobs
  held : ∀ i x totals, s.workers i = .working x totals → x ∈ c.jobs

omit [AddCommMonoid M] in
theorem Advances.drawn (h : Advances c s t) (hs : Drawn c s) : Drawn c t := by
  cases h with
  | puts x rest hm =>
    have hall := hs.rest _ hm
    refine ⟨?_, ?_, hs.held⟩
    · rintro rest' hrest y hy
      cases hrest
      exact hall y (List.mem_cons_of_mem x hy)
    · intro y hy
      rcases List.mem_append.mp hy with hy | hy
      · exact hs.queue y hy
      · exact hall y (by cases List.mem_singleton.mp hy; exact List.mem_cons_self)
  | sentinel k hm =>
    refine ⟨nofun, ?_, hs.held⟩
    intro y hy
    exact hs.queue y ((List.mem_append.mp hy).resolve_right (by simp))
  | closes | closed | joins | waits | ends => exact ⟨nofun, hs.queue, hs.held⟩

theorem Works.drawn {i : Fin n} (h : Works c i s t) (hs : Drawn c s) : Drawn c t := by
  have hheld : ∀ w : Worker X M, (∀ x totals, w = .working x totals → x ∈ c.jobs) →
      ∀ j x totals, (s.set i w).workers j = .working x totals → x ∈ c.jobs := by
    intro w hw j x totals hj
    by_cases hji : j = i
    · subst hji
      change Function.update s.workers j w j = _ at hj
      rw [Function.update_self] at hj
      exact hw x totals hj
    · change Function.update s.workers i w j = _ at hj
      rw [Function.update_of_ne hji] at hj
      exact hs.held j x totals hj
  cases h with
  | takes x q totals hw hq =>
    have hqueue : ∀ y, some y ∈ some x :: q → y ∈ c.jobs := hq ▸ hs.queue
    refine ⟨hs.rest, fun y hy => hqueue y (List.mem_cons_of_mem _ hy), hheld _ ?_⟩
    intro y totals' hy
    cases hy
    exact hqueue x List.mem_cons_self
  | takes_sentinel q totals hw hq =>
    refine ⟨hs.rest, fun y hy => hs.queue y ?_, hheld _ nofun⟩
    rw [hq]
    exact List.mem_cons_of_mem _ hy
  | starts | fails | works | breaks | marks | marks_sentinel | overmarks | flushes =>
    exact ⟨hs.rest, hs.queue, hheld _ nofun⟩

theorem reachable_drawn (hs : (system c).Reachable s) : Drawn c s := by
  refine hs.invariant (I := Drawn c) ?_ ?_
  · constructor
    · rintro rest hrest x hx
      cases hrest
      exact hx
    · intro x hx
      cases hx
    · intro i x totals hx
      cases hx
  · intro a s t hs _ h
    cases a with
    | main => exact (step_main_advances h).drawn hs
    | worker i => exact (step_worker_works h).drawn hs

section
variable [IsRightCancelAdd M]

/-- A step of a worker that moves what it has to add. -/
theorem Balanced.set (hs : Balanced c s) {i : Fin n} {w : Worker X M} (halive : ∀ x, w ≠ .died x)
    {q : List (Option X)} {total : M}
    (hmoved : total + c.carried w + c.queued q =
      s.total + c.carried (s.workers i) + c.queued s.q) (unfinished : ℕ) :
    Balanced c { s.set i w with q, total, unfinished } := by
  have hsum := sum_set c.carried s i w
  constructor
  · intro j x
    by_cases hj : j = i
    · subst hj
      change Function.update s.workers j w j ≠ _
      rw [Function.update_self]
      exact halive x
    · change Function.update s.workers i w j ≠ _
      rw [Function.update_of_ne hj]
      exact hs.alive j x
  · rw [← hs.total]
    apply add_right_cancel (b := c.carried (s.workers i))
    calc total + ∑ j, c.carried ((s.set i w).workers j) + c.queued q + c.unput s.main
          + c.carried (s.workers i)
        = total + c.queued q + c.unput s.main
            + (∑ j, c.carried ((s.set i w).workers j) + c.carried (s.workers i)) := by abel
      _ = (total + c.carried w + c.queued q) + c.unput s.main
            + ∑ j, c.carried (s.workers j) := by rw [hsum]; abel
      _ = s.total + ∑ j, c.carried (s.workers j) + c.queued s.q + c.unput s.main
            + c.carried (s.workers i) := by rw [hmoved]; abel


theorem Works.balanced {i : Fin n} (h : Works c i s t) (hsound : c.Sound) (hdrawn : Drawn c s)
    (hcount : Counted s) (hs : Balanced c s) : Balanced c t := by
  cases h with
  | starts hw hc =>
    refine hs.set (w := .getting 0) nofun ?_ _
    rw [hw]
    rfl
  | fails hw hc =>
    rw [hsound.construct] at hc
    cases hc
  | takes x q totals hw hq =>
    refine hs.set (w := .working x totals) nofun ?_ _
    rw [hw, hq]
    change s.total + (totals + c.value x) + c.queued q =
      s.total + totals + c.values (x :: q.filterMap id)
    rw [Pool.values_cons, ← add_assoc, ← add_assoc]
    rfl
  | takes_sentinel q totals hw hq =>
    refine hs.set (w := .leaving totals) nofun ?_ _
    rw [hw, hq]
    rfl
  | works x totals m hw hx =>
    refine hs.set (w := .marking (totals + m)) nofun ?_ _
    rw [hw]
    change s.total + (totals + m) + _ = s.total + (totals + (c.work x).getD 0) + _
    rw [hx, Option.getD_some]
  | breaks x totals hw hx =>
    obtain ⟨m, hm⟩ := hsound.work x (hdrawn.held i x totals hw)
    rw [hm] at hx
    cases hx
  | marks totals hw hu =>
    refine hs.set (w := .getting totals) nofun ?_ _
    rw [hw]
    rfl
  | marks_sentinel totals hw hu =>
    refine hs.set (w := .flushing totals) nofun ?_ _
    rw [hw]
    rfl
  | overmarks totals hw hu => exact absurd hu (hcount.not_overmarked hw)
  | flushes totals hw =>
    refine hs.set (w := .exited) nofun ?_ _
    rw [hw]
    change s.total + totals + 0 + _ = s.total + totals + _
    rw [add_zero]
    rfl

theorem reachable_balanced (hsound : c.Sound) (hs : (system c).Reachable s) : Balanced c s := by
  induction hs with
  | start =>
    refine ⟨fun _ _ => nofun, ?_⟩
    change (0 : M) + ∑ _ : Fin n, 0 + 0 + c.values c.jobs = c.values c.jobs
    rw [Finset.sum_const_zero, add_zero, add_zero, zero_add]
  | step a hs _ h ih =>
    cases a with
    | main => exact (step_main_advances h).balanced ih
    | worker i =>
      exact (step_worker_works h).balanced hsound (reachable_drawn hs) (reachable_counted hs).1 ih

end

/-! ### Every run ends -/

def Worker.rank : Worker X M → ℕ
  | .start | .marking _ | .flushing _ => 1
  | .working _ _ | .leaving _ => 2
  | .getting _ | .exited | .died _ => 0

def Main.rank : Main X n → ℕ
  | .putting rest => 4 * rest.length + 5 * n + 4
  | .closing k => 4 * k + n + 3
  | .joining => n + 2
  | .waiting rest => rest.length + 1
  | .finished => 0

/-- An entry in the queue costs a worker at most three steps. -/
def rank (s : State X M n) : ℕ := s.main.rank + 3 * s.q.length + ∑ i, (s.workers i).rank

theorem Works.rank_lt {i : Fin n} (h : Works c i s t) : rank t < rank s := by
  have hset := fun w => sum_set Worker.rank s i w
  unfold rank
  cases h with
  | starts hw hc =>
    have h := hset (.getting 0)
    rw [hw] at h
    change _ + 1 = _ + 0 at h
    change s.main.rank + 3 * s.q.length + _ < _
    omega
  | fails hw hc =>
    have h := hset (.died none)
    rw [hw] at h
    change _ + 1 = _ + 0 at h
    change s.main.rank + 3 * s.q.length + _ < _
    omega
  | takes x q totals hw hq =>
    have h := hset (.working x totals)
    rw [hw] at h
    change ∑ j, ((s.set i (.working x totals)).workers j).rank + 0 = _ + 2 at h
    rw [hq, List.length_cons]
    change s.main.rank + 3 * q.length + ∑ j, ((s.set i (.working x totals)).workers j).rank < _
    omega
  | takes_sentinel q totals hw hq =>
    have h := hset (.leaving totals)
    rw [hw] at h
    change ∑ j, ((s.set i (.leaving totals)).workers j).rank + 0 = _ + 2 at h
    rw [hq, List.length_cons]
    change s.main.rank + 3 * q.length + ∑ j, ((s.set i (.leaving totals)).workers j).rank < _
    omega
  | works x totals m hw hx =>
    have h := hset (.marking (totals + m))
    rw [hw] at h
    change _ + 2 = _ + 1 at h
    change s.main.rank + 3 * s.q.length + _ < _
    omega
  | breaks x totals hw hx =>
    have h := hset (.died (some x))
    rw [hw] at h
    change _ + 2 = _ + 0 at h
    change s.main.rank + 3 * s.q.length + _ < _
    omega
  | marks totals hw hu =>
    have h := hset (.getting totals)
    rw [hw] at h
    change ∑ j, ((s.set i (.getting totals)).workers j).rank + 1 = _ + 0 at h
    change s.main.rank + 3 * s.q.length + ∑ j, ((s.set i (.getting totals)).workers j).rank < _
    omega
  | marks_sentinel totals hw hu =>
    have h := hset (.flushing totals)
    rw [hw] at h
    change ∑ j, ((s.set i (.flushing totals)).workers j).rank + 2 = _ + 1 at h
    change s.main.rank + 3 * s.q.length + ∑ j, ((s.set i (.flushing totals)).workers j).rank < _
    omega
  | overmarks totals hw hu =>
    have h := hset (.died none)
    change _ = _ + 0 at h
    change s.main.rank + 3 * s.q.length + _ < _
    rcases hw with hw | hw <;> rw [hw] at h
    · change _ + 1 = _ + 0 at h
      omega
    · change _ + 2 = _ + 0 at h
      omega
  | flushes totals hw =>
    have h := hset .exited
    rw [hw] at h
    change ∑ j, ((s.set i .exited).workers j).rank + 1 = _ + 0 at h
    change s.main.rank + 3 * s.q.length + ∑ j, ((s.set i .exited).workers j).rank < _
    omega

omit [AddCommMonoid M] in
theorem Advances.rank_lt (h : Advances c s t) : rank t < rank s := by
  unfold rank
  cases h with
  | closes hm | closed hm | ends hm =>
    rw [hm]
    simp only [Main.rank, List.length_nil]
    omega
  | puts x rest hm | sentinel k hm =>
    rw [hm]
    simp only [Main.rank, List.length_append, List.length_cons, List.length_nil]
    omega
  | joins hm =>
    rw [hm]
    simp only [Main.rank, List.length_finRange]
    omega
  | waits i rest hm =>
    rw [hm]
    simp only [Main.rank, List.length_cons]
    omega

theorem step_rank_lt (a : Action n) (s t : State X M n) (h : (system c).step a s = some t) :
    rank t < rank s := by
  cases a with
  | main => exact (step_main_advances h).rank_lt
  | worker i => exact (step_worker_works h).rank_lt

/-! ### How a run ends -/

/-- Only a get from an empty queue holds a worker up. -/
theorem stuck_worker (halive : ∀ i x, s.workers i ≠ .died x) (hs : (system c).Stuck s)
    (i : Fin n) :
    s.workers i = .exited ∨ (∃ totals, s.workers i = .getting totals) ∧ s.q = [] := by
  have hnone : step_worker c i s = none := hs (.worker i)
  unfold step_worker at hnone
  cases hw : s.workers i with
  | exited => exact .inl rfl
  | died x => exact absurd hw (halive i x)
  | getting totals =>
    cases hq : s.q with
    | nil => exact .inr ⟨⟨totals, rfl⟩, rfl⟩
    | cons entry q =>
      cases entry <;> · simp only [hw, hq] at hnone; cases hnone
  | working x totals =>
    cases hx : c.work x <;> · simp only [hw, hx] at hnone; cases hnone
  | marking totals | leaving totals =>
    simp only [hw] at hnone
    split_ifs at hnone
  | start | flushing totals =>
    simp only [hw] at hnone
    cases hnone

/-- The queue of a stuck state is empty: workers that have all left have taken all sentinels. -/
theorem stuck_queue (hn : c.jobs ≠ [] → 0 < n) (halive : ∀ i x, s.workers i ≠ .died x)
    (hreach : (system c).Reachable s) (hs : (system c).Stuck s) : s.q = [] := by
  by_cases hq : s.q = []
  · exact hq
  · have hexited : ∀ i, s.workers i = .exited := fun i =>
      (stuck_worker halive hs i).resolve_right fun h => hq h.2
    obtain ⟨xs, k, hsplit, hcount, hxs⟩ := (reachable_counted hreach).2
    have hclosed : ∑ i, (s.workers i).closed = n := by
      calc ∑ i, (s.workers i).closed = ∑ _ : Fin n, 1 :=
            Finset.sum_congr rfl fun i _ => by rw [hexited i]; rfl
        _ = n := by rw [← Finset.card_eq_sum_ones, Finset.card_univ, Fintype.card_fin]
    have hk : k = 0 := by omega
    have hnil : xs = [] := by
      cases hx : xs with
      | nil => rfl
      | cons x rest =>
        have hjob := (reachable_drawn hreach).queue x (by rw [hsplit, hx]; exact List.mem_cons_self)
        have hpos := hn (List.ne_nil_of_mem hjob)
        rw [← hx]
        exact hxs (by omega)
    rw [hnil, hk] at hsplit
    exact absurd hsplit hq

theorem stuck_main (hn : c.jobs ≠ [] → 0 < n) (halive : ∀ i x, s.workers i ≠ .died x)
    (hreach : (system c).Reachable s) (hs : (system c).Stuck s) : s.main = .finished := by
  have hq := stuck_queue hn halive hreach hs
  have hroom : s.q.length < c.capacity := by
    rw [hq]
    exact c.capacity_pos
  have hnone : step_main c s = none := hs .main
  unfold step_main at hnone
  cases hm : s.main with
  | putting rest =>
    cases rest with
    | nil =>
      simp only [hm] at hnone
      cases hnone
    | cons x rest =>
      simp only [hm, if_pos hroom] at hnone
      cases hnone
  | closing k =>
    cases k with
    | zero =>
      simp only [hm] at hnone
      cases hnone
    | succ k =>
      simp only [hm, if_pos hroom] at hnone
      cases hnone
  | joining =>
    -- No worker that could mark anything is left.
    have hunmarked : ∀ i, (s.workers i).unmarked = 0 := by
      intro i
      rcases stuck_worker halive hs i with h | ⟨⟨totals, h⟩, -⟩ <;> rw [h] <;> rfl
    have hcount := (reachable_counted hreach).1
    unfold Counted at hcount
    rw [hq, Finset.sum_eq_zero fun i _ => hunmarked i] at hcount
    have hzero : s.unfinished = 0 := hcount
    simp only [hm, if_pos hzero] at hnone
    cases hnone
  | waiting is =>
    cases is with
    | nil =>
      simp only [hm] at hnone
      cases hnone
    | cons i rest =>
      have hclosed := ((all_closed hreach (by rw [hm]; rfl)).2 i).2
      rcases stuck_worker halive hs i with h | ⟨⟨totals, h⟩, -⟩
      · simp only [hm, h, Worker.over, if_true] at hnone
        cases hnone
      · rw [h] at hclosed
        cases hclosed
  | finished => rfl

/-- The threads that have been joined have ended. -/
structure Waited (s : State X M n) : Prop where
  waiting : ∀ is, s.main = .waiting is → ∀ i ∉ is, (s.workers i).over = true
  finished : s.main = .finished → ∀ i, (s.workers i).over = true

omit [AddCommMonoid M] in
theorem Advances.waited (h : Advances c s t) (hs : Waited s) : Waited t := by
  cases h with
  | closes | puts | closed | sentinel => exact ⟨nofun, nofun⟩
  | joins hm hu =>
    refine ⟨fun is his i hi => ?_, nofun⟩
    cases his
    exact absurd (List.mem_finRange i) hi
  | waits j rest hm hj =>
    refine ⟨fun is his i hi => ?_, nofun⟩
    cases his
    by_cases hij : i = j
    · exact hij ▸ hj
    · exact hs.waiting _ hm i fun hmem => hi ((List.mem_cons.mp hmem).resolve_left hij)
  | ends hm => exact ⟨nofun, fun _ i => hs.waiting [] hm i List.not_mem_nil⟩

/-- A worker that has ended takes no step. -/
theorem Works.over {i j : Fin n} (h : Works c i s t) (hj : (s.workers j).over = true) :
    (t.workers j).over = true := by
  by_cases hji : j = i
  · subst hji
    cases h with
    | starts hw | fails hw | takes x q totals hw | takes_sentinel q totals hw
      | works x totals m hw | breaks x totals hw | marks totals hw | marks_sentinel totals hw
      | flushes totals hw =>
      rw [hw] at hj
      cases hj
    | overmarks totals hw =>
      rcases hw with hw | hw <;> · rw [hw] at hj; cases hj
  · have hsame : t.workers j = s.workers j := by
      cases h <;> exact Function.update_of_ne hji ..
    rw [hsame]
    exact hj

theorem Works.main_eq {i : Fin n} (h : Works c i s t) : t.main = s.main := by
  cases h <;> rfl

theorem reachable_waited (hs : (system c).Reachable s) : Waited s := by
  refine hs.invariant (I := Waited) ?_ ?_
  · constructor
    · intro is his
      cases his
    · intro hm
      cases hm
  · intro a s t hs _ h
    cases a with
    | main => exact (step_main_advances h).waited hs
    | worker i =>
      have hworks := step_worker_works h
      have hmain := hworks.main_eq
      exact ⟨fun is his j hj => hworks.over (hs.waiting is (hmain ▸ his) j hj),
        fun hm j => hworks.over (hs.finished (hmain ▸ hm) j)⟩

/-- Once the main thread has joined the workers, the shared totals have every element once. -/
theorem finished_total [IsRightCancelAdd M] (hsound : c.Sound) (hs : (system c).Reachable s)
    (hm : s.main = .finished) : (∀ i, s.workers i = .exited) ∧ s.total = c.values c.jobs := by
  obtain ⟨halive, htotal⟩ := reachable_balanced hsound hs
  obtain ⟨hq, -⟩ := all_closed hs (by rw [hm]; rfl)
  have hexited : ∀ i, s.workers i = .exited := by
    intro i
    have hover := (reachable_waited hs).finished hm i
    cases hw : s.workers i with
    | exited => rfl
    | died x => exact absurd hw (halive i x)
    | start | getting totals | working x totals | marking totals | leaving totals
      | flushing totals =>
      rw [hw] at hover
      cases hover
  refine ⟨hexited, ?_⟩
  rw [hm, hq, Finset.sum_eq_zero fun i _ => by rw [hexited i]; rfl, add_zero] at htotal
  change s.total + 0 + 0 = _ at htotal
  rw [add_zero, add_zero] at htotal
  exact htotal

/-- The join comes only when nothing fails. -/
theorem never_joins (hsound : ¬ c.Sound) (hs : (system c).Reachable s) :
    s.main.joined = false := by
  by_cases hconstruct : ∃ i, c.construct i = false
  · obtain ⟨i, hi⟩ := hconstruct
    exact never_joins_of_construct hi hs
  · by_cases hwork : ∃ x ∈ c.jobs, c.work x = none
    · obtain ⟨x, hx, hnone⟩ := hwork
      exact never_joins_of_work hx hnone hs
    · have hstaffed : ¬ (c.jobs ≠ [] → 0 < n) := by
        intro hstaffed
        refine hsound ⟨fun i => ?_, fun x hx => ?_, hstaffed⟩
        · exact Bool.eq_true_of_not_eq_false fun hi => hconstruct ⟨i, hi⟩
        · exact Option.ne_none_iff_exists'.mp fun hnone => hwork ⟨x, hx, hnone⟩
      simp only [Classical.not_imp, not_lt, nonpos_iff_eq_zero] at hstaffed
      obtain ⟨x, hx⟩ := List.exists_mem_of_ne_nil _ hstaffed.1
      exact never_joins_of_no_worker hstaffed.2 hx hs

theorem finishes_iff [IsRightCancelAdd M] :
    (∀ s, (system c).Reachable s → (system c).Stuck s → s.main = .finished) ↔ c.Sound := by
  constructor
  · intro h
    by_cases hsound : c.Sound
    · exact hsound
    · obtain ⟨t, ht, hstuck⟩ := System.exists_stuck (M := system c) rank step_rank_lt .start
      have hjoined := never_joins hsound ht
      rw [h t ht hstuck] at hjoined
      cases hjoined
  · intro hsound s hreach hs
    exact stuck_main hsound.staffed (reachable_balanced hsound hreach).alive hreach hs

/-- A run is at most this long. -/
theorem run_length (as : List (Action n)) (h : (system c).exec as (system c).start = some t) :
    as.length ≤ 4 * c.jobs.length + 6 * n + 4 := by
  have hle := System.length_le_rank (M := system c) (H := fun _ _ => True) rank
    (I := fun _ => True) (fun _ _ _ _ _ _ => True.intro)
    (fun a s t _ _ h => step_rank_lt a s t h) as True.intro (System.Guarded.trivial as _) h
  have hstart : rank (system c).start = 4 * c.jobs.length + 6 * n + 4 := by
    change 4 * c.jobs.length + 5 * n + 4 + 3 * 0 + ∑ _ : Fin n, 1 = _
    rw [← Finset.card_eq_sum_ones, Finset.card_univ, Fintype.card_fin]
    omega
  omega

end

end SmartDisk.JoinablePools
