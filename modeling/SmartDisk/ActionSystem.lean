import Mathlib.Data.Fintype.BigOperators
import Mathlib.Tactic.Abel

/-!
# Systems given by a partial step function

A system has one start state and a step function that either refuses an action
or returns the next state. Interleavings of threads and processes are action
lists, so a run can be evaluated, and an invariant is one lemma about a step.

A guard is a condition on the action and the state it is taken in. Guards carry
the assumptions of a run ("every response finds its request") without touching
the step function that was translated from the source.
-/
namespace SmartDisk.ActionSystem

structure System (S A : Type*) where
  start : S
  step : A → S → Option S

variable {S A : Type*}

/-- Run a list of actions; one refused action refuses the whole list. -/
def System.exec (M : System S A) : List A → S → Option S
  | [], s => some s
  | a :: as, s => (M.step a s).bind (M.exec as)

/-- As a congruence rule this has `simp` work out one action before it looks at the next. -/
theorem bind_congr_left {β γ : Type*} {x y : Option β} {f : β → Option γ} (h : x = y) :
    x.bind f = y.bind f := congrArg (·.bind f) h

/-- Every action of the list meets the guard in the state it is taken in. -/
def System.Guarded (M : System S A) (G : A → S → Prop) : List A → S → Prop
  | [], _ => True
  | a :: as, s => G a s ∧ ∀ t ∈ M.step a s, M.Guarded G as t

instance System.decidableGuarded (M : System S A) (G : A → S → Prop)
    [∀ a s, Decidable (G a s)] : ∀ as s, Decidable (M.Guarded G as s)
  | [], _ => .isTrue trivial
  | a :: as, s =>
      have : ∀ t, Decidable (M.Guarded G as t) := M.decidableGuarded G as
      inferInstanceAs (Decidable (G a s ∧ ∀ t ∈ M.step a s, M.Guarded G as t))

/-- States of the runs whose actions all meet the guard. -/
inductive System.ReachableWith (M : System S A) (G : A → S → Prop) : S → Prop
  | start : M.ReachableWith G M.start
  | step {s t : S} (a : A) : M.ReachableWith G s → G a s → M.step a s = some t →
      M.ReachableWith G t

abbrev System.Reachable (M : System S A) : S → Prop := M.ReachableWith fun _ _ => True

namespace System
variable {M : System S A} {G H : A → S → Prop}

theorem ReachableWith.mono (hGH : ∀ a s, G a s → H a s) {s : S}
    (h : M.ReachableWith G s) : M.ReachableWith H s := by
  induction h with
  | start => exact .start
  | step a _ hg hs ih => exact .step a ih (hGH _ _ hg) hs

theorem ReachableWith.exec {s t : S} (hs : M.ReachableWith G s) (as : List A)
    (hg : M.Guarded G as s) (h : M.exec as s = some t) : M.ReachableWith G t := by
  induction as generalizing s with
  | nil =>
      simp only [System.exec, Option.some.injEq] at h
      exact h ▸ hs
  | cons a as ih =>
      obtain ⟨u, hu, ht⟩ := Option.bind_eq_some_iff.mp h
      exact ih (.step a hs hg.1 hu) (hg.2 u hu) ht

theorem Guarded.mono (hGH : ∀ a s, G a s → H a s) {as : List A} {s : S}
    (h : M.Guarded G as s) : M.Guarded H as s := by
  induction as generalizing s with
  | nil => exact True.intro
  | cons a as ih => exact ⟨hGH a s h.1, fun t ht => ih (h.2 t ht)⟩

theorem Guarded.of_forall {as : List A} (h : ∀ a ∈ as, ∀ s, G a s) (s : S) :
    M.Guarded G as s := by
  induction as generalizing s with
  | nil => exact True.intro
  | cons a as ih =>
      exact ⟨h a List.mem_cons_self s,
        fun t _ => ih (fun b hb => h b (List.mem_cons_of_mem a hb)) t⟩

theorem Guarded.trivial (as : List A) (s : S) : M.Guarded (fun _ _ => True) as s :=
  .of_forall (fun _ _ _ => True.intro) s

theorem reachable_of_exec {t : S} (as : List A) (h : M.exec as M.start = some t) :
    M.Reachable t :=
  ReachableWith.start.exec as (Guarded.trivial as M.start) h

/-- The state a run ends in, for an action list that is known not to be refused. -/
def last (M : System S A) (as : List A) (h : (M.exec as M.start).isSome = true) : S :=
  (M.exec as M.start).get h

theorem reachable_last (as : List A) (h : (M.exec as M.start).isSome = true) :
    M.Reachable (M.last as h) :=
  reachable_of_exec as (Option.some_get h).symm

theorem reachableWith_last (as : List A) (h : (M.exec as M.start).isSome = true)
    (hg : M.Guarded G as M.start) : M.ReachableWith G (M.last as h) :=
  ReachableWith.start.exec as hg (Option.some_get h).symm

/-- Preservation by one guarded step, for states already known to satisfy `I`. -/
def Preserves (M : System S A) (G : A → S → Prop) (I : S → Prop) : Prop :=
  ∀ a s t, I s → G a s → M.step a s = some t → I t

theorem ReachableWith.invariant {I : S → Prop} (h₀ : I M.start) (h : M.Preserves G I)
    {s : S} (hs : M.ReachableWith G s) : I s := by
  induction hs with
  | start => exact h₀
  | step a _ hg ht ih => exact h a _ _ ih hg ht

/-- A state in which no action is enabled. -/
def Stuck (M : System S A) (s : S) : Prop := ∀ a, M.step a s = none

/-- When every step with the guard `H` lowers a natural-number rank, each state runs into one
that has none. -/
theorem ReachableWith.exists_settled (rank : S → ℕ) {I : S → Prop} (hHG : ∀ a s, H a s → G a s)
    (hI : M.Preserves H I)
    (hrank : ∀ a s t, I s → H a s → M.step a s = some t → rank t < rank s) {s : S}
    (hs : M.ReachableWith G s) (hIs : I s) :
    ∃ t, M.ReachableWith G t ∧ I t ∧ ∀ a, H a t → M.step a t = none := by
  induction hn : rank s using Nat.strongRecOn generalizing s with
  | _ n ih =>
      by_cases h : ∀ a, H a s → M.step a s = none
      · exact ⟨s, hs, hIs, h⟩
      · simp only [not_forall] at h
        obtain ⟨a, ha, hne⟩ := h
        obtain ⟨t, ht⟩ := Option.ne_none_iff_exists'.mp hne
        exact ih (rank t) (hn ▸ hrank a s t hIs ha ht) (.step a hs (hHG a s ha) ht)
          (hI a s t hIs ha ht) rfl

/-- When every step lowers a natural-number rank, each state runs into a stuck one. -/
theorem exists_stuck (rank : S → ℕ)
    (hrank : ∀ a s t, M.step a s = some t → rank t < rank s) {s : S} (hs : M.Reachable s) :
    ∃ t, M.Reachable t ∧ M.Stuck t := by
  obtain ⟨t, ht, -, hstuck⟩ := hs.exists_settled (I := fun _ => True) (H := fun _ _ => True) rank
    (fun _ _ h => h) (fun _ _ _ _ _ _ => True.intro) (fun a s t _ _ => hrank a s t) True.intro
  exact ⟨t, ht, fun a => hstuck a True.intro⟩

/-- The length of a run is at most the rank it uses up. -/
theorem length_le_rank (rank : S → ℕ) {I : S → Prop} (hI : M.Preserves H I)
    (hrank : ∀ a s t, I s → H a s → M.step a s = some t → rank t < rank s) {s t : S} (as : List A)
    (hIs : I s) (hg : M.Guarded H as s) (h : M.exec as s = some t) :
    as.length + rank t ≤ rank s := by
  induction as generalizing s with
  | nil =>
      cases h
      simp
  | cons a as ih =>
      obtain ⟨u, hu, ht⟩ := Option.bind_eq_some_iff.mp h
      have hlt := hrank a s u hIs hg.1 hu
      have hle := ih (hI a s u hIs hg.1 hu) (hg.2 u hu) ht
      rw [List.length_cons]
      omega

end System

/-- Replacing one component keeps a total: what the component gives up, the
shared part `b` takes over from `a`. -/
theorem sum_update_balance_on {ι W M : Type*} [DecidableEq ι] [AddCommMonoid M]
    [IsRightCancelAdd M] (J : Finset ι) (g : ι → W → M) (f : ι → W) {i : ι} (hi : i ∈ J) (w : W)
    {a b : M} (h : g i w + b = g i (f i) + a) :
    ∑ j ∈ J, g j (Function.update f i w j) + b = ∑ j ∈ J, g j (f j) + a := by
  have hrest : ∑ j ∈ J.erase i, g j (Function.update f i w j) = ∑ j ∈ J.erase i, g j (f j) :=
    Finset.sum_congr rfl fun j hj => by rw [Function.update_of_ne (Finset.ne_of_mem_erase hj)]
  rw [← Finset.add_sum_erase _ _ hi, Function.update_self, hrest,
    ← Finset.add_sum_erase J (fun j => g j (f j)) hi]
  calc g i w + ∑ j ∈ J.erase i, g j (f j) + b
      = g i w + b + ∑ j ∈ J.erase i, g j (f j) := by abel
    _ = g i (f i) + a + ∑ j ∈ J.erase i, g j (f j) := by rw [h]
    _ = g i (f i) + ∑ j ∈ J.erase i, g j (f j) + a := by abel

theorem sum_update_balance {ι W M : Type*} [Fintype ι] [DecidableEq ι] [AddCommMonoid M]
    [IsRightCancelAdd M] (g : ι → W → M) (f : ι → W) (i : ι) (w : W) {a b : M}
    (h : g i w + b = g i (f i) + a) :
    ∑ j, g j (Function.update f i w j) + b = ∑ j, g j (f j) + a :=
  sum_update_balance_on Finset.univ g f (Finset.mem_univ i) w h

end SmartDisk.ActionSystem
