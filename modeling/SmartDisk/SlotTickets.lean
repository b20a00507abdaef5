import SmartDisk.SlotProtocol
import Mathlib.Algebra.Order.BigOperators.Group.Finset
import Mathlib.Algebra.Order.Group.Multiset

/-!
# Who may write where

A pair `(key, sm_idx)` is live from the queue until its callback has set `len`: in the
queue, with the main thread of a worker, or in `_pending` of its client. The live pairs
of the whole application form one multiset, and each step keeps it, adds one pair or
takes one out.
-/
namespace SmartDisk.SlotProtocol
open KineticClient ActionSystem

/-- The slot a handler holds. -/
def Pc.slot : Pc → Option Idx
  | .put i | .poll i | .read i | .copy i _ | .reset i _ | .add i _ => some i
  | _ => none

def Main.issuing : Main → Multiset Request
  | .install r | .acquire r | .header r => {r}
  | _ => 0

def Main.running : Main → List Progress
  | .report p => [p]
  | _ => []

def Listener.running : Listener → List Progress
  | .callback p => [p]
  | _ => []

/-- The callbacks that run in a worker. -/
def Worker.active (wk : Worker) : List Progress := wk.main.running ++ wk.listener.running

def Progress.cleaning : Progress → List ℕ
  | .clean_up seq => [seq]
  | _ => []

/-- The pairs of a `_pending` dictionary, less the entries that are only to be deleted. -/
def live (d : Dict ℕ (Option Request)) (done : List ℕ) : Multiset Request :=
  ((d.entries.filter fun x => x.1 ∉ done).filterMap fun x => x.2 : List Request)

def Worker.tickets (wk : Worker) : Multiset Request :=
  wk.main.issuing + live wk.client.pending (wk.active.flatMap Progress.cleaning)

variable {n : ℕ}

/-- All live pairs. -/
def tickets (s : State n) : Multiset Request := (s.requests : List Request) + ∑ w, (s.workers w).tickets

/-! ### Dictionaries -/

section
variable {d : Dict ℕ (Option Request)} {seq : ℕ} {r : Request} {done : List ℕ}

theorem live_insert (hd : seq ∉ d) (hdone : seq ∉ done) :
    live (d.insert seq (some r)) done = r ::ₘ live d done := by
  unfold live
  rw [AList.entries_insert_of_notMem hd, List.filter_cons_of_pos (by simpa using hdone)]
  rfl

theorem live_erase : live (d.erase seq) [] = live d [seq] := by
  unfold live
  have hkerase : (d.erase seq).entries = d.entries.filter fun x => x.1 ∉ [seq] := by
    simp [entries_erase]
  rw [hkerase]
  simp

theorem live_split (h : d.lookup seq = some (some r)) : live d [] = r ::ₘ live d [seq] := by
  rw [← live_erase]
  unfold live
  have hperm := ((entries_perm_erase h).filter fun x => decide (x.1 ∉ ([] : List ℕ))).filterMap
    fun x => x.2
  simpa using Multiset.coe_eq_coe.mpr hperm

theorem mem_live (h : d.lookup seq = some (some r)) (hdone : seq ∉ done) : r ∈ live d done := by
  unfold live
  rw [Multiset.mem_coe, List.mem_filterMap]
  refine ⟨⟨seq, some r⟩, ?_, rfl⟩
  exact List.mem_filter.mpr ⟨mem_entries.mpr h, by simpa using hdone⟩

end

/-! ### The multiset of live pairs -/

theorem tickets_setWorker {s : State n} {w : Fin n} {wk : Worker} {a b : Multiset Request}
    (h : wk.tickets + b = (s.workers w).tickets + a) :
    tickets (s.setWorker w wk) + b = tickets s + a := by
  have hsum := sum_update_balance (fun _ x => Worker.tickets x) s.workers w wk h
  unfold tickets State.setWorker
  simp only at hsum ⊢
  rw [add_assoc, hsum, add_assoc]

theorem tickets_setWorker_eq {s : State n} {w : Fin n} {wk : Worker}
    (h : wk.tickets = (s.workers w).tickets) : tickets (s.setWorker w wk) = tickets s := by
  have hsum : tickets (s.setWorker w wk) + 0 = tickets s + 0 :=
    tickets_setWorker (by rw [h])
  simpa using hsum

theorem mem_tickets {s : State n} {w : Fin n} {r : Request} (h : r ∈ (s.workers w).tickets) :
    r ∈ tickets s := by
  apply Multiset.mem_add.mpr
  exact .inr (Multiset.mem_sum.mpr ⟨w, Finset.mem_univ w, h⟩)

/-- The pairs of two workers are different places of the multiset. -/
theorem pair_le_tickets {s : State n} {w w' : Fin n} (hne : w ≠ w') :
    (s.workers w).tickets + (s.workers w').tickets ≤ tickets s := by
  have hsum : ∑ x ∈ {w, w'}, (s.workers x).tickets ≤ ∑ x, (s.workers x).tickets :=
    Finset.sum_le_sum_of_subset (Finset.subset_univ _)
  rw [Finset.sum_pair hne] at hsum
  exact hsum.trans (Multiset.le_add_left _ _)

end SmartDisk.SlotProtocol
