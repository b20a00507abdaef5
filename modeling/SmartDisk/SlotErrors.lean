import SmartDisk.SlotDelivery

/-!
# Errors of the client

An error that the client reports about itself carries sequence number 0. Where 0 is in
`_pending` it ends that request, otherwise the one whose delegate is set. As long as
every delivery finds an entry, an error costs its request nothing but the value. A
request that an error has ended, however, still has its command on the wire, and the
late response finds no entry: the delegate then writes it into the slot of the
request that was issued last.
-/
namespace SmartDisk.SlotProtocol
open KineticClient ActionSystem

variable {n : ℕ}

instance (c : Client Request) (seq : ℕ) : Decidable (Finds c seq) :=
  inferInstanceAs (Decidable (_ ∨ _))

/-- The condition on a `listen` step, as a fact about the listener. -/
def Listener.Checked (fits : Bytes → Prop) : Listener → Prop
  | .callback (.payload _ _ value) => fits value
  | _ => True

instance (fits : Bytes → Prop) [DecidablePred fits] : DecidablePred (Listener.Checked fits)
  | .callback (.payload _ _ value) => inferInstanceAs (Decidable (fits value))
  | .callback (.len _ _ _) | .callback (.clean_up _) | .idle | .ended | .raised _ =>
      .isTrue trivial

instance : ∀ (a : Action n) (s : State n), Decidable (Attributed a s)
  | .drive w seq _ _, s => inferInstanceAs
      (Decidable (Finds (s.workers w).client seq ∧ (s.workers w).main.running = []))
  | .bad_hmac w _, s | .timeout w, s | .socket_error w, s => inferInstanceAs
      (Decidable (Finds (s.workers w).client 0 ∧ (s.workers w).main.running = []))
  | .send w false, s => inferInstanceAs
      (Decidable (Finds (s.workers w).client 0 ∧ (s.workers w).listener.running = []))
  | .listen w, s => inferInstanceAs (Decidable ((s.workers w).listener.Checked fun value =>
      value.length ≤ MAX_PAYLOAD_LEN ∨ Finds (s.workers w).client 0))
  | .call _ _ _, _ | .pop _ _, _ | .resume _, _ | .fetch _, _ | .install _, _ | .acquire _, _
  | .header _, _ | .send _ true, _ | .report _, _ => .isTrue trivial

/-- The pair a callback is about to write for. -/
def Progress.target : Progress → Option Request
  | .payload _ r _ | .len _ r _ => some r
  | .clean_up _ => none

/-- A get returns nothing or a value the drive returned for its key. -/
def GetsOwnValue (s : State n) : Prop :=
  ∀ k b, (s.handlers k).endpoint = .get → (s.handlers k).pc = .returned b →
    b = [] ∨ ((s.handlers k).key, some b) ∈ s.returned

/-- A callback that is about to write has a handler that holds the slot. -/
def WritesOwnSlot (s : State n) : Prop :=
  ∀ w, ∀ p ∈ (s.workers w).active, ∀ r ∈ p.target, Holds s r.owner r.sm_idx

theorem Owned.getsOwnValue {s : State n} (h : Owned s) : GetsOwnValue s := by
  intro k b hget hpc
  have hok := h.handler k
  unfold Handler.Ok at hok
  simp only [hpc] at hok
  obtain ⟨v, ⟨res, hres, rfl⟩, hb⟩ := hok
  rw [hget] at hb
  obtain rfl := Except.ok.inj hb
  cases res with
  | none => exact .inl rfl
  | some v => exact .inr (hres.elim (fun hin => hin) fun ⟨hnone, _⟩ => by cases hnone)

theorem Owned.writesOwnSlot {s : State n} (h : Owned s) : WritesOwnSlot s := by
  intro w p hp r hr
  have hok := (h.worker w).running p hp
  have hticket : r ∈ (s.workers w).tickets := by
    cases p with
    | payload o r' value =>
        obtain ⟨-, seq, -, hseq⟩ := hok
        obtain rfl := Option.some.inj hr
        exact (h.worker w).mem_tickets hp rfl hseq
    | len o r' vlen =>
        obtain ⟨-, seq, -, hseq⟩ := hok
        obtain rfl := Option.some.inj hr
        exact (h.worker w).mem_tickets hp rfl hseq
    | clean_up seq => cases hr
  obtain ⟨hpoll, -, -⟩ := h.ticket r (mem_tickets hticket)
  unfold Holds
  rw [hpoll]
  rfl

/-- A failed get affects only its own request in every run whose deliveries are attributed. -/
theorem failure_contained {s : State n} (h : (app n).ReachableWith Attributed s) :
    GetsOwnValue s ∧ WritesOwnSlot s :=
  ⟨(owned_of_reachable quiescent_start h).getsOwnValue,
    (owned_of_reachable quiescent_start h).writesOwnSlot⟩

/-! ### A timeout, and the response that comes after it -/

/-- The first get of a worker times out and returns without a value. -/
def timedOut : List (Action 1) :=
  ask 1 0 .get ['b'] ⟨0, by decide⟩ ++ issue 0 ++
    [.timeout 0, .listen 0, .listen 0] ++ List.replicate 5 (.resume 0)

theorem timedOut_runs : ((app 1).exec timedOut (app 1).start).isSome = true := by
  decide +kernel

theorem failure_contained_timedOut :
    GetsOwnValue ((app 1).last _ timedOut_runs) ∧ WritesOwnSlot ((app 1).last _ timedOut_runs) :=
  failure_contained (System.reachableWith_last _ _ (by decide +kernel))

/-- The slot is taken again, and the response to the first get arrives. -/
def lateResponse : List (Action 1) :=
  timedOut ++ ask 1 1 .get ['c'] ⟨0, by decide⟩ ++ issue 0 ++
    [.drive 0 0 ⟨0, .SUCCESS, [98]⟩ [7]] ++ List.replicate 2 (.listen 0) ++
    List.replicate 6 (.resume 1)

theorem lateResponse_runs : ((app 1).exec lateResponse (app 1).start).isSome = true := by
  decide +kernel

/-- The get for one key returns the value of another. -/
theorem foreign_value_returned : ¬ ∀ s, (app 1).Reachable s → GetsOwnValue s := by
  intro h
  have hvalue := h _ (System.reachable_last _ lateResponse_runs) 1 [7] (by decide +kernel)
    (by decide +kernel)
  revert hvalue
  decide +kernel

end SmartDisk.SlotProtocol
