import SmartDisk.SlotDelivery

/-!
# Every request comes to an end

Between two requests the application has only finitely much to do. A request passes
through the places of its handler, through the queue and a worker, over the wire, and
through a callback, and never goes back; the rank counts what is left of all of them. A
handler that finds its slot unset does not count as moving.
-/
namespace SmartDisk.SlotProtocol
open KineticClient ActionSystem

variable {n : ℕ}

/-! ### The rank -/

def Pc.rank : Pc → ℕ
  | .pop => 17
  | .put _ => 16
  | .poll _ => 6
  | .read _ => 5
  | .copy _ _ => 4
  | .reset _ _ => 3
  | .add _ _ => 2
  | .leave _ => 1
  | .absent | .returned _ | .raised _ => 0

def Progress.rank : Progress → ℕ
  | .payload _ _ _ => 3
  | .len _ _ _ => 2
  | .clean_up _ => 1

def Main.rank : Main → ℕ
  | .install _ => 8
  | .acquire _ => 7
  | .header _ => 6
  | .send _ _ => 5
  | .report p => p.rank
  | .fetch | .raised _ => 0

def Listener.rank : Listener → ℕ
  | .callback p => p.rank
  | _ => 0

def Worker.rank (wk : Worker) : ℕ := wk.main.rank + wk.listener.rank + 4 * wk.client.wire.length

/-- The handlers in `H` are the ones that have been called. -/
def State.rank (H : Finset ℕ) (s : State n) : ℕ :=
  ∑ h ∈ H, (s.handlers h).pc.rank + 9 * s.requests.length + ∑ w, (s.workers w).rank

def CalledIn (H : Finset ℕ) (s : State n) : Prop := ∀ h ∉ H, (s.handlers h).pc = .absent

/-- No new request and no error of the client. -/
def Inward (a : Action n) (_ : State n) : Prop :=
  match a with
  | .call _ _ _ | .send _ false | .bad_hmac _ _ | .timeout _ | .socket_error _ => False
  | _ => True

section
variable {s : State n} {H : Finset ℕ}

theorem rank_handlers {k : ℕ} (hk : k ∈ H) (x : Handler) :
    ∑ h ∈ H, (Function.update s.handlers k x h).pc.rank + (s.handlers k).pc.rank =
      ∑ h ∈ H, (s.handlers h).pc.rank + x.pc.rank :=
  sum_update_balance_on H (fun _ y => Handler.pc y |>.rank) s.handlers hk x (Nat.add_comm _ _)

theorem rank_workers (w : Fin n) (wk : Worker) :
    ∑ v, (Function.update s.workers w wk v).rank + (s.workers w).rank =
      ∑ v, (s.workers v).rank + wk.rank :=
  sum_update_balance (fun _ y => Worker.rank y) s.workers w wk (Nat.add_comm _ _)

/-- A step of one handler. -/
theorem rank_handler_lt (hH : CalledIn H s) {t : State n} {k : ℕ} {x : Handler}
    (hpc : (s.handlers k).pc ≠ .absent)
    (ht : t.handlers = Function.update s.handlers k x) (hw : t.workers = s.workers)
    (hlt : x.pc.rank + 9 * t.requests.length < (s.handlers k).pc.rank + 9 * s.requests.length) :
    t.rank H < s.rank H ∧ CalledIn H t := by
  have hk : k ∈ H := by
    by_contra hk
    exact hpc (hH k hk)
  have hsum := rank_handlers (s := s) hk x
  constructor
  · unfold State.rank
    rw [ht, hw]
    omega
  · intro h hh
    rw [ht, Function.update_of_ne (by rintro rfl; exact hh hk)]
    exact hH h hh

/-- A step of one worker. -/
theorem rank_worker_lt (hH : CalledIn H s) {t : State n} {w : Fin n} {wk : Worker}
    (ht : t.handlers = s.handlers) (hw : t.workers = Function.update s.workers w wk)
    (hlt : wk.rank + 9 * t.requests.length < (s.workers w).rank + 9 * s.requests.length) :
    t.rank H < s.rank H ∧ CalledIn H t := by
  have hsum := rank_workers (s := s) w wk
  constructor
  · unfold State.rank
    rw [ht, hw]
    omega
  · intro h hh
    rw [ht]
    exact hH h hh

theorem rank_setPc_lt (hH : CalledIn H s) {k : ℕ} {pc : Pc} (hpc : (s.handlers k).pc ≠ .absent)
    (hlt : pc.rank < (s.handlers k).pc.rank) :
    (s.setPc k pc).rank H < s.rank H ∧ CalledIn H (s.setPc k pc) :=
  rank_handler_lt hH hpc rfl rfl (Nat.add_lt_add_right hlt _)

end

theorem rest_rank (wk : Worker) : (State.rest wk).rank = 0 := by
  unfold State.rest
  split <;> rfl

@[simp]
theorem deliver_requests (s : State n) (w : Fin n) (wk : Worker) (cmd : Command) (value : Bytes) :
    (s.deliver w wk cmd value).requests = s.requests := rfl

@[simp]
theorem report_error_requests (s : State n) (w : Fin n) (wk : Worker) (code : StatusCode) :
    (s.report_error w wk code).requests = s.requests := rfl

theorem rank_pos (p : Progress) : 0 < p.rank := by
  cases p <;> exact Nat.succ_pos _

theorem data_callback_rank (seq : Option ℕ) (r : Request) (cmd : Command) (value : Bytes) :
    (data_callback seq r cmd value).rank ≤ 3 ∧
      (cmd.code ≠ .SUCCESS → (data_callback seq r cmd value).rank ≤ 2) := by
  unfold data_callback
  split
  · exact ⟨Nat.le_refl _, fun hne => absurd ‹_› hne⟩
  · exact ⟨Nat.le_succ _, fun _ => Nat.le_refl _⟩

theorem respond_rank {c : Client Request} {cmd : Command} {value : Bytes} {p : Progress}
    (h : respond c cmd value = some p) : p.rank ≤ 3 ∧ (cmd.code ≠ .SUCCESS → p.rank ≤ 2) := by
  unfold respond at h
  split at h
  · cases h
    exact data_callback_rank ..
  · cases h
    exact ⟨by simp [Progress.rank], fun _ => by simp [Progress.rank]⟩
  · cases h
    exact data_callback_rank ..
  · cases h

/-- A callback comes nearer to its end with each step. -/
theorem advance_rank {slots : Idx → SM_Slot} {c : Client Request} {p : Progress}
    {x : Advanced} (hx : p.advance slots c = x) :
    x.client.wire = c.wire ∧ (∀ q, x.rest = .ok (some q) → q.rank < p.rank) ∧
      (x.rest = .error .ValueError → p.rank = 3) := by
  cases p with
  | payload o r value =>
      simp only [Progress.advance] at hx
      split at hx <;> subst hx
      · exact ⟨rfl, fun q hq => (by cases hq; exact Nat.lt_succ_self _), fun _ => rfl⟩
      · exact ⟨rfl, fun q hq => (by cases hq), fun _ => rfl⟩
  | len o r vlen =>
      subst hx
      refine ⟨rfl, fun q hq => ?_, fun he => by cases he⟩
      cases o <;> cases hq
      exact Nat.lt_succ_self _
  | clean_up seq =>
      simp only [Progress.advance] at hx
      split at hx <;> subst hx
      · exact ⟨rfl, fun q hq => (by cases hq), fun he => by cases he⟩
      · exact ⟨rfl, fun q hq => (by cases hq), fun he => by cases he⟩

/-- Every step but a call and an error of the client lowers the rank. -/
theorem inward_rank {s t : State n} {a : Action n} {H : Finset ℕ} (hH : CalledIn H s)
    (ha : Inward a s) (hst : step s a = some t) : t.rank H < s.rank H ∧ CalledIn H t := by
  cases step_cases hst with
  | call | not_attempted | bad_hmac | timeout | socket_error => exact ha.elim
  | none_left k hpc | poll k i hpc | empty k i hpc | read k i hpc | copy k i plen hpc
  | leave k v b hpc | fail k v e hpc =>
      exact rank_setPc_lt hH (by simp [hpc]) (by simp [hpc, Pc.rank])
  | pop k i hpc hi | reset k i v hpc | add k i v hpc =>
      exact rank_handler_lt hH (by simp [hpc]) rfl rfl (by simp [hpc, State.setPc, Pc.rank])
  | put k i hpc =>
      refine rank_handler_lt hH (by simp [hpc]) rfl rfl ?_
      simp only [hpc, Pc.rank, List.length_append, List.length_cons, List.length_nil]
      omega
  | fetch w r rest hmain hreq =>
      refine rank_worker_lt hH rfl rfl ?_
      unfold Worker.rank
      simp only [hmain, hreq, Main.rank, State.setWorker, List.length_cons]
      omega
  | install w r hmain =>
      refine rank_worker_lt hH rfl rfl ?_
      unfold Worker.rank
      simp only [hmain, Main.rank, State.setWorker]
      omega
  | acquire w r c hmain hc =>
      refine rank_worker_lt hH rfl rfl ?_
      unfold Worker.rank
      simp only [hmain, Main.rank, State.setWorker, Client.acquire_eq hc]
      omega
  | header w r hmain =>
      refine rank_worker_lt hH rfl rfl ?_
      unfold Worker.rank
      simp only [hmain, Main.rank, State.setWorker, Client.update_header]
      omega
  | send w seq r hmain =>
      refine rank_worker_lt hH rfl rfl ?_
      unfold Worker.rank
      simp only [hmain, Main.rank, State.setWorker, Client.packet_send, List.length_append,
        List.length_cons, List.length_nil]
      omega
  | report w p x hmain hx =>
      obtain ⟨hwire, hless, -⟩ := advance_rank hx
      refine rank_worker_lt hH rfl rfl ?_
      have hpos := rank_pos p
      unfold Worker.rank
      cases hrest : x.rest with
      | ok q =>
          cases q with
          | some q =>
              have := hless q hrest
              simp only [hmain, hwire, Main.rank, State.setWorker]
              omega
          | none =>
              simp only [hmain, hwire, Main.rank, State.setWorker]
              omega
      | error e =>
          simp only [hmain, hwire, Main.rank, State.setWorker]
          omega
  | drive w cmd value key hidle hkey =>
      refine rank_worker_lt hH rfl rfl ?_
      have hshort : ((s.workers w).client.answer cmd.ackSequence).wire.length <
          (s.workers w).client.wire.length := by
        apply List.length_filter_lt_length_iff_exists.mpr
        exact ⟨_, Client.mem_wire_of_asked hkey, by simp⟩
      rw [deliver_requests]
      unfold Worker.rank
      simp only [hidle, Worker.take_response]
      split
      · have := (respond_rank ‹_›).1
        simp only [Listener.rank]
        omega
      · rw [rest_rank]
        simp only [Listener.rank]
        omega
  | listen w p x q hlisten hx hq =>
      obtain ⟨hwire, hless, -⟩ := advance_rank hx
      refine rank_worker_lt hH rfl rfl ?_
      have hpos := rank_pos p
      unfold Worker.rank
      cases q with
      | some q =>
          have := hless q hq
          simp only [hlisten, hwire, Listener.rank, State.setWorker]
          omega
      | none =>
          simp only [hlisten, hwire, rest_rank, State.setWorker]
          simp only [Listener.rank]
          omega
  | value_error w p hlisten hx =>
      have hthree := (advance_rank rfl).2.2 hx
      refine rank_worker_lt hH rfl rfl ?_
      rw [report_error_requests]
      unfold Worker.rank
      simp only [hlisten]
      split
      · have := (respond_rank ‹_›).2 (by decide)
        simp only [Listener.rank]
        omega
      · rw [rest_rank]
        simp only [Listener.rank]
        omega
  | listen_raises w p e hlisten hx he =>
      refine rank_worker_lt hH rfl rfl ?_
      have hpos := rank_pos p
      unfold Worker.rank
      simp only [hlisten, Listener.rank, State.setWorker]
      omega

end SmartDisk.SlotProtocol
