import SmartDisk.ActionSystem
import SmartDisk.KineticClient

/-!
# Batches of the client

`create_batch_operation` of `kv_client/client.py` starts a batch under the next identifier, and
the `Batch` object of `kv_client/batch.py` puts this identifier into every operation that is
done through it, counts them, and tells the count when it commits. The messages of a batch take
no place in the queue semaphore and leave no entry, except for its last one.

`connect` numbers from 0 again. A `Batch` keeps the connection it was made for and whether it is
completed, and looks at neither: both are up to the caller. So is an identifier that he picks
himself. With `auto_reconnect_count` a command connects again on its own, when it already has its
identifier.

One thread works with any number of batches at a time, and with other commands between them.
`sent` is what went out on this connection, and `lost` has the batch of every message that did
not go out: both are history. `implicit_flush` is off, as by default.
-/
namespace SmartDisk.KineticBatches
open KineticClient ActionSystem

/-- What a message asks for. -/
inductive Body where
  | start_batch
  | put (key : Key) (value : Bytes)
  | delete (key : Key)
  | end_batch (count : ℕ)
  | abort_batch
  | other
  deriving DecidableEq

/-- An operation that the batch counts. -/
def Body.counted : Body → Bool
  | .put _ _ | .delete _ => true
  | _ => false

structure Message where
  body : Body
  sequence : ℕ
  batchID : Option ℕ
  deriving DecidableEq

structure Batch where
  connection_id : ℕ
  batch_id : ℕ
  op_count : ℕ := 0
  batch_completed : Bool := false
  deriving DecidableEq

structure State where
  client : Client Unit
  connected : Bool := false
  connection_id : ℕ := 0
  next_batch_id : ℕ := 0
  batches : List Batch := []
  sent : List Message := []
  lost : List ℕ := []

/-- What the network does during a command: the outcomes of its attempts to connect, and whether
the socket takes the packet. -/
structure Network where
  attempts : List Bool := []
  accepted : Bool

/-- `_client_error_callback` carries the number 0. -/
def State.client_error (s : State) : State :=
  if 0 ∈ s.client.pending then { s with client := s.client.clean_up 0 } else s

/-- `connect`. The drive names a new connection in a message that has the number 0 as well. -/
def State.connect (s : State) (succeeds : Bool) : State :=
  if s.connected then s
  else if succeeds then
    { s with
      client := { s.client_error.client with sequence := 0 }
      connected := true
      connection_id := s.connection_id + 1
      next_batch_id := 0
      sent := []
      lost := [] }
  else s.client_error

def State.close (s : State) : State :=
  { s with connected := false, client := { s.client with pending := ∅, outstanding := 0 } }

/-- `_update_header`: with `batch_flag` there is no entry. -/
def update_header (c : Client Unit) (batch_flag : Bool) : Client Unit :=
  if batch_flag then { c with sequence := c.sequence + 1 } else c.update_header

/-- The message does not go out, and the client reports it. -/
def State.lose (s : State) (batchID : Option ℕ) : State :=
  { s with lost := s.lost ++ batchID.toList }.client_error

/-- The loop of `_network_send`, with the number of attempts that are left. -/
def State.reconnect : ℕ → List Bool → State → State
  | 0, _, s => s
  | n + 1, attempts, s =>
      if s.connected then s
      else State.reconnect n attempts.tail (s.connect (attempts.headD false))

/-- `_network_send`. Without a connection it goes on to a socket that refuses the packet. -/
def State.network_send (s : State) (auto_reconnect_count : ℕ) (body : Body) (batchID : Option ℕ)
    (batch_flag : Bool) (net : Network) : State :=
  let s := s.reconnect auto_reconnect_count net.attempts
  let s := if s.connected then s else s.client_error
  let s' := { s with client := update_header s.client batch_flag }
  if s.connected && net.accepted then
    { s' with sent := s.sent ++ [⟨body, s.client.sequence, batchID⟩] }
  else s'.lose batchID

/-- `proto_operation`; `none` while the semaphore blocks. -/
def State.proto_operation (s : State) (auto_reconnect_count : ℕ) (body : Body)
    (batchID : Option ℕ) (batch_flag : Bool) (net : Network) : Option State :=
  if !s.connected && auto_reconnect_count < 1 then some (s.lose batchID)
  else
    (if batch_flag then some s.client else s.client.acquire).map fun c =>
      { s with client := c }.network_send auto_reconnect_count body batchID batch_flag net

def State.set_batch (s : State) (i : ℕ) (b : Batch) : State :=
  { s with batches := s.batches.set i b }

/-- `Batch.put` and `Batch.delete` count whether the operation goes out or not. -/
def State.batch_operation (s : State) (auto_reconnect_count i : ℕ) (b : Batch) (body : Body)
    (net : Network) : Option State :=
  (s.set_batch i { b with op_count := b.op_count + 1 }).proto_operation auto_reconnect_count body
    (some b.batch_id) true net

/-- `Batch.commit` and `Batch.abort`. -/
def State.complete (s : State) (auto_reconnect_count i : ℕ) (b : Batch) (body : Body)
    (net : Network) : Option State :=
  (s.proto_operation auto_reconnect_count body (some b.batch_id) false net).map fun t =>
    t.set_batch i { b with batch_completed := true }

/-- `create_batch_operation`: there is a `Batch` even when `start_batch` has not gone out. The
caller may bring an identifier, or else the next one is drawn. -/
def State.create_batch_operation (s : State) (auto_reconnect_count : ℕ) (batch_id : Option ℕ)
    (batch_flag : Bool) (net : Network) : Option State :=
  if !s.connected && auto_reconnect_count < 1 then some s.client_error
  else
    let drawn := if batch_id = none then { s with next_batch_id := s.next_batch_id + 1 } else s
    let batch_id := batch_id.getD s.next_batch_id
    (drawn.proto_operation auto_reconnect_count .start_batch (some batch_id) batch_flag net).map
      fun t => { t with batches := t.batches ++ [⟨t.connection_id, batch_id, 0, false⟩] }

inductive Action where
  | connect (succeeds : Bool)
  | close
  | create_batch_operation (batch_id : Option ℕ) (batch_flag : Bool) (net : Network)
  | put (i : ℕ) (key : Key) (value : Bytes) (net : Network)
  | delete (i : ℕ) (key : Key) (net : Network)
  | commit (i : ℕ) (net : Network)
  | abort (i : ℕ) (net : Network)
  | other (net : Network)
  | response (seq : ℕ)
  | error

/-- `Batch` number `i` among those that have been made. -/
def step (auto_reconnect_count : ℕ) : Action → State → Option State
  | .connect succeeds, s => some (s.connect succeeds)
  | .close, s => some s.close
  | .create_batch_operation batch_id batch_flag net, s =>
      s.create_batch_operation auto_reconnect_count batch_id batch_flag net
  | .put i key value net, s =>
      s.batches[i]?.bind fun b => s.batch_operation auto_reconnect_count i b (.put key value) net
  | .delete i key net, s =>
      s.batches[i]?.bind fun b => s.batch_operation auto_reconnect_count i b (.delete key) net
  | .commit i net, s =>
      s.batches[i]?.bind fun b => s.complete auto_reconnect_count i b (.end_batch b.op_count) net
  | .abort i net, s =>
      s.batches[i]?.bind fun b => s.complete auto_reconnect_count i b .abort_batch net
  | .other net, s => s.proto_operation auto_reconnect_count .other none false net
  | .response seq, s =>
      if seq ∈ s.client.pending then some { s with client := s.client.clean_up seq } else none
  | .error, s => some s.client_error

def connection (queue_depth auto_reconnect_count : ℕ) : System State Action where
  start := { client := { queue_depth } }
  step := step auto_reconnect_count

/-- A `Batch` object cannot be reused, and not on another connection. -/
def Usable (s : State) (i : ℕ) : Prop :=
  ∀ b ∈ s.batches[i]?, b.connection_id = s.connection_id ∧ b.batch_completed = false

/-- The caller completes a batch once, leaves those of earlier connections alone, and picks no
identifier himself. -/
def SingleUse : Action → State → Prop
  | .put i _ _ _, s | .delete i _ _, s | .commit i _, s | .abort i _, s => Usable s i
  | .create_batch_operation batch_id _ _, _ => batch_id = none
  | _, _ => True

instance (s : State) (i : ℕ) : Decidable (Usable s i) := inferInstanceAs (Decidable (∀ _ ∈ _, _))

instance : ∀ a s, Decidable (SingleUse a s)
  | .put i _ _ _, s | .delete i _ _, s | .commit i _, s | .abort i _, s =>
      inferInstanceAs (Decidable (Usable s i))
  | .create_batch_operation batch_id _ _, _ => inferInstanceAs (Decidable (batch_id = none))
  | .connect _, _ | .close, _ | .other _, _ | .response _, _ | .error, _ => .isTrue trivial

/-! ### What goes out under an identifier -/

def State.messages (s : State) (i : ℕ) : List Body :=
  (s.sent.filter fun m => m.batchID = some i).map (·.body)

/-- Of the messages `calls` of the batch `i` everything has gone out but what was lost. -/
structure Told (s : State) (i : ℕ) (calls : List Body) : Prop where
  sublist : (s.messages i).Sublist calls
  length : (s.messages i).length + s.lost.count i = calls.length

/-- The ways in which a batch ends, if it has. -/
def Batch.endings (b : Batch) : List (List Body) :=
  if b.batch_completed then [[.end_batch b.op_count], [.abort_batch]] else [[]]

/-- A start, the counted operations, and an end. -/
def Batch.Wellformed (b : Batch) (calls : List Body) : Prop :=
  ∃ ops last, calls = .start_batch :: (ops ++ last) ∧ (∀ op ∈ ops, op.counted = true) ∧
    ops.length = b.op_count ∧ last ∈ b.endings

theorem messages_concat (s : State) (m : Message) (i : ℕ) :
    State.messages { s with sent := s.sent ++ [m] } i =
      s.messages i ++ if m.batchID = some i then [m.body] else [] := by
  unfold State.messages
  rw [List.filter_append, List.map_append]
  by_cases h : m.batchID = some i
  · rw [if_pos h, List.filter_cons_of_pos (by simpa using h)]
    rfl
  · rw [if_neg h, List.filter_cons_of_neg (by simpa using h)]
    rfl

theorem Batch.Wellformed.operation {b : Batch} {calls : List Body} (h : b.Wellformed calls)
    (hopen : b.batch_completed = false) {body : Body} (hbody : body.counted = true) :
    Batch.Wellformed { b with op_count := b.op_count + 1 } (calls ++ [body]) := by
  obtain ⟨ops, last, rfl, hops, hlength, hlast⟩ := h
  rw [Batch.endings, hopen, if_neg Bool.false_ne_true, List.mem_singleton] at hlast
  subst hlast
  refine ⟨ops ++ [body], [], by simp, ?_, by simp [hlength], ?_⟩
  · intro op hop
    rcases List.mem_append.mp hop with hop | hop
    · exact hops op hop
    · rw [List.mem_singleton.mp hop]
      exact hbody
  · simp [Batch.endings, hopen]

theorem Batch.Wellformed.complete {b : Batch} {calls : List Body} (h : b.Wellformed calls)
    (hopen : b.batch_completed = false) {body : Body}
    (hbody : body = .end_batch b.op_count ∨ body = .abort_batch) :
    Batch.Wellformed { b with batch_completed := true } (calls ++ [body]) := by
  obtain ⟨ops, last, rfl, hops, hlength, hlast⟩ := h
  rw [Batch.endings, hopen, if_neg Bool.false_ne_true, List.mem_singleton] at hlast
  subst hlast
  refine ⟨ops, [body], by simp, hops, hlength, ?_⟩
  rw [Batch.endings, if_pos rfl]
  rcases hbody with rfl | rfl <;> simp

/-! ### What one message changes -/

/-- `t` comes from `s` by handing out one message, or by losing it; the batches stay. -/
structure Handed (s t : State) (body : Body) (batchID : Option ℕ) : Prop where
  batches : t.batches = s.batches
  next : t.next_batch_id = s.next_batch_id
  connection : t.connection_id = s.connection_id
  sequence : s.client.sequence ≤ t.client.sequence
  sent : t.sent = s.sent ++ [⟨body, s.client.sequence, batchID⟩] ∧ t.lost = s.lost ∧
      s.client.sequence < t.client.sequence ∨
    t.sent = s.sent ∧ t.lost = s.lost ++ batchID.toList

/-- Everything but the client and its queue. -/
structure Same (s t : State) : Prop where
  batches : t.batches = s.batches
  next : t.next_batch_id = s.next_batch_id
  connection : t.connection_id = s.connection_id
  sequence : t.client.sequence = s.client.sequence
  sent : t.sent = s.sent
  lost : t.lost = s.lost

theorem client_error_same (s : State) : Same s s.client_error := by
  unfold State.client_error
  split <;> exact ⟨rfl, rfl, rfl, rfl, rfl, rfl⟩

theorem lose_handed (s : State) (body : Body) (batchID : Option ℕ) :
    Handed s (s.lose batchID) body batchID := by
  have h := client_error_same { s with lost := s.lost ++ batchID.toList }
  exact ⟨h.batches, h.next, h.connection, h.sequence.ge, .inr ⟨h.sent, h.lost⟩⟩

theorem update_header_sequence (c : Client Unit) (batch_flag : Bool) :
    (update_header c batch_flag).sequence = c.sequence + 1 := by
  unfold update_header
  split <;> rfl

theorem network_send_eq {s : State} (hconnected : s.connected = true) (body : Body)
    (batchID : Option ℕ) (batch_flag : Bool) (net : Network) :
    s.network_send 0 body batchID batch_flag net =
      if net.accepted then
        { s with
          client := update_header s.client batch_flag
          sent := s.sent ++ [⟨body, s.client.sequence, batchID⟩] }
      else { s with client := update_header s.client batch_flag }.lose batchID := by
  simp only [State.network_send, State.reconnect, hconnected, if_true, Bool.true_and]

theorem network_send_handed {s : State} (hconnected : s.connected = true) (body : Body)
    (batchID : Option ℕ) (batch_flag : Bool) (net : Network) :
    Handed s (s.network_send 0 body batchID batch_flag net) body batchID := by
  have hsequence := update_header_sequence s.client batch_flag
  rw [network_send_eq hconnected]
  cases net.accepted with
  | true =>
      have hlt : s.client.sequence < (update_header s.client batch_flag).sequence := by
        rw [hsequence]
        exact Nat.lt_succ_self _
      exact ⟨rfl, rfl, rfl, hlt.le, .inl ⟨rfl, rfl, hlt⟩⟩
  | false =>
      have h := lose_handed { s with client := update_header s.client batch_flag } body batchID
      refine ⟨h.batches, h.next, h.connection, ?_, .inr ?_⟩
      · exact le_trans (hsequence ▸ Nat.le_succ _) h.sequence
      · have hlost := client_error_same
          { s with
            client := update_header s.client batch_flag
            lost := s.lost ++ batchID.toList }
        exact ⟨hlost.sent, hlost.lost⟩

/-- A client that does not connect on its own. -/
theorem proto_operation_handed {s t : State} {body : Body} {batchID : Option ℕ}
    {batch_flag : Bool} {net : Network}
    (h : s.proto_operation 0 body batchID batch_flag net = some t) : Handed s t body batchID := by
  unfold State.proto_operation at h
  split at h
  · obtain rfl := Option.some.inj h
    exact lose_handed s body batchID
  · rename_i hguard
    have hconnected : s.connected = true := by simpa using hguard
    obtain ⟨c, hc, rfl⟩ := Option.map_eq_some_iff.mp h
    have hsequence : c.sequence = s.client.sequence := by
      cases batch_flag with
      | true => exact congrArg Client.sequence (Option.some.inj hc).symm
      | false => rw [Client.acquire_eq hc]
    have hsend := network_send_handed (s := { s with client := c }) hconnected body batchID
      batch_flag net
    exact ⟨hsend.batches, hsend.next, hsend.connection, hsequence ▸ hsend.sequence,
      hsequence ▸ hsend.sent⟩

variable {queue_depth : ℕ} {s t : State} {body : Body} {i j : ℕ} {calls : List Body}

/-- The message counts for its own batch. -/
theorem Told.handed (h : Told s i calls) (ht : Handed s t body (some i)) :
    Told t i (calls ++ [body]) := by
  rcases ht.sent with ⟨hsent, hlost, -⟩ | ⟨hsent, hlost⟩
  · have hmessages : t.messages i = s.messages i ++ [body] := by
      have hcat := messages_concat s ⟨body, s.client.sequence, some i⟩ i
      rw [if_pos rfl] at hcat
      rw [← hcat]
      unfold State.messages
      rw [hsent]
    refine ⟨hmessages ▸ h.sublist.append_right [body], ?_⟩
    have := h.length
    rw [hmessages, hlost, List.length_append, List.length_append]
    omega
  · have hmessages : t.messages i = s.messages i := by
      unfold State.messages
      rw [hsent]
    refine ⟨hmessages ▸ h.sublist.trans (List.sublist_append_left calls [body]), ?_⟩
    have := h.length
    rw [hmessages, hlost, Option.toList_some, List.count_append, List.count_singleton_self,
      List.length_append]
    simp only [List.length_singleton]
    omega

/-- And for no other one. -/
theorem Told.frame (h : Told s j calls) {batchID : Option ℕ} (ht : Handed s t body batchID)
    (hj : batchID ≠ some j) : Told t j calls := by
  rcases ht.sent with ⟨hsent, hlost, -⟩ | ⟨hsent, hlost⟩
  · have hmessages : t.messages j = s.messages j := by
      have hcat := messages_concat s ⟨body, s.client.sequence, batchID⟩ j
      rw [if_neg hj, List.append_nil] at hcat
      rw [← hcat]
      unfold State.messages
      rw [hsent]
    exact ⟨hmessages ▸ h.sublist, by rw [hmessages, hlost, h.length]⟩
  · have hmessages : t.messages j = s.messages j := by
      unfold State.messages
      rw [hsent]
    have hnone : batchID.toList.count j = 0 :=
      List.count_eq_zero_of_not_mem fun hmem => hj (Option.mem_toList.mp hmem)
    have hcount : t.lost.count j = s.lost.count j := by
      rw [hlost, List.count_append, hnone, Nat.add_zero]
    exact ⟨hmessages ▸ h.sublist, by rw [hmessages, hcount, h.length]⟩

theorem Told.of_eq (h : Told s i calls) (hsent : t.sent = s.sent) (hlost : t.lost = s.lost) :
    Told t i calls := by
  have hmessages : t.messages i = s.messages i := by
    unfold State.messages
    rw [hsent]
  exact ⟨hmessages ▸ h.sublist, by rw [hmessages, hlost, h.length]⟩

/-! ### Batches of one connection -/

/-- Every batch of the connection has an identifier of its own, and under it nothing but its own
messages have gone out. -/
structure Inv (s : State) : Prop where
  fresh : ∀ (i : ℕ) (b : Batch), s.batches[i]? = some b → b.connection_id ≤ s.connection_id ∧
    (b.connection_id = s.connection_id → b.batch_id < s.next_batch_id)
  silent : ∀ i, s.next_batch_id ≤ i → Told s i []
  distinct : ∀ (i j : ℕ) (b c : Batch), s.batches[i]? = some b → s.batches[j]? = some c →
    b.connection_id = s.connection_id → c.connection_id = s.connection_id →
    b.batch_id = c.batch_id → i = j
  told : ∀ (i : ℕ) (b : Batch), s.batches[i]? = some b → b.connection_id = s.connection_id →
    ∃ calls, Told s b.batch_id calls ∧ b.Wellformed calls
  ordered : s.sent.Pairwise (·.sequence < ·.sequence)
  numbered : ∀ m ∈ s.sent, m.sequence < s.client.sequence

theorem Inv.same (h : Inv s) (ht : Same s t) : Inv t where
  fresh := by
    rw [ht.batches, ht.connection, ht.next]
    exact h.fresh
  silent := by
    rw [ht.next]
    exact fun i hi => (h.silent i hi).of_eq ht.sent ht.lost
  distinct := by
    rw [ht.batches, ht.connection]
    exact h.distinct
  told := by
    rw [ht.batches, ht.connection]
    intro i b hb hcurrent
    obtain ⟨calls, hcalls, hb⟩ := h.told i b hb hcurrent
    exact ⟨calls, hcalls.of_eq ht.sent ht.lost, hb⟩
  ordered := ht.sent ▸ h.ordered
  numbered := by
    rw [ht.sent, ht.sequence]
    exact h.numbered

/-- A message goes out under a number above all earlier ones. -/
theorem Handed.numbers {batchID : Option ℕ} (ht : Handed s t body batchID)
    (hordered : s.sent.Pairwise (·.sequence < ·.sequence))
    (hnumbered : ∀ m ∈ s.sent, m.sequence < s.client.sequence) :
    t.sent.Pairwise (·.sequence < ·.sequence) ∧ ∀ m ∈ t.sent, m.sequence < t.client.sequence := by
  rcases ht.sent with ⟨hsent, -, hlt⟩ | ⟨hsent, -⟩
  · rw [hsent]
    refine ⟨List.pairwise_append.mpr ⟨hordered, List.pairwise_singleton _ _, ?_⟩, ?_⟩
    · intro m hm m' hm'
      rw [List.mem_singleton.mp hm']
      exact hnumbered m hm
    · intro m hm
      rcases List.mem_append.mp hm with hm | hm
      · exact (hnumbered m hm).trans hlt
      · rw [List.mem_singleton.mp hm]
        exact hlt
  · rw [hsent]
    exact ⟨hordered, fun m hm => (hnumbered m hm).trans_le ht.sequence⟩

theorem Handed.set_batch {batchID : Option ℕ} (ht : Handed s t body batchID) (b : Batch) :
    Handed (s.set_batch i b) (t.set_batch i b) body batchID where
  batches := congrArg (·.set i b) ht.batches
  next := ht.next
  connection := ht.connection
  sequence := ht.sequence
  sent := ht.sent

theorem set_batch_cases {b x : Batch} (h : (s.set_batch i b).batches[j]? = some x) :
    j = i ∧ x = b ∨ j ≠ i ∧ s.batches[j]? = some x := by
  change (s.batches.set i b)[j]? = some x at h
  rw [List.getElem?_set] at h
  split at h
  · next hij =>
      split at h
      · exact .inl ⟨hij.symm, (Option.some.inj h).symm⟩
      · cases h
  · next hij => exact .inr ⟨Ne.symm hij, h⟩

/-- One message of the batch `i`, for which the `Batch` object becomes `b'`. -/
theorem Inv.used (h : Inv s) {b b' : Batch}
    (ht : Handed (s.set_batch i b') t body (some b.batch_id)) (hb : s.batches[i]? = some b)
    (hcurrent : b.connection_id = s.connection_id)
    (hconnection : b'.connection_id = b.connection_id) (hid : b'.batch_id = b.batch_id)
    (hcalls : ∀ calls, b.Wellformed calls → b'.Wellformed (calls ++ [body])) : Inv t := by
  have hconnections : t.connection_id = s.connection_id := ht.connection
  have hnext : t.next_batch_id = s.next_batch_id := ht.next
  -- The object at `j` in `t` has the identifiers of the one in `s`.
  have hkept : ∀ (j : ℕ) (x : Batch), t.batches[j]? = some x → ∃ y, s.batches[j]? = some y ∧
      x.connection_id = y.connection_id ∧ x.batch_id = y.batch_id := by
    intro j x hx
    rw [ht.batches] at hx
    rcases set_batch_cases hx with ⟨rfl, rfl⟩ | ⟨-, hx⟩
    · exact ⟨b, hb, hconnection, hid⟩
    · exact ⟨x, hx, rfl, rfl⟩
  obtain ⟨hordered, hnumbered⟩ := ht.numbers h.ordered h.numbered
  refine ⟨?_, ?_, ?_, ?_, hordered, hnumbered⟩
  · intro j x hx
    obtain ⟨y, hy, hxy, hids⟩ := hkept j x hx
    rw [hxy, hids, hconnections, hnext]
    exact h.fresh j y hy
  · intro j hj
    rw [hnext] at hj
    have hlt := (h.fresh i b hb).2 hcurrent
    have hne : some b.batch_id ≠ some j := fun he => by
      have := Option.some.inj he
      omega
    have htold : Told (s.set_batch i b') j [] := (h.silent j hj).of_eq rfl rfl
    exact htold.frame ht hne
  · intro j k x y hx hy hxc hyc hxy
    obtain ⟨x', hx', hxx, hxid⟩ := hkept j x hx
    obtain ⟨y', hy', hyy, hyid⟩ := hkept k y hy
    rw [hxx, hconnections] at hxc
    rw [hyy, hconnections] at hyc
    exact h.distinct j k x' y' hx' hy' hxc hyc (by rw [← hxid, ← hyid, hxy])
  · intro j x hx hxc
    rw [ht.batches] at hx
    rw [hconnections] at hxc
    rcases set_batch_cases hx with ⟨rfl, rfl⟩ | ⟨hne, hx⟩
    · obtain ⟨calls, htold, hwell⟩ := h.told j b hb hcurrent
      refine ⟨calls ++ [body], ?_, hcalls calls hwell⟩
      have htold : Told (s.set_batch j x) b.batch_id calls := htold.of_eq rfl rfl
      rw [hid]
      exact htold.handed ht
    · obtain ⟨calls, htold, hwell⟩ := h.told j x hx hxc
      have htold : Told (s.set_batch i b') x.batch_id calls := htold.of_eq rfl rfl
      refine ⟨calls, htold.frame ht fun he => hne ?_, hwell⟩
      exact h.distinct j i x b hx hb hxc hcurrent (Option.some.inj he).symm

/-- A command outside of every batch. -/
theorem Inv.other (h : Inv s) (ht : Handed s t body none) : Inv t := by
  obtain ⟨hordered, hnumbered⟩ := ht.numbers h.ordered h.numbered
  refine ⟨?_, ?_, ?_, ?_, hordered, hnumbered⟩
  · rw [ht.batches, ht.connection, ht.next]
    exact h.fresh
  · rw [ht.next]
    exact fun i hi => (h.silent i hi).frame ht (Option.some_ne_none i).symm
  · rw [ht.batches, ht.connection]
    exact h.distinct
  · rw [ht.batches, ht.connection]
    intro i b hb hcurrent
    obtain ⟨calls, hcalls, hb⟩ := h.told i b hb hcurrent
    exact ⟨calls, hcalls.frame ht (Option.some_ne_none _).symm, hb⟩

theorem concat_cases {b x : Batch} (h : (s.batches ++ [b])[i]? = some x) :
    s.batches[i]? = some x ∨ i = s.batches.length ∧ x = b := by
  rcases Nat.lt_trichotomy i s.batches.length with hi | hi | hi
  · rw [List.getElem?_append_left hi] at h
    exact .inl h
  · rw [hi, List.getElem?_concat_length] at h
    exact .inr ⟨hi, (Option.some.inj h).symm⟩
  · have hle : (s.batches ++ [b]).length ≤ i := by
      rw [List.length_append, List.length_singleton]
      exact hi
    rw [List.getElem?_eq_none hle] at h
    cases h

/-- A new batch has an identifier that nothing has gone out under. -/
theorem Inv.created (h : Inv s)
    (ht : Handed { s with next_batch_id := s.next_batch_id + 1 } t .start_batch
      (some s.next_batch_id)) :
    Inv { t with batches := t.batches ++ [⟨t.connection_id, s.next_batch_id, 0, false⟩] } := by
  have hconnections : t.connection_id = s.connection_id := ht.connection
  have hbatch : (⟨t.connection_id, s.next_batch_id, 0, false⟩ : Batch) =
      ⟨s.connection_id, s.next_batch_id, 0, false⟩ := by rw [hconnections]
  rw [hbatch]
  have hnext : t.next_batch_id = s.next_batch_id + 1 := ht.next
  have hbatches : t.batches = s.batches := ht.batches
  have hlt : ∀ (i : ℕ) (b : Batch), s.batches[i]? = some b → b.connection_id = s.connection_id →
      b.batch_id < s.next_batch_id := fun i b hb => (h.fresh i b hb).2
  have hframe : ∀ j calls, Told s j calls → j ≠ s.next_batch_id → Told t j calls := by
    intro j calls htold hj
    have htold : Told { s with next_batch_id := s.next_batch_id + 1 } j calls :=
      htold.of_eq rfl rfl
    exact htold.frame ht fun he => hj (Option.some.inj he).symm
  obtain ⟨hordered, hnumbered⟩ := ht.numbers h.ordered h.numbered
  refine ⟨?_, ?_, ?_, ?_, hordered, hnumbered⟩
  · intro i b hb
    change b.connection_id ≤ t.connection_id ∧ (b.connection_id = t.connection_id →
      b.batch_id < t.next_batch_id)
    rw [hconnections, hnext]
    rcases concat_cases hb with hb | ⟨-, rfl⟩
    · rw [hbatches] at hb
      exact ⟨(h.fresh i b hb).1, fun hc => (hlt i b hb hc).trans (Nat.lt_succ_self _)⟩
    · exact ⟨Nat.le_refl _, fun _ => Nat.lt_succ_self _⟩
  · intro i hi
    have hi : s.next_batch_id + 1 ≤ i := hnext ▸ hi
    exact (hframe i [] (h.silent i (by omega)) (by omega)).of_eq rfl rfl
  · intro i j b c hb hc hbc hcc hbid
    have hbc : b.connection_id = s.connection_id := hbc.trans hconnections
    have hcc : c.connection_id = s.connection_id := hcc.trans hconnections
    rcases concat_cases hb with hb | ⟨hi, rfl⟩ <;> rcases concat_cases hc with hc | ⟨hj, rfl⟩
    · rw [hbatches] at hb hc
      exact h.distinct i j b c hb hc hbc hcc hbid
    · rw [hbatches] at hb
      exact absurd (hlt i b hb hbc) (by rw [hbid]; exact Nat.lt_irrefl _)
    · rw [hbatches] at hc
      exact absurd (hlt j c hc hcc) (by rw [← hbid]; exact Nat.lt_irrefl _)
    · rw [hi, hj]
  · intro i b hb hbc
    have hbc : b.connection_id = s.connection_id := hbc.trans hconnections
    rcases concat_cases hb with hb | ⟨-, rfl⟩
    · rw [hbatches] at hb
      obtain ⟨calls, htold, hwell⟩ := h.told i b hb hbc
      exact ⟨calls, (hframe b.batch_id calls htold (hlt i b hb hbc).ne).of_eq rfl rfl, hwell⟩
    · have htold : Told { s with next_batch_id := s.next_batch_id + 1 } s.next_batch_id [] :=
        (h.silent s.next_batch_id (Nat.le_refl _)).of_eq rfl rfl
      refine ⟨[.start_batch], (htold.handed ht).of_eq rfl rfl, [], [], rfl, ?_, rfl, ?_⟩
      · intro op hop
        cases hop
      · simp [Batch.endings]

/-- The identifiers begin anew, and so does the stream. -/
theorem Inv.connect (h : Inv s) (succeeds : Bool) : Inv (s.connect succeeds) := by
  unfold State.connect
  split
  · exact h
  · split
    · have hold : ∀ (i : ℕ) (b : Batch), s.batches[i]? = some b →
          b.connection_id ≠ s.connection_id + 1 := by
        intro i b hb
        exact ((h.fresh i b hb).1.trans_lt (Nat.lt_succ_self _)).ne
      refine ⟨?_, ?_, ?_, ?_, List.Pairwise.nil, fun m hm => by cases hm⟩
      · exact fun i b hb => ⟨(h.fresh i b hb).1.trans (Nat.le_succ _),
          fun hc => absurd hc (hold i b hb)⟩
      · exact fun i _ => ⟨List.nil_sublist _, rfl⟩
      · exact fun i j b c hb _ hc => absurd hc (hold i b hb)
      · exact fun i b hb hc => absurd hc (hold i b hb)
    · exact h.same (client_error_same s)

theorem Inv.batch_operation (h : Inv s) {b : Batch} (hb : s.batches[i]? = some b)
    (husable : Usable s i) (hbody : body.counted = true) {net : Network}
    (ht : s.batch_operation 0 i b body net = some t) : Inv t := by
  obtain ⟨hcurrent, hopen⟩ := husable b hb
  unfold State.batch_operation at ht
  exact h.used (proto_operation_handed ht) hb hcurrent rfl rfl fun _ hcalls =>
    hcalls.operation hopen hbody

theorem Inv.complete (h : Inv s) {b : Batch} (hb : s.batches[i]? = some b)
    (husable : Usable s i) (hbody : body = .end_batch b.op_count ∨ body = .abort_batch)
    {net : Network} (ht : s.complete 0 i b body net = some t) : Inv t := by
  obtain ⟨hcurrent, hopen⟩ := husable b hb
  obtain ⟨u, hu, rfl⟩ := Option.map_eq_some_iff.mp ht
  have hset := (proto_operation_handed hu).set_batch (i := i) { b with batch_completed := true }
  exact h.used hset hb hcurrent rfl rfl fun _ hcalls => hcalls.complete hopen hbody

theorem step_inv : (connection queue_depth 0).Preserves SingleUse Inv := by
  intro a s t h hguard hstep
  change step 0 a s = some t at hstep
  cases a with
  | connect succeeds =>
      cases hstep
      exact h.connect succeeds
  | close =>
      cases hstep
      exact h.same ⟨rfl, rfl, rfl, rfl, rfl, rfl⟩
  | create_batch_operation batch_id batch_flag net =>
      obtain rfl : batch_id = none := hguard
      change s.create_batch_operation 0 none batch_flag net = some t at hstep
      unfold State.create_batch_operation at hstep
      split at hstep
      · cases hstep
        exact h.same (client_error_same s)
      · obtain ⟨u, hu, rfl⟩ := Option.map_eq_some_iff.mp hstep
        exact h.created (proto_operation_handed hu)
  | put i key value net =>
      obtain ⟨b, hb, ht⟩ := Option.bind_eq_some_iff.mp hstep
      exact h.batch_operation hb hguard rfl ht
  | delete i key net =>
      obtain ⟨b, hb, ht⟩ := Option.bind_eq_some_iff.mp hstep
      exact h.batch_operation hb hguard rfl ht
  | commit i net =>
      obtain ⟨b, hb, ht⟩ := Option.bind_eq_some_iff.mp hstep
      exact h.complete hb hguard (.inl rfl) ht
  | abort i net =>
      obtain ⟨b, hb, ht⟩ := Option.bind_eq_some_iff.mp hstep
      exact h.complete hb hguard (.inr rfl) ht
  | other net => exact h.other (proto_operation_handed hstep)
  | response seq =>
      simp only [step] at hstep
      split at hstep
      · cases hstep
        exact h.same ⟨rfl, rfl, rfl, rfl, rfl, rfl⟩
      · cases hstep
  | error =>
      cases hstep
      exact h.same (client_error_same s)

theorem start_inv : Inv (connection queue_depth 0).start where
  fresh := fun i b hb => by cases hb
  silent := fun i _ => ⟨List.nil_sublist _, rfl⟩
  distinct := fun i j b c hb => by cases hb
  told := fun i b hb => by cases hb
  ordered := List.Pairwise.nil
  numbered := fun m hm => by cases hm

/-- With a client that does not connect on its own, whatever the batches of a connection and the
other commands come between each other: under the identifier of a batch go out its start, its
operations in order and its end, with as many operations as the end tells, but for the messages
the socket has refused. -/
theorem batch_stream (hs : (connection queue_depth 0).ReachableWith SingleUse s) :
    s.sent.Pairwise (·.sequence < ·.sequence) ∧
      (∀ (i j : ℕ) (b c : Batch), s.batches[i]? = some b → s.batches[j]? = some c →
        b.connection_id = s.connection_id → c.connection_id = s.connection_id →
        b.batch_id = c.batch_id → i = j) ∧
      ∀ (i : ℕ) (b : Batch), s.batches[i]? = some b → b.connection_id = s.connection_id →
        ∃ calls, b.Wellformed calls ∧ Told s b.batch_id calls ∧
          (b.batch_id ∉ s.lost → s.messages b.batch_id = calls) := by
  have h : Inv s := hs.invariant start_inv step_inv
  refine ⟨h.ordered, h.distinct, ?_⟩
  intro i b hb hcurrent
  obtain ⟨calls, htold, hwell⟩ := h.told i b hb hcurrent
  refine ⟨calls, hwell, htold, fun hlost => htold.sublist.eq_of_length ?_⟩
  rw [← htold.length, List.count_eq_zero_of_not_mem hlost, Nat.add_zero]

abbrev taken : Network := ⟨[], true⟩

abbrev refused : Network := ⟨[], false⟩

/-- Two batches in turn, one of which loses an operation, and a command between them. -/
def two_batches : List Action :=
  [.connect true, .create_batch_operation none true taken, .create_batch_operation none true taken,
    .put 0 [1] [10] taken, .delete 1 [2] taken, .other taken, .put 0 [3] [] refused, .response 4,
    .commit 1 taken, .delete 0 [4] taken, .abort 0 taken]

theorem batch_stream_two : ∃ s, (connection 2 0).exec two_batches (connection 2 0).start = some s ∧
    s.messages 0 = [.start_batch, .put [1] [10], .delete [4], .abort_batch] ∧ s.lost = [0] ∧
    ∃ calls, Batch.Wellformed ⟨1, 1, 1, true⟩ calls ∧ Told s 1 calls ∧
      (1 ∉ s.lost → s.messages 1 = calls) := by
  refine ⟨_, rfl, rfl, rfl, (@batch_stream 2 _ ?_).2.2 1 ⟨1, 1, 1, true⟩ rfl rfl⟩
  refine System.ReachableWith.start.exec two_batches ?_ rfl
  decide

/-- A batch from before a reconnection shares its identifier with a new one. -/
example : ((connection 1 0).exec [.connect true, .create_batch_operation none true taken, .close,
      .connect true, .create_batch_operation none true taken, .put 0 [1] [] taken,
      .put 1 [2] [] taken, .commit 1 taken] (connection 1 0).start).map
        (fun s => (s.messages 0, s.lost)) =
    some ([.start_batch, .put [1] [], .put [2] [], .end_batch 1], []) := rfl

/-- A client that connects on its own starts a batch under an identifier of the old connection, and
later the new one draws it too. -/
example : ((connection 1 1).exec [.connect true, .create_batch_operation none true taken, .close,
      .create_batch_operation none true ⟨[true], true⟩, .create_batch_operation none true taken,
      .create_batch_operation none true taken] (connection 1 1).start).map
        (fun s => (s.connection_id, s.batches.map fun b => (b.connection_id, b.batch_id))) =
    some (2, [(1, 0), (2, 1), (2, 0), (2, 1)]) := rfl

end SmartDisk.KineticBatches
