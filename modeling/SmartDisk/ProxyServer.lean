import SmartDisk.ActionSystem
import SmartDisk.KineticClient

/-!
# The drive proxy of `kinetic/proxy_server.py`

The main thread receives one request, issues a `get` for it, and answers at most
one finished request; the listener thread of the client calls `data_callbak`. Both
work on two dictionaries keyed by the key alone: the callback pops the entry of
`pending_requests`, fills in the value and stores it in `ready_requests`, in
separate steps. The comment of the source assumes no collisions of keys; nothing
here does.

An entry remembers the position of its request in `received`, and `returned` lists
what the drive said about which key. Both are history, as are `received` and
`sent`. Logging, parsing and the sockets are left out.
-/
namespace SmartDisk.ProxyServer
open KineticClient

inductive Opcode where
  | NONE | PING | GET | GETSMART
  deriving DecidableEq, Repr

abbrev Address := ℕ

/-- A `Message` with the address it came from. -/
structure Request where
  address : Address
  opcode : Opcode
  key : Key
  size : UInt64
  deriving DecidableEq

def Request.isGet (r : Request) : Bool := r.opcode = .GET ∨ r.opcode = .GETSMART

structure Entry where
  arrival : ℕ
  request : Request
  deriving DecidableEq

/-- A serialized `Message`, or bare bytes. -/
inductive Body where
  | message (key : Key) (opcode : Opcode) (value : Bytes)
  | raw (bytes : Bytes)
  deriving DecidableEq

structure Reply where
  arrival : ℕ
  address : Address
  body : Body
  deriving DecidableEq

inductive Exn where
  | KeyError | NotImplementedError | OverflowError | ValueError
  deriving DecidableEq, Repr

inductive Main where
  | poll
  | acquire (key : Key)
  | header (key : Key)
  | send (seq : ℕ) (key : Key)
  | respond
  | raised (e : Exn)
  deriving DecidableEq

/-- `store` holds the popped entry; it and `clean_up` know the sequence number unless
the response came to the delegate. -/
inductive Listener where
  | idle
  | store (seq : Option ℕ) (key : Key) (entry : Entry) (value : Bytes)
  | clean_up (seq : ℕ)
  | ended
  | raised (e : Exn)
  deriving DecidableEq

structure State where
  kvclient : Client Unit := { queue_depth := 16, callback_delegate := some () }
  pending_requests : Dict Key Entry := ∅
  ready_requests : Dict Key (Entry × Bytes) := ∅
  main : Main := .poll
  listener : Listener := .idle
  closing : Bool := false
  received : List Request := []
  sent : List Reply := []
  returned : List (Key × Option Bytes) := []

/-- The value that `data_callbak` stores. -/
def result (cmd : Command) (value : Bytes) : Bytes :=
  if cmd.code = StatusCode.SUCCESS then value else []

/-- `data_callbak` as one piece. -/
def data_callbak (pending : Dict Key Entry) (ready : Dict Key (Entry × Bytes)) (cmd : Command)
    (value : Bytes) : Except Exn (Dict Key Entry × Dict Key (Entry × Bytes)) :=
  match pending.lookup cmd.key with
  | none => .error .KeyError
  | some t => .ok (pending.erase cmd.key, ready.insert cmd.key (t, result cmd value))

/-- The listener after a response has been handled; a socket error ends the loop. -/
def State.rest (s : State) : Listener := if s.closing then .ended else .idle

/-- The first step of `data_callbak` in the listener thread. No handler of `_listen`
catches a `KeyError`. -/
def State.pop_pending (s : State) (seq : Option ℕ) (cmd : Command) (value : Bytes) : State :=
  match s.pending_requests.lookup cmd.key with
  | none => { s with listener := .raised .KeyError }
  | some t =>
      { s with
        pending_requests := s.pending_requests.erase cmd.key
        listener := .store seq cmd.key t (result cmd value) }

/-- `_on_response` in the listener thread. -/
def State.deliver (s : State) (cmd : Command) (value : Bytes) : State :=
  match s.kvclient.on_response cmd with
  | .pending (some ()) => s.pop_pending (some cmd.ackSequence) cmd value
  | .pending none => { s with listener := .clean_up cmd.ackSequence }
  | .delegate () => s.pop_pending none cmd value
  | .ignored => { s with listener := s.rest }

/-- The next step of the listener inside a callback. -/
def State.listen (s : State) : Option State :=
  match s.listener with
  | .store seq key t value =>
      some { s with
        ready_requests := s.ready_requests.insert key (t, value)
        listener := match seq with
          | some seq => .clean_up seq
          | none => s.rest }
  | .clean_up seq =>
      if seq ∈ s.kvclient.pending then
        some { s with kvclient := s.kvclient.clean_up seq, listener := s.rest }
      else some { s with listener := .raised .KeyError }
  | _ => none

/-- `_client_error_callback` in the main thread, when a packet cannot be sent. -/
def State.not_attempted (s : State) : State :=
  let cmd := client_error .NOT_ATTEMPTED
  match s.kvclient.on_response cmd with
  | .ignored => { s with main := .respond }
  | .pending none =>
      { s with kvclient := s.kvclient.clean_up cmd.ackSequence, main := .respond }
  | .pending (some ()) =>
      match data_callbak s.pending_requests s.ready_requests cmd [] with
      | .error e => { s with main := .raised e }
      | .ok (pending, ready) =>
          { s with
            pending_requests := pending, ready_requests := ready
            kvclient := s.kvclient.clean_up cmd.ackSequence, main := .respond }
  | .delegate () =>
      match data_callbak s.pending_requests s.ready_requests cmd [] with
      | .error e => { s with main := .raised e }
      | .ok (pending, ready) =>
          { s with pending_requests := pending, ready_requests := ready, main := .respond }

def PONG : Bytes := [80, 79, 78, 71]

/-- The branches on the opcode of a request. -/
def State.receive (s : State) (r : Request) : State :=
  let arrival := s.received.length
  let s := { s with received := s.received ++ [r] }
  match r.opcode with
  | .PING =>
      { s with
        sent := s.sent ++ [⟨arrival, r.address, .message [] .NONE PONG⟩], main := .respond }
  | .GET | .GETSMART =>
      { s with
        pending_requests := s.pending_requests.insert r.key ⟨arrival, r⟩, main := .acquire r.key }
  | .NONE => { s with main := .raised .NotImplementedError }

/-- What is sent for a finished request. -/
def reply (key : Key) (t : Entry) (value : Bytes) : Except Exn Body :=
  match t.request.opcode with
  | .GET => .ok (.message key .GET value)
  | .GETSMART =>
      if t.request.size.toNat ≤ maxint then .ok (.raw (List.replicate t.request.size.toNat 0))
      else .error .OverflowError
  | _ => .error .ValueError

/-- Sending the reply of the entry that `popitem` has returned. -/
def State.answer (s : State) (key : Key) (t : Entry) (value : Bytes) : State :=
  let s := { s with ready_requests := s.ready_requests.erase key }
  match reply key t value with
  | .ok body =>
      { s with sent := s.sent ++ [⟨t.arrival, t.request.address, body⟩], main := .poll }
  | .error e => { s with main := .raised e }

/-- `respond` names the key that `popitem` picks. The drive answers the command `seq` with
`cmd` and `value`, in any order; `bad_hmac` is an answer that fails its check. -/
inductive Action where
  | no_event
  | receive (r : Request)
  | acquire
  | header
  | send (accepted : Bool)
  | respond (key : Option Key)
  | drive (seq : ℕ) (cmd : Command) (value : Bytes)
  | bad_hmac (seq : ℕ)
  | timeout
  | socket_error
  | listen

/-- The drive has answered the command `seq`. -/
def State.take_response (s : State) (seq : ℕ) (key : Key) (cmd : Command) (value : Bytes) :
    State :=
  { s with
    kvclient := s.kvclient.answer seq
    returned := s.returned ++ [(key, cmd.outcome value)] }

def step (s : State) : Action → Option State
  | .no_event => if s.main = .poll then some { s with main := .respond } else none
  | .receive r => if s.main = .poll then some (s.receive r) else none
  | .acquire =>
      match s.main with
      | .acquire key =>
          s.kvclient.acquire.map fun kv => { s with kvclient := kv, main := .header key }
      | _ => none
  | .header =>
      match s.main with
      | .header key =>
          some { s with
            kvclient := s.kvclient.update_header, main := .send s.kvclient.sequence key }
      | _ => none
  | .send accepted =>
      match s.main with
      | .send seq key =>
          if accepted then
            some { s with kvclient := s.kvclient.packet_send seq key, main := .respond }
          else some s.not_attempted
      | _ => none
  | .respond none =>
      if s.main = .respond ∧ s.ready_requests.keys = [] then some { s with main := .poll } else none
  | .respond (some key) =>
      if s.main = .respond then
        (s.ready_requests.lookup key).map fun x => s.answer key x.1 x.2
      else none
  | .drive seq cmd value =>
      if s.listener = .idle ∧ cmd.ackSequence = seq then
        (s.kvclient.asked seq).map fun key => (s.take_response seq key cmd value).deliver cmd value
      else none
  | .bad_hmac seq =>
      if s.listener = .idle then
        (s.kvclient.asked seq).map fun _ =>
          { s with kvclient := s.kvclient.answer seq }.deliver (client_error .HMAC_FAILURE) []
      else none
  | .timeout =>
      if s.listener = .idle ∧ s.kvclient.pending.keys ≠ [] then
        some (s.deliver (client_error .EXPIRED) [])
      else none
  | .socket_error =>
      if s.listener = .idle then
        some ({ s with closing := true }.deliver (client_error .INTERNAL_ERROR) [])
      else none
  | .listen => s.listen

/-- What each action can do. -/
def Effect (s t : State) : Action → Prop
  | .no_event => s.main = .poll ∧ t = { s with main := .respond }
  | .receive r => s.main = .poll ∧ t = s.receive r
  | .acquire => ∃ key kv, s.main = .acquire key ∧ s.kvclient.acquire = some kv ∧
      t = { s with kvclient := kv, main := .header key }
  | .header => ∃ key, s.main = .header key ∧
      t = { s with kvclient := s.kvclient.update_header, main := .send s.kvclient.sequence key }
  | .send accepted => ∃ seq key, s.main = .send seq key ∧
      (accepted = true ∧ t = { s with kvclient := s.kvclient.packet_send seq key, main := .respond } ∨
        accepted = false ∧ t = s.not_attempted)
  | .respond none => s.main = .respond ∧ s.ready_requests.keys = [] ∧ t = { s with main := .poll }
  | .respond (some key) => s.main = .respond ∧
      ∃ e value, s.ready_requests.lookup key = some (e, value) ∧ t = s.answer key e value
  | .drive seq cmd value => s.listener = .idle ∧ cmd.ackSequence = seq ∧
      ∃ key, s.kvclient.asked seq = some key ∧ t = (s.take_response seq key cmd value).deliver cmd value
  | .bad_hmac seq => s.listener = .idle ∧ ∃ key, s.kvclient.asked seq = some key ∧
      t = { s with kvclient := s.kvclient.answer seq }.deliver (client_error .HMAC_FAILURE) []
  | .timeout => s.listener = .idle ∧ t = s.deliver (client_error .EXPIRED) []
  | .socket_error => s.listener = .idle ∧
      t = { s with closing := true }.deliver (client_error .INTERNAL_ERROR) []
  | .listen => s.listen = some t

theorem step_effect {a : Action} {s t : State} (h : step s a = some t) : Effect s t a := by
  cases a with
  | no_event =>
      simp only [step, Option.ite_none_right_eq_some, Option.some.injEq] at h
      exact ⟨h.1, h.2.symm⟩
  | receive r =>
      simp only [step, Option.ite_none_right_eq_some, Option.some.injEq] at h
      exact ⟨h.1, h.2.symm⟩
  | acquire =>
      simp only [step] at h
      split at h
      · obtain ⟨kv, hkv, ht⟩ := Option.map_eq_some_iff.mp h
        exact ⟨_, kv, ‹_›, hkv, ht.symm⟩
      · cases h
  | header =>
      simp only [step] at h
      split at h
      · exact ⟨_, ‹_›, (Option.some.inj h).symm⟩
      · cases h
  | send accepted =>
      simp only [step] at h
      split at h
      · cases accepted
        · exact ⟨_, _, ‹_›, .inr ⟨rfl, (Option.some.inj h).symm⟩⟩
        · exact ⟨_, _, ‹_›, .inl ⟨rfl, (Option.some.inj h).symm⟩⟩
      · cases h
  | respond picked =>
      cases picked with
      | none =>
          simp only [step, Option.ite_none_right_eq_some, Option.some.injEq] at h
          exact ⟨h.1.1, h.1.2, h.2.symm⟩
      | some key =>
          simp only [step, Option.ite_none_right_eq_some, Option.map_eq_some_iff] at h
          obtain ⟨hmain, x, hx, ht⟩ := h
          exact ⟨hmain, x.1, x.2, hx, ht.symm⟩
  | drive seq cmd value =>
      simp only [step, Option.ite_none_right_eq_some, Option.map_eq_some_iff] at h
      obtain ⟨⟨hidle, hseq⟩, key, hkey, ht⟩ := h
      exact ⟨hidle, hseq, key, hkey, ht.symm⟩
  | bad_hmac seq =>
      simp only [step, Option.ite_none_right_eq_some, Option.map_eq_some_iff] at h
      obtain ⟨hidle, key, hkey, ht⟩ := h
      exact ⟨hidle, key, hkey, ht.symm⟩
  | timeout =>
      simp only [step, Option.ite_none_right_eq_some, Option.some.injEq] at h
      exact ⟨h.1.1, h.2.symm⟩
  | socket_error =>
      simp only [step, Option.ite_none_right_eq_some, Option.some.injEq] at h
      exact ⟨h.1, h.2.symm⟩
  | listen => exact h

/-- The entries that the listener holds between its two steps. -/
def Listener.held : Listener → List Entry
  | .store _ _ t _ => [t]
  | _ => []

@[simp] theorem held_store (o : Option ℕ) (k : Key) (e : Entry) (v : Bytes) :
    (Listener.store o k e v).held = [e] := rfl

theorem held_rest (s : State) : s.rest.held = [] := by
  unfold State.rest
  split <;> rfl

theorem pop_pending_cases (s : State) (o : Option ℕ) (cmd : Command) (value : Bytes) :
    (∃ e, s.pending_requests.lookup cmd.key = some e ∧ s.pop_pending o cmd value =
      { s with
        pending_requests := s.pending_requests.erase cmd.key
        listener := .store o cmd.key e (result cmd value) }) ∨
      s.pop_pending o cmd value = { s with listener := .raised .KeyError } := by
  unfold State.pop_pending
  cases s.pending_requests.lookup cmd.key with
  | none => exact .inr rfl
  | some e => exact .inl ⟨e, rfl, rfl⟩

/-- A response is handed to `data_callbak`, or nothing but the listener changes. -/
theorem deliver_cases (s : State) (cmd : Command) (value : Bytes) :
    (∃ e o, s.pending_requests.lookup cmd.key = some e ∧ s.deliver cmd value =
      { s with
        pending_requests := s.pending_requests.erase cmd.key
        listener := .store o cmd.key e (result cmd value) }) ∨
      ∃ l, l.held = [] ∧ s.deliver cmd value = { s with listener := l } := by
  have hpop : ∀ o, (∃ e o', s.pending_requests.lookup cmd.key = some e ∧
      s.pop_pending o cmd value = { s with
        pending_requests := s.pending_requests.erase cmd.key
        listener := .store o' cmd.key e (result cmd value) }) ∨
      ∃ l, l.held = [] ∧ s.pop_pending o cmd value = { s with listener := l } := by
    intro o
    obtain ⟨e, he, h⟩ | h := pop_pending_cases s o cmd value
    · exact .inl ⟨e, o, he, h⟩
    · exact .inr ⟨_, rfl, h⟩
  unfold State.deliver
  split
  · exact hpop _
  · exact .inr ⟨_, rfl, rfl⟩
  · exact hpop _
  · exact .inr ⟨_, held_rest s, rfl⟩

theorem listen_cases {s t : State} (h : s.listen = some t) :
    (∃ o k e v l, s.listener = .store o k e v ∧ l.held = [] ∧
      t = { s with ready_requests := s.ready_requests.insert k (e, v), listener := l }) ∨
      ∃ seq kv l, s.listener = .clean_up seq ∧ l.held = [] ∧
        t = { s with kvclient := kv, listener := l } := by
  unfold State.listen at h
  split at h
  · rename_i o k e v hstore
    apply Or.inl
    refine ⟨o, k, e, v, _, hstore, ?_, (Option.some.inj h).symm⟩
    cases o with
    | none => exact held_rest s
    | some seq => rfl
  · rename_i seq hclean
    apply Or.inr
    split at h
    · exact ⟨seq, _, _, hclean, held_rest s, (Option.some.inj h).symm⟩
    · exact ⟨seq, s.kvclient, _, hclean, rfl, (Option.some.inj h).symm⟩
  · cases h

def proxy_server : ActionSystem.System State Action where
  start := {}
  step a s := step s a

/-! ### Conditions on a run -/

/-- The drive echoes the key of the command it answers. -/
def Echoes (a : Action) (s : State) : Prop :=
  match a with
  | .drive seq cmd _ => s.kvclient.asked seq = some cmd.key
  | _ => True

/-- No error of the client's own making. -/
def Quiet (a : Action) (_ : State) : Prop :=
  match a with
  | .send false | .bad_hmac _ | .timeout | .socket_error => False
  | _ => True

/-- A request that has been answered. -/
def State.Answered (s : State) (i : ℕ) : Prop := i ∈ s.sent.map (·.arrival)

/-- No request comes for a key while an earlier one for the same key is unanswered. -/
def NoCollision (a : Action) (s : State) : Prop :=
  match a with
  | .receive r => r.isGet = true → ∀ i : Fin s.received.length,
      (s.received.get i).isGet = true → (s.received.get i).key = r.key → s.Answered i
  | _ => True

/-- No request asks for more zero bytes than a string can hold. -/
def Representable (a : Action) (_ : State) : Prop :=
  match a with
  | .receive r => r.opcode = .GETSMART → r.size.toNat ≤ maxint
  | _ => True

instance (s : State) (i : ℕ) : Decidable (s.Answered i) :=
  inferInstanceAs (Decidable (i ∈ s.sent.map (·.arrival)))

instance (a : Action) (s : State) : Decidable (Echoes a s) := by
  unfold Echoes
  split <;> infer_instance

instance (a : Action) (s : State) : Decidable (Quiet a s) := by
  unfold Quiet
  split <;> infer_instance

instance (a : Action) (s : State) : Decidable (NoCollision a s) := by
  unfold NoCollision
  split <;> infer_instance

instance (a : Action) (s : State) : Decidable (Representable a s) := by
  unfold Representable
  split <;> infer_instance

end SmartDisk.ProxyServer
