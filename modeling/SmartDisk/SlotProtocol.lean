import SmartDisk.ActionSystem
import SmartDisk.KineticClient
import Mathlib.Data.Fintype.Basic

/-!
# The shared slots of `kinetic/app.py`

A Flask handler takes a slot, puts `(key, sm_idx)` on a queue and polls `len` of the
slot. A worker process takes the pair off the queue, installs a callback that knows
both, and issues a `get`; the callback writes the payload and then `len`, so that `len`
is the signal that the payload is there. The handler copies the payload, sets `len` back
to -1 and returns the slot.

Each access to shared memory is a step of its own, and so are the steps of the
client. A value that does not fit the array raises `ValueError` in the listener,
which reports it as an error of the client. The number of a handler, which travels
with its pair, is history, and so are `returned` and `failed`. Waiting and logging are
left out.
-/
namespace SmartDisk.SlotProtocol
open KineticClient

def MAX_PAYLOAD_LEN : ℕ := 1024 * 1024
def MAX_SLOT_NUM : ℕ := 16

abbrev Idx := Fin MAX_SLOT_NUM

/-- `mp.Array('c', MAX_PAYLOAD_LEN)`. -/
def Payload := { bytes : Bytes // bytes.length = MAX_PAYLOAD_LEN }

namespace Payload

def zeros : Payload := ⟨List.replicate MAX_PAYLOAD_LEN 0, List.length_replicate⟩

/-- `payload[:vlen] = buffer(value)`; the slice is cut at the end of the array, and its
length must be that of the value. -/
def write (p : Payload) (value : Bytes) : Option Payload :=
  if h : value.length ≤ MAX_PAYLOAD_LEN then
    some ⟨value ++ p.1.drop value.length, by
      rw [List.length_append, List.length_drop, p.2]
      exact Nat.add_sub_cancel' h⟩
  else none

/-- `bytes(buffer(payload, 0, plen))`, where -1 stands for everything. -/
def read (p : Payload) (plen : ℤ) : Bytes := if plen < 0 then p.1 else p.1.take plen.toNat

end Payload

structure SM_Slot where
  len : ℤ := -1
  payload : Payload := .zeros

/-- An item of the queue, with the handler that put it there. -/
structure Request where
  key : Key
  sm_idx : Idx
  owner : ℕ
  deriving DecidableEq

inductive Exn where
  | KeyError | UnicodeEncodeError | OverflowError | ValueError
  deriving DecidableEq, Repr

/-! ### Handlers -/

/-- The two routes; a size that the address leaves out is `None`. -/
inductive Endpoint where
  | get
  | getsmart (size : Option ℕ)
  deriving DecidableEq

/-- `bytes(key)` of a text. -/
def bytes (text : List Char) : Except Exn Key :=
  if text.all fun c => c.toNat < 128 then .ok (text.map fun c => c.toNat.toUInt8)
  else .error .UnicodeEncodeError

/-- Where a handler is. From `copy` on it knows `plen`, from `reset` on its payload. -/
inductive Pc where
  | absent
  | pop
  | put (i : Idx)
  | poll (i : Idx)
  | read (i : Idx)
  | copy (i : Idx) (plen : ℤ)
  | reset (i : Idx) (payload : Bytes)
  | add (i : Idx) (payload : Bytes)
  | leave (payload : Bytes)
  | returned (body : Bytes)
  | raised (e : Exn)
  deriving DecidableEq

structure Handler where
  endpoint : Endpoint := .get
  key : Key := []
  pc : Pc := .absent

/-- A handler is called with the text of its address. -/
def Handler.enter (endpoint : Endpoint) (text : List Char) : Handler :=
  match bytes text with
  | .ok key => ⟨endpoint, key, .pop⟩
  | .error e => ⟨endpoint, [], .raised e⟩

/-- The result once the slot has been released. -/
def body (endpoint : Endpoint) (payload : Bytes) : Except Exn Bytes :=
  match endpoint with
  | .getsmart (some size) =>
      if size ≠ 0 ∧ payload.length > 0 then
        if size ≤ maxint then .ok (List.replicate size 0) else .error .OverflowError
      else .ok payload
  | _ => .ok payload

/-! ### Workers -/

/-- Inside `_on_response`: the two writes of the callback, then the cleaning up. The
sequence number is unknown when the response went to the delegate. -/
inductive Progress where
  | payload (seq : Option ℕ) (r : Request) (value : Bytes)
  | len (seq : Option ℕ) (r : Request) (vlen : ℕ)
  | clean_up (seq : ℕ)

inductive Main where
  | fetch
  | install (r : Request)
  | acquire (r : Request)
  | header (r : Request)
  | send (seq : ℕ) (r : Request)
  | report (p : Progress)
  | raised (e : Exn)

inductive Listener where
  | idle
  | callback (p : Progress)
  | ended
  | raised (e : Exn)

structure Worker where
  client : Client Request := { queue_depth := 16 }
  main : Main := .fetch
  listener : Listener := .idle
  closing : Bool := false

/-- The branches of `data_callback`. -/
def data_callback (seq : Option ℕ) (r : Request) (cmd : Command) (value : Bytes) : Progress :=
  if cmd.code = .SUCCESS then .payload seq r value else .len seq r 0

/-- What `_on_response` starts. -/
def respond (c : Client Request) (cmd : Command) (value : Bytes) : Option Progress :=
  match c.on_response cmd with
  | .pending (some r) => some (data_callback (some cmd.ackSequence) r cmd value)
  | .pending none => some (.clean_up cmd.ackSequence)
  | .delegate r => some (data_callback none r cmd value)
  | .ignored => none

/-- The key whose callback an error of the client reaches. -/
def blamed (c : Client Request) (cmd : Command) : List Key :=
  match c.on_response cmd with
  | .pending (some r) | .delegate r => [r.key]
  | _ => []

/-- The slots and the client after the next step of a callback, and what remains of it. -/
structure Advanced where
  sm_slots : Idx → SM_Slot
  client : Client Request
  rest : Except Exn (Option Progress)

def setPayload (slots : Idx → SM_Slot) (i : Idx) (p : Payload) : Idx → SM_Slot :=
  Function.update slots i { slots i with payload := p }

def setLen (slots : Idx → SM_Slot) (i : Idx) (n : ℤ) : Idx → SM_Slot :=
  Function.update slots i { slots i with len := n }

def Progress.advance (slots : Idx → SM_Slot) (c : Client Request) : Progress → Advanced
  | .payload seq r value =>
      match (slots r.sm_idx).payload.write value with
      | some p => ⟨setPayload slots r.sm_idx p, c, .ok (some (.len seq r value.length))⟩
      | none => ⟨slots, c, .error .ValueError⟩
  | .len seq r vlen => ⟨setLen slots r.sm_idx vlen, c, .ok (seq.map .clean_up)⟩
  | .clean_up seq =>
      if seq ∈ c.pending then ⟨slots, c.clean_up seq, .ok none⟩ else ⟨slots, c, .error .KeyError⟩

/-! ### The whole application -/

structure State (n : ℕ) where
  sm_slots : Idx → SM_Slot := fun _ => {}
  sm_available_idx : Finset Idx := Finset.univ
  requests : List Request := []
  handlers : ℕ → Handler := fun _ => {}
  workers : Fin n → Worker := fun _ => {}
  returned : List (Key × Option Bytes) := []
  failed : List Key := []

inductive Action (n : ℕ) where
  | call (h : ℕ) (endpoint : Endpoint) (text : List Char)
  | pop (h : ℕ) (i : Option Idx)
  | resume (h : ℕ)
  | fetch (w : Fin n)
  | install (w : Fin n)
  | acquire (w : Fin n)
  | header (w : Fin n)
  | send (w : Fin n) (accepted : Bool)
  | report (w : Fin n)
  | drive (w : Fin n) (seq : ℕ) (cmd : Command) (value : Bytes)
  | bad_hmac (w : Fin n) (seq : ℕ)
  | timeout (w : Fin n)
  | socket_error (w : Fin n)
  | listen (w : Fin n)

variable {n : ℕ}

namespace State

def setPc (s : State n) (h : ℕ) (pc : Pc) : State n :=
  { s with handlers := Function.update s.handlers h { s.handlers h with pc := pc } }

def setWorker (s : State n) (w : Fin n) (wk : Worker) : State n :=
  { s with workers := Function.update s.workers w wk }

/-- The next step of a handler after it has its slot. A handler that finds `len` negative
stays in its loop. -/
def resume (s : State n) (h : ℕ) : Option (State n) :=
  let key := (s.handlers h).key
  match (s.handlers h).pc with
  | .put i => some { s.setPc h (.poll i) with requests := s.requests ++ [⟨key, i, h⟩] }
  | .poll i => if (s.sm_slots i).len < 0 then none else some (s.setPc h (.read i))
  | .read i =>
      let plen := (s.sm_slots i).len
      some (s.setPc h (if plen = 0 then .reset i [] else .copy i plen))
  | .copy i plen => some (s.setPc h (.reset i ((s.sm_slots i).payload.read plen)))
  | .reset i payload =>
      some { s.setPc h (.add i payload) with sm_slots := setLen s.sm_slots i (-1) }
  | .add i payload =>
      some { s.setPc h (.leave payload) with sm_available_idx := insert i s.sm_available_idx }
  | .leave payload =>
      some (s.setPc h (match body (s.handlers h).endpoint payload with
        | .ok b => .returned b
        | .error e => .raised e))
  | _ => none

/-- The listener after a response has been handled; a socket error ends the loop. -/
def rest (wk : Worker) : Listener := if wk.closing then .ended else .idle

/-- `_on_response` in the listener of `w`. -/
def deliver (s : State n) (w : Fin n) (wk : Worker) (cmd : Command) (value : Bytes) : State n :=
  s.setWorker w { wk with
    listener := match respond wk.client cmd value with
      | some p => .callback p
      | none => rest wk }

/-- `_client_error_callback` in the listener of `w`. -/
def report_error (s : State n) (w : Fin n) (wk : Worker) (code : StatusCode) : State n :=
  { s with failed := s.failed ++ blamed wk.client (client_error code) }.deliver w wk
    (client_error code) []

/-- `_client_error_callback` in the main thread of `w`, for a packet that cannot be sent. -/
def not_attempted (s : State n) (w : Fin n) : State n :=
  let wk := s.workers w
  let cmd := client_error .NOT_ATTEMPTED
  { s with failed := s.failed ++ blamed wk.client cmd }.setWorker w
    { wk with
      main := match respond wk.client cmd [] with
        | some p => .report p
        | none => .fetch }

/-- The main thread of `w` inside a callback. -/
def report (s : State n) (w : Fin n) : Option (State n) :=
  let wk := s.workers w
  match wk.main with
  | .report p =>
      let x := p.advance s.sm_slots wk.client
      some ({ s with sm_slots := x.sm_slots }.setWorker w
        { wk with
          client := x.client
          main := match x.rest with
            | .ok (some p) => .report p
            | .ok none => .fetch
            | .error e => .raised e })
  | _ => none

/-- The listener of `w` inside a callback. `_listen` turns a `ValueError` into an error
report and catches nothing else. -/
def listen (s : State n) (w : Fin n) : Option (State n) :=
  let wk := s.workers w
  match wk.listener with
  | .callback p =>
      let x := p.advance s.sm_slots wk.client
      some (match x.rest with
        | .ok (some p) =>
            { s with sm_slots := x.sm_slots }.setWorker w
              { wk with client := x.client, listener := .callback p }
        | .ok none =>
            { s with sm_slots := x.sm_slots }.setWorker w
              { wk with client := x.client, listener := rest wk }
        | .error .ValueError => s.report_error w wk .INTERNAL_ERROR
        | .error e => s.setWorker w { wk with listener := .raised e })
  | _ => none

end State

/-- The worker after the drive has answered the command `seq`. -/
def Worker.take_response (wk : Worker) (seq : ℕ) : Worker :=
  { wk with client := wk.client.answer seq }

def step (s : State n) : Action n → Option (State n)
  | .call h endpoint text =>
      if (s.handlers h).pc = .absent then
        some { s with handlers := Function.update s.handlers h (.enter endpoint text) }
      else none
  | .pop h (some i) =>
      if (s.handlers h).pc = .pop ∧ i ∈ s.sm_available_idx then
        some { s.setPc h (.put i) with sm_available_idx := s.sm_available_idx.erase i }
      else none
  | .pop h none =>
      if (s.handlers h).pc = .pop ∧ s.sm_available_idx = ∅ then
        some (s.setPc h (.raised .KeyError))
      else none
  | .resume h => s.resume h
  | .fetch w =>
      match (s.workers w).main, s.requests with
      | .fetch, r :: rest =>
          some ({ s with requests := rest }.setWorker w { s.workers w with main := .install r })
      | _, _ => none
  | .install w =>
      match (s.workers w).main with
      | .install r =>
          some (s.setWorker w { s.workers w with
            client := { (s.workers w).client with callback_delegate := some r }
            main := .acquire r })
      | _ => none
  | .acquire w =>
      match (s.workers w).main with
      | .acquire r => (s.workers w).client.acquire.map fun c =>
          s.setWorker w { s.workers w with client := c, main := .header r }
      | _ => none
  | .header w =>
      match (s.workers w).main with
      | .header r =>
          some (s.setWorker w { s.workers w with
            client := (s.workers w).client.update_header
            main := .send (s.workers w).client.sequence r })
      | _ => none
  | .send w accepted =>
      match (s.workers w).main with
      | .send seq r =>
          if accepted then
            some (s.setWorker w { s.workers w with
              client := (s.workers w).client.packet_send seq r.key, main := .fetch })
          else some (s.not_attempted w)
      | _ => none
  | .report w => s.report w
  | .drive w seq cmd value =>
      match (s.workers w).listener with
      | .idle =>
          if cmd.ackSequence = seq then
            ((s.workers w).client.asked seq).map fun key =>
              { s with returned := s.returned ++ [(key, cmd.outcome value)] }.deliver w
                ((s.workers w).take_response seq) cmd value
          else none
      | _ => none
  | .bad_hmac w seq =>
      match (s.workers w).listener with
      | .idle => ((s.workers w).client.asked seq).map fun _ =>
          s.report_error w ((s.workers w).take_response seq) .HMAC_FAILURE
      | _ => none
  | .timeout w =>
      match (s.workers w).listener with
      | .idle =>
          if (s.workers w).client.pending.keys ≠ [] then
            some (s.report_error w (s.workers w) .EXPIRED)
          else none
      | _ => none
  | .socket_error w =>
      match (s.workers w).listener with
      | .idle => some (s.report_error w { s.workers w with closing := true } .INTERNAL_ERROR)
      | _ => none
  | .listen w => s.listen w

/-- The application with `n` worker processes, from any of its states. -/
def app_from (s₀ : State n) : ActionSystem.System (State n) (Action n) where
  start := s₀
  step a s := step s a

def app (n : ℕ) : ActionSystem.System (State n) (Action n) := app_from {}

end SmartDisk.SlotProtocol
