import SmartDisk.ActionSystem
import SmartDisk.KineticClient
import Mathlib.Algebra.BigOperators.Group.List.Basic

/-!
# The filter that reads from a drive

`SimpleKineticGetFilter` of `s3dexp/kinetic/filter.py` issues one `get` for an item, waits
until nothing is outstanding and pops the last value from `result`, to which the callback
appends in the listener's thread. An error that the client reports about itself carries
sequence number 0: it ends the first command, if that one is pending, and any other time it
appends an empty value beside the command that is pending. The answer to a command that was
ended so arrives late.

The steps of the two threads interleave. The drive answers with what it has under the key, or
with a failure. The client stays connected, since nothing closes it; a year of waiting, the
logging and the measurement of time are left out.
-/
namespace SmartDisk.KineticGetFilter
open KineticClient ActionSystem

/-- What remains of `_on_response`: the callback, then the cleaning up. The sequence number is
unknown when the response went to the delegate. -/
inductive Progress where
  | callback (seq : Option ℕ) (value : Bytes)
  | clean_up (seq : ℕ)

inductive Exn where
  | KeyError | IndexError
  deriving DecidableEq

/-- The worker of the search, in `__call__` with the key of its item. -/
inductive Main where
  | ready
  | acquire (key : Key)
  | header (key : Key)
  | send (seq : ℕ) (key : Key)
  | report (key : Key) (p : Progress)
  | wait_q (key : Key)
  | pop (key : Key)
  | raised (e : Exn)

inductive Listener where
  | idle
  | callback (p : Progress)
  | ended
  | raised (e : Exn)

/-- `items` has each item that was accepted, with its data. -/
structure State where
  client : Client Unit := { queue_depth := 5, callback_delegate := some () }
  main : Main := .ready
  listener : Listener := .idle
  closing : Bool := false
  result : List Bytes := []
  items : List (Key × Bytes) := []
  bytes_from_disk : ℕ := 0

/-- `data_callbak` appends what a successful answer carries, and nothing for another. -/
def data_callbak (cmd : Command) (value : Bytes) : Bytes :=
  if cmd.code = .SUCCESS then value else []

/-- What `_on_response` starts. -/
def respond (c : Client Unit) (cmd : Command) (value : Bytes) : Option Progress :=
  match c.on_response cmd with
  | .pending (some _) => some (.callback (some cmd.ackSequence) (data_callbak cmd value))
  | .pending none => some (.clean_up cmd.ackSequence)
  | .delegate _ => some (.callback none (data_callbak cmd value))
  | .ignored => none

/-- The list and the client after the next step of a response, and what remains of it. -/
structure Advanced where
  result : List Bytes
  client : Client Unit
  rest : Except Exn (Option Progress)

def Progress.advance (result : List Bytes) (c : Client Unit) : Progress → Advanced
  | .callback seq value => ⟨result ++ [value], c, .ok (seq.map .clean_up)⟩
  | .clean_up seq =>
      if seq ∈ c.pending then ⟨result, c.clean_up seq, .ok none⟩
      else ⟨result, c, .error .KeyError⟩

/-- The listener after a response has been handled; a socket error ends its loop. -/
def State.rest (s : State) : Listener := if s.closing then .ended else .idle

/-- `_on_response` in the listener. -/
def State.deliver (s : State) (cmd : Command) (value : Bytes) : State :=
  { s with
    listener := match respond s.client cmd value with
      | some p => .callback p
      | none => s.rest }

/-- An answer of the drive to the command `seq`; without a value it is a failure. -/
def answer (seq : ℕ) (key : Key) (code : ℕ) (value : Option Bytes) : Command :=
  ⟨seq, if value.isSome then .SUCCESS else .drive_error code, key⟩

inductive Action where
  | call (key : Key)
  | acquire
  | header
  | send (accepted : Bool)
  | report
  | wait_q
  | pop
  | drive (seq code : ℕ) (value : Option Bytes)
  | bad_hmac (seq : ℕ)
  | timeout
  | socket_error
  | listen

/-- The worker reports by itself that a packet could not be sent. -/
def State.not_attempted (s : State) (key : Key) : State :=
  { s with
    main := match respond s.client (client_error .NOT_ATTEMPTED) [] with
      | some p => .report key p
      | none => .wait_q key }

/-- The worker inside a callback. -/
def State.report (s : State) (key : Key) (p : Progress) : State :=
  let x := p.advance s.result s.client
  { s with
    result := x.result
    client := x.client
    main := match x.rest with
      | .ok (some p) => .report key p
      | .ok none => .wait_q key
      | .error e => .raised e }

/-- The listener inside a callback. Nothing catches a `KeyError`. -/
def State.listen (s : State) (p : Progress) : State :=
  let x := p.advance s.result s.client
  { s with
    result := x.result
    client := x.client
    listener := match x.rest with
      | .ok (some p) => .callback p
      | .ok none => s.rest
      | .error e => .raised e }

/-- `self.result.pop()` and what follows it. -/
def State.pop (s : State) (key : Key) : State :=
  match s.result.getLast? with
  | none => { s with main := .raised .IndexError }
  | some value =>
      { s with
        main := .ready
        result := s.result.dropLast
        items := s.items ++ [(key, value)]
        bytes_from_disk := s.bytes_from_disk + value.length }

def step : Action → State → Option State
  | .call key, s =>
      match s.main with
      | .ready => some { s with main := .acquire key }
      | _ => none
  | .acquire, s =>
      match s.main with
      | .acquire key => s.client.acquire.map fun c => { s with client := c, main := .header key }
      | _ => none
  | .header, s =>
      match s.main with
      | .header key =>
          some { s with client := s.client.update_header, main := .send s.client.sequence key }
      | _ => none
  | .send accepted, s =>
      match s.main with
      | .send seq key =>
          if accepted then
            some { s with client := s.client.packet_send seq key, main := .wait_q key }
          else some (s.not_attempted key)
      | _ => none
  | .report, s =>
      match s.main with
      | .report key p => some (s.report key p)
      | _ => none
  | .wait_q, s =>
      match s.main with
      | .wait_q key => if s.client.outstanding = 0 then some { s with main := .pop key } else none
      | _ => none
  | .pop, s =>
      match s.main with
      | .pop key => some (s.pop key)
      | _ => none
  | .drive seq code value, s =>
      match s.listener with
      | .idle => (s.client.asked seq).map fun key =>
          { s with client := s.client.answer seq }.deliver (answer seq key code value)
            (value.getD [])
      | _ => none
  | .bad_hmac seq, s =>
      match s.listener with
      | .idle => (s.client.asked seq).map fun _ =>
          { s with client := s.client.answer seq }.deliver (client_error .HMAC_FAILURE) []
      | _ => none
  | .timeout, s =>
      match s.listener with
      | .idle =>
          if s.client.pending.keys ≠ [] then some (s.deliver (client_error .EXPIRED) [])
          else none
      | _ => none
  | .socket_error, s =>
      match s.listener with
      | .idle => some ({ s with closing := true }.deliver (client_error .INTERNAL_ERROR) [])
      | _ => none
  | .listen, s =>
      match s.listener with
      | .callback p => some (s.listen p)
      | _ => none

/-- One worker of the search with its drive. -/
def filter : System State Action where
  start := {}
  step := step

/-! ### The drive -/

variable (content : Key → Option Bytes)

/-- The drive answers its commands in their order, with what it has or with a failure. -/
def InOrder : Action → State → Prop
  | .drive seq _ value, s =>
      ∃ x ∈ s.client.wire.head?, x.1 = seq ∧ (value = none ∨ value = content x.2)
  | .bad_hmac seq, s => ∃ x ∈ s.client.wire.head?, x.1 = seq
  | _, _ => True

instance : ∀ a s, Decidable (InOrder content a s)
  | .drive _ _ _, _ => inferInstanceAs (Decidable (∃ _ ∈ _, _))
  | .bad_hmac _, _ => inferInstanceAs (Decidable (∃ _ ∈ _, _))
  | .call _, _ | .acquire, _ | .header, _ | .send _, _ | .report, _ | .wait_q, _ | .pop, _
  | .timeout, _ | .socket_error, _ | .listen, _ => .isTrue trivial

/-- The drive answers with what it has, and the client reports no error about itself. -/
def Quiet : Action → State → Prop
  | .drive seq _ value, s => ∃ x ∈ s.client.wire.head?, x.1 = seq ∧ value = content x.2
  | .send accepted, _ => accepted = true
  | .bad_hmac _, _ | .timeout, _ | .socket_error, _ => False
  | _, _ => True

instance : ∀ a s, Decidable (Quiet content a s)
  | .drive _ _ _, _ => inferInstanceAs (Decidable (∃ _ ∈ _, _))
  | .send _, _ => inferInstanceAs (Decidable (_ = _))
  | .bad_hmac _, _ | .timeout, _ | .socket_error, _ => .isFalse id
  | .call _, _ | .acquire, _ | .header, _ | .report, _ | .wait_q, _ | .pop, _ | .listen, _ =>
      .isTrue trivial

/-- Data that an item may get: its own, or none. -/
def Own (key : Key) (value : Bytes) : Prop := value = [] ∨ content key = some value

/-! ### The invariant -/

def Progress.value : Progress → Bytes
  | .callback _ value => value
  | .clean_up _ => []

def Progress.seq : Progress → Option ℕ
  | .callback seq _ => seq
  | .clean_up seq => some seq

/-- The item whose command has got its sequence number. -/
def Main.flight : Main → Option Key
  | .send _ key | .report key _ | .wait_q key | .pop key => some key
  | _ => none

/-- A place in the semaphore without an entry. -/
def Main.acquired : Main → ℕ
  | .header _ => 1
  | _ => 0

/-- The last command is not pending any more, or one thread is about to see to that. -/
def State.Over (s : State) : Prop :=
  ∃ seq, seq + 1 = s.client.sequence ∧
    (seq ∉ s.client.pending ∨ s.listener = .callback (.clean_up seq) ∨
      ∃ key, s.main = .report key (.clean_up seq))

/-- What the drive has still to answer was asked for this key. -/
def State.Alone (s : State) (key : Key) : Prop := ∀ x ∈ s.client.wire, x.2 = key

/-- What the threads and the list hold when no error of the client has to be told apart:
only one command can be pending, the last one, and it alone can be ended by an error. -/
structure Inv (s : State) : Prop where
  delegate : s.client.callback_delegate = some ()
  entries : ∀ seq callback, s.client.pending.lookup seq = some callback → callback = some ()
  count : s.client.outstanding = s.client.pending.keys.length + s.main.acquired
  latest : ∀ seq ∈ s.client.pending, seq + 1 = s.client.sequence ∧ s.main.flight.isSome
  below : ∀ x ∈ s.client.wire, x.1 < s.client.sequence
  sorted : s.client.wire.Pairwise fun x y => x.1 < y.1
  flying : ∀ key, s.main.flight = some key → 0 < s.client.sequence ∧
    ∀ x ∈ s.client.wire, x.1 + 1 = s.client.sequence → x.2 = key
  sending : ∀ seq key, s.main = .send seq key → seq + 1 = s.client.sequence ∧
    ∀ x ∈ s.client.wire, x.1 ≠ seq
  reporting : ∀ key p, s.main = .report key p → p.value = [] ∧
    ∀ seq, p.seq = some seq → seq = 0 ∧ s.client.sequence = 1
  popping : ∀ key, s.main = .pop key → s.client.pending.keys = []
  listening : ∀ p seq, s.listener = .callback p → p.seq = some seq → seq < s.client.sequence
  unsent : s.client.sequence = 0 → s.client.wire = [] ∧
    ∀ p, s.listener = .callback p → p.value = []
  first : ∀ key p, s.client.sequence = 1 → s.main.flight = some key → s.listener = .callback p →
    Own content key p.value
  answering : ∀ key seq value, s.main.flight = some key →
    s.listener = .callback (.callback (some seq) value) → seq + 1 = s.client.sequence →
    Own content key value ∧ s.Alone key
  complete : ∀ key, s.main.flight = some key → s.Over →
    (∃ value, s.result.getLast? = some value ∧ Own content key value) ∧ s.Alone key ∧
      ∀ p, s.listener = .callback p → Own content key p.value
  items : ∀ item ∈ s.items, Own content item.1 item.2
  popped : s.main ≠ .raised .IndexError
  bytes : s.bytes_from_disk = (s.items.map (·.2.length)).sum

theorem inv_start : Inv content filter.start where
  delegate := rfl
  entries seq callback h := by cases h
  count := rfl
  latest seq h := absurd h (AList.notMem_empty seq)
  below x h := absurd h List.not_mem_nil
  sorted := List.Pairwise.nil
  flying key h := by cases h
  sending seq key h := by cases h
  reporting key p h := by cases h
  popping key h := by cases h
  listening p seq h := by cases h
  unsent _ := ⟨rfl, fun p h => by cases h⟩
  first key p h := by cases h
  answering key seq value h := by cases h
  complete key h := by cases h
  items item h := absurd h List.not_mem_nil
  popped h := by cases h
  bytes := rfl

variable {content} {s : State}

theorem own_nil (key : Key) : Own content key [] := .inl rfl

theorem Inv.alone_of_first (h : Inv content s) {key : Key} (hflight : s.main.flight = some key)
    (hone : s.client.sequence = 1) : s.Alone key := by
  intro x hx
  have hlt := h.below x hx
  exact (h.flying key hflight).2 x hx (by omega)

/-- A response reaches the entry that is pending under its number, or the delegate. -/
theorem Inv.respond (h : Inv content s) (cmd : Command) (value : Bytes) :
    ∃ seq, respond s.client cmd value = some (.callback seq (data_callbak cmd value)) ∧
      ∀ k, seq = some k → k = cmd.ackSequence ∧ k + 1 = s.client.sequence := by
  unfold KineticGetFilter.respond Client.on_response
  cases hlookup : s.client.pending.lookup cmd.ackSequence with
  | some callback =>
      obtain rfl := h.entries _ _ hlookup
      have hpending : cmd.ackSequence ∈ s.client.pending :=
        AList.lookup_isSome.mp (Option.isSome_iff_exists.mpr ⟨_, hlookup⟩)
      refine ⟨some cmd.ackSequence, rfl, fun k hk => ?_⟩
      cases hk
      exact ⟨rfl, (h.latest _ hpending).1⟩
  | none =>
      rw [h.delegate]
      exact ⟨none, rfl, fun k hk => by cases hk⟩

theorem data_callbak_error (code : StatusCode) : data_callbak (client_error code) [] = [] := by
  unfold data_callbak
  split <;> rfl

/-- A response that an idle listener starts to handle. -/
theorem Inv.handle (h : Inv content s) {seq : Option ℕ}
    {value : Bytes} (hbelow : ∀ k, seq = some k → k < s.client.sequence)
    (hunsent : s.client.sequence = 0 → value = [])
    (hfirst : ∀ key, s.client.sequence = 1 → s.main.flight = some key → Own content key value)
    (hanswering : ∀ key k, s.main.flight = some key → seq = some k →
      k + 1 = s.client.sequence → Own content key value ∧ s.Alone key)
    (hover : ∀ key, s.main.flight = some key → s.Over → Own content key value) :
    Inv content { s with listener := .callback (.callback seq value) } where
  delegate := h.delegate
  entries := h.entries
  count := h.count
  latest := h.latest
  below := h.below
  sorted := h.sorted
  flying := h.flying
  sending := h.sending
  reporting := h.reporting
  popping := h.popping
  listening p k hp hk := by
    cases hp
    exact hbelow k hk
  unsent hzero := by
    refine ⟨(h.unsent hzero).1, fun p hp => ?_⟩
    cases hp
    exact hunsent hzero
  first key p hone hflight hp := by
    cases hp
    exact hfirst key hone hflight
  answering key k v hflight hp hk := by
    cases hp
    exact hanswering key k hflight rfl hk
  complete key hflight hover' := by
    have hbefore : s.Over := by
      obtain ⟨k, hk, hgone | hclean | hreport⟩ := hover'
      · exact ⟨k, hk, .inl hgone⟩
      · cases hclean
      · exact ⟨k, hk, .inr (.inr hreport)⟩
    obtain ⟨htop, halone, -⟩ := h.complete key hflight hbefore
    refine ⟨htop, halone, fun p hp => ?_⟩
    cases hp
    exact hover key hflight hbefore
  items := h.items
  popped := h.popped
  bytes := h.bytes

theorem Inv.handle_error (h : Inv content s) (code : StatusCode) :
    Inv content (s.deliver (client_error code) []) := by
  obtain ⟨seq, hrespond, hseq⟩ := h.respond (client_error code) []
  have hzero : ∀ k, seq = some k → k = 0 ∧ k + 1 = s.client.sequence := hseq
  rw [data_callbak_error] at hrespond
  unfold State.deliver
  rw [hrespond]
  refine h.handle ?_ (fun _ => rfl) (fun key _ _ => own_nil key) ?_ fun key _ _ => own_nil key
  · intro k hk
    obtain ⟨rfl, hone⟩ := hzero k hk
    omega
  · intro key k hflight hk hlast
    exact ⟨own_nil key, h.alone_of_first hflight (by rw [← hlast, (hzero k hk).1])⟩

/-- A command leaves the wire. -/
theorem Inv.taken (h : Inv content s) (seq : ℕ) :
    Inv content { s with client := s.client.answer seq } where
  delegate := h.delegate
  entries := h.entries
  count := h.count
  latest := h.latest
  below x hx := h.below x (List.mem_of_mem_filter hx)
  sorted := h.sorted.filter _
  flying key hkey :=
    ⟨(h.flying key hkey).1, fun x hx => (h.flying key hkey).2 x (List.mem_of_mem_filter hx)⟩
  sending k key hmain :=
    ⟨(h.sending k key hmain).1, fun x hx => (h.sending k key hmain).2 x (List.mem_of_mem_filter hx)⟩
  reporting := h.reporting
  popping := h.popping
  listening := h.listening
  unsent hzero := by
    obtain ⟨hwire, hlistener⟩ := h.unsent hzero
    refine ⟨?_, hlistener⟩
    change s.client.wire.filter _ = []
    rw [hwire]
    rfl
  first := h.first
  answering key k value hflight hlistener hk := by
    obtain ⟨hown, halone⟩ := h.answering key k value hflight hlistener hk
    exact ⟨hown, fun x hx => halone x (List.mem_of_mem_filter hx)⟩
  complete key hflight hover := by
    obtain ⟨htop, halone, hlistener⟩ := h.complete key hflight hover
    exact ⟨htop, fun x hx => halone x (List.mem_of_mem_filter hx), hlistener⟩
  items := h.items
  popped := h.popped
  bytes := h.bytes

/-- The drive answers the first of its commands. -/
theorem Inv.drive (h : Inv content s) {seq code : ℕ} {key : Key}
    {rest : List (ℕ × Key)} {value : Option Bytes} (hwire : s.client.wire = (seq, key) :: rest)
    (hvalue : value = none ∨ value = content key) :
    Inv content ({ s with client := s.client.answer seq }.deliver (answer seq key code value)
      (value.getD [])) := by
  have hown : Own content key (value.getD []) := by
    rcases hvalue with rfl | hvalue
    · exact own_nil key
    · cases hcontent : content key with
      | none => rw [hvalue, hcontent]; exact own_nil key
      | some v => rw [hvalue, hcontent]; exact .inr hcontent
  have hdata : data_callbak (answer seq key code value) (value.getD []) =
      value.getD [] := by
    unfold data_callbak answer
    cases value <;> rfl
  have hmem : (seq, key) ∈ s.client.wire := hwire ▸ List.mem_cons_self
  have hbelow : seq < s.client.sequence := h.below _ hmem
  -- The command that is answered is the one of the item, when nothing else can be pending.
  have hsame : ∀ key', s.main.flight = some key' → seq + 1 = s.client.sequence → key = key' :=
    fun key' hflight hlast => (h.flying key' hflight).2 _ hmem hlast
  have halone : ∀ key', seq + 1 = s.client.sequence →
      State.Alone { s with client := s.client.answer seq } key' := by
    intro key' hlast x hx
    obtain ⟨hx, hne⟩ := List.mem_filter.mp hx
    rw [hwire] at hx
    rcases List.mem_cons.mp hx with rfl | hx
    · simp at hne
    · have hsorted := h.sorted
      rw [hwire] at hsorted
      have hlt := List.rel_of_pairwise_cons hsorted hx
      have hle := h.below x (hwire ▸ List.mem_cons_of_mem _ hx)
      omega
  have htaken := h.taken seq
  obtain ⟨k, hrespond, hk⟩ := htaken.respond (answer seq key code value) (value.getD [])
  have hk : ∀ n, k = some n → n = seq ∧ n + 1 = s.client.sequence := hk
  rw [hdata] at hrespond
  unfold State.deliver
  rw [hrespond]
  refine htaken.handle ?_ ?_ ?_ ?_ ?_
  · intro n hn
    obtain ⟨rfl, -⟩ := hk n hn
    exact hbelow
  · intro hzero
    change s.client.sequence = 0 at hzero
    omega
  · intro key' hone hflight
    change s.client.sequence = 1 at hone
    rw [← hsame key' hflight (by omega)]
    exact hown
  · intro key' n hflight hn hlast
    obtain ⟨rfl, hlast⟩ := hk n hn
    exact ⟨hsame key' hflight hlast ▸ hown, halone key' hlast⟩
  · intro key' hflight hover
    obtain ⟨-, hall, -⟩ := h.complete key' hflight hover
    rw [← hall _ hmem]
    exact hown

/-! ### Steps inside a callback -/

/-- The listener leaves its callback. -/
theorem Inv.settle (h : Inv content s) {l : Listener} (hl : ∀ p, l ≠ .callback p) :
    Inv content { s with listener := l } where
  delegate := h.delegate
  entries := h.entries
  count := h.count
  latest := h.latest
  below := h.below
  sorted := h.sorted
  flying := h.flying
  sending := h.sending
  reporting := h.reporting
  popping := h.popping
  listening p _ hp := absurd hp (hl p)
  unsent hzero := ⟨(h.unsent hzero).1, fun p hp => absurd hp (hl p)⟩
  first _ p _ _ hp := absurd hp (hl p)
  answering _ _ _ _ hp := absurd hp (hl _)
  complete key hflight hover := by
    have hbefore : s.Over := by
      obtain ⟨k, hk, hgone | hclean | hreport⟩ := hover
      · exact ⟨k, hk, .inl hgone⟩
      · exact absurd hclean (hl _)
      · exact ⟨k, hk, .inr (.inr hreport)⟩
    obtain ⟨htop, halone, -⟩ := h.complete key hflight hbefore
    exact ⟨htop, halone, fun p hp => absurd hp (hl p)⟩
  items := h.items
  popped := h.popped
  bytes := h.bytes

theorem rest_ne (s : State) (p : Progress) : s.rest ≠ .callback p := by
  unfold State.rest
  split <;> exact Listener.noConfusion

/-- A value is appended that may lie on top. -/
theorem Inv.append (h : Inv content s) {value : Bytes}
    (hvalue : ∀ key, s.main.flight = some key → s.Over → Own content key value) :
    Inv content { s with result := s.result ++ [value] } :=
  { h with
    complete := fun key hflight hover => by
      obtain ⟨-, hrest⟩ := h.complete key hflight hover
      exact ⟨⟨value, List.getLast?_concat, hvalue key hflight hover⟩, hrest⟩ }

/-- After its callback the listener sees to the entry. -/
theorem Inv.listener_clean_up (h : Inv content s) {seq : ℕ} {value : Bytes}
    (hlistener : s.listener = .callback (.callback (some seq) value))
    (htop : s.result.getLast? = some value) :
    Inv content { s with listener := .callback (.clean_up seq) } where
  delegate := h.delegate
  entries := h.entries
  count := h.count
  latest := h.latest
  below := h.below
  sorted := h.sorted
  flying := h.flying
  sending := h.sending
  reporting := h.reporting
  popping := h.popping
  listening p k hp hk := by
    cases hp
    cases hk
    exact h.listening _ _ hlistener rfl
  unsent hzero := by
    refine ⟨(h.unsent hzero).1, fun p hp => ?_⟩
    cases hp
    rfl
  first key p _ _ hp := by
    cases hp
    exact own_nil key
  answering key k v _ hp := by cases hp
  complete key hflight hover := by
    have hown : (∃ value, s.result.getLast? = some value ∧ Own content key value) ∧
        s.Alone key := by
      obtain ⟨k, hk, hgone | hclean | hreport⟩ := hover
      · have hover := h.complete key hflight ⟨k, hk, .inl hgone⟩
        exact ⟨hover.1, hover.2.1⟩
      · cases hclean
        obtain ⟨hown, halone⟩ := h.answering key seq value hflight hlistener hk
        exact ⟨⟨value, htop, hown⟩, halone⟩
      · have hover := h.complete key hflight ⟨k, hk, .inr (.inr hreport)⟩
        exact ⟨hover.1, hover.2.1⟩
    refine ⟨hown.1, hown.2, fun p hp => ?_⟩
    cases hp
    exact own_nil key
  items := h.items
  popped := h.popped
  bytes := h.bytes

/-- One thread takes the entry out and releases its place. -/
theorem Inv.erased (h : Inv content s) {seq : ℕ} (hseq : seq ∈ s.client.pending)
    (hclean : s.listener = .callback (.clean_up seq) ∨
      ∃ key, s.main = .report key (.clean_up seq)) :
    Inv content { s with client := s.client.clean_up seq } where
  delegate := h.delegate
  entries k callback hk := by
    change (s.client.pending.erase seq).lookup k = _ at hk
    rw [lookup_erase_eq] at hk
    split at hk
    · cases hk
    · exact h.entries k callback hk
  count := by
    have hlen : (s.client.pending.erase seq).keys.length = s.client.pending.keys.length - 1 := by
      rw [AList.keys_erase, List.length_erase_of_mem hseq]
    have hpos : 0 < s.client.pending.keys.length := List.length_pos_of_mem hseq
    have hcount := h.count
    change s.client.outstanding - 1 = (s.client.pending.erase seq).keys.length + s.main.acquired
    omega
  latest k hk := h.latest k (AList.mem_erase.mp hk).2
  below := h.below
  sorted := h.sorted
  flying := h.flying
  sending := h.sending
  reporting := h.reporting
  popping key hmain := by
    have hempty := h.popping key hmain
    have hin : seq ∈ s.client.pending.keys := hseq
    rw [hempty] at hin
    cases hin
  listening := h.listening
  unsent := h.unsent
  first := h.first
  answering := h.answering
  complete key hflight hover := by
    refine h.complete key hflight ?_
    obtain ⟨k, hk, hgone | hlistener | hreport⟩ := hover
    · by_cases hks : k = seq
      · subst hks
        exact ⟨k, hk, .inr hclean⟩
      · exact ⟨k, hk, .inl fun hin => hgone (AList.mem_erase.mpr ⟨hks, hin⟩)⟩
    · exact ⟨k, hk, .inr (.inl hlistener)⟩
    · exact ⟨k, hk, .inr (.inr hreport)⟩
  items := h.items
  popped := h.popped
  bytes := h.bytes

theorem Inv.listen (h : Inv content s) {p : Progress} (hlistener : s.listener = .callback p) :
    Inv content (s.listen p) := by
  cases p with
  | callback seq value =>
      have happend := h.append fun key hflight hover =>
        (h.complete key hflight hover).2.2 _ hlistener
      cases seq with
      | none => exact happend.settle (rest_ne s)
      | some seq => exact happend.listener_clean_up hlistener List.getLast?_concat
  | clean_up seq =>
      unfold State.listen Progress.advance
      by_cases hseq : seq ∈ s.client.pending
      · simp only [if_pos hseq]
        exact (h.erased hseq (.inl hlistener)).settle (rest_ne s)
      · simp only [if_neg hseq]
        exact h.settle fun p hp => by cases hp

/-! ### Steps of the worker -/

theorem asked_of_head {c : Client Unit} {seq : ℕ} {key : Key} {rest : List (ℕ × Key)}
    (hwire : c.wire = (seq, key) :: rest) : c.asked seq = some key := by
  unfold Client.asked
  rw [hwire, List.find?_cons_of_pos (by simp)]
  rfl

theorem Inv.acquired_of_flight {m : Main} {key : Key} (hflight : m.flight = some key) :
    m.acquired = 0 := by
  cases m <;> first | rfl | cases hflight

/-- Nothing is pending between two items. -/
theorem Inv.empty (h : Inv content s) (hflight : s.main.flight = none) :
    s.client.pending.keys = [] := by
  rw [List.eq_nil_iff_forall_not_mem]
  intro seq hseq
  have hsome := (h.latest seq hseq).2
  rw [hflight] at hsome
  cases hsome

theorem Inv.waits (h : Inv content s) {key : Key} (hflight : s.main.flight = some key) :
    Inv content { s with main := .wait_q key } where
  delegate := h.delegate
  entries := h.entries
  count := by
    rw [h.count, Inv.acquired_of_flight hflight]
    rfl
  latest seq hseq := ⟨(h.latest seq hseq).1, rfl⟩
  below := h.below
  sorted := h.sorted
  flying key' hkey := by
    cases hkey
    exact h.flying key hflight
  sending seq key' hmain := by cases hmain
  reporting key' p hmain := by cases hmain
  popping key' hmain := by cases hmain
  listening := h.listening
  unsent := h.unsent
  first key' p hone hkey := by
    cases hkey
    exact h.first key p hone hflight
  answering key' seq value hkey := by
    cases hkey
    exact h.answering key seq value hflight
  complete key' hkey hover := by
    cases hkey
    refine h.complete key hflight ?_
    obtain ⟨k, hk, hgone | hlistener | ⟨_, hmain⟩⟩ := hover
    · exact ⟨k, hk, .inl hgone⟩
    · exact ⟨k, hk, .inr (.inl hlistener)⟩
    · cases hmain
  items := h.items
  popped hmain := by cases hmain
  bytes := h.bytes

theorem Inv.reports (h : Inv content s) {key : Key} (hflight : s.main.flight = some key)
    {p : Progress} (hvalue : p.value = [])
    (hseq : ∀ seq, p.seq = some seq → seq = 0 ∧ s.client.sequence = 1)
    (htop : ∀ seq, p = .clean_up seq → s.result.getLast? = some []) :
    Inv content { s with main := .report key p } where
  delegate := h.delegate
  entries := h.entries
  count := by
    rw [h.count, Inv.acquired_of_flight hflight]
    rfl
  latest seq hseq := ⟨(h.latest seq hseq).1, rfl⟩
  below := h.below
  sorted := h.sorted
  flying key' hkey := by
    cases hkey
    exact h.flying key hflight
  sending seq key' hmain := by cases hmain
  reporting key' p' hmain := by
    cases hmain
    exact ⟨hvalue, hseq⟩
  popping key' hmain := by cases hmain
  listening := h.listening
  unsent := h.unsent
  first key' p hone hkey := by
    cases hkey
    exact h.first key p hone hflight
  answering key' seq value hkey := by
    cases hkey
    exact h.answering key seq value hflight
  complete key' hkey hover := by
    cases hkey
    obtain ⟨k, hk, hgone | hlistener | ⟨_, hmain⟩⟩ := hover
    · exact h.complete key hflight ⟨k, hk, .inl hgone⟩
    · exact h.complete key hflight ⟨k, hk, .inr (.inl hlistener)⟩
    · cases hmain
      obtain ⟨-, hone⟩ := hseq k rfl
      exact ⟨⟨[], htop k rfl, own_nil key⟩, h.alone_of_first hflight hone,
        fun p hp => h.first key p hone hflight hp⟩
  items := h.items
  popped hmain := by cases hmain
  bytes := h.bytes

/-- The worker is between two items, or has raised, and nothing is pending. -/
theorem Inv.grounded (h : Inv content s) (hempty : s.client.pending.keys = []) {m : Main}
    (hflight : m.flight = none) (hraised : m ≠ .raised .IndexError) :
    Inv content { s with client := { s.client with outstanding := m.acquired }, main := m } where
  delegate := h.delegate
  entries := h.entries
  count := by
    change m.acquired = s.client.pending.keys.length + m.acquired
    rw [hempty]
    exact (Nat.zero_add _).symm
  latest seq hseq := by
    have hin : seq ∈ s.client.pending.keys := hseq
    rw [hempty] at hin
    cases hin
  below := h.below
  sorted := h.sorted
  flying key hkey := by
    rw [hflight] at hkey
    cases hkey
  sending seq key hmain := by
    change m = _ at hmain
    rw [hmain] at hflight
    cases hflight
  reporting key p hmain := by
    change m = _ at hmain
    rw [hmain] at hflight
    cases hflight
  popping _ _ := hempty
  listening := h.listening
  unsent := h.unsent
  first key p _ hkey := by
    rw [hflight] at hkey
    cases hkey
  answering key seq value hkey := by
    rw [hflight] at hkey
    cases hkey
  complete key hkey := by
    rw [hflight] at hkey
    cases hkey
  items := h.items
  popped := hraised
  bytes := h.bytes

theorem Inv.header (h : Inv content s) {key : Key} (hmain : s.main = .header key) :
    Inv content { s with
      client := s.client.update_header, main := .send s.client.sequence key } := by
  have hempty : s.client.pending.keys = [] := h.empty (by rw [hmain]; rfl)
  have hnew : ∀ seq, seq ∈ s.client.update_header.pending ↔ seq = s.client.sequence := by
    intro seq
    have hnone : seq ∉ s.client.pending := by
      intro hin
      have hin : seq ∈ s.client.pending.keys := hin
      rw [hempty] at hin
      cases hin
    exact (AList.mem_insert s.client.pending).trans (or_iff_left hnone)
  have hnotover : ¬ State.Over { s with
      client := s.client.update_header, main := .send s.client.sequence key } := by
    rintro ⟨k, hk, hgone | hlistener | ⟨_, hreport⟩⟩
    · exact hgone ((hnew k).mpr (Nat.succ.inj hk))
    · have hlt := h.listening _ k hlistener rfl
      have hk : k + 1 = s.client.sequence + 1 := hk
      omega
    · cases hreport
  constructor
  · exact h.delegate
  · intro seq callback hlookup
    change (s.client.pending.insert _ _).lookup seq = _ at hlookup
    rw [lookup_insert_eq, h.delegate] at hlookup
    split at hlookup
    · exact (Option.some.inj hlookup).symm
    · exact h.entries seq callback hlookup
  · have hcount := h.count
    rw [hmain] at hcount
    have hnotin : s.client.sequence ∉ s.client.pending := by
      intro hin
      have hin : s.client.sequence ∈ s.client.pending.keys := hin
      rw [hempty] at hin
      cases hin
    change s.client.outstanding = (s.client.pending.insert _ _).keys.length + 0
    rw [AList.keys_insert, List.erase_of_not_mem hnotin, hcount]
    rfl
  · intro seq hseq
    exact ⟨congrArg (· + 1) ((hnew seq).mp hseq), rfl⟩
  · exact fun x hx => Nat.lt_succ_of_lt (h.below x hx)
  · exact h.sorted
  · intro key' _
    refine ⟨Nat.succ_pos _, fun x hx hlast => ?_⟩
    have hlt := h.below x hx
    have hlast : x.1 + 1 = s.client.sequence + 1 := hlast
    omega
  · intro seq key' hsend
    cases hsend
    exact ⟨rfl, fun x hx => Nat.ne_of_lt (h.below x hx)⟩
  · intro key' p hreport
    cases hreport
  · intro key' hpop
    cases hpop
  · exact fun p seq hp hseq => Nat.lt_succ_of_lt (h.listening p seq hp hseq)
  · intro hzero
    cases hzero
  · intro key' p hone _ hp
    rw [(h.unsent (Nat.succ.inj hone)).2 p hp]
    exact own_nil key'
  · intro key' seq value _ hp hlast
    have hlt := h.listening _ seq hp rfl
    have hlast : seq + 1 = s.client.sequence + 1 := hlast
    omega
  · exact fun key' _ hover => absurd hover hnotover
  · exact h.items
  · intro hraised
    cases hraised
  · exact h.bytes

/-- The command of the item comes behind all others on the wire. -/
theorem Inv.send (h : Inv content s) {seq : ℕ} {key : Key} (hmain : s.main = .wait_q key)
    (hseq : seq + 1 = s.client.sequence) (hne : ∀ x ∈ s.client.wire, x.1 ≠ seq) :
    Inv content { s with client := s.client.packet_send seq key } := by
  have hflight : s.main.flight = some key := by rw [hmain]; rfl
  have hall : ∀ {P : ℕ × Key → Prop}, (∀ x ∈ s.client.wire, P x) → P (seq, key) →
      ∀ x ∈ (s.client.packet_send seq key).wire, P x := by
    intro P hold hnew x hx
    rcases List.mem_append.mp hx with hx | hx
    · exact hold x hx
    · exact List.mem_singleton.mp hx ▸ hnew
  constructor
  · exact h.delegate
  · exact h.entries
  · exact h.count
  · exact h.latest
  · exact hall h.below (Nat.lt_of_succ_le (Nat.le_of_eq hseq))
  · refine List.pairwise_append.mpr ⟨h.sorted, List.pairwise_singleton _ _, fun x hx y hy => ?_⟩
    obtain rfl := List.mem_singleton.mp hy
    have hlt := h.below x hx
    have hx := hne x hx
    change x.1 < seq
    omega
  · intro key' hkey
    obtain rfl : key = key' := Option.some.inj (hflight.symm.trans hkey)
    exact ⟨(h.flying key hflight).1, hall (h.flying key hflight).2 fun _ => rfl⟩
  · intro k key' hsend
    cases hmain.symm.trans hsend
  · intro key' p hreport
    cases hmain.symm.trans hreport
  · intro key' hpop
    cases hmain.symm.trans hpop
  · exact h.listening
  · intro hzero
    change s.client.sequence = 0 at hzero
    omega
  · exact h.first
  · intro key' k value hkey hlistener hk
    obtain ⟨hown, halone⟩ := h.answering key' k value hkey hlistener hk
    obtain rfl : key = key' := Option.some.inj (hflight.symm.trans hkey)
    exact ⟨hown, hall halone rfl⟩
  · intro key' hkey hover
    obtain ⟨htop, halone, hlistener⟩ := h.complete key' hkey hover
    obtain rfl : key = key' := Option.some.inj (hflight.symm.trans hkey)
    exact ⟨htop, hall halone rfl, hlistener⟩
  · exact h.items
  · exact h.popped
  · exact h.bytes

theorem Inv.not_attempted (h : Inv content s) {key : Key} (hflight : s.main.flight = some key) :
    Inv content (s.not_attempted key) := by
  obtain ⟨seq, hrespond, hseq⟩ := h.respond (client_error .NOT_ATTEMPTED) []
  have hzero : ∀ k, seq = some k → k = 0 ∧ k + 1 = s.client.sequence := hseq
  rw [data_callbak_error] at hrespond
  unfold State.not_attempted
  rw [hrespond]
  refine h.reports hflight rfl (fun k hk => ?_) fun k hk => by cases hk
  obtain ⟨rfl, hone⟩ := hzero k hk
  exact ⟨rfl, hone.symm⟩

theorem Inv.report (h : Inv content s) {key : Key} {p : Progress}
    (hmain : s.main = .report key p) : Inv content (s.report key p) := by
  obtain ⟨hvalue, hseq⟩ := h.reporting key p hmain
  have hflight : s.main.flight = some key := by rw [hmain]; rfl
  cases p with
  | callback seq value =>
      change value = [] at hvalue
      subst hvalue
      have happend := h.append fun key _ _ => own_nil key
      cases seq with
      | none => exact happend.waits hflight
      | some seq =>
          refine happend.reports hflight rfl hseq fun k _ => ?_
          exact List.getLast?_concat
  | clean_up seq =>
      obtain ⟨rfl, hone⟩ := hseq seq rfl
      unfold State.report Progress.advance
      by_cases hpending : 0 ∈ s.client.pending
      · simp only [if_pos hpending]
        exact (h.erased hpending (.inr ⟨key, hmain⟩)).waits hflight
      · simp only [if_neg hpending]
        have hempty : s.client.pending.keys = [] := by
          rw [List.eq_nil_iff_forall_not_mem]
          intro k hk
          have hlast := (h.latest k hk).1
          obtain rfl : k = 0 := by omega
          exact hpending hk
        have hcount := h.count
        rw [hmain, hempty] at hcount
        have hgrounded := h.grounded hempty (m := .raised .KeyError) rfl (by simp)
        rwa [show (Main.raised .KeyError).acquired = s.client.outstanding from hcount.symm]
          at hgrounded

theorem Inv.pop (h : Inv content s) {key : Key} (hmain : s.main = .pop key) :
    Inv content (s.pop key) := by
  have hflight : s.main.flight = some key := by rw [hmain]; rfl
  have hempty := h.popping key hmain
  have hover : s.Over := by
    have hpos := (h.flying key hflight).1
    refine ⟨s.client.sequence - 1, Nat.sub_add_cancel hpos, .inl fun hin => ?_⟩
    have hin : s.client.sequence - 1 ∈ s.client.pending.keys := hin
    rw [hempty] at hin
    cases hin
  obtain ⟨⟨value, htop, hown⟩, -, -⟩ := h.complete key hflight hover
  have hcount := h.count
  rw [hmain, hempty] at hcount
  have hready := h.grounded hempty (m := .ready) rfl (by simp)
  rw [show Main.ready.acquired = s.client.outstanding from hcount.symm] at hready
  unfold State.pop
  rw [htop]
  exact { hready with
    complete := fun key hkey => by cases hkey
    items := fun item hitem => by
      rcases List.mem_append.mp hitem with hitem | hitem
      · exact h.items item hitem
      · obtain rfl := List.mem_singleton.mp hitem
        exact hown
    bytes := by
      change s.bytes_from_disk + value.length = ((s.items ++ [(key, value)]).map _).sum
      rw [List.map_append, List.sum_append, h.bytes]
      rfl }

/-- Every step keeps the invariant, as long as the drive answers in order. -/
theorem Inv.step (h : Inv content s) {a : Action} {t : State} (hguard : InOrder content a s)
    (hstep : KineticGetFilter.step a s = some t) : Inv content t := by
  cases a with
  | call key =>
      simp only [KineticGetFilter.step] at hstep
      split at hstep <;> cases hstep
      next hmain =>
        have hempty := h.empty (by rw [hmain]; rfl)
        have hcount := h.count
        rw [hmain, hempty] at hcount
        have hgrounded := h.grounded hempty (m := .acquire key) rfl (by simp)
        rwa [show (Main.acquire key).acquired = s.client.outstanding from hcount.symm]
          at hgrounded
  | acquire =>
      simp only [KineticGetFilter.step] at hstep
      split at hstep
      · next key hmain =>
          obtain ⟨c, hc, rfl⟩ := Option.map_eq_some_iff.mp hstep
          have hempty := h.empty (by rw [hmain]; rfl)
          have hcount := h.count
          rw [hmain, hempty] at hcount
          have hgrounded := h.grounded hempty (m := .header key) rfl (by simp)
          rw [Client.acquire_eq hc]
          rwa [show (Main.header key).acquired = s.client.outstanding + 1 by rw [hcount]; rfl]
            at hgrounded
      · cases hstep
  | header =>
      simp only [KineticGetFilter.step] at hstep
      split at hstep <;> cases hstep
      next key hmain => exact h.header hmain
  | send accepted =>
      simp only [KineticGetFilter.step] at hstep
      split at hstep
      · next seq key hmain =>
          have hflight : s.main.flight = some key := by rw [hmain]; rfl
          obtain ⟨hseq, hne⟩ := h.sending seq key hmain
          cases accepted with
          | true =>
              cases hstep
              exact (h.waits hflight).send rfl hseq hne
          | false =>
              cases hstep
              exact h.not_attempted hflight
      · cases hstep
  | report =>
      simp only [KineticGetFilter.step] at hstep
      split at hstep <;> cases hstep
      next key p hmain => exact h.report hmain
  | wait_q =>
      simp only [KineticGetFilter.step] at hstep
      split at hstep
      · next key hmain =>
          split at hstep <;> cases hstep
          next hout =>
            have hcount := h.count
            rw [hmain, hout] at hcount
            have hempty : s.client.pending.keys = [] :=
              List.eq_nil_of_length_eq_zero (Nat.add_eq_zero_iff.mp hcount.symm).1
            have hflight : s.main.flight = some key := by rw [hmain]; rfl
            exact { h.waits hflight with
              popping := fun _ _ => hempty
              sending := fun _ _ hmain => by cases hmain
              reporting := fun _ _ hmain => by cases hmain
              popped := fun hmain => by cases hmain
              complete := fun key' hkey hover => by
                refine (h.waits hflight).complete key' hkey ?_
                obtain ⟨k, hk, hgone | hlistener | ⟨_, hmain⟩⟩ := hover
                · exact ⟨k, hk, .inl hgone⟩
                · exact ⟨k, hk, .inr (.inl hlistener)⟩
                · cases hmain }
      · cases hstep
  | pop =>
      simp only [KineticGetFilter.step] at hstep
      split at hstep <;> cases hstep
      next key hmain => exact h.pop hmain
  | drive seq code value =>
      simp only [KineticGetFilter.step] at hstep
      split at hstep
      · next hidle =>
          obtain ⟨⟨k, key'⟩, hhead, hseq, hvalue⟩ := hguard
          change k = seq at hseq
          subst hseq
          obtain ⟨rest, hwire⟩ := List.head?_eq_some_iff.mp hhead
          obtain ⟨key, hkey, rfl⟩ := Option.map_eq_some_iff.mp hstep
          obtain rfl : key = key' := Option.some.inj (hkey.symm.trans (asked_of_head hwire))
          exact h.drive hwire hvalue
      · cases hstep
  | bad_hmac seq =>
      simp only [KineticGetFilter.step] at hstep
      split at hstep
      · obtain ⟨key, -, rfl⟩ := Option.map_eq_some_iff.mp hstep
        exact (h.taken seq).handle_error _
      · cases hstep
  | timeout =>
      simp only [KineticGetFilter.step] at hstep
      split at hstep
      · split at hstep <;> cases hstep
        exact h.handle_error _
      · cases hstep
  | socket_error =>
      simp only [KineticGetFilter.step] at hstep
      split at hstep <;> cases hstep
      have hclosing : Inv content { s with closing := true } := { h with }
      exact hclosing.handle_error _
  | listen =>
      simp only [KineticGetFilter.step] at hstep
      split at hstep <;> cases hstep
      next p hlistener => exact h.listen hlistener

/-! ### Runs without an error of the client -/

variable (content) in
/-- What the drive has under the key, or nothing. -/
def held (key : Key) : Bytes := (content key).getD []

/-- The command on its way to the data of its item. -/
inductive Waits (content : Key → Option Bytes) (s : State) (key : Key) (seq : ℕ) : Prop
  | asked : s.client.wire = [(seq, key)] → s.listener = .idle → s.result = [] →
      seq ∈ s.client.pending → Waits content s key seq
  | handled : s.client.wire = [] →
      s.listener = .callback (.callback (some seq) (held content key)) → s.result = [] →
      seq ∈ s.client.pending → Waits content s key seq
  | appended : s.client.wire = [] → s.listener = .callback (.clean_up seq) →
      s.result = [held content key] → seq ∈ s.client.pending → Waits content s key seq
  | released : s.client.wire = [] → s.listener = .idle → s.result = [held content key] →
      s.client.pending.keys = [] → Waits content s key seq

/-- Nothing is under way, and the list holds this. -/
def State.Still (s : State) (result : List Bytes) : Prop :=
  s.client.wire = [] ∧ s.listener = .idle ∧ s.result = result

variable (content) in
def CalmAt (s : State) : Main → Prop
  | .ready | .acquire _ | .header _ => s.Still []
  | .send seq _ => s.Still [] ∧ seq ∈ s.client.pending
  | .wait_q key => ∃ seq, seq + 1 = s.client.sequence ∧ Waits content s key seq
  | .pop key => s.Still [held content key]
  | .report _ _ | .raised _ => False

variable (content) in
structure Calm (s : State) : Prop extends Inv content s where
  depth : s.client.queue_depth = 5
  running : s.closing = false
  exact : ∀ item ∈ s.items, item.2 = held content item.1
  place : CalmAt content s s.main

theorem Quiet.inOrder {a : Action} (h : Quiet content a s) : InOrder content a s := by
  cases a with
  | drive seq code value =>
      obtain ⟨x, hx, hseq, hvalue⟩ := h
      exact ⟨x, hx, hseq, .inr hvalue⟩
  | bad_hmac seq => exact absurd h id
  | _ => exact trivial

/-- The only entry is taken out. -/
theorem Inv.erase_last (h : Inv content s) {seq : ℕ} (hseq : seq + 1 = s.client.sequence) :
    (s.client.clean_up seq).pending.keys = [] := by
  rw [List.eq_nil_iff_forall_not_mem]
  intro k hk
  obtain ⟨hne, hin⟩ := AList.mem_erase.mp hk
  have hlast := (h.latest k hin).1
  omega

/-- Only while the worker waits there is anything under way. -/
theorem Calm.waiting (h : Calm content s) (hbusy : s.client.wire ≠ [] ∨ s.listener ≠ .idle) :
    ∃ key seq, s.main = .wait_q key ∧ seq + 1 = s.client.sequence ∧ Waits content s key seq := by
  have hplace := h.place
  have hstill : ∀ result, ¬ s.Still result := by
    rintro result ⟨hwire, hidle, -⟩
    exact hbusy.elim (· hwire) (· hidle)
  cases hmain : s.main with
  | wait_q key =>
      rw [hmain] at hplace
      obtain ⟨seq, hlast, hwaits⟩ := hplace
      exact ⟨key, seq, rfl, hlast, hwaits⟩
  | send seq key =>
      rw [hmain] at hplace
      exact absurd hplace.1 (hstill _)
  | ready | acquire key | header key | pop key =>
      rw [hmain] at hplace
      exact absurd hplace (hstill _)
  | report key p | raised e =>
      rw [hmain] at hplace
      exact absurd hplace id

theorem Calm.drive (h : Calm content s) {seq code : ℕ} {value : Option Bytes} {t : State}
    (hquiet : Quiet content (.drive seq code value) s)
    (hstep : step (.drive seq code value) s = some t) : CalmAt content t t.main := by
  obtain ⟨⟨k, key'⟩, hhead, hseq, hvalue⟩ := hquiet
  change k = seq at hseq
  change value = content key' at hvalue
  subst hseq hvalue
  obtain ⟨rest, hwire⟩ := List.head?_eq_some_iff.mp hhead
  obtain ⟨key, seq, hmain, hlast, hwaits⟩ :=
    h.waiting (.inl (by rw [hwire]; exact List.cons_ne_nil _ _))
  cases hwaits with
  | asked hone hidle hresult hpending =>
      rw [hwire] at hone
      cases hone
      obtain ⟨callback, hlookup⟩ := Option.isSome_iff_exists.mp (AList.lookup_isSome.mpr hpending)
      obtain rfl := h.entries _ _ hlookup
      have hrespond : respond (s.client.answer k) (answer k key' code (content key'))
          ((content key').getD []) = some (.callback (some k) (held content key')) := by
        unfold respond Client.on_response
        rw [show (s.client.answer k).pending = s.client.pending from rfl,
          show (answer k key' code (content key')).ackSequence = k from rfl, hlookup]
        unfold data_callbak answer held
        cases content key' <;> rfl
      simp only [step, hidle, asked_of_head hwire, Option.map_some, Option.some.injEq] at hstep
      subst hstep
      unfold State.deliver
      simp only [hrespond, hmain]
      refine ⟨k, hlast, .handled ?_ rfl hresult hpending⟩
      change s.client.wire.filter _ = []
      rw [hwire]
      simp
  | handled hnone | appended hnone | released hnone =>
      rw [hwire] at hnone
      cases hnone

theorem Calm.listen (h : Calm content s) {p : Progress} (hlistener : s.listener = .callback p) :
    CalmAt content (s.listen p) (s.listen p).main := by
  obtain ⟨key, seq, hmain, hlast, hwaits⟩ :=
    h.waiting (.inr (by rw [hlistener]; exact Listener.noConfusion))
  have hrest : s.rest = .idle := by
    unfold State.rest
    rw [h.running]
    rfl
  cases hwaits with
  | asked _ hidle | released _ hidle =>
      rw [hlistener] at hidle
      cases hidle
  | handled hwire hcallback hresult hpending =>
      rw [hlistener] at hcallback
      cases hcallback
      unfold State.listen Progress.advance
      simp only [hmain, hresult]
      exact ⟨seq, hlast, .appended hwire rfl rfl hpending⟩
  | appended hwire hclean hresult hpending =>
      rw [hlistener] at hclean
      cases hclean
      unfold State.listen Progress.advance
      simp only [hmain, if_pos hpending, hrest]
      exact ⟨seq, hlast, .released hwire rfl hresult (h.toInv.erase_last hlast)⟩

theorem Calm.step (h : Calm content s) {a : Action} {t : State} (hquiet : Quiet content a s)
    (hstep : KineticGetFilter.step a s = some t) : Calm content t := by
  have hinv := h.toInv.step hquiet.inOrder hstep
  have hplace := h.place
  cases a with
  | call key =>
      simp only [KineticGetFilter.step] at hstep
      split at hstep <;> cases hstep
      next hmain =>
        rw [hmain] at hplace
        exact ⟨hinv, h.depth, h.running, h.exact, hplace⟩
  | acquire =>
      simp only [KineticGetFilter.step] at hstep
      split at hstep
      · next key hmain =>
          obtain ⟨c, hc, rfl⟩ := Option.map_eq_some_iff.mp hstep
          rw [hmain] at hplace
          obtain rfl := Client.acquire_eq hc
          exact ⟨hinv, h.depth, h.running, h.exact, hplace⟩
      · cases hstep
  | header =>
      simp only [KineticGetFilter.step] at hstep
      split at hstep <;> cases hstep
      next key hmain =>
        rw [hmain] at hplace
        exact ⟨hinv, h.depth, h.running, h.exact, hplace,
          (AList.mem_insert s.client.pending).mpr (.inl rfl)⟩
  | send accepted =>
      simp only [KineticGetFilter.step] at hstep
      split at hstep
      · next seq key hmain =>
          cases hquiet
          cases hstep
          rw [hmain] at hplace
          obtain ⟨⟨hwire, hidle, hresult⟩, hpending⟩ := hplace
          refine ⟨hinv, h.depth, h.running, h.exact, seq, (h.sending seq key hmain).1, ?_⟩
          refine .asked ?_ hidle hresult hpending
          change s.client.wire ++ [(seq, key)] = _
          rw [hwire]
          rfl
      · cases hstep
  | report =>
      simp only [KineticGetFilter.step] at hstep
      split at hstep <;> cases hstep
      next key p hmain =>
        rw [hmain] at hplace
        exact absurd hplace id
  | wait_q =>
      simp only [KineticGetFilter.step] at hstep
      split at hstep
      · next key hmain =>
          split at hstep <;> cases hstep
          next hout =>
            rw [hmain] at hplace
            obtain ⟨seq, hlast, hwaits⟩ := hplace
            have hcount := h.count
            rw [hmain, hout] at hcount
            have hnone : seq ∉ s.client.pending := by
              intro hin
              have hpos : 0 < s.client.pending.keys.length := List.length_pos_of_mem hin
              omega
            cases hwaits with
            | released hwire hidle hresult _ =>
                exact ⟨hinv, h.depth, h.running, h.exact, hwire, hidle, hresult⟩
            | asked _ _ _ hpending | handled _ _ _ hpending | appended _ _ _ hpending =>
                exact absurd hpending hnone
      · cases hstep
  | pop =>
      simp only [KineticGetFilter.step] at hstep
      split at hstep <;> cases hstep
      next key hmain =>
        rw [hmain] at hplace
        obtain ⟨hwire, hidle, hresult⟩ := hplace
        have hpop : s.pop key = { s with
            main := .ready
            result := []
            items := s.items ++ [(key, held content key)]
            bytes_from_disk := s.bytes_from_disk + (held content key).length } := by
          unfold State.pop
          rw [hresult]
          rfl
        rw [hpop] at hinv ⊢
        refine ⟨hinv, h.depth, h.running, fun item hitem => ?_, hwire, hidle, rfl⟩
        rcases List.mem_append.mp hitem with hitem | hitem
        · exact h.exact item hitem
        · obtain rfl := List.mem_singleton.mp hitem
          rfl
  | drive seq code value =>
      have hdrive := h.drive hquiet hstep
      simp only [KineticGetFilter.step] at hstep
      split at hstep
      · obtain ⟨key, -, rfl⟩ := Option.map_eq_some_iff.mp hstep
        exact ⟨hinv, h.depth, h.running, h.exact, hdrive⟩
      · cases hstep
  | bad_hmac seq => exact absurd hquiet id
  | timeout => exact absurd hquiet id
  | socket_error => exact absurd hquiet id
  | listen =>
      simp only [KineticGetFilter.step] at hstep
      split at hstep <;> cases hstep
      next p hlistener =>
        refine ⟨hinv, ?_, h.running, h.exact, h.listen hlistener⟩
        change (p.advance s.result s.client).client.queue_depth = 5
        cases p with
        | callback seq value => exact h.depth
        | clean_up seq =>
            by_cases hseq : seq ∈ s.client.pending
            · simp only [Progress.advance, if_pos hseq]
              exact h.depth
            · simp only [Progress.advance, if_neg hseq]
              exact h.depth

/-- Whoever is in the middle of an item can go on. -/
theorem Calm.progress (h : Calm content s) (hready : s.main ≠ .ready) :
    ∃ a, (∀ key, a ≠ .call key) ∧ Quiet content a s ∧ (KineticGetFilter.step a s).isSome := by
  have hplace := h.place
  cases hmain : s.main with
  | ready => exact absurd hmain hready
  | acquire key =>
      have hout : s.client.outstanding < s.client.queue_depth := by
        rw [h.count, h.depth, h.toInv.empty (by rw [hmain]; rfl), hmain]
        exact Nat.succ_pos 4
      have hacquire : ∃ c, s.client.acquire = some c := ⟨_, if_pos hout⟩
      obtain ⟨c, hc⟩ := hacquire
      refine ⟨.acquire, nofun, trivial, ?_⟩
      simp only [KineticGetFilter.step, hmain, hc]
      rfl
  | header key =>
      refine ⟨.header, nofun, trivial, ?_⟩
      simp only [KineticGetFilter.step, hmain, Option.isSome_some]
  | send seq key =>
      refine ⟨.send true, nofun, rfl, ?_⟩
      simp only [KineticGetFilter.step, hmain]
      rfl
  | report key p | raised e =>
      rw [hmain] at hplace
      exact absurd hplace id
  | wait_q key =>
      rw [hmain] at hplace
      obtain ⟨seq, hlast, hwaits⟩ := hplace
      cases hwaits with
      | asked hwire hidle _ _ =>
          refine ⟨.drive seq 0 (content key), nofun, ⟨(seq, key), ?_, rfl, rfl⟩, ?_⟩
          · rw [hwire]
            rfl
          · simp only [KineticGetFilter.step, hidle, asked_of_head hwire]
            rfl
      | handled _ hlistener _ _ | appended _ hlistener _ _ =>
          refine ⟨.listen, nofun, trivial, ?_⟩
          simp only [KineticGetFilter.step, hlistener, Option.isSome_some]
      | released _ _ _ hempty =>
          have hout : s.client.outstanding = 0 := by
            rw [h.count, hempty, hmain]
            rfl
          refine ⟨.wait_q, nofun, trivial, ?_⟩
          simp only [KineticGetFilter.step, hmain, if_pos hout, Option.isSome_some]
  | pop key =>
      refine ⟨.pop, nofun, trivial, ?_⟩
      simp only [KineticGetFilter.step, hmain, Option.isSome_some]

/-! ### Whole runs -/

/-- In every run in which the drive answers in order, whatever fails on the way, no item gets
the data of another one, the list is never empty when it is popped, and the bytes are counted
once. -/
theorem own_data (content : Key → Option Bytes) {s : State}
    (hs : filter.ReachableWith (InOrder content) s) :
    (∀ item ∈ s.items, Own content item.1 item.2) ∧ s.main ≠ .raised .IndexError ∧
      s.bytes_from_disk = (s.items.map (·.2.length)).sum := by
  have h : Inv content s := by
    induction hs with
    | start => exact inv_start content
    | step a _ hguard hstep ih => exact ih.step hguard hstep
  exact ⟨h.items, h.popped, h.bytes⟩

/-- The first command is given up after a timeout, and answered in time for the second item. -/
def lateRun (inorder : Bool) : List Action :=
  [.call [0], .acquire, .header, .send true, .timeout, .listen, .listen, .wait_q, .pop,
    .call [1], .acquire, .header, .send true] ++
  (if inorder then [.drive 0 0 (some [7]), .listen, .drive 1 0 (some [8]), .listen, .listen]
  else [.drive 1 0 (some [8]), .listen, .listen, .drive 0 0 (some [7]), .listen]) ++
  [.wait_q, .pop]

def drive (key : Key) : Option Bytes := if key = [0] then some [7] else some [8]

/-- Out of order the late answer lies on top. -/
example :
    (filter.exec (lateRun false) filter.start).map (·.items) = some [([0], []), ([1], [7])] :=
  rfl

theorem own_data_late : ∃ s, filter.exec (lateRun true) filter.start = some s ∧
    s.items = [([0], []), ([1], [8])] ∧ ∀ item ∈ s.items, Own drive item.1 item.2 := by
  refine ⟨_, rfl, rfl, (own_data drive ?_).1⟩
  refine System.ReachableWith.start.exec (lateRun true) ?_ rfl
  decide

/-- When the client has no error to report, every item gets just what the drive has under its
key, and whoever waits can go on. -/
theorem exact_data (content : Key → Option Bytes) {s : State}
    (hs : filter.ReachableWith (Quiet content) s) :
    (∀ item ∈ s.items, item.2 = (content item.1).getD []) ∧
      (s.main = .ready ∨ ∃ a, (∀ key, a ≠ .call key) ∧ Quiet content a s ∧ (step a s).isSome) := by
  have h : Calm content s := by
    induction hs with
    | start =>
        exact ⟨inv_start content, rfl, rfl, fun item h => absurd h List.not_mem_nil, rfl, rfl, rfl⟩
    | step a _ hguard hstep ih => exact ih.step hguard hstep
  refine ⟨h.exact, ?_⟩
  by_cases hready : s.main = .ready
  · exact .inl hready
  · exact .inr (h.progress hready)

def twoItems : List Action :=
  [.call [0], .acquire, .header, .send true, .drive 0 0 (some [7]), .listen, .listen, .wait_q,
    .pop, .call [1], .acquire, .header, .send true, .drive 1 0 (some [8])]

theorem exact_data_two : ∃ s, filter.exec twoItems filter.start = some s ∧
    (∀ item ∈ s.items, item.2 = (drive item.1).getD []) ∧
      (s.main = .ready ∨ ∃ a, (∀ key, a ≠ .call key) ∧ Quiet drive a s ∧ (step a s).isSome) := by
  refine ⟨_, rfl, exact_data drive ?_⟩
  refine System.ReachableWith.start.exec twoItems ?_ rfl
  decide

end SmartDisk.KineticGetFilter
