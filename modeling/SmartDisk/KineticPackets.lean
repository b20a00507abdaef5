import SmartDisk.KineticClient
import Mathlib.Algebra.Order.Ring.Int

/-!
# Packets of `kv_client/client.py`

A packet is the letter F, the lengths of the message and of the value as signed integers of 32
bits, and the message; the value follows it. `_build_packet` makes the packet and signs the
command. `_packet_send` hands it to a socket that may take only a part, time out or fail.
Protocol buffers and the digest are parameters.
-/
namespace SmartDisk.KineticPackets
open KineticClient (Bytes)

inductive AuthType where
  | INVALID_AUTH_TYPE | HMACAUTH | PINAUTH | UNSOLICITEDSTATUS
  deriving DecidableEq, Repr

structure Message where
  authType : AuthType
  identity : ℤ := 0
  hmac : Bytes := []
  pin : Bytes := []
  commandBytes : Bytes := []
  deriving DecidableEq

/-- What is used of `kinetic_pb2` and of `hmac`. `none` is a `DecodeError`. -/
structure Library (Command : Type) where
  message_SerializeToString : Message → Bytes
  message_ParseFromString : Bytes → Option Message
  command_SerializeToString : Command → Bytes
  command_ParseFromString : Bytes → Option Command
  connectionID : Command → ℤ
  hmac_sha1 : Bytes → Bytes → Bytes

/-! ### Integers -/

/-- Four bytes, the highest first. -/
def big_endian (n : ℕ) : Bytes :=
  [UInt8.ofNat (n / 2 ^ 24), UInt8.ofNat (n / 2 ^ 16), UInt8.ofNat (n / 2 ^ 8), UInt8.ofNat n]

/-- `struct.pack(">i", n)`; `none` is a `struct.error`. -/
def pack_i (n : ℕ) : Option Bytes := if n < 2 ^ 31 then some (big_endian n) else none

/-- `struct.pack(">I", n)` -/
def pack_I (n : ℕ) : Option Bytes := if n < 2 ^ 32 then some (big_endian n) else none

/-- The signed integer of four bytes. -/
def unpack_i (b₃ b₂ b₁ b₀ : UInt8) : ℤ :=
  let n : ℕ := b₃.toNat * 2 ^ 24 + b₂.toNat * 2 ^ 16 + b₁.toNat * 2 ^ 8 + b₀.toNat
  if n < 2 ^ 31 then (n : ℤ) else (n : ℤ) - 2 ^ 32

theorem unpack_big_endian {n : ℕ} (h : n < 2 ^ 31) :
    unpack_i (UInt8.ofNat (n / 2 ^ 24)) (UInt8.ofNat (n / 2 ^ 16)) (UInt8.ofNat (n / 2 ^ 8))
      (UInt8.ofNat n) = n := by
  unfold unpack_i
  simp only [UInt8.toNat_ofNat']
  have hn : n / 2 ^ 24 % 2 ^ 8 * 2 ^ 24 + n / 2 ^ 16 % 2 ^ 8 * 2 ^ 16 + n / 2 ^ 8 % 2 ^ 8 * 2 ^ 8
      + n % 2 ^ 8 = n := by
    omega
  rw [hn, if_pos h]

/-! ### Building -/

section
variable {Command : Type} (lib : Library Command)

/-- The fields of the client that go into a packet. -/
structure Credentials where
  identity : ℤ := 1
  secret : Bytes

def disable_hmac : Bool := false

def calculate_hmac (secret command : Bytes) : Option Bytes := do
  let length ← pack_I command.length
  some (lib.hmac_sha1 secret (length ++ command))

/-- The message of a command, unless there is one already. -/
def sign (self : Credentials) (m : Option Message) (command_bytes : Bytes) : Option Message :=
  match m with
  | some m => some { m with commandBytes := command_bytes }
  | none =>
      if disable_hmac then
        some { authType := .HMACAUTH, identity := self.identity, commandBytes := command_bytes }
      else do
        let hmac ← calculate_hmac lib self.secret command_bytes
        some {
          authType := .HMACAUTH, identity := self.identity, hmac, commandBytes := command_bytes }

/-- `struct.pack(">Bii", ord('F'), proto_ln, value_ln)` -/
def pack_header (proto_ln value_ln : ℕ) : Option Bytes := do
  let proto_ln ← pack_i proto_ln
  let value_ln ← pack_i value_ln
  some (0x46 :: (proto_ln ++ value_ln))

def build_packet (self : Credentials) (m : Option Message) (command : Command) (value : Bytes) :
    Option (Bytes × Message) := do
  let m ← sign lib self m (lib.command_SerializeToString command)
  let out := lib.message_SerializeToString m
  let buff ← pack_header out.length value.length
  some (buff ++ out, m)

variable {lib}

theorem pack_header_eq {proto_ln value_ln : ℕ} {buff : Bytes}
    (h : pack_header proto_ln value_ln = some buff) :
    proto_ln < 2 ^ 31 ∧ value_ln < 2 ^ 31 ∧
      buff = 0x46 :: (big_endian proto_ln ++ big_endian value_ln) := by
  unfold pack_header pack_i at h
  split at h
  · split at h
    · rename_i hproto hvalue
      exact ⟨hproto, hvalue, (Option.some.inj h).symm⟩
    · cases h
  · cases h

/-- A packet carries the signed command. -/
theorem build_packet_eq {self : Credentials} {m : Option Message} {command : Command}
    {value aux : Bytes} {message : Message}
    (h : build_packet lib self m command value = some (aux, message)) :
    sign lib self m (lib.command_SerializeToString command) = some message ∧
      ∃ buff, pack_header (lib.message_SerializeToString message).length value.length = some buff ∧
        aux = buff ++ lib.message_SerializeToString message := by
  unfold build_packet at h
  obtain ⟨m', hsign, h⟩ := Option.bind_eq_some_iff.mp h
  obtain ⟨buff, hbuff, h⟩ := Option.bind_eq_some_iff.mp h
  cases Option.some.inj h
  exact ⟨hsign, buff, hbuff, rfl⟩

end

/-! ### Sending -/

/-- One call of `socket.send`: it takes this many bytes, or all it is offered. -/
inductive Sent where
  | sent (nbytes : ℕ)
  | timeout
  | error
  deriving DecidableEq, Repr

inductive Status where
  | done
  | raised
  | blocked
  deriving DecidableEq, Repr

/-- What has gone out, and the calls that are left. -/
structure Sending where
  wire : Bytes
  rest : List Sent
  status : Status

def Sending.before (bytes : Bytes) (s : Sending) : Sending := { s with wire := bytes ++ s.wire }

/-- The loop over the packet. It offers the whole packet each time. -/
def send_aux (aux : Bytes) (i : ℕ) : List Sent → Sending
  | [] => ⟨[], [], if i < aux.length then .blocked else .done⟩
  | call :: calls =>
      if i < aux.length then
        match call with
        | .sent nbytes => (send_aux aux (i + min nbytes aux.length) calls).before (aux.take nbytes)
        | .timeout => send_aux aux i calls
        | .error => ⟨[], calls, .raised⟩
      else ⟨[], call :: calls, .done⟩

/-- The loop over the value, which an error leaves. -/
def send_value (chunk_size : ℕ) (value : Bytes) (i : ℕ) : List Sent → Sending
  | [] => ⟨[], [], if i < value.length then .blocked else .done⟩
  | call :: calls =>
      if i < value.length then
        match call with
        | .sent nbytes =>
            let piece := (value.drop i).take chunk_size
            (send_value chunk_size value (i + min nbytes piece.length) calls).before
              (piece.take nbytes)
        | .timeout => send_value chunk_size value i calls
        | .error => ⟨[], calls, .done⟩
      else ⟨[], call :: calls, .done⟩

def packet_send (chunk_size : ℕ) (aux value : Bytes) (calls : List Sent) : Sending :=
  let first := send_aux aux 0 calls
  match first.status with
  | .done => (send_value chunk_size value 0 first.rest).before first.wire
  | .raised | .blocked => first

/-- What goes out of the value is in order, and all of it unless an error ended the loop. -/
theorem send_value_wire (chunk_size : ℕ) (value : Bytes) (i : ℕ) (calls : List Sent)
    (hdone : (send_value chunk_size value i calls).status = .done) (herror : .error ∉ calls) :
    (send_value chunk_size value i calls).wire = value.drop i := by
  induction calls generalizing i with
  | nil =>
    unfold send_value at hdone ⊢
    split at hdone
    · cases hdone
    · rename_i hle
      exact (List.drop_of_length_le (Nat.not_lt.mp hle)).symm
  | cons call calls ih =>
    have hrest := fun h => herror (List.mem_cons_of_mem call h)
    unfold send_value at hdone ⊢
    split at hdone
    · rename_i hlt
      rw [if_pos hlt]
      cases call with
      | timeout => exact ih i hdone hrest
      | error => exact absurd List.mem_cons_self herror
      | sent nbytes =>
        have hwire := ih _ hdone hrest
        change _ ++ (send_value ..).wire = _
        rw [hwire, ← List.drop_drop, List.length_take, List.take_take]
        have htaken : (value.drop i).take (min nbytes chunk_size) =
            (value.drop i).take (min nbytes (min chunk_size (value.drop i).length)) := by
          rw [List.take_eq_take_iff]
          omega
        rw [htaken, List.take_append_drop]
    · rename_i hle
      rw [if_neg hle]
      exact (List.drop_of_length_le (Nat.not_lt.mp hle)).symm

/-- The sizes bring the counter from `i` to the length of the packet with the last of them. -/
def Reaches (length : ℕ) : ℕ → List ℕ → Prop
  | i, [] => length ≤ i
  | i, nbytes :: taken => i < length ∧ Reaches length (i + min nbytes length) taken

/-- What the calls that were not in vain took. -/
def sizes (calls : List Sent) : List ℕ :=
  calls.filterMap fun
    | .sent nbytes => some nbytes
    | _ => none

/-- Each call up to the end of the loop takes its bytes from the front of the packet. -/
theorem send_aux_wire (aux : Bytes) (i : ℕ) (calls : List Sent)
    (hdone : (send_aux aux i calls).status = .done) :
    ∃ first, calls = first ++ (send_aux aux i calls).rest ∧
      Reaches aux.length i (sizes first) ∧
      (send_aux aux i calls).wire = (sizes first).flatMap fun nbytes => aux.take nbytes := by
  induction calls generalizing i with
  | nil =>
    unfold send_aux at hdone ⊢
    split at hdone
    · cases hdone
    · rename_i hle
      exact ⟨[], rfl, Nat.not_lt.mp hle, rfl⟩
  | cons call calls ih =>
    unfold send_aux at hdone ⊢
    split at hdone
    · rename_i hlt
      rw [if_pos hlt]
      cases call with
      | timeout =>
        obtain ⟨first, hcalls, hreaches, hwire⟩ := ih i hdone
        exact ⟨.timeout :: first, congrArg _ hcalls, hreaches, hwire⟩
      | error => cases hdone
      | sent nbytes =>
        obtain ⟨first, hcalls, hreaches, hwire⟩ := ih _ hdone
        refine ⟨.sent nbytes :: first, congrArg _ hcalls, ⟨hlt, hreaches⟩, ?_⟩
        exact congrArg (aux.take nbytes ++ ·) hwire
    · rename_i hle
      rw [if_neg hle]
      exact ⟨[], rfl, Nat.not_lt.mp hle, rfl⟩

/-- A first call that takes all of the packet. -/
theorem send_aux_whole {aux : Bytes} {nbytes : ℕ} (haux : 0 < aux.length)
    (hwhole : aux.length ≤ nbytes) (timeouts : ℕ) (calls : List Sent) :
    send_aux aux 0 (List.replicate timeouts .timeout ++ .sent nbytes :: calls) =
      ⟨aux, calls, .done⟩ := by
  induction timeouts with
  | zero =>
    change send_aux aux 0 (.sent nbytes :: calls) = _
    have hdone : send_aux aux aux.length calls = ⟨[], calls, .done⟩ := by
      cases calls <;> simp [send_aux]
    unfold send_aux
    rw [if_pos haux]
    change (send_aux aux (0 + min nbytes aux.length) calls).before (aux.take nbytes) = _
    rw [Nat.min_eq_right hwhole, Nat.zero_add, hdone, List.take_of_length_le hwhole]
    exact congrArg (fun wire => (⟨wire, calls, .done⟩ : Sending)) (List.append_nil aux)
  | succ timeouts ih =>
    rw [List.replicate_succ, List.cons_append]
    unfold send_aux
    rw [if_pos haux]
    exact ih

theorem packet_send_whole {chunk_size : ℕ} {aux value : Bytes} {nbytes timeouts : ℕ}
    {calls : List Sent} (haux : 0 < aux.length) (hwhole : aux.length ≤ nbytes)
    (hdone : (packet_send chunk_size aux value
      (List.replicate timeouts .timeout ++ .sent nbytes :: calls)).status = .done)
    (herror : .error ∉ calls) :
    (packet_send chunk_size aux value
      (List.replicate timeouts .timeout ++ .sent nbytes :: calls)).wire = aux ++ value := by
  unfold packet_send at hdone ⊢
  rw [send_aux_whole haux hwhole] at hdone ⊢
  change aux ++ (send_value chunk_size value 0 calls).wire = _
  rw [send_value_wire chunk_size value 0 calls hdone herror, List.drop_zero]

/-- When no call fails, `_packet_send` leaves a prefix of the packet on the wire for every call
that takes bytes, from the first one on until their sizes add up to its length, and then the
value once. So the packet is right if the first of these calls takes all of it, and if that takes
a part, the packet starts again behind the part. -/
theorem packet_send_wire {chunk_size : ℕ} {aux value : Bytes} {calls : List Sent}
    (hdone : (packet_send chunk_size aux value calls).status = .done) (herror : .error ∉ calls) :
    ∃ first rest, calls = first ++ rest ∧ Reaches aux.length 0 (sizes first) ∧
      (packet_send chunk_size aux value calls).wire =
        ((sizes first).flatMap fun nbytes => aux.take nbytes) ++ value ∧
      (∀ nbytes more, sizes first = nbytes :: more → aux.length ≤ nbytes →
        (packet_send chunk_size aux value calls).wire = aux ++ value) ∧
      ∀ nbytes again more, sizes first = nbytes :: again :: more → 0 < again →
        (packet_send chunk_size aux value calls).wire[nbytes]? = aux.head? := by
  cases hfirst : (send_aux aux 0 calls).status with
  | raised | blocked =>
    simp only [packet_send, hfirst] at hdone
    cases hdone
  | done =>
    obtain ⟨first, hcalls, hreaches, hwire⟩ := send_aux_wire aux 0 calls hfirst
    have hsend : packet_send chunk_size aux value calls =
        (send_value chunk_size value 0 (send_aux aux 0 calls).rest).before
          (send_aux aux 0 calls).wire := by
      simp only [packet_send, hfirst]
    have hvalue : (send_value chunk_size value 0 (send_aux aux 0 calls).rest).wire = value := by
      refine send_value_wire chunk_size value 0 _ ?_ ?_
      · rw [hsend] at hdone
        exact hdone
      · intro h
        rw [hcalls] at herror
        exact herror (List.mem_append_right _ h)
    have hall : (packet_send chunk_size aux value calls).wire =
        ((sizes first).flatMap fun nbytes => aux.take nbytes) ++ value := by
      rw [hsend]
      change (send_aux aux 0 calls).wire ++ (send_value ..).wire = _
      rw [hvalue, hwire]
    refine ⟨first, _, hcalls, hreaches, hall, ?_, ?_⟩
    · intro nbytes more hsizes hwhole
      rw [hsizes] at hreaches
      obtain ⟨-, hmore⟩ := hreaches
      rw [Nat.min_eq_right hwhole, Nat.zero_add] at hmore
      rw [hall, hsizes]
      cases more with
      | nil => rw [List.flatMap_singleton, List.take_of_length_le hwhole]
      | cons again more => exact absurd hmore.1 (Nat.lt_irrefl _)
    · intro nbytes again more hsizes hagain
      rw [hsizes] at hreaches
      obtain ⟨-, hlt, -⟩ := hreaches
      rw [Nat.zero_add] at hlt
      have hshort : nbytes < aux.length := by omega
      rw [hall, hsizes, List.flatMap_cons, List.flatMap_cons, List.append_assoc,
        List.getElem?_append_right (by rw [List.length_take]; omega), List.length_take,
        Nat.min_eq_left (Nat.le_of_lt hshort), Nat.sub_self]
      cases aux with
      | nil => exact absurd hshort (Nat.not_lt_zero _)
      | cons letter aux =>
        cases again with
        | zero => exact absurd hagain (Nat.lt_irrefl 0)
        | succ again => rfl

/-- Two bytes first: the packet starts again behind them, and the value goes out in pieces. -/
def split_calls : List Sent :=
  [.timeout, .sent 2, .sent 9, .sent 1, .timeout, .sent 9, .sent 9]

theorem packet_send_wire_split : ∃ first rest, split_calls = first ++ rest ∧
    Reaches 3 0 (sizes first) ∧ [0x46, 0, 0x46, 0, 7, 1, 2, 3, 4] =
      ((sizes first).flatMap fun nbytes => [0x46, 0, 7].take nbytes) ++
        ([1, 2, 3, 4] : Bytes) := by
  have hdone : (packet_send 3 [0x46, 0, 7] [1, 2, 3, 4] split_calls).status = .done := by decide
  obtain ⟨first, rest, hcalls, hreaches, hwire, -⟩ := packet_send_wire hdone (by decide)
  exact ⟨first, rest, hcalls, hreaches, hwire⟩

end SmartDisk.KineticPackets
