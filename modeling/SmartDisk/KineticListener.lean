import SmartDisk.KineticPackets
import SmartDisk.Segments

/-!
# The listening thread of `kv_client/client.py`

`_network_recv` reads a packet from the socket in three pieces, and `_listen` hands one packet
after the other to `_on_response` while the client is connected. A timeout in the middle of a
packet loses what `_fast_read` has read of it. Nothing looks at the letter a packet starts with.
-/
namespace SmartDisk.KineticListener
open Segments KineticClient KineticPackets

inductive Exn where
  | timeout
  | socket_error
  | ValueError
  | DecodeError
  | struct_error
  deriving DecidableEq, Repr

/-- A socket that is closed gives no bytes. -/
def Exn.of_short : Short → Exn
  | .timeout => .timeout
  | .closed => .socket_error

/-- The socket and `_connection_id`. -/
structure Connection (Stream : Type) where
  stream : Stream
  connection_id : Option ℤ := none

section
variable {Stream Command : Type} (recv : ℕ → Stream → Except Short Bytes × Stream)
  (lib : Library Command)

/-- `bytearray(toread)` raises for a negative number. -/
def fast_read (toread : ℤ) : Program (Connection Stream) Exn Bytes := fun c =>
  if toread < 0 then (.error .ValueError, c)
  else
    match recv toread.toNat c.stream with
    | (.ok buf, stream) => (.ok buf, { c with stream })
    | (.error e, stream) => (.error (Exn.of_short e), { c with stream })

/-- `struct.unpack_from(">bii", msg)`, without the first byte. -/
def unpack_header : Bytes → Option (ℤ × ℤ)
  | [_, p₃, p₂, p₁, p₀, v₃, v₂, v₁, v₀] => some (unpack_i p₃ p₂ p₁ p₀, unpack_i v₃ v₂ v₁ v₀)
  | _ => none

def set_connection_id (cmd : Command) : Program (Connection Stream) Exn Unit := fun c =>
  (.ok (), if lib.connectionID cmd ≠ 0 then { c with connection_id := some (lib.connectionID cmd) }
    else c)

def read_value (value_ln : ℤ) : Program (Connection Stream) Exn Bytes :=
  if 0 < value_ln then fast_read recv value_ln else pure []

def network_recv : Program (Connection Stream) Exn (Message × Command × Bytes) := do
  let msg ← fast_read recv 9
  let (proto_ln, value_ln) ← Program.of_option .struct_error (unpack_header msg)
  let raw_proto ← fast_read recv proto_ln
  let value ← read_value recv value_ln
  let msg ← Program.of_option .DecodeError (lib.message_ParseFromString raw_proto)
  let cmd ← Program.of_option .DecodeError (lib.command_ParseFromString msg.commandBytes)
  set_connection_id lib cmd
  pure (msg, cmd, value)

/-- What the thread finds: a response for `_on_response`, an error of the client's own that it
reports, or a timeout. The last two end it, and `died` reports nothing. -/
inductive Heard (Command : Type) where
  | response (msg : Message) (cmd : Command) (value : Bytes)
  | HMAC_FAILURE
  | timeout
  | value_error
  | socket_error
  | died
  deriving DecidableEq

/-- The check of the digest; `none` is a `struct.error`. -/
def validate (secret : Bytes) (msg : Message) (cmd : Command) (value : Bytes) :
    Option (Heard Command) :=
  if !disable_hmac && msg.authType = .HMACAUTH then do
    let cal_hmac ← calculate_hmac lib secret (lib.command_SerializeToString cmd)
    if msg.hmac = [] ∨ cal_hmac ≠ msg.hmac then some .HMAC_FAILURE
    else some (.response msg cmd value)
  else some (.response msg cmd value)

def async_recv (secret : Bytes) : Program (Connection Stream) Exn (Heard Command) := do
  let (msg, cmd, value) ← network_recv recv lib
  Program.of_option .struct_error (validate lib secret msg cmd value)

/-- The first rounds of the loop of `_listen`. -/
def listen (secret : Bytes) : ℕ → Connection Stream → List (Heard Command)
  | 0, _ => []
  | rounds + 1, c =>
      match async_recv recv lib secret c with
      | (.ok heard, c) => heard :: listen secret rounds c
      | (.error .timeout, c) => .timeout :: listen secret rounds c
      | (.error .ValueError, c) => .value_error :: listen secret rounds c
      | (.error .socket_error, _) => [.socket_error]
      | (.error .DecodeError, _) => [.died]
      | (.error .struct_error, _) => [.died]

/-! ### Bursts -/

variable {recv lib}

def Connection.bursts (c : Connection (Arrivals UInt8)) : Connection (Bursts UInt8) :=
  { stream := Segments.bursts c.stream, connection_id := c.connection_id }

theorem fast_read_simulates (toread : ℤ) :
    Simulates Connection.bursts (fast_read read toread) (fast_read Bursts.read toread) := by
  intro c
  have h := read_bursts toread.toNat c.stream
  unfold fast_read
  split
  · rfl
  · dsimp only [Connection.bursts]
    rw [h]
    cases read toread.toNat c.stream with
    | mk result stream => cases result <;> rfl

theorem read_value_simulates (value_ln : ℤ) :
    Simulates Connection.bursts (read_value read value_ln) (read_value Bursts.read value_ln) := by
  unfold read_value
  split
  · exact fast_read_simulates value_ln
  · exact .pure []

theorem set_connection_id_simulates (cmd : Command) :
    Simulates Connection.bursts (set_connection_id lib cmd) (set_connection_id lib cmd) := by
  intro c
  unfold set_connection_id
  split <;> rfl

theorem network_recv_simulates :
    Simulates Connection.bursts (network_recv read lib) (network_recv Bursts.read lib) := by
  refine (fast_read_simulates 9).bind fun msg => (Simulates.of_option _ _).bind fun lengths => ?_
  refine (fast_read_simulates lengths.1).bind fun raw_proto => ?_
  refine (read_value_simulates lengths.2).bind fun value => ?_
  refine (Simulates.of_option _ _).bind fun msg => (Simulates.of_option _ _).bind fun cmd => ?_
  exact (set_connection_id_simulates cmd).bind fun _ => .pure _

theorem async_recv_simulates (secret : Bytes) :
    Simulates Connection.bursts (async_recv read lib secret)
      (async_recv Bursts.read lib secret) := by
  exact network_recv_simulates.bind fun received => .of_option _ _

/-- What the thread finds depends on the bursts alone. -/
theorem listen_bursts (secret : Bytes) (rounds : ℕ) (c : Connection (Arrivals UInt8)) :
    listen Bursts.read lib secret rounds c.bursts = listen read lib secret rounds c := by
  induction rounds generalizing c with
  | zero => rfl
  | succ rounds ih =>
    unfold listen
    rw [async_recv_simulates secret c]
    cases async_recv read lib secret c with
    | mk result c' =>
      cases result with
      | ok heard => exact congrArg _ (ih c')
      | error e =>
        cases e with
        | timeout | ValueError => exact congrArg _ (ih c')
        | socket_error | DecodeError | struct_error => rfl

/-! ### The end of the thread -/

def Connection.size (c : Connection (Bursts UInt8)) : ℕ := c.stream.size

theorem fast_read_ok {toread : ℤ} {c c' : Connection (Bursts UInt8)} {buf : Bytes}
    (h : fast_read Bursts.read toread c = (.ok buf, c')) : c'.size + toread.toNat = c.size := by
  unfold fast_read at h
  split at h
  · cases h
  · split at h
    · rename_i hread
      cases h
      have hsize := (Bursts.size_read (n := toread.toNat) (b := c.stream) (by rw [hread])).2
      rw [hread] at hsize
      exact hsize
    · cases h

theorem fast_read_shrinks (toread : ℤ) :
    Shrinks Connection.size (fast_read Bursts.read toread) := by
  intro c
  have hsize := Bursts.size_read_le toread.toNat c.stream
  unfold fast_read
  split
  · exact le_refl _
  · split <;>
    · rename_i hread
      rw [hread] at hsize
      exact hsize

theorem set_connection_id_shrinks (cmd : Command) :
    Shrinks Connection.size
      (set_connection_id lib cmd : Program (Connection (Bursts UInt8)) Exn Unit) := by
  intro c
  unfold set_connection_id
  split <;> exact le_refl _

theorem read_value_shrinks (value_ln : ℤ) :
    Shrinks Connection.size (read_value Bursts.read value_ln) := by
  unfold read_value
  split
  · exact fast_read_shrinks value_ln
  · exact .pure []

/-- Unless the socket is closed, the first read uses up something. -/
theorem fast_read_error {c c' : Connection (Bursts UInt8)} {e : Exn}
    (h : fast_read Bursts.read 9 c = (.error e, c')) : e = .socket_error ∨ c'.size < c.size := by
  unfold fast_read at h
  rw [if_neg (by decide)] at h
  split at h
  · cases h
  · rename_i short stream hread
    cases h
    cases short with
    | closed => exact .inl rfl
    | timeout =>
      have hsize := Bursts.size_timeout (n := (9 : ℤ).toNat) (b := c.stream) (by rw [hread])
      rw [hread] at hsize
      exact .inr hsize

variable (lib) in
theorem network_recv_size (c : Connection (Bursts UInt8)) :
    (network_recv Bursts.read lib c).1 = .error .socket_error ∨
      (network_recv Bursts.read lib c).2.size < c.size := by
  unfold network_recv
  cases hread : fast_read Bursts.read 9 c with
  | mk result c' =>
    cases result with
    | error e =>
      rw [bind_error hread]
      exact (fast_read_error hread).imp (congrArg Except.error) id
    | ok msg =>
      have hsize : c'.size + 9 = c.size := fast_read_ok hread
      rw [bind_ok hread]
      refine .inr (lt_of_le_of_lt ((Shrinks.bind ?_ ?_ : Shrinks Connection.size _) c') (by omega))
      · exact .of_option _ _
      · intro lengths
        refine (fast_read_shrinks lengths.1).bind fun raw_proto => ?_
        refine (read_value_shrinks lengths.2).bind fun value => ?_
        refine (Shrinks.of_option _ _).bind fun msg => (Shrinks.of_option _ _).bind fun cmd => ?_
        exact (set_connection_id_shrinks cmd).bind fun _ => .pure _

variable (lib) in
theorem async_recv_size (secret : Bytes) (c : Connection (Bursts UInt8)) :
    (async_recv Bursts.read lib secret c).1 = .error .socket_error ∨
      (async_recv Bursts.read lib secret c).2.size < c.size := by
  unfold async_recv
  cases hread : network_recv Bursts.read lib c with
  | mk result c' =>
    have hsize := network_recv_size lib c
    rw [hread] at hsize
    cases result with
    | error e =>
      rw [bind_error hread]
      exact hsize.imp (fun h => congrArg Except.error (Except.error.inj h)) id
    | ok received =>
      rw [bind_ok hread]
      exact .inr (lt_of_le_of_lt (Shrinks.of_option _ _ c') (hsize.resolve_left nofun))

/-- With rounds for all that arrives, more rounds find nothing more. -/
theorem listen_rounds (secret : Bytes) {rounds rounds' : ℕ} {c : Connection (Bursts UInt8)}
    (h : c.size < rounds) (h' : c.size < rounds') :
    listen Bursts.read lib secret rounds c = listen Bursts.read lib secret rounds' c := by
  induction rounds generalizing rounds' c with
  | zero => exact absurd h (Nat.not_lt_zero _)
  | succ rounds ih =>
    cases rounds' with
    | zero => exact absurd h' (Nat.not_lt_zero _)
    | succ rounds' =>
      have hsize := async_recv_size lib secret c
      unfold listen
      cases hrecv : async_recv Bursts.read lib secret c with
      | mk result c' =>
        rw [hrecv] at hsize
        cases result with
        | ok heard =>
          have hlt : c'.size < c.size := hsize.resolve_left nofun
          exact congrArg _ (ih (by omega) (by omega))
        | error e =>
          cases e with
          | timeout | ValueError =>
            have hlt : c'.size < c.size := hsize.resolve_left nofun
            exact congrArg _ (ih (by omega) (by omega))
          | socket_error | DecodeError | struct_error => rfl

variable (lib) in
/-- The whole run of the thread on a connection that ends. -/
def hear (secret : Bytes) (c : Connection (Bursts UInt8)) : List (Heard Command) :=
  listen Bursts.read lib secret (c.size + 1) c

theorem hear_eq (secret : Bytes) (c : Connection (Bursts UInt8)) :
    hear lib secret c =
      match async_recv Bursts.read lib secret c with
      | (.ok heard, c) => heard :: hear lib secret c
      | (.error .timeout, c) => .timeout :: hear lib secret c
      | (.error .ValueError, c) => .value_error :: hear lib secret c
      | (.error .socket_error, _) => [.socket_error]
      | (.error .DecodeError, _) => [.died]
      | (.error .struct_error, _) => [.died] := by
  have hsize := async_recv_size lib secret c
  conv_lhs => unfold hear listen
  cases hrecv : async_recv Bursts.read lib secret c with
  | mk result c' =>
    rw [hrecv] at hsize
    cases result with
    | ok heard =>
      have hlt : c'.size < c.size := hsize.resolve_left nofun
      exact congrArg _ (listen_rounds secret hlt (Nat.lt_succ_self _))
    | error e =>
      cases e with
      | timeout | ValueError =>
        have hlt : c'.size < c.size := hsize.resolve_left nofun
        exact congrArg _ (listen_rounds secret hlt (Nat.lt_succ_self _))
      | socket_error | DecodeError | struct_error => rfl

/-! ### Whole packets -/

variable (lib) in
/-- A command of the client and the packet that is built for it. A PIN operation comes with its
own message. -/
structure Packet (client : Credentials) where
  pin : Option Bytes
  command : Command
  value : Bytes
  aux : Bytes
  message : Message
  built : build_packet lib client (pin.map fun pin => { authType := .PINAUTH, pin }) command value =
    some (aux, message)

namespace Packet
variable {client : Credentials}

def bytes (q : Packet lib client) : Bytes := q.aux ++ q.value

def response (q : Packet lib client) : Heard Command := .response q.message q.command q.value

end Packet

/-- What the library has written for the packet it reads back, and the digest is not empty. -/
structure Packet.Readable {client : Credentials} (q : Packet lib client) : Prop where
  message : lib.message_ParseFromString (lib.message_SerializeToString q.message) = some q.message
  command : lib.command_ParseFromString (lib.command_SerializeToString q.command) = some q.command
  digest : q.message.authType = .HMACAUTH → q.message.hmac ≠ []

/-- `_connection_id` after a response. -/
def next_id (lib : Library Command) (connection_id : Option ℤ) (cmd : Command) : Option ℤ :=
  if lib.connectionID cmd ≠ 0 then some (lib.connectionID cmd) else connection_id

theorem fast_read_of_le {n : ℕ} {b : Bytes} (h : n ≤ b.length) (later : List Bytes)
    (connection_id : Option ℤ) : fast_read Bursts.read n ⟨⟨b, later⟩, connection_id⟩ =
      (.ok (b.take n), ⟨⟨b.drop n, later⟩, connection_id⟩) := by
  unfold fast_read
  rw [if_neg (by omega), Int.toNat_natCast]
  dsimp only
  rw [Bursts.read_of_le h]

theorem fast_read_of_lt {n : ℕ} {b next : Bytes} {later : List Bytes} {connection_id : Option ℤ}
    (h : b.length < n) : fast_read Bursts.read n ⟨⟨b, next :: later⟩, connection_id⟩ =
      (.error .timeout, ⟨⟨next, later⟩, connection_id⟩) := by
  unfold fast_read
  rw [if_neg (by omega), Int.toNat_natCast]
  dsimp only
  rw [Bursts.read_of_lt h]
  rfl

/-- A packet passes the check of the same secret. -/
theorem validate_packet {client : Credentials} {q : Packet lib client} (hread : q.Readable) :
    validate lib client.secret q.message q.command q.value = some q.response := by
  obtain ⟨hsign, -⟩ := build_packet_eq q.built
  unfold validate
  cases hpin : q.pin with
  | some pin =>
    rw [hpin] at hsign
    have hauth : q.message.authType = .PINAUTH := by rw [← Option.some.inj hsign]
    rw [hauth]
    rfl
  | none =>
    rw [hpin] at hsign
    obtain ⟨hmac, hhmac, hmessage⟩ := Option.bind_eq_some_iff.mp hsign
    have hauth : q.message.authType = .HMACAUTH := by rw [← Option.some.inj hmessage]
    have hdigest : q.message.hmac = hmac := by rw [← Option.some.inj hmessage]
    have hne : hmac ≠ [] := hdigest ▸ hread.digest hauth
    rw [hauth, hhmac, hdigest]
    change (if hmac = [] ∨ hmac ≠ hmac then _ else _) = _
    rw [if_neg (by simp [hne])]
    rfl

/-- The pieces of a packet. -/
theorem packet_bytes {client : Credentials} {q : Packet lib client} (hread : q.Readable) :
    ∃ header out : Bytes, q.bytes = header ++ out ++ q.value ∧ header.length = 9 ∧
      unpack_header header = some ((out.length : ℤ), (q.value.length : ℤ)) ∧
      lib.message_ParseFromString out = some q.message ∧
      lib.command_ParseFromString q.message.commandBytes = some q.command := by
  obtain ⟨hsign, buff, hbuff, haux⟩ := build_packet_eq q.built
  obtain ⟨hproto, hvalue, rfl⟩ := pack_header_eq hbuff
  have hbytes : q.bytes = 0x46 :: (big_endian (lib.message_SerializeToString q.message).length ++
      big_endian q.value.length) ++ lib.message_SerializeToString q.message ++ q.value := by
    unfold Packet.bytes
    rw [haux]
  refine ⟨_, _, hbytes, rfl, ?_, hread.message, ?_⟩
  · change some (unpack_i _ _ _ _, unpack_i _ _ _ _) = _
    rw [unpack_big_endian hproto, unpack_big_endian hvalue]
  · have hbytes : q.message.commandBytes = lib.command_SerializeToString q.command := by
      unfold sign at hsign
      cases hpin : q.pin with
      | some pin =>
        rw [hpin] at hsign
        rw [← Option.some.inj hsign]
      | none =>
        rw [hpin] at hsign
        obtain ⟨hmac, -, hmessage⟩ := Option.bind_eq_some_iff.mp hsign
        rw [← Option.some.inj hmessage]
    rw [hbytes]
    exact hread.command

theorem read_value_of_le {value rest : Bytes} {later : List Bytes} {connection_id : Option ℤ} :
    read_value Bursts.read value.length ⟨⟨value ++ rest, later⟩, connection_id⟩ =
      (.ok value, ⟨⟨rest, later⟩, connection_id⟩) := by
  unfold read_value
  split
  · rw [fast_read_of_le (by rw [List.length_append]; omega), List.take_left, List.drop_left]
  · rename_i hzero
    have hnil : value = [] := List.eq_nil_of_length_eq_zero (by omega)
    rw [hnil]
    rfl

theorem async_recv_packet {client : Credentials} {q : Packet lib client} (hread : q.Readable)
    (rest : Bytes) (later : List Bytes) (connection_id : Option ℤ) :
    async_recv Bursts.read lib client.secret ⟨⟨q.bytes ++ rest, later⟩, connection_id⟩ =
      (.ok q.response, ⟨⟨rest, later⟩, next_id lib connection_id q.command⟩) := by
  obtain ⟨header, out, hbytes, hlength, hunpack, hmessage, hcommand⟩ := packet_bytes hread
  have hheader : fast_read Bursts.read 9 ⟨⟨q.bytes ++ rest, later⟩, connection_id⟩ =
      (.ok header, ⟨⟨out ++ (q.value ++ rest), later⟩, connection_id⟩) := by
    have h := fast_read_of_le (n := 9) (b := header ++ (out ++ (q.value ++ rest)))
      (by rw [List.length_append]; omega) later connection_id
    rw [List.take_left' hlength, List.drop_left' hlength] at h
    rw [hbytes, List.append_assoc, List.append_assoc]
    exact h
  have hout : fast_read Bursts.read out.length ⟨⟨out ++ (q.value ++ rest), later⟩, connection_id⟩ =
      (.ok out, ⟨⟨q.value ++ rest, later⟩, connection_id⟩) := by
    rw [fast_read_of_le (by rw [List.length_append]; omega), List.take_left, List.drop_left]
  have hrecv : network_recv Bursts.read lib ⟨⟨q.bytes ++ rest, later⟩, connection_id⟩ =
      (.ok (q.message, q.command, q.value),
        ⟨⟨rest, later⟩, next_id lib connection_id q.command⟩) := by
    refine (bind_ok hheader).trans ?_
    rw [hunpack]
    refine (bind_ok hout).trans ((bind_ok read_value_of_le).trans ?_)
    rw [hmessage]
    refine Eq.trans (bind_ok rfl) ?_
    rw [hcommand]
    refine Eq.trans (bind_ok rfl) ?_
    unfold next_id
    refine Eq.trans (bind_ok rfl) ?_
    split <;> rfl
  refine (bind_ok hrecv).trans ?_
  dsimp only
  rw [validate_packet hread]
  rfl

/-! ### Packets that are cut -/

theorem append_cut {a b p rest : Bytes} (h : a ++ b = p ++ rest) (hle : a.length ≤ p.length) :
    ∃ p', p = a ++ p' ∧ b = p' ++ rest := by
  rcases List.append_eq_append_iff.mp h with ⟨p', hp, hb⟩ | ⟨c, ha, hr⟩
  · exact ⟨p', hp, hb⟩
  · have hc : c = [] := by
      rw [ha, List.length_append] at hle
      exact List.eq_nil_of_length_eq_zero (by omega)
    subst hc
    rw [List.append_nil] at ha
    exact ⟨[], by rw [ha, List.append_nil], hr.symm⟩

/-- A timeout in front of the end of a packet takes the start of the packet with it. -/
theorem async_recv_cut {client : Credentials} {q : Packet lib client} (hread : q.Readable)
    {p rest : Bytes} (hq : q.bytes = p ++ rest) (hrest : rest ≠ []) (next : Bytes)
    (later : List Bytes) (connection_id : Option ℤ) :
    async_recv Bursts.read lib client.secret ⟨⟨p, next :: later⟩, connection_id⟩ =
      (.error .timeout, ⟨⟨next, later⟩, connection_id⟩) := by
  refine bind_error ?_
  obtain ⟨header, out, hbytes, hlength, hunpack, -, -⟩ := packet_bytes hread
  rw [hbytes, List.append_assoc] at hq
  by_cases hheader : p.length < 9
  · exact bind_error (fast_read_of_lt (n := 9) hheader)
  · obtain ⟨p₁, rfl, hp₁⟩ := append_cut hq (by omega)
    have hfirst := fast_read_of_le (n := 9) (b := header ++ p₁) (by omega) (next :: later)
      connection_id
    rw [List.take_left' hlength, List.drop_left' hlength] at hfirst
    refine (bind_ok hfirst).trans ?_
    rw [hunpack]
    refine Eq.trans (bind_ok rfl) ?_
    by_cases hout : p₁.length < out.length
    · exact bind_error (fast_read_of_lt hout)
    · obtain ⟨p₂, rfl, hp₂⟩ := append_cut hp₁ (by omega)
      have hfirst := fast_read_of_le (n := out.length) (b := out ++ p₂) (by omega) (next :: later)
        connection_id
      rw [List.take_left, List.drop_left] at hfirst
      refine (bind_ok hfirst).trans (bind_error ?_)
      have hvalue : p₂.length < q.value.length := by
        rw [hp₂, List.length_append]
        have hpos := List.length_pos_iff.mpr hrest
        omega
      unfold read_value
      rw [if_pos (by omega)]
      exact fast_read_of_lt hvalue

theorem hear_timeout {secret : Bytes} {c c' : Connection (Bursts UInt8)}
    (h : async_recv Bursts.read lib secret c = (.error .timeout, c')) :
    hear lib secret c = .timeout :: hear lib secret c' := by
  rw [hear_eq, h]

theorem hear_idle (secret next : Bytes) (later : List Bytes) (connection_id : Option ℤ) :
    hear lib secret ⟨⟨[], next :: later⟩, connection_id⟩ =
      .timeout :: hear lib secret ⟨⟨next, later⟩, connection_id⟩ :=
  hear_timeout (bind_error (bind_error (fast_read_of_lt (n := 9) (Nat.succ_pos 8))))

theorem hear_closed (secret : Bytes) (connection_id : Option ℤ) :
    hear lib secret ⟨⟨[], []⟩, connection_id⟩ = [.socket_error] := rfl

/-- `_connection_id` after some responses. -/
def last_id {client : Credentials} (connection_id : Option ℤ) (qs : List (Packet lib client)) :
    Option ℤ :=
  qs.foldl (fun connection_id q => next_id lib connection_id q.command) connection_id

theorem hear_packets {client : Credentials} {qs : List (Packet lib client)}
    (hread : ∀ q ∈ qs, q.Readable) (rest : Bytes) (later : List Bytes) (connection_id : Option ℤ) :
    hear lib client.secret ⟨⟨qs.flatMap Packet.bytes ++ rest, later⟩, connection_id⟩ =
      qs.map Packet.response ++
        hear lib client.secret ⟨⟨rest, later⟩, last_id connection_id qs⟩ := by
  induction qs generalizing connection_id with
  | nil => rfl
  | cons q qs ih =>
    rw [List.flatMap_cons, List.append_assoc, hear_eq,
      async_recv_packet (hread q List.mem_cons_self)]
    dsimp only
    rw [ih fun q' hq' => hread q' (List.mem_cons_of_mem q hq')]
    rfl

/-- Timeouts between packets lose nothing. -/
theorem hear_groups {client : Credentials} {qs : List (Packet lib client)}
    {groups : List (List (Packet lib client))} (hread : ∀ q ∈ qs, q.Readable)
    (hgroups : ∀ group ∈ groups, ∀ q ∈ group, q.Readable) (connection_id : Option ℤ) :
    hear lib client.secret ⟨⟨qs.flatMap Packet.bytes,
        groups.map fun qs => qs.flatMap Packet.bytes⟩, connection_id⟩ =
      qs.map Packet.response ++
        groups.flatMap (fun qs => .timeout :: qs.map Packet.response) ++ [.socket_error] := by
  induction groups generalizing qs connection_id with
  | nil =>
    have h := hear_packets hread [] [] connection_id
    rw [List.append_nil, hear_closed] at h
    rw [List.flatMap_nil, List.append_nil]
    exact h
  | cons group groups ih =>
    have h := hear_packets hread [] ((group :: groups).map fun qs => qs.flatMap Packet.bytes)
      connection_id
    have hrest := fun group' h => hgroups group' (List.mem_cons_of_mem group h)
    rw [List.append_nil] at h
    rw [h, List.map_cons, hear_idle, ih (hgroups group List.mem_cons_self) hrest,
      List.flatMap_cons]
    simp only [List.append_assoc, List.cons_append]

/-! ### From socket to socket -/

/-- A packet on its way through a socket that takes all of `aux` with the first call that takes
anything, and then the value in any pieces. -/
structure Transmission (lib : Library Command) (client : Credentials) (chunk_size : ℕ) extends
    Packet lib client where
  timeouts : ℕ
  nbytes : ℕ
  calls : List Sent
  whole : aux.length ≤ nbytes
  no_error : .error ∉ calls
  done : (packet_send chunk_size aux value
    (List.replicate timeouts .timeout ++ .sent nbytes :: calls)).status = .done

def Transmission.wire {client : Credentials} {chunk_size : ℕ}
    (t : Transmission lib client chunk_size) : Bytes :=
  (packet_send chunk_size t.aux t.value
    (List.replicate t.timeouts .timeout ++ .sent t.nbytes :: t.calls)).wire

theorem Transmission.wire_eq {client : Credentials} {chunk_size : ℕ}
    (t : Transmission lib client chunk_size) : t.wire = t.toPacket.bytes := by
  have hpos : 0 < t.aux.length := by
    obtain ⟨-, buff, hbuff, haux⟩ := build_packet_eq t.built
    obtain ⟨-, -, rfl⟩ := pack_header_eq hbuff
    rw [haux]
    exact Nat.succ_pos _
  exact packet_send_whole hpos t.whole t.done t.no_error

theorem wire_group {client : Credentials} {chunk_size : ℕ}
    (group : List (Transmission lib client chunk_size)) :
    group.flatMap Transmission.wire =
      (group.map Transmission.toPacket).flatMap Packet.bytes := by
  rw [List.flatMap_map]
  exact List.flatMap_congr fun t _ => t.wire_eq

/-- Whatever pieces the stream arrives in and whatever timeouts come between the packets: the
thread hears each packet once, in order, with its message, command and value, and the digest of
the same secret passes. -/
theorem packets_heard {client : Credentials} {chunk_size : ℕ}
    {first : List (Transmission lib client chunk_size)}
    {groups : List (List (Transmission lib client chunk_size))}
    (hread : ∀ t ∈ first, t.toPacket.Readable)
    (hgroups : ∀ group ∈ groups, ∀ t ∈ group, t.toPacket.Readable)
    {c : Connection (Arrivals UInt8)} {rounds : ℕ}
    (hc : Segments.bursts c.stream = ⟨first.flatMap Transmission.wire,
      groups.map fun group => group.flatMap Transmission.wire⟩)
    (hrounds : c.bursts.size < rounds) :
    listen read lib client.secret rounds c =
      first.map (fun t => t.toPacket.response) ++
        groups.flatMap (fun group => .timeout :: group.map fun t => t.toPacket.response) ++
          [.socket_error] := by
  have hstart : c.bursts = ⟨⟨(first.map Transmission.toPacket).flatMap Packet.bytes,
      (groups.map (List.map Transmission.toPacket)).map fun qs => qs.flatMap Packet.bytes⟩,
        c.connection_id⟩ := by
    unfold Connection.bursts
    rw [hc, wire_group, List.map_map, List.map_congr_left fun group _ => wire_group group]
    rfl
  rw [← listen_bursts, listen_rounds client.secret hrounds (Nat.lt_succ_self _)]
  change hear lib client.secret c.bursts = _
  rw [hstart, hear_groups (List.forall_mem_map.mpr hread), List.flatMap_map, List.map_map]
  · simp only [List.map_map]
    rfl
  · rintro qs hqs
    obtain ⟨group, hgroup, rfl⟩ := List.mem_map.mp hqs
    exact List.forall_mem_map.mpr (hgroups group hgroup)

/-- A put of three bytes under the key k, as a client with the default identity and secret makes
it. -/
def put_command : Bytes :=
  [10, 8, 8, 0, 24, 42, 32, 0, 56, 4, 18, 29, 10, 27, 26, 1, 107, 42, 20, 112, 55, 128, 113, 152,
    194, 42, 125, 43, 8, 7, 55, 29, 118, 55, 121, 168, 79, 223, 207, 48, 1]

def put_digest : Bytes :=
  [169, 198, 124, 185, 137, 121, 231, 218, 103, 143, 254, 115, 3, 33, 152, 69, 178, 245, 162, 3]

def put_message : Message where
  authType := .HMACAUTH
  identity := 1
  hmac := put_digest
  commandBytes := put_command

def put_message_bytes : Bytes :=
  [32, 1, 42, 24, 8, 1, 18, 20] ++ put_digest ++ [58, 41] ++ put_command

/-- What the libraries do with this command. -/
def put_library : Library Unit where
  message_SerializeToString m := if m = put_message then put_message_bytes else []
  message_ParseFromString bytes := if bytes = put_message_bytes then some put_message else none
  command_SerializeToString _ := put_command
  command_ParseFromString bytes := if bytes = put_command then some () else none
  connectionID _ := 42
  hmac_sha1 _ _ := put_digest

def default_credentials : Credentials where
  secret := "asdfasdf".toUTF8.toList

def put_packet : Packet put_library default_credentials where
  pin := none
  command := ()
  value := [1, 2, 3]
  aux := 0x46 :: (big_endian 71 ++ big_endian 3) ++ put_message_bytes
  message := put_message
  built := by decide +kernel

theorem put_readable : put_packet.Readable where
  message := by decide +kernel
  command := by decide +kernel
  digest := by decide +kernel

def put_transmission : Transmission put_library default_credentials 65536 where
  toPacket := put_packet
  timeouts := 1
  nbytes := 80
  calls := [.sent 1, .timeout, .sent 2]
  whole := by decide
  no_error := by decide
  done := by decide +kernel

/-- The packet twice, with a timeout between and in pieces of other lengths. -/
def put_arrivals : Arrivals UInt8 :=
  [some (put_packet.bytes.take 5), some ((put_packet.bytes.drop 5).take 70),
    some (put_packet.bytes.drop 75), none, some put_packet.bytes]

theorem packets_heard_put :
    listen read put_library default_credentials.secret 168 ⟨put_arrivals, none⟩ =
      [put_packet.response, .timeout, put_packet.response, .socket_error] := by
  have hread : ∀ t ∈ [put_transmission], t.toPacket.Readable := by
    intro t ht
    cases List.mem_singleton.mp ht
    exact put_readable
  have hgroups : ∀ group ∈ [[put_transmission]], ∀ t ∈ group, t.toPacket.Readable := by
    intro group hgroup
    cases List.mem_singleton.mp hgroup
    exact hread
  refine packets_heard hread hgroups ?_ ?_
  · rfl
  · decide +kernel

/-- A timeout in front of a packet is harmless. Inside a packet it loses the bytes that have
arrived, and the thread takes the rest of the packet for the start of one. -/
theorem packet_cut {client : Credentials} {before after : List (Packet lib client)}
    {q : Packet lib client} (hread : ∀ q' ∈ before ++ q :: after, q'.Readable) {p rest : Bytes}
    (hq : q.bytes = p ++ rest) (hrest : rest ≠ [])
    {c : Connection (Arrivals UInt8)} {rounds : ℕ}
    (hc : Segments.bursts c.stream = ⟨before.flatMap Packet.bytes ++ p,
      [rest ++ after.flatMap Packet.bytes]⟩) (hrounds : c.bursts.size < rounds) :
    listen read lib client.secret rounds c = before.map Packet.response ++ .timeout ::
      hear lib client.secret
        ⟨⟨rest ++ after.flatMap Packet.bytes, []⟩, last_id c.connection_id before⟩ ∧
    (p = [] → listen read lib client.secret rounds c =
      before.map Packet.response ++ .timeout ::
        (q.response :: after.map Packet.response ++ [.socket_error])) := by
  have hbefore : ∀ q' ∈ before, q'.Readable := fun q' h => hread q' (List.mem_append_left _ h)
  have hrest' : ∀ q' ∈ q :: after, q'.Readable := fun q' h => hread q' (List.mem_append_right _ h)
  have hthis := hrest' q List.mem_cons_self
  have hstart : c.bursts = ⟨⟨before.flatMap Packet.bytes ++ p,
      [rest ++ after.flatMap Packet.bytes]⟩, c.connection_id⟩ := by
    unfold Connection.bursts
    rw [hc]
  have hlisten : listen read lib client.secret rounds c = before.map Packet.response ++ .timeout ::
      hear lib client.secret
        ⟨⟨rest ++ after.flatMap Packet.bytes, []⟩, last_id c.connection_id before⟩ := by
    rw [← listen_bursts, listen_rounds client.secret hrounds (Nat.lt_succ_self _)]
    change hear lib client.secret c.bursts = _
    rw [hstart, hear_packets hbefore, hear_timeout (async_recv_cut hthis hq hrest _ _ _)]
  refine ⟨hlisten, ?_⟩
  rintro rfl
  rw [List.nil_append] at hq
  have hall := hear_packets hrest' [] [] (last_id c.connection_id before)
  rw [List.append_nil, List.flatMap_cons, hq, hear_closed] at hall
  rw [hlisten, hall]
  rfl

/-- Five bytes of the first of two packets arrive before the timeout: neither is heard. -/
theorem packet_cut_put :
    listen read put_library default_credentials.secret 200
      ⟨[some (put_packet.bytes.take 5), none,
        some (put_packet.bytes.drop 5 ++ [put_packet].flatMap Packet.bytes)], none⟩ =
      [.timeout, .socket_error] := by
  have hread : ∀ q ∈ [] ++ put_packet :: [put_packet], q.Readable := by
    intro q hq
    rcases List.mem_cons.mp hq with rfl | hq
    · exact put_readable
    · cases List.mem_singleton.mp hq
      exact put_readable
  have hbytes := (List.take_append_drop 5 put_packet.bytes).symm
  have hrest : put_packet.bytes.drop 5 ≠ [] := by decide +kernel
  have hbursts : ∀ p rest : Bytes,
      Segments.bursts [some p, none, some rest] = ⟨[] ++ p, [rest]⟩ := by
    intro p rest
    simp only [Segments.bursts, List.append_nil, List.nil_append]
  refine ((packet_cut hread hbytes hrest (hbursts _ _) ?_).1).trans ?_
  · decide +kernel
  · decide +kernel

end

end SmartDisk.KineticListener
