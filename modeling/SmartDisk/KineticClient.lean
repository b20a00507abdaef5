import Mathlib.Data.List.AList

/-!
# The asynchronous client of `kv_client/client.py`

A command takes a place in the queue semaphore, gets the next sequence number,
captures the `callback_delegate` of the moment under it and goes out on the socket.
`_on_response` looks a response up by its `ackSequence`. A response without an
entry goes to the delegate that is set now, and an error that the client reports
about itself carries neither a sequence number nor a key.

`wire` lists the commands the drive has received and not answered. The type `D` of
callbacks is a parameter. Of the commands only `get` is needed, so batches, latency
figures and reconnecting are left out; a command that times out is known by being
in `_pending`, since the time is not modelled.
-/
namespace SmartDisk.KineticClient

abbrev Bytes := List UInt8
abbrev Key := Bytes

/-- `sys.maxint`. No string is longer. -/
def maxint : ℕ := 0x7fffffffffffffff

/-- A Python dictionary. -/
abbrev Dict (K V : Type) := AList fun _ : K => V

/-- `Command.Status.StatusCode`; the codes that only a drive reports are numbered. -/
inductive StatusCode where
  | SUCCESS | EXPIRED | HMAC_FAILURE | NOT_ATTEMPTED | INTERNAL_ERROR
  | drive_error (code : ℕ)
  deriving DecidableEq, Repr

/-- The fields of a response that a callback of this repository reads. -/
structure Command where
  ackSequence : ℕ
  code : StatusCode
  key : Key

/-- `_client_error_callback` leaves both fields at their defaults; the value is empty. -/
def client_error (code : StatusCode) : Command := ⟨0, code, []⟩

/-- What the drive says by a response: a value, or that it failed. -/
def Command.outcome (cmd : Command) (value : Bytes) : Option Bytes :=
  if cmd.code = .SUCCESS then some value else none

structure Client (D : Type) where
  queue_depth : ℕ
  outstanding : ℕ := 0
  sequence : ℕ := 0
  pending : Dict ℕ (Option D) := ∅
  callback_delegate : Option D := none
  wire : List (ℕ × Key) := []

/-- Whom `_on_response` calls. -/
inductive Route (D : Type) where
  | pending (callback : Option D)
  | delegate (callback : D)
  | ignored

namespace Client
variable {D : Type}

/-- `_queue_semaphore.acquire()`; `none` while it blocks. -/
def acquire (c : Client D) : Option (Client D) :=
  if c.outstanding < c.queue_depth then some { c with outstanding := c.outstanding + 1 } else none

def release (c : Client D) : Client D := { c with outstanding := c.outstanding - 1 }

/-- `_update_header`: the entry captures the delegate of this moment. -/
def update_header (c : Client D) : Client D :=
  { c with
    sequence := c.sequence + 1
    pending := c.pending.insert c.sequence c.callback_delegate }

/-- `_packet_send` of a `get`. A socket that refuses the packet leaves the entry behind. -/
def packet_send (c : Client D) (seq : ℕ) (key : Key) : Client D :=
  { c with wire := c.wire ++ [(seq, key)] }

def on_response (c : Client D) (cmd : Command) : Route D :=
  match c.pending.lookup cmd.ackSequence with
  | some callback => .pending callback
  | none =>
      match c.callback_delegate with
      | some callback => .delegate callback
      | none => .ignored

/-- `del self._pending[seq]` and the release of the semaphore. -/
def clean_up (c : Client D) (seq : ℕ) : Client D :=
  { c with pending := c.pending.erase seq }.release

/-- The key of a command on the wire. -/
def asked (c : Client D) (seq : ℕ) : Option Key := (c.wire.find? (·.1 = seq)).map (·.2)

/-- The drive takes up the command `seq`. -/
def answer (c : Client D) (seq : ℕ) : Client D :=
  { c with wire := c.wire.filter fun x => x.1 ≠ seq }

theorem mem_wire_of_asked {c : Client D} {seq : ℕ} {key : Key} (h : c.asked seq = some key) :
    (seq, key) ∈ c.wire := by
  obtain ⟨x, hx, rfl⟩ := Option.map_eq_some_iff.mp h
  obtain rfl : x.1 = seq := by simpa using List.find?_some hx
  exact List.mem_of_find?_eq_some hx

theorem acquire_eq {c c' : Client D} (h : c.acquire = some c') :
    c' = { c with outstanding := c.outstanding + 1 } := by
  unfold acquire at h
  split at h
  · exact (Option.some.inj h).symm
  · cases h

end Client

/-! ### Dictionaries -/

section
variable {K V : Type} [DecidableEq K] {d : Dict K V} {k a : K} {v : V}

theorem lookup_insert_eq : (d.insert a v).lookup k = if k = a then some v else d.lookup k := by
  by_cases h : k = a
  · rw [h, AList.lookup_insert, if_pos rfl]
  · rw [AList.lookup_insert_ne h, if_neg h]

theorem lookup_erase_eq : (d.erase a).lookup k = if k = a then none else d.lookup k := by
  by_cases h : k = a
  · rw [h, AList.lookup_erase, if_pos rfl]
  · rw [AList.lookup_erase_ne h, if_neg h]

/-- Taking an entry out splits the dictionary into that entry and the rest. -/
theorem entries_perm_erase (h : d.lookup k = some v) :
    d.entries.Perm (⟨k, v⟩ :: (d.erase k).entries) := by
  have hmem : ⟨k, v⟩ ∈ d.entries := AList.mem_lookup_iff.mp h
  obtain ⟨w, before, after, -, heq, hrest⟩ := List.exists_of_kerase (List.mem_keys_of_mem hmem)
  have hw : w = v := by
    have hlookup : d.lookup k = some w := AList.mem_lookup_iff.mpr (heq ▸ by simp)
    exact Option.some.inj (hlookup.symm.trans h)
  rw [hw] at heq
  change d.entries.Perm (⟨k, v⟩ :: d.entries.kerase k)
  rw [hrest, heq]
  exact List.perm_middle

/-- How many values of the dictionary have the number `i`. -/
def tally (f : V → ℕ) (d : Dict K V) (i : ℕ) : ℕ := d.entries.countP fun x => f x.2 = i

theorem tally_erase (f : V → ℕ) (h : d.lookup k = some v) (i : ℕ) :
    tally f d i = tally f (d.erase k) i + if f v = i then 1 else 0 := by
  unfold tally
  rw [(entries_perm_erase h).countP_eq, List.countP_cons]
  simp

theorem tally_erase_le (f : V → ℕ) (k : K) (i : ℕ) : tally f (d.erase k) i ≤ tally f d i :=
  List.Sublist.countP_le (List.kerase_sublist k d.entries)

theorem tally_insert (f : V → ℕ) (k : K) (v : V) (i : ℕ) :
    tally f (d.insert k v) i = tally f (d.erase k) i + if f v = i then 1 else 0 := by
  have herase : (d.erase k).entries = d.entries.kerase k := rfl
  simp [tally, AList.entries_insert, List.countP_cons, herase]

theorem erase_of_lookup_none (h : d.lookup k = none) : d.erase k = d :=
  AList.ext (List.kerase_of_notMem_keys (AList.lookup_eq_none.mp h))

theorem tally_pos (f : V → ℕ) (h : d.lookup k = some v) : 0 < tally f d (f v) := by
  rw [tally_erase f h, if_pos rfl]
  exact Nat.succ_pos _

theorem exists_of_tally_pos {f : V → ℕ} {i : ℕ} (h : 0 < tally f d i) :
    ∃ k v, d.lookup k = some v ∧ f v = i := by
  obtain ⟨x, hx, hi⟩ := List.countP_pos_iff.mp h
  exact ⟨x.1, x.2, AList.mem_lookup_iff.mpr hx, of_decide_eq_true hi⟩

omit [DecidableEq K] in
theorem empty_of_keys (h : d.keys = []) : d = ∅ := AList.ext (List.map_eq_nil_iff.mp h)

omit [DecidableEq K] in
@[simp] theorem tally_empty (f : V → ℕ) (i : ℕ) : tally f (∅ : Dict K V) i = 0 := rfl

theorem entries_erase : (d.erase k).entries = d.entries.filter fun x => x.1 ≠ k := by
  change d.entries.kerase k = _
  have hnodup : d.entries.NodupKeys := d.nodupKeys
  generalize d.entries = xs at hnodup ⊢
  induction xs with
  | nil => rfl
  | cons x xs ih =>
      obtain ⟨hnew, hrest⟩ := List.nodupKeys_cons.mp hnodup
      by_cases hx : k = x.1
      · have hall : ∀ y ∈ xs, decide (y.1 ≠ k) = true := by
          intro y hy
          have hy : y.1 ∈ xs.keys := List.mem_keys_of_mem hy
          exact decide_eq_true fun h => hnew (hx ▸ h ▸ hy)
        rw [List.kerase_cons_eq hx, List.filter_cons_of_neg (by simp [hx]),
          List.filter_eq_self.mpr hall]
      · rw [List.kerase_cons_ne hx, List.filter_cons_of_pos (by simpa using Ne.symm hx), ih hrest]

theorem mem_entries {x : Sigma fun _ : K => V} : x ∈ d.entries ↔ d.lookup x.1 = some x.2 :=
  AList.mem_lookup_iff.symm

end

end SmartDisk.KineticClient
