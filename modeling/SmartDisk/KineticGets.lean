import SmartDisk.ActionSystem
import SmartDisk.ClientTracking
import Mathlib.Algebra.BigOperators.Group.List.Basic

/-!
# Getting a whole directory with one client

`gets` of `s3dexp/kinetic/perf.py` issues one `get` after the other, as many at a time as the
queue is deep, and waits until nothing is outstanding. The callback counts the answers and
their bytes in the listener's thread; for an answer that is no success it raises `IOError`,
which nothing in the listener catches, and neither does `gets` when its own thread reports an
error.

The drive answers in any order, with what it has under the key or with a failure. Choosing and
sorting the keys, the printing and the measurement of time are left out, and so is what `close`
does at the end.
-/
namespace SmartDisk.KineticGets
open KineticClient ActionSystem

structure Stats where
  count : ℕ := 0
  size : ℕ := 0
  deriving DecidableEq, Repr

/-- `basic_callback`; `none` when it raises. -/
def basic_callback (cmd : Command) (value : Bytes) (stats : Stats) : Option Stats :=
  if cmd.code = .SUCCESS then some ⟨stats.count + 1, stats.size + value.length⟩ else none

/-- Where `gets` is, with the keys that are still to be issued. -/
inductive Main where
  | next (key_list : List Key)
  | acquire (key : Key) (key_list : List Key)
  | header (key : Key) (key_list : List Key)
  | send (seq : ℕ) (key : Key) (key_list : List Key)
  | clean_up (seq : ℕ) (key_list : List Key)
  | wait_q
  | finished
  | raised

inductive Listener where
  | idle
  | clean_up (seq : ℕ)
  | ended
  | raised

structure State where
  client : Client Unit
  main : Main
  listener : Listener := .idle
  closing : Bool := false
  stats : Stats := {}

/-- What `_on_response` does before it cleans up. -/
inductive Handled where
  | raised
  | counted (stats : Stats) (seq : Option ℕ)

def handle (c : Client Unit) (cmd : Command) (value : Bytes) (stats : Stats) : Handled :=
  match c.on_response cmd with
  | .pending (some _) =>
      match basic_callback cmd value stats with
      | some stats => .counted stats (some cmd.ackSequence)
      | none => .raised
  | .pending none => .counted stats (some cmd.ackSequence)
  | .delegate _ =>
      match basic_callback cmd value stats with
      | some stats => .counted stats none
      | none => .raised
  | .ignored => .counted stats none

/-- The listener after a response has been handled; a socket error ends its loop. -/
def State.rest (s : State) : Listener := if s.closing then .ended else .idle

/-- `_on_response` in the listener. -/
def State.deliver (s : State) (cmd : Command) (value : Bytes) : State :=
  match handle s.client cmd value s.stats with
  | .raised => { s with listener := .raised }
  | .counted stats (some seq) => { s with stats, listener := .clean_up seq }
  | .counted stats none => { s with stats, listener := s.rest }

/-- `_on_response` in the thread of `gets`, for a packet that could not be sent. -/
def State.not_attempted (s : State) (key_list : List Key) : State :=
  match handle s.client (client_error .NOT_ATTEMPTED) [] s.stats with
  | .raised => { s with main := .raised }
  | .counted stats (some seq) => { s with stats, main := .clean_up seq key_list }
  | .counted stats none => { s with stats, main := .next key_list }

/-- An answer of the drive to the command `seq`; without a value it is a failure. -/
def answer (seq : ℕ) (key : Key) (code : ℕ) (value : Option Bytes) : Command :=
  ⟨seq, if value.isSome then .SUCCESS else .drive_error code, key⟩

inductive Action where
  | next
  | acquire
  | header
  | send (accepted : Bool)
  | main_clean_up
  | wait_q
  | drive (seq code : ℕ) (value : Option Bytes)
  | bad_hmac (seq : ℕ)
  | timeout
  | socket_error
  | clean_up

def step : Action → State → Option State
  | .next, s =>
      match s.main with
      | .next [] => some { s with main := .wait_q }
      | .next (key :: key_list) => some { s with main := .acquire key key_list }
      | _ => none
  | .acquire, s =>
      match s.main with
      | .acquire key key_list =>
          s.client.acquire.map fun c => { s with client := c, main := .header key key_list }
      | _ => none
  | .header, s =>
      match s.main with
      | .header key key_list =>
          some { s with
            client := s.client.update_header, main := .send s.client.sequence key key_list }
      | _ => none
  | .send accepted, s =>
      match s.main with
      | .send seq key key_list =>
          if accepted then
            some { s with client := s.client.packet_send seq key, main := .next key_list }
          else some (s.not_attempted key_list)
      | _ => none
  | .main_clean_up, s =>
      match s.main with
      | .clean_up seq key_list =>
          some (if seq ∈ s.client.pending then
            { s with client := s.client.clean_up seq, main := .next key_list }
          else { s with main := .raised })
      | _ => none
  | .wait_q, s =>
      match s.main with
      | .wait_q => if s.client.outstanding = 0 then some { s with main := .finished } else none
      | _ => none
  | .drive seq code value, s =>
      match s.listener with
      | .idle => (s.client.asked seq).map fun key =>
          { s with client := s.client.answer seq }.deliver (answer seq key code value)
            (value.getD [])
      | _ => none
  | .bad_hmac seq, s =>
      match s.listener with
      | .idle => (s.client.asked seq).map fun _ =>
          { s with client := s.client.answer seq }.deliver (client_error .HMAC_FAILURE) []
      | _ => none
  | .timeout, s =>
      match s.listener with
      | .idle =>
          if s.client.pending.keys ≠ [] then some (s.deliver (client_error .EXPIRED) [])
          else none
      | _ => none
  | .socket_error, s =>
      match s.listener with
      | .idle => some ({ s with closing := true }.deliver (client_error .INTERNAL_ERROR) [])
      | _ => none
  | .clean_up, s =>
      match s.listener with
      | .clean_up seq =>
          some (if seq ∈ s.client.pending then
            { s with client := s.client.clean_up seq, listener := s.rest }
          else { s with listener := .raised })
      | _ => none

def gets (queue_depth : ℕ) (key_list : List Key) : System State Action where
  start := ⟨{ queue_depth, callback_delegate := some () }, .next key_list, .idle, false, {}⟩
  step := step

/-! ### The drive -/

variable (content : Key → Option Bytes)

/-- The drive answers with what it has or with a failure. -/
def Faithful : Action → State → Prop
  | .drive seq _ value, s => ∀ key ∈ s.client.asked seq, value = none ∨ value = content key
  | _, _ => True

instance : ∀ a s, Decidable (Faithful content a s)
  | .drive _ _ _, _ => inferInstanceAs (Decidable (∀ _ ∈ _, _))
  | .next, _ | .acquire, _ | .header, _ | .send _, _ | .main_clean_up, _ | .wait_q, _
  | .bad_hmac _, _ | .timeout, _ | .socket_error, _ | .clean_up, _ => .isTrue trivial

/-- The drive answers with what it has, and the client reports no error about itself. -/
def Quiet : Action → State → Prop
  | .drive seq _ value, s => ∀ key ∈ s.client.asked seq, value = content key
  | .send accepted, _ => accepted = true
  | .bad_hmac _, _ | .timeout, _ | .socket_error, _ => False
  | _, _ => True

/-- What is printed when everything has been got. -/
def everything (key_list : List Key) : Stats :=
  ⟨key_list.length, (key_list.map fun key => ((content key).getD []).length).sum⟩

/-! ### What has been counted -/

/-- The command being sent. -/
def Main.sending : Main → List ℕ
  | .send seq _ _ => [seq]
  | _ => []

/-- A place in the semaphore without an entry. -/
def Main.acquired : Main → ℕ
  | .header _ _ => 1
  | _ => 0

/-- The keys without a command on the wire. -/
def Main.keys : Main → List Key
  | .next key_list | .clean_up _ key_list => key_list
  | .acquire key key_list | .header key key_list | .send _ key key_list => key :: key_list
  | .wait_q | .finished | .raised => []

/-- While `gets` has not raised, these keys have been counted, and these commands are taken from
the wire and still pending. A listener that has raised leaves one such command behind, unless
the error was its own. -/
structure Books (key_list : List Key) (s : State) (got : List Key) (handling : List ℕ) :
    Prop where
  delegate : s.client.callback_delegate = some ()
  entries : ∀ seq callback, s.client.pending.lookup seq = some callback → callback = some ()
  tracked : s.client.Tracked s.main.sending handling
  accounted : s.client.Accounted s.main.sending handling s.main.acquired
  reported : ∀ seq keys, s.main ≠ .clean_up seq keys
  idle : s.listener = .idle → handling = []
  cleaning : ∀ seq, s.listener = .clean_up seq → handling = [seq]
  running : s.closing = false ∨ s.listener = .raised
  stats : s.stats = everything content got
  known : ∀ key ∈ got, (content key).isSome
  keys : (s.listener = .raised → handling = []) →
    (got ++ s.client.wire.map (·.2) ++ s.main.keys).Perm key_list
  finished : s.main = .finished → s.client.outstanding = 0

def Inv (key_list : List Key) (s : State) : Prop :=
  s.main = .raised ∨ ∃ got handling, Books content key_list s got handling

variable {content} {key_list : List Key} {s : State} {got : List Key} {handling : List ℕ}

theorem everything_concat (got : List Key) {key : Key} {value : Bytes}
    (hvalue : content key = some value) :
    everything content (got ++ [key]) =
      ⟨(everything content got).count + 1, (everything content got).size + value.length⟩ := by
  unfold everything
  rw [List.length_append, List.map_append, List.sum_append, List.map_singleton, hvalue]
  rfl

/-- An error of the client is no success, whomever it reaches. -/
theorem Books.handle_error (h : Books content key_list s got handling) (code : StatusCode)
    (hcode : code ≠ .SUCCESS) (stats : Stats) :
    handle s.client (client_error code) [] stats = .raised := by
  have hraises : basic_callback (client_error code) [] stats = none := if_neg hcode
  unfold handle Client.on_response
  cases hlookup : s.client.pending.lookup (client_error code).ackSequence with
  | some callback =>
      obtain rfl := h.entries _ _ hlookup
      simp only [hraises]
  | none =>
      rw [h.delegate]
      simp only [hraises]

/-- The answer to a command reaches its entry. -/
theorem Books.handle_answer (h : Books content key_list s got handling) {seq : ℕ}
    (hpending : seq ∈ s.client.pending) (key : Key) (code : ℕ) (value : Option Bytes)
    (stats : Stats) :
    handle (s.client.answer seq) (answer seq key code value) (value.getD []) stats =
      match value with
      | some value => .counted ⟨stats.count + 1, stats.size + value.length⟩ (some seq)
      | none => .raised := by
  obtain ⟨callback, hlookup⟩ := Option.isSome_iff_exists.mp (AList.lookup_isSome.mpr hpending)
  obtain rfl := h.entries _ _ hlookup
  unfold handle Client.on_response
  rw [show (s.client.answer seq).pending = s.client.pending from rfl,
    show (answer seq key code value).ackSequence = seq from rfl, hlookup]
  cases value with
  | none => rfl
  | some value => rfl

/-- An error of its own ends the listener, and leaves everything else as it is. -/
theorem Books.fail (h : Books content key_list s got handling) (hidle : s.listener = .idle)
    (code : StatusCode) (hcode : code ≠ .SUCCESS) (closing : Bool) :
    Books content key_list
      ({ s with closing := closing }.deliver (client_error code) []) got handling := by
  have hraised : handle s.client (client_error code) [] s.stats = .raised :=
    h.handle_error code hcode s.stats
  unfold State.deliver
  rw [hraised]
  exact
    { h with
      idle := fun hl => by cases hl
      cleaning := fun seq hl => by cases hl
      running := .inr rfl
      keys := fun _ => h.keys fun hl => by rw [hidle] at hl; cases hl }

/-- The drive answers a command, well or badly. -/
theorem Books.answer (h : Books content key_list s got handling) (hidle : s.listener = .idle)
    {seq code : ℕ} {key : Key} {value : Option Bytes} (hasked : s.client.asked seq = some key)
    (hvalue : value = none ∨ value = content key) :
    ∃ got handling, Books content key_list
      ({ s with client := s.client.answer seq }.deliver (answer seq key code value)
        (value.getD [])) got handling := by
  have hmem := Client.mem_wire_of_asked hasked
  have hwire : seq ∈ s.client.wire.map Prod.fst := List.mem_map_of_mem hmem
  have hnone := h.idle hidle
  subst hnone
  have htracked := h.tracked.answer hwire
  have haccounted := h.accounted.answer h.tracked hwire
  have hnodup : (s.client.wire.map Prod.fst).Nodup :=
    h.tracked.once.sublist ((List.sublist_append_right _ _).trans (List.sublist_append_left _ _))
  have hperm := Client.wire_perm hnodup hmem
  have hhandle := h.handle_answer (h.tracked.known_of_wire hwire) key code value s.stats
  have hclosing : s.closing = false := h.running.resolve_right fun hl => by
    rw [hidle] at hl
    cases hl
  unfold State.deliver
  rw [hhandle]
  cases value with
  | none =>
      exact ⟨got, [seq],
        { h with
          tracked := htracked
          accounted := haccounted
          idle := fun hl => by cases hl
          cleaning := fun seq hl => by cases hl
          running := .inr rfl
          keys := fun hl => by cases hl rfl }⟩
  | some bytes =>
      have hcontent : content key = some bytes := (hvalue.resolve_left nofun).symm
      refine ⟨got ++ [key], [seq],
        { h with
          tracked := htracked
          accounted := haccounted
          idle := fun hl => by cases hl
          cleaning := fun k hl => by cases hl; rfl
          running := .inl hclosing
          stats := by
            rw [everything_concat got hcontent, ← h.stats]
          known := fun k hk => ?_
          keys := fun _ => ?_ }⟩
      · rcases List.mem_append.mp hk with hk | hk
        · exact h.known k hk
        · rw [List.mem_singleton.mp hk, hcontent]
          rfl
      · have hkeys := h.keys fun _ => rfl
        refine List.Perm.trans ?_ hkeys
        rw [List.append_assoc, List.append_assoc, List.append_assoc]
        refine List.Perm.append_left got ?_
        exact (List.Perm.append_right s.main.keys hperm).symm

theorem Books.taken_badly (h : Books content key_list s got handling) (hidle : s.listener = .idle)
    {seq : ℕ} {key : Key} (hasked : s.client.asked seq = some key) :
    Books content key_list
      ({ s with client := s.client.answer seq }.deliver (client_error .HMAC_FAILURE) []) got
      [seq] := by
  have hwire : seq ∈ s.client.wire.map Prod.fst :=
    List.mem_map_of_mem (Client.mem_wire_of_asked hasked)
  have hnone := h.idle hidle
  subst hnone
  have hraised : handle (s.client.answer seq) (client_error .HMAC_FAILURE) [] s.stats = .raised :=
    h.handle_error .HMAC_FAILURE (by decide) s.stats
  unfold State.deliver
  rw [hraised]
  exact
    { h with
      tracked := h.tracked.answer hwire
      accounted := h.accounted.answer h.tracked hwire
      idle := fun hl => by cases hl
      cleaning := fun seq hl => by cases hl
      running := .inr rfl
      keys := fun hl => by cases hl rfl }

/-- Moves of `gets` that leave the client alone. -/
theorem Books.move (h : Books content key_list s got handling) {m : Main}
    (hsending : m.sending = s.main.sending) (hacquired : m.acquired = s.main.acquired)
    (hreported : ∀ seq keys, m ≠ .clean_up seq keys) (hkeys : m.keys = s.main.keys)
    (hfinished : m = .finished → s.client.outstanding = 0) :
    Books content key_list { s with main := m } got handling :=
  { h with
    tracked := hsending ▸ h.tracked
    accounted := hsending ▸ hacquired ▸ h.accounted
    reported := hreported
    keys := fun hl => hkeys ▸ h.keys hl
    finished := hfinished }

theorem Books.acquire (h : Books content key_list s got handling) {key : Key}
    {keys : List Key} (hmain : s.main = .acquire key keys) {c : Client Unit}
    (hc : s.client.acquire = some c) :
    Books content key_list { s with client := c, main := .header key keys } got handling := by
  have htracked := h.tracked
  have haccounted := h.accounted
  have hkeys := h.keys
  rw [hmain] at htracked haccounted hkeys
  have hcacquire := Client.acquire_eq hc
  exact
    { h with
      delegate := by rw [hcacquire]; exact h.delegate
      entries := by rw [hcacquire]; exact h.entries
      tracked := htracked.acquire hc
      accounted := haccounted.acquire hc
      reported := fun _ _ hm => by cases hm
      keys := by rw [hcacquire]; exact hkeys
      finished := fun hm => by cases hm }

theorem Books.header (h : Books content key_list s got handling) {key : Key}
    {keys : List Key} (hmain : s.main = .header key keys) :
    Books content key_list { s with
      client := s.client.update_header, main := .send s.client.sequence key keys } got
      handling := by
  have htracked := h.tracked
  have haccounted := h.accounted
  have hkeys := h.keys
  rw [hmain] at htracked haccounted hkeys
  exact
    { h with
      entries := fun seq callback hlookup => by
        change (s.client.pending.insert _ _).lookup seq = _ at hlookup
        rw [lookup_insert_eq, h.delegate] at hlookup
        split at hlookup
        · exact (Option.some.inj hlookup).symm
        · exact h.entries seq callback hlookup
      tracked := htracked.update_header
      accounted := haccounted.update_header htracked
      reported := fun _ _ hm => by cases hm
      keys := hkeys
      finished := fun hm => by cases hm }

theorem Books.send (h : Books content key_list s got handling) {seq : ℕ} {key : Key}
    {keys : List Key} (hmain : s.main = .send seq key keys) :
    Books content key_list { s with
      client := s.client.packet_send seq key, main := .next keys } got handling := by
  have htracked := h.tracked
  have haccounted := h.accounted
  have hkeys := h.keys
  rw [hmain] at htracked haccounted hkeys
  exact
    { h with
      tracked := htracked.packet_send
      accounted := haccounted.packet_send
      reported := fun _ _ hm => by cases hm
      keys := fun hl => by
        have hmoved : got ++ (s.client.packet_send seq key).wire.map (·.2) ++ keys =
            got ++ s.client.wire.map (·.2) ++ (key :: keys) := by
          unfold Client.packet_send
          rw [List.map_append, List.append_cons _ key keys, ← List.append_assoc]
          rfl
        exact hmoved ▸ hkeys hl
      finished := fun hm => by cases hm }

/-- The entry of a command is taken out after its callback. -/
theorem Books.clean_up (h : Books content key_list s got handling) {seq : ℕ}
    (hlistener : s.listener = .clean_up seq) :
    seq ∈ s.client.pending ∧ Books content key_list { s with
      client := s.client.clean_up seq, listener := s.rest } got [] := by
  have hhandling := h.cleaning seq hlistener
  subst hhandling
  have hclosing : s.closing = false := h.running.resolve_right fun hl => by
    rw [hlistener] at hl
    cases hl
  have hrest : s.rest = .idle := by
    unfold State.rest
    rw [hclosing]
    rfl
  refine ⟨h.tracked.known_of_handling (List.mem_singleton_self seq), ?_⟩
  rw [hrest]
  exact
    { h with
      entries := fun k callback hk => by
        change (s.client.pending.erase seq).lookup k = _ at hk
        rw [lookup_erase_eq] at hk
        split at hk
        · cases hk
        · exact h.entries k callback hk
      tracked := h.tracked.clean_up
      accounted := h.accounted.clean_up h.tracked
      idle := fun _ => rfl
      cleaning := fun _ hl => by cases hl
      running := .inl hclosing
      keys := fun _ => h.keys fun hl => by rw [hlistener] at hl; cases hl
      finished := fun hm => by
        change s.client.outstanding - 1 = 0
        rw [h.finished hm] }

/-- When nothing is outstanding every key has been counted. -/
theorem Books.settled (h : Books content key_list s got handling)
    (hkeys : s.main.keys = []) (hout : s.client.outstanding = 0) :
    s.client.wire = [] ∧ handling = [] ∧ got.Perm key_list := by
  have hempty : s.client.pending.keys = [] :=
    List.eq_nil_of_length_eq_zero (by have := h.accounted.count; omega)
  have hissued : s.client.issued s.main.sending handling = [] := by
    rw [List.eq_nil_iff_forall_not_mem]
    intro seq hseq
    have hin : seq ∈ s.client.pending.keys := h.tracked.known seq hseq
    rw [hempty] at hin
    cases hin
  obtain ⟨hfront, hhandling⟩ := List.append_eq_nil_iff.mp hissued
  have hwire := List.map_eq_nil_iff.mp (List.append_eq_nil_iff.mp hfront).2
  refine ⟨hwire, hhandling, ?_⟩
  have hperm := h.keys fun _ => hhandling
  rwa [hwire, hkeys, List.map_nil, List.append_nil, List.append_nil] at hperm

/-! ### Runs -/

variable (content key_list) in
theorem inv_start (queue_depth : ℕ) : Inv content key_list (gets queue_depth key_list).start := by
  refine .inr ⟨[], [], ?_⟩
  exact
    { delegate := rfl
      entries := fun seq callback hl => by cases hl
      tracked := .start rfl rfl
      accounted := .start rfl rfl
      reported := fun _ _ hm => by cases hm
      idle := fun _ => rfl
      cleaning := fun _ hl => by cases hl
      running := .inl rfl
      stats := rfl
      known := fun _ hk => absurd hk List.not_mem_nil
      keys := fun _ => .refl _
      finished := fun hm => by cases hm }

theorem Inv.step (h : Inv content key_list s) {a : Action} {t : State}
    (hguard : Faithful content a s) (hstep : KineticGets.step a s = some t) :
    Inv content key_list t := by
  rcases h with hraised | ⟨got, handling, h⟩
  · left
    cases a with
    | next | acquire | header | send | main_clean_up | wait_q =>
        simp only [KineticGets.step, hraised] at hstep
        cases hstep
    | drive seq code value =>
        simp only [KineticGets.step] at hstep
        split at hstep
        · obtain ⟨key, -, rfl⟩ := Option.map_eq_some_iff.mp hstep
          unfold State.deliver
          split <;> exact hraised
        · cases hstep
    | bad_hmac seq =>
        simp only [KineticGets.step] at hstep
        split at hstep
        · obtain ⟨key, -, rfl⟩ := Option.map_eq_some_iff.mp hstep
          unfold State.deliver
          split <;> exact hraised
        · cases hstep
    | timeout =>
        simp only [KineticGets.step] at hstep
        split at hstep
        · split at hstep <;> cases hstep
          unfold State.deliver
          split <;> exact hraised
        · cases hstep
    | socket_error =>
        simp only [KineticGets.step] at hstep
        split at hstep <;> cases hstep
        unfold State.deliver
        split <;> exact hraised
    | clean_up =>
        simp only [KineticGets.step] at hstep
        split at hstep <;> cases hstep
        split <;> exact hraised
  · cases a with
    | next =>
        simp only [KineticGets.step] at hstep
        split at hstep <;> cases hstep
        · next hmain =>
            exact .inr ⟨got, handling, h.move (by rw [hmain]; rfl) (by rw [hmain]; rfl)
              (fun _ _ hm => by cases hm) (by rw [hmain]; rfl) fun hm => by cases hm⟩
        · next key keys hmain =>
            exact .inr ⟨got, handling, h.move (by rw [hmain]; rfl) (by rw [hmain]; rfl)
              (fun _ _ hm => by cases hm) (by rw [hmain]; rfl) fun hm => by cases hm⟩
    | acquire =>
        simp only [KineticGets.step] at hstep
        split at hstep
        · next key keys hmain =>
            obtain ⟨c, hc, rfl⟩ := Option.map_eq_some_iff.mp hstep
            exact .inr ⟨got, handling, h.acquire hmain hc⟩
        · cases hstep
    | header =>
        simp only [KineticGets.step] at hstep
        split at hstep <;> cases hstep
        next key keys hmain => exact .inr ⟨got, handling, h.header hmain⟩
    | send accepted =>
        simp only [KineticGets.step] at hstep
        split at hstep
        · next seq key keys hmain =>
            cases accepted with
            | true =>
                cases hstep
                exact .inr ⟨got, handling, h.send hmain⟩
            | false =>
                cases hstep
                left
                unfold State.not_attempted
                rw [h.handle_error .NOT_ATTEMPTED (by decide)]
        · cases hstep
    | main_clean_up =>
        simp only [KineticGets.step] at hstep
        split at hstep <;> cases hstep
        next seq keys hmain => exact absurd hmain (h.reported seq keys)
    | wait_q =>
        simp only [KineticGets.step] at hstep
        split at hstep
        · next hmain =>
            split at hstep <;> cases hstep
            next hout =>
              exact .inr ⟨got, handling, h.move (by rw [hmain]; rfl) (by rw [hmain]; rfl)
                (fun _ _ hm => by cases hm) (by rw [hmain]; rfl) fun _ => hout⟩
        · cases hstep
    | drive seq code value =>
        simp only [KineticGets.step] at hstep
        split at hstep
        · next hidle =>
            obtain ⟨key, hasked, rfl⟩ := Option.map_eq_some_iff.mp hstep
            exact .inr (h.answer hidle hasked (hguard key hasked))
        · cases hstep
    | bad_hmac seq =>
        simp only [KineticGets.step] at hstep
        split at hstep
        · next hidle =>
            obtain ⟨key, hasked, rfl⟩ := Option.map_eq_some_iff.mp hstep
            exact .inr ⟨got, [seq], h.taken_badly hidle hasked⟩
        · cases hstep
    | timeout =>
        simp only [KineticGets.step] at hstep
        split at hstep
        · next hidle =>
            split at hstep <;> cases hstep
            exact .inr ⟨got, handling, h.fail hidle .EXPIRED (by decide) s.closing⟩
        · cases hstep
    | socket_error =>
        simp only [KineticGets.step] at hstep
        split at hstep <;> cases hstep
        next hidle =>
          exact .inr ⟨got, handling, h.fail hidle .INTERNAL_ERROR (by decide) true⟩
    | clean_up =>
        simp only [KineticGets.step] at hstep
        split at hstep <;> cases hstep
        next seq hlistener =>
          obtain ⟨hpending, hnext⟩ := h.clean_up hlistener
          rw [if_pos hpending]
          exact .inr ⟨got, [], hnext⟩

theorem everything_perm {keys keys' : List Key} (h : keys.Perm keys') :
    everything content keys = everything content keys' := by
  unfold everything
  rw [h.length_eq, (h.map _).sum_eq]

/-- In every run, whatever fails on the way and in whatever order the drive answers: when `gets`
gets to its end, the drive has every key, and each has been counted once with all its bytes. -/
theorem gets_counts {queue_depth : ℕ} {s : State}
    (hs : (gets queue_depth key_list).ReachableWith (Faithful content) s)
    (hfinished : s.main = .finished) :
    s.stats = everything content key_list ∧ ∀ key ∈ key_list, (content key).isSome := by
  have hinv : Inv content key_list s := by
    refine hs.invariant (I := Inv content key_list) (inv_start content key_list queue_depth) ?_
    exact fun a s t h hguard hstep => h.step hguard hstep
  rcases hinv with hraised | ⟨got, handling, h⟩
  · rw [hfinished] at hraised
    cases hraised
  · obtain ⟨-, -, hperm⟩ := h.settled (by rw [hfinished]; rfl) (h.finished hfinished)
    refine ⟨h.stats.trans (everything_perm hperm), fun key hkey => ?_⟩
    exact h.known key (hperm.mem_iff.mpr hkey)

/-- Two keys, answered in the other order. -/
def reordered : List Action :=
  [.next, .acquire, .header, .send true, .next, .acquire, .header, .send true, .next,
    .drive 1 0 (some [7, 7]), .clean_up, .drive 0 0 (some [7]), .clean_up, .wait_q]

/-- As many bytes as the key says. -/
def sevens (key : Key) : Option Bytes := key.head?.map fun n => List.replicate n.toNat 7

theorem gets_counts_reordered :
    ∃ s, (gets 16 [[1], [2]]).exec reordered (gets 16 [[1], [2]]).start = some s ∧
      s.stats = ⟨2, 3⟩ := by
  refine ⟨_, rfl, ?_⟩
  have hs := System.ReachableWith.start.exec (M := gets 16 [[1], [2]]) (G := Faithful sevens)
    reordered (by decide) rfl
  exact (gets_counts hs rfl).1

/-! ### Runs without an error of the client -/

theorem Quiet.faithful {a : Action} (h : Quiet content a s) : Faithful content a s := by
  cases a with
  | drive seq code value => exact fun key hkey => .inr (h key hkey)
  | _ => exact trivial

/-- Nobody has raised. -/
structure Calm (content : Key → Option Bytes) (queue_depth : ℕ) (key_list : List Key) (s : State) :
    Prop where
  books : ∃ got handling, Books content key_list s got handling
  main : s.main ≠ .raised
  listener : s.listener = .idle ∨ ∃ seq, s.listener = .clean_up seq
  depth : s.client.queue_depth = queue_depth

theorem Calm.step {queue_depth : ℕ} (hhas : ∀ key ∈ key_list, (content key).isSome)
    (h : Calm content queue_depth key_list s) {a : Action} {t : State}
    (hquiet : Quiet content a s) (hstep : KineticGets.step a s = some t) :
    Calm content queue_depth key_list t := by
  obtain ⟨⟨got, handling, hbooks⟩, hmain, hlistener, hdepth⟩ := h
  have hinv := Inv.step (.inr ⟨got, handling, hbooks⟩) hquiet.faithful hstep
  have hcalm : ∀ t : State, Inv content key_list t → t.main ≠ .raised →
      (t.listener = .idle ∨ ∃ seq, t.listener = .clean_up seq) →
      t.client.queue_depth = queue_depth → Calm content queue_depth key_list t :=
    fun t hinv hmain hlistener hdepth =>
      ⟨hinv.resolve_left hmain, hmain, hlistener, hdepth⟩
  cases a with
  | next =>
      simp only [KineticGets.step] at hstep
      split at hstep <;> cases hstep
      · exact hcalm _ hinv (by simp) hlistener hdepth
      · exact hcalm _ hinv (by simp) hlistener hdepth
  | acquire =>
      simp only [KineticGets.step] at hstep
      split at hstep
      · obtain ⟨c, hc, rfl⟩ := Option.map_eq_some_iff.mp hstep
        refine hcalm _ hinv (by simp) hlistener ?_
        rw [Client.acquire_eq hc]
        exact hdepth
      · cases hstep
  | header =>
      simp only [KineticGets.step] at hstep
      split at hstep <;> cases hstep
      exact hcalm _ hinv (by simp) hlistener hdepth
  | send accepted =>
      cases hquiet
      simp only [KineticGets.step] at hstep
      split at hstep <;> cases hstep
      exact hcalm _ hinv (by simp) hlistener hdepth
  | main_clean_up =>
      simp only [KineticGets.step] at hstep
      split at hstep <;> cases hstep
      next seq keys hreport => exact absurd hreport (hbooks.reported seq keys)
  | wait_q =>
      simp only [KineticGets.step] at hstep
      split at hstep
      · split at hstep <;> cases hstep
        exact hcalm _ hinv (by simp) hlistener hdepth
      · cases hstep
  | drive seq code value =>
      simp only [KineticGets.step] at hstep
      split at hstep
      · next hidle =>
          obtain ⟨key, hasked, rfl⟩ := Option.map_eq_some_iff.mp hstep
          have hmem := Client.mem_wire_of_asked hasked
          have hwire : seq ∈ s.client.wire.map Prod.fst := List.mem_map_of_mem hmem
          have hkey : key ∈ key_list := by
            have hperm := hbooks.keys fun hl => by rw [hidle] at hl; cases hl
            refine hperm.mem_iff.mp (List.mem_append_left _ (List.mem_append_right _ ?_))
            exact List.mem_map.mpr ⟨_, hmem, rfl⟩
          obtain ⟨bytes, hbytes⟩ := Option.isSome_iff_exists.mp (hhas key hkey)
          have hvalue : value = some bytes := (hquiet key hasked).trans hbytes
          subst hvalue
          have hhandle := hbooks.handle_answer (hbooks.tracked.known_of_wire hwire) key code
            (some bytes) s.stats
          unfold State.deliver at hinv ⊢
          simp only [hhandle] at hinv ⊢
          exact hcalm _ hinv hmain (.inr ⟨seq, rfl⟩) hdepth
      · cases hstep
  | bad_hmac seq => exact absurd hquiet id
  | timeout => exact absurd hquiet id
  | socket_error => exact absurd hquiet id
  | clean_up =>
      simp only [KineticGets.step] at hstep
      split at hstep <;> cases hstep
      next seq hclean =>
        obtain ⟨hpending, -⟩ := hbooks.clean_up hclean
        rw [if_pos hpending] at hinv ⊢
        have hclosing : s.closing = false := hbooks.running.resolve_right fun hl => by
          rw [hclean] at hl
          cases hl
        refine hcalm _ hinv hmain (.inl ?_) hdepth
        change s.rest = _
        unfold State.rest
        rw [hclosing]
        rfl

/-- A command that is pending is on its way. -/
theorem Calm.pending_moves {queue_depth : ℕ} (h : Calm content queue_depth key_list s)
    (hsending : s.main.sending = []) (hpending : ∃ seq, seq ∈ s.client.pending) :
    ∃ a, Quiet content a s ∧ (KineticGets.step a s).isSome := by
  obtain ⟨⟨got, handling, hbooks⟩, -, hidle | ⟨k, hclean⟩, -⟩ := h
  · obtain ⟨seq, hseq⟩ := hpending
    have hissued := hbooks.accounted.used seq hseq
    have hnone := hbooks.idle hidle
    unfold Client.issued at hissued
    rw [hsending, hnone, List.nil_append, List.append_nil] at hissued
    obtain ⟨key, hkey⟩ := Client.asked_of_mem_wire hissued
    refine ⟨.drive seq 0 (content key), ?_, ?_⟩
    · intro key' hkey'
      rw [Option.mem_def, hkey] at hkey'
      rw [Option.some.inj hkey']
    · simp only [KineticGets.step, hidle, hkey, Option.map_some, Option.isSome_some]
  · refine ⟨.clean_up, trivial, ?_⟩
    simp only [KineticGets.step, hclean, Option.isSome_some]

/-- Until the end somebody can go on. -/
theorem Calm.progress {queue_depth : ℕ} (h : Calm content queue_depth key_list s)
    (hdepth : 0 < queue_depth) (hfinished : s.main ≠ .finished) :
    ∃ a, Quiet content a s ∧ (KineticGets.step a s).isSome := by
  obtain ⟨got, handling, hbooks⟩ := h.books
  have haccounted := hbooks.accounted
  cases hmain : s.main with
  | finished => exact absurd hmain hfinished
  | raised => exact absurd hmain h.main
  | clean_up seq keys => exact absurd hmain (hbooks.reported seq keys)
  | next keys =>
      refine ⟨.next, trivial, ?_⟩
      cases keys <;> simp only [KineticGets.step, hmain, Option.isSome_some]
  | acquire key keys =>
      cases hc : s.client.acquire with
      | some c =>
          refine ⟨.acquire, trivial, ?_⟩
          simp only [KineticGets.step, hmain, hc, Option.map_some, Option.isSome_some]
      | none =>
          rw [hmain] at haccounted
          have hblocked := haccounted.blocked (h.depth ▸ hdepth) hc
          exact h.pending_moves (by rw [hmain]; rfl) hblocked
  | header key keys =>
      refine ⟨.header, trivial, ?_⟩
      simp only [KineticGets.step, hmain, Option.isSome_some]
  | send seq key keys =>
      refine ⟨.send true, rfl, ?_⟩
      simp only [KineticGets.step, hmain, if_true, Option.isSome_some]
  | wait_q =>
      by_cases hout : s.client.outstanding = 0
      · refine ⟨.wait_q, trivial, ?_⟩
        simp only [KineticGets.step, hmain, if_pos hout, Option.isSome_some]
      · have hcount := haccounted.count
        rw [hmain] at hcount
        change s.client.outstanding = s.client.pending.keys.length + 0 at hcount
        obtain ⟨seq, hseq⟩ := List.exists_mem_of_length_pos (l := s.client.pending.keys) (by omega)
        exact h.pending_moves (by rw [hmain]; rfl) ⟨seq, hseq⟩

/-- Six steps for a key, two of which begin on the wire. -/
def Main.rank : Main → ℕ
  | .next keys => 6 * keys.length + 2
  | .acquire _ keys => 6 * keys.length + 7
  | .header _ keys => 6 * keys.length + 6
  | .send _ _ keys => 6 * keys.length + 5
  | .clean_up _ keys => 6 * keys.length + 3
  | .wait_q => 1
  | .finished | .raised => 0

def Listener.rank : Listener → ℕ
  | .clean_up _ => 1
  | _ => 0

def State.rank (s : State) : ℕ := s.main.rank + 2 * s.client.wire.length + s.listener.rank

theorem rest_rank (s : State) : s.rest.rank = 0 := by
  unfold State.rest
  split <;> rfl

theorem deliver_rank (s : State) (cmd : Command) (value : Bytes) :
    (s.deliver cmd value).rank ≤ s.main.rank + 2 * s.client.wire.length + 1 := by
  unfold State.deliver
  split
  · exact Nat.le_succ _
  · exact Nat.le_refl _
  · unfold State.rank
    rw [show State.listener _ = s.rest from rfl, rest_rank]
    exact Nat.le_succ _

/-- A step of `gets` alone. -/
theorem rank_lt {t : State} (hlistener : t.listener = s.listener)
    (h : t.main.rank + 2 * t.client.wire.length < s.main.rank + 2 * s.client.wire.length) :
    t.rank < s.rank := by
  unfold State.rank
  rw [hlistener]
  exact Nat.add_lt_add_right h _

theorem rank_decreases {a : Action} {t : State} (hquiet : Quiet content a s)
    (hstep : KineticGets.step a s = some t) : t.rank < s.rank := by
  cases a with
  | next =>
      simp only [KineticGets.step] at hstep
      split at hstep <;> cases hstep
      · next hmain =>
          refine rank_lt rfl (Nat.add_lt_add_right ?_ (2 * s.client.wire.length))
          rw [hmain]
          exact Nat.lt_succ_self 1
      · next key keys hmain =>
          refine rank_lt rfl (Nat.add_lt_add_right ?_ (2 * s.client.wire.length))
          rw [hmain]
          change 6 * keys.length + 7 < 6 * (keys.length + 1) + 2
          omega
  | acquire =>
      simp only [KineticGets.step] at hstep
      split at hstep
      · next key keys hmain =>
          obtain ⟨c, hc, rfl⟩ := Option.map_eq_some_iff.mp hstep
          rw [Client.acquire_eq hc]
          refine rank_lt rfl (Nat.add_lt_add_right ?_ (2 * s.client.wire.length))
          rw [hmain]
          exact Nat.lt_succ_self _
      · cases hstep
  | header =>
      simp only [KineticGets.step] at hstep
      split at hstep <;> cases hstep
      next key keys hmain =>
        refine rank_lt rfl (Nat.add_lt_add_right ?_ (2 * s.client.wire.length))
        rw [hmain]
        exact Nat.lt_succ_self _
  | send accepted =>
      cases hquiet
      simp only [KineticGets.step] at hstep
      split at hstep <;> cases hstep
      next seq key keys hmain =>
        refine rank_lt rfl ?_
        rw [hmain]
        change 6 * keys.length + 2 + 2 * (s.client.wire ++ [(seq, key)]).length <
          6 * keys.length + 5 + 2 * s.client.wire.length
        rw [List.length_append, List.length_singleton]
        omega
  | main_clean_up =>
      simp only [KineticGets.step] at hstep
      split at hstep <;> cases hstep
      next seq keys hmain =>
        split
        · refine rank_lt rfl (Nat.add_lt_add_right ?_ (2 * s.client.wire.length))
          rw [hmain]
          exact Nat.lt_succ_self _
        · refine rank_lt rfl (Nat.add_lt_add_right ?_ (2 * s.client.wire.length))
          rw [hmain]
          exact Nat.succ_pos _
  | wait_q =>
      simp only [KineticGets.step] at hstep
      split at hstep
      · next hmain =>
          split at hstep <;> cases hstep
          refine rank_lt rfl (Nat.add_lt_add_right ?_ (2 * s.client.wire.length))
          rw [hmain]
          exact Nat.one_pos
      · cases hstep
  | drive seq code value =>
      simp only [KineticGets.step] at hstep
      split at hstep
      · obtain ⟨key, hasked, rfl⟩ := Option.map_eq_some_iff.mp hstep
        have hle := deliver_rank { s with client := s.client.answer seq }
          (answer seq key code value) (value.getD [])
        have hlt : (s.client.wire.filter fun x => x.1 ≠ seq).length < s.client.wire.length :=
          List.length_filter_lt_length_iff_exists.mpr
            ⟨_, Client.mem_wire_of_asked hasked, by simp⟩
        change _ ≤ s.main.rank + 2 * (s.client.wire.filter fun x => x.1 ≠ seq).length + 1 at hle
        unfold State.rank at hle ⊢
        omega
      · cases hstep
  | bad_hmac seq => exact absurd hquiet id
  | timeout => exact absurd hquiet id
  | socket_error => exact absurd hquiet id
  | clean_up =>
      simp only [KineticGets.step] at hstep
      split at hstep <;> cases hstep
      next seq hclean =>
        split
        · unfold State.rank
          rw [show State.listener _ = s.rest from rfl, rest_rank, hclean]
          exact Nat.lt_succ_self _
        · unfold State.rank
          rw [hclean]
          exact Nat.lt_succ_self _

/-- A run without an error of the client is at most this long. -/
theorem run_length_le {queue_depth : ℕ} {as : List Action} {t : State}
    (hquiet : (gets queue_depth key_list).Guarded (Quiet content) as
      (gets queue_depth key_list).start)
    (h : (gets queue_depth key_list).exec as (gets queue_depth key_list).start = some t) :
    as.length ≤ 6 * key_list.length + 2 := by
  have hle := System.length_le_rank State.rank (I := fun _ => True)
    (fun _ _ _ _ _ _ => trivial)
    (fun a s t _ hquiet hstep => rank_decreases hquiet hstep) as trivial hquiet h
  have hstart : (gets queue_depth key_list).start.rank = 6 * key_list.length + 2 := rfl
  omega

/-- Without an error of the client no run of `gets` goes on for ever, and every one whose queue
has room comes to its end, whatever the order of the answers, if and only if the drive has every
key. -/
theorem gets_finishes_iff (content : Key → Option Bytes) (queue_depth : ℕ)
    (key_list : List Key) :
    (∀ as t, (gets queue_depth key_list).Guarded (Quiet content) as
        (gets queue_depth key_list).start →
      (gets queue_depth key_list).exec as (gets queue_depth key_list).start = some t →
      as.length ≤ 6 * key_list.length + 2) ∧
    (0 < queue_depth →
      ((∀ s, (gets queue_depth key_list).ReachableWith (Quiet content) s →
        (∀ a, Quiet content a s → step a s = none) → s.main = .finished) ↔
        ∀ key ∈ key_list, (content key).isSome)) := by
  refine ⟨fun as t hquiet h => run_length_le hquiet h, fun hdepth => ?_⟩
  constructor
  · intro h
    obtain ⟨t, ht, -, hsettled⟩ :=
      (System.ReachableWith.start (M := gets queue_depth key_list)
        (G := Quiet content)).exists_settled (I := fun _ => True) (H := Quiet content) State.rank
        (fun _ _ h => h) (fun _ _ _ _ _ _ => trivial)
        (fun a s t _ hquiet hstep => rank_decreases hquiet hstep) trivial
    exact (gets_counts (ht.mono fun _ _ => Quiet.faithful) (h t ht hsettled)).2
  · intro hhas s hs hsettled
    have hcalm : Calm content queue_depth key_list s := by
      refine hs.invariant (I := Calm content queue_depth key_list) ?_ ?_
      · refine ⟨(inv_start content key_list queue_depth).resolve_left ?_, ?_, .inl rfl, rfl⟩
        · exact fun hm => by cases hm
        · exact fun hm => by cases hm
      · exact fun a s t h hquiet hstep => h.step hhas hquiet hstep
    by_contra hfinished
    obtain ⟨a, hquiet, hsome⟩ := hcalm.progress hdepth hfinished
    rw [hsettled a hquiet] at hsome
    cases hsome

theorem gets_finishes_two :
    (∀ s, (gets 16 [[1], [2]]).ReachableWith (Quiet sevens) s →
      (∀ a, Quiet sevens a s → step a s = none) → s.main = .finished) ∧
    ¬ ∀ s, (gets 16 [[1], []]).ReachableWith (Quiet sevens) s →
      (∀ a, Quiet sevens a s → step a s = none) → s.main = .finished := by
  have hdepth : 0 < 16 := by decide
  constructor
  · exact ((gets_finishes_iff sevens 16 [[1], [2]]).2 hdepth).mpr (by decide)
  · intro h
    exact absurd (((gets_finishes_iff sevens 16 [[1], []]).2 hdepth).mp h) (by decide)

end SmartDisk.KineticGets
