import SmartDisk.ClientTracking
import SmartDisk.SlotCallbacks

/-!
# What the web application guarantees

With a drive that answers each command once, every response finds its entry, so the
invariant holds of all runs. With errors of the client it holds as long as each of them
is attributed to an entry; one that goes to the delegate instead can end a request early, and
then the late response is written into a slot of somebody else.
-/
namespace SmartDisk.SlotProtocol
open KineticClient ActionSystem

variable {n : ℕ}

theorem owned_step (s₀ : State n) : (app_from s₀).Preserves Attributed Owned := by
  intro a s t h hg hst
  cases step_cases hst with
  | call k endpoint text hpc => exact h.call hpc endpoint text
  | pop k i hpc hi => exact h.pop hpc hi
  | none_left k hpc hnone => exact h.none_left hpc
  | put k i hpc => exact h.put hpc
  | poll k i hpc hlen => exact h.poll hpc hlen
  | empty k i hpc hlen => exact h.empty hpc hlen
  | read k i hpc hlen => exact h.read hpc
  | copy k i plen hpc => exact h.copy hpc
  | reset k i v hpc => exact h.reset hpc
  | add k i v hpc => exact h.add hpc
  | leave k v b hpc hb => exact h.leave hpc hb
  | fail k v e hpc he => exact h.fail hpc
  | fetch w r rest hmain hreq => exact h.fetch hmain hreq
  | install w r hmain => exact h.install hmain
  | acquire w r c hmain hc => exact h.acquire hmain hc
  | header w r hmain => exact h.header hmain
  | send w seq r hmain => exact h.send hmain
  | not_attempted w seq r hmain => exact h.not_attempted hmain hg.2 hg.1
  | report w p x hmain hx => exact h.report hmain hx
  | drive w cmd value key hidle hkey => exact h.drive hidle hkey hg.1 hg.2
  | bad_hmac w seq key hidle hkey =>
      exact h.idle_error hidle hg.2 rfl ((h.worker w).take_response seq) rfl hg.1 (by decide)
  | timeout w hidle hpending =>
      exact h.idle_error hidle hg.2 rfl (h.worker w) rfl hg.1 (by decide)
  | socket_error w hidle =>
      have hw := h.worker w
      exact h.idle_error hidle hg.2 rfl ⟨hw.main, hw.alone, hw.running, hw.client⟩ rfl hg.1
        (by decide)
  | listen w p x q hlisten hx hq => exact h.listen hlisten hx hq
  | value_error w p hlisten hx => exact h.value_error hg hlisten hx
  | listen_raises w p e hlisten hx he => exact absurd (h.value_error_of_error hlisten hx) he

/-! ### Where runs begin -/

/-- No request is in the system, and the workers are idle. -/
structure Quiescent (s : State n) : Prop where
  slots : ∀ i, (s.sm_slots i).len = -1
  available : s.sm_available_idx = Finset.univ
  requests : s.requests = []
  handlers : ∀ k, (s.handlers k).pc = .absent
  main : ∀ w, (s.workers w).main = .fetch
  listener : ∀ w, (s.workers w).listener = .idle
  pending : ∀ w, (s.workers w).client.pending = ∅
  wire : ∀ w, (s.workers w).client.wire = []

theorem quiescent_start : Quiescent ({} : State n) where
  slots _ := rfl
  available := rfl
  requests := rfl
  handlers _ := rfl
  main _ := rfl
  listener _ := rfl
  pending _ := rfl
  wire _ := rfl

theorem Quiescent.active {s : State n} (h : Quiescent s) (w : Fin n) :
    (s.workers w).active = [] := by
  unfold Worker.active
  rw [h.main, h.listener]
  rfl

theorem Quiescent.owned {s : State n} (h : Quiescent s) : Owned s := by
  have hwork : ∀ w, (s.workers w).tickets = 0 := by
    intro w
    unfold Worker.tickets
    rw [h.active, h.main, h.pending]
    rfl
  have hnone : tickets s = 0 := by
    unfold tickets
    simp [hwork, h.requests]
  have hfree : ∀ k i, ¬Holds s k i := by
    intro k i hk
    unfold Holds at hk
    rw [h.handlers] at hk
    cases hk
  constructor
  · intro i
    simp [h.available, hfree]
  · intro k k' i hk
    exact absurd hk (hfree k i)
  · exact fun i _ => h.slots i
  · intro k
    unfold Handler.Ok
    rw [h.handlers]
    trivial
  · simp [hnone]
  · simp [hnone]
  · simp [h.handlers]
  · intro w
    constructor
    · rw [h.main]
      trivial
    · rw [h.active]
      exact Nat.zero_le _
    · simp [h.active]
    · exact ⟨by simp [h.pending], by simp [h.wire]⟩

theorem owned_of_reachable {s₀ s : State n} (hq : Quiescent s₀)
    (h : (app_from s₀).ReachableWith Attributed s) : Owned s :=
  h.invariant hq.owned (owned_step s₀)

/-! ### A drive that answers every command once -/

/-- Nothing but responses of the drive, with values that fit the array. -/
def DriveOnly (a : Action n) (_ : State n) : Prop :=
  match a with
  | .send _ false | .bad_hmac _ _ | .timeout _ | .socket_error _ => False
  | .drive _ _ cmd value => cmd.code = .SUCCESS → value.length ≤ MAX_PAYLOAD_LEN
  | _ => True

instance (a : Action n) (s : State n) : Decidable (DriveOnly a s) := by
  unfold DriveOnly
  split <;> infer_instance

def Main.sending : Main → List ℕ
  | .send seq _ => [seq]
  | _ => []

def Progress.seqs : Progress → List ℕ
  | .payload (some seq) _ _ | .len (some seq) _ _ | .clean_up seq => [seq]
  | _ => []

def Listener.handling : Listener → List ℕ
  | .callback p => p.seqs
  | _ => []

/-- A worker whose client has only responses of the drive to handle. -/
structure Worker.Direct (wk : Worker) : Prop where
  tracked : wk.client.Tracked wk.main.sending wk.listener.handling
  quiet : wk.main.running = []
  fits : ∀ o r value, wk.listener = .callback (.payload o r value) →
    value.length ≤ MAX_PAYLOAD_LEN

structure Direct (s : State n) : Prop where
  failed : s.failed = []
  worker : ∀ w, (s.workers w).Direct

theorem Quiescent.direct {s : State n} (h : Quiescent s) (hfailed : s.failed = []) : Direct s where
  failed := hfailed
  worker w := by
    refine ⟨?_, ?_, ?_⟩
    · rw [h.main, h.listener]
      exact .start (h.wire w) (h.pending w)
    · rw [h.main]
      rfl
    · rw [h.listener]
      simp

/-- With the drive alone, each response finds its entry. -/
theorem Direct.attributed {s t : State n} {a : Action n} (h : Direct s) (hg : DriveOnly a s)
    (hst : step s a = some t) : Attributed a s := by
  cases step_cases hst with
  | drive w cmd value key hidle hkey =>
      have hwire := List.mem_map_of_mem (f := Prod.fst) (Client.mem_wire_of_asked hkey)
      exact ⟨.inl ((h.worker w).tracked.known_of_wire hwire), (h.worker w).quiet⟩
  | listen w | value_error w | listen_raises w =>
      unfold Attributed
      simp only
      split
      · exact .inl ((h.worker w).fits _ _ _ ‹_›)
      · trivial
  | not_attempted | bad_hmac | timeout | socket_error => exact hg.elim
  | _ => trivial

theorem seqs_data_callback (seq : ℕ) (r : Request) (cmd : Command) (value : Bytes) :
    (data_callback (some seq) r cmd value).seqs = [seq] := by
  unfold data_callback
  split <;> rfl

theorem handling_rest (wk : Worker) : (State.rest wk).handling = [] := by
  unfold State.rest
  split <;> rfl

theorem rest_ne_callback (wk : Worker) (p : Progress) : State.rest wk ≠ .callback p := by
  unfold State.rest
  split <;> simp

/-- What a step does to one worker while only the drive speaks. -/
inductive Worker.Next (wk : Worker) : Worker → Prop
  | fetch (r : Request) (hmain : wk.main = .fetch) : wk.Next { wk with main := .install r }
  | install (r : Request) (hmain : wk.main = .install r) :
      wk.Next { wk with
        client := { wk.client with callback_delegate := some r }
        main := .acquire r }
  | acquire (r : Request) (c : Client Request) (hmain : wk.main = .acquire r)
      (hc : wk.client.acquire = some c) : wk.Next { wk with client := c, main := .header r }
  | header (r : Request) (hmain : wk.main = .header r) :
      wk.Next { wk with
        client := wk.client.update_header
        main := .send wk.client.sequence r }
  | send (seq : ℕ) (r : Request) (hmain : wk.main = .send seq r) :
      wk.Next { wk with client := wk.client.packet_send seq r.key, main := .fetch }
  | answer (seq : ℕ) (p : Progress) (hidle : wk.listener = .idle)
      (hwire : seq ∈ wk.client.wire.map Prod.fst) (hseqs : p.seqs = [seq])
      (hfits : ∀ o r value, p = .payload o r value → value.length ≤ MAX_PAYLOAD_LEN) :
      wk.Next { wk with client := wk.client.answer seq, listener := .callback p }
  | advance (p q : Progress) (hlisten : wk.listener = .callback p) (hseqs : q.seqs = p.seqs)
      (hlater : ∀ o r value, q ≠ .payload o r value) : wk.Next { wk with listener := .callback q }
  | finish (p : Progress) (hlisten : wk.listener = .callback p) (hseqs : p.seqs = []) :
      wk.Next { wk with listener := State.rest wk }
  | clean_up (seq : ℕ) (hlisten : wk.listener = .callback (.clean_up seq)) :
      wk.Next { wk with client := wk.client.clean_up seq, listener := State.rest wk }

theorem Worker.Direct.next {wk wk' : Worker} (h : wk.Direct) (hn : wk.Next wk') : wk'.Direct := by
  have htracked := h.tracked
  have hquiet := h.quiet
  cases hn with
  | fetch r hmain =>
      rw [hmain] at htracked
      exact ⟨htracked, rfl, h.fits⟩
  | install r hmain =>
      rw [hmain] at htracked
      exact ⟨⟨htracked.once, htracked.known, htracked.fresh⟩, rfl, h.fits⟩
  | acquire r c hmain hc =>
      rw [hmain] at htracked
      exact ⟨htracked.acquire hc, rfl, h.fits⟩
  | header r hmain =>
      rw [hmain] at htracked
      exact ⟨htracked.update_header, rfl, h.fits⟩
  | send seq r hmain =>
      rw [hmain] at htracked
      exact ⟨htracked.packet_send, rfl, h.fits⟩
  | answer seq p hidle hwire hseqs hfits =>
      rw [hidle] at htracked
      refine ⟨?_, hquiet, ?_⟩
      · simp only [Listener.handling, hseqs]
        exact htracked.answer hwire
      · intro o r value hl
        exact hfits o r value (Listener.callback.inj hl)
  | advance p q hlisten hseqs hlater =>
      rw [hlisten] at htracked
      refine ⟨?_, hquiet, ?_⟩
      · simp only [Listener.handling, hseqs]
        exact htracked
      · intro o r value hl
        exact absurd (Listener.callback.inj hl) (hlater o r value)
  | finish p hlisten hseqs =>
      rw [hlisten] at htracked
      simp only [Listener.handling, hseqs] at htracked
      refine ⟨?_, hquiet, ?_⟩
      · simp only [handling_rest]
        exact htracked
      · exact fun o r value hl => absurd hl (rest_ne_callback _ _)
  | clean_up seq hlisten =>
      rw [hlisten] at htracked
      refine ⟨?_, hquiet, ?_⟩
      · simp only [handling_rest]
        exact htracked.clean_up
      · exact fun o r value hl => absurd hl (rest_ne_callback _ _)

/-- The state after a step of the worker `w`, as far as the workers go. -/
def Works (s t : State n) : Prop :=
  t.failed = s.failed ∧
    (t.workers = s.workers ∨
      ∃ w wk, (s.workers w).Next wk ∧ t.workers = Function.update s.workers w wk)

theorem Works.forall {s t : State n} (h : Works s t) {P : Worker → Prop}
    (hP : ∀ wk wk' : Worker, wk.Direct → P wk → wk.Next wk' → P wk') (hd : Direct s)
    (hs : ∀ w, P (s.workers w)) (w : Fin n) : P (t.workers w) := by
  obtain ⟨-, hsame | ⟨w', wk, hnext, hupdate⟩⟩ := h
  · rw [hsame]
    exact hs w
  · rw [hupdate]
    by_cases hw : w = w'
    · rw [hw, Function.update_self]
      exact hP _ _ (hd.worker w') (hs w') hnext
    · rw [Function.update_of_ne hw]
      exact hs w

/-- The listener takes up a response of the drive. -/
theorem Direct.works_drive {s : State n} (h : Direct s) {w : Fin n} {cmd : Command}
    {value : Bytes} {key : Key} (hidle : (s.workers w).listener = .idle)
    (hkey : (s.workers w).client.asked cmd.ackSequence = some key)
    (hfits : cmd.code = .SUCCESS → value.length ≤ MAX_PAYLOAD_LEN)
    (rs : List (Key × Option Bytes)) :
    Works s ({ s with returned := rs }.deliver w ((s.workers w).take_response cmd.ackSequence)
      cmd value) := by
  have hwire := List.mem_map_of_mem (f := Prod.fst) (Client.mem_wire_of_asked hkey)
  obtain ⟨cb, hcb⟩ := Option.isSome_iff_exists.mp
    (AList.lookup_isSome.mpr ((h.worker w).tracked.known_of_wire hwire))
  have hresp : respond ((s.workers w).take_response cmd.ackSequence).client cmd value =
      some (match cb with
        | some r => data_callback (some cmd.ackSequence) r cmd value
        | none => .clean_up cmd.ackSequence) := by
    have hcb' : ((s.workers w).take_response cmd.ackSequence).client.pending.lookup
        cmd.ackSequence = some cb := hcb
    unfold respond Client.on_response
    rw [hcb']
    cases cb <;> rfl
  refine ⟨rfl, .inr ⟨w, _, ?_, rfl⟩⟩
  simp only [hresp]
  refine .answer _ _ hidle hwire ?_ ?_
  · cases cb with
    | none => rfl
    | some r => exact seqs_data_callback _ _ _ _
  · intro o r value' hp
    cases cb with
    | none => cases hp
    | some r' =>
        simp only [data_callback] at hp
        split at hp
        · cases hp
          exact hfits ‹_›
        · cases hp

/-- A callback goes on without an error. -/
theorem Worker.Direct.no_error {wk : Worker} (h : wk.Direct) {slots : Idx → SM_Slot} {p : Progress}
    {e : Exn} (hlisten : wk.listener = .callback p) :
    (p.advance slots wk.client).rest ≠ .error e := by
  cases p with
  | payload o r value =>
      simp [Progress.advance, Payload.write, h.fits o r value hlisten]
  | len o r vlen => simp [Progress.advance]
  | clean_up seq =>
      have htracked := h.tracked
      rw [hlisten] at htracked
      simp [Progress.advance, htracked.known_of_handling List.mem_cons_self]

theorem Direct.works_listen {s : State n} (h : Direct s) {w : Fin n} {p : Progress} {x : Advanced}
    {q : Option Progress} (hlisten : (s.workers w).listener = .callback p)
    (hx : p.advance s.sm_slots (s.workers w).client = x) (hq : x.rest = .ok q) :
    Works s ({ s with sm_slots := x.sm_slots }.setWorker w { s.workers w with
      client := x.client
      listener := match q with
        | some p => .callback p
        | none => State.rest (s.workers w) }) := by
  cases p with
  | payload o r value =>
      have hfits := (h.worker w).fits o r value hlisten
      have hseqs : (Progress.len o r value.length).seqs = (Progress.payload o r value).seqs := by
        cases o <;> rfl
      simp only [Progress.advance, Payload.write, dif_pos hfits] at hx
      subst hx
      cases hq
      exact ⟨rfl, .inr ⟨w, _, .advance _ _ hlisten hseqs (by simp), rfl⟩⟩
  | len o r vlen =>
      subst hx
      cases o with
      | none =>
          cases hq
          exact ⟨rfl, .inr ⟨w, _, .finish _ hlisten rfl, rfl⟩⟩
      | some seq =>
          cases hq
          exact ⟨rfl, .inr ⟨w, _, .advance _ (.clean_up seq) hlisten rfl (by simp), rfl⟩⟩
  | clean_up seq =>
      have htracked := (h.worker w).tracked
      rw [hlisten] at htracked
      have hin := htracked.known_of_handling List.mem_cons_self
      simp only [Progress.advance, if_pos hin] at hx
      subst hx
      cases hq
      exact ⟨rfl, .inr ⟨w, _, .clean_up seq hlisten, rfl⟩⟩

theorem Direct.works {s t : State n} {a : Action n} (h : Direct s) (hg : DriveOnly a s)
    (hst : step s a = some t) : Works s t := by
  cases step_cases hst with
  | fetch w r rest hmain hreq => exact ⟨rfl, .inr ⟨w, _, .fetch r hmain, rfl⟩⟩
  | install w r hmain => exact ⟨rfl, .inr ⟨w, _, .install r hmain, rfl⟩⟩
  | acquire w r c hmain hc => exact ⟨rfl, .inr ⟨w, _, .acquire r c hmain hc, rfl⟩⟩
  | header w r hmain => exact ⟨rfl, .inr ⟨w, _, .header r hmain, rfl⟩⟩
  | send w seq r hmain => exact ⟨rfl, .inr ⟨w, _, .send seq r hmain, rfl⟩⟩
  | report w p x hmain hx =>
      have hquiet := (h.worker w).quiet
      rw [hmain] at hquiet
      cases hquiet
  | drive w cmd value key hidle hkey => exact h.works_drive hidle hkey hg _
  | listen w p x q hlisten hx hq => exact h.works_listen hlisten hx hq
  | value_error w p hlisten hx => exact absurd hx ((h.worker w).no_error hlisten)
  | listen_raises w p e hlisten hx he => exact absurd hx ((h.worker w).no_error hlisten)
  | not_attempted | bad_hmac | timeout | socket_error => exact hg.elim
  | _ => exact ⟨rfl, .inl rfl⟩

theorem direct_step (s₀ : State n) : (app_from s₀).Preserves DriveOnly Direct := by
  intro a s t h hg hst
  have hworks := h.works hg hst
  exact ⟨hworks.1.trans h.failed,
    hworks.forall (fun _ _ hd _ hn => hd.next hn) h h.worker⟩

end SmartDisk.SlotProtocol
