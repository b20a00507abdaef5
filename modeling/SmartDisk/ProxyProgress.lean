import SmartDisk.ProxyAnswers
import SmartDisk.ProxyErrors
import SmartDisk.ProxySessions

/-!
# The proxy comes to rest

While a key is asked for by one request at a time, the keys of the gets without a completion are
the keys of `pending_requests`, so no response misses its entry. The listener outlives every
response, the main thread every reply, and the client's queue drains: a proxy that can only poll
has answered everything it has received.
-/
namespace SmartDisk.ProxyProgress
open ActionSystem KineticClient ProxyServer ProxyRouting ProxyAnswers
open ProxyErrors (asking outstanding)
open ProxySessions (Told)

/-- Every request has an opcode that the proxy knows. -/
def Known (a : Action) (_ : State) : Prop :=
  match a with
  | .receive r => r.opcode ≠ .NONE
  | _ => True

/-- Nothing comes that the proxy does not survive. -/
def Served (a : Action) (s : State) : Prop := Answerable a s ∧ Known a s

/-- The places of the semaphore that are taken for no command yet. -/
def acquired : Main → ℕ
  | .header _ => 1
  | _ => 0

/-- Nobody has raised, and no entry is without its get. -/
structure Calm (s : State) : Prop where
  delegate : s.kvclient.callback_delegate = some ()
  captured : ∀ seq cb, s.kvclient.pending.lookup seq = some cb → cb = some ()
  depth : 0 < s.kvclient.queue_depth
  running : s.closing = false
  main : ∀ e, s.main ≠ .raised e
  listener : s.listener = .idle ∨ (∃ seq k e v, s.listener = .store (some seq) k e v) ∨
    ∃ seq, s.listener = .clean_up seq
  waiting : (outstanding s).Perm s.pending_requests.keys
  accounted : s.kvclient.Accounted (sending s.main) (handling s.listener) (acquired s.main)

variable {s t : State}

theorem calm_start : Calm proxy_server.start where
  delegate := rfl
  captured seq cb h := by simp [proxy_server] at h
  depth := by decide
  running := rfl
  main e h := by cases h
  listener := .inl rfl
  waiting := .refl _
  accounted := .start rfl rfl

/-- The main thread goes on without a get. -/
theorem Calm.move (h : Calm s) {m : Main} (hasking : asking m = asking s.main)
    (hsending : sending m = sending s.main) (hacquired : acquired m = acquired s.main)
    (hm : ∀ e, m ≠ .raised e) : Calm { s with main := m } where
  delegate := h.delegate
  captured := h.captured
  depth := h.depth
  running := h.running
  main := hm
  listener := h.listener
  waiting := by
    unfold outstanding
    rw [show State.main _ = m from rfl, hasking]
    exact h.waiting
  accounted := by
    rw [show State.main _ = m from rfl, hsending, hacquired]
    exact h.accounted

/-- An entry for the key would be that of an unanswered request. -/
theorem notMem_of_noCollision (hr : Routed s) {r : Request} (hget : r.isGet = true)
    (hfree : NoCollision (.receive r) s) : r.key ∉ s.pending_requests := by
  intro hin
  obtain ⟨e, he⟩ := Option.isSome_iff_exists.mp (AList.lookup_isSome.mpr hin)
  obtain ⟨hq, hkey, hq'⟩ := hr.pending r.key e he
  exact not_answered_pending hr he (answered_of_getElem hfree hget hq hq' hkey)

theorem Calm.wait (h : Calm s) (hr : Routed s) (hmain : s.main = .poll) {r : Request}
    (hget : r.isGet = true) (hfree : NoCollision (.receive r) s) :
    Calm { s with
      received := s.received ++ [r]
      pending_requests := s.pending_requests.insert r.key ⟨s.received.length, r⟩
      main := .acquire r.key } where
  delegate := h.delegate
  captured := h.captured
  depth := h.depth
  running := h.running
  main e he := by cases he
  listener := h.listener
  waiting := by
    have hkeys : (s.pending_requests.insert r.key ⟨s.received.length, r⟩).keys =
        r.key :: s.pending_requests.keys :=
      congrArg (List.map Sigma.fst)
        (AList.entries_insert_of_notMem (notMem_of_noCollision hr hget hfree))
    have hwaiting := h.waiting
    unfold outstanding at hwaiting
    rw [hmain] at hwaiting
    exact hkeys ▸ hwaiting.cons r.key
  accounted := by
    have haccounted := h.accounted
    rw [hmain] at haccounted
    exact haccounted

theorem Calm.receive (h : Calm s) (hr : Routed s) (hmain : s.main = .poll) {r : Request}
    (hfree : NoCollision (.receive r) s) (hknown : r.opcode ≠ .NONE) : Calm (s.receive r) := by
  unfold State.receive
  cases hop : r.opcode with
  | NONE => exact absurd hop hknown
  | PING =>
      have hmove := h.move (m := .respond) (by rw [hmain]; rfl) (by rw [hmain]; rfl)
        (by rw [hmain]; rfl) nofun
      exact ⟨hmove.delegate, hmove.captured, hmove.depth, hmove.running, hmove.main,
        hmove.listener, hmove.waiting, hmove.accounted⟩
  | GET => exact h.wait hr hmain (by simp [Request.isGet, hop]) hfree
  | GETSMART => exact h.wait hr hmain (by simp [Request.isGet, hop]) hfree

theorem Calm.header (h : Calm s) (ht : Tracked s.kvclient s.main s.listener) {key : Key}
    (hmain : s.main = .header key) : Calm { s with
      kvclient := s.kvclient.update_header, main := .send s.kvclient.sequence key } where
  delegate := h.delegate
  captured seq cb hcb := by
    rw [show (State.kvclient _).pending =
      s.kvclient.pending.insert s.kvclient.sequence s.kvclient.callback_delegate from rfl,
      lookup_insert_eq] at hcb
    split at hcb
    · rw [← Option.some.inj hcb]
      exact h.delegate
    · exact h.captured seq cb hcb
  depth := h.depth
  running := h.running
  main e he := by cases he
  listener := h.listener
  waiting := by
    have hwaiting := h.waiting
    unfold outstanding at hwaiting ⊢
    rw [hmain] at hwaiting
    exact hwaiting
  accounted := by
    have haccounted := h.accounted
    have hclient := ht.client
    rw [hmain] at haccounted hclient
    exact haccounted.update_header hclient

theorem Calm.send (h : Calm s) {seq : ℕ} {key : Key} (hmain : s.main = .send seq key) :
    Calm { s with kvclient := s.kvclient.packet_send seq key, main := .respond } where
  delegate := h.delegate
  captured := h.captured
  depth := h.depth
  running := h.running
  main e he := by cases he
  listener := h.listener
  waiting := by
    refine List.Perm.trans ?_ h.waiting
    unfold outstanding
    rw [hmain]
    simp only [Client.packet_send, asking, List.map_append, List.map_cons, List.map_nil,
      List.nil_append]
    exact List.perm_append_comm
  accounted := by
    have haccounted := h.accounted
    rw [hmain] at haccounted
    exact haccounted.packet_send

/-- A finished entry has a reply. -/
theorem reply_of_waits (hx : Exact s) {k : Key} {e : Entry} (hw : Waits s.received k e)
    (v : Bytes) : ∃ body, reply k e v = .ok body := by
  obtain ⟨hq, -, hget⟩ := hw
  unfold reply
  cases hop : e.request.opcode with
  | GET => exact ⟨_, rfl⟩
  | GETSMART => exact ⟨_, if_pos (hx.small e.request (List.mem_of_getElem? hq) hop)⟩
  | _ => simp [Request.isGet, hop] at hget

theorem Calm.answer (h : Calm s) (hr : Routed s) (hx : Exact s) (hmain : s.main = .respond)
    {k : Key} {e : Entry} {v : Bytes} (he : s.ready_requests.lookup k = some (e, v)) :
    Calm (s.answer k e v) := by
  obtain ⟨body, hbody⟩ := reply_of_waits hx (hr.ready k e v he).1 v
  have hmove := h.move (m := .poll) (by rw [hmain]; rfl) (by rw [hmain]; rfl)
    (by rw [hmain]; rfl) nofun
  unfold State.answer
  rw [hbody]
  exact ⟨hmove.delegate, hmove.captured, hmove.depth, hmove.running, hmove.main,
    hmove.listener, hmove.waiting, hmove.accounted⟩

/-- The response finds its entry. -/
theorem Calm.delivered (h : Calm s) (ht : Tracked s.kvclient s.main s.listener)
    {cmd : Command} (hkey : s.kvclient.asked cmd.ackSequence = some cmd.key) (value : Bytes) :
    ∃ e, s.pending_requests.lookup cmd.key = some e ∧
      (s.take_response cmd.ackSequence cmd.key cmd value).deliver cmd value =
      { s.take_response cmd.ackSequence cmd.key cmd value with
        pending_requests := s.pending_requests.erase cmd.key
        listener := .store (some cmd.ackSequence) cmd.key e (result cmd value) } := by
  have hwire := Client.mem_wire_of_asked hkey
  have hpending : cmd.ackSequence ∈ s.kvclient.pending :=
    ht.client.known_of_wire (List.mem_map_of_mem hwire)
  obtain ⟨cb, hcb⟩ := Option.isSome_iff_exists.mp (AList.lookup_isSome.mpr hpending)
  obtain rfl := h.captured _ cb hcb
  have hin : cmd.key ∈ s.pending_requests := by
    apply h.waiting.subset
    exact List.mem_append_right _ (List.mem_map_of_mem hwire)
  obtain ⟨e, he⟩ := Option.isSome_iff_exists.mp (AList.lookup_isSome.mpr hin)
  refine ⟨e, he, ?_⟩
  have hroute : (s.take_response cmd.ackSequence cmd.key cmd value).kvclient.on_response cmd =
      .pending (some ()) := by
    have hlookup : (s.take_response cmd.ackSequence cmd.key cmd value).kvclient.pending.lookup
        cmd.ackSequence = some (some ()) := hcb
    unfold Client.on_response
    rw [hlookup]
  have hpop : (s.take_response cmd.ackSequence cmd.key cmd value).pending_requests.lookup cmd.key =
      some e := he
  unfold State.deliver State.pop_pending
  rw [hroute]
  simp only [hpop]
  rfl

theorem Calm.drive (h : Calm s) (ht : Tracked s.kvclient s.main s.listener)
    (hidle : s.listener = .idle) {cmd : Command}
    (hkey : s.kvclient.asked cmd.ackSequence = some cmd.key) (value : Bytes) :
    Calm ((s.take_response cmd.ackSequence cmd.key cmd value).deliver cmd value) := by
  obtain ⟨e, he, hnext⟩ := h.delivered ht hkey value
  have hwire := Client.mem_wire_of_asked hkey
  have hclient := ht.client
  have haccounted := h.accounted
  rw [hidle] at hclient haccounted
  have hnodup : (s.kvclient.wire.map Prod.fst).Nodup :=
    hclient.once.sublist ((List.sublist_append_right _ _).trans (List.sublist_append_left _ _))
  rw [hnext]
  refine ⟨h.delegate, h.captured, h.depth, h.running, h.main, .inr (.inl ⟨_, _, _, _, rfl⟩), ?_,
    haccounted.answer hclient (List.mem_map_of_mem hwire)⟩
  have hperm : (cmd.key :: (asking s.main ++
      (s.kvclient.answer cmd.ackSequence).wire.map Prod.snd)).Perm s.pending_requests.keys :=
    List.perm_middle.symm.trans (((Client.wire_perm hnodup hwire).symm.append_left _).trans
      h.waiting)
  have hkeys : s.pending_requests.keys.Perm (cmd.key :: (s.pending_requests.erase cmd.key).keys) :=
    (entries_perm_erase he).map Sigma.fst
  exact (hperm.trans hkeys).cons_inv

theorem Calm.listen (h : Calm s) (ht : Tracked s.kvclient s.main s.listener)
    (hst : s.listen = some t) : Calm t := by
  have haccounted := h.accounted
  unfold State.listen at hst
  split at hst
  · rename_i o k e v hstore
    cases o with
    | none => exact absurd hstore (ht.direct k e v)
    | some seq =>
        cases hst
        rw [hstore] at haccounted
        exact ⟨h.delegate, h.captured, h.depth, h.running, h.main, .inr (.inr ⟨seq, rfl⟩),
          h.waiting, haccounted⟩
  · rename_i seq hclean
    have hclient := ht.client
    rw [hclean] at hclient haccounted
    have hin : seq ∈ s.kvclient.pending := hclient.known_of_handling (List.mem_singleton_self seq)
    have hrest : s.rest = .idle := by
      unfold State.rest
      rw [h.running]
      rfl
    rw [if_pos hin, hrest] at hst
    cases hst
    refine ⟨h.delegate, ?_, h.depth, h.running, h.main, .inl rfl, h.waiting,
      haccounted.clean_up hclient⟩
    intro k cb hcb
    rw [show (State.kvclient _).pending = s.kvclient.pending.erase seq from rfl,
      lookup_erase_eq] at hcb
    split at hcb
    · cases hcb
    · exact h.captured k cb hcb
  · cases hst

theorem Calm.step {a : Action} (h : Calm s) (hr : Routed s) (hx : Exact s)
    (ht : Tracked s.kvclient s.main s.listener) (hg : Served a s)
    (hst : ProxyServer.step s a = some t) : Calm t := by
  have heff := step_effect hst
  obtain ⟨⟨⟨hdrive, hfree⟩, -⟩, hknown⟩ := hg
  cases a with
  | no_event =>
      obtain ⟨hmain, rfl⟩ := heff
      exact h.move (by rw [hmain]; rfl) (by rw [hmain]; rfl) (by rw [hmain]; rfl)
        nofun
  | receive r =>
      obtain ⟨hmain, rfl⟩ := heff
      exact h.receive hr hmain hfree hknown
  | acquire =>
      obtain ⟨key, kv, hmain, hkv, rfl⟩ := heff
      obtain rfl := Client.acquire_eq hkv
      have hwaiting := h.waiting
      have haccounted := h.accounted
      unfold outstanding at hwaiting
      rw [hmain] at hwaiting haccounted
      exact ⟨h.delegate, h.captured, h.depth, h.running, nofun, h.listener,
        hwaiting, haccounted.acquire hkv⟩
  | header =>
      obtain ⟨key, hmain, rfl⟩ := heff
      exact h.header ht hmain
  | send accepted =>
      obtain ⟨seq, key, hmain, ⟨-, rfl⟩ | ⟨rfl, -⟩⟩ := heff
      · exact h.send hmain
      · exact hdrive.2.elim
  | respond picked =>
      cases picked with
      | none =>
          obtain ⟨hmain, -, rfl⟩ := heff
          exact h.move (by rw [hmain]; rfl) (by rw [hmain]; rfl) (by rw [hmain]; rfl)
            nofun
      | some key =>
          obtain ⟨hmain, e, v, he, rfl⟩ := heff
          exact h.answer hr hx hmain he
  | drive seq cmd value =>
      obtain ⟨hidle, rfl, key, hkey, rfl⟩ := heff
      obtain rfl : key = cmd.key := Option.some.inj (hkey.symm.trans hdrive.1)
      exact h.drive ht hidle hkey value
  | bad_hmac seq => exact hdrive.2.elim
  | timeout => exact hdrive.2.elim
  | socket_error => exact hdrive.2.elim
  | listen => exact h.listen ht heff

theorem calm_of_reachable (h : proxy_server.ReachableWith Served s) : Calm s := by
  induction h with
  | start => exact calm_start
  | step a hs hg hst ih =>
      have hanswerable := hs.mono fun _ _ hg => hg.1
      have hdrive := hs.mono fun _ _ hg => hg.1.1.1
      exact ih.step (routed_of_reachable hdrive) (exact_of_reachable hanswerable)
        (tracked_of_reachable hdrive) hg hst

/-! ### A proxy that can only poll -/

structure Rest (s : State) : Prop where
  main : s.main = .poll
  listener : s.listener = .idle
  wire : s.kvclient.wire = []
  free : s.kvclient.outstanding = 0
  pending : s.pending_requests = ∅
  ready : s.ready_requests = ∅

/-- A step that gets the proxy on: it polls only while a reply is ready. -/
def Useful (a : Action) (s : State) : Prop :=
  match a with
  | .no_event => s.ready_requests.keys ≠ []
  | _ => True

instance : ∀ (a : Action) (s : State), Decidable (Useful a s)
  | .no_event, s => inferInstanceAs (Decidable (s.ready_requests.keys ≠ []))
  | .receive _, _ | .acquire, _ | .header, _ | .send _, _ | .respond _, _ | .drive _ _ _, _
  | .bad_hmac _, _ | .timeout, _ | .socket_error, _ | .listen, _ => .isTrue trivial

/-- The proxy by itself, with a drive that has this content. -/
structure Inner (content : Key → Option Bytes) (a : Action) (s : State) : Prop where
  inside : ∀ r, a ≠ .receive r
  drive : DriveOnly a s
  told : Told content a
  useful : Useful a s

/-- Of what the threads do by themselves nothing is asked. -/
theorem inner_thread {content : Key → Option Bytes} {a : Action}
    (ha : a = .acquire ∨ a = .header ∨ a = .send true ∨ a = .listen ∨ ∃ key, a = .respond key) :
    Inner content a s := by
  rcases ha with rfl | rfl | rfl | rfl | ⟨_, rfl⟩ <;>
    exact ⟨fun _ h => (by cases h), ⟨trivial, trivial⟩, trivial, trivial⟩

/-- The drive can answer what is on the wire. -/
theorem exists_drive (content : Key → Option Bytes) (hidle : s.listener = .idle)
    (hwire : s.kvclient.wire ≠ []) :
    ∃ a, Inner content a s ∧ (ProxyServer.step s a).isSome := by
  obtain ⟨x, hx⟩ := List.exists_mem_of_ne_nil _ hwire
  obtain ⟨key, hkey⟩ := Client.asked_of_mem_wire (List.mem_map_of_mem hx)
  have hstep : ∀ (code : StatusCode) (value : Bytes),
      (ProxyServer.step s (.drive x.1 ⟨x.1, code, key⟩ value)).isSome := by
    intro code value
    simp only [ProxyServer.step, hidle, hkey, and_self, if_true, Option.map_some,
      Option.isSome_some]
  cases hcontent : content key with
  | some value =>
      refine ⟨.drive x.1 ⟨x.1, .SUCCESS, key⟩ value, ?_, hstep .SUCCESS value⟩
      refine ⟨fun _ h => ?_, ⟨hkey, trivial⟩, ?_, trivial⟩
      · cases h
      · exact hcontent.symm
  | none =>
      refine ⟨.drive x.1 ⟨x.1, .drive_error 0, key⟩ [], ?_, hstep (.drive_error 0) []⟩
      refine ⟨fun _ h => ?_, ⟨hkey, trivial⟩, ?_, trivial⟩
      · cases h
      · exact hcontent.symm

/-- With nothing on the wire the main thread goes on until it polls in vain. -/
theorem Calm.main_step (h : Calm s) (content : Key → Option Bytes) (hidle : s.listener = .idle)
    (hwire : s.kvclient.wire = []) :
    Rest s ∨ ∃ a, Inner content a s ∧ (ProxyServer.step s a).isSome := by
  have haccounted := h.accounted
  rw [hidle] at haccounted
  have hissued : s.kvclient.issued (sending s.main) (handling .idle) = sending s.main := by
    unfold Client.issued
    rw [hwire]
    simp [handling]
  have hused := haccounted.used
  rw [hissued] at hused
  cases hmain : s.main with
  | raised e => exact absurd hmain (h.main e)
  | acquire key =>
      refine .inr ⟨.acquire, inner_thread (.inl rfl), ?_⟩
      rw [hmain] at haccounted hused
      cases hc : s.kvclient.acquire with
      | some kv => simp only [ProxyServer.step, hmain, hc, Option.map_some, Option.isSome_some]
      | none =>
          obtain ⟨seq, hseq⟩ := haccounted.blocked h.depth hc
          exact absurd (hused seq hseq) List.not_mem_nil
  | header key =>
      refine .inr ⟨.header, inner_thread (.inr (.inl rfl)), ?_⟩
      simp only [ProxyServer.step, hmain, Option.isSome_some]
  | send seq key =>
      refine .inr ⟨.send true, inner_thread (.inr (.inr (.inl rfl))), ?_⟩
      simp only [ProxyServer.step, hmain, if_true, Option.isSome_some]
  | respond =>
      cases hready : s.ready_requests.keys with
      | nil =>
          refine .inr ⟨.respond none,
            inner_thread (.inr (.inr (.inr (.inr ⟨_, rfl⟩)))), ?_⟩
          simp only [ProxyServer.step, hmain, hready, and_self, if_true, Option.isSome_some]
      | cons key keys =>
          have hin : key ∈ s.ready_requests := by
            rw [AList.mem_keys, hready]
            exact List.mem_cons_self
          obtain ⟨x, hx⟩ := Option.isSome_iff_exists.mp (AList.lookup_isSome.mpr hin)
          refine .inr ⟨.respond (some key),
            inner_thread (.inr (.inr (.inr (.inr ⟨_, rfl⟩)))), ?_⟩
          simp only [ProxyServer.step, hmain, hx, if_true, Option.map_some, Option.isSome_some]
  | poll =>
      by_cases hready : s.ready_requests.keys = []
      · rw [hmain] at haccounted hused
        have hpending : s.kvclient.pending.keys = [] :=
          List.eq_nil_iff_forall_not_mem.mpr fun seq hseq =>
            absurd (hused seq hseq) List.not_mem_nil
        have hwaiting := h.waiting
        unfold outstanding at hwaiting
        rw [hmain, hwire] at hwaiting
        have hcount := haccounted.count
        rw [hpending] at hcount
        exact .inl ⟨hmain, hidle, hwire, hcount, empty_of_keys hwaiting.symm.eq_nil,
          empty_of_keys hready⟩
      · refine .inr ⟨.no_event,
          ⟨fun _ h => ?_, ⟨trivial, trivial⟩, trivial, hready⟩, ?_⟩
        · cases h
        · simp only [ProxyServer.step, hmain, if_true, Option.isSome_some]

/-- Until the proxy rests something gets it on. -/
theorem Calm.progress (h : Calm s) (content : Key → Option Bytes) :
    Rest s ∨ ∃ a, Inner content a s ∧ (ProxyServer.step s a).isSome := by
  have hlisten : (s.listen).isSome → ∃ a, Inner content a s ∧ (ProxyServer.step s a).isSome :=
    fun hsome => ⟨.listen, inner_thread (.inr (.inr (.inr (.inl rfl)))), hsome⟩
  rcases h.listener with hidle | ⟨seq, k, e, v, hstore⟩ | ⟨seq, hclean⟩
  · by_cases hwire : s.kvclient.wire = []
    · exact h.main_step content hidle hwire
    · exact .inr (exists_drive content hidle hwire)
  · refine .inr (hlisten ?_)
    unfold State.listen
    rw [hstore]
    rfl
  · refine .inr (hlisten ?_)
    unfold State.listen
    rw [hclean]
    simp only
    split <;> rfl

/-- A proxy at rest has answered every get. -/
theorem Rest.answered (h : Rest s) (hx : Exact s) {i : ℕ} {q : Request}
    (hq : s.received[i]? = some q) (hget : q.isGet = true) : s.Answered i := by
  have hkept := hx.kept i q hq hget
  simp only [copies, h.pending, h.ready, h.listener, tally_empty, Listener.held, List.map_nil,
    List.count_nil] at hkept
  have hpos : 0 < (s.sent.map Reply.arrival).count i := by omega
  exact List.count_pos_iff.mp hpos

end SmartDisk.ProxyProgress
