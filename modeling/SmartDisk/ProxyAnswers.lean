import SmartDisk.ClientTracking
import SmartDisk.ProxyRouting

/-!
# Every request is answered once

Without collisions no entry is ever dropped, so each GET and GETSMART keeps exactly
one copy until it is answered. That none of the copies stays with the listener is a
fact about the client: a sequence number is in `_pending` from the moment it is drawn
until its callback has run, so an empty `_pending` means an idle listener.

A size that no string can have is the one way to lose a request: the main thread
takes the entry out of `ready_requests` and raises on the multiplication.
-/
namespace SmartDisk.ProxyAnswers
open ActionSystem KineticClient ProxyServer ProxyRouting

def sending : Main → List ℕ
  | .send seq _ => [seq]
  | _ => []

def handling : Listener → List ℕ
  | .store (some seq) _ _ _ => [seq]
  | .clean_up seq => [seq]
  | _ => []

/-- The client keeps track of its commands, and no callback runs without one. -/
structure Tracked (kv : Client Unit) (m : Main) (l : Listener) : Prop where
  client : kv.Tracked (sending m) (handling l)
  direct : ∀ k e v, l ≠ .store none k e v

theorem Tracked.move {kv : Client Unit} {m m' : Main} {l : Listener} (h : Tracked kv m l)
    (hm : sending m' = []) : Tracked kv m' l := by
  constructor
  · rw [hm]
    exact h.client.of_sublist (List.nil_sublist _) (List.Sublist.refl _)
  · exact h.direct

theorem rest_ne_store (s : State) (o : Option ℕ) (k : Key) (e : Entry) (v : Bytes) :
    s.rest ≠ .store o k e v := by
  intro h
  simpa [h] using held_rest s

theorem handling_rest (s : State) : handling s.rest = [] := by
  unfold State.rest
  split <;> rfl

/-- A response to a command in `_pending` stays tied to its sequence number. -/
theorem deliver_known {s : State} {cmd : Command} (value : Bytes)
    (h : cmd.ackSequence ∈ s.kvclient.pending) :
    (s.deliver cmd value).kvclient = s.kvclient ∧ (s.deliver cmd value).main = s.main ∧
      (handling (s.deliver cmd value).listener).Sublist [cmd.ackSequence] ∧
      ∀ k e v, (s.deliver cmd value).listener ≠ .store none k e v := by
  obtain ⟨cb, hcb⟩ := Option.isSome_iff_exists.mp (AList.lookup_isSome.mpr h)
  unfold State.deliver Client.on_response
  rw [hcb]
  cases cb with
  | none => exact ⟨rfl, rfl, List.Sublist.refl _, by simp⟩
  | some u =>
      obtain ⟨e, -, hpop⟩ | hpop := pop_pending_cases s (some cmd.ackSequence) cmd value
      · simp only [hpop, true_and]
        exact ⟨List.Sublist.refl _, by simp⟩
      · simp only [hpop, true_and]
        exact ⟨List.nil_sublist _, by simp⟩

theorem sending_receive (s : State) (r : Request) : sending (s.receive r).main = [] := by
  unfold State.receive
  cases r.opcode <;> rfl

theorem receive_kvclient (s : State) (r : Request) : (s.receive r).kvclient = s.kvclient := by
  unfold State.receive
  cases r.opcode <;> rfl

theorem receive_listener (s : State) (r : Request) : (s.receive r).listener = s.listener := by
  unfold State.receive
  cases r.opcode <;> rfl

theorem answer_frame (s : State) (k : Key) (e : Entry) (v : Bytes) :
    (s.answer k e v).kvclient = s.kvclient ∧ (s.answer k e v).listener = s.listener ∧
      sending (s.answer k e v).main = [] := by
  unfold State.answer
  cases reply k e v <;> exact ⟨rfl, rfl, rfl⟩

theorem tracked_listen {s t : State} (h : Tracked s.kvclient s.main s.listener)
    (ht : s.listen = some t) : Tracked t.kvclient t.main t.listener := by
  unfold State.listen at ht
  split at ht
  · rename_i o k e v hstore
    cases o with
    | none => exact absurd hstore (h.direct k e v)
    | some seq =>
        cases ht
        rw [hstore] at h
        exact ⟨h.client, by simp⟩
  · rename_i seq hclean
    rw [hclean] at h
    split at ht
    · cases ht
      constructor
      · rw [handling_rest]
        exact h.client.clean_up
      · exact rest_ne_store s none
    · cases ht
      constructor
      · exact h.client.of_sublist (List.Sublist.refl _) (List.nil_sublist _)
      · simp
  · cases ht

theorem tracked_step :
    proxy_server.Preserves DriveOnly fun s => Tracked s.kvclient s.main s.listener := by
  intro a s t h hg hst
  have heff := step_effect hst
  cases a with
  | no_event =>
      obtain ⟨-, rfl⟩ := heff
      exact h.move rfl
  | receive r =>
      obtain ⟨-, rfl⟩ := heff
      rw [receive_kvclient, receive_listener]
      exact h.move (sending_receive s r)
  | acquire =>
      obtain ⟨key, kv, hmain, hkv, rfl⟩ := heff
      rw [hmain] at h
      exact ⟨h.client.acquire hkv, h.direct⟩
  | header =>
      obtain ⟨key, hmain, rfl⟩ := heff
      rw [hmain] at h
      exact ⟨h.client.update_header, h.direct⟩
  | send accepted =>
      obtain ⟨seq, key, hmain, ⟨-, rfl⟩ | ⟨rfl, -⟩⟩ := heff
      · rw [hmain] at h
        exact ⟨h.client.packet_send, h.direct⟩
      · exact hg.2.elim
  | respond picked =>
      cases picked with
      | none =>
          obtain ⟨-, -, rfl⟩ := heff
          exact h.move rfl
      | some key =>
          obtain ⟨-, e, v, -, rfl⟩ := heff
          obtain ⟨hkv, hlist, hmain⟩ := answer_frame s key e v
          rw [hkv, hlist]
          exact h.move hmain
  | drive seq cmd value =>
      obtain ⟨hidle, rfl, key, hkey, rfl⟩ := heff
      have hwire : cmd.ackSequence ∈ s.kvclient.wire.map Prod.fst :=
        List.mem_map_of_mem (Client.mem_wire_of_asked hkey)
      have hknown : cmd.ackSequence ∈
          (s.take_response cmd.ackSequence key cmd value).kvclient.pending :=
        h.client.known_of_wire hwire
      obtain ⟨hkv, hmain, hsub, hdirect⟩ := deliver_known value hknown
      rw [hkv, hmain]
      rw [hidle] at h
      exact ⟨(h.client.answer hwire).of_sublist (List.Sublist.refl _) hsub, hdirect⟩
  | bad_hmac seq => exact hg.2.elim
  | timeout => exact hg.2.elim
  | socket_error => exact hg.2.elim
  | listen => exact tracked_listen h heff

theorem tracked_of_reachable {s : State} (h : proxy_server.ReachableWith DriveOnly s) :
    Tracked s.kvclient s.main s.listener := by
  apply h.invariant (I := fun s => Tracked s.kvclient s.main s.listener) _ tracked_step
  exact ⟨.start rfl rfl, by simp [proxy_server]⟩

/-! ### Requests without collisions -/

structure Exact (s : State) : Prop where
  kept : ∀ i q, s.received[i]? = some q → q.isGet = true → copies s i = 1
  single : ∀ i j q q', s.received[i]? = some q → s.received[j]? = some q' → q.isGet = true →
    q'.isGet = true → q.key = q'.key → ¬s.Answered i → ¬s.Answered j → i = j
  small : ∀ q ∈ s.received, q.opcode = .GETSMART → q.size.toNat ≤ maxint

/-- Every copy is conserved and only replies are added. -/
theorem Exact.conserve {s t : State} (h : Exact s) (hrec : t.received = s.received)
    (hsent : ∀ i, s.Answered i → t.Answered i) (hcopies : ∀ i, copies t i = copies s i) :
    Exact t where
  kept i q hq hget := (hcopies i).trans (h.kept i q (hrec ▸ hq) hget)
  single i j q q' hq hq' hget hget' hkey hi hj :=
    h.single i j q q' (hrec ▸ hq) (hrec ▸ hq') hget hget' hkey (fun ha => hi (hsent i ha))
      fun ha => hj (hsent j ha)
  small q hq := h.small q (hrec ▸ hq)

/-- What waits has not been answered. -/
theorem not_answered {s : State} (h : Routed s) {e : Entry}
    (hw : 0 < tally Entry.arrival s.pending_requests e.arrival +
      tally (fun x => x.1.arrival) s.ready_requests e.arrival +
      (s.listener.held.map Entry.arrival).count e.arrival) : ¬s.Answered e.arrival := by
  intro ha
  have hpos : 0 < (s.sent.map Reply.arrival).count e.arrival := List.count_pos_iff.mpr ha
  have honce := h.once e.arrival
  unfold copies at honce
  omega

theorem not_answered_pending {s : State} (h : Routed s) {k : Key} {e : Entry}
    (he : s.pending_requests.lookup k = some e) : ¬s.Answered e.arrival := by
  apply not_answered h
  have := tally_pos Entry.arrival he
  omega

/-- The entry the listener holds meets no finished reply under its key. -/
theorem ready_free {s : State} (h : Routed s) (hx : Exact s) {o : Option ℕ} {k : Key} {e : Entry}
    {v : Bytes} (hstore : s.listener = .store o k e v) : s.ready_requests.lookup k = none := by
  by_contra hne
  obtain ⟨⟨e', v'⟩, he'⟩ := Option.ne_none_iff_exists'.mp hne
  have hheld : 0 < (s.listener.held.map Entry.arrival).count e.arrival := by
    rw [hstore]
    simp
  have hready : 0 < tally (fun x => x.1.arrival) s.ready_requests e'.arrival :=
    tally_pos (fun x : Entry × Bytes => x.1.arrival) he'
  obtain ⟨hq, hk, hget⟩ := (h.stored o k e v hstore).1
  obtain ⟨hq', hk', hget'⟩ := (h.ready k e' v' he').1
  have heq : e.arrival = e'.arrival := by
    apply hx.single _ _ _ _ hq hq' hget hget' (hk.trans hk'.symm)
    · exact not_answered h (by omega)
    · exact not_answered h (by omega)
  have honce := h.once e.arrival
  rw [← heq] at hready
  unfold copies at honce
  omega

theorem Exact.forget {s : State} (h : Exact s) {l : Listener} (hl : l.held = [])
    (hidle : s.listener.held = []) : Exact { s with listener := l } := by
  refine h.conserve rfl (fun _ ha => ha) ?_
  intro i
  simp only [copies, hl, hidle]

theorem Exact.deliver {s : State} (h : Exact s) (hidle : s.listener.held = []) (cmd : Command)
    (value : Bytes) : Exact (s.deliver cmd value) := by
  obtain ⟨e, o, he, ht⟩ | ⟨l, hl, ht⟩ := deliver_cases s cmd value
  · rw [ht]
    refine h.conserve rfl (fun _ ha => ha) ?_
    intro i
    have hout := tally_erase Entry.arrival he i
    simp only [copies, hidle, held_store, List.map_cons, List.map_nil, List.count_singleton,
      List.count_nil, beq_iff_eq] at hout ⊢
    omega
  · rw [ht]
    exact h.forget hl hidle

theorem Exact.listen {s t : State} (h : Exact s) (hr : Routed s) (ht : s.listen = some t) :
    Exact t := by
  obtain ⟨o, k, e, v, l, hstore, hl, rfl⟩ | ⟨seq, kv, l, hclean, hl, rfl⟩ := listen_cases ht
  · have hfree := erase_of_lookup_none (ready_free hr h hstore)
    refine h.conserve rfl (fun _ ha => ha) ?_
    intro i
    simp only [copies, hstore, hl, held_store, List.map_cons, List.map_nil, List.count_singleton,
      List.count_nil, beq_iff_eq, tally_insert, hfree]
    omega
  · have hf := h.forget hl (by rw [hclean]; rfl)
    exact hf.conserve rfl (fun _ ha => ha) (fun _ => rfl)

/-- Every size fits, so the entry taken out of `ready_requests` is answered. -/
theorem Exact.answer {s : State} (h : Exact s) (hr : Routed s) {k : Key} {e : Entry} {v : Bytes}
    (he : s.ready_requests.lookup k = some (e, v)) : Exact (s.answer k e v) := by
  obtain ⟨hq, hk, hget⟩ := (hr.ready k e v he).1
  have hreply : ∃ b, reply k e v = .ok b := by
    unfold reply
    cases hop : e.request.opcode with
    | GET => exact ⟨_, rfl⟩
    | GETSMART =>
        have hsmall := h.small e.request (List.mem_of_getElem? hq) hop
        exact ⟨_, if_pos hsmall⟩
    | _ => simp [Request.isGet, hop] at hget
  obtain ⟨b, hb⟩ := hreply
  unfold State.answer
  rw [hb]
  refine h.conserve rfl ?_ ?_
  · intro i ha
    unfold State.Answered at ha ⊢
    rw [List.map_append]
    exact List.mem_append_left _ ha
  · intro i
    have hout : tally (fun x => x.1.arrival) s.ready_requests i =
        tally (fun x => x.1.arrival) (s.ready_requests.erase k) i +
          if e.arrival = i then 1 else 0 :=
      tally_erase (fun x : Entry × Bytes => x.1.arrival) he i
    simp only [copies, List.map_append, List.map_cons, List.map_nil, List.count_append,
      List.count_singleton, beq_iff_eq] at hout ⊢
    omega

/-- The last request is the new one, or it was there before. -/
theorem getElem?_concat {α : Type*} {xs : List α} {x y : α} {i : ℕ}
    (h : (xs ++ [x])[i]? = some y) : xs[i]? = some y ∨ i = xs.length ∧ y = x := by
  rw [List.getElem?_append] at h
  split at h
  · exact .inl h
  · apply Or.inr
    have hi : i - xs.length = 0 := by
      by_contra hne
      obtain ⟨n, hn⟩ := Nat.exists_eq_succ_of_ne_zero hne
      simp [hn] at h
    rw [hi] at h
    constructor
    · omega
    · exact (Option.some.inj h).symm

/-- A GET or GETSMART joins `pending_requests` without dropping an entry. -/
theorem Exact.wait {s : State} (h : Exact s) (hr : Routed s) {r : Request} (hget : r.isGet = true)
    (hfree : ∀ i q, s.received[i]? = some q → q.isGet = true → q.key = r.key → s.Answered i)
    (hsmall : r.opcode = .GETSMART → r.size.toNat ≤ maxint) (m : Main) :
    Exact { s with
      received := s.received ++ [r]
      pending_requests := s.pending_requests.insert r.key ⟨s.received.length, r⟩, main := m } := by
  have hnone : s.pending_requests.lookup r.key = none := by
    by_contra hne
    obtain ⟨e, he⟩ := Option.ne_none_iff_exists'.mp hne
    obtain ⟨hq, hk, hg⟩ := hr.pending r.key e he
    exact not_answered_pending hr he (hfree _ _ hq hg hk)
  have hcopies : ∀ i, copies { s with
      received := s.received ++ [r]
      pending_requests := s.pending_requests.insert r.key ⟨s.received.length, r⟩, main := m } i =
      copies s i + if s.received.length = i then 1 else 0 := by
    intro i
    simp only [copies, tally_insert, erase_of_lookup_none hnone]
    omega
  constructor
  · intro i q hq hg
    rw [hcopies]
    obtain hold | ⟨rfl, rfl⟩ := getElem?_concat hq
    · have hlt := (List.getElem?_eq_some_iff.mp hold).1
      rw [h.kept i q hold hg, if_neg (by omega)]
    · rw [hr.copies_new, if_pos rfl]
  · intro i j q q' hq hq' hg hg' hkey hi hj
    obtain hold | ⟨rfl, rfl⟩ := getElem?_concat hq
    · obtain hold' | ⟨rfl, rfl⟩ := getElem?_concat hq'
      · exact h.single i j q q' hold hold' hg hg' hkey hi hj
      · exact absurd (hfree i q hold hg hkey) hi
    · obtain hold' | ⟨rfl, rfl⟩ := getElem?_concat hq'
      · exact absurd (hfree j q' hold' hg' hkey.symm) hj
      · rfl
  · intro q hq hop
    obtain hin | rfl := List.mem_append.mp hq |>.imp_right List.mem_singleton.mp
    · exact h.small q hin hop
    · exact hsmall hop

theorem Exact.other {s : State} (h : Exact s) {r : Request} (hget : r.isGet = false)
    (rs : List Reply) (m : Main) (hcopies : ∀ i < s.received.length,
      (rs.map Reply.arrival).count i = 0) :
    Exact { s with received := s.received ++ [r], sent := s.sent ++ rs, main := m } := by
  have hop : r.opcode ≠ .GETSMART := by
    intro hop
    simp [Request.isGet, hop] at hget
  have hold : ∀ {i : ℕ} {q : Request}, (s.received ++ [r])[i]? = some q → q.isGet = true →
      s.received[i]? = some q := by
    intro i q hq hg
    obtain hold | ⟨-, rfl⟩ := getElem?_concat hq
    · exact hold
    · rw [hget] at hg
      cases hg
  have hans : ∀ i, s.Answered i → i ∈ (s.sent ++ rs).map Reply.arrival := by
    intro i ha
    rw [List.map_append]
    exact List.mem_append_left _ ha
  constructor
  · intro i q hq hg
    have hkept := h.kept i q (hold hq hg) hg
    have hzero := hcopies i (List.getElem?_eq_some_iff.mp (hold hq hg)).1
    simp only [copies, List.map_append, List.count_append] at hkept ⊢
    omega
  · intro i j q q' hq hq' hg hg' hkey hi hj
    exact h.single i j q q' (hold hq hg) (hold hq' hg') hg hg' hkey (fun ha => hi (hans i ha))
      fun ha => hj (hans j ha)
  · intro q hq hop'
    obtain hin | rfl := List.mem_append.mp hq |>.imp_right List.mem_singleton.mp
    · exact h.small q hin hop'
    · exact absurd hop' hop

theorem answered_of_getElem {s : State} {r q : Request} {i : ℕ} (h : NoCollision (.receive r) s)
    (hget : r.isGet = true) (hq : s.received[i]? = some q) (hq' : q.isGet = true)
    (hkey : q.key = r.key) : s.Answered i := by
  obtain ⟨hlt, rfl⟩ := List.getElem?_eq_some_iff.mp hq
  exact h hget ⟨i, hlt⟩ hq' hkey

theorem Exact.receive {s : State} (h : Exact s) (hr : Routed s) {r : Request}
    (hfree : NoCollision (.receive r) s) (hsmall : Representable (.receive r) s) :
    Exact (s.receive r) := by
  unfold State.receive
  cases hop : r.opcode with
  | NONE =>
      have hother := h.other (r := r) (by simp [Request.isGet, hop]) [] (.raised .NotImplementedError)
        (fun _ _ => rfl)
      simpa using hother
  | PING =>
      apply h.other (by simp [Request.isGet, hop])
      intro i hi
      simp only [List.map_cons, List.map_nil, List.count_singleton, beq_iff_eq]
      exact if_neg (by omega)
  | GET =>
      have hget : r.isGet = true := by simp [Request.isGet, hop]
      exact h.wait hr hget (fun i q hq => answered_of_getElem hfree hget hq) hsmall _
  | GETSMART =>
      have hget : r.isGet = true := by simp [Request.isGet, hop]
      exact h.wait hr hget (fun i q hq => answered_of_getElem hfree hget hq) hsmall _

/-- No collisions, and no size beyond `sys.maxint`. -/
def Answerable (a : Action) (s : State) : Prop := Strict a s ∧ Representable a s

instance (a : Action) (s : State) : Decidable (Answerable a s) :=
  inferInstanceAs (Decidable (_ ∧ _))

theorem exact_step :
    proxy_server.Preserves Answerable fun s => Routed s ∧ Exact s := by
  rintro a s t ⟨hr, h⟩ ⟨⟨hdrive, hfree⟩, hsmall⟩ hst
  refine ⟨routed_step a s t hr hdrive hst, ?_⟩
  have heff := step_effect hst
  cases a with
  | receive r => exact heff.2 ▸ h.receive hr hfree hsmall
  | no_event =>
      obtain ⟨-, rfl⟩ := heff
      exact h.conserve rfl (fun _ ha => ha) (fun _ => rfl)
  | acquire =>
      obtain ⟨key, kv, -, -, rfl⟩ := heff
      exact h.conserve rfl (fun _ ha => ha) (fun _ => rfl)
  | header =>
      obtain ⟨key, -, rfl⟩ := heff
      exact h.conserve rfl (fun _ ha => ha) (fun _ => rfl)
  | send accepted =>
      obtain ⟨seq, key, -, ⟨-, rfl⟩ | ⟨rfl, -⟩⟩ := heff
      · exact h.conserve rfl (fun _ ha => ha) (fun _ => rfl)
      · exact hdrive.2.elim
  | respond picked =>
      cases picked with
      | none =>
          obtain ⟨-, -, rfl⟩ := heff
          exact h.conserve rfl (fun _ ha => ha) (fun _ => rfl)
      | some key =>
          obtain ⟨-, e, v, he, rfl⟩ := heff
          exact h.answer hr he
  | drive seq cmd value =>
      obtain ⟨hidle, -, key, -, rfl⟩ := heff
      have htaken : Exact (s.take_response seq key cmd value) :=
        h.conserve rfl (fun _ ha => ha) (fun _ => rfl)
      apply htaken.deliver
      simp [State.take_response, hidle, Listener.held]
  | bad_hmac seq => exact hdrive.2.elim
  | timeout => exact hdrive.2.elim
  | socket_error => exact hdrive.2.elim
  | listen => exact h.listen hr heff

theorem exact_of_reachable {s : State} (h : proxy_server.ReachableWith Answerable s) : Exact s := by
  refine (h.invariant (I := fun s => Routed s ∧ Exact s) ⟨routed_start, ?_⟩ exact_step).2
  exact ⟨by simp [proxy_server], by simp [proxy_server], by simp [proxy_server]⟩

/-- With `_pending` empty the listener holds nothing. -/
theorem held_of_pending_empty {s : State} (h : Tracked s.kvclient s.main s.listener)
    (hpending : s.kvclient.pending = ∅) : s.listener.held = [] := by
  cases hl : s.listener with
  | store o k e v =>
      cases o with
      | none => exact absurd hl (h.direct k e v)
      | some seq =>
          rw [hl] at h
          have hin : seq ∈ s.kvclient.pending := h.client.known_of_handling List.mem_cons_self
          rw [hpending] at hin
          exact absurd hin (AList.notMem_empty seq)
  | _ => rfl

/-- Replies go to the right place, at most one to a request; and when everything has come to
rest, each GET and GETSMART has had its reply. -/
theorem routing {s : State} (h : proxy_server.ReachableWith DriveOnly s) :
    ((s.sent.map Reply.arrival).Nodup ∧ ∀ r ∈ s.sent, Answers s.received s.returned r) ∧
      (proxy_server.ReachableWith Answerable s → s.kvclient.pending = ∅ →
        s.pending_requests = ∅ → s.ready_requests = ∅ →
        ∀ i q, s.received[i]? = some q → q.isGet = true →
          (s.sent.map Reply.arrival).count i = 1) := by
  have hr := routed_of_reachable h
  constructor
  · constructor
    · rw [List.nodup_iff_count_le_one]
      intro i
      have honce := hr.once i
      unfold copies at honce
      omega
    · exact hr.sent
  · intro hstrict hpending hwaiting hready i q hq hget
    have hkept := (exact_of_reachable hstrict).kept i q hq hget
    have hheld := held_of_pending_empty (tracked_of_reachable h) hpending
    simpa [copies, hwaiting, hready, hheld] using hkept

/-! ### Two requests at a time, and a size that no string has -/

def smartRequest (size : UInt64) : Request := ⟨2, .GETSMART, [108], size⟩

/-- Both requests are at the drive before either response comes, and the replies leave in the
order of the requests, not of the responses. -/
def twoRequests (size : UInt64) : List Action :=
  [.receive ⟨1, .GET, [107], 0⟩, .acquire, .header, .send true, .respond none,
    .receive (smartRequest size), .acquire, .header, .send true, .respond none,
    .drive 1 ⟨1, .SUCCESS, [108]⟩ [5, 6], .listen, .listen,
    .drive 0 ⟨0, .SUCCESS, [107]⟩ [7], .listen, .listen,
    .no_event, .respond (some [107]), .no_event, .respond (some [108])]

theorem twoRequests_runs :
    (proxy_server.exec (twoRequests 4) proxy_server.start).isSome = true := by decide +kernel

theorem routing_twoRequests :
    (((proxy_server.last _ twoRequests_runs).sent.map Reply.arrival).Nodup ∧
      ∀ r ∈ (proxy_server.last _ twoRequests_runs).sent,
        Answers (proxy_server.last _ twoRequests_runs).received
          (proxy_server.last _ twoRequests_runs).returned r) ∧
      ((proxy_server.last _ twoRequests_runs).sent.map Reply.arrival).count 1 = 1 := by
  have hstrict : proxy_server.ReachableWith Answerable (proxy_server.last _ twoRequests_runs) :=
    System.reachableWith_last _ _ (by decide +kernel)
  have hrouting := routing (hstrict.mono fun _ _ hg => hg.1.1)
  constructor
  · exact hrouting.1
  · exact hrouting.2 hstrict (empty_of_keys (by decide +kernel)) (empty_of_keys (by decide +kernel))
      (empty_of_keys (by decide +kernel)) 1 (smartRequest 4) (by decide +kernel) rfl

theorem hugeSize_runs :
    (proxy_server.exec (twoRequests 0x8000000000000000) proxy_server.start).isSome = true := by decide +kernel

/-- The reply to a GETSMART is bare zero bytes, without an opcode; and where the size is
beyond `sys.maxint` there is none, because the main thread has taken the entry out and dies
on `b'\0' * req_msg.size`. -/
theorem smart_reply_bare_or_lost :
    (¬ ∀ s, proxy_server.ReachableWith Strict s → ∀ r ∈ s.sent, ∀ q,
      s.received[r.arrival]? = some q → ∃ key value, r.body = .message key q.opcode value) ∧
    ¬ ∀ s, proxy_server.ReachableWith Strict s →
      s.kvclient.pending = ∅ → s.pending_requests = ∅ → s.ready_requests = ∅ →
      ∀ i q, s.received[i]? = some q → q.isGet = true →
        (s.sent.map Reply.arrival).count i = 1 := by
  constructor
  · intro h
    have hstrict : proxy_server.ReachableWith Strict (proxy_server.last _ twoRequests_runs) :=
      System.reachableWith_last _ _ (by decide +kernel)
    obtain ⟨key, value, hbody⟩ := h _ hstrict ⟨1, 2, .raw [0, 0, 0, 0]⟩ (by decide +kernel)
      (smartRequest 4) (by decide +kernel)
    cases hbody
  · intro h
    have hstrict : proxy_server.ReachableWith Strict (proxy_server.last _ hugeSize_runs) :=
      System.reachableWith_last _ _ (by decide +kernel)
    have hone := h _ hstrict (empty_of_keys (by decide +kernel)) (empty_of_keys (by decide +kernel))
      (empty_of_keys (by decide +kernel)) 1 (smartRequest 0x8000000000000000) (by decide +kernel) rfl
    exact absurd hone (by decide +kernel)

end SmartDisk.ProxyAnswers
