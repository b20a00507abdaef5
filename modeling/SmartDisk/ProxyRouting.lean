import SmartDisk.ProxyServer

/-!
# Whose reply goes where

The dictionaries of the proxy are keyed by the key alone, and replies leave in the
order of `popitem`. The position of a request in `received` is the identity that
the code does not have: an entry keeps it while it waits in `pending_requests`, in the
hands of the listener and in `ready_requests`, and the reply inherits it. A key
that is asked for again drops the earlier entry, so a position can be lost but is
never doubled; without such collisions none is lost either.
-/
namespace SmartDisk.ProxyRouting
open ActionSystem KineticClient ProxyServer

/-- `e` is the entry of a received request for the key `k`. -/
def Waits (received : List Request) (k : Key) (e : Entry) : Prop :=
  received[e.arrival]? = some e.request ∧ e.request.key = k ∧ e.request.isGet = true

/-- The drive returned `v` for `k`, or failed and `v` is empty. -/
def Said (returned : List (Key × Option Bytes)) (k : Key) (v : Bytes) : Prop :=
  ∃ res, (k, res) ∈ returned ∧ v = res.getD []

/-- The reply that the request `q` asks for. -/
def Fits (returned : List (Key × Option Bytes)) (q : Request) (body : Body) : Prop :=
  match q.opcode with
  | .NONE => False
  | .PING => body = .message [] .NONE PONG
  | .GET => ∃ v, Said returned q.key v ∧ body = .message q.key .GET v
  | .GETSMART => body = .raw (List.replicate q.size.toNat 0)

/-- The reply goes to the address of the request it answers and fits it. -/
def Answers (received : List Request) (returned : List (Key × Option Bytes)) (r : Reply) : Prop :=
  ∃ q, received[r.arrival]? = some q ∧ r.address = q.address ∧ Fits returned q r.body

/-- The gets are issued to a drive that echoes the key, and nothing else goes wrong. -/
def DriveOnly (a : Action) (s : State) : Prop := Echoes a s ∧ Quiet a s

/-- No key is asked for while a request for it is unanswered. -/
def Strict (a : Action) (s : State) : Prop := DriveOnly a s ∧ NoCollision a s

instance (a : Action) (s : State) : Decidable (DriveOnly a s) :=
  inferInstanceAs (Decidable (_ ∧ _))

instance (a : Action) (s : State) : Decidable (Strict a s) :=
  inferInstanceAs (Decidable (_ ∧ _))

/-! ### Every entry and every reply belongs to one request -/

/-- In how many places the request `i` is waiting or answered. -/
def copies (s : State) (i : ℕ) : ℕ :=
  tally Entry.arrival s.pending_requests i + tally (fun x => x.1.arrival) s.ready_requests i +
    (s.listener.held.map Entry.arrival).count i + (s.sent.map Reply.arrival).count i

structure Routed (s : State) : Prop where
  pending : ∀ k e, s.pending_requests.lookup k = some e → Waits s.received k e
  ready : ∀ k e v, s.ready_requests.lookup k = some (e, v) →
    Waits s.received k e ∧ Said s.returned k v
  stored : ∀ o k e v, s.listener = .store o k e v → Waits s.received k e ∧ Said s.returned k v
  sent : ∀ r ∈ s.sent, Answers s.received s.returned r
  once : ∀ i, copies s i ≤ 1

theorem getElem?_of_le {α : Type*} {xs ys : List α} {i : ℕ} {x : α} (h : xs <+: ys)
    (hx : xs[i]? = some x) : ys[i]? = some x := by
  obtain ⟨zs, rfl⟩ := h
  rw [List.getElem?_append_left (List.getElem?_eq_some_iff.mp hx).1, hx]

theorem Waits.mono {rs rs' : List Request} {k : Key} {e : Entry} (h : Waits rs k e)
    (hrs : rs <+: rs') : Waits rs' k e :=
  ⟨getElem?_of_le hrs h.1, h.2⟩

theorem Said.mono {vs vs' : List (Key × Option Bytes)} {k : Key} {v : Bytes} (h : Said vs k v)
    (hvs : vs ⊆ vs') : Said vs' k v := by
  obtain ⟨res, hres, hv⟩ := h
  exact ⟨res, hvs hres, hv⟩

theorem Fits.mono {vs vs' : List (Key × Option Bytes)} {q : Request} {b : Body} (h : Fits vs q b)
    (hvs : vs ⊆ vs') : Fits vs' q b := by
  unfold Fits at h ⊢
  split <;> simp_all only
  obtain ⟨v, hv, hb⟩ := h
  exact ⟨v, hv.mono hvs, hb⟩

theorem Answers.mono {rs rs' : List Request} {vs vs' : List (Key × Option Bytes)} {r : Reply}
    (h : Answers rs vs r) (hrs : rs <+: rs') (hvs : vs ⊆ vs') : Answers rs' vs' r := by
  obtain ⟨q, hq, haddr, hfits⟩ := h
  exact ⟨q, getElem?_of_le hrs hq, haddr, hfits.mono hvs⟩

theorem said_result {vs : List (Key × Option Bytes)} {k : Key} {cmd : Command} {value : Bytes}
    (h : (k, cmd.outcome value) ∈ vs) : Said vs k (result cmd value) := by
  refine ⟨_, h, ?_⟩
  unfold result Command.outcome
  split <;> rfl

/-- An index that occurs anywhere is the position of a request. -/
theorem Routed.lt_length {s : State} (h : Routed s) {i : ℕ} (hi : 0 < copies s i) :
    i < s.received.length := by
  have hlt : ∀ {q : Request} {j : ℕ}, s.received[j]? = some q → j < s.received.length :=
    fun hq => (List.getElem?_eq_some_iff.mp hq).1
  have hcases : 0 < tally Entry.arrival s.pending_requests i ∨
      0 < tally (fun x => x.1.arrival) s.ready_requests i ∨
      0 < (s.listener.held.map Entry.arrival).count i ∨ 0 < (s.sent.map Reply.arrival).count i := by
    unfold copies at hi
    omega
  obtain hp | hr | hl | hs := hcases
  · obtain ⟨k, e, he, rfl⟩ := exists_of_tally_pos hp
    exact hlt (h.pending k e he).1
  · obtain ⟨k, ⟨e, v⟩, he, rfl⟩ := exists_of_tally_pos hr
    exact hlt (h.ready k e v he).1.1
  · cases hstore : s.listener with
    | store o k e v =>
        rw [hstore] at hl
        obtain rfl : i = e.arrival := by simpa [Listener.held] using List.count_pos_iff.mp hl
        exact hlt (h.stored o k e v hstore).1.1
    | _ => simp [hstore, Listener.held] at hl
  · obtain ⟨r, hr, rfl⟩ := List.mem_map.mp (List.count_pos_iff.mp hs)
    obtain ⟨q, hq, -⟩ := h.sent r hr
    exact hlt hq

/-- The next position is still free. -/
theorem Routed.copies_new {s : State} (h : Routed s) : copies s s.received.length = 0 := by
  by_contra hpos
  exact absurd (h.lt_length (Nat.pos_of_ne_zero hpos)) (Nat.lt_irrefl _)

/-- The history grows. -/
theorem Routed.grow {s : State} (h : Routed s) {rs : List Request}
    {vs : List (Key × Option Bytes)} (hrs : s.received <+: rs) (hvs : s.returned ⊆ vs) :
    Routed { s with received := rs, returned := vs } where
  pending k e he := (h.pending k e he).mono hrs
  ready k e v he := ⟨(h.ready k e v he).1.mono hrs, (h.ready k e v he).2.mono hvs⟩
  stored o k e v he := ⟨(h.stored o k e v he).1.mono hrs, (h.stored o k e v he).2.mono hvs⟩
  sent r hr := (h.sent r hr).mono hrs hvs
  once := h.once

/-- The listener lets go of what it holds. -/
theorem Routed.forget {s : State} (h : Routed s) {l : Listener} (hl : l.held = []) :
    Routed { s with listener := l } where
  pending := h.pending
  ready := h.ready
  stored o k e v he := by
    simp only at he
    simp [he, Listener.held] at hl
  sent := h.sent
  once i := by
    have honce := h.once i
    simp only [copies, hl, List.map_nil, List.count_nil] at honce ⊢
    omega

/-- A request joins `pending_requests`. -/
theorem Routed.wait {s : State} (h : Routed s) {r : Request} (hget : r.isGet = true) (m : Main) :
    Routed { s with
      received := s.received ++ [r]
      pending_requests := s.pending_requests.insert r.key ⟨s.received.length, r⟩, main := m } where
  pending k e he := by
    simp only [lookup_insert_eq] at he
    split at he
    · rename_i hk
      cases he
      exact ⟨by simp, hk.symm, hget⟩
    · exact (h.pending k e he).mono (List.prefix_append _ _)
  ready k e v he := ⟨(h.ready k e v he).1.mono (List.prefix_append _ _), (h.ready k e v he).2⟩
  stored o k e v he :=
    ⟨(h.stored o k e v he).1.mono (List.prefix_append _ _), (h.stored o k e v he).2⟩
  sent r hr := (h.sent r hr).mono (List.prefix_append _ _) (List.Subset.refl _)
  once i := by
    have honce := h.once i
    have hnew := h.copies_new
    have hle := tally_erase_le (d := s.pending_requests) Entry.arrival r.key i
    simp only [copies, tally_insert] at honce hnew ⊢
    split
    · subst i
      omega
    · omega

/-- The first step of `data_callbak`. -/
theorem Routed.pop {s : State} (h : Routed s) {o : Option ℕ} {k : Key} {e : Entry} {v : Bytes}
    (he : s.pending_requests.lookup k = some e) (hv : Said s.returned k v) :
    Routed { s with
      pending_requests := s.pending_requests.erase k, listener := .store o k e v } where
  pending k' e' he' := by
    simp only [lookup_erase_eq] at he'
    split at he'
    · cases he'
    · exact h.pending k' e' he'
  ready := h.ready
  stored o' k' e' v' he' := by
    cases he'
    exact ⟨h.pending k e he, hv⟩
  sent := h.sent
  once i := by
    have honce := h.once i
    have hout := tally_erase Entry.arrival he i
    simp only [copies, Listener.held, List.map_cons, List.map_nil, List.count_singleton,
      beq_iff_eq] at honce ⊢
    omega

/-- The second step of `data_callbak`. -/
theorem Routed.store {s : State} (h : Routed s) {o : Option ℕ} {k : Key} {e : Entry} {v : Bytes}
    {l : Listener} (hstore : s.listener = .store o k e v) (hl : l.held = []) :
    Routed { s with ready_requests := s.ready_requests.insert k (e, v), listener := l } where
  pending := h.pending
  ready k' e' v' he' := by
    simp only [lookup_insert_eq] at he'
    split at he'
    · rename_i hk
      cases he'
      exact hk ▸ h.stored o k e v hstore
    · exact h.ready k' e' v' he'
  stored o' k' e' v' he' := by
    simp only at he'
    simp [he', Listener.held] at hl
  sent := h.sent
  once i := by
    have honce := h.once i
    have hle := tally_erase_le (d := s.ready_requests) (fun x => x.1.arrival) k i
    simp only [copies, hstore, hl, held_store, List.map_cons, List.map_nil, List.count_singleton,
      List.count_nil, beq_iff_eq, tally_insert] at honce ⊢
    omega

/-- `reply` answers the request of a finished entry, unless the main thread raises. -/
theorem fits_reply {s : State} {k : Key} {e : Entry} {v : Bytes} {b : Body}
    (hw : Waits s.received k e) (hv : Said s.returned k v) (hb : reply k e v = .ok b) :
    Answers s.received s.returned ⟨e.arrival, e.request.address, b⟩ := by
  obtain ⟨hget, hkey, -⟩ := hw
  refine ⟨e.request, hget, rfl, ?_⟩
  unfold reply at hb
  unfold Fits
  cases hop : e.request.opcode with
  | GET =>
      rw [hop] at hb
      cases hb
      exact ⟨v, hkey ▸ hv, by rw [hkey]⟩
  | GETSMART =>
      rw [hop] at hb
      simp only at hb
      split at hb
      · cases hb
        rfl
      · cases hb
  | _ =>
      rw [hop] at hb
      cases hb

theorem Routed.answer {s : State} (h : Routed s) {k : Key} {e : Entry} {v : Bytes}
    (he : s.ready_requests.lookup k = some (e, v)) : Routed (s.answer k e v) := by
  have hrest : ∀ k' e' v', (s.ready_requests.erase k).lookup k' = some (e', v') →
      Waits s.received k' e' ∧ Said s.returned k' v' := by
    intro k' e' v' he'
    rw [lookup_erase_eq] at he'
    split at he'
    · cases he'
    · exact h.ready k' e' v' he'
  have hout : ∀ i, tally (fun x => x.1.arrival) s.ready_requests i =
      tally (fun x => x.1.arrival) (s.ready_requests.erase k) i + if e.arrival = i then 1 else 0 :=
    tally_erase (fun x : Entry × Bytes => x.1.arrival) he
  unfold State.answer
  cases hb : reply k e v with
  | ok b =>
      refine ⟨h.pending, hrest, h.stored, ?_, ?_⟩
      · intro r hr
        obtain hr | rfl := List.mem_append.mp hr |>.imp_right List.mem_singleton.mp
        · exact h.sent r hr
        · exact fits_reply (h.ready k e v he).1 (h.ready k e v he).2 hb
      · intro i
        have honce := h.once i
        have hi := hout i
        simp only [copies, List.map_append, List.map_cons, List.map_nil, List.count_append,
          List.count_singleton, beq_iff_eq] at honce ⊢
        omega
  | error x =>
      refine ⟨h.pending, hrest, h.stored, h.sent, ?_⟩
      intro i
      have honce := h.once i
      have hi := hout i
      simp only [copies] at honce ⊢
      omega

theorem Routed.receive {s : State} (h : Routed s) (r : Request) : Routed (s.receive r) := by
  have hgrow : ∀ m, Routed { s with received := s.received ++ [r], main := m } := by
    intro m
    have hg := h.grow (List.prefix_append s.received [r]) (List.Subset.refl s.returned)
    exact ⟨hg.pending, hg.ready, hg.stored, hg.sent, hg.once⟩
  unfold State.receive
  cases hop : r.opcode with
  | NONE => exact hgrow _
  | PING =>
      have hg := hgrow .respond
      refine ⟨hg.pending, hg.ready, hg.stored, ?_, ?_⟩
      · intro x hx
        obtain hx | rfl := List.mem_append.mp hx |>.imp_right List.mem_singleton.mp
        · exact hg.sent x hx
        · exact ⟨r, by simp, rfl, by simp [Fits, hop]⟩
      · intro i
        have honce := h.once i
        have hnew := h.copies_new
        simp only [copies, List.map_append, List.map_cons, List.map_nil, List.count_append,
          List.count_singleton, beq_iff_eq] at honce hnew ⊢
        split
        · subst i
          omega
        · omega
  | GET => exact h.wait (by simp [Request.isGet, hop]) _
  | GETSMART => exact h.wait (by simp [Request.isGet, hop]) _

theorem Routed.deliver {s : State} (h : Routed s) {cmd : Command} {value : Bytes}
    (hsaid : (cmd.key, cmd.outcome value) ∈ s.returned) : Routed (s.deliver cmd value) := by
  obtain ⟨e, o, he, ht⟩ | ⟨l, hl, ht⟩ := deliver_cases s cmd value
  · rw [ht]
    exact h.pop he (said_result hsaid)
  · rw [ht]
    exact h.forget hl

theorem Routed.listen {s t : State} (h : Routed s) (ht : s.listen = some t) : Routed t := by
  obtain ⟨o, k, e, v, l, hstore, hl, rfl⟩ | ⟨seq, kv, l, -, hl, rfl⟩ := listen_cases ht
  · exact h.store hstore hl
  · have hf := h.forget hl
    exact ⟨hf.pending, hf.ready, hf.stored, hf.sent, hf.once⟩

theorem routed_start : Routed proxy_server.start where
  pending k e he := by simp [proxy_server] at he
  ready k e v he := by simp [proxy_server] at he
  stored o k e v he := by simp [proxy_server] at he
  sent r hr := by simp [proxy_server] at hr
  once i := by simp [copies, proxy_server, Listener.held]

theorem routed_step : proxy_server.Preserves DriveOnly Routed := by
  intro a s t h hg hst
  have heff := step_effect hst
  cases a with
  | receive r => exact heff.2 ▸ h.receive r
  | no_event =>
      obtain ⟨-, rfl⟩ := heff
      exact ⟨h.pending, h.ready, h.stored, h.sent, h.once⟩
  | acquire =>
      obtain ⟨key, kv, -, -, rfl⟩ := heff
      exact ⟨h.pending, h.ready, h.stored, h.sent, h.once⟩
  | header =>
      obtain ⟨key, -, rfl⟩ := heff
      exact ⟨h.pending, h.ready, h.stored, h.sent, h.once⟩
  | send accepted =>
      obtain ⟨seq, key, -, ⟨-, rfl⟩ | ⟨rfl, -⟩⟩ := heff
      · exact ⟨h.pending, h.ready, h.stored, h.sent, h.once⟩
      · exact hg.2.elim
  | respond picked =>
      cases picked with
      | none =>
          obtain ⟨-, -, rfl⟩ := heff
          exact ⟨h.pending, h.ready, h.stored, h.sent, h.once⟩
      | some key =>
          obtain ⟨-, e, v, he, rfl⟩ := heff
          exact h.answer he
  | drive seq cmd value =>
      obtain ⟨-, -, key, hkey, rfl⟩ := heff
      have hecho : key = cmd.key := Option.some.inj (hkey.symm.trans hg.1)
      have hgrow := h.grow (List.prefix_refl s.received)
        (List.subset_append_left s.returned [(key, cmd.outcome value)])
      have htaken : Routed (s.take_response seq key cmd value) :=
        ⟨hgrow.pending, hgrow.ready, hgrow.stored, hgrow.sent, hgrow.once⟩
      apply htaken.deliver
      simp [State.take_response, hecho]
  | bad_hmac seq => exact hg.2.elim
  | timeout => exact hg.2.elim
  | socket_error => exact hg.2.elim
  | listen => exact h.listen heff

theorem routed_of_reachable {s : State} (h : proxy_server.ReachableWith DriveOnly s) : Routed s :=
  h.invariant routed_start routed_step

end SmartDisk.ProxyRouting
