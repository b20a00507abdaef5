import SmartDisk.ProxyServer

/-!
# Which completions the proxy can attribute

`data_callbak` finds the request only through the key in the response. A response of
the drive carries the key of its command; an error that the client reports about
itself leaves the field empty. So a completion moves the right request if and only if
it carries that request's key, the entry is there and no finished reply is in the way.
As long as the outstanding gets have distinct keys, each nonempty key among them has
its entry in `pending_requests`.
-/
namespace SmartDisk.ProxyErrors
open ActionSystem KineticClient ProxyServer

/-- The get that the main thread is issuing. -/
def asking : Main → List Key
  | .acquire key | .header key | .send _ key => [key]
  | _ => []

/-- The keys of the gets that have no completion yet. -/
def outstanding (s : State) : List Key := asking s.main ++ s.kvclient.wire.map Prod.snd

/-- The outstanding gets are on distinct keys. -/
def Distinct (a : Action) (s : State) : Prop :=
  match a with
  | .receive r => r.isGet = true → r.key ∉ outstanding s
  | _ => True

/-- The drive echoes keys, and none is asked for twice at a time. -/
def OnePerKey (a : Action) (s : State) : Prop := Echoes a s ∧ Distinct a s

instance : ∀ (a : Action) (s : State), Decidable (Distinct a s)
  | .receive r, s => inferInstanceAs (Decidable (r.isGet = true → r.key ∉ outstanding s))
  | .no_event, _ | .acquire, _ | .header, _ | .send _, _ | .respond _, _ | .drive _ _ _, _
  | .bad_hmac _, _ | .timeout, _ | .socket_error, _ | .listen, _ => .isTrue trivial

instance (a : Action) (s : State) : Decidable (OnePerKey a s) :=
  inferInstanceAs (Decidable (_ ∧ _))

/-- The ways in which the get for `key` can complete. -/
inductive Completion (s : State) (key : Key) : Command → Bytes → Prop
  | response {cmd : Command} {value : Bytes} (asked : (cmd.ackSequence, key) ∈ s.kvclient.wire) :
      Completion s key cmd value
  | client_error {code : StatusCode} (asked : key ∈ outstanding s)
      (own : code ∈ [.EXPIRED, .HMAC_FAILURE, .NOT_ATTEMPTED, .INTERNAL_ERROR]) :
      Completion s key (client_error code) []

/-- `data_callbak` returns; it has moved the entry of `key` from one dictionary to the other
and every other entry of the two is as before. -/
def MovesExactly (s : State) (key : Key) (cmd : Command) (value : Bytes) : Prop :=
  ∃ e pending ready,
    data_callbak s.pending_requests s.ready_requests cmd value = .ok (pending, ready) ∧
    s.pending_requests.entries.Perm (⟨key, e⟩ :: pending.entries) ∧
    ready.entries.Perm (⟨key, (e, result cmd value)⟩ :: s.ready_requests.entries)

/-- In the listener thread `data_callbak` runs in two steps. -/
theorem pop_pending_listen (s : State) (o : Option ℕ) (cmd : Command) (value : Bytes) :
    match data_callbak s.pending_requests s.ready_requests cmd value with
    | .ok (pending, ready) => ∃ t, (s.pop_pending o cmd value).listen = some t ∧
        t.pending_requests = pending ∧ t.ready_requests = ready
    | .error e => s.pop_pending o cmd value = { s with listener := .raised e } := by
  unfold data_callbak State.pop_pending
  cases s.pending_requests.lookup cmd.key with
  | none => rfl
  | some e => exact ⟨_, rfl, rfl, rfl⟩

/-! ### Every outstanding get has its entry -/

structure Asked (s : State) : Prop where
  once : (outstanding s).Nodup
  kept : ∀ k ∈ outstanding s, k ≠ [] → k ∈ s.pending_requests

theorem Asked.of_sublist {s t : State} (h : Asked s)
    (hsub : (outstanding t).Sublist (outstanding s))
    (hkept : ∀ k ∈ outstanding t, k ≠ [] → k ∈ s.pending_requests → k ∈ t.pending_requests) :
    Asked t where
  once := h.once.sublist hsub
  kept k hk hne := hkept k hk hne (h.kept k (hsub.subset hk) hne)

/-- The main thread is done with its get. -/
theorem Asked.done {s t : State} (h : Asked s) (hmain : asking t.main = [])
    (hwire : t.kvclient.wire = s.kvclient.wire)
    (hkept : ∀ k, k ≠ [] → k ∈ s.pending_requests → k ∈ t.pending_requests) : Asked t := by
  apply h.of_sublist
  · unfold outstanding
    rw [hmain, hwire]
    exact List.sublist_append_right _ _
  · exact fun k _ => hkept k

theorem deliver_frame (s : State) (cmd : Command) (value : Bytes) :
    (s.deliver cmd value).main = s.main ∧ (s.deliver cmd value).kvclient = s.kvclient ∧
      ∀ k ≠ cmd.key, k ∈ s.pending_requests → k ∈ (s.deliver cmd value).pending_requests := by
  obtain ⟨e, o, -, ht⟩ | ⟨l, -, ht⟩ := deliver_cases s cmd value
  · rw [ht]
    exact ⟨rfl, rfl, fun k hk hin => AList.mem_erase.mpr ⟨hk, hin⟩⟩
  · rw [ht]
    exact ⟨rfl, rfl, fun _ _ hin => hin⟩

/-- An error of the client's own can take away the entry of the empty key only. -/
theorem Asked.client_error {s : State} (t : State) (h : Asked s) (hmain : t.main = s.main)
    (hwire : t.kvclient.wire.Sublist s.kvclient.wire)
    (hpending : t.pending_requests = s.pending_requests) (code : StatusCode) :
    Asked (t.deliver (client_error code) []) := by
  obtain ⟨hm, hkv, hkept⟩ := deliver_frame t (KineticClient.client_error code) []
  apply h.of_sublist
  · unfold outstanding
    rw [hm, hkv, hmain]
    exact (List.Sublist.refl _).append (hwire.map Prod.snd)
  · intro k _ hne hin
    exact hkept k hne (hpending ▸ hin)

theorem Asked.not_attempted {s : State} (h : Asked s) : Asked s.not_attempted := by
  have herase : ∀ k : Key, k ≠ [] → k ∈ s.pending_requests → k ∈ s.pending_requests.erase [] :=
    fun k hk hin => AList.mem_erase.mpr ⟨hk, hin⟩
  unfold State.not_attempted data_callbak
  simp only [KineticClient.client_error]
  split
  · exact h.done rfl rfl fun _ _ hin => hin
  · exact h.done rfl rfl fun _ _ hin => hin
  · cases s.pending_requests.lookup [] with
    | none => exact h.done rfl rfl fun _ _ hin => hin
    | some e => exact h.done rfl rfl herase
  · cases s.pending_requests.lookup [] with
    | none => exact h.done rfl rfl fun _ _ hin => hin
    | some e => exact h.done rfl rfl herase

theorem Asked.receive {s : State} (h : Asked s) (hmain : s.main = .poll) {r : Request}
    (hnew : r.isGet = true → r.key ∉ outstanding s) : Asked (s.receive r) := by
  have hwait : r.isGet = true → Asked { s with
      received := s.received ++ [r]
      pending_requests := s.pending_requests.insert r.key ⟨s.received.length, r⟩
      main := .acquire r.key } := by
    intro hget
    have hout : outstanding s = s.kvclient.wire.map Prod.snd := by
      unfold outstanding
      rw [hmain]
      rfl
    constructor
    · change (r.key :: s.kvclient.wire.map Prod.snd).Nodup
      rw [← hout]
      exact List.nodup_cons.mpr ⟨hnew hget, h.once⟩
    · intro k hk hne
      change k ∈ r.key :: s.kvclient.wire.map Prod.snd at hk
      rw [← hout] at hk
      apply (AList.mem_insert s.pending_requests).mpr
      exact (List.mem_cons.mp hk).imp_right fun hin => h.kept k hin hne
  unfold State.receive
  cases hop : r.opcode with
  | NONE => exact h.done rfl rfl fun _ _ hin => hin
  | PING => exact h.done rfl rfl fun _ _ hin => hin
  | GET => exact hwait (by simp [Request.isGet, hop])
  | GETSMART => exact hwait (by simp [Request.isGet, hop])

/-- The drive answers one of the gets, and only that get's entry goes. -/
theorem Asked.drive {s : State} (h : Asked s) {seq : ℕ} {cmd : Command} {value : Bytes}
    (hasked : s.kvclient.asked seq = some cmd.key) :
    Asked ((s.take_response seq cmd.key cmd value).deliver cmd value) := by
  obtain ⟨hm, hkv, hkept⟩ := deliver_frame (s.take_response seq cmd.key cmd value) cmd value
  have hwire : (s.take_response seq cmd.key cmd value).kvclient.wire.Sublist s.kvclient.wire :=
    List.filter_sublist
  have hin := Client.mem_wire_of_asked hasked
  have honce := h.once
  unfold outstanding at honce
  rw [List.nodup_append] at honce
  apply h.of_sublist
  · unfold outstanding
    rw [hm, hkv]
    exact (List.Sublist.refl _).append (hwire.map Prod.snd)
  · intro k hk _ hmem
    apply hkept k _ hmem
    -- another outstanding get has another key
    rintro rfl
    unfold outstanding at hk
    rw [hm, hkv] at hk
    obtain hmain | hrest := List.mem_append.mp hk
    · exact honce.2.2 _ hmain _ (List.mem_map_of_mem hin) rfl
    · obtain ⟨x, hx, hsnd⟩ := List.mem_map.mp hrest
      obtain ⟨hx, hne⟩ := List.mem_filter.mp hx
      have heq : x = (seq, cmd.key) := List.inj_on_of_nodup_map honce.2.1 hx hin hsnd
      simp [heq] at hne

theorem Asked.answer {s : State} (h : Asked s) (k : Key) (e : Entry) (v : Bytes) :
    Asked (s.answer k e v) := by
  unfold State.answer
  cases reply k e v <;> exact h.done rfl rfl fun _ _ hin => hin

theorem Asked.listen {s t : State} (h : Asked s) (ht : s.listen = some t) : Asked t := by
  unfold State.listen at ht
  split at ht
  · cases ht
    exact h.of_sublist (List.Sublist.refl _) fun _ _ _ hin => hin
  · split at ht <;> cases ht <;> exact h.of_sublist (List.Sublist.refl _) fun _ _ _ hin => hin
  · cases ht

theorem asked_step : proxy_server.Preserves OnePerKey Asked := by
  rintro a s t h ⟨hecho, hnew⟩ hst
  have heff := step_effect hst
  cases a with
  | no_event =>
      obtain ⟨-, rfl⟩ := heff
      exact h.done rfl rfl fun _ _ hin => hin
  | receive r =>
      obtain ⟨hmain, rfl⟩ := heff
      exact h.receive hmain hnew
  | acquire =>
      obtain ⟨key, kv, hmain, hkv, rfl⟩ := heff
      have hwire : kv.wire = s.kvclient.wire := by rw [Client.acquire_eq hkv]
      refine h.of_sublist ?_ fun _ _ _ hin => hin
      unfold outstanding
      rw [hmain, hwire]
      exact List.Sublist.refl _
  | header =>
      obtain ⟨key, hmain, rfl⟩ := heff
      refine h.of_sublist ?_ fun _ _ _ hin => hin
      unfold outstanding
      rw [hmain]
      exact List.Sublist.refl _
  | send accepted =>
      obtain ⟨seq, key, hmain, ⟨-, rfl⟩ | ⟨-, rfl⟩⟩ := heff
      · have hperm : (outstanding { s with
            kvclient := s.kvclient.packet_send seq key, main := .respond }).Perm (outstanding s) := by
          unfold outstanding
          simp only [hmain, Client.packet_send, asking, List.map_append, List.map_cons,
            List.map_nil, List.nil_append]
          exact List.perm_append_comm
        exact ⟨hperm.nodup_iff.mpr h.once, fun k hk => h.kept k (hperm.mem_iff.mp hk)⟩
      · exact h.not_attempted
  | respond picked =>
      cases picked with
      | none =>
          obtain ⟨-, -, rfl⟩ := heff
          exact h.done rfl rfl fun _ _ hin => hin
      | some key =>
          obtain ⟨-, e, v, -, rfl⟩ := heff
          exact h.answer key e v
  | drive seq cmd value =>
      obtain ⟨-, -, key, hkey, rfl⟩ := heff
      obtain rfl : key = cmd.key := Option.some.inj (hkey.symm.trans hecho)
      exact h.drive hkey
  | bad_hmac seq =>
      obtain ⟨-, key, -, rfl⟩ := heff
      exact h.client_error { s with kvclient := s.kvclient.answer seq } rfl List.filter_sublist rfl _
  | timeout =>
      obtain ⟨-, rfl⟩ := heff
      exact h.client_error s rfl (List.Sublist.refl _) rfl _
  | socket_error =>
      obtain ⟨-, rfl⟩ := heff
      exact h.client_error { s with closing := true } rfl (List.Sublist.refl _) rfl _
  | listen => exact h.listen heff

theorem asked_of_reachable {s : State} (h : proxy_server.ReachableWith OnePerKey s) : Asked s := by
  apply h.invariant _ asked_step
  exact ⟨by simp [outstanding, asking, proxy_server], by simp [outstanding, asking, proxy_server]⟩

/-! ### Completions -/

theorem Completion.outstanding {s : State} {key : Key} {cmd : Command} {value : Bytes}
    (h : Completion s key cmd value) : key ∈ outstanding s := by
  cases h with
  | response asked => exact List.mem_append_right _ (List.mem_map_of_mem asked)
  | client_error asked _ => exact asked

theorem moves_of_key {s : State} {cmd : Command} {value : Bytes}
    (hin : cmd.key ∈ s.pending_requests) (hfree : cmd.key ∉ s.ready_requests) :
    MovesExactly s cmd.key cmd value := by
  obtain ⟨e, he⟩ := Option.isSome_iff_exists.mp (AList.lookup_isSome.mpr hin)
  refine ⟨e, s.pending_requests.erase cmd.key,
    s.ready_requests.insert cmd.key (e, result cmd value), ?_, entries_perm_erase he, ?_⟩
  · unfold data_callbak
    rw [he]
  · rw [AList.entries_insert_of_notMem hfree]

theorem key_of_moves {s : State} {key : Key} {cmd : Command} {value : Bytes}
    (h : MovesExactly s key cmd value) :
    cmd.key = key ∧ key ∉ s.ready_requests ∧ key ∈ s.pending_requests := by
  obtain ⟨e, pending, ready, hcall, hout, hin⟩ := h
  have hkeys : s.pending_requests.keys.Perm (key :: pending.keys) := hout.map Sigma.fst
  have hmem : key ∈ s.pending_requests := hkeys.mem_iff.mpr List.mem_cons_self
  have hgone : key ∉ pending.keys :=
    (List.nodup_cons.mp (hkeys.nodup_iff.mp s.pending_requests.keys_nodup)).1
  refine ⟨?_, ?_, hmem⟩
  · unfold data_callbak at hcall
    cases hcmd : s.pending_requests.lookup cmd.key with
    | none =>
        rw [hcmd] at hcall
        cases hcall
    | some e' =>
        rw [hcmd] at hcall
        cases hcall
        by_contra hne
        exact hgone (AList.mem_erase.mpr ⟨Ne.symm hne, hmem⟩)
  · have hkeys' : ready.keys.Perm (key :: s.ready_requests.keys) := hin.map Sigma.fst
    exact (List.nodup_cons.mp (hkeys'.nodup_iff.mp ready.keys_nodup)).1

/-- A completion moves exactly the request it belongs to if and only if it carries that
request's key, finds the entry, and no finished reply under the key is in the way. While
the outstanding gets have distinct keys, only the entry of the empty key can be gone. -/
theorem completion_moves_iff {s : State} {key : Key} {cmd : Command} {value : Bytes}
    (hc : Completion s key cmd value) :
    (MovesExactly s key cmd value ↔
      cmd.key = key ∧ key ∉ s.ready_requests ∧ key ∈ s.pending_requests) ∧
    (proxy_server.ReachableWith OnePerKey s → key ≠ [] → key ∈ s.pending_requests) := by
  constructor
  · constructor
    · exact key_of_moves
    · rintro ⟨rfl, hfree, hin⟩
      exact moves_of_key hin hfree
  · intro h hne
    exact (asked_of_reachable h).kept key hc.outstanding hne

/-- A get up to the end of its turn of the main loop. -/
def asks (client : ℕ) (key : Key) : List Action :=
  [.receive ⟨client, .GET, key, 0⟩, .acquire, .header, .send true, .respond none]

/-- The gets of two clients, all on their way. -/
def threeGets : List Action := asks 1 [107] ++ asks 2 [108] ++ asks 1 [109]

theorem threeGets_runs : (proxy_server.exec threeGets proxy_server.start).isSome = true := by
  decide +kernel

theorem threeGets_reachable :
    proxy_server.ReachableWith OnePerKey (proxy_server.last _ threeGets_runs) :=
  System.reachableWith_last _ _ (by decide +kernel)

/-- The drive has no data for the second get, and data for the third. -/
theorem completion_moves_iff_threeGets :
    MovesExactly (proxy_server.last _ threeGets_runs) [108] ⟨1, .drive_error 7, [108]⟩ [] ∧
      MovesExactly (proxy_server.last _ threeGets_runs) [109] ⟨2, .SUCCESS, [109]⟩ [5] := by
  constructor
  · have hc : Completion (proxy_server.last _ threeGets_runs) [108] ⟨1, .drive_error 7, [108]⟩ [] :=
      .response (by decide +kernel)
    apply (completion_moves_iff hc).1.mpr
    exact ⟨rfl, by decide +kernel, (completion_moves_iff hc).2 threeGets_reachable (by decide)⟩
  · have hc : Completion (proxy_server.last _ threeGets_runs) [109] ⟨2, .SUCCESS, [109]⟩ [5] :=
      .response (by decide +kernel)
    apply (completion_moves_iff hc).1.mpr
    exact ⟨rfl, by decide +kernel, (completion_moves_iff hc).2 threeGets_reachable (by decide)⟩

theorem oneGet_runs : (proxy_server.exec (asks 1 [107]) proxy_server.start).isSome = true := by
  decide +kernel

/-- A command timeout: the callback looks for the empty key. -/
theorem expired_moves_nothing : ¬ ∀ s, proxy_server.ReachableWith OnePerKey s →
    ∀ key cmd value, Completion s key cmd value → MovesExactly s key cmd value := by
  intro h
  have hreach : proxy_server.ReachableWith OnePerKey (proxy_server.last _ oneGet_runs) :=
    System.reachableWith_last _ _ (by decide +kernel)
  have hmoves := h _ hreach [107] (client_error .EXPIRED) []
    (.client_error (by decide +kernel) (by decide))
  exact absurd (key_of_moves hmoves).1 (by decide)

end SmartDisk.ProxyErrors
