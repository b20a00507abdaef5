import SmartDisk.SessionProgress

/-!
# Two processes that ask for one key

The source assumes that there are no requests for the same key in near future. When the second of
two comes before the first has been answered, it takes the place of the first in
`pending_requests`, and nothing is left that remembers the first: whatever the drive and the proxy
do, its process waits. When the drive echoes the keys and the client reports no error of its own,
this and a size that no string has are the only ways in which a process can fail to come to its
end.
-/
namespace SmartDisk.ProxyCollisions
open ActionSystem KineticClient ProxySessions ProxyProgress SessionProgress
open ProxyServer (proxy_server Address Request Reply Entry deliver_cases listen_cases)
open ProxyRouting (Routed DriveOnly Waits routed_of_reachable getElem?_of_le)

variable {n : ℕ} {pb : Protobuf} {content : Key → Option Bytes} {calls : Fin n → List Call}

/-- Nobody remembers the request at this position. -/
structure Lost (p : ℕ) (s : ProxyServer.State) : Prop where
  received : p < s.received.length
  pending : ∀ k e, s.pending_requests.lookup k = some e → e.arrival ≠ p
  ready : ∀ k e v, s.ready_requests.lookup k = some (e, v) → e.arrival ≠ p
  held : ∀ e ∈ s.listener.held, e.arrival ≠ p
  sent : ∀ r ∈ s.sent, r.arrival ≠ p

section
variable {p : ℕ} {s t : ProxyServer.State}

theorem Lost.receive (h : Lost p s) (r : Request) : Lost p (s.receive r) := by
  have hnew : s.received.length ≠ p := Nat.ne_of_gt h.received
  have hlt : p < (s.received ++ [r]).length := by
    rw [List.length_append]
    exact Nat.lt_add_right _ h.received
  have hwait : ∀ k e,
      (s.pending_requests.insert r.key ⟨s.received.length, r⟩).lookup k = some e →
        e.arrival ≠ p := by
    intro k e he
    rw [lookup_insert_eq] at he
    split at he
    · cases he
      exact hnew
    · exact h.pending k e he
  unfold ProxyServer.State.receive
  cases r.opcode with
  | NONE => exact ⟨hlt, h.pending, h.ready, h.held, h.sent⟩
  | PING =>
      refine ⟨hlt, h.pending, h.ready, h.held, ?_⟩
      intro x hx
      obtain hx | hx := List.mem_append.mp hx
      · exact h.sent x hx
      · rw [List.mem_singleton.mp hx]
        exact hnew
  | GET => exact ⟨hlt, hwait, h.ready, h.held, h.sent⟩
  | GETSMART => exact ⟨hlt, hwait, h.ready, h.held, h.sent⟩

theorem Lost.answer (h : Lost p s) {k : Key} {e : Entry} {v : Bytes}
    (he : s.ready_requests.lookup k = some (e, v)) : Lost p (s.answer k e v) := by
  have hrest : ∀ k' e' v', (s.ready_requests.erase k).lookup k' = some (e', v') →
      e'.arrival ≠ p := by
    intro k' e' v' he'
    rw [lookup_erase_eq] at he'
    split at he'
    · cases he'
    · exact h.ready k' e' v' he'
  unfold ProxyServer.State.answer
  cases ProxyServer.reply k e v with
  | ok body =>
      refine ⟨h.received, h.pending, hrest, h.held, ?_⟩
      intro r hr
      obtain hr | hr := List.mem_append.mp hr
      · exact h.sent r hr
      · rw [List.mem_singleton.mp hr]
        exact h.ready k e v he
  | error x => exact ⟨h.received, h.pending, hrest, h.held, h.sent⟩

theorem Lost.deliver (h : Lost p s) (cmd : Command) (value : Bytes) :
    Lost p (s.deliver cmd value) := by
  obtain ⟨e, o, he, ht⟩ | ⟨l, hl, ht⟩ := deliver_cases s cmd value
  · rw [ht]
    refine ⟨h.received, ?_, h.ready, ?_, h.sent⟩
    · intro k' e' he'
      rw [show ProxyServer.State.pending_requests _ = s.pending_requests.erase cmd.key from rfl,
        lookup_erase_eq] at he'
      split at he'
      · cases he'
      · exact h.pending k' e' he'
    · intro e' he'
      rw [List.mem_singleton.mp he']
      exact h.pending cmd.key e he
  · rw [ht]
    refine ⟨h.received, h.pending, h.ready, ?_, h.sent⟩
    intro e he
    rw [hl] at he
    cases he

theorem Lost.listen (h : Lost p s) (hst : s.listen = some t) : Lost p t := by
  obtain ⟨o, k, e, v, l, hstore, hl, rfl⟩ | ⟨seq, kv, l, -, hl, rfl⟩ := listen_cases hst
  · refine ⟨h.received, h.pending, ?_, ?_, h.sent⟩
    · intro k' e' v' he'
      rw [show ProxyServer.State.ready_requests _ = s.ready_requests.insert k (e, v) from rfl,
        lookup_insert_eq] at he'
      split at he'
      · cases he'
        exact h.held e (by rw [hstore]; exact List.mem_singleton_self e)
      · exact h.ready k' e' v' he'
    · intro e' he'
      rw [hl] at he'
      cases he'
  · refine ⟨h.received, h.pending, h.ready, ?_, h.sent⟩
    intro e he
    rw [hl] at he
    cases he

theorem Lost.step {a : ProxyServer.Action} (h : Lost p s) (hdrive : DriveOnly a s)
    (hst : ProxyServer.step s a = some t) : Lost p t := by
  have heff := ProxyServer.step_effect hst
  cases a with
  | receive r => exact heff.2 ▸ h.receive r
  | no_event =>
      obtain ⟨-, rfl⟩ := heff
      exact ⟨h.received, h.pending, h.ready, h.held, h.sent⟩
  | acquire =>
      obtain ⟨key, kv, -, -, rfl⟩ := heff
      exact ⟨h.received, h.pending, h.ready, h.held, h.sent⟩
  | header =>
      obtain ⟨key, -, rfl⟩ := heff
      exact ⟨h.received, h.pending, h.ready, h.held, h.sent⟩
  | send accepted =>
      obtain ⟨seq, key, -, ⟨-, rfl⟩ | ⟨rfl, -⟩⟩ := heff
      · exact ⟨h.received, h.pending, h.ready, h.held, h.sent⟩
      · exact hdrive.2.elim
  | respond picked =>
      cases picked with
      | none =>
          obtain ⟨-, -, rfl⟩ := heff
          exact ⟨h.received, h.pending, h.ready, h.held, h.sent⟩
      | some key =>
          obtain ⟨-, e, v, he, rfl⟩ := heff
          exact h.answer he
  | drive seq cmd value =>
      obtain ⟨-, -, key, -, rfl⟩ := heff
      have htaken : Lost p (s.take_response seq key cmd value) :=
        ⟨h.received, h.pending, h.ready, h.held, h.sent⟩
      exact htaken.deliver cmd value
  | bad_hmac seq => exact hdrive.2.elim
  | timeout => exact hdrive.2.elim
  | socket_error => exact hdrive.2.elim
  | listen => exact h.listen heff

end

/-! ### A process that waits for ever -/

variable {s t : State n}

/-- The client waits for the reply to a lost request. -/
structure Stranded (content : Key → Option Bytes) (calls : Fin n → List Call) (i : Fin n) (p : ℕ)
    (s : State n) : Prop where
  safe : Safe content calls s
  lost : Lost p s.server
  taken : ∃ x ∈ asked s.server i, x.2 = p
  waiting : ∃ call, (s.clients i).phase = .waiting call
  requests : s.requests i = []

theorem asked_mono {server server' : ProxyServer.State} {address : Address}
    (h : server.received <+: server'.received) : asked server address ⊆ asked server' address := by
  intro x hx
  obtain ⟨hreceived, haddress⟩ := mem_asked.mp hx
  exact mem_asked.mpr ⟨getElem?_of_le h hreceived, haddress⟩

/-- The reply it waits for does not come. -/
theorem Stranded.no_reply {i : Fin n} {p : ℕ} (h : Stranded content calls i p s) :
    (replies s.server i)[(s.clients i).results.length]? = none := by
  obtain ⟨done, taken, coming, hlinked⟩ := h.safe.linked i
  obtain ⟨x, hx, rfl⟩ := h.taken
  rw [List.getElem?_eq_none_iff, hlinked.results, List.length_map]
  by_contra hlt
  have htaken := hlinked.stage.length_taken
  have hle : (asked s.server i).length ≤ (replies s.server i).length := by
    rw [hlinked.length_asked]
    omega
  obtain ⟨r, hr, harrival⟩ := List.mem_map.mp (answered_of_replied hle hlinked.replied hx)
  exact h.lost.sent r hr harrival

theorem Stranded.step {i : Fin n} {p : ℕ} {a : Action n} (h : Stranded content calls i p s)
    (hg : Faithful content a s) (hst : ProxySessions.step pb s a = some t) :
    Stranded content calls i p t := by
  have hsafe : Safe content calls t := safe_step a s t h.safe hg hst
  obtain ⟨call, hwaiting⟩ := h.waiting
  obtain ⟨x, hx, hxp⟩ := h.taken
  have heff := step_effect hst
  cases a with
  | request j =>
      obtain ⟨call', rest, hphase, -, rfl⟩ := heff
      have hne : i ≠ j := by
        rintro rfl
        rw [hwaiting] at hphase
        cases hphase
      refine ⟨hsafe, h.lost, ⟨x, hx, hxp⟩, ⟨call, ?_⟩, ?_⟩
      · simpa only [Function.update_of_ne hne] using hwaiting
      · simpa only [Function.update_of_ne hne] using h.requests
  | receive j =>
      obtain ⟨msg, requests, hrequests, -, rfl⟩ := heff
      have hne : i ≠ j := by
        rintro rfl
        rw [h.requests] at hrequests
        cases hrequests
      refine ⟨hsafe, h.lost.receive _, ⟨x, asked_mono ?_ hx, hxp⟩, ⟨call, hwaiting⟩, ?_⟩
      · rw [receive_received]
        exact List.prefix_append _ _
      · simpa only [Function.update_of_ne hne] using h.requests
  | proxy a =>
      obtain ⟨hne, server, hserver, rfl⟩ := heff
      have hreceived := (proxy_history hserver hne hg.1 hg.2).1
      refine ⟨hsafe, h.lost.step hg.1 hserver, ⟨x, asked_mono ?_ hx, hxp⟩, ⟨call, hwaiting⟩,
        h.requests⟩
      rw [hreceived]
  | reply j =>
      obtain ⟨call', reply, -, hreply, rfl⟩ := heff
      have hne : i ≠ j := by
        rintro rfl
        rw [h.no_reply] at hreply
        cases hreply
      refine ⟨hsafe, h.lost, ⟨x, hx, hxp⟩, ⟨call, ?_⟩, h.requests⟩
      simpa only [Function.update_of_ne hne] using hwaiting

theorem stranded_of_halt {i : Fin n} {p : ℕ} (hstranded : Stranded content calls i p s)
    (h : (sessions pb calls).ReachableWith (Faithful content) s) :
    ∃ t, (sessions pb calls).ReachableWith (Faithful content) t ∧ Stranded content calls i p t ∧
      ∀ a, Busy content a t → step pb t a = none :=
  h.exists_settled rank (fun _ _ hbusy => hbusy.1)
    (fun _ _ _ hstranded hbusy hst => hstranded.step hbusy.1 hst)
    (fun _ _ _ _ hbusy hst => rank_lt hst hbusy) hstranded

/-! ### The collision -/

theorem receive_of_isGet (server : ProxyServer.State) {r : Request} (hget : r.isGet = true) :
    server.receive r = { server with
      received := server.received ++ [r]
      pending_requests := server.pending_requests.insert r.key ⟨server.received.length, r⟩
      main := .acquire r.key } := by
  unfold ProxyServer.State.receive
  cases hop : r.opcode with
  | GET => rfl
  | GETSMART => rfl
  | _ => simp [Request.isGet, hop] at hget

theorem reachable_request (h : (sessions pb calls).ReachableWith (Faithful content) s) {i : Fin n}
    {call : Call} {rest : List Call} (hphase : (s.clients i).phase = .ready)
    (hcalls : (s.clients i).calls = call :: rest) :
    (sessions pb calls).ReachableWith (Faithful content) { s with
      clients := Function.update s.clients i ((s.clients i).send call rest)
      requests := Function.update s.requests i
        (s.requests i ++ [call.fill (s.clients i).request_msg]) } :=
  h.step (.request i) True.intro (step_request pb hphase hcalls)

theorem reachable_receive (h : (sessions pb calls).ReachableWith (Faithful content) s) {i : Fin n}
    {msg : Message} {requests : List Message} (hrequests : s.requests i = msg :: requests)
    (hmain : s.server.main = .poll) (hget : (msg.request i).isGet = true) :
    (sessions pb calls).ReachableWith (Faithful content) { s with
      server := { s.server with
        received := s.server.received ++ [msg.request i]
        pending_requests := s.server.pending_requests.insert msg.key
          ⟨s.server.received.length, msg.request i⟩
        main := .acquire msg.key }
      requests := Function.update s.requests i requests } := by
  have hserver := receive_of_isGet s.server hget
  have hstep := step_receive pb hrequests hmain
  rw [hserver] at hstep
  exact h.step (.receive i) True.intro hstep

/-- The proxy has issued a get, and polls again. -/
theorem reachable_issue (h : (sessions pb calls).ReachableWith (Faithful content) s) {key : Key}
    (hmain : s.server.main = .acquire key)
    (hroom : s.server.kvclient.outstanding < s.server.kvclient.queue_depth)
    (hready : s.server.ready_requests.keys = []) :
    ∃ kv, (sessions pb calls).ReachableWith (Faithful content)
      { s with server := { s.server with kvclient := kv, main := .poll } } := by
  have hacquire : s.server.kvclient.acquire =
      some { s.server.kvclient with outstanding := s.server.kvclient.outstanding + 1 } :=
    if_pos hroom
  refine ⟨(({ s.server.kvclient with
      outstanding := s.server.kvclient.outstanding + 1 } : Client Unit).update_header).packet_send
        s.server.kvclient.sequence key,
    h.exec [.proxy .acquire, .proxy .header, .proxy (.send true), .proxy (.respond none)]
      (.of_forall ?_ s) ?_⟩
  · intro a ha s
    simp only [List.mem_cons, List.not_mem_nil, or_false] at ha
    rcases ha with rfl | rfl | rfl | rfl <;> exact ⟨⟨trivial, trivial⟩, trivial⟩
  · simp [System.exec, sessions, step, ProxyServer.step, hmain, hacquire, hready]

/-- The second of two requests for one key takes the place of the first. -/
theorem lost_of_second {server : ProxyServer.State} (hrest : Rest server) (hr : Routed server)
    {r r' : Request} (hkey : r.key = r'.key) (kv : KineticClient.Client Unit)
    (m : ProxyServer.Main) :
    Lost server.received.length { server with
      kvclient := kv
      received := server.received ++ [r] ++ [r']
      pending_requests := (server.pending_requests.insert r.key ⟨server.received.length, r⟩).insert
        r'.key ⟨(server.received ++ [r]).length, r'⟩
      main := m } where
  received := by simp
  pending k e he := by
    rw [lookup_insert_eq, lookup_insert_eq, hrest.pending, AList.lookup_empty, hkey] at he
    split at he
    · cases he
      simp
    · cases he
  ready k e v he := by simp [hrest.ready] at he
  held e he := by simp [hrest.listener, ProxyServer.Listener.held] at he
  sent x hx := by
    obtain ⟨q, hq, -⟩ := hr.sent x hx
    exact Nat.ne_of_lt (List.getElem?_eq_some_iff.mp hq).1

/-- The client whose request comes first waits for ever. -/
theorem exists_stranded (h : (sessions pb calls).ReachableWith (Faithful content) s)
    (hrest : Rest s.server) (hdepth : 0 < s.server.kvclient.queue_depth) {i j : Fin n} (hij : i ≠ j)
    (hready : ∀ k, (s.clients k).phase = .ready ∧ s.requests k = []) {call call' : Call}
    {rest rest' : List Call} (hi : (s.clients i).calls = call :: rest)
    (hj : (s.clients j).calls = call' :: rest') (hkey : call.key = call'.key) :
    ∃ t p, (sessions pb calls).ReachableWith (Faithful content) t ∧
      Stranded content calls i p t := by
  -- both requests are on their way
  have h₁ := reachable_request h (hready i).1 hi
  have hother : Function.update s.clients i ((s.clients i).send call rest) j = s.clients j :=
    Function.update_of_ne hij.symm _ _
  have h₂ := reachable_request h₁ (hother ▸ (hready j).1) (hother ▸ hj)
  simp only [Function.update_of_ne hij.symm, (hready i).2, (hready j).2, List.nil_append] at h₂
  generalize hmsg : call.fill (s.clients i).request_msg = msg at h₂
  generalize hmsg' : call'.fill (s.clients j).request_msg = msg' at h₂
  have hasks : call.Asks (msg.request i) := hmsg ▸ call.asks_fill _ _
  have hasks' : call'.Asks (msg'.request j) := hmsg' ▸ call'.asks_fill _ _
  have hfirst : Function.update (Function.update s.requests i [msg]) j [msg'] i = [msg] := by
    rw [Function.update_of_ne hij, Function.update_self]
  -- the proxy takes the first and issues its get, and then the second
  have h₃ := reachable_receive h₂ hfirst hrest.main hasks.isGet
  obtain ⟨kv, h₄⟩ := reachable_issue h₃ rfl (hrest.free ▸ hdepth) (by simp [hrest.ready])
  have hsecond : Function.update (Function.update (Function.update s.requests i [msg]) j [msg']) i
      [] j = [msg'] := by
    rw [Function.update_of_ne hij.symm, Function.update_self]
  have h₅ := reachable_receive h₄ hsecond rfl hasks'.isGet
  have hrouted := routed_of_reachable (safe_of_reachable h).server
  have hsame : (msg.request i).key = (msg'.request j).key :=
    hasks.key_eq.trans (hkey.trans hasks'.key_eq.symm)
  have hwaiting : (Function.update (Function.update s.clients i ((s.clients i).send call rest)) j
      ((s.clients j).send call' rest') i).phase = .waiting call := by
    rw [Function.update_of_ne hij, Function.update_self]
    rfl
  have hnone : Function.update (Function.update (Function.update (Function.update s.requests i
      [msg]) j [msg']) i []) j [] i = [] := by
    rw [Function.update_of_ne hij, Function.update_self]
  refine ⟨_, s.server.received.length, h₅, safe_of_reachable h₅,
    lost_of_second hrest hrouted hsame kv _, ⟨(msg.request i, _), mem_asked.mpr ⟨?_, rfl⟩, rfl⟩,
    ⟨call, hwaiting⟩, hnone⟩
  simp

/-! ### Who comes to the end -/

theorem exists_halt (h : (sessions pb calls).ReachableWith (Faithful content) s) :
    ∃ t, (sessions pb calls).ReachableWith (Faithful content) t ∧
      ∀ a, Busy content a t → step pb t a = none := by
  obtain ⟨t, ht, -, hhalt⟩ := h.exists_settled (I := fun _ => True) (H := Busy content) rank
    (fun _ _ hbusy => hbusy.1) (fun _ _ _ _ _ _ => trivial)
    (fun _ _ _ _ hbusy hst => rank_lt hst hbusy) trivial
  exact ⟨t, ht, hhalt⟩

/-- The clients make the first of their calls, and then two of them meet. -/
theorem exists_stranded_after {first rest : Fin n → List Call} (hapart : Apart first)
    (hfitting : ∀ i, ∀ call ∈ first i, Fitting call) {i j : Fin n} (hij : i ≠ j)
    {call call' : Call} {after after' : List Call} (hi : rest i = call :: after)
    (hj : rest j = call' :: after') (hkey : call.key = call'.key) :
    ∃ s p, (sessions pb fun k => first k ++ rest k).ReachableWith (Faithful content) s ∧
      Stranded content (fun k => first k ++ rest k) i p s := by
  obtain ⟨t, ht, hhalt⟩ := exists_halt
    (System.ReachableWith.start (M := sessions pb first) (G := Faithful content))
  have hlively := lively_of_reachable hapart hfitting ht
  have hfinished := hlively.finished hhalt
  have hcalls : ∀ k, ((more rest t).clients k).calls = rest k := by
    intro k
    change (t.clients k).calls ++ rest k = rest k
    rw [(hfinished k).1.2, List.nil_append]
  exact exists_stranded (s := more rest t) (reachable_more ht) (hlively.rest hhalt)
    (calm_of_reachable hlively.served).depth hij
    (fun k => ⟨(hfinished k).1.1, (hfinished k).2⟩) ((hcalls i).trans hi) ((hcalls j).trans hj) hkey

/-- The first call of one client whose key another has as well. -/
theorem exists_stranded_of_common (hfitting : ∀ i, ∀ call ∈ calls i, Fitting call) {i j : Fin n}
    (hij : i ≠ j) {call call' : Call} (hcall : call ∈ calls i) (hcall' : call' ∈ calls j)
    (hkey : call.key = call'.key) :
    ∃ s p, (sessions pb calls).ReachableWith (Faithful content) s ∧
      Stranded content calls i p s := by
  obtain ⟨c, hc⟩ : ∃ c, (calls i).find? (fun c => ∃ d ∈ calls j, c.key = d.key) = some c :=
    Option.isSome_iff_exists.mp (List.find?_isSome.mpr
      ⟨call, hcall, decide_eq_true ⟨call', hcall', hkey⟩⟩)
  obtain ⟨hcommon, before, after, hi, hbefore⟩ := List.find?_eq_some_iff_append.mp hc
  obtain ⟨d, hd, hkey⟩ := of_decide_eq_true hcommon
  obtain ⟨before', after', hj⟩ := List.append_of_mem hd
  have hnew : ∀ x ∈ before, ∀ y ∈ calls j, x.key ≠ y.key := by
    intro x hx y hy hxy
    have hnone := hbefore x hx
    rw [Bool.not_eq_true', decide_eq_false_iff_not] at hnone
    exact hnone ⟨y, hy, hxy⟩
  -- how many calls each client makes before
  let count (k : Fin n) : ℕ :=
    if k = i then before.length else if k = j then before'.length else 0
  have hcount_i : count i = before.length := if_pos rfl
  have hcount_j : count j = before'.length := (if_neg hij.symm).trans (if_pos rfl)
  have hmem : ∀ k, ∀ x ∈ (calls k).take (count k),
      k = i ∧ x ∈ before ∨ k = j ∧ x ∈ calls j := by
    intro k x hx
    by_cases hki : k = i
    · subst hki
      rw [hcount_i, hi, List.take_left] at hx
      exact .inl ⟨rfl, hx⟩
    · by_cases hkj : k = j
      · subst hkj
        exact .inr ⟨rfl, List.mem_of_mem_take hx⟩
      · simp [count, hki, hkj] at hx
  have hapart : Apart fun k => (calls k).take (count k) := by
    intro k l hkl x hx y hy hxy
    rcases hmem k x hx with ⟨rfl, hx'⟩ | ⟨rfl, hx'⟩
    · rcases hmem l y hy with ⟨rfl, -⟩ | ⟨rfl, hy'⟩
      · exact hkl rfl
      · exact hnew x hx' y hy' hxy
    · rcases hmem l y hy with ⟨rfl, hy'⟩ | ⟨rfl, -⟩
      · exact hnew y hy' x hx' hxy.symm
      · exact hkl rfl
  have hstranded : ∃ s p,
      (sessions pb fun k => (calls k).take (count k) ++ (calls k).drop (count k)).ReachableWith
        (Faithful content) s ∧
      Stranded content (fun k => (calls k).take (count k) ++ (calls k).drop (count k)) i p s :=
    exists_stranded_after hapart (fun k x hx => hfitting k x (List.mem_of_mem_take hx)) hij
      (by rw [hcount_i, hi, List.drop_left]) (by rw [hcount_j, hj, List.drop_left]) hkey
  simpa only [List.take_append_drop] using hstranded

/-- The drive echoes the keys and the client reports no error of its own. A run in which the proxy
does not poll in vain is no longer than twelve steps for each call, whatever came before it.
Wherever the steps have led, the processes come to their end, in whatever order everybody goes on,
if and only if no key is asked for by two of them and no size is beyond `sys.maxint`. -/
theorem processes_finish_iff (pb : Protobuf) (content : Key → Option Bytes)
    (calls : Fin n → List Call) :
    (∀ s as t, (sessions pb calls).ReachableWith (Faithful content) s →
      (sessions pb calls).Guarded (Busy content) as s → (sessions pb calls).exec as s = some t →
      as.length ≤ ∑ i, 12 * (calls i).length + 3) ∧
    ((∀ s, (sessions pb calls).ReachableWith (Faithful content) s →
      (∀ a, Busy content a s → (sessions pb calls).step a s = none) →
      ∀ i, (s.clients i).Finished) ↔
      Apart calls ∧ ∀ i, ∀ call ∈ calls i, Fitting call) := by
  refine ⟨fun s as t h hbusy hst => run_length_le h hbusy hst, ?_⟩
  constructor
  · intro h
    have hfitting : ∀ i, ∀ call ∈ calls i, Fitting call := by
      intro i call hcall
      obtain ⟨t, ht, hhalt⟩ := exists_halt
        (System.ReachableWith.start (M := sessions pb calls) (G := Faithful content))
      exact fitting_of_finished (safe_of_reachable ht) (h t ht hhalt i) hcall
    refine ⟨?_, hfitting⟩
    intro i j hij call hcall call' hcall' hkey
    obtain ⟨s, p, hs, hstranded⟩ : ∃ s p, (sessions pb calls).ReachableWith (Faithful content) s ∧
        Stranded content calls i p s :=
      exists_stranded_of_common hfitting hij hcall hcall' hkey
    obtain ⟨t, ht, hstranded, hhalt⟩ := stranded_of_halt hstranded hs
    obtain ⟨call, hwaiting⟩ := hstranded.waiting
    rw [(h t ht hhalt i).1] at hwaiting
    cases hwaiting
  · rintro ⟨hapart, hfitting⟩ s hs hhalt i
    exact ((lively_of_reachable hapart hfitting hs).finished hhalt i).1

/-- Three names for two processes, and a name that is there twice. -/
theorem processes_finish_two :
    (∀ s, (sessions (n := 2) shortFields (proxy_calls none [[1], [2], [3, 3]])).ReachableWith
        (Faithful some) s →
      (∀ a, Busy some a s → step shortFields s a = none) → ∀ i, (s.clients i).Finished) ∧
    ¬ ∀ s, (sessions (n := 2) shortFields (proxy_calls none [[1], [1]])).ReachableWith
        (Faithful some) s →
      (∀ a, Busy some a s → step shortFields s a = none) → ∀ i, (s.clients i).Finished := by
  constructor
  · exact (processes_finish_iff shortFields some (proxy_calls none [[1], [2], [3, 3]])).2.mpr
      (by decide)
  · intro h
    have hapart := (processes_finish_iff shortFields some (proxy_calls none [[1], [1]])).2.mp h
    exact absurd hapart (by decide)

end SmartDisk.ProxyCollisions
