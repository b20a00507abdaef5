import SmartDisk.ProxyProgress

/-!
# Which processes come to their end

An entry of `pending_requests` is known by its key alone. Two processes that ask for the same key
can meet there, and the one that has asked first then waits for ever; a process by itself asks
again only after its reply. Besides, a size that no string has ends the proxy. In runs in which
the drive echoes the keys and the client reports no error of its own, nothing else keeps the
processes from their last reply, in whatever order everybody takes steps. Memory suffices for the
sizes that are asked for.
-/
namespace SmartDisk.SessionProgress
open ActionSystem KineticClient ProxySessions ProxyProgress
open ProxyServer (proxy_server Address Request Reply Entry)
open ProxyRouting (Routed DriveOnly Waits routed_of_reachable)
open ProxyAnswers (exact_of_reachable)

variable {n : ℕ} {pb : Protobuf} {content : Key → Option Bytes} {calls : Fin n → List Call}

/-- No key is asked for by two clients. -/
def Apart (calls : Fin n → List Call) : Prop :=
  ∀ i j, i ≠ j → ∀ call ∈ calls i, ∀ call' ∈ calls j, call.key ≠ call'.key

instance (calls : Fin n → List Call) : Decidable (Apart calls) :=
  inferInstanceAs (Decidable (∀ _ _, _ → _))

/-- A string can have the size that is asked for. -/
def Fitting : Call → Prop
  | .get _ => True
  | .get_smart _ size => size.toNat ≤ maxint

instance : ∀ call, Decidable (Fitting call)
  | .get _ => .isTrue trivial
  | .get_smart _ size => inferInstanceAs (Decidable (size.toNat ≤ maxint))

/-- The proxy polls only while a reply is ready. -/
def Busy (content : Key → Option Bytes) (a : Action n) (s : State n) : Prop :=
  Faithful content a s ∧ match a with
    | .proxy a => Useful a s.server
    | _ => True

/-! ### The price of a step -/

section
variable {s t : ProxyServer.State}

/-- What the main thread has before it, with these keys in `ready_requests`. -/
def mainRank (ready : List Key) : ProxyServer.Main → ℕ
  | .poll => 2
  | .acquire _ => 11
  | .header _ => 10
  | .send _ _ => 9
  | .respond => if ready = [] then 3 else 1
  | .raised _ => 0

def listenerRank : ProxyServer.Listener → ℕ
  | .store _ _ _ _ => 4
  | .clean_up _ => 1
  | _ => 0

def serverRank (s : ProxyServer.State) : ℕ :=
  mainRank s.ready_requests.keys s.main + 5 * s.kvclient.wire.length + listenerRank s.listener +
    2 * s.ready_requests.keys.length

theorem mainRank_ready (ready : List Key) {ready' : List Key} (h : ready' ≠ []) (m : ProxyServer.Main) :
    mainRank ready' m ≤ mainRank ready m := by
  cases m with
  | respond =>
      simp only [mainRank, if_neg h]
      split <;> omega
  | _ => exact Nat.le_refl _

theorem listenerRank_store (o : Option ℕ) (k : Key) (e : Entry) (v : Bytes) :
    listenerRank (.store o k e v) = 4 := rfl

theorem listenerRank_clean_up (seq : ℕ) : listenerRank (.clean_up seq) = 1 := rfl

theorem listenerRank_rest (s : ProxyServer.State) : listenerRank s.rest = 0 := by
  unfold ProxyServer.State.rest
  split <;> rfl

theorem listenerRank_le (l : ProxyServer.Listener) : listenerRank l ≤ 4 := by
  cases l <;> simp [listenerRank]

theorem length_insert_le {K V : Type} [DecidableEq K] (d : Dict K V) (k : K) (v : V) :
    (d.insert k v).keys.length ≤ d.keys.length + 1 := by
  rw [AList.keys_insert, List.length_cons]
  exact Nat.succ_le_succ List.length_erase_le

theorem length_erase_lt {K V : Type} [DecidableEq K] {d : Dict K V} {k : K} {v : V}
    (h : d.lookup k = some v) : (d.erase k).keys.length + 1 = d.keys.length := by
  have hperm := (entries_perm_erase h).map Sigma.fst
  exact hperm.length_eq.symm

/-- A step of the proxy lowers its rank, unless it polls in vain. -/
theorem serverRank_lt {a : ProxyServer.Action} (h : ProxyServer.step s a = some t)
    (hne : ∀ r, a ≠ .receive r) (hdrive : DriveOnly a s) (huseful : Useful a s) :
    serverRank t < serverRank s := by
  have heff := ProxyServer.step_effect h
  unfold serverRank
  cases a with
  | receive r => exact absurd rfl (hne r)
  | no_event =>
      obtain ⟨hmain, rfl⟩ := heff
      rw [hmain]
      simp only [mainRank, if_neg (show s.ready_requests.keys ≠ [] from huseful)]
      omega
  | acquire =>
      obtain ⟨key, kv, hmain, hkv, rfl⟩ := heff
      obtain rfl := Client.acquire_eq hkv
      rw [hmain]
      dsimp only [mainRank]
      omega
  | header =>
      obtain ⟨key, hmain, rfl⟩ := heff
      rw [hmain]
      dsimp only [mainRank, Client.update_header]
      omega
  | send accepted =>
      obtain ⟨seq, key, hmain, ⟨-, rfl⟩ | ⟨rfl, -⟩⟩ := heff
      · rw [hmain]
        dsimp only [mainRank, Client.packet_send]
        rw [List.length_append, List.length_singleton]
        split <;> omega
      · exact hdrive.2.elim
  | respond picked =>
      cases picked with
      | none =>
          obtain ⟨hmain, hready, rfl⟩ := heff
          rw [hmain, hready]
          simp only [mainRank, if_true]
          omega
      | some key =>
          obtain ⟨hmain, e, v, he, rfl⟩ := heff
          have hlength := length_erase_lt he
          have hready : s.ready_requests.keys ≠ [] := by
            intro hnil
            rw [hnil] at hlength
            simp at hlength
          rw [hmain]
          unfold ProxyServer.State.answer
          cases ProxyServer.reply key e v with
          | ok body =>
              simp only [mainRank, if_neg hready]
              omega
          | error e =>
              simp only [mainRank, if_neg hready]
              omega
  | drive seq cmd value =>
      obtain ⟨hidle, -, key, hkey, rfl⟩ := heff
      have hlt : (s.kvclient.wire.filter fun x => x.1 ≠ seq).length < s.kvclient.wire.length :=
        List.length_filter_lt_length_iff_exists.mpr
          ⟨_, Client.mem_wire_of_asked hkey, by simp⟩
      rw [hidle]
      obtain ⟨e, o, -, ht⟩ | ⟨l, -, ht⟩ :=
        ProxyServer.deliver_cases (s.take_response seq key cmd value) cmd value
      · rw [ht]
        dsimp only [ProxyServer.State.take_response, Client.answer]
        rw [listenerRank_store]
        omega
      · rw [ht]
        have hle := listenerRank_le l
        dsimp only [ProxyServer.State.take_response, Client.answer]
        omega
  | bad_hmac seq => exact hdrive.2.elim
  | timeout => exact hdrive.2.elim
  | socket_error => exact hdrive.2.elim
  | listen =>
      change s.listen = some t at heff
      unfold ProxyServer.State.listen at heff
      split at heff
      · rename_i o k e v hstore
        cases heff
        have hlength := length_insert_le s.ready_requests k (e, v)
        have hready : (s.ready_requests.insert k (e, v)).keys ≠ [] := by
          rw [AList.keys_insert]
          exact List.cons_ne_nil _ _
        have hmain := mainRank_ready s.ready_requests.keys hready s.main
        rw [hstore]
        cases o with
        | none =>
            dsimp only
            rw [listenerRank_rest, listenerRank_store]
            omega
        | some seq =>
            dsimp only
            rw [listenerRank_clean_up, listenerRank_store]
            omega
      · rename_i seq hclean
        split at heff <;> cases heff
        · dsimp only [Client.clean_up, Client.release]
          rw [hclean, listenerRank_rest, listenerRank_clean_up]
          omega
        · dsimp only
          rw [hclean, listenerRank_clean_up]
          exact Nat.add_lt_add_right (Nat.lt_succ_self _) _
      · cases heff

/-- Taking a request is paid for by the request. -/
theorem serverRank_receive (hmain : s.main = .poll) (r : Request) :
    serverRank (s.receive r) ≤ serverRank s + 9 := by
  unfold serverRank
  rw [hmain]
  unfold ProxyServer.State.receive
  cases r.opcode with
  | PING =>
      dsimp only [mainRank]
      split <;> omega
  | _ =>
      dsimp only [mainRank]
      omega

theorem serverRank_no_event (hmain : s.main = .poll) :
    serverRank { s with main := .respond } ≤ serverRank s + 1 := by
  unfold serverRank
  rw [hmain]
  dsimp only [mainRank]
  split <;> omega

end

def clientRank (client : Client) : ℕ :=
  12 * client.calls.length + match client.phase with
    | .waiting _ => 1
    | _ => 0

def rank (s : State n) : ℕ :=
  serverRank s.server + ∑ i, clientRank (s.clients i) + ∑ i, 10 * (s.requests i).length

theorem sum_update {W : Type} (g : W → ℕ) (f : Fin n → W) (i : Fin n) (w : W) :
    ∑ j, g (Function.update f i w j) + g (f i) = ∑ j, g (f j) + g w :=
  sum_update_balance (fun _ => g) f i w (Nat.add_comm _ _)

variable {s t : State n}

theorem rank_lt {a : Action n} (h : step pb s a = some t) (hbusy : Busy content a s) :
    rank t < rank s := by
  have heff := step_effect h
  unfold rank
  cases a with
  | request i =>
      obtain ⟨call, rest, hphase, hcalls, rfl⟩ := heff
      have hclients := sum_update clientRank s.clients i ((s.clients i).send call rest)
      have hrequests := sum_update (fun msgs => 10 * msgs.length) s.requests i
        (s.requests i ++ [call.fill (s.clients i).request_msg])
      have hold : clientRank (s.clients i) = 12 * (rest.length + 1) := by
        unfold clientRank
        rw [hcalls, hphase]
        rfl
      have hnew : clientRank ((s.clients i).send call rest) = 12 * rest.length + 1 := rfl
      rw [List.length_append, List.length_singleton] at hrequests
      dsimp only
      omega
  | receive i =>
      obtain ⟨msg, requests, hmsg, hmain, rfl⟩ := heff
      have hrequests := sum_update (fun msgs => 10 * msgs.length) s.requests i requests
      have hserver := serverRank_receive hmain (msg.request i)
      rw [hmsg, List.length_cons] at hrequests
      dsimp only
      omega
  | proxy a =>
      obtain ⟨hne, server, hserver, rfl⟩ := heff
      have hlt := serverRank_lt hserver hne hbusy.1.1 hbusy.2
      dsimp only
      omega
  | reply i =>
      obtain ⟨call, reply, hphase, -, rfl⟩ := heff
      have hclients := sum_update clientRank s.clients i ((s.clients i).recv pb call reply)
      have hold : clientRank (s.clients i) = 12 * (s.clients i).calls.length + 1 := by
        unfold clientRank
        rw [hphase]
      have hnew : clientRank ((s.clients i).recv pb call reply) =
          12 * (s.clients i).calls.length := by
        unfold clientRank Client.recv
        cases call.result pb reply.body <;> rfl
      dsimp only
      omega

/-- Twelve steps for a call and two for the proxy. -/
def price (calls : Fin n → List Call) : ℕ := ∑ i, 12 * (calls i).length + 2

theorem rank_start : rank (sessions pb calls).start = price calls := by
  have hserver : serverRank (sessions pb calls).start.server = 2 := rfl
  have hclients : ∀ i, clientRank ((sessions pb calls).start.clients i) = 12 * (calls i).length :=
    fun _ => rfl
  have hrequests : ∀ i, 10 * ((sessions pb calls).start.requests i).length = 0 := fun _ => rfl
  unfold rank price
  rw [hserver, Finset.sum_congr rfl fun i _ => hclients i,
    Finset.sum_congr rfl fun i _ => hrequests i, Finset.sum_const_zero]
  omega

/-- Polling in vain does not add up. -/
theorem rank_le (h : (sessions pb calls).ReachableWith (Faithful content) s) :
    rank s ≤ price calls ∨ rank s ≤ price calls + 1 ∧ s.server.main = .respond := by
  refine h.invariant (I := fun s => rank s ≤ price calls ∨
    rank s ≤ price calls + 1 ∧ s.server.main = .respond) (.inl rank_start.le) ?_
  intro a s t hle hg hst
  by_cases hbusy : Busy content a s
  · have hlt := rank_lt hst hbusy
    left
    omega
  · obtain rfl : a = .proxy .no_event := by
      by_contra hne
      refine hbusy ⟨hg, ?_⟩
      cases a with
      | proxy a =>
          cases a with
          | no_event => exact absurd rfl hne
          | _ => trivial
      | _ => trivial
    have heff : Effect pb s t (.proxy .no_event) := step_effect hst
    obtain ⟨-, server, hserver, rfl⟩ := heff
    obtain ⟨hmain, rfl⟩ := ProxyServer.step_effect hserver
    right
    refine ⟨?_, rfl⟩
    have hone := serverRank_no_event hmain
    have hle := hle.resolve_right fun hle => by rw [hmain] at hle; cases hle.2
    unfold rank at hle ⊢
    dsimp only
    omega

/-- A run that does not poll in vain is at most this long. -/
theorem run_length_le (h : (sessions pb calls).ReachableWith (Faithful content) s)
    {as : List (Action n)} (hbusy : (sessions pb calls).Guarded (Busy content) as s)
    (hst : (sessions pb calls).exec as s = some t) : as.length ≤ price calls + 1 := by
  have hle := System.length_le_rank rank (I := fun _ => True) (fun _ _ _ _ _ _ => trivial)
    (fun a s t _ hbusy hst => rank_lt hst hbusy) as trivial hbusy hst
  have hrank := rank_le h
  omega

/-! ### Clients that stay apart -/

/-- Every request is one of the calls of its client. -/
theorem call_of_received (h : Safe content calls s) {p : ℕ} {q : Request}
    (hq : s.server.received[p]? = some q) :
    ∃ i : Fin n, q.address = i ∧ ∃ done taken coming,
      Linked content (calls i) s.server i (s.clients i) (s.requests i) done taken coming ∧
      ∃ call ∈ done ++ taken, call.Asks q := by
  obtain ⟨i, hi⟩ := h.known q (List.mem_of_getElem? hq)
  obtain ⟨done, taken, coming, hlinked⟩ := h.linked i
  have hmem : (q, p) ∈ asked s.server i := mem_asked.mpr ⟨hq, hi⟩
  obtain ⟨m, hm⟩ := List.getElem?_of_mem hmem
  obtain ⟨call, hcall, hasks⟩ := exists_getElem? hlinked.asks hm
  exact ⟨i, hi, done, taken, coming, hlinked, call, List.mem_of_getElem? hcall, hasks⟩

/-- All requests of the client have been answered. -/
theorem answered_of_replied {server : ProxyServer.State} {address : Address}
    (h : (asked server address).length ≤ (replies server address).length)
    (hreplied : (replies server address).map Reply.arrival <+:
      (asked server address).map Prod.snd) {x : Request × ℕ} (hx : x ∈ asked server address) :
    server.Answered x.2 := by
  have hall := hreplied.eq_of_length_le (by simpa only [List.length_map] using h)
  have hmem : x.2 ∈ (replies server address).map Reply.arrival :=
    hall ▸ List.mem_map_of_mem hx
  exact (List.filter_sublist.map Reply.arrival).subset hmem

/-- What the proxy has answered has been sent to the client. -/
theorem asked_le_replies {server : ProxyServer.State} {address : Address} (hr : Routed server)
    (hall : ∀ x ∈ asked server address, server.Answered x.2) :
    (asked server address).length ≤ (replies server address).length := by
  have hnodup : ((asked server address).map Prod.snd).Nodup :=
    (List.nodup_zipIdx_map_snd server.received).sublist (List.filter_sublist.map Prod.snd)
  have hsubset : (asked server address).map Prod.snd ⊆
      (replies server address).map Reply.arrival := by
    intro p hp
    obtain ⟨x, hx, rfl⟩ := List.mem_map.mp hp
    obtain ⟨r, hr', harrival⟩ := List.mem_map.mp (hall x hx)
    obtain ⟨q, hq, haddress, -⟩ := hr.sent r hr'
    obtain ⟨hx, hxaddress⟩ := mem_asked.mp hx
    obtain rfl : x.1 = q := by
      rw [harrival] at hq
      exact Option.some.inj (hx.symm.trans hq)
    refine List.mem_map.mpr ⟨r, List.mem_filter.mpr ⟨hr', ?_⟩, harrival⟩
    exact decide_eq_true (haddress.trans hxaddress)
  simpa only [List.length_map] using (hnodup.subperm hsubset).length_le

/-- Another client asks for other keys, and the client itself has had its replies. -/
theorem noCollision (h : Safe content calls s) (hapart : Apart calls) {i : Fin n} {msg : Message}
    {requests : List Message} (hrequests : s.requests i = msg :: requests) :
    ProxyServer.NoCollision (.receive (msg.request i)) s.server := by
  intro _ p hget hkey
  have hq : s.server.received[p.val]? = some (s.server.received.get p) :=
    List.getElem?_eq_getElem p.isLt
  obtain ⟨j, hj, done', taken', coming', hlinked', call', hcall', hasks'⟩ :=
    call_of_received h hq
  obtain ⟨done, taken, coming, hlinked⟩ := h.linked i
  rw [hrequests] at hlinked
  obtain ⟨-, rfl, call, rfl, -, hasks⟩ := hlinked.stage.of_coming
  have hcall : call ∈ calls i := hlinked.mem_calls (by simp)
  have hsame : call'.key = call.key :=
    hasks'.key_eq.symm.trans (hkey.trans (hasks i).key_eq)
  obtain rfl : j = i := by
    by_contra hne
    have hmem' : call' ∈ calls j := hlinked'.mem_calls (List.mem_append_left _ hcall')
    exact hapart j i hne call' hmem' call hcall hsame
  refine answered_of_replied ?_ hlinked.replied (x := (_, p.val)) (mem_asked.mpr ⟨hq, hj⟩)
  rw [hlinked.length_asked]
  exact hlinked.answered

theorem served_receive (h : Safe content calls s) (hapart : Apart calls)
    (hfitting : ∀ i, ∀ call ∈ calls i, Fitting call) {i : Fin n} {msg : Message}
    {requests : List Message} (hrequests : s.requests i = msg :: requests) :
    Served (.receive (msg.request i)) s.server := by
  obtain ⟨done, taken, coming, hlinked⟩ := h.linked i
  rw [hrequests] at hlinked
  obtain ⟨-, -, call, rfl, -, hasks⟩ := hlinked.stage.of_coming
  have hfits : Fitting call := hfitting i call (hlinked.mem_calls (by simp))
  have hcall := hasks i
  refine ⟨⟨⟨⟨trivial, trivial⟩, noCollision h hapart hrequests⟩, ?_⟩, ?_⟩
  · intro hop
    cases call with
    | get key => rw [hcall.1] at hop; cases hop
    | get_smart key size =>
        rw [hcall.2.2]
        exact hfits
  · intro hop
    cases call with
    | get key => rw [hcall.1] at hop; cases hop
    | get_smart key size => rw [hcall.1] at hop; cases hop

theorem served_inside {server : ProxyServer.State} {a : ProxyServer.Action}
    (hne : ∀ r, a ≠ .receive r) (hdrive : DriveOnly a server) : Served a server := by
  cases a with
  | receive r => exact absurd rfl (hne r)
  | _ => exact ⟨⟨⟨hdrive, trivial⟩, trivial⟩, trivial⟩

structure Lively (content : Key → Option Bytes) (calls : Fin n → List Call) (s : State n) :
    Prop where
  safe : Safe content calls s
  served : proxy_server.ReachableWith Served s.server

theorem lively_of_reachable (hapart : Apart calls)
    (hfitting : ∀ i, ∀ call ∈ calls i, Fitting call)
    (h : (sessions pb calls).ReachableWith (Faithful content) s) : Lively content calls s := by
  refine h.invariant ⟨safe_start, .start⟩ ?_
  intro a s t h hg hst
  refine ⟨safe_step a s t h.safe hg hst, ?_⟩
  have heff : Effect pb s t a := step_effect hst
  cases a with
  | request i =>
      obtain ⟨call, rest, -, -, rfl⟩ := heff
      exact h.served
  | receive i =>
      obtain ⟨msg, requests, hrequests, hmain, rfl⟩ := heff
      exact h.served.step _ (served_receive h.safe hapart hfitting hrequests) (if_pos hmain)
  | proxy a =>
      obtain ⟨hne, server, hserver, rfl⟩ := heff
      exact h.served.step a (served_inside hne hg.1) hserver
  | reply i =>
      obtain ⟨call, reply, -, -, rfl⟩ := heff
      exact h.served

/-- Where everybody has come to a halt, the proxy rests. -/
theorem Lively.rest (h : Lively content calls s)
    (hsettled : ∀ a, Busy content a s → step pb s a = none) : Rest s.server := by
  refine ((calm_of_reachable h.served).progress content).resolve_right ?_
  rintro ⟨a, hinner, hsome⟩
  obtain ⟨server, hserver⟩ := Option.isSome_iff_exists.mp hsome
  have hnone := hsettled (.proxy a) ⟨⟨hinner.drive, hinner.told⟩, hinner.useful⟩
  rw [step_proxy pb hinner.inside, hserver] at hnone
  cases hnone

/-- Where everybody has come to a halt, every client is done. -/
theorem Lively.finished (h : Lively content calls s)
    (hsettled : ∀ a, Busy content a s → step pb s a = none) (i : Fin n) :
    (s.clients i).Finished ∧ s.requests i = [] := by
  have hrest := h.rest hsettled
  have hexact := exact_of_reachable (h.served.mono fun _ _ hg => hg.1)
  obtain ⟨done, taken, coming, hlinked⟩ := h.safe.linked i
  generalize hrequests : s.requests i = requests at hlinked
  cases hlinked.stage with
  | ready hphase =>
      refine ⟨⟨hphase, ?_⟩, rfl⟩
      cases hcalls : (s.clients i).calls with
      | nil => rfl
      | cons call rest =>
          have hnone := hsettled (.request i) ⟨trivial, trivial⟩
          rw [step_request pb hphase hcalls] at hnone
          cases hnone
  | coming hphase hasks =>
      have hnone := hsettled (.receive i) ⟨trivial, trivial⟩
      rw [step_receive pb hrequests hrest.main] at hnone
      cases hnone
  | @taken call hphase =>
      -- the proxy has answered, and the reply has not been taken
      have hrouted := routed_of_reachable h.safe.server
      have hall : ∀ x ∈ asked s.server i, s.server.Answered x.2 := by
        intro x hx
        obtain ⟨m, hm⟩ := List.getElem?_of_mem hx
        obtain ⟨call, -, hasks⟩ := exists_getElem? hlinked.asks hm
        exact hrest.answered hexact (mem_asked.mp hx).1 hasks.isGet
      have hle := asked_le_replies hrouted hall
      have hlt : (s.clients i).results.length < (replies s.server i).length := by
        rw [hlinked.results, List.length_map]
        rw [hlinked.length_asked, List.length_singleton] at hle
        exact hle
      have hnone := hsettled (.reply i) ⟨trivial, trivial⟩
      rw [step_reply pb hphase (List.getElem?_eq_getElem hlt)] at hnone
      cases hnone

/-! ### Sizes that no string has -/

/-- A call that has returned has had a size that a string can have. -/
theorem fitting_of_finished (h : Safe content calls s) {i : Fin n} (hi : (s.clients i).Finished)
    {call : Call} (hcall : call ∈ calls i) : Fitting call := by
  obtain ⟨done, taken, coming, hlinked⟩ := h.linked i
  obtain ⟨-, rfl, rfl⟩ := hlinked.stage.of_ready hi.1
  have hdone : calls i = done := by
    rw [hlinked.calls_eq, hi.2, List.append_nil, List.append_nil, List.append_nil]
  obtain ⟨m, hm⟩ := List.getElem?_of_mem (hdone ▸ hcall)
  have hreply : m < (replies s.server i).length :=
    (List.getElem?_eq_some_iff.mp hm).1.trans_le hlinked.answered
  obtain ⟨x, hx, hxr⟩ := hlinked.getElem?_asked (List.getElem?_eq_getElem hreply)
  obtain ⟨call', hcall', hasks⟩ := exists_getElem? hlinked.asks hx
  obtain rfl : call' = call := by
    rw [List.append_nil, hm] at hcall'
    exact (Option.some.inj hcall').symm
  cases call' with
  | get key => trivial
  | get_smart key size =>
      obtain ⟨hreceived, haddress⟩ := mem_asked.mp (List.mem_of_getElem? hx)
      have hrequest : x.1 = ⟨i, .GETSMART, key, size⟩ := by
        rw [← haddress, ← hasks.1, ← hasks.2.1, ← hasks.2.2]
      rw [hxr, hrequest] at hreceived
      refine GetSmart.proxySends_size (o := content key) ⟨s.server, h.server, ?_, _,
        List.mem_of_mem_filter (List.getElem_mem hreply), _, hreceived, rfl⟩
      exact fun res hres => h.told _ hres

/-! ### More calls -/

def addCalls (rest : List Call) (client : Client) : Client :=
  { client with calls := client.calls ++ rest }

/-- The clients have these calls to make as well. -/
def more (rest : Fin n → List Call) (s : State n) : State n :=
  { s with clients := fun i => addCalls (rest i) (s.clients i) }

theorem more_update {rest : Fin n → List Call} (clients : Fin n → Client) (i : Fin n)
    (client : Client) : (fun j => addCalls (rest j) (Function.update clients i client j)) =
      Function.update (fun j => addCalls (rest j) (clients j)) i (addCalls (rest i) client) :=
  funext fun j => Function.apply_update (fun j => addCalls (rest j)) clients i client j

theorem addCalls_recv (rest : List Call) (client : Client) (call : Call) (reply : Reply) :
    (addCalls rest client).recv pb call reply = addCalls rest (client.recv pb call reply) := by
  unfold Client.recv
  cases call.result pb reply.body <;> rfl

/-- A run is one of clients with more calls. -/
theorem step_more {rest : Fin n → List Call} {a : Action n} (h : step pb s a = some t) :
    step pb (more rest s) a = some (more rest t) := by
  have heff := step_effect h
  cases a with
  | request i =>
      obtain ⟨call, calls, hphase, hcalls, rfl⟩ := heff
      have hcalls' : ((more rest s).clients i).calls = call :: (calls ++ rest i) := by
        change (s.clients i).calls ++ rest i = _
        rw [hcalls, List.cons_append]
      rw [step_request pb (s := more rest s) hphase hcalls']
      simp only [more, more_update]
      rfl
  | receive i =>
      obtain ⟨msg, requests, hrequests, hmain, rfl⟩ := heff
      exact step_receive pb (s := more rest s) hrequests hmain
  | proxy a =>
      obtain ⟨hne, server, hserver, rfl⟩ := heff
      rw [step_proxy pb hne]
      simp only [more, hserver, Option.map_some]
  | reply i =>
      obtain ⟨call, reply, hphase, hreply, rfl⟩ := heff
      rw [step_reply pb (s := more rest s) hphase hreply]
      simp only [more, more_update, addCalls_recv]

theorem reachable_more {rest : Fin n → List Call}
    (h : (sessions pb calls).ReachableWith (Faithful content) s) :
    (sessions pb fun i => calls i ++ rest i).ReachableWith (Faithful content) (more rest s) := by
  induction h with
  | start => exact .start
  | step a _ hg hst ih =>
      refine ih.step a ?_ (step_more hst)
      cases a with
      | proxy a => exact hg
      | _ => trivial

end SmartDisk.SessionProgress
