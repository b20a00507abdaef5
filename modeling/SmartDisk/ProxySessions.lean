import SmartDisk.GetSmart
import SmartDisk.PerfGets

/-!
# The clients of the drive proxy

Every process of `proxy_get` has a `KineticProxyClient`, whose socket sends a request only after
the reply to the one before. A request waits at the router until the proxy takes it, from
whichever client; the replies reach a client in the order in which they were sent to its address.
Sockets, logging and the printing are left out. What the protobuf library makes of bytes that are
no message of the proxy, and the other way around, is a parameter.
-/
namespace SmartDisk.ProxySessions
open ActionSystem KineticClient ProxyServer ProxyRouting
open GetSmart (zeros)

inductive Call where
  | get (key : Key)
  | get_smart (key : Key) (size : UInt64)
  deriving DecidableEq

def Call.key : Call → Key
  | .get key => key
  | .get_smart key _ => key

/-- The fields of `request_msg` that a client sets. -/
structure Message where
  opcode : Opcode := .NONE
  key : Key := []
  size : UInt64 := 0
  deriving DecidableEq

/-- `request_msg` is never cleared: a `get` sends the size of an earlier call along. -/
def Call.fill (msg : Message) : Call → Message
  | .get key => { msg with opcode := .GET, key }
  | .get_smart key size => { msg with opcode := .GETSMART, key, size }

/-- The message as it arrives from this address. -/
def Message.request (msg : Message) (address : Address) : Request :=
  ⟨address, msg.opcode, msg.key, msg.size⟩

structure Protobuf where
  SerializeToString : Key → Opcode → Bytes → Bytes
  /-- The `value` of the parsed message; `none` when the bytes do not parse. -/
  ParseFromString : Bytes → Option Bytes

/-- What a call makes of the reply: `get` parses it, `get_smart` does not. -/
def Call.result (pb : Protobuf) : Call → Body → Option Bytes
  | .get _, .message _ _ value => some value
  | .get _, .raw bytes => pb.ParseFromString bytes
  | .get_smart _ _, .message key opcode value => some (pb.SerializeToString key opcode value)
  | .get_smart _ _, .raw bytes => some bytes

inductive Phase where
  | ready
  | waiting (call : Call)
  | raised
  deriving DecidableEq

structure Client where
  calls : List Call
  request_msg : Message := {}
  phase : Phase := .ready
  results : List Bytes := []

/-- `requests` holds what is on its way to the router. -/
structure State (n : ℕ) where
  server : ProxyServer.State := {}
  clients : Fin n → Client
  requests : Fin n → List Message := fun _ => []

/-- What the proxy has sent to this address. -/
def replies (server : ProxyServer.State) (address : Address) : List Reply :=
  server.sent.filter fun r => r.address = address

/-- `_send_request_msg` -/
def Client.send (client : Client) (call : Call) (calls : List Call) : Client :=
  { client with calls, request_msg := call.fill client.request_msg, phase := .waiting call }

/-- The end of a call, with the reply to it. -/
def Client.recv (pb : Protobuf) (client : Client) (call : Call) (reply : Reply) : Client :=
  match call.result pb reply.body with
  | some value => { client with phase := .ready, results := client.results ++ [value] }
  | none => { client with phase := .raised }

inductive Action (n : ℕ) where
  | request (i : Fin n)
  | receive (i : Fin n)
  | proxy (a : ProxyServer.Action)
  | reply (i : Fin n)

variable {n : ℕ}

def step (pb : Protobuf) (s : State n) : Action n → Option (State n)
  | .request i =>
      match (s.clients i).phase, (s.clients i).calls with
      | .ready, call :: calls =>
          some { s with
            clients := Function.update s.clients i ((s.clients i).send call calls)
            requests := Function.update s.requests i
              (s.requests i ++ [call.fill (s.clients i).request_msg]) }
      | _, _ => none
  | .receive i =>
      match s.requests i with
      | msg :: requests =>
          (ProxyServer.step s.server (.receive (msg.request i))).map fun server =>
            { s with server, requests := Function.update s.requests i requests }
      | [] => none
  | .proxy (.receive _) => none
  | .proxy a => (ProxyServer.step s.server a).map fun server => { s with server }
  | .reply i =>
      match (s.clients i).phase, (replies s.server i)[(s.clients i).results.length]? with
      | .waiting call, some reply =>
          some { s with
            clients := Function.update s.clients i ((s.clients i).recv pb call reply) }
      | _, _ => none

/-- The processes make these calls. -/
def sessions (pb : Protobuf) (calls : Fin n → List Call) : System (State n) (Action n) where
  start := { clients := fun i => { calls := calls i } }
  step a s := step pb s a

/-! ### What a step can do -/

/-- What each action can do. -/
def Effect (pb : Protobuf) (s t : State n) : Action n → Prop
  | .request i => ∃ call calls, (s.clients i).phase = .ready ∧ (s.clients i).calls = call :: calls ∧
      t = { s with
        clients := Function.update s.clients i ((s.clients i).send call calls)
        requests := Function.update s.requests i
          (s.requests i ++ [call.fill (s.clients i).request_msg]) }
  | .receive i => ∃ msg requests, s.requests i = msg :: requests ∧ s.server.main = .poll ∧
      t = { s with
        server := s.server.receive (msg.request i)
        requests := Function.update s.requests i requests }
  | .proxy a => (∀ r, a ≠ .receive r) ∧ ∃ server, ProxyServer.step s.server a = some server ∧
      t = { s with server }
  | .reply i => ∃ call reply, (s.clients i).phase = .waiting call ∧
      (replies s.server i)[(s.clients i).results.length]? = some reply ∧
      t = { s with clients := Function.update s.clients i ((s.clients i).recv pb call reply) }

section
variable (pb : Protobuf) {s : State n}

theorem step_request {i : Fin n} {call : Call} {calls : List Call}
    (hphase : (s.clients i).phase = .ready) (hcalls : (s.clients i).calls = call :: calls) :
    step pb s (.request i) = some { s with
      clients := Function.update s.clients i ((s.clients i).send call calls)
      requests := Function.update s.requests i
        (s.requests i ++ [call.fill (s.clients i).request_msg]) } := by
  simp only [step, hphase, hcalls]

theorem step_receive {i : Fin n} {msg : Message} {requests : List Message}
    (hrequests : s.requests i = msg :: requests) (hmain : s.server.main = .poll) :
    step pb s (.receive i) = some { s with
      server := s.server.receive (msg.request i)
      requests := Function.update s.requests i requests } := by
  simp only [step, hrequests, ProxyServer.step, hmain, if_true, Option.map_some]

theorem step_reply {i : Fin n} {call : Call} {reply : Reply}
    (hphase : (s.clients i).phase = .waiting call)
    (hreply : (replies s.server i)[(s.clients i).results.length]? = some reply) :
    step pb s (.reply i) = some { s with
      clients := Function.update s.clients i ((s.clients i).recv pb call reply) } := by
  simp only [step, hphase, hreply]

theorem step_proxy {a : ProxyServer.Action} (hne : ∀ r, a ≠ .receive r) : step pb s (.proxy a) =
    (ProxyServer.step s.server a).map fun server => { s with server } := by
  cases a with
  | receive r => exact absurd rfl (hne r)
  | _ => rfl

end

variable {pb : Protobuf} {s t : State n}

theorem step_effect {a : Action n} (h : step pb s a = some t) : Effect pb s t a := by
  cases a with
  | request i =>
      simp only [step] at h
      split at h
      · exact ⟨_, _, ‹_›, ‹_›, (Option.some.inj h).symm⟩
      · cases h
  | receive i =>
      simp only [step] at h
      split at h
      · obtain ⟨server, hserver, ht⟩ := Option.map_eq_some_iff.mp h
        obtain ⟨hmain, rfl⟩ := ProxyServer.step_effect hserver
        exact ⟨_, _, ‹_›, hmain, ht.symm⟩
      · cases h
  | proxy a =>
      have hne : ∀ r, a ≠ .receive r := by
        rintro r rfl
        cases h
      rw [step_proxy pb hne] at h
      obtain ⟨server, hserver, ht⟩ := Option.map_eq_some_iff.mp h
      exact ⟨hne, server, hserver, ht.symm⟩
  | reply i =>
      simp only [step] at h
      split at h
      · exact ⟨_, _, ‹_›, ‹_›, (Option.some.inj h).symm⟩
      · cases h

/-! ### The drive -/

variable (content : Key → Option Bytes)

/-- The drive answers with what it has under the key. -/
def Told : ProxyServer.Action → Prop
  | .drive _ cmd value => cmd.outcome value = content cmd.key
  | _ => True

/-- Besides, it echoes the key, and nothing else goes wrong. -/
def Faithful : Action n → State n → Prop
  | .proxy a, s => DriveOnly a s.server ∧ Told content a
  | _, _ => True

instance : ∀ a, Decidable (Told content a)
  | .drive _ _ _ => inferInstanceAs (Decidable (_ = _))
  | .no_event | .receive _ | .acquire | .header | .send _ | .respond _ | .bad_hmac _ | .timeout
  | .socket_error | .listen => .isTrue trivial

instance : ∀ (a : Action n) s, Decidable (Faithful content a s)
  | .proxy _, _ => inferInstanceAs (Decidable (_ ∧ _))
  | .request _, _ | .receive _, _ | .reply _, _ => .isTrue trivial

/-- What a call is to return. -/
def answer : Call → Bytes
  | .get key => (content key).getD []
  | .get_smart _ size => zeros size.toNat

/-! ### Requests and replies of one client -/

/-- The request says what the call says. -/
def Call.Asks (q : Request) : Call → Prop
  | .get key => q.opcode = .GET ∧ q.key = key
  | .get_smart key size => q.opcode = .GETSMART ∧ q.key = key ∧ q.size = size

theorem Call.asks_fill (call : Call) (msg : Message) (address : Address) :
    call.Asks ((call.fill msg).request address) := by
  cases call with
  | get key => exact ⟨rfl, rfl⟩
  | get_smart key size => exact ⟨rfl, rfl, rfl⟩

theorem Call.Asks.key_eq {call : Call} {q : Request} (h : call.Asks q) : q.key = call.key := by
  cases call with
  | get key => exact h.2
  | get_smart key size => exact h.2.1

theorem Call.Asks.isGet {call : Call} {q : Request} (h : call.Asks q) : q.isGet = true := by
  cases call with
  | get key => simp [Request.isGet, h.1]
  | get_smart key size => simp [Request.isGet, h.1]

variable {content}

/-- The reply to the request of a call makes it return what it is to return. -/
theorem Call.Asks.result {call : Call} {q : Request} {returned : List (Key × Option Bytes)}
    {body : Body} (h : call.Asks q) (htold : ∀ x ∈ returned, x.2 = content x.1)
    (hfits : Fits returned q body) : call.result pb body = some (answer content call) := by
  cases call with
  | get key =>
      obtain ⟨hop, rfl⟩ := h
      simp only [Fits, hop] at hfits
      obtain ⟨v, ⟨res, hres, rfl⟩, rfl⟩ := hfits
      have hres : res = content q.key := htold _ hres
      rw [hres]
      rfl
  | get_smart key size =>
      obtain ⟨hop, -, rfl⟩ := h
      simp only [Fits, hop] at hfits
      rw [hfits]
      rfl

/-- The requests from this address, with their positions. -/
def asked (server : ProxyServer.State) (address : Address) : List (Request × ℕ) :=
  server.received.zipIdx.filter fun x => x.1.address = address

section
variable {server server' : ProxyServer.State} {address : Address}

theorem mem_asked {x : Request × ℕ} :
    x ∈ asked server address ↔ server.received[x.2]? = some x.1 ∧ x.1.address = address := by
  unfold asked
  rw [List.mem_filter, List.mem_zipIdx_iff_getElem?, decide_eq_true_eq]

theorem asked_concat (address : Address) {r : Request} (h : server'.received = server.received ++ [r]) :
    asked server' address = asked server address ++
      if r.address = address then [(r, server.received.length)] else [] := by
  unfold asked
  rw [h, List.zipIdx_append, List.filter_append, List.zipIdx_singleton, List.filter_singleton,
    Nat.zero_add, Bool.cond_decide]

theorem replies_concat (address : Address) {r : Reply} (h : server'.sent = server.sent ++ [r]) :
    replies server' address = replies server address ++
      if r.address = address then [r] else [] := by
  unfold replies
  rw [h, List.filter_append, List.filter_singleton, Bool.cond_decide]

theorem nodup_arrivals (h : Routed server) : (server.sent.map Reply.arrival).Nodup := by
  rw [List.nodup_iff_count_le_one]
  intro i
  have honce := h.once i
  unfold copies at honce
  omega

end

/-- A list that is one longer at most, and has something else in it, is one longer. -/
theorem prefix_concat {α : Type*} {xs ys : List α} {x : α} (h : xs <+: ys)
    (hlen : ys.length ≤ xs.length + 1) (hx : x ∈ ys) (hnew : x ∉ xs) : xs ++ [x] = ys := by
  obtain ⟨rest, rfl⟩ := h
  have hrest : x ∈ rest := (List.mem_append.mp hx).resolve_left hnew
  cases rest with
  | nil => cases hrest
  | cons y rest =>
      rw [List.length_append, List.length_cons] at hlen
      obtain rfl : rest = [] := List.length_eq_zero_iff.mp (by omega)
      rw [List.mem_singleton.mp hrest]

/-- What stands at the same place is related. -/
theorem exists_getElem? {α β : Type*} {R : α → β → Prop} {xs : List α} {ys : List β}
    (h : List.Forall₂ R xs ys) {m : ℕ} {y : β} (hy : ys[m]? = some y) :
    ∃ x, xs[m]? = some x ∧ R x y := by
  obtain ⟨hlt, rfl⟩ := List.getElem?_eq_some_iff.mp hy
  have hlt' : m < xs.length := h.length_eq ▸ hlt
  exact ⟨xs[m], List.getElem?_eq_getElem hlt', h.get hlt' hlt⟩

/-- Where the call is that a client has begun: on its way to the proxy, or at the proxy. -/
inductive Stage (client : Client) : List Message → List Call → List Call → Prop
  | ready (hphase : client.phase = .ready) : Stage client [] [] []
  | coming {call : Call} {msg : Message} (hphase : client.phase = .waiting call)
      (hasks : ∀ address, call.Asks (msg.request address)) : Stage client [msg] [] [call]
  | taken {call : Call} (hphase : client.phase = .waiting call) : Stage client [] [call] []

theorem Stage.not_raised {client : Client} {requests : List Message} {taken coming : List Call}
    (h : Stage client requests taken coming) : client.phase ≠ .raised := by
  intro hraised
  cases h with
  | ready hphase => rw [hraised] at hphase; cases hphase
  | coming hphase => rw [hraised] at hphase; cases hphase
  | taken hphase => rw [hraised] at hphase; cases hphase

theorem Stage.length_taken {client : Client} {requests : List Message} {taken coming : List Call}
    (h : Stage client requests taken coming) : taken.length ≤ 1 := by
  cases h <;> simp

theorem Stage.of_ready {client : Client} {requests : List Message} {taken coming : List Call}
    (h : Stage client requests taken coming) (hready : client.phase = .ready) :
    requests = [] ∧ taken = [] ∧ coming = [] := by
  cases h with
  | ready => exact ⟨rfl, rfl, rfl⟩
  | coming hphase => rw [hready] at hphase; cases hphase
  | taken hphase => rw [hready] at hphase; cases hphase

theorem Stage.of_coming {client : Client} {msg : Message} {requests : List Message}
    {taken coming : List Call} (h : Stage client (msg :: requests) taken coming) :
    requests = [] ∧ taken = [] ∧ ∃ call, coming = [call] ∧ client.phase = .waiting call ∧
      ∀ address, call.Asks (msg.request address) := by
  cases h with
  | coming hphase hasks => exact ⟨rfl, rfl, _, rfl, hphase, hasks⟩

/-- The client and the proxy agree on what has been asked and answered. -/
structure Linked (content : Key → Option Bytes) (calls : List Call) (server : ProxyServer.State)
    (address : Address) (client : Client) (requests : List Message)
    (done taken coming : List Call) : Prop where
  stage : Stage client requests taken coming
  calls_eq : calls = done ++ taken ++ coming ++ client.calls
  results : client.results = done.map (answer content)
  asks : List.Forall₂ (fun call x => call.Asks x.1) (done ++ taken) (asked server address)
  replied : (replies server address).map Reply.arrival <+: (asked server address).map Prod.snd
  answered : done.length ≤ (replies server address).length

section
variable {calls done taken coming : List Call} {server server' : ProxyServer.State}
  {address : Address} {client : Client} {requests : List Message}

theorem Linked.start (calls : List Call) (address : Address) :
    Linked content calls {} address { calls } [] [] [] [] where
  stage := .ready rfl
  calls_eq := rfl
  results := rfl
  asks := .nil
  replied := List.prefix_refl _
  answered := Nat.zero_le _

theorem Linked.length_asked (h : Linked content calls server address client requests done taken
    coming) : (asked server address).length = done.length + taken.length := by
  rw [← h.asks.length_eq, List.length_append]

theorem Linked.replies_le (h : Linked content calls server address client requests done taken
    coming) : (replies server address).length ≤ done.length + taken.length := by
  rw [← h.length_asked]
  simpa only [List.length_map] using h.replied.length_le

theorem Linked.mem_calls (h : Linked content calls server address client requests done taken
    coming) {call : Call} (hcall : call ∈ done ++ taken ++ coming) : call ∈ calls := by
  rw [h.calls_eq]
  exact List.mem_append_left _ hcall

/-- The reply and the request stand at the same place. -/
theorem Linked.getElem?_asked (h : Linked content calls server address client requests done taken
    coming) {m : ℕ} {r : Reply} (hr : (replies server address)[m]? = some r) :
    ∃ x, (asked server address)[m]? = some x ∧ x.2 = r.arrival := by
  obtain ⟨rest, hrest⟩ := h.replied
  have hlt : m < (replies server address).length := (List.getElem?_eq_some_iff.mp hr).1
  have hsnd : ((asked server address).map Prod.snd)[m]? = some r.arrival := by
    rw [← hrest, List.getElem?_append_left (by rw [List.length_map]; exact hlt),
      List.getElem?_map, hr]
    rfl
  rw [List.getElem?_map] at hsnd
  exact Option.map_eq_some_iff.mp hsnd

/-- The client takes no part in a step that leaves its requests and replies alone. -/
theorem Linked.frame (h : Linked content calls server address client requests done taken coming)
    (hasked : asked server' address = asked server address)
    (hreplies : replies server' address = replies server address) :
    Linked content calls server' address client requests done taken coming where
  stage := h.stage
  calls_eq := h.calls_eq
  results := h.results
  asks := hasked ▸ h.asks
  replied := by rw [hasked, hreplies]; exact h.replied
  answered := hreplies ▸ h.answered

theorem Linked.send (h : Linked content calls server address client requests done taken coming)
    (hphase : client.phase = .ready) {call : Call} {rest : List Call}
    (hcalls : client.calls = call :: rest) :
    Linked content calls server address (client.send call rest)
      (requests ++ [call.fill client.request_msg]) done [] [call] := by
  obtain ⟨rfl, rfl, rfl⟩ := h.stage.of_ready hphase
  refine ⟨.coming rfl (call.asks_fill _), ?_, h.results, h.asks, h.replied, h.answered⟩
  rw [h.calls_eq, hcalls]
  simp [Client.send]

/-- The proxy takes the request that was on its way. -/
theorem Linked.receive {msg : Message} {rest : List Message}
    (h : Linked content calls server address client (msg :: rest) done taken coming)
    (hreceived : server'.received = server.received ++ [msg.request address])
    (hsent : server'.sent = server.sent) :
    Linked content calls server' address client rest done coming [] := by
  obtain ⟨rfl, rfl, call, rfl, hphase, hcall⟩ := h.stage.of_coming
  have hreplies : replies server' address = replies server address := by
    unfold replies
    rw [hsent]
  have hasked := asked_concat address hreceived
  rw [if_pos (show (msg.request address).address = address from rfl)] at hasked
  refine ⟨.taken hphase, ?_, h.results, ?_, ?_, ?_⟩
  · rw [h.calls_eq, List.append_nil, List.append_nil]
  · have hasks := h.asks
    rw [List.append_nil] at hasks
    rw [hasked]
    exact List.rel_append hasks (.cons (hcall address) .nil)
  · rw [hasked, hreplies, List.map_append]
    exact h.replied.trans (List.prefix_append _ _)
  · rw [hreplies]
    exact h.answered

/-- A reply that the proxy adds is to the call it has. -/
theorem Linked.replying
    (h : Linked content calls server address client requests done taken coming)
    (hreceived : server'.received = server.received)
    (hsent : server'.sent = server.sent ∨ ∃ r, server'.sent = server.sent ++ [r])
    (hrouted : Routed server') :
    Linked content calls server' address client requests done taken coming := by
  have hasked : asked server' address = asked server address := by
    unfold asked
    rw [hreceived]
  rcases hsent with hsent | ⟨r, hsent⟩
  · refine h.frame hasked ?_
    unfold replies
    rw [hsent]
  have hreplies := replies_concat address hsent
  by_cases haddress : r.address = address
  · rw [if_pos haddress] at hreplies
    obtain ⟨q, hq, hqr, -⟩ := hrouted.sent r (by rw [hsent]; simp)
    have hmem : r.arrival ∈ (asked server address).map Prod.snd := by
      refine List.mem_map.mpr ⟨(q, r.arrival), mem_asked.mpr ⟨?_, ?_⟩, rfl⟩
      · rw [← hreceived]
        exact hq
      · exact hqr.symm.trans haddress
    have hnew : r.arrival ∉ (replies server address).map Reply.arrival := by
      intro hin
      have hnodup := nodup_arrivals hrouted
      rw [hsent, List.map_append, List.nodup_append] at hnodup
      have hsub := List.filter_sublist.map Reply.arrival |>.subset hin
      exact hnodup.2.2 _ hsub _ (List.mem_singleton_self _) rfl
    have hone := h.stage.length_taken
    have hlen : ((asked server address).map Prod.snd).length ≤
        ((replies server address).map Reply.arrival).length + 1 := by
      have := h.answered
      have := h.length_asked
      rw [List.length_map, List.length_map]
      omega
    have hall := prefix_concat h.replied hlen hmem hnew
    refine ⟨h.stage, h.calls_eq, h.results, hasked ▸ h.asks, ?_, ?_⟩
    · rw [hasked, hreplies, List.map_append, ← hall]
      exact List.prefix_refl _
    · rw [hreplies, List.length_append]
      exact h.answered.trans (Nat.le_add_right _ _)
  · rw [if_neg haddress, List.append_nil] at hreplies
    exact h.frame hasked hreplies

/-- The next reply is to the call the client waits in. -/
theorem Linked.recv (h : Linked content calls server address client requests done taken coming)
    (hrouted : Routed server) (htold : ∀ x ∈ server.returned, x.2 = content x.1) {call : Call}
    (hphase : client.phase = .waiting call) {r : Reply}
    (hr : (replies server address)[client.results.length]? = some r) :
    Linked content calls server address (client.recv pb call r) requests (done ++ taken) [] [] := by
  rw [h.results, List.length_map] at hr
  have hlt : done.length < (replies server address).length := (List.getElem?_eq_some_iff.mp hr).1
  obtain ⟨x, hx, hxr⟩ := h.getElem?_asked hr
  have hle := h.replies_le
  have hasks := h.asks
  have hcalls_eq := h.calls_eq
  cases h.stage with
  | ready h' => rw [hphase] at h'; cases h'
  | coming =>
      rw [List.length_nil] at hle
      omega
  | @taken call' h' =>
      obtain rfl : call' = call := Phase.waiting.inj (h'.symm.trans hphase)
      obtain ⟨call, hcall, hasked⟩ := exists_getElem? hasks hx
      obtain rfl : call' = call := by simpa using hcall
      have hmem := (mem_asked.mp (List.mem_of_getElem? hx)).1
      obtain ⟨q, hq, -, hfits⟩ := hrouted.sent r (List.mem_of_mem_filter (List.mem_of_getElem? hr))
      obtain rfl : x.1 = q := by
        rw [hxr] at hmem
        exact Option.some.inj (hmem.symm.trans hq)
      have hrecv : client.recv pb call' r =
          { client with phase := .ready, results := client.results ++ [answer content call'] } := by
        unfold Client.recv
        rw [hasked.result htold hfits]
      rw [hrecv]
      refine ⟨.ready rfl, ?_, ?_, ?_, h.replied, ?_⟩
      · rw [hcalls_eq, List.append_nil, List.append_nil]
      · rw [List.map_append, ← h.results]
        rfl
      · rw [List.append_nil]
        exact hasks
      · rw [List.length_append]
        exact hlt

end

/-! ### Every run -/

theorem receive_received (server : ProxyServer.State) (r : Request) :
    (server.receive r).received = server.received ++ [r] := by
  unfold ProxyServer.State.receive
  cases r.opcode <;> rfl

theorem receive_returned (server : ProxyServer.State) (r : Request) :
    (server.receive r).returned = server.returned := by
  unfold ProxyServer.State.receive
  cases r.opcode <;> rfl

theorem receive_sent (server : ProxyServer.State) {r : Request} (hget : r.isGet = true) :
    (server.receive r).sent = server.sent := by
  unfold ProxyServer.State.receive
  cases hop : r.opcode with
  | PING => simp [Request.isGet, hop] at hget
  | _ => rfl

/-- What a step of the proxy does to its history, unless it receives. -/
theorem proxy_history {server server' : ProxyServer.State} {a : ProxyServer.Action}
    (h : ProxyServer.step server a = some server') (hne : ∀ r, a ≠ .receive r)
    (hdrive : DriveOnly a server) (htold : Told content a) :
    server'.received = server.received ∧
      (server'.sent = server.sent ∨ ∃ r, server'.sent = server.sent ++ [r]) ∧
      ∀ x ∈ server'.returned, x ∈ server.returned ∨ x.2 = content x.1 := by
  have heff := ProxyServer.step_effect h
  cases a with
  | receive r => exact absurd rfl (hne r)
  | no_event =>
      obtain ⟨-, rfl⟩ := heff
      exact ⟨rfl, .inl rfl, fun _ hx => .inl hx⟩
  | acquire =>
      obtain ⟨key, kv, -, -, rfl⟩ := heff
      exact ⟨rfl, .inl rfl, fun _ hx => .inl hx⟩
  | header =>
      obtain ⟨key, -, rfl⟩ := heff
      exact ⟨rfl, .inl rfl, fun _ hx => .inl hx⟩
  | send accepted =>
      obtain ⟨seq, key, -, ⟨-, rfl⟩ | ⟨rfl, -⟩⟩ := heff
      · exact ⟨rfl, .inl rfl, fun _ hx => .inl hx⟩
      · exact hdrive.2.elim
  | respond picked =>
      cases picked with
      | none =>
          obtain ⟨-, -, rfl⟩ := heff
          exact ⟨rfl, .inl rfl, fun _ hx => .inl hx⟩
      | some key =>
          obtain ⟨-, e, v, -, rfl⟩ := heff
          unfold ProxyServer.State.answer
          cases ProxyServer.reply key e v with
          | ok body => exact ⟨rfl, .inr ⟨_, rfl⟩, fun _ hx => .inl hx⟩
          | error e => exact ⟨rfl, .inl rfl, fun _ hx => .inl hx⟩
  | drive seq cmd value =>
      obtain ⟨-, -, key, hkey, rfl⟩ := heff
      obtain rfl : key = cmd.key := Option.some.inj (hkey.symm.trans hdrive.1)
      have hreturned : ∀ x ∈ (server.take_response seq cmd.key cmd value).returned,
          x ∈ server.returned ∨ x.2 = content x.1 := by
        intro x hx
        refine (List.mem_append.mp hx).imp_right fun hx => ?_
        rw [List.mem_singleton.mp hx]
        exact htold
      obtain ⟨e, o, -, ht⟩ | ⟨l, -, ht⟩ :=
        deliver_cases (server.take_response seq cmd.key cmd value) cmd value
      · rw [ht]
        exact ⟨rfl, .inl rfl, hreturned⟩
      · rw [ht]
        exact ⟨rfl, .inl rfl, hreturned⟩
  | bad_hmac seq => exact hdrive.2.elim
  | timeout => exact hdrive.2.elim
  | socket_error => exact hdrive.2.elim
  | listen =>
      obtain ⟨o, k, e, v, l, -, -, rfl⟩ | ⟨seq, kv, l, -, -, rfl⟩ := listen_cases heff
      · exact ⟨rfl, .inl rfl, fun _ hx => .inl hx⟩
      · exact ⟨rfl, .inl rfl, fun _ hx => .inl hx⟩

/-- The proxy runs as it runs by itself, and every client is in step with it. -/
structure Safe (content : Key → Option Bytes) (calls : Fin n → List Call) (s : State n) : Prop where
  server : proxy_server.ReachableWith DriveOnly s.server
  told : ∀ x ∈ s.server.returned, x.2 = content x.1
  known : ∀ r ∈ s.server.received, ∃ i : Fin n, r.address = i
  linked : ∀ i, ∃ done taken coming,
    Linked content (calls i) s.server i (s.clients i) (s.requests i) done taken coming

variable {calls : Fin n → List Call}

theorem safe_start : Safe content calls (sessions pb calls).start where
  server := .start
  told x hx := by cases hx
  known r hr := by cases hr
  linked i := ⟨[], [], [], .start (calls i) i⟩

/-- One client and its requests change. -/
theorem Safe.update (h : Safe content calls s) (i : Fin n) {client : Client}
    {requests : List Message} (hlinked : ∃ done taken coming,
      Linked content (calls i) s.server i client requests done taken coming) :
    Safe content calls { s with
      clients := Function.update s.clients i client
      requests := Function.update s.requests i requests } where
  server := h.server
  told := h.told
  known := h.known
  linked j := by
    by_cases hj : j = i
    · subst hj
      simpa only [Function.update_self] using hlinked
    · simpa only [Function.update_of_ne hj] using h.linked j

theorem Safe.receive (h : Safe content calls s) {i : Fin n} {msg : Message}
    {requests : List Message} (hrequests : s.requests i = msg :: requests)
    (hmain : s.server.main = .poll) :
    Safe content calls { s with
      server := s.server.receive (msg.request i)
      requests := Function.update s.requests i requests } := by
  obtain ⟨done, taken, coming, hlinked⟩ := h.linked i
  rw [hrequests] at hlinked
  obtain ⟨-, -, call, -, -, hasks⟩ := hlinked.stage.of_coming
  have hget : (msg.request i).isGet = true := (hasks i).isGet
  have hsent := receive_sent s.server hget
  constructor
  · exact h.server.step (.receive (msg.request i)) ⟨trivial, trivial⟩ (if_pos hmain)
  · exact receive_returned s.server (msg.request i) ▸ h.told
  · intro r hr
    rw [show State.server _ = s.server.receive (msg.request i) from rfl, receive_received] at hr
    obtain hr | hr := List.mem_append.mp hr
    · exact h.known r hr
    · exact ⟨i, by rw [List.mem_singleton.mp hr]; rfl⟩
  · intro j
    by_cases hj : j = i
    · subst hj
      simp only [Function.update_self]
      exact ⟨_, _, _, hlinked.receive (receive_received _ _) hsent⟩
    · obtain ⟨done, taken, coming, hother⟩ := h.linked j
      have hasked := asked_concat j (receive_received s.server (msg.request i))
      rw [if_neg (show (msg.request i).address ≠ j from fun heq => hj (Fin.ext heq.symm)),
        List.append_nil] at hasked
      have hreplies : replies (s.server.receive (msg.request i)) j = replies s.server j := by
        unfold replies
        rw [hsent]
      simp only [Function.update_of_ne hj]
      exact ⟨done, taken, coming, hother.frame hasked hreplies⟩

theorem safe_step : (sessions pb calls).Preserves (Faithful content) (Safe content calls) := by
  intro a s t h hg hst
  have heff := step_effect hst
  cases a with
  | request i =>
      obtain ⟨call, rest, hphase, hcalls, rfl⟩ := heff
      obtain ⟨done, taken, coming, hlinked⟩ := h.linked i
      exact h.update i ⟨_, _, _, hlinked.send hphase hcalls⟩
  | receive i =>
      obtain ⟨msg, requests, hrequests, hmain, rfl⟩ := heff
      exact h.receive hrequests hmain
  | proxy a =>
      obtain ⟨hne, server, hserver, rfl⟩ := heff
      obtain ⟨hreceived, hsent, hreturned⟩ := proxy_history hserver hne hg.1 hg.2
      have hnext := h.server.step a hg.1 hserver
      refine ⟨hnext, ?_, ?_, ?_⟩
      · exact fun x hx => (hreturned x hx).elim (h.told x) id
      · exact hreceived ▸ h.known
      · intro i
        obtain ⟨done, taken, coming, hlinked⟩ := h.linked i
        exact ⟨_, _, _, hlinked.replying hreceived hsent (routed_of_reachable hnext)⟩
  | reply i =>
      obtain ⟨call, reply, hphase, hreply, rfl⟩ := heff
      obtain ⟨done, taken, coming, hlinked⟩ := h.linked i
      have hnext : Linked content (calls i) s.server i ((s.clients i).recv pb call reply)
          (s.requests i) (done ++ taken) [] [] :=
        hlinked.recv (routed_of_reachable h.server) h.told hphase hreply
      have hsame : Function.update s.requests i (s.requests i) = s.requests :=
        Function.update_eq_self i s.requests
      rw [← hsame]
      exact h.update i ⟨_, _, _, hnext⟩

theorem safe_of_reachable (h : (sessions pb calls).ReachableWith (Faithful content) s) :
    Safe content calls s :=
  h.invariant safe_start safe_step

/-- The calls of a client have returned what they are to return, in their order. -/
theorem Safe.results (h : Safe content calls s) (i : Fin n) :
    (s.clients i).phase ≠ .raised ∧ (s.clients i).results =
      ((calls i).take (s.clients i).results.length).map (answer content) := by
  obtain ⟨done, taken, coming, hlinked⟩ := h.linked i
  refine ⟨hlinked.stage.not_raised, ?_⟩
  rw [hlinked.calls_eq, hlinked.results, List.length_map, List.append_assoc, List.append_assoc,
    List.take_left]

/-- Every call has returned. -/
def Client.Finished (client : Client) : Prop := client.phase = .ready ∧ client.calls = []

instance (client : Client) : Decidable client.Finished := inferInstanceAs (Decidable (_ ∧ _))

theorem Safe.finished (h : Safe content calls s) {i : Fin n} (hi : (s.clients i).Finished) :
    (s.clients i).results = (calls i).map (answer content) := by
  obtain ⟨done, taken, coming, hlinked⟩ := h.linked i
  obtain ⟨-, rfl, rfl⟩ := hlinked.stage.of_ready hi.1
  rw [hlinked.results, hlinked.calls_eq, hi.2, List.append_nil, List.append_nil, List.append_nil]

/-! ### `proxy_get` -/

/-- The call that `_proxy_get_fn` makes for a key. -/
def map_fn (getsize : Option UInt64) (key : Key) : Call :=
  match getsize with
  | none => .get key
  | some size => .get_smart key size

/-- The calls of the processes of `proxy_get`. -/
def proxy_calls (getsize : Option UInt64) (key_list : List Key) (i : Fin n) : List Call :=
  (PerfGets.slice_step n i key_list).map (map_fn getsize)

/-- What `_proxy_get_fn` has counted. -/
def Client.counts (client : Client) : ℕ × ℕ :=
  (client.results.length, (client.results.map List.length).sum)

/-- What the proxy and the drive come to: an answer for each key. -/
def answers (content : Key → Option Bytes) (getsize : Option UInt64) (key : Key) :
    Except Empty Bytes := .ok (answer content (map_fn getsize key))

theorem Safe.counts {getsize : Option UInt64} {key_list : List Key}
    (h : Safe content (proxy_calls getsize key_list) s) {i : Fin n}
    (hi : (s.clients i).Finished) :
    (s.clients i).counts =
      PerfGets.stats (answers content getsize) (PerfGets.slice_step n i key_list) := by
  unfold Client.counts PerfGets.stats
  rw [h.finished hi, proxy_calls, List.map_map, List.map_map, List.length_map]
  rfl

/-- In every run, whatever the order in which the clients, the proxy and the drive take their
steps, and also when processes ask for the same key, a call returns what the drive has under its
own key, or the zero bytes it has asked for, and none raises. When they are the calls of
`proxy_get` and all of them have returned, it prints what it would if the proxy were a function of
the key. -/
theorem proxy_answers_calls (hn : 0 < n) (pb : Protobuf) (content : Key → Option Bytes)
    (calls : Fin n → List Call) {s : State n}
    (h : (sessions pb calls).ReachableWith (Faithful content) s) :
    (∀ i, (s.clients i).phase ≠ .raised ∧ (s.clients i).results =
      ((calls i).take (s.clients i).results.length).map (answer content)) ∧
    ∀ getsize key_list, calls = proxy_calls getsize key_list →
      (∀ i, (s.clients i).Finished) →
      ∀ completed, completed.Perm (PerfGets.sublists n key_list) →
        PerfGets.proxy_get (answers content getsize) n key_list completed =
          .ok (PerfGets.sum_stats (List.ofFn fun i => (s.clients i).counts)) := by
  have hsafe := safe_of_reachable h
  refine ⟨hsafe.results, ?_⟩
  rintro getsize key_list rfl hfinished completed hcompleted
  have hcounts : (List.ofFn fun i => (s.clients i).counts) =
      (PerfGets.sublists n key_list).map (PerfGets.stats (answers content getsize)) := by
    unfold PerfGets.sublists
    rw [List.map_map, ← List.map_coe_finRange_eq_range, List.map_map, List.ofFn_eq_map]
    exact List.map_congr_left fun i _ => hsafe.counts (hfinished i)
  have hanswered : PerfGets.Answered (answers content getsize) key_list := fun key _ => ⟨_, rfl⟩
  obtain ⟨m, rfl⟩ : ∃ m, n = m + 1 := ⟨n - 1, by omega⟩
  rw [PerfGets.proxy_get_ok hn hanswered hcompleted, hcounts, PerfGets.sum_stats_eq,
    PerfGets.stats_perm (PerfGets.sublists_perm m key_list)]

/-! ### Two processes -/

/-- The fields in the order of their numbers, none of which is longer than one byte says; of bare
zero bytes none is a tag. -/
def shortFields : Protobuf where
  SerializeToString key opcode value :=
    let field (tag : UInt8) (bytes : Bytes) :=
      if bytes = [] then [] else tag :: UInt8.ofNat bytes.length :: bytes
    let tags : Bytes := match opcode with
      | .NONE => []
      | .PING => [8, 1]
      | .GET => [8, 2]
      | .GETSMART => [8, 3]
    tags ++ field 18 key ++ field 26 value
  ParseFromString bytes := if bytes = [] then some [] else none

/-- What the proxy does for a request, up to the drive. -/
def issue : List (Action 2) :=
  [.proxy .acquire, .proxy .header, .proxy (.send true), .proxy (.respond none)]

/-- The drive answers with the key itself. -/
def echo (seq : ℕ) (key : Key) : List (Action 2) :=
  [.proxy (.drive seq ⟨seq, .SUCCESS, key⟩ key), .proxy .listen, .proxy .listen]

def send_reply (key : Key) : List (Action 2) :=
  [.proxy .no_event, .proxy (.respond (some key))]

/-- The second process asks first and is answered last. -/
def threeKeys : List (Action 2) :=
  let p₀ : Fin 2 := ⟨0, Nat.zero_lt_two⟩
  let p₁ : Fin 2 := ⟨1, Nat.one_lt_two⟩
  [.request p₀, .request p₁, .receive p₁] ++ issue ++ [.receive p₀] ++ issue ++ echo 1 [1] ++
    send_reply [1] ++ [.reply p₀, .request p₀, .receive p₀] ++ issue ++ echo 2 [3, 3] ++
    echo 0 [2] ++ send_reply [2] ++ send_reply [3, 3] ++ [.reply p₀, .reply p₁]

theorem threeKeys_runs :
    ((sessions shortFields (proxy_calls none [[1], [2], [3, 3]])).exec threeKeys
      (sessions shortFields (proxy_calls none [[1], [2], [3, 3]])).start).isSome = true := by
  decide +kernel

theorem proxy_answers_calls_threeKeys :
    PerfGets.proxy_get (answers some none) 2 [[1], [2], [3, 3]] [[[2]], [[1], [3, 3]]] =
      .ok (3, 4) := by
  have hreachable := System.reachableWith_last (G := Faithful some) _ threeKeys_runs
    (by decide +kernel)
  have hprinted := (proxy_answers_calls Nat.two_pos shortFields some
    (proxy_calls none [[1], [2], [3, 3]]) hreachable).2 none _ rfl (by decide +kernel)
    [[[2]], [[1], [3, 3]]] (.swap ..)
  exact hprinted.trans (congrArg Except.ok (by decide +kernel))

end SmartDisk.ProxySessions
