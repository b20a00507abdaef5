import SmartDisk.ProxyRouting
import SmartDisk.SlotDelivery

/-!
# The emulated smart get of the two servers

`proxy_server.py` and `app.py` answer a GETSMART with as many zero bytes as the size
says. They differ where the drive has nothing to return: the application answers such a
get with an empty body.
-/
namespace SmartDisk.GetSmart
open ActionSystem KineticClient
open ProxyServer (proxy_server)
open SlotProtocol (app Idx MAX_PAYLOAD_LEN Filled)

attribute [local congr] bind_congr_left

/-- The drive answers every get of the key with this outcome, `none` for an error status. -/
def Tells (returned : List (Key × Option Bytes)) (key : Key) (o : Option Bytes) : Prop :=
  ∀ res, (key, res) ∈ returned → res = o

/-- In some run of the proxy whose drive answers `key` with `o`, a GETSMART of that key and size
is answered by `b`. -/
def ProxySends (key : Key) (size : UInt64) (o : Option Bytes) (b : ProxyServer.Body) : Prop :=
  ∃ s, proxy_server.ReachableWith ProxyRouting.DriveOnly s ∧ Tells s.returned key o ∧
    ∃ p ∈ s.sent, ∃ address, s.received[p.arrival]? = some ⟨address, .GETSMART, key, size⟩ ∧
      p.body = b

/-- In some run of the application, with any number of processes, whose drive answers `key` with
`o`, a handler of `getsmart` for that key and size returns `b`. -/
def AppReturns (key : Key) (size : ℕ) (o : Option Bytes) (b : Bytes) : Prop :=
  ∃ n, ∃ t : SlotProtocol.State n, (app n).ReachableWith SlotProtocol.DriveOnly t ∧
    Tells t.returned key o ∧ ∃ h, t.handlers h = ⟨.getsmart (some size), key, .returned b⟩

def zeros (size : ℕ) : Bytes := List.replicate size 0

/-! ### The proxy -/

theorem proxySends_unique {key : Key} {size : UInt64} {o : Option Bytes} {b : ProxyServer.Body}
    (h : ProxySends key size o b) : b = .raw (zeros size.toNat) := by
  obtain ⟨s, hs, -, p, hp, address, hq, rfl⟩ := h
  obtain ⟨q, hq', -, hfits⟩ := (ProxyRouting.routed_of_reachable hs).sent p hp
  obtain rfl := Option.some.inj (hq.symm.trans hq')
  exact hfits

/-- A request that has the proxy to itself. -/
def loneRequest (key : Key) (size : UInt64) (code : StatusCode) (value : Bytes) :
    List ProxyServer.Action :=
  [.receive ⟨0, .GETSMART, key, size⟩, .acquire, .header, .send true, .respond none,
    .drive 0 ⟨0, code, key⟩ value, .listen, .listen, .no_event, .respond (some key)]

theorem loneRequest_sent (key : Key) {size : UInt64} (hsize : size.toNat ≤ maxint)
    (code : StatusCode) (value : Bytes) :
    ∃ s, proxy_server.exec (loneRequest key size code value) proxy_server.start = some s ∧
      proxy_server.Guarded ProxyRouting.DriveOnly (loneRequest key size code value)
        proxy_server.start ∧
      s.received = [⟨0, .GETSMART, key, size⟩] ∧
      s.returned = [(key, (⟨0, code, key⟩ : Command).outcome value)] ∧
      s.sent = [⟨0, 0, .raw (zeros size.toNat)⟩] := by
  simp [-AList.insert_empty, loneRequest, System.exec, System.Guarded, proxy_server,
    ProxyServer.step, ProxyServer.State.receive, Client.acquire, Client.update_header,
    Client.packet_send, Client.asked, ProxyServer.State.take_response, Client.answer,
    ProxyServer.State.deliver, Client.on_response, ProxyServer.State.pop_pending,
    ProxyServer.State.listen, ProxyServer.State.answer, ProxyServer.reply, Client.clean_up,
    ProxyServer.State.rest, ProxyRouting.DriveOnly, ProxyServer.Echoes, ProxyServer.Quiet, hsize,
    zeros]

/-- Bare bytes are as long as a string can be. -/
def Sized (s : ProxyServer.State) : Prop :=
  ∀ p ∈ s.sent, ∀ bytes, p.body = .raw bytes → bytes.length ≤ maxint

section
variable {s : ProxyServer.State}

theorem Sized.append (h : Sized s) {t : ProxyServer.State} {p : ProxyServer.Reply}
    (ht : t.sent = s.sent ++ [p]) (hp : ∀ bytes, p.body = .raw bytes → bytes.length ≤ maxint) :
    Sized t := by
  intro p' hp'
  rw [ht, List.mem_append, List.mem_singleton] at hp'
  rcases hp' with hp' | rfl
  · exact h p' hp'
  · exact hp

theorem Sized.receive (h : Sized s) (r : ProxyServer.Request) : Sized (s.receive r) := by
  unfold ProxyServer.State.receive
  cases r.opcode with
  | NONE => exact h
  | PING => exact h.append rfl nofun
  | GET => exact h
  | GETSMART => exact h

theorem Sized.deliver (h : Sized s) (cmd : Command) (value : Bytes) :
    Sized (s.deliver cmd value) := by
  obtain ⟨e, o, -, ht⟩ | ⟨l, -, ht⟩ := ProxyServer.deliver_cases s cmd value
  · rw [ht]; exact h
  · rw [ht]; exact h

theorem Sized.answer (h : Sized s) (key : Key) (e : ProxyServer.Entry) (value : Bytes) :
    Sized (s.answer key e value) := by
  unfold ProxyServer.State.answer
  cases hreply : ProxyServer.reply key e value with
  | error e => exact h
  | ok body =>
      refine h.append rfl fun bytes hbytes => ?_
      obtain rfl : body = .raw bytes := hbytes
      unfold ProxyServer.reply at hreply
      split at hreply
      · cases hreply
      · split at hreply
        · rename_i hsize
          cases hreply
          rw [List.length_replicate]
          exact hsize
        · cases hreply
      · cases hreply

theorem sized_step : proxy_server.Preserves ProxyRouting.DriveOnly Sized := by
  intro a s t h hg hst
  have heff := ProxyServer.step_effect hst
  cases a with
  | receive r => exact heff.2 ▸ h.receive r
  | no_event =>
      obtain ⟨-, rfl⟩ := heff
      exact h
  | acquire =>
      obtain ⟨key, kv, -, -, rfl⟩ := heff
      exact h
  | header =>
      obtain ⟨key, -, rfl⟩ := heff
      exact h
  | send accepted =>
      obtain ⟨seq, key, -, ⟨-, rfl⟩ | ⟨rfl, -⟩⟩ := heff
      · exact h
      · exact hg.2.elim
  | respond picked =>
      cases picked with
      | none =>
          obtain ⟨-, -, rfl⟩ := heff
          exact h
      | some key =>
          obtain ⟨-, e, v, -, rfl⟩ := heff
          exact h.answer key e v
  | drive seq cmd value =>
      obtain ⟨-, -, key, -, rfl⟩ := heff
      have htaken : Sized (s.take_response seq key cmd value) := h
      exact htaken.deliver cmd value
  | bad_hmac seq => exact hg.2.elim
  | timeout => exact hg.2.elim
  | socket_error => exact hg.2.elim
  | listen =>
      obtain ⟨o, k, e, v, l, -, -, rfl⟩ | ⟨seq, kv, l, -, -, rfl⟩ := ProxyServer.listen_cases heff
      · exact h
      · exact h

end

/-- A size that no string has is never answered. -/
theorem proxySends_size {key : Key} {size : UInt64} {o : Option Bytes} {b : ProxyServer.Body}
    (h : ProxySends key size o b) : size.toNat ≤ maxint := by
  have hzeros := proxySends_unique h
  obtain ⟨s, hs, -, p, hp, -, -, rfl⟩ := h
  have hsized : Sized s := hs.invariant (fun p hp => absurd hp List.not_mem_nil) sized_step
  have hlength := hsized p hp _ hzeros
  unfold zeros at hlength
  rwa [List.length_replicate] at hlength

theorem proxySends_iff (key : Key) (size : UInt64) (o : Option Bytes) (b : ProxyServer.Body) :
    ProxySends key size o b ↔ size.toNat ≤ maxint ∧ b = .raw (zeros size.toNat) := by
  refine ⟨fun h => ⟨proxySends_size h, proxySends_unique h⟩, ?_⟩
  rintro ⟨hsize, rfl⟩
  obtain ⟨code, value, rfl⟩ : ∃ code value, (⟨0, code, key⟩ : Command).outcome value = o := by
    cases o with
    | none => exact ⟨.INTERNAL_ERROR, [], rfl⟩
    | some value => exact ⟨.SUCCESS, value, rfl⟩
  obtain ⟨s, hexec, hguarded, hreceived, hreturned, hsent⟩ :=
    loneRequest_sent key hsize code value
  refine ⟨s, System.ReachableWith.start.exec _ hguarded hexec, ?_,
    ⟨0, 0, .raw (zeros size.toNat)⟩, ?_, 0, ?_, rfl⟩
  · intro res hres
    rw [hreturned, List.mem_singleton] at hres
    exact congrArg Prod.snd hres
  · rw [hsent]
    exact List.mem_singleton_self _
  · rw [hreceived]
    rfl

/-! ### The application -/

def only : Fin 1 := ⟨0, Nat.one_pos⟩
def slot : Idx := ⟨0, Nat.succ_pos _⟩

/-- A getsmart that has the application to itself, up to the drive's response. -/
def asked (size : ℕ) (text : List Char) (key : Key) (code : StatusCode) (value : Bytes) :
    List (SlotProtocol.Action 1) :=
  SlotProtocol.ask 1 0 (.getsmart (some size)) text slot ++ SlotProtocol.issue only ++
    [.drive only 0 ⟨0, code, key⟩ value]

theorem asked_runs {text : List Char} {key : Key} (htext : SlotProtocol.bytes text = .ok key)
    (size : ℕ) (code : StatusCode) (value : Bytes) :
    ∃ t, (app 1).exec (asked size text key code value) (app 1).start = some t ∧
      t.returned = [(key, (⟨0, code, key⟩ : Command).outcome value)] ∧
      t.handlers 0 = ⟨.getsmart (some size), key, .poll slot⟩ ∧
      (t.workers only).listener = .callback
        (SlotProtocol.data_callback (some 0) ⟨key, slot, 0⟩ ⟨0, code, key⟩ value) := by
  simp [-AList.insert_empty, asked, SlotProtocol.ask, SlotProtocol.issue, System.exec, app,
    SlotProtocol.app_from, SlotProtocol.step, SlotProtocol.Handler.enter, htext,
    SlotProtocol.State.setPc, SlotProtocol.State.resume, SlotProtocol.State.setWorker,
    Client.acquire, Client.update_header, Client.packet_send, Client.asked,
    SlotProtocol.Worker.take_response, Client.answer, SlotProtocol.State.deliver,
    Client.on_response, SlotProtocol.respond]

theorem guarded_asked {size : ℕ} {text : List Char} {key : Key} {code : StatusCode}
    {value : Bytes} (hcode : code = .SUCCESS → value.length ≤ MAX_PAYLOAD_LEN) :
    (app 1).Guarded SlotProtocol.DriveOnly (asked size text key code value) (app 1).start := by
  apply System.Guarded.of_forall
  simpa [asked, SlotProtocol.ask, SlotProtocol.issue, SlotProtocol.DriveOnly] using fun _ => hcode

section
variable {n : ℕ} {t : SlotProtocol.State n}

/-- The callback fills the slot with what the drive said. -/
theorem listen_fills {w : Fin n} {seq : ℕ} {r : SlotProtocol.Request} {cmd : Command}
    {value : Bytes} (hfits : cmd.code = .SUCCESS → value.length ≤ MAX_PAYLOAD_LEN)
    (hl : (t.workers w).listener =
      .callback (SlotProtocol.data_callback (some seq) r cmd value)) :
    ∃ steps t', (app n).exec (List.replicate steps (.listen w)) t = some t' ∧
      t'.returned = t.returned ∧ t'.handlers = t.handlers ∧
      Filled (t'.sm_slots r.sm_idx) ((cmd.outcome value).getD []) := by
  unfold SlotProtocol.data_callback at hl
  unfold Command.outcome
  by_cases hcode : cmd.code = .SUCCESS
  · rw [if_pos hcode] at hl ⊢
    have hwrite : (t.sm_slots r.sm_idx).payload.write value = some ⟨_, _⟩ :=
      dif_pos (hfits hcode)
    refine ⟨2, ?_⟩
    simp [List.replicate_succ, System.exec, app, SlotProtocol.app_from, SlotProtocol.step,
      SlotProtocol.State.listen, hl, SlotProtocol.Progress.advance, hwrite,
      SlotProtocol.State.setWorker, SlotProtocol.setPayload, SlotProtocol.setLen, Filled]
  · rw [if_neg hcode] at hl ⊢
    refine ⟨1, ?_⟩
    simp [List.replicate_succ, System.exec, app, SlotProtocol.app_from, SlotProtocol.step,
      SlotProtocol.State.listen, hl, SlotProtocol.Progress.advance, SlotProtocol.State.setWorker,
      SlotProtocol.setLen, Filled]

/-- A handler whose slot holds `v` returns what it makes of it. -/
theorem resume_returns {h : ℕ} {endpoint : SlotProtocol.Endpoint} {key : Key} {i : Idx}
    {v b : Bytes} (hpc : t.handlers h = ⟨endpoint, key, .poll i⟩) (hslot : Filled (t.sm_slots i) v)
    (hbody : SlotProtocol.body endpoint v = .ok b) :
    ∃ steps t', (app n).exec (List.replicate steps (.resume h)) t = some t' ∧
      t'.returned = t.returned ∧ t'.handlers h = ⟨endpoint, key, .returned b⟩ := by
  obtain ⟨hlen, htake⟩ := hslot
  cases v with
  | nil =>
      refine ⟨5, ?_⟩
      simp [List.replicate_succ, System.exec, app, SlotProtocol.app_from, SlotProtocol.step,
        SlotProtocol.State.resume, hpc, hlen, SlotProtocol.State.setPc, SlotProtocol.setLen, hbody]
  | cons x v =>
      have hpos : ¬ ((v.length : ℤ) + 1 < 0) := by omega
      have hne : ¬ ((v.length : ℤ) + 1 = 0) := by omega
      refine ⟨6, ?_⟩
      simp [List.replicate_succ, System.exec, app, SlotProtocol.app_from, SlotProtocol.step,
        SlotProtocol.State.resume, hpc, hlen, hpos, hne, SlotProtocol.State.setPc,
        SlotProtocol.setLen, SlotProtocol.Payload.read]
      rw [show (t.sm_slots i).payload.1.take (v.length + 1) = x :: v from htake, hbody]

end

/-- In a run whose drive has no more than fits a slot, the application makes its body out of the
outcome alone. -/
theorem appReturns_iff {text : List Char} {key : Key} (htext : SlotProtocol.bytes text = .ok key)
    (size : ℕ) {o : Option Bytes} (hfits : ∀ value ∈ o, value.length ≤ MAX_PAYLOAD_LEN)
    (b : Bytes) :
    AppReturns key size o b ↔ SlotProtocol.body (.getsmart (some size)) (o.getD []) = .ok b := by
  constructor
  · rintro ⟨n, t, ht, htells, h, hh⟩
    obtain ⟨howned, hdirect⟩ := SlotProtocol.owned_and_direct SlotProtocol.quiescent_start rfl ht
    obtain ⟨res, hres, hbody⟩ := howned.returned_value (k := h) (b := b) hdirect (by rw [hh])
    rw [hh] at hres hbody
    rwa [htells res hres] at hbody
  · intro hbody
    obtain ⟨code, value, rfl⟩ : ∃ code value, (⟨0, code, key⟩ : Command).outcome value = o := by
      cases o with
      | none => exact ⟨.INTERNAL_ERROR, [], rfl⟩
      | some value => exact ⟨.SUCCESS, value, rfl⟩
    have hcode : code = .SUCCESS → value.length ≤ MAX_PAYLOAD_LEN := by
      rintro rfl
      exact hfits value rfl
    obtain ⟨t₁, hexec₁, hreturned₁, hhandler₁, hlistener⟩ := asked_runs htext size code value
    obtain ⟨listens, t₂, hexec₂, hreturned₂, hhandlers₂, hfilled⟩ := listen_fills hcode hlistener
    obtain ⟨resumes, t₃, hexec₃, hreturned₃, hhandler₃⟩ :=
      resume_returns (by rw [hhandlers₂]; exact hhandler₁) hfilled hbody
    refine ⟨1, t₃, ?_, ?_, 0, hhandler₃⟩
    · have h₁ := System.ReachableWith.start.exec _ (guarded_asked hcode) hexec₁
      have h₂ := h₁.exec _ (.of_forall (by simp [SlotProtocol.DriveOnly]) t₁) hexec₂
      exact h₂.exec _ (.of_forall (by simp [SlotProtocol.DriveOnly]) t₂) hexec₃
    · intro res hres
      rw [hreturned₃, hreturned₂, hreturned₁, List.mem_singleton] at hres
      exact congrArg Prod.snd hres

/-- With nothing to return the application ignores the size. -/
theorem body_empty (size : ℕ) : SlotProtocol.body (.getsmart (some size)) [] = .ok [] := by
  unfold SlotProtocol.body
  simp only
  rw [if_neg (by simp)]

theorem body_value {size : ℕ} (hsize : 0 < size) {value : Bytes} (hvalue : value ≠ []) (b : Bytes) :
    SlotProtocol.body (.getsmart (some size)) value = .ok b ↔ size ≤ maxint ∧ b = zeros size := by
  unfold SlotProtocol.body
  simp only
  rw [if_pos ⟨hsize.ne', List.length_pos_iff.mpr hvalue⟩]
  by_cases hmax : size ≤ maxint
  · rw [if_pos hmax, Except.ok.injEq, and_iff_right hmax, eq_comm]
    rfl
  · rw [if_neg hmax]
    exact iff_of_false nofun fun h => hmax h.1

/-- The two servers answer a getsmart alike if and only if the drive returned a value that is
not empty. -/
theorem getsmart_agree_iff {text : List Char} {key : Key}
    (htext : SlotProtocol.bytes text = .ok key) {size : UInt64} (hsize : 0 < size.toNat)
    {o : Option Bytes} (hfits : ∀ value ∈ o, value.length ≤ MAX_PAYLOAD_LEN) :
    (∀ b, ProxySends key size o (.raw b) ↔ AppReturns key size.toNat o b) ↔
      ∃ value, o = some value ∧ value ≠ [] := by
  constructor
  · intro h
    by_contra hnone
    have hempty : o.getD [] = [] := by
      cases o with
      | none => rfl
      | some value =>
          by_contra hvalue
          exact hnone ⟨value, rfl, hvalue⟩
    have hreturns : AppReturns key size.toNat o [] := by
      rw [appReturns_iff htext _ hfits, hempty]
      exact body_empty _
    have hzeros := ((proxySends_iff key size o (.raw [])).mp ((h []).mpr hreturns)).2
    have hlength := congrArg List.length (ProxyServer.Body.raw.inj hzeros)
    unfold zeros at hlength
    rw [List.length_replicate, List.length_nil] at hlength
    omega
  · rintro ⟨value, rfl, hvalue⟩ b
    rw [proxySends_iff, appReturns_iff htext _ hfits, Option.getD_some, body_value hsize hvalue,
      ProxyServer.Body.raw.injEq]

theorem bytes_k : SlotProtocol.bytes ['k'] = .ok [107] := rfl

/-- A get of `k` that asks for four bytes and fails. -/
theorem failedGet_differs :
    ¬ ∀ b, ProxySends [107] 4 none (.raw b) ↔ AppReturns [107] 4 none b := by
  intro h
  have hreturns : AppReturns [107] 4 none [] :=
    (appReturns_iff bytes_k 4 (fun value hvalue => by cases hvalue) []).mpr (body_empty 4)
  have hsends := (proxySends_iff _ _ _ _).mp ((h []).mpr hreturns)
  exact absurd hsends.2 (by decide +kernel)

theorem getsmart_agree_iff_twoBytes :
    ProxySends [107] 4 (some [5, 6]) (.raw (zeros 4)) ↔
      AppReturns [107] 4 (some [5, 6]) (zeros 4) := by
  have hfits : ∀ value ∈ some ([5, 6] : Bytes), value.length ≤ MAX_PAYLOAD_LEN := by
    intro value hvalue
    cases hvalue
    decide
  exact (getsmart_agree_iff bytes_k (by decide) hfits).mpr ⟨[5, 6], rfl, by decide⟩ _

end SmartDisk.GetSmart
