import SmartDisk.RequestDelivery

/-!
# Any schedule of the emulator

Here the emulator is driven by arbitrary calls of `sched_request` and `env.run`,
not only by the loop of `run_server`: requests may be scheduled between two runs
in any number and with any timestamps, and a run may go up to any instant. A call
of `env.run` that is refused raises in the caller and changes nothing.
-/
namespace SmartDisk.AnsweredOnce
open ActionSystem DiscreteEvents EventInvariants EventRuns EventDelivery StorageSim
open RequestDelivery

/-- `server` is the simulator with its publisher, `received` the requests handed over. -/
structure Session where
  server : Server
  received : List (Address × Request)

/-- `tick` is one event of the call of `env.run` that is under way. -/
inductive Call where
  | sched_request (x : Address × Request)
  | run (til : ℚ)
  | tick (wall : ℚ)

def call (cfg : Config) : Call → Session → Option Session
  | .sched_request x, s =>
      match s.server.mode with
      | .polling =>
          some ⟨{ s.server with env := receive cfg s.server.env (some x) }, s.received ++ [x]⟩
      | _ => none
  | .run til, s =>
      match s.server.mode with
      | .polling =>
          if s.server.env.now < til then
            some { s with server := run_until s.server s.server.env s.server.wall til }
          else some s
      | _ => none
  | .tick wall, s =>
      match s.server.mode with
      | .running _ => s.server.env.step.map fun r => { s with server := finish s.server wall r }
      | _ => none

def sessions (cfg : Config) (init : ℚ) : System Session Call where
  start := ⟨(run_server cfg init).start, []⟩
  step := call cfg

/-- Well-formed requests for the images and debug waits; videos are left to their order. -/
def Plain (cfg : Config) : Call → Session → Prop
  | .sched_request x, _ => wellFormed cfg x.2 = true ∧ x.2.opcode ≠ OP_DECODE_VIDEO
  | _, _ => True

instance decidablePlain (cfg : Config) : ∀ a s, Decidable (Plain cfg a s)
  | .sched_request x, _ =>
      inferInstanceAs (Decidable (wellFormed cfg x.2 = true ∧ x.2.opcode ≠ OP_DECODE_VIDEO))
  | .run _, _ => .isTrue trivial
  | .tick _, _ => .isTrue trivial

/-- The sender and the request of a response. -/
def origin (x : Sent) : Address × Request := (x.address, x.request)

/-- A response repeats timestamp and opcode of its request, and brings the boxes profiled
for its own path when faces were asked for. -/
structure Echoes (cfg : Config) (x : Sent) : Prop where
  timestamp : x.response.request_timestamp = x.request.timestamp
  opcode : x.response.value.op = x.request.opcode
  boxes : x.request.opcode = OP_DECODE_FACE → ∃ elapsed boxes,
    cfg.face_lut (basename x.request.path) = some (elapsed, boxes) ∧
      x.response.value.face_boxes = some boxes

/-! ### The invariant -/

/-- No read has to be accepted: none of the requests looks at the video decoder. -/
abbrev anything : Proc Reply Unit → VideoDecoderSim → Prop := fun _ _ => True

/-- Every task is honest, and every reply counts. -/
abbrev Books (cfg : Config) : List (Address × Request) → Server → Prop :=
  Ledger cfg (Honest (·.Positioned cfg) {} anything) fun _ => true

structure Orderly (cfg : Config) (s : Session) : Prop where
  ledger : Books cfg s.received s.server
  staffed : Staffed [] s.server.env
  capacity : ∀ c, (s.server.env.res c).capacity = cfg.capacity c
  out : s.server.env.out = []
  wellFormed : ∀ x ∈ s.received, wellFormed cfg x.2 = true
  alive : ∀ e, s.server.mode ≠ .crashed e

variable {cfg : Config} {s t : Session}

theorem orderly_start (cfg : Config) (init : ℚ) : Orderly cfg (sessions cfg init).start where
  ledger := ledger_initial init
  staffed := by
    refine ⟨?_, ?_⟩ <;>
      simp [sessions, run_server, Env.initial, pending, Heap.empty, EventInvariants.count, Busy]
  capacity _ := rfl
  out := rfl
  wellFormed := by simp [sessions]
  alive := by simp [sessions, run_server]

theorem Orderly.scheduled (hcfg : Measured cfg) (hs : Orderly cfg s) (x : Address × Request)
    (hmode : s.server.mode = .polling) (hwf : RequestDelivery.wellFormed cfg x.2 = true)
    (hop : x.2.opcode ≠ OP_DECODE_VIDEO) :
    Orderly cfg
      ⟨{ s.server with env := receive cfg s.server.env (some x) }, s.received ++ [x]⟩ where
  ledger := by
    obtain ⟨hserve, howed⟩ := honest_serve_request hcfg hwf x.1 fun h => absurd h hop
    exact hs.ledger.receive x hserve (congrArg _ howed)
  staffed := Staffed.schedule ⟨hs.staffed.users, hs.staffed.busy⟩ fun _ => rfl
  capacity := hs.capacity
  out := hs.out
  wellFormed y hy := by
    rcases List.mem_append.mp hy with hy | hy
    · exact hs.wellFormed y hy
    · rw [List.mem_singleton.mp hy]
      exact hwf
  alive e := by
    rw [hmode]
    exact nofun

theorem Orderly.started (hs : Orderly cfg s) {til : ℚ} (hlt : s.server.env.now < til) :
    Orderly cfg { s with server := run_until s.server s.server.env s.server.wall til } := by
  have hledger := hs.ledger.run_until s.server.wall hlt
  unfold StorageSim.run_until at *
  rw [if_pos hlt] at *
  exact ⟨hledger, hs.staffed.schedule fun _ => rfl, hs.capacity, hs.out, hs.wellFormed,
    fun _ => nofun⟩

/-- One event gives up neither a debt nor a unit. -/
theorem Orderly.ticked (hs : Orderly cfg s) {r : Env.Step ℚ Component VideoDecoderSim Reply Exn}
    (hr : s.server.env.step = some r) (wall : ℚ) :
    Orderly cfg { s with server := finish s.server wall r } := by
  obtain ⟨hledger, hcrash⟩ := hs.ledger.finish settling_honest (fun _ _ _ _ => True.intro) hr wall
  have halive : ∀ e, (finish s.server wall r).mode ≠ .crashed e :=
    fun e he => hs.alive e (hcrash e he)
  obtain ⟨⟨e, q⟩, hp, hf⟩ := Option.map_eq_some_iff.mp hr
  cases r with
  | next env =>
      have hstaffed := hs.staffed.step (.inl hr)
      refine ⟨hledger, ⟨hstaffed.users, hstaffed.busy⟩, fun c => ?_, rfl, hs.wellFormed, halive⟩
      exact ((within_fire hf).capacity c).trans (hs.capacity c)
  | stopped env =>
      obtain ⟨-, rfl⟩ := fire_stopped hf
      exact ⟨hledger, hs.staffed.step (.inr hr), hs.capacity, hs.out, hs.wellFormed, halive⟩
  | raised e env => exact absurd rfl (halive e)

theorem Orderly.call (hcfg : Measured cfg) (hs : Orderly cfg s) {a : Call} (ha : Plain cfg a s)
    (h : AnsweredOnce.call cfg a s = some t) : Orderly cfg t := by
  cases a with
  | sched_request x =>
      simp only [AnsweredOnce.call] at h
      split at h
      · cases h
        exact hs.scheduled hcfg x ‹_› ha.1 ha.2
      · cases h
  | run til =>
      simp only [AnsweredOnce.call] at h
      split at h
      · split at h
        · cases h
          exact hs.started ‹_›
        · cases h
          exact hs
      · cases h
  | tick wall =>
      simp only [AnsweredOnce.call] at h
      split at h
      · obtain ⟨r, hr, rfl⟩ := Option.map_eq_some_iff.mp h
        exact hs.ticked hr wall
      · cases h

theorem reachable_orderly (hcfg : Measured cfg) {init : ℚ}
    (hs : (sessions cfg init).ReachableWith (Plain cfg) s) : Orderly cfg s :=
  hs.invariant (orderly_start cfg init) fun _ _ _ hs ha h => hs.call hcfg ha h

/-! ### Answers -/

theorem Orderly.balance (hs : Orderly cfg s) :
    (s.server.sent.map reply : Multiset Reply) + due {} [] s.server.env =
      (s.received.map (replyTo cfg) : List Reply) := by
  have hall : ∀ m : Multiset Reply, m.filter (fun _ => true) = m :=
    fun m => Multiset.filter_eq_self.mpr fun _ _ => rfl
  exact (hall _).symm.trans (hs.ledger.balance.trans (hall _))

theorem Orderly.replies_le (hs : Orderly cfg s) :
    (s.server.sent.map reply : Multiset Reply) ≤ (s.received.map (replyTo cfg) : List Reply) := by
  rw [← hs.balance]
  exact Multiset.le_add_right _ _

/-- A simulator with nothing pending owes nothing. -/
theorem Orderly.replies_eq (hs : Orderly cfg s) (hempty : s.server.env.queue.events = []) :
    (s.server.sent.map reply : Multiset Reply) = (s.received.map (replyTo cfg) : List Reply) := by
  have hwait : ∀ c, (s.server.env.res c).waiting = [] := by
    intro c
    apply hs.staffed.waiting_eq hempty
    rw [hs.capacity]
    cases c <;> first | exact cfg.num_decoder_pos | exact Nat.one_pos
  have hdue : due {} [] s.server.env = 0 := by
    unfold due
    rw [scheduled_eq_zero hempty hwait, hs.out]
    rfl
  rw [← hs.balance, hdue, add_zero]

/-- Who is answered, and about which request. -/
def Reply.origin (r : Reply) : Address × Request := (r.address, r.request)

theorem origin_replyTo (received : List (Address × Request)) :
    (received.map (replyTo cfg)).map Reply.origin = received := by
  rw [List.map_map]
  exact List.map_id _

theorem origin_reply (sent : List Sent) : (sent.map reply).map Reply.origin = sent.map origin := by
  rw [List.map_map]
  rfl

theorem profiled_of_wellFormed {request : Request} (hop : request.opcode = OP_DECODE_FACE)
    (hwf : wellFormed cfg request = true) : ∃ elapsed boxes,
      cfg.face_lut (basename request.path) = some (elapsed, boxes) ∧
        profiled_boxes cfg request = some boxes := by
  have hface : (cfg.face_lut (basename request.path)).isSome = true := by
    have hbody := (Bool.and_eq_true_iff.mp hwf).2
    rw [if_neg (by rw [hop]; decide), if_pos hop] at hbody
    exact (Bool.and_eq_true_iff.mp hbody).2
  obtain ⟨⟨elapsed, boxes⟩, hlut⟩ := Option.isSome_iff_exists.mp hface
  refine ⟨elapsed, boxes, hlut, ?_⟩
  unfold profiled_boxes
  rw [if_pos hop, hlut]
  rfl

theorem Orderly.echoes (hs : Orderly cfg s) {x : Sent} (hx : x ∈ s.server.sent) :
    Echoes cfg x := by
  have hmem : reply x ∈ s.received.map (replyTo cfg) :=
    Multiset.mem_of_le (hs.replies_le) (List.mem_map_of_mem hx)
  obtain ⟨y, hy, heq⟩ := List.mem_map.mp hmem
  have hrequest : y.2 = x.request := congrArg Reply.request heq
  have hretval : (replyTo cfg y).retval = x.response.value := congrArg Reply.retval heq
  refine ⟨hs.ledger.echoed x hx, ?_, fun hop => ?_⟩
  · rw [← hretval, ← hrequest]
    rfl
  · obtain ⟨elapsed, boxes, hlut, hboxes⟩ :=
      profiled_of_wellFormed (hrequest ▸ hop) (hs.wellFormed y hy)
    refine ⟨elapsed, boxes, hrequest ▸ hlut, ?_⟩
    rw [← hretval]
    exact hboxes

/-- Whatever requests for images and waits are scheduled, with whatever timestamps and
between whatever runs: no call ever fails in the simulator, the responses sent are at most
one for each request received, go to its sender and say what they should, and when nothing is
pending each request has been answered exactly once. -/
theorem answered_once {cfg : Config} (hcfg : Measured cfg) {init : ℚ} {s : Session}
    (hs : (sessions cfg init).ReachableWith (Plain cfg) s) :
    (∀ e, s.server.mode ≠ .crashed e) ∧
      (s.server.sent.map origin : Multiset (Address × Request)) ≤ s.received ∧
      (∀ x ∈ s.server.sent, Echoes cfg x) ∧
      (s.server.env.queue.events = [] →
        (s.server.sent.map origin : Multiset (Address × Request)) = s.received) := by
  have ho := reachable_orderly hcfg hs
  refine ⟨ho.alive, ?_, fun x hx => ho.echoes hx, fun hempty => ?_⟩
  · have hle : Multiset.map Reply.origin _ ≤ _ := Multiset.map_le_map (ho.replies_le)
    rwa [Multiset.map_coe, Multiset.map_coe, origin_replyTo, origin_reply] at hle
  · have heq := congrArg (Multiset.map Reply.origin) (ho.replies_eq hempty)
    rwa [Multiset.map_coe, Multiset.map_coe, origin_replyTo, origin_reply] at heq

/-- The profiles of one picture with one face. -/
def oneFace : Config where
  decoder_lut p := if p = "a.jpg".toList then some (1 / 10000, 10, 10) else none
  face_lut p := if p = "a.jpg".toList then some (1 / 100, [⟨0, 0, 4, 5⟩]) else none
  frame_size _ := (0, 0)
  target_fps := 480
  target_mbyteps := 2000
  num_decoder := 1
  num_decoder_pos := Nat.one_pos
  run_ahead := 58 / 100000

/-- Two clients ask about the same picture, the second with an earlier timestamp. -/
def twoClients : List Call :=
  [.sched_request (0, ⟨1, OP_DECODE_FACE, "/d/a.jpg".toList, 0, none⟩),
    .sched_request (1, ⟨0, OP_DECODEONLY, "/d/a.jpg".toList, 0, none⟩), .run 2] ++
  .replicate 30 (.tick 0)

theorem measured_oneFace : Measured oneFace where
  decoding p d w h hlut := by
    obtain ⟨-, hlut⟩ := Option.ite_none_right_eq_some.mp hlut
    cases hlut
    decide +kernel
  detection p d boxes hlut := by
    obtain ⟨-, hlut⟩ := Option.ite_none_right_eq_some.mp hlut
    cases hlut
    decide +kernel
  frames _ := ⟨le_rfl, le_rfl⟩
  target_fps := by decide +kernel
  target_mbyteps := by decide +kernel

theorem twoClients_runs :
    ((sessions oneFace 0).exec twoClients (sessions oneFace 0).start).isSome = true := by
  decide +kernel

/-- Both clients have been answered when the simulator is done. -/
theorem answered_once_twoClients : ∃ s, (sessions oneFace 0).ReachableWith (Plain oneFace) s ∧
    s.server.sent.length = 2 ∧
    (s.server.sent.map origin : Multiset (Address × Request)) = s.received := by
  have hs := System.reachableWith_last (G := Plain oneFace) twoClients twoClients_runs
    (by decide +kernel)
  refine ⟨_, hs, by decide +kernel, ?_⟩
  exact (answered_once measured_oneFace hs).2.2.2 (List.length_eq_zero_iff.mp (by decide +kernel))

end SmartDisk.AnsweredOnce
