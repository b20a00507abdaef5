import SmartDisk.StorageSim

/-!
# The emulated latency is a lower bound

Every response is stamped no earlier than its request's own timestamp plus the
durations its stages were given, and leaves no earlier than `run_ahead` before
that stamp. The clock of the simulator is set to the timestamp of each request,
so neither fact can rest on the clock: the first is an invariant of the pending
work, and the second holds because a run ends before it reaches its instant.
-/
namespace SmartDisk.EmulatedLatency
open ActionSystem DiscreteEvents EventInvariants EventRuns StorageSim

def bus_elapsed (cfg : Config) (size_in_bytes : ℚ) : ℚ :=
  size_in_bytes * (1 / 10 ^ 6) / cfg.target_mbyteps

/-- The durations a request is served with, in the order of its stages. -/
inductive Stages (cfg : Config) (request : Request) : List (Option Component × ℚ) → Prop
  | decode_only {elapsed : ℚ} {w h : ℤ} :
      request.opcode = OP_DECODEONLY →
      cfg.decoder_lut (basename request.path) = some (elapsed, w, h) →
      Stages cfg request [(some .decoder, elapsed), (some .bus, bus_elapsed cfg (w * h * 3))]
  | decode_face {decoding detection : ℚ} {w h : ℤ} {boxes : List Box} :
      request.opcode = OP_DECODE_FACE →
      cfg.decoder_lut (basename request.path) = some (decoding, w, h) →
      cfg.face_lut (basename request.path) = some (detection, boxes) →
      Stages cfg request [(some .decoder, decoding), (some .face_detector, detection),
        (some .bus, bus_elapsed cfg (transmitted_size boxes))]
  /-- From the position of the decoder at the frame check. The size is that of the video that is
  open when the frame is reached. -/
  | decode_video {frame_id : ℚ} {s s' : VideoDecoderSim} :
      request.opcode = OP_DECODE_VIDEO → request.value = some (.frame frame_id) →
      s.Positioned cfg → s'.Positioned cfg →
      (s.opened cfg request.path).current_frame_id ≤ frame_id →
      Stages cfg request [(some .video_decoder, 1 / cfg.target_fps *
          (frame_id - (s.opened cfg request.path).current_frame_id)),
        (some .bus, bus_elapsed cfg (s'.w * s'.h * 3))]
  | debug_wait :
      request.opcode = OP_DEBUG_WAIT → Stages cfg request [(none, request.wait)]
  | none :
      request.opcode ∉ [OP_DECODEONLY, OP_DECODE_FACE, OP_DECODE_VIDEO, OP_DEBUG_WAIT] →
      Stages cfg request []

section
variable {α : Type} {P : VideoDecoderSim → Prop}
variable {Q : List (Option Component × ℚ) → Reply → Prop}
variable {cs : List (Option Component × ℚ)} {cfg : Config}

theorem ensures_get {post : List (Option Component × ℚ) → VideoDecoderSim → Prop}
    (h : ∀ s, P s → post cs s) : Ensures P Q post get cs := h

theorem ensures_set {post : List (Option Component × ℚ) → Unit → Prop} {s : VideoDecoderSim}
    (hs : P s) (h : post cs ()) : Ensures P Q post (set s) cs := ⟨hs, h⟩

theorem ensures_require {post : List (Option Component × ℚ) → Unit → Prop} {b : Bool}
    (h : b = true → post cs ()) : Ensures P Q post (require b) cs := by
  cases b
  · trivial
  · exact h rfl

theorem ensures_occupy {post : List (Option Component × ℚ) → Unit → Prop} {c : Component}
    {d : ℚ} (h : 0 ≤ d → post (cs ++ [(some c, d)]) ()) : Ensures P Q post (occupy c d) cs := by
  unfold occupy delay?
  split
  · rename_i hd
    split at hd
    · cases hd
      exact h ‹_›
    · cases hd
  · trivial

theorem ensures_divide {post : List (Option Component × ℚ) → ℚ → Prop} {a b : ℚ}
    (h : post cs (a / b)) : Ensures P Q post (divide a b) cs := by
  unfold divide
  split
  · trivial
  · exact h

theorem ensures_decode {post : List (Option Component × ℚ) → ℤ × ℤ → Prop} {path : Path}
    (h : ∀ elapsed w h, cfg.decoder_lut (basename path) = some (elapsed, w, h) →
      post (cs ++ [(some .decoder, elapsed)]) (w, h)) :
    Ensures P Q post (decode cfg path) cs := by
  unfold decode
  rw [ensures_bind]
  apply ensures_require
  intro _
  split
  · trivial
  · rw [ensures_bind]
    exact ensures_occupy fun _ => h _ _ _ ‹_›

theorem ensures_detect_face {post : List (Option Component × ℚ) → List Box → Prop}
    {path : Path} (h : ∀ elapsed boxes, cfg.face_lut (basename path) = some (elapsed, boxes) →
      post (cs ++ [(some .face_detector, elapsed)]) boxes) :
    Ensures P Q post (detect_face cfg path) cs := by
  unfold detect_face
  rw [ensures_bind]
  apply ensures_require
  intro _
  split
  · trivial
  · rw [ensures_bind]
    exact ensures_occupy fun _ => h _ _ ‹_›

theorem ensures_send {post : List (Option Component × ℚ) → Unit → Prop} {size : ℚ}
    (h : post (cs ++ [(some .bus, bus_elapsed cfg size)]) ()) :
    Ensures P Q post (send cfg size) cs := by
  unfold send
  rw [ensures_bind]
  exact ensures_divide (ensures_occupy fun _ => h)

theorem ensures_decode_frame {post : List (Option Component × ℚ) → ℚ × ℚ → Prop} {path : Path}
    {frame_id : ℚ} (h : ∀ s s' : VideoDecoderSim, s.Positioned cfg → s'.Positioned cfg →
      (s.opened cfg path).current_frame_id ≤ frame_id →
      post (cs ++ [(some .video_decoder, 1 / cfg.target_fps *
        (frame_id - (s.opened cfg path).current_frame_id))]) (s'.w, s'.h)) :
    Ensures (·.Positioned cfg) Q post (decode_frame cfg path frame_id) cs := by
  unfold decode_frame
  rw [ensures_bind]
  apply ensures_get
  intro s hs
  dsimp only
  have hopened := hs.opened path
  rw [ensures_bind]
  apply ensures_set hopened
  rw [ensures_bind]
  apply ensures_require
  intro hle
  have hle := of_decide_eq_true hle
  rw [ensures_bind]
  apply ensures_divide
  rw [ensures_bind]
  apply ensures_occupy
  intro _
  rw [ensures_bind]
  apply ensures_get
  intro s' hs'
  rw [ensures_bind]
  exact ensures_set ⟨hopened.1.trans hle, hs'.2⟩ (h s s' hs hs' hle)

theorem ensures_loads {post : List (Option Component × ℚ) → Option Payload → Prop}
    {request : Request} (h : post cs request.value) : Ensures P Q post (loads request) cs := by
  unfold loads
  split
  · trivial
  · exact h

theorem ensures_frame_id {post : List (Option Component × ℚ) → ℚ → Prop}
    {payload : Option Payload} (h : ∀ i, payload = some (.frame i) → post cs i) :
    Ensures P Q post (frame_id payload) cs := by
  unfold frame_id
  split
  · trivial
  · exact h _ rfl
  · trivial

/-- The branches of `serve_request` pass exactly the stage durations to `env.timeout`. -/
theorem ensures_perform (request : Request) :
    Ensures (·.Positioned cfg) Q (fun cs _ => Stages cfg request cs)
      (perform cfg request request.value) [] := by
  unfold perform
  split_ifs with h₁ h₂ h₃ h₄
  · rw [ensures_bind, ensures_process]
    apply ensures_decode
    intro elapsed w h hlut
    rw [ensures_bind, ensures_process]
    exact ensures_send (.decode_only h₁ hlut)
  · rw [ensures_bind, ensures_process]
    apply ensures_decode
    intro decoding w h hlut
    rw [ensures_bind, ensures_process]
    apply ensures_detect_face
    intro detection boxes hface
    rw [ensures_bind, ensures_process]
    exact ensures_send (.decode_face h₂ hlut hface)
  · rw [ensures_bind]
    apply ensures_frame_id
    intro frame_id hvalue
    rw [ensures_bind, ensures_process]
    apply ensures_decode_frame
    intro s s' hs hs' hle
    rw [ensures_bind, ensures_process]
    exact ensures_send (.decode_video h₃ hvalue hs hs' hle)
  · unfold delay?
    split
    · rename_i hd
      split at hd
      · cases hd
        exact .debug_wait h₄
      · cases hd
    · trivial
  · exact .none (by simp [h₁, h₂, h₃, h₄])

end

/-- Whatever comes out answers this very request, after its stages. -/
theorem ensures_serve_request (cfg : Config) (request : Request) (address : Address) :
    Ensures (·.Positioned cfg) (fun cs reply => reply.request = request ∧ Stages cfg request cs)
      (fun _ _ => True) (serve_request cfg request address) [] := by
  unfold serve_request
  rw [ensures_bind]
  apply ensures_loads
  rw [ensures_bind]
  apply (ensures_perform request).mono
  intro cs boxes hstages
  exact ⟨⟨rfl, hstages⟩, trivial⟩

/-- What is known of a reply when `callback` is called. -/
def Answers (cfg : Config) (born : ℚ) (charges : List (Option Component × ℚ))
    (reply : Reply) : Prop :=
  reply.request.timestamp = born ∧ Stages cfg reply.request charges

theorem ensures_answers (cfg : Config) (request : Request) (address : Address) :
    Ensures (·.Positioned cfg) (Answers cfg request.timestamp) (fun _ _ => True)
      (serve_request cfg request address) [] := by
  apply (ensures_serve_request cfg request address).mono_out
  rintro cs reply ⟨rfl, hstages⟩
  exact ⟨rfl, hstages⟩

/-! ### The server loop -/

abbrev Good (cfg : Config) : SimEnv → Prop := Valid (·.Positioned cfg) (Answers cfg)

/-- Outputs are handed over after every event, and a run ends `run_ahead` past a time
that the wall clock has reached. -/
def Loop (cfg : Config) (s : Server) : Prop :=
  match s.mode with
  | .polling => Good cfg s.env ∧ Idle s.env ∧ s.env.out = []
  | .running til =>
      Good cfg s.env ∧ Runs til s.env ∧ s.env.out = [] ∧ til ≤ s.wall + cfg.run_ahead
  | .crashed _ => True

theorem good_receive {cfg : Config} {env : SimEnv} (hg : Good cfg env) (hi : Idle env)
    (recv : Option (Address × Request)) : Good cfg (receive cfg env recv) := by
  cases recv with
  | none => exact hg
  | some x => exact valid_start (valid_setNow hg hi _) (ensures_answers cfg x.2 x.1)

theorem runs_receive {cfg : Config} {env : SimEnv} (hi : Idle env)
    (recv : Option (Address × Request)) {til : ℚ} (h : (receive cfg env recv).now < til) :
    Runs til (stopAt (receive cfg env recv) til) := by
  cases recv with
  | none => exact hi.runs h
  | some x => exact (hi.setNow _).runs_start _ h

theorem receive_out (cfg : Config) (env : SimEnv) (recv : Option (Address × Request)) :
    (receive cfg env recv).out = env.out := by
  cases recv <;> rfl

/-- The three ways on from a loop state. -/
inductive Turn (cfg : Config) (a : Action) (s t : Server) : Prop
  | poll (recv : Option (Address × Request)) (wall : ℚ) : a = .poll recv wall →
      s.mode = .polling → s.wall ≤ wall →
      t = run_until s (receive cfg s.env recv) wall (wall + cfg.run_ahead) → Turn cfg a s t
  | tick (til wall : ℚ) (r : Env.Step ℚ Component VideoDecoderSim Reply Exn) :
      a = .tick wall → s.mode = .running til → s.wall ≤ wall → s.env.step = some r →
      t = finish s wall r → Turn cfg a s t

theorem turn_of_step {cfg : Config} {a : Action} {s t : Server} (h : step cfg a s = some t) :
    Turn cfg a s t := by
  unfold step at h
  split at h
  · cases h
  rename_i hwall
  split at h
  · cases h
    exact .poll _ _ rfl ‹_› (not_lt.mp hwall) rfl
  · obtain ⟨r, hr, rfl⟩ := Option.map_eq_some_iff.mp h
    exact .tick _ _ r rfl ‹_› (not_lt.mp hwall) hr rfl
  · cases h

theorem Turn.loop {cfg : Config} {a : Action} {s t : Server} (hs : Loop cfg s)
    (h : Turn cfg a s t) :
    Loop cfg t := by
  cases h with
  | poll recv wall ha hmode hwall ht =>
      simp only [Loop, hmode] at hs
      obtain ⟨hg, hi, hout⟩ := hs
      subst ht
      unfold run_until
      split
      · rename_i hnow
        exact ⟨valid_stopAt (good_receive hg hi recv) hnow.le, runs_receive hi recv hnow,
          (receive_out cfg s.env recv).trans hout, le_rfl⟩
      · trivial
  | tick til wall r ha hmode hwall hr ht =>
      simp only [Loop, hmode] at hs
      obtain ⟨hg, hruns, hout, htil⟩ := hs
      subst ht
      cases r with
      | next env =>
          obtain ⟨hsound, hbusy⟩ := (hg.step hr).valid
          obtain ⟨hnow, hurgent, hstop, hone⟩ := hruns.step hr
          simp only [Loop, finish, hmode]
          exact ⟨⟨{ hsound with out := by simp }, hbusy⟩, ⟨hnow, hurgent, hstop, hone⟩, trivial,
            htil.trans (add_le_add_left hwall _)⟩
      | stopped env =>
          obtain ⟨hgood, hidle, -, hout'⟩ := hruns.stopped hg hr
          exact ⟨hgood, hidle, hout'.trans hout⟩
      | raised e env => trivial

theorem reachable_loop {cfg : Config} {init : ℚ} {s : Server}
    (hs : (run_server cfg init).Reachable s) : Loop cfg s := by
  apply hs.invariant
  · exact ⟨valid_initial _ _ ⟨le_rfl, rfl⟩, idle_initial _ _ _, rfl⟩
  · intro a s t h _ ht
    exact (turn_of_step ht).loop h

/-- The two guarantees of a sent response. -/
structure Timely (cfg : Config) (x : Sent) : Prop where
  stages : Stages cfg x.request x.charges
  late : x.request.timestamp + total x.charges ≤ x.response.completion_timestamp
  early : x.response.completion_timestamp - cfg.run_ahead ≤ x.wall

/-- What one event of a run hands over to the publisher. -/
theorem timely_on_complete {cfg : Config} {env env' : SimEnv} {til wall : ℚ}
    (hg : Good cfg env) (hr : Runs til env) (hout : env.out = [])
    (htil : til ≤ wall + cfg.run_ahead) (h : env.step = some (.next env')) :
    ∀ o ∈ env'.out, Timely cfg (on_complete wall o) := by
  intro o ho
  obtain ⟨hlate, hborn, hstages⟩ := (hg.step h).sound.out o ho
  have hnow : o.time = env'.now := by
    obtain ⟨⟨e, q⟩, hp, hf⟩ := Option.map_eq_some_iff.mp h
    obtain ⟨hnow, -, new, hnew, htime⟩ := within_fire hf
    rw [hnew, hout, List.nil_append] at ho
    rw [htime o ho, hnow]
  have hlt := (hr.step h).now
  refine ⟨hstages, ?_, ?_⟩
  · exact (add_le_add_left hborn.le _).trans hlate
  · exact sub_le_iff_le_add.mpr (hnow.le.trans (hlt.le.trans htil))

theorem Turn.timely {cfg : Config} {a : Action} {s t : Server} (hl : Loop cfg s)
    (hs : ∀ x ∈ s.sent, Timely cfg x) (h : Turn cfg a s t) : ∀ x ∈ t.sent, Timely cfg x := by
  cases h with
  | poll recv wall ha hmode hwall ht =>
      subst ht
      unfold run_until
      split <;> exact hs
  | tick til wall r ha hmode hwall hr ht =>
      simp only [Loop, hmode] at hl
      obtain ⟨hg, hruns, hout, htil⟩ := hl
      subst ht
      cases r with
      | next env =>
          intro x hx
          rcases List.mem_append.mp hx with hx | hx
          · exact hs x hx
          · obtain ⟨o, ho, rfl⟩ := List.mem_map.mp hx
            exact timely_on_complete hg hruns hout (htil.trans (add_le_add_left hwall _)) hr o ho
      | stopped env => exact hs
      | raised e env => exact hs

/-- In every run of the server, whatever the timestamps of its requests, each response
is completed no earlier than its request's timestamp plus its stage durations and is sent
no earlier than `run_ahead` before its completion. -/
theorem response_timely {cfg : Config} {init : ℚ} {s : Server}
    (hs : (run_server cfg init).Reachable s) : ∀ x ∈ s.sent, Timely cfg x := by
  have h : Loop cfg s ∧ ∀ x ∈ s.sent, Timely cfg x := by
    apply hs.invariant (I := fun s => Loop cfg s ∧ ∀ x ∈ s.sent, Timely cfg x)
    · refine ⟨reachable_loop .start, ?_⟩
      simp [run_server]
    · intro a s t h _ ht
      exact ⟨(turn_of_step ht).loop h.1, (turn_of_step ht).timely h.1 h.2⟩
  exact h.2

def decodeAt (timestamp : ℚ) : Request :=
  ⟨timestamp, OP_DECODEONLY, "/d/a.jpg".toList, 0, none⟩

/-- A request at 0 is served to the end; then one that was issued at `issued` arrives,
at a tenth of a millisecond, and `n` events of its run are processed. -/
def lateArrival (issued : ℚ) (n : ℕ) : List Action :=
  .poll (some (0, decodeAt 0)) 0 :: (List.replicate 13 (.tick 0) ++
    .poll (some (1, decodeAt issued)) (1 / 10000) :: List.replicate n (.tick (1 / 10000)))

theorem lateArrival_runs :
    ((run_server oneDecoder 0).exec (lateArrival (1 / 20000) 13)
      (run_server oneDecoder 0).start).isSome = true := by decide +kernel

/-- Both requests of such a run are answered, and both in time. -/
theorem response_timely_lateArrival :
    ((run_server oneDecoder 0).last _ lateArrival_runs).sent.length = 2 ∧
      ∀ x ∈ ((run_server oneDecoder 0).last _ lateArrival_runs).sent, Timely oneDecoder x :=
  ⟨by decide +kernel, response_timely (System.reachable_last _ lateArrival_runs)⟩

end SmartDisk.EmulatedLatency
