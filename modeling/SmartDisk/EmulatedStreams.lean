import SmartDisk.FrameStreams
import SmartDisk.VideoSessions

/-!
# The emulated smart disk behind a frame stream

A client waits for each response before it sends the next request, so the simulator of
`s3dexp/sim/storage.py` serves its requests one after another. The video decoder keeps
path and position between them, and an exception takes the simulator down. As long as
no video follows itself, every frame that the loop of `run` asks for is answered.
-/
namespace SmartDisk.EmulatedStreams
open StorageSim hiding Exn
open EventDelivery EventSolo RequestDelivery SmartClient FrameStreams
open VideoSessions (At Resets Scan frame_ids_of_zero frame_request requesting scan scan_cons
  scan_cons_behind scan_ok serve_frame_ok)

/-- What is done for a request, up to the boxes of the response. -/
def reply (cfg : Config) (request : Request) : Proc Reply (Option (List Box)) :=
  (loads request).bind fun payload => perform cfg request payload

/-- The video decoder after some requests. -/
def after (cfg : Config) :
    List Request → VideoDecoderSim → Except StorageSim.Exn VideoDecoderSim
  | [], s => .ok s
  | request :: requests, s => do
      let o := alone (reply cfg request) s
      let _ ← o.result
      after cfg requests o.state

/-- The response to the last of some requests. Without one the client waits, which is an error
here. -/
def emulator (cfg : Config) (stamps : List Request → ℚ × ℚ) (requests : List Request) : Body :=
  match requests.getLast?, after cfg requests.dropLast {} with
  | some request, .ok s =>
      match (alone (reply cfg request) s).result with
      | .ok face_boxes =>
          .ok ⟨(stamps requests).1, (stamps requests).2, ⟨request.opcode, face_boxes⟩⟩
      | .error _ => .error .ZMQError
  | _, _ => .error .ZMQError

variable {cfg : Config} {stamps : List Request → ℚ × ℚ}

theorem after_append (requests later : List Request) (s : VideoDecoderSim) :
    after cfg (requests ++ later) s = after cfg requests s >>= after cfg later := by
  induction requests generalizing s with
  | nil => rfl
  | cons request requests ih =>
      rw [List.cons_append, after, after]
      cases (alone (reply cfg request) s).result with
      | error e => rfl
      | ok face_boxes => exact ih _

variable (stamps) in
/-- A request that is served is answered, and the decoder goes on from there. -/
theorem emulator_concat {sent : List Request} {request : Request} {s : VideoDecoderSim}
    {face_boxes : Option (List Box)} (hsent : after cfg sent {} = .ok s)
    (hserved : (alone (reply cfg request) s).result = .ok face_boxes) :
    (∃ response, emulator cfg stamps (sent ++ [request]) = .ok response) ∧
      after cfg (sent ++ [request]) {} = .ok (alone (reply cfg request) s).state := by
  constructor
  · unfold emulator
    rw [List.getLast?_concat, List.dropLast_concat, hsent]
    simp only [hserved]
    exact ⟨_, rfl⟩
  · rw [after_append, hsent]
    change after cfg [request] s = _
    rw [after, hserved]
    rfl

/-! ### One scan of a video -/

/-- What `serve_request` does is what is done for its reply. -/
theorem reply_of_serve {request : Request} (address : Address) {s : VideoDecoderSim}
    (h : (alone (serve_request cfg request address) s).result = .ok ()) :
    (∃ face_boxes, (alone (reply cfg request) s).result = .ok face_boxes) ∧
      (alone (reply cfg request) s).state =
        (alone (serve_request cfg request address) s).state := by
  have hserve : serve_request cfg request address = (reply cfg request).bind fun face_boxes =>
      .emit ⟨address, request, ⟨request.opcode, face_boxes⟩⟩ (.ret ()) :=
    (bind_bind _ _ _).symm
  rw [hserve, alone_bind] at h ⊢
  unfold Outcome.andThen at h ⊢
  cases hreply : (alone (reply cfg request) s).result with
  | error e =>
      rw [hreply] at h
      cases h
  | ok face_boxes => exact ⟨⟨face_boxes, rfl⟩, rfl⟩

/-- A frame that is not behind the decoder is served. -/
theorem frame_served (hcfg : Measured cfg) (timestamp : ℚ) {path : Path} {frame_id : ℕ}
    {s : VideoDecoderSim} (hs : Framed s)
    (h : (s.opened cfg path).current_frame_id ≤ (frame_id : ℚ)) :
    let o := alone (reply cfg
      ⟨timestamp, OP_DECODE_VIDEO, path, 0, some (.frame (frame_id : ℤ))⟩) s
    (∃ face_boxes, o.result = .ok face_boxes) ∧
      o.state = { s.opened cfg path with current_frame_id := frame_id } := by
  have hrequest : (⟨timestamp, OP_DECODE_VIDEO, path, 0, some (.frame (frame_id : ℤ))⟩ : Request) =
      frame_request path timestamp frame_id := by
    unfold frame_request
    rw [Int.cast_natCast]
  obtain ⟨hok, hstate⟩ := serve_frame_ok hcfg timestamp default hs h
  obtain ⟨hanswered, hsame⟩ := reply_of_serve default hok
  rw [hrequest]
  exact ⟨hanswered, hsame.trans hstate⟩

variable (stamps) in
/-- The requests of a scan that goes through are answered. -/
theorem answers_scan (hcfg : Measured cfg) (stamp : ℕ → ℚ) (path : Path) (ids : List ℕ)
    {sent : List Request} {s s' : VideoDecoderSim} {elapsed : ℚ}
    (hsent : after cfg sent {} = .ok s) (hs : Framed s)
    (h : scan cfg path ids s = .ok (elapsed, s')) :
    Answers (emulator cfg stamps) sent (frame_requests stamp path sent.length ids) ∧
      after cfg (sent ++ frame_requests stamp path sent.length ids) {} = .ok s' ∧ Framed s' := by
  induction ids generalizing sent s elapsed with
  | nil =>
      cases h
      refine ⟨trivial, ?_, hs⟩
      rw [frame_requests, List.append_nil]
      exact hsent
  | cons frame_id ids ih =>
      by_cases hle : (s.opened cfg path).current_frame_id ≤ (frame_id : ℚ)
      · rw [scan_cons hcfg.target_fps hle] at h
        obtain ⟨⟨face_boxes, hserved⟩, hstate⟩ := frame_served hcfg (stamp sent.length) hs hle
        obtain ⟨hanswered, hafter⟩ := emulator_concat stamps hsent hserved
        rw [hstate] at hafter
        cases hrest : scan cfg path ids
            { s.opened cfg path with current_frame_id := frame_id } with
        | error e =>
            rw [hrest] at h
            cases h
        | ok r =>
            rw [hrest] at h
            cases h
            have hlater := ih hafter (framed_opened hcfg hs path) hrest
            rw [List.length_append, List.length_singleton, List.append_assoc] at hlater
            exact ⟨⟨hanswered, hlater.1⟩, hlater.2⟩
      · rw [scan_cons_behind hcfg.target_fps hle] at h
        cases h

/-! ### One video after another -/

section
variable {Arr : Type} {every : ℕ}

/-- The scan that `smart_decoder` makes of a video. -/
def toScan (hevery : 0 < every) (v : Clip Arr) : Scan := ⟨v.path, v.num_frames, every, hevery⟩

theorem answers_clips (hcfg : Measured cfg) (stamp : ℕ → ℚ) (hevery : 0 < every)
    (clips : List (Clip Arr)) {sent : List Request} {s : VideoDecoderSim} {p : Option Scan}
    (hsent : after cfg sent {} = .ok s) (hs : Framed s) (hp : At p s)
    (hchain : (p.toList ++ requesting (clips.map (toScan hevery))).IsChain Resets) :
    Answers (emulator cfg stamps) sent (clip_requests stamp every sent.length clips) := by
  induction clips generalizing sent s p with
  | nil => trivial
  | cons v clips ih =>
      rw [clip_requests, answers_append]
      rw [List.map_cons] at hchain
      by_cases hv : v.num_frames = 0
      · -- nothing is asked for, and the decoder stays where it is
        have hids : frame_ids v.num_frames every = [] :=
          frame_ids_of_zero (c := toScan hevery v) hv
        have hskip : requesting (toScan hevery v :: clips.map (toScan hevery)) =
            requesting (clips.map (toScan hevery)) :=
          List.filter_cons_of_neg fun h => of_decide_eq_true h hv
        rw [hskip] at hchain
        rw [hids, frame_requests, List.append_nil]
        exact ⟨trivial, ih hsent hs hp hchain⟩
      · have hkeep : requesting (toScan hevery v :: clips.map (toScan hevery)) =
            toScan hevery v :: requesting (clips.map (toScan hevery)) :=
          List.filter_cons_of_pos (decide_eq_true hv)
        rw [hkeep] at hchain
        have hreset : ∀ a ∈ p, Resets a (toScan hevery v) := by
          rintro a rfl
          exact (List.isChain_cons_cons.mp hchain).1
        obtain ⟨s', hscan, hat⟩ := scan_ok hcfg.target_fps hp (c := toScan hevery v) hv hreset
        obtain ⟨hnow, hafter, hs'⟩ :=
          answers_scan stamps hcfg stamp v.path _ hsent hs hscan
        refine ⟨hnow, ?_⟩
        rw [← List.length_append]
        exact ih hafter hs' hat (hchain.suffix (List.suffix_append _ _))

/-- Every request is answered, unless a video follows itself. -/
theorem emulator_answers (hcfg : Measured cfg) (stamp : ℕ → ℚ) (hevery : 0 < every)
    {clips : List (Clip Arr)}
    (h : (requesting (clips.map (toScan hevery))).IsChain Resets) :
    Answers (emulator cfg stamps) [] (clip_requests stamp every 0 clips) :=
  answers_clips (p := none) hcfg stamp hevery clips rfl ⟨le_rfl, le_rfl⟩
    ⟨rfl, Nat.cast_zero.symm⟩ h

/-- Different videos do not follow themselves. -/
theorem resets_of_nodup (hevery : 0 < every) {clips : List (Clip Arr)}
    (h : (clips.map (·.path)).Nodup) :
    (requesting (clips.map (toScan hevery))).IsChain Resets := by
  have hpaths : ((clips.map (toScan hevery)).map Scan.path).Nodup := by
    rw [List.map_map]
    exact h
  have hne : (clips.map (toScan hevery)).Pairwise fun a b => a.path ≠ b.path :=
    List.pairwise_map.mp hpaths
  exact ((hne.filter _).imp fun hab heq => absurd heq hab).isChain

/-- In front of the emulator the loop enqueues the same pairs for both streams. -/
theorem emulated_streams_agree {client : SmartStorageClient Arr} {files : Files Arr}
    {stamp : ℕ → ℚ} (hcfg : Measured cfg) (hevery : 0 < every) (delta_frames : ℤ)
    {clips : List (Clip Arr)} {pictures : Clip Arr → List Arr}
    (hpaths : (clips.map (·.path)).Nodup)
    (h : ∀ v ∈ clips, Decoded client files.imread v (pictures v)) :
    pairs (push_clips (smart_decoder client ⟨emulator cfg stamps, stamp⟩ files.imread every)
        delta_frames clips {}) =
      pairs (run files ⟨emulator cfg stamps, stamp⟩ false every delta_frames clips) :=
  loops_agree hevery delta_frames h
    (emulator_answers hcfg stamp hevery (resets_of_nodup hevery hpaths))

end

end SmartDisk.EmulatedStreams
