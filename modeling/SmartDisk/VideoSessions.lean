import SmartDisk.EventSolo
import SmartDisk.RequestDelivery

/-!
# Sessions with the stateful video decoder

One scan of a video is what `smart_decoder` of `script/video_search.py` requests:
the frames `range(0, num_frames, every)` in order, one request at a time. The
decoder keeps path and position from request to request, and from scan to scan.
It starts again at frame 0 only when the path differs from that of the request
before.
-/
namespace SmartDisk.VideoSessions
open DiscreteEvents EventDelivery EventRuns EventSolo StorageSim RequestDelivery

structure Scan where
  path : Path
  num_frames : ℕ
  every : ℕ
  every_pos : 0 < every

/-- `range(0, num_frames, every)`. -/
def Scan.frame_ids (c : Scan) : List ℕ :=
  List.range' 0 ((c.num_frames + c.every - 1) / c.every) c.every

def Scan.last (c : Scan) : ℕ := c.frame_ids.getLastD 0

/-- The requests of one scan, each sent after the response to the one before: the total of
their decode times, and the state of the decoder. -/
def scan (cfg : Config) (path : Path) :
    List ℕ → VideoDecoderSim → Except Exn (ℚ × VideoDecoderSim)
  | [], s => pure (0, s)
  | frame_id :: rest, s => do
      let o := alone (decode_frame cfg path frame_id : Proc Reply (ℚ × ℚ)) s
      let _ ← o.result
      let (elapsed, s) ← scan cfg path rest o.state
      pure (total o.charges + elapsed, s)

/-- Complete scans one after another, and the decode time of each. -/
def session (cfg : Config) : List Scan → VideoDecoderSim → Except Exn (List ℚ)
  | [], _ => pure []
  | c :: cs, s => do
      let (elapsed, s) ← scan cfg c.path c.frame_ids s
      let rest ← session cfg cs s
      pure (elapsed :: rest)

/-- The second scan finds the decoder at frame 0. -/
def Resets (a b : Scan) : Prop := a.path = b.path → a.last = 0

variable {cfg : Config}

theorem alone_decode_frame (hfps : 0 < cfg.target_fps) (path : Path) (frame_id : ℚ)
    (s : VideoDecoderSim) :
    alone (decode_frame cfg path frame_id : Proc Reply (ℚ × ℚ)) s =
      if (s.opened cfg path).current_frame_id ≤ frame_id then
        ⟨[(some .video_decoder,
            1 / cfg.target_fps * (frame_id - (s.opened cfg path).current_frame_id))],
          { s.opened cfg path with current_frame_id := frame_id },
          .ok ((s.opened cfg path).w, (s.opened cfg path).h)⟩
      else ⟨[], s.opened cfg path, .error .AssertionError⟩ := by
  rw [decode_frame_eq hfps]
  by_cases h : (s.opened cfg path).current_frame_id ≤ frame_id
  · rw [alone, alone, dif_pos h, if_pos h]
    rfl
  · rw [alone, alone, dif_neg h, if_neg h]
    rfl

theorem opened_same {s : VideoDecoderSim} {path : Path} (h : s.current_path = some path) :
    s.opened cfg path = s := if_pos h

theorem opened_path (s : VideoDecoderSim) (path : Path) :
    (s.opened cfg path).current_path = some path := by
  unfold VideoDecoderSim.opened
  split
  · assumption
  · rfl

/-- One request that passes the check: the frames skipped are paid for. -/
theorem scan_cons (hfps : 0 < cfg.target_fps) {path : Path} {frame_id : ℕ} {rest : List ℕ}
    {s : VideoDecoderSim} (h : (s.opened cfg path).current_frame_id ≤ frame_id) :
    scan cfg path (frame_id :: rest) s =
      (scan cfg path rest { s.opened cfg path with current_frame_id := frame_id }).map fun r =>
        (((frame_id : ℚ) - (s.opened cfg path).current_frame_id) / cfg.target_fps + r.1, r.2) := by
  have hcharge : total [(some Component.video_decoder,
      1 / cfg.target_fps * ((frame_id : ℚ) - (s.opened cfg path).current_frame_id))] =
        ((frame_id : ℚ) - (s.opened cfg path).current_frame_id) / cfg.target_fps := by
    rw [EventInvariants.total_singleton, one_div, mul_comm, ← div_eq_mul_inv]
  rw [scan, alone_decode_frame hfps, if_pos h, ← hcharge]
  rfl

theorem scan_cons_behind (hfps : 0 < cfg.target_fps) {path : Path} {frame_id : ℕ}
    {rest : List ℕ} {s : VideoDecoderSim}
    (h : ¬ (s.opened cfg path).current_frame_id ≤ frame_id) :
    scan cfg path (frame_id :: rest) s = .error .AssertionError := by
  rw [scan, alone_decode_frame hfps, if_neg h]
  rfl

/-- The rest of a scan, from the frame the decoder stands at. -/
theorem scan_from (hfps : 0 < cfg.target_fps) {path : Path} (current : ℕ) (rest : List ℕ)
    (hsorted : (current :: rest).IsChain (· ≤ ·)) {s : VideoDecoderSim}
    (hpath : s.current_path = some path) (hcurrent : s.current_frame_id = current) :
    ∃ s', scan cfg path rest s =
        .ok (((rest.getLastD current : ℕ) - (current : ℚ)) / cfg.target_fps, s') ∧
      s'.current_path = some path ∧ s'.current_frame_id = (rest.getLastD current : ℕ) := by
  induction rest generalizing current s with
  | nil =>
      refine ⟨s, ?_, hpath, hcurrent⟩
      simp [scan, pure, Except.pure]
  | cons frame_id rest ih =>
      obtain ⟨hle, hrest⟩ := List.isChain_cons_cons.mp hsorted
      have hcheck : (s.opened cfg path).current_frame_id ≤ (frame_id : ℚ) := by
        rw [opened_same hpath, hcurrent]
        exact_mod_cast hle
      obtain ⟨s', hs', hpath', hlast⟩ := @ih frame_id hrest
        { s.opened cfg path with current_frame_id := frame_id } (opened_path s path) rfl
      refine ⟨s', ?_, hpath', by rw [List.getLastD_cons]; exact hlast⟩
      rw [scan_cons hfps hcheck, hs', opened_same hpath, hcurrent]
      simp only [Except.map, Except.ok.injEq, Prod.mk.injEq, List.getLastD_cons, and_true]
      rw [← add_div, add_comm, sub_add_sub_cancel]

/-! ### Whole scans -/

theorem frame_ids_of_zero {c : Scan} (h : c.num_frames = 0) : c.frame_ids = [] := by
  have hcount : (c.num_frames + c.every - 1) / c.every = 0 := by
    have := c.every_pos
    rw [h, Nat.div_eq_zero_iff]
    omega
  rw [Scan.frame_ids, hcount]
  rfl

/-- A scan with frames starts at frame 0 and goes forward. -/
theorem frame_ids_cons {c : Scan} (h : c.num_frames ≠ 0) :
    ∃ rest, c.frame_ids = 0 :: rest ∧ (0 :: rest).IsChain (· ≤ ·) := by
  have hcount : 0 < (c.num_frames + c.every - 1) / c.every := by
    have := c.every_pos
    exact Nat.div_pos (by omega) this
  obtain ⟨k, hk⟩ := Nat.exists_eq_succ_of_ne_zero hcount.ne'
  have hrange : c.frame_ids = 0 :: List.range' (0 + c.every) k c.every := by
    rw [Scan.frame_ids, hk, List.range'_succ]
  refine ⟨_, hrange, ?_⟩
  rw [← hrange]
  exact (List.isChain_range' 0 _ c.every).imp fun a b hab => by omega

/-- The decoder after the scan `p`, or at the beginning. -/
structure At (p : Option Scan) (s : VideoDecoderSim) : Prop where
  path : s.current_path = p.map Scan.path
  frame : s.current_frame_id = ((p.map Scan.last).getD 0 : ℕ)

theorem opened_frame {p : Option Scan} {s : VideoDecoderSim} (h : At p s) (path : Path) :
    (s.opened cfg path).current_frame_id =
      if p.map Scan.path = some path then (((p.map Scan.last).getD 0 : ℕ) : ℚ) else 0 := by
  unfold VideoDecoderSim.opened
  rw [h.path]
  split
  · exact h.frame
  · rfl

theorem scan_ok (hfps : 0 < cfg.target_fps) {p : Option Scan} {s : VideoDecoderSim} (h : At p s)
    {c : Scan} (hc : c.num_frames ≠ 0) (hreset : ∀ a ∈ p, Resets a c) :
    ∃ s', scan cfg c.path c.frame_ids s = .ok (c.last / cfg.target_fps, s') ∧ At (some c) s' := by
  obtain ⟨rest, hids, hsorted⟩ := frame_ids_cons hc
  have hzero : (s.opened cfg c.path).current_frame_id = 0 := by
    rw [opened_frame h]
    split
    · rename_i hpath
      obtain ⟨a, rfl, ha⟩ := Option.map_eq_some_iff.mp hpath
      simp [hreset a rfl ha]
    · rfl
  obtain ⟨s', hs', hpath, hlast⟩ := @scan_from cfg hfps c.path 0 rest hsorted
    { s.opened cfg c.path with current_frame_id := (0 : ℕ) } (opened_path s c.path) rfl
  have hend : c.last = rest.getLastD 0 := by rw [Scan.last, hids, List.getLastD_cons]
  refine ⟨s', ?_, hpath, by rw [hlast, ← hend]; rfl⟩
  rw [hids, scan_cons hfps (by rw [hzero]; exact le_rfl), hs', hzero, hend]
  simp [Except.map]

theorem scan_behind (hfps : 0 < cfg.target_fps) {a c : Scan} {s : VideoDecoderSim}
    (h : At (some a) s) (hc : c.num_frames ≠ 0) (hreset : ¬ Resets a c) :
    scan cfg c.path c.frame_ids s = .error .AssertionError := by
  obtain ⟨rest, hids, -⟩ := frame_ids_cons hc
  obtain ⟨hpath, hlast⟩ := Classical.not_imp.mp hreset
  have hframe : (s.opened cfg c.path).current_frame_id = (a.last : ℚ) := by
    rw [opened_frame h]
    exact if_pos (congrArg some hpath)
  rw [hids]
  apply scan_cons_behind hfps
  rw [hframe, Nat.cast_zero, not_le]
  exact_mod_cast Nat.pos_of_ne_zero hlast

/-- The scans that send requests at all. -/
def requesting (cs : List Scan) : List Scan := cs.filter fun c => c.num_frames ≠ 0

def decode_times (cfg : Config) (cs : List Scan) : List ℚ :=
  cs.map fun c => (c.last : ℚ) / cfg.target_fps

theorem session_iff_from (hfps : 0 < cfg.target_fps) (cs : List Scan) {p : Option Scan}
    {s : VideoDecoderSim} (h : At p s) :
    session cfg cs s = .ok (decode_times cfg cs) ↔
      (p.toList ++ requesting cs).IsChain Resets := by
  induction cs generalizing p s with
  | nil => cases p <;> simp [session, decode_times, requesting, pure, Except.pure]
  | cons c cs ih =>
      by_cases hc : c.num_frames = 0
      · -- no request, no time, and the decoder stays where it is
        have hskip : session cfg (c :: cs) s = (session cfg cs s).map (0 :: ·) := by
          rw [session, frame_ids_of_zero hc]
          rfl
        have htimes : decode_times cfg (c :: cs) = 0 :: decode_times cfg cs := by
          simp [decode_times, Scan.last, frame_ids_of_zero hc]
        have hreq : requesting (c :: cs) = requesting cs := by simp [requesting, hc]
        rw [hskip, htimes, hreq, ← ih h]
        cases session cfg cs s <;> simp [Except.map]
      · have hreq : requesting (c :: cs) = c :: requesting cs := by simp [requesting, hc]
        rw [hreq]
        by_cases hreset : ∀ a ∈ p, Resets a c
        · obtain ⟨s', hscan, hat⟩ := scan_ok hfps h hc hreset
          have hsession : session cfg (c :: cs) s =
              (session cfg cs s').map ((c.last : ℚ) / cfg.target_fps :: ·) := by
            rw [session, hscan]
            rfl
          have hchain : (p.toList ++ c :: requesting cs).IsChain Resets ↔
              (c :: requesting cs).IsChain Resets := by
            cases p with
            | none => rfl
            | some a => exact List.isChain_cons_cons.trans (and_iff_right (hreset a rfl))
          rw [hchain, show c :: requesting cs = (some c).toList ++ requesting cs from rfl, ← ih hat,
            hsession]
          cases session cfg cs s' <;> simp [Except.map, decode_times]
        · -- the first request fails, and the session with it
          cases p with
          | none => exact absurd nofun hreset
          | some a =>
              have hnot : ¬ Resets a c := fun hr => hreset (by rintro b ⟨⟩; exact hr)
              have hsession : session cfg (c :: cs) s = .error .AssertionError := by
                rw [session, scan_behind hfps h hc hnot]
                rfl
              rw [hsession]
              refine ⟨nofun, fun hchain => ?_⟩
              exact absurd (List.isChain_cons_cons.mp hchain).1 hnot

/-- A session of complete scans goes through, with the decode times of its last frames, if and
only if no scan is followed by a scan of the same path, unless it stopped at frame 0. Scans
without frames do not count. -/
theorem session_iff {cfg : Config} (hfps : 0 < cfg.target_fps) (cs : List Scan) :
    session cfg cs {} = .ok (decode_times cfg cs) ↔ (requesting cs).IsChain Resets :=
  session_iff_from (p := none) hfps cs ⟨rfl, Nat.cast_zero.symm⟩

/-- The first 30 frames of a video, every tenth of them. -/
def clip (path : Path) : Scan := ⟨path, 30, 10, by decide⟩

/-- The same video twice: frame 0 of the second scan lies behind frame 20. -/
theorem rescan_fails :
    ¬ ∃ times, session oneDecoder [clip "a.mp4".toList, clip "a.mp4".toList] {} = .ok times := by
  have h : (session oneDecoder [clip "a.mp4".toList, clip "a.mp4".toList] {}).toOption = none := by
    decide +kernel
  rintro ⟨times, hok⟩
  rw [hok] at h
  cases h

theorem session_iff_twoVideos :
    (requesting [clip "a.mp4".toList, clip "b.mp4".toList]).IsChain Resets ∧
      session oneDecoder [clip "a.mp4".toList, clip "b.mp4".toList] {} =
        .ok (decode_times oneDecoder [clip "a.mp4".toList, clip "b.mp4".toList]) := by
  have hchain : (requesting [clip "a.mp4".toList, clip "b.mp4".toList]).IsChain Resets := by
    simp [requesting, clip, Resets]
  exact ⟨hchain, (session_iff (by decide +kernel) _).mpr hchain⟩

/-! ### The same in the simulator -/

/-- The request of `decode_video`. -/
def frame_request (path : Path) (timestamp : ℚ) (frame_id : ℕ) : Request :=
  ⟨timestamp, OP_DECODE_VIDEO, path, 0, some (.frame frame_id)⟩

/-- Requests for these frames are served one after another, each as the only process. -/
inductive Served (cfg : Config) (path : Path) (address : Address) (issued : ℕ → ℚ) :
    List ℕ → SimEnv → SimEnv → Prop
  | nil (env : SimEnv) : Served cfg path address issued [] env env
  | cons {frame_id : ℕ} {rest : List ℕ} {env env₁ env₂ : SimEnv} :
      Steps (sched_request cfg env (issued frame_id)
        (frame_request path (issued frame_id) frame_id) address) env₁ →
      Turn env₁.now .ended env₁ → Served cfg path address issued rest env₁ env₂ →
      Served cfg path address issued (frame_id :: rest) env env₂

/-- The reply of a video request comes after its decode and its transfer. -/
theorem serve_frame_request (path : Path) (timestamp : ℚ) (frame_id : ℕ) (address : Address)
    (s : VideoDecoderSim) :
    alone (serve_request cfg (frame_request path timestamp frame_id) address) s =
      (alone (decode_frame cfg path frame_id : Proc Reply (ℚ × ℚ)) s).andThen fun x =>
        alone ((send cfg (x.1 * x.2 * 3)).process.bind fun _ =>
          .emit (⟨address, frame_request path timestamp frame_id, ⟨OP_DECODE_VIDEO, none⟩⟩ : Reply)
            (.ret ())) := by
  have hserve : serve_request cfg (frame_request path timestamp frame_id) address =
      ((decode_frame cfg path frame_id).process.bind fun x =>
        (send cfg (x.1 * x.2 * 3)).process.bind fun _ => .ret none).bind fun boxes =>
          .emit (⟨address, frame_request path timestamp frame_id, ⟨OP_DECODE_VIDEO, boxes⟩⟩ : Reply)
            (.ret ()) := rfl
  rw [hserve, bind_bind, alone_bind, alone_process]
  simp only [bind_bind]
  rfl

theorem serve_frame_ok (hcfg : Measured cfg) {path : Path} (timestamp : ℚ) {frame_id : ℕ}
    (address : Address) {s : VideoDecoderSim} (hs : Framed s)
    (h : (s.opened cfg path).current_frame_id ≤ frame_id) :
    let o := alone (serve_request cfg (frame_request path timestamp frame_id) address) s
    o.result = .ok () ∧
      o.state = { s.opened cfg path with current_frame_id := frame_id } := by
  have hopened := framed_opened hcfg hs path
  obtain ⟨d, hsend⟩ := send_eq (O := Reply) hcfg (mul_nonneg (mul_nonneg hopened.1 hopened.2)
    (by norm_num : (0 : ℚ) ≤ 3))
  rw [serve_frame_request, alone_decode_frame hcfg.target_fps, if_pos h]
  simp only [Outcome.andThen, hsend]
  exact ⟨rfl, rfl⟩

/-- The simulated server follows `scan`, whatever the timestamps. -/
theorem served_of_scan (hcfg : Measured cfg) (path : Path) (address : Address) (issued : ℕ → ℚ)
    (ids : List ℕ) {env : SimEnv} (hquiet : Turn env.now .ended env) (hframed : Framed env.comp)
    {elapsed : ℚ} {s : VideoDecoderSim} (h : scan cfg path ids env.comp = .ok (elapsed, s)) :
    ∃ env', Served cfg path address issued ids env env' ∧ Turn env'.now .ended env' ∧
      env'.comp = s := by
  induction ids generalizing env elapsed with
  | nil =>
      cases h
      exact ⟨env, .nil env, hquiet, rfl⟩
  | cons frame_id rest ih =>
      by_cases hle : (env.comp.opened cfg path).current_frame_id ≤ (frame_id : ℚ)
      · rw [scan_cons hcfg.target_fps hle] at h
        cases hrest : scan cfg path rest
            { env.comp.opened cfg path with current_frame_id := frame_id } with
        | error e => rw [hrest] at h; cases h
        | ok r =>
            rw [hrest] at h
            cases h
            have hset : Turn (setNow env (issued frame_id)).now .ended
                (setNow env (issued frame_id)) :=
              ⟨rfl, hquiet.pending, hquiet.waiting, hquiet.users, hquiet.room⟩
            obtain ⟨env₁, hsteps, hlone, hstate⟩ := start_alone
              (serve_request cfg (frame_request path (issued frame_id) frame_id) address) hset
            obtain ⟨hok, hframe⟩ := serve_frame_ok hcfg (issued frame_id) address hframed hle
            have hcomp₀ : (setNow env (issued frame_id)).comp = env.comp := rfl
            rw [hcomp₀] at hlone hstate
            rw [hok] at hlone
            obtain ⟨env₂, hsteps', hturn, hcomp⟩ := hlone.ended
            have hcomp₂ : env₂.comp =
                { env.comp.opened cfg path with current_frame_id := frame_id } :=
              hcomp.trans (hstate.trans hframe)
            have hframed₂ : Framed env₂.comp := by
              rw [hcomp₂]
              exact framed_opened hcfg hframed path
            rw [← hturn.now] at hturn
            rw [← hcomp₂] at hrest
            obtain ⟨env', hserved, hquiet', hs⟩ := ih hturn hframed₂ hrest
            exact ⟨env', .cons (hsteps.trans hsteps') hturn hserved, hquiet', hs⟩
      · rw [scan_cons_behind hcfg.target_fps hle] at h
        cases h

/-- A frame behind the decoder takes the simulator down. -/
theorem raised_of_behind (hcfg : Measured cfg) {path : Path} {frame_id : ℕ} (timestamp : ℚ)
    (address : Address) {env : SimEnv} (hquiet : Turn env.now .ended env)
    (hle : ¬ (env.comp.opened cfg path).current_frame_id ≤ frame_id) :
    ∃ env₁ env₂,
      Steps (sched_request cfg env timestamp (frame_request path timestamp frame_id) address) env₁ ∧
      env₁.step = some (.raised .AssertionError env₂) := by
  have hset : Turn (setNow env timestamp).now .ended (setNow env timestamp) :=
    ⟨rfl, hquiet.pending, hquiet.waiting, hquiet.users, hquiet.room⟩
  obtain ⟨env₁, hsteps, hlone, -⟩ := start_alone
    (serve_request cfg (frame_request path timestamp frame_id) address) hset
  have hcomp₀ : (setNow env timestamp).comp = env.comp := rfl
  rw [hcomp₀, serve_frame_request, alone_decode_frame hcfg.target_fps, if_neg hle] at hlone
  obtain ⟨env₂, env₃, hsteps', hstep⟩ := Lone.failed hlone
  exact ⟨env₂, env₃, hsteps.trans hsteps', hstep⟩

end SmartDisk.VideoSessions
