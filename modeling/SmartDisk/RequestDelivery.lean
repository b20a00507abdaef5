import SmartDisk.EventDelivery
import SmartDisk.StorageSim
import Mathlib.Algebra.Order.BigOperators.Group.List

/-!
# Every request is answered once, and to its sender

A well-formed request is served by a generator that never raises and owes one
reply, whatever else is going on in the simulator. Replies given and replies owed
therefore add up to one for each request received, for every schedule of
`sched_request` and `env.run` calls and whatever the timestamps; and a simulator
with nothing pending owes nothing, because nobody waits for a resource then.
-/
namespace SmartDisk.RequestDelivery
open ActionSystem DiscreteEvents EventInvariants EventRuns EventDelivery StorageSim

instance : Fintype Component where
  elems := {.decoder, .face_detector, .video_decoder, .bus}
  complete c := by cases c <;> decide

/-- What profiles and configuration files can contain: measured durations and sizes, and
positive rates. -/
structure Measured (cfg : Config) : Prop where
  decoding : ∀ p d w h, cfg.decoder_lut p = some (d, w, h) → 0 ≤ d ∧ 0 ≤ w ∧ 0 ≤ h
  detection : ∀ p d boxes, cfg.face_lut p = some (d, boxes) → 0 ≤ d
  frames : ∀ p, 0 ≤ (cfg.frame_size p).1 ∧ 0 ≤ (cfg.frame_size p).2
  target_fps : 0 < cfg.target_fps
  target_mbyteps : 0 < cfg.target_mbyteps

def decodable (cfg : Config) (path : Path) : Bool :=
  endswith path ext && (cfg.decoder_lut (basename path)).isSome

/-- A request that can be served, as far as this depends on the request alone. The payload
of a video request has a frame number. -/
def wellFormed (cfg : Config) (request : Request) : Bool :=
  request.value ≠ some .malformed &&
  if request.opcode = OP_DECODEONLY then decodable cfg request.path
  else if request.opcode = OP_DECODE_FACE then
    decodable cfg request.path && (cfg.face_lut (basename request.path)).isSome
  else if request.opcode = OP_DECODE_VIDEO then
    match request.value with
    | some (.frame frame_id) => 0 ≤ frame_id
    | _ => false
  else if request.opcode = OP_DEBUG_WAIT then 0 ≤ request.wait
  else true

/-- The boxes profiled for the path of a face request. -/
def profiled_boxes (cfg : Config) (request : Request) : Option (List Box) :=
  if request.opcode = OP_DECODE_FACE then (cfg.face_lut (basename request.path)).map Prod.snd
  else none

/-- The one reply that is due to a request. -/
def replyTo (cfg : Config) (x : Address × Request) : Reply :=
  ⟨x.1, x.2, ⟨x.2.opcode, profiled_boxes cfg x.2⟩⟩

/-! ### Serving a well-formed request -/

section
variable {O : Type} {cfg : Config}

theorem occupy_eq (c : Component) {d : ℚ} (hd : 0 ≤ d) :
    (occupy c d : Proc O Unit) = .hold c (some ⟨d, hd⟩) (.ret ()) := by
  unfold occupy
  rw [show delay? d = some ⟨d, hd⟩ from dif_pos hd]

theorem decode_eq {path : Path} {d : ℚ} {w h : ℤ} (hext : endswith path ext = true)
    (hlut : cfg.decoder_lut (basename path) = some (d, w, h)) (hd : 0 ≤ d) :
    (decode cfg path : Proc O _) = .hold .decoder (some ⟨d, hd⟩) (.ret (w, h)) := by
  unfold decode
  rw [hext, hlut]
  change (occupy .decoder d).bind (fun _ => .ret (w, h)) = _
  rw [occupy_eq _ hd]
  rfl

theorem detect_face_eq {path : Path} {d : ℚ} {boxes : List Box} (hext : endswith path ext = true)
    (hlut : cfg.face_lut (basename path) = some (d, boxes)) (hd : 0 ≤ d) :
    (detect_face cfg path : Proc O _) =
      .hold .face_detector (some ⟨d, hd⟩) (.ret boxes) := by
  unfold detect_face
  rw [hext, hlut]
  change (occupy .face_detector d).bind (fun _ => .ret boxes) = _
  rw [occupy_eq _ hd]
  rfl

theorem divide_eq (a : ℚ) {b : ℚ} (hb : b ≠ 0) : (divide a b : Proc O ℚ) = .ret (a / b) :=
  if_neg hb

theorem send_eq (hcfg : Measured cfg) {size : ℚ} (hsize : 0 ≤ size) :
    ∃ d, (send cfg size : Proc O _) = .hold .bus (some d) (.ret ()) := by
  have hd : 0 ≤ size * (1 / 10 ^ 6) / cfg.target_mbyteps :=
    div_nonneg (mul_nonneg hsize (by norm_num)) hcfg.target_mbyteps.le
  refine ⟨⟨_, hd⟩, ?_⟩
  unfold send
  rw [divide_eq _ hcfg.target_mbyteps.ne']
  exact occupy_eq _ hd

theorem skip_nonneg (hfps : 0 < cfg.target_fps) {current frame_id : ℚ}
    (h : current ≤ frame_id) : 0 ≤ 1 / cfg.target_fps * (frame_id - current) :=
  mul_nonneg (div_nonneg zero_le_one hfps.le) (sub_nonneg.mpr h)

/-- Both branches of the frame check, up to the end of the service. -/
theorem decode_frame_eq (hfps : 0 < cfg.target_fps) (path : Path) (frame_id : ℚ) :
    (decode_frame cfg path frame_id : Proc O _) = .read fun s =>
      .write (s.opened cfg path)
        (if h : (s.opened cfg path).current_frame_id ≤ frame_id then
          .hold .video_decoder (some ⟨_, skip_nonneg hfps h⟩)
            (.read fun s => .write { s with current_frame_id := frame_id } (.ret (s.w, s.h)))
        else .raise .AssertionError) := by
  unfold decode_frame
  refine congrArg Gen.read (funext fun s => congrArg (Gen.write _) ?_)
  change (require (decide ((s.opened cfg path).current_frame_id ≤ frame_id))).bind _ = _
  by_cases h : (s.opened cfg path).current_frame_id ≤ frame_id
  · rw [dif_pos h, decide_eq_true h]
    change (divide 1 cfg.target_fps).bind _ = _
    rw [divide_eq _ hfps.ne']
    change (occupy .video_decoder _).bind _ = _
    rw [occupy_eq]
    rfl
  · rw [dif_neg h, decide_eq_false h]
    rfl

theorem transmitted_size_nonneg (boxes : List Box) : 0 ≤ transmitted_size boxes := by
  apply List.sum_nonneg
  intro x hx
  obtain ⟨b, -, rfl⟩ := List.mem_map.mp hx
  exact abs_nonneg _

/-- The stages of a decode, then the bus. -/
theorem perform_decode_only (hcfg : Measured cfg) {request : Request} (payload : Option Payload)
    (hop : request.opcode = OP_DECODEONLY) (h : decodable cfg request.path = true) :
    ∃ d d', perform cfg request payload = .relay .urgent (.hold .decoder (some d)
      (.relay .normal (.relay .urgent (.hold .bus (some d') (.relay .normal (.ret none)))))) := by
  obtain ⟨hext, hlut⟩ := Bool.and_eq_true_iff.mp h
  obtain ⟨⟨d, w, h⟩, hlut⟩ := Option.isSome_iff_exists.mp hlut
  obtain ⟨hd, hw, hh⟩ := hcfg.decoding _ _ _ _ hlut
  have hsize : (0 : ℚ) ≤ w * h * 3 := by
    have hwh : 0 ≤ w * h := Int.mul_nonneg hw hh
    exact mul_nonneg (by exact_mod_cast hwh) (by norm_num)
  obtain ⟨d', hsend⟩ := send_eq (O := Reply) hcfg hsize
  refine ⟨⟨d, hd⟩, d', ?_⟩
  unfold perform
  rw [if_pos hop]
  change (decode cfg request.path).process.bind (fun x =>
    (send cfg (x.1 * x.2 * 3)).process.bind fun _ => .ret none) = _
  rw [decode_eq hext hlut hd]
  change Gen.relay _ (.hold _ _ (.relay _ ((send cfg (w * h * 3)).process.bind _))) = _
  rw [hsend]
  rfl

/-- The stages of a face request; the boxes are those of its own path. -/
theorem perform_decode_face (hcfg : Measured cfg) {request : Request} (payload : Option Payload)
    (hop : request.opcode = OP_DECODE_FACE) (h : decodable cfg request.path = true)
    (hf : (cfg.face_lut (basename request.path)).isSome = true) :
    ∃ d d' d'', perform cfg request payload = .relay .urgent (.hold .decoder (some d)
      (.relay .normal (.relay .urgent (.hold .face_detector (some d')
        (.relay .normal (.relay .urgent (.hold .bus (some d'')
          (.relay .normal (.ret (profiled_boxes cfg request)))))))))) := by
  obtain ⟨hext, hlut⟩ := Bool.and_eq_true_iff.mp h
  obtain ⟨⟨d, w, h⟩, hlut⟩ := Option.isSome_iff_exists.mp hlut
  obtain ⟨⟨d', boxes⟩, hface⟩ := Option.isSome_iff_exists.mp hf
  have hd := (hcfg.decoding _ _ _ _ hlut).1
  have hd' := hcfg.detection _ _ _ hface
  obtain ⟨d'', hsend⟩ := send_eq (O := Reply) hcfg (transmitted_size_nonneg boxes)
  have hboxes : profiled_boxes cfg request = some boxes := by
    unfold profiled_boxes
    rw [if_pos hop, hface]
    rfl
  refine ⟨⟨d, hd⟩, ⟨d', hd'⟩, d'', ?_⟩
  unfold perform
  rw [if_neg (by rw [hop]; decide), if_pos hop, hboxes]
  change (decode cfg request.path).process.bind (fun _ =>
    (detect_face cfg request.path).process.bind fun boxes =>
      (send cfg (transmitted_size boxes)).process.bind fun _ => .ret (some boxes)) = _
  rw [decode_eq hext hlut hd, detect_face_eq hext hface hd']
  change Gen.relay _ (.hold _ _ (.relay _ (.relay _ (.hold _ _ (.relay _
    ((send cfg (transmitted_size boxes)).process.bind _)))))) = _
  rw [hsend]
  rfl

/-- Frame sizes are not negative. -/
def Framed (s : VideoDecoderSim) : Prop := 0 ≤ s.w ∧ 0 ≤ s.h

theorem framed_of_positioned (hcfg : Measured cfg) {s : VideoDecoderSim}
    (hs : s.Positioned cfg) : Framed s := by
  obtain ⟨-, hsize⟩ := hs
  cases hpath : s.current_path with
  | none =>
      rw [hpath] at hsize
      obtain ⟨hw, hh⟩ := Prod.mk.inj hsize
      exact ⟨hw.ge, hh.ge⟩
  | some path =>
      rw [hpath] at hsize
      change (s.w, s.h) = cfg.frame_size path at hsize
      have hframes := hcfg.frames path
      rw [← hsize] at hframes
      exact hframes

theorem framed_opened (hcfg : Measured cfg) {s : VideoDecoderSim} (hs : Framed s) (path : Path) :
    Framed (s.opened cfg path) := by
  unfold VideoDecoderSim.opened
  split
  · exact hs
  · exact hcfg.frames path

/-- The process of a video request from the frame check on. -/
def decoding (cfg : Config) (path : Path) (frame_id : ℚ) (next : ℚ × ℚ → Proc Reply Unit) :
    Proc Reply Unit :=
  (decode_frame cfg path frame_id).ended.bind next

/-- The same after a successful check. -/
def skipping (frame_id : ℚ) (d : Delay ℚ) (next : ℚ × ℚ → Proc Reply Unit) : Proc Reply Unit :=
  .hold .video_decoder (some d) (.read fun s =>
    .write { s with current_frame_id := frame_id } (.relay .normal (next (s.w, s.h))))

theorem decoding_eq (hcfg : Measured cfg) (path : Path) (frame_id : ℚ)
    (next : ℚ × ℚ → Proc Reply Unit) :
    decoding cfg path frame_id next = .read fun s =>
      .write (s.opened cfg path)
        (if h : (s.opened cfg path).current_frame_id ≤ frame_id then
          skipping frame_id ⟨_, skip_nonneg hcfg.target_fps h⟩ next
        else .relay .normal (.raise .AssertionError)) := by
  unfold decoding
  rw [decode_frame_eq hcfg.target_fps]
  refine congrArg Gen.read (funext fun s => congrArg (Gen.write _) ?_)
  by_cases h : (s.opened cfg path).current_frame_id ≤ frame_id
  · rw [dif_pos h, dif_pos h]
    rfl
  · rw [dif_neg h, dif_neg h]
    rfl

/-- It raises exactly if the frame lies behind the current one. -/
theorem raises_decoding (hcfg : Measured cfg) (path : Path) (frame_id : ℚ)
    (next : ℚ × ℚ → Proc Reply Unit) (s : VideoDecoderSim) :
    raises (decoding cfg path frame_id next) s = true ↔
      ¬ (s.opened cfg path).current_frame_id ≤ frame_id := by
  rw [decoding_eq hcfg]
  by_cases h : (s.opened cfg path).current_frame_id ≤ frame_id
  · rw [raises, raises, dif_pos h]
    exact ⟨fun hr => (Bool.false_ne_true hr).elim, fun hn => (hn h).elim⟩
  · rw [raises, raises, dif_neg h]
    exact ⟨fun _ => h, fun _ => rfl⟩

/-- Where the frame check of a video request comes next, the frame is not behind the current
one. -/
def InOrder (cfg : Config) (g : Proc Reply Unit) (s : VideoDecoderSim) : Prop :=
  ∀ path frame_id next, g = decoding cfg path frame_id next →
    (s.opened cfg path).current_frame_id ≤ frame_id

theorem inOrder_of_not_raises (hcfg : Measured cfg) {g : Proc Reply Unit} {s : VideoDecoderSim}
    (h : raises g s = false) : InOrder cfg g s := by
  rintro path frame_id next rfl
  by_contra hle
  rw [(raises_decoding hcfg path frame_id next s).mpr hle] at h
  cases h

/-- What is left of a video request once its frame is decoded: the bus and the reply. -/
theorem honest_sending (hcfg : Measured cfg) {P : VideoDecoderSim → Prop} {s₀ : VideoDecoderSim}
    {accepts : Proc Reply Unit → VideoDecoderSim → Prop} {w h : ℚ} (hw : 0 ≤ w) (hh : 0 ≤ h)
    (reply : Reply) :
    Honest P s₀ accepts ((send cfg (w * h * 3)).process.bind fun _ => .emit reply (.ret ())) ∧
      owed s₀ ((send cfg (w * h * 3)).process.bind fun _ => .emit reply (.ret ())) =
        ({reply} : Multiset Reply) := by
  obtain ⟨d, hsend⟩ := send_eq (O := Reply) hcfg
    (mul_nonneg (mul_nonneg hw hh) (by norm_num : (0 : ℚ) ≤ 3))
  rw [hsend]
  exact ⟨⟨trivial, trivial⟩, rfl⟩

theorem honest_decoding (hcfg : Measured cfg) (path : Path) {frame_id : ℚ} (hframe : 0 ≤ frame_id)
    {accepts : Proc Reply Unit → VideoDecoderSim → Prop}
    (hacc : ∀ g s, accepts g s → InOrder cfg g s) {next : ℚ × ℚ → Proc Reply Unit}
    {reply : Reply}
    (hnext : ∀ w h, 0 ≤ w → 0 ≤ h →
      Honest (·.Positioned cfg) {} accepts (next (w, h)) ∧ owed {} (next (w, h)) = {reply}) :
    Honest (·.Positioned cfg) {} accepts (decoding cfg path frame_id next) ∧
      owed {} (decoding cfg path frame_id next) = {reply} := by
  have hskip : ∀ d, Honest (·.Positioned cfg) {} accepts (skipping frame_id d next) ∧
      owed {} (skipping frame_id d next) = {reply} := by
    intro d
    have howed := (hnext 0 0 le_rfl le_rfl).2
    refine ⟨fun s hs _ => ?_, howed⟩
    obtain ⟨hw, hh⟩ := framed_of_positioned hcfg hs
    obtain ⟨hhonest, hsame⟩ := hnext s.w s.h hw hh
    exact ⟨trivial, ⟨⟨hframe, hs.2⟩, trivial, hhonest⟩, hsame.trans howed.symm⟩
  have hfresh : (({} : VideoDecoderSim).opened cfg path).current_frame_id ≤ frame_id := hframe
  have howed : owed {} (decoding cfg path frame_id next) = {reply} := by
    rw [decoding_eq hcfg, owed, owed, dif_pos hfresh]
    exact (hskip _).2
  refine ⟨?_, howed⟩
  have heq := decoding_eq hcfg path frame_id next
  rw [heq] at howed ⊢
  intro s hs hok
  have hle : (s.opened cfg path).current_frame_id ≤ frame_id :=
    hacc _ _ hok path frame_id next heq.symm
  have hbranch := hskip ⟨_, skip_nonneg hcfg.target_fps hle⟩
  refine ⟨?_, ⟨hs.opened path, ?_, ?_⟩, ?_⟩
  · rw [Settles, dif_pos hle]
    trivial
  · rw [dif_pos hle]
    trivial
  · rw [dif_pos hle]
    exact hbranch.1
  · refine Eq.trans ?_ howed.symm
    rw [owed, dif_pos hle]
    exact hbranch.2

theorem loads_eq {request : Request} (h : request.value ≠ some .malformed) :
    loads request = .ret request.value := by
  unfold loads
  split
  · exact absurd ‹_› h
  · rfl

/-- A well-formed request never raises and owes its reply, whatever else is going on. For a
video request this is up to the order of the frames. -/
theorem honest_serve_request (hcfg : Measured cfg) {request : Request}
    (hwf : wellFormed cfg request = true) (address : Address)
    {accepts : Proc Reply Unit → VideoDecoderSim → Prop}
    (hacc : request.opcode = OP_DECODE_VIDEO → ∀ g s, accepts g s → InOrder cfg g s) :
    Honest (·.Positioned cfg) {} accepts (serve_request cfg request address) ∧
      owed {} (serve_request cfg request address) = {replyTo cfg (address, request)} := by
  obtain ⟨hvalue, hwf⟩ := Bool.and_eq_true_iff.mp hwf
  have hserve : serve_request cfg request address =
      (perform cfg request request.value).bind fun boxes =>
        .emit ⟨address, request, ⟨request.opcode, boxes⟩⟩ (.ret ()) := by
    unfold serve_request
    rw [loads_eq (of_decide_eq_true hvalue)]
    rfl
  have hplain : request.opcode ≠ OP_DECODE_FACE →
      replyTo cfg (address, request) = ⟨address, request, ⟨request.opcode, none⟩⟩ := by
    intro hop
    unfold replyTo profiled_boxes
    rw [if_neg hop]
  rw [hserve]
  split_ifs at hwf with h₁ h₂ h₃ h₄
  · obtain ⟨d, d', hperform⟩ := perform_decode_only hcfg request.value h₁ hwf
    rw [hperform, hplain (by rw [h₁]; decide)]
    exact ⟨⟨trivial, trivial⟩, rfl⟩
  · obtain ⟨hdec, hface⟩ := Bool.and_eq_true_iff.mp hwf
    obtain ⟨d, d', d'', hperform⟩ := perform_decode_face hcfg request.value h₂ hdec hface
    rw [hperform]
    exact ⟨⟨trivial, trivial⟩, rfl⟩
  · split at hwf
    swap
    · cases hwf
    rename_i frame_id hframe
    have hperform : perform cfg request request.value = .relay .urgent
        (((decode_frame cfg request.path frame_id).ended).bind fun x =>
          (send cfg (x.1 * x.2 * 3)).process.bind fun _ => .ret none) := by
      unfold perform
      rw [if_neg h₁, if_neg h₂, if_pos h₃, hframe]
      rfl
    rw [hperform, hplain h₂, Gen.bind, bind_bind]
    refine honest_decoding hcfg request.path (of_decide_eq_true hwf) (hacc h₃) fun w h hw hh => ?_
    rw [bind_bind]
    exact honest_sending hcfg hw hh _
  · have hwait : (0 : ℚ) ≤ request.wait := by exact_mod_cast of_decide_eq_true hwf
    have hperform : perform cfg request request.value =
        .timeout ⟨(request.wait : ℚ), hwait⟩ (.ret none) := by
      have hdelay : delay? (request.wait : ℚ) = some ⟨_, hwait⟩ := dif_pos _
      unfold perform
      rw [if_neg h₁, if_neg h₂, if_neg h₃, if_pos h₄, hdelay]
    rw [hperform, hplain h₂]
    exact ⟨⟨trivial, trivial⟩, rfl⟩
  · have hperform : perform cfg request request.value = .ret none := by
      unfold perform
      rw [if_neg h₁, if_neg h₂, if_neg h₃, if_neg h₄]
      rfl
    rw [hperform, hplain h₂]
    exact ⟨⟨trivial, trivial⟩, rfl⟩

end

/-! ### The ledger of a server -/

/-- What a sent response tells its address, without the time of completion. -/
def reply (x : Sent) : Reply := ⟨x.address, x.request, x.response.value⟩

/-- Replies sent and replies owed are the replies to the requests received, one for each, as far
as they count. -/
structure Ledger (cfg : Config) (H : Proc Reply Unit → Prop) (counted : Reply → Bool)
    (received : List (Address × Request)) (s : Server) : Prop where
  tasks : EachTask (·.Positioned cfg) H [] s.env
  balance : ((s.sent.map reply : Multiset Reply) + due {} [] s.env).filter (counted ·) =
    (received.map (replyTo cfg) : Multiset Reply).filter (counted ·)
  echoed : ∀ x ∈ s.sent, x.response.request_timestamp = x.request.timestamp

section
variable {cfg : Config} {H : Proc Reply Unit → Prop} {counted : Reply → Bool}
variable {received : List (Address × Request)} {s : Server}

theorem ledger_initial (init : ℚ) : Ledger cfg H counted [] (run_server cfg init).start where
  tasks := by
    refine ⟨⟨le_rfl, rfl⟩, ?_, ?_⟩ <;> simp [run_server, Env.initial, pending, Heap.empty]
  balance := by
    simp [run_server, due, scheduled, owedPending, owedWaiting, Env.initial, pending, Heap.empty]
  echoed := by simp [run_server]

/-- `sched_request` adds one debt, whatever the timestamp. -/
theorem Ledger.receive (h : Ledger cfg H counted received s) (x : Address × Request)
    (hserve : H (serve_request cfg x.2 x.1))
    (howed : (owed {} (serve_request cfg x.2 x.1)).filter (counted ·) =
      ({replyTo cfg x} : Multiset Reply).filter (counted ·)) :
    Ledger cfg H counted (received ++ [x]) { s with env := receive cfg s.env (some x) } := by
  refine ⟨(h.tasks.setNow _).start hserve, ?_, h.echoed⟩
  have hdue : due {} [] (StorageSim.receive cfg s.env (some x)) =
      owed {} (serve_request cfg x.2 x.1) + due {} [] s.env := due_start _ _
  have hbalance := h.balance
  rw [Multiset.filter_add] at hbalance
  rw [hdue, List.map_append, ← Multiset.coe_add, Multiset.filter_add, Multiset.filter_add,
    Multiset.filter_add, howed, ← hbalance]
  change _ = _ + Multiset.filter _ ({replyTo cfg x} : Multiset Reply)
  abel

theorem Ledger.run_until (h : Ledger cfg H counted received s) (wall : ℚ) {til : ℚ}
    (hlt : s.env.now < til) : Ledger cfg H counted received (run_until s s.env wall til) := by
  unfold StorageSim.run_until
  rw [if_pos hlt]
  refine ⟨h.tasks.stopAt til, ?_, h.echoed⟩
  change Multiset.filter _ (_ + due {} [] (stopAt s.env til)) = _
  rw [due_stopAt]
  exact h.balance

theorem map_reply (wall : ℚ) (out : List (Output ℚ Component Reply)) :
    (out.map (on_complete wall)).map reply = out.map Output.value := by
  rw [List.map_map]
  rfl

/-- One event is not an exception, and its outputs are handed to the publisher. -/
theorem Ledger.finish (h : Ledger cfg H counted received s)
    {accepts : Proc Reply Unit → VideoDecoderSim → Prop}
    (hsettling : Settling (·.Positioned cfg) {} accepts counted H)
    (hok : ∀ p ∈ s.env.queue.pop, ∀ t ∈ resumed p.1.work, accepts t.code s.env.comp)
    {r : Env.Step ℚ Component VideoDecoderSim Reply Exn} (hr : s.env.step = some r) (wall : ℚ) :
    Ledger cfg H counted received (finish s wall r) ∧
      ∀ e, (finish s wall r).mode = .crashed e → s.mode = .crashed e := by
  have hbalance := h.balance
  rw [Multiset.filter_add] at hbalance
  cases step_delivers hsettling h.tasks hok hr with
  | next env htasks hdue =>
      refine ⟨⟨⟨htasks.comp, htasks.tasks, htasks.waiting⟩, ?_, fun x hx => ?_⟩, fun e he => he⟩
      · rw [← hdue, ← Multiset.filter_add] at hbalance
        rw [← hbalance]
        simp only [StorageSim.finish, List.map_append, map_reply, ← Multiset.coe_add, due]
        change Multiset.filter _ (_ + (scheduled {} [] env + 0)) = _
        congr 1
        abel
      · rcases List.mem_append.mp hx with hx | hx
        · exact h.echoed x hx
        · obtain ⟨o, -, rfl⟩ := List.mem_map.mp hx
          rfl
  | stopped env htasks hdue =>
      rw [← hdue, ← Multiset.filter_add] at hbalance
      exact ⟨⟨htasks, hbalance, h.echoed⟩, fun e he => by cases he⟩

end

end SmartDisk.RequestDelivery
