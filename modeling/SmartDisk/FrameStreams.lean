import SmartDisk.FrameWindow
import SmartDisk.LookupTable
import SmartDisk.SmartClient

/-!
# The two frame streams of a video search

`cv2_decoder` of `script/video_search.py` reads a video through and keeps every
`every`-th frame; `smart_decoder` asks the client of the smart disk for these
frames, which are on disk as pictures that `ffmpeg` wrote, numbered from 1. The loop
of `run` draws from one or the other. A frame in its window keeps its id, as history.
-/
namespace SmartDisk.FrameStreams
open StorageSim hiding Exn
open FrameWindow SmartClient

inductive Exn where
  | TypeError | AssertionError
  | client (e : SmartClient.Exn)
  deriving DecidableEq, Repr

/-! ### The client -/

/-- What is on the disks. `recursive_glob` lists the `*.ppm` files below a directory. -/
structure Files (Arr : Type) where
  cwd : Path
  isdir : Path → Bool
  recursive_glob : Path → List Path
  imread : Path → Except SmartClient.Exn (Option Arr)

section
variable {Arr : Type}

def Files.preload (files : Files Arr) (map_to_ppm_dir : Path) :
    Except Exn (Path → Option (Option Arr)) := do
  let entries ← (files.recursive_glob map_to_ppm_dir).mapM fun path =>
    match files.imread path with
    | .ok arr => Except.ok (path, arr)
    | .error e => .error (.client e)
  pure (LookupTable.fill entries)

/-- `SmartStorageClient.__init__`. Both directories have to be given. -/
def init (files : Files Arr) (map_from_dir map_to_ppm_dir : Option Path) (preload : Bool) :
    Except Exn (SmartStorageClient Arr) :=
  match map_from_dir, map_to_ppm_dir with
  | some map_from_dir, some map_to_ppm_dir =>
      if files.isdir map_to_ppm_dir ∧ files.isdir map_from_dir then do
        let preload_lut ← if preload then (files.preload map_to_ppm_dir).map some else pure none
        pure ⟨files.cwd, map_from_dir, map_to_ppm_dir, preload_lut⟩
      else .error .AssertionError
  | _, _ => .error .TypeError

/-- The path of a picture that `ffmpeg` wrote. -/
def frame_path (self : SmartStorageClient Arr) (path : Path) (number : ℤ) : Path :=
  join (join self.map_to_ppm_dir (splitext (basename path)).1) (format06d number ++ ".ppm".toList)

/-- A picture is preloaded or read. -/
def lookup (self : SmartStorageClient Arr) (imread : Path → Except SmartClient.Exn (Option Arr))
    (ppm_path : Path) : Except SmartClient.Exn (Option Arr) :=
  match self.preload_lut with
  | some preload_lut => (preload_lut ppm_path).elim (.error .KeyError) .ok
  | none => imread ppm_path

theorem load_frame_eq (self : SmartStorageClient Arr)
    (imread : Path → Except SmartClient.Exn (Option Arr)) (path : Path) (frame_id : ℤ) :
    self.load_frame imread path frame_id = (do
      let arr ← lookup self imread (frame_path self path (frame_id + 1))
      arr.elim (.error .AssertionError) .ok) := by
  unfold SmartStorageClient.load_frame lookup
  cases self.preload_lut <;> rfl

/-! ### `script/video_search.py` -/

/-- A video: what `cap.read()` delivers, and `get_num_video_frames`. -/
structure Clip (Arr : Type) where
  path : Path
  frames : List Arr
  num_frames : ℕ

/-- The smart disk as its client sees it: its responses, and the times of the requests. -/
structure Server where
  respond : List Request → Body
  stamp : ℕ → ℚ

/-- The loop of `smart_decoder`. An exception ends the stream. -/
def smart_frames (self : SmartStorageClient Arr) (server : Server)
    (imread : Path → Except SmartClient.Exn (Option Arr)) (path : Path) :
    List ℕ → Socket → List (Except Exn (Arr × ℕ)) × Socket
  | [], s => ([], s)
  | frame_id :: ids, s =>
      match (self.decode_video server.respond (server.stamp s.sent.length) imread path
          frame_id).run.run s with
      | (.error e, s) => ([.error (.client e)], s)
      | (.ok arr, s) =>
          let (rest, s) := smart_frames self server imread path ids s
          (.ok (arr, frame_id) :: rest, s)

/-- `range(0, num_frames, every)`. -/
def frame_ids (num_frames every : ℕ) : List ℕ :=
  List.range' 0 ((num_frames + every - 1) / every) every

def smart_decoder (self : SmartStorageClient Arr) (server : Server)
    (imread : Path → Except SmartClient.Exn (Option Arr)) (every : ℕ) (v : Clip Arr)
    (s : Socket) : List (Except Exn (Arr × ℕ)) × Socket :=
  smart_frames self server imread v.path (frame_ids v.num_frames every) s

/-- The loop over the frames of a stream. -/
def push_frames (delta_frames : ℤ) (path : Path) :
    List (Arr × ℕ) → List (Except Exn (Arr × ℕ)) → Pushed (Arr × ℕ) Exn
  | _, [] => ⟨[], .ok ()⟩
  | _, .error e :: _ => ⟨[], .error e⟩
  | window, .ok (frame, frame_id) :: gen =>
      let window := window ++ [(frame, frame_id)]
      let item : Item (Arr × ℕ) := ⟨path, frame_id, (frame, frame_id)⟩
      if frame_id > delta_frames then
        (push_frames delta_frames path window.tail gen).put (item, window.head?)
      else (push_frames delta_frames path window gen).put (item, none)

/-- The loop over the videos, with the generator of each. -/
def push_clips (gen : Clip Arr → Socket → List (Except Exn (Arr × ℕ)) × Socket)
    (delta_frames : ℤ) : List (Clip Arr) → Socket → Pushed (Arr × ℕ) Exn
  | [], _ => ⟨[], .ok ()⟩
  | v :: vs, s =>
      let (frames, s) := gen v s
      let pushed := push_frames delta_frames v.path [] frames
      match pushed.result with
      | .error _ => pushed
      | .ok _ =>
          let rest := push_clips gen delta_frames vs s
          { rest with entries := pushed.entries ++ rest.entries }

def VIRAT : Path := "/mnt/hdd/fast20/video/VIRAT/mp4".toList

/-- What `run` enqueues. Its client is made without `map_to_ppm_dir`. -/
def run (files : Files Arr) (server : Server) (smart : Bool) (every_frame : ℕ)
    (delta_frames : ℤ) (clips : List (Clip Arr)) : Pushed (Arr × ℕ) Exn :=
  if smart then
    match init files (some VIRAT) none true with
    | .error e => ⟨[], .error e⟩
    | .ok ss_client =>
        push_clips (smart_decoder ss_client server files.imread every_frame) delta_frames clips {}
  else push_clips (fun v s => (cv2_decoder every_frame 0 v.frames, s)) delta_frames clips {}

/-- The item ids, each with the id of its reference. -/
def pairs (pushed : Pushed (Arr × ℕ) Exn) : List (Path × ℕ × Option ℕ) :=
  pushed.entries.map fun x => (x.1.path, x.1.frame_id, x.2.map Prod.snd)

/-! ### The window keeps ids -/

/-- What the window makes of a sequence of ids. -/
def paired (delta_frames : ℤ) : List ℕ → List ℕ → List (ℕ × Option ℕ)
  | _, [] => []
  | window, frame_id :: ids =>
      let window := window ++ [frame_id]
      if frame_id > delta_frames then
        (frame_id, window.head?) :: paired delta_frames window.tail ids
      else (frame_id, none) :: paired delta_frames window ids

/-- The pairs depend on the ids of a stream only. -/
theorem push_frames_ok (delta_frames : ℤ) (path : Path) (window frames : List (Arr × ℕ)) :
    (push_frames delta_frames path window (frames.map .ok)).result = .ok () ∧
      pairs (push_frames delta_frames path window (frames.map .ok)) =
        (paired delta_frames (window.map Prod.snd) (frames.map Prod.snd)).map fun p =>
          (path, p.1, p.2) := by
  induction frames generalizing window with
  | nil => exact ⟨rfl, rfl⟩
  | cons x frames ih =>
      obtain ⟨frame, frame_id⟩ := x
      have hwindow : (window ++ [(frame, frame_id)]).map Prod.snd =
          window.map Prod.snd ++ [frame_id] := List.map_append
      rw [List.map_cons, List.map_cons]
      unfold push_frames paired
      by_cases hbeyond : (frame_id : ℤ) > delta_frames
      · obtain ⟨hresult, hpairs⟩ := ih (window ++ [(frame, frame_id)]).tail
        simp only [hbeyond, if_true]
        refine ⟨hresult, ?_⟩
        rw [List.map_tail, hwindow] at hpairs
        rw [List.map_cons, ← hpairs, ← hwindow, List.head?_map]
        rfl
      · obtain ⟨hresult, hpairs⟩ := ih (window ++ [(frame, frame_id)])
        simp only [hbeyond, if_false]
        refine ⟨hresult, ?_⟩
        rw [hwindow] at hpairs
        rw [List.map_cons, ← hpairs]
        rfl

/-- With a natural number `delta_frames` this is the loop of `FrameWindow`. -/
theorem push_frames_enqueue (delta_frames : ℕ) (path : Path) (window : List (Arr × ℕ))
    (gen : List (Except Exn (Arr × ℕ))) :
    (push_frames delta_frames path window gen).entries.map (fun x =>
        ((⟨x.1.path, x.1.frame_id, x.1.array.1⟩ : Item Arr), x.2.map Prod.fst)) =
      (enqueue delta_frames path (window.map Prod.fst) gen).entries := by
  induction gen generalizing window with
  | nil => rfl
  | cons el gen ih =>
      cases el with
      | error e => rfl
      | ok x =>
          obtain ⟨frame, frame_id⟩ := x
          have hwindow : window.map Prod.fst ++ [frame] =
              (window ++ [(frame, frame_id)]).map Prod.fst := by
            rw [List.map_append]
            rfl
          unfold push_frames enqueue
          simp only [hwindow, gt_iff_lt, Nat.cast_lt]
          by_cases hbeyond : delta_frames < frame_id
          · simp only [hbeyond, if_true]
            rw [← List.map_tail, List.head?_map]
            exact congrArg (_ :: ·) (ih _)
          · simp only [hbeyond, if_false]
            exact congrArg (_ :: ·) (ih _)

/-- Streams without exceptions, one for each video: what the loops enqueue. -/
theorem push_clips_ok {gen : Clip Arr → Socket → List (Except Exn (Arr × ℕ)) × Socket}
    {frames : Clip Arr → List (Arr × ℕ)} {delta_frames : ℤ}
    {Ready : List (Clip Arr) → Socket → Prop}
    (hgen : ∀ v vs s, Ready (v :: vs) s →
      (gen v s).1 = (frames v).map .ok ∧ Ready vs (gen v s).2)
    {clips : List (Clip Arr)} {s : Socket} (hs : Ready clips s) :
    pairs (push_clips gen delta_frames clips s) = clips.flatMap fun v =>
      (paired delta_frames [] ((frames v).map Prod.snd)).map fun p => (v.path, p.1, p.2) := by
  induction clips generalizing s with
  | nil => rfl
  | cons v clips ih =>
      obtain ⟨hframes, hs'⟩ := hgen v clips s hs
      obtain ⟨hresult, hpairs⟩ := push_frames_ok delta_frames v.path [] (frames v)
      rw [push_clips, List.flatMap_cons, ← ih hs']
      simp only [hframes, hresult]
      rw [List.map_nil] at hpairs
      rw [← hpairs]
      exact List.map_append

/-! ### What the client asks for -/

/-- The pictures of a video are where its client looks for them. -/
def Stored (self : SmartStorageClient Arr)
    (imread : Path → Except SmartClient.Exn (Option Arr)) (path : Path)
    (pictures : List Arr) : Prop :=
  ∀ (k : ℕ) picture, pictures[k]? = some picture →
    lookup self imread (frame_path self path (k + 1)) = .ok (some picture)

/-- The requests for some frames, when `sent` requests have been sent before. -/
def frame_requests (stamp : ℕ → ℚ) (path : Path) : ℕ → List ℕ → List Request
  | _, [] => []
  | sent, frame_id :: ids =>
      ⟨stamp sent, OP_DECODE_VIDEO, path, 0, some (.frame (frame_id : ℤ))⟩ ::
        frame_requests stamp path (sent + 1) ids

def clip_requests (stamp : ℕ → ℚ) (every : ℕ) : ℕ → List (Clip Arr) → List Request
  | _, [] => []
  | sent, v :: vs =>
      let requests := frame_requests stamp v.path sent (frame_ids v.num_frames every)
      requests ++ clip_requests stamp every (sent + requests.length) vs

/-- The server answers each of the coming requests. -/
def Answers (respond : List Request → Body) : List Request → List Request → Prop
  | _, [] => True
  | sent, request :: coming =>
      (∃ response, respond (sent ++ [request]) = .ok response) ∧
        Answers respond (sent ++ [request]) coming

theorem answers_append {respond : List Request → Body} {sent now later : List Request} :
    Answers respond sent (now ++ later) ↔
      Answers respond sent now ∧ Answers respond (sent ++ now) later := by
  induction now generalizing sent with
  | nil => rw [List.nil_append, List.append_nil, Answers, true_and]
  | cons request now ih =>
      rw [List.cons_append, Answers, Answers, ih, List.append_assoc, and_assoc]
      rfl

theorem answers_of_forall {respond : List Request → Body} {response : Response}
    (h : ∀ requests, respond requests = .ok response) (sent coming : List Request) :
    Answers respond sent coming := by
  induction coming generalizing sent with
  | nil => trivial
  | cons request coming ih => exact ⟨⟨response, h _⟩, ih _⟩

section
variable {self : SmartStorageClient Arr} {server : Server}
    {imread : Path → Except SmartClient.Exn (Option Arr)} {path : Path} {pictures : List Arr}

theorem load_stored (hstored : Stored self imread path pictures) {k : ℕ} {picture : Arr}
    (hk : pictures[k]? = some picture) : self.load_frame imread path k = .ok picture := by
  rw [load_frame_eq, hstored k picture hk]
  rfl

theorem decode_video_run {timestamp : ℚ} {k : ℕ} {picture : Arr} {s : Socket}
    (hload : self.load_frame imread path k = .ok picture) (hs : s.awaiting = false)
    (hresponse : ∃ response, server.respond (s.sent ++
      [⟨timestamp, OP_DECODE_VIDEO, path, 0, some (.frame (k : ℤ))⟩]) = .ok response) :
    ∃ t, (self.decode_video server.respond timestamp imread path k).run.run s =
      (.ok picture, t) ∧ t.awaiting = false ∧
        t.sent = s.sent ++ [⟨timestamp, OP_DECODE_VIDEO, path, 0, some (.frame (k : ℤ))⟩] := by
  have hexchange := exchange_loads server.respond
    ⟨timestamp, OP_DECODE_VIDEO, path, 0, some (.frame (k : ℤ))⟩ hload hs
  obtain ⟨response, hr⟩ := hresponse
  rw [hr] at hexchange
  exact ⟨_, KeptState.bind_ok hexchange _, rfl, rfl⟩

/-- The smart disk's stream has the picture of every id. -/
theorem smart_frames_eq (hstored : Stored self imread path pictures) {frames : List (Arr × ℕ)}
    (hframes : ∀ x ∈ frames, pictures[x.2]? = some x.1) {s : Socket} (hs : s.awaiting = false)
    (hanswers : Answers server.respond s.sent
      (frame_requests server.stamp path s.sent.length (frames.map Prod.snd))) :
    (smart_frames self server imread path (frames.map Prod.snd) s).1 = frames.map .ok ∧
      (smart_frames self server imread path (frames.map Prod.snd) s).2.awaiting = false ∧
      (smart_frames self server imread path (frames.map Prod.snd) s).2.sent = s.sent ++
        frame_requests server.stamp path s.sent.length (frames.map Prod.snd) := by
  induction frames generalizing s with
  | nil => exact ⟨rfl, hs, (List.append_nil _).symm⟩
  | cons x frames ih =>
      obtain ⟨hresponse, hlater⟩ := hanswers
      obtain ⟨t, hrun, ht, hsent⟩ := decode_video_run
        (load_stored hstored (hframes x List.mem_cons_self)) hs hresponse
      have hlength : t.sent.length = s.sent.length + 1 := by
        rw [hsent, List.length_append, List.length_singleton]
      rw [← hsent, ← hlength] at hlater
      obtain ⟨hrest, hidle, hall⟩ :=
        ih (fun x hx => hframes x (List.mem_cons_of_mem _ hx)) ht hlater
      rw [List.map_cons, smart_frames, hrun]
      refine ⟨congrArg (_ :: ·) hrest, hidle, ?_⟩
      rw [hlength, hsent, List.append_assoc] at hall
      exact hall

end

/-! ### Both streams -/

/-- The frames that are kept, each with its id. -/
def kept (every : ℕ) (frames : List Arr) : List (Arr × ℕ) :=
  (frames.zipIdx 0).filter fun x => x.2 % every = 0

theorem kept_ids {every : ℕ} (hevery : 0 < every) (frames : List Arr) :
    (kept every frames).map Prod.snd = frame_ids frames.length every := ids_cv2 hevery frames

theorem kept_mem {every : ℕ} {frames : List Arr} {x : Arr × ℕ} (hx : x ∈ kept every frames) :
    frames[x.2]? = some x.1 :=
  List.mk_mem_zipIdx_iff_getElem?.mp (List.mem_filter.mp hx).1

/-- A video of which `ffmpeg` wrote every readable frame. -/
structure Decoded (client : SmartStorageClient Arr)
    (imread : Path → Except SmartClient.Exn (Option Arr)) (v : Clip Arr)
    (pictures : List Arr) : Prop where
  counted : v.num_frames = v.frames.length
  complete : pictures.length = v.frames.length
  stored : Stored client imread v.path pictures

/-- The multiples of `every` below the number of frames. -/
def multiples (every : ℕ) (v : Clip Arr) : List ℕ :=
  (List.range v.frames.length).filter fun i => i % every = 0

/-- What the two generators yield for a video. -/
structure Coincide (client : SmartStorageClient Arr) (server : Server)
    (imread : Path → Except SmartClient.Exn (Option Arr)) (every : ℕ) (v : Clip Arr)
    (pictures : List Arr) (s : Socket) : Prop where
  cv2_ids : ∃ frames : List (Arr × ℕ),
    (cv2_decoder every 0 v.frames : List (Except Exn _)) = frames.map .ok ∧
      frames.map Prod.snd = multiples every v
  smart_ids : ∃ frames : List (Arr × ℕ),
    (smart_decoder client server imread every v s).1 = frames.map .ok ∧
      frames.map Prod.snd = multiples every v ∧
      ∀ x ∈ frames, pictures[x.2]? = some x.1 ∧
        lookup client imread (frame_path client v.path (x.2 + 1)) = .ok (some x.1)

section
variable {client : SmartStorageClient Arr} {server : Server}
    {imread : Path → Except SmartClient.Exn (Option Arr)} {v : Clip Arr} {pictures : List Arr}
    {every : ℕ} {s : Socket}

theorem smart_decoder_eq (hevery : 0 < every) (h : Decoded client imread v pictures)
    (hs : s.awaiting = false) (hanswers : Answers server.respond s.sent
      (frame_requests server.stamp v.path s.sent.length (frame_ids v.num_frames every))) :
    (smart_decoder client server imread every v s).1 = (kept every pictures).map .ok ∧
      (smart_decoder client server imread every v s).2.awaiting = false ∧
      (smart_decoder client server imread every v s).2.sent = s.sent ++
        frame_requests server.stamp v.path s.sent.length (frame_ids v.num_frames every) := by
  have hids : frame_ids v.num_frames every = (kept every pictures).map Prod.snd := by
    rw [kept_ids hevery, h.complete, h.counted]
  unfold smart_decoder
  rw [hids] at hanswers ⊢
  exact smart_frames_eq h.stored (fun x hx => kept_mem hx) hs hanswers

theorem coincide (hevery : 0 < every) (h : Decoded client imread v pictures)
    (hs : s.awaiting = false) (hanswers : Answers server.respond s.sent
      (frame_requests server.stamp v.path s.sent.length (frame_ids v.num_frames every))) :
    Coincide client server imread every v pictures s := by
  constructor
  · refine ⟨kept every v.frames, cv2_decoder_eq every 0 v.frames, ?_⟩
    rw [kept_ids hevery]
    exact (filter_range_eq hevery _).symm
  · refine ⟨kept every pictures, (smart_decoder_eq hevery h hs hanswers).1, ?_, ?_⟩
    · rw [kept_ids hevery, h.complete]
      exact (filter_range_eq hevery _).symm
    · exact fun x hx => ⟨kept_mem hx, h.stored x.2 x.1 (kept_mem hx)⟩

end

/-! ### `run` -/

/-- Without `map_to_ppm_dir` there is no client. -/
theorem run_smart_raises (files : Files Arr) (server : Server) (every : ℕ) (delta_frames : ℤ)
    (clips : List (Clip Arr)) :
    run files server true every delta_frames clips = ⟨[], .error .TypeError⟩ := rfl

theorem paired_length (delta_frames : ℤ) (window ids : List ℕ) :
    (paired delta_frames window ids).length = ids.length := by
  induction ids generalizing window with
  | nil => rfl
  | cons frame_id ids ih =>
      unfold paired
      by_cases hbeyond : (frame_id : ℤ) > delta_frames
      · simp only [hbeyond, if_true, List.length_cons, ih]
      · simp only [hbeyond, if_false, List.length_cons, ih]

theorem run_plain (files : Files Arr) (server : Server) (every : ℕ) (delta_frames : ℤ)
    (clips : List (Clip Arr)) :
    pairs (run files server false every delta_frames clips) = clips.flatMap fun v =>
      (paired delta_frames [] ((kept every v.frames).map Prod.snd)).map fun p =>
        (v.path, p.1, p.2) := by
  refine @push_clips_ok _ (fun v s => (cv2_decoder every 0 v.frames, s))
    (fun v => kept every v.frames) delta_frames (fun _ _ => True) ?_ clips {} trivial
  exact fun v _ _ _ => ⟨cv2_decoder_eq every 0 v.frames, trivial⟩

/-- Any client whose pictures are in place has the loop enqueue the same. -/
theorem loops_agree {client : SmartStorageClient Arr} {server : Server} {files : Files Arr}
    {every : ℕ} (hevery : 0 < every) (delta_frames : ℤ) {clips : List (Clip Arr)}
    {pictures : Clip Arr → List Arr}
    (h : ∀ v ∈ clips, Decoded client files.imread v (pictures v))
    (hanswers : Answers server.respond [] (clip_requests server.stamp every 0 clips)) :
    pairs (push_clips (smart_decoder client server files.imread every) delta_frames clips {}) =
      pairs (run files server false every delta_frames clips) := by
  have hloop := @push_clips_ok _ (smart_decoder client server files.imread every)
    (fun v => kept every (pictures v)) delta_frames
    (fun vs s => (∀ v ∈ vs, Decoded client files.imread v (pictures v)) ∧ s.awaiting = false ∧
      Answers server.respond s.sent (clip_requests server.stamp every s.sent.length vs))
    (by
      rintro v vs s ⟨hdecoded, hs, hall⟩
      obtain ⟨hnow, hlater⟩ := answers_append.mp hall
      obtain ⟨hframes, hidle, hsent⟩ :=
        smart_decoder_eq hevery (hdecoded v List.mem_cons_self) hs hnow
      refine ⟨hframes, fun v hv => hdecoded v (List.mem_cons_of_mem _ hv), hidle, ?_⟩
      rw [hsent, List.length_append]
      exact hlater)
    clips {} ⟨h, rfl, hanswers⟩
  rw [hloop, run_plain]
  apply List.flatMap_congr
  intro v hv
  rw [kept_ids hevery, kept_ids hevery, (h v hv).complete]

/-- The first frame is always kept. -/
theorem kept_eq_nil_iff {every : ℕ} (frames : List Arr) : kept every frames = [] ↔ frames = [] := by
  cases frames with
  | nil => exact iff_of_true rfl rfl
  | cons frame frames =>
      refine iff_of_false ?_ (List.cons_ne_nil _ _)
      unfold kept
      rw [List.zipIdx_cons, List.filter_cons_of_pos (by simp)]
      exact List.cons_ne_nil _ _

/-- With any client the two decoders yield the same ids and the loop enqueues the same pairs. But
with `smart` `run` has no client and enqueues nothing, which is the same only when no video has
a frame. -/
theorem run_agrees_iff {client : SmartStorageClient Arr} {server : Server} {files : Files Arr}
    {every : ℕ} (hevery : 0 < every) (delta_frames : ℤ) {clips : List (Clip Arr)}
    {pictures : Clip Arr → List Arr}
    (h : ∀ v ∈ clips, Decoded client files.imread v (pictures v))
    (hanswers : Answers server.respond [] (clip_requests server.stamp every 0 clips)) :
    (∀ v ∈ clips, ∀ s, s.awaiting = false → Answers server.respond s.sent
      (frame_requests server.stamp v.path s.sent.length (frame_ids v.num_frames every)) →
        Coincide client server files.imread every v (pictures v) s) ∧
    pairs (push_clips (smart_decoder client server files.imread every) delta_frames clips {}) =
      pairs (run files server false every delta_frames clips) ∧
    (pairs (run files server true every delta_frames clips) =
        pairs (run files server false every delta_frames clips) ↔
      ∀ v ∈ clips, v.frames = []) := by
  refine ⟨fun v hv s hs => coincide hevery (h v hv) hs, loops_agree hevery delta_frames h hanswers,
    ?_⟩
  rw [run_smart_raises, run_plain]
  change [] = _ ↔ _
  rw [eq_comm, List.flatMap_eq_nil_iff]
  apply forall₂_congr
  intro v _
  rw [List.map_eq_nil_iff, ← List.length_eq_zero_iff, paired_length, List.length_map,
    List.length_eq_zero_iff, kept_eq_nil_iff]

end

/-! ### Three frames -/

def threeFrames : Clip Char := ⟨['v', '.', 'm', 'p', '4'], ['a', 'b', 'c'], 3⟩

/-- Every picture shows the last digit of its number. -/
def shelf : Files Char where
  cwd := []
  isdir _ := true
  recursive_glob _ := []
  imread p := .ok p[9]?

def shelfClient : SmartStorageClient Char := ⟨[], [], ['p'], none⟩

def patient : Server where
  respond _ := .ok ⟨0, 0, ⟨OP_DECODE_VIDEO, none⟩⟩
  stamp _ := 0

theorem shelf_decoded : Decoded shelfClient shelf.imread threeFrames ['1', '2', '3'] where
  counted := rfl
  complete := rfl
  stored := by
    intro k picture hk
    rcases k with _ | _ | _ | k
    · cases hk
      decide +kernel
    · cases hk
      decide +kernel
    · cases hk
      decide +kernel
    · cases hk

theorem run_agrees_threeFrames :
    pairs (push_clips (smart_decoder shelfClient patient shelf.imread 2) 30 [threeFrames] {}) =
      pairs (run shelf patient false 2 30 [threeFrames]) := by
  have hdecoded : ∀ v ∈ [threeFrames],
      Decoded shelfClient shelf.imread v ((fun _ => ['1', '2', '3']) v) := by
    intro v hv
    rw [List.mem_singleton.mp hv]
    exact shelf_decoded
  exact (run_agrees_iff (Nat.succ_pos 1) 30 hdecoded
    (answers_of_forall (fun _ => rfl) _ _)).2.1

/-- Frames 0 and 2 are enqueued, and nothing is with `smart`. -/
theorem threeFrames_disagree :
    pairs (run shelf patient true 2 30 [threeFrames]) ≠
      pairs (run shelf patient false 2 30 [threeFrames]) := by decide +kernel

end SmartDisk.FrameStreams
