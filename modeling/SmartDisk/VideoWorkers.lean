import SmartDisk.JoinablePools
import SmartDisk.FrameWindow
import SmartDisk.ChunkedMse

/-!
# The threads of the video search

`run` of `script/video_search.py` queues the sampled frames of all videos with their
references, then a sentinel for each thread, joins the queue and last the threads. `worker`
counts the frames it takes and those that pass, and catches what the detector raises. The
detector itself is built before the `try`. The search is one without `smart`, where `cv2`
decodes the videos; with it `run` raises before it queues anything.
-/
namespace SmartDisk.VideoWorkers
open ActionSystem JoinablePools FrameWindow ChunkedMse ChunkedMse.video_search

variable {α E : Type} [Dtype α]

/-- The arguments of `run`. `loads` is whether a thread gets its `ObjectDetectionFilter`, and
`object_detection` what the filter returns or raises for a frame. -/
structure Search (α : Type) where
  diff_threshold : ℚ := 100
  delta_frames : ℕ := 30
  every_frame : ℕ := 10
  every_frame_pos : 0 < every_frame
  detect : Bool := false
  num_workers : ℕ := 8
  even_workers : num_workers = 1 ∨ num_workers % 2 = 0
  loads : Fin num_workers → Bool
  object_detection : NdArray α → Except Exn Bool

namespace Search
variable (self : Search α)

def options : Options := ⟨self.every_frame, self.every_frame_pos, self.delta_frames, false⟩

def diff_detector : DiffAndDetector α where
  diff_threshold := self.diff_threshold
  detect_filter := if self.detect then some self.object_detection else none

/-- A frame whose detection raises does not pass. -/
def accept (array : NdArray α) (reference : Option (NdArray α)) : Bool :=
  match self.diff_detector.call array reference with
  | .ok accept => accept
  | .error _ => false

/-- What a frame adds to `count` and to `count_accept`. -/
def counts (el : Item (NdArray α) × Option (NdArray α)) : ℕ × ℕ :=
  (1, (self.accept el.1.array el.2).toNat)

/-- `context.q` and its workers. -/
def context (videos : List (Video (NdArray α) E)) :
    Pool (Item (NdArray α) × Option (NdArray α)) (ℕ × ℕ) self.num_workers where
  jobs := (loop self.options videos).entries
  construct i := !self.detect || self.loads i
  work el := some (self.counts el)
  capacity := 30
  capacity_pos := Nat.succ_pos 29

/-- The frames of a video that pass: each against the sample `lag` before it, if there is one. -/
def passed_items (v : Video (NdArray α) E) : ℕ :=
  (self.options.sampled v).zipIdx.countP fun x =>
    self.accept x.1.1
      (if self.options.lag ≤ x.2 then
        ((self.options.sampled v)[x.2 - self.options.lag]?).map Prod.fst
      else none)

end Search

variable {self : Search α}

/-! ### The totals -/

theorem values_eq {videos : List (Video (NdArray α) E)}
    (els : List (Item (NdArray α) × Option (NdArray α))) :
    (self.context videos).values els =
      (els.length, els.countP fun el => self.accept el.1.array el.2) := by
  induction els with
  | nil => rfl
  | cons el els ih =>
    rw [Pool.values_cons, ih, List.countP_cons, List.length_cons, Nat.add_comm els.length,
      Nat.add_comm (els.countP _)]
    change (1 + els.length, (self.accept el.1.array el.2).toNat + _) = _
    cases self.accept el.1.array el.2 <;> rfl

omit [Dtype α] in
theorem length_process (o : Options) (v : Video (NdArray α) E) :
    (process o v).entries.length = (o.sampled v).length := by
  rw [process_entries, List.length_map, List.length_zipIdx]

theorem passed_process (v : Video (NdArray α) E) :
    (process self.options v).entries.countP (fun el => self.accept el.1.array el.2) =
      self.passed_items v := by
  rw [process_entries, List.countP_map]
  rfl

theorem values_jobs (videos : List (Video (NdArray α) E)) :
    (self.context videos).values (self.context videos).jobs =
      ((videos.map fun v => (self.options.sampled v).length).sum,
        (videos.map self.passed_items).sum) := by
  rw [values_eq]
  change ((loop self.options videos).entries.length,
    (loop self.options videos).entries.countP _) = _
  rw [loop_entries_cv2 rfl, List.length_flatMap, List.countP_flatMap]
  congr 2
  · exact List.map_congr_left fun v _ => length_process _ v
  · exact List.map_congr_left fun v _ => passed_process v

/-! ### The end of a search -/

theorem sound_iff (videos : List (Video (NdArray α) E)) :
    (self.context videos).Sound ↔ (self.detect = true → ∀ i, self.loads i = true) ∧
      ((loop self.options videos).entries ≠ [] → 0 < self.num_workers) := by
  constructor
  · intro h
    refine ⟨fun hdetect i => ?_, h.staffed⟩
    have hi : (!self.detect || self.loads i) = true := h.construct i
    rw [hdetect] at hi
    exact hi
  · rintro ⟨hloads, hstaffed⟩
    refine ⟨fun i => ?_, fun el _ => ⟨_, rfl⟩, hstaffed⟩
    change (!self.detect || self.loads i) = true
    cases hdetect : self.detect with
    | false => rfl
    | true => exact hloads hdetect i

/-- No interleaving goes on for ever. The search joins its threads in each if and only if all of
them get their detector and there is one for the frames; otherwise the join never comes. After it,
every sampled frame has been counted once and those that pass as well, whatever the detection
raises. -/
theorem search_totals (self : Search α) (videos : List (Video (NdArray α) E)) :
    (∀ as s, (system (self.context videos)).exec as (system (self.context videos)).start = some s →
      as.length ≤ 4 * (loop self.options videos).entries.length +
        6 * self.num_workers + 4) ∧
    ((∀ s, (system (self.context videos)).Reachable s → (system (self.context videos)).Stuck s →
        s.main = .finished) ↔
      (self.detect = true → ∀ i, self.loads i = true) ∧
        ((loop self.options videos).entries ≠ [] → 0 < self.num_workers)) ∧
    ∀ s, (system (self.context videos)).Reachable s →
      (s.main.joined = true → (self.context videos).Sound) ∧
      (s.main = .finished → s.total =
        ((videos.map fun v => (self.options.sampled v).length).sum,
          (videos.map self.passed_items).sum)) := by
  refine ⟨fun as s h => run_length as h, finishes_iff.trans (sound_iff videos), fun s hs => ?_⟩
  have hsound : s.main.joined = true → (self.context videos).Sound := by
    intro hjoined
    by_contra hsound
    rw [never_joins hsound hs] at hjoined
    cases hjoined
  refine ⟨hsound, fun hm => ?_⟩
  rw [← values_jobs videos]
  exact (finished_total (hsound (by rw [hm]; rfl)) hs hm).2

/-- Two threads without detection. -/
def two_workers : Search UInt8 where
  delta_frames := 1
  every_frame := 1
  every_frame_pos := Nat.succ_pos 0
  num_workers := 2
  even_workers := .inr rfl
  loads _ := false
  object_detection _ := .ok true

def pixel (v : UInt8) : NdArray UInt8 := ⟨[1, 1, 1], [v], rfl⟩

/-- The last frame is the same as the one two before it. -/
def clip : Video (NdArray UInt8) Empty where
  path := "v.mp4".toList
  frames := [pixel 0, pixel 0, pixel 255, pixel 5]
  num_frames := 4
  decode_video i := .ok (pixel (UInt8.ofNat i))

/-- The second thread is late: the first one takes all frames. -/
def one_takes_all : List (Action two_workers.num_workers) :=
  List.replicate 8 .main ++ List.replicate 16 (.worker ⟨0, Nat.two_pos⟩) ++
    List.replicate 4 (.worker ⟨1, Nat.one_lt_two⟩) ++
    List.replicate 4 .main

theorem search_totals_clip :
    ((system (two_workers.context [clip])).last one_takes_all (by decide +kernel)).total =
      (4, 3) := by
  have h := ((search_totals two_workers [clip]).2.2 _
    (System.reachable_last one_takes_all (by decide +kernel))).2 rfl
  refine h.trans ?_
  decide +kernel

end SmartDisk.VideoWorkers
