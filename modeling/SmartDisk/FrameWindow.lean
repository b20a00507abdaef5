import SmartDisk.VideoSessions
import Mathlib.Order.Bounds.Defs

/-!
# The window of the difference detector

`run` of `script/video_search.py` samples every `every_frame`-th frame of a video
and queues it together with a reference frame. The references come from a window
of earlier samples, which loses its oldest frame as soon as the frame id exceeds
`delta_frames`. The window is a delay line: its lag is the number of samples up to
that moment.
-/
namespace SmartDisk.FrameWindow
open VideoSessions StorageSim

variable {Frame E : Type}

/-- A video: the frames that `cap.read()` delivers, the count that `get_num_video_frames`
reports, and what the smart disk's client returns or raises for a frame. -/
structure Video (Frame E : Type) where
  path : Path
  frames : List Frame
  num_frames : ℕ
  decode_video : ℕ → Except E Frame

structure Options where
  every_frame : ℕ
  every_frame_pos : 0 < every_frame
  delta_frames : ℕ
  smart : Bool

/-- `frame_id` counts the frames read. -/
def cv2_decoder (every : ℕ) : ℕ → List Frame → List (Except E (Frame × ℕ))
  | _, [] => []
  | frame_id, frame :: rest =>
      if frame_id % every = 0 then .ok (frame, frame_id) :: cv2_decoder every (frame_id + 1) rest
      else cv2_decoder every (frame_id + 1) rest

def smart_decoder (v : Video Frame E) (c : Scan) : List (Except E (Frame × ℕ)) :=
  c.frame_ids.map fun frame_id => do
    let arr ← v.decode_video frame_id
    pure (arr, frame_id)

def Options.scan (o : Options) (v : Video Frame E) : Scan :=
  ⟨v.path, v.num_frames, o.every_frame, o.every_frame_pos⟩

/-- What the loop of `run` draws from: frames, or the exception that ends it. -/
def Options.gen (o : Options) (v : Video Frame E) : List (Except E (Frame × ℕ)) :=
  if o.smart then smart_decoder v (o.scan v) else cv2_decoder o.every_frame 0 v.frames

structure Item (Frame : Type) where
  path : Path
  frame_id : ℕ
  array : Frame

/-- What has been put into the queue, and how the loop ended. -/
structure Pushed (Frame E : Type) where
  entries : List (Item Frame × Option Frame)
  result : Except E Unit

def Pushed.put (x : Item Frame × Option Frame) (p : Pushed Frame E) : Pushed Frame E :=
  { p with entries := x :: p.entries }

/-- The loop over the sampled frames. The window is never empty when it is popped. -/
def enqueue (delta_frames : ℕ) (path : Path) :
    List Frame → List (Except E (Frame × ℕ)) → Pushed Frame E
  | _, [] => ⟨[], .ok ()⟩
  | _, .error e :: _ => ⟨[], .error e⟩
  | window, .ok (frame, frame_id) :: gen =>
      let window := window ++ [frame]
      if frame_id > delta_frames then
        (enqueue delta_frames path window.tail gen).put (⟨path, frame_id, frame⟩, window.head?)
      else (enqueue delta_frames path window gen).put (⟨path, frame_id, frame⟩, none)

def process (o : Options) (v : Video Frame E) : Pushed Frame E :=
  enqueue o.delta_frames v.path [] (o.gen v)

/-- The loop over the videos, with the client at hand if there is one. -/
def loop (o : Options) : List (Video Frame E) → Pushed Frame E
  | [] => ⟨[], .ok ()⟩
  | v :: vs =>
      match (process o v).result with
      | .ok _ => { loop o vs with entries := (process o v).entries ++ (loop o vs).entries }
      | .error _ => process o v

/-- The frames drawn before an exception. -/
def yields {α : Type} : List (Except E α) → List α
  | [] => []
  | .error _ :: _ => []
  | .ok a :: rest => a :: yields rest

def Options.sampled (o : Options) (v : Video Frame E) : List (Frame × ℕ) := yields (o.gen v)

/-- "Compare with the frame delta_frames ago": the latest sampled frame at least that far
back, if there is one. -/
structure DeltaAgo (delta_frames : ℕ) (sampled : List (Frame × ℕ))
    (x : Item Frame × Option Frame) : Prop where
  latest : ∀ frame, x.2 = some frame → ∃ g, (frame, g) ∈ sampled ∧
    IsGreatest {g | g ∈ sampled.map Prod.snd ∧ g + delta_frames ≤ x.1.frame_id} g
  missing : x.2 = none ↔ x.1.frame_id < delta_frames

/-! ### The sampled frames -/

theorem cv2_decoder_eq (every start : ℕ) (frames : List Frame) :
    (cv2_decoder every start frames : List (Except E (Frame × ℕ))) =
      ((frames.zipIdx start).filter fun x => x.2 % every = 0).map .ok := by
  induction frames generalizing start with
  | nil => rfl
  | cons frame rest ih =>
      unfold cv2_decoder
      rw [ih, List.zipIdx_cons]
      by_cases h : start % every = 0 <;> simp [h]

theorem round_up_of_dvd {every n : ℕ} (hevery : 0 < every) (h : n % every = 0) :
    (n + every - 1) / every = n / every := by
  have hn : n = every * (n / every) + n % every := (Nat.div_add_mod n every).symm
  apply Nat.div_eq_of_lt_le
  · rw [Nat.mul_comm]; omega
  · rw [Nat.succ_mul, Nat.mul_comm]; omega

theorem round_up_of_not_dvd {every n : ℕ} (hevery : 0 < every) (h : n % every ≠ 0) :
    (n + every - 1) / every = n / every + 1 := by
  have hn : n = every * (n / every) + n % every := (Nat.div_add_mod n every).symm
  have hlt := Nat.mod_lt n hevery
  apply Nat.div_eq_of_lt_le
  · rw [Nat.succ_mul, Nat.mul_comm]; omega
  · rw [Nat.succ_mul, Nat.succ_mul, Nat.mul_comm]; omega

/-- Counting through all frames and stepping over the rest visit the same ones. -/
theorem filter_range_eq {every : ℕ} (hevery : 0 < every) (n : ℕ) :
    (List.range n).filter (fun i => i % every = 0) =
      List.range' 0 ((n + every - 1) / every) every := by
  induction n with
  | zero =>
      rw [Nat.div_eq_of_lt (by omega)]
      rfl
  | succ n ih =>
      have hnext : (n + 1 + every - 1) / every = n / every + 1 := by
        rw [show n + 1 + every - 1 = n + every by omega, Nat.add_div_right n hevery]
      rw [List.range_succ, List.filter_append, ih, hnext]
      by_cases h : n % every = 0
      · have hlast : every * (n / every) = n := by
          have hn := Nat.div_add_mod n every
          omega
        rw [round_up_of_dvd hevery h, List.range'_concat, Nat.zero_add, hlast]
        simp [h]
      · rw [round_up_of_not_dvd hevery h]
        simp [h]

theorem yields_map_ok {α : Type} (l : List α) :
    yields (l.map .ok : List (Except E α)) = l := by
  induction l with
  | nil => rfl
  | cons a l ih => exact congrArg (a :: ·) ih

theorem ids_cv2 {every : ℕ} (hevery : 0 < every) (frames : List Frame) :
    ((frames.zipIdx 0).filter fun x => x.2 % every = 0).map Prod.snd =
      List.range' 0 ((frames.length + every - 1) / every) every := by
  rw [← filter_range_eq hevery, List.range_eq_range', ← List.zipIdx_map_snd 0 frames,
    List.filter_map]
  rfl

/-- The smart disk's generator and the other one agree on a video whose frames are all there. -/
theorem gen_agree {o : Options} {v : Video Frame E} (hcount : v.num_frames = v.frames.length)
    (hframes : ∀ i frame, v.frames[i]? = some frame → v.decode_video i = .ok frame) :
    smart_decoder v (o.scan v) = cv2_decoder o.every_frame 0 v.frames := by
  have hids := ids_cv2 o.every_frame_pos v.frames
  rw [cv2_decoder_eq, smart_decoder]
  have hscan : (o.scan v).frame_ids =
      List.range' 0 ((v.frames.length + o.every_frame - 1) / o.every_frame) o.every_frame := by
    rw [Scan.frame_ids, ← hcount]
    rfl
  rw [hscan, ← hids, List.map_map]
  apply List.map_congr_left
  intro x hx
  have hx' : v.frames[x.2]? = some x.1 :=
    List.mk_mem_zipIdx_iff_getElem?.mp (List.mem_filter.mp hx).1
  simp [hframes _ _ hx', bind, Except.bind, pure, Except.pure]

/-- Up to the first exception every frame id has been asked for in turn. -/
theorem ids_smart (v : Video Frame E) (ids : List ℕ) :
    (yields (ids.map fun frame_id => do
      let arr ← v.decode_video frame_id
      pure (arr, frame_id))).map Prod.snd <+: ids := by
  induction ids with
  | nil => exact List.prefix_rfl
  | cons frame_id ids ih =>
      rw [List.map_cons]
      cases v.decode_video frame_id with
      | error e => exact List.nil_prefix
      | ok arr => exact (List.prefix_cons_inj frame_id).mpr ih

/-- The sampled frames are multiples of the stride, none left out. -/
theorem sampled_id (o : Options) (v : Video Frame E) {j : ℕ} {x : Frame × ℕ}
    (h : (o.sampled v)[j]? = some x) : x.2 = j * o.every_frame := by
  have hprefix : ∃ count, (o.sampled v).map Prod.snd <+: List.range' 0 count o.every_frame := by
    unfold Options.sampled Options.gen
    split
    · exact ⟨_, ids_smart v _⟩
    · rw [cv2_decoder_eq, yields_map_ok, ids_cv2 o.every_frame_pos]
      exact ⟨_, List.prefix_rfl⟩
  obtain ⟨count, hprefix⟩ := hprefix
  have hj : ((o.sampled v).map Prod.snd)[j]? = some x.2 := by rw [List.getElem?_map, h]; rfl
  obtain ⟨hlt, hid⟩ := List.getElem?_eq_some_iff.mp hj
  have hrange := List.IsPrefix.getElem hprefix hlt
  rw [hid, List.getElem_range'] at hrange
  rw [hrange, Nat.zero_add, Nat.mul_comm]

/-! ### The window as a delay line -/

/-- After the samples `done` the window holds the last `lag` of them, or all. The lag is the
position of the first sample beyond `delta_frames`. -/
theorem enqueue_entries (delta_frames lag : ℕ) (path : Path) (done : List (Frame × ℕ))
    (gen : List (Except E (Frame × ℕ)))
    (hlag : ∀ j x, (done ++ yields gen)[j]? = some x → (delta_frames < x.2 ↔ lag ≤ j)) :
    (enqueue delta_frames path ((done.drop (done.length - lag)).map Prod.fst) gen).entries =
      ((yields gen).zipIdx done.length).map fun x => (⟨path, x.1.2, x.1.1⟩,
        if lag ≤ x.2 then ((done ++ yields gen)[x.2 - lag]?).map Prod.fst else none) := by
  induction gen generalizing done with
  | nil => rfl
  | cons el gen ih =>
      cases el with
      | error e => rfl
      | ok x =>
          obtain ⟨frame, frame_id⟩ := x
          have hnext : done ++ yields (.ok (frame, frame_id) :: gen) =
              (done ++ [(frame, frame_id)]) ++ yields gen := by simp [yields]
          rw [hnext] at hlag ⊢
          have hhere := hlag done.length (frame, frame_id) (by simp)
          have ih' := ih (done ++ [(frame, frame_id)]) hlag
          rw [List.length_append, List.length_singleton] at ih'
          have hwindow : (done.drop (done.length - lag)).map Prod.fst ++ [frame] =
              ((done ++ [(frame, frame_id)]).drop (done.length - lag)).map Prod.fst := by
            rw [List.drop_append_of_le_length (Nat.sub_le _ _), List.map_append]
            rfl
          unfold enqueue
          simp only [hwindow]
          rw [yields, List.zipIdx_cons, List.map_cons]
          split
          · rename_i hbeyond
            have hle := hhere.mp hbeyond
            have htail :
                (((done ++ [(frame, frame_id)]).drop (done.length - lag)).map Prod.fst).tail =
                  ((done ++ [(frame, frame_id)]).drop (done.length + 1 - lag)).map Prod.fst := by
              rw [← List.map_tail, List.tail_drop, ← Nat.sub_add_comm hle]
            have hhead :
                (((done ++ [(frame, frame_id)]).drop (done.length - lag)).map Prod.fst).head? =
                  ((done ++ [(frame, frame_id)] ++ yields gen)[done.length - lag]?).map Prod.fst := by
              have hin : done.length - lag < (done ++ [(frame, frame_id)]).length := by
                rw [List.length_append, List.length_singleton]
                omega
              rw [List.head?_map, List.head?_drop, List.getElem?_append_left hin]
            rw [htail, hhead, if_pos hle]
            exact congrArg (_ :: ·) ih'
          · rename_i hwithin
            have hlt : done.length < lag := not_le.mp fun hle => hwithin (hhere.mpr hle)
            rw [Nat.sub_eq_zero_of_le hlt] at ih'
            rw [Nat.sub_eq_zero_of_le hlt.le, if_neg (not_le.mpr hlt)]
            exact congrArg (_ :: ·) ih'

/-- The samples before the first one beyond `delta_frames`. -/
def Options.lag (o : Options) : ℕ := o.delta_frames / o.every_frame + 1

theorem lag_le_iff (o : Options) (j : ℕ) :
    o.delta_frames < j * o.every_frame ↔ o.lag ≤ j :=
  (Nat.div_lt_iff_lt_mul o.every_frame_pos).symm

/-- The j-th frame is paired with the sample that many before it. -/
theorem process_entries (o : Options) (v : Video Frame E) :
    (process o v).entries = ((o.sampled v).zipIdx).map fun x => (⟨v.path, x.1.2, x.1.1⟩,
      if o.lag ≤ x.2 then ((o.sampled v)[x.2 - o.lag]?).map Prod.fst else none) := by
  have hlag : ∀ j x, (o.sampled v)[j]? = some x → (o.delta_frames < x.2 ↔ o.lag ≤ j) := by
    intro j x hj
    rw [sampled_id o v hj]
    exact lag_le_iff o j
  have h := enqueue_entries o.delta_frames o.lag v.path [] (o.gen v) hlag
  rw [List.drop_nil] at h
  exact h

theorem mem_entries {o : Options} {v : Video Frame E} {x : Item Frame × Option Frame}
    (h : x ∈ (process o v).entries) :
    ∃ j, (o.sampled v)[j]? = some (x.1.array, x.1.frame_id) ∧
      x.2 = if o.lag ≤ j then ((o.sampled v)[j - o.lag]?).map Prod.fst else none := by
  rw [process_entries] at h
  obtain ⟨y, hy, rfl⟩ := List.mem_map.mp h
  exact ⟨y.2, List.mk_mem_zipIdx_iff_getElem?.mp hy, rfl⟩

/-! ### The documented reference -/

/-- When the stride does not divide `delta_frames`, the lag rounds it up. -/
theorem lag_greatest {o : Options} {i j : ℕ} (hlt : o.delta_frames < j * o.every_frame)
    (hne : ∀ i ≤ j, i * o.every_frame ≠ o.delta_frames)
    (h : i * o.every_frame + o.delta_frames ≤ j * o.every_frame) : i ≤ j - o.lag := by
  have hfloor : o.delta_frames / o.every_frame ≤ j :=
    Nat.le_of_lt ((Nat.div_lt_iff_lt_mul o.every_frame_pos).mpr hlt)
  have hbelow : o.delta_frames / o.every_frame * o.every_frame < o.delta_frames :=
    lt_of_le_of_ne (Nat.div_mul_le_self _ _) (hne _ hfloor)
  by_contra hbeyond
  have hsum : j ≤ i + o.delta_frames / o.every_frame := by
    unfold Options.lag at hbeyond
    omega
  have hmul := Nat.mul_le_mul_right o.every_frame hsum
  rw [Nat.add_mul] at hmul
  omega

/-- Unless `delta_frames` is the id of a sampled frame, the lag is the documented one. -/
theorem delta_ago {o : Options} {v : Video Frame E} {x : Item Frame × Option Frame}
    (hdelta : o.delta_frames ∉ (o.sampled v).map Prod.snd) (h : x ∈ (process o v).entries) :
    DeltaAgo o.delta_frames (o.sampled v) x := by
  obtain ⟨j, hj, href⟩ := mem_entries h
  have hid : x.1.frame_id = j * o.every_frame := sampled_id o v hj
  obtain ⟨hlen, -⟩ := List.getElem?_eq_some_iff.mp hj
  -- sampled ids are multiples of the stride, and `delta_frames` is none of them
  have hne : ∀ i ≤ j, i * o.every_frame ≠ o.delta_frames := by
    intro i hi heq
    apply hdelta
    rw [← heq, ← sampled_id o v (List.getElem?_eq_getElem (lt_of_le_of_lt hi hlen))]
    exact List.mem_map_of_mem (List.getElem_mem _)
  by_cases hlag : o.lag ≤ j
  · have hbeyond := (lag_le_iff o j).mpr hlag
    have hback : j - o.lag < (o.sampled v).length := lt_of_le_of_lt (Nat.sub_le _ _) hlen
    have hget := List.getElem?_eq_getElem hback
    have hback_id := sampled_id o v hget
    rw [if_pos hlag, hget] at href
    refine ⟨?_, ?_⟩
    · intro frame hframe
      obtain rfl : (o.sampled v)[j - o.lag].1 = frame := Option.some.inj (href.symm.trans hframe)
      refine ⟨(o.sampled v)[j - o.lag].2, List.getElem_mem hback,
        ⟨List.mem_map_of_mem (List.getElem_mem _), ?_⟩, ?_⟩
      · have hstep := (lag_le_iff o o.lag).mpr le_rfl
        have hsum : (j - o.lag) * o.every_frame + o.lag * o.every_frame = j * o.every_frame := by
          rw [← Nat.add_mul, Nat.sub_add_cancel hlag]
        rw [hback_id, hid]
        omega
      · rintro g ⟨hg, hle⟩
        obtain ⟨y, hy, rfl⟩ := List.mem_map.mp hg
        obtain ⟨i, hi⟩ := List.mem_iff_getElem?.mp hy
        rw [sampled_id o v hi, hid] at hle
        rw [sampled_id o v hi, hback_id]
        exact Nat.mul_le_mul_right _ (lag_greatest hbeyond hne hle)
    · rw [href, hid]
      exact iff_of_false nofun (not_lt.mpr hbeyond.le)
  · have hwithin := not_lt.mp fun hlt => hlag ((lag_le_iff o j).mp hlt)
    rw [if_neg hlag] at href
    refine ⟨fun frame hframe => ?_, ?_⟩
    · rw [href] at hframe
      cases hframe
    · rw [href, hid]
      exact iff_of_true rfl (lt_of_le_of_ne hwithin (hne j le_rfl))

/-- The frame with id `delta_frames` gets no reference. -/
theorem not_delta_ago {o : Options} {v : Video Frame E}
    (h : o.delta_frames ∈ (o.sampled v).map Prod.snd) :
    ∃ x ∈ (process o v).entries, ¬ DeltaAgo o.delta_frames (o.sampled v) x := by
  obtain ⟨y, hy, hdelta⟩ := List.mem_map.mp h
  obtain ⟨j, hj⟩ := List.mem_iff_getElem?.mp hy
  have hid := sampled_id o v hj
  have hlag : ¬ o.lag ≤ j := by
    rw [← lag_le_iff, ← hid, hdelta]
    exact lt_irrefl _
  refine ⟨(⟨v.path, y.2, y.1⟩, none), ?_, fun hago => ?_⟩
  · rw [process_entries]
    refine List.mem_map.mpr ⟨(y, j), List.mk_mem_zipIdx_iff_getElem?.mpr hj, ?_⟩
    rw [if_neg hlag]
  · have hlt := hago.missing.mp rfl
    rw [← hdelta] at hlt
    exact lt_irrefl _ hlt

/-- Every queued frame of a video is paired with the latest sampled frame at least
`delta_frames` before it, if and only if `delta_frames` is not itself the id of a sampled frame. -/
theorem reference_iff (o : Options) (v : Video Frame E) :
    (∀ x ∈ (process o v).entries, DeltaAgo o.delta_frames (o.sampled v) x) ↔
      o.delta_frames ∉ (o.sampled v).map Prod.snd := by
  refine ⟨fun h hdelta => ?_, fun hdelta x hx => delta_ago hdelta hx⟩
  obtain ⟨x, hx, hnot⟩ := not_delta_ago hdelta
  exact hnot (h x hx)

/-- The default options. -/
def defaults : Options := ⟨10, Nat.succ_pos 9, 30, false⟩

/-- 31 different frames. -/
def shortVideo : Video ℕ Empty := ⟨"v.mp4".toList, List.range 31, 31, .ok⟩

/-- Frame 30 has no reference, although frame 0 lies exactly 30 frames back. -/
theorem frame30_without_reference :
    ¬ ∀ x ∈ (process defaults shortVideo).entries,
      DeltaAgo defaults.delta_frames (defaults.sampled shortVideo) x := by
  intro h
  obtain ⟨x, hx, hnot⟩ := not_delta_ago (o := defaults) (v := shortVideo) (by decide +kernel)
  exact hnot (h x hx)

/-- The sampled frames of a video that is read to its end. -/
theorem mem_sampled_ids {o : Options} {v : Video Frame E} (hsmart : o.smart = false) (i : ℕ) :
    i ∈ (o.sampled v).map Prod.snd ↔ i % o.every_frame = 0 ∧ i < v.frames.length := by
  have hsampled : o.sampled v = (v.frames.zipIdx 0).filter fun x => x.2 % o.every_frame = 0 := by
    unfold Options.sampled Options.gen
    rw [hsmart, if_neg Bool.false_ne_true, cv2_decoder_eq, yields_map_ok]
  constructor
  · intro h
    obtain ⟨x, hx, rfl⟩ := List.mem_map.mp h
    rw [hsampled, List.mem_filter, decide_eq_true_eq] at hx
    obtain ⟨hlt, -⟩ := List.getElem?_eq_some_iff.mp (List.mk_mem_zipIdx_iff_getElem?.mp hx.1)
    exact ⟨hx.2, hlt⟩
  · rintro ⟨hdvd, hlt⟩
    refine List.mem_map.mpr ⟨(v.frames[i], i), ?_, rfl⟩
    rw [hsampled, List.mem_filter, decide_eq_true_eq]
    exact ⟨List.mk_mem_zipIdx_iff_getElem?.mpr (List.getElem?_eq_getElem hlt), hdvd⟩

/-- The loop queues what it queues for each video it gets to, one after the other. -/
theorem loop_entries (o : Options) (vs : List (Video Frame E)) :
    ∃ started, started <+: vs ∧
      (loop o vs).entries = started.flatMap fun v => (process o v).entries := by
  induction vs with
  | nil => exact ⟨[], List.prefix_rfl, rfl⟩
  | cons v vs ih =>
      obtain ⟨started, hprefix, hentries⟩ := ih
      cases hresult : (process o v).result with
      | error e =>
          refine ⟨[v], List.prefix_append [v] vs, ?_⟩
          rw [loop, hresult, List.flatMap_singleton]
      | ok _ =>
          refine ⟨v :: started, (List.prefix_cons_inj v).mpr hprefix, ?_⟩
          rw [loop, hresult, List.flatMap_cons, ← hentries]

theorem enqueue_result (delta_frames : ℕ) (path : Path) (frames : List (Frame × ℕ))
    (window : List Frame) :
    (enqueue delta_frames path window (frames.map .ok : List (Except E (Frame × ℕ)))).result =
      .ok () := by
  induction frames generalizing window with
  | nil => rfl
  | cons x frames ih =>
      rw [List.map_cons, enqueue]
      split
      · exact ih _
      · exact ih _

/-- `cv2` ends a video where it cannot read on, and never raises: all videos are queued. -/
theorem loop_entries_cv2 {o : Options} (hsmart : o.smart = false) (vs : List (Video Frame E)) :
    (loop o vs).entries = vs.flatMap fun v => (process o v).entries := by
  induction vs with
  | nil => rfl
  | cons v vs ih =>
      have hresult : (process o v).result = .ok () := by
        unfold process Options.gen
        rw [hsmart, if_neg Bool.false_ne_true, cv2_decoder_eq]
        exact enqueue_result _ _ _ _
      rw [loop, hresult, List.flatMap_cons, ← ih]

end SmartDisk.FrameWindow
