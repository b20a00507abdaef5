import SmartDisk.AnsweredOnce
import SmartDisk.EventSolo
import SmartDisk.SmartClient

/-!
# Two pipelines for faces

The baseline reads a picture, decodes it and runs the face detector on it
(`filter/reader.py`, `filter/decoder.py`, `filter/facedetector.py`).
`SmartFaceFilter` of `filter/smart_storage.py` gets picture and boxes through the
smart disk's client. What follows in the chain reads only the picture and the boxes.

A filter works on the item and on the session statistics, and the smart one on its
client's socket too. Files, `cv2` and the network are functions; arithmetic is exact.
-/
namespace SmartDisk.FaceFilters
open EventSolo RequestDelivery SmartClient KeptState
open AnsweredOnce (oneFace measured_oneFace)
open StorageSim hiding get set Exn

abbrev Bytes := List UInt8

/-- A row of `model.forward()`: confidence and a box as fractions of the picture. -/
structure Detection where
  confidence : ℚ
  left : ℚ
  top : ℚ
  right : ℚ
  bottom : ℚ

/-- `read` is `none` where the file cannot be read. -/
structure World (Arr : Type) where
  read : Path → Option Bytes
  imread : Path → Except Exn (Option Arr)
  imdecode : Bytes → Option Arr
  np_load : Bytes → Except Exn Arr
  height : Arr → ℕ
  width : Arr → ℕ
  forward : Arr → List Detection
  time : List Request → ℚ

/-- The attributes that the filters here touch have fields of their own. -/
structure Item (Arr V : Type) where
  src : Path
  data : Option Bytes := none
  array : Option Arr := none
  face_detection : Option (List Box) := none
  attrs : Path → Option V := fun _ => none

structure Session (Arr V : Type) where
  item : Item Arr V
  bytes_from_disk : ℚ
  socket : Socket

variable {Arr V : Type}

/-- The session keeps what a filter did before it raised. -/
abbrev Run (Arr V : Type) := ExceptT Exn (StateM (Session Arr V))

/-- The `array` setter of `Item` accepts arrays only. -/
def set_array (arr : Option Arr) : Run Arr V Unit := do
  if arr.isNone then throw .AssertionError
  modify fun s => { s with item := { s.item with array := arr } }

/-- A method of the client, in a session. -/
def onSocket {α : Type} (x : Client α) : Run Arr V α :=
  fun s => ((x.run.run s.socket).1, { s with socket := (x.run.run s.socket).2 })

/-- The read of the file, both in `SimpleReadFilter` and in the client's `_read_real`. -/
def read_real (w : World Arr) (path : Path) : Except Exn Bytes :=
  (w.read path).elim (.error .OSError) .ok

/-! ### The baseline -/

def SimpleReadFilter (w : World Arr) : Run Arr V Bool := do
  let s ← get
  let buf ← liftM (read_real w s.item.src)
  set { s with
    item := { s.item with data := some buf }
    bytes_from_disk := s.bytes_from_disk + buf.length }
  pure true

/-- `pathlib.Path(p).suffix`. -/
def suffix (p : Path) : Path :=
  let name := ((p.splitOn '/').filter fun c => c ≠ [] ∧ c ≠ ['.']).getLastD []
  let ext := (name.reverse.takeWhile (· ≠ '.')).reverse
  if ext = [] ∨ name.length ≤ ext.length + 1 then [] else '.' :: ext

/-- `cv2.imdecode` returns `None` where it fails. -/
def decode_data (w : World Arr) (path : Path) (data : Bytes) : Except Exn (Option Arr) :=
  if suffix path = ".npy".toList then (w.np_load data).map some else .ok (w.imdecode data)

def DecodeFilter (w : World Arr) : Run Arr V Bool := do
  let s ← get
  match s.item.data with
  | none => throw .KeyError
  | some data =>
      let arr ← liftM (decode_data w s.item.src data)
      set_array arr
      pure true

/-- `astype('int')` cuts off toward zero. -/
def truncate (x : ℚ) : ℚ := (x.num.tdiv x.den : ℤ)

/-- The boxes that the detector is confident of. -/
def detect (w : World Arr) (arr : Arr) : List Box :=
  ((w.forward arr).filter fun d => 4 / 5 < d.confidence).map fun d =>
    ⟨truncate (d.left * w.width arr), truncate (d.top * w.height arr),
      truncate (d.right * w.width arr), truncate (d.bottom * w.height arr)⟩

structure FaceDetectorFilter where
  min_faces : ℕ

def FaceDetectorFilter.call (w : World Arr) (self : FaceDetectorFilter) : Run Arr V Bool := do
  let s ← get
  match s.item.array with
  | none => throw .KeyError
  | some arr =>
      let boxes := detect w arr
      set { s with item := { s.item with face_detection := some boxes } }
      pure (self.min_faces ≤ boxes.length)

/-! ### The smart disk -/

structure SmartFaceFilter (Arr : Type) where
  ss_client : SmartStorageClient Arr
  min_faces : ℕ

/-- The constructor takes the argument and stores 1. -/
def SmartFaceFilter.init (ss_client : SmartStorageClient Arr) (_min_faces : ℕ) :
    SmartFaceFilter Arr := ⟨ss_client, 1⟩

/-- The client's `read_decode_face`. -/
def read_decode_face (w : World Arr) (server : List Request → Body)
    (ss_client : SmartStorageClient Arr) (path : Path) :
    Run Arr V (Option Arr × List Box) := do
  let _ ← liftM (read_real w path)
  let s ← get
  onSocket (ss_client.decode_face server (w.time s.socket.sent) w.imread path)

def SmartFaceFilter.call (w : World Arr) (server : List Request → Body)
    (self : SmartFaceFilter Arr) : Run Arr V Bool := do
  let s ← get
  let (arr, boxes) ← read_decode_face w server self.ss_client s.item.src
  set_array arr
  modify fun s => { s with
    item := { s.item with face_detection := some boxes }
    bytes_from_disk := s.bytes_from_disk + transmitted_size boxes }
  pure (self.min_faces ≤ boxes.length)

/-- The emulator's answer to the last request: what the simulator does for it alone, with the
time stamps `stamp`. A request that fails there gets no answer, which is an error here. -/
def emulator (cfg : Config) (stamp : List Request → ℚ × ℚ) (requests : List Request) : Body :=
  match requests.getLast? with
  | none => .error .ZMQError
  | some request =>
      match (alone ((loads request).bind fun payload => perform cfg request payload) {}).result with
      | .ok face_boxes =>
          .ok ⟨(stamp requests).1, (stamp requests).2, ⟨request.opcode, face_boxes⟩⟩
      | .error _ => .error .ZMQError

/-! ### The loop of `search_work` -/

/-- The filters of one item, up to the first that rejects it. -/
def run_filters : List (Run Arr V Bool) → Run Arr V Bool
  | [] => pure true
  | f :: filters => do
      let ret ← f
      if ret then run_filters filters else pure false

def Session.next (s : Session Arr V) (src : Path) : Session Arr V :=
  { s with item := { src := src } }

/-- The paths accepted by one worker. An exception rejects its item only. -/
def accepted (filters : List (Run Arr V Bool)) : List Path → Session Arr V → List Path
  | [], _ => []
  | src :: srcs, s =>
      match (run_filters filters).run.run (s.next src) with
      | (.ok true, s) => src :: accepted filters srcs s
      | (_, s) => accepted filters srcs s

def baseline (w : World Arr) (min_faces : ℕ) : List (Run Arr V Bool) :=
  [SimpleReadFilter w, DecodeFilter w, FaceDetectorFilter.call w ⟨min_faces⟩]

def smart (w : World Arr) (server : List Request → Body) (ss_client : SmartStorageClient Arr)
    (min_faces : ℕ) : List (Run Arr V Bool) :=
  [(SmartFaceFilter.init ss_client min_faces).call w server]

def Session.initial : Session Arr V := ⟨{ src := [] }, 0, {}⟩

/-! ### What a tail of the chain may look at -/

/-- The two sessions show the same picture and the same boxes. -/
structure Agree (s t : Session Arr V) : Prop where
  src : s.item.src = t.item.src
  array : s.item.array = t.item.array
  face_detection : s.item.face_detection = t.item.face_detection

/-- A filter that reads nothing but these and has no access to the client. -/
structure ReadsOnly (f : Run Arr V Bool) : Prop where
  result : ∀ s t, Agree s t → (f.run.run s).1 = (f.run.run t).1
  agree : ∀ s t, Agree s t → Agree (f.run.run s).2 (f.run.run t).2
  socket : ∀ s, (f.run.run s).2.socket = s.socket

/-- What `DecodeFilter` stores, if it does not raise. -/
def decoded (w : World Arr) (path : Path) (data : Bytes) : Option Arr :=
  (decode_data w path data).toOption.join

/-- The stored picture is the decoded one, and the profiled boxes are those of the detector. -/
structure Mirrored (cfg : Config) (w : World Arr) (ss_client : SmartStorageClient Arr)
    (path : Path) : Prop where
  ppm : ∀ data, w.read path = some data →
    ss_client.load_decoded w.imread path = .ok (decoded w path data)
  decodable : decodable cfg path = true
  profiled : ∃ d boxes, cfg.face_lut (basename path) = some (d, boxes) ∧
    ∀ data arr, w.read path = some data → decoded w path data = some arr → boxes = detect w arr

/-- A session that shows this picture and these boxes. -/
def viewing (path : Path) (arr : Arr) (boxes : List Box) : Session Arr V :=
  ⟨{ src := path, array := some arr, face_detection := some boxes }, 0, {}⟩

/-- The tail of the chain lets them pass. -/
def passes (G : List (Run Arr V Bool)) (path : Path) (arr : Arr) (boxes : List Box) : Prop :=
  ((run_filters G).run.run (viewing path arr boxes)).1 = .ok true

/-! ### Running a chain -/

theorem run_filters_cons (f : Run Arr V Bool) (filters : List (Run Arr V Bool))
    (s : Session Arr V) :
    (run_filters (f :: filters)).run.run s =
      match f.run.run s with
      | (.ok true, s') => (run_filters filters).run.run s'
      | r => r := by
  change StateT.run (ExceptT.bindCont _ (f.run.run s).1) (f.run.run s).2 = _
  generalize f.run.run s = r
  obtain ⟨result, s'⟩ := r
  cases result with
  | error e => rfl
  | ok ret => cases ret <;> rfl

theorem verdict_pass {f : Run Arr V Bool} {s s' : Session Arr V}
    (h : f.run.run s = (.ok true, s')) (filters : List (Run Arr V Bool)) :
    ((run_filters (f :: filters)).run.run s).1 = .ok true ↔
      ((run_filters filters).run.run s').1 = .ok true := by
  rw [run_filters_cons, h]

theorem verdict_stop {f : Run Arr V Bool} {s s' : Session Arr V} {r : Except Exn Bool}
    (h : f.run.run s = (r, s')) (hr : r ≠ .ok true) (filters : List (Run Arr V Bool)) :
    ((run_filters (f :: filters)).run.run s).1 ≠ .ok true := by
  rw [run_filters_cons, h]
  cases r with
  | error e => nofun
  | ok ret =>
      cases ret with
      | false => nofun
      | true => exact absurd rfl hr

/-- A filter that passes on a condition. -/
theorem verdict_decide {f : Run Arr V Bool} {s s' : Session Arr V} {p : Prop} [Decidable p]
    (h : f.run.run s = (.ok (decide p), s')) (filters : List (Run Arr V Bool)) :
    ((run_filters (f :: filters)).run.run s).1 = .ok true ↔
      p ∧ ((run_filters filters).run.run s').1 = .ok true := by
  by_cases hp : p
  · rw [decide_eq_true hp] at h
    rw [verdict_pass h, and_iff_right hp]
  · rw [decide_eq_false hp] at h
    exact iff_of_false (verdict_stop h nofun filters) fun hpass => hp hpass.1

theorem readsOnly_run_filters {G : List (Run Arr V Bool)} (hG : ∀ f ∈ G, ReadsOnly f) :
    ReadsOnly (run_filters G) := by
  induction G with
  | nil => exact ⟨fun _ _ _ => rfl, fun _ _ h => h, fun _ => rfl⟩
  | cons f G ih =>
      have hf := hG f (List.mem_cons_self ..)
      have hrest := ih fun g hg => hG g (List.mem_cons_of_mem _ hg)
      have hboth : ∀ s t, Agree s t →
          ((run_filters (f :: G)).run.run s).1 = ((run_filters (f :: G)).run.run t).1 ∧
            Agree ((run_filters (f :: G)).run.run s).2 ((run_filters (f :: G)).run.run t).2 := by
        intro s t h
        have hresult := hf.result s t h
        have hagree := hf.agree s t h
        rw [run_filters_cons, run_filters_cons]
        generalize f.run.run s = x at hresult hagree ⊢
        generalize f.run.run t = y at hresult hagree ⊢
        obtain ⟨result, s'⟩ := x
        obtain ⟨result', t'⟩ := y
        obtain rfl : result = result' := hresult
        cases result with
        | error e => exact ⟨rfl, hagree⟩
        | ok ret =>
            cases ret with
            | false => exact ⟨rfl, hagree⟩
            | true => exact ⟨hrest.result s' t' hagree, hrest.agree s' t' hagree⟩
      refine ⟨fun s t h => (hboth s t h).1, fun s t h => (hboth s t h).2, fun s => ?_⟩
      have hsocket := hf.socket s
      rw [run_filters_cons]
      generalize f.run.run s = x at hsocket ⊢
      obtain ⟨result, s'⟩ := x
      cases result with
      | error e => exact hsocket
      | ok ret =>
          cases ret with
          | false => exact hsocket
          | true => exact (hrest.socket s').trans hsocket

/-- The verdict of a chain on a path, from every session that satisfies `P`. -/
structure Decides (filters : List (Run Arr V Bool)) (P : Session Arr V → Prop) (src : Path)
    (A : Prop) : Prop where
  verdict : ∀ s, P s → (((run_filters filters).run.run (s.next src)).1 = .ok true ↔ A)
  keeps : ∀ s, P s → P ((run_filters filters).run.run (s.next src)).2

theorem accepted_cons {filters : List (Run Arr V Bool)} {P : Session Arr V → Prop} {src : Path}
    {A : Prop} (h : Decides filters P src A) (srcs : List Path) {s : Session Arr V} (hs : P s) :
    ∃ s', P s' ∧ (A → accepted filters (src :: srcs) s = src :: accepted filters srcs s') ∧
      (¬ A → accepted filters (src :: srcs) s = accepted filters srcs s') := by
  refine ⟨_, h.keeps s hs, ?_, ?_⟩
  · intro hA
    have hok := (h.verdict s hs).mpr hA
    rw [accepted]
    generalize (run_filters filters).run.run (s.next src) = x at hok ⊢
    obtain ⟨result, s'⟩ := x
    obtain rfl : result = .ok true := hok
    rfl
  · intro hA
    have hnot := fun hok => hA ((h.verdict s hs).mp hok)
    rw [accepted]
    generalize (run_filters filters).run.run (s.next src) = x at hnot ⊢
    obtain ⟨result, s'⟩ := x
    cases result with
    | error e => rfl
    | ok ret =>
        cases ret with
        | false => rfl
        | true => exact absurd rfl hnot

theorem mem_accepted {filters : List (Run Arr V Bool)} {P : Session Arr V → Prop}
    {A : Path → Prop} (srcs : List Path) (h : ∀ src ∈ srcs, Decides filters P src (A src))
    {s : Session Arr V} (hs : P s) (x : Path) :
    x ∈ accepted filters srcs s ↔ x ∈ srcs ∧ A x := by
  induction srcs generalizing s with
  | nil => simp [accepted]
  | cons src srcs ih =>
      obtain ⟨hsrc, hsrcs⟩ := List.forall_mem_cons.mp h
      obtain ⟨t, ht, hyes, hno⟩ := accepted_cons hsrc srcs hs
      by_cases hA : A src
      · rw [hyes hA, List.mem_cons, List.mem_cons, ih hsrcs ht]
        constructor
        · rintro (rfl | ⟨hx, hAx⟩)
          · exact ⟨Or.inl rfl, hA⟩
          · exact ⟨Or.inr hx, hAx⟩
        · rintro ⟨rfl | hx, hAx⟩
          · exact Or.inl rfl
          · exact Or.inr ⟨hx, hAx⟩
      · rw [hno hA, List.mem_cons, ih hsrcs ht]
        constructor
        · exact fun ⟨hx, hAx⟩ => ⟨Or.inr hx, hAx⟩
        · rintro ⟨rfl | hx, hAx⟩
          · exact absurd hAx hA
          · exact ⟨hx, hAx⟩

/-- Two chains accept the same paths if and only if they agree on each. -/
theorem accepted_eq_iff {filters filters' : List (Run Arr V Bool)} {P P' : Session Arr V → Prop}
    {A A' : Path → Prop} (srcs : List Path) (h : ∀ src ∈ srcs, Decides filters P src (A src))
    (h' : ∀ src ∈ srcs, Decides filters' P' src (A' src)) {s s' : Session Arr V} (hs : P s)
    (hs' : P' s') :
    accepted filters srcs s = accepted filters' srcs s' ↔ ∀ src ∈ srcs, (A src ↔ A' src) := by
  constructor
  · intro heq src hsrc
    have hmem := mem_accepted srcs h hs src
    rw [heq, mem_accepted srcs h' hs' src] at hmem
    exact ⟨fun hA => (hmem.mpr ⟨hsrc, hA⟩).2, fun hA => (hmem.mp ⟨hsrc, hA⟩).2⟩
  · intro heq
    induction srcs generalizing s s' with
    | nil => rfl
    | cons src srcs ih =>
        obtain ⟨hsrc, hsrcs⟩ := List.forall_mem_cons.mp h
        obtain ⟨hsrc', hsrcs'⟩ := List.forall_mem_cons.mp h'
        obtain ⟨hiff, heqs⟩ := List.forall_mem_cons.mp heq
        obtain ⟨t, ht, hyes, hno⟩ := accepted_cons hsrc srcs hs
        obtain ⟨t', ht', hyes', hno'⟩ := accepted_cons hsrc' srcs hs'
        have hrest := ih hsrcs hsrcs' ht ht' heqs
        by_cases hA : A src
        · rw [hyes hA, hyes' (hiff.mp hA), hrest]
        · rw [hno hA, hno' fun hA' => hA (hiff.mpr hA'), hrest]

/-! ### The two pipelines on one picture -/

/-- The chain from the detection on, for a picture that has got this far. -/
theorem tail_verdict {G : List (Run Arr V Bool)} (hG : ∀ f ∈ G, ReadsOnly f) {path : Path}
    {arr : Arr} {boxes : List Box} {s : Session Arr V} (h : Agree s (viewing path arr boxes)) :
    ((run_filters G).run.run s).1 = .ok true ↔ passes G path arr boxes := by
  unfold passes
  rw [(readsOnly_run_filters hG).result s _ h]

/-- The baseline accepts a picture that can be read and decoded, has enough faces and passes the
tail. -/
def Accepts (w : World Arr) (min_faces : ℕ) (G : List (Run Arr V Bool)) (path : Path) : Prop :=
  ∃ data arr, w.read path = some data ∧ decoded w path data = some arr ∧
    min_faces ≤ (detect w arr).length ∧ passes G path arr (detect w arr)

theorem read_real_ok {w : World Arr} {path : Path} {data : Bytes}
    (hread : w.read path = some data) : read_real w path = .ok data := by
  unfold read_real
  rw [hread]
  rfl

theorem read_real_fails {w : World Arr} {path : Path} (hread : w.read path = none) :
    read_real w path = .error .OSError := by
  unfold read_real
  rw [hread]
  rfl

theorem read_run (w : World Arr) {s : Session Arr V} {data : Bytes}
    (hread : w.read s.item.src = some data) :
    (SimpleReadFilter w).run.run s = (.ok true, { s with
      item := { s.item with data := some data }
      bytes_from_disk := s.bytes_from_disk + data.length }) := by
  unfold SimpleReadFilter
  rw [get_bind, bind_ok (liftM_ok (read_real_ok hread) s)]
  rfl

theorem read_fails (w : World Arr) {s : Session Arr V} (hread : w.read s.item.src = none) :
    (SimpleReadFilter w).run.run s = (.error .OSError, s) := by
  unfold SimpleReadFilter
  rw [get_bind, bind_raises (liftM_raises (read_real_fails hread) s)]

theorem set_array_run (arr : Arr) (s : Session Arr V) :
    (set_array (some arr)).run.run s =
      (.ok (), { s with item := { s.item with array := some arr } }) := rfl

theorem set_array_none (s : Session Arr V) :
    (set_array none).run.run s = (.error .AssertionError, s) := rfl

theorem decode_run (w : World Arr) {s : Session Arr V} {data : Bytes} {arr : Arr}
    (hdata : s.item.data = some data) (harr : decoded w s.item.src data = some arr) :
    (DecodeFilter w).run.run s =
      (.ok true, { s with item := { s.item with array := some arr } }) := by
  unfold DecodeFilter
  rw [get_bind, hdata]
  unfold decoded at harr
  cases hdecode : decode_data w s.item.src data with
  | error e =>
      rw [hdecode] at harr
      cases harr
  | ok arr' =>
      rw [hdecode] at harr
      obtain rfl : arr' = some arr := harr
      simp only
      rw [bind_ok (liftM_ok hdecode s), bind_ok (set_array_run arr s)]
      rfl

theorem decode_fails (w : World Arr) {s : Session Arr V} {data : Bytes}
    (hdata : s.item.data = some data) (harr : decoded w s.item.src data = none) :
    ∃ e, (DecodeFilter w).run.run s = (.error e, s) := by
  unfold DecodeFilter
  rw [get_bind, hdata]
  unfold decoded at harr
  cases hdecode : decode_data w s.item.src data with
  | error e => exact ⟨e, bind_raises (liftM_raises hdecode s) _⟩
  | ok arr =>
      rw [hdecode] at harr
      obtain rfl : arr = none := harr
      refine ⟨.AssertionError, ?_⟩
      simp only
      rw [bind_ok (liftM_ok hdecode s), bind_raises (set_array_none s)]

theorem detect_run (w : World Arr) (min_faces : ℕ) {s : Session Arr V} {arr : Arr}
    (harr : s.item.array = some arr) :
    ((FaceDetectorFilter.call w ⟨min_faces⟩).run.run s) =
      (.ok (decide (min_faces ≤ (detect w arr).length)),
        { s with item := { s.item with face_detection := some (detect w arr) } }) := by
  obtain ⟨⟨src, data, array, boxes, attrs⟩, bytes, socket⟩ := s
  cases harr
  rfl

theorem accepts_iff {w : World Arr} {min_faces : ℕ} {G : List (Run Arr V Bool)} {path : Path}
    {data : Bytes} {arr : Arr} (hread : w.read path = some data)
    (harr : decoded w path data = some arr) :
    Accepts w min_faces G path ↔
      min_faces ≤ (detect w arr).length ∧ passes G path arr (detect w arr) := by
  constructor
  · rintro ⟨data', arr', hread', harr', h⟩
    obtain rfl := Option.some.inj (hread.symm.trans hread')
    obtain rfl := Option.some.inj (harr.symm.trans harr')
    exact h
  · exact fun h => ⟨data, arr, hread, harr, h⟩

theorem not_accepts {w : World Arr} {min_faces : ℕ} {G : List (Run Arr V Bool)} {path : Path}
    (h : ∀ data, w.read path = some data → decoded w path data = none) :
    ¬ Accepts w min_faces G path := by
  rintro ⟨data, arr, hread, harr, -⟩
  rw [h data hread] at harr
  cases harr

theorem baseline_decides (w : World Arr) (min_faces : ℕ) {G : List (Run Arr V Bool)}
    (hG : ∀ f ∈ G, ReadsOnly f) (path : Path) :
    Decides (baseline w min_faces ++ G) (fun _ => True) path (Accepts w min_faces G path) := by
  refine ⟨fun s _ => ?_, fun _ _ => trivial⟩
  change ((run_filters (SimpleReadFilter w :: DecodeFilter w ::
    FaceDetectorFilter.call w ⟨min_faces⟩ :: G)).run.run (s.next path)).1 = _ ↔ _
  cases hread : w.read path with
  | none =>
      have hstop := verdict_stop (read_fails w (s := s.next path) hread) nofun
      have hnone : ∀ data, w.read path = some data → decoded w path data = none := by
        intro data hdata
        rw [hread] at hdata
        cases hdata
      exact iff_of_false (hstop _) (not_accepts hnone)
  | some data =>
      let s₁ : Session Arr V :=
        ⟨{ src := path, data := some data }, s.bytes_from_disk + data.length, s.socket⟩
      have hfirst : (SimpleReadFilter w).run.run (s.next path) = (.ok true, s₁) := read_run w hread
      refine (verdict_pass hfirst _).trans ?_
      cases harr : decoded w path data with
      | none =>
          obtain ⟨e, hfail⟩ := decode_fails w (s := s₁) rfl harr
          refine iff_of_false (verdict_stop hfail nofun _) (not_accepts fun data' hdata' => ?_)
          rw [hread] at hdata'
          cases hdata'
          exact harr
      | some arr =>
          let s₂ : Session Arr V := { s₁ with item := { s₁.item with array := some arr } }
          have hsecond : (DecodeFilter w).run.run s₁ = (.ok true, s₂) := decode_run w rfl harr
          refine (verdict_pass hsecond _).trans ?_
          rw [accepts_iff hread harr]
          have hrun := @detect_run Arr V w min_faces s₂ arr rfl
          rw [verdict_decide hrun]
          exact and_congr_right fun _ => tail_verdict hG ⟨rfl, rfl, rfl⟩

/-- The emulator answers a face request with the profiled boxes. -/
theorem emulator_face {cfg : Config} (hcfg : Measured cfg) (stamp : List Request → ℚ × ℚ)
    {path : Path} {d : ℚ} {boxes : List Box} (hdecodable : decodable cfg path = true)
    (hface : cfg.face_lut (basename path) = some (d, boxes)) (sent : List Request)
    (timestamp : ℚ) :
    ∃ response, emulator cfg stamp (sent ++ [face_request timestamp path]) =
      .ok response ∧ response.value.face_boxes = some boxes := by
  have hsome : (cfg.face_lut (basename path)).isSome = true := by rw [hface]; rfl
  have hop : (face_request timestamp path).opcode = OP_DECODE_FACE := rfl
  obtain ⟨d₁, d₂, d₃, hperform⟩ := perform_decode_face hcfg none hop hdecodable hsome
  have hresult : (alone ((loads (face_request timestamp path)).bind fun payload =>
      perform cfg (face_request timestamp path) payload) {}).result =
        .ok (profiled_boxes cfg (face_request timestamp path)) := by
    change (alone (perform cfg _ none) {}).result = _
    rw [hperform]
    rfl
  let requests := sent ++ [face_request timestamp path]
  refine ⟨⟨(stamp requests).1, (stamp requests).2,
    ⟨OP_DECODE_FACE, profiled_boxes cfg (face_request timestamp path)⟩⟩, ?_, ?_⟩
  · unfold emulator
    rw [List.getLast?_concat]
    simp only [hresult]
    rfl
  · change profiled_boxes cfg (face_request timestamp path) = _
    unfold profiled_boxes
    rw [if_pos hop]
    exact congrArg (Option.map Prod.snd) hface

theorem decode_face_run {ss_client : SmartStorageClient Arr} {server : List Request → Body}
    {timestamp : ℚ} {imread : Path → Except Exn (Option Arr)} {path : Path} {arr : Option Arr}
    {boxes : List Box} {response : Response} {s : Socket} (h : s.awaiting = false)
    (hload : ss_client.load_decoded imread path = .ok arr)
    (hserver : server (s.sent ++ [face_request timestamp path]) = .ok response)
    (hboxes : response.value.face_boxes = some boxes) :
    (ss_client.decode_face server timestamp imread path).run.run s = (.ok (arr, boxes),
      (s.send (face_request timestamp path)).recv server) := by
  have hexchange := exchange_loads server (face_request timestamp path) hload h
  rw [hserver] at hexchange
  unfold SmartStorageClient.decode_face
  rw [bind_ok hexchange]
  simp only [hboxes]
  rfl

variable {cfg : Config} {w : World Arr} {ss_client : SmartStorageClient Arr}

/-- What `SmartFaceFilter` gets for a picture with its mirror image in the directory. -/
theorem read_decode_face_run (hcfg : Measured cfg) (stamp : List Request → ℚ × ℚ) {path : Path}
    (h : Mirrored cfg w ss_client path) {data : Bytes} (hread : w.read path = some data)
    {s : Session Arr V} (hs : s.socket.awaiting = false) :
    ∃ boxes socket, (∀ arr, decoded w path data = some arr → boxes = detect w arr) ∧
      socket.awaiting = false ∧
      (read_decode_face w (emulator cfg stamp) ss_client path).run.run s =
        (.ok (decoded w path data, boxes), { s with socket := socket }) := by
  obtain ⟨d, boxes, hface, hdetect⟩ := h.profiled
  obtain ⟨response, hserver, hboxes⟩ :=
    emulator_face hcfg stamp h.decodable hface s.socket.sent (w.time s.socket.sent)
  have hrun := decode_face_run hs (h.ppm data hread) hserver hboxes
  refine ⟨boxes, (s.socket.send (face_request (w.time s.socket.sent) path)).recv
    (emulator cfg stamp), fun arr harr => hdetect data arr hread harr, rfl, ?_⟩
  unfold read_decode_face
  rw [bind_ok (liftM_ok (read_real_ok hread) s), get_bind]
  change ((StateT.run (ExceptT.run (SmartStorageClient.decode_face _ _ _ _ _)) s.socket).1, _) = _
  rw [hrun]

theorem read_decode_face_fails (server : List Request → Body) {path : Path}
    (hread : w.read path = none) (s : Session Arr V) :
    (read_decode_face w server ss_client path).run.run s = (.error .OSError, s) := by
  unfold read_decode_face
  rw [bind_raises (liftM_raises (read_real_fails hread) s)]

/-- `SmartFaceFilter` accepts a picture with at least one face. -/
theorem smart_run (hcfg : Measured cfg) (stamp : List Request → ℚ × ℚ) {s : Session Arr V}
    (h : Mirrored cfg w ss_client s.item.src) {data : Bytes} {arr : Arr}
    (hread : w.read s.item.src = some data) (harr : decoded w s.item.src data = some arr)
    (hs : s.socket.awaiting = false) (min_faces : ℕ) :
    ∃ bytes socket, socket.awaiting = false ∧
      ((SmartFaceFilter.init ss_client min_faces).call w (emulator cfg stamp)).run.run s =
        (.ok (decide (1 ≤ (detect w arr).length)), ⟨{ s.item with
          array := some arr, face_detection := some (detect w arr) }, bytes, socket⟩) := by
  obtain ⟨boxes, socket, hboxes, hidle, hrun⟩ := read_decode_face_run hcfg stamp h hread hs
  obtain rfl := hboxes arr harr
  rw [harr] at hrun
  refine ⟨s.bytes_from_disk + transmitted_size (detect w arr), socket, hidle, ?_⟩
  unfold SmartFaceFilter.call
  rw [get_bind]
  rw [show (SmartFaceFilter.init ss_client min_faces).ss_client = ss_client from rfl, bind_ok hrun]
  simp only
  rw [bind_ok (set_array_run arr _)]
  rfl

/-- An unreadable picture, or one that cannot be decoded, raises and leaves the socket idle. -/
theorem smart_fails (hcfg : Measured cfg) (stamp : List Request → ℚ × ℚ) {s : Session Arr V}
    (h : Mirrored cfg w ss_client s.item.src)
    (hnone : ∀ data, w.read s.item.src = some data → decoded w s.item.src data = none)
    (hs : s.socket.awaiting = false) (min_faces : ℕ) :
    ∃ e s', s'.socket.awaiting = false ∧
      ((SmartFaceFilter.init ss_client min_faces).call w (emulator cfg stamp)).run.run s =
        (.error e, s') := by
  unfold SmartFaceFilter.call
  rw [get_bind]
  cases hread : w.read s.item.src with
  | none =>
      exact ⟨_, s, hs, bind_raises (read_decode_face_fails (emulator cfg stamp) hread s) _⟩
  | some data =>
      obtain ⟨boxes, socket, -, hidle, hrun⟩ := read_decode_face_run hcfg stamp h hread hs
      rw [hnone data hread] at hrun
      refine ⟨.AssertionError, { s with socket := socket }, hidle, ?_⟩
      rw [show (SmartFaceFilter.init ss_client min_faces).ss_client = ss_client from rfl,
        bind_ok hrun]
      simp only
      rw [bind_raises (set_array_none _)]

theorem smart_decides (hcfg : Measured cfg) (stamp : List Request → ℚ × ℚ) (min_faces : ℕ)
    {G : List (Run Arr V Bool)} (hG : ∀ f ∈ G, ReadsOnly f) {path : Path}
    (h : Mirrored cfg w ss_client path) :
    Decides (smart w (emulator cfg stamp) ss_client min_faces ++ G)
      (fun s => s.socket.awaiting = false) path (Accepts w 1 G path) := by
  by_cases hnone : ∀ data, w.read path = some data → decoded w path data = none
  · have hfail := fun (s : Session Arr V) hs =>
      @smart_fails Arr V cfg w ss_client hcfg stamp (s.next path) h hnone hs min_faces
    refine ⟨fun s hs => ?_, fun s hs => ?_⟩
    · obtain ⟨e, s', -, hrun⟩ := hfail s hs
      exact iff_of_false (verdict_stop hrun nofun G) (not_accepts hnone)
    · obtain ⟨e, s', hidle, hrun⟩ := hfail s hs
      change ((run_filters (_ :: G)).run.run (s.next path)).2.socket.awaiting = false
      rw [run_filters_cons, hrun]
      exact hidle
  · obtain ⟨data, hread, harr⟩ : ∃ data, w.read path = some data ∧ decoded w path data ≠ none := by
      simpa using hnone
    obtain ⟨arr, harr⟩ := Option.ne_none_iff_exists'.mp harr
    have hok := fun (s : Session Arr V) hs =>
      @smart_run Arr V cfg w ss_client hcfg stamp (s.next path) h data arr hread harr hs min_faces
    refine ⟨fun s hs => ?_, fun s hs => ?_⟩
    · obtain ⟨bytes, socket, -, hrun⟩ := hok s hs
      refine (verdict_decide hrun G).trans ?_
      rw [accepts_iff hread harr]
      exact and_congr_right fun _ => tail_verdict hG ⟨rfl, rfl, rfl⟩
    · obtain ⟨bytes, socket, hidle, hrun⟩ := hok s hs
      change ((run_filters (_ :: G)).run.run (s.next path)).2.socket.awaiting = false
      rw [run_filters_cons, hrun]
      cases decide (1 ≤ (detect w arr).length) with
      | false => exact hidle
      | true =>
          change ((run_filters G).run.run _).2.socket.awaiting = false
          rw [(readsOnly_run_filters hG).socket]
          exact hidle

/-- On mirrored pictures the two pipelines accept the same paths if and only if the tail rejects
every picture that has a face but fewer than `min_faces`. -/
theorem accepted_agree_iff {cfg : Config} {w : World Arr} {ss_client : SmartStorageClient Arr}
    (hcfg : Measured cfg) (stamp : List Request → ℚ × ℚ) {min_faces : ℕ} (hmin : 1 ≤ min_faces)
    {G : List (Run Arr V Bool)} (hG : ∀ f ∈ G, ReadsOnly f) {images : List Path}
    (himages : ∀ path ∈ images, Mirrored cfg w ss_client path) :
    accepted (smart w (emulator cfg stamp) ss_client min_faces ++ G) images .initial =
        accepted (baseline w min_faces ++ G) images .initial ↔
      ∀ path ∈ images, ∀ data arr, w.read path = some data → decoded w path data = some arr →
        1 ≤ (detect w arr).length → (detect w arr).length < min_faces →
          ¬ passes G path arr (detect w arr) := by
  rw [accepted_eq_iff images
    (fun path hpath => smart_decides hcfg stamp min_faces hG (himages path hpath))
    (fun path _ => baseline_decides w min_faces hG path) rfl trivial]
  refine forall₂_congr fun path _ => ?_
  constructor
  · intro h data arr hread harr hface hfew hpass
    have hboth := h.mp ((accepts_iff hread harr).mpr ⟨hface, hpass⟩)
    have henough := ((accepts_iff hread harr).mp hboth).1
    omega
  · intro h
    constructor
    · rintro ⟨data, arr, hread, harr, hface, hpass⟩
      have hnot := fun hfew => h data arr hread harr hface hfew hpass
      exact ⟨data, arr, hread, harr, not_lt.mp hnot, hpass⟩
    · rintro ⟨data, arr, hread, harr, henough, hpass⟩
      exact ⟨data, arr, hread, harr, hmin.trans henough, hpass⟩

/-- A directory in which every file is the picture of one face. -/
def portraits : World Unit where
  read _ := some []
  imread _ := .ok (some ())
  imdecode _ := some ()
  np_load _ := .error .ValueError
  height _ := 10
  width _ := 10
  forward _ := [⟨9 / 10, 0, 0, 2 / 5, 1 / 2⟩, ⟨1 / 2, 0, 0, 1, 1⟩]
  time _ := 0

def portraitClient : SmartStorageClient Unit := ⟨[], "/d".toList, "/ppm".toList, none⟩

/-- A run of one worker over one portrait. -/
def portrait (filters : List (Run Unit Unit Bool)) : List Path :=
  accepted filters ["/d/a.jpg".toList] .initial

/-- Two faces are asked for, one is enough for `SmartFaceFilter`. -/
theorem oneFace_of_two :
    portrait (smart portraits (emulator oneFace fun _ => (0, 0)) portraitClient 2) ≠
      portrait (baseline portraits 2) := by
  decide +kernel

/-- `b.jpg` is the picture of two faces, all other files are of one. -/
def family : World Bool where
  read path := some [if basename path = "b.jpg".toList then 1 else 0]
  imread path := .ok (some (basename path = "b.ppm".toList))
  imdecode data := some (data = [1])
  np_load _ := .error .ValueError
  height _ := 10
  width _ := 10
  forward couple :=
    if couple then [⟨9 / 10, 0, 0, 2 / 5, 1 / 2⟩, ⟨17 / 20, 1 / 2, 0, 1, 1 / 2⟩]
    else [⟨9 / 10, 0, 0, 2 / 5, 1 / 2⟩, ⟨1 / 2, 0, 0, 1, 1⟩]
  time _ := 0

def familyClient : SmartStorageClient Bool := ⟨[], "/d".toList, "/ppm".toList, none⟩

/-- The profiles of two of its files. -/
def familyProfiles : Config where
  decoder_lut p :=
    if p = "a.jpg".toList ∨ p = "b.jpg".toList then some (1 / 10000, 10, 10) else none
  face_lut p :=
    if p = "a.jpg".toList then some (1 / 100, [⟨0, 0, 4, 5⟩])
    else if p = "b.jpg".toList then some (1 / 50, [⟨0, 0, 4, 5⟩, ⟨5, 0, 10, 5⟩]) else none
  frame_size _ := (0, 0)
  target_fps := 480
  target_mbyteps := 2000
  num_decoder := 1
  num_decoder_pos := Nat.one_pos
  run_ahead := 58 / 100000

theorem measured_familyProfiles : Measured familyProfiles where
  decoding p d w h hlut := by
    obtain ⟨-, hlut⟩ := Option.ite_none_right_eq_some.mp hlut
    cases hlut
    decide +kernel
  detection p d boxes hlut := by
    change (if p = "a.jpg".toList then _ else _) = _ at hlut
    by_cases ha : p = "a.jpg".toList
    · rw [if_pos ha] at hlut
      cases hlut
      decide +kernel
    · rw [if_neg ha] at hlut
      obtain ⟨-, hlut⟩ := Option.ite_none_right_eq_some.mp hlut
      cases hlut
      decide +kernel
  frames _ := ⟨le_rfl, le_rfl⟩
  target_fps := by decide +kernel
  target_mbyteps := by decide +kernel

/-- What is to be checked for a file that can be read and decoded. -/
theorem Mirrored.of_read {cfg : Config} {w : World Arr} {ss_client : SmartStorageClient Arr}
    {path : Path} (data : Bytes) (arr : Arr) (d : ℚ) (hread : w.read path = some data)
    (harr : decoded w path data = some arr)
    (hppm : ss_client.load_decoded w.imread path = .ok (some arr))
    (hdecodable : RequestDelivery.decodable cfg path = true)
    (hlut : cfg.face_lut (basename path) = some (d, detect w arr)) :
    Mirrored cfg w ss_client path where
  ppm data' h := by
    obtain rfl := Option.some.inj (hread.symm.trans h)
    rw [hppm, harr]
  decodable := hdecodable
  profiled := by
    refine ⟨d, detect w arr, hlut, fun data' arr' h harr' => ?_⟩
    obtain rfl := Option.some.inj (hread.symm.trans h)
    rw [Option.some.inj (harr.symm.trans harr')]

theorem mirrored_a : Mirrored familyProfiles family familyClient "/d/a.jpg".toList := by
  refine .of_read [0] false (1 / 100) ?_ ?_ ?_ ?_ ?_ <;> decide +kernel

theorem mirrored_b : Mirrored familyProfiles family familyClient "/d/b.jpg".toList := by
  refine .of_read [1] true (1 / 50) ?_ ?_ ?_ ?_ ?_ <;> decide +kernel

/-- A filter behind the chain that counts the boxes for itself. -/
def twoBoxes : Run Bool Unit Bool := do
  let s ← get
  pure (decide (2 ≤ (s.item.face_detection.getD []).length))

theorem readsOnly_twoBoxes : ReadsOnly twoBoxes where
  result s t h := by
    change Except.ok (decide (2 ≤ (s.item.face_detection.getD []).length)) = _
    rw [h.face_detection]
    rfl
  agree _ _ h := h
  socket _ := rfl

def familyPictures : List Path := ["/d/a.jpg".toList, "/d/b.jpg".toList]

/-- `SmartFaceFilter` lets the single face pass, and the count behind it does not. -/
theorem accepted_agree_iff_family :
    accepted (baseline family 2 ++ [twoBoxes]) familyPictures .initial =
        ["/d/b.jpg".toList] ∧
      accepted (smart family (emulator familyProfiles fun _ => (0, 0)) familyClient 2 ++
          [twoBoxes]) familyPictures .initial =
        accepted (baseline family 2 ++ [twoBoxes]) familyPictures .initial := by
  refine ⟨by decide +kernel, ?_⟩
  refine (accepted_agree_iff measured_familyProfiles (fun _ => (0, 0)) one_le_two
    (List.forall_mem_singleton.mpr readsOnly_twoBoxes) ?_).mpr ?_
  · intro path hpath
    rcases List.mem_pair.mp hpath with rfl | rfl
    · exact mirrored_a
    · exact mirrored_b
  · intro path _ data arr _ _ _ hfew hpass
    -- the tail counts the same boxes
    have hcount : 2 ≤ (detect family arr).length :=
      ((verdict_decide (f := twoBoxes) (s := viewing path arr (detect family arr)) rfl []).mp
        hpass).1
    exact absurd hcount (not_le.mpr hfew)

end SmartDisk.FaceFilters
