import SmartDisk.FaceFilters

/-!
# Three pipelines for pictures

The baseline reads a picture and decodes it (`filter/reader.py`, `filter/decoder.py`).
`SmartReadFilter` of `filter/smart_storage.py` reads the file through the smart disk's client,
and `SmartDecodeFilter` gets the picture from it: the client reads the file for real, throws it
away, and loads the stored picture while the emulator decodes. A workload has the same filters
behind each of the three.
-/
namespace SmartDisk.DecodePipelines
open RequestDelivery SmartClient KeptState FaceFilters
open EventSolo (alone)
open AnsweredOnce (oneFace measured_oneFace)
open StorageSim hiding get set Exn

variable {Arr V : Type}

/-- The client's `read` is `_read_real`. -/
def SmartReadFilter (w : World Arr) : Run Arr V Bool := do
  let s ← get
  let content ← liftM (read_real w s.item.src)
  modify fun s => { s with item := { s.item with data := some content } }
  modify fun s => { s with bytes_from_disk := s.bytes_from_disk + content.length }
  pure true

/-- `arr.size` of a picture with three channels. -/
def size (w : World Arr) (arr : Arr) : ℕ := w.height arr * w.width arr * 3

def decode_request (timestamp : ℚ) (path : Path) : Request :=
  ⟨timestamp, OP_DECODEONLY, path, 0, none⟩

/-- The client's `read_decode`. -/
def read_decode (w : World Arr) (server : List Request → Body)
    (ss_client : SmartStorageClient Arr) (path : Path) : Run Arr V (Option Arr) := do
  let _ ← liftM (read_real w path)
  let s ← get
  onSocket (ss_client.decode_only server (w.time s.socket.sent) w.imread path)

def SmartDecodeFilter (w : World Arr) (server : List Request → Body)
    (ss_client : SmartStorageClient Arr) : Run Arr V Bool := do
  let s ← get
  let arr ← read_decode w server ss_client s.item.src
  set_array arr
  modify fun s => { s with bytes_from_disk := s.bytes_from_disk + arr.elim 0 (size w) }
  pure true

def baseline_decode (w : World Arr) : List (Run Arr V Bool) := [SimpleReadFilter w, DecodeFilter w]

def smart_read (w : World Arr) : List (Run Arr V Bool) := [SmartReadFilter w, DecodeFilter w]

def smart_decode (w : World Arr) (server : List Request → Body)
    (ss_client : SmartStorageClient Arr) : List (Run Arr V Bool) :=
  [SmartDecodeFilter w server ss_client]

/-! ### What the filters behind them see -/

/-- The picture that the baseline decodes. -/
def picture (w : World Arr) (path : Path) : Option Arr := (w.read path).bind (decoded w path)

/-- The picture in the directory of decoded ones, for a file that can be read. -/
def stored (w : World Arr) (ss_client : SmartStorageClient Arr) (path : Path) : Option Arr :=
  (w.read path).bind fun _ => (ss_client.load_decoded w.imread path).toOption.join

/-- The emulator knows the file, and reading the stored picture does not raise. -/
def Answered (cfg : Config) (w : World Arr) (ss_client : SmartStorageClient Arr) (path : Path) :
    Prop :=
  (w.read path).isSome → decodable cfg path = true ∧
    ∃ arr, ss_client.load_decoded w.imread path = .ok arr

/-- A session that shows this picture. -/
def showing (path : Path) (arr : Arr) : Session Arr V :=
  ⟨{ src := path, array := some arr }, 0, {}⟩

/-- There is a picture, and the tail of the chain lets it pass. -/
def Shown (G : List (Run Arr V Bool)) (path : Path) (arr : Option Arr) : Prop :=
  ∃ a ∈ arr, ((run_filters G).run.run (showing path a)).1 = .ok true

theorem shown_none (G : List (Run Arr V Bool)) (path : Path) : ¬ Shown G path none := by
  rintro ⟨a, ha, -⟩
  cases ha

theorem shown_some {G : List (Run Arr V Bool)} {path : Path} {arr : Arr} :
    Shown G path (some arr) ↔ ((run_filters G).run.run (showing path arr)).1 = .ok true := by
  unfold Shown
  simp

/-- The chain behind the picture. -/
theorem tail_shown {G : List (Run Arr V Bool)} (hG : ∀ f ∈ G, ReadsOnly f) {path : Path}
    {arr : Arr} {s : Session Arr V} (h : Agree s (showing path arr)) :
    ((run_filters G).run.run s).1 = .ok true ↔ Shown G path (some arr) := by
  rw [shown_some, (readsOnly_run_filters hG).result s _ h]

theorem baseline_decides (w : World Arr) {G : List (Run Arr V Bool)} (hG : ∀ f ∈ G, ReadsOnly f)
    (path : Path) :
    Decides (baseline_decode w ++ G) (fun _ => True) path (Shown G path (picture w path)) := by
  refine ⟨fun s _ => ?_, fun _ _ => trivial⟩
  change ((run_filters (SimpleReadFilter w :: DecodeFilter w :: G)).run.run (s.next path)).1 = _ ↔ _
  unfold picture
  cases hread : w.read path with
  | none =>
      have hstop := verdict_stop (read_fails w (s := s.next path) hread) nofun
      exact iff_of_false (hstop _) (shown_none G path)
  | some data =>
      let s₁ : Session Arr V :=
        ⟨{ src := path, data := some data }, s.bytes_from_disk + data.length, s.socket⟩
      have hfirst : (SimpleReadFilter w).run.run (s.next path) = (.ok true, s₁) := read_run w hread
      refine (verdict_pass hfirst _).trans ?_
      change _ ↔ Shown G path (decoded w path data)
      cases harr : decoded w path data with
      | none =>
          obtain ⟨e, hfail⟩ := decode_fails w (s := s₁) rfl harr
          exact iff_of_false (verdict_stop hfail nofun _) (shown_none G path)
      | some arr =>
          let s₂ : Session Arr V := { s₁ with item := { s₁.item with array := some arr } }
          have hsecond : (DecodeFilter w).run.run s₁ = (.ok true, s₂) := decode_run w rfl harr
          exact (verdict_pass hsecond _).trans (tail_shown hG ⟨rfl, rfl, rfl⟩)

/-- Through the client the same file is read. -/
theorem smart_read_eq (w : World Arr) :
    (smart_read w : List (Run Arr V Bool)) = baseline_decode w := by
  have hread : (SmartReadFilter w : Run Arr V Bool) = SimpleReadFilter w := by
    funext s
    change (SmartReadFilter w).run.run s = (SimpleReadFilter w).run.run s
    cases hread : w.read s.item.src with
    | none =>
        rw [read_fails w hread]
        unfold SmartReadFilter
        rw [get_bind, bind_raises (liftM_raises (read_real_fails hread) s)]
    | some data =>
        rw [read_run w hread]
        unfold SmartReadFilter
        rw [get_bind, bind_ok (liftM_ok (read_real_ok hread) s)]
        rfl
  unfold smart_read baseline_decode
  rw [hread]

/-! ### The stored picture -/

/-- The emulator answers a decode request for a file that it knows. -/
theorem emulator_decode {cfg : Config} (hcfg : Measured cfg) (stamp : List Request → ℚ × ℚ)
    {path : Path} (hdecodable : decodable cfg path = true) (sent : List Request) (timestamp : ℚ) :
    ∃ response, emulator cfg stamp (sent ++ [decode_request timestamp path]) = .ok response := by
  have hop : (decode_request timestamp path).opcode = OP_DECODEONLY := rfl
  obtain ⟨d, d', hperform⟩ := perform_decode_only hcfg none hop hdecodable
  have hresult : (alone ((loads (decode_request timestamp path)).bind fun payload =>
      perform cfg (decode_request timestamp path) payload) {}).result = .ok none := by
    change (alone (perform cfg _ none) {}).result = _
    rw [hperform]
    rfl
  unfold emulator
  rw [List.getLast?_concat]
  simp only [hresult]
  exact ⟨_, rfl⟩

theorem decode_only_run {ss_client : SmartStorageClient Arr} {server : List Request → Body}
    {timestamp : ℚ} {imread : Path → Except Exn (Option Arr)} {path : Path} {arr : Option Arr}
    {response : Response} {s : Socket} (h : s.awaiting = false)
    (hload : ss_client.load_decoded imread path = .ok arr)
    (hserver : server (s.sent ++ [decode_request timestamp path]) = .ok response) :
    (ss_client.decode_only server timestamp imread path).run.run s =
      (.ok arr, (s.send (decode_request timestamp path)).recv server) := by
  have hexchange := exchange_loads server (decode_request timestamp path) hload h
  rw [hserver] at hexchange
  unfold SmartStorageClient.decode_only
  exact bind_ok hexchange _

variable {cfg : Config} {w : World Arr} {ss_client : SmartStorageClient Arr}

theorem read_decode_run (hcfg : Measured cfg) (stamp : List Request → ℚ × ℚ) {path : Path}
    (hdecodable : decodable cfg path = true) {data : Bytes} (hread : w.read path = some data)
    {arr : Option Arr} (hload : ss_client.load_decoded w.imread path = .ok arr)
    {s : Session Arr V} (hs : s.socket.awaiting = false) :
    ∃ socket, socket.awaiting = false ∧
      (read_decode w (emulator cfg stamp) ss_client path).run.run s =
        (.ok arr, { s with socket := socket }) := by
  obtain ⟨response, hserver⟩ :=
    emulator_decode hcfg stamp hdecodable s.socket.sent (w.time s.socket.sent)
  have hrun := decode_only_run hs hload hserver
  refine ⟨(s.socket.send (decode_request (w.time s.socket.sent) path)).recv
    (emulator cfg stamp), rfl, ?_⟩
  unfold read_decode
  rw [bind_ok (liftM_ok (read_real_ok hread) s), get_bind]
  change ((StateT.run (ExceptT.run (SmartStorageClient.decode_only _ _ _ _ _)) s.socket).1, _) = _
  rw [hrun]

/-- Whatever happens to the picture, the socket is idle again. -/
theorem smart_run (hcfg : Measured cfg) (stamp : List Request → ℚ × ℚ) {s : Session Arr V}
    (h : Answered cfg w ss_client s.item.src) (hs : s.socket.awaiting = false) :
    ∃ s', s'.socket.awaiting = false ∧
      match stored w ss_client s.item.src with
      | some arr => s'.item = { s.item with array := some arr } ∧
          (SmartDecodeFilter w (emulator cfg stamp) ss_client).run.run s = (.ok true, s')
      | none => ∃ e,
          (SmartDecodeFilter w (emulator cfg stamp) ss_client).run.run s = (.error e, s') := by
  unfold stored SmartDecodeFilter
  rw [get_bind]
  cases hread : w.read s.item.src with
  | none =>
      have hfail : (read_decode w (emulator cfg stamp) ss_client s.item.src).run.run s =
          (.error .OSError, s) := by
        unfold read_decode
        rw [bind_raises (liftM_raises (read_real_fails hread) s)]
      exact ⟨s, hs, .OSError, bind_raises hfail _⟩
  | some data =>
      obtain ⟨hdecodable, arr, hload⟩ := h (by rw [hread]; rfl)
      obtain ⟨socket, hidle, hrun⟩ := read_decode_run hcfg stamp hdecodable hread hload hs
      rw [hload, bind_ok hrun]
      cases arr with
      | none => exact ⟨_, hidle, .AssertionError, bind_raises (set_array_none _) _⟩
      | some arr => exact ⟨⟨{ s.item with array := some arr }, _, socket⟩, hidle, rfl, rfl⟩

theorem smart_decides (hcfg : Measured cfg) (stamp : List Request → ℚ × ℚ)
    {G : List (Run Arr V Bool)} (hG : ∀ f ∈ G, ReadsOnly f) {path : Path}
    (h : Answered cfg w ss_client path) :
    Decides (smart_decode w (emulator cfg stamp) ss_client ++ G)
      (fun s => s.socket.awaiting = false) path (Shown G path (stored w ss_client path)) := by
  constructor
  · intro s hs
    change ((run_filters (_ :: G)).run.run (s.next path)).1 = _ ↔ _
    obtain ⟨s', -, hrun⟩ := smart_run hcfg stamp (s := s.next path) h hs
    change match stored w ss_client path with | some arr => _ | none => _ at hrun
    cases hstored : stored w ss_client path with
    | none =>
        rw [hstored] at hrun
        obtain ⟨e, hrun⟩ := hrun
        exact iff_of_false (verdict_stop hrun nofun G) (shown_none G path)
    | some arr =>
        rw [hstored] at hrun
        obtain ⟨hitem, hrun⟩ := hrun
        refine (verdict_pass hrun G).trans (tail_shown hG ?_)
        constructor <;> rw [hitem] <;> rfl
  · intro s hs
    change ((run_filters (_ :: G)).run.run (s.next path)).2.socket.awaiting = false
    obtain ⟨s', hidle, hrun⟩ := smart_run hcfg stamp (s := s.next path) h hs
    rw [run_filters_cons]
    cases hstored : stored w ss_client (s.next path).item.src with
    | none =>
        rw [hstored] at hrun
        obtain ⟨e, hrun⟩ := hrun
        rw [hrun]
        exact hidle
    | some arr =>
        rw [hstored] at hrun
        rw [hrun.2]
        exact (congrArg Socket.awaiting ((readsOnly_run_filters hG).socket s')).trans hidle

/-! ### The three pipelines -/

section
open Classical

/-- A filter that passes one picture. -/
noncomputable def only (arr : Arr) : Run Arr V Bool := fun s =>
  (.ok (decide (s.item.array = some arr)), s)

theorem only_readsOnly (arr : Arr) : ReadsOnly (only arr : Run Arr V Bool) where
  result s t h := by
    change Except.ok (decide (s.item.array = _)) = _
    rw [h.array]
    rfl
  agree _ _ h := h
  socket _ := rfl

theorem shown_only {arr : Arr} {path : Path} {shown : Option Arr} :
    Shown [(only arr : Run Arr V Bool)] path shown ↔ shown = some arr := by
  cases shown with
  | none => exact iff_of_false (shown_none _ path) nofun
  | some a =>
      have hrun : (only arr : Run Arr V Bool).run.run (showing path a) =
          (.ok (decide (some a = some arr)), showing path a) := rfl
      rw [shown_some, verdict_decide hrun]
      exact and_iff_left rfl

end

/-- Reading through the client makes no difference. When the emulator knows the files, decoding
through the client makes none for any filters behind it if and only if each file has the picture
in the directory that the baseline decodes, or both have none. -/
theorem decode_pipelines_agree (hcfg : Measured cfg) (stamp : List Request → ℚ × ℚ)
    {images : List Path} (himages : ∀ path ∈ images, Answered cfg w ss_client path) :
    (∀ G : List (Run Arr V Bool),
      accepted (smart_read w ++ G) images .initial =
        accepted (baseline_decode w ++ G) images .initial) ∧
    ((∀ G : List (Run Arr V Bool), (∀ f ∈ G, ReadsOnly f) →
      accepted (smart_decode w (emulator cfg stamp) ss_client ++ G) images .initial =
        accepted (baseline_decode w ++ G) images .initial) ↔
      ∀ path ∈ images, stored w ss_client path = picture w path) := by
  refine ⟨fun G => by rw [smart_read_eq], ?_⟩
  have hagree : ∀ G : List (Run Arr V Bool), (∀ f ∈ G, ReadsOnly f) →
      (accepted (smart_decode w (emulator cfg stamp) ss_client ++ G) images .initial =
          accepted (baseline_decode w ++ G) images .initial ↔
        ∀ path ∈ images, (Shown G path (stored w ss_client path) ↔
          Shown G path (picture w path))) := by
    intro G hG
    exact accepted_eq_iff images
      (fun path hpath => smart_decides hcfg stamp hG (himages path hpath))
      (fun path _ => baseline_decides w hG path) rfl trivial
  constructor
  · intro h path hpath
    refine Option.ext fun arr => ?_
    have hG : ∀ f ∈ [(only arr : Run Arr V Bool)], ReadsOnly f := by
      intro f hf
      rw [List.mem_singleton.mp hf]
      exact only_readsOnly arr
    have hshown := (hagree _ hG).mp (h _ hG) path hpath
    rw [shown_only, shown_only] at hshown
    exact hshown
  · intro h G hG
    refine (hagree G hG).mpr fun path hpath => ?_
    rw [h path hpath]

/-- One picture, and a file that is not there. -/
def oneRead : World Unit := { portraits with
  read := fun path => if path = "/d/a.jpg".toList then some [] else none }

theorem decode_pipelines_agree_missing :
    accepted (smart_decode oneRead (emulator oneFace fun _ => (0, 0)) portraitClient ++
        ([] : List (Run Unit Unit Bool))) ["/d/b.jpg".toList, "/d/a.jpg".toList] .initial =
      ["/d/a.jpg".toList] := by
  rw [(decode_pipelines_agree measured_oneFace (fun _ => (0, 0)) ?_).2.mpr ?_ []
    (List.forall_mem_nil _)]
  · decide +kernel
  · refine List.forall_mem_cons.mpr ⟨fun hsome => ?_, List.forall_mem_singleton.mpr fun _ => ?_⟩
    · revert hsome
      decide +kernel
    · exact ⟨by decide +kernel, some (), rfl⟩
  · refine List.forall_mem_cons.mpr ⟨?_, List.forall_mem_singleton.mpr ?_⟩ <;> decide +kernel

end SmartDisk.DecodePipelines
