import SmartDisk.DecoderQueue
import SmartDisk.KeptState

/-!
# The client of the emulated smart disk

`SmartStorageClient` of `s3dexp/sim/client.py` sends a request, loads the decoded
picture while the server simulates, and waits for the response. Its socket is a
`zmq.REQ`: send and receive have to alternate, anything else raises `ZMQError`.
An exception between the two leaves a request without its response.

What `cv2.imread` finds may differ from call to call. A response is what
`ParseFromString` makes of the message, or the exception it raises. Logging and
`late_by` are left out.
-/
namespace SmartDisk.SmartClient
open StorageSim hiding get set
open KeptState

/-! ### Paths -/

/-- `os.path.join`. -/
def join (a b : Path) : Path :=
  if b.head? = some '/' then b
  else if a = [] ∨ a.getLast? = some '/' then a ++ b
  else a ++ '/' :: b

/-- `os.path.splitext`. Dots at the beginning of the name start no extension. -/
def splitext (p : Path) : Path × Path :=
  let name := basename p
  let ext := (name.reverse.takeWhile (· ≠ '.')).reverse
  if (name.take (name.length - ext.length - 1)).any (· ≠ '.') then
    p.splitAt (p.length - ext.length - 1)
  else (p, [])

example : splitext "a.b/c.d.jpg".toList = ("a.b/c.d".toList, ".jpg".toList) ∧
    splitext "a.b/..jpg".toList = ("a.b/..jpg".toList, []) := by decide

/-- `'%06d' % n`. -/
def format06d (n : ℤ) : Path :=
  if n < 0 then '-' :: (Nat.toDigits 10 n.natAbs).leftpad 5 '0'
  else (Nat.toDigits 10 n.natAbs).leftpad 6 '0'

/-! ### The socket -/

inductive Exn where
  | AssertionError | KeyError | ValueError | OSError | DecodeError | ZMQError | cv2_error
  deriving DecidableEq, Repr

abbrev Body := Except Exn Response

/-- The last request has not been answered while `awaiting`. -/
structure Socket where
  awaiting : Bool := false
  sent : List Request := []
  received : List Body := []

/-- The socket keeps its state when a method raises. -/
abbrev Client := ExceptT Exn (StateM Socket)

/-- `_send_reqeust`. -/
def send_reqeust (request : Request) : Client Unit := do
  let s ← get
  if s.awaiting then throw .ZMQError
  set { s with awaiting := true, sent := s.sent ++ [request] }

/-- `_recv_response`. The server's answer may depend on all requests so far. -/
def recv_response (server : List Request → Body) : Client Response := do
  let s ← get
  if ¬ s.awaiting then throw .ZMQError
  set { s with awaiting := false, received := s.received ++ [server s.sent] }
  liftM (server s.sent)

/-! ### The methods -/

/-- `preload_lut` is there only with `preload`. -/
structure SmartStorageClient (Arr : Type) where
  cwd : Path
  map_from_dir : Path
  map_to_ppm_dir : Path
  preload_lut : Option (Path → Option (Option Arr))

section
variable {Arr : Type} (self : SmartStorageClient Arr) (server : List Request → Body)

/-- `_load_decoded`. -/
def SmartStorageClient.load_decoded (imread : Path → Except Exn (Option Arr)) (path : Path) :
    Except Exn (Option Arr) :=
  match DecoderQueue.relpath self.cwd path self.map_from_dir with
  | .error _ => .error .ValueError
  | .ok relpath => imread ((splitext (join self.map_to_ppm_dir relpath)).1 ++ ".ppm".toList)

/-- The second step of `decode_video`. The pictures are counted from 1. -/
def SmartStorageClient.load_frame (imread : Path → Except Exn (Option Arr)) (path : Path)
    (frame_id : ℤ) : Except Exn Arr := do
  let vid_name := (splitext (basename path)).1
  let ppm_path :=
    join (join self.map_to_ppm_dir vid_name) (format06d (frame_id + 1) ++ ".ppm".toList)
  let arr ← match self.preload_lut with
    | some preload_lut => (preload_lut ppm_path).elim (.error .KeyError) .ok
    | none => imread ppm_path
  arr.elim (.error .AssertionError) .ok

/-- The three steps of a method: send, load, receive. -/
def exchange {α : Type} (request : Request) (load : Except Exn α) : Client (α × Response) := do
  send_reqeust request
  let arr ← liftM load
  let response ← recv_response server
  pure (arr, response)

def SmartStorageClient.decode_only (timestamp : ℚ) (imread : Path → Except Exn (Option Arr))
    (path : Path) : Client (Option Arr) := do
  let (arr, _) ← exchange server ⟨timestamp, OP_DECODEONLY, path, 0, none⟩
    (self.load_decoded imread path)
  pure arr

def face_request (timestamp : ℚ) (path : Path) : Request :=
  ⟨timestamp, OP_DECODE_FACE, path, 0, none⟩

def SmartStorageClient.decode_face (timestamp : ℚ) (imread : Path → Except Exn (Option Arr))
    (path : Path) : Client (Option Arr × List Box) := do
  let (arr, response) ← exchange server (face_request timestamp path)
    (self.load_decoded imread path)
  match response.value.face_boxes with
  | some boxes => pure (arr, boxes)
  | none => throw .KeyError

def SmartStorageClient.decode_video (timestamp : ℚ) (imread : Path → Except Exn (Option Arr))
    (path : Path) (frame_id : ℤ) : Client Arr := do
  let (arr, _) ← exchange server ⟨timestamp, OP_DECODE_VIDEO, path, 0, some (.frame frame_id)⟩
    (self.load_frame imread path frame_id)
  pure arr

end

/-! ### Sequences of calls -/

inductive Op where
  | decode_only
  | decode_face
  | decode_video (frame_id : ℤ)

/-- A call, with the time it reads and the pictures it finds. -/
structure Call (Arr : Type) where
  op : Op
  path : Path
  timestamp : ℚ
  imread : Path → Except Exn (Option Arr)

variable {Arr : Type}

def Call.request (c : Call Arr) : Request :=
  match c.op with
  | .decode_only => ⟨c.timestamp, OP_DECODEONLY, c.path, 0, none⟩
  | .decode_face => face_request c.timestamp c.path
  | .decode_video frame_id => ⟨c.timestamp, OP_DECODE_VIDEO, c.path, 0, some (.frame frame_id)⟩

/-- Does loading the decoded array raise? -/
def Call.loads (self : SmartStorageClient Arr) (c : Call Arr) : Except Exn Unit :=
  match c.op with
  | .decode_only | .decode_face => (self.load_decoded c.imread c.path).map fun _ => ()
  | .decode_video frame_id => (self.load_frame c.imread c.path frame_id).map fun _ => ()

def Call.perform (self : SmartStorageClient Arr) (server : List Request → Body) (c : Call Arr) :
    Client Unit :=
  match c.op with
  | .decode_only => do let _ ← self.decode_only server c.timestamp c.imread c.path
  | .decode_face => do let _ ← self.decode_face server c.timestamp c.imread c.path
  | .decode_video frame_id => do
      let _ ← self.decode_video server c.timestamp c.imread c.path frame_id

/-- The caller catches what a call raises and goes on with the next one. -/
def calls (self : SmartStorageClient Arr) (server : List Request → Body) (cs : List (Call Arr))
    (s : Socket) : Socket :=
  cs.foldl (fun s c => ((c.perform self server).run.run s).2) s

/-- Every request has been sent, and the k-th response answers the k-th request. -/
structure Paired (server : List Request → Body) (requests : List Request) (s : Socket) :
    Prop where
  idle : s.awaiting = false
  sent : s.sent = requests
  received : s.received = (List.range requests.length).map fun k => server (requests.take (k + 1))

/-! ### What a call leaves in the socket -/

def Socket.send (s : Socket) (request : Request) : Socket :=
  { s with awaiting := true, sent := s.sent ++ [request] }

def Socket.recv (s : Socket) (server : List Request → Body) : Socket :=
  { s with awaiting := false, received := s.received ++ [server s.sent] }

/-- With a request unanswered nothing is sent, loaded or received. -/
theorem exchange_stuck {α : Type} (server : List Request → Body) (request : Request)
    (load : Except Exn α) {s : Socket} (h : s.awaiting = true) :
    (exchange server request load).run.run s = (.error .ZMQError, s) := by
  obtain ⟨awaiting, sent, received⟩ := s
  cases h
  rfl

theorem exchange_raises {α : Type} (server : List Request → Body) (request : Request)
    {load : Except Exn α} {e : Exn} (hload : load = .error e) {s : Socket}
    (h : s.awaiting = false) :
    (exchange server request load).run.run s = (.error e, s.send request) := by
  obtain ⟨awaiting, sent, received⟩ := s
  cases h
  subst hload
  rfl

theorem exchange_loads {α : Type} (server : List Request → Body) (request : Request)
    {load : Except Exn α} {arr : α} (hload : load = .ok arr) {s : Socket}
    (h : s.awaiting = false) :
    (exchange server request load).run.run s =
      ((server (s.sent ++ [request])).map (arr, ·), (s.send request).recv server) := by
  obtain ⟨awaiting, sent, received⟩ := s
  cases h
  subst hload
  change ((liftM (server (sent ++ [request])) >>= fun r => pure (arr, r) : Client _).run.run
    ⟨false, sent ++ [request], received ++ [server (sent ++ [request])]⟩) = _
  unfold Socket.recv Socket.send
  generalize server (sent ++ [request]) = body
  cases body <;> rfl

theorem exchange_socket {α : Type} (server : List Request → Body) (request : Request)
    (load : Except Exn α) {s : Socket} (h : s.awaiting = false) :
    ((exchange server request load).run.run s).2 =
      match load with
      | .error _ => s.send request
      | .ok _ => (s.send request).recv server := by
  cases load with
  | error e => rw [exchange_raises server request rfl h]
  | ok arr => rw [exchange_loads server request rfl h]

/-- A call in a socket without an unanswered request. -/
theorem perform_socket (self : SmartStorageClient Arr) (server : List Request → Body)
    (c : Call Arr) {s : Socket} (h : s.awaiting = false) :
    ((c.perform self server).run.run s).2 =
      match c.loads self with
      | .error _ => s.send c.request
      | .ok _ => (s.send c.request).recv server := by
  unfold Call.perform Call.loads Call.request
  cases c.op with
  | decode_only =>
      simp only
      rw [bind_state _ fun _ _ => rfl]
      unfold SmartStorageClient.decode_only
      rw [bind_state _ fun _ _ => rfl, exchange_socket server _ _ h]
      cases self.load_decoded c.imread c.path <;> rfl
  | decode_face =>
      simp only
      rw [bind_state _ fun _ _ => rfl]
      unfold SmartStorageClient.decode_face
      have hboxes : ∀ (a : Option Arr × Response) (s : Socket), ((do
          match a.2.value.face_boxes with
          | some boxes => pure (a.1, boxes)
          | none => throw .KeyError : Client (Option Arr × List Box)).run.run s).2 = s := by
        intro a s
        cases a.2.value.face_boxes <;> rfl
      rw [bind_state _ hboxes, exchange_socket server _ _ h]
      cases self.load_decoded c.imread c.path <;> rfl
  | decode_video frame_id =>
      simp only
      rw [bind_state _ fun _ _ => rfl]
      unfold SmartStorageClient.decode_video
      rw [bind_state _ fun _ _ => rfl, exchange_socket server _ _ h]
      cases self.load_frame c.imread c.path frame_id <;> rfl

/-! ### Pairing over a sequence -/

theorem paired_initial (server : List Request → Body) : Paired server [] {} := ⟨rfl, rfl, rfl⟩

theorem Paired.append {server : List Request → Body} {requests : List Request} {s : Socket}
    (h : Paired server requests s) (request : Request) :
    Paired server (requests ++ [request]) ((s.send request).recv server) := by
  refine ⟨rfl, congrArg (· ++ [request]) h.sent, ?_⟩
  change s.received ++ [server (s.sent ++ [request])] = _
  rw [h.received, h.sent, List.length_append, List.length_singleton, List.range_succ,
    List.map_append]
  congr 1
  · apply List.map_congr_left
    intro k hk
    rw [List.take_append_of_le_length (List.mem_range.mp hk)]
  · rw [List.map_singleton, List.take_of_length_le (by simp)]

theorem calls_concat (self : SmartStorageClient Arr) (server : List Request → Body)
    (cs : List (Call Arr)) (c : Call Arr) (s : Socket) :
    calls self server (cs ++ [c]) s =
      ((c.perform self server).run.run (calls self server cs s)).2 :=
  List.foldl_append

theorem paired_of_loads (self : SmartStorageClient Arr) (server : List Request → Body)
    (cs : List (Call Arr)) (h : ∀ c ∈ cs, c.loads self = .ok ()) :
    Paired server (cs.map Call.request) (calls self server cs {}) := by
  induction cs using List.reverseRecOn with
  | nil => exact paired_initial server
  | append_singleton cs c ih =>
      have hcs := ih fun c' hc' => h c' (List.mem_append_left _ hc')
      rw [calls_concat, perform_socket self server c hcs.idle, h c (by simp), List.map_append]
      exact hcs.append c.request

/-- After every call the socket has no unanswered request, every call has sent its own and the
k-th response answers the k-th request, if and only if no call raises while it loads. -/
theorem paired_iff (self : SmartStorageClient Arr) (server : List Request → Body)
    (cs : List (Call Arr)) :
    (∀ sofar, sofar <+: cs →
      Paired server (sofar.map Call.request) (calls self server sofar {})) ↔
        ∀ c ∈ cs, c.loads self = .ok () := by
  constructor
  · intro h c hc
    obtain ⟨before, after, rfl⟩ := List.append_of_mem hc
    have hbefore := h before (List.prefix_append _ _)
    have hafter := h (before ++ [c]) ⟨after, by simp⟩
    have hidle := hafter.idle
    rw [calls_concat, perform_socket self server c hbefore.idle] at hidle
    cases hloads : c.loads self with
    | error e => rw [hloads] at hidle; cases hidle
    | ok _ => rfl
  · intro h sofar hsofar
    exact paired_of_loads self server sofar fun c hc => h c (hsofar.subset hc)

/-- A client without pictures. -/
def emptyDirectory : SmartStorageClient Unit := ⟨[], "/v".toList, "/ppm".toList, none⟩

def frameCall (frame_id : ℤ) : Call Unit :=
  ⟨.decode_video frame_id, "/v/a.mp4".toList, 0, fun _ => .ok none⟩

def acknowledged (_ : List Request) : Body := .ok ⟨0, 0, ⟨OP_DECODE_VIDEO, none⟩⟩

/-- The first frame is missing: its assertion fails before the response is received. -/
theorem missingFrame_unanswered :
    ¬ ∀ sofar, sofar <+: [frameCall 0, frameCall 10] →
      Paired acknowledged (sofar.map Call.request)
        (calls emptyDirectory acknowledged sofar {}) := by
  intro h
  have hidle := (h [frameCall 0] ⟨[frameCall 10], rfl⟩).idle
  cases hidle

/-- From an unanswered request on every call fails. -/
theorem perform_stuck (self : SmartStorageClient Arr) (server : List Request → Body)
    (c : Call Arr) {s : Socket} (h : s.awaiting = true) :
    (c.perform self server).run.run s = (.error .ZMQError, s) := by
  unfold Call.perform
  cases c.op with
  | decode_only => exact bind_raises (bind_raises (exchange_stuck server _ _ h) _) _
  | decode_face => exact bind_raises (bind_raises (exchange_stuck server _ _ h) _) _
  | decode_video frame_id => exact bind_raises (bind_raises (exchange_stuck server _ _ h) _) _

theorem calls_stuck (self : SmartStorageClient Arr) (server : List Request → Body)
    (cs : List (Call Arr)) {s : Socket} (h : s.awaiting = true) : calls self server cs s = s := by
  induction cs with
  | nil => rfl
  | cons c cs ih =>
      unfold calls
      rw [List.foldl_cons, perform_stuck self server c h]
      exact ih

end SmartDisk.SmartClient
