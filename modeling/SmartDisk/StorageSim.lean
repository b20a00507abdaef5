import SmartDisk.ActionSystem
import SmartDisk.EventRuns
import Mathlib.Algebra.Order.Field.Rat

/-!
# The emulated storage server of `s3dexp/sim`

`serve_request` is a generator over four resources: the image decoder, the face
detector, the video decoder and the bus. `run_server` polls for one request,
lets `sched_request` set the simulated clock to its timestamp, and runs the
simulator up to `run_ahead` past the wall clock.

Profiles enter as look-up tables, and what `cv2` reports about a video as a
function of its path. The value of a request is what `json.loads` makes of it.
Times are exact. Logging, the database and the sockets are left out. The charges
and the wall clock of a sent response are history.
-/
namespace SmartDisk.StorageSim
open DiscreteEvents EventRuns

abbrev Path := List Char

/-- `os.path.basename`. -/
def basename (p : Path) : Path := (p.reverse.takeWhile (· ≠ '/')).reverse

/-- `str.endswith`. -/
def endswith (p ext : Path) : Bool := ext.isSuffixOf p

inductive Component where
  | decoder | face_detector | video_decoder | bus
  deriving DecidableEq, Repr

inductive Exn where
  | AssertionError | KeyError | ValueError | ZeroDivisionError | UnboundLocalError
  deriving DecidableEq, Repr

/-- A box as four coordinates. -/
structure Box where
  x0 : ℚ
  y0 : ℚ
  x1 : ℚ
  y1 : ℚ
  deriving DecidableEq

/-- `decoder_lut` and `face_lut` are keyed by basename, `frame_size` by path. -/
structure Config where
  decoder_lut : Path → Option (ℚ × ℤ × ℤ)
  face_lut : Path → Option (ℚ × List Box)
  frame_size : Path → ℚ × ℚ
  target_fps : ℚ
  target_mbyteps : ℚ
  num_decoder : ℕ
  num_decoder_pos : 0 < num_decoder
  run_ahead : ℚ

/-- What `json.loads(request.value)` returns; `other` has no usable frame number. -/
inductive Payload where
  | malformed
  | other
  | frame (frame_id : ℚ)
  deriving DecidableEq

/-- `value` is `none` for the empty string. -/
structure Request where
  timestamp : ℚ
  opcode : ℤ
  path : Path
  wait : ℤ
  value : Option Payload
  deriving DecidableEq

def OP_DECODEONLY : ℤ := 20
def OP_DECODE_FACE : ℤ := 40
def OP_DECODE_VIDEO : ℤ := 50
def OP_DEBUG_WAIT : ℤ := 500

structure VideoDecoderSim where
  current_path : Option Path := none
  current_frame_id : ℚ := 0
  w : ℚ := 0
  h : ℚ := 0

structure Retval where
  op : ℤ
  face_boxes : Option (List Box) := none

abbrev Address := ℕ

/-- The arguments of `callback` other than the time. -/
structure Reply where
  address : Address
  request : Request
  retval : Retval

/-- Processes of the simulated components; `O` is what the outermost one reports. -/
abbrev Proc (O : Type) := Gen ℚ Component VideoDecoderSim O Exn

section
variable {O : Type}

/-- A duration that `env.timeout` accepts; it raises `ValueError` on a negative one. -/
def delay? (d : ℚ) : Option (Delay ℚ) := if h : 0 ≤ d then some ⟨d, h⟩ else none

/-- `with semaphore.request() as req: yield req; yield env.timeout(d)`. -/
def occupy (c : Component) (d : ℚ) : Proc O Unit :=
  match delay? d with
  | some d => .hold c (some d) (.ret ())
  | none => .hold c none (.raise .ValueError)

def raise {α : Type} (e : Exn) : Proc O α := .raise e
def require (b : Bool) : Proc O Unit := if b then pure () else raise .AssertionError
def get : Proc O VideoDecoderSim := .read .ret
def set (s : VideoDecoderSim) : Proc O Unit := .write s (.ret ())

/-- Python's `/`, which raises on a zero divisor. -/
def divide (a b : ℚ) : Proc O ℚ := if b = 0 then raise .ZeroDivisionError else pure (a / b)

/-- Both `ext` arguments keep their default. -/
def ext : Path := "jpg".toList

/-- `DecoderSim.decode`. -/
def decode (cfg : Config) (path : Path) : Proc O (ℤ × ℤ) := do
  require (endswith path ext)
  match cfg.decoder_lut (basename path) with
  | none => raise .KeyError
  | some (sim_elapsed, width, height) =>
      occupy .decoder sim_elapsed
      pure (width, height)

/-- `FaceDetectorSim.detect_face`. -/
def detect_face (cfg : Config) (path : Path) : Proc O (List Box) := do
  require (endswith path ext)
  match cfg.face_lut (basename path) with
  | none => raise .KeyError
  | some (sim_elapsed, boxes) =>
      occupy .face_detector sim_elapsed
      pure boxes

/-- Opening a video once gives its frame size and starts it at frame 0. -/
def VideoDecoderSim.opened (s : VideoDecoderSim) (cfg : Config) (path : Path) :
    VideoDecoderSim :=
  if s.current_path = some path then s
  else
    { current_path := some path, current_frame_id := 0
      w := (cfg.frame_size path).1, h := (cfg.frame_size path).2 }

/-- A position is not negative, and the frame size is that of the video that is open. -/
def VideoDecoderSim.Positioned (cfg : Config) (s : VideoDecoderSim) : Prop :=
  0 ≤ s.current_frame_id ∧ (s.w, s.h) = s.current_path.elim (0, 0) cfg.frame_size

theorem VideoDecoderSim.Positioned.opened {cfg : Config} {s : VideoDecoderSim}
    (hs : s.Positioned cfg) (path : Path) : (s.opened cfg path).Positioned cfg := by
  unfold VideoDecoderSim.opened
  split
  · exact hs
  · exact ⟨le_rfl, rfl⟩

/-- `VideoDecoderSim.decode_frame`. The state is read again after the `yield`s. -/
def decode_frame (cfg : Config) (path : Path) (frame_id : ℚ) : Proc O (ℚ × ℚ) := do
  let s ← get
  let s := s.opened cfg path
  set s
  require (s.current_frame_id ≤ frame_id)
  let per_frame ← divide 1 cfg.target_fps
  occupy .video_decoder (per_frame * (frame_id - s.current_frame_id))
  let s ← get
  set { s with current_frame_id := frame_id }
  pure (s.w, s.h)

/-- `BusSim.send`. -/
def send (cfg : Config) (size_in_bytes : ℚ) : Proc O Unit := do
  let sim_elapsed ← divide (size_in_bytes * (1 / 10 ^ 6)) cfg.target_mbyteps
  occupy .bus sim_elapsed

end

/-- The bytes of the cropped patches. -/
def transmitted_size (boxes : List Box) : ℚ :=
  (boxes.map fun b => |3 * (b.x0 - b.x1) * (b.y0 - b.y1)|).sum

/-- The payload of a request whose value is not empty. -/
def loads (request : Request) : Proc Reply (Option Payload) :=
  match request.value with
  | some .malformed => raise .ValueError
  | v => pure v

def frame_id (payload : Option Payload) : Proc Reply ℚ :=
  match payload with
  | none => raise .UnboundLocalError
  | some (.frame i) => pure i
  | some _ => raise .KeyError

/-- The branches on `op`, up to the boxes that go into `retval`. -/
def perform (cfg : Config) (request : Request) (payload : Option Payload) :
    Proc Reply (Option (List Box)) := do
  if request.opcode = OP_DECODEONLY then
    let (w, h) ← (decode cfg request.path).process
    (send cfg (w * h * 3)).process
    pure none
  else if request.opcode = OP_DECODE_FACE then
    let _ ← (decode cfg request.path).process
    let boxes ← (detect_face cfg request.path).process
    (send cfg (transmitted_size boxes)).process
    pure (some boxes)
  else if request.opcode = OP_DECODE_VIDEO then
    let frame_id ← frame_id payload
    let (w, h) ← (decode_frame cfg request.path frame_id).process
    (send cfg (w * h * 3)).process
    pure none
  else if request.opcode = OP_DEBUG_WAIT then
    match delay? request.wait with
    | some d => .timeout d (.ret none)
    | none => raise .ValueError
  else pure none

/-- `SmartStorageSim.serve_request`. -/
def serve_request (cfg : Config) (request : Request) (address : Address) : Proc Reply Unit := do
  let payload ← loads request
  let face_boxes ← perform cfg request payload
  .emit ⟨address, request, ⟨request.opcode, face_boxes⟩⟩ (.ret ())

/-- The capacities of the resources; all but the decoder's are the default. -/
def Config.capacity (cfg : Config) : Component → ℕ
  | .decoder => cfg.num_decoder
  | _ => 1

structure Response where
  request_timestamp : ℚ
  completion_timestamp : ℚ
  value : Retval

/-- A message of the publisher, with what is known about its making. -/
structure Sent where
  address : Address
  response : Response
  request : Request
  charges : List (Option Component × ℚ)
  wall : ℚ

/-- `on_complete`, called at the wall-clock time `wall`. -/
def on_complete (wall : ℚ) (o : Output ℚ Component Reply) : Sent where
  address := o.value.address
  response := ⟨o.value.request.timestamp, o.time, o.value.retval⟩
  request := o.value.request
  charges := o.charges
  wall := wall

abbrev SimEnv := Env ℚ Component VideoDecoderSim Reply Exn

/-- `SmartStorageSim.sched_request`. -/
def sched_request (cfg : Config) (env : SimEnv) (timestamp : ℚ) (request : Request)
    (address : Address) : SimEnv :=
  (setNow env timestamp).start (serve_request cfg request address)

inductive Mode where
  | polling
  | running (til : ℚ)
  | crashed (e : Exn)

structure Server where
  env : SimEnv
  mode : Mode
  wall : ℚ
  sent : List Sent

/-- One action reads the wall clock, which never goes back. `poll` is a pass
through the loop up to the call of `env.run`, `tick` one event of that call. -/
inductive Action where
  | poll (recv : Option (Address × Request)) (wall : ℚ)
  | tick (wall : ℚ)

def Action.wall : Action → ℚ
  | .poll _ wall => wall
  | .tick wall => wall

def receive (cfg : Config) (env : SimEnv) : Option (Address × Request) → SimEnv
  | none => env
  | some (address, request) => sched_request cfg env request.timestamp request address

/-- `env.run` refuses an instant that is not in the future. -/
def run_until (s : Server) (env : SimEnv) (wall til : ℚ) : Server :=
  if env.now < til then { s with env := stopAt env til, mode := .running til, wall := wall }
  else { s with env := env, mode := .crashed .ValueError, wall := wall }

def finish (s : Server) (wall : ℚ) : Env.Step ℚ Component VideoDecoderSim Reply Exn → Server
  | .next env =>
      { s with
        env := { env with out := [] }, wall := wall
        sent := s.sent ++ env.out.map (on_complete wall) }
  | .stopped env => { s with env := env, mode := .polling, wall := wall }
  | .raised e env => { s with env := env, mode := .crashed e, wall := wall }

def step (cfg : Config) (a : Action) (s : Server) : Option Server :=
  if a.wall < s.wall then none
  else
    match a, s.mode with
    | .poll recv wall, .polling =>
        some (run_until s (receive cfg s.env recv) wall (wall + cfg.run_ahead))
    | .tick wall, .running _ => s.env.step.map (finish s wall)
    | _, _ => none

/-- `run_server`, entered at the wall-clock time `init`. -/
def run_server (cfg : Config) (init : ℚ) : ActionSystem.System Server Action where
  start := ⟨.initial init cfg.capacity {}, .polling, init, []⟩
  step := step cfg

/-- One decoder, which needs a tenth of a millisecond for its only picture. -/
def oneDecoder : Config where
  decoder_lut p := if p = "a.jpg".toList then some (1 / 10000, 10, 10) else none
  face_lut _ := none
  frame_size _ := (0, 0)
  target_fps := 480
  target_mbyteps := 2000
  num_decoder := 1
  num_decoder_pos := Nat.one_pos
  run_ahead := 58 / 100000

end SmartDisk.StorageSim
