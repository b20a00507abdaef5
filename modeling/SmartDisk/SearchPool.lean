import SmartDisk.ActionSystem
import Mathlib.Algebra.Order.Field.Rat
import Mathlib.Data.Fintype.BigOperators

/-!
# The worker pool of `s3dexp/search.py`

`run_search` starts `N` worker processes on one bounded joinable queue, puts
every path and then one `None` per worker, joins the queue and joins the
processes. `search_work` instantiates its filters, takes elements until it
reads a `None`, and adds its private counters to the shared statistics under
the lock. The interleaving is at the level of single queue operations, single
filter calls and single reads and writes of the shared dictionary.

Paths are opaque byte strings. A filter is what the code can observe of one: its
answer on a path, or an exception, and what it adds to
`session_stats['bytes_from_disk']`. Processor time is a supplied number for each
worker, and all arithmetic is exact. The fields `evaluated` and `nones` are
history and no branch reads them.
-/
namespace SmartDisk.SearchPool

/-- `call` is `none` where the filter raises an `Exception` on that path. -/
structure Filter (P : Type) where
  call : P → Option Bool
  bytes : P → ℚ

/-- The keys of `context.stats`. -/
inductive Field where
  | num_items | num_workers | cpu_time | passed_items | bytes_from_disk
  deriving DecidableEq, Repr

/-- Control points of `search_work`. The lock is held in `flush` and `write`,
and `write` carries the value read for a `+=` that is not stored yet. -/
inductive Pc (P : Type) where
  | instantiate
  | get
  | filtering (src : P) (todo : List (Filter P))
  | task_done (again : Bool)
  | acquire
  | flush (todo : List Field)
  | write (field : Field) (read : ℚ) (todo : List Field)
  | exited
  | died

structure Worker (P : Type) where
  pc : Pc P := .instantiate
  count : ℕ := 0
  count_passed : ℕ := 0
  bytes_from_disk : ℚ := 0
  evaluated : List P := []
  nones : ℕ := 0

/-- Control points of `run_search`. -/
inductive Phase (P : Type) where
  | putting (rest : List P)
  | sentinels (left : ℕ)
  | joining
  | reaping (left : ℕ)
  | returned

structure Config (P : Type) (N : ℕ) where
  filters : List (Filter P)
  paths : List P
  qsize : ℕ
  instantiates : Fin N → Bool
  elapsed_cpu : Fin N → ℚ

structure State (P : Type) (N : ℕ) where
  phase : Phase P
  q : List (Option P) := []
  unfinished : ℕ := 0
  lock : Option (Fin N) := none
  stats : Field → ℚ := fun _ => 0
  workers : Fin N → Worker P := fun _ => {}

section
variable {P : Type} {N : ℕ}

def State.setWorker (s : State P N) (i : Fin N) (w : Worker P) : State P N :=
  { s with workers := Function.update s.workers i w }

@[simp] theorem State.setWorker_phase (s : State P N) (i : Fin N) (w : Worker P) :
    (s.setWorker i w).phase = s.phase := rfl
@[simp] theorem State.setWorker_q (s : State P N) (i : Fin N) (w : Worker P) :
    (s.setWorker i w).q = s.q := rfl
@[simp] theorem State.setWorker_unfinished (s : State P N) (i : Fin N) (w : Worker P) :
    (s.setWorker i w).unfinished = s.unfinished := rfl
@[simp] theorem State.setWorker_lock (s : State P N) (i : Fin N) (w : Worker P) :
    (s.setWorker i w).lock = s.lock := rfl
@[simp] theorem State.setWorker_stats (s : State P N) (i : Fin N) (w : Worker P) :
    (s.setWorker i w).stats = s.stats := rfl
@[simp] theorem State.setWorker_workers (s : State P N) (i : Fin N) (w : Worker P) :
    (s.setWorker i w).workers = Function.update s.workers i w := rfl

/-- The fields in the order `search_work` adds to them. -/
def flushed_fields : List Field :=
  [.num_workers, .num_items, .cpu_time, .passed_items, .bytes_from_disk]

/-- What one worker adds to each field when it leaves. -/
def Config.contribution (c : Config P N) (i : Fin N) (w : Worker P) : Field → ℚ
  | .num_workers => 1
  | .num_items => w.count
  | .cpu_time => c.elapsed_cpu i
  | .passed_items => w.count_passed
  | .bytes_from_disk => w.bytes_from_disk

/-- One filter call of the inner loop. `passed and ret` is false exactly when
this filter answered false, since every earlier one answered true. -/
def Worker.callFilter (w : Worker P) (src : P) (f : Filter P) (todo : List (Filter P)) :
    Worker P :=
  let w := { w with bytes_from_disk := w.bytes_from_disk + f.bytes src }
  match f.call src with
  | none => { w with pc := .task_done true, evaluated := w.evaluated ++ [src] }
  | some false =>
      { w with pc := .task_done true, count := w.count + 1, evaluated := w.evaluated ++ [src] }
  | some true => { w with pc := .filtering src todo }

/-- One step of worker `i`; `none` where it blocks or has ended. -/
def search_work (c : Config P N) (i : Fin N) (s : State P N) : Option (State P N) :=
  let w := s.workers i
  match w.pc with
  | .instantiate =>
      -- outside both `try` blocks: an exception here ends the process
      some (s.setWorker i { w with pc := if c.instantiates i then .get else .died })
  | .get =>
      match s.q with
      | [] => none
      | some src :: q =>
          some ({ s with q := q }.setWorker i { w with pc := .filtering src c.filters })
      | none :: q =>
          some ({ s with q := q }.setWorker i
            { w with pc := .task_done false, nones := w.nones + 1 })
  | .filtering src [] =>
      some (s.setWorker i { w with
        pc := .task_done true, count := w.count + 1, count_passed := w.count_passed + 1,
        evaluated := w.evaluated ++ [src] })
  | .filtering src (f :: todo) => some (s.setWorker i (w.callFilter src f todo))
  | .task_done again =>
      some ({ s with unfinished := s.unfinished - 1 }.setWorker i
        { w with pc := if again then .get else .acquire })
  | .acquire =>
      match s.lock with
      | none => some ({ s with lock := some i }.setWorker i { w with pc := .flush flushed_fields })
      | some _ => none
  | .flush (f :: todo) => some (s.setWorker i { w with pc := .write f (s.stats f) todo })
  | .flush [] => some ({ s with lock := none }.setWorker i { w with pc := .exited })
  | .write f v todo =>
      some ({ s with stats := Function.update s.stats f (v + c.contribution i w f) }.setWorker i
        { w with pc := .flush todo })
  | .exited => none
  | .died => none

/-- `Queue.put` blocks while the queue is full. -/
def put (c : Config P N) (s : State P N) (x : Option P) (next : Phase P) : Option (State P N) :=
  if s.q.length < c.qsize then
    some { s with q := s.q ++ [x], unfinished := s.unfinished + 1, phase := next }
  else none

/-- One step of `run_search`, whose workers have been started. `w.join(5)`
returns on exit and on timeout alike, so it is always enabled. -/
def run_search (c : Config P N) (s : State P N) : Option (State P N) :=
  match s.phase with
  | .putting (p :: rest) => put c s (some p) (.putting rest)
  | .putting [] => some { s with phase := .sentinels N }
  | .sentinels (n + 1) => put c s none (.sentinels n)
  | .sentinels 0 => some { s with phase := .joining }
  | .joining => if s.unfinished = 0 then some { s with phase := .reaping N } else none
  | .reaping (n + 1) => some { s with phase := .reaping n }
  | .reaping 0 => some { s with phase := .returned }
  | .returned => none

inductive Action (N : ℕ) where
  | produce
  | work (i : Fin N)
  deriving DecidableEq

def system (c : Config P N) : ActionSystem.System (State P N) (Action N) where
  start := { phase := .putting c.paths }
  step
    | .produce => run_search c
    | .work i => search_work c i

/-- The verdict of a chain on one path, evaluated left to right and stopped at
the first false or exception, and the bytes of exactly the filters that ran. -/
def chain : List (Filter P) → P → Option Bool × ℚ
  | [], _ => (some true, 0)
  | f :: fs, p =>
      match f.call p with
      | none => (none, f.bytes p)
      | some false => (some false, f.bytes p)
      | some true => ((chain fs p).1, f.bytes p + (chain fs p).2)

structure Totals where
  num_items : ℕ
  passed_items : ℕ
  bytes_from_disk : ℚ

/-- One worker taking the whole list by itself. -/
def sequential (fs : List (Filter P)) : List P → Totals
  | [] => ⟨0, 0, 0⟩
  | p :: ps =>
      let r := chain fs p
      let t := sequential fs ps
      ⟨(if r.1.isSome then 1 else 0) + t.num_items,
        (if r.1 = some true then 1 else 0) + t.passed_items, r.2 + t.bytes_from_disk⟩

end

end SmartDisk.SearchPool
