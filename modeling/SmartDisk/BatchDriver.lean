import SmartDisk.SearchProgress

/-!
# The batch driver of `script/run_resnet10.py`

`main` starts `run_search` in a thread, with `TransformAndSendFilter` as the last
filter of the chain, and takes the preprocessed tensors out of a second queue: a
batch loop of `int(len(paths) / batch_size)` rounds and a flush loop for the rest
of `len(paths)`. The workers and the search thread are those of `SearchPool`.

`preprocessed_q` is a `multiprocessing.Queue`: a put leaves the tensor with the
feeder thread of its process, which hands it over to the pipe later and is joined
when the process ends. The pipe is taken to be unbounded. The front filters are
the ones of whichever mode was chosen, and `transform` is what resizing and the
transform pipeline make of a path's array. `puts` and `gets` are history.
-/
namespace SmartDisk.BatchDriver
open ActionSystem SearchPool

/-- `transform` is `none` where resizing or preprocessing raises. -/
structure Config (P T : Type) (N : ℕ) where
  front : List (SearchPool.Filter P)
  transform : P → Option T
  paths : List P
  batch_size : ℕ
  batch_size_pos : 0 < batch_size
  instantiates : Fin N → Bool
  elapsed_cpu : Fin N → ℚ

/-- Control points of `main`. In `collect` the list comprehension of one batch
still lacks `missing` tensors. -/
inductive Main where
  | loop (todo num_batches : ℕ)
  | collect (todo missing num_batches : ℕ)
  | flush (left : ℕ)
  | joining
  | finished
  deriving DecidableEq, Repr

structure State (P T : Type) (N : ℕ) where
  pool : SearchPool.State P N
  feeding : Fin N → List T := fun _ => []
  preprocessed_q : List T := []
  main : Main
  puts : ℕ := 0
  gets : ℕ := 0

inductive Action (N : ℕ) where
  | search_thread
  | work (i : Fin N)
  | feed (i : Fin N)
  | main
  deriving DecidableEq

section
variable {P T : Type} {N : ℕ}

/-- The filter as a worker sees it: it answers `True` once it has put its tensor. -/
def Config.transformAndSendFilter (c : Config P T N) : SearchPool.Filter P where
  call p := (c.transform p).map fun _ => true
  bytes _ := 0

/-- The arguments of `run_search`; `Context` keeps its default `qsize`. -/
def Config.search (c : Config P T N) : SearchPool.Config P N where
  filters := c.front ++ [c.transformAndSendFilter]
  paths := c.paths
  qsize := 1000
  instantiates := c.instantiates
  elapsed_cpu := c.elapsed_cpu

/-- The tensor a worker puts in its next step. The last filter of the chain is the
one that sends. -/
def Config.sent (c : Config P T N) (w : Worker P) : List T :=
  match w.pc with
  | .filtering src [_] => (c.transform src).toList
  | _ => []

def work (c : Config P T N) (i : Fin N) (s : State P T N) : Option (State P T N) :=
  (search_work c.search i s.pool).map fun pool =>
    { s with
      pool := pool
      feeding := Function.update s.feeding i (s.feeding i ++ c.sent (s.pool.workers i))
      puts := s.puts + (c.sent (s.pool.workers i)).length }

/-- The feeder thread of one worker. -/
def feed (i : Fin N) (s : State P T N) : Option (State P T N) :=
  match s.feeding i with
  | [] => none
  | x :: xs =>
      some { s with
        feeding := Function.update s.feeding i xs, preprocessed_q := s.preprocessed_q ++ [x] }

/-- `preprocessed_q.get()` blocks while the queue is empty. -/
def get (s : State P T N) (next : Main) : Option (State P T N) :=
  match s.preprocessed_q with
  | [] => none
  | _ :: q => some { s with preprocessed_q := q, gets := s.gets + 1, main := next }

def main (c : Config P T N) (s : State P T N) : Option (State P T N) :=
  match s.main with
  | .loop (todo + 1) n => some { s with main := .collect todo c.batch_size n }
  | .loop 0 n => some { s with main := .flush (c.paths.length - n * c.batch_size) }
  | .collect todo (missing + 1) n => get s (.collect todo missing n)
  | .collect todo 0 n => some { s with main := .loop todo (n + 1) }
  | .flush (left + 1) => get s (.flush left)
  | .flush 0 => some { s with main := .joining }
  | .joining =>
      match s.pool.phase with
      | .returned => some { s with main := .finished }
      | _ => none
  | .finished => none

def system (c : Config P T N) : System (State P T N) (Action N) where
  start :=
    { pool := (SearchPool.system c.search).start
      main := .loop (c.paths.length / c.batch_size) 0 }
  step
    | .search_thread => fun s => (run_search c.search s.pool).map fun pool => { s with pool := pool }
    | .work i => work c i
    | .feed i => feed i
    | .main => main c

/-! ### What the driver expects of the chain -/

/-- `main` waits in `preprocessed_q.get()`. -/
def Waiting : Main → Prop
  | .collect _ (_ + 1) _ | .flush (_ + 1) => True
  | _ => False

/-- Both loops are over. -/
def Past : Main → Prop
  | .joining | .finished => True
  | _ => False

/-- The process of every worker has ended, and with it its feeder thread. -/
def Ended (s : State P T N) : Prop :=
  ∀ i, ((s.pool.workers i).pc = .exited ∨ (s.pool.workers i).pc = .died) ∧ s.feeding i = []

/-- `main` waits for a tensor that nobody is left to put. -/
def Starved (s : State P T N) : Prop :=
  Ended s ∧ Waiting s.main ∧ s.preprocessed_q = []

/-- The loops take exactly what is put: `main` never starves, a run that has come to its
end is past the loops, and then every tensor put has been taken. -/
structure Consumes (c : Config P T N) : Prop where
  fed : ∀ s, (system c).Reachable s → ¬ Starved s
  ends : ∀ s, (system c).Reachable s → (system c).Stuck s → Past s.main
  exact : ∀ s, (system c).Reachable s → Past s.main → Ended s → s.gets = s.puts

/-- The tensor of this path reaches the driver. -/
def Config.Delivers (c : Config P T N) (p : P) : Prop :=
  (chain c.front p).1 = some true ∧ (c.transform p).isSome

end

end SmartDisk.BatchDriver
