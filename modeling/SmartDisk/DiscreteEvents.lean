import Mathlib.Algebra.BigOperators.Group.List.Basic
import Mathlib.Algebra.Order.Group.Defs
import Mathlib.Algebra.Order.Group.Unbundled.Basic
import Mathlib.Data.List.Sort
import Mathlib.Data.Prod.Lex
import Mathlib.Logic.Function.Basic

/-!
# A process-based discrete-event simulator

The semantics of a SimPy environment, for any time type and any program: a heap
of events ordered by time, then priority, then insertion; generators that are
resumed by events; and resources of fixed capacity whose waiting requests are
served first in, first out. A request that finds a free unit is granted without
delay. Leaving a resource frees the unit at once and schedules an event without
delay, and the first waiting request is granted when that event is processed.

`Gen` is the shallow embedding of a generator. `hold r d` is the block
`with r.request() as req: yield req; yield env.timeout(d)`; a duration that
`env.timeout` would refuse leaves the block at once. `relay` is an event without
delay that nothing but the generator waits for, as at the start and the end of a
sub-process.

The fields `born`, `charges`, `asked` and `served` are history. They record when
a process was started, the durations it passed to `env.timeout`, when a request
entered its queue and the intervals of service. No step reads them.
-/
namespace SmartDisk.DiscreteEvents

/-- Durations that `env.timeout` accepts. -/
abbrev Delay (τ : Type) [Zero τ] [LE τ] := {d : τ // 0 ≤ d}

/-- The two priorities of an event; urgent events come first at equal times. -/
inductive Priority where
  | urgent | normal
  deriving DecidableEq, Repr

def Priority.rank : Priority → ℕ
  | .urgent => 0
  | .normal => 1

inductive Gen (τ R σ O E : Type) [Zero τ] [LE τ] (α : Type) : Type where
  | ret (a : α)
  | raise (e : E)
  | timeout (d : Delay τ) (next : Gen τ R σ O E α)
  | hold (r : R) (d : Option (Delay τ)) (next : Gen τ R σ O E α)
  | relay (prio : Priority) (next : Gen τ R σ O E α)
  | read (next : σ → Gen τ R σ O E α)
  | write (s : σ) (next : Gen τ R σ O E α)
  | emit (o : O) (next : Gen τ R σ O E α)

namespace Gen
variable {τ R σ O E α β : Type} [Zero τ] [LE τ]

def bind : Gen τ R σ O E α → (α → Gen τ R σ O E β) → Gen τ R σ O E β
  | ret a, f => f a
  | raise e, _ => raise e
  | timeout d next, f => timeout d (next.bind f)
  | hold r d next, f => hold r d (next.bind f)
  | relay p next, f => relay p (next.bind f)
  | read next, f => read fun s => (next s).bind f
  | write s next, f => write s (next.bind f)
  | emit o next, f => emit o (next.bind f)

instance : Monad (Gen τ R σ O E) where
  pure := ret
  bind := bind

/-- The end of a sub-process, by result or by exception, is itself an event. -/
def ended : Gen τ R σ O E α → Gen τ R σ O E α
  | ret a => relay .normal (ret a)
  | raise e => relay .normal (raise e)
  | timeout d next => timeout d next.ended
  | hold r d next => hold r d next.ended
  | relay p next => relay p next.ended
  | read next => read fun s => (next s).ended
  | write s next => write s next.ended
  | emit o next => emit o next.ended

/-- `yield env.process(child)`. -/
def process (child : Gen τ R σ O E α) : Gen τ R σ O E α := relay .urgent child.ended

end Gen

/-- An event of the heap; `work` is what its callbacks do. -/
structure Event (τ W : Type) where
  time : τ
  prio : Priority
  eid : ℕ
  work : W

namespace Event
variable {τ W : Type} [LinearOrder τ]

def key (e : Event τ W) : τ ×ₗ ℕ ×ₗ ℕ := toLex (e.time, toLex (e.prio.rank, e.eid))

def le (a b : Event τ W) : Prop := a.key ≤ b.key

instance : DecidableRel (le : Event τ W → Event τ W → Prop) :=
  fun a b => inferInstanceAs (Decidable (a.key ≤ b.key))
instance : Std.Total (le : Event τ W → Event τ W → Prop) := ⟨fun a b => le_total a.key b.key⟩
instance : IsTrans (Event τ W) le := ⟨fun _ _ _ h k => le_trans (α := τ ×ₗ ℕ ×ₗ ℕ) h k⟩

theorem le.time_le {a b : Event τ W} (h : a.le b) : a.time ≤ b.time := by
  rcases Prod.Lex.le_iff.mp h with h | h
  · exact h.le
  · exact h.1.le

end Event

/-- The heap is a list that is kept in the order of the keys. -/
structure Heap (τ W : Type) [LinearOrder τ] where
  events : List (Event τ W)
  sorted : events.Pairwise Event.le

namespace Heap
variable {τ W : Type} [LinearOrder τ]

def empty : Heap τ W := ⟨[], List.Pairwise.nil⟩

def push (e : Event τ W) (h : Heap τ W) : Heap τ W :=
  ⟨h.events.orderedInsert Event.le e, List.Pairwise.orderedInsert e _ h.sorted⟩

def pop (h : Heap τ W) : Option (Event τ W × Heap τ W) :=
  match h with
  | ⟨[], _⟩ => none
  | ⟨e :: es, hs⟩ => some (e, ⟨es, (List.pairwise_cons.mp hs).2⟩)

@[simp] theorem mem_push (a e : Event τ W) (h : Heap τ W) :
    a ∈ (h.push e).events ↔ a = e ∨ a ∈ h.events :=
  List.mem_orderedInsert Event.le

theorem push_perm (e : Event τ W) (h : Heap τ W) : (h.push e).events.Perm (e :: h.events) :=
  List.perm_orderedInsert Event.le e h.events

theorem pop_events {h h' : Heap τ W} {e : Event τ W} (hp : h.pop = some (e, h')) :
    h.events = e :: h'.events := by
  obtain ⟨_ | ⟨a, es⟩, hs⟩ := h
  · cases hp
  · cases hp; rfl

theorem exists_pop {h : Heap τ W} (hne : h.events ≠ []) : ∃ e h', h.pop = some (e, h') := by
  obtain ⟨_ | ⟨e, es⟩, hs⟩ := h
  · exact absurd rfl hne
  · exact ⟨e, _, rfl⟩

/-- The popped event is a minimum. -/
theorem pop_le {h h' : Heap τ W} {e : Event τ W} (hp : h.pop = some (e, h')) :
    ∀ a ∈ h'.events, e.le a :=
  (List.pairwise_cons.mp (pop_events hp ▸ h.sorted)).1

end Heap

/-- A generator together with the history of its process. -/
structure Task (τ R σ O E : Type) [Zero τ] [LE τ] where
  code : Gen τ R σ O E Unit
  born : τ
  charges : List (Option R × τ)

/-- What the callbacks of an event do. -/
inductive Work (τ R σ O E : Type) [Zero τ] [LE τ] : Type where
  | resume (t : Task τ R σ O E)
  | grant (r : R) (d : Option (Delay τ)) (t : Task τ R σ O E)
  | leave (r : R) (t : Task τ R σ O E)
  | released (r : R)
  | ended
  | failed (e : E)
  | stop

structure Waiter (τ R σ O E : Type) [Zero τ] [LE τ] where
  asked : τ
  delay : Option (Delay τ)
  task : Task τ R σ O E

structure Resource (τ R σ O E : Type) [Zero τ] [LE τ] where
  capacity : ℕ
  users : ℕ
  waiting : List (Waiter τ R σ O E)

structure Output (τ R O : Type) where
  time : τ
  born : τ
  charges : List (Option R × τ)
  value : O

structure Env (τ R σ O E : Type) [LinearOrder τ] [Zero τ] where
  now : τ
  queue : Heap τ (Work τ R σ O E)
  eid : ℕ
  res : R → Resource τ R σ O E
  comp : σ
  out : List (Output τ R O)
  served : List (R × τ × τ)

/-- The sum of the durations a process has passed to `env.timeout`. -/
def total {τ R : Type} [Zero τ] [Add τ] (charges : List (Option R × τ)) : τ :=
  (charges.map Prod.snd).sum

namespace Env
variable {τ R σ O E : Type} [AddCommGroup τ] [LinearOrder τ] [DecidableEq R]

def initial (now : τ) (capacity : R → ℕ) (s : σ) : Env τ R σ O E where
  now := now
  queue := .empty
  eid := 0
  res r := ⟨capacity r, 0, []⟩
  comp := s
  out := []
  served := []

/-- `env.schedule(event, priority, delay)`. -/
def schedule (env : Env τ R σ O E) (prio : Priority) (delay : τ) (w : Work τ R σ O E) :
    Env τ R σ O E :=
  { env with
    queue := env.queue.push ⟨env.now + delay, prio, env.eid, w⟩
    eid := env.eid + 1 }

def setRes (env : Env τ R σ O E) (r : R) (x : Resource τ R σ O E) : Env τ R σ O E :=
  { env with res := Function.update env.res r x }

section
variable (env : Env τ R σ O E) (prio : Priority) (d : τ) (w : Work τ R σ O E) (r : R)
  (x : Resource τ R σ O E)

omit [DecidableEq R]
@[simp] theorem schedule_now : (env.schedule prio d w).now = env.now := rfl
@[simp] theorem schedule_res : (env.schedule prio d w).res = env.res := rfl
@[simp] theorem schedule_comp : (env.schedule prio d w).comp = env.comp := rfl
@[simp] theorem schedule_out : (env.schedule prio d w).out = env.out := rfl
@[simp] theorem schedule_served : (env.schedule prio d w).served = env.served := rfl

variable [DecidableEq R]
@[simp] theorem setRes_now : (env.setRes r x).now = env.now := rfl
@[simp] theorem setRes_res : (env.setRes r x).res = Function.update env.res r x := rfl
@[simp] theorem setRes_comp : (env.setRes r x).comp = env.comp := rfl
@[simp] theorem setRes_out : (env.setRes r x).out = env.out := rfl
@[simp] theorem setRes_served : (env.setRes r x).served = env.served := rfl
end

/-- Grant the first waiting request if a unit is free. -/
def trigger (env : Env τ R σ O E) (r : R) : Env τ R σ O E :=
  match (env.res r).waiting with
  | [] => env
  | w :: ws =>
      if (env.res r).users < (env.res r).capacity then
        (env.setRes r ⟨(env.res r).capacity, (env.res r).users + 1, ws⟩).schedule .normal 0
          (.grant r w.delay w.task)
      else env

/-- `resource.request()`. -/
def request (env : Env τ R σ O E) (r : R) (d : Option (Delay τ)) (t : Task τ R σ O E) :
    Env τ R σ O E :=
  (env.setRes r { env.res r with
    waiting := (env.res r).waiting ++ [⟨env.now, d, t⟩] }).trigger r

/-- `resource.release(req)`. -/
def release (env : Env τ R σ O E) (r : R) : Env τ R σ O E :=
  (env.setRes r { env.res r with users := (env.res r).users - 1 }).schedule .normal 0
    (.released r)

/-- A granted request enters `yield env.timeout(d)`. -/
def serve (env : Env τ R σ O E) (r : R) (d : Delay τ) (t : Task τ R σ O E) : Env τ R σ O E :=
  { env with served := env.served ++ [(r, env.now, env.now + d.1)] }.schedule .normal d.1
    (.leave r { t with charges := t.charges ++ [(some r, d.1)] })

/-- Run a generator up to its next `yield`. -/
def run (born : τ) : Gen τ R σ O E Unit → List (Option R × τ) → Env τ R σ O E → Env τ R σ O E
  | .ret _, _, env => env.schedule .normal 0 .ended
  | .raise e, _, env => env.schedule .normal 0 (.failed e)
  | .timeout d next, cs, env =>
      env.schedule .normal d.1 (.resume ⟨next, born, cs ++ [(none, d.1)]⟩)
  | .hold r d next, cs, env => env.request r d ⟨next, born, cs⟩
  | .relay prio next, cs, env => env.schedule prio 0 (.resume ⟨next, born, cs⟩)
  | .read next, cs, env => run born (next env.comp) cs env
  | .write s next, cs, env => run born next cs { env with comp := s }
  | .emit o next, cs, env =>
      run born next cs { env with out := env.out ++ [⟨env.now, born, cs, o⟩] }

def runTask (env : Env τ R σ O E) (t : Task τ R σ O E) : Env τ R σ O E :=
  run t.born t.code t.charges env

/-- `env.process(generator)` from outside a process. -/
def start (env : Env τ R σ O E) (g : Gen τ R σ O E Unit) : Env τ R σ O E :=
  env.schedule .urgent 0 (.resume ⟨g, env.now, []⟩)

/-- How one `env.step()` ends. -/
inductive Step (τ R σ O E : Type) [LinearOrder τ] [Zero τ] where
  | next (env : Env τ R σ O E)
  | stopped (env : Env τ R σ O E)
  | raised (e : E) (env : Env τ R σ O E)

/-- The callbacks of an event, at the time of the event. -/
def fire (env : Env τ R σ O E) : Work τ R σ O E → Step τ R σ O E
  | .resume t => .next (env.runTask t)
  | .grant r (some d) t => .next (env.serve r d t)
  | .grant r none t => .next ((env.release r).runTask t)
  | .leave r t => .next ((env.release r).runTask t)
  | .released r => .next (env.trigger r)
  | .ended => .next env
  | .failed e => .raised e env
  | .stop => .stopped env

/-- `env.step()`; `none` on an empty schedule. -/
def step (env : Env τ R σ O E) : Option (Step τ R σ O E) :=
  env.queue.pop.map fun p => fire { env with now := p.1.time, queue := p.2 } p.1.work

end Env

end SmartDisk.DiscreteEvents
