import SmartDisk.ActionSystem

/-!
# A producer and a consumer joined by a bounded queue

The producer loops over jobs, makes an item of each and puts it into the queue; after
the last one it puts a sentinel. When it cannot start or a job fails, it ends at once
and puts nothing more. The consumer takes items until it finds the sentinel and then
waits for the producer to end. A sentinel is `none`.

The entries that are not dealt with, in the consumer, in the queue or still to be
made, are what every step of the producer leaves alone.
-/
namespace SmartDisk.Pipelines
open ActionSystem

structure Pipeline (E J X T : Type) where
  jobs : Except E (List J)
  produce : J → Except E X
  consume : X → T → T
  init : T
  capacity : ℕ
  capacity_pos : 0 < capacity

inductive Producer (E J X : Type) where
  | start
  | next (rest : List J)
  | producing (j : J) (rest : List J)
  | putting (x : X) (rest : List J)
  | sentinel
  | ended
  | died (e : E)

inductive Consumer (X : Type) where
  | getting
  | consuming (x : X)
  | joining
  | finished

structure State (E J X T : Type) where
  producer : Producer E J X := .start
  q : List (Option X) := []
  consumer : Consumer X := .getting
  total : T

inductive Action where
  | produce | consume
  deriving DecidableEq, Repr

variable {E J X T : Type} (c : Pipeline E J X T)

/-- A put waits while the queue is full. -/
def step_producer (s : State E J X T) : Option (State E J X T) :=
  match s.producer with
  | .start =>
      match c.jobs with
      | .ok jobs => some { s with producer := .next jobs }
      | .error e => some { s with producer := .died e }
  | .next [] => some { s with producer := .sentinel }
  | .next (j :: rest) => some { s with producer := .producing j rest }
  | .producing j rest =>
      match c.produce j with
      | .ok x => some { s with producer := .putting x rest }
      | .error e => some { s with producer := .died e }
  | .putting x rest =>
      if s.q.length < c.capacity then some { s with producer := .next rest, q := s.q ++ [some x] }
      else none
  | .sentinel =>
      if s.q.length < c.capacity then some { s with producer := .ended, q := s.q ++ [none] }
      else none
  | .ended => none
  | .died _ => none

def Producer.over : Producer E J X → Bool
  | .ended | .died _ => true
  | _ => false

/-- A get waits while the queue is empty, the join while the producer runs. -/
def step_consumer (s : State E J X T) : Option (State E J X T) :=
  match s.consumer with
  | .getting =>
      match s.q with
      | [] => none
      | some x :: q => some { s with q, consumer := .consuming x }
      | none :: q => some { s with q, consumer := .joining }
  | .consuming x => some { s with consumer := .getting, total := c.consume x s.total }
  | .joining => if s.producer.over then some { s with consumer := .finished } else none
  | .finished => none

def system : System (State E J X T) Action where
  start := { total := c.init }
  step
    | .produce, s => step_producer c s
    | .consume, s => step_consumer c s

/-! ### What a step can do -/

inductive Produces (s : State E J X T) : State E J X T → Prop
  | starts (jobs : List J) : s.producer = .start → c.jobs = .ok jobs →
      Produces s { s with producer := .next jobs }
  | refuses (e : E) : s.producer = .start → c.jobs = .error e →
      Produces s { s with producer := .died e }
  | exhausts : s.producer = .next [] → Produces s { s with producer := .sentinel }
  | draws (j : J) (rest : List J) : s.producer = .next (j :: rest) →
      Produces s { s with producer := .producing j rest }
  | makes (j : J) (rest : List J) (x : X) : s.producer = .producing j rest →
      c.produce j = .ok x → Produces s { s with producer := .putting x rest }
  | fails (j : J) (rest : List J) (e : E) : s.producer = .producing j rest →
      c.produce j = .error e → Produces s { s with producer := .died e }
  | puts (x : X) (rest : List J) : s.producer = .putting x rest →
      s.q.length < c.capacity →
      Produces s { s with producer := .next rest, q := s.q ++ [some x] }
  | closes : s.producer = .sentinel → s.q.length < c.capacity →
      Produces s { s with producer := .ended, q := s.q ++ [none] }

inductive Consumes (s : State E J X T) : State E J X T → Prop
  | takes (x : X) (q : List (Option X)) : s.consumer = .getting → s.q = some x :: q →
      Consumes s { s with q, consumer := .consuming x }
  | closes (q : List (Option X)) : s.consumer = .getting → s.q = none :: q →
      Consumes s { s with q, consumer := .joining }
  | consumes (x : X) : s.consumer = .consuming x →
      Consumes s { s with consumer := .getting, total := c.consume x s.total }
  | joins : s.consumer = .joining → s.producer.over = true →
      Consumes s { s with consumer := .finished }

variable {c} {s t : State E J X T}

theorem step_producer_produces (h : step_producer c s = some t) : Produces c s t := by
  unfold step_producer at h
  cases hp : s.producer with
  | start =>
      cases hjobs : c.jobs with
      | ok jobs =>
          simp only [hp, hjobs, Option.some.injEq] at h
          exact h ▸ .starts jobs hp hjobs
      | error e =>
          simp only [hp, hjobs, Option.some.injEq] at h
          exact h ▸ .refuses e hp hjobs
  | next rest =>
      cases rest with
      | nil =>
          simp only [hp, Option.some.injEq] at h
          exact h ▸ .exhausts hp
      | cons j rest =>
          simp only [hp, Option.some.injEq] at h
          exact h ▸ .draws j rest hp
  | producing j rest =>
      cases hmade : c.produce j with
      | ok x =>
          simp only [hp, hmade, Option.some.injEq] at h
          exact h ▸ .makes j rest x hp hmade
      | error e =>
          simp only [hp, hmade, Option.some.injEq] at h
          exact h ▸ .fails j rest e hp hmade
  | putting x rest =>
      simp only [hp, Option.ite_none_right_eq_some, Option.some.injEq] at h
      exact h.2 ▸ .puts x rest hp h.1
  | sentinel =>
      simp only [hp, Option.ite_none_right_eq_some, Option.some.injEq] at h
      exact h.2 ▸ .closes hp h.1
  | ended =>
      simp only [hp] at h
      cases h
  | died e =>
      simp only [hp] at h
      cases h

theorem step_consumer_consumes (h : step_consumer c s = some t) : Consumes c s t := by
  unfold step_consumer at h
  cases hp : s.consumer with
  | getting =>
      cases hq : s.q with
      | nil =>
          simp only [hp, hq] at h
          cases h
      | cons entry q =>
          cases entry with
          | some x =>
              simp only [hp, hq, Option.some.injEq] at h
              exact h ▸ .takes x q hp hq
          | none =>
              simp only [hp, hq, Option.some.injEq] at h
              exact h ▸ .closes q hp hq
  | consuming x =>
      simp only [hp, Option.some.injEq] at h
      exact h ▸ .consumes x hp
  | joining =>
      simp only [hp, Option.ite_none_right_eq_some, Option.some.injEq] at h
      exact h.2 ▸ .joins hp h.1
  | finished =>
      simp only [hp] at h
      cases h

/-- A producer that cannot move is over or finds the queue full. -/
theorem refused_producer (h : step_producer c s = none) :
    s.producer.over = true ∨ c.capacity ≤ s.q.length := by
  unfold step_producer at h
  cases hp : s.producer with
  | ended | died e => exact .inl rfl
  | putting x rest =>
      simp only [hp, ite_eq_right_iff, reduceCtorEq, imp_false, not_lt] at h
      exact .inr h
  | sentinel =>
      simp only [hp, ite_eq_right_iff, reduceCtorEq, imp_false, not_lt] at h
      exact .inr h
  | start =>
      simp only [hp] at h
      cases hjobs : c.jobs <;> simp [hjobs] at h
  | next rest => cases rest <;> simp [hp] at h
  | producing j rest =>
      simp only [hp] at h
      cases hmade : c.produce j <;> simp [hmade] at h

/-- A consumer that cannot move has finished, waits for an entry or for the producer. -/
theorem refused_consumer (h : step_consumer c s = none) :
    s.consumer = .finished ∨ (s.consumer = .getting ∧ s.q = []) ∨
      (s.consumer = .joining ∧ s.producer.over = false) := by
  unfold step_consumer at h
  cases hp : s.consumer with
  | finished => exact .inl rfl
  | consuming x => simp [hp] at h
  | getting =>
      cases hq : s.q with
      | nil => exact .inr (.inl ⟨rfl, rfl⟩)
      | cons entry q => cases entry <;> simp [hp, hq] at h
  | joining =>
      simp only [hp, ite_eq_right_iff, reduceCtorEq, imp_false, Bool.not_eq_true] at h
      exact .inr (.inr ⟨rfl, h⟩)

/-! ### What is left -/

variable (c)

/-- The entries that a loop over some jobs puts into the queue. -/
def entries : List J → List (Option X)
  | [] => [none]
  | j :: rest =>
      match c.produce j with
      | .ok x => some x :: entries rest
      | .error _ => []

def all_entries : List (Option X) :=
  match c.jobs with
  | .ok jobs => entries c jobs
  | .error _ => []

/-- The entries that have not been put yet. -/
def upcoming : Producer E J X → List (Option X)
  | .start => all_entries c
  | .next rest => entries c rest
  | .producing j rest => entries c (j :: rest)
  | .putting x rest => some x :: entries c rest
  | .sentinel => [none]
  | .ended | .died _ => []

/-- The entry that the consumer has taken. -/
def held : Consumer X → List (Option X)
  | .getting => []
  | .consuming x => [some x]
  | .joining | .finished => [none]

def left (s : State E J X T) : List (Option X) := held s.consumer ++ s.q ++ upcoming c s.producer

def total_of (items : List X) : T := items.foldl (fun t x => c.consume x t) c.init

/-- The items that are consumed and the entries that are left are all. -/
def Balanced (s : State E J X T) : Prop :=
  ∃ items : List X, all_entries c = items.map some ++ left c s ∧ s.total = total_of c items

variable {c}

/-- The producer only moves entries towards the queue. -/
theorem Produces.left (h : Produces c s t) : left c t = left c s := by
  unfold Pipelines.left
  cases h with
  | starts jobs hp hjobs | refuses e hp hjobs => simp only [hp, upcoming, all_entries, hjobs]
  | exhausts hp | draws j rest hp => simp only [hp, upcoming, entries]
  | makes j rest x hp hmade | fails j rest e hp hmade => simp only [hp, upcoming, entries, hmade]
  | puts x rest hp | closes hp => simp only [hp, upcoming, List.append_assoc, List.cons_append,
      List.nil_append, List.append_nil]

theorem Produces.total (h : Produces c s t) : t.total = s.total := by
  cases h <;> rfl

theorem Produces.balanced (h : Produces c s t) (hs : Balanced c s) : Balanced c t := by
  obtain ⟨items, hall, htotal⟩ := hs
  exact ⟨items, by rw [h.left, hall], h.total.trans htotal⟩

theorem Consumes.balanced (h : Consumes c s t) (hs : Balanced c s) : Balanced c t := by
  obtain ⟨items, hall, htotal⟩ := hs
  cases h with
  | takes x q hp hq | closes q hp hq =>
      refine ⟨items, ?_, htotal⟩
      rw [hall]
      simp only [left, hp, hq, held, List.nil_append, List.cons_append]
  | joins hp =>
      refine ⟨items, ?_, htotal⟩
      rw [hall]
      simp only [left, hp, held]
  | consumes x hp =>
      refine ⟨items ++ [x], ?_, ?_⟩
      · rw [hall]
        simp only [left, hp, held, List.map_append, List.map_cons, List.map_nil, List.append_assoc,
          List.nil_append]
      · rw [total_of, List.foldl_append, ← total_of, ← htotal]
        rfl

theorem reachable_balanced (hs : (system c).Reachable s) : Balanced c s := by
  refine hs.invariant ⟨[], rfl, rfl⟩ ?_
  intro a s t hs _ h
  cases a with
  | produce => exact (step_producer_produces h).balanced hs
  | consume => exact (step_consumer_consumes h).balanced hs

theorem upcoming_over {p : Producer E J X} (h : p.over = true) : upcoming c p = [] := by
  cases p with
  | ended | died e => rfl
  | start | next rest | producing j rest | putting x rest | sentinel => cases h

/-! ### A sentinel closes the entries of jobs that all succeed -/

variable (c)

/-- The items of the jobs that succeed. -/
def made (jobs : List J) : List X := jobs.filterMap fun j => (c.produce j).toOption

variable {c} {jobs : List J}

theorem entries_of_ok (h : ∀ j ∈ jobs, ∃ x, c.produce j = .ok x) :
    entries c jobs = (made c jobs).map some ++ [none] := by
  induction jobs with
  | nil => rfl
  | cons j jobs ih =>
      obtain ⟨x, hx⟩ := h j List.mem_cons_self
      have hmade : made c (j :: jobs) = x :: made c jobs := by
        unfold made
        rw [List.filterMap_cons, hx]
        rfl
      rw [entries, hmade, hx, ih fun j hj => h j (List.mem_cons_of_mem _ hj)]
      rfl

theorem not_mem_entries {j : J} {e : E} (hj : j ∈ jobs) (he : c.produce j = .error e) :
    none ∉ entries c jobs := by
  induction jobs with
  | nil => cases hj
  | cons j' jobs ih =>
      rw [entries]
      cases hmade : c.produce j' with
      | error e' => exact List.not_mem_nil
      | ok x =>
          have hj' : j ∈ jobs := by
            rcases List.mem_cons.mp hj with rfl | hj
            · rw [hmade] at he
              cases he
            · exact hj
          intro hmem
          exact ih hj' ((List.mem_cons.mp hmem).resolve_left nofun)

/-- Items before the sentinel are told apart from it. -/
theorem split_sentinel {items items' : List X} {rest : List (Option X)}
    (h : items.map some ++ [none] = items'.map some ++ none :: rest) :
    items' = items ∧ rest = [] := by
  induction items generalizing items' with
  | nil =>
      cases items' with
      | nil => exact ⟨rfl, (List.cons.inj h).2.symm⟩
      | cons x items' => exact nomatch (List.cons.inj h).1
  | cons x items ih =>
      cases items' with
      | nil => exact nomatch (List.cons.inj h).1
      | cons y items' =>
          obtain ⟨hhead, htail⟩ := List.cons.inj h
          obtain ⟨rfl, hrest⟩ := ih htail
          exact ⟨by rw [Option.some.inj hhead], hrest⟩

/-! ### How a run ends -/

/-- When every job succeeds, a pipeline that cannot move has finished with all items. -/
theorem finishes (hjobs : c.jobs = .ok jobs) (hok : ∀ j ∈ jobs, ∃ x, c.produce j = .ok x)
    (hs : (system c).Reachable s) (hstuck : (system c).Stuck s) :
    s.consumer = .finished ∧ s.total = total_of c (made c jobs) := by
  obtain ⟨items, hall, htotal⟩ := reachable_balanced hs
  have hentries : all_entries c = (made c jobs).map some ++ [none] := by
    unfold all_entries
    rw [hjobs]
    exact entries_of_ok hok
  rw [hentries] at hall
  have hproducer := refused_producer (hstuck .produce)
  rcases refused_consumer (hstuck .consume) with hdone | ⟨hget, hq⟩ | ⟨hjoin, hrunning⟩
  · rw [left, hdone, held, List.append_assoc, List.singleton_append] at hall
    exact ⟨hdone, htotal.trans (congrArg _ (split_sentinel hall).1)⟩
  · exfalso
    have hover : s.producer.over = true := by
      refine hproducer.resolve_right fun hfull => ?_
      rw [hq] at hfull
      exact absurd c.capacity_pos (Nat.not_lt.mpr hfull)
    rw [left, hget, hq, upcoming_over hover] at hall
    have hmem : none ∈ items.map some ++ (held .getting ++ [] ++ [] : List (Option X)) := by
      rw [← hall]
      exact List.mem_append_right _ List.mem_cons_self
    simp [held] at hmem
  · exfalso
    rw [left, hjoin, held, List.append_assoc, List.singleton_append] at hall
    have hq := (List.append_eq_nil_iff.mp (split_sentinel hall).2).1
    rcases hproducer with hover | hfull
    · rw [hrunning] at hover
      cases hover
    · rw [hq] at hfull
      exact absurd c.capacity_pos (Nat.not_lt.mpr hfull)

/-- Without a sentinel the consumer never gets to the join. -/
theorem never_finishes (hnone : none ∉ all_entries c) (hs : (system c).Reachable s) :
    s.consumer ≠ .joining ∧ s.consumer ≠ .finished := by
  obtain ⟨items, hall, -⟩ := reachable_balanced hs
  have hheld : none ∉ held s.consumer := by
    intro hmem
    apply hnone
    rw [hall]
    exact List.mem_append_right _ (List.mem_append_left _ (List.mem_append_left _ hmem))
  constructor
  · intro h
    rw [h] at hheld
    exact hheld List.mem_cons_self
  · intro h
    rw [h] at hheld
    exact hheld List.mem_cons_self

/-- A pipeline that cannot move without having finished waits for an entry that never comes. -/
theorem waits_forever (hnone : none ∉ all_entries c) (hs : (system c).Reachable s)
    (hstuck : (system c).Stuck s) : s.consumer = .getting ∧ s.q = [] := by
  obtain ⟨hjoin, hdone⟩ := never_finishes hnone hs
  rcases refused_consumer (hstuck .consume) with h | h | h
  · exact absurd h hdone
  · exact h
  · exact absurd h.1 hjoin

/-! ### Every run ends -/

def producer_rank (c : Pipeline E J X T) : Producer E J X → ℕ
  | .start =>
      match c.jobs with
      | .ok jobs => 5 * jobs.length + 5
      | .error _ => 1
  | .next rest => 5 * rest.length + 4
  | .producing _ rest => 5 * rest.length + 8
  | .putting _ rest => 5 * rest.length + 7
  | .sentinel => 3
  | .ended | .died _ => 0

def consumer_rank : Consumer X → ℕ
  | .getting => 2
  | .consuming _ => 3
  | .joining => 1
  | .finished => 0

/-- An entry in the queue costs the consumer two steps. -/
def rank (c : Pipeline E J X T) (s : State E J X T) : ℕ :=
  producer_rank c s.producer + 2 * s.q.length + consumer_rank s.consumer

theorem Produces.rank_lt (h : Produces c s t) : rank c t < rank c s := by
  unfold rank
  cases h with
  | starts jobs hp hjobs | refuses e hp hjobs =>
      simp only [hp, producer_rank, hjobs]
      omega
  | exhausts hp =>
      simp only [hp, producer_rank]
      omega
  | draws j rest hp | makes j rest x hp hmade | fails j rest e hp hmade =>
      simp only [hp, producer_rank, List.length_cons]
      omega
  | puts x rest hp | closes hp =>
      simp only [hp, producer_rank, List.length_append, List.length_singleton]
      omega

theorem Consumes.rank_lt (h : Consumes c s t) : rank c t < rank c s := by
  unfold rank
  cases h with
  | takes x q hp hq | closes q hp hq =>
      simp only [hp, hq, consumer_rank, List.length_cons]
      omega
  | consumes x hp =>
      simp only [hp, consumer_rank]
      omega
  | joins hp =>
      simp only [hp, consumer_rank]
      omega

theorem step_rank_lt (a : Action) (s t : State E J X T) (h : (system c).step a s = some t) :
    rank c t < rank c s := by
  cases a with
  | produce => exact (step_producer_produces h).rank_lt
  | consume => exact (step_consumer_consumes h).rank_lt

end SmartDisk.Pipelines
