import SmartDisk.FifoStation
import Mathlib.Data.Finset.Max

/-!
# A resource serves its jobs in the closed form's order

The processes of the driver ask for one resource, keep it for their service time
and report. The times at which the units become free in the closed form are, at
every moment, the times at which the jobs in service will end together with one
time not later than now for each idle unit.
-/
namespace SmartDisk.FifoService
open ActionSystem DiscreteEvents EventInvariants EventRuns FifoStation

variable {τ R σ E : Type} [AddCommGroup τ] [LinearOrder τ]

/-- The process of job `i`. -/
def visit (r : R) (j : Job τ) (i : ℕ) : Gen τ R σ ℕ E Unit :=
  .hold r (some j.service) (.emit i (.ret ()))

/-- The job that a starting process belongs to. -/
def arrives : Work τ R σ ℕ E → Option ℕ
  | .resume ⟨.hold _ _ (.emit i _), _, _⟩ => some i
  | _ => none

def reports (t : Task τ R σ ℕ E) : Option ℕ :=
  match t.code with
  | .emit i _ => some i
  | _ => none

/-- The job that occupies a unit. -/
def serves : Work τ R σ ℕ E → Option ℕ
  | .grant _ _ t | .leave _ t => reports t
  | _ => none

/-- The only work there is, with the times it is pending for. -/
def Known (r : R) (job : ℕ → Job τ) (done : ℕ → τ) (a : τ) : Work τ R σ ℕ E → Prop
  | .resume t => ∃ i, t.code = visit r (job i) i ∧ (job i).arrival = a
  | .grant q d t => ∃ i, q = r ∧ d = some (job i).service ∧ t.code = .emit i (.ret ()) ∧
      (job i).service.1 + a = done i
  | .leave q t => ∃ i, q = r ∧ t.code = .emit i (.ret ()) ∧ a = done i
  | .released q => q = r
  | .ended => True
  | .failed _ | .stop => False

/-! ### Order in the heap -/

/-- The values of `f` on the pending work, in the order of the heap. -/
def listed (f : Work τ R σ ℕ E → Option ℕ) (extra : List (Work τ R σ ℕ E))
    (env : Env τ R σ ℕ E) : List ℕ :=
  (pending extra env).filterMap fun x => f x.2

theorem listed_cons (f : Work τ R σ ℕ E → Option ℕ) (w : Work τ R σ ℕ E)
    (env : Env τ R σ ℕ E) : listed f [w] env = (f w).toList ++ listed f [] env := by
  rw [listed, pending_cons, List.filterMap_cons, listed]
  cases f w <;> rfl

theorem listed_schedule_perm (f : Work τ R σ ℕ E → Option ℕ) (env : Env τ R σ ℕ E)
    (prio : Priority) (d : τ) (w : Work τ R σ ℕ E) :
    (listed f [] (env.schedule prio d w)).Perm ((f w).toList ++ listed f [] env) := by
  refine ((pending_schedule env prio d w).filterMap _).trans ?_
  rw [List.filterMap_cons]
  cases f w <;> rfl

theorem pending_schedule_eq (env : Env τ R σ ℕ E) (prio : Priority) (d : τ)
    (w : Work τ R σ ℕ E) : ∃ before after, pending [] env = before ++ after ∧
      pending [] (env.schedule prio d w) = before ++ (env.now + d, w) :: after ∧
      ∀ x ∈ after, ∃ e ∈ env.queue.events, x = (e.time, e.work) ∧
        Event.le ⟨env.now + d, prio, env.eid, w⟩ e := by
  let e : Event τ (Work τ R σ ℕ E) := ⟨env.now + d, prio, env.eid, w⟩
  let p : Event τ (Work τ R σ ℕ E) → Bool := fun b => ¬ e.le b
  refine ⟨(env.queue.events.takeWhile p).map fun b => (b.time, b.work),
    (env.queue.events.dropWhile p).map fun b => (b.time, b.work), ?_, ?_, ?_⟩
  · rw [← List.map_append, List.takeWhile_append_dropWhile]
    rfl
  · change (env.queue.events.orderedInsert Event.le e).map _ = _
    rw [List.orderedInsert_eq_take_drop, List.map_append, List.map_cons]
  · intro x hx
    obtain ⟨b, hb, rfl⟩ := List.mem_map.mp hx
    refine ⟨b, (List.dropWhile_sublist _).subset hb, rfl, ?_⟩
    have hsorted := env.queue.sorted.sublist (List.dropWhile_sublist p)
    cases hdrop : env.queue.events.dropWhile p with
    | nil => simp [hdrop] at hb
    | cons a rest =>
        have ha : e.le a := by
          have := List.head?_dropWhile_not p env.queue.events
          rw [hdrop] at this
          simpa [p] using this
        rw [hdrop] at hb hsorted
        rcases List.mem_cons.mp hb with rfl | hb
        · exact ha
        · exact le_trans (α := τ ×ₗ ℕ ×ₗ ℕ) ha ((List.pairwise_cons.mp hsorted).1 b hb)

theorem listed_schedule {f : Work τ R σ ℕ E → Option ℕ} {env : Env τ R σ ℕ E}
    {prio : Priority} {d : τ} {w : Work τ R σ ℕ E} (hw : f w = none) :
    listed f [] (env.schedule prio d w) = listed f [] env := by
  obtain ⟨before, after, henv, hsched, -⟩ := pending_schedule_eq env prio d w
  rw [listed, listed, hsched, henv, List.filterMap_append, List.filterMap_append,
    List.filterMap_cons_none (f := fun x : τ × Work τ R σ ℕ E => f x.2) hw]

/-- New work of a kind that is only ever scheduled behind its like comes last. -/
theorem listed_schedule_last {f : Work τ R σ ℕ E → Option ℕ} {env : Env τ R σ ℕ E}
    {prio : Priority} {d : τ} {w : Work τ R σ ℕ E}
    (h : ∀ e ∈ env.queue.events, (f e.work).isSome = true →
      ¬ Event.le ⟨env.now + d, prio, env.eid, w⟩ e) :
    listed f [] (env.schedule prio d w) = listed f [] env ++ (f w).toList := by
  obtain ⟨before, after, henv, hsched, hafter⟩ := pending_schedule_eq env prio d w
  have hnone : after.filterMap (fun x => f x.2) = [] := by
    rw [List.filterMap_eq_nil_iff]
    intro x hx
    obtain ⟨e, he, rfl, hle⟩ := hafter x hx
    by_contra hsome
    exact h e he (Option.isSome_iff_ne_none.mpr hsome) hle
  rw [listed, listed, hsched, henv, List.filterMap_append, List.filterMap_append,
    List.filterMap_cons, hnone, List.append_nil]
  cases f w <;> simp

/-! ### The invariant -/

variable [DecidableEq R]

/-- `g` jobs have been granted a unit, the next `l` wait and `m` more are starting. -/
structure Station (r : R) (free : List τ) (job : ℕ → Job τ) (extra : List (Work τ R σ ℕ E))
    (env : Env τ R σ ℕ E) (g l m : ℕ) (idle : Multiset τ) : Prop where
  known : ∀ x ∈ pending extra env, Known r job (finish free job) x.1 x.2
  urgent : ∀ e ∈ env.queue.events, (arrives e.work).isSome = true → e.prio = .urgent
  instant : ∀ x ∈ pending extra env, (arrives x.2).isSome = true → x.1 = env.now
  starting : listed arrives extra env = List.range' (g + l) m
  waiting : ∀ w ∈ (env.res r).waiting, ∃ i, w.delay = some (job i).service ∧
    w.task.code = .emit i (.ret ()) ∧ (job i).arrival ≤ env.now
  asked : (env.res r).waiting.filterMap (fun w => reports w.task) = List.range' g l
  placed : (listed serves extra env ++ env.out.map (·.value)).Perm (List.range g)
  units : (freeAfter free job g : Multiset τ) =
    ((listed serves extra env).map (finish free job) : List τ) + idle
  idle_le : ∀ x ∈ idle, x ≤ env.now
  out : ∀ o ∈ env.out, o.time = finish free job o.value

/-- An idle unit next to a waiting job has only just become idle. -/
def Sharp (r : R) (env : Env τ R σ ℕ E) (idle : Multiset τ) : Prop :=
  (env.res r).waiting ≠ [] → ∀ x ∈ idle, x = env.now

section
variable {r : R} {free : List τ} {job : ℕ → Job τ} {env : Env τ R σ ℕ E}
variable {extra : List (Work τ R σ ℕ E)} {g l m : ℕ} {idle : Multiset τ}

theorem known_serves {a : τ} {w : Work τ R σ ℕ E}
    (h : Known r job (finish free job) a w) : (serves w).isSome = Holds r w := by
  cases w with
  | grant q d t =>
      obtain ⟨i, rfl, -, hcode, -⟩ := h
      simp [serves, reports, hcode]
  | leave q t =>
      obtain ⟨i, rfl, hcode, -⟩ := h
      simp [serves, reports, hcode]
  | failed e => cases h
  | stop => cases h
  | resume t => rfl
  | released q => rfl
  | ended => rfl

theorem Station.length_serving (h : Station r free job extra env g l m idle) :
    (listed serves extra env).length = count (Holds r) (pending extra env) := by
  have hknown := h.known
  unfold listed count
  generalize pending extra env = ps at hknown
  induction ps with
  | nil => rfl
  | cons x ps ih =>
      have hx := known_serves (hknown x List.mem_cons_self)
      have htail := ih fun y hy => hknown y (List.mem_cons_of_mem x hy)
      rw [List.filterMap_cons, List.countP_cons, ← hx, ← htail]
      cases serves x.2 <;> simp

/-- Idle units and units in use are all the units. -/
theorem Station.card_idle (h : Station r free job extra env g l m idle) (hfree : free ≠ [])
    (husers : (env.res r).users = count (Holds r) (pending extra env)) :
    (env.res r).users + idle.card = free.length := by
  have hcard := congrArg Multiset.card h.units
  rw [Multiset.coe_card, length_freeAfter hfree, Multiset.card_add, Multiset.coe_card,
    List.length_map, h.length_serving, ← husers] at hcard
  exact hcard.symm

omit [DecidableEq R] in
/-- Among the idle units, the one that the closed form picks next. -/
theorem exists_next (hne : idle ≠ 0) (hle : ∀ x ∈ idle, x ≤ env.now)
    (hsharp : (∀ x ∈ idle, x = env.now) ∨ (job g).arrival = env.now)
    (harr : (job g).arrival ≤ env.now) :
    ∃ x ∈ idle, (∀ b ∈ idle.erase x, x ≤ b) ∧ max (job g).arrival x = env.now := by
  obtain ⟨x, hx, hmin⟩ := Multiset.exists_min_image id hne
  refine ⟨x, hx, fun b hb => hmin b (Multiset.mem_of_mem_erase hb), ?_⟩
  rcases hsharp with hall | harr'
  · rw [hall x hx, max_eq_right harr]
  · rw [harr', max_eq_left (hle x hx)]

variable [IsOrderedAddMonoid τ]

omit [DecidableEq R] in
/-- Whatever serves now or later ends no earlier than now. -/
theorem Station.busy_ge (h : Station r free job [] env g l m idle) (ha : Ahead env) :
    ∀ b ∈ ((listed serves [] env).map (finish free job) : Multiset τ), env.now ≤ b := by
  intro b hb
  rw [Multiset.mem_coe, List.mem_map] at hb
  obtain ⟨i, hi, rfl⟩ := hb
  obtain ⟨⟨a, w⟩, hx, hw⟩ := List.mem_filterMap.mp hi
  have hknown := h.known _ hx
  have hnow : env.now ≤ a := ha _ hx
  cases w with
  | grant q d t =>
      obtain ⟨j, -, -, hcode, hdone⟩ := hknown
      have hij : j = i := by simpa [serves, reports, hcode] using hw
      subst hij
      exact hdone ▸ hnow.trans (le_add_of_nonneg_left (job j).service.2)
  | leave q t =>
      obtain ⟨j, -, hcode, hdone⟩ := hknown
      have hij : j = i := by simpa [serves, reports, hcode] using hw
      subst hij
      exact hdone ▸ hnow
  | _ => cases hw

/-- Granting the first waiting job, if there is an idle unit for it. -/
theorem Station.trigger (h : Station r free job [] env g l m idle) (ha : Ahead env)
    (hs : free.Pairwise (· ≤ ·)) (hfree : free ≠ [])
    (husers : (env.res r).users = count (Holds r) (pending [] env))
    (hcap : (env.res r).capacity = free.length)
    (hsharp : (env.res r).waiting ≠ [] → (∀ x ∈ idle, x = env.now) ∨
      (env.res r).waiting.tail = [] ∧ (job g).arrival = env.now) :
    ∃ g' l' idle', g' + l' = g + l ∧ Station r free job [] (env.trigger r) g' l' m idle' ∧
      Sharp r (env.trigger r) idle' := by
  have hcard := h.card_idle hfree husers
  unfold Env.trigger
  split
  · rename_i hnil
    exact ⟨g, l, idle, rfl, h, fun hne => absurd hnil hne⟩
  rename_i w ws hws
  split
  swap
  · rename_i hfull
    have hzero : idle = 0 := by
      rw [← Multiset.card_eq_zero]
      omega
    exact ⟨g, l, idle, rfl, h, fun _ x hx => by simp [hzero] at hx⟩
  rename_i hroom
  obtain ⟨i, hdelay, hcode, harr⟩ := h.waiting w (by rw [hws]; exact List.mem_cons_self)
  have hasked := h.asked
  rw [hws, List.filterMap_cons_some (b := i) (by simp [reports, hcode])] at hasked
  obtain ⟨hi, hl, hrest⟩ := List.range'_eq_cons_iff.mp hasked.symm
  subst hi
  obtain ⟨l, rfl⟩ := Nat.exists_eq_add_of_lt hl
  simp only [zero_add, Nat.add_sub_cancel] at hrest
  have hne : idle ≠ 0 := by
    rintro rfl
    rw [Multiset.card_zero] at hcard
    omega
  have hor := hsharp (by simp [hws])
  obtain ⟨x, hx, hmin, hmax⟩ := exists_next hne h.idle_le (hor.imp id And.right) harr
  have hunits := h.units
  rw [← Multiset.cons_erase hx] at hunits
  obtain ⟨hfin, hafter⟩ := freeAfter_serve hs hunits
    (fun b hb => (h.idle_le x hx).trans (h.busy_ge ha b hb)) hmin hmax
  have hperm := listed_schedule_perm serves (env.setRes r ⟨(env.res r).capacity,
    (env.res r).users + 1, ws⟩) .normal 0 (.grant r w.delay w.task)
  have hserves : serves (.grant r w.delay w.task) = some g := by simp [serves, reports, hcode]
  rw [hserves] at hperm
  refine ⟨g + 1, l, idle.erase x, by omega, ?_, ?_⟩
  · constructor
    · intro y hy
      rcases mem_pending_schedule.mp hy with rfl | hy
      · exact ⟨g, rfl, hdelay, hcode, by rw [hfin]; simp⟩
      · exact h.known y hy
    · intro e he harrives
      rcases (Heap.mem_push _ _ _).mp he with rfl | he
      · cases harrives
      · exact h.urgent e he harrives
    · intro y hy harrives
      rcases mem_pending_schedule.mp hy with rfl | hy
      · cases harrives
      · exact h.instant y hy harrives
    · rw [listed_schedule rfl]
      exact h.starting.trans (congrArg (List.range' · m) (by omega))
    · intro v hv
      refine h.waiting v ?_
      rw [hws]
      exact List.mem_cons_of_mem w (by simpa using hv)
    · simpa using hrest
    · refine (hperm.append_right _).trans ?_
      rw [List.range_succ]
      exact (List.Perm.cons g h.placed).trans (List.perm_append_singleton g _).symm
    · rw [hafter, Multiset.coe_eq_coe.mpr (hperm.map (finish free job))]
      rfl
    · exact fun y hy => h.idle_le y (Multiset.mem_of_mem_erase hy)
    · exact h.out
  · intro hne' y hy
    have htail : (env.res r).waiting.tail ≠ [] := by simpa [hws] using hne'
    rcases hor with hall | ⟨hnil, -⟩
    · exact hall y (Multiset.mem_of_mem_erase hy)
    · exact absurd hnil htail

omit [DecidableEq R] [IsOrderedAddMonoid τ] in
/-- Freed units and ended processes are no one's job. -/
theorem Station.schedule {prio : Priority} {d : τ} {w : Work τ R σ ℕ E}
    (h : Station r free job [] env g l m idle)
    (hknown : Known r job (finish free job) (env.now + d) w) (harr : arrives w = none)
    (hserves : serves w = none) :
    Station r free job [] (env.schedule prio d w) g l m idle where
  known x hx := by
    rcases mem_pending_schedule.mp hx with rfl | hx
    · exact hknown
    · exact h.known x hx
  urgent e he harrives := by
    rcases (Heap.mem_push _ _ _).mp he with rfl | he
    · simp [harr] at harrives
    · exact h.urgent e he harrives
  instant x hx harrives := by
    rcases mem_pending_schedule.mp hx with rfl | hx
    · simp [harr] at harrives
    · exact h.instant x hx harrives
  starting := (listed_schedule harr).trans h.starting
  waiting := h.waiting
  asked := h.asked
  placed := by
    rw [listed_schedule hserves]
    exact h.placed
  units := by
    rw [listed_schedule hserves]
    exact h.units
  idle_le := h.idle_le
  out := h.out

omit [IsOrderedAddMonoid τ] in
theorem Station.setRes {x : Resource τ R σ ℕ E} (h : Station r free job [] env g l m idle)
    (hx : x.waiting = (env.res r).waiting) :
    Station r free job [] (env.setRes r x) g l m idle where
  known := h.known
  urgent := h.urgent
  instant := h.instant
  starting := h.starting
  waiting w hw := h.waiting w (by simpa [hx] using hw)
  asked := by simpa [hx] using h.asked
  placed := h.placed
  units := h.units
  idle_le := h.idle_le
  out := h.out

omit [DecidableEq R] [IsOrderedAddMonoid τ] in
/-- Work that is neither a starting job nor one in service can be forgotten. -/
theorem Station.drop {w : Work τ R σ ℕ E} (h : Station r free job [w] env g l m idle)
    (harr : arrives w = none) (hserves : serves w = none) :
    Station r free job [] env g l m idle where
  known x hx := h.known x (List.mem_cons_of_mem _ hx)
  urgent := h.urgent
  instant x hx := h.instant x (List.mem_cons_of_mem _ hx)
  starting := by simpa [listed_cons, harr] using h.starting
  waiting := h.waiting
  asked := h.asked
  placed := by simpa [listed_cons, hserves] using h.placed
  units := by simpa [listed_cons, hserves] using h.units
  idle_le := h.idle_le
  out := h.out

omit [IsOrderedAddMonoid τ] in
/-- The first starting job joins the end of the queue. -/
theorem Station.enqueue {t : Task τ R σ ℕ E}
    (h : Station r free job [.resume t] env g l m idle) :
    ∃ i m', t.code = visit r (job i) i ∧ i = g + l ∧ (job i).arrival = env.now ∧ m = m' + 1 ∧
      Station r free job [] (env.setRes r { env.res r with
        waiting := (env.res r).waiting ++
          [⟨env.now, some (job i).service, ⟨.emit i (.ret ()), t.born, t.charges⟩⟩] })
        g (l + 1) m' idle := by
  obtain ⟨i, hcode, harr⟩ := h.known (env.now, .resume t) List.mem_cons_self
  have hstart := h.starting
  have harrives : arrives (.resume t) = some i := by
    obtain ⟨code, born, charges⟩ := t
    subst hcode
    rfl
  rw [listed_cons, harrives, Option.toList_some, List.singleton_append] at hstart
  obtain ⟨hi, hm, hrest⟩ := List.range'_eq_cons_iff.mp hstart.symm
  obtain ⟨m', rfl⟩ := Nat.exists_eq_add_of_lt hm
  simp only [zero_add, Nat.add_sub_cancel] at hrest
  refine ⟨i, m', hcode, hi.symm, harr, by omega, ?_⟩
  constructor
  · exact fun x hx => h.known x (List.mem_cons_of_mem _ hx)
  · exact h.urgent
  · exact fun x hx => h.instant x (List.mem_cons_of_mem _ hx)
  · exact hrest.trans (congrArg (List.range' · m') (by omega))
  · intro v hv
    simp only [Env.setRes_res, Function.update_self, List.mem_append, List.mem_singleton] at hv
    rcases hv with hv | rfl
    · exact h.waiting v hv
    · exact ⟨i, rfl, rfl, harr.le⟩
  · simp only [Env.setRes_res, Function.update_self, List.filterMap_append, h.asked]
    rw [List.range'_concat, ← hi]
    simp [reports]
  · have hplaced := h.placed
    rw [listed_cons] at hplaced
    exact hplaced
  · have hunits := h.units
    rw [listed_cons] at hunits
    exact hunits
  · exact h.idle_le
  · exact h.out

omit [DecidableEq R] [IsOrderedAddMonoid τ] in
theorem Station.serve {q : R} {d : Delay τ} {t : Task τ R σ ℕ E}
    (h : Station r free job [.grant q (some d) t] env g l m idle) :
    Station r free job [] (env.serve q d t) g l m idle := by
  obtain ⟨i, rfl, hd, hcode, hdone⟩ := h.known (env.now, .grant q (some d) t) List.mem_cons_self
  have hserves : serves (Work.leave q { t with charges := t.charges ++ [(some q, d.1)] }) =
      serves (Work.grant q (some d) t) := rfl
  have hperm := listed_schedule_perm serves
    { env with served := env.served ++ [(q, env.now, env.now + d.1)] } .normal d.1
    (.leave q { t with charges := t.charges ++ [(some q, d.1)] })
  rw [hserves] at hperm
  have hperm' : (listed serves [] (env.serve q d t)).Perm
      (listed serves [.grant q (some d) t] env) := by
    rw [listed_cons]
    exact hperm
  cases hd
  constructor
  · intro x hx
    rcases mem_pending_schedule.mp hx with rfl | hx
    · exact ⟨i, rfl, hcode, (add_comm _ _).trans hdone⟩
    · exact h.known x (List.mem_cons_of_mem _ hx)
  · intro e he harrives
    rcases (Heap.mem_push _ _ _).mp he with rfl | he
    · cases harrives
    · exact h.urgent e he harrives
  · intro x hx harrives
    rcases mem_pending_schedule.mp hx with rfl | hx
    · cases harrives
    · exact h.instant x (List.mem_cons_of_mem _ hx) harrives
  · refine Eq.trans ?_ h.starting
    rw [listed_cons]
    exact listed_schedule rfl
  · exact h.waiting
  · exact h.asked
  · exact (hperm'.append_right _).trans h.placed
  · rw [Multiset.coe_eq_coe.mpr (hperm'.map _)]
    exact h.units
  · exact h.idle_le
  · exact h.out

omit [DecidableEq R] [IsOrderedAddMonoid τ] in
/-- The job at the end of its service reports and leaves an idle unit behind. -/
theorem Station.retire {q : R} {t : Task τ R σ ℕ E}
    (h : Station r free job [.leave q t] env g l m idle) :
    q = r ∧ ∃ i, t.code = .emit i (.ret ()) ∧
      Station r free job [] { env with out := env.out ++ [⟨env.now, t.born, t.charges, i⟩] }
        g l m (env.now ::ₘ idle) := by
  obtain ⟨i, rfl, hcode, hdone⟩ := h.known (env.now, .leave q t) List.mem_cons_self
  have hserves : serves (.leave q t) = some i := by simp [serves, reports, hcode]
  refine ⟨rfl, i, hcode, ?_⟩
  constructor
  · exact fun x hx => h.known x (List.mem_cons_of_mem _ hx)
  · exact h.urgent
  · exact fun x hx => h.instant x (List.mem_cons_of_mem _ hx)
  · have hstarting := h.starting
    rw [listed_cons] at hstarting
    exact hstarting
  · exact h.waiting
  · exact h.asked
  · have hplaced := h.placed
    rw [listed_cons, hserves] at hplaced
    refine List.Perm.trans ?_ hplaced
    change (listed serves [] env ++ (env.out ++ [_]).map _).Perm _
    simp only [List.map_append, List.map_cons, List.map_nil, Option.toList_some,
      List.cons_append, List.nil_append, ← List.append_assoc]
    exact List.perm_append_singleton _ _
  · have hunits := h.units
    rw [listed_cons, hserves, Option.toList_some, List.singleton_append, List.map_cons,
      ← Multiset.cons_coe, Multiset.cons_add, ← Multiset.add_cons, ← hdone] at hunits
    exact hunits
  · intro x hx
    rcases Multiset.mem_cons.mp hx with rfl | hx
    · exact le_rfl
    · exact h.idle_le x hx
  · intro o ho
    rcases List.mem_append.mp ho with ho | ho
    · exact h.out o ho
    · rw [List.mem_singleton.mp ho]
      exact hdone

/-! ### One event -/

variable {P : σ → Prop} {Q : τ → List (Option R × τ) → ℕ → Prop}

/-- The callbacks of an event keep the station in step with the closed form. -/
theorem Station.fire {env' : Env τ R σ ℕ E} {w : Work τ R σ ℕ E}
    (h : Station r free job [w] env g l m idle) (hsound : Sound P Q [w] env) (ha : Ahead env)
    (hs : free.Pairwise (· ≤ ·)) (hfree : free ≠ []) (hcap : (env.res r).capacity = free.length)
    (hsharp : Sharp r env idle) (hf : env.fire w = .next env') :
    ∃ g' l' m' idle', g' + l' + m' = g + l + m ∧ Station r free job [] env' g' l' m' idle' ∧
      Sharp r env' idle' := by
  cases w with
  | resume t =>
      obtain ⟨i, m', hcode, hi, harr, rfl, hqueued⟩ := h.enqueue
      have husers := (hsound.drop fun _ => rfl).users r
      have hrun : env' = env.request r (some (job i).service)
          ⟨.emit i (.ret ()), t.born, t.charges⟩ := by
        cases hf
        rw [Env.runTask, hcode]
        rfl
      have hjoined := hqueued.trigger ha hs hfree
        (by simpa using husers) (by simpa using hcap) (fun _ => ?_)
      · obtain ⟨g', l', idle', hsum, hst, hsh⟩ := hjoined
        exact ⟨g', l', m', idle', by omega, hrun ▸ hst, hrun ▸ hsh⟩
      · by_cases hnil : (env.res r).waiting = []
        · right
          have hl : l = 0 := by simpa [hnil] using h.asked.symm
          have hig : g = i := by omega
          exact ⟨by simp [hnil], hig ▸ harr⟩
        · exact .inl (hsharp hnil)
  | grant q d t =>
      obtain ⟨i, rfl, rfl, hcode, hdone⟩ := h.known (env.now, .grant q d t) List.mem_cons_self
      cases hf
      exact ⟨g, l, m, idle, rfl, h.serve, hsharp⟩
  | leave q t =>
      obtain ⟨rfl, i, hcode, hst⟩ := h.retire
      have hrun : env' = Env.schedule (Env.schedule (Env.setRes
          { env with out := env.out ++ [⟨env.now, t.born, t.charges, i⟩] } q
          { env.res q with users := (env.res q).users - 1 }) .normal 0 (.released q))
          .normal 0 .ended := by
        cases hf
        rw [Env.runTask, hcode]
        rfl
      refine ⟨g, l, m, env.now ::ₘ idle, rfl, ?_, ?_⟩
      · rw [hrun]
        apply Station.schedule (w := .ended) ?_ trivial rfl rfl
        apply Station.schedule (w := .released q) ?_ rfl rfl rfl
        exact hst.setRes rfl
      · intro hne x hx
        rw [hrun] at hne ⊢
        rcases Multiset.mem_cons.mp hx with rfl | hx
        · rfl
        · exact hsharp (by simpa using hne) x hx
  | released q =>
      obtain rfl : q = r := h.known (env.now, .released q) List.mem_cons_self
      cases hf
      have hst : Station q free job [] env g l m idle := h.drop rfl rfl
      have husers := (hsound.drop fun _ => rfl).users q
      obtain ⟨g', l', idle', hsum, hst', hsh⟩ :=
        hst.trigger ha hs hfree husers hcap fun hne => .inl (hsharp hne)
      exact ⟨g', l', m, idle', by omega, hst', hsh⟩
  | ended =>
      cases hf
      exact ⟨g, l, m, idle, rfl, h.drop rfl rfl, hsharp⟩
  | failed e => cases hf
  | stop => cases hf

/-! ### The clock -/

omit [DecidableEq R] [IsOrderedAddMonoid τ] in
/-- The clock may move up to the next event. -/
theorem Station.forward {a : τ} (h : Station r free job [] env g l m idle) (hle : env.now ≤ a)
    (hall : ∀ x ∈ pending [] env, a ≤ x.1) :
    Station r free job [] (setNow env a) g l m idle where
  known := h.known
  urgent := h.urgent
  instant x hx harrives := by
    have hnow := h.instant x hx harrives
    exact le_antisymm (hnow.trans_le hle) (hall x hx)
  starting := h.starting
  waiting w hw := by
    obtain ⟨i, hdelay, hcode, harr⟩ := h.waiting w hw
    exact ⟨i, hdelay, hcode, harr.trans hle⟩
  asked := h.asked
  placed := h.placed
  units := h.units
  idle_le x hx := (h.idle_le x hx).trans hle
  out := h.out

omit [IsOrderedAddMonoid τ] in
/-- While a unit is idle next to a waiting job, the clock stands still. -/
theorem Station.sharp_forward {a : τ} (h : Station r free job [] env g l m idle)
    (hv : Valid P Q env) (hfree : free ≠ []) (hcap : (env.res r).capacity = free.length)
    (hsharp : Sharp r env idle) (hle : env.now ≤ a) (hall : ∀ x ∈ pending [] env, a ≤ x.1) :
    Sharp r (setNow env a) idle := by
  intro hne x hx
  have hcard := h.card_idle hfree (hv.sound.users r)
  have hpos : 0 < idle.card := Multiset.card_pos_iff_exists_mem.mpr ⟨x, hx⟩
  have hbusy := hv.busy r hne
  have hfree : 0 < count (Frees r) (pending [] env) := by omega
  obtain ⟨y, hy, hfrees⟩ := exists_of_count_pos hfree
  have hnow := (hv.sound.prompt y hy r hfrees).1
  rw [hsharp hne x hx]
  exact le_antisymm hle (hnow ▸ hall y hy)

omit [DecidableEq R] [IsOrderedAddMonoid τ] in
theorem Station.pop {e : Event τ (Work τ R σ ℕ E)} {q : Heap τ (Work τ R σ ℕ E)}
    (h : Station r free job [] (setNow env e.time) g l m idle)
    (hp : env.queue.pop = some (e, q)) :
    Station r free job [e.work] (afterPop env e q) g l m idle := by
  have hpend : pending [e.work] (afterPop env e q) = pending [] (setNow env e.time) :=
    pending_pop hp
  have hlisted : ∀ f, listed f [e.work] (afterPop env e q) =
      listed f [] (setNow env e.time) := fun f => by rw [listed, hpend, listed]
  constructor
  · rw [hpend]; exact h.known
  · exact fun a ha => h.urgent a (Heap.pop_events hp ▸ List.mem_cons_of_mem e ha)
  · rw [hpend]; exact h.instant
  · rw [hlisted]; exact h.starting
  · exact h.waiting
  · exact h.asked
  · rw [hlisted]; exact h.placed
  · rw [hlisted]; exact h.units
  · exact h.idle_le
  · exact h.out

/-! ### Runs of the driver -/

abbrev Any (_ : σ) : Prop := True
abbrev Whatever (_ : τ) (_ : List (Option R × τ)) (_ : ℕ) : Prop := True

/-- The state of the driver between two moves. -/
structure Served (r : R) (free : List τ) (job : ℕ → Job τ) (s : Clocked τ R σ ℕ E) : Prop where
  valid : Valid Any Whatever s.env
  ahead : Ahead s.env
  fresh : ∀ e ∈ s.env.queue.events, e.eid < s.env.eid
  capacity : (s.env.res r).capacity = free.length
  station : ∃ g l m idle, g + l + m = s.started ∧ Station r free job [] s.env g l m idle ∧
    Sharp r s.env idle

omit [IsOrderedAddMonoid τ] in
theorem fresh_plain : Plain fun env : Env τ R σ ℕ E =>
    ∀ e ∈ env.queue.events, e.eid < env.eid where
  schedule env prio d w h _ _ _ e he := by
    rcases (Heap.mem_push _ _ _).mp he with rfl | he
    · exact Nat.lt_succ_self _
    · exact (h e he).trans (Nat.lt_succ_self _)
  setRes _ _ _ h _ := h
  write _ _ h := h
  emit _ _ h _ := h

omit [DecidableEq R] [IsOrderedAddMonoid τ] in
/-- A job that starts now comes after those that have started before. -/
theorem Station.start (h : Station r free job [] env g l m idle)
    (hfresh : ∀ e ∈ env.queue.events, e.eid < env.eid)
    (harr : (job (g + l + m)).arrival = env.now) :
    Station r free job [] (env.start (visit r (job (g + l + m)) (g + l + m))) g l (m + 1)
      idle := by
  unfold Env.start
  constructor
  · intro x hx
    rcases mem_pending_schedule.mp hx with rfl | hx
    · exact ⟨g + l + m, rfl, by simpa using harr⟩
    · exact h.known x hx
  · intro e he harrives
    rcases (Heap.mem_push _ _ _).mp he with rfl | he
    · rfl
    · exact h.urgent e he harrives
  · intro x hx harrives
    rcases mem_pending_schedule.mp hx with rfl | hx
    · simp
    · exact h.instant x hx harrives
  · rw [listed_schedule_last, h.starting, List.range'_concat]
    · simp [arrives, visit]
    · intro e he harrives hle
      have htime := h.instant (e.time, e.work) (List.mem_map_of_mem he) harrives
      have hprio := h.urgent e he harrives
      have hlt := hfresh e he
      simp only [Event.le, Event.key, Prod.Lex.le_iff, ofLex_toLex] at hle
      simp only at htime
      simp [htime, hprio] at hle
      omega
  · exact h.waiting
  · exact h.asked
  · rw [listed_schedule rfl]; exact h.placed
  · rw [listed_schedule rfl]; exact h.units
  · exact h.idle_le
  · exact h.out

variable {s t : Clocked τ R σ ℕ E}

theorem Served.start (h : Served r free job s) (harr : (job s.started).arrival = s.env.now) :
    Served r free job ⟨s.env.start (visit r (job s.started) s.started), s.started + 1⟩ := by
  obtain ⟨g, l, m, idle, hsum, hst, hsharp⟩ := h.station
  refine ⟨valid_start h.valid ?_, h.ahead.schedule le_rfl,
    fresh_plain.schedule _ _ _ _ h.fresh le_rfl (fun _ => rfl) rfl, h.capacity, ?_⟩
  · exact ⟨trivial, trivial⟩
  · rw [← hsum] at harr ⊢
    exact ⟨g, l, m + 1, idle, rfl, hst.start h.fresh harr, hsharp⟩

omit [IsOrderedAddMonoid τ] in
theorem Served.advance {a : τ} (h : Served r free job s) (hfree : free ≠ [])
    (hle : s.env.now ≤ a) (hall : ∀ e ∈ s.env.queue.events, a ≤ e.time) :
    Served r free job { s with env := setNow s.env a } := by
  have hall' : ∀ x ∈ pending [] s.env, a ≤ x.1 := by
    intro x hx
    obtain ⟨e, he, rfl⟩ := List.mem_map.mp hx
    exact hall e he
  obtain ⟨g, l, m, idle, hsum, hst, hsharp⟩ := h.station
  exact ⟨valid_forward h.valid hle hall', hall', h.fresh, h.capacity, g, l, m, idle, hsum,
    hst.forward hle hall', hst.sharp_forward h.valid hfree h.capacity hsharp hle hall'⟩

theorem Served.tick {env' : Env τ R σ ℕ E} (h : Served r free job s)
    (hs : free.Pairwise (· ≤ ·)) (hfree : free ≠ []) (hstep : s.env.step = some (.next env')) :
    Served r free job { s with env := env' } := by
  have hsettled := h.valid.step hstep
  obtain ⟨⟨e, q⟩, hp, hf⟩ := Option.map_eq_some_iff.mp hstep
  obtain ⟨hsound, -, hahead⟩ := h.valid.popped hp
  have hmem : (e.time, e.work) ∈ pending [] s.env := pending_pop hp ▸ List.mem_cons_self
  have hall : ∀ x ∈ pending [] s.env, e.time ≤ x.1 := pending_pop hp ▸ ahead_popped hp
  have hle := h.ahead _ hmem
  obtain ⟨g, l, m, idle, hsum, hst, hsharp⟩ := h.station
  have hpop := (hst.forward hle hall).pop hp
  have hsharp' : Sharp r (afterPop s.env e q) idle :=
    hst.sharp_forward h.valid hfree h.capacity hsharp hle hall
  obtain ⟨g', l', m', idle', hsum', hst', hsh'⟩ :=
    hpop.fire hsound hahead hs hfree h.capacity hsharp' hf
  have hfresh : ∀ a ∈ (afterPop s.env e q).queue.events, a.eid < s.env.eid := fun a ha =>
    h.fresh a (Heap.pop_events hp ▸ List.mem_cons_of_mem e ha)
  refine ⟨hsettled.valid, hsettled.ahead, ?_, ?_, g', l', m', idle', hsum'.trans hsum, hst', hsh'⟩
  · exact fresh_plain.fire hfresh (fun r d t _ => fresh_plain.schedule
      { afterPop s.env e q with served := _ } _ _ _ hfresh d.2 (by simp) rfl) hf
  · exact ((within_fire hf).capacity r).trans h.capacity

variable {code : ℕ → Gen τ R σ ℕ E Unit} {env₀ : Env τ R σ ℕ E}

theorem Served.move {a : Move τ} (h : Served r free job s) (hs : free.Pairwise (· ≤ ·))
    (hfree : free ≠ []) (hcode : ∀ i, code i = visit r (job i) i)
    (hm : move (fun i => (job i).arrival) code a s = some t) : Served r free job t := by
  cases a with
  | start =>
      simp only [FifoStation.move] at hm
      split at hm
      · cases hm
        rw [hcode]
        exact h.start (Eq.symm ‹_›)
      · cases hm
  | advance a =>
      simp only [FifoStation.move] at hm
      split at hm
      · rename_i hcond
        cases hm
        exact h.advance hfree hcond.1 hcond.2
      · cases hm
  | tick =>
      simp only [FifoStation.move] at hm
      split at hm
      · cases hm
        exact h.tick hs hfree ‹_›
      · cases hm

theorem reachable_served {now : τ} {capacity : R → ℕ} {x : σ} (hpos : 0 < capacity r)
    (hcode : ∀ i, code i = visit r (job i) i)
    (h : (driver (fun i => (job i).arrival) code (Env.initial now capacity x)).Reachable s) :
    Served r (List.replicate (capacity r) now) job s := by
  have hfree : List.replicate (capacity r) now ≠ [] := by
    simpa using hpos.ne'
  apply h.invariant
  · refine ⟨valid_initial now capacity trivial, ?_, ?_, ?_, 0, 0, 0,
      Multiset.replicate (capacity r) now, rfl, ?_, ?_⟩
    · simp [driver, Env.initial, Ahead, pending, Heap.empty]
    · simp [driver, Env.initial, Heap.empty]
    · simp [driver, Env.initial]
    · constructor <;>
        simp +contextual [driver, Env.initial, Heap.empty, pending, listed, freeAfter,
          Multiset.mem_replicate, Multiset.coe_replicate]
    · simp [Sharp, driver, Env.initial]
  · intro a s t hs _ hm
    exact hs.move (List.pairwise_replicate.mpr (.inr le_rfl)) hfree hcode hm

end

end SmartDisk.FifoService
