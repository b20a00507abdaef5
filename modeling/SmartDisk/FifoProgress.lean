import SmartDisk.FifoService

/-!
# Every started job is finished

Each event of the driver takes some job one stage further, so that events alone
run into an empty heap. With an empty heap no job is starting or in service, and
no job waits, because a job waits only while its resource is in use.
-/
namespace SmartDisk.FifoProgress
open ActionSystem DiscreteEvents EventInvariants EventRuns FifoStation FifoService

variable {τ R σ E : Type} [AddCommGroup τ] [LinearOrder τ] [DecidableEq R]

/-- Stages that the event's job has still before it; a waiting job has five. -/
def weight : Work τ R σ ℕ E → ℕ
  | .resume _ => 6
  | .grant _ _ _ => 4
  | .leave _ _ => 3
  | .released _ | .ended => 1
  | .failed _ | .stop => 0

def rank (r : R) (extra : List (Work τ R σ ℕ E)) (env : Env τ R σ ℕ E) : ℕ :=
  ((pending extra env).map fun x => weight x.2).sum + 5 * (env.res r).waiting.length

section
variable {r : R} {env : Env τ R σ ℕ E}

omit [DecidableEq R] in
theorem rank_cons (w : Work τ R σ ℕ E) : rank r [w] env = weight w + rank r [] env := by
  simp [rank, pending_cons, add_assoc]

omit [DecidableEq R] in
theorem rank_schedule (prio : Priority) (d : τ) (w : Work τ R σ ℕ E) :
    rank r [] (env.schedule prio d w) = weight w + rank r [] env := by
  rw [rank, ((pending_schedule env prio d w).map _).sum_eq]
  simp [rank, add_assoc]

theorem rank_setRes (r : R) (env : Env τ R σ ℕ E) (x : Resource τ R σ ℕ E) :
    rank r [] (env.setRes r x) + 5 * (env.res r).waiting.length =
      rank r [] env + 5 * x.waiting.length := by
  simp only [rank, pending_setRes, Env.setRes_res, Function.update_self]
  omega

theorem rank_trigger_le : rank r [] (env.trigger r) ≤ rank r [] env := by
  unfold Env.trigger
  split
  · exact le_rfl
  rename_i w ws hws
  split
  · rw [rank_schedule]
    have := rank_setRes r env ⟨(env.res r).capacity, (env.res r).users + 1, ws⟩
    simp only [hws, List.length_cons] at this
    simp only [weight]
    omega
  · exact le_rfl

theorem rank_release : rank r [] (env.release r) = 1 + rank r [] env := by
  unfold Env.release
  rw [rank_schedule]
  have := rank_setRes r env { env.res r with users := (env.res r).users - 1 }
  dsimp only at this ⊢
  simp only [weight]
  omega

theorem rank_fire {job : ℕ → Job τ} {done : ℕ → τ} {env' : Env τ R σ ℕ E}
    {w : Work τ R σ ℕ E} (hw : Known r job done env.now w) (hf : env.fire w = .next env') :
    rank r [] env' < rank r [w] env := by
  rw [rank_cons]
  cases w with
  | resume t =>
      obtain ⟨i, hcode, -⟩ := hw
      cases hf
      rw [Env.runTask, hcode]
      change rank r [] (Env.trigger (env.setRes r _) r) < 6 + _
      refine rank_trigger_le.trans_lt ?_
      have := rank_setRes r env { env.res r with
        waiting := (env.res r).waiting ++
          [⟨env.now, some (job i).service, ⟨.emit i (.ret ()), t.born, t.charges⟩⟩] }
      simp only [List.length_append, List.length_singleton] at this
      dsimp only at this ⊢
      omega
  | grant q d t =>
      obtain ⟨i, rfl, rfl, hcode, -⟩ := hw
      cases hf
      unfold Env.serve
      rw [rank_schedule]
      exact Nat.add_lt_add_right (by decide : 3 < 4) (rank q [] env)
  | leave q t =>
      obtain ⟨i, rfl, hcode, -⟩ := hw
      cases hf
      rw [Env.runTask, hcode]
      change rank q [] (Env.schedule { env.release q with out := _ } _ _ _) < 3 + _
      rw [rank_schedule]
      change 1 + rank q [] (env.release q) < _
      rw [rank_release]
      omega
  | released q =>
      obtain rfl : q = r := hw
      cases hf
      exact rank_trigger_le.trans_lt (Nat.lt_add_of_pos_left Nat.one_pos)
  | ended =>
      cases hf
      exact Nat.lt_add_of_pos_left Nat.one_pos
  | failed e => cases hw
  | stop => cases hw

/-- Known work neither fails nor stops the loop. -/
theorem exists_fire {job : ℕ → Job τ} {done : ℕ → τ} {w : Work τ R σ ℕ E}
    (hw : Known r job done env.now w) : ∃ env', env.fire w = .next env' := by
  cases w with
  | grant q d t =>
      obtain ⟨i, -, rfl, -⟩ := hw
      exact ⟨_, rfl⟩
  | failed e => cases hw
  | stop => cases hw
  | _ => exact ⟨_, rfl⟩

end

variable {r : R} {free : List τ} {job : ℕ → Job τ} {s : Clocked τ R σ ℕ E}

/-- While there is an event, it can be processed, and something gets done. -/
theorem exists_tick (h : Served r free job s) (hne : s.env.queue.events ≠ []) :
    ∃ env', s.env.step = some (.next env') ∧ rank r [] env' < rank r [] s.env := by
  obtain ⟨g, l, m, idle, -, hst, -⟩ := h.station
  obtain ⟨e, q, hp⟩ := Heap.exists_pop hne
  have hknown : Known r job (finish free job) (afterPop s.env e q).now e.work :=
    hst.known (e.time, e.work) (pending_pop hp ▸ List.mem_cons_self)
  obtain ⟨env', hf⟩ := exists_fire hknown
  refine ⟨env', ?_, ?_⟩
  · rw [Env.step, hp]
    exact congrArg some hf
  · refine (rank_fire hknown hf).trans_eq ?_
    rw [rank, pending_pop hp]
    rfl

variable [IsOrderedAddMonoid τ]

/-- Events alone empty the heap. -/
theorem drains {arrival : ℕ → τ} {code : ℕ → Gen τ R σ ℕ E Unit} {env₀ : Env τ R σ ℕ E}
    (h : Served r free job s) (hs : free.Pairwise (· ≤ ·)) (hfree : free ≠ []) :
    ∃ n t, (driver arrival code env₀).exec (List.replicate n .tick) s = some t ∧
      t.started = s.started ∧ t.env.queue.events = [] := by
  induction hn : rank r [] s.env using Nat.strongRecOn generalizing s with
  | _ n ih =>
      by_cases hne : s.env.queue.events = []
      · exact ⟨0, s, rfl, rfl, hne⟩
      · obtain ⟨env', hstep, hlt⟩ := exists_tick h hne
        obtain ⟨k, t, ht, hstarted, hempty⟩ :=
          ih _ (hn ▸ hlt) (h.tick hs hfree hstep) rfl
        refine ⟨k + 1, t, ?_, hstarted, hempty⟩
        rw [List.replicate_succ, System.exec]
        change (move arrival code .tick s).bind _ = _
        rw [move, hstep]
        exact ht

omit [IsOrderedAddMonoid τ] in
/-- Once the heap is empty, every started job has been finished, each once. -/
theorem all_finished (h : Served r free job s) (hfree : free ≠ [])
    (hempty : s.env.queue.events = []) :
    (s.env.out.map (·.value)).Perm (List.range s.started) := by
  obtain ⟨g, l, m, idle, hsum, hst, -⟩ := h.station
  have hpend : pending [] s.env = [] := by simp [pending, hempty]
  have hm : m = 0 := by
    have := hst.starting
    rw [listed, hpend] at this
    simpa using this.symm
  have hl : l = 0 := by
    by_contra hl
    have hne : (s.env.res r).waiting ≠ [] := by
      intro hnil
      have := hst.asked
      rw [hnil] at this
      simp only [List.filterMap_nil] at this
      exact hl (List.range'_eq_nil_iff.mp this.symm)
    have hbusy := h.valid.busy r hne
    rw [h.valid.sound.users r, hpend, h.capacity] at hbusy
    exact hfree (List.length_eq_zero_iff.mp (Nat.le_zero.mp hbusy))
  have hplaced := hst.placed
  rw [listed, hpend] at hplaced
  rw [← hsum, hm, hl]
  exact hplaced

omit [IsOrderedAddMonoid τ] in
/-- As many reports as jobs are the reports of all jobs. -/
theorem finished_of_length (h : Served r free job s) (hlen : s.env.out.length = s.started) :
    (s.env.out.map (·.value)).Perm (List.range s.started) := by
  obtain ⟨g, l, m, idle, hsum, hst, -⟩ := h.station
  have hplaced := hst.placed
  have htotal := hplaced.length_eq
  rw [List.length_append, List.length_map, hlen, List.length_range] at htotal
  have hserving : listed serves [] s.env = [] := List.length_eq_zero_iff.mp (by omega)
  have hgranted : g = s.started := by omega
  rw [hserving, List.nil_append, hgranted] at hplaced
  exact hplaced

omit [IsOrderedAddMonoid τ] in
/-- Every reported time is the closed form's. -/
theorem reported_time (h : Served r free job s) :
    ∀ o ∈ s.env.out, o.time = finish free job o.value := by
  obtain ⟨g, l, m, idle, -, hst, -⟩ := h.station
  exact hst.out

omit [IsOrderedAddMonoid τ] in
theorem started_of_reported (h : Served r free job s) {o : Output τ R ℕ} (ho : o ∈ s.env.out) :
    o.value < s.started := by
  obtain ⟨g, l, m, idle, hsum, hst, -⟩ := h.station
  have hmem : o.value ∈ List.range g :=
    hst.placed.mem_iff.mp (List.mem_append_right _ (List.mem_map_of_mem ho))
  have := List.mem_range.mp hmem
  omega

/-- No job has arrived before the simulator's start. -/
theorem reachable_since {now : τ} {capacity : R → ℕ} {x : σ} {code : ℕ → Gen τ R σ ℕ E Unit}
    (hpos : 0 < capacity r) (hcode : ∀ i, code i = visit r (job i) i)
    (h : (driver (fun i => (job i).arrival) code (Env.initial now capacity x)).Reachable s) :
    ∀ i < s.started, now ≤ (job i).arrival := by
  have hboth : now ≤ s.env.now ∧ ∀ i < s.started, now ≤ (job i).arrival := by
    induction h with
    | start => exact ⟨le_rfl, by simp [driver]⟩
    | @step s t a hs _ hm ih =>
        obtain ⟨hnow, harr⟩ := ih
        have hserved := reachable_served hpos hcode hs
        cases a with
        | start =>
            simp only [driver, move] at hm
            split at hm
            · cases hm
              refine ⟨hnow, fun i hi => ?_⟩
              rcases Nat.lt_succ_iff_lt_or_eq.mp hi with hi | rfl
              · exact harr i hi
              · exact hnow.trans_eq ‹_›
            · cases hm
        | advance a =>
            simp only [driver, move] at hm
            split at hm
            · rename_i hcond
              cases hm
              exact ⟨hnow.trans hcond.1, harr⟩
            · cases hm
        | tick =>
            simp only [driver, move] at hm
            split at hm
            · rename_i env' hstep
              cases hm
              refine ⟨?_, harr⟩
              obtain ⟨⟨e, q⟩, hp, hf⟩ := Option.map_eq_some_iff.mp hstep
              have hmem : (e.time, e.work) ∈ pending [] s.env := pending_pop hp ▸ List.mem_cons_self
              have hle := hserved.ahead _ hmem
              rw [(within_fire hf).now]
              exact hnow.trans hle
            · cases hm
  exact hboth.2

end SmartDisk.FifoProgress
