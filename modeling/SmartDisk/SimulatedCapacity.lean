import SmartDisk.EmulatedLatency

/-!
# How many services the emulator runs at once

A resource never has more users than units, but that holds in the order in which
events are processed. `sched_request` sets the clock back, so one simulated
instant can be visited twice, each time with all units. Where no request steps
back over an instant, the services that contain it fit the capacities.
-/
namespace SmartDisk.SimulatedCapacity
open ActionSystem DiscreteEvents EventInvariants EventRuns StorageSim EmulatedLatency

/-- Requests come with a timestamp the wall clock has reached. -/
def Punctual (a : Action) (_ : Server) : Prop :=
  ∀ address request wall, a = .poll (some (address, request)) wall → request.timestamp ≤ wall

/-- No request sets the clock from after `t` to `t` or before. -/
def KeepsClear (t : ℚ) (a : Action) (s : Server) : Prop :=
  ∀ address request wall, a = .poll (some (address, request)) wall →
    request.timestamp ≤ t → s.env.now ≤ t

def Fits (cfg : Config) (t : ℚ) (env : SimEnv) : Prop :=
  ∀ r, openCount env.served r t ≤ cfg.capacity r

/-- Before the loop has passed `t` the open services are in the heap; afterwards their
number is final. -/
def Clear (cfg : Config) (t : ℚ) (s : Server) : Prop :=
  (∀ r, (s.env.res r).capacity = cfg.capacity r) ∧
    match s.mode with
    | .crashed _ => Fits cfg t s.env
    | _ => Covered t s.env ∨ Past t s.env

theorem clear_receive {t : ℚ} (cfg : Config) {env : SimEnv}
    {recv : Option (Address × Request)} (h : Covered t env ∨ Past t env)
    (hkeep : ∀ address request, recv = some (address, request) →
      request.timestamp ≤ t → env.now ≤ t) :
    Covered t (receive cfg env recv) ∨ Past t (receive cfg env recv) := by
  obtain _ | ⟨address, request⟩ := recv
  · exact h
  rcases h with h | h
  · exact .inl ((show Covered t (setNow env request.timestamp) from h).schedule)
  · have hlt : t < request.timestamp := by
      by_contra hle
      exact absurd h.now (not_lt.mpr (hkeep _ _ rfl (not_lt.mp hle)))
    have hset : Past t (setNow env request.timestamp) := ⟨h.room, hlt, h.ahead⟩
    exact .inr (hset.schedule le_rfl)

theorem receive_capacity (cfg : Config) (env : SimEnv) (recv : Option (Address × Request))
    (r : Component) : ((receive cfg env recv).res r).capacity = (env.res r).capacity := by
  cases recv <;> rfl

theorem fits_of_clear {cfg : Config} {t : ℚ} {env : SimEnv} (hg : Good cfg env)
    (hcap : ∀ r, (env.res r).capacity = cfg.capacity r) (h : Covered t env ∨ Past t env) :
    Fits cfg t env := by
  intro r
  rw [← hcap r]
  exact covered_or_past_room hg h r

theorem clear_of_turn {cfg : Config} {t : ℚ} {a : Action} {s s' : Server} (hl : Loop cfg s)
    (hs : Clear cfg t s) (hkeep : KeepsClear t a s) (h : Turn cfg a s s') : Clear cfg t s' := by
  obtain ⟨hcap, hs⟩ := hs
  cases h with
  | poll recv wall ha hmode hwall ht =>
      simp only [Loop, hmode] at hl hs
      obtain ⟨hg, hi, -⟩ := hl
      have hrecv : Covered t (receive cfg s.env recv) ∨ Past t (receive cfg s.env recv) :=
        clear_receive cfg hs fun address request hr => hkeep address request wall (hr ▸ ha)
      have hcap' : ∀ r, ((receive cfg s.env recv).res r).capacity = cfg.capacity r := fun r =>
        (receive_capacity cfg s.env recv r).trans (hcap r)
      subst ht
      unfold run_until
      split
      · rename_i hnow
        refine ⟨hcap', ?_⟩
        rcases hrecv with h | h
        · exact .inl h.schedule
        · exact .inr (h.schedule (sub_nonneg.mpr hnow.le))
      · exact ⟨hcap', fits_of_clear (good_receive hg hi recv) hcap' hrecv⟩
  | tick til wall r ha hmode hwall hr ht =>
      simp only [Loop, hmode] at hl hs
      obtain ⟨hg, -⟩ := hl
      obtain ⟨⟨e, q⟩, hp, hf⟩ := Option.map_eq_some_iff.mp hr
      have hpop := covered_or_past_pop hg hs hp
      subst ht
      cases r with
      | next env =>
          have hfire := covered_or_past_fire hpop hf
          simp only [Clear, finish, hmode]
          refine ⟨fun r => ((within_fire hf).capacity r).trans (hcap r), ?_⟩
          exact hfire.imp id fun h => ⟨h.room, h.now, h.ahead⟩
      | stopped env =>
          obtain ⟨-, rfl⟩ := fire_stopped hf
          exact ⟨hcap, hpop⟩
      | raised e env =>
          have hfits := fits_of_clear hg hcap hs
          obtain rfl := fire_raised hf
          exact ⟨hcap, hfits⟩

theorem reachable_clear {cfg : Config} {init t : ℚ} {s : Server}
    (hs : (run_server cfg init).ReachableWith (KeepsClear t) s) : Loop cfg s ∧ Clear cfg t s := by
  apply hs.invariant (I := fun s => Loop cfg s ∧ Clear cfg t s)
  · refine ⟨reachable_loop .start, fun _ => rfl, .inl fun r => ?_⟩
    exact Nat.zero_le _
  · intro a s s' h hkeep hstep
    exact ⟨(turn_of_step hstep).loop h.1, clear_of_turn h.1 h.2 hkeep (turn_of_step hstep)⟩

/-- At an instant that no request steps back over, the open services fit the capacities. -/
theorem services_within_capacity {cfg : Config} {init t : ℚ} {s : Server}
    (hs : (run_server cfg init).ReachableWith (KeepsClear t) s) :
    openCount s.env.served .decoder t ≤ cfg.num_decoder ∧
      openCount s.env.served .face_detector t ≤ 1 ∧ openCount s.env.served .bus t ≤ 1 := by
  have hfits : Fits cfg t s.env := by
    obtain ⟨hloop, hcap, hclear⟩ := reachable_clear hs
    cases hmode : s.mode with
    | polling =>
        simp only [Loop, hmode] at hloop hclear
        exact fits_of_clear hloop.1 hcap hclear
    | running til =>
        simp only [Loop, hmode] at hloop hclear
        exact fits_of_clear hloop.1 hcap hclear
    | crashed e => simpa only [hmode] using hclear
  exact ⟨hfits .decoder, hfits .face_detector, hfits .bus⟩

theorem mem_lateArrival {issued wall : ℚ} {n : ℕ} {address : Address} {request : Request}
    (h : .poll (some (address, request)) wall ∈ lateArrival issued n) :
    request = decodeAt 0 ∧ wall = 0 ∨ request = decodeAt issued ∧ wall = 1 / 10000 := by
  simp only [lateArrival, List.mem_cons, List.mem_append, List.mem_replicate, Action.poll.injEq,
    Option.some.injEq, Prod.mk.injEq, reduceCtorEq, and_false, false_or, or_false] at h
  rcases h with ⟨⟨-, h⟩, hw⟩ | ⟨⟨-, h⟩, hw⟩
  · exact .inl ⟨h, hw⟩
  · exact .inr ⟨h, hw⟩

theorem lateArrival_after_runs :
    ((run_server oneDecoder 0).exec (lateArrival (1 / 15000) 13)
      (run_server oneDecoder 0).start).isSome = true := by decide +kernel

/-- Issued after the instant, the second request does not disturb it. -/
theorem lateArrival_keepsClear : (run_server oneDecoder 0).ReachableWith (KeepsClear (1 / 20000))
    ((run_server oneDecoder 0).last _ lateArrival_after_runs) := by
  apply System.reachableWith_last
  refine ⟨fun _ _ _ _ _ => by decide +kernel, fun t _ => .of_forall ?_ t⟩
  intro a ha s address request wall hpoll hle
  subst hpoll
  rcases mem_lateArrival (List.mem_cons_of_mem _ ha) with ⟨-, rfl⟩ | ⟨rfl, -⟩
  · simp at ha
  · exact absurd hle (by decide +kernel)

theorem services_within_capacity_lateArrival :
    openCount ((run_server oneDecoder 0).last _ lateArrival_after_runs).env.served .decoder
        (1 / 20000) ≤ oneDecoder.num_decoder ∧
      openCount ((run_server oneDecoder 0).last _ lateArrival_after_runs).env.served
        .face_detector (1 / 20000) ≤ 1 ∧
      openCount ((run_server oneDecoder 0).last _ lateArrival_after_runs).env.served .bus
        (1 / 20000) ≤ 1 :=
  services_within_capacity lateArrival_keepsClear

theorem lateArrival_within_runs :
    ((run_server oneDecoder 0).exec (lateArrival (1 / 20000) 4)
      (run_server oneDecoder 0).start).isSome = true := by decide +kernel

/-- Issued while the first picture is being decoded, the second request is granted the
only decoder at its own timestamp, in the middle of the first service. -/
theorem decoder_used_twice : ¬ ∀ s t,
    (run_server oneDecoder 0).ReachableWith Punctual s →
      openCount s.env.served .decoder t ≤ oneDecoder.num_decoder := by
  intro h
  have hreach : (run_server oneDecoder 0).ReachableWith Punctual
      ((run_server oneDecoder 0).last _ lateArrival_within_runs) := by
    refine System.reachableWith_last _ _ (.of_forall ?_ _)
    intro a ha s address request wall hpoll
    subst hpoll
    rcases mem_lateArrival ha with ⟨rfl, rfl⟩ | ⟨rfl, rfl⟩ <;> decide +kernel
  exact absurd (h _ (1 / 20000) hreach) (by decide +kernel)

end SmartDisk.SimulatedCapacity
