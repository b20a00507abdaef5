import SmartDisk.AnsweredOnce
import SmartDisk.EmulatedLatency

/-!
# What a failing request does to the server

An exception in a process is raised again by `env.run`, and nothing around the
loop of `run_server` catches it: one bad request ends the loop, and whatever was
in flight stays unanswered. Until a process raises nothing is lost, whatever bad
requests are in flight: each well-formed request received is answered once or
still scheduled.
-/
namespace SmartDisk.FaultIsolation
open ActionSystem DiscreteEvents EventInvariants EventRuns EventDelivery StorageSim
open RequestDelivery EmulatedLatency

/-- The requests a run receives. -/
def requests (as : List Action) : List (Address × Request) :=
  as.filterMap fun
    | .poll recv _ => recv
    | .tick _ => none

/-- The instant of the run lies in the future, and what an event resumes does not raise before
it yields, nor does a sub-process of it. -/
def Benign (cfg : Config) : Action → Server → Prop
  | .poll recv wall, s => (receive cfg s.env recv).now < wall + cfg.run_ahead
  | .tick _, s =>
      ∀ p ∈ s.env.queue.pop, ∀ t ∈ resumed p.1.work, raises t.code s.env.comp = false

instance decidableBenign (cfg : Config) : ∀ a s, Decidable (Benign cfg a s)
  | .poll recv wall, s =>
      inferInstanceAs (Decidable ((receive cfg s.env recv).now < wall + cfg.run_ahead))
  | .tick _, s => inferInstanceAs (Decidable
      (∀ p ∈ s.env.queue.pop, ∀ t ∈ resumed p.1.work, raises t.code s.env.comp = false))

/-- The replies to well-formed requests. -/
abbrev counted (cfg : Config) (r : Reply) : Bool := wellFormed cfg r.request

/-- The process does not go on to raise. -/
abbrev quiet (g : Proc Reply Unit) (s : VideoDecoderSim) : Prop := raises g s = false

/-- The process of a request: a well-formed one owes its reply, and a bad one, which may raise,
owes none that counts. -/
abbrev Served (cfg : Config) (g : Proc Reply Unit) : Prop :=
  Honest (·.Positioned cfg) {} quiet g ∨ Silent (·.Positioned cfg) (counted cfg) g

theorem settling_served (cfg : Config) :
    Settling (·.Positioned cfg) {} quiet (counted cfg) (Served cfg) :=
  settling_mixed ⟨le_rfl, rfl⟩ fun _ _ h => h

theorem served_serve_request {cfg : Config} (hcfg : Measured cfg) (x : Address × Request) :
    Served cfg (serve_request cfg x.2 x.1) ∧
      (owed {} (serve_request cfg x.2 x.1)).filter (counted cfg ·) =
        ({replyTo cfg x} : Multiset Reply).filter (counted cfg ·) := by
  cases hwf : wellFormed cfg x.2 with
  | true =>
      obtain ⟨hserve, howed⟩ := honest_serve_request hcfg hwf x.1
        fun _ _ _ h => inOrder_of_not_raises hcfg h
      exact ⟨.inl hserve, congrArg _ howed⟩
  | false =>
      have hsilent : Ensures (·.Positioned cfg) (fun _ o => counted cfg o = false)
          (fun _ _ => True) (serve_request cfg x.2 x.1) [] := by
        apply (ensures_serve_request cfg x.2 x.1).mono_out
        rintro cs reply ⟨hrequest, -⟩
        exact (congrArg (wellFormed cfg) hrequest).trans hwf
      have hnone : ¬ counted cfg (replyTo cfg x) := by
        rw [show counted cfg (replyTo cfg x) = wellFormed cfg x.2 from rfl, hwf]
        exact Bool.false_ne_true
      refine ⟨.inr ⟨[], hsilent⟩, ?_⟩
      rw [owed_silent ⟨le_rfl, rfl⟩ _ hsilent, Multiset.filter_singleton, if_neg hnone]
      rfl

structure Contained (cfg : Config) (received : List (Address × Request)) (s : Server) : Prop where
  ledger : Ledger cfg (Served cfg) (counted cfg) received s
  out : s.env.out = []
  alive : ∀ e, s.mode ≠ .crashed e

variable {cfg : Config}

theorem contained_start (cfg : Config) (init : ℚ) :
    Contained cfg [] (run_server cfg init).start where
  ledger := ledger_initial init
  out := rfl
  alive := by simp [run_server]

theorem Contained.receive (hcfg : Measured cfg) {received : List (Address × Request)} {s : Server}
    (hs : Contained cfg received s) (recv : Option (Address × Request)) :
    Contained cfg (received ++ recv.toList) { s with env := receive cfg s.env recv } := by
  cases recv with
  | none =>
      rw [Option.toList_none, List.append_nil]
      exact hs
  | some x =>
      obtain ⟨hserve, howed⟩ := served_serve_request hcfg x
      exact ⟨hs.ledger.receive x hserve howed, hs.out, hs.alive⟩

/-- `env.run` is entered, since its instant is in the future. -/
theorem Contained.run_until {received : List (Address × Request)} {s : Server}
    (hs : Contained cfg received s) {wall til : ℚ} (hlt : s.env.now < til) :
    Contained cfg received (run_until s s.env wall til) := by
  have hledger := hs.ledger.run_until wall hlt
  unfold StorageSim.run_until at *
  rw [if_pos hlt] at *
  exact ⟨hledger, hs.out, fun _ => nofun⟩

theorem Contained.finish {received : List (Address × Request)} {s : Server}
    (hs : Contained cfg received s) {r : Env.Step ℚ Component VideoDecoderSim Reply Exn}
    (hok : ∀ p ∈ s.env.queue.pop, ∀ t ∈ resumed p.1.work, raises t.code s.env.comp = false)
    (hr : s.env.step = some r) (wall : ℚ) : Contained cfg received (finish s wall r) := by
  obtain ⟨hledger, hcrash⟩ := hs.ledger.finish (settling_served cfg) hok hr wall
  have halive : ∀ e, (StorageSim.finish s wall r).mode ≠ .crashed e :=
    fun e he => hs.alive e (hcrash e he)
  refine ⟨hledger, ?_, halive⟩
  obtain ⟨⟨e, q⟩, hp, hf⟩ := Option.map_eq_some_iff.mp hr
  cases r with
  | next env => rfl
  | stopped env =>
      obtain ⟨-, rfl⟩ := fire_stopped hf
      exact hs.out
  | raised e env => exact absurd rfl (halive e)

/-- One step, which receives the requests of its action. -/
theorem Contained.step (hcfg : Measured cfg) {received : List (Address × Request)} {a : Action}
    {s t : Server} (hs : Contained cfg received s) (ha : Benign cfg a s)
    (h : StorageSim.step cfg a s = some t) : Contained cfg (received ++ requests [a]) t := by
  cases turn_of_step h with
  | poll recv wall haction hmode hwall ht =>
      subst haction ht
      have hrecv : requests [.poll recv wall] = recv.toList := by cases recv <;> rfl
      rw [hrecv]
      exact (hs.receive hcfg recv).run_until ha
  | tick til wall r haction hmode hwall hr ht =>
      subst haction ht
      have hrecv : requests [.tick wall] = [] := rfl
      rw [hrecv, List.append_nil]
      exact hs.finish ha hr wall

theorem Contained.exec (hcfg : Measured cfg) {init : ℚ} {received : List (Address × Request)}
    (as : List Action) {s t : Server} (hs : Contained cfg received s)
    (hg : (run_server cfg init).Guarded (Benign cfg) as s)
    (h : (run_server cfg init).exec as s = some t) :
    Contained cfg (received ++ requests as) t := by
  induction as generalizing s received with
  | nil =>
      cases h
      simpa [requests] using hs
  | cons a as ih =>
      obtain ⟨u, hu, ht⟩ := Option.bind_eq_some_iff.mp h
      have hcons : requests (a :: as) = requests [a] ++ requests as := by
        rw [requests, requests, requests, ← List.filterMap_append, List.singleton_append]
      rw [hcons, ← List.append_assoc]
      exact ih (hs.step hcfg hg.1 hu) (hg.2 u hu) ht

/-- In every run in which no process goes on to raise, whatever requests are received, the loop
never ends and each well-formed request received so far has either been answered once or is
still scheduled, also once. -/
theorem isolated_of_benign {cfg : Config} (hcfg : Measured cfg) (init : ℚ) (as : List Action)
    {s : Server} (hg : (run_server cfg init).Guarded (Benign cfg) as (run_server cfg init).start)
    (h : (run_server cfg init).exec as (run_server cfg init).start = some s) :
    (∀ e, s.mode ≠ .crashed e) ∧
      ((s.sent.map reply : Multiset Reply) + scheduled {} [] s.env).filter
          (wellFormed cfg ·.request) =
        ((requests as).map (replyTo cfg) : Multiset Reply).filter (wellFormed cfg ·.request) := by
  have hs := (contained_start cfg init).exec hcfg as hg h
  refine ⟨hs.alive, ?_⟩
  have hdue : due {} [] s.env = scheduled {} [] s.env := by
    rw [due, hs.out]
    exact add_zero _
  have hbalance := hs.ledger.balance
  rwa [hdue] at hbalance

/-! ### A run with a bad request -/

open AnsweredOnce (oneFace measured_oneFace)

deriving instance DecidableEq for Mode

/-- A server whose loop has ended serves nobody. -/
theorem step_crashed {s : Server} {e : Exn} (h : s.mode = .crashed e) (a : Action) :
    StorageSim.step cfg a s = none := by
  unfold StorageSim.step
  split
  · rfl
  · rw [h]
    cases a <;> rfl

def faceAt (timestamp : ℚ) : Request :=
  ⟨timestamp, OP_DECODE_FACE, "/d/a.jpg".toList, 0, none⟩

/-- There is no profile of this picture. -/
def missingAt (timestamp : ℚ) : Request :=
  ⟨timestamp, OP_DECODEONLY, "/d/b.jpg".toList, 0, none⟩

/-- While one client's face request is being served, another client sends a bad one. -/
def badNeighbour : List Action :=
  .poll (some (0, faceAt 0)) 0 :: (List.replicate 9 (.tick 0) ++
    .poll (some (1, missingAt (1 / 1000))) (1 / 1000) :: List.replicate 4 (.tick (1 / 1000)))

theorem badNeighbour_runs :
    ((run_server oneFace 0).exec badNeighbour (run_server oneFace 0).start).isSome = true := by
  decide +kernel

/-- The loop has ended with a `KeyError`, and the well-formed request is never answered. -/
theorem badNeighbour_ends_loop : ∃ s,
    (run_server oneFace 0).exec badNeighbour (run_server oneFace 0).start = some s ∧
      (0, faceAt 0) ∈ requests badNeighbour ∧ wellFormed oneFace (faceAt 0) = true ∧
      s.mode = .crashed .KeyError ∧ s.sent.length = 0 ∧
      ∀ a, (run_server oneFace 0).step a s = none := by
  have hmode : ((run_server oneFace 0).last badNeighbour badNeighbour_runs).mode =
      .crashed .KeyError := by decide +kernel
  exact ⟨_, (Option.some_get badNeighbour_runs).symm, by decide +kernel, by decide +kernel, hmode,
    by decide +kernel, step_crashed hmode⟩

/-- Two pictures, of which only the first has a face profile. The second takes a second to
decode. -/
def twoPictures : Config where
  decoder_lut p :=
    if p = "a.jpg".toList then some (1 / 10000, 10, 10)
    else if p = "b.jpg".toList then some (1, 4000, 3000)
    else none
  face_lut p := if p = "a.jpg".toList then some (1 / 10000, [⟨0, 0, 4, 5⟩]) else none
  frame_size _ := (0, 0)
  target_fps := 480
  target_mbyteps := 2000
  num_decoder := 2
  num_decoder_pos := Nat.two_pos
  run_ahead := 58 / 100000

theorem measured_twoPictures : Measured twoPictures where
  decoding p d w h hlut := by
    unfold twoPictures at hlut
    dsimp only at hlut
    split_ifs at hlut <;> cases hlut <;> decide +kernel
  detection p d boxes hlut := by
    obtain ⟨-, hlut⟩ := Option.ite_none_right_eq_some.mp hlut
    cases hlut
    decide +kernel
  frames _ := ⟨le_rfl, le_rfl⟩
  target_fps := by decide +kernel
  target_mbyteps := by decide +kernel

/-- There is no face profile of this picture, which shows once it is decoded. -/
def unprofiledAt (timestamp : ℚ) : Request :=
  ⟨timestamp, OP_DECODE_FACE, "/d/b.jpg".toList, 0, none⟩

/-- A bad face request is being decoded while one from another client is served. -/
def slowNeighbour : List Action :=
  .poll (some (1, unprofiledAt 0)) 0 :: (List.replicate 4 (.tick 0) ++
    .poll (some (0, faceAt (1 / 1000))) (1 / 1000) :: List.replicate 18 (.tick (1 / 1000)))

theorem slowNeighbour_runs :
    ((run_server twoPictures 0).exec slowNeighbour (run_server twoPictures 0).start).isSome =
      true := by
  decide +kernel

theorem isolated_of_benign_slowNeighbour :
    let s := (run_server twoPictures 0).last slowNeighbour slowNeighbour_runs
    wellFormed twoPictures (unprofiledAt 0) = false ∧
      s.env.queue.events.length = 1 ∧ s.sent.length = 1 ∧
      (∀ e, s.mode ≠ .crashed e) ∧
      ((s.sent.map reply : Multiset Reply) + scheduled {} [] s.env).filter
          (wellFormed twoPictures ·.request) =
        ((requests slowNeighbour).map (replyTo twoPictures) : Multiset Reply).filter
          (wellFormed twoPictures ·.request) := by
  have hg : (run_server twoPictures 0).Guarded (Benign twoPictures) slowNeighbour
      (run_server twoPictures 0).start := by decide +kernel
  exact ⟨by decide +kernel, by decide +kernel, by decide +kernel,
    isolated_of_benign measured_twoPictures 0 slowNeighbour hg
      (Option.some_get slowNeighbour_runs).symm⟩

end SmartDisk.FaultIsolation
