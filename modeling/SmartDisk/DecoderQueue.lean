import SmartDisk.FifoProgress
import SmartDisk.StorageSim

/-!
# The event-driven decoder and the closed-form decoder

`DecoderSim.decode` is a process on a resource of `num_decoder` units;
`EmDecoder.decode` keeps one number, the time at which its decoder is free again.
Started in the order of their arrivals, the processes finish at the times of
first-in-first-out service, and with one unit these are `EmDecoder`'s.
-/
namespace SmartDisk.DecoderQueue
open ActionSystem DiscreteEvents StorageSim FifoStation FifoService FifoProgress

/-! ### `s3dexp/smart/emdecoder.py` -/

/-- One step of `os.path.normpath` over the components of an absolute path. -/
def normalize (comps : List Path) (c : Path) : List Path :=
  if c = [] ∨ c = ".".toList then comps
  else if c = "..".toList then comps.dropLast
  else comps ++ [c]

/-- The components of `os.path.abspath`. -/
def abspath (cwd path : Path) : List Path :=
  let full := if path.head? = some '/' then path else cwd ++ '/' :: path
  (full.splitOn '/').foldl normalize []

def dropCommon : List Path → List Path → List Path × List Path
  | a :: as, b :: bs => if a = b then dropCommon as bs else (a :: as, b :: bs)
  | as, bs => (as, bs)

/-- `os.path.relpath`, which raises `ValueError` on an empty path. -/
def relpath (cwd path start : Path) : Except Exn Path :=
  if path = [] then .error .ValueError
  else
    let (up, down) := dropCommon (abspath cwd start) (abspath cwd path)
    let rel := List.replicate up.length "..".toList ++ down
    .ok (if rel = [] then ".".toList else ['/'].intercalate rel)

/-- `lut` is keyed by the path relative to `map_from_dir`. -/
structure EmDecoder where
  ext : Path
  map_from_dir : Path
  lut : Path → Option ℚ
  next_available_time : ℚ

/-- `EmDecoder.decode`, without the picture it loads beside the `eta`. -/
def EmDecoder.decode (self : EmDecoder) (cwd : Path) (arrival_time : ℚ) (path : Path) :
    Except Exn (ℚ × EmDecoder) := do
  if endswith path self.ext then
    let start_time := max self.next_available_time arrival_time
    let rel ← relpath cwd path self.map_from_dir
    match self.lut rel with
    | none => .error .KeyError
    | some sim_elapsed =>
        let eta := start_time + sim_elapsed
        pure (eta, { self with next_available_time := eta })
  else .error .AssertionError

/-- The decoder after the first `n` requests, each a path and its arrival. -/
def EmDecoder.after (self : EmDecoder) (cwd : Path) (requests : ℕ → Path × ℚ) :
    ℕ → Except Exn EmDecoder
  | 0 => .ok self
  | n + 1 => do
      let em ← self.after cwd requests n
      let (_, em) ← em.decode cwd (requests n).2 (requests n).1
      pure em

/-- What `decode` returns for the `n`th request. -/
def EmDecoder.eta (self : EmDecoder) (cwd : Path) (requests : ℕ → Path × ℚ) (n : ℕ) :
    Except Exn ℚ := do
  let em ← self.after cwd requests n
  let (eta, _) ← em.decode cwd (requests n).2 (requests n).1
  pure eta

/-! ### The decoder process under its driver -/

/-- `decoder.decode(path)` with a report at its end. -/
def observed (cfg : Config) (path : Path) (i : ℕ) : Proc ℕ Unit := do
  let _ ← decode cfg path
  .emit i (.ret ())

def decoding (cfg : Config) (init : ℚ) (requests : ℕ → Path × ℚ) :
    System (Clocked ℚ Component VideoDecoderSim ℕ Exn) (Move ℚ) :=
  driver (fun i => (requests i).2) (fun i => observed cfg (requests i).1 i)
    (.initial init cfg.capacity {})

def jobs (requests : ℕ → Path × ℚ) (service : ℕ → Delay ℚ) (i : ℕ) : Job ℚ :=
  ⟨(requests i).2, service i⟩

/-- A path in the table gives a process that holds the decoder once. -/
theorem observed_eq {cfg : Config} {path : Path} {i : ℕ} {d : Delay ℚ} {w h : ℤ} {a : ℚ}
    (hext : endswith path ext = true)
    (hlut : cfg.decoder_lut (basename path) = some (d.1, w, h)) :
    observed cfg path i = visit .decoder ⟨a, d⟩ i := by
  have hdelay : delay? d.1 = some d := dif_pos d.2
  simp only [observed, decode, require, hext, hlut, occupy, hdelay, if_true]
  rfl

/-! ### One unit -/

/-- Every request has a path that `em` knows, with the given service time. -/
def Serves (em : EmDecoder) (cwd : Path) (requests : ℕ → Path × ℚ) (service : ℕ → Delay ℚ) :
    Prop :=
  ∀ i, endswith (requests i).1 em.ext = true ∧
    ∃ rel, relpath cwd (requests i).1 em.map_from_dir = .ok rel ∧ em.lut rel = some (service i).1

variable {em : EmDecoder} {cwd : Path} {requests : ℕ → Path × ℚ} {service : ℕ → Delay ℚ}

theorem emdecode_eq (h : Serves em cwd requests service) (n : ℕ) (t : ℚ) :
    ({ em with next_available_time := t } : EmDecoder).decode cwd (requests n).2 (requests n).1 =
      .ok (finishAt [t] (jobs requests service n),
        { em with next_available_time := finishAt [t] (jobs requests service n) }) := by
  obtain ⟨hext, rel, hrel, hs⟩ := h n
  have hfin : finishAt [t] (jobs requests service n) =
      max t (requests n).2 + (service n).1 := by
    rw [finishAt, List.headD_cons, add_comm, max_comm]
    rfl
  rw [hfin]
  simp only [EmDecoder.decode, hext, if_true, hrel, bind, Except.bind, hs, pure, Except.pure]

/-- `next_available_time` is the time at which the only unit is free. -/
theorem after_eq (h : Serves em cwd requests service) (n : ℕ) :
    ∃ t, freeAfter [em.next_available_time] (jobs requests service) n = [t] ∧
      em.after cwd requests n = .ok { em with next_available_time := t } := by
  induction n with
  | zero => exact ⟨em.next_available_time, rfl, rfl⟩
  | succ n ih =>
      obtain ⟨t, hfree, hafter⟩ := ih
      refine ⟨_, freeAfter_single n, ?_⟩
      rw [FifoStation.finish, hfree, EmDecoder.after, hafter]
      change (EmDecoder.decode { em with next_available_time := t } cwd _ _ >>= _) = _
      rw [emdecode_eq h]
      rfl

theorem eta_eq (h : Serves em cwd requests service) (n : ℕ) :
    em.eta cwd requests n =
      .ok (FifoStation.finish [em.next_available_time] (jobs requests service) n) := by
  obtain ⟨t, hfree, hafter⟩ := after_eq h n
  rw [EmDecoder.eta, hafter, FifoStation.finish, hfree]
  change (EmDecoder.decode { em with next_available_time := t } cwd _ _ >>= _) = _
  rw [emdecode_eq h]
  rfl

/-- `EmDecoder` computes first-in-first-out service by one unit, whenever its clock starts
before the first arrival. -/
theorem eta_eq_finish (h : Serves em cwd requests service) {init : ℚ}
    (hem : em.next_available_time ≤ (requests 0).2) (hinit : init ≤ (requests 0).2) (n : ℕ) :
    em.eta cwd requests n = .ok (FifoStation.finish [init] (jobs requests service) n) := by
  have hfirst : ∀ t : ℚ, t ≤ (requests 0).2 → finishAt [t] (jobs requests service 0) =
      (service 0).1 + (requests 0).2 := fun t ht => by
    rw [finishAt, List.headD_cons]
    exact congrArg _ (max_eq_left ht)
  have hfree : ∀ n, freeAfter [em.next_available_time] (jobs requests service) (n + 1) =
      freeAfter [init] (jobs requests service) (n + 1) := by
    intro n
    induction n with
    | zero =>
        rw [freeAfter_single, freeAfter_single]
        exact congrArg (fun t => [t]) ((hfirst _ hem).trans (hfirst _ hinit).symm)
    | succ n ih => rw [freeAfter, ih, ← freeAfter]
  rw [eta_eq h]
  cases n with
  | zero => exact congrArg Except.ok ((hfirst _ hem).trans (hfirst _ hinit).symm)
  | succ n => rw [FifoStation.finish, hfree, ← FifoStation.finish]

/-! ### The refinement -/

variable {cfg : Config} {init : ℚ} {s : Clocked ℚ Component VideoDecoderSim ℕ Exn}

theorem decoding_served
    (hpaths : ∀ i, endswith (requests i).1 ext = true ∧
      ∃ w h, cfg.decoder_lut (basename (requests i).1) = some ((service i).1, w, h))
    (hs : (decoding cfg init requests).Reachable s) :
    Served .decoder (List.replicate cfg.num_decoder init) (jobs requests service) s ∧
      ∀ i < s.started, init ≤ (requests i).2 := by
  have hcode : ∀ i, observed cfg (requests i).1 i =
      visit .decoder (jobs requests service i) i := by
    intro i
    obtain ⟨hext, w, h, hlut⟩ := hpaths i
    exact observed_eq hext hlut
  have hpos : 0 < cfg.capacity .decoder := cfg.num_decoder_pos
  exact ⟨reachable_served hpos hcode hs, reachable_since hpos hcode hs⟩

/-- In every run of the decoder, requests that have arrived finish at the times of
first-in-first-out service by `num_decoder` units, each of them does finish, and one unit
gives the `eta`s of `EmDecoder`. -/
theorem decoder_refines
    (hpaths : ∀ i, endswith (requests i).1 ext = true ∧
      ∃ w h, cfg.decoder_lut (basename (requests i).1) = some ((service i).1, w, h))
    (hs : (decoding cfg init requests).Reachable s) :
    (∀ o ∈ s.env.out, o.time = FifoStation.finish (List.replicate cfg.num_decoder init)
      (jobs requests service) o.value) ∧
    (∃ n t, (decoding cfg init requests).exec (List.replicate n .tick) s = some t ∧
      (t.env.out.map (·.value)).Perm (List.range s.started)) ∧
    (∀ em cwd, cfg.num_decoder = 1 → Serves em cwd requests service →
      em.next_available_time ≤ (requests 0).2 →
      ∀ o ∈ s.env.out, em.eta cwd requests o.value = .ok o.time) := by
  obtain ⟨hserved, hsince⟩ := decoding_served hpaths hs
  have hfree : List.replicate cfg.num_decoder init ≠ [] := by
    simpa using cfg.num_decoder_pos.ne'
  have hsorted : (List.replicate cfg.num_decoder init).Pairwise (· ≤ ·) :=
    List.pairwise_replicate.mpr (.inr le_rfl)
  refine ⟨reported_time hserved, ?_, ?_⟩
  · obtain ⟨n, t, hexec, hstarted, hempty⟩ := drains hserved hsorted hfree
    have ht : (decoding cfg init requests).Reachable t :=
      hs.exec _ (System.Guarded.trivial _ _) hexec
    exact ⟨n, t, hexec, hstarted ▸ all_finished (decoding_served hpaths ht).1 hfree hempty⟩
  · intro em cwd hone hserves hem o ho
    have hstarted : 0 < s.started := (Nat.zero_le _).trans_lt (started_of_reported hserved ho)
    rw [eta_eq_finish hserves hem (hsince 0 hstarted), reported_time hserved o ho, hone]
    rfl

/-- The first request arrives at 0, all others in the middle of its service. -/
def backlog (i : ℕ) : Path × ℚ := ("/d/a.jpg".toList, if i = 0 then 0 else 1 / 20000)

def pictureTime (_ : ℕ) : Delay ℚ := ⟨1 / 10000, by norm_num⟩

theorem backlog_paths (i : ℕ) : endswith (backlog i).1 ext = true ∧ ∃ w h,
    oneDecoder.decoder_lut (basename (backlog i).1) = some ((pictureTime i).1, w, h) :=
  ⟨rfl, 10, 10, rfl⟩

theorem backlog_runs : ((decoding oneDecoder 0 backlog).exec
    ([.start, .tick, .tick, .advance (1 / 20000), .start] ++ List.replicate 6 .tick)
    (decoding oneDecoder 0 backlog).start).isSome = true := by decide +kernel

/-- A profile of the same picture. -/
def pictureDecoder : EmDecoder where
  ext := "jpg".toList
  map_from_dir := "/d".toList
  lut rel := if rel = "a.jpg".toList then some (1 / 10000) else none
  next_available_time := 0

theorem pictureDecoder_serves : Serves pictureDecoder "/".toList backlog pictureTime := by
  have hrel : relpath "/".toList "/d/a.jpg".toList "/d".toList = .ok "a.jpg".toList := by decide
  exact fun _ => ⟨rfl, "a.jpg".toList, hrel, rfl⟩

/-- The second request waits for half of the first one's service, with both decoders. -/
theorem decoder_refines_backlog :
    ((decoding oneDecoder 0 backlog).last _ backlog_runs).env.out.map
      (fun o => (o.value, o.time)) = [(0, 1 / 10000), (1, 1 / 5000)] ∧
    (∀ o ∈ ((decoding oneDecoder 0 backlog).last _ backlog_runs).env.out, o.time =
      FifoStation.finish (List.replicate 1 0) (jobs backlog pictureTime) o.value) ∧
    ∀ o ∈ ((decoding oneDecoder 0 backlog).last _ backlog_runs).env.out,
      pictureDecoder.eta "/".toList backlog o.value = .ok o.time := by
  have h := decoder_refines backlog_paths (System.reachable_last _ backlog_runs)
  exact ⟨by decide +kernel, h.1,
    h.2.2 pictureDecoder "/".toList rfl pictureDecoder_serves le_rfl⟩

end SmartDisk.DecoderQueue
