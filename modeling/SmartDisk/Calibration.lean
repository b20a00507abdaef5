import Mathlib.Algebra.BigOperators.Ring.List
import Mathlib.Data.List.GetD
import Mathlib.Tactic.FieldSimp
import SmartDisk.FifoProgress
import SmartDisk.ProfileTables

/-!
# Calibration of the simulated hardware

Every image of a profile table is requested once at one time, in any order. A decoder of
capacity 1 that was idle is then done after the table's pixels at the target rate, and a
face detector after the table's images at the target rate. This needs images that can be
requested: the database's `LIKE` may select a file whose path does not end with `ext` as
the assertion on every request asks for.
-/
namespace SmartDisk.Calibration
open ActionSystem DiscreteEvents StorageSim FifoStation FifoService FifoProgress LookupTable
open Databases ProfileTables

/-! ### A burst of requests -/

/-- The paths of the requests; after the last one of the order they do not matter. -/
def burst (order : List Path) (i : ℕ) : Path := order.getD i (order.headD [])

/-- A process for each request, all of them started at `t0`. -/
def requesting (code : Path → ℕ → Proc ℕ Unit) (capacity : ℕ) (init : ℚ)
    (order : List Path) (t0 : ℚ) : System (Clocked ℚ Component VideoDecoderSim ℕ Exn) (Move ℚ) :=
  driver (fun _ => t0) (fun i => code (burst order i) i) (.initial init (fun _ => capacity) {})

/-- In every run that makes `n` requests all of them are finished in the end, the last one
at `last`; and there is such a run. -/
def FinishesAt (M : System (Clocked ℚ Component VideoDecoderSim ℕ Exn) (Move ℚ)) (n : ℕ)
    (last : ℚ) : Prop :=
  (∃ s, M.Reachable s ∧ s.started = n) ∧
  ∀ s, M.Reachable s → s.started = n →
    (∀ o ∈ s.env.out, o.time ≤ last) ∧
    (s.env.out.length = n → ∃ o ∈ s.env.out, o.time = last) ∧
    ∃ k t, M.exec (List.replicate k .tick) s = some t ∧ t.started = n ∧ t.env.out.length = n

section
variable {code : Path → ℕ → Proc ℕ Unit} {init t0 : ℚ} {order : List Path}
  {s : Clocked ℚ Component VideoDecoderSim ℕ Exn}

theorem burst_mem (hne : order ≠ []) (i : ℕ) : burst order i ∈ order := by
  obtain ⟨p, ps, rfl⟩ := List.exists_cons_of_ne_nil hne
  unfold burst
  by_cases hi : i < (p :: ps).length
  · rw [List.getD_eq_getElem _ _ hi]
    exact List.getElem_mem hi
  · rw [List.getD_eq_default _ _ (by omega)]
    exact List.mem_cons_self

theorem map_burst {ν : Type} (f : Path → ν) (order : List Path) :
    (List.range order.length).map (fun i => f (burst order i)) = order.map f := by
  apply List.ext_getElem
  · simp
  · intro i h1 h2
    have hi : i < order.length := by simpa using h2
    rw [List.getElem_map, List.getElem_map, List.getElem_range, burst,
      List.getD_eq_getElem _ _ hi]

variable (code order) in
/-- All requests can be made, one after the other. -/
theorem starts_reachable (hinit : init ≤ t0) (capacity n : ℕ) :
    ∃ s, (requesting code capacity init order t0).Reachable s ∧ s.env.now = t0 ∧
      s.started = n := by
  induction n with
  | zero =>
    refine ⟨_, .step (.advance t0) .start trivial (if_pos ⟨hinit, ?_⟩), rfl, rfl⟩
    simp [requesting, driver, Env.initial, Heap.empty]
  | succ n ih =>
    obtain ⟨s, hs, hnow, hstarted⟩ := ih
    refine ⟨_, .step .start hs trivial (if_pos hnow), hnow, ?_⟩
    rw [hstarted]

/-- What the processes of a burst are to the station: each holds its unit for a known time. -/
def jobs (t0 : ℚ) (service : Path → Delay ℚ) (order : List Path) (i : ℕ) : Job ℚ :=
  ⟨t0, service (burst order i)⟩

/-- One unit that was idle is done when all service times have passed. -/
theorem burst_finishes {r : Component} {service : Path → Delay ℚ} (hne : order ≠ [])
    (hinit : init ≤ t0)
    (hcode : ∀ p ∈ order, ∀ i, code p i = visit r ⟨t0, service p⟩ i) :
    FinishesAt (requesting code 1 init order t0) order.length
      (t0 + (order.map fun p => (service p).1).sum) := by
  have hpos : 0 < order.length := List.length_pos_iff.mpr hne
  have hvisit : ∀ i, code (burst order i) i = visit r (jobs t0 service order i) i := fun i =>
    hcode _ (burst_mem hne i) i
  have hserved : ∀ {s}, (requesting code 1 init order t0).Reachable s →
      Served r [init] (jobs t0 service order) s := fun hs =>
    reachable_served (show 0 < Function.const Component 1 r from Nat.one_pos) hvisit hs
  have hfinish : ∀ n, FifoStation.finish [init] (jobs t0 service order) n =
      t0 + ((List.range (n + 1)).map fun i => (service (burst order i)).1).sum :=
    finish_burst hinit fun _ => rfl
  have hall : FifoStation.finish [init] (jobs t0 service order) (order.length - 1) =
      t0 + (order.map fun p => (service p).1).sum := by
    rw [hfinish, Nat.sub_add_cancel hpos, map_burst fun p => (service p).1]
  obtain ⟨s₀, hs₀, -, hstarted₀⟩ := starts_reachable code order hinit 1 order.length
  refine ⟨⟨s₀, hs₀, hstarted₀⟩, ?_⟩
  intro s hs hstarted
  refine ⟨?_, ?_, ?_⟩
  · intro o ho
    have hlt := started_of_reported (hserved hs) ho
    rw [reported_time (hserved hs) o ho, hfinish, ← map_burst (fun p => (service p).1) order]
    have hsub : (List.range (o.value + 1)).Sublist (List.range order.length) :=
      List.range_sublist.mpr (by omega)
    apply add_le_add_right
    apply (hsub.map _).sum_le_sum
    intro x hx
    obtain ⟨i, -, rfl⟩ := List.mem_map.mp hx
    exact (service (burst order i)).2
  · intro hlen
    have hperm := finished_of_length (hserved hs) (hlen.trans hstarted.symm)
    have hlast : order.length - 1 ∈ s.env.out.map (·.value) := by
      rw [hperm.mem_iff, List.mem_range, hstarted]
      omega
    obtain ⟨o, ho, hvalue⟩ := List.mem_map.mp hlast
    refine ⟨o, ho, ?_⟩
    rw [reported_time (hserved hs) o ho, hvalue, hall]
  · obtain ⟨k, t, hexec, ht, hempty⟩ := drains (hserved hs) (List.pairwise_singleton _ _)
      (List.cons_ne_nil _ _)
    have hreach := hs.exec _ (System.Guarded.trivial _ _) hexec
    have hperm := all_finished (hserved hreach) (List.cons_ne_nil _ _) hempty
    refine ⟨k, t, hexec, ht.trans hstarted, ?_⟩
    rw [← List.length_map, hperm.length_eq, List.length_range, ht, hstarted]

end

/-! ### Look-up tables -/

theorem of_bind_ok {α β : Type} {x : Except Exn α} {f : α → Except Exn β} {b : β}
    (h : x >>= f = .ok b) : ∃ a, x = .ok a ∧ f a = .ok b := by
  cases x with
  | error e => cases h
  | ok a => exact ⟨a, rfl, h⟩

theorem quotient_ok {a b q : ℚ} (h : quotient a b = .ok q) : b ≠ 0 ∧ q = a / b := by
  unfold quotient at h
  split at h
  · cases h
  · rename_i hb
    cases h
    exact ⟨hb, rfl⟩

theorem fill_lut_ok {ν : Type} {entries : List (Path × ν)} {lut : Path → Option ν}
    (h : fill_lut entries = .ok lut) {e : Path × ν} (he : e ∈ entries) : lut e.1 = some e.2 := by
  unfold fill_lut at h
  split at h
  · rename_i hlen
    cases h
    exact fill_of_nodup ((length_keys_iff entries).mp hlen) he
  · cases h

/-- The time that a table gives to a path; a time that `env.timeout` refuses is not one. -/
def serviceOf {ν : Type} (lut : Path → Option (ℚ × ν)) (path : Path) : Delay ℚ :=
  ((lut (basename path)).bind fun e => delay? e.1).getD ⟨0, le_rfl⟩

theorem serviceOf_eq {ν : Type} {lut : Path → Option (ℚ × ν)} {path : Path} {t : ℚ} {v : ν}
    (hlut : lut (basename path) = some (t, v)) (ht : 0 ≤ t) : serviceOf lut path = ⟨t, ht⟩ := by
  unfold serviceOf
  rw [hlut, Option.bind_some, delay?, dif_pos ht]
  rfl

/-- The scaled times of a table add up to what is left of the rate. -/
theorem sum_scaled {ρ : Type} (seconds : ρ → ℚ) (rows : List ρ) {amount target : ℚ}
    (h : (rows.map seconds).sum ≠ 0) :
    (rows.map fun p => seconds p * (amount / (rows.map seconds).sum / target)).sum =
      amount / target := by
  rw [List.sum_map_mul_right]
  field_simp

/-- Rows whose scaled times a look-up table holds are served in `amount / target`. -/
theorem calibrated {ρ ν : Type} (r : Component) (lut : Path → Option (ℚ × ν))
    {code : Path → ℕ → Proc ℕ Unit} {rows : List ρ} {path : ρ → Path} {seconds : ρ → ℚ}
    {amount target init t0 : ℚ} {order : List Path} (hamount : 0 ≤ amount)
    (htarget : 0 < target) (hsec : ∀ p ∈ rows, 0 ≤ seconds p)
    (hne : (rows.map seconds).sum ≠ 0)
    (hlut : ∀ p ∈ rows, ∃ v, lut (basename (path p)) =
      some (seconds p * (amount / (rows.map seconds).sum / target), v))
    (hcode : ∀ p ∈ rows, ∀ t v, lut (basename (path p)) = some (t, v) → 0 ≤ t →
      ∀ i, code (path p) i = visit r ⟨t0, serviceOf lut (path p)⟩ i)
    (horder : order.Perm (rows.map path)) (hinit : init ≤ t0) :
    FinishesAt (requesting code 1 init order t0) order.length (t0 + amount / target) := by
  have htotal : 0 ≤ (rows.map seconds).sum := by
    apply List.sum_nonneg
    intro x hx
    obtain ⟨p, hp, rfl⟩ := List.mem_map.mp hx
    exact hsec p hp
  have hscaling : 0 ≤ amount / (rows.map seconds).sum / target :=
    div_nonneg (div_nonneg hamount htotal) htarget.le
  have hvisit : ∀ q ∈ order, ∀ i, code q i = visit r ⟨t0, serviceOf lut q⟩ i := by
    intro q hq i
    obtain ⟨p, hp, rfl⟩ := List.mem_map.mp (horder.mem_iff.mp hq)
    obtain ⟨v, hv⟩ := hlut p hp
    exact hcode p hp _ v hv (mul_nonneg (hsec p hp) hscaling) i
  have hnil : order ≠ [] := by
    rintro rfl
    rw [List.map_eq_nil_iff.mp (List.nil_perm.mp horder)] at hne
    exact hne rfl
  have hsum : (order.map fun q => (serviceOf lut q).1).sum = amount / target := by
    rw [(horder.map _).sum_eq, List.map_map, ← sum_scaled seconds rows hne]
    congr 1
    apply List.map_congr_left
    intro p hp
    obtain ⟨v, hv⟩ := hlut p hp
    rw [Function.comp_apply, serviceOf_eq hv (mul_nonneg (hsec p hp) hscaling)]
  rw [← hsum]
  exact burst_finishes hnil hinit hvisit

/-! ### The decoder -/

section
variable {db : Database} {table : List DecodeProfile} {target_mpixps : ℚ} {base_dir ext : Path}
  {capacity : ℕ}
  {self : DecoderSim}

/-- The emulated server decodes with such a simulator. -/
theorem storage_decode {O : Type} {cfg : Config} (hext : self.ext = StorageSim.ext)
    (hlut : cfg.decoder_lut = self.lut) (path : Path) :
    StorageSim.decode (O := O) cfg path = self.decode path := by
  unfold StorageSim.decode DecoderSim.decode
  rewrite [hext, hlut]
  rfl

/-- `decoder.decode(path)` with a report at its end. -/
def decoding (self : DecoderSim) (path : Path) (i : ℕ) : Proc ℕ Unit := do
  let _ ← self.decode path
  .emit i (.ret ())

theorem decoder_init_ok
    (h : DecoderSim.init db table target_mpixps base_dir ext capacity = .ok self) :
    self.ext = ext ∧ self.capacity = capacity ∧
    ((DecoderSim.profiles db table base_dir ext).map DecoderSim.seconds).sum ≠ 0 ∧
    self.time_scaling = ((DecoderSim.profiles db table base_dir ext).map DecoderSim.megapixels).sum /
      ((DecoderSim.profiles db table base_dir ext).map DecoderSim.seconds).sum / target_mpixps ∧
    ∀ p ∈ DecoderSim.profiles db table base_dir ext, self.lut (basename p.path) =
      some (DecoderSim.seconds p * self.time_scaling, (p.width : ℤ), (p.height : ℤ)) := by
  obtain ⟨u, -, h⟩ := of_bind_ok h
  obtain ⟨orig_mpixps, horig, h⟩ := of_bind_ok h
  obtain ⟨time_scaling, hscaling, h⟩ := of_bind_ok h
  obtain ⟨lut, hlut, h⟩ := of_bind_ok h
  obtain ⟨hne, rfl⟩ := quotient_ok horig
  obtain ⟨-, rfl⟩ := quotient_ok hscaling
  cases h
  refine ⟨rfl, rfl, hne, rfl, ?_⟩
  intro p hp
  exact fill_lut_ok hlut (List.mem_map_of_mem hp)

/-- The process of a file that the table knows holds the decoder once. -/
theorem decoding_eq {path : Path} {t : ℚ} {w h : ℤ} (hext : endswith path self.ext = true)
    (hlut : self.lut (basename path) = some (t, w, h)) (ht : 0 ≤ t) (a : ℚ) (i : ℕ) :
    decoding self path i = visit .decoder ⟨a, serviceOf self.lut path⟩ i := by
  have hdelay : delay? t = some ⟨t, ht⟩ := dif_pos ht
  rw [serviceOf_eq hlut ht]
  simp only [decoding, DecoderSim.decode, require, hext, hlut, occupy, hdelay, if_true]
  rfl

/-- All selected files are decoded in the time that the target rate gives to their pixels. -/
theorem decoder_calibrated
    (hends : ∀ p ∈ DecoderSim.profiles db table base_dir ext, endswith p.path ext = true)
    (hms : ∀ p ∈ DecoderSim.profiles db table base_dir ext, 0 ≤ p.decode_ms)
    (htarget : 0 < target_mpixps)
    (h : DecoderSim.init db table target_mpixps base_dir ext 1 = .ok self) {order : List Path}
    (horder : order.Perm ((DecoderSim.profiles db table base_dir ext).map (·.path)))
    {init t0 : ℚ} (hinit : init ≤ t0) :
    FinishesAt (requesting (decoding self) self.capacity init order t0) order.length
      (t0 + ((DecoderSim.profiles db table base_dir ext).map DecoderSim.megapixels).sum /
        target_mpixps) := by
  obtain ⟨hselfext, hcap, hne, hscaling, hlut⟩ := decoder_init_ok h
  rw [hcap]
  refine calibrated .decoder self.lut ?_ htarget ?_ hne ?_ ?_ horder hinit
  · apply List.sum_nonneg
    intro x hx
    obtain ⟨p, -, rfl⟩ := List.mem_map.mp hx
    exact div_nonneg (mul_nonneg (Nat.cast_nonneg _) (Nat.cast_nonneg _)) (by norm_num)
  · intro p hp
    exact mul_nonneg (hms p hp) (by norm_num)
  · intro p hp
    rw [← hscaling]
    exact ⟨_, hlut p hp⟩
  · intro p hp t v hv ht i
    exact decoding_eq (by rw [hselfext]; exact hends p hp) hv ht t0 i

end

/-! ### The face detector -/

section
variable {db : Database} {table : List FaceExp} {target_fps : ℚ} {base_dir ext : Path}
  {capacity : ℕ}
  {self : FaceDetectorSim}

/-- `face_detector.detect_face(path)` with a report at its end. -/
def detecting (self : FaceDetectorSim) (path : Path) (i : ℕ) : Proc ℕ Unit := do
  let _ ← self.detect_face path
  .emit i (.ret ())

theorem mapM_ok {α β : Type} {f : α → Except Exn β} {xs : List α} {ys : List β}
    (h : xs.mapM f = .ok ys) : ∀ x ∈ xs, ∃ y ∈ ys, f x = .ok y := by
  induction xs generalizing ys with
  | nil => intro x hx; cases hx
  | cons x xs ih =>
    rw [List.mapM_cons] at h
    obtain ⟨y, hy, h⟩ := of_bind_ok h
    obtain ⟨zs, hzs, h⟩ := of_bind_ok h
    cases h
    intro x' hx'
    rcases List.mem_cons.mp hx' with rfl | hx'
    · exact ⟨y, List.mem_cons_self, hy⟩
    · obtain ⟨z, hz, hf⟩ := ih hzs x' hx'
      exact ⟨z, List.mem_cons_of_mem _ hz, hf⟩

/-- The entry of a row has the boxes that are read from its text. -/
theorem entry_ok {time_scaling : ℚ} {p : FaceExp} {e : Path × ℚ × ℤ × ℤ × JsonText.Json}
    (h : FaceDetectorSim.entry time_scaling p = .ok e) :
    ∃ boxes, JsonText.loads p.box = some boxes ∧ e = (basename p.path,
      FaceDetectorSim.seconds p * time_scaling, (p.width : ℤ), (p.height : ℤ), boxes) := by
  unfold FaceDetectorSim.entry at h
  split at h
  · rename_i boxes hboxes
    cases h
    exact ⟨boxes, hboxes, rfl⟩
  · cases h

theorem detector_init_ok
    (h : FaceDetectorSim.init db table target_fps base_dir ext capacity = .ok self) :
    self.ext = ext ∧ self.capacity = capacity ∧
    ((FaceDetectorSim.profiles db table base_dir ext).map FaceDetectorSim.seconds).sum ≠ 0 ∧
    self.time_scaling = (FaceDetectorSim.profiles db table base_dir ext).length /
      ((FaceDetectorSim.profiles db table base_dir ext).map FaceDetectorSim.seconds).sum /
        target_fps ∧
    ∀ p ∈ FaceDetectorSim.profiles db table base_dir ext, ∃ boxes,
      JsonText.loads p.box = some boxes ∧ self.lut (basename p.path) =
        some (FaceDetectorSim.seconds p * self.time_scaling, (p.width : ℤ), (p.height : ℤ),
          boxes) := by
  obtain ⟨u, -, h⟩ := of_bind_ok h
  obtain ⟨orig_fps, horig, h⟩ := of_bind_ok h
  obtain ⟨time_scaling, hscaling, h⟩ := of_bind_ok h
  obtain ⟨entries, hentries, h⟩ := of_bind_ok h
  obtain ⟨lut, hlut, h⟩ := of_bind_ok h
  obtain ⟨hne, rfl⟩ := quotient_ok horig
  obtain ⟨-, rfl⟩ := quotient_ok hscaling
  cases h
  refine ⟨rfl, rfl, hne, rfl, ?_⟩
  intro p hp
  obtain ⟨e, he, hentry⟩ := mapM_ok hentries p hp
  obtain ⟨boxes, hboxes, rfl⟩ := entry_ok hentry
  exact ⟨boxes, hboxes, fill_lut_ok hlut he⟩

theorem detecting_eq {path : Path} {t : ℚ} {v : ℤ × ℤ × JsonText.Json}
    (hext : endswith path self.ext = true) (hlut : self.lut (basename path) = some (t, v))
    (ht : 0 ≤ t) (a : ℚ) (i : ℕ) :
    detecting self path i = visit .face_detector ⟨a, serviceOf self.lut path⟩ i := by
  have hdelay : delay? t = some ⟨t, ht⟩ := dif_pos ht
  rw [serviceOf_eq hlut ht]
  simp only [detecting, FaceDetectorSim.detect_face, require, hext, hlut, occupy, hdelay,
    if_true]
  rfl

/-- All selected images are examined in the time that the target rate gives to them. -/
theorem detector_calibrated
    (hends : ∀ p ∈ FaceDetectorSim.profiles db table base_dir ext, endswith p.path ext = true)
    (hms : ∀ p ∈ FaceDetectorSim.profiles db table base_dir ext, 0 ≤ p.total_ms - p.decode_ms)
    (htarget : 0 < target_fps)
    (h : FaceDetectorSim.init db table target_fps base_dir ext 1 = .ok self) {order : List Path}
    (horder : order.Perm ((FaceDetectorSim.profiles db table base_dir ext).map (·.path)))
    {init t0 : ℚ} (hinit : init ≤ t0) :
    FinishesAt (requesting (detecting self) self.capacity init order t0) order.length
      (t0 + order.length / target_fps) := by
  obtain ⟨hselfext, hcap, hne, hscaling, hlut⟩ := detector_init_ok h
  have hlen : order.length = (FaceDetectorSim.profiles db table base_dir ext).length := by
    rw [horder.length_eq, List.length_map]
  have hfinish : FinishesAt (requesting (detecting self) 1 init order t0) order.length
      (t0 + (FaceDetectorSim.profiles db table base_dir ext).length / target_fps) := by
    refine calibrated .face_detector self.lut (Nat.cast_nonneg _) htarget ?_ hne ?_ ?_ horder
      hinit
    · intro p hp
      exact mul_nonneg (hms p hp) (by norm_num)
    · intro p hp
      obtain ⟨boxes, -, hv⟩ := hlut p hp
      rw [← hscaling]
      exact ⟨_, hv⟩
    · intro p hp t v hv ht i
      exact detecting_eq (by rw [hselfext]; exact hends p hp) hv ht t0 i
  rw [hcap]
  rwa [← hlen] at hfinish

end

/-- Both simulators run at the rates that they were built for. -/
theorem hardware_calibrated (db : Database) {base_dir ext : Path} {init t0 : ℚ}
    (hinit : init ≤ t0) {order : List Path} :
    (∀ table target_mpixps self,
      (∀ p ∈ DecoderSim.profiles db table base_dir ext, endswith p.path ext = true) →
      (∀ p ∈ DecoderSim.profiles db table base_dir ext, 0 ≤ p.decode_ms) → 0 < target_mpixps →
      DecoderSim.init db table target_mpixps base_dir ext 1 = .ok self →
      order.Perm ((DecoderSim.profiles db table base_dir ext).map (·.path)) →
      FinishesAt (requesting (decoding self) self.capacity init order t0) order.length
        (t0 + ((DecoderSim.profiles db table base_dir ext).map DecoderSim.megapixels).sum /
          target_mpixps)) ∧
    (∀ table target_fps self,
      (∀ p ∈ FaceDetectorSim.profiles db table base_dir ext, endswith p.path ext = true) →
      (∀ p ∈ FaceDetectorSim.profiles db table base_dir ext, 0 ≤ p.total_ms - p.decode_ms) →
      0 < target_fps → FaceDetectorSim.init db table target_fps base_dir ext 1 = .ok self →
      order.Perm ((FaceDetectorSim.profiles db table base_dir ext).map (·.path)) →
      FinishesAt (requesting (detecting self) self.capacity init order t0) order.length
        (t0 + order.length / target_fps)) :=
  ⟨fun _ _ _ hends hms htarget h horder =>
      decoder_calibrated hends hms htarget h horder hinit,
    fun _ _ _ hends hms htarget h horder =>
      detector_calibrated hends hms htarget h horder hinit⟩

/-- Two pictures of 100 pixels, one of them decoded in no time. -/
def twoPictures : List DecodeProfile :=
  [⟨['/', 'a', '.', 'j'], ['a', '.', 'j'], 9, 10, 10, 3, cloudlet029⟩,
    ⟨['/', 'b', '.', 'j'], ['b', '.', 'j'], 9, 20, 5, 0, cloudlet029⟩]

def twoFaces : List FaceExp :=
  [⟨[], ['/', 'a', '.', 'j'], ['a', '.', 'j'], [], [], 0, 3, 5, 9, 10, 10, 0, ['[', ']']⟩,
    ⟨[], ['/', 'b', '.', 'j'], ['b', '.', 'j'], [], [], 0, 1, 5, 9, 20, 5, 1,
      ['[', '[', '1', ']', ']']⟩]

theorem exists_ok {α : Type} {x : Except Exn α} (h : x.toOption.isSome = true) :
    ∃ a, x = .ok a := by
  cases x with
  | error e => cases h
  | ok a => exact ⟨a, rfl⟩

theorem twoPictures_accepted :
    ∃ self, DecoderSim.init mysql twoPictures 20 ['/'] ['j'] 1 = .ok self :=
  exists_ok (by decide +kernel)

theorem twoFaces_accepted :
    ∃ self, FaceDetectorSim.init mysql twoFaces 20 ['/'] ['j'] 1 = .ok self :=
  exists_ok (by decide +kernel)

theorem hardware_calibrated_two :
    (∃ self, DecoderSim.init mysql twoPictures 20 ['/'] ['j'] 1 = .ok self ∧
      FinishesAt (requesting (decoding self) self.capacity 0
        [['/', 'b', '.', 'j'], ['/', 'a', '.', 'j']] 5) 2
        (5 + ((DecoderSim.profiles mysql twoPictures ['/'] ['j']).map DecoderSim.megapixels).sum /
          20)) ∧
    ∃ self, FaceDetectorSim.init mysql twoFaces 20 ['/'] ['j'] 1 = .ok self ∧
      FinishesAt (requesting (detecting self) self.capacity 0
        [['/', 'b', '.', 'j'], ['/', 'a', '.', 'j']] 5) 2 (5 + (2 : ℕ) / 20) := by
  obtain ⟨pictures, hp⟩ := twoPictures_accepted
  obtain ⟨faces, hf⟩ := twoFaces_accepted
  have hboth := @hardware_calibrated mysql ['/'] ['j'] 0 5 (by norm_num)
    [['/', 'b', '.', 'j'], ['/', 'a', '.', 'j']]
  refine ⟨⟨pictures, hp, hboth.1 twoPictures 20 pictures ?_ ?_ (by norm_num) hp ?_⟩,
    faces, hf, hboth.2 twoFaces 20 faces ?_ ?_ (by norm_num) hf ?_⟩
  all_goals decide +kernel

/-! ### A file that cannot be requested -/

/-- A decoder that refuses its only request, which is made at 5. -/
def refusing : System (Clocked ℚ Component VideoDecoderSim ℕ Exn) (Move ℚ) :=
  driver (fun _ => 5) (fun _ => .raise .AssertionError) (.initial 0 (fun _ => 1) {})

theorem refusing_starts :
    (refusing.exec [.advance 5, .start] refusing.start).isSome = true := by decide +kernel

/-- The failure leaves the simulator when it is processed. -/
theorem refusing_out (k : ℕ) : ∀ t ∈ refusing.exec (List.replicate k .tick)
    (refusing.last [.advance 5, .start] refusing_starts), t.env.out.length = 0 := by
  have hraises : (refusing.step .tick (refusing.last [.advance 5, .start] refusing_starts)).bind
      (refusing.step .tick) = none := Option.isNone_iff_eq_none.mp (by decide +kernel)
  match k with
  | 0 => decide +kernel
  | 1 => decide +kernel
  | k + 2 =>
    intro t ht
    have hexec := (Option.bind_assoc
      (refusing.step .tick (refusing.last [.advance 5, .start] refusing_starts))
      (refusing.step .tick) (refusing.exec (List.replicate k .tick))).trans ht
    rw [hraises] at hexec
    cases hexec

/-- A file of one host whose name ends with capitals. -/
def capitals : List DecodeProfile :=
  [⟨"/d/b.JPG".toList, "b.JPG".toList, 9, 10, 10, 3, cloudlet029⟩]

theorem capitals_accepted :
    ∃ self, DecoderSim.init mysql capitals 20 "/d".toList StorageSim.ext 1 = .ok self :=
  exists_ok (by decide +kernel)

/-- The table is accepted, and its file is never decoded. -/
theorem capitals_uncalibrated : ¬ ∀ (db : Database) (table : List DecodeProfile)
    (target_mpixps : ℚ) (base_dir ext : Path) (self : DecoderSim) (init t0 : ℚ)
    (order : List Path), db.Lawful → (∀ p ∈ table, p.basename = basename p.path) →
    (∀ p ∈ DecoderSim.profiles db table base_dir ext, 0 ≤ p.decode_ms) → 0 < target_mpixps →
    DecoderSim.init db table target_mpixps base_dir ext 1 = .ok self →
    order.Perm ((DecoderSim.profiles db table base_dir ext).map (·.path)) → init ≤ t0 →
    FinishesAt (requesting (decoding self) self.capacity init order t0) order.length
      (t0 + ((DecoderSim.profiles db table base_dir ext).map DecoderSim.megapixels).sum /
        target_mpixps) := by
  intro h
  obtain ⟨self, hself⟩ := capitals_accepted
  obtain ⟨hext, hcapacity, -⟩ := decoder_init_ok hself
  have hrefuses : ∀ i, decoding self (burst ["/d/b.JPG".toList] i) i = .raise .AssertionError := by
    intro i
    have hpath : burst ["/d/b.JPG".toList] i = "/d/b.JPG".toList :=
      List.mem_singleton.mp (burst_mem (List.cons_ne_nil _ _) i)
    have hends : endswith "/d/b.JPG".toList self.ext = false := by
      rw [hext]
      decide +kernel
    rw [hpath]
    simp only [decoding, DecoderSim.decode, require, hends]
    rfl
  have hsystem : requesting (decoding self) self.capacity 0 ["/d/b.JPG".toList] 5 = refusing := by
    unfold requesting refusing
    rw [hcapacity]
    exact congrArg (driver _ · _) (funext hrefuses)
  have hfinishes := h mysql capitals 20 "/d".toList StorageSim.ext self 0 5 ["/d/b.JPG".toList]
    mysql_lawful (by decide +kernel) (by decide +kernel) (by norm_num) hself (by decide +kernel)
    (by norm_num)
  rw [hsystem] at hfinishes
  obtain ⟨-, hall⟩ := hfinishes
  obtain ⟨-, -, k, t, ht, -, hout⟩ :=
    hall _ (System.reachable_last _ refusing_starts) (by decide +kernel)
  exact absurd ((refusing_out k t ht).symm.trans hout) (by decide)

end SmartDisk.Calibration
