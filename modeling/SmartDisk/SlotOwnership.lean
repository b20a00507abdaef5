import SmartDisk.SlotSteps
import SmartDisk.SlotTickets

/-!
# Ownership of the slots

A slot is available or held by one handler. While a handler polls, either its pair is
live and `len` is -1, or the pair is gone and the slot is filled. A callback writes only
for a live pair, so it writes into the slot of its own request.

The client can break this: a response whose sequence number is not in `_pending` goes
to whatever delegate is set, and two threads of a worker can be inside a callback for the
same entry. `Attributed` says that neither happens in a step, and then the step keeps the
invariant.
-/
namespace SmartDisk.SlotProtocol
open KineticClient ActionSystem

variable {n : ℕ}

def Holds (s : State n) (h : ℕ) (i : Idx) : Prop := (s.handlers h).pc.slot = some i

/-- What the callbacks for the key `k` have been told. -/
def Told (s : State n) (k : Key) (v : Bytes) : Prop :=
  ∃ res, ((k, res) ∈ s.returned ∨ res = none ∧ k ∈ s.failed) ∧ v = res.getD []

/-- The value `v` is in the slot. -/
def Filled (slot : SM_Slot) (v : Bytes) : Prop :=
  slot.len = v.length ∧ slot.payload.1.take v.length = v

/-! ### The invariant -/

def Handler.Ok (told : Key → Bytes → Prop) (slots : Idx → SM_Slot) (x : Handler) : Prop :=
  match x.pc with
  | .absent | .pop | .raised _ => True
  | .put i => (slots i).len = -1
  | .poll i => (slots i).len = -1 ∨ ∃ v, told x.key v ∧ Filled (slots i) v
  | .read i => ∃ v, told x.key v ∧ Filled (slots i) v
  | .copy i plen => ∃ v, told x.key v ∧ Filled (slots i) v ∧ plen = v.length
  | .reset _ v | .leave v => told x.key v
  | .add i v => (slots i).len = -1 ∧ told x.key v
  | .returned b => ∃ v, told x.key v ∧ body x.endpoint v = .ok b

/-- The callback of a live pair. -/
def Progress.Ok (told : Key → Bytes → Prop) (slots : Idx → SM_Slot) (c : Client Request) :
    Progress → Prop
  | .payload o r value =>
      told r.key value ∧ ∃ seq, o = some seq ∧ c.pending.lookup seq = some (some r)
  | .len o r vlen =>
      (∃ v, told r.key v ∧ vlen = v.length ∧ (slots r.sm_idx).payload.1.take vlen = v) ∧
        ∃ seq, o = some seq ∧ c.pending.lookup seq = some (some r)
  | .clean_up seq => seq ∈ c.pending

def Main.Ok (c : Client Request) : Main → Prop
  | .acquire r | .header r => c.callback_delegate = some r
  | .send seq r => seq < c.sequence ∧ ∀ r', c.pending.lookup seq = some (some r') → r' = r
  | _ => True

/-- Every entry has a callback, and a command on the wire asks for the key of its entry. -/
structure Booked (c : Client Request) : Prop where
  known : ∀ seq cb, c.pending.lookup seq = some cb → seq < c.sequence ∧ ∃ r, cb = some r
  wire : ∀ x ∈ c.wire, x.1 < c.sequence ∧
    ∀ r, c.pending.lookup x.1 = some (some r) → r.key = x.2

structure Worker.Ok (told : Key → Bytes → Prop) (slots : Idx → SM_Slot) (wk : Worker) : Prop where
  main : wk.main.Ok wk.client
  alone : wk.active.length ≤ 1
  running : ∀ p ∈ wk.active, p.Ok told slots wk.client
  client : Booked wk.client

/-- The handler of `r` waits for it. -/
def Polling (s : State n) (r : Request) : Prop :=
  (s.handlers r.owner).pc = .poll r.sm_idx ∧ (s.handlers r.owner).key = r.key ∧
    (s.sm_slots r.sm_idx).len = -1

structure Owned (s : State n) : Prop where
  shared : ∀ i, i ∈ s.sm_available_idx ↔ ∀ h, ¬Holds s h i
  unique : ∀ h h' i, Holds s h i → Holds s h' i → h = h'
  unset : ∀ i ∈ s.sm_available_idx, (s.sm_slots i).len = -1
  handler : ∀ h, (s.handlers h).Ok (Told s) s.sm_slots
  ticket : ∀ r ∈ tickets s, Polling s r
  once : ((tickets s).map Request.owner).Nodup
  waiting : ∀ k i, (s.handlers k).pc = .poll i → (s.sm_slots i).len = -1 →
    ∃ r ∈ tickets s, r.owner = k
  worker : ∀ w, (s.workers w).Ok (Told s) s.sm_slots

/-! ### Conditions on a run -/

/-- A response finds its own entry, or nobody at all. -/
def Finds (c : Client Request) (seq : ℕ) : Prop := seq ∈ c.pending ∨ c.callback_delegate = none

/-- Nothing is delivered to the delegate, nor while another callback of the worker runs. -/
def Attributed (a : Action n) (s : State n) : Prop :=
  match a with
  | .drive w seq _ _ => Finds (s.workers w).client seq ∧ (s.workers w).main.running = []
  | .bad_hmac w _ | .timeout w | .socket_error w =>
      Finds (s.workers w).client 0 ∧ (s.workers w).main.running = []
  | .send w false => Finds (s.workers w).client 0 ∧ (s.workers w).listener.running = []
  | .listen w =>
      match (s.workers w).listener with
      | .callback (.payload _ _ value) =>
          value.length ≤ MAX_PAYLOAD_LEN ∨ Finds (s.workers w).client 0
      | _ => True
  | _ => True

/-! ### Frames -/

section
variable {told told' : Key → Bytes → Prop} {slots slots' : Idx → SM_Slot}

theorem Handler.ok_poll {x : Handler} {i : Idx} (hpc : x.pc = .poll i) :
    x.Ok told slots ↔ (slots i).len = -1 ∨ ∃ v, told x.key v ∧ Filled (slots i) v := by
  unfold Handler.Ok
  rw [hpc]

theorem Handler.Ok.frame {x : Handler} (h : x.Ok told slots)
    (htold : ∀ k v, told k v → told' k v)
    (hslots : ∀ i, x.pc.slot = some i → slots' i = slots i) : x.Ok told' slots' := by
  unfold Handler.Ok at h ⊢
  cases hpc : x.pc with
  | absent | pop | raised => trivial
  | put i =>
      simp only [hpc] at h ⊢
      rw [hslots i (by rw [hpc]; rfl)]
      exact h
  | poll i =>
      simp only [hpc] at h ⊢
      rw [hslots i (by rw [hpc]; rfl)]
      exact h.imp_right fun ⟨v, hv, hf⟩ => ⟨v, htold _ _ hv, hf⟩
  | read i =>
      simp only [hpc] at h ⊢
      rw [hslots i (by rw [hpc]; rfl)]
      obtain ⟨v, hv, hf⟩ := h
      exact ⟨v, htold _ _ hv, hf⟩
  | copy i plen =>
      simp only [hpc] at h ⊢
      rw [hslots i (by rw [hpc]; rfl)]
      obtain ⟨v, hv, hf⟩ := h
      exact ⟨v, htold _ _ hv, hf⟩
  | reset i v =>
      simp only [hpc] at h ⊢
      exact htold _ _ h
  | add i v =>
      simp only [hpc] at h ⊢
      rw [hslots i (by rw [hpc]; rfl)]
      exact ⟨h.1, htold _ _ h.2⟩
  | leave v =>
      simp only [hpc] at h ⊢
      exact htold _ _ h
  | returned b =>
      simp only [hpc] at h ⊢
      obtain ⟨v, hv, hb⟩ := h
      exact ⟨v, htold _ _ hv, hb⟩

theorem Progress.Ok.frame {c : Client Request} {p : Progress} (h : p.Ok told slots c)
    (htold : ∀ k v, told k v → told' k v)
    (hslots : ∀ o r vlen, p = .len o r vlen → (slots' r.sm_idx).payload = (slots r.sm_idx).payload) :
    p.Ok told' slots' c := by
  cases p with
  | payload o r value => exact ⟨htold _ _ h.1, h.2⟩
  | len o r vlen =>
      obtain ⟨⟨v, hv, hlen, htake⟩, hseq⟩ := h
      refine ⟨⟨v, htold _ _ hv, hlen, ?_⟩, hseq⟩
      rw [hslots o r vlen rfl]
      exact htake
  | clean_up seq => exact h

theorem Worker.Ok.frame {wk : Worker} (h : wk.Ok told slots)
    (htold : ∀ k v, told k v → told' k v)
    (hslots : ∀ o r vlen, .len o r vlen ∈ wk.active →
      (slots' r.sm_idx).payload = (slots r.sm_idx).payload) : wk.Ok told' slots' where
  main := h.main
  alone := h.alone
  running p hp := (h.running p hp).frame htold fun o r vlen heq => hslots o r vlen (heq ▸ hp)
  client := h.client

end

@[simp] theorem setLen_self (slots : Idx → SM_Slot) (i : Idx) (m : ℤ) :
    setLen slots i m i = { slots i with len := m } := Function.update_self ..

theorem setLen_of_ne (slots : Idx → SM_Slot) {i j : Idx} (h : j ≠ i) (m : ℤ) :
    setLen slots i m j = slots j := Function.update_of_ne h ..

@[simp] theorem setLen_payload (slots : Idx → SM_Slot) (i j : Idx) (m : ℤ) :
    (setLen slots i m j).payload = (slots j).payload := by
  unfold setLen
  by_cases h : j = i
  · rw [h, Function.update_self]
  · rw [Function.update_of_ne h]

@[simp] theorem setPayload_self (slots : Idx → SM_Slot) (i : Idx) (p : Payload) :
    setPayload slots i p i = { slots i with payload := p } := Function.update_self ..

theorem setPayload_of_ne (slots : Idx → SM_Slot) {i j : Idx} (h : j ≠ i) (p : Payload) :
    setPayload slots i p j = slots j := Function.update_of_ne h ..

@[simp] theorem setPayload_len (slots : Idx → SM_Slot) (i j : Idx) (p : Payload) :
    (setPayload slots i p j).len = (slots j).len := by
  unfold setPayload
  by_cases h : j = i
  · rw [h, Function.update_self]
  · rw [Function.update_of_ne h]

theorem Payload.take_write {p p' : Payload} {value : Bytes} (h : p.write value = some p') :
    p'.1.take value.length = value := by
  unfold Payload.write at h
  split at h
  · cases h
    simp
  · cases h

theorem Payload.read_take {p : Payload} {v : Bytes} (h : p.1.take v.length = v) :
    p.read v.length = v := by
  unfold Payload.read
  rw [if_neg (by omega), Int.toNat_natCast, h]

/-! ### Handlers -/

section
variable {s : State n}

/-- A handler that is not waiting has no live pair. -/
theorem Owned.not_owner (h : Owned s) {k : ℕ}
    (hk : ∀ i, (s.handlers k).pc = .poll i → (s.sm_slots i).len ≠ -1) :
    ∀ r ∈ tickets s, r.owner ≠ k := by
  rintro r hr rfl
  obtain ⟨hpc, -, hlen⟩ := h.ticket r hr
  exact hk _ hpc hlen

/-- A handler that keeps its slot, or the lack of one. -/
theorem holds_update {k : ℕ} {x : Handler} (hslot : x.pc.slot = (s.handlers k).pc.slot)
    (j : ℕ) (i : Idx) :
    Holds { s with handlers := Function.update s.handlers k x } j i ↔ Holds s j i := by
  unfold Holds
  by_cases hj : j = k
  · simp only [hj, Function.update_self, hslot]
  · simp only [Function.update_of_ne hj]

/-- One handler goes on. -/
theorem Owned.ok_update (h : Owned s) {k : ℕ} {x : Handler}
    (hok : x.Ok (Told s) s.sm_slots) (j : ℕ) :
    (Function.update s.handlers k x j).Ok (Told s) s.sm_slots := by
  by_cases hj : j = k
  · rw [hj, Function.update_self]
    exact hok
  · rw [Function.update_of_ne hj]
    exact h.handler j

/-- Those that wait for a ticket are others. -/
theorem Owned.polling_update (h : Owned s) {k : ℕ} {x : Handler} {r : Request}
    (hr : r ∈ tickets s) (hne : r.owner ≠ k) :
    Polling { s with handlers := Function.update s.handlers k x } r := by
  unfold Polling
  simp only [Function.update_of_ne hne]
  exact h.ticket r hr

/-- A step of one handler that keeps what it holds. -/
theorem Owned.setHandler (h : Owned s) {k : ℕ} {x : Handler}
    (hslot : x.pc.slot = (s.handlers k).pc.slot) (hfree : ∀ r ∈ tickets s, r.owner ≠ k)
    (hpoll : ∀ i, x.pc ≠ .poll i) (hok : x.Ok (Told s) s.sm_slots) :
    Owned { s with handlers := Function.update s.handlers k x } := by
  have hholds : ∀ j i, Holds { s with handlers := Function.update s.handlers k x } j i ↔
      Holds s j i := holds_update hslot
  constructor
  · intro i
    simp only [hholds]
    exact h.shared i
  · intro j j' i hj hj'
    exact h.unique j j' i ((hholds j i).mp hj) ((hholds j' i).mp hj')
  · exact h.unset
  · exact h.ok_update hok
  · exact fun r hr => h.polling_update hr (hfree r hr)
  · exact h.once
  · intro j i hj hlen
    by_cases hjk : j = k
    · simp only [hjk, Function.update_self] at hj
      exact absurd hj (hpoll i)
    · simp only [Function.update_of_ne hjk] at hj
      exact h.waiting j i hj hlen
  · exact h.worker

/-- A handler that polls after another pc was set has been polling before. -/
theorem pc_of_setPc {j k : ℕ} {i : Idx} {pc : Pc} (hpc : pc ≠ .poll i)
    (h : ((s.setPc k pc).handlers j).pc = .poll i) : (s.handlers j).pc = .poll i := by
  unfold State.setPc at h
  by_cases hj : j = k
  · simp only [hj, Function.update_self] at h
    exact absurd h hpc
  · simpa only [Function.update_of_ne hj] using h

theorem slot_enter (endpoint : Endpoint) (text : List Char) :
    (Handler.enter endpoint text).pc.slot = none := by
  unfold Handler.enter
  cases bytes text <;> rfl

theorem enter_ne_poll (endpoint : Endpoint) (text : List Char) (i : Idx) :
    (Handler.enter endpoint text).pc ≠ .poll i := by
  unfold Handler.enter
  cases bytes text <;> simp

theorem ok_enter (told : Key → Bytes → Prop) (slots : Idx → SM_Slot) (endpoint : Endpoint)
    (text : List Char) : (Handler.enter endpoint text).Ok told slots := by
  unfold Handler.enter Handler.Ok
  cases bytes text <;> trivial

theorem Owned.call (h : Owned s) {k : ℕ} (hpc : (s.handlers k).pc = .absent) (endpoint : Endpoint)
    (text : List Char) :
    Owned { s with handlers := Function.update s.handlers k (.enter endpoint text) } := by
  apply h.setHandler
  · rw [slot_enter, hpc]
    rfl
  · exact h.not_owner fun i hi => by simp [hpc] at hi
  · exact enter_ne_poll endpoint text
  · exact ok_enter _ _ _ _

/-- `sm_available_idx.pop()`. -/
theorem Owned.pop (h : Owned s) {k : ℕ} {i : Idx} (hpc : (s.handlers k).pc = .pop)
    (hi : i ∈ s.sm_available_idx) :
    Owned { s.setPc k (.put i) with sm_available_idx := s.sm_available_idx.erase i } := by
  have hnobody := (h.shared i).mp hi
  have hholds : ∀ j i', Holds (s.setPc k (.put i)) j i' ↔
      if j = k then i = i' else Holds s j i' := by
    intro j i'
    unfold Holds State.setPc
    by_cases hj : j = k
    · simp [hj, Pc.slot]
    · simp [hj]
  constructor
  · intro i'
    change i' ∈ s.sm_available_idx.erase i ↔ ∀ j, ¬Holds (s.setPc k (.put i)) j i'
    simp only [hholds, Finset.mem_erase]
    constructor
    · rintro ⟨hne, hin⟩ j
      split
      · exact hne.symm
      · exact (h.shared i').mp hin j
    · intro hall
      have hne : i' ≠ i := by
        have := hall k
        rw [if_pos rfl] at this
        exact Ne.symm this
      refine ⟨hne, (h.shared i').mpr fun j => ?_⟩
      by_cases hj : j = k
      · rw [hj]
        simp [Holds, hpc, Pc.slot]
      · simpa [hj] using hall j
  · intro j j' i' hj hj'
    have hj := (hholds j i').mp hj
    have hj' := (hholds j' i').mp hj'
    split at hj <;> split at hj'
    · rw [‹j = k›, ‹j' = k›]
    · exact absurd (hj ▸ hj') (hnobody j')
    · exact absurd (hj' ▸ hj) (hnobody j)
    · exact h.unique j j' i' hj hj'
  · intro i' hi'
    exact h.unset i' (Finset.mem_of_mem_erase hi')
  · exact h.ok_update (h.unset i hi)
  · intro r hr
    have hne : r.owner ≠ k := h.not_owner (fun i hi => by simp [hpc] at hi) r hr
    exact h.polling_update hr hne
  · exact h.once
  · exact fun j i' hj hlen' => h.waiting j i' (pc_of_setPc (by simp) hj) hlen'
  · exact h.worker

/-- `requests.put((key, sm_idx))`. -/
theorem Owned.put (h : Owned s) {k : ℕ} {i : Idx} (hpc : (s.handlers k).pc = .put i) :
    Owned { s.setPc k (.poll i) with
      requests := s.requests ++ [⟨(s.handlers k).key, i, k⟩] } := by
  have hlen : (s.sm_slots i).len = -1 := by
    have hok := h.handler k
    unfold Handler.Ok at hok
    simpa only [hpc] using hok
  have hnot : ∀ r ∈ tickets s, r.owner ≠ k := h.not_owner fun i hi => by simp [hpc] at hi
  have hholds : ∀ j i', Holds (s.setPc k (.poll i)) j i' ↔ Holds s j i' := by
    apply holds_update
    rw [hpc]
    rfl
  have htickets : tickets { s.setPc k (.poll i) with
      requests := s.requests ++ [⟨(s.handlers k).key, i, k⟩] } =
      ⟨(s.handlers k).key, i, k⟩ ::ₘ tickets s := by
    unfold tickets
    simp only [← Multiset.coe_add]
    change (s.requests : Multiset Request) + {⟨(s.handlers k).key, i, k⟩} + _ = _
    rw [add_right_comm, add_comm, Multiset.singleton_add]
    rfl
  constructor
  · intro i'
    change i' ∈ s.sm_available_idx ↔ ∀ j, ¬Holds (s.setPc k (.poll i)) j i'
    simp only [hholds]
    exact h.shared i'
  · intro j j' i' hj hj'
    exact h.unique j j' i' ((hholds j i').mp hj) ((hholds j' i').mp hj')
  · exact h.unset
  · exact h.ok_update (.inl hlen)
  · intro r hr
    rw [htickets] at hr
    obtain rfl | hr := Multiset.mem_cons.mp hr
    · exact ⟨by simp [State.setPc], by simp [State.setPc], hlen⟩
    · exact h.polling_update hr (hnot r hr)
  · rw [htickets, Multiset.map_cons, Multiset.nodup_cons]
    refine ⟨?_, h.once⟩
    intro hin
    obtain ⟨r, hr, howner⟩ := Multiset.mem_map.mp hin
    exact hnot r hr howner
  · intro j i' hj hlen'
    rw [htickets]
    by_cases hjk : j = k
    · exact ⟨_, Multiset.mem_cons_self _ _, hjk.symm⟩
    · simp only [State.setPc, Function.update_of_ne hjk] at hj
      obtain ⟨r, hr, howner⟩ := h.waiting j i' hj hlen'
      exact ⟨r, Multiset.mem_cons_of_mem hr, howner⟩
  · exact h.worker

/-- `slot.len.value = -1`. -/
theorem Owned.reset (h : Owned s) {k : ℕ} {i : Idx} {v : Bytes}
    (hpc : (s.handlers k).pc = .reset i v) :
    Owned { s.setPc k (.add i v) with sm_slots := setLen s.sm_slots i (-1) } := by
  have htold : Told s (s.handlers k).key v := by
    have hok := h.handler k
    unfold Handler.Ok at hok
    simpa only [hpc] using hok
  have hhold : Holds s k i := by
    unfold Holds
    rw [hpc]
    rfl
  have hholds : ∀ j i', Holds (s.setPc k (.add i v)) j i' ↔ Holds s j i' := by
    apply holds_update
    rw [hpc]
    rfl
  have hlen : ∀ i', (s.sm_slots i').len = -1 → (setLen s.sm_slots i (-1) i').len = -1 := by
    intro i' hi'
    by_cases hne : i' = i
    · rw [hne, setLen_self]
    · rw [setLen_of_ne _ hne, hi']
  constructor
  · intro i'
    change i' ∈ s.sm_available_idx ↔ ∀ j, ¬Holds (s.setPc k (.add i v)) j i'
    simp only [hholds]
    exact h.shared i'
  · intro j j' i' hj hj'
    exact h.unique j j' i' ((hholds j i').mp hj) ((hholds j' i').mp hj')
  · exact fun i' hi' => hlen i' (h.unset i' hi')
  · intro j
    by_cases hj : j = k
    · simp only [State.setPc, hj, Function.update_self]
      exact ⟨by simp, htold⟩
    · simp only [State.setPc, Function.update_of_ne hj]
      apply (h.handler j).frame (fun _ _ hv => hv)
      intro i' hi'
      apply setLen_of_ne
      rintro rfl
      exact hj (h.unique j k _ hi' hhold)
  · intro r hr
    have hne : r.owner ≠ k := h.not_owner (fun i hi => by simp [hpc] at hi) r hr
    obtain ⟨hpoll, hkey, hunset⟩ := h.ticket r hr
    unfold Polling
    simp only [State.setPc, Function.update_of_ne hne]
    exact ⟨hpoll, hkey, hlen _ hunset⟩
  · exact h.once
  · intro j i' hj hlen'
    have hpoll : (s.handlers j).pc = .poll i' := pc_of_setPc (by simp) hj
    apply h.waiting j i' hpoll
    have hne : i' ≠ i := by
      rintro rfl
      have hjk : j = k := h.unique j k i' (by unfold Holds; rw [hpoll]; rfl) hhold
      rw [hjk, hpc] at hpoll
      cases hpoll
    have hlen' : (setLen s.sm_slots i (-1) i').len = -1 := hlen'
    rwa [setLen_of_ne _ hne] at hlen'
  · intro w
    exact (h.worker w).frame (fun _ _ hv => hv) fun _ _ _ _ => setLen_payload ..

/-- `sm_available_idx.add(sm_idx)`. -/
theorem Owned.add (h : Owned s) {k : ℕ} {i : Idx} {v : Bytes}
    (hpc : (s.handlers k).pc = .add i v) :
    Owned { s.setPc k (.leave v) with sm_available_idx := insert i s.sm_available_idx } := by
  obtain ⟨hlen, htold⟩ : (s.sm_slots i).len = -1 ∧ Told s (s.handlers k).key v := by
    have hok := h.handler k
    unfold Handler.Ok at hok
    simpa only [hpc] using hok
  have hhold : Holds s k i := by
    unfold Holds
    rw [hpc]
    rfl
  have hholds : ∀ j i', Holds (s.setPc k (.leave v)) j i' ↔ j ≠ k ∧ Holds s j i' := by
    intro j i'
    unfold Holds State.setPc
    by_cases hj : j = k
    · simp [hj, Pc.slot]
    · simp [hj]
  constructor
  · intro i'
    change i' ∈ insert i s.sm_available_idx ↔ ∀ j, ¬Holds (s.setPc k (.leave v)) j i'
    simp only [hholds, Finset.mem_insert]
    constructor
    · rintro (rfl | hin) j ⟨hj, hj'⟩
      · exact hj (h.unique j k _ hj' hhold)
      · exact (h.shared i').mp hin j hj'
    · intro hall
      by_cases hi' : i' = i
      · exact .inl hi'
      · apply Or.inr
        apply (h.shared i').mpr
        intro j hj
        apply hall j
        refine ⟨?_, hj⟩
        rintro rfl
        exact hi' (Option.some.inj (hj.symm.trans hhold))
  · intro j j' i' hj hj'
    exact h.unique j j' i' ((hholds j i').mp hj).2 ((hholds j' i').mp hj').2
  · intro i' hi'
    obtain rfl | hin := Finset.mem_insert.mp hi'
    · exact hlen
    · exact h.unset i' hin
  · exact h.ok_update htold
  · intro r hr
    have hne : r.owner ≠ k := h.not_owner (fun i hi => by simp [hpc] at hi) r hr
    exact h.polling_update hr hne
  · exact h.once
  · exact fun j i' hj hlen' => h.waiting j i' (pc_of_setPc (by simp) hj) hlen'
  · exact h.worker

/-- A handler that does not poll goes on and keeps what it holds. -/
theorem Owned.setPc (h : Owned s) {k : ℕ} {pc : Pc} (hslot : pc.slot = (s.handlers k).pc.slot)
    (hfree : ∀ i, (s.handlers k).pc = .poll i → (s.sm_slots i).len ≠ -1)
    (hpoll : ∀ i, pc ≠ .poll i)
    (hok : ({ s.handlers k with pc := pc } : Handler).Ok (Told s) s.sm_slots) :
    Owned (s.setPc k pc) :=
  h.setHandler hslot (h.not_owner hfree) hpoll hok

theorem Owned.none_left (h : Owned s) {k : ℕ} (hpc : (s.handlers k).pc = .pop) :
    Owned (s.setPc k (.raised .KeyError)) := by
  apply h.setPc
  · rw [hpc]
    rfl
  · simp [hpc]
  · simp
  · trivial

/-- The loop over `len` ends. -/
theorem Owned.poll (h : Owned s) {k : ℕ} {i : Idx} (hpc : (s.handlers k).pc = .poll i)
    (hlen : 0 ≤ (s.sm_slots i).len) : Owned (s.setPc k (.read i)) := by
  have hok := h.handler k
  rw [Handler.ok_poll hpc] at hok
  obtain hunset | hfilled := hok
  · omega
  apply h.setPc
  · rw [hpc]
    rfl
  · intro i' hi'
    rw [hpc] at hi'
    cases hi'
    omega
  · simp
  · exact hfilled

/-- A length of zero means that there is no value, or an empty one. -/
theorem Owned.empty (h : Owned s) {k : ℕ} {i : Idx} (hpc : (s.handlers k).pc = .read i)
    (hlen : (s.sm_slots i).len = 0) : Owned (s.setPc k (.reset i [])) := by
  have hok := h.handler k
  unfold Handler.Ok at hok
  simp only [hpc] at hok
  obtain ⟨v, hv, hlength, -⟩ := hok
  have hnil : v = [] := List.eq_nil_of_length_eq_zero (by omega)
  apply h.setPc
  · rw [hpc]
    rfl
  · simp [hpc]
  · simp
  · exact hnil ▸ hv

theorem Owned.read (h : Owned s) {k : ℕ} {i : Idx} (hpc : (s.handlers k).pc = .read i) :
    Owned (s.setPc k (.copy i (s.sm_slots i).len)) := by
  have hok := h.handler k
  unfold Handler.Ok at hok
  simp only [hpc] at hok
  obtain ⟨v, hv, hlength, htake⟩ := hok
  apply h.setPc
  · rw [hpc]
    rfl
  · simp [hpc]
  · simp
  · exact ⟨v, hv, ⟨hlength, htake⟩, hlength⟩

theorem Owned.copy (h : Owned s) {k : ℕ} {i : Idx} {plen : ℤ}
    (hpc : (s.handlers k).pc = .copy i plen) :
    Owned (s.setPc k (.reset i ((s.sm_slots i).payload.read plen))) := by
  have hok := h.handler k
  unfold Handler.Ok at hok
  simp only [hpc] at hok
  obtain ⟨v, hv, ⟨-, htake⟩, rfl⟩ := hok
  rw [Payload.read_take htake]
  apply h.setPc
  · rw [hpc]
    rfl
  · simp [hpc]
  · simp
  · exact hv

theorem Owned.leave (h : Owned s) {k : ℕ} {v b : Bytes} (hpc : (s.handlers k).pc = .leave v)
    (hb : body (s.handlers k).endpoint v = .ok b) : Owned (s.setPc k (.returned b)) := by
  have hok := h.handler k
  unfold Handler.Ok at hok
  simp only [hpc] at hok
  apply h.setPc
  · rw [hpc]
    rfl
  · simp [hpc]
  · simp
  · exact ⟨v, hok, hb⟩

theorem Owned.fail (h : Owned s) {k : ℕ} {v : Bytes} {e : Exn}
    (hpc : (s.handlers k).pc = .leave v) : Owned (s.setPc k (.raised e)) := by
  apply h.setPc
  · rw [hpc]
    rfl
  · simp [hpc]
  · simp
  · trivial

end

end SmartDisk.SlotProtocol
