import SmartDisk.SlotOwnership

/-!
# The workers keep the slots in order

The steps of a worker move its pair along, and its callbacks fill the slot and let go
of the pair. What a callback needs is that its pair is live, which is what the entry
in `_pending` says.
-/
namespace SmartDisk.SlotProtocol
open KineticClient ActionSystem

variable {n : ℕ} {told : Key → Bytes → Prop} {slots : Idx → SM_Slot}

/-! ### The client of a worker -/

section
variable {c : Client Request} {r : Request} {seq : ℕ}

theorem Booked.lt_sequence (h : Booked c) (hseq : seq ∈ c.pending) : seq < c.sequence := by
  obtain ⟨cb, hcb⟩ := Option.isSome_iff_exists.mp (AList.lookup_isSome.mpr hseq)
  exact (h.known seq cb hcb).1

theorem Booked.fresh (h : Booked c) : c.sequence ∉ c.pending :=
  fun hin => absurd (h.lt_sequence hin) (Nat.lt_irrefl _)

theorem Booked.lookup_insert (h : Booked c) (cb : Option Request) {cb' : Option Request}
    (hseq : c.pending.lookup seq = some cb) :
    (c.pending.insert c.sequence cb').lookup seq = some cb := by
  rw [lookup_insert_eq, if_neg (Nat.ne_of_lt (h.known seq cb hseq).1), hseq]

theorem Booked.update_header (h : Booked c) (hd : c.callback_delegate = some r) :
    Booked c.update_header := by
  constructor
  · intro seq cb hcb
    change (c.pending.insert c.sequence c.callback_delegate).lookup seq = some cb at hcb
    change seq < c.sequence + 1 ∧ _
    rw [lookup_insert_eq] at hcb
    split at hcb
    · rename_i heq
      cases hcb
      exact ⟨by omega, r, hd⟩
    · obtain ⟨hlt, hsome⟩ := h.known seq cb hcb
      exact ⟨by omega, hsome⟩
  · intro x hx
    obtain ⟨hlt, hkey⟩ := h.wire x hx
    refine ⟨Nat.lt_succ_of_lt hlt, fun r' hr' => hkey r' ?_⟩
    change (c.pending.insert c.sequence c.callback_delegate).lookup x.1 = some (some r') at hr'
    rwa [lookup_insert_eq, if_neg (Nat.ne_of_lt hlt)] at hr'

theorem Booked.packet_send (h : Booked c) (hm : Main.Ok c (.send seq r)) :
    Booked (c.packet_send seq r.key) := by
  refine ⟨h.known, ?_⟩
  intro x hx
  obtain hx | rfl := List.mem_append.mp hx |>.imp_right List.mem_singleton.mp
  · exact h.wire x hx
  · exact ⟨hm.1, fun r' hr' => by rw [hm.2 r' hr']⟩

theorem Booked.answer (h : Booked c) : Booked (c.answer seq) :=
  ⟨h.known, fun x hx => h.wire x (List.mem_of_mem_filter hx)⟩

theorem lookup_of_erase {d : Dict ℕ (Option Request)} {a b : ℕ} {cb : Option Request}
    (h : (d.erase a).lookup b = some cb) : d.lookup b = some cb := by
  rw [lookup_erase_eq] at h
  split at h
  · cases h
  · exact h

theorem Booked.clean_up (h : Booked c) : Booked (c.clean_up seq) := by
  constructor
  · intro m cb hcb
    exact h.known m cb (lookup_of_erase hcb)
  · intro x hx
    obtain ⟨hlt, hkey⟩ := h.wire x hx
    exact ⟨hlt, fun r' hr' => hkey r' (lookup_of_erase hr')⟩

theorem Main.Ok.clean_up {m : Main} (h : m.Ok c) : m.Ok (c.clean_up seq) := by
  cases m with
  | send seq' r =>
      obtain ⟨hlt, hkey⟩ := h
      exact ⟨hlt, fun r' hr' => hkey r' (lookup_of_erase hr')⟩
  | _ => exact h

theorem Main.Ok.answer {m : Main} (h : m.Ok c) : m.Ok (c.answer seq) := by
  cases m <;> exact h

/-- A response that finds its entry starts the callback of a live pair. -/
theorem respond_ok (h : Booked c) {cmd : Command} {value : Bytes}
    (hfinds : Finds c cmd.ackSequence)
    (hvalue : ∀ r, c.pending.lookup cmd.ackSequence = some (some r) →
      told r.key ((cmd.outcome value).getD [])) {p : Progress} (hp : respond c cmd value = some p) :
    p.Ok told slots c ∧ p.cleaning = [] := by
  unfold respond Client.on_response at hp
  cases hseq : c.pending.lookup cmd.ackSequence with
  | none =>
      obtain hin | hd := hfinds
      · exact absurd hin (AList.lookup_eq_none.mp hseq)
      · rw [hseq, hd] at hp
        cases hp
  | some cb =>
      obtain ⟨-, r, rfl⟩ := h.known _ _ hseq
      have htold := hvalue r hseq
      rw [hseq] at hp
      cases hp
      unfold data_callback
      unfold Command.outcome at htold
      split at htold
      · rw [if_pos ‹_›]
        exact ⟨⟨htold, _, rfl, hseq⟩, rfl⟩
      · rw [if_neg ‹_›]
        exact ⟨⟨⟨[], htold, rfl, rfl⟩, _, rfl, hseq⟩, rfl⟩

theorem blamed_of_lookup {cmd : Command} (h : c.pending.lookup cmd.ackSequence = some (some r)) :
    blamed c cmd = [r.key] := by
  unfold blamed Client.on_response
  rw [h]

end

/-! ### One worker -/

section
variable {wk : Worker}

theorem Worker.Ok.active_eq (h : wk.Ok told slots) {p : Progress} (hp : p ∈ wk.active) :
    wk.active = [p] := by
  have hlen := h.alone
  match hact : wk.active with
  | [] => simp [hact] at hp
  | [q] => rw [hact, List.mem_singleton] at hp; rw [hp]
  | _ :: _ :: _ => simp [hact] at hlen

/-- A callback that is not at its end writes for a live pair. -/
theorem Worker.Ok.mem_tickets (h : wk.Ok told slots) {p : Progress} (hp : p ∈ wk.active)
    (hclean : p.cleaning = []) {seq : ℕ} {r : Request}
    (hseq : wk.client.pending.lookup seq = some (some r)) : r ∈ wk.tickets := by
  unfold Worker.tickets
  rw [h.active_eq hp, List.flatMap_singleton, hclean]
  exact Multiset.mem_add.mpr (.inr (mem_live hseq List.not_mem_nil))

/-- The main thread goes on while the listener may be inside a callback. -/
theorem Worker.Ok.main_step (h : wk.Ok told slots) {c : Client Request} {m : Main}
    (hrun : wk.main.running = []) (hrun' : m.running = [])
    (hpending : ∀ seq cb, wk.client.pending.lookup seq = some cb →
      c.pending.lookup seq = some cb)
    (hmain : m.Ok c) (hbook : Booked c) :
    ({ wk with client := c, main := m } : Worker).Ok told slots := by
  have hactive : ({ wk with client := c, main := m } : Worker).active = wk.active := by
    unfold Worker.active
    rw [hrun, hrun']
  refine ⟨hmain, hactive ▸ h.alone, ?_, hbook⟩
  intro p hp
  rw [hactive] at hp
  have hok := h.running p hp
  cases p with
  | payload o r value =>
      obtain ⟨htold, seq, ho, hseq⟩ := hok
      exact ⟨htold, seq, ho, hpending _ _ hseq⟩
  | len o r vlen =>
      obtain ⟨hv, seq, ho, hseq⟩ := hok
      exact ⟨hv, seq, ho, hpending _ _ hseq⟩
  | clean_up seq =>
      obtain ⟨cb, hcb⟩ := Option.isSome_iff_exists.mp (AList.lookup_isSome.mpr hok)
      exact AList.lookup_isSome.mp (hpending _ _ hcb ▸ rfl)

theorem tickets_main {c : Client Request} {m : Main} (hrun : wk.main.running = [])
    (hrun' : m.running = []) :
    ({ wk with client := c, main := m } : Worker).tickets =
      m.issuing + live c.pending (wk.active.flatMap Progress.cleaning) := by
  unfold Worker.tickets Worker.active
  rw [hrun, hrun']

/-- The sequence number that is drawn next is not about to be deleted. -/
theorem Worker.Ok.not_cleaning (h : wk.Ok told slots) :
    wk.client.sequence ∉ wk.active.flatMap Progress.cleaning := by
  intro hin
  obtain ⟨p, hp, hclean⟩ := List.mem_flatMap.mp hin
  have hok := h.running p hp
  cases p with
  | clean_up seq =>
      obtain rfl : wk.client.sequence = seq := List.mem_singleton.mp hclean
      exact h.client.fresh hok
  | _ => cases hclean

end

/-! ### Steps of a worker -/

section
variable {s : State n}

/-- What the callbacks have been told only grows. -/
theorem Owned.grow (h : Owned s) {rs : List (Key × Option Bytes)} {fs : List Key}
    (hrs : s.returned ⊆ rs) (hfs : s.failed ⊆ fs) :
    Owned { s with returned := rs, failed := fs } := by
  have htold : ∀ k v, Told s k v → Told { s with returned := rs, failed := fs } k v := by
    rintro k v ⟨res, hres, hv⟩
    exact ⟨res, hres.imp (fun hin => hrs hin) (fun ⟨hnone, hin⟩ => ⟨hnone, hfs hin⟩), hv⟩
  refine ⟨h.shared, h.unique, h.unset, ?_, h.ticket, h.once, h.waiting, ?_⟩
  · exact fun k => (h.handler k).frame htold fun _ _ => rfl
  · exact fun w => (h.worker w).frame htold fun _ _ _ _ => rfl

/-- A worker moves on without touching a slot. -/
theorem Owned.work (h : Owned s) {w : Fin n} {wk : Worker}
    (htickets : wk.tickets = (s.workers w).tickets) (hok : wk.Ok (Told s) s.sm_slots) :
    Owned (s.setWorker w wk) := by
  have heq := tickets_setWorker_eq htickets
  refine ⟨h.shared, h.unique, h.unset, h.handler, ?_, ?_, ?_, ?_⟩
  · intro r hr
    exact h.ticket r (heq ▸ hr)
  · rw [heq]
    exact h.once
  · rw [heq]
    exact h.waiting
  · intro w'
    by_cases hw : w' = w
    · simp only [State.setWorker, hw, Function.update_self]
      exact hok
    · simp only [State.setWorker, Function.update_of_ne hw]
      exact h.worker w'

theorem Owned.fetch (h : Owned s) {w : Fin n} {r : Request} {rest : List Request}
    (hmain : (s.workers w).main = .fetch) (hreq : s.requests = r :: rest) :
    Owned ({ s with requests := rest }.setWorker w { s.workers w with main := .install r }) := by
  have hw := h.worker w
  have hwork : ({ s.workers w with main := .install r } : Worker).tickets =
      {r} + (s.workers w).tickets := by
    unfold Worker.tickets Worker.active
    simp [hmain, Main.issuing, Main.running]
  have heq : tickets ({ s with requests := rest }.setWorker w
      { s.workers w with main := .install r }) = tickets s := by
    have hsum : tickets ({ s with requests := rest }.setWorker w
        { s.workers w with main := .install r }) + 0 = tickets { s with requests := rest } + {r} :=
      tickets_setWorker (by rw [hwork, add_zero, add_comm])
    rw [add_zero] at hsum
    rw [hsum]
    unfold tickets
    simp only [hreq, ← Multiset.cons_coe]
    rw [add_right_comm, add_comm (rest : Multiset Request), Multiset.singleton_add]
  refine ⟨h.shared, h.unique, h.unset, h.handler, ?_, ?_, ?_, ?_⟩
  · intro r' hr'
    exact h.ticket r' (heq ▸ hr')
  · rw [heq]
    exact h.once
  · rw [heq]
    exact h.waiting
  · intro w'
    by_cases hw' : w' = w
    · simp only [State.setWorker, hw', Function.update_self]
      exact hw.main_step (by rw [hmain]; rfl) rfl (fun _ _ hseq => hseq) trivial hw.client
    · simp only [State.setWorker, Function.update_of_ne hw']
      exact h.worker w'

/-- A step of the main thread that is not the end of a callback. -/
theorem Owned.main_step (h : Owned s) {w : Fin n} {c : Client Request} {m : Main}
    (hrun : (s.workers w).main.running = []) (hrun' : m.running = [])
    (htickets : m.issuing + live c.pending ((s.workers w).active.flatMap Progress.cleaning) =
      (s.workers w).main.issuing +
        live (s.workers w).client.pending ((s.workers w).active.flatMap Progress.cleaning))
    (hpending : ∀ seq cb, (s.workers w).client.pending.lookup seq = some cb →
      c.pending.lookup seq = some cb)
    (hmain : m.Ok c) (hbook : Booked c) :
    Owned (s.setWorker w { s.workers w with client := c, main := m }) := by
  apply h.work
  · rw [tickets_main hrun hrun']
    exact htickets
  · exact (h.worker w).main_step hrun hrun' hpending hmain hbook

theorem Owned.install (h : Owned s) {w : Fin n} {r : Request}
    (hmain : (s.workers w).main = .install r) :
    Owned (s.setWorker w { s.workers w with
      client := { (s.workers w).client with callback_delegate := some r }
      main := .acquire r }) := by
  apply h.main_step
  · rw [hmain]
    rfl
  · rfl
  · rw [hmain]
    rfl
  · exact fun _ _ hseq => hseq
  · rfl
  · exact ⟨(h.worker w).client.known, (h.worker w).client.wire⟩

theorem Owned.acquire (h : Owned s) {w : Fin n} {r : Request} {c : Client Request}
    (hmain : (s.workers w).main = .acquire r) (hc : (s.workers w).client.acquire = some c) :
    Owned (s.setWorker w { s.workers w with client := c, main := .header r }) := by
  have hok := (h.worker w).main
  rw [hmain] at hok
  obtain rfl := Client.acquire_eq hc
  apply h.main_step
  · rw [hmain]
    rfl
  · rfl
  · rw [hmain]
    rfl
  · exact fun _ _ hseq => hseq
  · exact hok
  · exact ⟨(h.worker w).client.known, (h.worker w).client.wire⟩

theorem Owned.header (h : Owned s) {w : Fin n} {r : Request}
    (hmain : (s.workers w).main = .header r) :
    Owned (s.setWorker w { s.workers w with
      client := (s.workers w).client.update_header
      main := .send (s.workers w).client.sequence r }) := by
  have hbook := (h.worker w).client
  have hd : (s.workers w).client.callback_delegate = some r := by
    have hok := (h.worker w).main
    rwa [hmain] at hok
  apply h.main_step
  · rw [hmain]
    rfl
  · rfl
  · rw [hmain]
    change 0 + live ((s.workers w).client.pending.insert _ _) _ = {r} + live _ _
    rw [hd, live_insert hbook.fresh (h.worker w).not_cleaning, zero_add, Multiset.singleton_add]
  · exact fun seq cb hseq => hbook.lookup_insert cb hseq
  · refine ⟨Nat.lt_succ_self _, fun r' hr' => ?_⟩
    have hself : ((s.workers w).client.pending.insert (s.workers w).client.sequence
        (s.workers w).client.callback_delegate).lookup (s.workers w).client.sequence =
        some (some r') := hr'
    rw [AList.lookup_insert, hd] at hself
    cases hself
    rfl
  · exact hbook.update_header hd

theorem Owned.send (h : Owned s) {w : Fin n} {seq : ℕ} {r : Request}
    (hmain : (s.workers w).main = .send seq r) :
    Owned (s.setWorker w { s.workers w with
      client := (s.workers w).client.packet_send seq r.key, main := .fetch }) := by
  have hok := (h.worker w).main
  rw [hmain] at hok
  apply h.main_step
  · rw [hmain]
    rfl
  · rfl
  · rw [hmain]
    rfl
  · exact fun _ _ hseq => hseq
  · trivial
  · exact (h.worker w).client.packet_send hok

theorem running_rest (wk : Worker) : (State.rest wk).running = [] := by
  unfold State.rest
  split <;> rfl

/-- A response starts a callback in a worker where none runs. -/
theorem Owned.deliver (h : Owned s) {w : Fin n} {wk : Worker} {cmd : Command} {value : Bytes}
    (htickets : wk.tickets = (s.workers w).tickets) (hok : wk.Ok (Told s) s.sm_slots)
    (hactive : wk.active = []) (hfinds : Finds wk.client cmd.ackSequence)
    (hvalue : ∀ r, wk.client.pending.lookup cmd.ackSequence = some (some r) →
      Told s r.key ((cmd.outcome value).getD [])) : Owned (s.deliver w wk cmd value) := by
  have hrun : wk.main.running = [] := (List.append_eq_nil_iff.mp hactive).1
  unfold State.deliver
  cases hp : respond wk.client cmd value with
  | none =>
      have hnone : ({ wk with listener := State.rest wk } : Worker).active = [] := by
        unfold Worker.active
        rw [running_rest, hrun]
        rfl
      apply h.work
      · unfold Worker.tickets at htickets ⊢
        rw [hnone]
        rw [hactive] at htickets
        exact htickets
      · exact ⟨hok.main, by rw [hnone]; exact Nat.zero_le _, by simp [hnone], hok.client⟩
  | some p =>
      obtain ⟨hpok, hclean⟩ : p.Ok (Told s) s.sm_slots wk.client ∧ p.cleaning = [] :=
        respond_ok hok.client hfinds hvalue hp
      have hone : ({ wk with listener := .callback p } : Worker).active = [p] := by
        unfold Worker.active
        rw [hrun]
        rfl
      apply h.work
      · unfold Worker.tickets at htickets ⊢
        rw [hone, List.flatMap_singleton, hclean]
        rw [hactive] at htickets
        exact htickets
      · refine ⟨hok.main, by rw [hone]; exact Nat.le_refl _, ?_, hok.client⟩
        intro q hq
        rw [hone, List.mem_singleton] at hq
        exact hq ▸ hpok

theorem Worker.Ok.take_response {wk : Worker} (h : wk.Ok told slots) (seq : ℕ) :
    (wk.take_response seq).Ok told slots where
  main := h.main.answer
  alone := h.alone
  running p hp := by
    have hok := h.running p hp
    cases p <;> exact hok
  client := h.client.answer

/-- The drive answers a command whose entry is still there. -/
theorem Owned.drive (h : Owned s) {w : Fin n} {cmd : Command} {value : Bytes} {key : Key}
    (hidle : (s.workers w).listener = .idle)
    (hkey : (s.workers w).client.asked cmd.ackSequence = some key)
    (hfinds : Finds (s.workers w).client cmd.ackSequence)
    (hmain : (s.workers w).main.running = []) :
    Owned ({ s with returned := s.returned ++ [(key, cmd.outcome value)] }.deliver w
      ((s.workers w).take_response cmd.ackSequence) cmd value) := by
  have hgrow := h.grow (List.subset_append_left s.returned [(key, cmd.outcome value)])
    (List.Subset.refl s.failed)
  apply hgrow.deliver
  · rfl
  · exact (hgrow.worker w).take_response _
  · unfold Worker.active
    change (s.workers w).main.running ++ (s.workers w).listener.running = []
    rw [hmain, hidle]
    rfl
  · exact hfinds
  · intro r hr
    have hsame := ((h.worker w).client.wire _ (Client.mem_wire_of_asked hkey)).2 r hr
    refine ⟨cmd.outcome value, .inl ?_, rfl⟩
    rw [hsame]
    exact List.mem_append_right _ (List.mem_singleton_self _)

/-- An error of the client tells the callback of its entry that there is no value. -/
theorem told_blamed {c : Client Request} {cmd : Command} {value : Bytes} {fs : List Key}
    (hcode : cmd.code ≠ .SUCCESS) (hfs : blamed c cmd ⊆ fs) {r : Request}
    (hr : c.pending.lookup cmd.ackSequence = some (some r)) :
    Told { s with failed := s.failed ++ fs } r.key ((cmd.outcome value).getD []) := by
  refine ⟨none, .inr ⟨rfl, ?_⟩, ?_⟩
  · apply List.mem_append_right
    apply hfs
    rw [blamed_of_lookup hr]
    exact List.mem_cons_self
  · unfold Command.outcome
    rw [if_neg hcode]

theorem Owned.report_error (h : Owned s) {w : Fin n} {wk : Worker} {code : StatusCode}
    (htickets : wk.tickets = (s.workers w).tickets) (hok : wk.Ok (Told s) s.sm_slots)
    (hactive : wk.active = []) (hfinds : Finds wk.client 0) (hcode : code ≠ .SUCCESS) :
    Owned (s.report_error w wk code) := by
  have hgrow := h.grow (List.Subset.refl s.returned)
    (List.subset_append_left s.failed (blamed wk.client (client_error code)))
  have hok' : wk.Ok (Told { s with
      failed := s.failed ++ blamed wk.client (client_error code) }) s.sm_slots := by
    apply hok.frame _ fun _ _ _ _ => rfl
    rintro k v ⟨res, hres, hv⟩
    exact ⟨res, hres.imp_right fun ⟨hnone, hin⟩ => ⟨hnone, List.mem_append_left _ hin⟩, hv⟩
  exact hgrow.deliver htickets hok' hactive hfinds fun r hr =>
    told_blamed hcode (List.Subset.refl _) hr

/-- An error of the client while no callback of the worker runs. -/
theorem Owned.idle_error (h : Owned s) {w : Fin n} {wk : Worker} {code : StatusCode}
    (hidle : (s.workers w).listener = .idle) (hmain : (s.workers w).main.running = [])
    (htickets : wk.tickets = (s.workers w).tickets) (hok : wk.Ok (Told s) s.sm_slots)
    (hactive : wk.active = (s.workers w).active) (hfinds : Finds wk.client 0)
    (hcode : code ≠ .SUCCESS) : Owned (s.report_error w wk code) := by
  apply h.report_error htickets hok _ hfinds hcode
  rw [hactive]
  unfold Worker.active
  rw [hmain, hidle]
  rfl

theorem Owned.not_attempted (h : Owned s) {w : Fin n} {seq : ℕ} {r : Request}
    (hmain : (s.workers w).main = .send seq r) (hlisten : (s.workers w).listener.running = [])
    (hfinds : Finds (s.workers w).client 0) : Owned (s.not_attempted w) := by
  have hactive : (s.workers w).active = [] := by
    unfold Worker.active
    rw [hmain, hlisten]
    rfl
  have hgrow := h.grow (List.Subset.refl s.returned)
    (List.subset_append_left s.failed
      (blamed (s.workers w).client (client_error .NOT_ATTEMPTED)))
  have hwork := hgrow.worker w
  have hbook := hwork.client
  have htick : (s.workers w).tickets = live (s.workers w).client.pending [] := by
    unfold Worker.tickets
    rw [hactive, hmain]
    exact zero_add _
  unfold State.not_attempted
  cases hp : respond (s.workers w).client (client_error .NOT_ATTEMPTED) [] with
  | none =>
      have hnone : ({ s.workers w with main := .fetch } : Worker).active = [] := by
        unfold Worker.active
        rw [hlisten]
        rfl
      apply hgrow.work
      · simp only [hp]
        unfold Worker.tickets
        rw [hnone]
        exact (zero_add _).trans htick.symm
      · simp only [hp]
        exact ⟨trivial, by rw [hnone]; exact Nat.zero_le _, by simp [hnone], hbook⟩
  | some p =>
      obtain ⟨hpok, hclean⟩ : p.Ok (Told { s with
          failed := s.failed ++ blamed (s.workers w).client (client_error .NOT_ATTEMPTED) })
          s.sm_slots (s.workers w).client ∧ p.cleaning = [] :=
        respond_ok hbook hfinds (fun r hr => told_blamed (by decide) (List.Subset.refl _) hr) hp
      have hone : ({ s.workers w with main := .report p } : Worker).active = [p] := by
        unfold Worker.active
        rw [hlisten]
        rfl
      apply hgrow.work
      · simp only [hp]
        unfold Worker.tickets
        rw [hone, List.flatMap_singleton, hclean]
        exact (zero_add _).trans htick.symm
      · simp only [hp]
        refine ⟨trivial, by rw [hone]; exact Nat.le_refl _, ?_, hbook⟩
        intro q hq
        rw [hone, List.mem_singleton] at hq
        exact hq ▸ hpok

/-! ### Steps inside a callback -/

/-- The slots of different live pairs are different. -/
theorem Owned.slot_ne (h : Owned s) {r r' : Request} {rest : Multiset Request}
    (hsplit : r ::ₘ rest ≤ tickets s) (hr' : r' ∈ rest) : r'.sm_idx ≠ r.sm_idx := by
  have hnodup : ((r ::ₘ rest).map Request.owner).Nodup :=
    Multiset.nodup_of_le (Multiset.map_le_map hsplit) h.once
  rw [Multiset.map_cons, Multiset.nodup_cons] at hnodup
  intro heq
  apply hnodup.1
  obtain ⟨hpoll, -, -⟩ := h.ticket r (Multiset.mem_of_le hsplit (Multiset.mem_cons_self _ _))
  obtain ⟨hpoll', -, -⟩ := h.ticket r'
    (Multiset.mem_of_le hsplit (Multiset.mem_cons_of_mem hr'))
  have howner : r.owner = r'.owner := by
    apply h.unique _ _ r.sm_idx
    · unfold Holds
      rw [hpoll]
      rfl
    · unfold Holds
      rw [hpoll', heq]
      rfl
  rw [howner]
  exact Multiset.mem_map_of_mem _ hr'

/-- `slot.payload[:vlen] = buffer(value)`. -/
theorem Owned.fill (h : Owned s) {w : Fin n} {wk : Worker} {r : Request} {p : Payload}
    (hr : r ∈ (s.workers w).tickets) (htickets : wk.tickets = (s.workers w).tickets)
    (hok : wk.Ok (Told s) (setPayload s.sm_slots r.sm_idx p)) :
    Owned ({ s with sm_slots := setPayload s.sm_slots r.sm_idx p }.setWorker w wk) := by
  obtain ⟨hpoll, -, hlen⟩ := h.ticket r (mem_tickets hr)
  have hhold : Holds s r.owner r.sm_idx := by
    unfold Holds
    rw [hpoll]
    rfl
  have heq : tickets ({ s with sm_slots := setPayload s.sm_slots r.sm_idx p }.setWorker w wk) =
      tickets s := tickets_setWorker_eq htickets
  constructor
  · exact h.shared
  · exact h.unique
  · intro i hi
    change (setPayload s.sm_slots r.sm_idx p i).len = -1
    rw [setPayload_len]
    exact h.unset i hi
  · intro k
    by_cases hk : k = r.owner
    · subst hk
      apply (Handler.ok_poll hpoll).mpr
      apply Or.inl
      change (setPayload s.sm_slots r.sm_idx p r.sm_idx).len = -1
      rw [setPayload_len, hlen]
    · apply (h.handler k).frame (fun _ _ hv => hv)
      intro i hi
      apply setPayload_of_ne
      rintro rfl
      exact hk (h.unique k r.owner _ hi hhold)
  · intro r' hr'
    obtain ⟨hpoll', hkey', hlen'⟩ := h.ticket r' (heq ▸ hr')
    refine ⟨hpoll', hkey', ?_⟩
    change (setPayload s.sm_slots r.sm_idx p r'.sm_idx).len = -1
    rw [setPayload_len, hlen']
  · rw [heq]
    exact h.once
  · intro k i hk hunset
    change (setPayload s.sm_slots r.sm_idx p i).len = -1 at hunset
    rw [setPayload_len] at hunset
    rw [heq]
    exact h.waiting k i hk hunset
  · intro w'
    by_cases hw : w' = w
    · simp only [State.setWorker, hw, Function.update_self]
      exact hok
    · simp only [State.setWorker, Function.update_of_ne hw]
      apply (h.worker w').frame (fun _ _ hv => hv)
      intro o r' vlen hactive
      obtain ⟨-, seq, -, hseq⟩ := (h.worker w').running _ hactive
      have hr' := (h.worker w').mem_tickets hactive rfl hseq
      obtain ⟨rest, hrest⟩ := Multiset.exists_cons_of_mem hr
      have hle := pair_le_tickets (s := s) (Ne.symm hw)
      rw [hrest, Multiset.cons_add] at hle
      have hne := h.slot_ne hle (Multiset.mem_add.mpr (.inr hr'))
      rw [setPayload_of_ne _ hne]

/-- `slot.len.value = vlen`: the pair is gone, and its handler finds the value. -/
theorem Owned.complete (h : Owned s) {w : Fin n} {wk : Worker} {r : Request} {v : Bytes}
    (htickets : (s.workers w).tickets = r ::ₘ wk.tickets) (hv : Told s r.key v)
    (htake : (s.sm_slots r.sm_idx).payload.1.take v.length = v)
    (hok : wk.Ok (Told s) (setLen s.sm_slots r.sm_idx v.length)) :
    Owned ({ s with sm_slots := setLen s.sm_slots r.sm_idx v.length }.setWorker w wk) := by
  have hr : r ∈ tickets s := mem_tickets (htickets ▸ Multiset.mem_cons_self _ _)
  obtain ⟨hpoll, hkey, hlen⟩ := h.ticket r hr
  have hhold : Holds s r.owner r.sm_idx := by
    unfold Holds
    rw [hpoll]
    rfl
  have heq : tickets s =
      r ::ₘ tickets ({ s with sm_slots := setLen s.sm_slots r.sm_idx v.length }.setWorker w wk) := by
    have hsum : tickets ({ s with
        sm_slots := setLen s.sm_slots r.sm_idx v.length }.setWorker w wk) + {r} =
        tickets { s with sm_slots := setLen s.sm_slots r.sm_idx v.length } + 0 := by
      apply tickets_setWorker
      change wk.tickets + {r} = (s.workers w).tickets + 0
      rw [htickets, add_zero, ← Multiset.singleton_add, add_comm]
    rw [add_zero, add_comm, Multiset.singleton_add] at hsum
    exact hsum.symm
  constructor
  · exact h.shared
  · exact h.unique
  · intro i hi
    have hne : i ≠ r.sm_idx := by
      rintro rfl
      exact (h.shared _).mp hi _ hhold
    change (setLen s.sm_slots r.sm_idx v.length i).len = -1
    rw [setLen_of_ne _ hne]
    exact h.unset i hi
  · intro k
    by_cases hk : k = r.owner
    · subst hk
      apply (Handler.ok_poll hpoll).mpr
      refine .inr ⟨v, hkey ▸ hv, ?_⟩
      change Filled (setLen s.sm_slots r.sm_idx v.length r.sm_idx) v
      rw [setLen_self]
      exact ⟨rfl, htake⟩
    · apply (h.handler k).frame (fun _ _ hv => hv)
      intro i hi
      apply setLen_of_ne
      rintro rfl
      exact hk (h.unique k r.owner _ hi hhold)
  · intro r' hr'
    obtain ⟨hpoll', hkey', hlen'⟩ := h.ticket r' (heq ▸ Multiset.mem_cons_of_mem hr')
    have hne := h.slot_ne heq.ge hr'
    refine ⟨hpoll', hkey', ?_⟩
    change (setLen s.sm_slots r.sm_idx v.length r'.sm_idx).len = -1
    rw [setLen_of_ne _ hne, hlen']
  · have honce := h.once
    rw [heq, Multiset.map_cons, Multiset.nodup_cons] at honce
    exact honce.2
  · intro k i hk hunset
    change (setLen s.sm_slots r.sm_idx v.length i).len = -1 at hunset
    have hne : i ≠ r.sm_idx := by
      rintro rfl
      rw [setLen_self] at hunset
      simp only at hunset
      omega
    rw [setLen_of_ne _ hne] at hunset
    obtain ⟨r', hr', rfl⟩ := h.waiting k i hk hunset
    rw [heq] at hr'
    obtain rfl | hr' := Multiset.mem_cons.mp hr'
    · exact absurd (Pc.poll.inj (hk.symm.trans hpoll)) hne
    · exact ⟨r', hr', rfl⟩
  · intro w'
    by_cases hw : w' = w
    · simp only [State.setWorker, hw, Function.update_self]
      exact hok
    · simp only [State.setWorker, Function.update_of_ne hw]
      exact (h.worker w').frame (fun _ _ hv => hv) fun _ _ _ _ => setLen_payload ..

/-- One step of a callback, in whichever thread of the worker it runs. -/
theorem Owned.advance (h : Owned s) {w : Fin n} {wk : Worker} {p : Progress} {q : Option Progress}
    {x : Advanced} (hx : p.advance s.sm_slots (s.workers w).client = x) (hq : x.rest = .ok q)
    (hp : (s.workers w).active = [p]) (hactive : wk.active = q.toList)
    (hclient : wk.client = x.client) (hissuing : wk.main.issuing = (s.workers w).main.issuing)
    (hmain : ∀ c, (s.workers w).main.Ok c → wk.main.Ok c) :
    Owned ({ s with sm_slots := x.sm_slots }.setWorker w wk) := by
  have hw := h.worker w
  have hok := hw.running p (hp ▸ List.mem_cons_self)
  have hin : p ∈ (s.workers w).active := hp ▸ List.mem_cons_self
  have hwk : ∀ slots, (∀ q' ∈ q, q'.Ok (Told s) slots wk.client) → wk.main.Ok wk.client →
      Booked wk.client → wk.Ok (Told s) slots := by
    intro slots hall hm hb
    refine ⟨hm, ?_, ?_, hb⟩
    · rw [hactive]
      cases q <;> simp
    · intro q' hq'
      rw [hactive, Option.mem_toList] at hq'
      exact hall q' hq'
  cases p with
  | payload o r value =>
      obtain ⟨htold, seq, rfl, hseq⟩ := hok
      simp only [Progress.advance] at hx
      split at hx
      · rename_i p' hwrite
        subst hx
        cases hq
        simp only at hclient
        apply h.fill (hw.mem_tickets hin rfl hseq)
        · unfold Worker.tickets
          rw [hp, hactive, hissuing, hclient]
          rfl
        · apply hwk
          · intro q' hq'
            obtain rfl := Option.some.inj hq'
            refine ⟨⟨value, htold, rfl, ?_⟩, seq, rfl, hclient ▸ hseq⟩
            rw [setPayload_self]
            exact Payload.take_write hwrite
          · rw [hclient]
            exact hmain _ hw.main
          · rw [hclient]
            exact hw.client
      · subst hx
        cases hq
  | len o r vlen =>
      obtain ⟨⟨v, htold, rfl, htake⟩, seq, rfl, hseq⟩ := hok
      subst hx
      cases hq
      simp only [Progress.advance] at hclient
      apply h.complete _ htold htake
      · apply hwk
        · intro q' hq'
          obtain rfl := Option.some.inj hq'
          change seq ∈ wk.client.pending
          rw [hclient]
          exact AList.lookup_isSome.mp (hseq ▸ rfl)
        · rw [hclient]
          exact hmain _ hw.main
        · rw [hclient]
          exact hw.client
      · unfold Worker.tickets
        rw [hp, hactive, hissuing, hclient]
        change _ + live _ [] = _ ::ₘ (_ + live _ [seq])
        rw [live_split hseq, Multiset.add_cons]
  | clean_up seq =>
      simp only [Progress.advance, if_pos (show seq ∈ (s.workers w).client.pending from hok)] at hx
      subst hx
      cases hq
      simp only at hclient
      apply h.work
      · unfold Worker.tickets
        rw [hp, hactive, hissuing, hclient]
        change _ + live ((s.workers w).client.pending.erase seq) [] = _ + live _ [seq]
        rw [live_erase]
      · apply hwk
        · simp
        · rw [hclient]
          exact (hmain _ hw.main).clean_up
        · rw [hclient]
          exact hw.client.clean_up

/-- A callback of a live pair fails only where its value does not fit. -/
theorem Progress.Ok.advance_error {c : Client Request} {p : Progress} {e : Exn}
    (h : p.Ok told slots c) (he : (p.advance slots c).rest = .error e) :
    p.advance slots c = ⟨slots, c, .error .ValueError⟩ ∧
      ∃ o r value, p = .payload o r value ∧ MAX_PAYLOAD_LEN < value.length := by
  cases p with
  | payload o r value =>
      have hnone : (slots r.sm_idx).payload.write value = none := by
        by_contra hne
        obtain ⟨p', hp'⟩ := Option.ne_none_iff_exists'.mp hne
        simp [Progress.advance, hp'] at he
      constructor
      · simp only [Progress.advance, hnone]
      · refine ⟨o, r, value, rfl, ?_⟩
        by_contra hle
        simp [Payload.write, Nat.le_of_not_lt hle] at hnone
  | len o r vlen => cases he
  | clean_up seq =>
      simp [Progress.advance, show seq ∈ c.pending from h] at he

/-- A callback in the main thread, which no error of its own reaches. -/
theorem Owned.report (h : Owned s) {w : Fin n} {p : Progress} {x : Advanced}
    (hmain : (s.workers w).main = .report p)
    (hx : p.advance s.sm_slots (s.workers w).client = x) :
    Owned ({ s with sm_slots := x.sm_slots }.setWorker w { s.workers w with
      client := x.client
      main := match x.rest with
        | .ok (some p) => .report p
        | .ok none => .fetch
        | .error e => .raised e }) := by
  have hin : p ∈ (s.workers w).active := by
    unfold Worker.active
    rw [hmain]
    exact List.mem_append_left _ (List.mem_singleton_self p)
  have hp := (h.worker w).active_eq hin
  have hlisten : (s.workers w).listener.running = [] := by
    unfold Worker.active at hp
    rw [hmain] at hp
    exact (List.cons.inj hp).2
  cases hrest : x.rest with
  | ok q =>
      apply h.advance hx hrest hp
      · unfold Worker.active
        simp only [hlisten]
        cases q <;> rfl
      · rfl
      · simp only [hmain]
        cases q <;> rfl
      · intro c _
        cases q <;> trivial
  | error e =>
      obtain ⟨hsame, o, r, value, rfl, -⟩ :=
        ((h.worker w).running p hin).advance_error (hx ▸ hrest)
      rw [hsame] at hx
      subst hx
      have hnone : ({ s.workers w with main := .raised e } : Worker).active = [] := by
        unfold Worker.active
        rw [hlisten]
        rfl
      apply h.work
      · unfold Worker.tickets
        simp only [hnone, hp, hmain]
        rfl
      · exact ⟨trivial, by simp only [hnone]; exact Nat.zero_le _, by simp [hnone],
          (h.worker w).client⟩

theorem Owned.active_of_listener (h : Owned s) {w : Fin n} {p : Progress}
    (hlisten : (s.workers w).listener = .callback p) :
    (s.workers w).active = [p] ∧ (s.workers w).main.running = [] := by
  have hin : p ∈ (s.workers w).active := by
    unfold Worker.active
    rw [hlisten]
    exact List.mem_append_right _ (List.mem_singleton_self p)
  have hp := (h.worker w).active_eq hin
  refine ⟨hp, ?_⟩
  unfold Worker.active at hp
  rw [hlisten] at hp
  exact (List.append_eq_cons_iff.mp hp).elim (·.1) fun ⟨_, _, hnil⟩ => by
    simp [Listener.running] at hnil

theorem Owned.listen (h : Owned s) {w : Fin n} {p : Progress} {x : Advanced} {q : Option Progress}
    (hlisten : (s.workers w).listener = .callback p)
    (hx : p.advance s.sm_slots (s.workers w).client = x) (hq : x.rest = .ok q) :
    Owned ({ s with sm_slots := x.sm_slots }.setWorker w { s.workers w with
      client := x.client
      listener := match q with
        | some p => .callback p
        | none => State.rest (s.workers w) }) := by
  obtain ⟨hp, hmain⟩ := h.active_of_listener hlisten
  apply h.advance hx hq hp
  · unfold Worker.active
    simp only [hmain]
    cases q with
    | none => exact running_rest _
    | some q => rfl
  · rfl
  · rfl
  · exact fun _ hm => hm

/-- A value that does not fit is reported as an error of the client. -/
theorem Owned.value_error (h : Owned s) {w : Fin n} {p : Progress}
    (hattr : Attributed (.listen w) s) (hlisten : (s.workers w).listener = .callback p)
    (hx : (p.advance s.sm_slots (s.workers w).client).rest = .error .ValueError) :
    Owned (s.report_error w (s.workers w) .INTERNAL_ERROR) := by
  have hw := h.worker w
  obtain ⟨hp, hmain⟩ := h.active_of_listener hlisten
  obtain ⟨-, o, r, value, rfl, hlong⟩ :=
    (hw.running p (hp ▸ List.mem_singleton_self p)).advance_error hx
  unfold Attributed at hattr
  simp only [hlisten] at hattr
  obtain hshort | hfinds := hattr
  · omega
  have hidle : ({ s.workers w with listener := .idle } : Worker).active = [] := by
    unfold Worker.active
    simp only [hmain]
    rfl
  have hquiet : Owned (s.report_error w { s.workers w with listener := .idle }
      .INTERNAL_ERROR) := by
    apply h.report_error
    · unfold Worker.tickets
      rw [hidle, hp]
      rfl
    · exact ⟨hw.main, by rw [hidle]; exact Nat.zero_le _, by simp [hidle], hw.client⟩
    · exact hidle
    · exact hfinds
    · decide
  exact hquiet

/-- The listener has no other exception. -/
theorem Owned.value_error_of_error (h : Owned s) {w : Fin n} {p : Progress} {e : Exn}
    (hlisten : (s.workers w).listener = .callback p)
    (hx : (p.advance s.sm_slots (s.workers w).client).rest = .error e) : e = .ValueError := by
  obtain ⟨hp, -⟩ := h.active_of_listener hlisten
  obtain ⟨hsame, -⟩ :=
    ((h.worker w).running p (hp ▸ List.mem_singleton_self p)).advance_error hx
  rw [hsame] at hx
  cases hx
  rfl

end

end SmartDisk.SlotProtocol
