import SmartDisk.SlotSafety

/-!
# Every request gets its own value

The runs of this module have a drive that answers each command once and no error of
the client. Then the slots are partitioned, and a handler returns what the drive said
about its key.
-/
namespace SmartDisk.SlotProtocol
open KineticClient ActionSystem

variable {n : ℕ}

/-- `r` is queued, or a worker is issuing it, or its command has no response yet, or its
callback is still to set `len`. -/
inductive InFlight (s : State n) (r : Request) : Prop
  | queued (h : r ∈ s.requests)
  | issuing (w : Fin n) (h : r ∈ (s.workers w).main.issuing)
  | sending (w : Fin n) (seq : ℕ) (h : (s.workers w).main = .send seq r)
  | unanswered (w : Fin n) (seq : ℕ) (key : Key) (hwire : (seq, key) ∈ (s.workers w).client.wire)
      (h : (s.workers w).client.pending.lookup seq = some (some r))
  | filling (w : Fin n) (seq : Option ℕ) (value : Bytes)
      (h : .payload seq r value ∈ (s.workers w).active)
  | completing (w : Fin n) (seq : Option ℕ) (vlen : ℕ) (h : .len seq r vlen ∈ (s.workers w).active)

/-- An entry that the listener is not handling is live. -/
theorem mem_tickets_of_pending {s : State n} (hd : Direct s) {w : Fin n} {seq : ℕ} {r : Request}
    (hseq : (s.workers w).client.pending.lookup seq = some (some r))
    (hin : seq ∉ (s.workers w).listener.handling) : r ∈ (s.workers w).tickets := by
  unfold Worker.tickets
  refine Multiset.mem_add.mpr (.inr (mem_live hseq ?_))
  unfold Worker.active
  rw [(hd.worker w).quiet, List.nil_append]
  cases hl : (s.workers w).listener with
  | callback p =>
      rw [hl] at hin
      cases p with
      | clean_up seq' => simpa [Listener.running, Progress.cleaning, Listener.handling, Progress.seqs] using hin
      | _ => simp [Listener.running, Progress.cleaning]
  | _ => simp [Listener.running]

theorem mem_tickets_of_inFlight {s : State n} (h : Owned s) (hd : Direct s) {r : Request}
    (hr : InFlight s r) : r ∈ tickets s := by
  cases hr with
  | queued hr => exact Multiset.mem_add.mpr (.inl hr)
  | issuing w hr => exact mem_tickets (Multiset.mem_add.mpr (.inl hr))
  | sending w seq hmain =>
      have htracked := (hd.worker w).tracked
      have hok := (h.worker w).main
      rw [hmain] at htracked hok
      have hknown : seq ∈ (s.workers w).client.pending :=
        htracked.known seq (List.mem_append_left _ (List.mem_append_left _ List.mem_cons_self))
      obtain ⟨cb, hcb⟩ := Option.isSome_iff_exists.mp (AList.lookup_isSome.mpr hknown)
      obtain ⟨-, r', rfl⟩ := (h.worker w).client.known seq cb hcb
      obtain rfl := hok.2 r' hcb
      apply mem_tickets (mem_tickets_of_pending hd hcb _)
      have honce := htracked.once
      unfold Client.issued at honce
      rw [List.append_assoc, List.nodup_append] at honce
      intro hin
      exact honce.2.2 seq List.mem_cons_self seq (List.mem_append_right _ hin) rfl
  | unanswered w seq key hwire hseq =>
      apply mem_tickets (mem_tickets_of_pending hd hseq _)
      have honce := (hd.worker w).tracked.once
      unfold Client.issued at honce
      rw [List.nodup_append] at honce
      intro hin
      exact honce.2.2 seq (List.mem_append_right _ (List.mem_map_of_mem hwire)) seq hin rfl
  | filling w seq value hp =>
      obtain ⟨-, seq', -, hseq⟩ := (h.worker w).running _ hp
      exact mem_tickets ((h.worker w).mem_tickets hp rfl hseq)
  | completing w seq vlen hp =>
      obtain ⟨-, seq', -, hseq⟩ := (h.worker w).running _ hp
      exact mem_tickets ((h.worker w).mem_tickets hp rfl hseq)

theorem owned_and_direct {s₀ s : State n} (hq : Quiescent s₀) (hfailed : s₀.failed = [])
    (h : (app_from s₀).ReachableWith DriveOnly s) : Owned s ∧ Direct s := by
  apply h.invariant ⟨hq.owned, hq.direct hfailed⟩
  rintro a s t ⟨ho, hd⟩ hg hst
  exact ⟨owned_step s₀ a s t ho (hd.attributed hg hst) hst, direct_step s₀ a s t hd hg hst⟩

/-- What a handler that has returned was told, when the drive alone speaks. -/
theorem Owned.returned_value {s : State n} (h : Owned s) (hd : Direct s) {k : ℕ} {b : Bytes}
    (hpc : (s.handlers k).pc = .returned b) :
    ∃ res, ((s.handlers k).key, res) ∈ s.returned ∧
      body (s.handlers k).endpoint (res.getD []) = .ok b := by
  have hok := h.handler k
  unfold Handler.Ok at hok
  simp only [hpc] at hok
  obtain ⟨v, ⟨res, hres, rfl⟩, hb⟩ := hok
  refine ⟨res, ?_, hb⟩
  obtain hin | ⟨-, hin⟩ := hres
  · exact hin
  · rw [hd.failed] at hin
    exact absurd hin List.not_mem_nil

/-- The slots are partitioned into available and held ones, an available slot is unset and
nobody is about to write it, and every handler that returns has the value for its key. -/
theorem slots_partitioned {s : State n} (h : (app n).ReachableWith DriveOnly s) :
    (∀ i, i ∈ s.sm_available_idx ↔ ∀ k, ¬Holds s k i) ∧
    (∀ i k k', Holds s k i → Holds s k' i → k = k') ∧
    (∀ i ∈ s.sm_available_idx, (s.sm_slots i).len = -1 ∧ ∀ r, InFlight s r → r.sm_idx ≠ i) ∧
    ∀ k b, (s.handlers k).pc = .returned b → ∃ res, ((s.handlers k).key, res) ∈ s.returned ∧
      body (s.handlers k).endpoint (res.getD []) = .ok b := by
  obtain ⟨ho, hd⟩ := owned_and_direct quiescent_start rfl h
  refine ⟨ho.shared, fun i k k' => ho.unique k k' i, ?_, fun k b => ho.returned_value hd⟩
  intro i hi
  refine ⟨ho.unset i hi, ?_⟩
  rintro r hr rfl
  obtain ⟨hpoll, -, -⟩ := ho.ticket r (mem_tickets_of_inFlight ho hd hr)
  apply (ho.shared _).mp hi r.owner
  unfold Holds
  rw [hpoll]
  rfl

/-! ### A get and a getsmart at the same time -/

/-- Handler `h` asks for a slot and puts its pair on the queue. -/
def ask (n h : ℕ) (endpoint : Endpoint) (text : List Char) (i : Idx) : List (Action n) :=
  [.call h endpoint text, .pop h (some i), .resume h]

/-- Worker `w` takes a pair off the queue and sends the command. -/
def issue {n : ℕ} (w : Fin n) : List (Action n) :=
  [.fetch w, .install w, .acquire w, .header w, .send w true]

/-- Both responses come before either handler looks, and the later request returns first. -/
def twoHandlers : List (Action 2) :=
  let w₀ : Fin 2 := ⟨0, Nat.zero_lt_two⟩
  let w₁ : Fin 2 := ⟨1, Nat.one_lt_two⟩
  ask 2 0 .get ['a'] ⟨5, by decide⟩ ++ ask 2 1 (.getsmart (some 3)) ['b'] ⟨2, by decide⟩ ++
    issue w₁ ++ issue w₀ ++
    [.drive w₀ 0 ⟨0, .SUCCESS, [98]⟩ [7], .drive w₁ 0 ⟨0, .SUCCESS, [97]⟩ [8, 9]] ++
    List.replicate 3 (.listen w₀) ++ List.replicate 3 (.listen w₁) ++
    List.replicate 6 (.resume 1) ++ List.replicate 6 (.resume 0)

theorem twoHandlers_runs : ((app 2).exec twoHandlers (app 2).start).isSome = true := by
  decide +kernel

theorem slots_partitioned_twoHandlers :
    (∃ res, ([98], res) ∈ ((app 2).last _ twoHandlers_runs).returned ∧
      body (.getsmart (some 3)) (res.getD []) = .ok [0, 0, 0]) ∧
    ∃ res, ([97], res) ∈ ((app 2).last _ twoHandlers_runs).returned ∧
      body .get (res.getD []) = .ok [8, 9] := by
  have hreach : (app 2).ReachableWith DriveOnly ((app 2).last _ twoHandlers_runs) :=
    System.reachableWith_last _ _ (by decide +kernel)
  have hvalues := (slots_partitioned hreach).2.2.2
  have hsmart := hvalues 1 [0, 0, 0] (by decide +kernel)
  have hget := hvalues 0 [8, 9] (by decide +kernel)
  rw [show (((app 2).last _ twoHandlers_runs).handlers 1).key = [98] by decide +kernel,
    show (((app 2).last _ twoHandlers_runs).handlers 1).endpoint = .getsmart (some 3) by
      decide +kernel] at hsmart
  rw [show (((app 2).last _ twoHandlers_runs).handlers 0).key = [97] by decide +kernel,
    show (((app 2).last _ twoHandlers_runs).handlers 0).endpoint = .get by decide +kernel] at hget
  exact ⟨hsmart, hget⟩

end SmartDisk.SlotProtocol
