import SmartDisk.KineticClient

/-!
# Sequence numbers in use

A command is being sent, then on the wire, then being handled, and all this time it
has its entry in `_pending`. The rules follow a client whose callers deliver only
responses of the drive: the two lists name what the sending thread and the listener
are at.
-/
namespace SmartDisk.KineticClient.Client

variable {D : Type} {c : Client D} {sending handling : List ℕ}

/-- The commands being sent, on the wire, and being handled. -/
def issued (c : Client D) (sending handling : List ℕ) : List ℕ :=
  sending ++ c.wire.map Prod.fst ++ handling

structure Tracked (c : Client D) (sending handling : List ℕ) : Prop where
  once : (c.issued sending handling).Nodup
  known : ∀ seq ∈ c.issued sending handling, seq ∈ c.pending
  fresh : ∀ seq ∈ c.pending, seq < c.sequence

theorem Tracked.start (hwire : c.wire = []) (hpending : c.pending = ∅) : c.Tracked [] [] where
  once := by simp [issued, hwire]
  known := by simp [issued, hwire]
  fresh := by simp [hpending]

theorem Tracked.known_of_wire (h : c.Tracked sending handling) {seq : ℕ}
    (hseq : seq ∈ c.wire.map Prod.fst) : seq ∈ c.pending :=
  h.known seq (List.mem_append_left _ (List.mem_append_right _ hseq))

theorem Tracked.known_of_handling (h : c.Tracked sending handling) {seq : ℕ}
    (hseq : seq ∈ handling) : seq ∈ c.pending :=
  h.known seq (List.mem_append_right _ hseq)

theorem Tracked.of_sublist {sending' handling' : List ℕ} (h : c.Tracked sending handling)
    (hs : sending'.Sublist sending) (hh : handling'.Sublist handling) :
    c.Tracked sending' handling' := by
  have hsub : (c.issued sending' handling').Sublist (c.issued sending handling) :=
    (hs.append (List.Sublist.refl _)).append hh
  exact ⟨h.once.sublist hsub, fun seq hseq => h.known seq (hsub.subset hseq), h.fresh⟩

theorem Tracked.acquire {c' : Client D} (h : c.Tracked sending handling)
    (hc : c.acquire = some c') : c'.Tracked sending handling := by
  rw [acquire_eq hc]
  exact ⟨h.once, h.known, h.fresh⟩

theorem Tracked.update_header (h : c.Tracked [] handling) :
    c.update_header.Tracked [c.sequence] handling := by
  have hnew : c.update_header.issued [c.sequence] handling = c.sequence :: c.issued [] handling :=
    rfl
  have hmem : ∀ seq, seq ∈ c.update_header.pending ↔ seq = c.sequence ∨ seq ∈ c.pending :=
    fun seq => AList.mem_insert c.pending
  constructor
  · rw [hnew, List.nodup_cons]
    exact ⟨fun hin => absurd (h.fresh _ (h.known _ hin)) (Nat.lt_irrefl _), h.once⟩
  · intro seq hseq
    rw [hnew] at hseq
    exact (hmem seq).mpr ((List.mem_cons.mp hseq).imp_right (h.known seq))
  · intro seq hseq
    change seq < c.sequence + 1
    obtain rfl | hin := (hmem seq).mp hseq
    · exact Nat.lt_succ_self _
    · exact Nat.lt_succ_of_lt (h.fresh seq hin)

theorem issued_packet_send (seq : ℕ) (key : Key) :
    ((c.packet_send seq key).issued [] handling).Perm (c.issued [seq] handling) := by
  simp only [issued, Client.packet_send, List.map_append, List.map_cons, List.map_nil,
    List.nil_append]
  exact List.perm_append_comm.append_right _

theorem Tracked.packet_send {seq : ℕ} {key : Key} (h : c.Tracked [seq] handling) :
    (c.packet_send seq key).Tracked [] handling := by
  have hperm : ((c.packet_send seq key).issued [] handling).Perm (c.issued [seq] handling) :=
    c.issued_packet_send seq key
  exact ⟨hperm.nodup_iff.mpr h.once, fun n hn => h.known n (hperm.mem_iff.mp hn), h.fresh⟩

/-- A command leaves the wire for the listener. -/
theorem Tracked.issued_answer {seq : ℕ} (h : c.Tracked sending [])
    (hwire : seq ∈ c.wire.map Prod.fst) :
    (c.issued sending []).Perm ((c.answer seq).issued sending [seq]) := by
  have hrest : (c.answer seq).wire.map Prod.fst = (c.wire.map Prod.fst).erase seq := by
    have hnodup : (c.wire.map Prod.fst).Nodup :=
      h.once.sublist ((List.sublist_append_right _ _).trans (List.sublist_append_left _ _))
    rw [hnodup.erase_eq_filter, List.filter_map]
    simp [Client.answer, Function.comp_def, bne, Bool.beq_eq_decide_eq]
  unfold issued
  rw [List.append_nil, hrest, List.append_assoc]
  apply List.Perm.append_left
  exact (List.perm_cons_erase hwire).trans (List.perm_append_singleton _ _).symm

theorem Tracked.answer {seq : ℕ} (h : c.Tracked sending [])
    (hwire : seq ∈ c.wire.map Prod.fst) : (c.answer seq).Tracked sending [seq] := by
  have hperm := h.issued_answer hwire
  exact ⟨hperm.nodup_iff.mp h.once, fun n hn => h.known n (hperm.mem_iff.mpr hn), h.fresh⟩

theorem issued_clean_up (seq : ℕ) :
    c.issued sending [seq] = (c.clean_up seq).issued sending [] ++ [seq] := by
  unfold issued
  rw [List.append_nil]
  rfl

theorem Tracked.clean_up {seq : ℕ} (h : c.Tracked sending [seq]) :
    (c.clean_up seq).Tracked sending [] := by
  have hold : c.issued sending [seq] = (c.clean_up seq).issued sending [] ++ [seq] :=
    c.issued_clean_up seq
  have honce := h.once
  rw [hold, List.nodup_append] at honce
  constructor
  · exact honce.1
  · intro n hn
    have hne : n ≠ seq := honce.2.2 n hn seq (List.mem_singleton_self seq)
    exact AList.mem_erase.mpr ⟨hne, h.known n (hold ▸ List.mem_append_left _ hn)⟩
  · intro n hn
    exact h.fresh n (AList.mem_erase.mp hn).2

/-! ### The queue semaphore -/

/-- No entry is left behind, and the semaphore counts the entries and the `acquired` places
that are still to get one. -/
structure Accounted (c : Client D) (sending handling : List ℕ) (acquired : ℕ) : Prop where
  used : ∀ seq ∈ c.pending, seq ∈ c.issued sending handling
  count : c.outstanding = c.pending.keys.length + acquired

theorem Accounted.start (hpending : c.pending = ∅) (hout : c.outstanding = 0) :
    c.Accounted [] [] 0 := by
  constructor
  · simp [hpending]
  · simp [hpending, hout]

theorem Accounted.acquire {c' : Client D} (h : c.Accounted sending handling 0)
    (hc : c.acquire = some c') : c'.Accounted sending handling 1 := by
  rw [acquire_eq hc]
  exact ⟨h.used, congrArg (· + 1) h.count⟩

theorem Accounted.update_header (h : c.Accounted [] handling 1) (ht : c.Tracked [] handling) :
    c.update_header.Accounted [c.sequence] handling 0 := by
  have hnew : c.sequence ∉ c.pending := fun hin => Nat.lt_irrefl _ (ht.fresh _ hin)
  constructor
  · intro seq hseq
    obtain rfl | hin := (AList.mem_insert c.pending).mp hseq
    · exact List.mem_cons_self
    · exact List.mem_cons_of_mem _ (h.used seq hin)
  · change c.outstanding = (c.pending.insert c.sequence c.callback_delegate).keys.length + 0
    rw [AList.keys_insert, List.erase_of_not_mem hnew]
    exact h.count

theorem Accounted.packet_send {seq : ℕ} {key : Key} (h : c.Accounted [seq] handling 0) :
    (c.packet_send seq key).Accounted [] handling 0 :=
  ⟨fun n hn => (c.issued_packet_send seq key).mem_iff.mpr (h.used n hn), h.count⟩

theorem Accounted.answer {seq acquired : ℕ} (h : c.Accounted sending [] acquired)
    (ht : c.Tracked sending []) (hwire : seq ∈ c.wire.map Prod.fst) :
    (c.answer seq).Accounted sending [seq] acquired :=
  ⟨fun n hn => (ht.issued_answer hwire).mem_iff.mp (h.used n hn), h.count⟩

theorem Accounted.clean_up {seq acquired : ℕ} (h : c.Accounted sending [seq] acquired)
    (ht : c.Tracked sending [seq]) : (c.clean_up seq).Accounted sending [] acquired := by
  have hin : seq ∈ c.pending := ht.known_of_handling (List.mem_singleton_self seq)
  constructor
  · intro n hn
    obtain ⟨hne, hn⟩ := AList.mem_erase.mp hn
    have hused := h.used n hn
    rw [issued_clean_up] at hused
    exact (List.mem_append.mp hused).resolve_right fun heq => hne (List.mem_singleton.mp heq)
  · have hlen : (c.pending.erase seq).keys.length = c.pending.keys.length - 1 := by
      rw [AList.keys_erase, List.length_erase_of_mem hin]
    have hpos : 0 < c.pending.keys.length := List.length_pos_of_mem hin
    have hcount := h.count
    change c.outstanding - 1 = (c.pending.erase seq).keys.length + acquired
    omega

/-- A semaphore that blocks has an entry to wait for. -/
theorem Accounted.blocked (h : c.Accounted sending handling 0) (hdepth : 0 < c.queue_depth)
    (hc : c.acquire = none) : ∃ seq, seq ∈ c.pending := by
  have hfull : c.queue_depth ≤ c.outstanding := by
    unfold Client.acquire at hc
    split at hc
    · cases hc
    · omega
  have hcount := h.count
  obtain ⟨seq, hseq⟩ := List.exists_mem_of_length_pos (l := c.pending.keys) (by omega)
  exact ⟨seq, hseq⟩

theorem asked_of_mem_wire {seq : ℕ} (h : seq ∈ c.wire.map Prod.fst) :
    ∃ key, c.asked seq = some key := by
  obtain ⟨x, hx, rfl⟩ := List.mem_map.mp h
  have hfind : (c.wire.find? (·.1 = x.1)).isSome := List.find?_isSome.mpr ⟨x, hx, by simp⟩
  obtain ⟨y, hy⟩ := Option.isSome_iff_exists.mp hfind
  exact ⟨y.2, congrArg (Option.map Prod.snd) hy⟩

/-- The key of a command that is taken from the wire. -/
theorem wire_perm {wire : List (ℕ × Key)} (hnodup : (wire.map Prod.fst).Nodup) {seq : ℕ}
    {key : Key} (hmem : (seq, key) ∈ wire) :
    (wire.map (·.2)).Perm (key :: (wire.filter fun x => x.1 ≠ seq).map (·.2)) := by
  induction wire with
  | nil => cases hmem
  | cons x wire ih =>
      rw [List.map_cons, List.nodup_cons] at hnodup
      obtain ⟨hnew, hnodup⟩ := hnodup
      rcases List.mem_cons.mp hmem with rfl | hmem
      · have hall : ∀ x ∈ wire, decide (x.1 ≠ seq) = true := fun x hx =>
          decide_eq_true fun he => hnew (List.mem_map.mpr ⟨x, hx, he⟩)
        rw [List.filter_cons_of_neg (by simp), List.filter_eq_self.mpr hall]
        exact .refl _
      · have hne : x.1 ≠ seq := fun he => hnew (List.mem_map.mpr ⟨_, hmem, he.symm⟩)
        rw [List.filter_cons_of_pos (by simpa using hne)]
        exact ((ih hnodup hmem).cons x.2).trans (.swap ..)

end SmartDisk.KineticClient.Client
