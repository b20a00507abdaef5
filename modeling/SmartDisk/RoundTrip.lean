import SmartDisk.Ingest
import SmartDisk.SlotLiveness

/-!
# What is ingested and what a get returns

`tool.py` puts files of up to 5 MiB, and `app.py` has room for 1 MiB in a slot. A
larger value raises `ValueError` in the listener, the get is told of an error and returns an
empty body. The address of a get is text and its key is ASCII, so another name cannot
be asked for. These two conditions are all: every other stored file comes back as it was.
-/
namespace SmartDisk.RoundTrip
open KineticClient ActionSystem SlotProtocol Ingest

variable {n : ℕ}

/-! ### Keys -/

theorem ascii_of_bytes {text : List Char} {key : Key} (h : bytes text = .ok key) :
    ∀ c ∈ key, c < 128 := by
  unfold bytes at h
  split at h
  · rename_i hall
    cases h
    intro c hc
    obtain ⟨x, hx, rfl⟩ := List.mem_map.mp hc
    have hlt : x.toNat < 128 := of_decide_eq_true (List.all_eq_true.mp hall x hx)
    rw [UInt8.lt_iff_toNat_lt, Nat.toUInt8, UInt8.toNat_ofNat_of_lt' (hlt.trans (by decide))]
    exact hlt
  · cases h

theorem toNat_ofNat_ascii : ∀ k < 128, (Char.ofNat k).toNat = k := by decide

theorem exists_bytes {key : Key} (h : ∀ c ∈ key, c < 128) : ∃ text, bytes text = .ok key := by
  have hnat : ∀ c ∈ key, (Char.ofNat c.toNat).toNat = c.toNat :=
    fun c hc => toNat_ofNat_ascii _ (UInt8.lt_iff_toNat_lt.mp (h c hc))
  refine ⟨key.map fun c => Char.ofNat c.toNat, ?_⟩
  unfold bytes
  rw [if_pos]
  · rw [List.map_map]
    congr 1
    conv_rhs => rw [← List.map_id key]
    apply List.map_congr_left
    intro c hc
    simp only [Function.comp_apply, hnat c hc, id_eq]
    exact UInt8.ofNat_toNat
  · simp only [List.all_map, List.all_eq_true, Function.comp_apply, decide_eq_true_eq]
    intro c hc
    rw [hnat c hc]
    exact UInt8.lt_iff_toNat_lt.mp (h c hc)

/-! ### A drive that has a store -/

def Fits (store : Dict Key Bytes) (key : Key) : Prop :=
  ∀ value ∈ store.lookup key, value.length ≤ MAX_PAYLOAD_LEN

/-- The drive answers from the store, the client has no error to report, and nobody asks for a
value that has no room, unless it is that of `name`. -/
def Serves (store : Dict Key Bytes) (name : Key) (a : Action n) (s : State n) : Prop :=
  match a with
  | .call _ _ text => ∀ key, bytes text = .ok key → key ≠ name → Fits store key
  | .drive w seq cmd value =>
      ∃ key, (s.workers w).client.asked seq = some key ∧ cmd.outcome value = store.lookup key
  | .send _ false | .bad_hmac _ _ | .timeout _ | .socket_error _ => False
  | _ => True

/-- The same without new requests. -/
def Goes (store : Dict Key Bytes) (name : Key) (a : Action n) (s : State n) : Prop :=
  Inward a s ∧ Serves store name a s

/-- The application is idle, whatever it has done before. -/
structure Ready (s : State n) : Prop extends Quiescent s where
  failed : s.failed = []
  returned : s.returned = []
  outstanding : ∀ w, (s.workers w).client.outstanding = 0
  queue_depth : ∀ w, 0 < (s.workers w).client.queue_depth
  closing : ∀ w, (s.workers w).closing = false

theorem ready_start : Ready ({} : State n) where
  toQuiescent := quiescent_start
  failed := rfl
  returned := rfl
  outstanding _ := rfl
  queue_depth _ := Nat.succ_pos _
  closing _ := rfl

/-- The handler `h` has been called to get `name`. -/
structure Gets (s : State n) (h : ℕ) (name : Key) : Prop where
  called : (s.handlers h).pc ≠ .absent
  endpoint : (s.handlers h).endpoint = .get
  key : (s.handlers h).key = name

/-- A get of `name` comes to its end, and what it returns is `content`. Where it finds no slot
it raises `KeyError`. -/
structure Retrievable (s₀ : State n) (store : Dict Key Bytes) (name : Key) (content : Bytes) :
    Prop where
  asked : ∃ text, bytes text = .ok name
  finite : ∀ s, (app_from s₀).ReachableWith (Serves store name) s → ∃ N, ∀ as t,
    (app_from s₀).Guarded (Goes store name) as s → (app_from s₀).exec as s = some t →
    as.length ≤ N
  answered : ∀ s, (app_from s₀).ReachableWith (Serves store name) s →
    (∀ a, Goes store name a s → step s a = none) → ∀ h, Gets s h name →
    (s.handlers h).pc = .raised .KeyError ∨ ∃ b, (s.handlers h).pc = .returned b
  value : ∀ s, (app_from s₀).ReachableWith (Serves store name) s → ∀ h b, Gets s h name →
    (s.handlers h).pc = .returned b → b = content

section
variable {s₀ s t : State n} {store : Dict Key Bytes} {name : Key} {a : Action n}

theorem goes_rank {H : Finset ℕ} (hH : CalledIn H s) (ha : Goes store name a s)
    (hst : step s a = some t) : t.rank H < s.rank H ∧ CalledIn H t :=
  inward_rank hH ha.1 hst

theorem finite_of_ready (h₀ : Ready s₀) (h : (app_from s₀).ReachableWith (Serves store name) s) :
    ∃ N, ∀ as t, (app_from s₀).Guarded (Goes store name) as s →
      (app_from s₀).exec as s = some t → as.length ≤ N := by
  obtain ⟨H, hH⟩ := exists_calledIn h₀.toQuiescent h
  refine ⟨s.rank H, fun as t hg ht => ?_⟩
  have hle := System.length_le_rank (M := app_from s₀) (State.rank H)
    (fun a s t hs ha hst => (goes_rank hs ha hst).2)
    (fun a s t hs ha hst => (goes_rank hs ha hst).1) as hH hg ht
  omega

/-! ### Where every value has room -/

structure Supplied (store : Dict Key Bytes) (s : State n) : Prop where
  serving : Serving s
  returned : ∀ x ∈ s.returned, x.2 = store.lookup x.1
  fits : ∀ k, ((s.handlers k).pc = .absent ∨ ∃ e, (s.handlers k).pc = .raised e) ∨
    Fits store (s.handlers k).key

theorem Ready.supplied (h : Ready s) : Supplied store s where
  serving := by
    refine ⟨h.toQuiescent.owned, h.toQuiescent.direct h.failed, fun w => ?_⟩
    have hmain := h.main w
    have hlisten := h.listener w
    refine ⟨?_, h.queue_depth w, h.closing w, by simp [hmain], .inl hlisten⟩
    rw [hmain, hlisten]
    exact .start (h.pending w) (h.outstanding w)
  returned := by simp [h.returned]
  fits k := .inl (.inl (h.handlers k))

/-- The key of a command on the wire is the one a handler waits for. -/
theorem exists_owner (h : Serving s) {w : Fin n} {seq : ℕ} {key : Key}
    (hidle : (s.workers w).listener = .idle) (hkey : (s.workers w).client.asked seq = some key) :
    ∃ k i, (s.handlers k).pc = .poll i ∧ (s.handlers k).key = key := by
  have hwire := Client.mem_wire_of_asked hkey
  have hknown := (h.direct.worker w).tracked.known_of_wire
    (List.mem_map_of_mem (f := Prod.fst) hwire)
  obtain ⟨cb, hcb⟩ := Option.isSome_iff_exists.mp (AList.lookup_isSome.mpr hknown)
  obtain ⟨-, r, rfl⟩ := (h.owned.worker w).client.known seq cb hcb
  have hrkey : r.key = key := ((h.owned.worker w).client.wire _ hwire).2 r hcb
  have hticket : r ∈ tickets s := by
    apply mem_tickets (mem_tickets_of_pending h.direct hcb _)
    rw [hidle]
    exact List.not_mem_nil
  obtain ⟨hpc, hkey', -⟩ := h.owned.ticket r hticket
  exact ⟨r.owner, r.sm_idx, hpc, hkey'.trans hrkey⟩

theorem Supplied.driveOnly (h : Supplied store s) (hg : Serves store name a s)
    (hst : step s a = some t) : DriveOnly a s := by
  cases step_cases hst with
  | drive w cmd value key hidle hkey =>
      obtain ⟨key', hkey', houtcome⟩ := hg
      intro hsuccess
      obtain ⟨k, i, hpc, hk⟩ := exists_owner h.serving hidle hkey'
      have hfits := (h.fits k).resolve_left (by simp [hpc])
      rw [hk] at hfits
      apply hfits value
      rw [← houtcome]
      exact if_pos hsuccess
  | not_attempted | bad_hmac | timeout | socket_error => exact hg.elim
  | _ => trivial

theorem supplied_step (s₀ : State n) (hname : Fits store name) :
    (app_from s₀).Preserves (Serves store name) (Supplied store) := by
  intro a s t h hg hst
  constructor
  · exact serving_step s₀ a s t h.serving (h.driveOnly hg hst) hst
  · intro x hx
    rw [step_returned hst] at hx
    obtain hx | hx := List.mem_append.mp hx
    · exact h.returned x hx
    · cases a with
      | drive w seq cmd value =>
          obtain ⟨key, hkey, houtcome⟩ := hg
          simp only [Action.logs, hkey, Option.toList_some, List.map_cons, List.map_nil,
            List.mem_singleton] at hx
          rw [hx]
          exact houtcome
      | _ => cases hx
  · intro k
    have hk := h.fits k
    have hnext := step_handler hst k
    generalize t.handlers k = y at hnext
    cases hnext with
    | same => exact hk
    | call endpoint text hcalled hpc =>
        cases a with
        | call j endpoint' text' =>
            simp only [Action.calls, Option.ite_none_right_eq_some, Option.some.injEq,
              Prod.mk.injEq] at hcalled
            obtain ⟨-, rfl, rfl⟩ := hcalled
            unfold Handler.enter
            cases hkey : bytes text' with
            | error e => exact .inl (.inr ⟨e, rfl⟩)
            | ok key =>
                right
                by_cases heq : key = name
                · exact heq ▸ hname
                · exact hg key hkey heq
        | _ => cases hcalled
    | move pc hpc =>
        right
        apply hk.resolve_left
        rintro (habsent | ⟨e, hraised⟩)
        · rw [habsent] at hpc
          cases hpc
        · rw [hraised] at hpc
          cases hpc

theorem supplied_of_reachable (h₀ : Ready s₀) (hname : Fits store name)
    (h : (app_from s₀).ReachableWith (Serves store name) s) : Supplied store s :=
  h.invariant h₀.supplied (supplied_step s₀ hname)

/-! ### What a get can return at all -/

/-- A get copies at most one slot, and the only thing it can lack is a slot. -/
def Plain (x : Handler) : Prop :=
  x.endpoint = .get →
    match x.pc with
    | .reset _ v | .add _ v | .leave v | .returned v => v.length ≤ MAX_PAYLOAD_LEN
    | .raised e => e = .KeyError ∨ x.key = []
    | _ => True

theorem length_read_le (p : Payload) (plen : ℤ) : (p.read plen).length ≤ MAX_PAYLOAD_LEN := by
  unfold Payload.read
  split
  · exact Nat.le_of_eq p.2
  · rw [List.length_take, p.2]
    exact Nat.min_le_right _ _

theorem Plain.next {x y : Handler} {called : Option (Endpoint × List Char)} (h : Plain x)
    (hn : x.Next called y) : Plain y := by
  cases hn with
  | same => exact h
  | call endpoint text hcalled hpc =>
      intro _
      unfold Handler.enter
      cases bytes text with
      | ok key => trivial
      | error e => exact .inr rfl
  | move pc hpc =>
      intro hget
      have h := h hget
      generalize hold : x.pc = old at h hpc
      cases hpc with
      | none_left => exact .inl rfl
      | empty i => exact Nat.zero_le _
      | copy i plen p => exact length_read_le p plen
      | reset i v => exact h
      | add i v => exact h
      | leave v b hb =>
          rw [show x.endpoint = .get from hget] at hb
          cases hb
          exact h
      | fail v e he =>
          rw [show x.endpoint = .get from hget] at he
          cases he
      | _ => trivial

theorem plain_of_reachable {G : Action n → State n → Prop} (h₀ : Ready s₀)
    (h : (app_from s₀).ReachableWith G s) (k : ℕ) : Plain (s.handlers k) := by
  apply h.invariant (I := fun s => ∀ k, Plain (s.handlers k))
  · intro k _
    rw [show ((app_from s₀).start.handlers k).pc = .absent from h₀.handlers k]
    trivial
  · exact fun a s t hs _ hst k => (hs k).next (step_handler hst k)

/-- A get of `name` that has found a slot. -/
structure Served (x : Handler) (name : Key) : Prop where
  endpoint : x.endpoint = .get
  key : x.key = name
  called : x.pc ≠ .absent
  popped : x.pc ≠ .pop
  running : ∀ e, x.pc ≠ .raised e

theorem Served.next {x y : Handler} {called : Option (Endpoint × List Char)} (h : Served x name)
    (hn : x.Next called y) : Served y name := by
  cases hn with
  | same => exact h
  | call endpoint text hcalled hpc => exact absurd hpc h.called
  | move pc hpc =>
      have hpopped := h.popped
      generalize x.pc = old at hpc hpopped
      cases hpc with
      | none_left => exact absurd rfl hpopped
      | fail v e he =>
          rw [h.endpoint] at he
          cases he
      | _ => exact ⟨h.endpoint, h.key, by simp, by simp, by simp⟩

/-- The first get of an idle application finds a slot. -/
theorem exists_served (h₀ : Ready s₀) {text : List Char} (htext : bytes text = .ok name) :
    ∃ s, (app_from s₀).ReachableWith (Serves store name) s ∧ Served (s.handlers 0) name := by
  obtain ⟨s₁, hs₁⟩ : ∃ s₁ : State n,
      { s₀ with handlers := Function.update s₀.handlers 0 (.enter .get text) } = s₁ := ⟨_, rfl⟩
  have hcall : step s₀ (.call 0 .get text) = some s₁ := hs₁ ▸ if_pos (h₀.handlers 0)
  have hserves : Serves store name (.call 0 .get text) s₀ :=
    fun key hkey hne => absurd (Except.ok.inj (hkey.symm.trans htext)) hne
  have hentered : s₁.handlers 0 = ⟨.get, name, .pop⟩ := by
    rw [← hs₁]
    simp only [Function.update_self, Handler.enter, htext]
  have hfree : (⟨0, by decide⟩ : Idx) ∈ s₁.sm_available_idx := by
    rw [← hs₁, h₀.available]
    exact Finset.mem_univ _
  have hpop : step s₁ (.pop 0 (some _)) = some _ := if_pos ⟨congrArg Handler.pc hentered, hfree⟩
  have hcalled : (app_from s₀).ReachableWith (Serves store name) s₁ := .step _ .start hserves hcall
  have hreach : (app_from s₀).ReachableWith (Serves store name) _ :=
    .step (.pop 0 (some _)) hcalled True.intro hpop
  refine ⟨_, hreach, ?_⟩
  simp only [State.setPc, Function.update_self, hentered]
  exact ⟨rfl, rfl, by simp, by simp, by simp⟩

/-- The value of a get has at most the length of a slot. -/
theorem Retrievable.length_le {content : Bytes} (h : Retrievable s₀ store name content)
    (h₀ : Ready s₀) : content.length ≤ MAX_PAYLOAD_LEN := by
  obtain ⟨text, htext⟩ := h.asked
  obtain ⟨s, hs, hserved⟩ : ∃ s, (app_from s₀).ReachableWith (Serves store name) s ∧
      Served (s.handlers 0) name := exists_served h₀ htext
  obtain ⟨H, hH⟩ := exists_calledIn h₀.toQuiescent hs
  obtain ⟨t, ht, ⟨-, hserved⟩, hsettled⟩ := hs.exists_settled
    (I := fun s => CalledIn H s ∧ Served (s.handlers 0) name) (State.rank H)
    (fun a s (hg : Goes store name a s) => hg.2)
    (fun a s t hI hg hst => ⟨(goes_rank hI.1 hg hst).2, hI.2.next (step_handler hst 0)⟩)
    (fun a s t hI hg hst => (goes_rank hI.1 hg hst).1) ⟨hH, hserved⟩
  have hgets : Gets t 0 name := ⟨hserved.called, hserved.endpoint, hserved.key⟩
  obtain hraised | ⟨b, hb⟩ := h.answered t ht hsettled 0 hgets
  · exact absurd hraised (hserved.running _)
  · have hplain := plain_of_reachable h₀ ht 0 hserved.endpoint
    rw [hb] at hplain
    rw [← h.value t ht 0 b hgets hb]
    exact hplain

end

/-! ### The round trip -/

section
variable {s₀ s : State (n + 1)} {store : Dict Key Bytes} {name : Key} {content : Bytes}

/-- The drive can always answer. -/
theorem goes_of_alive (h : Alive s) : ∃ a, Goes store name a s ∧ step s a ≠ none := by
  obtain ⟨a, ha, hst⟩ | ⟨w, seq, key, hidle, hkey⟩ := h
  · refine ⟨a, ?_, Option.isSome_iff_ne_none.mp hst⟩
    cases a with
    | send w accepted =>
        cases accepted with
        | true => exact ⟨trivial, trivial⟩
        | false => exact ha.elim
    | call | drive | bad_hmac | timeout | socket_error => exact ha.elim
    | _ => exact ⟨trivial, trivial⟩
  · have hanswer : ∃ (cmd : Command) (value : Bytes),
        cmd.ackSequence = seq ∧ cmd.outcome value = store.lookup key := by
      cases store.lookup key with
      | some value => exact ⟨⟨seq, .SUCCESS, key⟩, value, rfl, rfl⟩
      | none => exact ⟨⟨seq, .drive_error 0, key⟩, [], rfl, rfl⟩
    obtain ⟨cmd, value, hseq, houtcome⟩ := hanswer
    refine ⟨.drive w seq cmd value, ⟨trivial, key, hkey, houtcome⟩, ?_⟩
    simp only [step, hidle, if_pos hseq, hkey]
    exact Option.some_ne_none _

theorem Supplied.answered (h : Supplied store s) {k : ℕ} (hplain : Plain (s.handlers k))
    (hname : name ≠ []) (hsettled : ∀ a, Goes store name a s → step s a = none)
    (hgets : Gets s k name) :
    (s.handlers k).pc = .raised .KeyError ∨ ∃ b, (s.handlers k).pc = .returned b := by
  obtain halive | hreturned | ⟨e, he⟩ := h.serving.alive_of_handler hgets.called
  · obtain ⟨a, ha, hst⟩ : ∃ a, Goes store name a s ∧ step s a ≠ none := goes_of_alive halive
    exact absurd (hsettled a ha) hst
  · exact .inr hreturned
  · have hplain := hplain hgets.endpoint
    simp only [he, hgets.key] at hplain
    exact .inl (hplain.resolve_right hname ▸ he)

theorem retrievable_iff_of_lookup (h₀ : Ready s₀) (hname : name ≠ [])
    (hstored : store.lookup name = some content) :
    Retrievable s₀ store name content ↔
      (∀ c ∈ name, c < 128) ∧ content.length ≤ MAX_PAYLOAD_LEN := by
  constructor
  · intro h
    obtain ⟨text, htext⟩ := h.asked
    exact ⟨ascii_of_bytes htext, h.length_le h₀⟩
  · rintro ⟨hascii, hlength⟩
    have hfits : Fits store name := by
      intro value hvalue
      obtain rfl := Option.some.inj (hstored.symm.trans hvalue)
      exact hlength
    constructor
    · exact exists_bytes hascii
    · exact fun s hs => finite_of_ready h₀ hs
    · intro s hs hsettled k hgets
      exact (supplied_of_reachable h₀ hfits hs).answered (plain_of_reachable h₀ hs k) hname
        hsettled hgets
    · intro s hs k b hgets hb
      have hsupplied := supplied_of_reachable h₀ hfits hs
      obtain ⟨res, hres, hbody⟩ :=
        hsupplied.serving.owned.returned_value hsupplied.serving.direct hb
      have hlookup : res = store.lookup (s.handlers k).key := hsupplied.returned _ hres
      rw [hgets.key, hstored] at hlookup
      rw [hgets.endpoint, hlookup] at hbody
      exact (Except.ok.inj hbody).symm

/-- A stored file can be got back if and only if its name is ASCII and it has room in a slot. -/
theorem retrievable_iff {d : Dir} {ext : Bytes} (store : Dict Key Bytes)
    (hdistinct : ((d.files ext).map Prod.fst).Nodup)
    (hstored : (name, content) ∈ (ingest d ext).1.puts) (h₀ : Ready s₀) :
    Retrievable s₀ (put_all store (ingest d ext).1.puts) name content ↔
      (∀ c ∈ name, c < 128) ∧ content.length ≤ MAX_PAYLOAD_LEN :=
  retrievable_iff_of_lookup h₀ (ne_nil_of_mem_puts hstored) (lookup_ingest store hdistinct hstored)

end

/-! ### Two files, and one that is too large for the reader -/

/-- `a.jpg` with two bytes, and an empty `d/c.jpg`. -/
def twoFiles : Dir :=
  .file ⟨[97, 46, 106, 112, 103], by decide⟩ [1, 2]
    (.dir ⟨[100], by decide⟩ (.file ⟨[99, 46, 106, 112, 103], by decide⟩ [] .nil) .nil)

theorem retrievable_iff_twoFiles :
    Retrievable ({} : State 1) (put_all ∅ (ingest twoFiles jpg).1.puts)
        [97, 46, 106, 112, 103] [1, 2] ∧
      Retrievable ({} : State 1) (put_all ∅ (ingest twoFiles jpg).1.puts)
        [99, 46, 106, 112, 103] [] := by
  have hdistinct : ((twoFiles.files jpg).map Prod.fst).Nodup := by decide +kernel
  constructor
  · exact (retrievable_iff ∅ hdistinct (by decide +kernel) ready_start).mpr (by decide +kernel)
  · exact (retrievable_iff ∅ hdistinct (by decide +kernel) ready_start).mpr (by decide +kernel)

def photo : Name := ⟨[97, 46, 106, 112, 103], by decide⟩

def oneFile (content : Bytes) : Dir := .file photo content .nil

theorem files_oneFile (content : Bytes) : (oneFile content).files jpg = [(photo.1, content)] := rfl

/-- A file of 1 MiB and one byte. -/
def oversize : Bytes := List.replicate (MAX_PAYLOAD_LEN + 1) 0

theorem stored_oversize : (photo.1, oversize) ∈ (ingest (oneFile oversize) jpg).1.puts := by
  apply (mem_puts_iff _ _ _ _).mpr
  · rw [files_oneFile]
    refine ⟨List.mem_singleton_self _, ?_⟩
    change (List.replicate (MAX_PAYLOAD_LEN + 1) (0 : UInt8)).length ≤ MAX_FILE_LEN
    rw [List.length_replicate]
    decide
  · intro p hp
    obtain rfl := List.mem_singleton.mp (List.mem_of_mem_filter hp)
    simp

/-- The tool stores the file, and no get returns it. -/
theorem oversize_not_retrievable :
    (((oneFile oversize).files jpg).map Prod.fst).Nodup ∧
      (photo.1, oversize) ∈ (ingest (oneFile oversize) jpg).1.puts ∧
      ¬Retrievable ({} : State 1) (put_all ∅ (ingest (oneFile oversize) jpg).1.puts) photo.1
        oversize := by
  refine ⟨?_, stored_oversize, ?_⟩
  · rw [files_oneFile]
    exact List.nodup_singleton _
  · intro h
    have hlength := h.length_le ready_start
    unfold oversize at hlength
    rw [List.length_replicate] at hlength
    exact absurd hlength (Nat.not_succ_le_self _)

end SmartDisk.RoundTrip
