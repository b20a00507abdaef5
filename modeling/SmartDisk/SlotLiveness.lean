import SmartDisk.SlotProgress

/-!
# Nobody waits for ever

Each entry of `_pending` belongs to a command that is being sent, on the wire or being
handled, and the semaphore counts these entries. So a worker with something to do can do it, or
the drive owes it a response. A handler that polls an unset slot has a live pair, and the
pair is in the queue or with such a worker.
-/
namespace SmartDisk.SlotProtocol
open KineticClient ActionSystem

variable {n : ℕ}

/-! ### Workers that work -/

/-- The place of the semaphore a main thread has taken before there is an entry. -/
def Main.acquired : Main → ℕ
  | .header _ => 1
  | _ => 0

structure Worker.Live (wk : Worker) : Prop where
  accounted : wk.client.Accounted wk.main.sending wk.listener.handling wk.main.acquired
  depth : 0 < wk.client.queue_depth
  not_closing : wk.closing = false
  working : ∀ e, wk.main ≠ .raised e
  listening : wk.listener = .idle ∨ ∃ p, wk.listener = .callback p

theorem Worker.Live.rest {wk : Worker} (h : wk.Live) : State.rest wk = .idle := by
  unfold State.rest
  rw [h.not_closing]
  rfl

theorem Worker.Live.next {wk wk' : Worker} (h : wk.Live) (hd : wk.Direct) (hn : wk.Next wk') :
    wk'.Live := by
  have haccounted := h.accounted
  have htracked := hd.tracked
  cases hn with
  | fetch r hmain =>
      rw [hmain] at haccounted
      exact ⟨haccounted, h.depth, h.not_closing, by simp, h.listening⟩
  | install r hmain =>
      rw [hmain] at haccounted
      exact ⟨⟨haccounted.used, haccounted.count⟩, h.depth, h.not_closing, by simp, h.listening⟩
  | acquire r c hmain hc =>
      rw [hmain] at haccounted
      refine ⟨haccounted.acquire hc, ?_, h.not_closing, by simp, h.listening⟩
      rw [Client.acquire_eq hc]
      exact h.depth
  | header r hmain =>
      rw [hmain] at haccounted htracked
      exact ⟨haccounted.update_header htracked, h.depth, h.not_closing, by simp, h.listening⟩
  | send seq r hmain =>
      rw [hmain] at haccounted
      exact ⟨haccounted.packet_send, h.depth, h.not_closing, by simp, h.listening⟩
  | answer seq p hidle hwire hseqs hfits =>
      rw [hidle] at haccounted htracked
      refine ⟨?_, h.depth, h.not_closing, h.working, .inr ⟨p, rfl⟩⟩
      simp only [Listener.handling, hseqs]
      exact haccounted.answer htracked hwire
  | advance p q hlisten hseqs hlater =>
      rw [hlisten] at haccounted
      refine ⟨?_, h.depth, h.not_closing, h.working, .inr ⟨q, rfl⟩⟩
      simp only [Listener.handling, hseqs]
      exact haccounted
  | finish p hlisten hseqs =>
      rw [hlisten] at haccounted
      simp only [Listener.handling, hseqs] at haccounted
      refine ⟨?_, h.depth, h.not_closing, h.working, .inl h.rest⟩
      simp only [handling_rest]
      exact haccounted
  | clean_up seq hlisten =>
      rw [hlisten] at haccounted htracked
      refine ⟨?_, h.depth, h.not_closing, h.working, .inl h.rest⟩
      simp only [handling_rest]
      exact haccounted.clean_up htracked

/-- Everything the drive alone can lead to. -/
structure Serving (s : State n) : Prop where
  owned : Owned s
  direct : Direct s
  live : ∀ w, (s.workers w).Live

theorem serving_step (s₀ : State n) : (app_from s₀).Preserves DriveOnly Serving := by
  intro a s t h hg hst
  constructor
  · exact owned_step s₀ a s t h.owned (h.direct.attributed hg hst) hst
  · exact direct_step s₀ a s t h.direct hg hst
  · exact (h.direct.works hg hst).forall (fun _ _ hd hl hn => hl.next hd hn) h.direct h.live

/-! ### Somebody can move -/

/-- A step of a handler or a worker that needs nothing from outside. -/
def Internal (a : Action n) : Prop :=
  match a with
  | .call _ _ _ | .send _ false | .bad_hmac _ _ | .timeout _ | .socket_error _ |
    .drive _ _ _ _ => False
  | _ => True

def Alive (s : State n) : Prop :=
  (∃ a, Internal a ∧ (step s a).isSome) ∨
    ∃ w seq key, (s.workers w).listener = .idle ∧ (s.workers w).client.asked seq = some key

theorem Alive.internal {s t : State n} (a : Action n) (ha : Internal a) (hst : step s a = some t) :
    Alive s := .inl ⟨a, ha, hst ▸ rfl⟩

section
variable {s : State n} {w : Fin n}

/-- An entry of `_pending` is on its way. -/
theorem Serving.alive_of_pending (h : Serving s) {seq : ℕ}
    (hseq : seq ∈ (s.workers w).client.pending) : Alive s := by
  obtain hissued | hhandling := List.mem_append.mp ((h.live w).accounted.used seq hseq)
  · obtain hsending | hwire := List.mem_append.mp hissued
    · cases hmain : (s.workers w).main with
      | send seq' r => exact .internal (.send w true) trivial (by simp only [step, hmain]; rfl)
      | _ => simp [hmain, Main.sending] at hsending
    · obtain hidle | ⟨p, hp⟩ := (h.live w).listening
      · obtain ⟨key, hkey⟩ := Client.asked_of_mem_wire hwire
        exact .inr ⟨w, seq, key, hidle, hkey⟩
      · exact .internal (.listen w) trivial (by simp only [step, State.listen, hp]; rfl)
  · cases hlisten : (s.workers w).listener with
    | callback p => exact .internal (.listen w) trivial (by simp only [step, State.listen, hlisten]; rfl)
    | _ => simp [hlisten, Listener.handling] at hhandling

/-- A worker that is not waiting for the queue can move. -/
theorem Serving.alive_of_main (h : Serving s) (hbusy : (s.workers w).main ≠ .fetch) : Alive s := by
  cases hmain : (s.workers w).main with
  | fetch => exact absurd hmain hbusy
  | install r => exact .internal (.install w) trivial (by simp only [step, hmain]; rfl)
  | acquire r =>
      cases hc : (s.workers w).client.acquire with
      | some c => exact .internal (.acquire w) trivial (by simp only [step, hmain, hc]; rfl)
      | none =>
          have haccounted := (h.live w).accounted
          rw [hmain] at haccounted
          obtain ⟨seq, hseq⟩ := haccounted.blocked (h.live w).depth hc
          exact h.alive_of_pending hseq
  | header r => exact .internal (.header w) trivial (by simp only [step, hmain]; rfl)
  | send seq r => exact .internal (.send w true) trivial (by simp only [step, hmain]; rfl)
  | report p =>
      have hquiet := (h.direct.worker w).quiet
      rw [hmain] at hquiet
      cases hquiet
  | raised e => exact absurd hmain ((h.live w).working e)

theorem exists_of_mem_live {d : Dict ℕ (Option Request)} {done : List ℕ} {r : Request}
    (h : r ∈ live d done) : ∃ seq, seq ∈ d := by
  unfold live at h
  obtain ⟨x, hx, -⟩ := List.mem_filterMap.mp (Multiset.mem_coe.mp h)
  exact ⟨x.1, List.mem_keys_of_mem (List.mem_of_mem_filter hx)⟩

/-- As long as there is a worker, a live pair is taken care of. -/
theorem Serving.alive_of_ticket {s : State (n + 1)} (h : Serving s) {r : Request}
    (hr : r ∈ tickets s) : Alive s := by
  obtain hqueued | hwork := Multiset.mem_add.mp hr
  · by_cases hmain : (s.workers 0).main = .fetch
    · match hreq : s.requests with
      | [] => simp [hreq] at hqueued
      | r :: rest => exact .internal (.fetch 0) trivial (by simp only [step, hmain, hreq]; rfl)
    · exact h.alive_of_main hmain
  · obtain ⟨w, -, hw⟩ := Multiset.mem_sum.mp hwork
    obtain hissuing | hlive := Multiset.mem_add.mp hw
    · apply h.alive_of_main (w := w)
      intro hmain
      simp [hmain, Main.issuing] at hissuing
    · obtain ⟨seq, hseq⟩ := exists_of_mem_live hlive
      exact h.alive_of_pending hseq

/-- A handler that has not come to its end does not wait in vain. -/
theorem Serving.alive_of_handler {s : State (n + 1)} (h : Serving s) {k : ℕ}
    (hcalled : (s.handlers k).pc ≠ .absent) :
    Alive s ∨ (∃ b, (s.handlers k).pc = .returned b) ∨ ∃ e, (s.handlers k).pc = .raised e := by
  cases hpc : (s.handlers k).pc with
  | absent => exact absurd hpc hcalled
  | returned b => exact .inr (.inl ⟨b, rfl⟩)
  | raised e => exact .inr (.inr ⟨e, rfl⟩)
  | pop =>
      left
      obtain hnone | ⟨i, hi⟩ := s.sm_available_idx.eq_empty_or_nonempty
      · exact .internal (.pop k none) trivial (by simp only [step, hpc, hnone]; rfl)
      · exact .internal (.pop k (some i)) trivial (by simp only [step, hpc, hi]; rfl)
  | poll i =>
      left
      have hok := h.owned.handler k
      rw [Handler.ok_poll hpc] at hok
      obtain hunset | ⟨v, -, hfilled⟩ := hok
      · obtain ⟨r, hr, -⟩ := h.owned.waiting k i hpc hunset
        exact h.alive_of_ticket hr
      · have hlen : ¬(s.sm_slots i).len < 0 := by
          rw [hfilled.1]
          exact Int.not_lt.mpr (Int.natCast_nonneg _)
        exact .internal (.resume k) trivial (by simp only [step, State.resume, hpc, if_neg hlen]; rfl)
  | _ =>
      left
      exact .internal (.resume k) trivial (by simp only [step, State.resume, hpc]; rfl)

end

/-! ### What a step does to a handler -/

/-- The next place of a handler. -/
inductive Pc.Next (endpoint : Endpoint) : Pc → Pc → Prop
  | pop (i : Idx) : Pc.Next endpoint .pop (.put i)
  | none_left : Pc.Next endpoint .pop (.raised .KeyError)
  | put (i : Idx) : Pc.Next endpoint (.put i) (.poll i)
  | poll (i : Idx) : Pc.Next endpoint (.poll i) (.read i)
  | empty (i : Idx) : Pc.Next endpoint (.read i) (.reset i [])
  | read (i : Idx) (plen : ℤ) : Pc.Next endpoint (.read i) (.copy i plen)
  | copy (i : Idx) (plen : ℤ) (p : Payload) :
      Pc.Next endpoint (.copy i plen) (.reset i (p.read plen))
  | reset (i : Idx) (v : Bytes) : Pc.Next endpoint (.reset i v) (.add i v)
  | add (i : Idx) (v : Bytes) : Pc.Next endpoint (.add i v) (.leave v)
  | leave (v b : Bytes) (hb : body endpoint v = .ok b) :
      Pc.Next endpoint (.leave v) (.returned b)
  | fail (v : Bytes) (e : Exn) (he : body endpoint v = .error e) :
      Pc.Next endpoint (.leave v) (.raised e)

/-- A handler is left alone, called, or moves on. -/
inductive Handler.Next (called : Option (Endpoint × List Char)) (x : Handler) : Handler → Prop
  | same : x.Next called x
  | call (endpoint : Endpoint) (text : List Char) (hcalled : called = some (endpoint, text))
      (hpc : x.pc = .absent) : x.Next called (.enter endpoint text)
  | move (pc : Pc) (hnext : Pc.Next x.endpoint x.pc pc) : x.Next called { x with pc := pc }

/-- How an action calls the handler `k`. -/
def Action.calls (k : ℕ) : Action n → Option (Endpoint × List Char)
  | .call h endpoint text => if h = k then some (endpoint, text) else none
  | _ => none

/-- What the drive says by an action. -/
def Action.logs (s : State n) : Action n → List (Key × Option Bytes)
  | .drive w seq cmd value =>
      ((s.workers w).client.asked seq).toList.map fun key => (key, cmd.outcome value)
  | _ => []

section
variable {s t : State n} {called : Option (Endpoint × List Char)}

theorem Handler.Next.setPc {h : ℕ} {pc : Pc}
    (hnext : Pc.Next (s.handlers h).endpoint (s.handlers h).pc pc) (k : ℕ) :
    (s.handlers k).Next called ((s.setPc h pc).handlers k) := by
  unfold State.setPc
  by_cases hk : k = h
  · rw [hk]
    simp only [Function.update_self]
    exact .move pc hnext
  · simp only [Function.update_of_ne hk]
    exact .same

/-- Only a handler's own steps concern it. -/
theorem step_handler {a : Action n} (hst : step s a = some t) (k : ℕ) :
    (s.handlers k).Next (a.calls k) (t.handlers k) := by
  cases step_cases hst with
  | call h endpoint text hpc =>
      by_cases hk : h = k
      · subst hk
        simp only [Function.update_self]
        exact .call endpoint text (if_pos rfl) hpc
      · simp only [Function.update_of_ne (Ne.symm hk)]
        exact .same
  | pop h i hpc hi => exact Handler.Next.setPc (hpc ▸ .pop i) k
  | none_left h hpc hnone => exact Handler.Next.setPc (hpc ▸ .none_left) k
  | put h i hpc => exact Handler.Next.setPc (hpc ▸ .put i) k
  | poll h i hpc hlen => exact Handler.Next.setPc (hpc ▸ .poll i) k
  | empty h i hpc hlen => exact Handler.Next.setPc (hpc ▸ .empty i) k
  | read h i hpc hlen => exact Handler.Next.setPc (hpc ▸ .read i _) k
  | copy h i plen hpc => exact Handler.Next.setPc (hpc ▸ .copy i plen _) k
  | reset h i v hpc => exact Handler.Next.setPc (hpc ▸ .reset i v) k
  | add h i v hpc => exact Handler.Next.setPc (hpc ▸ .add i v) k
  | leave h v b hpc hb => exact Handler.Next.setPc (hpc ▸ .leave v b hb) k
  | fail h v e hpc he => exact Handler.Next.setPc (hpc ▸ .fail v e he) k
  | _ => exact .same

/-- Only a response of the drive is remembered. -/
theorem step_returned {a : Action n} (hst : step s a = some t) :
    t.returned = s.returned ++ a.logs s := by
  cases step_cases hst with
  | drive w cmd value key hidle hkey =>
      simp only [Action.logs, hkey, Option.toList_some, List.map_cons, List.map_nil]
      rfl
  | _ => exact (List.append_nil _).symm

end

/-! ### Runs without new requests are finite -/

theorem CalledIn.step {H : Finset ℕ} {s t : State n} (h : CalledIn H s) {a : Action n}
    (hst : step s a = some t) : ∃ H', CalledIn H' t := by
  have hnext := step_handler hst
  have stays : ∀ k, k ∉ H → a.calls k = none → (t.handlers k).pc = .absent := by
    intro k hk hcalls
    have hnext := hnext k
    rw [hcalls] at hnext
    generalize t.handlers k = y at hnext
    cases hnext with
    | same => exact h k hk
    | call endpoint text hcalled hpc => cases hcalled
    | move pc hpc =>
        rw [h k hk] at hpc
        cases hpc
  cases a with
  | call j endpoint text =>
      refine ⟨insert j H, fun k hk => ?_⟩
      obtain ⟨hne, hk⟩ := not_or.mp (Finset.mem_insert.not.mp hk)
      exact stays k hk (if_neg (Ne.symm hne))
  | _ => exact ⟨H, fun k hk => stays k hk rfl⟩

theorem exists_calledIn {s₀ s : State n} {G : Action n → State n → Prop} (hq : Quiescent s₀)
    (h : (app_from s₀).ReachableWith G s) : ∃ H, CalledIn H s := by
  apply h.invariant (I := fun s => ∃ H, CalledIn H s)
  · exact ⟨∅, fun k _ => hq.handlers k⟩
  · rintro a s t ⟨H, hH⟩ - hst
    exact hH.step hst

end SmartDisk.SlotProtocol
