import SmartDisk.SlotProtocol

/-!
# What a step of the web application does

Each constructor is one branch of the step function, with the test that led to it
and the state it leads to.
-/
namespace SmartDisk.SlotProtocol
open KineticClient

variable {n : ℕ}

inductive Effect (s : State n) : Action n → State n → Prop
  | call (h : ℕ) (endpoint : Endpoint) (text : List Char) (hpc : (s.handlers h).pc = .absent) :
      Effect s (.call h endpoint text)
        { s with handlers := Function.update s.handlers h (.enter endpoint text) }
  | pop (h : ℕ) (i : Idx) (hpc : (s.handlers h).pc = .pop) (hi : i ∈ s.sm_available_idx) :
      Effect s (.pop h (some i))
        { s.setPc h (.put i) with sm_available_idx := s.sm_available_idx.erase i }
  | none_left (h : ℕ) (hpc : (s.handlers h).pc = .pop) (hnone : s.sm_available_idx = ∅) :
      Effect s (.pop h none) (s.setPc h (.raised .KeyError))
  | put (h : ℕ) (i : Idx) (hpc : (s.handlers h).pc = .put i) :
      Effect s (.resume h)
        { s.setPc h (.poll i) with requests := s.requests ++ [⟨(s.handlers h).key, i, h⟩] }
  | poll (h : ℕ) (i : Idx) (hpc : (s.handlers h).pc = .poll i) (hlen : 0 ≤ (s.sm_slots i).len) :
      Effect s (.resume h) (s.setPc h (.read i))
  | empty (h : ℕ) (i : Idx) (hpc : (s.handlers h).pc = .read i) (hlen : (s.sm_slots i).len = 0) :
      Effect s (.resume h) (s.setPc h (.reset i []))
  | read (h : ℕ) (i : Idx) (hpc : (s.handlers h).pc = .read i) (hlen : (s.sm_slots i).len ≠ 0) :
      Effect s (.resume h) (s.setPc h (.copy i (s.sm_slots i).len))
  | copy (h : ℕ) (i : Idx) (plen : ℤ) (hpc : (s.handlers h).pc = .copy i plen) :
      Effect s (.resume h) (s.setPc h (.reset i ((s.sm_slots i).payload.read plen)))
  | reset (h : ℕ) (i : Idx) (v : Bytes) (hpc : (s.handlers h).pc = .reset i v) :
      Effect s (.resume h)
        { s.setPc h (.add i v) with sm_slots := setLen s.sm_slots i (-1) }
  | add (h : ℕ) (i : Idx) (v : Bytes) (hpc : (s.handlers h).pc = .add i v) :
      Effect s (.resume h)
        { s.setPc h (.leave v) with sm_available_idx := insert i s.sm_available_idx }
  | leave (h : ℕ) (v b : Bytes) (hpc : (s.handlers h).pc = .leave v)
      (hb : body (s.handlers h).endpoint v = .ok b) :
      Effect s (.resume h) (s.setPc h (.returned b))
  | fail (h : ℕ) (v : Bytes) (e : Exn) (hpc : (s.handlers h).pc = .leave v)
      (he : body (s.handlers h).endpoint v = .error e) :
      Effect s (.resume h) (s.setPc h (.raised e))
  | fetch (w : Fin n) (r : Request) (rest : List Request) (hmain : (s.workers w).main = .fetch)
      (hreq : s.requests = r :: rest) :
      Effect s (.fetch w)
        ({ s with requests := rest }.setWorker w { s.workers w with main := .install r })
  | install (w : Fin n) (r : Request) (hmain : (s.workers w).main = .install r) :
      Effect s (.install w) (s.setWorker w { s.workers w with
        client := { (s.workers w).client with callback_delegate := some r }
        main := .acquire r })
  | acquire (w : Fin n) (r : Request) (c : Client Request)
      (hmain : (s.workers w).main = .acquire r) (hc : (s.workers w).client.acquire = some c) :
      Effect s (.acquire w) (s.setWorker w { s.workers w with client := c, main := .header r })
  | header (w : Fin n) (r : Request) (hmain : (s.workers w).main = .header r) :
      Effect s (.header w) (s.setWorker w { s.workers w with
        client := (s.workers w).client.update_header
        main := .send (s.workers w).client.sequence r })
  | send (w : Fin n) (seq : ℕ) (r : Request) (hmain : (s.workers w).main = .send seq r) :
      Effect s (.send w true) (s.setWorker w { s.workers w with
        client := (s.workers w).client.packet_send seq r.key
        main := .fetch })
  | not_attempted (w : Fin n) (seq : ℕ) (r : Request) (hmain : (s.workers w).main = .send seq r) :
      Effect s (.send w false) (s.not_attempted w)
  | report (w : Fin n) (p : Progress) (x : Advanced) (hmain : (s.workers w).main = .report p)
      (hx : p.advance s.sm_slots (s.workers w).client = x) :
      Effect s (.report w) ({ s with sm_slots := x.sm_slots }.setWorker w { s.workers w with
        client := x.client
        main := match x.rest with
          | .ok (some p) => .report p
          | .ok none => .fetch
          | .error e => .raised e })
  | drive (w : Fin n) (cmd : Command) (value : Bytes) (key : Key)
      (hidle : (s.workers w).listener = .idle)
      (hkey : (s.workers w).client.asked cmd.ackSequence = some key) :
      Effect s (.drive w cmd.ackSequence cmd value)
        ({ s with returned := s.returned ++ [(key, cmd.outcome value)] }.deliver w
          ((s.workers w).take_response cmd.ackSequence) cmd value)
  | bad_hmac (w : Fin n) (seq : ℕ) (key : Key) (hidle : (s.workers w).listener = .idle)
      (hkey : (s.workers w).client.asked seq = some key) :
      Effect s (.bad_hmac w seq)
        (s.report_error w ((s.workers w).take_response seq) .HMAC_FAILURE)
  | timeout (w : Fin n) (hidle : (s.workers w).listener = .idle)
      (hpending : (s.workers w).client.pending.keys ≠ []) :
      Effect s (.timeout w) (s.report_error w (s.workers w) .EXPIRED)
  | socket_error (w : Fin n) (hidle : (s.workers w).listener = .idle) :
      Effect s (.socket_error w)
        (s.report_error w { s.workers w with closing := true } .INTERNAL_ERROR)
  | listen (w : Fin n) (p : Progress) (x : Advanced) (q : Option Progress)
      (hlisten : (s.workers w).listener = .callback p)
      (hx : p.advance s.sm_slots (s.workers w).client = x) (hq : x.rest = .ok q) :
      Effect s (.listen w) ({ s with sm_slots := x.sm_slots }.setWorker w { s.workers w with
        client := x.client
        listener := match q with
          | some p => .callback p
          | none => State.rest (s.workers w) })
  | value_error (w : Fin n) (p : Progress) (hlisten : (s.workers w).listener = .callback p)
      (hx : (p.advance s.sm_slots (s.workers w).client).rest = .error .ValueError) :
      Effect s (.listen w) (s.report_error w (s.workers w) .INTERNAL_ERROR)
  | listen_raises (w : Fin n) (p : Progress) (e : Exn)
      (hlisten : (s.workers w).listener = .callback p)
      (hx : (p.advance s.sm_slots (s.workers w).client).rest = .error e) (he : e ≠ .ValueError) :
      Effect s (.listen w) (s.setWorker w { s.workers w with listener := .raised e })

section
variable {s t : State n}

theorem resume_cases {h : ℕ} (hst : s.resume h = some t) : Effect s (.resume h) t := by
  unfold State.resume at hst
  cases hpc : (s.handlers h).pc with
  | absent | pop | returned | raised => simp [hpc] at hst
  | put i =>
      simp only [hpc, Option.some.injEq] at hst
      exact hst ▸ .put h i hpc
  | poll i =>
      simp only [hpc, Option.ite_none_left_eq_some, not_lt, Option.some.injEq] at hst
      exact hst.2 ▸ .poll h i hpc hst.1
  | read i =>
      simp only [hpc, Option.some.injEq] at hst
      subst hst
      split
      · exact .empty h i hpc ‹_›
      · exact .read h i hpc ‹_›
  | copy i plen =>
      simp only [hpc, Option.some.injEq] at hst
      exact hst ▸ .copy h i plen hpc
  | reset i v =>
      simp only [hpc, Option.some.injEq] at hst
      exact hst ▸ .reset h i v hpc
  | add i v =>
      simp only [hpc, Option.some.injEq] at hst
      exact hst ▸ .add h i v hpc
  | leave v =>
      simp only [hpc, Option.some.injEq] at hst
      subst hst
      cases hb : body (s.handlers h).endpoint v with
      | ok b => exact .leave h v b hpc hb
      | error e => exact .fail h v e hpc hb

theorem report_cases {w : Fin n} (hst : s.report w = some t) : Effect s (.report w) t := by
  unfold State.report at hst
  cases hmain : (s.workers w).main with
  | report p =>
      simp only [hmain, Option.some.injEq] at hst
      exact hst ▸ .report w p _ hmain rfl
  | _ => simp [hmain] at hst

theorem listen_cases {w : Fin n} (hst : s.listen w = some t) : Effect s (.listen w) t := by
  unfold State.listen at hst
  cases hlisten : (s.workers w).listener with
  | callback p =>
      simp only [hlisten, Option.some.injEq] at hst
      subst hst
      split
      · exact .listen w p _ (some _) hlisten rfl ‹_›
      · exact .listen w p _ none hlisten rfl ‹_›
      · exact .value_error w p hlisten ‹_›
      · rename_i e hne hrest
        exact .listen_raises w p e hlisten hrest hne
  | _ => simp [hlisten] at hst

theorem step_cases {a : Action n} (hst : step s a = some t) : Effect s a t := by
  cases a with
  | call h endpoint text =>
      simp only [step, Option.ite_none_right_eq_some, Option.some.injEq] at hst
      exact hst.2 ▸ .call h endpoint text hst.1
  | pop h i =>
      cases i with
      | none =>
          simp only [step, Option.ite_none_right_eq_some, Option.some.injEq] at hst
          exact hst.2 ▸ .none_left h hst.1.1 hst.1.2
      | some i =>
          simp only [step, Option.ite_none_right_eq_some, Option.some.injEq] at hst
          exact hst.2 ▸ .pop h i hst.1.1 hst.1.2
  | resume h => exact resume_cases hst
  | fetch w =>
      simp only [step] at hst
      split at hst
      · cases hst
        exact .fetch w _ _ ‹_› ‹_›
      · cases hst
  | install w =>
      simp only [step] at hst
      split at hst
      · cases hst
        exact .install w _ ‹_›
      · cases hst
  | acquire w =>
      simp only [step] at hst
      split at hst
      · obtain ⟨c, hc, rfl⟩ := Option.map_eq_some_iff.mp hst
        exact .acquire w _ c ‹_› hc
      · cases hst
  | header w =>
      simp only [step] at hst
      split at hst
      · cases hst
        exact .header w _ ‹_›
      · cases hst
  | send w accepted =>
      simp only [step] at hst
      split at hst
      · cases accepted with
        | true =>
            cases hst
            exact .send w _ _ ‹_›
        | false =>
            cases hst
            exact .not_attempted w _ _ ‹_›
      · cases hst
  | report w => exact report_cases hst
  | drive w seq cmd value =>
      simp only [step] at hst
      split at hst
      · simp only [Option.ite_none_right_eq_some, Option.map_eq_some_iff] at hst
        obtain ⟨rfl, key, hkey, rfl⟩ := hst
        exact .drive w cmd value key ‹_› hkey
      · cases hst
  | bad_hmac w seq =>
      simp only [step] at hst
      split at hst
      · obtain ⟨key, hkey, rfl⟩ := Option.map_eq_some_iff.mp hst
        exact .bad_hmac w seq key ‹_› hkey
      · cases hst
  | timeout w =>
      simp only [step] at hst
      split at hst
      · simp only [Option.ite_none_right_eq_some, Option.some.injEq] at hst
        exact hst.2 ▸ .timeout w ‹_› hst.1
      · cases hst
  | socket_error w =>
      simp only [step] at hst
      split at hst
      · cases hst
        exact .socket_error w ‹_›
      · cases hst
  | listen w => exact listen_cases hst

end

end SmartDisk.SlotProtocol
