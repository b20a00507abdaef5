import SmartDisk.KeptState
import SmartDisk.Pipelines
import Mathlib.Algebra.Order.Field.Rat

/-!
# The pipelined benchmark and the plain one

`minidiamond` of `script/benchmark.py` counts the objects of a scope list, fetches
each and runs the filters on it. With `async_fetcher` the fetcher works in a thread of
its own and hands the objects over in a queue. An object carries what the fetcher and
the filters do with it. Rates and times are left out, and so is `use_mp`.
-/
namespace SmartDisk.Minidiamond
open ActionSystem KeptState Pipelines

inductive Exn where
  | ValueError
  | FetcherError
  | FilterError
  deriving DecidableEq, Repr

/-- `fetcher` gives `len(obj.data)`. -/
structure Obj where
  fetcher : Except Exn ℕ
  filters : Except Exn Unit

/-- An object with its data. -/
structure Fetched where
  data : ℕ
  filters : Except Exn Unit

structure Options where
  scopelist : List Obj
  limit : Option ℤ
  fetcher_only : Bool

structure Totals where
  count : ℕ := 0
  count_raw_bytes : ℕ := 0
  deriving DecidableEq, Repr

structure Info where
  image_count : ℕ
  total_MBytes : ℚ
  deriving DecidableEq

def Totals.info (t : Totals) : Info := ⟨t.count, t.count_raw_bytes / 1000000⟩

def maxint : ℤ := 9223372036854775807

/-- `islice(scopelist, 0, limit)`. -/
def Options.islice (o : Options) : Except Exn (List Obj) :=
  match o.limit with
  | none => .ok o.scopelist
  | some limit =>
      if 0 ≤ limit ∧ limit ≤ maxint then .ok (o.scopelist.take limit.toNat)
      else .error .ValueError

abbrev Counting := ExceptT Exn (StateM Totals)

/-- The filters, and the attributes that are logged when there are any. -/
def Options.run_filters (o : Options) (filters : Except Exn Unit) : Counting Unit :=
  if o.fetcher_only then pure () else liftM filters

def Totals.counted (t : Totals) : Totals := { t with count := t.count + 1 }

def Totals.add_bytes (t : Totals) (data : ℕ) : Totals :=
  { t with count_raw_bytes := t.count_raw_bytes + data }

/-! ### Without a thread -/

/-- The body of the loop. Whatever the fetcher or a filter raises is caught. -/
def Options.plain_body (o : Options) (obj : Obj) : Counting Unit := do
  modify Totals.counted
  tryCatch (do
    let data ← liftM obj.fetcher
    modify fun t => t.add_bytes data
    o.run_filters obj.filters) fun _ => pure ()

def Options.plain_loop (o : Options) : List Obj → Counting Unit
  | [] => pure ()
  | obj :: objs => do
      o.plain_body obj
      o.plain_loop objs

/-- `minidiamond(async_fetcher=False)`. -/
def Options.plain (o : Options) : Except Exn Info := do
  let objs ← o.islice
  match (o.plain_loop objs).run.run {} with
  | (.ok (), t) => pure t.info
  | (.error e, _) => .error e

/-! ### With a thread -/

/-- The body of `do_fetcher`'s loop, up to the put. -/
def do_fetcher (obj : Obj) : Except Exn Fetched := do
  let data ← obj.fetcher
  pure ⟨data, obj.filters⟩

/-- What is done with an object from the queue. The filters alone are in the `try`. -/
def Options.consumer_body (o : Options) (obj : Fetched) : Counting Unit := do
  modify Totals.counted
  modify fun t => t.add_bytes obj.data
  tryCatch (o.run_filters obj.filters) fun _ => pure ()

/-- `minidiamond(async_fetcher=True)`. -/
def Options.pipeline (o : Options) : Pipeline Exn Obj Fetched Totals where
  jobs := o.islice
  produce := do_fetcher
  consume obj t := ((o.consumer_body obj).run.run t).2
  init := {}
  capacity := 100
  capacity_pos := Nat.succ_pos 99

def Options.threads (o : Options) : System (State Exn Obj Fetched Totals) Pipelines.Action :=
  system o.pipeline

/-- No interleaving goes on for ever, and each ends with the report of the plain loop. -/
structure Agree (o : Options) : Prop where
  bounded : ∃ n, ∀ as t, o.threads.exec as o.threads.start = some t → as.length ≤ n
  reports : ∀ s, o.threads.Reachable s → o.threads.Stuck s →
    s.consumer = .finished ∧ o.plain = .ok s.total.info

/-! ### What one object adds -/

section
variable (o : Options)

theorem run_filters_run (filters : Except Exn Unit) (t : Totals) :
    ∃ r, (o.run_filters filters).run.run t = (r, t) := by
  unfold Options.run_filters
  by_cases h : o.fetcher_only = true
  · rw [if_pos h]
    exact ⟨.ok (), rfl⟩
  · rw [if_neg h]
    cases filters with
    | ok u => exact ⟨.ok u, liftM_ok rfl t⟩
    | error e => exact ⟨.error e, liftM_raises rfl t⟩

theorem consumer_body_run (obj : Fetched) (t : Totals) :
    (o.consumer_body obj).run.run t = (.ok (), t.counted.add_bytes obj.data) := by
  obtain ⟨r, hr⟩ := run_filters_run o obj.filters (t.counted.add_bytes obj.data)
  unfold Options.consumer_body
  rw [modify_bind, modify_bind]
  exact tryCatch_run hr

theorem plain_body_ok {obj : Obj} {data : ℕ} (h : obj.fetcher = .ok data) (t : Totals) :
    (o.plain_body obj).run.run t = (.ok (), t.counted.add_bytes data) := by
  obtain ⟨r, hr⟩ := run_filters_run o obj.filters (t.counted.add_bytes data)
  unfold Options.plain_body
  rw [modify_bind]
  apply tryCatch_run
  rw [bind_ok (liftM_ok h t.counted), modify_bind]
  exact hr

/-- An object that cannot be fetched is counted. -/
theorem plain_body_raises {obj : Obj} {e : Exn} (h : obj.fetcher = .error e) (t : Totals) :
    (o.plain_body obj).run.run t = (.ok (), t.counted) := by
  unfold Options.plain_body
  rw [modify_bind]
  exact tryCatch_run (bind_raises (liftM_raises h t.counted) _)

/-- The plain loop raises nothing and counts every object. -/
theorem plain_loop_run (objs : List Obj) (t : Totals) :
    ∃ t', (o.plain_loop objs).run.run t = (.ok (), t') ∧ t'.count = t.count + objs.length := by
  induction objs generalizing t with
  | nil => exact ⟨t, rfl, rfl⟩
  | cons obj objs ih =>
      unfold Options.plain_loop
      cases h : obj.fetcher with
      | ok data =>
          obtain ⟨t', hrun, hcount⟩ := ih (t.counted.add_bytes data)
          rw [bind_ok (plain_body_ok o h t)]
          exact ⟨t', hrun, hcount.trans (Nat.succ_add_eq_add_succ _ _)⟩
      | error e =>
          obtain ⟨t', hrun, hcount⟩ := ih t.counted
          rw [bind_ok (plain_body_raises o h t)]
          exact ⟨t', hrun, hcount.trans (Nat.succ_add_eq_add_succ _ _)⟩

theorem plain_ok {objs : List Obj} {t : Totals} (hobjs : o.islice = .ok objs)
    (hrun : (o.plain_loop objs).run.run {} = (.ok (), t)) : o.plain = .ok t.info := by
  unfold Options.plain
  rw [hobjs]
  change (match (o.plain_loop objs).run.run {} with
    | (.ok (), t) => pure t.info
    | (.error e, _) => .error e : Except Exn Info) = _
  rw [hrun]
  rfl

/-- Without a thread there is a report whenever the limit is accepted. -/
theorem plain_reports {objs : List Obj} (hobjs : o.islice = .ok objs) :
    ∃ info, o.plain = .ok info ∧ info.image_count = objs.length := by
  obtain ⟨t, hrun, hcount⟩ := plain_loop_run o objs {}
  exact ⟨t.info, plain_ok o hobjs hrun, hcount.trans (Nat.zero_add _)⟩

/-- When every fetch succeeds the plain loop adds up what the consumer adds up. -/
theorem plain_loop_consumes {objs : List Obj} (h : ∀ obj ∈ objs, ∃ data, obj.fetcher = .ok data)
    (t : Totals) : (o.plain_loop objs).run.run t =
      (.ok (), (made o.pipeline objs).foldl (fun t x => o.pipeline.consume x t) t) := by
  induction objs generalizing t with
  | nil => rfl
  | cons obj objs ih =>
      obtain ⟨data, hdata⟩ := h obj List.mem_cons_self
      have hfetched : o.pipeline.produce obj = .ok ⟨data, obj.filters⟩ := by
        change do_fetcher obj = _
        unfold do_fetcher
        rw [hdata]
        rfl
      have hmade : made o.pipeline (obj :: objs) =
          ⟨data, obj.filters⟩ :: made o.pipeline objs := by
        unfold made
        rw [List.filterMap_cons, hfetched]
        rfl
      have hconsume : o.pipeline.consume ⟨data, obj.filters⟩ t = t.counted.add_bytes data :=
        congrArg Prod.snd (consumer_body_run o ⟨data, obj.filters⟩ t)
      unfold Options.plain_loop
      rw [bind_ok (plain_body_ok o hdata t), hmade, List.foldl_cons, hconsume]
      exact ih (fun obj hobj => h obj (List.mem_cons_of_mem _ hobj)) _

end

/-! ### Agreement -/

variable {o : Options} {objs : List Obj}

theorem do_fetcher_ok {obj : Obj} {data : ℕ} (h : obj.fetcher = .ok data) :
    ∃ x, o.pipeline.produce obj = .ok x := by
  refine ⟨⟨data, obj.filters⟩, ?_⟩
  change do_fetcher obj = _
  unfold do_fetcher
  rw [h]
  rfl

theorem do_fetcher_raises {obj : Obj} {e : Exn} (h : obj.fetcher = .error e) :
    o.pipeline.produce obj = .error e := by
  change do_fetcher obj = _
  unfold do_fetcher
  rw [h]
  rfl

theorem agree_of_fetched (hobjs : o.islice = .ok objs)
    (h : ∀ obj ∈ objs, ∃ data, obj.fetcher = .ok data) : Agree o where
  bounded := by
    refine ⟨rank o.pipeline o.threads.start, fun as t ht => ?_⟩
    have hle := System.length_le_rank (rank o.pipeline) (I := fun _ => True)
      (fun _ _ _ _ _ _ => trivial) (fun a s t _ _ => step_rank_lt a s t) as trivial
      (System.Guarded.trivial as _) ht
    omega
  reports := by
    intro s hs hstuck
    have hok : ∀ obj ∈ objs, ∃ x, o.pipeline.produce obj = .ok x := by
      intro obj hobj
      obtain ⟨data, hdata⟩ := h obj hobj
      exact do_fetcher_ok hdata
    obtain ⟨hdone, htotal⟩ := finishes (c := o.pipeline) hobjs hok hs hstuck
    rw [htotal]
    exact ⟨hdone, plain_ok o hobjs (plain_loop_consumes o h {})⟩

/-- A thread that dies leaves no sentinel. -/
theorem no_sentinel (h : ∀ objs, o.islice = .ok objs → ∃ obj ∈ objs, ∃ e, obj.fetcher = .error e) :
    none ∉ all_entries o.pipeline := by
  unfold all_entries
  cases hobjs : o.pipeline.jobs with
  | error e => exact List.not_mem_nil
  | ok objs =>
      obtain ⟨obj, hobj, e, he⟩ := h objs hobjs
      exact not_mem_entries hobj (do_fetcher_raises he)

/-- Then every interleaving ends with the consumer waiting for ever. -/
theorem hangs (h : ∀ objs, o.islice = .ok objs → ∃ obj ∈ objs, ∃ e, obj.fetcher = .error e) :
    ∃ s, o.threads.Reachable s ∧ o.threads.Stuck s ∧ s.consumer = .getting ∧ s.q = [] := by
  obtain ⟨s, hs, hstuck⟩ :=
    System.exists_stuck (rank o.pipeline) step_rank_lt (M := o.threads) .start
  exact ⟨s, hs, hstuck, waits_forever (no_sentinel h) hs hstuck⟩

theorem not_agree (h : ∀ objs, o.islice = .ok objs → ∃ obj ∈ objs, ∃ e, obj.fetcher = .error e) :
    ¬ Agree o := by
  intro hagree
  obtain ⟨s, hs, hstuck, hget, -⟩ := hangs h
  have hdone := (hagree.reports s hs hstuck).1
  rw [hget] at hdone
  cases hdone

/-- The two variants agree if and only if `limit` is accepted and the fetcher raises on none of
the objects up to it. What the filters raise makes no difference. -/
theorem agree_iff (o : Options) :
    Agree o ↔ ∃ objs, o.islice = .ok objs ∧ ∀ obj ∈ objs, ∃ data, obj.fetcher = .ok data := by
  constructor
  · intro hagree
    by_contra hnot
    refine not_agree (o := o) (fun objs hobjs => ?_) hagree
    by_contra hall
    refine hnot ⟨objs, hobjs, fun obj hobj => ?_⟩
    cases h : obj.fetcher with
    | ok data => exact ⟨data, rfl⟩
    | error e => exact absurd ⟨obj, hobj, e, h⟩ hall
  · rintro ⟨objs, hobjs, h⟩
    exact agree_of_fetched hobjs h

/-- One object that cannot be fetched. -/
def unreadable : Options where
  scopelist := [⟨.error .FetcherError, .ok ()⟩]
  limit := none
  fetcher_only := false

/-- The plain loop reports one image, and with a thread nothing is ever reported. -/
theorem unreadable_disagrees :
    unreadable.plain = .ok ⟨1, 0⟩ ∧ ¬ Agree unreadable := by
  refine ⟨by decide +kernel, not_agree fun objs hobjs => ?_⟩
  cases hobjs
  exact ⟨_, List.mem_singleton_self _, .FetcherError, rfl⟩

end SmartDisk.Minidiamond
