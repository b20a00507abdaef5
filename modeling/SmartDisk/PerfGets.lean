import SmartDisk.JoinablePools
import Mathlib.Algebra.BigOperators.Group.Finset.Basic
import Mathlib.Data.List.Perm.Basic

/-!
# Getting a whole directory

`app_get` of `s3dexp/kinetic/perf.py` hands the keys to processes through a joinable queue, and
`proxy_get` deals them out in advance, every `num_threads`-th key to one process. Both add up how
many keys they got and how many bytes. A request that raises ends an `app_get` process, and makes
`proxy_get` raise.
-/
namespace SmartDisk.PerfGets
open ActionSystem JoinablePools

variable {Key E : Type}

/-! ### The queue -/

theorem queue_room : 0 < 100 := Nat.succ_pos 99

/-- The processes of `app_get`; `content` is what `requests.get` answers for a key, unless it
raises. -/
def app_get (num_threads : ℕ) (content : Key → Except E (List UInt8)) (key_list : List Key) :
    Pool Key (ℕ × ℕ) num_threads where
  jobs := key_list
  construct _ := true
  work key :=
    match content key with
    | .ok content => some (1, content.length)
    | .error _ => none
  capacity := 100
  capacity_pos := queue_room

/-- Every key is answered. -/
def Answered (content : Key → Except E (List UInt8)) (key_list : List Key) : Prop :=
  ∀ key ∈ key_list, ∃ answer, content key = .ok answer

/-- The number of bytes of an answer. -/
def size (content : Key → Except E (List UInt8)) (key : Key) : ℕ :=
  ((content key).toOption.getD []).length

/-- The number of keys and of bytes. -/
def stats (content : Key → Except E (List UInt8)) (key_list : List Key) : ℕ × ℕ :=
  (key_list.length, (key_list.map (size content)).sum)

variable {content : Key → Except E (List UInt8)} {key_list : List Key} {num_threads : ℕ}

theorem stats_cons (key : Key) (key_list : List Key) :
    stats content (key :: key_list) = (1, size content key) + stats content key_list := by
  unfold stats
  rw [List.length_cons, List.map_cons, List.sum_cons, Nat.add_comm key_list.length]
  rfl

theorem stats_append (keys keys' : List Key) :
    stats content (keys ++ keys') = stats content keys + stats content keys' := by
  unfold stats
  rw [List.length_append, List.map_append, List.sum_append]
  rfl

theorem stats_perm {keys keys' : List Key} (h : keys.Perm keys') :
    stats content keys = stats content keys' := by
  unfold stats
  rw [h.length_eq, (h.map _).sum_eq]

theorem app_get_sound_iff : (app_get num_threads content key_list).Sound ↔
    Answered content key_list ∧ (key_list ≠ [] → 0 < num_threads) := by
  constructor
  · intro h
    refine ⟨fun key hkey => ?_, h.staffed⟩
    obtain ⟨m, hm⟩ := h.work key hkey
    cases hanswer : content key with
    | ok answer => exact ⟨answer, rfl⟩
    | error e =>
      simp only [app_get, hanswer] at hm
      cases hm
  · rintro ⟨hanswered, hstaffed⟩
    refine ⟨fun _ => rfl, fun key hkey => ?_, hstaffed⟩
    obtain ⟨answer, hanswer⟩ := hanswered key hkey
    exact ⟨(1, answer.length), by simp only [app_get, hanswer]⟩

theorem app_get_values (keys : List Key) (hanswered : Answered content keys) :
    (app_get num_threads content key_list).values keys = stats content keys := by
  induction keys with
  | nil => rfl
  | cons key keys ih =>
    obtain ⟨answer, hanswer⟩ := hanswered key List.mem_cons_self
    have hvalue : (app_get num_threads content key_list).value key = (1, size content key) := by
      simp only [Pool.value, app_get, size, hanswer]
      rfl
    rw [Pool.values_cons, stats_cons, hvalue,
      ih fun key hkey => hanswered key (List.mem_cons_of_mem _ hkey)]

/-! ### Dealing out -/

/-- `key_list[i::n]` -/
def slice_step (n : ℕ) : ℕ → List Key → List Key
  | _, [] => []
  | 0, key :: key_list => key :: slice_step n (n - 1) key_list
  | i + 1, _ :: key_list => slice_step n i key_list

/-- The slices with one step deal out the list. -/
theorem slice_step_perm (n : ℕ) (key_list : List Key) :
    ((List.range (n + 1)).flatMap fun i => slice_step (n + 1) i key_list).Perm key_list := by
  induction key_list with
  | nil =>
    rw [List.flatMap_eq_nil_iff.mpr fun i _ => by cases i <;> rfl]
  | cons key key_list ih =>
    have hrest : ((List.range (n + 1)).flatMap fun i => slice_step (n + 1) i key_list) =
        ((List.range n).flatMap fun i => slice_step (n + 1) i key_list) ++
          slice_step (n + 1) n key_list := by
      rw [List.range_succ, List.flatMap_append, List.flatMap_singleton]
    have hdealt : ((List.range (n + 1)).flatMap fun i => slice_step (n + 1) i (key :: key_list)) =
        key :: (slice_step (n + 1) n key_list ++
          (List.range n).flatMap fun i => slice_step (n + 1) i key_list) := by
      rw [List.range_succ_eq_map, List.flatMap_cons, List.flatMap_map]
      rfl
    rw [hdealt]
    rw [hrest] at ih
    exact (List.perm_append_comm.trans ih).cons key

inductive Exn (E : Type) where
  | AssertionError
  | raised (e : E)

/-- `_proxy_get_fn`, from these counts on; `content` is what the proxy's client answers. -/
def proxy_get_fn (content : Key → Except E (List UInt8)) (count size : ℕ) :
    List Key → Except E (ℕ × ℕ)
  | [] => .ok (count, size)
  | key :: key_list => do
      let res ← content key
      proxy_get_fn content (count + 1) (size + res.length) key_list

def sublists (num_threads : ℕ) (key_list : List Key) : List (List Key) :=
  (List.range num_threads).map fun i => slice_step num_threads i key_list

def sum_stats (stats : List (ℕ × ℕ)) : ℕ × ℕ :=
  ((stats.map Prod.fst).sum, (stats.map Prod.snd).sum)

/-- The sublists are `completed` in an order of their own: `pool.map` raises what the first of
them raises. The result is what is printed. -/
def proxy_get (content : Key → Except E (List UInt8)) (num_threads : ℕ) (key_list : List Key)
    (completed : List (List Key)) : Except (Exn E) (ℕ × ℕ) :=
  let first := completed.mapM (proxy_get_fn content 0 0)
  match first, (sublists num_threads key_list).mapM (proxy_get_fn content 0 0) with
  | .error e, _ => .error (.raised e)
  | _, .error e => .error (.raised e)
  | .ok _, .ok stats =>
      if (sum_stats stats).1 = key_list.length then .ok (sum_stats stats)
      else .error .AssertionError

theorem proxy_get_fn_ok (count size : ℕ) (keys : List Key) (hanswered : Answered content keys) :
    proxy_get_fn content count size keys = .ok ((count, size) + stats content keys) := by
  induction keys generalizing count size with
  | nil => rfl
  | cons key keys ih =>
    obtain ⟨answer, hanswer⟩ := hanswered key List.mem_cons_self
    have hsize : PerfGets.size content key = answer.length := by
      unfold PerfGets.size
      rw [hanswer]
      rfl
    unfold proxy_get_fn
    rw [hanswer]
    change proxy_get_fn content (count + 1) (size + answer.length) keys = _
    rw [ih _ _ fun key hkey => hanswered key (List.mem_cons_of_mem _ hkey), stats_cons, hsize,
      ← add_assoc]
    rfl

/-- What is raised is what a key has raised. -/
theorem proxy_get_fn_error (count size : ℕ) (keys : List Key) (h : ¬ Answered content keys) :
    ∃ key ∈ keys, ∃ e, content key = .error e ∧
      proxy_get_fn content count size keys = .error e := by
  induction keys generalizing count size with
  | nil => exact absurd nofun h
  | cons key keys ih =>
    unfold proxy_get_fn
    cases hanswer : content key with
    | error e => exact ⟨key, List.mem_cons_self, e, hanswer, rfl⟩
    | ok answer =>
      have hrest : ¬ Answered content keys := by
        intro hrest
        refine h fun key' hkey' => ?_
        rcases List.mem_cons.mp hkey' with rfl | hkey'
        · exact ⟨answer, hanswer⟩
        · exact hrest key' hkey'
      obtain ⟨key', hkey', e, he, hraised⟩ := ih (count + 1) (size + answer.length) hrest
      exact ⟨key', List.mem_cons_of_mem _ hkey', e, he, hraised⟩

theorem mapM_ok (lists : List (List Key)) (hanswered : ∀ keys ∈ lists, Answered content keys) :
    lists.mapM (proxy_get_fn content 0 0) = .ok (lists.map (stats content)) := by
  induction lists with
  | nil => rfl
  | cons keys lists ih =>
    rw [List.mapM_cons, proxy_get_fn_ok 0 0 keys (hanswered keys List.mem_cons_self),
      ih fun keys' h => hanswered keys' (List.mem_cons_of_mem _ h), List.map_cons]
    change Except.ok (((0, 0) + stats content keys) :: _) = _
    rw [show (0, 0) + stats content keys = stats content keys from zero_add _]

theorem mapM_error (lists : List (List Key)) (h : ¬ ∀ keys ∈ lists, Answered content keys) :
    ∃ keys ∈ lists, ∃ key ∈ keys, ∃ e, content key = .error e ∧
      lists.mapM (proxy_get_fn content 0 0) = .error e := by
  induction lists with
  | nil => exact absurd nofun h
  | cons keys lists ih =>
    by_cases hkeys : Answered content keys
    · have hrest : ¬ ∀ keys ∈ lists, Answered content keys := by
        intro hrest
        exact h (List.forall_mem_cons.mpr ⟨hkeys, hrest⟩)
      obtain ⟨keys', hkeys', key, hkey, e, he, hraised⟩ := ih hrest
      refine ⟨keys', List.mem_cons_of_mem _ hkeys', key, hkey, e, he, ?_⟩
      rw [List.mapM_cons, proxy_get_fn_ok 0 0 keys hkeys, hraised]
      rfl
    · obtain ⟨key, hkey, e, he, hraised⟩ := proxy_get_fn_error 0 0 keys hkeys
      refine ⟨keys, List.mem_cons_self, key, hkey, e, he, ?_⟩
      rw [List.mapM_cons, hraised]
      rfl

theorem sublists_perm (n : ℕ) (key_list : List Key) :
    (sublists (n + 1) key_list).flatten.Perm key_list := by
  have h := slice_step_perm n key_list
  rw [List.flatMap_def] at h
  exact h

theorem sum_stats_eq (lists : List (List Key)) :
    sum_stats (lists.map (stats content)) = stats content lists.flatten := by
  induction lists with
  | nil => rfl
  | cons keys lists ih =>
    rw [List.flatten_cons, stats_append, ← ih]
    rfl

theorem answered_sublists (n : ℕ) {completed : List (List Key)}
    (hcompleted : completed.Perm (sublists (n + 1) key_list)) :
    (∀ keys ∈ completed, Answered content keys) ↔ Answered content key_list := by
  have hperm : completed.flatten.Perm key_list :=
    hcompleted.flatten.trans (sublists_perm n key_list)
  constructor
  · intro h key hkey
    obtain ⟨keys, hkeys, hmem⟩ := List.mem_flatten.mp (hperm.mem_iff.mpr hkey)
    exact h keys hkeys key hmem
  · intro h keys hkeys key hkey
    exact h key (hperm.mem_iff.mp (List.mem_flatten.mpr ⟨keys, hkeys, hkey⟩))

/-- Whatever the order of the processes. -/
theorem proxy_get_ok {num_threads : ℕ} (hthreads : 0 < num_threads)
    (hanswered : Answered content key_list) {completed : List (List Key)}
    (hcompleted : completed.Perm (sublists num_threads key_list)) :
    proxy_get content num_threads key_list completed = .ok (stats content key_list) := by
  obtain ⟨n, rfl⟩ : ∃ n, num_threads = n + 1 := ⟨num_threads - 1, by omega⟩
  have hall := (answered_sublists n hcompleted).mpr hanswered
  have hsublists := (answered_sublists n (.refl _)).mpr hanswered
  have hstats : sum_stats ((sublists (n + 1) key_list).map (stats content)) =
      stats content key_list :=
    (sum_stats_eq _).trans (stats_perm (sublists_perm n key_list))
  unfold proxy_get
  simp only [mapM_ok _ hall, mapM_ok _ hsublists, hstats]
  exact if_pos rfl

/-! ### Both -/

/-- As many bytes as the key says, and no answer for 5. -/
def answers (key : ℕ) : Except Unit (List UInt8) :=
  if key = 5 then .error () else .ok (List.replicate key 0)

theorem answered_three : Answered answers [1, 2, 3] := by
  intro key hkey
  have hne : key ≠ 5 := by
    rintro rfl
    exact absurd hkey (by decide)
  exact ⟨_, if_neg hne⟩

theorem not_answered_five : ¬ Answered answers [1, 5, 3] := by
  intro h
  obtain ⟨answer, hanswer⟩ := h 5 (by decide)
  cases hanswer

end SmartDisk.PerfGets
