import Mathlib.Order.Basic
import SmartDisk.BBFS

/-!
# What `bb_open` reports

`bb_open` and `swallow_file` of `fuse/src/bbfs.c` once more, now over every outcome that
the calls on the two files may have. Which names the files have does not matter here, and
log messages are left out again. A call that succeeds leaves `errno` alone, as the library
functions between the calls do; a call on a descriptor that was never opened fails with
`EBADF`. The process counts the bytes of the original that `read` delivered.

Integers have the widths of a 64-bit Linux: `off_t`, `long` and `size_t` have 64 bits and
`int` has 32.
-/
namespace SmartDisk.OpenOutcomes
open BBFS (FileInfo EBADF to_int)

/-- A failed call sets `errno` to a positive number. -/
abbrev Errno := {e : ℤ // 0 < e}

structure Outcomes where
  stat : Except Errno Int64
  open_ : Except Errno ℕ
  /-- What the calls of `read` have for the process, in their order. -/
  read : ℕ → Except Errno ℕ
  close : Except Errno Unit
  decoded : Except Errno ℕ

structure Process where
  errno : ℤ
  reads : ℕ := 0
  bytes : ℕ := 0

variable (o : Outcomes)

/-- A conversion to `size_t`. -/
def to_size_t (n : ℤ) : UInt64 := UInt64.ofInt n

def open_ (outcome : Except Errno ℕ) (p : Process) : ℤ × Process :=
  match outcome with
  | .ok fd => (fd, p)
  | .error e => (-1, { p with errno := e })

/-- At most `count` bytes are delivered. -/
def read (fd : ℤ) (count : UInt64) (p : Process) : ℤ × Process :=
  if fd < 0 then (-1, { p with errno := EBADF })
  else
    match o.read p.reads with
    | .error e => (-1, { p with errno := e, reads := p.reads + 1 })
    | .ok n =>
        let rv : ℕ := min n count.toNat
        (rv, { p with reads := p.reads + 1, bytes := p.bytes + rv })

def close (fd : ℤ) (p : Process) : Process :=
  if fd < 0 then { p with errno := EBADF }
  else
    match o.close with
    | .ok () => p
    | .error e => { p with errno := e }

def find_size (p : Process) : ℤ × Process :=
  match o.stat with
  | .ok st_size => (st_size.toInt, p)
  | .error e => (-1, { p with errno := e })

/-- The loop of `swallow_file`. It has no result while the fuel is not enough. -/
def read_loop (fd sz : ℤ) : ℕ → UInt64 → Process → Option (UInt64 × Process)
  | 0, _, _ => none
  | fuel + 1, count, p =>
    if count < to_size_t sz then
      let (n, p) := read o fd (to_size_t sz - count) p
      let rv := to_int n
      if rv ≤ 0 then some (count, p) else read_loop fd sz fuel (count + to_size_t rv) p
    else some (count, p)

def swallow_file (fuel : ℕ) (p : Process) : Option (ℤ × Process) := do
  let (size, p) := find_size o p
  let sz := to_int size
  if sz < 0 then return (-1, p)
  else
    let (fd, p) := open_ o.open_ p
    let (count, p) ← read_loop o fd sz fuel 0 p
    return (if count = to_size_t sz then sz else -1, close o fd p)

def log_error (p : Process) : ℤ := -p.errno

def log_syscall (retstat min_ret : ℤ) (p : Process) : ℤ :=
  if retstat < min_ret then -p.errno else retstat

def bb_open (fuel : ℕ) (fi : FileInfo) (p : Process) : Option (ℤ × FileInfo × Process) := do
  let (sz, p) ← swallow_file o fuel p
  if sz < 0 then return (log_error p, fi, p)
  else
    let (retstat, p) := open_ o.decoded p
    let fd := log_syscall retstat 0 p
    return (if fd < 0 then log_error p else 0, { fi with fh := fd }, p)

/-! ### What is claimed of it -/

/-- The original was opened and read to the end of the size that `stat` reports. -/
def Complete (p : Process) : Prop :=
  ∃ size fd, o.stat = .ok size ∧ o.open_ = .ok fd ∧ size.toInt = p.bytes

/-- `bb_open` returns 0 and the descriptor, or a negative number. -/
def Truthful (retstat : ℤ) (fi : FileInfo) (p : Process) : Prop :=
  (retstat = 0 ↔ Complete o p ∧ ∃ fd, o.decoded = .ok fd) ∧
  (retstat = 0 → ∃ fd : ℕ, o.decoded = .ok fd ∧ fi.fh = fd) ∧
  (retstat ≠ 0 → retstat < 0)

/-! ### Sequences of reads -/

/-- What one `read` offers. -/
def offered : Except Errno ℕ → ℕ
  | .ok n => n
  | .error _ => 0

/-- What the first `n` calls of `read` offer. -/
def total (read : ℕ → Except Errno ℕ) : ℕ → ℕ
  | 0 => 0
  | n + 1 => total read n + offered (read n)

/-- The calls bring `need` bytes before one of them brings none. -/
def Delivers (read : ℕ → Except Errno ℕ) (need : ℕ) : Prop :=
  ∃ n, (∀ i < n, 0 < offered (read i)) ∧ need ≤ total read n

/-- Call `n` is the first to bring nothing, and there is less than `need` before it. -/
def EndsAt (read : ℕ → Except Errno ℕ) (need n : ℕ) : Prop :=
  (∀ i < n, 0 < offered (read i)) ∧ total read n < need ∧ offered (read n) = 0

theorem total_mono (read : ℕ → Except Errno ℕ) {m n : ℕ} (h : m ≤ n) :
    total read m ≤ total read n := by
  induction h with
  | refl => exact Nat.le_refl _
  | step _ ih => rw [total]; omega

/-- The calls cannot both bring enough and end before it. -/
theorem Delivers.not_endsAt {read : ℕ → Except Errno ℕ} {need n : ℕ}
    (h : Delivers read need) : ¬ EndsAt read need n := by
  intro hend
  obtain ⟨m, hm, hneed⟩ := h
  obtain ⟨-, hless, hzero⟩ := hend
  by_cases hmn : m ≤ n
  · have hle := total_mono read hmn
    omega
  · have hpos := hm n (by omega)
    omega

theorem EndsAt.unique {read : ℕ → Except Errno ℕ} {need m n : ℕ} (hm : EndsAt read need m)
    (hn : EndsAt read need n) : m = n := by
  rcases Nat.lt_trichotomy m n with h | h | h
  · have hpos := hn.1 m h
    have hzero := hm.2.2
    omega
  · exact h
  · have hpos := hm.1 n h
    have hzero := hn.2.2
    omega

/-! ### Conversions -/

theorem to_int_eq {n : ℤ} (h0 : 0 ≤ n) (h : n < 2147483648) : to_int n = n := by
  have hsize : (Int32.size : ℤ) = 4294967296 := rfl
  unfold to_int
  rw [Int32.toInt_ofInt, Int.bmod_def, hsize]
  omega

theorem to_int_lt (n : ℤ) : to_int n < 2147483648 := Int32.toInt_lt _

theorem to_size_t_toNat {n : ℤ} (h0 : 0 ≤ n) (h : n < 2147483648) :
    (to_size_t n).toNat = n.toNat := by
  have hmod : (n % 2 ^ 64).toNat = n.toNat := by omega
  unfold to_size_t UInt64.ofInt
  rw [hmod]
  exact UInt64.toNat_ofNat_of_lt' (by unfold UInt64.size; omega)

/-! ### The loop -/

section
variable {o : Outcomes}

/-- `errno` after a call of `read`. -/
def after (read : Except Errno ℕ) (errno : ℤ) : ℤ :=
  match read with
  | .ok _ => errno
  | .error e => e

theorem read_ok {fd : ℤ} (hfd : 0 ≤ fd) (count : UInt64) {p : Process} {n : ℕ}
    (h : o.read p.reads = .ok n) :
    read o fd count p = (((min n count.toNat : ℕ) : ℤ),
      { p with reads := p.reads + 1, bytes := p.bytes + min n count.toNat }) := by
  unfold read
  rw [if_neg (by omega), h]

theorem read_error {fd : ℤ} (hfd : 0 ≤ fd) (count : UInt64) {p : Process} {e : Errno}
    (h : o.read p.reads = .error e) :
    read o fd count p = (-1, { p with errno := e, reads := p.reads + 1 }) := by
  unfold read
  rw [if_neg (by omega), h]

/-- What the loop ends with: all of it, or the sum at the call that brought nothing. -/
def Ended (o : Outcomes) (sz : ℕ) (errno : ℤ) (count : UInt64) (p : Process) : Prop :=
  p.bytes = count.toNat ∧
    (Delivers o.read sz ∧ count.toNat = sz ∧ p.errno = errno ∨
      ∃ n, EndsAt o.read sz n ∧ count.toNat < sz ∧ p.errno = after (o.read n) errno)

theorem read_loop_ends {fd sz : ℤ} (hfd : 0 ≤ fd) (h0 : 0 ≤ sz) (hsz : sz < 2147483648)
    (fuel : ℕ) (count : UInt64) (p : Process) (hbytes : p.bytes = count.toNat)
    (hcount : count.toNat = min (total o.read p.reads) sz.toNat)
    (hreads : ∀ i < p.reads, 0 < offered (o.read i)) (hfuel : sz.toNat < count.toNat + fuel) :
    ∃ count' p', read_loop o fd sz fuel count p = some (count', p') ∧
      Ended o sz.toNat p.errno count' p' := by
  have hsize := to_size_t_toNat h0 hsz
  induction fuel generalizing count p with
  | zero => omega
  | succ fuel ih =>
    unfold read_loop
    by_cases hmore : count < to_size_t sz
    · have hlt : count.toNat < sz.toNat := by
        rw [← hsize]
        exact UInt64.lt_iff_toNat_lt.mp hmore
      have hleft : (to_size_t sz - count).toNat = sz.toNat - count.toNat := by
        rw [UInt64.toNat_sub_of_le _ _ (UInt64.le_of_lt hmore), hsize]
      rw [if_pos hmore]
      cases hread : o.read p.reads with
      | error e =>
        rw [read_error hfd _ hread]
        refine ⟨count, _, rfl, hbytes, .inr ⟨p.reads, ⟨hreads, by omega, ?_⟩, hlt, ?_⟩⟩
        · rw [hread, offered]
        · rw [hread, after]
      | ok n =>
        rw [read_ok hfd _ hread, hleft]
        simp only
        have hrv : to_int ((min n (sz.toNat - count.toNat) : ℕ) : ℤ) =
            (min n (sz.toNat - count.toNat) : ℕ) := to_int_eq (by omega) (by omega)
        rw [hrv]
        by_cases hn : n = 0
        · rw [if_pos (by omega)]
          refine ⟨count, _, rfl, by simp only; omega,
            .inr ⟨p.reads, ⟨hreads, by omega, ?_⟩, hlt, ?_⟩⟩
          · rw [hread, offered, hn]
          · rw [hread, after]
        · -- the call brings something, and the next one goes on from there
          have hadd : (count + to_size_t (min n (sz.toNat - count.toNat) : ℕ)).toNat =
              count.toNat + min n (sz.toNat - count.toNat) := by
            rw [UInt64.toNat_add, to_size_t_toNat (by omega) (by omega), Int.toNat_natCast]
            omega
          rw [if_neg (by omega)]
          apply ih
          · rw [hadd, hbytes]
          · rw [hadd, total, hread, offered]
            omega
          · intro i hi
            rcases Nat.lt_succ_iff_lt_or_eq.mp hi with hi | rfl
            · exact hreads i hi
            · rw [hread, offered]
              omega
          · rw [hadd]
            omega
    · have hge := UInt64.le_iff_toNat_le.mp (UInt64.not_lt.mp hmore)
      have hall : count.toNat = sz.toNat := by omega
      rw [if_neg hmore]
      exact ⟨count, p, rfl, hbytes, .inl ⟨⟨p.reads, hreads, by omega⟩, hall, rfl⟩⟩

theorem read_loop_mono {fd sz : ℤ} {fuel fuel' : ℕ} (h : fuel ≤ fuel') {count : UInt64}
    {p : Process} {r : UInt64 × Process} (hr : read_loop o fd sz fuel count p = some r) :
    read_loop o fd sz fuel' count p = some r := by
  induction fuel generalizing fuel' count p with
  | zero => cases hr
  | succ fuel ih =>
    obtain ⟨k, rfl⟩ : ∃ k, fuel' = k + 1 := ⟨fuel' - 1, by omega⟩
    unfold read_loop at hr ⊢
    by_cases hmore : count < to_size_t sz
    · rw [if_pos hmore] at hr ⊢
      simp only at hr ⊢
      split at hr
      · rename_i hstop
        rwa [if_pos hstop]
      · rename_i hgo
        rw [if_neg hgo]
        exact ih (by omega) hr
    · rwa [if_neg hmore] at hr ⊢

/-- A descriptor that was never opened brings nothing. -/
theorem read_loop_closed (sz : ℤ) {fuel : ℕ} (hfuel : 0 < fuel) (p : Process) :
    ∃ p', read_loop o (-1) sz fuel 0 p = some (0, p') ∧ p'.bytes = p.bytes := by
  obtain ⟨k, rfl⟩ : ∃ k, fuel = k + 1 := ⟨fuel - 1, by omega⟩
  unfold read_loop
  by_cases hmore : 0 < to_size_t sz
  · rw [if_pos hmore]
    exact ⟨_, rfl, rfl⟩
  · rw [if_neg hmore]
    exact ⟨_, rfl, rfl⟩

/-! ### What `swallow_file` comes to -/

/-- `errno` after a call of `close`. -/
def closed (close : Except Errno Unit) (errno : ℤ) : ℤ :=
  match close with
  | .ok () => errno
  | .error e => e

theorem close_opened (fd : ℕ) (p : Process) :
    close o fd p = { p with errno := closed o.close p.errno } := by
  unfold close
  rw [if_neg (by omega)]
  cases o.close <;> rfl

/-- The ways in which `swallow_file` ends, and what each leaves. -/
inductive Swallowed (o : Outcomes) (errno : ℤ) : ℤ → Process → Prop
  | lost {e : Errno} {p : Process} : o.stat = .error e → p.errno = e → Swallowed o errno (-1) p
  | negative {size : Int64} {p : Process} : o.stat = .ok size → to_int size.toInt < 0 →
      p.errno = errno → p.bytes = 0 → Swallowed o errno (-1) p
  | empty {size : Int64} {p : Process} : o.stat = .ok size → to_int size.toInt = 0 →
      p.bytes = 0 → Swallowed o errno 0 p
  | refused {size : Int64} {e : Errno} {p : Process} : o.stat = .ok size →
      0 < to_int size.toInt → o.open_ = .error e → p.errno = EBADF → Swallowed o errno (-1) p
  | whole {size : Int64} {fd : ℕ} {p : Process} : o.stat = .ok size →
      0 < to_int size.toInt → o.open_ = .ok fd → Delivers o.read (to_int size.toInt).toNat →
      p.bytes = (to_int size.toInt).toNat → Swallowed o errno (to_int size.toInt) p
  | broken {size : Int64} {fd n : ℕ} {p : Process} : o.stat = .ok size →
      0 < to_int size.toInt → o.open_ = .ok fd → EndsAt o.read (to_int size.toInt).toNat n →
      p.bytes < (to_int size.toInt).toNat →
      p.errno = closed o.close (after (o.read n) errno) → Swallowed o errno (-1) p

/-- As many rounds as an `int` has values are always enough. -/
def enough : ℕ := 2147483648

theorem swallow_file_ends (errno : ℤ) {fuel : ℕ} (hfuel : enough ≤ fuel) :
    ∃ sz p, swallow_file o fuel ⟨errno, 0, 0⟩ = some (sz, p) ∧ Swallowed o errno sz p := by
  unfold enough at hfuel
  unfold swallow_file find_size
  cases hstat : o.stat with
  | error e => exact ⟨_, _, rfl, .lost hstat rfl⟩
  | ok size =>
    have hlt := to_int_lt size.toInt
    simp only
    by_cases hneg : to_int size.toInt < 0
    · rw [if_pos hneg]
      exact ⟨_, _, rfl, .negative hstat hneg rfl rfl⟩
    · rw [if_neg hneg]
      have hsize := to_size_t_toNat (by omega) hlt
      cases hopen : o.open_ with
      | error e =>
        have hfuel' : 0 < fuel := by omega
        obtain ⟨p, hloop, hbytes⟩ := read_loop_closed (o := o) (to_int size.toInt) hfuel'
          ⟨e, 0, 0⟩
        have hrun : open_ (Except.error e) ⟨errno, 0, 0⟩ = (-1, ⟨e, 0, 0⟩) := rfl
        simp only [hrun, hloop, Option.bind_eq_bind, Option.bind_some]
        by_cases hzero : to_int size.toInt = 0
        · refine ⟨_, _, rfl, ?_⟩
          rw [hzero]
          exact .empty hstat hzero hbytes
        · have hne : (0 : UInt64) ≠ to_size_t (to_int size.toInt) := by
            intro h
            rw [← h] at hsize
            have hz : (0 : UInt64).toNat = 0 := rfl
            omega
          rw [if_neg hne]
          exact ⟨_, _, rfl, .refused hstat (by omega) hopen rfl⟩
      | ok fd =>
        obtain ⟨count, p, hloop, hbytes, hend⟩ :=
          read_loop_ends (o := o) (Int.natCast_nonneg fd) (by omega) hlt fuel 0 ⟨errno, 0, 0⟩ rfl
            (by simp [total]) (by intro i hi; cases hi) (by simp; omega)
        have hrun : open_ (Except.ok fd) ⟨errno, 0, 0⟩ = ((fd : ℤ), ⟨errno, 0, 0⟩) := rfl
        simp only [hrun, hloop, Option.bind_eq_bind, Option.bind_some, close_opened]
        rcases hend with ⟨hall, hcount, -⟩ | ⟨n, hn, hcount, herrno⟩
        · have heq : count = to_size_t (to_int size.toInt) :=
            UInt64.toNat_inj.mp (by rw [hcount, hsize])
          rw [if_pos heq]
          refine ⟨_, _, rfl, ?_⟩
          by_cases hzero : to_int size.toInt = 0
          · rw [hzero]
            exact .empty hstat hzero (by simp only; omega)
          · exact .whole hstat (by omega) hopen hall (by simp only; omega)
        · have hne : count ≠ to_size_t (to_int size.toInt) := by
            intro h
            rw [h] at hcount
            omega
          rw [if_neg hne]
          refine ⟨_, _, rfl, .broken hstat (by omega) hopen hn (by simp only; omega) ?_⟩
          rw [herrno]

theorem swallow_file_mono {fuel fuel' : ℕ} (h : fuel ≤ fuel') {p : Process}
    {r : ℤ × Process} (hr : swallow_file o fuel p = some r) :
    swallow_file o fuel' p = some r := by
  unfold swallow_file at hr ⊢
  simp only at hr ⊢
  split at hr
  · rename_i hneg
    rwa [if_pos hneg]
  · rename_i hneg
    rw [if_neg hneg]
    obtain ⟨c, hc, hr⟩ := Option.bind_eq_some_iff.mp hr
    exact Option.bind_eq_some_iff.mpr ⟨c, read_loop_mono h hc, hr⟩

/-! ### When `bb_open` reports the truth -/

/-- `bb_open` returns this when it is called with `errno`. -/
def Returns (o : Outcomes) (errno : ℤ) (fi : FileInfo) (r : ℤ × FileInfo × Process) : Prop :=
  ∃ fuel, bb_open o fuel fi ⟨errno, 0, 0⟩ = some r

/-- What `bb_open` makes of a number from `swallow_file`. -/
def opened (o : Outcomes) (fi : FileInfo) (sz : ℤ) (p : Process) : ℤ × FileInfo × Process :=
  if sz < 0 then (-p.errno, fi, p)
  else
    match o.decoded with
    | .ok fd => (0, { fi with fh := fd }, p)
    | .error e => (-e, { fi with fh := -e }, { p with errno := e })

theorem bb_open_eq {fuel : ℕ} {p p' : Process} {sz : ℤ} (fi : FileInfo)
    (h : swallow_file o fuel p = some (sz, p')) :
    bb_open o fuel fi p = some (opened o fi sz p') := by
  unfold bb_open opened
  rw [h]
  simp only [Option.bind_eq_bind, Option.bind_some]
  split
  · rfl
  · cases o.decoded with
    | ok fd =>
      have hfd : ¬ (fd : ℤ) < 0 := by omega
      have hlog : log_syscall fd 0 p' = fd := if_neg hfd
      change some (if log_syscall fd 0 p' < 0 then log_error p' else 0,
        { fi with fh := log_syscall fd 0 p' }, p') = _
      rw [hlog, if_neg hfd]
    | error e =>
      have he : -(e : ℤ) < 0 := by have := e.2; omega
      change some (if -(e : ℤ) < 0 then -(e : ℤ) else 0, { fi with fh := -(e : ℤ) },
        { p' with errno := (e : ℤ) }) = _
      rw [if_pos he]

/-- It always returns, and only what one run of `swallow_file` leads to. -/
theorem returns_iff (errno : ℤ) (fi : FileInfo) :
    ∃ sz p, Swallowed o errno sz p ∧
      ∀ r, Returns o errno fi r ↔ r = opened o fi sz p := by
  obtain ⟨sz, p, hrun, hend⟩ := swallow_file_ends (o := o) errno (Nat.le_refl enough)
  refine ⟨sz, p, hend, fun r => ⟨?_, ?_⟩⟩
  · intro h
    obtain ⟨fuel, hr⟩ := h
    obtain ⟨⟨sz', p'⟩, hs, hr'⟩ := Option.bind_eq_some_iff.mp hr
    have hmax := swallow_file_mono (Nat.le_max_left fuel enough) hs
    rw [swallow_file_mono (Nat.le_max_right fuel enough) hrun] at hmax
    cases hmax
    rw [bb_open_eq fi hs] at hr
    exact (Option.some.inj hr).symm
  · rintro rfl
    exact ⟨enough, bb_open_eq fi hrun⟩

/-- `swallow_file` fails although no call on the original failed. -/
def Silent (o : Outcomes) : Prop :=
  ∃ size, o.stat = .ok size ∧ (to_int size.toInt < 0 ∨ 0 < to_int size.toInt ∧
    (∃ fd, o.open_ = .ok fd) ∧ o.close = .ok () ∧
      ∃ n, EndsAt o.read (to_int size.toInt).toNat n ∧ o.read n = .ok 0)

/-- Nothing that `bb_open` looks at goes wrong. -/
def Passes (o : Outcomes) (size : Int64) : Prop :=
  o.stat = .ok size ∧ (to_int size.toInt = 0 ∨ 0 < to_int size.toInt ∧
    (∃ fd, o.open_ = .ok fd) ∧ Delivers o.read (to_int size.toInt).toNat) ∧
      ∃ fd, o.decoded = .ok fd

/-- Whoever passes has an original that could be opened and whose size is an `int`, and
who fails without a failed call finds an `errno` from before. -/
def Trusted (o : Outcomes) (errno : ℤ) : Prop :=
  (Silent o → 0 < errno) ∧
    ∀ size, Passes o size → to_int size.toInt = size.toInt ∧ ∃ fd, o.open_ = .ok fd

theorem truthful_failed {errno : ℤ} {fi : FileInfo} {p : Process} (h : ¬ Complete o p) :
    Truthful o (-errno) fi p ↔ 0 < errno := by
  constructor
  · intro ht
    have hne : -errno ≠ 0 := fun h0 => h (ht.1.mp h0).1
    have hneg := ht.2.2 hne
    omega
  · intro hpos
    refine ⟨iff_of_false (by omega) fun hc => h hc.1, ?_, ?_⟩
    · intro h0
      omega
    · intro _
      omega

theorem truthful_opened {fd : ℕ} {fi : FileInfo} {p : Process} (h : o.decoded = .ok fd) :
    Truthful o 0 { fi with fh := fd } p ↔ Complete o p := by
  constructor
  · intro ht
    exact (ht.1.mp rfl).1
  · intro hc
    exact ⟨iff_of_true rfl ⟨hc, fd, h⟩, fun _ => ⟨fd, h, rfl⟩, fun h0 => absurd rfl h0⟩

theorem truthful_refused {e : Errno} {fi : FileInfo} {p : Process} (h : o.decoded = .error e) :
    Truthful o (-e) fi p := by
  have hpos := e.2
  refine ⟨iff_of_false (by omega) ?_, ?_, ?_⟩
  · rintro ⟨-, fd, hfd⟩
    rw [h] at hfd
    cases hfd
  · intro h0
    omega
  · intro _
    omega

/-- The bytes of a process are those of the whole file if `stat` and `open` say so. -/
theorem complete_iff {size : Int64} {p : Process} (h : o.stat = .ok size) :
    Complete o p ↔ size.toInt = p.bytes ∧ ∃ fd, o.open_ = .ok fd := by
  constructor
  · rintro ⟨size', fd, hstat, hopen, hbytes⟩
    rw [h] at hstat
    cases hstat
    exact ⟨hbytes, fd, hopen⟩
  · rintro ⟨hbytes, fd, hopen⟩
    exact ⟨size, fd, h, hopen, hbytes⟩

theorem silent_iff {size : Int64} (h : o.stat = .ok size) :
    Silent o ↔ to_int size.toInt < 0 ∨ 0 < to_int size.toInt ∧ (∃ fd, o.open_ = .ok fd) ∧
      o.close = .ok () ∧ ∃ n, EndsAt o.read (to_int size.toInt).toNat n ∧ o.read n = .ok 0 := by
  constructor
  · rintro ⟨size', hstat, hs⟩
    rw [h] at hstat
    cases hstat
    exact hs
  · intro hs
    exact ⟨size, h, hs⟩

theorem trusted_iff {size : Int64} (errno : ℤ) (h : o.stat = .ok size) :
    Trusted o errno ↔ (Silent o → 0 < errno) ∧
      (Passes o size → to_int size.toInt = size.toInt ∧ ∃ fd, o.open_ = .ok fd) := by
  constructor
  · intro ht
    exact ⟨ht.1, ht.2 size⟩
  · intro ht
    refine ⟨ht.1, ?_⟩
    intro size' hp
    have hstat := hp.1
    rw [h] at hstat
    cases hstat
    exact ht.2 hp

/-- A read that brings nothing leaves its own `errno`, or that of the close, or the old one. -/
theorem failure_tells {errno : ℤ} {read : Except Errno ℕ} {close : Except Errno Unit}
    (hzero : offered read = 0) :
    0 < closed close (after read errno) ↔ (close = .ok () ∧ read = .ok 0 → 0 < errno) := by
  cases close with
  | error e => exact iff_of_true e.2 fun hs => nomatch hs.1
  | ok _ =>
    cases read with
    | error e => exact iff_of_true e.2 fun hs => nomatch hs.2
    | ok n =>
      obtain rfl : n = 0 := hzero
      exact ⟨fun he _ => he, fun h => h ⟨rfl, rfl⟩⟩

/-- What is reported after `swallow_file` has failed is right if `errno` tells of it. -/
theorem truthful_of_failed {errno : ℤ} {size : Int64} {p : Process} (fi : FileInfo)
    (hstat : o.stat = .ok size) (hc : ¬ Complete o p) (hfails : ¬ Passes o size)
    (herrno : 0 < p.errno ↔ (Silent o → 0 < errno)) :
    Truthful o (opened o fi (-1) p).1 (opened o fi (-1) p).2.1 (opened o fi (-1) p).2.2 ↔
      Trusted o errno := by
  rw [trusted_iff errno hstat, opened, if_pos (by decide), truthful_failed hc, herrno]
  exact (and_iff_left fun hp => absurd hp hfails).symm

/-- What is reported after `swallow_file` has read as much as the `int` says is right if the
`int` is the size. -/
theorem truthful_of_read {errno : ℤ} {size : Int64} {p : Process} (fi : FileInfo)
    (hstat : o.stat = .ok size) (hbytes : to_int size.toInt = p.bytes) (hloud : ¬ Silent o)
    (hpasses : (∃ fd, o.decoded = .ok fd) → Passes o size) :
    Truthful o (opened o fi (to_int size.toInt) p).1 (opened o fi (to_int size.toInt) p).2.1
        (opened o fi (to_int size.toInt) p).2.2 ↔ Trusted o errno := by
  rw [trusted_iff errno hstat, opened, if_neg (by omega)]
  cases hdec : o.decoded with
  | ok fd =>
    rw [truthful_opened hdec, complete_iff hstat, ← hbytes]
    constructor
    · intro hc
      exact ⟨fun h => absurd h hloud, fun _ => ⟨hc.1.symm, hc.2⟩⟩
    · intro ht
      have hp := ht.2 (hpasses ⟨fd, hdec⟩)
      exact ⟨hp.1.symm, hp.2⟩
  | error e =>
    refine iff_of_true (truthful_refused hdec) ⟨fun h => absurd h hloud, ?_⟩
    rintro ⟨-, -, fd, hfd⟩
    rw [hdec] at hfd
    cases hfd

theorem truthful_opened_iff {errno sz : ℤ} {p : Process} (fi : FileInfo)
    (h : Swallowed o errno sz p) :
    Truthful o (opened o fi sz p).1 (opened o fi sz p).2.1 (opened o fi sz p).2.2 ↔
      Trusted o errno := by
  cases h with
  | @lost e p hstat herrno =>
    have hlost : ∀ size, o.stat ≠ .ok size := by
      intro size hsize
      rw [hstat] at hsize
      cases hsize
    have hc : ¬ Complete o p := fun ⟨size, fd, hsize, _⟩ => hlost size hsize
    refine iff_of_true ?_ ⟨?_, ?_⟩
    · exact (truthful_failed hc).mpr (by rw [herrno]; exact e.2)
    · exact fun ⟨size, hsize, _⟩ => absurd hsize (hlost size)
    · exact fun size hp => absurd hp.1 (hlost size)
  | @negative size p hstat hneg herrno hbytes =>
    have hc : ¬ Complete o p := by
      rw [complete_iff hstat, hbytes]
      rintro ⟨h0, -⟩
      rw [h0] at hneg
      exact absurd hneg (by decide)
    have hfails : ¬ Passes o size := by
      rintro ⟨-, hz | ⟨hpos, -⟩, -⟩ <;> omega
    refine truthful_of_failed fi hstat hc hfails ?_
    rw [herrno]
    exact ⟨fun he _ => he, fun ht => ht ((silent_iff hstat).mpr (.inl hneg))⟩
  | @empty size p hstat hzero hbytes =>
    have hloud : ¬ Silent o := by
      rw [silent_iff hstat]
      rintro (hneg | ⟨hpos, -⟩) <;> omega
    rw [← hzero]
    exact truthful_of_read fi hstat (by omega) hloud fun hdec => ⟨hstat, .inl hzero, hdec⟩
  | @refused size e p hstat hpos hopen herrno =>
    have hclosed : ∀ fd, o.open_ ≠ .ok fd := by
      intro fd hfd
      rw [hopen] at hfd
      cases hfd
    have hc : ¬ Complete o p := fun ⟨_, fd, _, hfd, _⟩ => hclosed fd hfd
    have hfails : ¬ Passes o size := by
      rintro ⟨-, hzero | ⟨-, ⟨fd, hfd⟩, -⟩, -⟩
      · omega
      · exact hclosed fd hfd
    have hloud : ¬ Silent o := by
      rw [silent_iff hstat]
      rintro (hneg | ⟨-, ⟨fd, hfd⟩, -⟩)
      · omega
      · exact hclosed fd hfd
    refine truthful_of_failed fi hstat hc hfails ?_
    rw [herrno]
    exact iff_of_true (by decide) fun hs => absurd hs hloud
  | @whole size fd p hstat hpos hopen hall hbytes =>
    have hloud : ¬ Silent o := by
      rw [silent_iff hstat]
      rintro (hneg | ⟨-, -, -, n, hn, -⟩)
      · omega
      · exact hall.not_endsAt hn
    exact truthful_of_read fi hstat (by omega) hloud fun hdec =>
      ⟨hstat, .inr ⟨hpos, ⟨fd, hopen⟩, hall⟩, hdec⟩
  | @broken size fd n p hstat hpos hopen hn hbytes herrno =>
    have hlt := to_int_lt size.toInt
    have hc : ¬ Complete o p := by
      rw [complete_iff hstat]
      rintro ⟨hsize, -⟩
      have hsame := to_int_eq (n := size.toInt) (by omega) (by omega)
      omega
    have hfails : ¬ Passes o size := by
      rintro ⟨-, hz | ⟨-, -, hall⟩, -⟩
      · omega
      · exact hall.not_endsAt hn
    have hsilent : Silent o ↔ o.close = .ok () ∧ o.read n = .ok 0 := by
      rw [silent_iff hstat]
      constructor
      · rintro (hneg | ⟨-, -, hclose, m, hm, hread⟩)
        · omega
        · rw [hm.unique hn] at hread
          exact ⟨hclose, hread⟩
      · rintro ⟨hclose, hread⟩
        exact .inr ⟨hpos, ⟨fd, hopen⟩, hclose, n, hn, hread⟩
    refine truthful_of_failed fi hstat hc hfails ?_
    rw [herrno, hsilent]
    exact failure_tells hn.2.2

theorem open_truthful_iff (o : Outcomes) (errno : ℤ) (fi : FileInfo) :
    ((∃ r, Returns o errno fi r) ∧
      ∀ retstat fi' p, Returns o errno fi (retstat, fi', p) → Truthful o retstat fi' p) ↔
    Trusted o errno := by
  obtain ⟨sz, p, hend, hreturns⟩ := returns_iff (o := o) errno fi
  rw [← truthful_opened_iff fi hend]
  constructor
  · intro h
    exact h.2 _ _ _ ((hreturns _).mpr rfl)
  · intro ht
    refine ⟨⟨_, (hreturns _).mpr rfl⟩, ?_⟩
    intro retstat fi' p' hr
    have heq := (hreturns _).mp hr
    rw [← heq] at ht
    exact ht

/-- The size of the original is 2 GiB, nothing fails, and `errno` was 0. -/
theorem unread_original_opens : ¬ ∀ (o : Outcomes) (errno : ℤ) (fi : FileInfo),
    (∃ r, Returns o errno fi r) ∧
      ∀ retstat fi' p, Returns o errno fi (retstat, fi', p) → Truthful o retstat fi' p := by
  intro h
  let o : Outcomes := ⟨.ok 2147483648, .ok 3, fun _ => .ok 4096, .ok (), .ok 4⟩
  have hrun : Returns o 0 ⟨0, 0⟩ (0, ⟨0, 0⟩, ⟨0, 0, 0⟩) := ⟨1, rfl⟩
  have hc := (((h o 0 ⟨0, 0⟩).2 _ _ _ hrun).1.mp rfl).1
  obtain ⟨hsize, -⟩ := (@complete_iff o 2147483648 _ rfl).mp hc
  exact absurd hsize (by decide)

end

end SmartDisk.OpenOutcomes
