import SmartDisk.FuseNamespace

/-!
# What is listed and what opens

`bb_open` reads the original before it opens the decoded file, and it looks for the
original under the name of the request. Here are the exact conditions under which it
succeeds, and what they mean for the names that `bb_readdir` lists.
-/
namespace SmartDisk.FuseListing
open DescriptorTable BBFS FuseNamespace

/-! ### Reading the original -/

/-- The files and the descriptors other than `fd` are as before. -/
def Frame (fd : ℤ) (m t : Machine) : Prop :=
  t.disk = m.disk ∧ ∀ i : ℕ, (i : ℤ) ≠ fd → t.files.entry i = m.files.entry i

theorem Frame.refl (fd : ℤ) (m : Machine) : Frame fd m m := ⟨rfl, fun _ _ => rfl⟩

theorem Frame.trans {fd : ℤ} {m t u : Machine} (h : Frame fd m t) (h' : Frame fd t u) :
    Frame fd m u :=
  ⟨h'.1.trans h.1, fun i hi => (h'.2 i hi).trans (h.2 i hi)⟩

theorem read_frame (m : Machine) (chunk : ℕ) (fd : ℤ) (count : ℕ) :
    Frame fd m (m.read chunk fd count).2 := by
  unfold Machine.read
  cases hfile : m.files.lookup fd with
  | none => exact ⟨rfl, fun _ _ => rfl⟩
  | some file =>
      have hopen : 0 ≤ fd := Table.nonneg_of_lookup hfile
      cases hkind : file.inode.kind with
      | regular =>
          simp only [hkind]
          refine ⟨rfl, fun i hi => Table.entry_set_ne _ _ ?_⟩
          omega
      | directory names => simp only [hkind]; exact ⟨rfl, fun _ _ => rfl⟩
      | special => simp only [hkind]; exact ⟨rfl, fun _ _ => rfl⟩

theorem read_loop_frame (k : Kernel) (fd : ℤ) (sz fuel count : ℕ) (m : Machine) :
    Frame fd m (read_loop k fd sz fuel count m).2 := by
  induction fuel generalizing count m with
  | zero => exact .refl ..
  | succ fuel ih =>
      have hread := read_frame m k.chunk fd (sz - count)
      unfold read_loop
      split
      · simp only
        split
        · exact hread
        · exact hread.trans (ih _ _)
      · exact .refl ..

/-- A regular file is read to the end: every round reads a byte at least. -/
theorem read_loop_complete (k : Kernel) {fd sz : ℕ} (file : File)
    (hkind : file.inode.kind = .regular) (hsize : sz ≤ file.inode.st_size) (fuel count : ℕ)
    (m : Machine) (hopen : m.files.entry fd = some { file with pos := count })
    (hcount : count ≤ sz) (hfuel : sz ≤ count + fuel) :
    (read_loop k fd sz fuel count m).1 = sz := by
  induction fuel generalizing count m with
  | zero =>
      unfold read_loop
      omega
  | succ fuel ih =>
      have hchunk := k.chunk_pos
      unfold read_loop
      by_cases hmore : count < sz
      · rw [if_pos hmore]
        let rv := min (min (sz - count) k.chunk) (file.inode.st_size - count)
        have hread : m.read k.chunk fd (sz - count) =
            ((rv : ℤ), { m with files := m.files.set fd { file with pos := count + rv } }) := by
          unfold Machine.read
          rw [Table.lookup_ofNat, hopen]
          simp only [hkind]
          rfl
        rw [hread]
        simp only
        rw [if_neg (by omega), Int.toNat_natCast]
        apply ih
        · exact Table.entry_set_self ..
        · omega
        · omega
      · rw [if_neg hmore]
        simp only
        omega

/-- What cannot be read ends the loop in its first round. -/
theorem read_loop_fails (k : Kernel) {fd : ℤ} {sz : ℕ} (hsz : 0 < sz) (m : Machine)
    (h : ∀ file, m.files.lookup fd = some file → file.inode.kind ≠ .regular) :
    (read_loop k fd sz sz 0 m).1 = 0 := by
  have hread : (m.read k.chunk fd (sz - 0)).1 = -1 := by
    unfold Machine.read
    cases hfile : m.files.lookup fd with
    | none => rfl
    | some file =>
        cases hkind : file.inode.kind with
        | regular => exact absurd hkind (h file hfile)
        | directory names => simp only [hkind]; rfl
        | special => simp only [hkind]; rfl
  cases sz with
  | zero => cases hsz
  | succ n =>
      unfold read_loop
      rw [if_pos hsz]
      simp only
      rw [hread, if_pos (by decide)]

theorem close_frame (m : Machine) (fd : ℤ) : Frame fd m (m.close fd).2 := by
  unfold Machine.close
  cases hfile : m.files.lookup fd with
  | none => exact ⟨rfl, fun _ _ => rfl⟩
  | some file =>
      have hopen : 0 ≤ fd := Table.nonneg_of_lookup hfile
      refine ⟨rfl, fun i hi => if_neg ?_⟩
      omega

theorem close_entry (m : Machine) (fd : ℕ) : (m.close fd).2.files.entry fd = none := by
  unfold Machine.close
  rw [Table.lookup_ofNat]
  cases hfile : m.files.entry fd with
  | none => exact hfile
  | some file => exact if_pos (by rw [Int.toNat_natCast])

/-- `open` without flags for creation or truncation succeeds. -/
def Admits (m : Machine) (name : CString) (flags : ℕ) : Prop :=
  ∃ inode, m.disk name = some inode ∧ inode.refuses flags = none

theorem open_admitted {m : Machine} {name : CString} {flags : ℕ} {inode : Inode}
    (hdisk : m.disk name = some inode) (h : inode.refuses flags = none) :
    m.open_ name flags = ((m.files.lowest : ℤ),
      { m with files := m.files.set m.files.lowest ⟨name, inode, 0⟩ }) := by
  unfold Machine.open_
  simp only [hdisk, h]

theorem open_refused {m : Machine} {name : CString} {flags : ℕ} (h : ¬ Admits m name flags) :
    ∃ errno, m.open_ name flags = m.fail errno := by
  unfold Machine.open_
  cases hdisk : m.disk name with
  | none => exact ⟨ENOENT, rfl⟩
  | some inode =>
      cases hrefuses : inode.refuses flags with
      | none => exact absurd ⟨inode, hdisk, hrefuses⟩ h
      | some errno => exact ⟨errno, by simp only [hrefuses]⟩

/-- `swallow_file` reads the file to the end. Its size is taken for an `int`, and nothing is
read of a file whose size is then 0. -/
def Swallows (m : Machine) (name : CString) : Prop :=
  ∃ inode, m.disk name = some inode ∧ 0 ≤ to_int inode.st_size ∧
    (to_int inode.st_size = 0 ∨ inode.kind = .regular ∧ inode.refuses O_RDONLY = none)

theorem to_int_le (n : ℕ) : (to_int n).toNat ≤ n := by
  have hsize : (Int32.size : ℤ) = 4294967296 := rfl
  unfold to_int
  rw [Int32.toInt_ofInt, Int.bmod_def, hsize]
  omega

section
variable (k : Kernel) {name : CString} {m : Machine}

theorem swallow_file_missing (h : m.disk name = none) :
    swallow_file k name m = (-1, { m with errno := ENOENT }) := by
  have hsize : find_size m name = (-1, { m with errno := ENOENT }) := by
    unfold find_size Machine.stat
    rw [h]
  unfold swallow_file
  rw [hsize]
  rfl

/-- `swallow_file` behind a `stat` that succeeds. -/
theorem swallow_file_eq {inode : Inode} (h : m.disk name = some inode) :
    swallow_file k name m =
      if to_int inode.st_size < 0 then (-1, m)
      else
        let sz := to_int inode.st_size
        let fd := m.open_ name O_RDONLY
        let count := read_loop k fd.1 sz.toNat sz.toNat 0 fd.2
        (if count.1 = sz then sz else -1, (count.2.close fd.1).2) := by
  have hsize : find_size m name = ((inode.st_size : ℤ), m) := by
    unfold find_size Machine.stat
    rw [h]
  unfold swallow_file
  rw [hsize]

theorem swallow_file_frame (name : CString) (m : Machine) :
    (swallow_file k name m).2.disk = m.disk ∧
    (swallow_file k name m).2.files.entry = m.files.entry := by
  cases hdisk : m.disk name with
  | none =>
      rw [swallow_file_missing k hdisk]
      exact ⟨rfl, rfl⟩
  | some inode =>
      rw [swallow_file_eq k hdisk]
      split
      · exact ⟨rfl, rfl⟩
      · simp only
        have hclosed := (read_loop_frame k (m.open_ name O_RDONLY).1
          (to_int inode.st_size).toNat (to_int inode.st_size).toNat 0
          (m.open_ name O_RDONLY).2).trans (close_frame _ _)
        cases hrefuses : inode.refuses O_RDONLY with
        | none =>
            -- the descriptor was free before, and is free again
            rw [open_admitted hdisk hrefuses] at hclosed ⊢
            refine ⟨hclosed.1, funext fun i => ?_⟩
            by_cases hi : i = m.files.lowest
            · rw [hi, close_entry, Table.entry_lowest]
            · rw [hclosed.2 i (by omega)]
              exact Table.entry_set_ne _ _ hi
        | some errno =>
            have hnot : ¬ Admits m name O_RDONLY := by
              intro h
              obtain ⟨inode', hdisk', hadmits⟩ := h
              rw [hdisk] at hdisk'
              cases hdisk'
              rw [hrefuses] at hadmits
              cases hadmits
            obtain ⟨e, hopen⟩ := open_refused hnot
            rw [hopen] at hclosed ⊢
            refine ⟨hclosed.1, funext fun i => hclosed.2 i ?_⟩
            change (i : ℤ) ≠ -1
            omega

theorem swallow_file_nonneg_iff : 0 ≤ (swallow_file k name m).1 ↔ Swallows m name := by
  unfold Swallows
  cases hdisk : m.disk name with
  | none =>
      rw [swallow_file_missing k hdisk]
      exact iff_of_false (by omega) nofun
  | some inode =>
      have hsome : (∃ i, some inode = some i ∧ 0 ≤ to_int i.st_size ∧
          (to_int i.st_size = 0 ∨ i.kind = .regular ∧ i.refuses O_RDONLY = none)) ↔
          0 ≤ to_int inode.st_size ∧ (to_int inode.st_size = 0 ∨
            inode.kind = .regular ∧ inode.refuses O_RDONLY = none) :=
        ⟨fun ⟨_, heq, h⟩ => by cases heq; exact h, fun h => ⟨inode, rfl, h⟩⟩
      rw [hsome, swallow_file_eq k hdisk]
      by_cases hneg : to_int inode.st_size < 0
      · rw [if_pos hneg]
        exact iff_of_false (by omega) fun h => by omega
      · have hnonneg : 0 ≤ to_int inode.st_size := by omega
        rw [if_neg hneg, and_iff_right hnonneg]
        simp only
        by_cases hzero : to_int inode.st_size = 0
        · rw [hzero, if_pos (show ((read_loop k _ _ _ 0 _).1 : ℤ) = 0 from rfl)]
          exact iff_of_true (Int.le_refl 0) (.inl rfl)
        · rw [or_iff_right hzero]
          have hpos : 0 < (to_int inode.st_size).toNat := by omega
          by_cases hreadable : inode.kind = .regular ∧ inode.refuses O_RDONLY = none
          · have hread : (read_loop k m.files.lowest (to_int inode.st_size).toNat
                (to_int inode.st_size).toNat 0
                { m with files := m.files.set m.files.lowest ⟨name, inode, 0⟩ }).1 =
                  (to_int inode.st_size).toNat := by
              apply read_loop_complete k ⟨name, inode, 0⟩
              · exact hreadable.1
              · exact to_int_le _
              · exact Table.entry_set_self ..
              · exact Nat.zero_le _
              · exact Nat.le_add_left ..
            rw [open_admitted hdisk hreadable.2, hread, if_pos (Int.toNat_of_nonneg hnonneg)]
            exact iff_of_true hnonneg hreadable
          · rw [read_loop_fails k hpos, if_neg (by omega)]
            · exact iff_of_false (by decide) hreadable
            · intro file hfile hkind
              cases hrefuses : inode.refuses O_RDONLY with
              | none =>
                  rw [open_admitted hdisk hrefuses, Table.lookup_ofNat,
                    Table.entry_set_self] at hfile
                  cases hfile
                  exact hreadable ⟨hkind, hrefuses⟩
              | some errno =>
                  unfold Machine.open_ at hfile
                  simp only [hdisk, hrefuses] at hfile
                  have hneg : (m.fail errno).1 < 0 := Int.negSucc_lt_zero 0
                  rw [Table.lookup_of_neg _ hneg] at hfile
                  cases hfile

end

/-! ### Opening -/

section
variable {α : Type} {k : Kernel} {bb : BBState} {root jpg path : CString}

theorem swallow_bind (name : CString) (f : ℤ → BB α) (s : State) :
    (swallow k name >>= f) s = f (swallow_file k name s.machine).1
      { s with machine := (swallow_file k name s.machine).2 } := rfl

theorem syscall_bind (c : Syscall) (f : Reply → BB α) (s : State) :
    (syscall k c >>= f) s = f (k.call c s.machine).1
      ⟨(k.call c s.machine).2, s.served ++ [c]⟩ := rfl

theorem log_syscall_bind {reply : Reply} (h : reply.retstat < 0) (f : Reply → BB α) (s : State) :
    (log_syscall reply 0 >>= f) s = f { reply with retstat := -(s.machine.errno : ℤ) } s := by
  unfold log_syscall
  rw [if_pos h]
  rfl

theorem call_open {name : CString} {flags : ℕ} (h : plain flags = true) (m : Machine) :
    k.call (.open_ name flags none) m = (m.open_ name flags).map (⟨·, []⟩) id := if_pos h

/-- What was there before `swallow_file` can be opened after it. -/
theorem admits_iff_of_disk {m t : Machine} (h : t.disk = m.disk) (name : CString) (flags : ℕ) :
    Admits t name flags ↔ Admits m name flags := by
  unfold Admits
  rw [h]

theorem open_succeeds (hroot : bb.rootdir = some root) (hjpg : bb.jpgdir = some jpg)
    (h : root.length + path.length < PATH_MAX) (h' : jpg.length + path.length < PATH_MAX)
    {fi : FileInfo} (hplain : plain fi.flags = true) {s : State}
    (hswallow : Swallows s.machine (jpg ++ path))
    (hadmits : Admits s.machine (underlying root path) fi.flags) :
    ∃ (t : State) (fd : ℕ) (file : File),
      bb_open k bb path fi s = some ((0, { fi with fh := fd }), t) ∧
        s.machine.files.entry fd = none ∧ t.machine.files.entry fd = some file ∧
          file.name = underlying root path := by
  obtain ⟨hdisk, hentry⟩ := swallow_file_frame k (jpg ++ path) s.machine
  obtain ⟨inode, hinode, hrefuses⟩ := (admits_iff_of_disk hdisk _ _).mpr hadmits
  have hread := (swallow_file_nonneg_iff k).mpr hswallow
  rw [open_eq hroot hjpg h h', swallow_bind, if_neg (by omega), syscall_bind, call_open hplain,
    open_admitted hinode hrefuses]
  refine ⟨_, (swallow_file k (jpg ++ path) s.machine).2.files.lowest, _, rfl, ?_,
    Table.entry_set_self .., rfl⟩
  rw [← hentry]
  exact Table.entry_lowest _

theorem open_fails (hroot : bb.rootdir = some root) (hjpg : bb.jpgdir = some jpg)
    (h : root.length + path.length < PATH_MAX) (h' : jpg.length + path.length < PATH_MAX)
    {fi : FileInfo} (hplain : plain fi.flags = true) {s : State}
    (hfails : ¬ (Swallows s.machine (jpg ++ path) ∧
      Admits s.machine (underlying root path) fi.flags)) :
    ∃ a t, bb_open k bb path fi s = some (a, t) ∧
      t.machine.files.entry = s.machine.files.entry := by
  obtain ⟨hdisk, hentry⟩ := swallow_file_frame k (jpg ++ path) s.machine
  rw [open_eq hroot hjpg h h', swallow_bind]
  by_cases hswallow : Swallows s.machine (jpg ++ path)
  · have hread := (swallow_file_nonneg_iff k).mpr hswallow
    have hrefused : ¬ Admits (swallow_file k (jpg ++ path) s.machine).2 (underlying root path)
        fi.flags := by
      rw [admits_iff_of_disk hdisk]
      exact fun hadmits => hfails ⟨hswallow, hadmits⟩
    obtain ⟨errno, hopen⟩ := open_refused hrefused
    rw [if_neg (by omega), syscall_bind, call_open hplain, hopen,
      log_syscall_bind (Int.negSucc_lt_zero 0)]
    split
    · exact ⟨_, _, rfl, hentry⟩
    · exact ⟨_, _, rfl, hentry⟩
  · have hread : (swallow_file k (jpg ++ path) s.machine).1 < 0 := by
      by_contra hnonneg
      exact hswallow ((swallow_file_nonneg_iff k).mp (by omega))
    rw [if_pos hread]
    exact ⟨_, _, rfl, hentry⟩

/-- `bb_open` returns 0 and a descriptor that was free, on the file that `path` stands for. -/
def Opens (k : Kernel) (bb : BBState) (s : State) (path : CString) (fi : FileInfo) : Prop :=
  ∃ root fi' t file, bb.rootdir = some root ∧ bb_open k bb path fi s = some ((0, fi'), t) ∧
    s.machine.files.lookup fi'.fh = none ∧ t.machine.files.lookup fi'.fh = some file ∧
      file.name = underlying root path

/-- What `bb_open` needs: the full names fit into their buffers, the second directory has a file
of the name in the request that can be read, and the decoded file can be opened. -/
structure Openable (m : Machine) (root jpg path : CString) (flags : ℕ) : Prop where
  root_fits : root.length + path.length < PATH_MAX
  jpg_fits : jpg.length + path.length < PATH_MAX
  original : Swallows m (jpg ++ path)
  admitted : Admits m (underlying root path) flags

theorem lookup_congr {t u : Table File} (h : t.entry = u.entry) (fd : ℤ) :
    t.lookup fd = u.lookup fd := by
  unfold Table.lookup
  rw [h]

theorem opens_iff (hroot : bb.rootdir = some root) (hjpg : bb.jpgdir = some jpg)
    {fi : FileInfo} (hplain : plain fi.flags = true) (s : State) :
    Opens k bb s path fi ↔ Openable s.machine root jpg path fi.flags := by
  constructor
  · intro h
    obtain ⟨_, fi', t, file, -, hrun, hfree, hopen, -⟩ := h
    have hdefined : ¬ Undefined (bb_open k bb path fi) := by
      intro hundefined
      rw [hundefined s] at hrun
      cases hrun
    have hfits : root.length + path.length < PATH_MAX := by
      by_contra hlong
      refine hdefined (open_undefined fi (.inl ?_))
      unfold bb_fullpath
      rw [hroot]
      exact fullpath_none (by rw [length_decoded]; exact hlong)
    have hfits' : jpg.length + path.length < PATH_MAX := by
      by_contra hlong
      refine hdefined (open_undefined fi (.inr ?_))
      unfold jpg_fullpath
      rw [hjpg]
      exact fullpath_none hlong
    by_cases hboth : Swallows s.machine (jpg ++ path) ∧
        Admits s.machine (underlying root path) fi.flags
    · exact ⟨hfits, hfits', hboth.1, hboth.2⟩
    · obtain ⟨a, t', hrun', hentry⟩ := open_fails (k := k) hroot hjpg hfits hfits' hplain hboth
      rw [hrun] at hrun'
      cases hrun'
      rw [lookup_congr hentry, hfree] at hopen
      cases hopen
  · intro h
    obtain ⟨t, fd, file, hrun, hfree, hopen, hname⟩ :=
      open_succeeds (k := k) hroot hjpg h.root_fits h.jpg_fits hplain h.original h.admitted
    refine ⟨root, _, t, file, hroot, hrun, ?_, ?_, hname⟩
    · rw [Table.lookup_ofNat]
      exact hfree
    · rw [Table.lookup_ofNat]
      exact hopen

end

/-! ### Listing -/

theorem fill_subset (filler : List CString → CString → Bool) (buf names : List CString) :
    (fill filler buf names).2.1 ⊆ buf ++ names := by
  induction names generalizing buf with
  | nil => exact List.subset_append_left ..
  | cons name rest ih =>
      unfold fill
      split
      · exact List.subset_append_left ..
      · intro x hx
        have hmem := ih (buf ++ [name]) hx
        rw [List.append_assoc] at hmem
        exact hmem

theorem fill_all (buf names : List CString) :
    fill (fun _ _ => false) buf names = (0, buf ++ names, []) := by
  induction names generalizing buf with
  | nil => rw [List.append_nil]; rfl
  | cons name rest ih =>
      unfold fill
      rw [if_neg Bool.false_ne_true, ih, List.append_assoc]
      rfl

/-- `bb_opendir` and `bb_readdir` list `name` in the directory `dir`, as far as the buffer
goes. -/
def Lists (k : Kernel) (bb : BBState) (s : State) (dir name : CString) : Prop :=
  ∃ filler fi fi' t u retstat buf, bb_opendir k bb dir fi s = some ((0, fi'), t) ∧
    bb_readdir filler fi' t = some ((retstat, buf), u) ∧ name ∈ buf

/-- The directory `dir` of the disk can be read and has an entry `name`. -/
def Entry (m : Machine) (dir name : CString) : Prop :=
  ∃ inode names, m.disk dir = some inode ∧ inode.kind = .directory names ∧
    inode.refuses O_RDONLY = none ∧ name ∈ names

section
variable {k : Kernel} {bb : BBState} {root : CString}

theorem readdir_subset {filler : List CString → CString → Bool} {fi : FileInfo} {t u : State}
    {retstat : ℤ} {buf : List CString} {name : CString}
    (h : bb_readdir filler fi t = some ((retstat, buf), u)) (hname : name ∈ buf) :
    ∃ names, t.machine.dirs.lookup (fi.fh - 1) = some names ∧ name ∈ names := by
  unfold bb_readdir at h
  split at h
  · cases h
    cases hname
  · cases h
    cases hname
  · rename_i names hnonempty hstream
    cases h
    exact ⟨names, hstream, fill_subset filler [] names hname⟩

/-- With room for all names the whole directory is listed. -/
theorem readdir_all {fi : FileInfo} {t : State} {names : List CString}
    (h : t.machine.dirs.lookup (fi.fh - 1) = some names) (hne : names ≠ []) :
    bb_readdir (fun _ _ => false) fi t = some ((0, names), { t with machine :=
      { t.machine with dirs := t.machine.dirs.set (fi.fh - 1).toNat [] } }) := by
  unfold bb_readdir
  rw [h]
  cases names with
  | nil => exact absurd rfl hne
  | cons first rest =>
      simp only [fill_all]
      rfl

theorem opendir_entry {m : Machine} {dir : CString} {inode : Inode} {names : List CString}
    (hdisk : m.disk dir = some inode) (hkind : inode.kind = .directory names)
    (hrefuses : inode.refuses O_RDONLY = none) :
    m.opendir dir = ((m.dirs.lowest : ℤ) + 1,
      { m with dirs := m.dirs.set m.dirs.lowest names }) := by
  unfold Machine.opendir
  simp only [hdisk, hkind, hrefuses]

theorem opendir_null {m : Machine} {dir : CString} (h : (m.opendir dir).1 ≠ 0) :
    ∃ inode names, m.disk dir = some inode ∧ inode.kind = .directory names ∧
      inode.refuses O_RDONLY = none := by
  unfold Machine.opendir at h
  cases hdisk : m.disk dir with
  | none => simp [hdisk] at h
  | some inode =>
      cases hkind : inode.kind with
      | directory names =>
          cases hrefuses : inode.refuses O_RDONLY with
          | none => exact ⟨inode, names, rfl, hkind, hrefuses⟩
          | some errno => simp [hdisk, hkind, hrefuses] at h
      | regular => simp [hdisk, hkind] at h
      | special => simp [hdisk, hkind] at h

/-- `bb_opendir` where the full name fits into its buffer. -/
theorem opendir_eq (hroot : bb.rootdir = some root) {dir : CString}
    (h : root.length + dir.length < PATH_MAX) (fi : FileInfo) (s : State) :
    bb_opendir k bb dir fi s =
      let dp := s.machine.opendir (root ++ dir)
      let t : State := ⟨dp.2, s.served ++ [.opendir (root ++ dir)]⟩
      some ((if dp.1 = 0 then -(t.machine.errno : ℤ) else 0, { fi with fh := dp.1 }), t) := by
  have hcall : k.call (.opendir (root ++ dir)) s.machine =
      (s.machine.opendir (root ++ dir)).map (⟨·, []⟩) id := rfl
  unfold bb_opendir bb_fullpath
  rw [hroot, fullpath_eq h, lift_some, syscall_bind, hcall]
  simp only [Prod.map_fst, Prod.map_snd, id]
  split
  · rfl
  · rfl

theorem lists_iff (hroot : bb.rootdir = some root) (s : State) (dir name : CString) :
    Lists k bb s dir name ↔
      root.length + dir.length < PATH_MAX ∧ Entry s.machine (root ++ dir) name := by
  constructor
  · intro h
    obtain ⟨filler, fi, fi', t, u, retstat, buf, hopen, hread, hname⟩ := h
    have hfits : root.length + dir.length < PATH_MAX := by
      by_contra hlong
      unfold bb_opendir bb_fullpath at hopen
      rw [hroot, fullpath_none hlong] at hopen
      cases hopen
    refine ⟨hfits, ?_⟩
    rw [opendir_eq hroot hfits] at hopen
    obtain ⟨names, hstream, hmem⟩ := readdir_subset hread hname
    by_cases hnull : (s.machine.opendir (root ++ dir)).1 = 0
    · -- NULL is no stream
      simp only [Option.some.injEq, Prod.mk.injEq] at hopen
      obtain ⟨⟨-, rfl⟩, rfl⟩ := hopen
      simp only [hnull] at hstream
      rw [Table.lookup_of_neg _ (by decide)] at hstream
      cases hstream
    · obtain ⟨inode, entries, hdisk, hkind, hrefuses⟩ := opendir_null hnull
      rw [opendir_entry hdisk hkind hrefuses] at hopen
      simp only [Option.some.injEq, Prod.mk.injEq] at hopen
      obtain ⟨⟨-, rfl⟩, rfl⟩ := hopen
      simp only [Int.add_sub_cancel, Table.lookup_ofNat, Table.entry_set_self] at hstream
      cases hstream
      exact ⟨inode, names, hdisk, hkind, hrefuses, hmem⟩
  · intro h
    obtain ⟨hfits, inode, names, hdisk, hkind, hrefuses, hname⟩ := h
    have hrun := opendir_eq (k := k) hroot hfits ⟨0, 0⟩ s
    rw [opendir_entry hdisk hkind hrefuses] at hrun
    simp only at hrun
    rw [if_neg (by omega)] at hrun
    have hstream : (s.machine.dirs.set s.machine.dirs.lowest names).lookup
        ((s.machine.dirs.lowest : ℤ) + 1 - 1) = some names := by
      rw [Int.add_sub_cancel, Table.lookup_ofNat, Table.entry_set_self]
    exact ⟨_, _, _, _, _, _, _, hrun, readdir_all hstream (List.ne_nil_of_mem hname), hname⟩

end

def Regular (m : Machine) (name : CString) : Prop :=
  ∃ inode, m.disk name = some inode ∧ inode.kind = .regular

/-- The entry `name` of `dir` belongs to the picture `img`: it is the picture or its decoded
file. Both are there, the picture in the second directory. -/
structure PictureOf (m : Machine) (root jpg dir name img : CString) : Prop where
  listed : Regular m (root ++ child dir name)
  image : IsPicture img
  named : name = img ∨ name = decoded img
  original : Regular m (jpg ++ child dir img)
  ppm : Regular m (root ++ child dir (decoded img))

/-- Under either name the entry stands for the decoded file. -/
theorem PictureOf.underlying_eq {m : Machine} {root jpg dir name img : CString}
    (h : PictureOf m root jpg dir name img) :
    underlying root (child dir name) = root ++ child dir (decoded img) := by
  unfold underlying
  rw [decoded_child]
  cases h.named with
  | inl heq => rw [heq]
  | inr heq => rw [heq, decoded_of_not (not_isPicture_decoded img)]

/-- What is listed in `dir` for a picture opens, as long as the disk stays as it is. -/
def ListedOpen (k : Kernel) (bb : BBState) (s : State) (dir : CString) (flags : ℕ) : Prop :=
  ∀ root jpg name img, bb.rootdir = some root → bb.jpgdir = some jpg →
    Lists k bb s dir name → PictureOf s.machine root jpg dir name img →
      ∀ (t : State) fh, t.machine.disk = s.machine.disk →
        Opens k bb t (child dir name) ⟨flags, fh⟩

theorem openable_of_disk {m t : Machine} (h : t.disk = m.disk) {root jpg path : CString}
    {flags : ℕ} (ho : Openable m root jpg path flags) : Openable t root jpg path flags := by
  refine ⟨ho.root_fits, ho.jpg_fits, ?_, (admits_iff_of_disk h _ _).mpr ho.admitted⟩
  unfold Swallows
  rw [h]
  exact ho.original

theorem listedOpen_iff (k : Kernel) (bb : BBState) (s : State) (dir : CString) {flags : ℕ}
    (hplain : plain flags = true) :
    ListedOpen k bb s dir flags ↔
      ∀ root jpg name img, bb.rootdir = some root → bb.jpgdir = some jpg →
        root.length + dir.length < PATH_MAX → Entry s.machine (root ++ dir) name →
          PictureOf s.machine root jpg dir name img →
            Openable s.machine root jpg (child dir name) flags := by
  constructor
  · intro h root jpg name img hroot hjpg hfits hentry hpicture
    have hlists := (lists_iff (k := k) hroot s dir name).mpr ⟨hfits, hentry⟩
    have hopens := h root jpg name img hroot hjpg hlists hpicture s 0 rfl
    exact (opens_iff hroot hjpg hplain s).mp hopens
  · intro h root jpg name img hroot hjpg hlists hpicture t fh hdisk
    obtain ⟨hfits, hentry⟩ := (lists_iff hroot s dir name).mp hlists
    have hopenable := h root jpg name img hroot hjpg hfits hentry hpicture
    exact (opens_iff hroot hjpg hplain t).mpr (openable_of_disk hdisk hopenable)

/-- A request goes to the files that `bb_getattr` reports on if and only if its names fit and its
handler converts the extension or finds none to convert. What is listed for a picture opens if
and only if the second directory has a readable file of the listed name, and the decoded file
can be opened. -/
theorem namespace_iff (k : Kernel) (bb : BBState) :
    (∀ r, Coherent k bb r ↔
      Fits bb r ∧ (converts r = true ∨ ∀ p ∈ paths r, ¬ IsPicture p)) ∧
    ∀ s dir flags, plain flags = true →
      (ListedOpen k bb s dir flags ↔
        ∀ root jpg name img, bb.rootdir = some root → bb.jpgdir = some jpg →
          root.length + dir.length < PATH_MAX → Entry s.machine (root ++ dir) name →
            PictureOf s.machine root jpg dir name img →
              Openable s.machine root jpg (child dir name) flags) :=
  ⟨coherent_request k bb, fun s dir _ hplain => listedOpen_iff k bb s dir hplain⟩

/-- Calls on names that exist succeed. -/
def permissive : Kernel where
  chunk := 4096
  chunk_pos := Nat.succ_pos _
  other c m :=
    if c.names.all fun name => (m.disk name).isSome then (⟨0, []⟩, m)
    else (⟨-1, []⟩, { m with errno := ENOENT })

/-- Every file of `names` has three bytes, and `dir` holds the entries. -/
def mounted (dir : CString) (entries names : List CString) : State where
  machine :=
    { disk := fun p =>
        if p = dir then some ⟨.directory entries, 4096, fun _ => none⟩
        else if p ∈ names then some ⟨.regular, 3, fun _ => none⟩
        else none
      files := .empty
      dirs := .empty
      errno := 0 }
  served := []

section
variable {dir : CString} {entries names : List CString}

theorem mounted_file {name : CString} (hdir : name ≠ dir) (hname : name ∈ names) :
    (mounted dir entries names).machine.disk name = some ⟨.regular, 3, fun _ => none⟩ :=
  (if_neg hdir).trans (if_pos hname)

theorem mounted_missing {name : CString} (hdir : name ≠ dir) (hname : name ∉ names) :
    (mounted dir entries names).machine.disk name = none :=
  (if_neg hdir).trans (if_neg hname)

theorem mounted_openable {root jpg path : CString} (hroot : root.length + path.length < PATH_MAX)
    (hjpg : jpg.length + path.length < PATH_MAX) (hdir : jpg ++ path ≠ dir)
    (horiginal : jpg ++ path ∈ names) (hdir' : underlying root path ≠ dir)
    (hppm : underlying root path ∈ names) (flags : ℕ) :
    Openable (mounted dir entries names).machine root jpg path flags where
  root_fits := hroot
  jpg_fits := hjpg
  original := ⟨_, mounted_file hdir horiginal, by decide +kernel, .inr ⟨rfl, rfl⟩⟩
  admitted := ⟨_, mounted_file hdir' hppm, rfl⟩

variable (dir entries names) in
theorem mounted_entry (name : CString) :
    Entry (mounted dir entries names).machine dir name ↔ name ∈ entries := by
  constructor
  · intro h
    obtain ⟨inode, listed, hdisk, hkind, -, hname⟩ := h
    cases hdisk.symm.trans (if_pos rfl)
    cases hkind
    exact hname
  · intro h
    exact ⟨_, entries, if_pos rfl, rfl, rfl, h⟩

end

/-- Originals and decoded files in one place. -/
def together : BBState := ⟨some "/p".toList, some "/p".toList⟩

theorem namespace_iff_together :
    Coherent permissive together (.access "/a.ppm".toList 4) ∧
    ListedOpen permissive together (mounted "/p/".toList ["a.jpg".toList, "a.ppm".toList]
      ["/p/a.jpg".toList, "/p/a.ppm".toList]) "/".toList O_RDONLY := by
  constructor
  · refine ((namespace_iff permissive together).1 _).mpr ⟨⟨⟨_, rfl, ?_⟩, nofun⟩, .inr ?_⟩
    · decide +kernel
    · decide +kernel
  · refine ((namespace_iff permissive together).2 _ _ _ rfl).mpr ?_
    intro root jpg name img hroot hjpg hfits hentry hpicture
    cases hroot
    cases hjpg
    have hname := (mounted_entry "/p/".toList _ _ name).mp hentry
    cases List.mem_pair.mp hname with
    | inl heq =>
        subst heq
        apply mounted_openable
        all_goals decide +kernel
    | inr heq =>
        subst heq
        apply mounted_openable
        all_goals decide +kernel

/-- `/a.jpg` is decoded as `/a.ppm`. -/
def apart : BBState := ⟨some "/r".toList, some "/j".toList⟩

/-- `access` does not find the picture that `bb_getattr` reports on, and the decoded file that
is listed does not open. -/
theorem apart_incoherent :
    ¬ Coherent permissive apart (.access "/a.jpg".toList 4) ∧
    ¬ ListedOpen permissive apart (mounted "/r/".toList ["a.ppm".toList]
      ["/r/a.ppm".toList, "/j/a.jpg".toList]) "/".toList O_RDONLY := by
  constructor
  · intro h
    have hsame := ((coherent_request permissive apart _).mp h).2
    revert hsame
    decide +kernel
  · intro h
    have hpicture : PictureOf (mounted "/r/".toList ["a.ppm".toList]
        ["/r/a.ppm".toList, "/j/a.jpg".toList]).machine "/r".toList "/j".toList "/".toList
        "a.ppm".toList "a.jpg".toList :=
      { listed := ⟨_, mounted_file (by decide +kernel) (by decide +kernel), rfl⟩
        image := by decide +kernel
        named := .inr (by decide +kernel)
        original := ⟨_, mounted_file (by decide +kernel) (by decide +kernel), rfl⟩
        ppm := ⟨_, mounted_file (by decide +kernel) (by decide +kernel), rfl⟩ }
    have hopenable := (listedOpen_iff permissive apart _ _ rfl).mp h _ _ _ _ rfl rfl
      (by decide +kernel) ((mounted_entry ..).mpr List.mem_cons_self) hpicture
    -- there is no `/j/a.ppm`
    obtain ⟨inode, hdisk, -⟩ := hopenable.original
    rw [mounted_missing (by decide +kernel) (by decide +kernel)] at hdisk
    cases hdisk

end SmartDisk.FuseListing
