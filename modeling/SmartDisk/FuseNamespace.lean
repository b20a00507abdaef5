import Mathlib.Data.List.DropRight
import SmartDisk.BBFS

/-!
# The names of the mounted file system

A path of the mounted file system stands for a file below `rootdir`: the one that
`bb_getattr` reports on, with `.ppm` in place of a final `.jpg` or `.png`. Every
handler has to find it for itself. Most of them leave the extension as it is, so they
agree with `bb_getattr` on the other paths only. `bb_open` reads the original under the
name of the request, and `bb_readdir` lists the names below `rootdir`: a `.ppm` that is
listed opens only where the second directory has a file of that name.
-/
namespace SmartDisk.FuseNamespace
open DescriptorTable BBFS
variable {α β : Type}

/-! ### Pictures and their decoded files -/

def IsPicture (path : CString) : Prop := JPG <:+ path ∨ PNG <:+ path

instance (path : CString) : Decidable (IsPicture path) :=
  inferInstanceAs (Decidable (JPG <:+ path ∨ PNG <:+ path))

abbrev PPM : CString := ['.', 'p', 'p', 'm']

/-- A final `.jpg` or `.png` replaced by `.ppm`. -/
def decoded (path : CString) : CString :=
  if IsPicture path then path.rdrop 4 ++ PPM else path

/-- The file below `root` that a mounted path stands for. -/
def underlying (root path : CString) : CString := root ++ decoded path

theorem endswith_iff (str suffix : CString) : endswith str suffix = true ↔ suffix <:+ str := by
  unfold endswith
  simp only
  by_cases hlong : str.length < suffix.length
  · rw [if_pos hlong]
    refine iff_of_false Bool.false_ne_true fun h => ?_
    have hle := h.length_le
    omega
  · rw [if_neg hlong, beq_iff_eq, List.take_length, List.take_of_length_le (by simp; omega),
      List.suffix_iff_eq_drop, eq_comm]

theorem accept_path_iff (path : CString) : accept_path path = true ↔ IsPicture path := by
  unfold accept_path IsPicture
  rw [Bool.or_eq_true, endswith_iff, endswith_iff]

theorem isPicture_iff (path : CString) :
    IsPicture path ↔ ∃ stem ext, path = stem ++ ext ∧ (ext = JPG ∨ ext = PNG) := by
  unfold IsPicture
  constructor
  · intro h
    cases h with
    | inl h => exact ⟨_, JPG, h.choose_spec.symm, .inl rfl⟩
    | inr h => exact ⟨_, PNG, h.choose_spec.symm, .inr rfl⟩
  · intro h
    obtain ⟨stem, ext, rfl, rfl | rfl⟩ := h
    · exact .inl (List.suffix_append ..)
    · exact .inr (List.suffix_append ..)

theorem decoded_of_not {path : CString} (h : ¬ IsPicture path) : decoded path = path := if_neg h

theorem decoded_append (stem : CString) {ext : CString} (hext : ext = JPG ∨ ext = PNG) :
    decoded (stem ++ ext) = stem ++ PPM := by
  unfold decoded
  rw [if_pos ((isPicture_iff _).mpr ⟨stem, ext, rfl, hext⟩)]
  cases hext with
  | inl h => rw [h]; exact congrArg (· ++ PPM) (List.rdrop_append_length ..)
  | inr h => rw [h]; exact congrArg (· ++ PPM) (List.rdrop_append_length ..)

theorem convert_eq_decoded (path : CString) :
    (convert_if_accept_path path).1 = decoded path := by
  unfold convert_if_accept_path
  by_cases h : IsPicture path
  · rw [if_pos ((accept_path_iff path).mpr h)]
    obtain ⟨stem, ext, rfl, hext⟩ := (isPicture_iff path).mp h
    rw [decoded_append stem hext]
    cases hext with
    | inl h => simp [h]
    | inr h => simp [h]
  · rw [if_neg fun hacc => h ((accept_path_iff path).mp hacc), decoded_of_not h]

@[simp] theorem length_decoded (path : CString) : (decoded path).length = path.length := by
  by_cases h : IsPicture path
  · obtain ⟨stem, ext, rfl, hext⟩ := (isPicture_iff path).mp h
    rw [decoded_append stem hext, List.length_append, List.length_append]
    cases hext with
    | inl h => rw [h]; rfl
    | inr h => rw [h]; rfl
  · rw [decoded_of_not h]

theorem not_isPicture_ppm (stem : CString) : ¬ IsPicture (stem ++ PPM) := by
  intro h
  obtain ⟨other, ext, heq, hext⟩ := (isPicture_iff _).mp h
  cases hext with
  | inl h =>
      rw [h] at heq
      exact absurd (List.append_inj_right' heq rfl) (by decide)
  | inr h =>
      rw [h] at heq
      exact absurd (List.append_inj_right' heq rfl) (by decide)

theorem not_isPicture_decoded (path : CString) : ¬ IsPicture (decoded path) := by
  by_cases h : IsPicture path
  · obtain ⟨stem, ext, rfl, hext⟩ := (isPicture_iff path).mp h
    rw [decoded_append stem hext]
    exact not_isPicture_ppm stem
  · rw [decoded_of_not h]
    exact h

theorem decoded_eq_iff (path : CString) : decoded path = path ↔ ¬ IsPicture path := by
  constructor
  · intro h
    rw [← h]
    exact not_isPicture_decoded path
  · exact decoded_of_not

/-- The path of an entry of a directory. -/
def child (dir name : CString) : CString :=
  if dir = ['/'] then dir ++ name else dir ++ '/' :: name

theorem exists_child (dir : CString) : ∃ front, ∀ name, child dir name = front ++ '/' :: name := by
  unfold child
  by_cases h : dir = ['/']
  · exact ⟨[], fun name => by rw [if_pos h, h]; rfl⟩
  · exact ⟨dir, fun name => if_neg h⟩

theorem suffix_child {ext : CString} (hext : '/' ∉ ext) (front name : CString) :
    ext <:+ front ++ '/' :: name ↔ ext <:+ name := by
  constructor
  · intro h
    have hrest : '/' :: name <:+ front ++ '/' :: name := List.suffix_append ..
    cases List.suffix_or_suffix_of_suffix h hrest with
    | inl hshort =>
        cases List.suffix_cons_iff.mp hshort with
        | inl heq => exact absurd (heq ▸ List.mem_cons_self) hext
        | inr hname => exact hname
    | inr hlong => exact absurd (hlong.subset List.mem_cons_self) hext
  · intro h
    exact (h.trans (List.suffix_cons ..)).trans (List.suffix_append ..)

theorem decoded_child (dir name : CString) :
    decoded (child dir name) = child dir (decoded name) := by
  obtain ⟨front, hchild⟩ := exists_child dir
  rw [hchild, hchild]
  by_cases h : IsPicture name
  · obtain ⟨stem, ext, rfl, hext⟩ := (isPicture_iff name).mp h
    rw [decoded_append stem hext, ← List.cons_append, ← List.append_assoc,
      decoded_append _ hext, List.append_assoc, List.cons_append]
  · rw [decoded_of_not h, decoded_of_not]
    intro hchild
    refine h (hchild.imp ?_ ?_)
    · exact (suffix_child (by decide) front name).mp
    · exact (suffix_child (by decide) front name).mp

/-! ### What a handler names -/

theorem fullpath_eq {dir : CString} {path : CString} (h : dir.length + path.length < PATH_MAX) :
    fullpath (some dir) path = some (dir ++ path) := by
  have hdir : dir.length < PATH_MAX := by omega
  have hpath : path.length ≤ PATH_MAX := by omega
  unfold fullpath strncat strcpy
  rw [Option.bind_eq_bind, Option.bind_some, if_pos hdir, List.take_of_length_le hpath]
  exact if_pos (by rw [List.length_append]; exact h)

theorem fullpath_none {dir : CString} {path : CString} (h : ¬ dir.length + path.length < PATH_MAX) :
    fullpath (some dir) path = none := by
  unfold fullpath strncat strcpy
  rw [Option.bind_eq_bind, Option.bind_some]
  split
  · refine if_neg ?_
    rw [List.length_append, List.length_take]
    omega
  · rfl

theorem fullpath_eq_none_iff (dir : Option CString) (path : CString) :
    fullpath dir path = none ↔ ∀ d, dir = some d → ¬ d.length + path.length < PATH_MAX := by
  cases dir with
  | none => exact iff_of_true rfl nofun
  | some dir =>
      constructor
      · intro hnone d hd hfits
        cases hd
        rw [fullpath_eq hfits] at hnone
        cases hnone
      · intro h
        exact fullpath_none (h dir rfl)

/-- The action has a result in every state. The file names that its calls give to the kernel
satisfy `P`. -/
def Names (x : BB α) (P : List CString → Prop) : Prop :=
  ∀ s, ∃ a t calls, x s = some (a, t) ∧ t.served = s.served ++ calls ∧
    P (calls.flatMap Syscall.names)

/-- The action has no result in any state. -/
def Undefined (x : BB α) : Prop := ∀ s, x s = none

section
variable {x : BB α} {P : List CString → Prop}

theorem Names.mono {Q : List CString → Prop} (hx : Names x P) (h : ∀ l, P l → Q l) :
    Names x Q := by
  intro s
  obtain ⟨a, t, calls, hrun, hserved, hP⟩ := hx s
  exact ⟨a, t, calls, hrun, hserved, h _ hP⟩

theorem Names.pure (a : α) : Names (pure a) (· = []) :=
  fun s => ⟨a, s, [], rfl, (List.append_nil _).symm, rfl⟩

/-- The names of a sequence are those of its parts, one after the other. -/
theorem Names.bind {Q : List CString → Prop} {f : α → BB β} (hx : Names x P)
    (hf : ∀ a, Names (f a) Q) : Names (x >>= f) fun l => ∃ m n, l = m ++ n ∧ P m ∧ Q n := by
  intro s
  obtain ⟨a, t, calls, hrun, hserved, hP⟩ := hx s
  obtain ⟨b, u, more, hrun', hserved', hQ⟩ := hf a t
  refine ⟨b, u, calls ++ more, ?_, ?_, _, _, List.flatMap_append, hP, hQ⟩
  · change (x s).bind _ = _
    rw [hrun]
    exact hrun'
  · rw [hserved', hserved, List.append_assoc]

/-- What follows an action without names. -/
theorem Names.andThen {f : α → BB β} (hx : Names x (· = [])) (hf : ∀ a, Names (f a) P) :
    Names (x >>= f) P := by
  refine (hx.bind hf).mono fun l h => ?_
  obtain ⟨m, n, rfl, rfl, hP⟩ := h
  exact hP

/-- An action without names that follows. -/
theorem Names.followed {f : α → BB β} (hx : Names x P) (hf : ∀ a, Names (f a) (· = [])) :
    Names (x >>= f) P := by
  refine (hx.bind hf).mono fun l h => ?_
  obtain ⟨m, n, rfl, hP, rfl⟩ := h
  rw [List.append_nil]
  exact hP

theorem Names.and {Q : List CString → Prop} (hx : Names x P) (hy : Names x Q) :
    Names x fun l => P l ∧ Q l := by
  intro s
  obtain ⟨a, t, calls, hrun, hserved, hP⟩ := hx s
  obtain ⟨b, u, more, hrun', hserved', hQ⟩ := hy s
  rw [hrun] at hrun'
  cases hrun'
  rw [hserved] at hserved'
  cases List.append_cancel_left hserved'
  exact ⟨a, t, calls, hrun, hserved, hP, hQ⟩

theorem Names.exists (hx : Names x P) : ∃ l, P l := by
  obtain ⟨a, t, calls, -, -, hP⟩ := hx ⟨⟨fun _ => none, .empty, .empty, 0⟩, []⟩
  exact ⟨_, hP⟩

theorem Names.discard (hx : Names x P) : Names (discard x) P :=
  hx.followed fun _ => Names.pure _

theorem Undefined.bind (f : α → BB β) (hx : Undefined x) : Undefined (x >>= f) := by
  intro s
  change (x s).bind _ = none
  rw [hx s]
  rfl

theorem Undefined.discard (hx : Undefined x) : Undefined (discard x) :=
  hx.bind fun _ => pure PUnit.unit

theorem Undefined.not_names (hx : Undefined x) : ¬ Names x P := by
  intro h
  obtain ⟨a, t, calls, hrun, -⟩ := h ⟨⟨fun _ => none, .empty, .empty, 0⟩, []⟩
  rw [hx] at hrun
  cases hrun

end

theorem lift_some (a : α) (f : α → BB β) : (liftM (some a) >>= f : BB β) = f a := rfl

theorem names_syscall (k : Kernel) (c : Syscall) : Names (syscall k c) (· = c.names) :=
  fun _ => ⟨_, _, [c], rfl, rfl, List.flatMap_singleton ..⟩

theorem names_log_error : Names log_error (· = []) :=
  fun s => ⟨_, s, [], rfl, (List.append_nil _).symm, rfl⟩

theorem names_log_syscall (reply : Reply) (min_ret : ℤ) :
    Names (log_syscall reply min_ret) (· = []) := by
  unfold log_syscall
  split
  · exact names_log_error.andThen fun _ => .pure _
  · exact .pure _

section
variable {k : Kernel} {bb : BBState} {root : CString}

theorem on_fullpath_names (hroot : bb.rootdir = some root) (call : CString → Syscall)
    {path : CString} (h : root.length + path.length < PATH_MAX) :
    Names (on_fullpath k bb call path) (· = (call (root ++ path)).names) := by
  unfold on_fullpath bb_fullpath
  rw [hroot, fullpath_eq h, lift_some]
  exact (names_syscall k _).followed fun _ => names_log_syscall _ _

theorem on_fullpath_undefined (call : CString → Syscall) {path : CString}
    (h : bb_fullpath bb path = none) : Undefined (on_fullpath k bb call path) := by
  unfold on_fullpath
  rw [h]
  exact fun _ => rfl

theorem on_fullpaths_names (hroot : bb.rootdir = some root) (call : CString → CString → Syscall)
    {path newpath : CString} (h : root.length + path.length < PATH_MAX)
    (hnew : root.length + newpath.length < PATH_MAX) :
    Names (on_fullpaths k bb call path newpath)
      (· = (call (root ++ path) (root ++ newpath)).names) := by
  unfold on_fullpaths bb_fullpath
  rw [hroot, fullpath_eq h, fullpath_eq hnew, lift_some, lift_some]
  exact (names_syscall k _).followed fun _ => names_log_syscall _ _

theorem on_fullpaths_undefined (call : CString → CString → Syscall) {path newpath : CString}
    (h : bb_fullpath bb path = none ∨ bb_fullpath bb newpath = none) :
    Undefined (on_fullpaths k bb call path newpath) := by
  unfold on_fullpaths
  intro s
  cases h with
  | inl h => rw [h]; rfl
  | inr h =>
      rw [h]
      cases bb_fullpath bb path with
      | none => rfl
      | some fpath => rfl

theorem getattr_eq {path : CString} (h : path.length < PATH_MAX) :
    bb_getattr k bb path = on_fullpath k bb .lstat (decoded path) := by
  unfold bb_getattr strcpy
  rw [if_pos h, ← convert_eq_decoded]
  rfl

theorem getattr_undefined {path : CString} (h : bb_fullpath bb (decoded path) = none) :
    Undefined (bb_getattr k bb path) := by
  unfold bb_getattr strcpy
  split
  · rw [lift_some, convert_eq_decoded]
    exact on_fullpath_undefined _ h
  · exact fun _ => rfl

theorem getattr_names (hroot : bb.rootdir = some root) {path : CString}
    (h : root.length + path.length < PATH_MAX) :
    Names (bb_getattr k bb path) (· = [underlying root path]) := by
  rw [getattr_eq (by omega)]
  exact on_fullpath_names hroot _ (by rw [length_decoded]; exact h)

end

/-! ### Requests -/

/-- The paths that a handler resolves. Those that work on an open file resolve none, except
that `bb_fgetattr` asks for the mount point by its name. -/
def paths : Request → List CString
  | .rename path newpath | .link path newpath => [path, newpath]
  | .symlink _ link => [link]
  | .getattr path | .readlink path _ | .mknod path _ _ | .mkdir path _ | .unlink path
  | .rmdir path | .chmod path _ | .chown path _ _ | .truncate path _ | .utime path _
  | .open_ path _ | .statfs path | .setxattr path _ _ _ | .getxattr path _ _
  | .listxattr path _ | .removexattr path _ | .opendir path _ | .access path _ => [path]
  | .fgetattr path _ => if path = ['/'] then [path] else []
  | .read _ _ _ _ | .write _ _ _ _ | .flush _ _ | .release _ _ | .fsync _ _ _
  | .readdir _ _ _ | .releasedir _ _ | .fsyncdir _ _ _ | .ftruncate _ _ _ => []

/-- The requests whose handlers convert the extension. -/
def converts : Request → Bool
  | .getattr _ | .open_ _ _ => true
  | _ => false

/-- The request that reads the original first, and goes no further when that fails. -/
def emulates : Request → Bool
  | .open_ _ _ => true
  | _ => false

/-- The full names fit into the buffers of the handler, and their directories exist. -/
def Fits (bb : BBState) (r : Request) : Prop :=
  (∃ root, bb.rootdir = some root ∧ ∀ p ∈ paths r, root.length + p.length < PATH_MAX) ∧
  (emulates r = true →
    ∃ jpg, bb.jpgdir = some jpg ∧ ∀ p ∈ paths r, jpg.length + p.length < PATH_MAX)

/-- The handler gives to the kernel the names of the files that its paths stand for, and no
others. Only `bb_open` may give none, when it cannot read the original. -/
def Coherent (k : Kernel) (bb : BBState) (r : Request) : Prop :=
  ∃ root, bb.rootdir = some root ∧ Names (bb_oper k bb r) fun names =>
    names = (paths r).map (underlying root) ∨ (emulates r = true ∧ names = [])

section
variable {k : Kernel} {bb : BBState} {root : CString}

theorem names_swallow (k : Kernel) (path : CString) : Names (swallow k path) (· = []) :=
  fun _ => ⟨_, _, [], rfl, (List.append_nil _).symm, rfl⟩

/-- `bb_open` where the full names fit into their buffers. -/
theorem open_eq {jpg : CString} (hroot : bb.rootdir = some root) (hjpg : bb.jpgdir = some jpg)
    {path : CString} (h : root.length + path.length < PATH_MAX)
    (h' : jpg.length + path.length < PATH_MAX) (fi : FileInfo) :
    bb_open k bb path fi = (do
      if (← swallow k (jpg ++ path)) < 0 then
        return (← log_error, fi)
      else
        let fd ← log_syscall (← syscall k (.open_ (underlying root path) fi.flags none)) 0
        if fd.retstat < 0 then
          return (← log_error, { fi with fh := fd.retstat })
        else
          return (0, { fi with fh := fd.retstat })) := by
  have hdecoded : root.length + (decoded path).length < PATH_MAX := by
    rw [length_decoded]
    exact h
  unfold bb_open strcpy bb_fullpath jpg_fullpath
  rw [if_pos (by omega), hroot, hjpg, lift_some, convert_eq_decoded, fullpath_eq hdecoded,
    fullpath_eq h', lift_some, lift_some]
  rfl

theorem open_names {jpg : CString} (hroot : bb.rootdir = some root) (hjpg : bb.jpgdir = some jpg)
    {path : CString} (h : root.length + path.length < PATH_MAX)
    (h' : jpg.length + path.length < PATH_MAX) (fi : FileInfo) :
    Names (bb_open k bb path fi) fun names => names = [underlying root path] ∨ names = [] := by
  rw [open_eq hroot hjpg h h']
  refine (names_swallow k _).andThen fun swallowed => ?_
  split
  · exact (names_log_error.andThen fun _ => .pure _).mono fun _ => Or.inr
  · refine Names.mono ?_ fun _ => Or.inl
    refine (names_syscall k (.open_ (underlying root path) fi.flags none)).followed fun reply => ?_
    refine (names_log_syscall _ _).andThen fun fd => ?_
    split
    · exact names_log_error.andThen fun _ => .pure _
    · exact .pure _

theorem open_undefined {path : CString} (fi : FileInfo)
    (h : bb_fullpath bb (decoded path) = none ∨ jpg_fullpath bb path = none) :
    Undefined (bb_open k bb path fi) := by
  unfold bb_open
  intro s
  unfold strcpy
  split
  · rw [lift_some, convert_eq_decoded]
    cases h with
    | inl h => rw [h]; rfl
    | inr h =>
        rw [h]
        cases bb_fullpath bb (decoded path) with
        | none => rfl
        | some fpath => rfl
  · rfl

/-- A handler that ends with a call on an open file. -/
theorem names_fd_call (c : Syscall) (hc : c.names = []) :
    Names (do log_syscall (← syscall k c) 0) (· = []) :=
  ((names_syscall k c).mono fun _ h => h.trans hc).followed fun _ => names_log_syscall _ _

/-- The same with the error reported by hand. -/
theorem names_reported (reply : Reply) :
    Names (do
      if reply.retstat < 0 then
        return { reply with retstat := ← log_error }
      else
        return reply) (· = []) := by
  split
  · exact names_log_error.andThen fun _ => .pure _
  · exact .pure _

/-- The name that the handler of `r` gives to the kernel for the path `p`. -/
def resolve (root : CString) (r : Request) (p : CString) : CString :=
  if converts r then underlying root p else root ++ p

theorem oper_names (hroot : bb.rootdir = some root) (r : Request) (h : Fits bb r) :
    Names (bb_oper k bb r) fun names =>
      names = (paths r).map (resolve root r) ∨ (emulates r = true ∧ names = []) := by
  obtain ⟨⟨_, hroot', hpaths⟩, hjpg⟩ := h
  cases hroot.symm.trans hroot'
  cases r with
  | getattr path =>
      exact (getattr_names hroot (hpaths _ List.mem_cons_self)).discard.mono fun _ => .inl
  | readlink path size =>
      refine Names.mono (Names.discard (Names.followed ?_ fun reply => ?_)) fun _ => .inl
      · exact on_fullpath_names hroot _ (hpaths _ List.mem_cons_self)
      · split
        · exact .pure _
        · exact .pure _
  | mknod path mode dev =>
      have hpath := hpaths path List.mem_cons_self
      refine Names.mono (Names.discard ?_) fun _ => .inl
      unfold bb_mknod
      split
      · refine (on_fullpath_names hroot _ hpath).followed fun fd => ?_
        split
        · exact names_fd_call _ rfl
        · exact .pure _
      · split
        · exact on_fullpath_names hroot _ hpath
        · exact on_fullpath_names hroot _ hpath
  | rename path newpath =>
      exact (on_fullpaths_names hroot _ (hpaths _ List.mem_cons_self)
        (hpaths _ (.tail _ List.mem_cons_self))).discard.mono fun _ => .inl
  | link path newpath =>
      exact (on_fullpaths_names hroot _ (hpaths _ List.mem_cons_self)
        (hpaths _ (.tail _ List.mem_cons_self))).discard.mono fun _ => .inl
  | open_ path fi =>
      obtain ⟨jpg, hjpg, hpaths'⟩ := hjpg rfl
      exact (open_names hroot hjpg (hpaths _ List.mem_cons_self)
        (hpaths' _ List.mem_cons_self) fi).discard.mono fun _ => .imp id fun hnone => ⟨rfl, hnone⟩
  | opendir path fi =>
      have hpath := hpaths path List.mem_cons_self
      refine Names.mono (Names.discard ?_) fun _ => .inl
      unfold bb_opendir bb_fullpath
      rw [hroot, fullpath_eq hpath, lift_some]
      refine (names_syscall k _).followed fun dp => ?_
      split
      · exact names_log_error.andThen fun _ => .pure _
      · exact .pure _
  | access path mask =>
      have hpath := hpaths path List.mem_cons_self
      refine Names.mono (Names.discard ?_) fun _ => .inl
      unfold bb_access bb_fullpath
      rw [hroot, fullpath_eq hpath, lift_some]
      exact (names_syscall k _).followed names_reported
  | fgetattr path fi =>
      refine Names.mono (Names.discard ?_) fun _ => .inl
      unfold bb_fgetattr
      by_cases hmount : path = ['/']
      · subst hmount
        rw [if_pos rfl]
        exact getattr_names hroot (hpaths _ List.mem_cons_self)
      · have hnone : paths (.fgetattr path fi) = [] := if_neg hmount
        rw [if_neg hmount, hnone]
        exact (names_syscall k (.fstat fi.fh)).followed names_reported
  | mkdir path _ | unlink path | rmdir path | symlink _ path | chmod path _ | chown path _ _
  | truncate path _ | utime path _ | statfs path | setxattr path _ _ _ | getxattr path _ _
  | listxattr path _ | removexattr path _ =>
      exact (on_fullpath_names hroot _ (hpaths path List.mem_cons_self)).discard.mono fun _ => .inl
  | read _ size offset fi => exact (names_fd_call _ rfl).discard.mono fun _ => .inl
  | write _ buf offset fi => exact (names_fd_call _ rfl).discard.mono fun _ => .inl
  | release _ fi => exact (names_fd_call _ rfl).discard.mono fun _ => .inl
  | fsync _ datasync fi =>
      refine Names.mono (Names.discard ?_) fun _ => .inl
      unfold bb_fsync
      split
      · exact names_fd_call _ rfl
      · exact names_fd_call _ rfl
  | flush _ _ | fsyncdir _ _ _ => exact (Names.pure _).discard.mono fun _ => .inl
  | readdir _ filler fi =>
      refine Names.mono (Names.discard ?_) fun _ => .inl
      intro s
      unfold bb_readdir
      split
      · exact ⟨_, _, [], rfl, (List.append_nil _).symm, rfl⟩
      · exact ⟨_, _, [], rfl, (List.append_nil _).symm, rfl⟩
      · exact ⟨_, _, [], rfl, (List.append_nil _).symm, rfl⟩
  | releasedir _ fi =>
      exact Names.mono (Names.discard ((names_syscall k (.closedir fi.fh)).followed
        fun _ => .pure _)) fun _ => .inl
  | ftruncate _ offset fi =>
      exact ((names_syscall k (.ftruncate fi.fh offset)).followed names_reported).discard.mono
        fun _ => .inl

theorem oper_undefined (r : Request) {p : CString} (hp : p ∈ paths r)
    (h : bb_fullpath bb p = none) : Undefined (bb_oper k bb r) := by
  have hdecoded : bb_fullpath bb (decoded p) = none := by
    unfold bb_fullpath at h ⊢
    rw [fullpath_eq_none_iff] at h ⊢
    rw [length_decoded]
    exact h
  cases r with
  | getattr path =>
      cases List.mem_singleton.mp hp
      exact (getattr_undefined hdecoded).discard
  | readlink path size =>
      cases List.mem_singleton.mp hp
      exact ((on_fullpath_undefined _ h).bind _).discard
  | mknod path mode dev =>
      cases List.mem_singleton.mp hp
      refine Undefined.discard ?_
      unfold bb_mknod
      split
      · exact (on_fullpath_undefined _ h).bind _
      · split
        · exact on_fullpath_undefined _ h
        · exact on_fullpath_undefined _ h
  | rename path newpath | link path newpath =>
      refine (on_fullpaths_undefined _ ?_).discard
      cases List.mem_cons.mp hp with
      | inl heq => exact .inl (heq ▸ h)
      | inr htail => exact .inr (List.mem_singleton.mp htail ▸ h)
  | open_ path fi =>
      cases List.mem_singleton.mp hp
      exact (open_undefined fi (.inl hdecoded)).discard
  | opendir path fi =>
      cases List.mem_singleton.mp hp
      refine Undefined.discard ?_
      unfold bb_opendir
      rw [h]
      exact fun _ => rfl
  | access path mask =>
      cases List.mem_singleton.mp hp
      refine Undefined.discard ?_
      unfold bb_access
      rw [h]
      exact fun _ => rfl
  | fgetattr path fi =>
      by_cases hmount : path = ['/']
      · have hone : paths (.fgetattr path fi) = [path] := if_pos hmount
        rw [hone] at hp
        cases List.mem_singleton.mp hp
        refine Undefined.discard ?_
        unfold bb_fgetattr
        rw [if_pos hmount]
        exact getattr_undefined hdecoded
      · have hnone : paths (.fgetattr path fi) = [] := if_neg hmount
        rw [hnone] at hp
        cases hp
  | mkdir path _ | unlink path | rmdir path | symlink _ path | chmod path _ | chown path _ _
  | truncate path _ | utime path _ | statfs path | setxattr path _ _ _ | getxattr path _ _
  | listxattr path _ | removexattr path _ =>
      cases List.mem_singleton.mp hp
      exact (on_fullpath_undefined _ h).discard
  | read | write | release | fsync | flush | fsyncdir | readdir | releasedir | ftruncate => cases hp


theorem fits_of_coherent {r : Request} (h : Coherent k bb r) : Fits bb r := by
  obtain ⟨root, hroot, hnames⟩ := h
  constructor
  · refine ⟨root, hroot, fun p hp => ?_⟩
    by_contra hlong
    refine (oper_undefined r hp ?_).not_names hnames
    unfold bb_fullpath
    rw [hroot]
    exact fullpath_none hlong
  · intro hemulates
    cases r with
    | open_ path fi =>
        by_contra hlong
        refine (open_undefined fi (.inr ?_)).discard.not_names hnames
        refine (fullpath_eq_none_iff _ _).mpr fun jpg hjpg hfits => hlong ⟨jpg, hjpg, ?_⟩
        intro p hp
        cases List.mem_singleton.mp hp
        exact hfits
    | _ => cases hemulates

theorem converts_of_emulates {r : Request} (h : emulates r = true) : converts r = true := by
  cases r with
  | open_ path fi => rfl
  | _ => cases h

/-- A handler agrees with `bb_getattr` if and only if the names fit and it converts the
extension or has nothing to convert. -/
theorem coherent_request (k : Kernel) (bb : BBState) (r : Request) :
    Coherent k bb r ↔
      Fits bb r ∧ (converts r = true ∨ ∀ p ∈ paths r, ¬ IsPicture p) := by
  constructor
  · intro h
    have hfits := fits_of_coherent h
    refine ⟨hfits, ?_⟩
    obtain ⟨root, hroot, hnames⟩ := h
    by_cases hconverts : converts r = true
    · exact .inl hconverts
    · have hemulates : ¬ emulates r = true := fun h => hconverts (converts_of_emulates h)
      obtain ⟨names, hreal, hunderlying⟩ := ((oper_names hroot r hfits).and hnames).exists
      rw [or_iff_left (fun h => hemulates h.1)] at hreal hunderlying
      refine .inr fun p hp => (decoded_eq_iff p).mp ?_
      have hsame : resolve root r p = underlying root p :=
        List.map_inj_left.mp (hreal.symm.trans hunderlying) p hp
      unfold resolve underlying at hsame
      rw [if_neg hconverts] at hsame
      exact (List.append_cancel_left hsame).symm
  · intro h
    obtain ⟨hfits, hsame⟩ := h
    obtain ⟨root, hroot, -⟩ := hfits.1
    refine ⟨root, hroot, (oper_names hroot r hfits).mono fun names => .imp ?_ id⟩
    intro hnames
    rw [hnames]
    refine List.map_congr_left fun p hp => ?_
    unfold resolve
    split
    · rfl
    · rename_i hconverts
      unfold underlying
      rw [decoded_of_not (hsame.resolve_left hconverts p hp)]

end

end SmartDisk.FuseNamespace
