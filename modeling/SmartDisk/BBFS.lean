import Mathlib.Data.List.Basic
import SmartDisk.DescriptorTable

/-!
# The FUSE file system over decoded pictures

`fuse/src/bbfs.c`: every request of the mounted file system goes to a directory that
holds the decoded pictures. `bb_getattr` and `bb_open` name the `.ppm` in place of a
`.jpg` or `.png`, and `bb_open` reads the original from a second directory first.

A C string is the list of its characters, without the NUL. What C leaves undefined (a
buffer that overflows, a copy from NULL) has no result, but a pointer to no open directory
stream is the error `EBADF`, which POSIX leaves to the implementation. The kernel is
modelled for the calls whose outcome the handlers depend on; the outcome of all others is
a parameter, and the handlers hand it on. Log messages are left out.
-/
namespace SmartDisk.BBFS
open DescriptorTable

abbrev CString := List Char

def PATH_MAX : ℕ := 4096

/-! ### Utility functions -/

/-- Copies into a buffer of `PATH_MAX` characters, the NUL included. -/
def strcpy (src : CString) : Option CString :=
  if src.length < PATH_MAX then some src else none

/-- Appends at most `n` characters to what such a buffer holds. -/
def strncat (dest src : CString) (n : ℕ) : Option CString := strcpy (dest ++ src.take n)

def endswith (str suffix : CString) : Bool :=
  let lenstr := str.length
  let lensuffix := suffix.length
  if lensuffix > lenstr then false
  else (str.drop (lenstr - lensuffix)).take lensuffix == suffix.take lensuffix

abbrev JPG : CString := ['.', 'j', 'p', 'g']

abbrev PNG : CString := ['.', 'p', 'n', 'g']

def accept_path (path : CString) : Bool :=
  endswith path JPG || endswith path PNG

/-- The path it leaves in place, and what it returns. -/
def convert_if_accept_path (path : CString) : CString × Bool :=
  if accept_path path then
    let l := path.length
    (((path.set (l - 3) 'p').set (l - 2) 'p').set (l - 1) 'm', true)
  else (path, false)

/-- The directories as `realpath` resolved them at the start, `none` for NULL. -/
structure BBState where
  rootdir : Option CString
  jpgdir : Option CString

/-- What `jpg_fullpath` and `bb_fullpath` do with their directory. -/
def fullpath (dir : Option CString) (path : CString) : Option CString := do
  let fpath ← strcpy (← dir)
  strncat fpath path PATH_MAX

def jpg_fullpath (bb : BBState) (path : CString) : Option CString := fullpath bb.jpgdir path

def bb_fullpath (bb : BBState) (path : CString) : Option CString := fullpath bb.rootdir path

/-! ### The kernel -/

def ENOENT : ℕ := 2
def EBADF : ℕ := 9
def ENOMEM : ℕ := 12
def ENOTDIR : ℕ := 20
def EISDIR : ℕ := 21

def O_RDONLY : ℕ := 0
def O_WRONLY : ℕ := 1
def O_CREAT : ℕ := 0x40
def O_EXCL : ℕ := 0x80
def O_TRUNC : ℕ := 0x200

inductive Kind where
  | regular | directory (names : List CString) | special

/-- `refuses flags` is the error of an `open` with these flags, `none` if it succeeds. -/
structure Inode where
  kind : Kind
  st_size : ℕ
  refuses : ℕ → Option ℕ

structure File where
  name : CString
  inode : Inode
  pos : ℕ

/-- `disk` is what a file name leads to. A `DIR` stream holds the names not read yet; its
pointer is its number and 1. -/
structure Machine where
  disk : CString → Option Inode
  files : Table File
  dirs : Table (List CString)
  errno : ℕ

inductive Syscall where
  | lstat (path : CString)
  | readlink (path : CString) (bufsiz : ℕ)
  | open_ (path : CString) (flags : ℕ) (mode : Option ℕ)
  | close (fd : ℤ)
  | mkfifo (path : CString) (mode : ℕ)
  | mknod (path : CString) (mode dev : ℕ)
  | mkdir (path : CString) (mode : ℕ)
  | unlink (path : CString)
  | rmdir (path : CString)
  | symlink (target linkpath : CString)
  | rename (oldpath newpath : CString)
  | link (oldpath newpath : CString)
  | chmod (path : CString) (mode : ℕ)
  | chown (path : CString) (uid gid : ℕ)
  | truncate (path : CString) (length : ℤ)
  | utime (path : CString) (times : Option (ℤ × ℤ))
  | pread (fd : ℤ) (count : ℕ) (offset : ℤ)
  | pwrite (fd : ℤ) (buf : List UInt8) (offset : ℤ)
  | statvfs (path : CString)
  | fsync (fd : ℤ)
  | fdatasync (fd : ℤ)
  | lsetxattr (path name : CString) (value : List UInt8) (flags : ℤ)
  | lgetxattr (path name : CString) (size : ℕ)
  | llistxattr (path : CString) (size : ℕ)
  | lremovexattr (path name : CString)
  | opendir (name : CString)
  | closedir (dirp : ℤ)
  | access (path : CString) (mode : ℕ)
  | ftruncate (fd : ℤ) (length : ℤ)
  | fstat (fd : ℤ)

/-- The file names that a call gives to the kernel. The target of a symbolic link is data. -/
def Syscall.names : Syscall → List CString
  | .rename oldpath newpath | .link oldpath newpath => [oldpath, newpath]
  | .symlink _ linkpath => [linkpath]
  | .lstat path | .readlink path _ | .open_ path _ _ | .mkfifo path _ | .mknod path _ _
  | .mkdir path _ | .unlink path | .rmdir path | .chmod path _ | .chown path _ _
  | .truncate path _ | .utime path _ | .statvfs path | .lsetxattr path _ _ _
  | .lgetxattr path _ _ | .llistxattr path _ | .lremovexattr path _ | .opendir path
  | .access path _ => [path]
  | .close _ | .pread _ _ _ | .pwrite _ _ _ | .fsync _ | .fdatasync _ | .closedir _
  | .ftruncate _ _ | .fstat _ => []

/-- A return value, and what the call put into the caller's buffer. -/
structure Reply where
  retstat : ℤ
  data : List UInt8 := []

namespace Machine

def fail (m : Machine) (errno : ℕ) : ℤ × Machine := (-1, { m with errno })

/-- The size that `stat` reports, `none` if it fails. -/
def stat (m : Machine) (path : CString) : Option ℕ × Machine :=
  match m.disk path with
  | none => (none, { m with errno := ENOENT })
  | some inode => (some inode.st_size, m)

/-- `open` without flags for creation or truncation. -/
def open_ (m : Machine) (path : CString) (flags : ℕ) : ℤ × Machine :=
  match m.disk path with
  | none => m.fail ENOENT
  | some inode =>
    match inode.refuses flags with
    | some errno => m.fail errno
    | none => (m.files.lowest, { m with files := m.files.set m.files.lowest ⟨path, inode, 0⟩ })

/-- `read` on a regular file delivers what is left, but at most `chunk` bytes at once. -/
def read (m : Machine) (chunk : ℕ) (fd : ℤ) (count : ℕ) : ℤ × Machine :=
  match m.files.lookup fd with
  | none => m.fail EBADF
  | some file =>
    match file.inode.kind with
    | .regular =>
      let rv := min (min count chunk) (file.inode.st_size - file.pos)
      (rv, { m with files := m.files.set fd.toNat { file with pos := file.pos + rv } })
    | _ => m.fail EISDIR

def close (m : Machine) (fd : ℤ) : ℤ × Machine :=
  match m.files.lookup fd with
  | none => m.fail EBADF
  | some _ => (0, { m with files := m.files.erase fd.toNat })

/-- The new stream, NULL if there is none. -/
def opendir (m : Machine) (name : CString) : ℤ × Machine :=
  match m.disk name with
  | none => (0, { m with errno := ENOENT })
  | some inode =>
    match inode.kind with
    | .directory names =>
      match inode.refuses O_RDONLY with
      | some errno => (0, { m with errno })
      | none => (m.dirs.lowest + 1, { m with dirs := m.dirs.set m.dirs.lowest names })
    | _ => (0, { m with errno := ENOTDIR })

def closedir (m : Machine) (dirp : ℤ) : ℤ × Machine :=
  match m.dirs.lookup (dirp - 1) with
  | none => m.fail EBADF
  | some _ => (0, { m with dirs := m.dirs.erase (dirp - 1).toNat })

end Machine

/-- One `read` delivers `chunk` bytes at most. `other` is what the calls do that have no
definition here. -/
structure Kernel where
  chunk : ℕ
  chunk_pos : 0 < chunk
  other : Syscall → Machine → Reply × Machine

/-- No flags for creation or truncation. -/
def plain (flags : ℕ) : Bool := flags &&& (O_CREAT ||| O_EXCL ||| O_TRUNC) == 0

def Kernel.call (k : Kernel) (c : Syscall) (m : Machine) : Reply × Machine :=
  match c with
  | .open_ path flags mode =>
    if plain flags then ((m.open_ path flags).map (⟨·, []⟩) id)
    else k.other (.open_ path flags mode) m
  | .close fd => (m.close fd).map (⟨·, []⟩) id
  | .opendir name => (m.opendir name).map (⟨·, []⟩) id
  | .closedir dirp => (m.closedir dirp).map (⟨·, []⟩) id
  | _ => k.other c m

/-- `served` are the calls that the handlers made for their requests. What `swallow_file`
calls to emulate a read is not among them. -/
structure State where
  machine : Machine
  served : List Syscall

abbrev BB := StateT State Option

def syscall (k : Kernel) (c : Syscall) : BB Reply := fun s =>
  some ((k.call c s.machine).1, ⟨(k.call c s.machine).2, s.served ++ [c]⟩)

def log_error : BB ℤ := fun s => some (-(s.machine.errno : ℤ), s)

def log_syscall (reply : Reply) (min_ret : ℤ) : BB Reply := do
  if reply.retstat < min_ret then
    return { reply with retstat := ← log_error }
  else
    return reply

/-! ### The read that `bb_open` emulates -/

/-- A conversion to `int`. -/
def to_int (n : ℤ) : ℤ := (Int32.ofInt n).toInt

def find_size (m : Machine) (path : CString) : ℤ × Machine :=
  match m.stat path with
  | (some st_size, m) => (st_size, m)
  | (none, m) => (-1, m)

/-- The loop of `swallow_file`. A round that does not end it reads a byte at least, so `sz`
rounds are enough. -/
def read_loop (k : Kernel) (fd : ℤ) (sz : ℕ) : ℕ → ℕ → Machine → ℕ × Machine
  | 0, count, m => (count, m)
  | fuel + 1, count, m =>
    if count < sz then
      let (rv, m) := m.read k.chunk fd (sz - count)
      if rv ≤ 0 then (count, m) else read_loop k fd sz fuel (count + rv.toNat) m
    else (count, m)

def swallow_file (k : Kernel) (path : CString) (m : Machine) : ℤ × Machine :=
  let size := find_size m path
  let sz := to_int size.1
  if sz < 0 then (-1, size.2)
  else
    let fd := size.2.open_ path O_RDONLY
    let count := read_loop k fd.1 sz.toNat sz.toNat 0 fd.2
    (if count.1 = sz then sz else -1, (count.2.close fd.1).2)

def swallow (k : Kernel) (path : CString) : BB ℤ := fun s =>
  some ((swallow_file k path s.machine).1, { s with machine := (swallow_file k path s.machine).2 })

/-! ### The handlers -/

structure FileInfo where
  flags : ℕ
  fh : ℤ

section
variable (k : Kernel) (bb : BBState)

/-- Most handlers make one call on the full path. -/
def on_fullpath (call : CString → Syscall) (path : CString) : BB Reply := do
  let fpath ← bb_fullpath bb path
  log_syscall (← syscall k (call fpath)) 0

def bb_getattr (path : CString) : BB Reply := do
  let path_convert ← strcpy path
  on_fullpath k bb .lstat (convert_if_accept_path path_convert).1

/-- The target ends where the kernel stopped writing. -/
def bb_readlink (path : CString) (size : UInt64) : BB Reply := do
  let reply ← on_fullpath k bb (.readlink · (size - 1).toNat) path
  if reply.retstat ≥ 0 then
    return ⟨0, reply.data.take reply.retstat.toNat⟩
  else
    return reply

def S_ISREG (mode : ℕ) : Bool := mode &&& 0xF000 == 0x8000

def S_ISFIFO (mode : ℕ) : Bool := mode &&& 0xF000 == 0x1000

def bb_mknod (path : CString) (mode dev : ℕ) : BB Reply := do
  if S_ISREG mode then
    let fd ← on_fullpath k bb (.open_ · (O_CREAT ||| O_EXCL ||| O_WRONLY) (some mode)) path
    if fd.retstat ≥ 0 then
      log_syscall (← syscall k (.close fd.retstat)) 0
    else
      return fd
  else if S_ISFIFO mode then
    on_fullpath k bb (.mkfifo · mode) path
  else
    on_fullpath k bb (.mknod · mode dev) path

def bb_mkdir (path : CString) (mode : ℕ) : BB Reply := on_fullpath k bb (.mkdir · mode) path

def bb_unlink (path : CString) : BB Reply := on_fullpath k bb .unlink path

def bb_rmdir (path : CString) : BB Reply := on_fullpath k bb .rmdir path

/-- `path` is where the link points, and is not altered. -/
def bb_symlink (path link : CString) : BB Reply := on_fullpath k bb (.symlink path) link

/-- Both names are looked up before the call. -/
def on_fullpaths (call : CString → CString → Syscall) (path newpath : CString) : BB Reply := do
  let fpath ← bb_fullpath bb path
  let fnewpath ← bb_fullpath bb newpath
  log_syscall (← syscall k (call fpath fnewpath)) 0

def bb_rename (path newpath : CString) : BB Reply := on_fullpaths k bb .rename path newpath

def bb_link (path newpath : CString) : BB Reply := on_fullpaths k bb .link path newpath

def bb_chmod (path : CString) (mode : ℕ) : BB Reply := on_fullpath k bb (.chmod · mode) path

def bb_chown (path : CString) (uid gid : ℕ) : BB Reply := on_fullpath k bb (.chown · uid gid) path

def bb_truncate (path : CString) (newsize : ℤ) : BB Reply :=
  on_fullpath k bb (.truncate · newsize) path

def bb_utime (path : CString) (ubuf : Option (ℤ × ℤ)) : BB Reply :=
  on_fullpath k bb (.utime · ubuf) path

/-- The original is read under the name it has in the request, whether that name was converted
or not. -/
def bb_open (path : CString) (fi : FileInfo) : BB (ℤ × FileInfo) := do
  let path_convert ← strcpy path
  let fpath ← bb_fullpath bb (convert_if_accept_path path_convert).1
  let fpath_jpg ← jpg_fullpath bb path
  if (← swallow k fpath_jpg) < 0 then
    return (← log_error, fi)
  else
    let fd ← log_syscall (← syscall k (.open_ fpath fi.flags none)) 0
    if fd.retstat < 0 then
      return (← log_error, { fi with fh := fd.retstat })
    else
      return (0, { fi with fh := fd.retstat })

def bb_read (size : ℕ) (offset : ℤ) (fi : FileInfo) : BB Reply := do
  log_syscall (← syscall k (.pread fi.fh size offset)) 0

def bb_write (buf : List UInt8) (offset : ℤ) (fi : FileInfo) : BB Reply := do
  log_syscall (← syscall k (.pwrite fi.fh buf offset)) 0

def bb_statfs (path : CString) : BB Reply := on_fullpath k bb .statvfs path

def bb_flush : BB Reply := pure ⟨0, []⟩

def bb_release (fi : FileInfo) : BB Reply := do
  log_syscall (← syscall k (.close fi.fh)) 0

def bb_fsync (datasync : Bool) (fi : FileInfo) : BB Reply := do
  if datasync then
    log_syscall (← syscall k (.fdatasync fi.fh)) 0
  else
    log_syscall (← syscall k (.fsync fi.fh)) 0

def bb_setxattr (path name : CString) (value : List UInt8) (flags : ℤ) : BB Reply :=
  on_fullpath k bb (.lsetxattr · name value flags) path

def bb_getxattr (path name : CString) (size : ℕ) : BB Reply :=
  on_fullpath k bb (.lgetxattr · name size) path

def bb_listxattr (path : CString) (size : ℕ) : BB Reply :=
  on_fullpath k bb (.llistxattr · size) path

def bb_removexattr (path name : CString) : BB Reply := on_fullpath k bb (.lremovexattr · name) path

def bb_opendir (path : CString) (fi : FileInfo) : BB (ℤ × FileInfo) := do
  let fpath ← bb_fullpath bb path
  let dp ← syscall k (.opendir fpath)
  if dp.retstat = 0 then
    return (← log_error, { fi with fh := dp.retstat })
  else
    return (0, { fi with fh := dp.retstat })

/-- The names from the stream to the buffer, until `filler` says that it is full. What is left
of the stream comes last. -/
def fill (filler : List CString → CString → Bool) :
    List CString → List CString → ℤ × List CString × List CString
  | buf, [] => (0, buf, [])
  | buf, d_name :: rest =>
    if filler buf d_name then (-ENOMEM, buf, rest) else fill filler (buf ++ [d_name]) rest

/-- `filler` finds the buffer full or appends the name. A directory without a first name is an
error, and so is a pointer to no stream. -/
def bb_readdir (filler : List CString → CString → Bool) (fi : FileInfo) :
    BB (ℤ × List CString) := fun s =>
  match s.machine.dirs.lookup (fi.fh - 1) with
  | none => some ((-EBADF, []), { s with machine := (s.machine.fail EBADF).2 })
  | some [] => some ((-s.machine.errno, []), s)
  | some names =>
    let (retstat, buf, rest) := fill filler [] names
    let dirs := s.machine.dirs.set (fi.fh - 1).toNat rest
    some ((retstat, buf), { s with machine := { s.machine with dirs } })

def bb_releasedir (fi : FileInfo) : BB Reply := do
  let _ ← syscall k (.closedir fi.fh)
  return ⟨0, []⟩

def bb_fsyncdir : BB Reply := pure ⟨0, []⟩

def bb_access (path : CString) (mask : ℕ) : BB Reply := do
  let fpath ← bb_fullpath bb path
  let reply ← syscall k (.access fpath mask)
  if reply.retstat < 0 then
    return { reply with retstat := ← log_error }
  else
    return reply

def bb_ftruncate (offset : ℤ) (fi : FileInfo) : BB Reply := do
  let reply ← syscall k (.ftruncate fi.fh offset)
  if reply.retstat < 0 then
    return { reply with retstat := ← log_error }
  else
    return reply

/-- The mount point is asked for by its name. -/
def bb_fgetattr (path : CString) (fi : FileInfo) : BB Reply := do
  if path = ['/'] then
    bb_getattr k bb path
  else
    let reply ← syscall k (.fstat fi.fh)
    if reply.retstat < 0 then
      return { reply with retstat := ← log_error }
    else
      return reply

end

/-! ### The table of operations -/

/-- A request of the mounted file system to `bb_oper`. Those that work on an open file come
with its `fi`; their path is not used. -/
inductive Request where
  | getattr (path : CString)
  | readlink (path : CString) (size : UInt64)
  | mknod (path : CString) (mode dev : ℕ)
  | mkdir (path : CString) (mode : ℕ)
  | unlink (path : CString)
  | rmdir (path : CString)
  | symlink (path link : CString)
  | rename (path newpath : CString)
  | link (path newpath : CString)
  | chmod (path : CString) (mode : ℕ)
  | chown (path : CString) (uid gid : ℕ)
  | truncate (path : CString) (newsize : ℤ)
  | utime (path : CString) (ubuf : Option (ℤ × ℤ))
  | open_ (path : CString) (fi : FileInfo)
  | read (path : CString) (size : ℕ) (offset : ℤ) (fi : FileInfo)
  | write (path : CString) (buf : List UInt8) (offset : ℤ) (fi : FileInfo)
  | statfs (path : CString)
  | flush (path : CString) (fi : FileInfo)
  | release (path : CString) (fi : FileInfo)
  | fsync (path : CString) (datasync : Bool) (fi : FileInfo)
  | setxattr (path name : CString) (value : List UInt8) (flags : ℤ)
  | getxattr (path name : CString) (size : ℕ)
  | listxattr (path : CString) (size : ℕ)
  | removexattr (path name : CString)
  | opendir (path : CString) (fi : FileInfo)
  | readdir (path : CString) (filler : List CString → CString → Bool) (fi : FileInfo)
  | releasedir (path : CString) (fi : FileInfo)
  | fsyncdir (path : CString) (datasync : Bool) (fi : FileInfo)
  | access (path : CString) (mask : ℕ)
  | ftruncate (path : CString) (offset : ℤ) (fi : FileInfo)
  | fgetattr (path : CString) (fi : FileInfo)

/-- `bb_oper`: the handler of each request. -/
def bb_oper (k : Kernel) (bb : BBState) : Request → BB Unit
  | .getattr path => discard (bb_getattr k bb path)
  | .readlink path size => discard (bb_readlink k bb path size)
  | .mknod path mode dev => discard (bb_mknod k bb path mode dev)
  | .mkdir path mode => discard (bb_mkdir k bb path mode)
  | .unlink path => discard (bb_unlink k bb path)
  | .rmdir path => discard (bb_rmdir k bb path)
  | .symlink path link => discard (bb_symlink k bb path link)
  | .rename path newpath => discard (bb_rename k bb path newpath)
  | .link path newpath => discard (bb_link k bb path newpath)
  | .chmod path mode => discard (bb_chmod k bb path mode)
  | .chown path uid gid => discard (bb_chown k bb path uid gid)
  | .truncate path newsize => discard (bb_truncate k bb path newsize)
  | .utime path ubuf => discard (bb_utime k bb path ubuf)
  | .open_ path fi => discard (bb_open k bb path fi)
  | .read _ size offset fi => discard (bb_read k size offset fi)
  | .write _ buf offset fi => discard (bb_write k buf offset fi)
  | .statfs path => discard (bb_statfs k bb path)
  | .flush _ _ => discard bb_flush
  | .release _ fi => discard (bb_release k fi)
  | .fsync _ datasync fi => discard (bb_fsync k datasync fi)
  | .setxattr path name value flags => discard (bb_setxattr k bb path name value flags)
  | .getxattr path name size => discard (bb_getxattr k bb path name size)
  | .listxattr path size => discard (bb_listxattr k bb path size)
  | .removexattr path name => discard (bb_removexattr k bb path name)
  | .opendir path fi => discard (bb_opendir k bb path fi)
  | .readdir _ filler fi => discard (bb_readdir filler fi)
  | .releasedir _ fi => discard (bb_releasedir k fi)
  | .fsyncdir _ _ _ => discard bb_fsyncdir
  | .access path mask => discard (bb_access k bb path mask)
  | .ftruncate _ offset fi => discard (bb_ftruncate k offset fi)
  | .fgetattr path fi => discard (bb_fgetattr k bb path fi)

end SmartDisk.BBFS
