import YFS.Fs.Program
import YFS.Fuse.Dirents
import YFS.Library.Memory

/-! # The FUSE handlers

The functions registered in `fuseserver_oper`, as trees of the `yfs_client` operations they call
and the `fuse_reply_*` functions they invoke, with a branch for every result of an operation.
`fuse_ino_t` is an `unsigned long` and has 32 bits, as `size_t` has.
-/

namespace YFS.Fuse
open YFS.Library YFS.Fs

def ENOENT : ℕ := 2
def EIO : ℕ := 5
def EEXIST : ℕ := 17
def ENOTDIR : ℕ := 20
def EISDIR : ℕ := 21
def ENOSYS : ℕ := 38

def fileMode : ℕ := 0o100000 ||| 0o666

def dirMode : ℕ := 0o040000 ||| 0o777

def inoOf (inum : ℕ) : ℕ := inum % 2 ^ 32

def sizeOf (off : ℕ) : ℕ := off % 2 ^ 32

def cstr (s : Bytes) : Bytes := s.takeWhile (· ≠ 0)

structure FileInfo where
  size : ℕ
  atime : ℕ
  mtime : ℕ
  ctime : ℕ
  deriving DecidableEq, Repr

/-- The fields of `struct stat` that `getattr` sets; all others are zero. -/
structure Stat where
  ino : ℕ
  mode : ℕ
  nlink : ℕ
  atime : ℕ
  mtime : ℕ
  ctime : ℕ
  size : ℕ
  deriving DecidableEq, Repr

def Stat.zero (ino : ℕ) : Stat := ⟨ino, 0, 0, 0, 0, 0, 0⟩

structure Entry where
  ino : ℕ
  generation : ℕ
  attr : Stat
  attrTimeout : ℕ
  entryTimeout : ℕ
  deriving DecidableEq, Repr

inductive FuseReply where
  | err (errno : ℕ)
  | attr (st : Stat)
  | entry (e : Entry)
  | create (e : Entry)
  | opened
  | write (count : ℕ)
  | buf (b : Bytes)
  | statfs (namemax bsize : ℕ)
  deriving DecidableEq, Repr

def FuseReply.Success : FuseReply → Prop
  | .err errno => errno = 0
  | _ => True

/-- What stands in the variables of a handler before they are set. -/
structure Uninit where
  inum : ℕ
  written : ℕ
  entry : Entry
  buf : ℕ → UInt8

inductive Op where
  | getfile (inum : ℕ)
  | getdir (inum : ℕ)
  | yfs (c : Fs.Call)

/-- The status of an operation with its reference parameters, which for `getfile` and `getdir` is
`info`. -/
structure Result extends Fs.Reply where
  info : FileInfo
  deriving DecidableEq, Repr

inductive Handler where
  | done
  | reply (r : FuseReply) (next : Handler)
  | call (op : Op) (next : Result → Handler)

def Handler.answer (r : FuseReply) : Handler := .reply r .done

inductive Request where
  | getattr (ino : ℕ)
  | statfs
  | readdir (ino size off : ℕ)
  | lookup (parent : ℕ) (name : Bytes)
  | create (parent : ℕ) (name : Bytes) (mode : ℕ)
  | mknod (parent : ℕ) (name : Bytes) (mode rdev : ℕ)
  | opened (ino : ℕ)
  | read (ino size off : ℕ)
  | write (ino : ℕ) (buf : Bytes) (off : ℕ)
  | setattr (ino stSize : ℕ) (toSet : BitVec 32)
  | unlink (parent : ℕ) (name : Bytes)
  | mkdir (parent : ℕ) (name : Bytes) (mode : ℕ)

section Handlers
open Handler

variable (lib : Libfuse) (u : Uninit)

def getattr (inum : ℕ) (next : ℤ → Stat → Handler) : Handler :=
  if isfile inum then
    .call (.getfile inum) fun r =>
      if r.status ≠ OK then next r.status (.zero inum)
      else next OK ⟨inum, fileMode, 1, r.info.atime, r.info.mtime, r.info.ctime, r.info.size⟩
  else
    .call (.getdir inum) fun r =>
      if r.status ≠ OK then next r.status (.zero inum)
      else next OK ⟨inum, dirMode, 2, r.info.atime, r.info.mtime, r.info.ctime, 0⟩

def fuseserverGetattr (ino : ℕ) : Handler :=
  getattr ino fun ret st => if ret ≠ OK then answer (.err ENOENT) else answer (.attr st)

/-- The `else` of the reply `EIO` belongs to the inner `if`. -/
def fuseserverSetattr (ino stSize : ℕ) (toSet : BitVec 32) : Handler :=
  if 8#32 &&& toSet ≠ 0#32 then
    if isfile ino then
      .call (.yfs (.resize ino (Fuse.sizeOf stSize))) fun r =>
        if r.status = OK then
          getattr ino fun ret st => if ret = OK then answer (.attr st) else answer (.err EIO)
        else .done
    else answer (.err EISDIR)
  else answer (.err ENOSYS)

/-- The reply has `size` bytes, whatever `read` has put into the buffer. -/
def fuseserverRead (ino size off : ℕ) : Handler :=
  if isfile ino then
    .call (.getfile ino) fun r =>
      if r.status = OK then
        .call (.yfs (.read ino size off)) fun r =>
          if r.status = OK then
            answer (.buf (Memory.region (Memory.overwrite u.buf 0 r.data) 0 size))
          else answer (.err EIO)
      else answer (.err EIO)
  else answer (.err EISDIR)

def fuseserverWrite (ino : ℕ) (buf : Bytes) (off : ℕ) : Handler :=
  if isfile ino then
    .call (.yfs (.write ino buf off)) fun r =>
      if r.status = OK then answer (.write (r.wrtb.getD u.written)) else answer (.err EIO)
  else answer (.err EISDIR)

def createHelper (parent : ℕ) (name : Bytes) (next : ℤ → Entry → Handler) : Handler :=
  .call (.yfs (.create parent name)) fun r =>
    if r.status = OK ∨ r.status = EXIST then
      getattr (inoOf (r.inum.getD u.inum)) fun ret st =>
        next ret ⟨inoOf (r.inum.getD u.inum), 0, st, 0, 0⟩
    else next r.status { u.entry with generation := 0, attrTimeout := 0, entryTimeout := 0 }

def fuseserverCreate (parent : ℕ) (name : Bytes) : Handler :=
  createHelper u parent name fun ret e =>
    if ret = OK then answer (.create e)
    else if ret = EXIST then answer (.err EEXIST)
    else answer (.err ENOENT)

def fuseserverMknod (parent : ℕ) (name : Bytes) : Handler :=
  createHelper u parent name fun ret e =>
    if ret = OK then answer (.entry e)
    else if ret = EXIST then answer (.err EEXIST)
    else answer (.err ENOENT)

def fuseserverLookup (parent : ℕ) (name : Bytes) : Handler :=
  .call (.yfs (.lookup parent name)) fun r =>
    if r.status = OK then
      getattr (inoOf (r.inum.getD u.inum)) fun ret st =>
        if ret = OK then answer (.entry ⟨inoOf (r.inum.getD u.inum), 0, st, 0, 0⟩)
        else answer (.err ENOENT)
    else answer (.err ENOENT)

def dirbufAdd (b : Bytes) (name : Bytes) (ino : ℕ) : Bytes :=
  b ++ lib.dirents.encode ⟨cstr name, ino, b.length + lib.direntSize (cstr name).length⟩

def replyBufLimited (b : Bytes) (off maxsize : ℕ) : FuseReply :=
  if off < b.length then .buf ((b.drop off).take (min (b.length - off) maxsize)) else .buf []

def dirbuf (dirents : List (Bytes × ℕ)) : Bytes :=
  dirents.foldl (fun b d => dirbufAdd lib b d.1 (inoOf d.2)) []

def fuseserverReaddir (ino size off : ℕ) : Handler :=
  if isfile ino then answer (.err ENOTDIR)
  else
    .call (.yfs (.readir ino)) fun r =>
      answer (replyBufLimited (if r.status = OK then dirbuf lib r.dirents else []) off size)

def fuseserverOpen : Handler := answer .opened

/-- The status of `getattr` is not looked at. -/
def fuseserverMkdir (parent : ℕ) (name : Bytes) : Handler :=
  .call (.yfs (.mkadir parent name)) fun r =>
    if r.status = OK then
      getattr (inoOf (r.inum.getD u.inum)) fun _ st =>
        answer (.entry ⟨inoOf (r.inum.getD u.inum), 0, st, 0, 0⟩)
    else if r.status = EXIST then answer (.err EEXIST)
    else if r.status = NOENT then answer (.err ENOENT)
    else answer (.err EIO)

def fuseserverUnlink (parent : ℕ) (name : Bytes) : Handler :=
  .call (.yfs (.remove parent name)) fun r =>
    if r.status = OK then answer (.err 0) else answer (.err ENOENT)

def fuseserverStatfs : Handler := answer (.statfs 255 512)

def fuseserverOper : Request → Handler
  | .getattr ino => fuseserverGetattr ino
  | .statfs => fuseserverStatfs
  | .readdir ino size off => fuseserverReaddir lib ino size off
  | .lookup parent name => fuseserverLookup u parent name
  | .create parent name _ => fuseserverCreate u parent name
  | .mknod parent name _ _ => fuseserverMknod u parent name
  | .opened _ => fuseserverOpen
  | .read ino size off => fuseserverRead u ino size off
  | .write ino buf off => fuseserverWrite u ino buf off
  | .setattr ino stSize toSet => fuseserverSetattr ino stSize toSet
  | .unlink parent name => fuseserverUnlink parent name
  | .mkdir parent name _ => fuseserverMkdir u parent name

end Handlers

end YFS.Fuse
