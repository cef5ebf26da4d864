import YFS.Fs.Standing
import YFS.Fuse.Read

/-! # The mounted file system

The whole path from a request of the kernel to the extent server, for requests that are handled
one after another and RPCs that succeed: the handlers of `fuseserver_oper` over `yfs_client`, the
directory texts and the extents. What the kernel sees is a tree of files and directories. The
times in the attributes are left open.
-/

namespace YFS.Fuse
open YFS.Library YFS.Extent YFS.Fs

/-! ## Handlers on the store -/

/-- The store that an operation leaves, also when it does not return. -/
def Op.left (e : Env) (s : Store) : Op → Store
  | .getfile _ | .getdir _ => s
  | .yfs c => (c.prog.run e s).2

def Handler.left (env : ℕ → Env) : Handler → ℕ → Store → Store
  | .done, _, s => s
  | .reply _ next, i, s => next.left env i s
  | .call op next, i, s => match op.perform (env i) s with
    | none => op.left (env i) s
    | some (r, s') => (next r).left env (i + 1) s'

/-- A request, and what its handler meets: the times during each operation, the values of
`random()`, and what stands in the variables before they are set. -/
structure Visit where
  req : Request
  now : ℕ → ℕ → ℕ
  random : List Random
  vars : Uninit

def Visit.env (v : Visit) (i : ℕ) : Env := Env.reliable (v.now i) v.random

structure Mount where
  store : Store
  replies : List (List FuseReply)

def mount (lib : Libfuse) (start : ℕ) : Machine Mount Visit where
  init := ⟨Store.init start, []⟩
  step m v := some
    { store := (fuseserverOper lib v.vars v.req).left v.env 0 m.store
      replies := m.replies ++ [(fuseserverOper lib v.vars v.req).perform v.env 0 m.store] }

/-! ## Requests on the tree -/

def Stat.untimed (st : Stat) : Stat := { st with atime := 0, mtime := 0, ctime := 0 }

def Entry.untimed (e : Entry) : Entry := { e with attr := e.attr.untimed }

def FuseReply.untimed : FuseReply → FuseReply
  | .attr st => .attr st.untimed
  | .entry e => .entry e.untimed
  | .create e => .create e.untimed
  | r => r

namespace Volume
variable (lib : Libfuse) (u : Uninit) (t : Tree)

def stat (ino : ℕ) : Option Stat :=
  match t ino with
  | some (.file b) => some ⟨ino, fileMode, 1, 0, 0, 0, b.length⟩
  | some (.dir _) => some ⟨ino, dirMode, 2, 0, 0, 0, 0⟩
  | none => none

def found (success : Entry → FuseReply) (ino : ℕ) : FuseReply :=
  match stat t ino with
  | some st => success ⟨ino, 0, st, 0, 0⟩
  | none => .err ENOENT

def getattr (ino : ℕ) : FuseReply :=
  match stat t ino with
  | some st => .attr st
  | none => .err ENOENT

/-- A directory that is not there reads as an empty one. -/
def readdir (ino size off : ℕ) : FuseReply :=
  if isfile ino then .err ENOTDIR
  else match t ino with
    | some (.dir es) => replyBufLimited (dirbuf lib es) off size
    | _ => replyBufLimited [] off size

def lookup (parent : ℕ) (name : Bytes) : FuseReply :=
  match t parent with
  | some (.dir es) =>
    match Tree.child es name with
    | some i => found t .entry i
    | none => .err ENOENT
  | _ => .err ENOENT

/-- A new node under a name; `exist` is the reply if the name is there already. -/
def add (exist : ℕ → FuseReply) (success : Entry → FuseReply) (parent : ℕ) (name : Bytes)
    (isfile : Bool) (new : Option ℕ) : List FuseReply × Tree :=
  match t parent with
  | some (.dir es) =>
    match Tree.child es name, new with
    | some i, _ => ([exist i], t)
    | none, some n =>
      let t' := (t.add parent name isfile new).2
      ([found t' success n], t')
    | none, none => ([], t)
  | _ => ([.err ENOENT], t)

/-- Creating a name that is there already gives what it stands for, be it a directory. -/
def create (success : Entry → FuseReply) (parent : ℕ) (name : Bytes) (new : Option ℕ) :
    List FuseReply × Tree :=
  add t (found t success) success parent name true new

def mkdir (parent : ℕ) (name : Bytes) (new : Option ℕ) : List FuseReply × Tree :=
  add t (fun _ => .err EEXIST) .entry parent name false new

/-- Behind the end of the file the reply has what stood in the buffer before. -/
def read (ino size off : ℕ) : FuseReply :=
  match t ino with
  | some (.file b) =>
    if off < b.length then
      let data := Files.slice b size off
      .buf (data ++ Memory.region u.buf data.length (size - data.length))
    else .err EIO
  | _ => .err (if isfile ino then EIO else EISDIR)

def write (ino : ℕ) (buf : Bytes) (off : ℕ) : List FuseReply × Tree :=
  match t ino with
  | some (.file _) => ([.write buf.length], (t.write ino buf off).2)
  | _ => ([.err (if isfile ino then EIO else EISDIR)], t)

/-- A new size for a file that is not there gets no reply. -/
def setattr (ino stSize : ℕ) (toSet : BitVec 32) : List FuseReply × Tree :=
  if 8#32 &&& toSet = 0#32 then ([.err ENOSYS], t)
  else match t ino with
    | some (.file _) =>
      let t' := (t.resize ino (Fuse.sizeOf stSize)).2
      ([getattr t' ino], t')
    | _ => (if isfile ino then [] else [.err EISDIR], t)

/-- A directory goes with all that is in it. -/
def unlink (parent : ℕ) (name : Bytes) : List FuseReply × Tree :=
  match t parent with
  | some (.dir es) =>
    match Tree.child es name with
    | some _ => ([.err 0], (t.remove parent name).2)
    | none => ([.err ENOENT], t)
  | _ => ([.err ENOENT], t)

def serve (v : Visit) : List FuseReply × Tree :=
  match v.req with
  | .getattr ino => ([getattr t ino], t)
  | .statfs => ([.statfs 255 512], t)
  | .readdir ino size off => ([readdir lib t ino size off], t)
  | .lookup parent name => ([lookup t parent name], t)
  | .create parent name _ => create t .create parent name (drawn parent true v.random)
  | .mknod parent name _ _ => create t .entry parent name (drawn parent true v.random)
  | .opened _ => ([.opened], t)
  | .read ino size off => ([read v.vars t ino size off], t)
  | .write ino buf off => write t ino buf off
  | .setattr ino stSize toSet => setattr t ino stSize toSet
  | .unlink parent name => unlink t parent name
  | .mkdir parent name _ => mkdir t parent name (drawn parent false v.random)

/-- What the kernel keeps to: inums have 32 bits, parents are directories, file positions stay
below `2 ^ 32`, and names have neither a colon nor a newline. An inum that is drawn is not in
use. -/
def Legal (v : Visit) : Prop :=
  match v.req with
  | .create parent name _ | .mknod parent name _ _ =>
    (isfile parent = false ∧ parent < 2 ^ 32 ∧ Dir.Clean name) ∧
      (drawn parent true v.random).any fun n => (t n).isNone
  | .mkdir parent name _ =>
    (isfile parent = false ∧ parent < 2 ^ 32 ∧ Dir.Clean name) ∧
      (drawn parent false v.random).any fun n => (t n).isNone
  | .lookup parent _ | .unlink parent _ => isfile parent = false ∧ parent < 2 ^ 32
  | .getattr ino | .readdir ino _ _ | .setattr ino _ _ => ino < 2 ^ 32
  | .read ino _ off => ino < 2 ^ 32 ∧ off < 2 ^ 32
  | .write ino buf off => ino < 2 ^ 32 ∧ off + buf.length < 2 ^ 32
  | .statfs | .opened _ => True

instance (v : Visit) : Decidable (Legal t v) := by
  unfold Legal
  split <;> infer_instance

end Volume

structure Volume where
  tree : Tree
  replies : List (List FuseReply)

def volume (lib : Libfuse) : Machine Volume Visit where
  init := ⟨Tree.init, []⟩
  step w v := some
    { tree := (Volume.serve lib w.tree v).2
      replies := w.replies ++ [(Volume.serve lib w.tree v).1] }

def Mount.view (m : Mount) : Volume where
  tree := tree m.store.contents
  replies := m.replies.map (List.map FuseReply.untimed)

end YFS.Fuse
