import YFS.Dir.Text
import YFS.Extent.Server

/-! # The operations of the file system client

The operations of `yfs_client` as trees of the requests they make to the lock client and
the extent client, with a branch for every answer. The same trees are run alone and
interleaved with others. A `size_t` has 32 bits.
-/

namespace YFS.Fs
open YFS.Library YFS.Extent

/-- The status an operation returns and what it hands back in its reference parameters. The inum
of the last line read, which an unsuccessful `lookup` leaves there, is left out: no caller
reads it. -/
structure Reply where
  status : ℤ
  inum : Option ℕ
  dirents : List (Bytes × ℕ)
  data : Bytes
  wrtb : Option ℕ
  deriving DecidableEq, Repr

def Reply.of (status : ℤ) : Reply := ⟨status, none, [], [], none⟩

/-- A client operation: the next request, and how it goes on with the answer. `throw` is an
exception that nothing catches; locks stay held. -/
inductive Prog where
  | done (r : Reply)
  | throw
  | acquire (lid : ℕ) (next : ℤ → Prog)
  | release (lid : ℕ) (next : Prog)
  | get (id : ℕ) (next : Status → Bytes → Prog)
  | put (id : ℕ) (buf : Bytes) (next : Status → Prog)
  | remove (id : ℕ) (next : Status → Prog)
  | getbuf (id askSize off : ℕ) (next : Status → Bytes → Prog)
  | putbuf (id off : ℕ) (buf : Bytes) (next : Status → Prog)
  | newInum (parent : ℕ) (isfile : Bool) (next : ℕ → Prog)

def OK : ℤ := 0
def RPCERR : ℤ := 1
def NOENT : ℤ := 2
def IOERR : ℤ := 3
def EXIST : ℤ := 4

/-- `stat2yfs`; 1 is `lock_protocol::RETRY`. -/
def stat2yfs (yfs : ℤ) (ext : Status) (loc : ℤ) : ℤ :=
  if loc ≠ 0 then if loc = 1 then IOERR else loc - 1
  else if ext ≠ 0 then ext
  else yfs

def isfile (inum : ℕ) : Bool := inum.testBit 31

abbrev Random := Fin (2 ^ 31)

instance neZero_random : NeZero (2 ^ 31) := ⟨by decide⟩

/-- The loop of `yfs_client::new_inum` over the values `random()` returns, with those it leaves;
`none` when it has not ended after these. -/
def newInum (parent : ℕ) (isfile : Bool) : List Random → Option (ℕ × List Random)
  | [] => none
  | r :: rs =>
    let n := if isfile then r.val ||| 0x80000000 else r.val &&& 0x7fffffff
    if n = parent ∨ n ≤ 1 then newInum parent isfile rs else some (n, rs)

def drawn (parent : ℕ) (isfile : Bool) (random : List Random) : Option ℕ :=
  (random.map fun r => if isfile then r.val ||| 0x80000000 else r.val &&& 0x7fffffff).find?
    fun n => n ≠ parent ∧ 1 < n

theorem newInum_fst (parent : ℕ) (isfile : Bool) (random : List Random) :
    (newInum parent isfile random).map Prod.fst = drawn parent isfile random := by
  induction random with
  | nil => rfl
  | cons r rs ih =>
    rw [newInum, drawn, List.map_cons, List.find?_cons]
    generalize (if isfile then r.val ||| 0x80000000 else r.val &&& 0x7fffffff) = n
    by_cases h : n = parent ∨ n ≤ 1
    · have hn : ¬ (n ≠ parent ∧ 1 < n) := by omega
      rw [if_pos h, decide_eq_false hn]
      exact ih
    · have hn : n ≠ parent ∧ 1 < n := by omega
      rw [if_neg h, decide_eq_true hn]
      rfl

theorem newInum_lt {parent : ℕ} {isfile : Bool} {rs rs' : List Random} {n : ℕ}
    (h : newInum parent isfile rs = some (n, rs')) : n < 2 ^ 32 := by
  induction rs with
  | nil => cases h
  | cons r rs ih =>
    have hr : r.val < 2 ^ 32 := lt_trans r.isLt (by decide)
    have hn : (if isfile then r.val ||| 0x80000000 else r.val &&& 0x7fffffff) < 2 ^ 32 := by
      split
      · exact Nat.or_lt_two_pow hr (by decide)
      · exact lt_of_le_of_lt Nat.and_le_left hr
    rw [newInum] at h
    generalize (if isfile then r.val ||| 0x80000000 else r.val &&& 0x7fffffff) = k at h hn
    split at h
    · exact ih h
    · cases h
      exact hn

def dirAddEntry (parent : ℕ) (name : Bytes) (isfile : Bool) : Prog :=
  .acquire parent fun loc =>
    if loc = 0 then
      .get parent fun ext buf =>
        if ext = 0 then
          match Dir.dirFind buf name with
          | none =>
            .newInum parent isfile fun tmpinum =>
              .put tmpinum [] fun _ =>
                .put parent (buf ++ Dir.entLine name tmpinum) fun _ =>
                  .release parent (.done { Reply.of (stat2yfs OK ext loc) with inum := some tmpinum })
          | some f =>
            .release parent (.done { Reply.of (stat2yfs EXIST ext loc) with inum := some f.inum })
        else .release parent (.done (Reply.of (stat2yfs OK ext loc)))
    else .done (Reply.of (stat2yfs OK Status.IOERR loc))

def create (parent : ℕ) (name : Bytes) : Prog := dirAddEntry parent name true

def mkadir (parent : ℕ) (name : Bytes) : Prog := dirAddEntry parent name false

def remove (parent : ℕ) (name : Bytes) : Prog :=
  .acquire parent fun loc =>
    if loc = 0 then
      .get parent fun ext buf =>
        if ext = 0 then
          match Dir.dirFind buf name with
          | none => .release parent (.done (Reply.of (stat2yfs IOERR ext loc)))
          | some f =>
            .acquire f.inum fun loc =>
              if loc = 0 then
                .remove f.inum fun ext =>
                  if ext = 0 then
                    match Dir.erase buf f.bufoff f.buflen with
                    | none => .throw
                    | some buf =>
                      .put parent buf fun _ =>
                        .release f.inum
                          (.release parent (.done (Reply.of (stat2yfs OK ext loc))))
                  else
                    .release f.inum (.release parent (.done (Reply.of (stat2yfs NOENT ext loc))))
              else .release parent (.done (Reply.of (stat2yfs IOERR ext loc)))
        else .release parent (.done (Reply.of (stat2yfs IOERR ext loc)))
    else .done (Reply.of (stat2yfs IOERR Status.IOERR loc))

def lookup (parent : ℕ) (name : Bytes) : Prog :=
  .acquire parent fun loc =>
    if loc = 0 then
      .get parent fun ext buf =>
        if ext = 0 then
          match Dir.dirFind buf name with
          | none => .release parent (.done (Reply.of (stat2yfs NOENT ext loc)))
          | some f =>
            .release parent (.done { Reply.of (stat2yfs OK ext loc) with inum := some f.inum })
        else .release parent (.done (Reply.of (stat2yfs NOENT ext loc)))
    else .done (Reply.of (stat2yfs NOENT Status.IOERR loc))

/-- `yfs_client::readir`, which takes no lock. -/
def readir (parent : ℕ) : Prog :=
  .get parent fun ext buf =>
    if ext = 0 then .done { Reply.of (stat2yfs OK ext 0) with dirents := Dir.entries buf }
    else .done (Reply.of (stat2yfs NOENT ext 0))

/-- `yfs_client::resize`; its test for a negative size never holds of a `size_t`. -/
def resize (target newSize : ℕ) : Prog :=
  .acquire target fun loc =>
    if loc = 0 then
      .get target fun ext buf =>
        if ext = 0 then
          .put target (Store.resized buf newSize) fun _ =>
            .release target (.done (Reply.of (stat2yfs OK ext loc)))
        else .release target (.done (Reply.of (stat2yfs NOENT ext loc)))
    else .done (Reply.of (stat2yfs NOENT Status.IOERR loc))

/-- `yfs_client::read`, which takes no lock. -/
def read (target size offset : ℕ) : Prog :=
  .getbuf target size (offset % 2 ^ 32) fun ext tmp =>
    if ext = 0 then .done { Reply.of OK with data := tmp } else .done (Reply.of ext)

def write (target : ℕ) (buf : Bytes) (offset : ℕ) : Prog :=
  .acquire target fun loc =>
    if loc = 0 then
      .putbuf target (offset % 2 ^ 32) buf fun ext =>
        if ext = 0 then
          .release target (.done { Reply.of (stat2yfs OK ext loc) with wrtb := some buf.length })
        else .release target (.done (Reply.of (stat2yfs NOENT ext loc)))
    else .done (Reply.of (stat2yfs NOENT Status.IOERR loc))

inductive Call where
  | create (parent : ℕ) (name : Bytes)
  | mkadir (parent : ℕ) (name : Bytes)
  | remove (parent : ℕ) (name : Bytes)
  | lookup (parent : ℕ) (name : Bytes)
  | readir (parent : ℕ)
  | resize (target newSize : ℕ)
  | read (target size offset : ℕ)
  | write (target : ℕ) (buf : Bytes) (offset : ℕ)
  deriving DecidableEq, Repr

def Call.prog : Call → Prog
  | .create parent name => Fs.create parent name
  | .mkadir parent name => Fs.mkadir parent name
  | .remove parent name => Fs.remove parent name
  | .lookup parent name => Fs.lookup parent name
  | .readir parent => Fs.readir parent
  | .resize target newSize => Fs.resize target newSize
  | .read target size offset => Fs.read target size offset
  | .write target buf offset => Fs.write target buf offset

end YFS.Fs
