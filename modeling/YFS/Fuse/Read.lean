import YFS.Fs.Offsets
import YFS.Fuse.Replies

/-! # Reading a file

`fuseserver_read` over `yfs_client` and the extent server, with nobody else using the store and
no call failing.
-/

namespace YFS.Fuse
open YFS.Library YFS.Extent YFS.Fs

/-- `yfs_client::getfile` and, but for the size, `getdir`: with what `acquire` and `getattr`
return. -/
def getfile (loc : ℤ) (ext : Status) (a : Attr) : Result :=
  if loc = 0 then
    if ext ≠ 0 then ⟨Reply.of IOERR, ⟨0, 0, 0, 0⟩⟩
    else ⟨Reply.of OK, ⟨a.size, a.atime, a.mtime, a.ctime⟩⟩
  else ⟨Reply.of IOERR, ⟨0, 0, 0, 0⟩⟩

/-- An operation on the store; `none` where it does not return. -/
def Op.perform (e : Env) (s : Store) : Op → Option (Result × Store)
  | .getfile inum | .getdir inum => some (Fuse.getfile 0 (s.getattr inum).1 (s.getattr inum).2, s)
  | .yfs c => match c.prog.run e s with
    | (.returned r, s') => some (⟨r, ⟨0, 0, 0, 0⟩⟩, s')
    | (.threw, _) => none
    | (.drawing, _) => none

/-- The replies of a handler whose operations are performed on the store, each in its own
environment. -/
def Handler.perform (env : ℕ → Env) : Handler → ℕ → Store → List FuseReply
  | .done, _, _ => []
  | .reply r next, i, s => r :: next.perform env i s
  | .call op next, i, s => match op.perform (env i) s with
    | none => []
    | some (r, s') => (next r).perform env (i + 1) s'

section Read
variable {s : Store} {ino : ℕ} {b : Bytes}

theorem perform_getfile (hb : s.contents (key ino) = some b) (e : Env) :
    ∃ r, (Op.getfile ino).perform e s = some (r, s) ∧ r.status = OK := by
  obtain ⟨record, hrecord, -⟩ := Store.find_of_contents hb
  simp [Op.perform, Fuse.getfile, Store.getattr, hrecord, Status.OK, Reply.of]

theorem perform_read (hb : s.contents (key ino) = some b) {e : Env} (hf : e.fault 0 = none)
    (size off : ℕ) :
    ∃ r s', (Op.yfs (.read ino size off)).perform e s = some (r, s') ∧
      r.data = (Store.sliced b size (off % 2 ^ 32)).getD [] ∧
      (r.status = OK ↔ (Store.sliced b size (off % 2 ^ 32)).isSome) := by
  obtain ⟨r, hrun, hdata, hstatus⟩ := run_read hb hf size off
  refine ⟨⟨r, ⟨0, 0, 0, 0⟩⟩, ((Fs.read ino size off).run e s).2, ?_, hdata, hstatus⟩
  simp only [Op.perform, Call.prog]
  rw [show (Fs.read ino size off).run e s = (.returned r, ((Fs.read ino size off).run e s).2) from
    Prod.ext hrun rfl]

/-- What `fuseserver_read` replies: as many bytes as were asked for, the first of them those that
were read. -/
theorem perform_fuseserverRead (u : Uninit) (hfile : isfile ino = true)
    (hb : s.contents (key ino) = some b) (size : ℕ) {off : ℕ} (hoff : off < 2 ^ 32) {env : ℕ → Env}
    (hf : ∀ i, (env i).fault 0 = none) :
    (fuseserverRead u ino size off).perform env 0 s =
      if off < b.length then
        [.buf (Memory.region (Memory.overwrite u.buf 0 ((b.drop off).take size)) 0 size)]
      else [.err EIO] := by
  obtain ⟨r, hget, hr⟩ := perform_getfile hb (env 0)
  obtain ⟨r', s', hread, hdata, hstatus⟩ := perform_read hb (hf 1) size off
  rw [Nat.mod_eq_of_lt hoff] at hdata hstatus
  simp only [fuseserverRead, hfile, if_true, Handler.perform, hget, hr, hread]
  by_cases hin : off < b.length
  · have hsliced : Store.sliced b size off = some ((b.drop off).take size) := by
      simp only [Store.sliced, hin, if_true, Option.some.injEq]
      rw [List.take_eq_take_iff, List.length_drop]
      split_ifs <;> omega
    rw [hsliced] at hdata hstatus
    rw [if_pos (hstatus.mpr rfl), if_pos hin, hdata]
    rfl
  · have hsliced : Store.sliced b size off = none := if_neg hin
    rw [hsliced] at hstatus
    rw [if_neg fun h => Bool.false_ne_true (hstatus.mp h), if_neg hin]
    rfl

end Read

/-- `fuseserver_read` replies with the bytes of the file in the range, just when the whole range
lies in the file and does not begin at its end. -/
theorem fuse_read_exact_iff (lib : Libfuse) (u : Uninit) {s : Store} {ino : ℕ} {b : Bytes}
    (hfile : isfile ino = true) (hb : s.contents (key ino) = some b) {size off : ℕ}
    (hoff : off < 2 ^ 32) {env : ℕ → Env} (hf : ∀ i j, (env i).fault j = none) :
    (fuseserverOper lib u (.read ino size off)).perform env 0 s = [.buf ((b.drop off).take size)] ↔
      off < b.length ∧ off + size ≤ b.length := by
  have hrun := perform_fuseserverRead u hfile hb size hoff fun i => hf i 0
  change (fuseserverRead u ino size off).perform env 0 s = _ ↔ _
  rw [hrun]
  by_cases hin : off < b.length
  · rw [if_pos hin]
    have hlength : ((b.drop off).take size).length = min size (b.length - off) := by
      rw [List.length_take, List.length_drop]
    constructor
    · intro heq
      simp only [List.cons.injEq, FuseReply.buf.injEq, and_true] at heq
      have hsize := congrArg List.length heq
      rw [Memory.length_region, hlength] at hsize
      exact ⟨hin, by omega⟩
    · rintro ⟨-, hend⟩
      have hsize : size = ((b.drop off).take size).length := by omega
      have hregion := Memory.region_overwrite_self u.buf 0 ((b.drop off).take size)
      rw [← hsize] at hregion
      rw [hregion]
  · rw [if_neg hin]
    simp [hin]

def threeBytes : Store := Function.update (fun _ => none) (2 ^ 31) (some ⟨[1, 2, 3], 0, 0, 0, 3⟩)

theorem fuse_read_exact_inside :
    isfile (2 ^ 31) = true ∧ threeBytes.contents (key (2 ^ 31)) = some [1, 2, 3] ∧ 1 < 2 ^ 32 ∧
    ((fuseserverOper hostLibfuse zeroed (.read (2 ^ 31) 2 1)).perform
        (fun _ => .reliable (fun _ => 0) []) 0 threeBytes = [.buf (([1, 2, 3] : Bytes).drop 1 |>.take 2)] ↔
      1 < ([1, 2, 3] : Bytes).length ∧ 1 + 2 ≤ ([1, 2, 3] : Bytes).length) :=
  ⟨by decide, rfl, by decide,
    fuse_read_exact_iff hostLibfuse zeroed (by decide) rfl (by decide) fun _ _ => rfl⟩

/-- A longer read gets a byte that is not in the file, and a read at the end an error. -/
theorem fuse_read_beyond :
    (fuseserverOper hostLibfuse { zeroed with buf := fun _ => 9 } (.read (2 ^ 31) 4 0)).perform
      (fun _ => .reliable (fun _ => 0) []) 0 threeBytes = [.buf [1, 2, 3, 9]] ∧
    (fuseserverOper hostLibfuse zeroed (.read (2 ^ 31) 4 3)).perform
      (fun _ => .reliable (fun _ => 0) []) 0 threeBytes = [.err EIO] :=
  ⟨rfl, rfl⟩

end YFS.Fuse
