import YFS.Fuse.Handlers

/-! # One reply to every request

The handlers are run with arbitrary results of the operations they call. A request should get one
reply, and a success only if all operations returned `OK`: each of them either has its result
carried in the reply or is what the reply says has been done.
-/

namespace YFS.Fuse
open YFS.Library YFS.Fs

structure Outcome where
  calls : List (Op × Result)
  replies : List FuseReply

/-- A handler run with these results of its first, second and further operations, from the `i`-th
on. -/
def Handler.run (res : ℕ → Op → Result) : Handler → ℕ → Outcome
  | .done, _ => ⟨[], []⟩
  | .reply r next, i => ⟨(next.run res i).calls, r :: (next.run res i).replies⟩
  | .call op next, i =>
    ⟨(op, res i op) :: ((next (res i op)).run res (i + 1)).calls,
      ((next (res i op)).run res (i + 1)).replies⟩

/-- One reply, which is a success only if every operation returned `OK`. -/
def Outcome.OneReply (o : Outcome) : Prop :=
  o.replies.length = 1 ∧ ∀ r ∈ o.replies, r.Success → ∀ c ∈ o.calls, c.2.status = OK

def attrOp (inum : ℕ) : Op := if isfile inum then .getfile inum else .getdir inum

section Results
variable (u : Uninit) (res : ℕ → Op → Result)

def inumOf (c : Fs.Call) : ℕ := inoOf ((res 0 (.yfs c)).inum.getD u.inum)

/-- The results that the handlers get wrong are not among these. -/
def Handled : Request → Prop
  -- a resize of a file works
  | .setattr ino stSize toSet => 8#32 &&& toSet ≠ 0#32 → isfile ino →
      (res 0 (.yfs (.resize ino (Fuse.sizeOf stSize)))).status = OK
  -- the attributes of a new directory can be got
  | .mkdir parent name _ => (res 0 (.yfs (.mkadir parent name))).status = OK →
      (res 1 (attrOp (inumOf u res (.mkadir parent name)))).status = OK
  -- the attributes of a file that is there already cannot be got
  | .create parent name _ | .mknod parent name _ _ =>
      (res 0 (.yfs (.create parent name))).status = EXIST →
      (res 1 (attrOp (inumOf u res (.create parent name)))).status ≠ OK
  -- a directory can be read
  | .readdir ino _ _ => isfile ino = false → (res 0 (.yfs (.readir ino))).status = OK
  | _ => True

end Results

/-- As `OneReply`, where `ok` says that the operations so far returned `OK`. -/
def Outcome.OneReplyIf (o : Outcome) (ok : Prop) : Prop :=
  o.replies.length = 1 ∧ ∀ r ∈ o.replies, r.Success → ok ∧ ∀ c ∈ o.calls, c.2.status = OK

section Run
variable {res : ℕ → Op → Result} {ok : Prop} {i : ℕ}

theorem oneReply_iff (o : Outcome) : o.OneReply ↔ o.OneReplyIf True := by
  simp [Outcome.OneReply, Outcome.OneReplyIf]

@[simp] theorem run_done : (Handler.done.run res i).OneReplyIf ok ↔ False := by
  simp [Outcome.OneReplyIf, Handler.run]

@[simp] theorem run_answer (r : FuseReply) :
    ((Handler.answer r).run res i).OneReplyIf ok ↔ (r.Success → ok) := by
  simp [Outcome.OneReplyIf, Handler.run, Handler.answer]

@[simp] theorem run_call (op : Op) (next : Result → Handler) :
    ((Handler.call op next).run res i).OneReplyIf ok ↔
      ((next (res i op)).run res (i + 1)).OneReplyIf (ok ∧ (res i op).status = OK) := by
  simp [Outcome.OneReplyIf, Handler.run, and_assoc]

/-- `getattr` makes one call and goes on with its status. -/
theorem run_getattr {inum : ℕ} {next : ℤ → Stat → Handler} {P : Prop}
    (h : ∀ st, ((next (res i (attrOp inum)).status st).run res (i + 1)).OneReplyIf
      (ok ∧ (res i (attrOp inum)).status = OK) ↔ P) :
    ((getattr inum next).run res i).OneReplyIf ok ↔ P := by
  unfold getattr
  by_cases hfile : isfile inum = true
  · rw [attrOp, if_pos hfile] at h
    rw [if_pos hfile, run_call]
    by_cases hstatus : (res i (.getfile inum)).status = OK
    · rw [if_neg (not_not.mpr hstatus), ← h, hstatus]
    · rw [if_pos hstatus, ← h]
  · rw [attrOp, if_neg hfile] at h
    rw [if_neg hfile, run_call]
    by_cases hstatus : (res i (.getdir inum)).status = OK
    · rw [if_neg (not_not.mpr hstatus), ← h, hstatus]
    · rw [if_pos hstatus, ← h]

end Run

section Handlers
variable (lib : Libfuse) (u : Uninit) (res : ℕ → Op → Result)

theorem run_fuseserverGetattr (ino : ℕ) :
    ((fuseserverGetattr ino).run res 0).OneReplyIf True ↔ True := by
  refine run_getattr fun st => ?_
  by_cases hattr : (res 0 (attrOp ino)).status = OK
  · simp [hattr]
  · simp [hattr, FuseReply.Success, ENOENT]

theorem run_fuseserverSetattr (ino stSize : ℕ) (toSet : BitVec 32) :
    ((fuseserverSetattr ino stSize toSet).run res 0).OneReplyIf True ↔
      Handled u res (.setattr ino stSize toSet) := by
  unfold fuseserverSetattr Handled
  by_cases hset : 8#32 &&& toSet ≠ 0#32
  · by_cases hfile : isfile ino = true
    · rw [if_pos hset, if_pos hfile, run_call]
      by_cases hresize : (res 0 (.yfs (.resize ino (Fuse.sizeOf stSize)))).status = OK
      · rw [if_pos hresize]
        refine run_getattr fun st => ?_
        by_cases hattr : (res 1 (attrOp ino)).status = OK
        · simp [hattr, hresize]
        · simp [hattr, hresize, FuseReply.Success, EIO]
      · rw [if_neg hresize, run_done]
        simp [hset, hfile, hresize]
    · simp [hset, hfile, FuseReply.Success, EISDIR]
  · simp [hset, FuseReply.Success, ENOSYS]

theorem run_fuseserverRead (ino size off : ℕ) :
    ((fuseserverRead u ino size off).run res 0).OneReplyIf True ↔ True := by
  unfold fuseserverRead
  by_cases hfile : isfile ino = true
  · by_cases hget : (res 0 (.getfile ino)).status = OK
    · by_cases hread : (res 1 (.yfs (.read ino size off))).status = OK
      · simp [hfile, hget, hread]
      · simp [hfile, hget, hread, FuseReply.Success, EIO]
    · simp [hfile, hget, FuseReply.Success, EIO]
  · simp [hfile, FuseReply.Success, EISDIR]

theorem run_fuseserverWrite (ino : ℕ) (buf : Bytes) (off : ℕ) :
    ((fuseserverWrite u ino buf off).run res 0).OneReplyIf True ↔ True := by
  unfold fuseserverWrite
  by_cases hfile : isfile ino = true
  · by_cases hwrite : (res 0 (.yfs (.write ino buf off))).status = OK
    · simp [hfile, hwrite]
    · simp [hfile, hwrite, FuseReply.Success, EIO]
  · simp [hfile, FuseReply.Success, EISDIR]

/-- What `create` and `mknod` do with the status and the entry of `fuseserver_createhelper`, where
`success` is their reply. -/
theorem run_createHelper (parent : ℕ) (name : Bytes) {success : Entry → FuseReply}
    (hsuccess : ∀ e, (success e).Success) :
    ((createHelper u parent name fun ret e =>
      if ret = OK then Handler.answer (success e)
      else if ret = EXIST then Handler.answer (.err EEXIST)
      else Handler.answer (.err ENOENT)).run res 0).OneReplyIf True ↔
    ((res 0 (.yfs (.create parent name))).status = EXIST →
      (res 1 (attrOp (inumOf u res (.create parent name)))).status ≠ OK) := by
  unfold createHelper
  rw [run_call]
  by_cases hcreate : (res 0 (.yfs (.create parent name))).status = OK ∨
      (res 0 (.yfs (.create parent name))).status = EXIST
  · rw [if_pos hcreate]
    refine run_getattr fun st => ?_
    unfold inumOf
    generalize inoOf _ = ino
    by_cases hattr : (res 1 (attrOp ino)).status = OK
    · rcases hcreate with hcreate | hcreate
      · simp [hattr, hcreate, OK, EXIST]
      · simp [hattr, hcreate, hsuccess, OK, EXIST]
    · by_cases hexist : (res 1 (attrOp ino)).status = EXIST
      · simp [hexist, FuseReply.Success, EEXIST, OK, EXIST]
      · simp [hattr, hexist, FuseReply.Success, ENOENT]
  · rw [if_neg hcreate]
    obtain ⟨hok, hexist⟩ := not_or.mp hcreate
    simp [hok, hexist, FuseReply.Success, ENOENT]

theorem run_fuseserverLookup (parent : ℕ) (name : Bytes) :
    ((fuseserverLookup u parent name).run res 0).OneReplyIf True ↔ True := by
  unfold fuseserverLookup
  rw [run_call]
  by_cases hlookup : (res 0 (.yfs (.lookup parent name))).status = OK
  · rw [if_pos hlookup]
    refine run_getattr fun st => ?_
    generalize inoOf _ = ino
    by_cases hattr : (res 1 (attrOp ino)).status = OK
    · simp [hattr, hlookup]
    · simp [hattr, FuseReply.Success, ENOENT]
  · simp [hlookup, FuseReply.Success, ENOENT]

theorem replyBufLimited_success (b : Bytes) (off maxsize : ℕ) :
    (replyBufLimited b off maxsize).Success := by
  unfold replyBufLimited
  split <;> trivial

theorem run_fuseserverReaddir (ino size off : ℕ) :
    ((fuseserverReaddir lib ino size off).run res 0).OneReplyIf True ↔
      Handled u res (.readdir ino size off) := by
  unfold fuseserverReaddir Handled
  by_cases hfile : isfile ino = true
  · simp [hfile, FuseReply.Success, ENOTDIR]
  · rw [if_neg hfile, run_call, run_answer]
    simp [hfile, replyBufLimited_success]

theorem run_fuseserverMkdir (parent : ℕ) (name : Bytes) (mode : ℕ) :
    ((fuseserverMkdir u parent name).run res 0).OneReplyIf True ↔
      Handled u res (.mkdir parent name mode) := by
  unfold fuseserverMkdir Handled inumOf
  rw [run_call]
  by_cases hmkdir : (res 0 (.yfs (.mkadir parent name))).status = OK
  · rw [if_pos hmkdir]
    refine run_getattr fun st => ?_
    simp [hmkdir, FuseReply.Success]
  · rw [if_neg hmkdir]
    by_cases hexist : (res 0 (.yfs (.mkadir parent name))).status = EXIST
    · simp [hexist, FuseReply.Success, EEXIST, OK, EXIST]
    · by_cases hnoent : (res 0 (.yfs (.mkadir parent name))).status = NOENT
      · simp [hnoent, FuseReply.Success, ENOENT, OK, EXIST, NOENT]
      · simp [hmkdir, hexist, hnoent, FuseReply.Success, EIO]

theorem run_fuseserverUnlink (parent : ℕ) (name : Bytes) :
    ((fuseserverUnlink parent name).run res 0).OneReplyIf True ↔ True := by
  unfold fuseserverUnlink
  by_cases hremove : (res 0 (.yfs (.remove parent name))).status = OK
  · simp [hremove]
  · simp [hremove, FuseReply.Success, ENOENT]

end Handlers

/-- Every request gets one reply, a success only if all operations returned `OK`, except where a
resize fails, where the attributes of a new directory cannot be got, where a file exists and has
attributes, and where a directory cannot be read. -/
theorem one_reply_iff (lib : Libfuse) (u : Uninit) (res : ℕ → Op → Result) (req : Request) :
    ((fuseserverOper lib u req).run res 0).OneReply ↔ Handled u res req := by
  rw [oneReply_iff]
  cases req with
  | getattr ino => exact run_fuseserverGetattr res ino
  | statfs => simp [fuseserverOper, fuseserverStatfs, Handled]
  | readdir ino size off => exact run_fuseserverReaddir lib u res ino size off
  | lookup parent name => exact run_fuseserverLookup u res parent name
  | create parent name mode => exact run_createHelper u res parent name fun _ => trivial
  | mknod parent name mode rdev => exact run_createHelper u res parent name fun _ => trivial
  | opened ino => simp [fuseserverOper, fuseserverOpen, Handled]
  | read ino size off => exact run_fuseserverRead u res ino size off
  | write ino buf off => exact run_fuseserverWrite u res ino buf off
  | setattr ino stSize toSet => exact run_fuseserverSetattr u res ino stSize toSet
  | unlink parent name => exact run_fuseserverUnlink res parent name
  | mkdir parent name mode => exact run_fuseserverMkdir u res parent name mode

instance : (r : FuseReply) → Decidable r.Success
  | .err errno => inferInstanceAs (Decidable (errno = 0))
  | .attr _ | .entry _ | .create _ | .opened | .write _ | .buf _ | .statfs _ _ => isTrue trivial

instance (o : Outcome) : Decidable o.OneReply :=
  inferInstanceAs (Decidable (o.replies.length = 1 ∧
    ∀ r ∈ o.replies, r.Success → ∀ c ∈ o.calls, c.2.status = OK))

/-- The operations return these statuses in turn, and the inum 7 where there is one to return. -/
def returning (statuses : List ℤ) (i : ℕ) (_ : Op) : Result :=
  ⟨{ Reply.of (statuses.getD i OK) with inum := some 7 }, ⟨0, 0, 0, 0⟩⟩

def zeroed : Uninit := ⟨0, 0, ⟨0, 0, .zero 0, 0, 0⟩, fun _ => 0⟩

/-- A resize that fails gets no reply. A new directory without attributes, a file that exists, and a
directory that cannot be read are reported as successes. -/
theorem replies_missing_or_wrong :
    (((fuseserverOper hostLibfuse zeroed (.setattr (2 ^ 31) 3 8#32)).run (returning [IOERR]) 0).replies =
      [] ∧
    ((fuseserverOper hostLibfuse zeroed (.mkdir 1 [97] 0)).run (returning [OK, IOERR]) 0).replies =
      [.entry ⟨7, 0, .zero 7, 0, 0⟩] ∧
    ((fuseserverOper hostLibfuse zeroed (.create 1 [97] 0)).run (returning [EXIST, OK]) 0).replies =
      [.create ⟨7, 0, ⟨7, dirMode, 2, 0, 0, 0, 0⟩, 0, 0⟩] ∧
    ((fuseserverOper hostLibfuse zeroed (.readdir 1 100 0)).run (returning [NOENT]) 0).replies =
      [.buf []]) ∧
    ¬ ((fuseserverOper hostLibfuse zeroed (.setattr (2 ^ 31) 3 8#32)).run (returning [IOERR]) 0).OneReply ∧
    ¬ ((fuseserverOper hostLibfuse zeroed (.mkdir 1 [97] 0)).run (returning [OK, IOERR]) 0).OneReply ∧
    ¬ ((fuseserverOper hostLibfuse zeroed (.create 1 [97] 0)).run (returning [EXIST, OK]) 0).OneReply ∧
    ¬ ((fuseserverOper hostLibfuse zeroed (.readdir 1 100 0)).run (returning [NOENT]) 0).OneReply := by
  refine ⟨⟨?_, ?_, ?_, ?_⟩, ?_, ?_, ?_, ?_⟩ <;> decide

end YFS.Fuse
