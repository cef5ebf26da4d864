import YFS.Library.Condition
import YFS.Lock.Client

/-! # One lock of a client

The part of a client's state that concerns a single lock, with the signals that are
pending at it. An operation on another lock leaves this part as it is.
-/

namespace YFS.Lock
open YFS.Library.Condition

def ThreadPc.lock : ThreadPc → Option ℕ
  | .idle => none
  | .queueWait l _ | .calling l | .answered l _ => some l

def ReleaserPc.lock : ReleaserPc → Option ℕ
  | .idle => none
  | .start l | .tmoutWait l _ | .calling l | .answered l _ => some l

def HandlerPc.lock : HandlerPc → Option ℕ
  | .idle => none
  | .revokeWait l _ => some l

def ThreadPc.only (lid : ℕ) (pc : ThreadPc) : ThreadPc := if pc.lock = some lid then pc else .idle

def ReleaserPc.only (lid : ℕ) (pc : ReleaserPc) : ReleaserPc :=
  if pc.lock = some lid then pc else .idle

def HandlerPc.only (lid : ℕ) (pc : HandlerPc) : HandlerPc :=
  if pc.lock = some lid then pc else .idle

@[simp] theorem ThreadPc.only_idle (lid : ℕ) : ThreadPc.idle.only lid = .idle := rfl

@[simp] theorem ReleaserPc.only_idle (lid : ℕ) : ReleaserPc.idle.only lid = .idle := rfl

@[simp] theorem HandlerPc.only_idle (lid : ℕ) : HandlerPc.idle.only lid = .idle := rfl

section Positions
variable (l lid : ℕ) (b : Bool) (ret : Status)

@[simp] theorem ThreadPc.only_queueWait :
    (ThreadPc.queueWait l b).only lid = if l = lid then .queueWait l b else .idle := by
  simp [only, lock]

@[simp] theorem ThreadPc.only_calling :
    (ThreadPc.calling l).only lid = if l = lid then .calling l else .idle := by
  simp [only, lock]

@[simp] theorem ThreadPc.only_answered :
    (ThreadPc.answered l ret).only lid = if l = lid then .answered l ret else .idle := by
  simp [only, lock]

@[simp] theorem ReleaserPc.only_start :
    (ReleaserPc.start l).only lid = if l = lid then .start l else .idle := by
  simp [only, lock]

@[simp] theorem ReleaserPc.only_tmoutWait :
    (ReleaserPc.tmoutWait l b).only lid = if l = lid then .tmoutWait l b else .idle := by
  simp [only, lock]

@[simp] theorem ReleaserPc.only_calling :
    (ReleaserPc.calling l).only lid = if l = lid then .calling l else .idle := by
  simp [only, lock]

@[simp] theorem ReleaserPc.only_answered :
    (ReleaserPc.answered l ret).only lid = if l = lid then .answered l ret else .idle := by
  simp [only, lock]

@[simp] theorem HandlerPc.only_revokeWait :
    (HandlerPc.revokeWait l b).only lid = if l = lid then .revokeWait l b else .idle := by
  simp [only, lock]

end Positions

theorem ThreadPc.only_eq_iff {pc x : ThreadPc} {lid : ℕ} (hx : x.lock = some lid) :
    pc.only lid = x ↔ pc = x := by
  rw [only]
  split
  · exact Iff.rfl
  · rename_i hpc
    constructor
    · rintro rfl
      cases hx
    · rintro rfl
      exact absurd hx hpc

theorem ReleaserPc.only_eq_iff {pc x : ReleaserPc} {lid : ℕ} (hx : x.lock = some lid) :
    pc.only lid = x ↔ pc = x := by
  rw [only]
  split
  · exact Iff.rfl
  · rename_i hpc
    constructor
    · rintro rfl
      cases hx
    · rintro rfl
      exact absurd hx hpc

theorem HandlerPc.only_eq_iff {pc x : HandlerPc} {lid : ℕ} (hx : x.lock = some lid) :
    pc.only lid = x ↔ pc = x := by
  rw [only]
  split
  · exact Iff.rfl
  · rename_i hpc
    constructor
    · rintro rfl
      cases hx
    · rintro rfl
      exact absurd hx hpc

@[ext] structure ClientView (τ ω : Type) where
  entry : Option (CacheLock τ)
  relQ : ℕ
  relJ : ℕ
  worker : ω → ReleaserPc
  handler : ω → HandlerPc
  thread : τ → ThreadPc
  held : τ → Bool

def entryState {τ : Type} (e : Option (CacheLock τ)) : LockState := e.elim .NONE CacheLock.state

@[simp] theorem entryState_some {τ : Type} (e : CacheLock τ) : entryState (some e) = e.state := rfl

@[simp] theorem entryState_none {τ : Type} : entryState (none : Option (CacheLock τ)) = .NONE := rfl

/-- What a client has to do with the lock, signals included. -/
def Client.slice {τ ω : Type} (c : Client τ ω) (lid : ℕ) : ClientView τ ω where
  entry := c.table lid
  relQ := c.releaserQueue.count lid
  relJ := c.jobs.count lid
  worker w := (c.worker w).only lid
  handler w := (c.handler w).only lid
  thread t := (c.thread t).only lid
  held t := c.held t lid

namespace ClientView
variable {τ ω : Type} [DecidableEq τ] [DecidableEq ω]

def setEntry (v : ClientView τ ω) (e : CacheLock τ) : ClientView τ ω := { v with entry := some e }

def setThread (v : ClientView τ ω) (t : τ) (pc : ThreadPc) : ClientView τ ω :=
  { v with thread := Function.update v.thread t pc }

def setWorker (v : ClientView τ ω) (w : ω) (pc : ReleaserPc) : ClientView τ ω :=
  { v with worker := Function.update v.worker w pc }

def setHandler (v : ClientView τ ω) (w : ω) (pc : HandlerPc) : ClientView τ ω :=
  { v with handler := Function.update v.handler w pc }

def setHeld (v : ClientView τ ω) (t : τ) (b : Bool) : ClientView τ ω :=
  { v with held := Function.update v.held t b }

end ClientView

theorem count_addObjJob_ne {α : Type} [DecidableEq α] {q : List α} {j k : α} (hjk : j ≠ k) :
    (addObjJob q j).count k = q.count k := by
  rw [addObjJob]
  split
  · rw [List.count_append, List.count_singleton, if_neg (by simpa using hjk), Nat.add_zero]
  · rfl

namespace Client
variable {τ ω : Type} [DecidableEq τ] [DecidableEq ω] {c : Client τ ω} {l lid : ℕ}

omit [DecidableEq τ] [DecidableEq ω] in
theorem slice_setEntry_ne (hl : l ≠ lid) (e : CacheLock τ) :
    (c.setEntry l e).slice lid = c.slice lid := by
  ext <;> simp [slice, setEntry, hl.symm]

omit [DecidableEq ω] in
theorem slice_setThread_of_eq {t : τ} {pc : ThreadPc}
    (hpc : pc.only lid = (c.thread t).only lid) :
    (c.setThread t pc).slice lid = c.slice lid := by
  ext u
  case thread =>
    by_cases hu : u = t
    · subst hu
      simp [slice, setThread, hpc]
    · simp [slice, setThread, hu]
  all_goals simp [slice, setThread]

omit [DecidableEq τ] in
theorem slice_setWorker_of_eq {w : ω} {pc : ReleaserPc}
    (hpc : pc.only lid = (c.worker w).only lid) :
    (c.setWorker w pc).slice lid = c.slice lid := by
  ext u
  case worker =>
    by_cases hu : u = w
    · subst hu
      simp [slice, setWorker, hpc]
    · simp [slice, setWorker, hu]
  all_goals simp [slice, setWorker]

omit [DecidableEq τ] in
theorem slice_setHandler_of_eq {w : ω} {pc : HandlerPc}
    (hpc : pc.only lid = (c.handler w).only lid) :
    (c.setHandler w pc).slice lid = c.slice lid := by
  ext u
  case handler =>
    by_cases hu : u = w
    · subst hu
      simp [slice, setHandler, hpc]
    · simp [slice, setHandler, hu]
  all_goals simp [slice, setHandler]

omit [DecidableEq ω] in
theorem slice_setHeld_ne (hl : l ≠ lid) (t : τ) (b : Bool) :
    (c.setHeld t l b).slice lid = c.slice lid := by
  ext u
  case held =>
    by_cases hu : u = t
    · subst hu
      simp [slice, setHeld, Function.update_apply, hl.symm]
    · simp [slice, setHeld, hu]
  all_goals simp [slice, setHeld]

omit [DecidableEq τ] [DecidableEq ω] in
theorem slice_pushRelease_ne (hl : l ≠ lid) : (c.pushRelease l).slice lid = c.slice lid := by
  ext <;> simp [slice, pushRelease, List.count_append, hl]

omit [DecidableEq τ] [DecidableEq ω] in
/-- Whether the releaser sleeps is not part of the slice. -/
theorem slice_releaser (d : Daemon) :
    ({ c with releaser := d } : Client τ ω).slice lid = c.slice lid := rfl

omit [DecidableEq ω] in
/-- The three signals of an entry are signals on condition variables. -/
theorem signalQueue_eq (pick : Option τ) : c.signalQueue lid pick =
    { c with thread := signal (.queueWait lid) c.thread pick } := by
  rcases pick with - | t
  · rfl
  · cases ht : c.thread t <;> simp [signalQueue, signal, ht]
    rename_i l sig
    by_cases hl : l = lid <;> cases sig <;> simp [hl, setThread]

omit [DecidableEq τ] in
theorem signalRevoke_eq (pick : Option ω) : c.signalRevoke lid pick =
    { c with handler := signal (.revokeWait lid) c.handler pick } := by
  rcases pick with - | w
  · rfl
  · cases hw : c.handler w <;> simp [signalRevoke, signal, hw]
    rename_i l sig
    by_cases hl : l = lid <;> cases sig <;> simp [hl, setHandler]

omit [DecidableEq τ] in
theorem signalTmout_eq (pick : Option ω) : c.signalTmout lid pick =
    { c with worker := signal (.tmoutWait lid) c.worker pick } := by
  rcases pick with - | w
  · rfl
  · cases hw : c.worker w <;> simp [signalTmout, signal, hw]
    rename_i l sig
    by_cases hl : l = lid <;> cases sig <;> simp [hl, setWorker]

omit [DecidableEq ω] in
theorem slice_signalQueue_ne (hl : l ≠ lid) (pick : Option τ) :
    (c.signalQueue l pick).slice lid = c.slice lid := by
  rcases pick with - | t
  · rfl
  · simp only [signalQueue]
    split
    · rename_i l' b hpc
      split
      · rename_i hl'
        subst hl'
        exact slice_setThread_of_eq (by simp [hpc, hl])
      · rfl
    · rfl

omit [DecidableEq τ] in
theorem slice_signalRevoke_ne (hl : l ≠ lid) (pick : Option ω) :
    (c.signalRevoke l pick).slice lid = c.slice lid := by
  rcases pick with - | w
  · rfl
  · simp only [signalRevoke]
    split
    · rename_i l' b hpc
      split
      · rename_i hl'
        subst hl'
        exact slice_setHandler_of_eq (by simp [hpc, hl])
      · rfl
    · rfl

omit [DecidableEq τ] in
theorem slice_signalTmout_ne (hl : l ≠ lid) (pick : Option ω) :
    (c.signalTmout l pick).slice lid = c.slice lid := by
  rcases pick with - | w
  · rfl
  · simp only [signalTmout]
    split
    · rename_i l' b hpc
      split
      · rename_i hl'
        subst hl'
        exact slice_setWorker_of_eq (by simp [hpc, hl])
      · rfl
    · rfl

section Fields
variable (c) (e : CacheLock τ) (t : τ) (w : ω) (pt : ThreadPc) (pw : ReleaserPc) (ph : HandlerPc)
  (b : Bool)

omit [DecidableEq ω]

@[simp] theorem setHeld_thread : (c.setHeld t l b).thread = c.thread := rfl

omit [DecidableEq τ]

@[simp] theorem setEntry_thread : (c.setEntry l e).thread = c.thread := rfl
@[simp] theorem setEntry_worker : (c.setEntry l e).worker = c.worker := rfl
@[simp] theorem setEntry_handler : (c.setEntry l e).handler = c.handler := rfl

end Fields

section OtherLock
variable (hl : l ≠ lid) {t : τ} {w : ω} {e : CacheLock τ}
include hl

section
omit [DecidableEq ω]

theorem slice_grant_ne (ht : (c.thread t).only lid = .idle) :
    (c.grant t l e).slice lid = c.slice lid := by
  rw [grant, slice_setHeld_ne hl, slice_setThread_of_eq, slice_setEntry_ne hl]
  simp [ht]

theorem slice_startCall_ne (ht : (c.thread t).only lid = .idle) :
    (c.startCall t l e).slice lid = c.slice lid := by
  rw [startCall, slice_setThread_of_eq, slice_setEntry_ne hl]
  simp [ht, hl]

theorem slice_retryWait_ne (ht : (c.thread t).only lid = .idle) :
    (c.retryWait t l e).slice lid = c.slice lid := by
  rw [retryWait]
  split
  · exact slice_grant_ne hl ht
  · exact slice_startCall_ne hl ht
  · rw [slice_setThread_of_eq, slice_setEntry_ne hl]
    simp [ht, hl]

theorem slice_acquire_ne (ht : (c.thread t).only lid = .idle) :
    (c.acquire t l).slice lid = c.slice lid := by
  simp only [acquire]
  split
  · split
    · exact slice_grant_ne hl ht
    · exact slice_retryWait_ne hl ht
  · exact slice_retryWait_ne hl ht
  · exact slice_retryWait_ne hl ht
  · exact slice_startCall_ne hl ht
  · exact slice_grant_ne hl ht

theorem slice_acquireReturn_ne {ret : CallResult} (ht : (c.thread t).only lid = .idle) :
    (c.acquireReturn t l e ret).slice lid = c.slice lid := by
  rw [acquireReturn]
  split
  · exact slice_retryWait_ne hl ht
  · exact slice_grant_ne hl ht

end

theorem slice_release_ne (pt : Option τ) (pw : Option ω) :
    (c.release t l pt pw).2.slice lid = c.slice lid := by
  rw [release]
  split
  · exact slice_setHeld_ne hl t false
  · split
    · dsimp only
      split
      · rw [slice_signalTmout_ne hl, slice_setEntry_ne hl, slice_setHeld_ne hl]
      · split
        · rw [slice_signalRevoke_ne hl, slice_setEntry_ne hl, slice_setHeld_ne hl]
        · rw [slice_signalQueue_ne hl, slice_setEntry_ne hl, slice_setHeld_ne hl]
    · exact slice_setHeld_ne hl t false

omit [DecidableEq τ] in
theorem slice_revokeLoop_ne (hw : (c.handler w).only lid = .idle) :
    (c.revokeLoop w l e).1.slice lid = c.slice lid := by
  rw [revokeLoop]
  split
  · dsimp only
    rw [slice_releaser, slice_pushRelease_ne hl, slice_setHandler_of_eq, slice_setEntry_ne hl]
    simp [hw]
  · rw [slice_setHandler_of_eq, slice_setEntry_ne hl]
    simp [hw, hl]

omit [DecidableEq τ] in
theorem slice_revokeHandler_ne (hw : (c.handler w).only lid = .idle) :
    (c.revokeHandler w l).1.slice lid = c.slice lid := by
  rw [revokeHandler]
  split
  · rfl
  · exact slice_revokeLoop_ne hl hw

omit [DecidableEq ω] in
theorem slice_retryHandler_ne (pick : Option τ) :
    (c.retryHandler l pick).1.slice lid = c.slice lid := by
  rw [retryHandler]
  split
  · rfl
  · split
    · rw [slice_signalQueue_ne hl, slice_setEntry_ne hl]
    · rfl

omit [DecidableEq τ] in
theorem slice_sendRelease_ne (hw : (c.worker w).only lid = .idle) :
    (c.sendRelease w l e).slice lid = c.slice lid := by
  rw [sendRelease, slice_setWorker_of_eq, slice_setEntry_ne hl]
  simp [hw, hl]

omit [DecidableEq τ] in
theorem slice_releaserRpc_ne (hw : (c.worker w).only lid = .idle) :
    (c.releaserRpc w l e).slice lid = c.slice lid := by
  rw [releaserRpc]
  split
  · rw [slice_setWorker_of_eq, slice_setEntry_ne hl]
    simp [hw, hl]
  · exact slice_sendRelease_ne hl hw

omit [DecidableEq τ] in
theorem slice_tmoutWake_ne (hw : (c.worker w).only lid = .idle) :
    (c.tmoutWake w l e).slice lid = c.slice lid := by
  rw [tmoutWake]
  split
  · exact slice_sendRelease_ne hl hw
  · rw [slice_setWorker_of_eq, slice_setEntry_ne hl]
    simp [hw, hl]

theorem slice_releaseReturn_ne {ret : Status} (pick : Option τ)
    (hw : (c.worker w).only lid = .idle) :
    (c.releaseReturn w l e ret pick).slice lid = c.slice lid := by
  have hset (c' : Client τ ω) (hc' : (c'.worker w).only lid = .idle) :
      (c'.setWorker w .idle).slice lid = c'.slice lid := by
    apply slice_setWorker_of_eq
    rw [hc', ReleaserPc.only_idle]
  rw [releaseReturn]
  split
  · dsimp only
    split
    · rw [slice_signalQueue_ne hl, hset (c.setEntry l _) hw, slice_setEntry_ne hl]
    · rw [hset (c.setEntry l _) hw, slice_setEntry_ne hl]
  · rw [slice_pushRelease_ne hl, hset _ hw]

end OtherLock

omit [DecidableEq τ] [DecidableEq ω] in
theorem slice_releaserTurn_ne (hq : c.releaserQueue.head? ≠ some lid) :
    c.releaserTurn.slice lid = c.slice lid := by
  rw [releaserTurn]
  split
  · rfl
  · rename_i l q hlq
    have hl : l ≠ lid := by simpa [hlq] using hq
    ext <;> simp [slice, hlq, hl, count_addObjJob_ne]

omit [DecidableEq τ] in
theorem slice_take_ne {js : List ℕ} {w : ω} (hl : l ≠ lid) (hj : c.jobs = l :: js)
    (hw : c.worker w = .idle) :
    ({ c with jobs := js }.setWorker w (.start l)).slice lid = c.slice lid := by
  rw [slice_setWorker_of_eq (by simp [hw, hl])]
  ext <;> simp [slice, hj, hl]

end Client
end YFS.Lock
