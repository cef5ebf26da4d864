import YFS.Lock.Slice
import YFS.Lock.System

/-! # One lock of the system

The part of the system's state that concerns a single lock: its entries on both sides,
how often it stands in each queue, and the positions of those threads and workers that
are busy with it. For a client this is its slice without the pending signals.
-/

namespace YFS.Lock

/-- The position if it is about the lock, without the pending signal. -/
def ThreadPc.restrict (lid : ℕ) : ThreadPc → ThreadPc
  | .idle => .idle
  | .queueWait l _ => if l = lid then .queueWait l false else .idle
  | .calling l => if l = lid then .calling l else .idle
  | .answered l ret => if l = lid then .answered l ret else .idle

@[inherit_doc ThreadPc.restrict]
def ReleaserPc.restrict (lid : ℕ) : ReleaserPc → ReleaserPc
  | .idle => .idle
  | .start l => if l = lid then .start l else .idle
  | .tmoutWait l _ => if l = lid then .tmoutWait l false else .idle
  | .calling l => if l = lid then .calling l else .idle
  | .answered l ret => if l = lid then .answered l ret else .idle

@[inherit_doc ThreadPc.restrict]
def HandlerPc.restrict (lid : ℕ) : HandlerPc → HandlerPc
  | .idle => .idle
  | .revokeWait l _ => if l = lid then .revokeWait l false else .idle

@[inherit_doc ThreadPc.restrict]
def ServerPc.restrict {ι : Type} (lid : ℕ) : ServerPc ι → ServerPc ι
  | .idle => .idle
  | .retryStart l => if l = lid then .retryStart l else .idle
  | .retryCalling l c => if l = lid then .retryCalling l c else .idle
  | .retryAnswered l ret => if l = lid then .retryAnswered l ret else .idle
  | .revokeStart l => if l = lid then .revokeStart l else .idle
  | .revokeCalling l c => if l = lid then .revokeCalling l c else .idle
  | .revokeAnswered l ret => if l = lid then .revokeAnswered l ret else .idle

@[simp] theorem ThreadPc.restrict_idle (lid : ℕ) : ThreadPc.idle.restrict lid = .idle := rfl

@[simp] theorem ThreadPc.restrict_queueWait (l lid : ℕ) (b : Bool) :
    (ThreadPc.queueWait l b).restrict lid = if l = lid then .queueWait l false else .idle := rfl

@[simp] theorem ThreadPc.restrict_calling (l lid : ℕ) :
    (ThreadPc.calling l).restrict lid = if l = lid then .calling l else .idle := rfl

@[simp] theorem ThreadPc.restrict_answered (l lid : ℕ) (ret : Status) :
    (ThreadPc.answered l ret).restrict lid = if l = lid then .answered l ret else .idle := rfl

@[simp] theorem ReleaserPc.restrict_idle (lid : ℕ) : ReleaserPc.idle.restrict lid = .idle := rfl

@[simp] theorem ReleaserPc.restrict_start (l lid : ℕ) :
    (ReleaserPc.start l).restrict lid = if l = lid then .start l else .idle := rfl

@[simp] theorem ReleaserPc.restrict_tmoutWait (l lid : ℕ) (b : Bool) :
    (ReleaserPc.tmoutWait l b).restrict lid = if l = lid then .tmoutWait l false else .idle := rfl

@[simp] theorem ReleaserPc.restrict_calling (l lid : ℕ) :
    (ReleaserPc.calling l).restrict lid = if l = lid then .calling l else .idle := rfl

@[simp] theorem ReleaserPc.restrict_answered (l lid : ℕ) (ret : Status) :
    (ReleaserPc.answered l ret).restrict lid = if l = lid then .answered l ret else .idle := rfl

@[simp] theorem HandlerPc.restrict_idle (lid : ℕ) : HandlerPc.idle.restrict lid = .idle := rfl

@[simp] theorem HandlerPc.restrict_revokeWait (l lid : ℕ) (b : Bool) :
    (HandlerPc.revokeWait l b).restrict lid = if l = lid then .revokeWait l false else .idle := rfl

section ServerPositions
variable {ι : Type} (l lid : ℕ) (c : ι) (ret : RStatus)

@[simp] theorem ServerPc.restrict_idle : (ServerPc.idle : ServerPc ι).restrict lid = .idle := rfl

@[simp] theorem ServerPc.restrict_retryStart :
    (ServerPc.retryStart l : ServerPc ι).restrict lid = if l = lid then .retryStart l else .idle :=
  rfl

@[simp] theorem ServerPc.restrict_retryCalling :
    (ServerPc.retryCalling l c).restrict lid = if l = lid then .retryCalling l c else .idle := rfl

@[simp] theorem ServerPc.restrict_retryAnswered : (ServerPc.retryAnswered l ret : ServerPc ι).restrict
    lid = if l = lid then .retryAnswered l ret else .idle := rfl

@[simp] theorem ServerPc.restrict_revokeStart : (ServerPc.revokeStart l : ServerPc ι).restrict lid =
    if l = lid then .revokeStart l else .idle := rfl

@[simp] theorem ServerPc.restrict_revokeCalling :
    (ServerPc.revokeCalling l c).restrict lid = if l = lid then .revokeCalling l c else .idle := rfl

@[simp] theorem ServerPc.restrict_revokeAnswered : (ServerPc.revokeAnswered l ret :
    ServerPc ι).restrict lid = if l = lid then .revokeAnswered l ret else .idle := rfl

end ServerPositions

section Restrict
variable (lid : ℕ)

theorem ThreadPc.restrict_only (pc : ThreadPc) : (pc.only lid).restrict lid = pc.restrict lid := by
  cases pc <;> simp [apply_ite (ThreadPc.restrict lid)]

theorem ReleaserPc.restrict_only (pc : ReleaserPc) :
    (pc.only lid).restrict lid = pc.restrict lid := by
  cases pc <;> simp [apply_ite (ReleaserPc.restrict lid)]

theorem HandlerPc.restrict_only (pc : HandlerPc) :
    (pc.only lid).restrict lid = pc.restrict lid := by
  cases pc <;> simp [apply_ite (HandlerPc.restrict lid)]

end Restrict

@[ext] structure ServerView (ι ω : Type) where
  owner : Option ι
  waiting : List ι
  revQ : ℕ
  revJ : ℕ
  retQ : ℕ
  retJ : ℕ
  worker : ω → ServerPc ι

@[ext] structure View (ι τ ω : Type) where
  server : ServerView ι ω
  client : ι → ClientView τ ω
  granted : ι → Bool

def Client.view {τ ω : Type} (c : Client τ ω) (lid : ℕ) : ClientView τ ω where
  entry := c.table lid
  relQ := c.releaserQueue.count lid
  relJ := c.jobs.count lid
  worker w := (c.worker w).restrict lid
  handler w := (c.handler w).restrict lid
  thread t := (c.thread t).restrict lid
  held t := c.held t lid

def Server.view {ι ω : Type} (s : Server ι ω) (lid : ℕ) : ServerView ι ω where
  owner := (s.lockTable lid).ownerCl
  waiting := (s.lockTable lid).waitingCls
  revQ := s.revokerQueue.count lid
  revJ := s.jobs.count (.revoker lid)
  retQ := s.retryerQueue.count lid
  retJ := s.jobs.count (.retryer lid)
  worker w := (s.worker w).restrict lid

def Sys.view {ι τ ω : Type} (s : Sys ι τ ω) (lid : ℕ) : View ι τ ω where
  server := s.server.view lid
  client c := (s.client c).view lid
  granted c := s.granted c lid

/-- A job that is not in the queue yet is queued once, or refused; `a` and `b` are what the
obligation becomes in the one case and in the other. -/
theorem exists_addObjJob {α β : Type} [DecidableEq α] [DecidableEq β] {q : List α} {j : α}
    (hj : q.count j = 0) {a b : β} (hab : b ≠ a) :
    ∃ p, (p = a ∨ p = b) ∧ (addObjJob q j).count j = if p = a then 1 else 0 := by
  rw [addObjJob]
  split
  · exact ⟨a, Or.inl rfl, by simp [List.count_append, hj]⟩
  · exact ⟨b, Or.inr rfl, by simp [hj, hab]⟩

/-- What is at the front of a queue that `p` fixes is there once. -/
theorem eq_of_count_cons {α β : Type} [DecidableEq α] [DecidableEq β] {a : α} {q : List α}
    {p b : β} (h : (a :: q).count a = if p = b then 1 else 0) : p = b ∧ q.count a = 0 := by
  rw [List.count_cons_self] at h
  split at h
  · rename_i hp
    exact ⟨hp, by omega⟩
  · omega

namespace Client
variable {τ ω : Type} [DecidableEq τ] [DecidableEq ω] {c : Client τ ω} {l lid : ℕ}

omit [DecidableEq τ] [DecidableEq ω] in
theorem view_eq_slice (c : Client τ ω) (lid : ℕ) : c.view lid =
    { c.slice lid with
      worker := fun w => ((c.slice lid).worker w).restrict lid
      handler := fun w => ((c.slice lid).handler w).restrict lid
      thread := fun t => ((c.slice lid).thread t).restrict lid } := by
  ext <;> simp [view, slice, ThreadPc.restrict_only, ReleaserPc.restrict_only,
    HandlerPc.restrict_only]

omit [DecidableEq τ] [DecidableEq ω] in
theorem view_congr {c' : Client τ ω} (h : c'.slice lid = c.slice lid) :
    c'.view lid = c.view lid := by
  rw [view_eq_slice, view_eq_slice, h]

omit [DecidableEq ω] in
theorem view_setThread_of_eq {t : τ} {pc : ThreadPc}
    (hpc : pc.restrict lid = (c.thread t).restrict lid) :
    (c.setThread t pc).view lid = c.view lid := by
  ext u
  case thread =>
    by_cases hu : u = t
    · subst hu
      simp [view, setThread, hpc]
    · simp [view, setThread, hu]
  all_goals simp [view, setThread]

omit [DecidableEq τ] in
theorem view_setWorker_of_eq {w : ω} {pc : ReleaserPc}
    (hpc : pc.restrict lid = (c.worker w).restrict lid) :
    (c.setWorker w pc).view lid = c.view lid := by
  ext u
  case worker =>
    by_cases hu : u = w
    · subst hu
      simp [view, setWorker, hpc]
    · simp [view, setWorker, hu]
  all_goals simp [view, setWorker]

omit [DecidableEq τ] in
theorem view_setHandler_of_eq {w : ω} {pc : HandlerPc}
    (hpc : pc.restrict lid = (c.handler w).restrict lid) :
    (c.setHandler w pc).view lid = c.view lid := by
  ext u
  case handler =>
    by_cases hu : u = w
    · subst hu
      simp [view, setHandler, hpc]
    · simp [view, setHandler, hu]
  all_goals simp [view, setHandler]

omit [DecidableEq τ] [DecidableEq ω] in
theorem view_pushRelease : (c.pushRelease lid).view lid =
    { c.view lid with relQ := (c.view lid).relQ + 1 } := by
  ext <;> simp [view, pushRelease, List.count_append]

omit [DecidableEq τ] [DecidableEq ω] in
/-- Whether the releaser sleeps is not part of the view, and neither are signals. -/
theorem view_releaser (d : Daemon) :
    ({ c with releaser := d } : Client τ ω).view lid = c.view lid := rfl

omit [DecidableEq ω] in
@[simp] theorem view_signalQueue (pick : Option τ) :
    (c.signalQueue l pick).view lid = c.view lid := by
  rcases pick with - | t
  · rfl
  · simp only [signalQueue]
    split
    · rename_i l' b hpc
      split
      · rename_i hl
        subst hl
        apply view_setThread_of_eq
        simp [hpc]
      · rfl
    · rfl

omit [DecidableEq τ] in
@[simp] theorem view_signalRevoke (pick : Option ω) :
    (c.signalRevoke l pick).view lid = c.view lid := by
  rcases pick with - | w
  · rfl
  · simp only [signalRevoke]
    split
    · rename_i l' b hpc
      split
      · rename_i hl
        subst hl
        apply view_setHandler_of_eq
        simp [hpc]
      · rfl
    · rfl

omit [DecidableEq τ] in
@[simp] theorem view_signalTmout (pick : Option ω) :
    (c.signalTmout l pick).view lid = c.view lid := by
  rcases pick with - | w
  · rfl
  · simp only [signalTmout]
    split
    · rename_i l' b hpc
      split
      · rename_i hl
        subst hl
        apply view_setWorker_of_eq
        simp [hpc]
      · rfl
    · rfl

section SameLock
variable (c)

omit [DecidableEq τ] [DecidableEq ω] in
theorem view_setEntry (e : CacheLock τ) : (c.setEntry lid e).view lid = (c.view lid).setEntry e := by
  ext <;> simp [view, setEntry, ClientView.setEntry]

omit [DecidableEq ω] in
theorem view_setThread (t : τ) (pc : ThreadPc) :
    (c.setThread t pc).view lid = (c.view lid).setThread t (pc.restrict lid) := by
  ext u
  case thread => by_cases hu : u = t <;> simp [view, setThread, ClientView.setThread, hu]
  all_goals simp [view, setThread, ClientView.setThread]

omit [DecidableEq τ] in
theorem view_setWorker (w : ω) (pc : ReleaserPc) :
    (c.setWorker w pc).view lid = (c.view lid).setWorker w (pc.restrict lid) := by
  ext u
  case worker => by_cases hu : u = w <;> simp [view, setWorker, ClientView.setWorker, hu]
  all_goals simp [view, setWorker, ClientView.setWorker]

omit [DecidableEq τ] in
theorem view_setHandler (w : ω) (pc : HandlerPc) :
    (c.setHandler w pc).view lid = (c.view lid).setHandler w (pc.restrict lid) := by
  ext u
  case handler => by_cases hu : u = w <;> simp [view, setHandler, ClientView.setHandler, hu]
  all_goals simp [view, setHandler, ClientView.setHandler]

omit [DecidableEq ω] in
theorem view_setHeld (t : τ) (b : Bool) :
    (c.setHeld t lid b).view lid = (c.view lid).setHeld t b := by
  ext u
  case held => by_cases hu : u = t <;> simp [view, setHeld, ClientView.setHeld, hu]
  all_goals simp [view, setHeld, ClientView.setHeld]

end SameLock
end Client

namespace Server
variable {ι ω : Type} [DecidableEq ι] [DecidableEq ω] {s : Server ι ω} {l lid : ℕ}

omit [DecidableEq ι] [DecidableEq ω] in
theorem view_setLock_ne (hl : l ≠ lid) (k : ServerLock ι) :
    (s.setLock l k).view lid = s.view lid := by
  ext <;> simp [view, setLock, hl.symm]

omit [DecidableEq ι] in
theorem view_setWorker_of_eq {w : ω} {pc : ServerPc ι}
    (hpc : pc.restrict lid = (s.worker w).restrict lid) :
    (s.setWorker w pc).view lid = s.view lid := by
  ext u
  case worker =>
    by_cases hu : u = w
    · subst hu
      simp [view, setWorker, hpc]
    · simp [view, setWorker, hu]
  all_goals simp [view, setWorker]

omit [DecidableEq ι] [DecidableEq ω] in
theorem view_setLock (k : ServerLock ι) : (s.setLock lid k).view lid =
    { s.view lid with owner := k.ownerCl, waiting := k.waitingCls } := by
  ext <;> simp [view, setLock]

omit [DecidableEq ι] in
theorem view_setWorker (w : ω) (pc : ServerPc ι) : (s.setWorker w pc).view lid =
    { s.view lid with worker := Function.update (s.view lid).worker w (pc.restrict lid) } := by
  ext u
  case worker => by_cases hu : u = w <;> simp [view, setWorker, hu]
  all_goals simp [view, setWorker]

section
omit [DecidableEq ι] [DecidableEq ω]

theorem view_askRevoker : (s.askRevoker lid).view lid =
    { s.view lid with revQ := (s.view lid).revQ + 1 } := by
  ext <;> simp [view, askRevoker, List.count_append]

theorem view_pushRetry (d : Daemon) :
    ({ s with retryerQueue := s.retryerQueue ++ [lid], retryer := d } : Server ι ω).view lid =
      { s.view lid with retQ := (s.view lid).retQ + 1 } := by
  ext <;> simp [view, List.count_append]

theorem view_askRevoker_ne (hl : l ≠ lid) : (s.askRevoker l).view lid = s.view lid := by
  ext <;> simp [view, askRevoker, List.count_append, hl]

theorem view_pushRetry_ne (hl : l ≠ lid) (d : Daemon) :
    ({ s with retryerQueue := s.retryerQueue ++ [l], retryer := d } : Server ι ω).view lid =
      s.view lid := by
  ext <;> simp [view, List.count_append, hl]

theorem view_acquire_ne (hl : l ≠ lid) (id : ι) : (s.acquire l id).2.view lid = s.view lid := by
  simp only [acquire]
  split
  · exact view_setLock_ne hl _
  · dsimp only
    rw [view_setLock_ne hl]
    split
    · exact view_askRevoker_ne hl
    · rfl

end

omit [DecidableEq ω] in
theorem view_release_ne (hl : l ≠ lid) (id : ι) : (s.release l id).2.view lid = s.view lid := by
  rw [release]
  split
  · dsimp only
    rw [view_pushRetry_ne hl, view_setLock_ne hl]
  · rfl

omit [DecidableEq ι] in
theorem view_retryFinish_ne {w : ω} {ret : RStatus} {s' : Server ι ω} (hl : l ≠ lid)
    (hw : (s.worker w).restrict lid = .idle) (hs : s.retryFinish w l ret = some s') :
    s'.view lid = s.view lid := by
  have hset : (s.setWorker w .idle).view lid = s.view lid := by
    apply view_setWorker_of_eq
    rw [hw, ServerPc.restrict_idle]
  simp only [retryFinish] at hs
  split at hs
  · split at hs
    · cases hs
    · cases hs
      split
      · rw [view_setLock_ne hl, hset]
      · rw [view_askRevoker_ne hl, view_setLock_ne hl, hset]
  · cases hs
    rw [view_pushRetry_ne hl, view_setLock_ne hl, hset]

omit [DecidableEq ι] in
theorem view_revokeFinish_ne {w : ω} (ret : RStatus) (hl : l ≠ lid)
    (hw : (s.worker w).restrict lid = .idle) : (s.revokeFinish w l ret).view lid = s.view lid := by
  have hset : (s.setWorker w .idle).view lid = s.view lid := by
    apply view_setWorker_of_eq
    rw [hw, ServerPc.restrict_idle]
  simp only [revokeFinish]
  split
  · exact hset
  · rw [← hset]
    ext <;> simp [view, List.count_append, hl]

omit [DecidableEq ι] in
theorem view_take_ne {j : Job} {js : List Job} {w : ω} {pc : ServerPc ι} (hj : s.jobs = j :: js)
    (hw : s.worker w = .idle) (hret : j ≠ .retryer lid) (hrev : j ≠ .revoker lid)
    (hpc : pc.restrict lid = .idle) :
    ({ s with jobs := js }.setWorker w pc).view lid = s.view lid := by
  rw [view_setWorker_of_eq (by simp [hw, hpc])]
  ext <;> simp [view, hj, hret, hrev]

omit [DecidableEq ι] [DecidableEq ω] in
theorem view_retryerTurn_ne (hq : s.retryerQueue.head? ≠ some lid) :
    s.retryerTurn.view lid = s.view lid := by
  rw [retryerTurn]
  split
  · rfl
  · rename_i l q hlq
    have hl : l ≠ lid := by simpa [hlq] using hq
    dsimp only
    split
    · ext <;> simp [view, hlq, hl]
    · ext <;> simp [view, setLock, hlq, hl, hl.symm, count_addObjJob_ne]

omit [DecidableEq ι] [DecidableEq ω] in
theorem view_revokerTurn_ne (hq : s.revokerQueue.head? ≠ some lid) :
    s.revokerTurn.view lid = s.view lid := by
  rw [revokerTurn]
  split
  · rfl
  · rename_i l q hlq
    have hl : l ≠ lid := by simpa [hlq] using hq
    dsimp only
    split
    · ext <;> simp [view, hlq, hl, count_addObjJob_ne]
    · ext <;> simp [view, hlq, hl]

end Server

namespace Sys
variable {ι τ ω : Type} [DecidableEq ι] [DecidableEq τ] [DecidableEq ω] {s : Sys ι τ ω}
  {l lid : ℕ}

omit [DecidableEq ι] [DecidableEq τ] [DecidableEq ω] in
@[simp] theorem view_setServer (srv : Server ι ω) :
    (s.setServer srv).view lid = { s.view lid with server := srv.view lid } := rfl

omit [DecidableEq τ] [DecidableEq ω] in
theorem view_setClient (c : ι) (cl : Client τ ω) : (s.setClient c cl).view lid =
    { s.view lid with client := Function.update (s.view lid).client c (cl.view lid) } := by
  ext1
  · rfl
  · funext d
    by_cases hd : d = c
    · subst hd
      simp [view, setClient]
    · simp [view, setClient, hd]
  · rfl

omit [DecidableEq τ] [DecidableEq ω] in
theorem view_setClient_of_eq {c : ι} {cl : Client τ ω}
    (hcl : cl.view lid = (s.client c).view lid) : (s.setClient c cl).view lid = s.view lid := by
  rw [view_setClient, hcl]
  ext1
  · rfl
  · exact Function.update_eq_self c (s.view lid).client
  · rfl

omit [DecidableEq ι] [DecidableEq τ] [DecidableEq ω] in
theorem view_setServer_of_eq {srv : Server ι ω} (hsrv : srv.view lid = s.server.view lid) :
    (s.setServer srv).view lid = s.view lid := by
  rw [view_setServer, hsrv]
  rfl

section
omit [DecidableEq τ] [DecidableEq ω]

theorem view_setGranted (c : ι) (b : Bool) : (s.setGranted c lid b).view lid =
    { s.view lid with granted := Function.update (s.view lid).granted c b } := by
  ext1
  · rfl
  · rfl
  · funext d
    by_cases hd : d = c
    · subst hd
      simp [view, setGranted]
    · simp [view, setGranted, hd]

theorem view_setGranted_ne (hl : l ≠ lid) (c : ι) (b : Bool) :
    (s.setGranted c l b).view lid = s.view lid := by
  ext1
  · rfl
  · rfl
  · funext d
    by_cases hd : d = c
    · subst hd
      simp [view, setGranted, hl.symm]
    · simp [view, setGranted, hd]

theorem serveAcquire_free {c : ι} (ho : (s.server.lockTable l).ownerCl = none) :
    s.serveAcquire c l = (.OK, (s.setServer (s.server.setLock l
      { s.server.lockTable l with ownerCl := some c })).setGranted c l true) := by
  simp [serveAcquire, Server.acquire, ho]

theorem serveAcquire_taken {c d : ι} (ho : (s.server.lockTable l).ownerCl = some d) :
    s.serveAcquire c l = (.RETRY, s.setServer
      ((if (s.server.lockTable l).waitingCls.length = 0 then s.server.askRevoker l
        else s.server).setLock l
      { s.server.lockTable l with waitingCls := (s.server.lockTable l).waitingCls ++ [c] })) := by
  simp [serveAcquire, Server.acquire, ho]

theorem view_serveAcquire_ne (hl : l ≠ lid) (c : ι) :
    (s.serveAcquire c l).2.view lid = s.view lid := by
  have hsrv := s.server.view_acquire_ne hl c
  simp only [serveAcquire]
  split
  · rw [view_setGranted_ne hl, view_setServer_of_eq hsrv]
  · exact view_setServer_of_eq hsrv

theorem serveAcquire_client (c : ι) : (s.serveAcquire c l).2.client = s.client := by
  simp only [serveAcquire]
  split <;> rfl

theorem serveAcquire_lost (c : ι) : (s.serveAcquire c l).2.lost = s.lost := by
  simp only [serveAcquire]
  split <;> rfl

end

end Sys
end YFS.Lock
