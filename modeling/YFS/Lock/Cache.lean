import YFS.Library.Machine
import YFS.Lock.Slice

/-! # One caching client and its surroundings

A single `lock_client_cache` with everything that can happen to it: calls of its threads,
wake-ups, the turns of its releaser and of the workers of its pool, and from outside the
server's revokes and retries, its answers and the results of the RPCs. Nothing is assumed
about what comes from outside; what a result needs of it is a condition on the run.
-/

namespace YFS.Lock
open YFS.Library

variable {τ ω : Type} [DecidableEq τ] [DecidableEq ω]

/-- What the caller of an RPC finds in its status: a failed RPC is an error like any other where
the code only compares with `OK`. -/
def CallResult.status : CallResult → Status
  | .returned ret => ret
  | .failed _ => .RPCERR

/-- `due` is history: how many acquire calls for the lock the server has answered with `RETRY`
without having delivered the retry. -/
structure Cache (τ ω : Type) where
  client : Client τ ω
  due : ℕ → ℕ

/-- The steps; `answer` is the server's decision about an acquire call, which comes back to the
thread later. -/
inductive CacheEvent (τ ω : Type) where
  | acquire (t : τ) (lid : ℕ)
  | acquireWake (t : τ)
  | answer (t : τ) (ret : Status)
  | acquireReturn (t : τ) (res : CallResult)
  | release (t : τ) (lid : ℕ) (pickThread : Option τ) (pickWorker : Option ω)
  | revoke (w : ω) (lid : ℕ)
  | revokeWake (w : ω)
  | retry (lid : ℕ) (pick : Option τ)
  | releaser
  | releaserWake
  | releaserTake (w : ω)
  | releaserRpc (w : ω)
  | tmoutWake (w : ω)
  | releaseReturn (w : ω) (res : CallResult) (pick : Option τ)

namespace Cache

def init : Cache τ ω := ⟨.new, fun _ => 0⟩

def setClient (s : Cache τ ω) (c : Client τ ω) : Cache τ ω := { s with client := c }

def setDue (s : Cache τ ω) (lid n : ℕ) : Cache τ ω :=
  { s with due := Function.update s.due lid n }

def step (s : Cache τ ω) : CacheEvent τ ω → Option (Cache τ ω)
  | .acquire t lid =>
    if s.client.thread t = .idle then some (s.setClient (s.client.acquire t lid)) else none
  | .acquireWake t =>
    match s.client.thread t with
    | .queueWait lid _ =>
      (s.client.table lid).map fun e => s.setClient (s.client.retryWait t lid e)
    | _ => none
  | .answer t ret =>
    match s.client.thread t with
    | .calling lid =>
      let s' := s.setClient (s.client.setThread t (.answered lid ret))
      some (if ret = .RETRY then s'.setDue lid (s.due lid + 1) else s')
    | _ => none
  | .acquireReturn t res =>
    match s.client.thread t with
    | .calling lid | .answered lid _ =>
      (s.client.table lid).map fun e => s.setClient (s.client.acquireReturn t lid e res)
    | _ => none
  | .release t lid pickThread pickWorker =>
    if s.client.thread t = .idle then
      some (s.setClient (s.client.release t lid pickThread pickWorker).2)
    else none
  | .revoke w lid =>
    if s.client.handler w = .idle then some (s.setClient (s.client.revokeHandler w lid).1)
    else none
  | .revokeWake w =>
    match s.client.handler w with
    | .revokeWait lid _ =>
      (s.client.table lid).map fun e => s.setClient (s.client.revokeLoop w lid e).1
    | _ => none
  | .retry lid pick =>
    some ((s.setClient (s.client.retryHandler lid pick).1).setDue lid (s.due lid - 1))
  | .releaser =>
    if s.client.releaser = .awake then some (s.setClient s.client.releaserTurn) else none
  | .releaserWake =>
    match s.client.releaser with
    | .asleep _ => some (s.setClient { s.client with releaser := .awake })
    | .awake => none
  | .releaserTake w =>
    match s.client.worker w, s.client.jobs with
    | .idle, lid :: js =>
      some (s.setClient ({ s.client with jobs := js }.setWorker w (.start lid)))
    | _, _ => none
  | .releaserRpc w =>
    match s.client.worker w with
    | .start lid => (s.client.table lid).bind fun e =>
        if e.state = .RELEASING then some (s.setClient (s.client.releaserRpc w lid e)) else none
    | _ => none
  | .tmoutWake w =>
    match s.client.worker w with
    | .tmoutWait lid _ =>
      (s.client.table lid).map fun e => s.setClient (s.client.tmoutWake w lid e)
    | _ => none
  | .releaseReturn w res pick =>
    match s.client.worker w with
    | .calling lid => (s.client.table lid).bind fun e =>
        if e.state = .RELEASING then
          some (s.setClient (s.client.releaseReturn w lid e res.status pick))
        else none
    | _ => none

/-- What a step does that is about lock `lid`, and where it is enabled. -/
inductive Moves (s : Cache τ ω) (lid : ℕ) : CacheEvent τ ω → Cache τ ω → Prop
  | acquire (t : τ) : s.client.thread t = .idle →
      Moves s lid (.acquire t lid) (s.setClient (s.client.acquire t lid))
  | acquireWake {t : τ} {sig : Bool} {e : CacheLock τ} :
      s.client.thread t = .queueWait lid sig → s.client.table lid = some e →
      Moves s lid (.acquireWake t) (s.setClient (s.client.retryWait t lid e))
  | answer {t : τ} (ret : Status) : s.client.thread t = .calling lid → ret ≠ .RETRY →
      Moves s lid (.answer t ret) (s.setClient (s.client.setThread t (.answered lid ret)))
  | answerRetry {t : τ} : s.client.thread t = .calling lid →
      Moves s lid (.answer t .RETRY)
        ((s.setClient (s.client.setThread t (.answered lid .RETRY))).setDue lid (s.due lid + 1))
  | acquireReturn {t : τ} {e : CacheLock τ} (res : CallResult) :
      (s.client.thread t = .calling lid ∨ ∃ ret, s.client.thread t = .answered lid ret) →
      s.client.table lid = some e →
      Moves s lid (.acquireReturn t res) (s.setClient (s.client.acquireReturn t lid e res))
  | release (t : τ) (pt : Option τ) (pw : Option ω) : s.client.thread t = .idle →
      Moves s lid (.release t lid pt pw) (s.setClient (s.client.release t lid pt pw).2)
  | revoke (w : ω) : s.client.handler w = .idle →
      Moves s lid (.revoke w lid) (s.setClient (s.client.revokeHandler w lid).1)
  | revokeWake {w : ω} {sig : Bool} {e : CacheLock τ} :
      s.client.handler w = .revokeWait lid sig → s.client.table lid = some e →
      Moves s lid (.revokeWake w) (s.setClient (s.client.revokeLoop w lid e).1)
  | retry (pick : Option τ) : Moves s lid (.retry lid pick)
      ((s.setClient (s.client.retryHandler lid pick).1).setDue lid (s.due lid - 1))
  | releaser {q : List ℕ} : s.client.releaser = .awake → s.client.releaserQueue = lid :: q →
      Moves s lid .releaser (s.setClient s.client.releaserTurn)
  | releaserTake {w : ω} {js : List ℕ} : s.client.worker w = .idle →
      s.client.jobs = lid :: js → Moves s lid (.releaserTake w)
        (s.setClient ({ s.client with jobs := js }.setWorker w (.start lid)))
  | releaserRpc {w : ω} {e : CacheLock τ} : s.client.worker w = .start lid →
      s.client.table lid = some e → e.state = .RELEASING →
      Moves s lid (.releaserRpc w) (s.setClient (s.client.releaserRpc w lid e))
  | tmoutWake {w : ω} {sig : Bool} {e : CacheLock τ} :
      s.client.worker w = .tmoutWait lid sig → s.client.table lid = some e →
      Moves s lid (.tmoutWake w) (s.setClient (s.client.tmoutWake w lid e))
  | releaseReturn {w : ω} {e : CacheLock τ} (res : CallResult) (pick : Option τ) :
      s.client.worker w = .calling lid → s.client.table lid = some e → e.state = .RELEASING →
      Moves s lid (.releaseReturn w res pick)
        (s.setClient (s.client.releaseReturn w lid e res.status pick))

inductive Rests (s : Cache τ ω) : CacheEvent τ ω → Cache τ ω → Prop
  | sleep : s.client.releaserQueue = [] →
      Rests s .releaser (s.setClient { s.client with releaser := .asleep false })
  | wake : Rests s .releaserWake (s.setClient { s.client with releaser := .awake })

theorem moves_or_rests {s s' : Cache τ ω} {ev : CacheEvent τ ω} (h : s.step ev = some s') :
    (∃ lid, s.Moves lid ev s') ∨ s.Rests ev s' := by
  cases ev with
  | acquire t lid =>
    simp only [step] at h
    split at h
    · rename_i ht
      cases h
      exact Or.inl ⟨lid, .acquire t ht⟩
    · cases h
  | acquireWake t =>
    simp only [step] at h
    split at h
    · rename_i lid sig ht
      obtain ⟨e, he, rfl⟩ := Option.map_eq_some_iff.mp h
      exact Or.inl ⟨lid, .acquireWake ht he⟩
    · cases h
  | answer t ret =>
    simp only [step] at h
    split at h
    · rename_i lid ht
      cases h
      left
      split
      · rename_i hret
        subst hret
        exact ⟨lid, .answerRetry ht⟩
      · rename_i hret
        exact ⟨lid, .answer ret ht hret⟩
    · cases h
  | acquireReturn t res =>
    simp only [step] at h
    split at h
    · rename_i lid ht
      obtain ⟨e, he, rfl⟩ := Option.map_eq_some_iff.mp h
      exact Or.inl ⟨lid, .acquireReturn res (Or.inl ht) he⟩
    · rename_i lid ret ht
      obtain ⟨e, he, rfl⟩ := Option.map_eq_some_iff.mp h
      exact Or.inl ⟨lid, .acquireReturn res (Or.inr ⟨ret, ht⟩) he⟩
    · cases h
  | release t lid pt pw =>
    simp only [step] at h
    split at h
    · rename_i ht
      cases h
      exact Or.inl ⟨lid, .release t pt pw ht⟩
    · cases h
  | revoke w lid =>
    simp only [step] at h
    split at h
    · rename_i hw
      cases h
      exact Or.inl ⟨lid, .revoke w hw⟩
    · cases h
  | revokeWake w =>
    simp only [step] at h
    split at h
    · rename_i lid sig hw
      obtain ⟨e, he, rfl⟩ := Option.map_eq_some_iff.mp h
      exact Or.inl ⟨lid, .revokeWake hw he⟩
    · cases h
  | retry lid pick =>
    cases h
    exact Or.inl ⟨lid, .retry pick⟩
  | releaser =>
    simp only [step] at h
    split at h
    · rename_i hd
      cases h
      cases hq : s.client.releaserQueue with
      | nil =>
        have hturn : s.client.releaserTurn = { s.client with releaser := .asleep false } := by
          simp [Client.releaserTurn, hq]
        rw [hturn]
        exact Or.inr (.sleep hq)
      | cons lid q => exact Or.inl ⟨lid, .releaser hd hq⟩
    · cases h
  | releaserWake =>
    simp only [step] at h
    split at h
    · cases h
      exact Or.inr .wake
    · cases h
  | releaserTake w =>
    simp only [step] at h
    split at h
    · rename_i lid js hw hj
      cases h
      exact Or.inl ⟨lid, .releaserTake hw hj⟩
    · cases h
  | releaserRpc w =>
    simp only [step] at h
    split at h
    · rename_i lid hw
      obtain ⟨e, he, h⟩ := Option.bind_eq_some_iff.mp h
      split at h
      · rename_i hst
        cases h
        exact Or.inl ⟨lid, .releaserRpc hw he hst⟩
      · cases h
    · cases h
  | tmoutWake w =>
    simp only [step] at h
    split at h
    · rename_i lid sig hw
      obtain ⟨e, he, rfl⟩ := Option.map_eq_some_iff.mp h
      exact Or.inl ⟨lid, .tmoutWake hw he⟩
    · cases h
  | releaseReturn w res pick =>
    simp only [step] at h
    split at h
    · rename_i lid hw
      obtain ⟨e, he, h⟩ := Option.bind_eq_some_iff.mp h
      split at h
      · rename_i hst
        cases h
        exact Or.inl ⟨lid, .releaseReturn res pick hw he hst⟩
      · cases h
    · cases h

def Same (s s' : Cache τ ω) (lid : ℕ) : Prop :=
  s'.client.slice lid = s.client.slice lid ∧ s'.due lid = s.due lid

omit [DecidableEq τ] [DecidableEq ω] in
theorem same_setDue_ne {s : Cache τ ω} {cl : Client τ ω} {l lid : ℕ} (hl : l ≠ lid)
    (hs : cl.slice lid = s.client.slice lid) (n : ℕ) :
    s.Same ((s.setClient cl).setDue l n) lid := by
  refine ⟨hs, ?_⟩
  simp [setDue, setClient, hl.symm]

theorem Moves.same {s s' : Cache τ ω} {ev : CacheEvent τ ω} {l lid : ℕ} (h : s.Moves l ev s')
    (hl : l ≠ lid) : s.Same s' lid := by
  cases h with
  | acquire t ht => exact ⟨Client.slice_acquire_ne hl (by simp [ht]), rfl⟩
  | acquireWake ht he => exact ⟨Client.slice_retryWait_ne hl (by simp [ht, hl]), rfl⟩
  | answer ret ht hret => exact ⟨Client.slice_setThread_of_eq (by simp [ht, hl]), rfl⟩
  | answerRetry ht => exact same_setDue_ne hl (Client.slice_setThread_of_eq (by simp [ht, hl])) _
  | acquireReturn res ht he =>
    refine ⟨Client.slice_acquireReturn_ne hl ?_, rfl⟩
    rcases ht with ht | ⟨ret, ht⟩ <;> simp [ht, hl]
  | release t pt pw ht => exact ⟨Client.slice_release_ne hl pt pw, rfl⟩
  | revoke w hw => exact ⟨Client.slice_revokeHandler_ne hl (by simp [hw]), rfl⟩
  | revokeWake hw he => exact ⟨Client.slice_revokeLoop_ne hl (by simp [hw, hl]), rfl⟩
  | retry pick => exact same_setDue_ne hl (Client.slice_retryHandler_ne hl pick) _
  | releaser hd hq => exact ⟨Client.slice_releaserTurn_ne (by simpa [hq] using hl), rfl⟩
  | releaserTake hw hj => exact ⟨Client.slice_take_ne hl hj hw, rfl⟩
  | releaserRpc hw he hst => exact ⟨Client.slice_releaserRpc_ne hl (by simp [hw, hl]), rfl⟩
  | tmoutWake hw he => exact ⟨Client.slice_tmoutWake_ne hl (by simp [hw, hl]), rfl⟩
  | releaseReturn res pick hw he hst =>
    exact ⟨Client.slice_releaseReturn_ne hl pick (by simp [hw, hl]), rfl⟩

theorem same_or_moves {s s' : Cache τ ω} {ev : CacheEvent τ ω} (h : s.step ev = some s')
    (lid : ℕ) : s.Same s' lid ∨ s.Moves lid ev s' := by
  rcases moves_or_rests h with ⟨l, hm⟩ | hr
  · by_cases hl : l = lid
    · exact Or.inr (hl ▸ hm)
    · exact Or.inl (hm.same hl)
  · cases hr <;> exact Or.inl ⟨Client.slice_releaser _, rfl⟩

end Cache

def cacheSystem (τ ω : Type) [DecidableEq τ] [DecidableEq ω] :
    Machine (Cache τ ω) (CacheEvent τ ω) := ⟨Cache.init, Cache.step⟩

/-- Thread 0 has released lock 7, which a revoke has taken away while thread 1 waits. -/
def revokedWhileWaited : List (CacheEvent (Fin 2) (Fin 1)) :=
  [.acquire 0 7, .answer 0 .RETRY, .retry 7 none, .acquireReturn 0 (.returned .RETRY),
    .acquire 1 7, .revoke 0 7, .release 0 7 none (some 0), .revokeWake 0, .releaser,
    .releaserTake 0]

end YFS.Lock
