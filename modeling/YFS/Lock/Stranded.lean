import YFS.Lock.Registry

/-! # Waiting clients and the server's obligations

While clients wait for a lock the server owes them something: a revoke of the owner or a
retry of the first of them. The obligation goes from queue to job to call and back. It is
dropped where the pool's queue is full and refuses the job.
-/

namespace YFS.Lock
open YFS.Library

variable {ι ω : Type} [DecidableEq ι] [DecidableEq ω]

def ServerPc.lock : ServerPc ι → Option ℕ
  | .idle => none
  | .retryStart l | .retryCalling l _ | .retryAnswered l _ | .revokeStart l | .revokeCalling l _
  | .revokeAnswered l _ => some l

omit [DecidableEq ι] in
theorem ServerPc.lock_of_restrict {pc : ServerPc ι} {lid : ℕ} (h : pc.restrict lid ≠ .idle) :
    pc.lock = some lid := by
  cases pc with
  | idle => exact absurd rfl h
  | _ => simpa [restrict, lock] using h

inductive Registry.Owes (s : Registry ι ω) (lid : ℕ) : Prop
  | retryQueued : lid ∈ s.server.retryerQueue → Owes s lid
  | revokeQueued : lid ∈ s.server.revokerQueue → Owes s lid
  | retryJob : .retryer lid ∈ s.server.jobs → Owes s lid
  | revokeJob : .revoker lid ∈ s.server.jobs → Owes s lid
  | running (w : ω) : (s.server.worker w).lock = some lid → Owes s lid
  | revoked (c : ι) : (s.server.lockTable lid).ownerCl = some c → s.sent c lid = true → Owes s lid

/-- A turn of the retryer or the revoker whose job the pool refuses. -/
def Registry.refused (s : Registry ι ω) : RegistryEvent ι ω → Bool
  | .retryer => s.server.retryerQueue.head?.any fun lid =>
      !(s.server.lockTable lid).waitingCls.isEmpty && poolCapacity ≤ s.server.jobs.length
  | .revoker => s.server.revokerQueue.head?.any fun lid =>
      !(s.server.lockTable lid).waitingCls.isEmpty && poolCapacity ≤ s.server.jobs.length
  | _ => false

/-- The worker carries the obligation. A revoke that has been sent carries none of its own: when
it has come back with `OK` it is up to the owner to release. -/
def ServerPc.carries : ServerPc ι → Bool
  | .idle | .revokeCalling _ _ => false
  | .revokeAnswered _ ret => ret ≠ .OK
  | .retryStart _ | .retryCalling _ _ | .retryAnswered _ _ | .revokeStart _ => true

/-- Somebody carries the obligation for the lock; `sent` tells which clients have been sent a
revoke of it. -/
def ServerView.Carried (v : ServerView ι ω) (sent : ι → Bool) : Prop :=
  0 < v.retQ + v.revQ + v.retJ + v.revJ ∨ (∃ w, (v.worker w).carries = true) ∨
    ∃ c, v.owner = some c ∧ sent c = true

def Registry.Attentive (s : Registry ι ω) : Prop :=
  ∀ lid, (s.server.view lid).waiting ≠ [] → (s.server.view lid).Carried fun c => s.sent c lid

section View
variable {v : ServerView ι ω} {sent : ι → Bool} {w : ω}

omit [DecidableEq ι] in
theorem ServerView.Carried.setWorker (hc : v.Carried sent) (hw : (v.worker w).carries = false)
    (pc : ServerPc ι) : { v with worker := Function.update v.worker w pc }.Carried sent := by
  rcases hc with hc | ⟨u, hu⟩ | hc
  · exact Or.inl hc
  · have huw : u ≠ w := by
      rintro rfl
      rw [hw] at hu
      cases hu
    exact Or.inr (Or.inl ⟨u, by simpa [huw] using hu⟩)
  · exact Or.inr (Or.inr hc)

omit [DecidableEq ι] in
theorem ServerView.carried_setWorker {pc : ServerPc ι} (hpc : pc.carries = true) :
    { v with worker := Function.update v.worker w pc }.Carried sent :=
  Or.inr (Or.inl ⟨w, by simpa using hpc⟩)

end View

section Step
variable {s s' : Registry ι ω} {lid : ℕ}

theorem count_addObjJob_pos {j : Job} {q : List Job} (hq : q.length < poolCapacity) :
    0 < (addObjJob q j).count j := by
  simp [addObjJob, hq, List.count_append]

omit [DecidableEq ι] [DecidableEq ω] in
/-- `acquire` queues the client behind an owner and asks the revoker for the first of them. -/
theorem Server.carried_acquire {srv : Server ι ω} {sent : ι → Bool} (c : ι)
    (hc : (srv.view lid).waiting ≠ [] → (srv.view lid).Carried sent)
    (hw : ((srv.acquire lid c).2.view lid).waiting ≠ []) :
    ((srv.acquire lid c).2.view lid).Carried sent := by
  cases hown : (srv.lockTable lid).ownerCl with
  | none =>
    have heq : (srv.acquire lid c).2 =
        srv.setLock lid { srv.lockTable lid with ownerCl := some c } := by
      simp [Server.acquire, hown]
    rw [heq, view_setLock] at hw ⊢
    rcases hc hw with h | h | ⟨d, hd, -⟩
    · exact Or.inl h
    · exact Or.inr (Or.inl h)
    · exact absurd (hown.symm.trans hd) (by simp)
  | some d =>
    by_cases hempty : (srv.lockTable lid).waitingCls.length = 0
    · have heq : (srv.acquire lid c).2 = (srv.askRevoker lid).setLock lid
          { srv.lockTable lid with waitingCls := (srv.lockTable lid).waitingCls ++ [c] } := by
        simp only [Server.acquire, hown, hempty, if_true]
      rw [heq, view_setLock, view_askRevoker]
      left
      dsimp only
      omega
    · have heq : (srv.acquire lid c).2 = srv.setLock lid
          { srv.lockTable lid with waitingCls := (srv.lockTable lid).waitingCls ++ [c] } := by
        simp only [Server.acquire, hown, if_neg hempty]
      have hwait : (srv.view lid).waiting ≠ [] := fun h => hempty (congrArg List.length h)
      rw [heq, view_setLock]
      simpa only [ServerView.Carried, view] using hc hwait

omit [DecidableEq ω] in
theorem Server.carried_release {srv : Server ι ω} {sent : ι → Bool} {c : ι}
    (hown : (srv.lockTable lid).ownerCl = some c) :
    ((srv.release lid c).2.view lid).Carried sent := by
  rw [Server.release, if_pos hown]
  dsimp only
  rw [view_pushRetry]
  left
  dsimp only
  omega

omit [DecidableEq ι] [DecidableEq ω] in
/-- The retryer makes the first waiting client the owner and passes the retry on to the pool. -/
theorem Server.carried_retryerTurn {srv : Server ι ω} {sent : ι → Bool} {q : List ℕ}
    (hq : srv.retryerQueue = lid :: q) (hroom : srv.jobs.length < poolCapacity)
    (hw : (srv.view lid).waiting ≠ []) : (srv.retryerTurn.view lid).Carried sent := by
  obtain ⟨c, cs, hcs⟩ := List.exists_cons_of_ne_nil hw
  have hcs : (srv.lockTable lid).waitingCls = c :: cs := hcs
  have hj : (srv.retryerTurn.view lid).retJ =
      (addObjJob srv.jobs (.retryer lid)).count (.retryer lid) := by
    simp [Server.retryerTurn, hq, hcs, view, setLock]
  have hpos := count_addObjJob_pos (j := .retryer lid) hroom
  left
  omega

omit [DecidableEq ι] [DecidableEq ω] in
theorem Server.carried_revokerTurn {srv : Server ι ω} {sent : ι → Bool} {q : List ℕ}
    (hq : srv.revokerQueue = lid :: q) (hroom : srv.jobs.length < poolCapacity)
    (hw : (srv.view lid).waiting ≠ []) : (srv.revokerTurn.view lid).Carried sent := by
  have hlen : (srv.lockTable lid).waitingCls.length > 0 := List.length_pos_iff.mpr hw
  have hj : (srv.revokerTurn.view lid).revJ =
      (addObjJob srv.jobs (.revoker lid)).count (.revoker lid) := by
    simp [Server.revokerTurn, hq, hlen, view]
  have hpos := count_addObjJob_pos (j := .revoker lid) hroom
  left
  omega

omit [DecidableEq ι] in
/-- After a retry the revoker is asked for the next client; a failed one is tried again. -/
theorem Server.carried_retryFinish {srv srv' : Server ι ω} {sent : ι → Bool} {w : ω}
    {ret : RStatus} (h : srv.retryFinish w lid ret = some srv')
    (hw : (srv'.view lid).waiting ≠ []) : (srv'.view lid).Carried sent := by
  simp only [Server.retryFinish] at h
  split at h
  · split at h
    · cases h
    · rename_i c q hq
      cases h
      split
      · rename_i hempty
        rw [if_pos hempty, view_setLock] at hw
        exact absurd (List.isEmpty_iff.mp hempty) hw
      · rw [view_askRevoker]
        left
        dsimp only
        omega
  · cases h
    rw [view_pushRetry]
    left
    dsimp only
    omega

omit [DecidableEq ι] in
theorem Server.carried_revokeFinish {srv : Server ι ω} {sent : ι → Bool} {w : ω} {ret : RStatus}
    (hpc : srv.worker w = .revokeAnswered lid ret)
    (hc : (srv.view lid).Carried sent) : ((srv.revokeFinish w lid ret).view lid).Carried sent := by
  simp only [Server.revokeFinish]
  split
  · rename_i hret
    rw [view_setWorker]
    exact hc.setWorker (by simp [view, hpc, hret, ServerPc.carries]) _
  · left
    simp [view, List.count_append]

omit [DecidableEq ι] [DecidableEq ω] in
theorem Server.waiting_retryerTurn {srv : Server ι ω} :
    (srv.retryerTurn.view lid).waiting = (srv.view lid).waiting := by
  simp only [Server.retryerTurn]
  split
  · rfl
  · rename_i l q hq
    split
    · rfl
    · by_cases hl : lid = l <;> simp [view, setLock, hl]

omit [DecidableEq ι] [DecidableEq ω] in
theorem Server.waiting_revokerTurn {srv : Server ι ω} :
    (srv.revokerTurn.view lid).waiting = (srv.view lid).waiting := by
  simp only [Server.revokerTurn]
  split
  · rfl
  · split <;> rfl

omit [DecidableEq ι] in
theorem Server.waiting_revokeFinish {srv : Server ι ω} {w : ω} {ret : RStatus} :
    ((srv.revokeFinish w lid ret).view lid).waiting = (srv.view lid).waiting := by
  simp only [Server.revokeFinish]
  split <;> rfl

theorem Registry.Attentive.step {ev : RegistryEvent ι ω} (ha : s.Attentive)
    (hr : s.refused ev = false) (h : s.step ev = some s') : s'.Attentive := by
  intro lid hw
  have hlid := ha lid
  rcases same_or_moves h lid with ⟨hview, hsent⟩ | hm
  · rw [hview] at hw ⊢
    simpa only [hsent] using hlid hw
  · cases hm with
    | acquire c => exact Server.carried_acquire c hlid hw
    | release hown => exact Server.carried_release hown
    | retryer hq =>
      have hw' : (s.server.view lid).waiting ≠ [] := by rwa [← Server.waiting_retryerTurn]
      have hroom : s.server.jobs.length < poolCapacity := by
        simpa [refused, hq, show (s.server.lockTable lid).waitingCls ≠ [] from hw'] using hr
      exact Server.carried_retryerTurn hq hroom hw'
    | revoker hq =>
      have hw' : (s.server.view lid).waiting ≠ [] := by rwa [← Server.waiting_revokerTurn]
      have hroom : s.server.jobs.length < poolCapacity := by
        simpa [refused, hq, show (s.server.lockTable lid).waitingCls ≠ [] from hw'] using hr
      exact Server.carried_revokerTurn hq hroom hw'
    | takeRetry | takeRevoke | retryNobody | retryCall | revokeNobody =>
      simp only [setServer, Server.view_setWorker]
      exact ServerView.carried_setWorker (by simp [ServerPc.carries])
    | @revokeCall w c hpc hown => exact Or.inr (Or.inr ⟨c, hown, by simp [setSent]⟩)
    | retryReply ret hpc =>
      simp only [setServer, Server.view_setWorker]
      exact ServerView.carried_setWorker (by simp [ServerPc.carries])
    | revokeReply ret hpc =>
      simp only [setServer, Server.view_setWorker] at hw ⊢
      exact (hlid hw).setWorker (by simp [Server.view, hpc, ServerPc.carries]) _
    | retryFinish hpc hsrv => exact Server.carried_retryFinish hsrv hw
    | revokeFinish hpc =>
      have hw' : (s.server.view lid).waiting ≠ [] := by rwa [← Server.waiting_revokeFinish]
      exact Server.carried_revokeFinish hpc (hlid hw')

omit [DecidableEq ω] [DecidableEq ι] in
theorem ServerView.Carried.owes (hc : (s.server.view lid).Carried fun c => s.sent c lid) :
    s.Owes lid := by
  rcases hc with hpos | ⟨w, hw⟩ | ⟨c, hc, hsent⟩
  · have hcases : 0 < s.server.retryerQueue.count lid ∨ 0 < s.server.revokerQueue.count lid ∨
        0 < s.server.jobs.count (.retryer lid) ∨ 0 < s.server.jobs.count (.revoker lid) := by
      simp only [Server.view] at hpos
      omega
    rcases hcases with h | h | h | h
    · exact .retryQueued (List.count_pos_iff.mp h)
    · exact .revokeQueued (List.count_pos_iff.mp h)
    · exact .retryJob (List.count_pos_iff.mp h)
    · exact .revokeJob (List.count_pos_iff.mp h)
  · refine .running w (ServerPc.lock_of_restrict fun hidle => ?_)
    simp [Server.view, hidle, ServerPc.carries] at hw
  · exact .revoked c hc hsent

end Step

/-- In every run in which the pool refuses no job, whatever the clients do and whatever comes of
the RPCs, the server owes something for every lock that clients wait for. -/
theorem no_stranded_waiter {evs : List (RegistryEvent ι ω)} {s : Registry ι ω}
    (hc : (registrySystem ι ω).Along (fun s ev => s.refused ev = false)
      (registrySystem ι ω).init evs)
    (hrun : (registrySystem ι ω).run evs = some s) {lid : ℕ}
    (hw : (s.server.lockTable lid).waitingCls ≠ []) : s.Owes lid := by
  have hinv : s.Attentive := by
    apply hc.invariant (I := Registry.Attentive) _ _ hrun
    · exact fun s ev s' ha hr h => ha.step hr h
    · exact fun lid h => absurd rfl h
  exact (hinv lid hw).owes

section Flood

def contended (lid : ℕ) : List (RegistryEvent Bool (Fin 1)) :=
  [.acquire lid false, .acquire lid true, .revoker]

/-- The revoke for client `true` is queued in the pool. -/
theorem no_stranded_waiter_contended :
    (registrySystem Bool (Fin 1)).Along (fun s ev => s.refused ev = false)
      (registrySystem Bool (Fin 1)).init (contended 7) ∧
    ∃ s, (registrySystem Bool (Fin 1)).run (contended 7) = some s ∧
      (s.server.lockTable 7).waitingCls = [true] ∧ s.Owes 7 := by
  have hc : (registrySystem Bool (Fin 1)).Along (fun s ev => s.refused ev = false)
      (registrySystem Bool (Fin 1)).init (contended 7) := by decide
  exact ⟨hc, _, rfl, rfl, no_stranded_waiter hc rfl (by decide)⟩

/-- One lock after the other is contended, and no worker of the pool gets to run. -/
def flood (n : ℕ) : List (RegistryEvent Bool (Fin 1)) := (List.range n).flatMap contended

/-- The server then: only as many revokes as the pool has taken are queued. -/
def flooded (n : ℕ) : Registry Bool (Fin 1) where
  server := { Server.new with
    lockTable := fun lid => if lid < n then ⟨some false, [true]⟩ else ⟨none, []⟩
    jobs := (List.range (min n poolCapacity)).map .revoker }
  sent := fun _ _ => false

theorem jobs_flooded_succ (n : ℕ) : addObjJob (flooded n).server.jobs (.revoker n) =
    (flooded (n + 1)).server.jobs := by
  by_cases hn : n < poolCapacity
  · have hmin : min n poolCapacity = n := by omega
    simp [addObjJob, flooded, hmin, hn, List.range_succ]
  · have hmin : min n poolCapacity = poolCapacity := by omega
    have hmin' : min (n + 1) poolCapacity = poolCapacity := by omega
    simp [addObjJob, flooded, hmin, hmin']

theorem lockTable_flooded_succ (n : ℕ) :
    Function.update (flooded n).server.lockTable n ⟨some false, [true]⟩ =
      (flooded (n + 1)).server.lockTable := by
  funext lid
  by_cases hl : lid = n
  · simp [hl, flooded]
  · have hlt : lid ≤ n ↔ lid < n := by omega
    simp [hl, flooded, hlt]

theorem runFrom_contended (n : ℕ) :
    (registrySystem Bool (Fin 1)).runFrom (flooded n) (contended n) = some (flooded (n + 1)) := by
  let s₁ := (flooded n).setServer ((flooded n).server.setLock n ⟨some false, []⟩)
  let s₂ := s₁.setServer ((s₁.server.askRevoker n).setLock n ⟨some false, [true]⟩)
  have h₁ : (flooded n).step (.acquire n false) = some s₁ := by
    simp [Registry.step, Server.acquire, flooded, s₁]
  have h₂ : s₁.step (.acquire n true) = some s₂ := by
    simp [Registry.step, Server.acquire, Server.setLock, Registry.setServer, s₁, s₂]
  have h₃ : s₂.step .revoker = some (flooded (n + 1)) := by
    have hjobs := jobs_flooded_succ n
    have htab := lockTable_flooded_succ n
    simp only [flooded, Server.new] at hjobs htab
    simp [Registry.step, Server.revokerTurn, Server.setLock, Server.askRevoker,
      Registry.setServer, s₁, s₂, flooded, Server.new, Daemon.signal, hjobs, htab]
  simp [Machine.runFrom_cons, contended, registrySystem, h₁, h₂, h₃]

theorem run_flood (n : ℕ) :
    (registrySystem Bool (Fin 1)).run (flood n) = some (flooded n) := by
  induction n with
  | zero => simp [Machine.run, flood, flooded, registrySystem, Registry.init, Server.new]
  | succ n ih =>
    have hflood : flood (n + 1) = flood n ++ contended n := by
      simp [flood, List.range_succ]
    rw [Machine.run] at ih ⊢
    rw [hflood, Machine.runFrom_append, ih]
    exact runFrom_contended n

/-- With one lock more than the pool has room for, the client that waits for it is forgotten. -/
theorem stranded_waiter :
    ∃ s, (registrySystem Bool (Fin 1)).run (flood (poolCapacity + 1)) = some s ∧
      (s.server.lockTable poolCapacity).waitingCls = [true] ∧ ¬ s.Owes poolCapacity := by
  refine ⟨_, run_flood _, by simp [flooded], fun h => ?_⟩
  cases h with
  | retryQueued h | revokeQueued h => simp [flooded, Server.new] at h
  | retryJob h | revokeJob h => simp [flooded] at h
  | running w h => simp [flooded, Server.new, ServerPc.lock] at h
  | revoked c h h' => simp [flooded] at h'

end Flood
end YFS.Lock
