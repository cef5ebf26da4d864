import YFS.Lock.Handshake

/-! # First come, first served

A client that asks for a lock another one has is told to wait for a retry. The retries of a lock
go out in the order in which the clients were told, one for each time a client was told, whatever
happens in between.
-/

namespace YFS.Lock
open YFS.Library

variable {ι τ ω : Type} [DecidableEq ι] [DecidableEq τ] [DecidableEq ω]

def Sys.tells (s : Sys ι τ ω) : Action ι τ ω → Option (ℕ × ι)
  | .acquireHandle c t =>
    match (s.client c).thread t with
    | .calling lid => if (s.serveAcquire c lid).1 = .RETRY then some (lid, c) else none
    | _ => none
  | .acquireLate c lid => if (s.serveAcquire c lid).1 = .RETRY then some (lid, c) else none
  | _ => none

def Sys.serves (s : Sys ι τ ω) : Action ι τ ω → Option (ℕ × ι)
  | .retryHandle w pick =>
    match s.server.worker w with
    | .retryCalling lid c =>
      if ((s.client c).retryHandler lid pick).2 = .OK then some (lid, c) else none
    | _ => none
  | _ => none

def noteIn (log : ℕ → List ι) : Option (ℕ × ι) → ℕ → List ι
  | none => log
  | some (lid, c) => Function.update log lid (log lid ++ [c])

/-- The lock system with two logs for every lock: the clients that were told to wait, and those
that have accepted a retry. -/
structure Logged (ι τ ω : Type) where
  sys : Sys ι τ ω
  told : ℕ → List ι
  served : ℕ → List ι

def loggedSystem (ι τ ω : Type) [DecidableEq ι] [DecidableEq τ] [DecidableEq ω] :
    Machine (Logged ι τ ω) (Action ι τ ω) where
  init := ⟨Sys.init, fun _ => [], fun _ => []⟩
  step s a := (s.sys.step a).map fun sys =>
    ⟨sys, noteIn s.told (s.sys.tells a), noteIn s.served (s.sys.serves a)⟩

/-! ## The queue of the protocol -/

namespace Handover
variable {h h' : Handover ι τ ω}

omit [DecidableEq ι] [DecidableEq τ] [DecidableEq ω] in
theorem pending_of_retAcc {w : ω} (hp : h.phase = .retAcc w) : h.pending = h.waiting.tail := by
  rw [pending, hp]

omit [DecidableEq ι] [DecidableEq τ] [DecidableEq ω] in
theorem pending_of_ne (hp : ∀ w, h.phase ≠ .retAcc w) : h.pending = h.waiting := by
  rw [pending]
  split
  · rename_i w hw
    exact absurd hw (hp w)
  · rfl

omit [DecidableEq τ] [DecidableEq ω] in
theorem Step.pending_cases {b : Bool} (hv : h.Valid) (hs : Step b h h') :
    (h'.pending = h.pending ∧ h'.waiting.length ≤ h.waiting.length ∧
      ∀ w, h'.phase = .retAcc w → h.phase = .retAcc w) ∨
    (∃ c, h'.waiting = h.waiting ++ [c] ∧ h'.pending = h.pending ++ [c]) ∨
    ∃ w c, h.phase = .retCall w c ∧ h'.phase = .retAcc w ∧ h'.waiting = h.waiting ∧
      h.pending = c :: h'.pending := by
  have hk := hv.phase
  have hkeep (hw : h'.waiting = h.waiting) (hp : ∀ w, h.phase ≠ .retAcc w)
      (hp' : ∀ w, h'.phase ≠ .retAcc w) :
      h'.pending = h.pending ∧ h'.waiting.length ≤ h.waiting.length ∧
        ∀ w, h'.phase = .retAcc w → h.phase = .retAcc w := by
    rw [pending_of_ne hp, pending_of_ne hp', hw]
    exact ⟨rfl, le_rfl, fun w hphase => absurd hphase (hp' w)⟩
  cases hs with
  | ask c t hc => exact .inl ⟨rfl, le_rfl, fun _ hw => hw⟩
  | grant c t hc ho hw => exact .inl ⟨rfl, le_rfl, fun _ hw => hw⟩
  | hold c t hc => exact .inl ⟨rfl, le_rfl, fun _ hw => hw⟩
  | left c w hc => exact .inl ⟨rfl, le_rfl, fun _ hw => hw⟩
  | first c t hc ho hw =>
    have hp (w : ω) : h.phase ≠ .retAcc w := by
      intro hp
      simp [PhaseOk, hp, hw] at hk
    refine .inr (.inl ⟨c, by simp [hw], ?_⟩)
    rw [pending_of_ne hp, hw]
    rfl
  | queue c t hc ho hw =>
    refine .inr (.inl ⟨c, rfl, ?_⟩)
    by_cases hp : ∃ w, h.phase = .retAcc w
    · obtain ⟨w, hp⟩ := hp
      rw [pending_of_retAcc hp, pending_of_retAcc (w := w) (by simpa using hp)]
      exact List.tail_append_of_ne_nil hw
    · rw [not_exists] at hp
      rw [pending_of_ne hp, pending_of_ne (by simpa using hp)]
      rfl
  | accept w c hp =>
    simp only [PhaseOk, hp] at hk
    obtain ⟨l, hw, -⟩ := hk
    refine .inr (.inr ⟨w, c, hp, rfl, rfl, ?_⟩)
    rw [pending_of_ne (by simp [hp]), pending_of_retAcc (w := w) rfl]
    exact hw.trans (congrArg _ (congrArg List.tail hw).symm)
  | served w c hp hw =>
    refine .inl ⟨?_, by simp, by simp⟩
    rw [pending_of_retAcc hp, hw]
    rfl
  | next w c d l hp hw =>
    refine .inl ⟨?_, by simp [hw], by simp⟩
    rw [pending_of_retAcc hp, hw]
    rfl
  | revJob p hp hq =>
    exact .inl (hkeep rfl (by simp [hp]) (by rcases hq with rfl | rfl <;> simp))
  | relJob c p hp hq =>
    exact .inl (hkeep rfl (by simp [hp]) (by rcases hq with rfl | rfl <;> simp))
  | retJob c l p hp hw hq =>
    exact .inl (hkeep rfl (by simp [hp]) (by rcases hq with rfl | rfl <;> simp))
  | relCall c w hp => exact .inl (hkeep rfl (by rcases hp with hp | hp <;> simp [hp]) (by simp))
  | revTake w hp | relTake c w hp | relWait c w hp | released c w hp | retTake w hp =>
    exact .inl (hkeep rfl (by simp [hp]) (by simp))
  | revCall w c hp ho | retCall w c hp ho | revoked w c hp hr =>
    exact .inl (hkeep rfl (by simp [hp]) (by simp))

end Handover

/-! ## The queue of the server -/

namespace Server
variable {srv srv' : Server ι ω} {l lid : ℕ} {c : ι} {w : ω}

omit [DecidableEq ι] [DecidableEq ω] in
theorem waitingCls_acquire (srv : Server ι ω) (l lid : ℕ) (c : ι) :
    ((srv.acquire l c).2.lockTable lid).waitingCls =
      if lid = l ∧ (srv.acquire l c).1 = .RETRY then (srv.lockTable lid).waitingCls ++ [c]
    else (srv.lockTable lid).waitingCls := by
  by_cases hl : lid = l
  · subst hl
    cases ho : (srv.lockTable lid).ownerCl <;> simp [acquire, ho, setLock]
  · cases ho : (srv.lockTable l).ownerCl with
    | none => simp [acquire, ho, setLock, hl]
    | some d =>
      simp only [acquire, ho, setLock, Function.update_of_ne hl, hl, false_and, if_false]
      split <;> rfl

omit [DecidableEq ι] [DecidableEq ω] in
theorem worker_acquire : (srv.acquire l c).2.worker = srv.worker := by
  cases ho : (srv.lockTable l).ownerCl with
  | none => simp [acquire, ho, setLock]
  | some d =>
    simp only [acquire, ho, setLock]
    split <;> rfl

omit [DecidableEq ω] in
theorem waitingCls_release :
    ((srv.release l c).2.lockTable lid).waitingCls = (srv.lockTable lid).waitingCls := by
  rw [release]
  split
  · by_cases hl : lid = l
    · subst hl
      simp [setLock]
    · simp [setLock, hl]
  · rfl

omit [DecidableEq ω] in
theorem worker_release : (srv.release l c).2.worker = srv.worker := by
  rw [release]
  split <;> rfl

omit [DecidableEq ι] [DecidableEq ω] in
theorem waitingCls_retryerTurn :
    (srv.retryerTurn.lockTable lid).waitingCls = (srv.lockTable lid).waitingCls := by
  rw [retryerTurn]
  split
  · rfl
  · rename_i l q _
    dsimp only
    split
    · rfl
    · by_cases hl : lid = l
      · subst hl
        simp [setLock]
      · simp [setLock, hl]

omit [DecidableEq ι] [DecidableEq ω] in
theorem worker_retryerTurn (srv : Server ι ω) : srv.retryerTurn.worker = srv.worker := by
  rw [retryerTurn]
  split
  · rfl
  · dsimp only
    split <;> rfl

omit [DecidableEq ι] [DecidableEq ω] in
theorem revokerTurn_eq (srv : Server ι ω) :
    srv.revokerTurn.lockTable = srv.lockTable ∧ srv.revokerTurn.worker = srv.worker := by
  rw [revokerTurn]
  split
  · exact ⟨rfl, rfl⟩
  · dsimp only
    split <;> exact ⟨rfl, rfl⟩

section
omit [DecidableEq ι]

/-- The front of the queue is popped, or nothing is. -/
theorem waitingCls_retryFinish {ret : RStatus} (h : srv.retryFinish w l ret = some srv') :
    (srv'.lockTable lid).waitingCls.length ≤ (srv.lockTable lid).waitingCls.length := by
  have hset (k : ServerLock ι) (hk : k.waitingCls.length ≤ (srv.lockTable l).waitingCls.length) :
      (Function.update srv.lockTable l k lid).waitingCls.length ≤
        (srv.lockTable lid).waitingCls.length := by
    by_cases hl : lid = l
    · subst hl
      rw [Function.update_self]
      exact hk
    · rw [Function.update_of_ne hl]
  simp only [retryFinish] at h
  split at h
  · split at h
    · cases h
    · rename_i c q hq
      cases h
      have hle := hset { srv.lockTable l with waitingCls := q } (by
        rw [show (srv.lockTable l).waitingCls = c :: q from hq]
        exact Nat.le_succ _)
      split <;> exact hle
  · cases h
    exact hset _ le_rfl

theorem worker_retryFinish {ret : RStatus} (h : srv.retryFinish w l ret = some srv') :
    srv'.worker = Function.update srv.worker w .idle := by
  simp only [retryFinish] at h
  split at h
  · split at h
    · cases h
    · cases h
      split <;> rfl
  · cases h
    rfl

theorem revokeFinish_eq (srv : Server ι ω) (w : ω) (l : ℕ) (ret : RStatus) :
    (srv.revokeFinish w l ret).lockTable = srv.lockTable ∧
      (srv.revokeFinish w l ret).worker = Function.update srv.worker w .idle := by
  simp only [revokeFinish]
  split <;> exact ⟨rfl, rfl⟩

theorem takeJob_eq (h : srv.takeJob w = some srv') : srv'.lockTable = srv.lockTable ∧
    ∃ pc, srv'.worker = Function.update srv.worker w pc ∧ ∀ lid ret, pc ≠ .retryAnswered lid ret := by
  rw [takeJob] at h
  split at h
  · cases h
  · cases h
    exact ⟨rfl, _, rfl, by simp⟩
  · cases h
    exact ⟨rfl, _, rfl, by simp⟩

theorem callOwner_eq (h : srv.callOwner w = some srv') : srv'.lockTable = srv.lockTable ∧
    ∃ pc, srv'.worker = Function.update srv.worker w pc ∧ ∀ lid, pc ≠ .retryAnswered lid .OK := by
  rw [callOwner] at h
  split at h
  · split at h <;> cases h <;> exact ⟨rfl, _, rfl, by simp⟩
  · split at h <;> cases h <;> exact ⟨rfl, _, rfl, by simp⟩
  · cases h

end

end Server

section Step
variable {s s' : Sys ι τ ω} {a : Action ι τ ω} {lid : ℕ} {c : ι}

omit [DecidableEq τ] [DecidableEq ω] in
theorem Sys.serveAcquire_eq (s : Sys ι τ ω) (c : ι) (l : ℕ) :
    (s.serveAcquire c l).1 = (s.server.acquire l c).1 ∧
    (s.serveAcquire c l).2.server = (s.server.acquire l c).2 := by
  rw [Sys.serveAcquire]
  dsimp only
  split <;> exact ⟨rfl, rfl⟩

omit [DecidableEq τ] in
theorem Sys.serveRevoke_eq (s : Sys ι τ ω) (c : ι) (w : ω) (l : ℕ) (r : Client τ ω × Option RStatus) :
    (s.serveRevoke c w l r).server.lockTable = s.server.lockTable ∧
      ((s.serveRevoke c w l r).server.worker = s.server.worker ∨ ∃ ret,
        (s.serveRevoke c w l r).server.worker =
          Function.update s.server.worker w (.revokeAnswered l ret)) := by
  rw [Sys.serveRevoke]
  split
  · exact ⟨rfl, .inl rfl⟩
  · exact ⟨rfl, .inr ⟨_, rfl⟩⟩

/-- The queue of every lock and the retries under way after a step. -/
structure Sys.Turns (s : Sys ι τ ω) (a : Action ι τ ω) (s' : Sys ι τ ω) : Prop where
  told : ∀ lid c, s.tells a = some (lid, c) →
    (s'.server.lockTable lid).waitingCls = (s.server.lockTable lid).waitingCls ++ [c]
  longer : ∀ lid, (s.server.lockTable lid).waitingCls.length <
    (s'.server.lockTable lid).waitingCls.length → ∃ c, s.tells a = some (lid, c)
  answered : ∀ w lid, s'.server.worker w = .retryAnswered lid .OK →
    s.server.worker w = .retryAnswered lid .OK ∨
      ∃ c, s.server.worker w = .retryCalling lid c ∧ s.serves a = some (lid, c)
  served : ∀ lid c, s.serves a = some (lid, c) → s'.server.lockTable = s.server.lockTable ∧
    ∃ w, s.server.worker w = .retryCalling lid c ∧ s'.server.worker w = .retryAnswered lid .OK

omit [DecidableEq ω] in
/-- A step that tells nobody and serves nobody. -/
theorem Sys.Turns.of_quiet (ht : s.tells a = none) (hv : s.serves a = none)
    (hwait : ∀ lid, (s'.server.lockTable lid).waitingCls.length ≤
      (s.server.lockTable lid).waitingCls.length)
    (hwork : ∀ w lid, s'.server.worker w = .retryAnswered lid .OK →
      s.server.worker w = .retryAnswered lid .OK) : s.Turns a s' where
  told lid c h := by rw [ht] at h; cases h
  longer lid hlt := absurd hlt (hwait lid).not_gt
  answered w lid h := .inl (hwork w lid h)
  served lid c h := by rw [hv] at h; cases h

omit [DecidableEq ω] in
theorem Sys.Turns.of_server_eq (ht : s.tells a = none) (hv : s.serves a = none)
    (h : s'.server = s.server) : s.Turns a s' :=
  .of_quiet ht hv (fun lid => by rw [h]) fun w lid hw => by rwa [h] at hw

theorem Sys.Turns.of_update {w : ω} {pc : ServerPc ι} (ht : s.tells a = none)
    (hv : s.serves a = none)
    (hwait : ∀ lid, (s'.server.lockTable lid).waitingCls.length ≤
      (s.server.lockTable lid).waitingCls.length)
    (hwork : s'.server.worker = Function.update s.server.worker w pc)
    (hpc : ∀ lid, pc ≠ .retryAnswered lid .OK) : s.Turns a s' := by
  refine .of_quiet ht hv hwait fun v lid hv => ?_
  rw [hwork] at hv
  by_cases hvw : v = w
  · subst hvw
    rw [Function.update_self] at hv
    exact absurd hv (hpc lid)
  · rwa [Function.update_of_ne hvw] at hv

theorem Sys.Turns.of_revoke {w : ω} {l : ℕ} (ht : s.tells a = none) (hv : s.serves a = none)
    (r : Client τ ω × Option RStatus) : s.Turns a (s.serveRevoke c w l r) := by
  obtain ⟨htable, hwork | ⟨ret, hwork⟩⟩ := s.serveRevoke_eq c w l r
  · refine .of_quiet ht hv (fun lid => by rw [htable]) fun v lid hv => ?_
    rwa [hwork] at hv
  · exact .of_update ht hv (fun lid => by rw [htable]) hwork (by simp)

omit [DecidableEq ω] in
theorem Sys.Turns.of_acquire {l : ℕ} {d : ι}
    (ht : s.tells a = if (s.serveAcquire d l).1 = .RETRY then some (l, d) else none)
    (hv : s.serves a = none) (h : s'.server = (s.serveAcquire d l).2.server) : s.Turns a s' := by
  obtain ⟨hret, hsrv⟩ := s.serveAcquire_eq d l
  rw [hret] at ht
  rw [hsrv] at h
  have hwait (lid : ℕ) := s.server.waitingCls_acquire l lid d
  refine ⟨fun lid c htell => ?_, fun lid hlt => ?_, fun w lid hw => ?_, fun lid c hserve => ?_⟩
  · rw [ht, Option.ite_none_right_eq_some, Option.some.injEq, Prod.mk.injEq] at htell
    obtain ⟨hretry, rfl, rfl⟩ := htell
    rw [h, hwait, if_pos ⟨rfl, hretry⟩]
  · rw [h, hwait] at hlt
    split at hlt
    · rename_i hretry
      rw [ht, if_pos hretry.2, hretry.1]
      exact ⟨d, rfl⟩
    · exact absurd hlt (lt_irrefl _)
  · rw [h, Server.worker_acquire] at hw
    exact .inl hw
  · rw [hv] at hserve
    cases hserve

theorem Sys.Turns.of_retry {w : ω} {l : ℕ} {d : ι} {ret : RStatus} (ht : s.tells a = none)
    (hv : s.serves a = if ret = .OK then some (l, d) else none)
    (hw : s.server.worker w = .retryCalling l d)
    (h : s'.server = s.server.setWorker w (.retryAnswered l ret)) : s.Turns a s' := by
  have hself : s'.server.worker w = .retryAnswered l ret := by
    rw [h]
    exact Function.update_self ..
  refine ⟨fun lid c htell => ?_, fun lid hlt => ?_, fun v lid hv' => ?_, fun lid c hserve => ?_⟩
  · rw [ht] at htell
    cases htell
  · rw [h] at hlt
    exact absurd hlt (lt_irrefl _)
  · by_cases hvw : v = w
    · subst hvw
      rw [hself] at hv'
      cases hv'
      exact .inr ⟨d, hw, hv.trans (if_pos rfl)⟩
    · rw [h] at hv'
      exact .inl ((Function.update_of_ne hvw ..).symm.trans hv')
  · rw [hv, Option.ite_none_right_eq_some, Option.some.injEq, Prod.mk.injEq] at hserve
    obtain ⟨rfl, rfl, rfl⟩ := hserve
    exact ⟨by rw [h]; rfl, w, hw, hself⟩

theorem Sys.turns_of_step (hs : s.step a = some s') : s.Turns a s' := by
  cases a with
  | acquire c t l =>
    simp only [Sys.step, Option.ite_none_right_eq_some, Option.some.injEq] at hs
    obtain ⟨-, rfl⟩ := hs
    exact .of_server_eq rfl rfl rfl
  | acquireWake c t =>
    simp only [Sys.step] at hs
    split at hs
    · obtain ⟨e, -, rfl⟩ := Option.map_eq_some_iff.mp hs
      exact .of_server_eq rfl rfl rfl
    · cases hs
  | acquireHandle c t =>
    cases ht : (s.client c).thread t with
    | calling l =>
      simp only [Sys.step, ht, Option.some.injEq] at hs
      subst hs
      exact .of_acquire (by simp only [Sys.tells, ht]) rfl rfl
    | _ => simp [Sys.step, ht] at hs
  | acquireReturn c t =>
    simp only [Sys.step] at hs
    split at hs
    · obtain ⟨e, -, rfl⟩ := Option.map_eq_some_iff.mp hs
      exact .of_server_eq rfl rfl rfl
    · cases hs
  | acquireFail c t f =>
    simp only [Sys.step] at hs
    split at hs
    · obtain ⟨e, -, rfl⟩ := Option.map_eq_some_iff.mp hs
      exact .of_server_eq rfl rfl rfl
    · obtain ⟨e, -, rfl⟩ := Option.map_eq_some_iff.mp hs
      exact .of_server_eq rfl rfl rfl
    · cases hs
  | acquireLate c l =>
    simp only [Sys.step, Option.ite_none_right_eq_some, Option.some.injEq] at hs
    obtain ⟨-, rfl⟩ := hs
    exact .of_acquire rfl rfl rfl
  | release c t l pt pw =>
    simp only [Sys.step, Option.ite_none_right_eq_some, Option.some.injEq] at hs
    obtain ⟨-, rfl⟩ := hs
    exact .of_server_eq rfl rfl rfl
  | revokeHandle w =>
    simp only [Sys.step] at hs
    split at hs
    · rename_i l c _
      rw [Option.ite_none_right_eq_some, Option.some.injEq] at hs
      obtain ⟨-, rfl⟩ := hs
      exact .of_revoke rfl rfl _
    · cases hs
  | revokeWake c w =>
    simp only [Sys.step] at hs
    split at hs
    · obtain ⟨e, -, rfl⟩ := Option.map_eq_some_iff.mp hs
      exact .of_revoke rfl rfl _
    · cases hs
  | retryHandle w pick =>
    cases hw : s.server.worker w with
    | retryCalling l c =>
      simp only [Sys.step, hw, Option.some.injEq] at hs
      have hserver : s'.server = s.server.setWorker w
          (.retryAnswered l ((s.client c).retryHandler l pick).2) := by
        rw [← hs]
        split <;> rfl
      exact .of_retry rfl (by simp only [Sys.serves, hw]) hw hserver
    | _ => simp [Sys.step, hw] at hs
  | releaser c =>
    simp only [Sys.step, Option.ite_none_right_eq_some, Option.some.injEq] at hs
    obtain ⟨-, rfl⟩ := hs
    exact .of_server_eq rfl rfl rfl
  | releaserWake c =>
    simp only [Sys.step] at hs
    split at hs
    · cases hs
      exact .of_server_eq rfl rfl rfl
    · cases hs
  | releaserTake c w =>
    simp only [Sys.step] at hs
    split at hs
    · cases hs
      exact .of_server_eq rfl rfl rfl
    · cases hs
  | releaserRpc c w =>
    simp only [Sys.step] at hs
    split at hs
    · obtain ⟨e, -, hs⟩ := Option.bind_eq_some_iff.mp hs
      rw [Option.ite_none_right_eq_some, Option.some.injEq] at hs
      obtain ⟨-, rfl⟩ := hs
      exact .of_server_eq rfl rfl rfl
    · cases hs
  | tmoutWake c w =>
    simp only [Sys.step] at hs
    split at hs
    · obtain ⟨e, -, rfl⟩ := Option.map_eq_some_iff.mp hs
      exact .of_server_eq rfl rfl rfl
    · cases hs
  | releaseHandle c w =>
    simp only [Sys.step] at hs
    split at hs
    · rename_i l _
      have hserver : s'.server = (s.server.release l c).2 := by
        rw [← Option.some.inj hs]
        split <;> rfl
      refine .of_quiet rfl rfl (fun lid => ?_) fun v lid hv => ?_
      · rw [hserver, Server.waitingCls_release]
      · rwa [hserver, Server.worker_release] at hv
    · cases hs
  | releaseReturn c w pick =>
    simp only [Sys.step] at hs
    split at hs
    · obtain ⟨e, -, hs⟩ := Option.bind_eq_some_iff.mp hs
      rw [Option.ite_none_right_eq_some, Option.some.injEq] at hs
      obtain ⟨-, rfl⟩ := hs
      exact .of_server_eq rfl rfl rfl
    · cases hs
  | retryer =>
    simp only [Sys.step, Option.ite_none_right_eq_some, Option.some.injEq] at hs
    obtain ⟨-, rfl⟩ := hs
    exact .of_quiet rfl rfl (fun lid => (congrArg _ Server.waitingCls_retryerTurn).le)
      fun w lid hw => by rwa [← s.server.worker_retryerTurn]
  | retryerWake =>
    simp only [Sys.step] at hs
    split at hs
    · cases hs
      exact .of_quiet rfl rfl (fun _ => le_rfl) fun _ _ hw => hw
    · cases hs
  | revoker =>
    simp only [Sys.step, Option.ite_none_right_eq_some, Option.some.injEq] at hs
    obtain ⟨-, rfl⟩ := hs
    obtain ⟨htable, hwork⟩ := s.server.revokerTurn_eq
    refine .of_quiet rfl rfl (fun lid => by simp [Sys.setServer, htable]) fun w lid hw => ?_
    simpa [Sys.setServer, hwork] using hw
  | revokerWake =>
    simp only [Sys.step] at hs
    split at hs
    · cases hs
      exact .of_quiet rfl rfl (fun _ => le_rfl) fun _ _ hw => hw
    · cases hs
  | takeJob w =>
    simp only [Sys.step, Option.ite_none_right_eq_some] at hs
    obtain ⟨srv, hsrv, rfl⟩ := Option.map_eq_some_iff.mp hs.2
    obtain ⟨htable, pc, hwork, hpc⟩ := Server.takeJob_eq hsrv
    exact .of_update rfl rfl (fun lid => by simp [Sys.setServer, htable]) hwork fun lid => hpc lid _
  | callOwner w =>
    obtain ⟨srv, hsrv, rfl⟩ := Option.map_eq_some_iff.mp hs
    obtain ⟨htable, pc, hwork, hpc⟩ := Server.callOwner_eq hsrv
    exact .of_update rfl rfl (fun lid => by simp [Sys.setServer, htable]) hwork hpc
  | retryFinish w =>
    simp only [Sys.step] at hs
    split at hs
    · obtain ⟨srv, hsrv, rfl⟩ := Option.map_eq_some_iff.mp hs
      exact .of_update rfl rfl (fun _ => Server.waitingCls_retryFinish hsrv)
        (Server.worker_retryFinish hsrv) (by simp)
    · cases hs
  | revokeFinish w =>
    simp only [Sys.step] at hs
    split at hs
    · rename_i l ret _
      cases hs
      obtain ⟨htable, hwork⟩ := s.server.revokeFinish_eq w l ret
      exact .of_update rfl rfl (fun lid => by simp [Sys.setServer, htable]) hwork (by simp)
    · cases hs

end Step

/-! ## The logs -/

/-- The clients told to wait are those that have been served and those that still wait, in this
order. -/
structure Logged.InOrder (s : Logged ι τ ω) : Prop where
  refines : s.sys.Refines true
  order : ∀ lid, ∃ h : Handover ι τ ω, h.Reach true ∧ Matches lid (s.sys.view lid) h ∧
    s.told lid = s.served lid ++ h.pending

omit [DecidableEq ι] in
theorem noteIn_self (log : ℕ → List ι) (lid : ℕ) (c : ι) :
    noteIn log (some (lid, c)) lid = log lid ++ [c] := Function.update_self ..

omit [DecidableEq ι] in
theorem noteIn_of_ne {log : ℕ → List ι} {o : Option (ℕ × ι)} {lid : ℕ}
    (ho : ∀ c, o ≠ some (lid, c)) : noteIn log o lid = log lid := by
  match o, ho with
  | none, _ => rfl
  | some (l, c), ho =>
    apply Function.update_of_ne
    rintro rfl
    exact ho c rfl

theorem Logged.inOrder_init : (loggedSystem ι τ ω).init.InOrder where
  refines := Sys.refines_init
  order _ := ⟨.init, .refl, Matches.init, rfl⟩

theorem Logged.InOrder.step {s s' : Logged ι τ ω} {a : Action ι τ ω} (hi : s.InOrder)
    (ha : a.reliable = true) (hs : (loggedSystem ι τ ω).step s a = some s') : s'.InOrder := by
  obtain ⟨sys, hsys, rfl⟩ := Option.map_eq_some_iff.mp hs
  have hallow := Sys.allowed_of_reliable (s := s.sys) ha
  refine ⟨hi.refines.step hallow hsys, fun lid => ?_⟩
  obtain ⟨h, hh, hm, hlog⟩ := hi.order lid
  obtain ⟨h', hstep, hm'⟩ := hm.follow hi.refines hh.valid hallow hsys
  have hwait : (s.sys.server.lockTable lid).waitingCls = h.waiting := hm.server.waiting
  have hwait' : (sys.server.lockTable lid).waitingCls = h'.waiting := hm'.server.waiting
  have hturns := Sys.turns_of_step hsys
  have hreach : h'.Reach true := by
    rcases hstep with rfl | hstep
    · exact hh
    · exact hh.tail hstep
  refine ⟨h', hreach, hm', ?_⟩
  dsimp only
  have hcases : (h'.pending = h.pending ∧ h'.waiting.length ≤ h.waiting.length ∧
        ∀ w, h'.phase = .retAcc w → h.phase = .retAcc w) ∨
      (∃ c, h'.waiting = h.waiting ++ [c] ∧ h'.pending = h.pending ++ [c]) ∨
      ∃ w c, h.phase = .retCall w c ∧ h'.phase = .retAcc w ∧ h'.waiting = h.waiting ∧
        h.pending = c :: h'.pending := by
    rcases hstep with rfl | hstep
    · exact .inl ⟨rfl, le_rfl, fun _ hp => hp⟩
    · exact hstep.pending_cases hh.valid
  by_cases htell : ∃ c, s.sys.tells a = some (lid, c)
  · obtain ⟨c, htell⟩ := htell
    have hnew : h'.waiting = h.waiting ++ [c] := by
      rw [← hwait, ← hwait']
      exact hturns.told lid c htell
    have hserve (d : ι) : s.sys.serves a ≠ some (lid, d) := by
      intro hserve
      rw [← hwait', (hturns.served lid d hserve).1, hwait] at hnew
      simp at hnew
    rw [htell, noteIn_self, noteIn_of_ne hserve, hlog]
    rcases hcases with ⟨-, hle, -⟩ | ⟨d, hw, hpend⟩ | ⟨w, d, -, -, hw, -⟩
    · simp [hnew] at hle
    · obtain rfl : d = c := by simpa [hw] using hnew
      rw [hpend, List.append_assoc]
    · simp [hw] at hnew
  · rw [not_exists] at htell
    rw [noteIn_of_ne htell, hlog]
    by_cases hserve : ∃ c, s.sys.serves a = some (lid, c)
    · obtain ⟨c, hserve⟩ := hserve
      obtain ⟨htable, w, hw, hw'⟩ := hturns.served lid c hserve
      have hphase : h.phase = .retCall w c :=
        Phase.eq_retCall ((hm.phase_of_server hw (by simp)).trans (by simp))
      have hphase' := (hm'.retAcc_of_retryAnswered hw').2
      rw [hserve, noteIn_self]
      rcases hcases with ⟨-, -, hkeep⟩ | ⟨d, hlonger, -⟩ | ⟨v, d, hp, -, -, hpend⟩
      · have hret := hkeep w hphase'
        rw [hphase] at hret
        cases hret
      · rw [← hwait', htable, hwait] at hlonger
        simp at hlonger
      · rw [hphase] at hp
        cases hp
        rw [hpend, List.append_assoc]
        rfl
    · rw [not_exists] at hserve
      rw [noteIn_of_ne hserve]
      rcases hcases with ⟨hpend, -, -⟩ | ⟨d, hlonger, -⟩ | ⟨w, c, hp, hp', -, -⟩
      · rw [hpend]
      · obtain ⟨c, hc⟩ := hturns.longer lid (by rw [hwait, hwait', hlonger]; simp)
        exact absurd hc (htell c)
      · have hw := hm.worker_of_phase (w := w) (x := .retryCalling lid c)
          (by simp [hp, Phase.serverPc]) (by simp)
        have hw' := hm'.worker_of_phase (w := w) (x := .retryAnswered lid .OK)
          (by simp [hp', Phase.serverPc]) (by simp)
        rcases hturns.answered w lid hw' with hans | ⟨d, -, hd⟩
        · rw [hw] at hans
          cases hans
        · exact absurd hd (hserve d)

/-- With reliable RPCs, every lock is handed on in the order in which the clients were told to wait
for it: the clients that were told are those that have accepted a retry since, followed by those
in the queue, of which the first has accepted its retry while `retryer_rpc` has not popped it. -/
theorem first_come_first_served {acts : List (Action ι τ ω)} (hc : ∀ a ∈ acts, a.reliable = true)
    {s : Logged ι τ ω} (hrun : (loggedSystem ι τ ω).run acts = some s) (lid : ℕ) :
    s.told lid = s.served lid ++ (s.sys.server.lockTable lid).waitingCls ∨
      ∃ w, s.sys.server.worker w = .retryAnswered lid .OK ∧
        s.told lid = s.served lid ++ (s.sys.server.lockTable lid).waitingCls.tail := by
  have hin : s.InOrder := Machine.Along.invariant (C := fun _ a => a.reliable = true)
    (fun s a t hi ha hs => hi.step ha hs) Logged.inOrder_init (Machine.along_of_forall hc) hrun
  obtain ⟨h, -, hm, hlog⟩ := hin.order lid
  have hwait : (s.sys.server.lockTable lid).waitingCls = h.waiting := hm.server.waiting
  rw [hwait]
  by_cases hp : ∃ w, h.phase = .retAcc w
  · obtain ⟨w, hp⟩ := hp
    refine .inr ⟨w, hm.worker_of_phase (by simp [hp, Phase.serverPc]) (by simp), ?_⟩
    rw [hlog, Handover.pending_of_retAcc hp]
  · rw [not_exists] at hp
    rw [hlog, Handover.pending_of_ne hp]
    exact .inl rfl

def toldBoth : List (Action (Fin 3) (Fin 1) (Fin 1)) :=
  handBack ++ .retryer :: fetch 2 ++ handOn.tail

theorem first_come_first_served_two :
    (∀ a ∈ toldBoth, a.reliable = true) ∧
    ∃ s, (loggedSystem (Fin 3) (Fin 1) (Fin 1)).run toldBoth = some s ∧
      s.told 7 = [1, 2] ∧ s.served 7 = [1] ∧
      (s.told 7 = s.served 7 ++ (s.sys.server.lockTable 7).waitingCls ∨
        ∃ w, s.sys.server.worker w = .retryAnswered 7 .OK ∧
          s.told 7 = s.served 7 ++ (s.sys.server.lockTable 7).waitingCls.tail) := by
  have hc : ∀ a ∈ toldBoth, a.reliable = true := by decide
  exact ⟨hc, _, rfl, rfl, rfl, first_come_first_served hc rfl 7⟩

end YFS.Lock
