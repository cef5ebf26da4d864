import YFS.Lock.View

/-! # The lock server and its surroundings

A single `lock_server_cache` with everything that can happen to it: acquires and releases
by any client at any time, wake-ups, the turns of its two threads and of the workers of
its pool, and any result of the retry and revoke RPCs.
-/

namespace YFS.Lock
open YFS.Library

variable {ι ω : Type} [DecidableEq ι] [DecidableEq ω]

/-- `sent` is history: the client has been sent a revoke for the lock, as its owner, and the
server has not got the lock back from it since. -/
structure Registry (ι ω : Type) where
  server : Server ι ω
  sent : ι → ℕ → Bool

inductive RegistryEvent (ι ω : Type) where
  | acquire (lid : ℕ) (c : ι)
  | release (lid : ℕ) (c : ι)
  | retryer
  | retryerWake
  | revoker
  | revokerWake
  | takeJob (w : ω)
  | callOwner (w : ω)
  | retryReply (w : ω) (ret : RStatus)
  | revokeReply (w : ω) (ret : RStatus)
  | retryFinish (w : ω)
  | revokeFinish (w : ω)

namespace Registry

def init : Registry ι ω := ⟨.new, fun _ _ => false⟩

def setServer (s : Registry ι ω) (srv : Server ι ω) : Registry ι ω := { s with server := srv }

def setSent (s : Registry ι ω) (c : ι) (lid : ℕ) (b : Bool) : Registry ι ω :=
  { s with sent := Function.update s.sent c (Function.update (s.sent c) lid b) }

def step (s : Registry ι ω) : RegistryEvent ι ω → Option (Registry ι ω)
  | .acquire lid c => some (s.setServer (s.server.acquire lid c).2)
  | .release lid c =>
    let (ret, srv) := s.server.release lid c
    some (if ret = .OK then (s.setServer srv).setSent c lid false else s.setServer srv)
  | .retryer => if s.server.retryer = .awake then some (s.setServer s.server.retryerTurn) else none
  | .retryerWake =>
    match s.server.retryer with
    | .asleep _ => some (s.setServer { s.server with retryer := .awake })
    | .awake => none
  | .revoker => if s.server.revoker = .awake then some (s.setServer s.server.revokerTurn) else none
  | .revokerWake =>
    match s.server.revoker with
    | .asleep _ => some (s.setServer { s.server with revoker := .awake })
    | .awake => none
  | .takeJob w => if s.server.worker w = .idle then (s.server.takeJob w).map s.setServer else none
  | .callOwner w => (s.server.callOwner w).map fun srv =>
      match srv.worker w with
      | .revokeCalling lid c => (s.setServer srv).setSent c lid true
      | _ => s.setServer srv
  | .retryReply w ret =>
    match s.server.worker w with
    | .retryCalling lid _ => some (s.setServer (s.server.setWorker w (.retryAnswered lid ret)))
    | _ => none
  | .revokeReply w ret =>
    match s.server.worker w with
    | .revokeCalling lid _ => some (s.setServer (s.server.setWorker w (.revokeAnswered lid ret)))
    | _ => none
  | .retryFinish w =>
    match s.server.worker w with
    | .retryAnswered lid ret => (s.server.retryFinish w lid ret).map s.setServer
    | _ => none
  | .revokeFinish w =>
    match s.server.worker w with
    | .revokeAnswered lid ret => some (s.setServer (s.server.revokeFinish w lid ret))
    | _ => none

inductive Moves (s : Registry ι ω) (lid : ℕ) : RegistryEvent ι ω → Registry ι ω → Prop
  | acquire (c : ι) : Moves s lid (.acquire lid c) (s.setServer (s.server.acquire lid c).2)
  | release {c : ι} : (s.server.lockTable lid).ownerCl = some c → Moves s lid (.release lid c)
      ((s.setServer (s.server.release lid c).2).setSent c lid false)
  | retryer {q : List ℕ} : s.server.retryerQueue = lid :: q →
      Moves s lid .retryer (s.setServer s.server.retryerTurn)
  | revoker {q : List ℕ} : s.server.revokerQueue = lid :: q →
      Moves s lid .revoker (s.setServer s.server.revokerTurn)
  | takeRetry {w : ω} {js : List Job} : s.server.worker w = .idle →
      s.server.jobs = .retryer lid :: js → Moves s lid (.takeJob w)
        (s.setServer ({ s.server with jobs := js }.setWorker w (.retryStart lid)))
  | takeRevoke {w : ω} {js : List Job} : s.server.worker w = .idle →
      s.server.jobs = .revoker lid :: js → Moves s lid (.takeJob w)
        (s.setServer ({ s.server with jobs := js }.setWorker w (.revokeStart lid)))
  | retryNobody {w : ω} : s.server.worker w = .retryStart lid →
      (s.server.lockTable lid).ownerCl = none → Moves s lid (.callOwner w)
        (s.setServer (s.server.setWorker w (.retryAnswered lid .RPCERR)))
  | retryCall {w : ω} {c : ι} : s.server.worker w = .retryStart lid →
      (s.server.lockTable lid).ownerCl = some c → Moves s lid (.callOwner w)
        (s.setServer (s.server.setWorker w (.retryCalling lid c)))
  | revokeNobody {w : ω} : s.server.worker w = .revokeStart lid →
      (s.server.lockTable lid).ownerCl = none → Moves s lid (.callOwner w)
        (s.setServer (s.server.setWorker w (.revokeAnswered lid .RPCERR)))
  | revokeCall {w : ω} {c : ι} : s.server.worker w = .revokeStart lid →
      (s.server.lockTable lid).ownerCl = some c → Moves s lid (.callOwner w)
        ((s.setServer (s.server.setWorker w (.revokeCalling lid c))).setSent c lid true)
  | retryReply {w : ω} {c : ι} (ret : RStatus) : s.server.worker w = .retryCalling lid c →
      Moves s lid (.retryReply w ret)
        (s.setServer (s.server.setWorker w (.retryAnswered lid ret)))
  | revokeReply {w : ω} {c : ι} (ret : RStatus) : s.server.worker w = .revokeCalling lid c →
      Moves s lid (.revokeReply w ret)
        (s.setServer (s.server.setWorker w (.revokeAnswered lid ret)))
  | retryFinish {w : ω} {ret : RStatus} {srv : Server ι ω} :
      s.server.worker w = .retryAnswered lid ret → s.server.retryFinish w lid ret = some srv →
      Moves s lid (.retryFinish w) (s.setServer srv)
  | revokeFinish {w : ω} {ret : RStatus} : s.server.worker w = .revokeAnswered lid ret →
      Moves s lid (.revokeFinish w) (s.setServer (s.server.revokeFinish w lid ret))

def Same (s s' : Registry ι ω) (lid : ℕ) : Prop :=
  s'.server.view lid = s.server.view lid ∧ ∀ c, s'.sent c lid = s.sent c lid

section Same
variable {s : Registry ι ω} {srv : Server ι ω} {l lid : ℕ}

omit [DecidableEq ι] [DecidableEq ω] in
theorem same_setServer (h : srv.view lid = s.server.view lid) : s.Same (s.setServer srv) lid :=
  ⟨h, fun _ => rfl⟩

omit [DecidableEq ω] in
theorem same_setSent_ne (hl : l ≠ lid) (h : srv.view lid = s.server.view lid) (c : ι) (b : Bool) :
    s.Same ((s.setServer srv).setSent c l b) lid := by
  refine ⟨h, fun d => ?_⟩
  by_cases hd : d = c
  · subst hd
    simp [setSent, setServer, hl.symm]
  · simp [setSent, setServer, hd]

omit [DecidableEq ι] in
theorem same_setWorker {w : ω} {pc : ServerPc ι} (hw : (s.server.worker w).restrict lid = .idle)
    (hpc : pc.restrict lid = .idle) : s.Same (s.setServer (s.server.setWorker w pc)) lid := by
  apply same_setServer
  apply Server.view_setWorker_of_eq
  rw [hw, hpc]

end Same

theorem moves_of_callOwner {s s' : Registry ι ω} {w : ω} (h : s.step (.callOwner w) = some s') :
    ∃ lid, s.Moves lid (.callOwner w) s' := by
  obtain ⟨srv, hsrv, rfl⟩ := Option.map_eq_some_iff.mp h
  simp only [Server.callOwner] at hsrv
  split at hsrv
  · rename_i lid hw
    refine ⟨lid, ?_⟩
    split at hsrv
    · rename_i hown
      cases hsrv
      simpa [Server.setWorker] using .retryNobody hw hown
    · rename_i c hown
      cases hsrv
      simpa [Server.setWorker] using .retryCall hw hown
  · rename_i lid hw
    refine ⟨lid, ?_⟩
    split at hsrv
    · rename_i hown
      cases hsrv
      simpa [Server.setWorker] using .revokeNobody hw hown
    · rename_i c hown
      cases hsrv
      simpa [Server.setWorker] using .revokeCall hw hown
  · cases hsrv

theorem moves_or_same {s s' : Registry ι ω} {ev : RegistryEvent ι ω} (h : s.step ev = some s') :
    (∃ lid, s.Moves lid ev s') ∨ ∀ lid, s.Same s' lid := by
  cases ev with
  | acquire lid c =>
    cases h
    exact Or.inl ⟨lid, .acquire c⟩
  | release lid c =>
    by_cases hown : (s.server.lockTable lid).ownerCl = some c
    · have hret : (s.server.release lid c).1 = .OK := by simp [Server.release, hown]
      simp only [step, hret, if_true, Option.some.injEq] at h
      subst h
      exact Or.inl ⟨lid, .release hown⟩
    · simp only [step, Server.release, if_neg hown, Option.some.injEq] at h
      subst h
      exact Or.inr fun _ => same_setServer rfl
  | retryer =>
    simp only [step] at h
    split at h
    · cases h
      cases hq : s.server.retryerQueue with
      | nil => exact Or.inr fun _ => same_setServer (Server.view_retryerTurn_ne (by simp [hq]))
      | cons lid q => exact Or.inl ⟨lid, .retryer hq⟩
    · cases h
  | retryerWake =>
    simp only [step] at h
    split at h
    · cases h
      exact Or.inr fun _ => same_setServer rfl
    · cases h
  | revoker =>
    simp only [step] at h
    split at h
    · cases h
      cases hq : s.server.revokerQueue with
      | nil => exact Or.inr fun _ => same_setServer (Server.view_revokerTurn_ne (by simp [hq]))
      | cons lid q => exact Or.inl ⟨lid, .revoker hq⟩
    · cases h
  | revokerWake =>
    simp only [step] at h
    split at h
    · cases h
      exact Or.inr fun _ => same_setServer rfl
    · cases h
  | takeJob w =>
    simp only [step] at h
    split at h
    · rename_i hidle
      obtain ⟨srv, hsrv, rfl⟩ := Option.map_eq_some_iff.mp h
      simp only [Server.takeJob] at hsrv
      split at hsrv
      · cases hsrv
      · rename_i lid js hj
        cases hsrv
        exact Or.inl ⟨lid, .takeRetry hidle hj⟩
      · rename_i lid js hj
        cases hsrv
        exact Or.inl ⟨lid, .takeRevoke hidle hj⟩
    · cases h
  | callOwner w => exact Or.inl (moves_of_callOwner h)
  | retryReply w ret =>
    simp only [step] at h
    split at h
    · rename_i lid c hw
      cases h
      exact Or.inl ⟨lid, .retryReply ret hw⟩
    · cases h
  | revokeReply w ret =>
    simp only [step] at h
    split at h
    · rename_i lid c hw
      cases h
      exact Or.inl ⟨lid, .revokeReply ret hw⟩
    · cases h
  | retryFinish w =>
    simp only [step] at h
    split at h
    · rename_i lid ret hw
      obtain ⟨srv, hsrv, rfl⟩ := Option.map_eq_some_iff.mp h
      exact Or.inl ⟨lid, .retryFinish hw hsrv⟩
    · cases h
  | revokeFinish w =>
    simp only [step] at h
    split at h
    · rename_i lid ret hw
      cases h
      exact Or.inl ⟨lid, .revokeFinish hw⟩
    · cases h

theorem Moves.same {s s' : Registry ι ω} {ev : RegistryEvent ι ω} {l lid : ℕ}
    (h : s.Moves l ev s') (hl : l ≠ lid) : s.Same s' lid := by
  cases h with
  | acquire c => exact same_setServer (Server.view_acquire_ne hl c)
  | release hown => exact same_setSent_ne hl (Server.view_release_ne hl _) _ false
  | retryer hq => exact same_setServer (Server.view_retryerTurn_ne (by simpa [hq] using hl))
  | revoker hq => exact same_setServer (Server.view_revokerTurn_ne (by simpa [hq] using hl))
  | takeRetry hidle hj =>
    exact same_setServer (Server.view_take_ne hj hidle (by simpa using hl) (by simp) (by simp [hl]))
  | takeRevoke hidle hj =>
    exact same_setServer (Server.view_take_ne hj hidle (by simp) (by simpa using hl) (by simp [hl]))
  | retryNobody hw hown => exact same_setWorker (by simp [hw, hl]) (by simp [hl])
  | retryCall hw hown => exact same_setWorker (by simp [hw, hl]) (by simp [hl])
  | revokeNobody hw hown => exact same_setWorker (by simp [hw, hl]) (by simp [hl])
  | revokeCall hw hown =>
    exact same_setSent_ne hl (Server.view_setWorker_of_eq (by simp [hw, hl])) _ true
  | retryReply ret hw => exact same_setWorker (by simp [hw, hl]) (by simp [hl])
  | revokeReply ret hw => exact same_setWorker (by simp [hw, hl]) (by simp [hl])
  | retryFinish hw hsrv =>
    exact same_setServer (Server.view_retryFinish_ne hl (by simp [hw, hl]) hsrv)
  | revokeFinish hw => exact same_setServer (Server.view_revokeFinish_ne _ hl (by simp [hw, hl]))

theorem same_or_moves {s s' : Registry ι ω} {ev : RegistryEvent ι ω} (h : s.step ev = some s')
    (lid : ℕ) : s.Same s' lid ∨ s.Moves lid ev s' := by
  rcases moves_or_same h with ⟨l, hm⟩ | hsame
  · by_cases hl : l = lid
    · exact Or.inr (hl ▸ hm)
    · exact Or.inl (hm.same hl)
  · exact Or.inl (hsame lid)

end Registry

def registrySystem (ι ω : Type) [DecidableEq ι] [DecidableEq ω] :
    Machine (Registry ι ω) (RegistryEvent ι ω) := ⟨Registry.init, Registry.step⟩

end YFS.Lock
