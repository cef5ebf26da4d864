import YFS.Lock.Refinement.Matches

/-! # The hand-over protocol follows the threads of the server -/

namespace YFS.Lock

variable {ι τ ω : Type} [DecidableEq ι] [DecidableEq τ] [DecidableEq ω]
variable {lid l : ℕ} {b : Bool} {s s' : Sys ι τ ω} {h : Handover ι τ ω} {c : ι} {cl : Client τ ω}
  {t : τ} {w : ω} {r : Role τ ω}
  (hm : Matches lid (s.view lid) h)
include hm

/-- Only the server's part changes, and with it a phase that concerns no client. -/
theorem Matches.followServer {srv : Server ι ω} {h' : Handover ι τ ω} (hstep : Handover.Step b h h')
    (hsrv : ServerMatches lid (srv.view lid) h') (hg : h'.granted = h.granted)
    (hrole : h'.role = h.role) (hsame : ∀ d, h.phase.Same lid d h'.phase) :
    Follows lid b h (s.setServer srv) := by
  refine ⟨h', Or.inr hstep, ?_⟩
  rw [Sys.view_setServer]
  exact hm.updateServer hsrv (hm.granted.trans hg.symm) rfl hrole hsame

theorem Matches.stutterServer {srv : Server ι ω} (hv : srv.view lid = s.server.view lid) :
    Follows lid b h (s.setServer srv) :=
  hm.stutter (Sys.view_setServer_of_eq hv)

theorem Matches.retryer (hv : h.Valid) (hs : s.step .retryer = some s') : Follows lid b h s' := by
  simp only [Sys.step] at hs
  split at hs
  · cases hs
    by_cases hq : s.server.retryerQueue.head? = some lid
    · have hsv : ServerMatches lid (s.server.view lid) h := hm.server
      obtain ⟨q, hlq⟩ := List.head?_eq_some_iff.mp hq
      have hcount := hsv.retQ
      simp only [Server.view, hlq] at hcount
      obtain ⟨hph, hq₀⟩ := eq_of_count_cons hcount
      have hj₀ : s.server.jobs.count (.retryer lid) = 0 := by
        simpa [Server.view, hph] using hsv.retJ
      have hw : h.waiting ≠ [] := by
        have hk := hv.phase
        simpa only [Handover.PhaseOk, hph] using hk
      obtain ⟨c, l, hcl⟩ := List.exists_cons_of_ne_nil hw
      have hcl' : (s.server.lockTable lid).waitingCls = c :: l := hsv.waiting.trans hcl
      obtain ⟨p, hp, hj⟩ := exists_addObjJob hj₀ (a := (.retJ : Phase ι ω)) (b := .retLost)
        (by simp)
      apply hm.followServer (.retJob c l p hph hcl hp)
      · refine ⟨?_, ?_, ?_, ?_, ?_, ?_, ?_⟩
        · simp [Server.retryerTurn, hlq, hcl', Server.view, Server.setLock]
        · simpa [Server.retryerTurn, hlq, hcl', Server.view, Server.setLock] using hcl.symm
        · have := hsv.revQ
          rcases hp with rfl | rfl <;>
            simpa [Server.retryerTurn, hlq, hcl', Server.view, Server.setLock, hph] using this
        · have := hsv.revJ
          rcases hp with rfl | rfl <;> simpa [Server.retryerTurn, hlq, hcl', Server.view,
            Server.setLock, hph, count_addObjJob_ne] using this
        · rcases hp with rfl | rfl <;>
            simp [Server.retryerTurn, hlq, hcl', Server.view, Server.setLock, hq₀]
        · rcases hp with rfl | rfl <;>
            simpa [Server.retryerTurn, hlq, hcl', Server.view, Server.setLock] using hj
        · have := hsv.worker
          rcases hp with rfl | rfl <;> simpa [Server.retryerTurn, hlq, hcl', Server.view,
            Server.setLock, hph, Phase.serverPc] using this
      · rfl
      · rfl
      · intro d
        rcases hp with rfl | rfl <;> apply Phase.same_of_concerns <;> simp [hph, Phase.concerns]
    · exact hm.stutterServer (Server.view_retryerTurn_ne hq)
  · cases hs

theorem Matches.revoker (hv : h.Valid) (hs : s.step .revoker = some s') : Follows lid b h s' := by
  simp only [Sys.step] at hs
  split at hs
  · cases hs
    by_cases hq : s.server.revokerQueue.head? = some lid
    · have hsv : ServerMatches lid (s.server.view lid) h := hm.server
      obtain ⟨q, hlq⟩ := List.head?_eq_some_iff.mp hq
      have hcount := hsv.revQ
      simp only [Server.view, hlq] at hcount
      obtain ⟨hph, hq₀⟩ := eq_of_count_cons hcount
      have hj₀ : s.server.jobs.count (.revoker lid) = 0 := by
        simpa [Server.view, hph] using hsv.revJ
      have hw : 0 < (s.server.lockTable lid).waitingCls.length := by
        have hk := hv.phase
        simp only [Handover.PhaseOk, hph] at hk
        have hwait : (s.server.lockTable lid).waitingCls = h.waiting := hsv.waiting
        rw [hwait]
        exact List.length_pos_iff.mpr hk.1
      obtain ⟨p, hp, hj⟩ := exists_addObjJob hj₀ (a := (.revJ : Phase ι ω)) (b := .revLost)
        (by simp)
      apply hm.followServer (.revJob p hph hp)
      · refine ⟨?_, ?_, ?_, ?_, ?_, ?_, ?_⟩
        · simpa [Server.revokerTurn, hlq, hw, Server.view] using hsv.owner
        · simpa [Server.revokerTurn, hlq, hw, Server.view] using hsv.waiting
        · rcases hp with rfl | rfl <;> simp [Server.revokerTurn, hlq, hw, Server.view, hq₀]
        · rcases hp with rfl | rfl <;> simpa [Server.revokerTurn, hlq, hw, Server.view] using hj
        · have := hsv.retQ
          rcases hp with rfl | rfl <;>
            simpa [Server.revokerTurn, hlq, hw, Server.view, hph] using this
        · have := hsv.retJ
          rcases hp with rfl | rfl <;>
            simpa [Server.revokerTurn, hlq, hw, Server.view, hph, count_addObjJob_ne] using this
        · have := hsv.worker
          rcases hp with rfl | rfl <;>
            simpa [Server.revokerTurn, hlq, hw, Server.view, hph, Phase.serverPc] using this
      · rfl
      · rfl
      · intro d
        rcases hp with rfl | rfl <;> apply Phase.same_of_concerns <;> simp [hph, Phase.concerns]
    · exact hm.stutterServer (Server.view_revokerTurn_ne hq)
  · cases hs

theorem Matches.retryerWake (hs : s.step .retryerWake = some s') : Follows lid b h s' := by
  simp only [Sys.step] at hs
  split at hs
  · cases hs
    exact hm.stutterServer rfl
  · cases hs

theorem Matches.revokerWake (hs : s.step .revokerWake = some s') : Follows lid b h s' := by
  simp only [Sys.step] at hs
  split at hs
  · cases hs
    exact hm.stutterServer rfl
  · cases hs

theorem Matches.followTake {js : List Job} {q : Phase ι ω} {pc : ServerPc ι}
    (hph : h.phase = .revJ ∨ h.phase = .retJ) (hq : q = .revRun w ∨ q = .retRun w)
    (hstep : Handover.Step b h (h.setPhase q)) (hpc : pc.restrict lid = q.serverPc lid w)
    (hrev : js.count (.revoker lid) = 0) (hret : js.count (.retryer lid) = 0) :
    Follows lid b h (s.setServer ({ s.server with jobs := js }.setWorker w pc)) := by
  have hsv : ServerMatches lid (s.server.view lid) h := hm.server
  apply hm.followServer hstep
  · rw [Server.view_setWorker]
    refine ⟨hsv.owner, hsv.waiting, ?_, ?_, ?_, ?_, ?_⟩
    · have := hsv.revQ
      rcases hph with hph | hph <;> rcases hq with rfl | rfl <;>
        simpa [Server.view, hph] using this
    · rcases hq with rfl | rfl <;> simpa [Server.view] using hrev
    · have := hsv.retQ
      rcases hph with hph | hph <;> rcases hq with rfl | rfl <;>
        simpa [Server.view, hph] using this
    · rcases hq with rfl | rfl <;> simpa [Server.view] using hret
    · apply hsv.moveWorker _ (Or.inl hpc)
      intro u hu
      rcases hph with hph | hph <;> rcases hq with rfl | rfl <;>
        simp [hph, Phase.serverPc, hu.symm]
  · rfl
  · rfl
  · intro d
    rcases hph with hph | hph <;> rcases hq with rfl | rfl <;>
      apply Phase.same_of_concerns <;> simp [hph, Phase.concerns]

theorem Matches.takeJob (hs : s.step (.takeJob w) = some s') : Follows lid b h s' := by
  simp only [Sys.step] at hs
  split at hs
  · rename_i hidle
    obtain ⟨srv, hsrv, rfl⟩ := Option.map_eq_some_iff.mp hs
    have hsv : ServerMatches lid (s.server.view lid) h := hm.server
    simp only [Server.takeJob] at hsrv
    split at hsrv
    · cases hsrv
    · rename_i l js hjobs
      cases hsrv
      by_cases hl : l = lid
      · subst hl
        have hcount := hsv.retJ
        simp only [Server.view, hjobs] at hcount
        obtain ⟨hph, hj₀⟩ := eq_of_count_cons hcount
        exact hm.followTake (Or.inr hph) (Or.inr rfl) (.retTake w hph) (by simp [Phase.serverPc])
          (by simpa [Server.view, hph, hjobs] using hsv.revJ) hj₀
      · apply hm.stutterServer
        exact Server.view_take_ne hjobs hidle (by simpa using hl) (by simp) (by simp [hl])
    · rename_i l js hjobs
      cases hsrv
      by_cases hl : l = lid
      · subst hl
        have hcount := hsv.revJ
        simp only [Server.view, hjobs] at hcount
        obtain ⟨hph, hj₀⟩ := eq_of_count_cons hcount
        exact hm.followTake (Or.inl hph) (Or.inl rfl) (.revTake w hph) (by simp [Phase.serverPc])
          hj₀ (by simpa [Server.view, hph, hjobs] using hsv.retJ)
      · apply hm.stutterServer
        exact Server.view_take_ne hjobs hidle (by simp) (by simpa using hl) (by simp [hl])
  · cases hs

theorem Matches.followWorker {q : Phase ι ω} {pc : ServerPc ι}
    (hstep : Handover.Step b h (h.setPhase q)) (hpc : pc.restrict lid = q.serverPc lid w)
    (hne : ∀ u, u ≠ w → h.phase.serverPc lid u = q.serverPc lid u) (hp : h.phase.Unqueued)
    (hq : q.Unqueued) (hsame : ∀ d, h.phase.Same lid d q) :
    Follows lid b h (s.setServer (s.server.setWorker w pc)) := by
  have hsv : ServerMatches lid (s.server.view lid) h := hm.server
  apply hm.followServer hstep _ rfl rfl hsame
  rw [Server.view_setWorker]
  apply hsv.unqueued hp
  · exact hq
  · rfl
  · rfl
  · exact hsv.moveWorker hne (Or.inl hpc)

theorem Matches.callOwner (hv : h.Valid) (hs : s.step (.callOwner w) = some s') :
    Follows lid b h s' := by
  simp only [Sys.step] at hs
  obtain ⟨srv, hsrv, rfl⟩ := Option.map_eq_some_iff.mp hs
  have hother (l : ℕ) (pc pc' : ServerPc ι) (hw : s.server.worker w = pc)
      (hpc : pc.restrict lid = .idle) (hpc' : pc'.restrict lid = .idle) :
      (s.server.setWorker w pc').view lid = s.server.view lid :=
    Server.view_setWorker_of_eq (by rw [hw, hpc, hpc'])
  have hown : (s.server.lockTable lid).ownerCl = h.owner := hm.server.owner
  have hk := hv.phase
  simp only [Server.callOwner] at hsrv
  split at hsrv
  · rename_i l hw
    by_cases hl : l = lid
    · subst hl
      have hph : h.phase = .retRun w :=
        Phase.eq_retRun ((hm.phase_of_server hw (by simp)).trans (by simp))
      simp only [Handover.PhaseOk, hph] at hk
      obtain ⟨c, q, -, ho⟩ := hk
      rw [hown, ho] at hsrv
      cases hsrv
      apply hm.followWorker (.retCall w c hph ho)
      · simp [Phase.serverPc]
      · intro u hu
        simp [hph, Phase.serverPc, hu.symm]
      · simp [hph, Phase.Unqueued]
      · simp [Phase.Unqueued]
      · intro d
        apply Phase.same_of_concerns <;> simp [hph, Phase.concerns]
    · split at hsrv <;> cases hsrv <;>
        exact hm.stutterServer (hother l _ _ hw (by simp [hl]) (by simp [hl]))
  · rename_i l hw
    by_cases hl : l = lid
    · subst hl
      have hph : h.phase = .revRun w :=
        Phase.eq_revRun ((hm.phase_of_server hw (by simp)).trans (by simp))
      simp only [Handover.PhaseOk, hph] at hk
      obtain ⟨c, ho⟩ := Option.ne_none_iff_exists'.mp hk.2
      rw [hown, ho] at hsrv
      cases hsrv
      apply hm.followWorker (.revCall w c hph ho)
      · simp [Phase.serverPc]
      · intro u hu
        simp [hph, Phase.serverPc, hu.symm]
      · simp [hph, Phase.Unqueued]
      · simp [Phase.Unqueued]
      · intro d
        constructor <;> simp [hph, Phase.releaserPc]
    · split at hsrv <;> cases hsrv <;>
        exact hm.stutterServer (hother l _ _ hw (by simp [hl]) (by simp [hl]))
  · cases hsrv

theorem Matches.retryFinish (hv : h.Valid) (hs : s.step (.retryFinish w) = some s') :
    Follows lid b h s' := by
  simp only [Sys.step] at hs
  split at hs
  · rename_i l ret hw
    obtain ⟨srv, hsrv, rfl⟩ := Option.map_eq_some_iff.mp hs
    by_cases hl : l = lid
    · subst hl
      have hpc := hm.phase_of_server hw (by simp)
      rw [ServerPc.restrict_retryAnswered, if_pos rfl] at hpc
      obtain ⟨rfl, hph⟩ := Phase.eq_retAcc hpc
      have hsv : ServerMatches l (s.server.view l) h := hm.server
      have hwait : (s.server.lockTable l).waitingCls = h.waiting := hsv.waiting
      have hworker (q : Phase ι ω) (hq : ∀ u, q.serverPc l u = .idle) (u : ω) :
          Function.update (s.server.view l).worker w .idle u = q.serverPc l u ∨
          Function.update (s.server.view l).worker w .idle u = .revokeAnswered l .OK ∧
            q.serverPc l u = .idle := by
        apply hsv.moveWorker
        · intro v hne
          rw [hq v, hph]
          simp [Phase.serverPc, hne.symm]
        · simp [hq]
      have hk := hv.phase
      simp only [Handover.PhaseOk, hph] at hk
      obtain ⟨c, q, hcq, -, -⟩ := hk
      rw [Server.retryFinish] at hsrv
      simp only [if_true] at hsrv
      rw [show ((s.server.setWorker w .idle).lockTable l).waitingCls = c :: q from
        hwait.trans hcq] at hsrv
      cases hsrv
      cases q with
      | nil =>
        apply hm.followServer (.served w c hph hcq)
        · simp only [List.isEmpty_nil, if_true]
          rw [Server.view_setLock, Server.view_setWorker]
          refine ⟨hsv.owner, rfl, ?_, ?_, ?_, ?_, hworker .idle fun _ => rfl⟩
          · simpa [hph] using hsv.revQ
          · simpa [hph] using hsv.revJ
          · simpa [hph] using hsv.retQ
          · simpa [hph] using hsv.retJ
        · rfl
        · rfl
        · intro d
          apply Phase.same_of_concerns <;> simp [hph, Phase.concerns]
      | cons d q =>
        apply hm.followServer (.next w c d q hph hcq)
        · simp only [List.isEmpty_cons, Bool.false_eq_true, if_false]
          rw [Server.view_askRevoker, Server.view_setLock, Server.view_setWorker]
          refine ⟨hsv.owner, rfl, ?_, ?_, ?_, ?_, hworker .revQ fun _ => rfl⟩
          · simpa [hph] using hsv.revQ
          · simpa [hph] using hsv.revJ
          · simpa [hph] using hsv.retQ
          · simpa [hph] using hsv.retJ
        · rfl
        · rfl
        · intro d
          apply Phase.same_of_concerns <;> simp [hph, Phase.concerns]
    · exact hm.stutterServer (Server.view_retryFinish_ne hl (by simp [hw, hl]) hsrv)
  · cases hs

theorem Matches.revokeFinish (hs : s.step (.revokeFinish w) = some s') : Follows lid b h s' := by
  simp only [Sys.step] at hs
  split at hs
  · rename_i l ret hw
    cases hs
    by_cases hl : l = lid
    · subst hl
      have hsv : ServerMatches l (s.server.view l) h := hm.server
      have hpc : (s.server.worker w).restrict l = .revokeAnswered l ret := by simp [hw]
      obtain ⟨hok, hidle⟩ : ret = .OK ∧ h.phase.serverPc l w = .idle := by
        rcases hsv.worker w with hc | ⟨hc, hidle⟩
        · exact absurd (hc.symm.trans hpc) (Phase.ne_revokeAnswered ret)
        · refine ⟨?_, hidle⟩
          have := hpc.symm.trans hc
          simpa using this
      refine ⟨h, Or.inl rfl, ?_⟩
      rw [Server.revokeFinish, if_pos hok, Sys.view_setServer, Server.view_setWorker]
      have hsv' := hsv.moveWorker (fun _ _ => rfl) (Or.inl hidle.symm)
      exact ⟨⟨hsv.owner, hsv.waiting, hsv.revQ, hsv.revJ, hsv.retQ, hsv.retJ, hsv'⟩, hm.client,
        hm.granted⟩
    · exact hm.stutterServer (Server.view_revokeFinish_ne ret hl (by simp [hw, hl]))
  · cases hs

end YFS.Lock
