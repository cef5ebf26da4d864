import YFS.Lock.Refinement.Matches

/-! # The hand-over protocol follows the revoke and retry handlers -/

namespace YFS.Lock

variable {ι τ ω : Type} [DecidableEq ι] [DecidableEq τ] [DecidableEq ω]
variable {lid l : ℕ} {b : Bool} {s s' : Sys ι τ ω} {h : Handover ι τ ω} {c : ι} {cl : Client τ ω}
  {t : τ} {w : ω} {r : Role τ ω}
  (hm : Matches lid (s.view lid) h)
include hm

theorem Matches.revokeLoop {e e₀ : CacheLock τ} (hph : h.phase = .revCall w c)
    (he : (s.client c).table lid = some e₀) (hs₀ : e.state = e₀.state) (ho₀ : e.owner = e₀.owner) :
    Follows lid b h (s.serveRevoke c w lid ((s.client c).revokeLoop w lid e)) := by
  have hc : ClientMatches lid c ((s.client c).view lid) h.phase (h.role c) := hm.client c
  have hsv : ServerMatches lid (s.server.view lid) h := hm.server
  have hstate : entryState ((s.client c).view lid).entry = e.state := by
    simp [Client.view, he, entryState, hs₀]
  rw [Client.revokeLoop]
  split
  · rename_i hfree
    have hr : h.role c = .holding := by
      have hst := hc.state
      rw [hstate, hfree] at hst
      cases hrole : h.role c <;> simp [hrole, Role.Shows] at hst ⊢
    refine ⟨_, Or.inr (.revoked w c hph hr), ?_⟩
    dsimp only [Sys.serveRevoke]
    rw [Sys.view_setServer, Sys.view_setClient, Server.view_setWorker]
    apply hm.update (c := c)
    · apply hsv.unqueued
      · simp [hph, Phase.Unqueued]
      · simp [Phase.Unqueued]
      · rfl
      · rfl
      · apply hsv.moveWorker
        · intro u hu
          simp [hph, Phase.serverPc, hu.symm]
        · simp [Phase.serverPc]
    · exact hm.granted
    · simp only [Function.update_self, Handover.setPhase_phase, Handover.setPhase_role,
        Handover.setRole_role, if_true]
      rw [Client.view_releaser, Client.view_pushRelease, Client.view_setHandler,
        Client.view_setEntry]
      exact hc.revoked hr hph (hstate.trans hfree) rfl
    · intro d hd
      simp [hd]
    · intro d hd
      simp [Handover.setRole_role, hd]
    · intro d hd
      apply Phase.same_of_concerns <;> simp [hph, Phase.concerns, hd.symm]
  · refine ⟨h, Or.inl rfl, ?_⟩
    dsimp only [Sys.serveRevoke]
    rw [Sys.view_setClient, Client.view_setHandler, Client.view_setEntry]
    have hkeep : ClientMatches lid c (((s.client c).view lid).setEntry e) h.phase (h.role c) :=
      hc.setEntry hstate.symm fun _ => by simp [Client.view, he, ho₀]
    have key : ClientMatches lid c ((((s.client c).view lid).setEntry e).setHandler w
        (HandlerPc.restrict lid (.revokeWait lid false))) h.phase (h.role c) := by
      refine ⟨hkeep.state, hkeep.relQ, hkeep.relJ, hkeep.worker, ?_, hkeep.calling,
        hkeep.answered, hkeep.replies, hkeep.held⟩
      intro u hu
      by_cases huw : u = w
      · rw [huw, hph]
      · exact hkeep.handler u (by simpa [ClientView.setHandler, huw] using hu)
    have := hm.setClient key
    simpa [Handover.setRole] using this

/-- An operation on another lock that leaves the client and the worker alone. -/
theorem Matches.stutterRevoke {rep : Client τ ω × Option RStatus} (hl : l ≠ lid)
    (hw : (s.server.worker w).restrict lid = .idle)
    (hv : rep.1.view lid = (s.client c).view lid) : Follows lid b h (s.serveRevoke c w l rep) := by
  apply hm.stutter
  rw [Sys.serveRevoke]
  split
  · exact Sys.view_setClient_of_eq hv
  · have hsrv : (s.server.setWorker w (.revokeAnswered l ‹_›)).view lid = s.server.view lid := by
      apply Server.view_setWorker_of_eq
      simp [hw, hl]
    rw [Sys.view_setServer, hsrv, Sys.view_setClient_of_eq hv]
    rfl

theorem Matches.entry_of_revCall (hv : h.Valid) (hph : h.phase = .revCall w c) :
    ∃ e, (s.client c).table lid = some e := by
  have hown : h.owner = some c := by
    have hk := hv.phase
    simp only [Handover.PhaseOk, hph] at hk
    exact hk.2
  have hpos : (h.role c).Possesses := by
    rcases hv.owned c hown with hpos | hhand
    · exact hpos
    · simp [hph, Phase.Hands] at hhand
  have hst : (h.role c).Shows (entryState ((s.client c).table lid)) := (hm.client c).state
  cases he : (s.client c).table lid with
  | some e => exact ⟨e, rfl⟩
  | none =>
    rw [he] at hst
    cases hr : h.role c <;> simp [hr, Role.Possesses, Role.Shows, entryState] at hpos hst

theorem Matches.revokeHandle (hv : h.Valid) (hs : s.step (.revokeHandle w) = some s') :
    Follows lid b h s' := by
  simp only [Sys.step] at hs
  split at hs
  · rename_i l c hw
    split at hs
    · rename_i hidle
      cases hs
      by_cases hl : l = lid
      · subst hl
        have hph : h.phase = .revCall w c :=
          Phase.eq_revCall ((hm.phase_of_server hw (by simp)).trans (by simp))
        obtain ⟨e, he⟩ := hm.entry_of_revCall hv hph
        rw [Client.revokeHandler, he]
        exact hm.revokeLoop hph he rfl rfl
      · exact hm.stutterRevoke hl (by simp [hw, hl])
          (Client.view_congr (Client.slice_revokeHandler_ne hl (by simp [hidle])))
    · cases hs
  · cases hs

theorem Matches.revokeWake (hidle : ∀ l sig, (s.client c).handler w = .revokeWait l sig →
      s.server.worker w = .revokeCalling l c) (hs : s.step (.revokeWake c w) = some s') :
    Follows lid b h s' := by
  simp only [Sys.step] at hs
  split at hs
  · rename_i l sig hw
    obtain ⟨e, he, rfl⟩ := Option.map_eq_some_iff.mp hs
    by_cases hl : l = lid
    · subst hl
      have hph : h.phase = .revCall w c := (hm.client c).handler w (by
        simp [Sys.view, Client.view, hw])
      exact hm.revokeLoop hph he rfl rfl
    · exact hm.stutterRevoke hl (by simp [hidle l sig hw, hl])
        (Client.view_congr (Client.slice_revokeLoop_ne hl (by simp [hw, hl])))
  · cases hs

/-- The client at the front of the queue always accepts its retry. -/
theorem Matches.retryHandle {pick : Option τ} (hv : h.Valid)
    (hs : s.step (.retryHandle w pick) = some s') : Follows lid b h s' := by
  simp only [Sys.step] at hs
  split at hs
  · rename_i l c hw
    cases hs
    by_cases hl : l = lid
    · subst hl
      have hph : h.phase = .retCall w c :=
        Phase.eq_retCall ((hm.phase_of_server hw (by simp)).trans (by simp))
      have hc : ClientMatches l c ((s.client c).view l) h.phase (h.role c) := hm.client c
      have hsv : ServerMatches l (s.server.view l) h := hm.server
      have hr : h.role c = .queued := hv.role_of_retCall hph
      have hst : entryState ((s.client c).table l) = .ACQUIRING := by
        have := hc.state
        rwa [hr] at this
      obtain ⟨e, he, hes⟩ : ∃ e, (s.client c).table l = some e ∧ e.state = .ACQUIRING := by
        cases he : (s.client c).table l with
        | none => simp [he, entryState] at hst
        | some e => exact ⟨e, rfl, by simpa [he, entryState] using hst⟩
      refine ⟨_, Or.inr (.accept w c hph), ?_⟩
      have hrep : (s.client c).retryHandler l pick = (((s.client c).setEntry l
          { e with state := .FREE }).signalQueue l pick, .OK) := by
        simp [Client.retryHandler, he, hes]
      rw [hrep]
      dsimp only
      rw [if_pos rfl, Sys.view_setGranted, Sys.view_setServer, Sys.view_setClient,
        Server.view_setWorker, Client.view_signalQueue, Client.view_setEntry]
      apply hm.update (c := c)
      · apply hsv.unqueued
        · simp [hph, Phase.Unqueued]
        · simp [Phase.Unqueued]
        · rfl
        · rfl
        · apply hsv.moveWorker
          · intro u hu
            simp [hph, Phase.serverPc, hu.symm]
          · simp [Phase.serverPc]
      · simp [← hm.granted]
      · simp only [Function.update_self, Handover.setPhase_phase, Handover.setPhase_role,
          Handover.setGranted_role, Handover.setRole_role, if_true]
        exact hc.accept hr hph rfl
      · intro d hd
        simp [hd]
      · intro d hd
        simp [Handover.setRole_role, hd]
      · intro d _
        apply Phase.same_of_concerns <;> simp [hph, Phase.concerns]
    · have hview : ((s.setClient c ((s.client c).retryHandler l pick).1).setServer
          (s.server.setWorker w (.retryAnswered l ((s.client c).retryHandler l pick).2))).view lid =
          s.view lid := by
        have hcl := Client.view_congr (Client.slice_retryHandler_ne (c := s.client c) hl pick)
        rw [Sys.view_setServer, Sys.view_setClient_of_eq hcl,
          Server.view_setWorker_of_eq (by simp [hw, hl])]
        rfl
      apply hm.stutter
      split
      · rw [Sys.view_setGranted_ne hl, hview]
      · exact hview
  · cases hs

end YFS.Lock
