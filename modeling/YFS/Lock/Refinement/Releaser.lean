import YFS.Lock.Refinement.Matches

/-! # The hand-over protocol follows the releaser of a client -/

namespace YFS.Lock

variable {ι τ ω : Type} [DecidableEq ι] [DecidableEq τ] [DecidableEq ω]
variable {lid l : ℕ} {b : Bool} {s s' : Sys ι τ ω} {h : Handover ι τ ω} {c : ι} {cl : Client τ ω}
  {t : τ} {w : ω} {r : Role τ ω}
  (hm : Matches lid (s.view lid) h)
include hm

theorem Matches.releaser (hs : s.step (.releaser c) = some s') : Follows lid b h s' := by
  simp only [Sys.step] at hs
  split at hs
  · cases hs
    by_cases hq : (s.client c).releaserQueue.head? = some lid
    · have hc : ClientMatches lid c ((s.client c).view lid) h.phase (h.role c) := hm.client c
      obtain ⟨q, hlq⟩ := List.head?_eq_some_iff.mp hq
      have hcount := hc.relQ
      simp only [Client.view, hlq] at hcount
      obtain ⟨hph, hq₀⟩ := eq_of_count_cons hcount
      have hj₀ : (s.client c).jobs.count lid = 0 := by
        simpa [Client.view, hph] using hc.relJ
      obtain ⟨p, hp, hj⟩ := exists_addObjJob hj₀ (a := (.relJ c : Phase ι ω)) (b := .relLost c)
        (by simp)
      have hturn : (s.client c).releaserTurn.view lid = { (s.client c).view lid with
          relQ := 0, relJ := (addObjJob (s.client c).jobs lid).count lid } := by
        ext <;> simp [Client.releaserTurn, hlq, Client.view, hq₀]
      apply hm.followRelease (q := p) (r := h.role c)
      · simp [hph, Phase.AtClient]
      · rcases hp with rfl | rfl <;> rfl
      · rw [hturn]
        have hw₀ := hc.worker
        have hh₀ := hc.handler
        refine ⟨hc.state, ?_, hj, ?_, ?_, hc.calling, hc.answered, hc.replies, hc.held⟩
        · rcases hp with rfl | rfl <;> simp
        · rcases hp with rfl | rfl <;> simpa [hph, Phase.releaserPc] using hw₀
        · rcases hp with rfl | rfl <;> simpa [hph] using hh₀
      · simpa [Handover.setRole] using Handover.Step.relJob c p hph hp
    · exact hm.stutterClient (Client.view_congr (Client.slice_releaserTurn_ne hq))
  · cases hs

theorem Matches.releaserWake (hs : s.step (.releaserWake c) = some s') : Follows lid b h s' := by
  simp only [Sys.step] at hs
  split at hs
  · cases hs
    exact hm.stutterClient (Client.view_releaser _)
  · cases hs

theorem Matches.releaserTake (hs : s.step (.releaserTake c w) = some s') : Follows lid b h s' := by
  simp only [Sys.step] at hs
  split at hs
  · rename_i l js hw hjobs
    cases hs
    by_cases hl : l = lid
    · subst hl
      have hc : ClientMatches l c ((s.client c).view l) h.phase (h.role c) := hm.client c
      have hcount := hc.relJ
      simp only [Client.view, hjobs] at hcount
      obtain ⟨hph, hj₀⟩ := eq_of_count_cons hcount
      have hleave : h.role c ≠ .leaving w := by
        intro hr
        simpa [Client.view, hw, hr] using hc.worker w
      apply hm.followRelease (q := .relRun c w) (r := h.role c)
      · simp [hph, Phase.AtClient]
      · rfl
      · rw [Client.view_setWorker]
        have hw₀ := hc.worker
        have hh₀ := hc.handler
        have hq₀ := hc.relQ
        refine ⟨hc.state, ?_, ?_, ?_, ?_, hc.calling, hc.answered, hc.replies, hc.held⟩
        · simpa [ClientView.setWorker, Client.view, hph] using hq₀
        · simpa [ClientView.setWorker, Client.view] using hj₀
        · intro u
          by_cases hu : u = w
          · simp [ClientView.setWorker, Phase.releaserPc, hu, hleave]
          · have hu' : w ≠ u := fun hwu => hu hwu.symm
            simpa [ClientView.setWorker, Client.view, Phase.releaserPc, hph, hu, hu'] using hw₀ u
        · simpa [ClientView.setWorker, Client.view, hph] using hh₀
      · have hstep : Handover.Step b h (h.setPhase (.relRun c w)) := .relTake c w hph
        simpa [Handover.setRole] using hstep
    · exact hm.stutterClient (Client.view_congr (Client.slice_take_ne hl hjobs hw))
  · cases hs

/-- A worker that starts on the release, or waits before sending it, moves on with the phase. -/
theorem Matches.relWorker {e : CacheLock τ} {q : Phase ι ω} {pc : ReleaserPc}
    (hph : h.phase = .relRun c w ∨ h.phase = .relTimed c w)
    (hq : q = .relTimed c w ∨ q = .relCall c w) (hpc : pc.restrict lid = q.releaserPc lid c w)
    (hlock : entryState ((s.client c).table lid) ≠ .LOCKED)
    (hr : h.role c = .releasing ∨ h.role c = .holding) (hr' : r = .releasing ∨ r = .holding)
    (hshow : r.Shows e.state) (hstep : Handover.Step b h ((h.setRole c r).setPhase q)) :
    Follows lid b h (s.setClient c (((s.client c).setEntry lid e).setWorker w pc)) := by
  have hc : ClientMatches lid c ((s.client c).view lid) h.phase (h.role c) := hm.client c
  apply hm.followRelease (q := q) (r := r) _ _ _ hstep
  · rcases hph with hph | hph <;> simp [hph, Phase.AtClient]
  · rcases hq with rfl | rfl <;> rfl
  · rw [Client.view_setWorker, Client.view_setEntry]
    apply hc.become
    · rfl
    · rfl
    · rcases hr with hr | hr <;> simp [hr]
    · rcases hr' with rfl | rfl <;> simp
    · exact hlock
    · exact hshow
    · have := hc.relQ
      rcases hph with hph | hph <;> rcases hq with rfl | rfl <;>
        simpa [hph, ClientView.setWorker, ClientView.setEntry] using this
    · have := hc.relJ
      rcases hph with hph | hph <;> rcases hq with rfl | rfl <;>
        simpa [hph, ClientView.setWorker, ClientView.setEntry] using this
    · intro u
      have hnl (v : ω) : r ≠ .leaving v := by rcases hr' with rfl | rfl <;> simp
      rw [if_neg (hnl u)]
      by_cases hu : u = w
      · subst hu
        simpa [ClientView.setWorker] using hpc
      · have hu' : w ≠ u := fun hwu => hu hwu.symm
        have hwu := hc.worker u
        rcases hr with hr | hr <;> rcases hph with hph | hph <;> rcases hq with rfl | rfl <;>
          simpa [ClientView.setWorker, ClientView.setEntry, hu, hu', hr, hph, Phase.releaserPc]
            using hwu
    · intro u hu
      have := hc.handler u hu
      rcases hph with hph | hph <;> simp [hph] at this

theorem Matches.phase_of_worker {pc : ReleaserPc} (hw : (s.client c).worker w = pc)
    (hpc : ∀ ret, pc.restrict lid ≠ .answered lid ret) :
    h.phase.releaserPc lid c w = pc.restrict lid := by
  have hc := (hm.client c).worker w
  change ((s.client c).worker w).restrict lid = _ at hc
  rw [hw] at hc
  by_cases hr : h.role c = .leaving w
  · rw [if_pos hr] at hc
    exact absurd hc (hpc .OK)
  · rw [if_neg hr] at hc
    exact hc.symm

theorem Matches.releaserRpc (hv : h.Valid) (hs : s.step (.releaserRpc c w) = some s') :
    Follows lid b h s' := by
  simp only [Sys.step] at hs
  split at hs
  · rename_i l hw
    obtain ⟨e, he, hs⟩ := Option.bind_eq_some_iff.mp hs
    split at hs
    · rename_i hrel
      cases hs
      by_cases hl : l = lid
      · subst hl
        have hph : h.phase = .relRun c w :=
          Phase.eq_relRun ((hm.phase_of_worker hw (by simp)).trans (by simp))
        have hr := hv.role_of_relRun hph
        have hlock : entryState ((s.client c).table l) ≠ .LOCKED := by
          simp [entryState, he, hrel]
        rw [Client.releaserRpc]
        split
        · exact hm.relWorker (Or.inl hph) (Or.inl rfl) (by simp [Phase.releaserPc]) hlock
            (Or.inl hr) (Or.inr rfl) (Or.inl rfl) (.relWait c w hph)
        · exact hm.relWorker (Or.inl hph) (Or.inr rfl) (by simp [Phase.releaserPc]) hlock
            (Or.inl hr) (Or.inl rfl) rfl (.relCall c w (Or.inl hph))
      · apply hm.stutterClient
        exact Client.view_congr (Client.slice_releaserRpc_ne hl (by simp [hw, hl]))
    · cases hs
  · cases hs

theorem Matches.tmoutWake (hv : h.Valid) (hs : s.step (.tmoutWake c w) = some s') :
    Follows lid b h s' := by
  simp only [Sys.step] at hs
  split at hs
  · rename_i l sig hw
    obtain ⟨e, he, rfl⟩ := Option.map_eq_some_iff.mp hs
    by_cases hl : l = lid
    · subst hl
      have hph : h.phase = .relTimed c w :=
        Phase.eq_relTimed ((hm.phase_of_worker hw (by simp)).trans (by simp))
      have hr := hv.role_of_relTimed hph
      rw [Client.tmoutWake]
      split
      · rename_i hfree
        exact hm.relWorker (Or.inr hph) (Or.inr rfl) (by simp [Phase.releaserPc])
          (by simp [entryState, he, hfree]) (Or.inr hr) (Or.inl rfl) rfl
          (.relCall c w (Or.inr hph))
      · have hc : ClientMatches l c ((s.client c).view l) h.phase (h.role c) := hm.client c
        apply hm.followClient (r := h.role c) _ (Or.inl rfl)
        rw [Client.view_setWorker_of_eq (by simp [hw]), Client.view_setEntry]
        exact hc.setEntry (by simp [Client.view, he, entryState]) fun _ => by simp [Client.view, he]
    · exact hm.stutterClient (Client.view_congr (Client.slice_tmoutWake_ne hl (by simp [hw, hl])))
  · cases hs

theorem Matches.releaseHandle (hv : h.Valid) (hs : s.step (.releaseHandle c w) = some s') :
    Follows lid b h s' := by
  simp only [Sys.step] at hs
  split at hs
  · rename_i l hw
    cases hs
    by_cases hl : l = lid
    · subst hl
      have hph : h.phase = .relCall c w :=
        Phase.eq_relCall ((hm.phase_of_worker hw (by simp)).trans (by simp))
      have hr : h.role c = .releasing := by
        rw [hv.releasing c, hph]
        rfl
      have hc : ClientMatches l c ((s.client c).view l) h.phase (h.role c) := hm.client c
      have hsv : ServerMatches l (s.server.view l) h := hm.server
      have hown : (s.server.lockTable l).ownerCl = some c := by
        have hk := hv.phase
        simp only [Handover.PhaseOk, hph] at hk
        exact hsv.owner.trans hk.2
      refine ⟨_, Or.inr (.released c w hph), ?_⟩
      set freed := s.server.setLock l { s.server.lockTable l with ownerCl := none } with hfreed
      have hrel : s.server.release l c = (.OK, { freed with
          retryerQueue := freed.retryerQueue ++ [l], retryer := s.server.retryer.signal }) := by
        rw [Server.release, if_pos hown]
        rfl
      rw [hrel]
      dsimp only
      rw [if_pos rfl, Sys.view_setGranted, Sys.view_setClient, Sys.view_setServer,
        Server.view_pushRetry, hfreed, Server.view_setLock]
      apply hm.update (c := c)
      · refine ⟨rfl, hsv.waiting, ?_, ?_, ?_, ?_, ?_⟩
        · simpa [hph] using hsv.revQ
        · simpa [hph] using hsv.revJ
        · simpa [hph] using hsv.retQ
        · simpa [hph] using hsv.retJ
        · simpa [hph, Phase.serverPc] using hsv.worker
      · simp [← hm.granted, Sys.view]
      · simp only [Function.update_self, Handover.setPhase_phase, Handover.setPhase_role,
          Handover.setGranted_role, Handover.setRole_role, if_true]
        rw [Client.view_setWorker, ReleaserPc.restrict_answered, if_pos rfl]
        exact hc.leave hr hph
      · intro d hd
        simp [hd, Sys.view]
      · intro d hd
        simp [Handover.setRole_role, hd]
      · intro d hd
        apply Phase.same_of_concerns <;> simp [hph, Phase.concerns, hd.symm]
    · have hview : ((s.setServer (s.server.release l c).2).setClient c
          ((s.client c).setWorker w (.answered l (s.server.release l c).1))).view lid =
          s.view lid := by
        rw [Sys.view_setClient_of_eq, Sys.view_setServer_of_eq (Server.view_release_ne hl c)]
        exact Client.view_setWorker_of_eq (by simp [hw, hl])
      apply hm.stutter
      split
      · rw [Sys.view_setGranted_ne hl, hview]
      · exact hview
  · cases hs

theorem Matches.releaseReturn {pick : Option τ} (hv : h.Valid)
    (hs : s.step (.releaseReturn c w pick) = some s') : Follows lid b h s' := by
  simp only [Sys.step] at hs
  split at hs
  · rename_i l ret hw
    obtain ⟨e, he, hs⟩ := Option.bind_eq_some_iff.mp hs
    split at hs
    · rename_i hrel
      cases hs
      by_cases hl : l = lid
      · subst hl
        have hc : ClientMatches l c ((s.client c).view l) h.phase (h.role c) := hm.client c
        have hw₀ := hc.worker w
        change ((s.client c).worker w).restrict l = _ at hw₀
        rw [hw, ReleaserPc.restrict_answered, if_pos rfl] at hw₀
        have hr : h.role c = .leaving w := by
          by_contra hne
          rw [if_neg hne] at hw₀
          exact Phase.ne_answered ret hw₀.symm
        have hret : ret = .OK := by simpa [hr] using hw₀
        have hstate : entryState ((s.client c).table l) = .RELEASING := by
          simp [entryState, he, hrel]
        apply hm.followClient (r := .out) _ (Or.inr (.left c w hr))
        rw [Client.releaseReturn, if_pos hret]
        have key : ClientMatches l c ((((s.client c).setEntry l
            { e with owner := none, state := .NONE }).setWorker w .idle).view l) h.phase .out := by
          rw [Client.view_setWorker, Client.view_setEntry]
          apply hc.become
          · rfl
          · rfl
          · simp [hr]
          · simp
          · simp [Client.view, hstate]
          · rfl
          · exact hc.relQ
          · exact hc.relJ
          · intro u
            have hidle := hv.releaserPc_of_leaving l hr u
            have hwu := hc.worker u
            by_cases hu : u = w
            · simp [ClientView.setWorker, hu, hu ▸ hidle]
            · have hu' : w ≠ u := fun hwu => hu hwu.symm
              simpa [ClientView.setWorker, ClientView.setEntry, hu, hu', hr] using hwu
          · exact hc.handler
        dsimp only
        split
        · rwa [Client.view_signalQueue]
        · exact key
      · apply hm.stutterClient
        exact Client.view_congr (Client.slice_releaseReturn_ne hl pick (by simp [hw, hl]))
    · cases hs
  · cases hs

end YFS.Lock
