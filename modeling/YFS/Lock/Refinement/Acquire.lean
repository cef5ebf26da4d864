import YFS.Lock.Refinement.Matches

/-! # The hand-over protocol follows the threads of a client -/

namespace YFS.Lock

variable {ι τ ω : Type} [DecidableEq ι] [DecidableEq τ] [DecidableEq ω]
variable {lid l : ℕ} {b : Bool} {s s' : Sys ι τ ω} {h : Handover ι τ ω} {c : ι} {cl : Client τ ω}
  {t : τ} {w : ω} {r : Role τ ω}
  (hm : Matches lid (s.view lid) h)
include hm

theorem Matches.acquire (hs : s.step (.acquire c t l) = some s') : Follows lid b h s' := by
  simp only [Sys.step] at hs
  split at hs
  · rename_i ht
    cases hs
    by_cases hl : l = lid
    · subst hl
      exact hm.followAsk ((hm.client c).view_acquire ht)
    · exact hm.stutterClient (Client.view_congr (Client.slice_acquire_ne hl (by simp [ht])))
  · cases hs

theorem Matches.acquireWake (hs : s.step (.acquireWake c t) = some s') : Follows lid b h s' := by
  simp only [Sys.step] at hs
  split at hs
  · rename_i l sig ht
    obtain ⟨e, he, rfl⟩ := Option.map_eq_some_iff.mp hs
    by_cases hl : l = lid
    · subst hl
      apply hm.followAsk (t := t)
      apply (hm.client c).view_retryWait
      · simp [Free, Client.view, ht]
      · simp [entryState, he]
      · simp [he]
    · exact hm.stutterClient (Client.view_congr (Client.slice_retryWait_ne hl (by simp [ht, hl])))
  · cases hs

/-- The call of thread `t` comes back with what the server answered, or fails after a grant. -/
theorem Matches.acquireBack {e : CacheLock τ} {ret : Status} {res : CallResult}
    (ht : (s.client c).thread t = .answered l ret) (he : (s.client c).table l = some e)
    (hres : res = .returned ret ∨ ret = .OK ∧ res ≠ .returned .RETRY) :
    Follows lid b h (s.setClient c ((s.client c).acquireReturn t l e res)) := by
  by_cases hl : l = lid
  · subst hl
    have hc := hm.client c
    have hpc : ((s.client c).thread t).restrict l = .answered l ret := by simp [ht]
    rw [Client.acquireReturn]
    split
    · rename_i hretry
      have hrt : ret = .RETRY := by
        rcases hres with rfl | ⟨-, hne⟩
        · simpa using hretry
        · exact absurd hretry hne
      subst hrt
      apply hm.followAsk (t := t)
      apply hc.view_retryWait
      · simp [Free, Client.view, ht]
      · simp [entryState, he]
      · simp [he]
    · rename_i hretry
      have hok : ret = .OK := by
        rcases hres with rfl | ⟨hok, -⟩
        · rcases hc.replies t ret hpc with hok | hrt
          · exact hok
          · exact absurd (by rw [hrt]) hretry
        · exact hok
      subst hok
      have hr : h.role c = .answered t := (hc.answered t).mp hpc
      exact hm.followClient (hc.view_grant (Or.inr hr)) (Or.inr (.hold c t hr))
  · exact hm.stutterClient (Client.view_congr (Client.slice_acquireReturn_ne hl (by simp [ht, hl])))

theorem Matches.acquireReturn (hs : s.step (.acquireReturn c t) = some s') :
    Follows lid b h s' := by
  simp only [Sys.step] at hs
  split at hs
  · rename_i l ret ht
    obtain ⟨e, he, rfl⟩ := Option.map_eq_some_iff.mp hs
    exact hm.acquireBack ht he (Or.inl rfl)
  · cases hs

theorem Matches.acquireFail {f : RpcFailure} (ht : (s.client c).thread t = .answered l .OK)
    (hs : s.step (.acquireFail c t f) = some s') : Follows lid b h s' := by
  simp only [Sys.step, ht] at hs
  obtain ⟨e, he, rfl⟩ := Option.map_eq_some_iff.mp hs
  exact hm.acquireBack ht he (Or.inr ⟨rfl, by simp⟩)

theorem Matches.release {pt : Option τ} {pw : Option ω}
    (hs : s.step (.release c t l pt pw) = some s') : Follows lid b h s' := by
  simp only [Sys.step] at hs
  split at hs
  · cases hs
    by_cases hl : l = lid
    · subst hl
      have hc : ClientMatches l c ((s.client c).view l) h.phase (h.role c) := hm.client c
      apply hm.followClient (r := h.role c) _ (Or.inl rfl)
      rw [Client.release]
      split
      · rw [Client.view_setHeld]
        exact hc.drop
      · rename_i e he
        split
        · rename_i hown
          have hr : h.role c = .holding := by
            have hst := hc.state
            rw [Client.view, entryState, he, Option.elim_some, hown.1] at hst
            cases hrole : h.role c <;> simp [hrole, Role.Shows] at hst ⊢
          have key : ClientMatches l c ((((s.client c).setHeld t l false).setEntry l
              { e with state := .FREE }).view l) h.phase (h.role c) := by
            rw [Client.view_setEntry, Client.view_setHeld]
            refine ⟨?_, hc.relQ, hc.relJ, hc.worker, hc.handler, hc.calling, hc.answered,
              hc.replies, ?_⟩
            · rw [hr]
              exact Or.inl rfl
            · intro u hu
              have hut : u ≠ t := by
                rintro rfl
                simp [ClientView.setEntry, ClientView.setHeld] at hu
              obtain ⟨e₁, he₁, -, hown₁⟩ := hc.held u
                (by simpa [ClientView.setEntry, ClientView.setHeld, hut] using hu)
              have hee : e₁ = e := Option.some.inj (he₁.symm.trans he)
              rw [hee, hown.2, Option.some.injEq] at hown₁
              exact absurd hown₁.symm hut
          dsimp only
          split
          · rwa [Client.view_signalTmout]
          · split
            · rwa [Client.view_signalRevoke]
            · rwa [Client.view_signalQueue]
        · rw [Client.view_setHeld]
          exact hc.drop
    · exact hm.stutterClient (Client.view_congr (Client.slice_release_ne hl pt pw))
  · cases hs

/-- A grant may pass waiting clients only if `b` allows it. -/
theorem Matches.acquireHandle (hv : h.Valid)
    (hb : ∀ l, (s.client c).thread t = .calling l → (s.server.lockTable l).ownerCl = none →
      (s.server.lockTable l).waitingCls = [] ∨ b = true)
    (hs : s.step (.acquireHandle c t) = some s') : Follows lid b h s' := by
  simp only [Sys.step] at hs
  split at hs
  · rename_i l ht
    cases hs
    by_cases hl : l = lid
    · subst hl
      have hc : ClientMatches l c ((s.client c).view l) h.phase (h.role c) := hm.client c
      have hr : h.role c = .asking t := (hc.calling t).mp (by simp [Client.view, ht])
      have hown : (s.server.lockTable l).ownerCl = h.owner := hm.server.owner
      have hwait : (s.server.lockTable l).waitingCls = h.waiting := hm.server.waiting
      have hsame (d : ι) : h.phase.Same l d h.phase :=
        ⟨Iff.rfl, Iff.rfl, fun _ => rfl, fun _ => id⟩
      have hans {ret : Status} {q : Phase ι ω} {r' : Role τ ω}
          (hret : ret = .OK ∧ r' = .answered t ∨ ret = .RETRY ∧ r' = .queued)
          (hq : h.phase.Same l c q) : ClientMatches l c
            (((s.client c).setThread t (.answered l ret)).view l) q r' := by
        rw [Client.view_setThread, ThreadPc.restrict_answered, if_pos rfl]
        exact (hc.answer hr hret).setPhase hq
      cases ho : (s.server.lockTable l).ownerCl with
      | none =>
        refine ⟨h.grantTo c t, Or.inr (.grant c t hr (hown ▸ ho) (hwait ▸ hb l ht ho)), ?_⟩
        rw [Sys.serveAcquire_free ho]
        dsimp only
        rw [Sys.view_setClient, Sys.view_setGranted, Sys.view_setServer, Server.view_setLock]
        apply hm.update (c := c)
        · exact ⟨rfl, hwait, hm.server.revQ, hm.server.revJ, hm.server.retQ, hm.server.retJ,
            hm.server.worker⟩
        · simp [Handover.grantTo, ← hm.granted]
        · simpa [Handover.grantTo, Handover.setRole_role] using
            hans (Or.inl ⟨rfl, rfl⟩) (hsame c)
        · intro d hd
          simp [hd]
        · intro d hd
          simp [Handover.grantTo, Handover.setRole_role, hd]
        · exact fun d _ => hsame d
      | some o =>
        have ho' : h.owner ≠ none := by simp [← hown, ho]
        rw [Sys.serveAcquire_taken ho]
        dsimp only
        by_cases hw : h.waiting = []
        · have hidle := hv.idle_of_empty hw
          refine ⟨_, Or.inr (.first c t hr ho' hw), ?_⟩
          rw [hwait, hw, List.length_nil, if_pos rfl, Sys.view_setClient, Sys.view_setServer,
            Server.view_setLock, Server.view_askRevoker]
          have hsame' (d : ι) : h.phase.Same l d .revQ := by
            apply Phase.same_of_concerns <;> simp [hidle, Phase.concerns]
          apply hm.update (c := c)
          · have hsv : ServerMatches l (s.server.view l) h := hm.server
            refine ⟨hown, rfl, ?_, ?_, ?_, ?_, ?_⟩
            · simpa [hidle] using hsv.revQ
            · simpa [hidle] using hsv.revJ
            · simpa [hidle] using hsv.retQ
            · simpa [hidle] using hsv.retJ
            · simpa [hidle, Phase.serverPc] using hsv.worker
          · exact hm.granted
          · simpa [Handover.setRole_role] using hans (Or.inr ⟨rfl, rfl⟩) (hsame' c)
          · intro d hd
            simp [hd]
          · intro d hd
            simp [Handover.setRole_role, hd]
          · exact fun d _ => hsame' d
        · refine ⟨_, Or.inr (.queue c t hr ho' hw), ?_⟩
          have hlen : (s.server.lockTable l).waitingCls.length ≠ 0 := by simpa [hwait] using hw
          rw [if_neg hlen, Sys.view_setClient, Sys.view_setServer, Server.view_setLock]
          apply hm.update (c := c)
          · exact ⟨hown, by simp [hwait], hm.server.revQ, hm.server.revJ, hm.server.retQ,
              hm.server.retJ, hm.server.worker⟩
          · exact hm.granted
          · simpa [Handover.setRole_role] using hans (Or.inr ⟨rfl, rfl⟩) (hsame c)
          · intro d hd
            simp [hd]
          · intro d hd
            simp [Handover.setRole_role, hd]
          · exact fun d _ => hsame d
    · apply hm.stutter
      rw [Sys.view_setClient_of_eq, Sys.view_serveAcquire_ne hl]
      rw [Sys.serveAcquire_client, Client.view_setThread_of_eq]
      simp [ht, hl]
  · cases hs

end YFS.Lock
