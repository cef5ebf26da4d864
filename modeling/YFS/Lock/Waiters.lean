import YFS.Lock.Counted

/-! # Threads that wait beside a free lock

Every routine that makes a lock `FREE` or `NONE` signals one of the three condition
variables of its entry, except `releaser_rpc`: where threads wait it sets the lock free
to let them go first and wakes none of them. In all runs without that a thread is on its
way whenever one waits beside a lock it could have.
-/

namespace YFS.Lock
open YFS.Library YFS.Library.Condition

variable {τ ω : Type} [DecidableEq τ] [DecidableEq ω]

namespace Client

def Blocked (cl : Client τ ω) (lid : ℕ) : Prop := Waits (.queueWait lid) cl.thread

/-- A thread that waits on one of the three condition variables of the lock has been signalled
and has not run. -/
def Stirs (cl : Client τ ω) (lid : ℕ) : Prop :=
  Roused (.queueWait lid) cl.thread ∨ Roused (.revokeWait lid) cl.handler ∨
    Roused (.tmoutWait lid) cl.worker

/-- No thread waits beside a lock it could have, unless some thread is on its way. -/
def Attended (cl : Client τ ω) (lid : ℕ) : Prop :=
  ∀ e, cl.table lid = some e → e.state = .FREE ∨ e.state = .NONE → cl.Blocked lid → cl.Stirs lid

/-- The signal of `release`, on whichever condition variable, reaches a thread. -/
def ReleaseReaches (cl : Client τ ω) (lid : ℕ) (pt : Option τ) (pw : Option ω) : Prop :=
  ∀ e ∈ cl.table lid,
    if e.iftimout ∨ (e.ifrlsreq ∧ e.waitThreads = 0) then Reaches (.tmoutWait lid) cl.worker pw
    else if e.ifrevoke then Reaches (.revokeWait lid) cl.handler pw
    else Reaches (.queueWait lid) cl.thread pt

end Client

/-- Every signal reaches a thread that is blocked on its condition variable, if there is one. -/
def Cache.Delivers (s : Cache τ ω) : CacheEvent τ ω → Prop
  | .release _ lid pt pw => s.client.ReleaseReaches lid pt pw
  | .retry lid pick => Reaches (.queueWait lid) s.client.thread pick
  | .releaseReturn w _ pick => ∀ lid, s.client.worker w = .calling lid →
      Reaches (.queueWait lid) s.client.thread pick
  | _ => True

/-- `releaser_rpc` sets a lock free beside waiting threads only while some thread is on its way. -/
def Cache.Considerate (s : Cache τ ω) : CacheEvent τ ω → Prop
  | .releaserRpc w => ∀ lid e, s.client.worker w = .start lid → s.client.table lid = some e →
      e.state = .RELEASING → 0 < e.waitThreads → s.client.Blocked lid → s.client.Stirs lid
  | _ => True

namespace Client
variable {cl cl' : Client τ ω} {lid : ℕ} {t : τ} {w : ω} {e e' : CacheLock τ}

/-- The flags of an entry are set only while somebody waits for the signal they choose. -/
structure Flagged (cl : Client τ ω) (lid : ℕ) (e : CacheLock τ) : Prop where
  revoke : e.ifrevoke = true → Waits (.revokeWait lid) cl.handler
  tmout : e.iftimout = true ∨ e.ifrlsreq = true → Waits (.tmoutWait lid) cl.worker

/-- What holds in every run. Beside `NONE` it must be a thread in `acquire` that is on its way:
the others go on waiting when they find the lock like that. -/
structure Minded (cl : Client τ ω) (lid : ℕ) (e : CacheLock τ) : Prop extends
    Flagged cl lid e where
  none : e.state = .NONE → cl.Blocked lid → Roused (.queueWait lid) cl.thread
  free : e.state = .FREE → cl.Blocked lid → cl.Stirs lid

def Watched (cl : Client τ ω) (lid : ℕ) : Prop := ∀ e, cl.table lid = some e → cl.Minded lid e

section
omit [DecidableEq τ] [DecidableEq ω]

theorem Watched.attended (hw : cl.Watched lid) : cl.Attended lid := by
  rintro e he (hst | hst) hb
  · exact (hw e he).free hst hb
  · exact Or.inl ((hw e he).none hst hb)

theorem Minded.watched (hm : cl.Minded lid e) (he : cl.table lid = some e) : cl.Watched lid := by
  intro e' he'
  rw [he, Option.some.injEq] at he'
  exact he' ▸ hm

/-- Nothing is asked of the waiting threads while the lock is neither `FREE` nor `NONE`. -/
theorem Flagged.busy (hf : cl.Flagged lid e) (hfree : e.state ≠ .FREE) (hnone : e.state ≠ .NONE) :
    cl.Minded lid e where
  __ := hf
  none h := absurd h hnone
  free h := absurd h hfree

/-- Other positions than those on the condition variables do not matter. -/
theorem Watched.congr (hw : cl.Watched lid) (htab : cl'.table lid = cl.table lid)
    (ht : ∀ u sig, cl'.thread u = .queueWait lid sig ↔ cl.thread u = .queueWait lid sig)
    (hh : ∀ w sig, cl'.handler w = .revokeWait lid sig ↔ cl.handler w = .revokeWait lid sig)
    (hk : ∀ w sig, cl'.worker w = .tmoutWait lid sig ↔ cl.worker w = .tmoutWait lid sig) :
    cl'.Watched lid := by
  intro e he
  have hm := hw e (htab.symm.trans he)
  have hb : cl'.Blocked lid ↔ cl.Blocked lid := exists₂_congr ht
  refine ⟨⟨fun h => ?_, fun h => ?_⟩, fun hst hbl => ?_, fun hst hbl => ?_⟩
  · exact (exists₂_congr hh).mpr (hm.revoke h)
  · exact (exists₂_congr hk).mpr (hm.tmout h)
  · exact (exists_congr fun u => ht u true).mpr (hm.none hst (hb.mp hbl))
  · rcases hm.free hst (hb.mp hbl) with h | h | h
    · exact Or.inl ((exists_congr fun u => ht u true).mpr h)
    · exact Or.inr (Or.inl ((exists_congr fun v => hh v true).mpr h))
    · exact Or.inr (Or.inr ((exists_congr fun v => hk v true).mpr h))

theorem Watched.of_slice (hw : cl.Watched lid) (hs : cl'.slice lid = cl.slice lid) :
    cl'.Watched lid := by
  apply hw.congr
  · exact congrArg ClientView.entry hs
  · intro u sig
    have hu : (cl'.thread u).only lid = (cl.thread u).only lid :=
      congrFun (congrArg ClientView.thread hs) u
    rw [← ThreadPc.only_eq_iff rfl, hu, ThreadPc.only_eq_iff rfl]
  · intro v sig
    have hv : (cl'.handler v).only lid = (cl.handler v).only lid :=
      congrFun (congrArg ClientView.handler hs) v
    rw [← HandlerPc.only_eq_iff rfl, hv, HandlerPc.only_eq_iff rfl]
  · intro v sig
    have hv : (cl'.worker v).only lid = (cl.worker v).only lid :=
      congrFun (congrArg ClientView.worker hs) v
    rw [← ReleaserPc.only_eq_iff rfl, hv, ReleaserPc.only_eq_iff rfl]

end

section Operations

section
omit [DecidableEq ω]

theorem Flagged.watched_grant (hf : cl.Flagged lid e) : (cl.grant t lid e).Watched lid := by
  apply Minded.watched (e := { e with
    state := .LOCKED, owner := some t, waitThreads := e.waitThreads - 1 })
  · exact Flagged.busy ⟨hf.revoke, hf.tmout⟩ (by simp) (by simp)
  · simp [grant, setHeld, setThread, setEntry]

theorem Flagged.watched_startCall (hf : cl.Flagged lid e) : (cl.startCall t lid e).Watched lid := by
  apply Minded.watched (e := { e with state := .ACQUIRING })
  · exact Flagged.busy ⟨hf.revoke, hf.tmout⟩ (by simp) (by simp)
  · simp [startCall, setThread, setEntry]

theorem Flagged.watched_retryWait (hf : cl.Flagged lid e) : (cl.retryWait t lid e).Watched lid := by
  rw [retryWait]
  split
  · exact hf.watched_grant
  · exact hf.watched_startCall
  · rename_i hfree hnone
    apply Minded.watched (e := e)
    · exact Flagged.busy ⟨hf.revoke, hf.tmout⟩ hfree hnone
    · simp [setThread, setEntry]

theorem Watched.acquire (hw : cl.Watched lid) : (cl.acquire t lid).Watched lid := by
  have hf : cl.Flagged lid { (cl.table lid).getD .new with
      waitThreads := ((cl.table lid).getD .new).waitThreads + 1 } := by
    cases he : cl.table lid with
    | none => exact ⟨fun h => (by cases h), fun h => (by rcases h with h | h <;> cases h)⟩
    | some e => exact ⟨(hw e he).revoke, (hw e he).tmout⟩
  simp only [Client.acquire]
  split
  · split
    · exact hf.watched_grant
    · exact hf.watched_retryWait
  · exact hf.watched_retryWait
  · exact hf.watched_retryWait
  · exact hf.watched_startCall
  · exact hf.watched_grant

theorem Watched.acquireReturn {res : CallResult} (hw : cl.Watched lid)
    (he : cl.table lid = some e) : (cl.acquireReturn t lid e res).Watched lid := by
  rw [Client.acquireReturn]
  split
  · exact (hw e he).watched_retryWait
  · exact (hw e he).watched_grant

end

/-- The lock becomes free and the condition variable that the flags choose is signalled. -/
theorem Watched.release {pt : Option τ} {pw : Option ω} (hw : cl.Watched lid)
    (hr : cl.ReleaseReaches lid pt pw) : (cl.release t lid pt pw).2.Watched lid := by
  have hheld : (cl.setHeld t lid false).Watched lid :=
    hw.congr rfl (fun _ _ => Iff.rfl) (fun _ _ => Iff.rfl) (fun _ _ => Iff.rfl)
  rw [Client.release]
  split
  · exact hheld
  · rename_i e he
    have hm := hw e he
    have hr := hr e he
    split
    · dsimp only
      apply Minded.watched (e := { e with state := .FREE })
      · split
        · rename_i hflag
          rw [if_pos hflag] at hr
          have hwait := hm.tmout (hflag.imp_right And.left)
          rw [signalTmout_eq]
          refine ⟨⟨hm.revoke, fun _ => (waits_signal pw).mpr hwait⟩, fun h => (by cases h), ?_⟩
          exact fun _ _ => Or.inr (Or.inr (roused_signal hr hwait))
        · rename_i hflag
          rw [if_neg hflag] at hr
          split
          · rename_i hrev
            rw [if_pos hrev] at hr
            have hwait := hm.revoke hrev
            rw [signalRevoke_eq]
            refine ⟨⟨fun _ => (waits_signal pw).mpr hwait, hm.tmout⟩, fun h => (by cases h), ?_⟩
            exact fun _ _ => Or.inr (Or.inl (roused_signal hr hwait))
          · rename_i hrev
            rw [if_neg hrev] at hr
            rw [signalQueue_eq]
            refine ⟨⟨hm.revoke, hm.tmout⟩, fun h => (by cases h), fun _ hb => ?_⟩
            exact Or.inl (roused_signal hr ((waits_signal pt).mp hb))
      · rw [signalTmout_eq, signalRevoke_eq, signalQueue_eq]
        split
        · simp [setEntry, setHeld]
        · split <;> simp [setEntry, setHeld]
    · exact hheld

omit [DecidableEq τ] in
theorem Minded.revokeLoop (hm : cl.Minded lid e) (b : Bool) :
    (cl.revokeLoop w lid { e with ifrevoke := b }).1.Watched lid := by
  rw [Client.revokeLoop]
  split
  · apply Minded.watched (e := { e with ifrevoke := false, state := .RELEASING })
    · exact Flagged.busy ⟨fun h => (by cases h), hm.tmout⟩ (by simp) (by simp)
    · simp [pushRelease, setHandler, setEntry]
  · rename_i hfree
    apply Minded.watched (e := { e with ifrevoke := b })
    · refine ⟨⟨fun _ => ⟨w, false, by simp [setHandler]⟩, hm.tmout⟩, hm.none, fun h => ?_⟩
      exact absurd h hfree
    · simp [setHandler, setEntry]

omit [DecidableEq τ] in
theorem Watched.revokeHandler (hw : cl.Watched lid) : (cl.revokeHandler w lid).1.Watched lid := by
  rw [Client.revokeHandler]
  split
  · exact hw
  · rename_i e he
    exact (hw e he).revokeLoop true

omit [DecidableEq ω] in
theorem Watched.retryHandler {pick : Option τ} (hw : cl.Watched lid)
    (hr : Reaches (.queueWait lid) cl.thread pick) : (cl.retryHandler lid pick).1.Watched lid := by
  rw [Client.retryHandler]
  split
  · exact hw
  · rename_i e he
    split
    · rw [signalQueue_eq]
      apply Minded.watched (e := { e with state := .FREE })
      · refine ⟨⟨(hw e he).revoke, (hw e he).tmout⟩, fun h => (by cases h), fun _ hb => ?_⟩
        exact Or.inl (roused_signal hr ((waits_signal pick).mp hb))
      · simp [setEntry]
    · exact hw

omit [DecidableEq τ] in
theorem watched_sendRelease (hrev : e.ifrevoke = true → Waits (.revokeWait lid) cl.handler) :
    (cl.sendRelease w lid e).Watched lid := by
  apply Minded.watched (e := { e with iftimout := false, ifrlsreq := false, state := .RELEASING })
  · exact Flagged.busy ⟨hrev, fun h => (by rcases h with h | h <;> cases h)⟩ (by simp) (by simp)
  · simp [sendRelease, setWorker, setEntry]

omit [DecidableEq τ] in
/-- The one place where a lock becomes free and nobody is signalled. -/
theorem Minded.releaserRpc (hm : cl.Minded lid e) (hstart : cl.worker w = .start lid)
    (hs : 0 < e.waitThreads → cl.Blocked lid → cl.Stirs lid) :
    (cl.releaserRpc w lid e).Watched lid := by
  rw [Client.releaserRpc]
  split
  · rename_i hwait
    apply Minded.watched (e := { e with state := .FREE, ifrlsreq := true })
    · refine ⟨⟨hm.revoke, fun _ => ⟨w, false, by simp [setWorker]⟩⟩, fun h => (by cases h), ?_⟩
      intro _ hb
      refine (hs hwait hb).imp_right (Or.imp_right fun h => ?_)
      exact (roused_update (by simp [setEntry, hstart]) (by simp)).mpr h
    · simp [setWorker, setEntry]
  · exact watched_sendRelease hm.revoke

omit [DecidableEq τ] in
theorem Minded.tmoutWake (hm : cl.Minded lid e) : (cl.tmoutWake w lid e).Watched lid := by
  rw [Client.tmoutWake]
  split
  · exact watched_sendRelease hm.revoke
  · rename_i hfree
    apply Minded.watched (e := { e with iftimout := true })
    · refine ⟨⟨hm.revoke, fun _ => ⟨w, false, by simp [setWorker]⟩⟩, hm.none, fun h => ?_⟩
      exact absurd h hfree
    · simp [setWorker, setEntry]

/-- The lock is gone, and a thread that waits for it asks again. -/
theorem Watched.releaseReturn {ret : Status} {pick : Option τ} (hw : cl.Watched lid)
    (he : cl.table lid = some e) (hcall : cl.worker w = .calling lid)
    (hr : Reaches (.queueWait lid) cl.thread pick) (hn : cl.Blocked lid → 0 < e.waitThreads) :
    (cl.releaseReturn w lid e ret pick).Watched lid := by
  have hm := hw e he
  have hkeep : Waits (.tmoutWait lid) (Function.update cl.worker w .idle) ↔
      Waits (.tmoutWait lid) cl.worker := waits_update (by simp [hcall]) (by simp)
  rw [Client.releaseReturn]
  split
  · dsimp only
    apply Minded.watched (e := { e with owner := none, state := .NONE })
    · split
      · rw [signalQueue_eq]
        refine ⟨⟨hm.revoke, fun h => hkeep.mpr (hm.tmout h)⟩, fun _ hb => ?_, fun h => (by cases h)⟩
        exact roused_signal hr ((waits_signal pick).mp hb)
      · rename_i hnone
        refine ⟨⟨hm.revoke, fun h => hkeep.mpr (hm.tmout h)⟩, fun _ hb => ?_, fun h => (by cases h)⟩
        exact absurd (hn hb) hnone
    · rw [signalQueue_eq]
      split <;> simp [setWorker, setEntry]
  · exact hw.congr rfl (fun _ _ => Iff.rfl) (fun _ _ => Iff.rfl)
      (update_eq_wait_iff (by simp [hcall]) (by simp))

end Operations
end Client

omit [DecidableEq τ] [DecidableEq ω] in
theorem ClientView.Counted.pos_of_blocked {cl : Client τ ω} {lid : ℕ} {e : CacheLock τ}
    (hc : (cl.view lid).Counted) (he : cl.table lid = some e) (hb : cl.Blocked lid) :
    0 < e.waitThreads := by
  obtain ⟨S, hS, hn⟩ := hc
  obtain ⟨t, sig, ht⟩ := hb
  have htS : t ∈ S := (hS t).mpr (by simp [Client.view, ht])
  have hcard := Finset.card_pos.mpr ⟨t, htS⟩
  simp only [Client.view, he, Option.elim_some] at hn
  omega

section Run
variable {s s' : Cache τ ω} {ev : CacheEvent τ ω}

structure Cache.AllWatched (s : Cache τ ω) : Prop where
  watched : ∀ lid, s.client.Watched lid
  counted : s.Counted

theorem Cache.AllWatched.step (hi : s.AllWatched) (hd : s.Delivers ev) (hc : s.Considerate ev)
    (h : s.step ev = some s') : s'.AllWatched := by
  refine ⟨fun lid => ?_, hi.counted.step h⟩
  have hw := hi.watched lid
  rcases same_or_moves h lid with hsame | hm
  · exact hw.of_slice hsame.1
  · cases hm with
    | acquire t ht => exact hw.acquire
    | acquireWake ht he => exact (hw _ he).watched_retryWait
    | answer ret ht hret =>
      exact hw.congr rfl (update_eq_wait_iff (by simp [ht]) (by simp)) (fun _ _ => Iff.rfl)
        (fun _ _ => Iff.rfl)
    | answerRetry ht =>
      exact hw.congr rfl (update_eq_wait_iff (by simp [ht]) (by simp)) (fun _ _ => Iff.rfl)
        (fun _ _ => Iff.rfl)
    | acquireReturn res ht he => exact hw.acquireReturn he
    | release t pt pw ht => exact hw.release hd
    | revoke w hidle => exact hw.revokeHandler
    | @revokeWake w sig e hwait he => exact (hw e he).revokeLoop e.ifrevoke
    | retry pick => exact hw.retryHandler hd
    | releaser hawake hq =>
      apply hw.congr
      · simp [setClient, Client.releaserTurn, hq]
      all_goals simp [setClient, Client.releaserTurn, hq]
    | releaserTake hidle hj =>
      exact hw.congr rfl (fun _ _ => Iff.rfl) (fun _ _ => Iff.rfl)
        (update_eq_wait_iff (by simp [hidle]) (by simp))
    | releaserRpc hstart he hst =>
      exact (hw _ he).releaserRpc hstart (hc lid _ hstart he hst)
    | tmoutWake hwait he => exact (hw _ he).tmoutWake
    | releaseReturn res pick hcall he hst =>
      exact hw.releaseReturn he hcall (hd lid hcall) ((hi.counted lid).pos_of_blocked he)

omit [DecidableEq τ] [DecidableEq ω] in
theorem Cache.allWatched_init : (Cache.init : Cache τ ω).AllWatched :=
  ⟨fun _ e he => (by cases he), Cache.counted_init⟩

/-- Only `releaser_rpc` can leave a thread asleep, and the state it leaves shows it. -/
theorem Cache.considerate_of_attended
    (h : ∀ s', s.step ev = some s' → ∀ lid, s'.client.Attended lid) : s.Considerate ev := by
  cases ev with
  | releaserRpc w =>
    intro lid e hstart he hst hwait hb
    have hstep : s.step (.releaserRpc w) = some (s.setClient (s.client.releaserRpc w lid e)) := by
      simp [step, hstart, he, hst]
    have hrpc : s.client.releaserRpc w lid e = (s.client.setEntry lid
        { e with state := .FREE, ifrlsreq := true }).setWorker w (.tmoutWait lid false) := by
      rw [Client.releaserRpc, if_pos hwait]
    rw [hrpc] at hstep
    have hstirs := h _ hstep lid { e with state := .FREE, ifrlsreq := true }
      (by simp [setClient, Client.setWorker, Client.setEntry]) (Or.inl rfl) hb
    refine hstirs.imp_right (Or.imp_right fun hr => ?_)
    exact (roused_update (by simp [hstart]) (by simp)).mp hr
  | _ => trivial

end Run

/-- Where signals are delivered, no thread is ever left waiting beside a lock it could have if and
only if `releaser_rpc` never sets a lock free beside threads of which none is on its way. -/
theorem attended_iff {evs : List (CacheEvent τ ω)}
    (hd : (cacheSystem τ ω).Along Cache.Delivers (cacheSystem τ ω).init evs) :
    (cacheSystem τ ω).Throughout (fun s => ∀ lid, s.client.Attended lid)
        (cacheSystem τ ω).init evs ↔
      (cacheSystem τ ω).Along Cache.Considerate (cacheSystem τ ω).init evs :=
  hd.throughout_iff (I := Cache.AllWatched) (fun _ hi lid => (hi.watched lid).attended)
    (fun _ _ _ hi hd hc h => hi.step hd hc h) (fun _ _ _ _ h => Cache.considerate_of_attended h)
    Cache.allWatched_init

section Example

instance [Fintype τ] [Fintype ω] (cl : Client τ ω) (lid : ℕ) : Decidable (cl.Stirs lid) :=
  inferInstanceAs (Decidable (_ ∨ _ ∨ _))

instance [Fintype τ] [Fintype ω] (cl : Client τ ω) (lid : ℕ) (pt : Option τ) (pw : Option ω) :
    Decidable (cl.ReleaseReaches lid pt pw) :=
  inferInstanceAs (Decidable (∀ e ∈ cl.table lid, ite _ _ _))

instance [Fintype τ] [Fintype ω] (s : Cache τ ω) : (ev : CacheEvent τ ω) → Decidable (s.Delivers ev)
  | .release _ lid pt pw => inferInstanceAs (Decidable (s.client.ReleaseReaches lid pt pw))
  | .retry _ _ => inferInstanceAs (Decidable (Reaches _ _ _))
  | .releaseReturn w _ pick =>
    match h : s.client.worker w with
    | .calling lid => decidable_of_iff (Reaches (.queueWait lid) s.client.thread pick)
        (by simp [Cache.Delivers, h])
    | .idle | .start _ | .tmoutWait _ _ | .answered _ _ =>
      isTrue (by simp [Cache.Delivers, h])
  | .acquire _ _ | .acquireWake _ | .answer _ _ | .acquireReturn _ _ | .revoke _ _
  | .revokeWake _ | .releaser | .releaserWake | .releaserTake _ | .releaserRpc _
  | .tmoutWake _ => isTrue trivial

/-- Thread 1 waits while lock 7 is revoked; up to the release nobody is left asleep. -/
theorem attended_iff_revokedWhileWaited :
    (cacheSystem (Fin 2) (Fin 1)).Along Cache.Delivers (cacheSystem (Fin 2) (Fin 1)).init
      revokedWhileWaited ∧
    (cacheSystem (Fin 2) (Fin 1)).Throughout (fun s => ∀ lid, s.client.Attended lid)
      (cacheSystem (Fin 2) (Fin 1)).init revokedWhileWaited := by
  have hd : (cacheSystem (Fin 2) (Fin 1)).Along Cache.Delivers (cacheSystem (Fin 2) (Fin 1)).init
      revokedWhileWaited := by decide
  refine ⟨hd, (attended_iff hd).mpr ?_⟩
  simp [Machine.Along, revokedWhileWaited, Cache.Considerate]

/-- `releaser_rpc` then finds the waiting thread, sets the lock free and goes to sleep itself. -/
theorem asleep_beside_free :
    (cacheSystem (Fin 2) (Fin 1)).Along Cache.Delivers (cacheSystem (Fin 2) (Fin 1)).init
      (revokedWhileWaited ++ [.releaserRpc 0]) ∧
    ∃ s, (cacheSystem (Fin 2) (Fin 1)).run (revokedWhileWaited ++ [.releaserRpc 0]) = some s ∧
      (∃ e, s.client.table 7 = some e ∧ e.state = .FREE) ∧
      s.client.thread 1 = .queueWait 7 false ∧ ¬ s.client.Stirs 7 ∧ ¬ s.client.Attended 7 := by
  refine ⟨by decide, _, rfl, ⟨_, rfl, rfl⟩, rfl, by decide, fun h => ?_⟩
  exact absurd (h _ rfl (Or.inl rfl) ⟨1, false, rfl⟩) (by decide)

end Example
end YFS.Lock
