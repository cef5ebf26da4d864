import YFS.Library.Machine
import YFS.Lock.Refinement.Acquire
import YFS.Lock.Refinement.Callbacks
import YFS.Lock.Refinement.Releaser
import YFS.Lock.Refinement.Server

/-! # The lock system refines the hand-over protocol

For every lock, each step of the system is a step of the protocol of that lock or leaves
its state alone. Excluded are failed acquire calls, except where only the reply that
granted the lock was lost.
-/

namespace YFS.Lock
open YFS.Library

variable {ι τ ω : Type} [DecidableEq ι] [DecidableEq τ] [DecidableEq ω]

/-- The steps that the hand-over protocol follows: an acquire call fails only when the reply that
granted the lock is lost, and with `b` false no grant passes waiting clients. -/
def Sys.Allowed (b : Bool) (s : Sys ι τ ω) : Action ι τ ω → Prop
  | .acquireFail c t _ => ∃ l, (s.client c).thread t = .answered l .OK
  | .acquireHandle c t => ∀ l, (s.client c).thread t = .calling l →
      (s.server.lockTable l).ownerCl = none → (s.server.lockTable l).waitingCls = [] ∨ b = true
  | _ => True

/-- Every lock of the system is in a reachable state of its hand-over protocol. -/
structure Sys.Refines (b : Bool) (s : Sys ι τ ω) : Prop where
  lost : s.lost = []
  lock : ∀ lid, ∃ h : Handover ι τ ω, h.Reach b ∧ Matches lid (s.view lid) h

section Run
variable {b : Bool} {s s' : Sys ι τ ω} {a : Action ι τ ω}

theorem Sys.refines_init : (Sys.init : Sys ι τ ω).Refines b where
  lost := rfl
  lock _ := ⟨.init, .refl, Matches.init⟩

/-- A revoke handler that waits serves a call that is still under way. -/
theorem Sys.Refines.handler_calling (hr : s.Refines b) {c : ι} {w : ω} {l : ℕ} {sig : Bool}
    (hw : (s.client c).handler w = .revokeWait l sig) :
    s.server.worker w = .revokeCalling l c := by
  obtain ⟨h, -, hm⟩ := hr.lock l
  have hph : h.phase = .revCall w c := (hm.client c).handler w (by simp [Sys.view, Client.view, hw])
  have hpc : (s.server.worker w).restrict l = .revokeCalling l c := by
    rcases hm.server.worker w with hc | ⟨-, hidle⟩
    · simpa [Sys.view, Server.view, hph, Phase.serverPc] using hc
    · simp [hph, Phase.serverPc] at hidle
  cases hs : s.server.worker w <;> simp only [hs, ServerPc.restrict] at hpc <;> grind

/-- The protocol of each lock follows every allowed step. -/
theorem Matches.follow {lid : ℕ} {h : Handover ι τ ω} (hr : s.Refines b)
    (hm : Matches lid (s.view lid) h) (hv : h.Valid) (ha : s.Allowed b a)
    (hs : s.step a = some s') : Follows lid b h s' := by
  cases a with
  | acquire c t l => exact hm.acquire hs
  | acquireWake c t => exact hm.acquireWake hs
  | acquireHandle c t => exact hm.acquireHandle hv ha hs
  | acquireReturn c t => exact hm.acquireReturn hs
  | acquireFail c t f =>
    obtain ⟨l, ht⟩ := ha
    exact hm.acquireFail ht hs
  | acquireLate c l => simp [Sys.step, hr.lost] at hs
  | release c t l pt pw => exact hm.release hs
  | revokeHandle w => exact hm.revokeHandle hv hs
  | revokeWake c w => exact hm.revokeWake (fun l sig hw => hr.handler_calling hw) hs
  | retryHandle w pick => exact hm.retryHandle hv hs
  | releaser c => exact hm.releaser hs
  | releaserWake c => exact hm.releaserWake hs
  | releaserTake c w => exact hm.releaserTake hs
  | releaserRpc c w => exact hm.releaserRpc hv hs
  | tmoutWake c w => exact hm.tmoutWake hv hs
  | releaseHandle c w => exact hm.releaseHandle hv hs
  | releaseReturn c w pick => exact hm.releaseReturn hv hs
  | retryer => exact hm.retryer hv hs
  | retryerWake => exact hm.retryerWake hs
  | revoker => exact hm.revoker hv hs
  | revokerWake => exact hm.revokerWake hs
  | takeJob w => exact hm.takeJob hs
  | callOwner w => exact hm.callOwner hv hs
  | retryFinish w => exact hm.retryFinish hv hs
  | revokeFinish w => exact hm.revokeFinish hs

/-- No allowed step gives up a call that is still under way. -/
theorem Sys.Allowed.lost (ha : s.Allowed b a) (hs : s.step a = some s') (hl : s.lost = []) :
    s'.lost = [] := by
  have hrev (c : ι) (w : ω) (l : ℕ) (rep : Client τ ω × Option RStatus) :
      (s.serveRevoke c w l rep).lost = s.lost := by
    rw [Sys.serveRevoke]
    split <;> rfl
  cases a with
  | acquireFail c t f =>
    obtain ⟨l, ht⟩ := ha
    simp only [Sys.step, ht] at hs
    obtain ⟨e, -, rfl⟩ := Option.map_eq_some_iff.mp hs
    exact hl
  | acquireLate c l => simp [Sys.step, hl] at hs
  | acquireHandle c t =>
    simp only [Sys.step] at hs
    split at hs
    · cases hs
      exact (Sys.serveAcquire_lost c).trans hl
    · cases hs
  | revokeHandle w =>
    simp only [Sys.step] at hs
    split at hs
    · split at hs
      · cases hs
        exact (hrev ..).trans hl
      · cases hs
    · cases hs
  | revokeWake c w =>
    simp only [Sys.step] at hs
    split at hs
    · obtain ⟨e, -, rfl⟩ := Option.map_eq_some_iff.mp hs
      exact (hrev ..).trans hl
    · cases hs
  | retryHandle w pick =>
    simp only [Sys.step] at hs
    split at hs
    · cases hs
      split <;> exact hl
    · cases hs
  | releaseHandle c w =>
    simp only [Sys.step] at hs
    split at hs
    · cases hs
      split <;> exact hl
    · cases hs
  | acquireWake c t | acquireReturn c t | tmoutWake c w | retryFinish w | takeJob w =>
    simp only [Sys.step] at hs
    split at hs
    · obtain ⟨e, -, rfl⟩ := Option.map_eq_some_iff.mp hs
      exact hl
    · cases hs
  | releaserRpc c w | releaseReturn c w pick =>
    simp only [Sys.step] at hs
    split at hs
    · obtain ⟨e, -, hs⟩ := Option.bind_eq_some_iff.mp hs
      split at hs
      · cases hs
        exact hl
      · cases hs
    · cases hs
  | callOwner w =>
    obtain ⟨srv, -, rfl⟩ := Option.map_eq_some_iff.mp hs
    exact hl
  | _ =>
    simp only [Sys.step] at hs
    split at hs
    · cases hs
      exact hl
    · cases hs

theorem Sys.Refines.step (hr : s.Refines b) (ha : s.Allowed b a) (hs : s.step a = some s') :
    s'.Refines b where
  lost := ha.lost hs hr.lost
  lock lid := by
    obtain ⟨h, hh, hm⟩ := hr.lock lid
    obtain ⟨h', hstep, hm'⟩ := hm.follow hr hh.valid ha hs
    rcases hstep with rfl | hstep
    · exact ⟨h', hh, hm'⟩
    · exact ⟨h', hh.tail hstep, hm'⟩

/-- Along allowed steps the lock system refines the hand-over protocol of every lock. -/
theorem refines_run {acts : List (Action ι τ ω)}
    (ha : (lockSystem ι τ ω).Along (Sys.Allowed b) (lockSystem ι τ ω).init acts)
    (hrun : (lockSystem ι τ ω).run acts = some s) : s.Refines b :=
  ha.invariant (fun _ _ _ hr ha hs => hr.step ha hs) Sys.refines_init hrun

/-- A thread that holds a lock is the recorded owner in a client that has the lock. -/
theorem Matches.of_held {lid : ℕ} {h : Handover ι τ ω} (hm : Matches lid (s.view lid) h) {c : ι}
    {t : τ} (ht : (s.client c).held t lid = true) : h.role c = .holding ∧
      ∃ e, (s.client c).table lid = some e ∧ e.owner = some t := by
  obtain ⟨e, he, hst, hown⟩ := (hm.client c).held t ht
  refine ⟨?_, e, he, hown⟩
  have hshow := (hm.client c).state
  rw [he, entryState, Option.elim_some, hst] at hshow
  cases hr : h.role c <;> simp [hr, Role.Shows] at hshow ⊢

end Run

end YFS.Lock
