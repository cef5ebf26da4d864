import YFS.Lock.Refinement.Run

/-! # Mutual exclusion

After a release the server has no owner for the lock until its retryer has had its turn.
An acquire that is handled in that gap is granted although other clients wait, and the
retryer then hands the lock to the first of them as well. Runs without such a grant keep
the lock with one thread.
-/

namespace YFS.Lock
open YFS.Library

variable {ι τ ω : Type} [DecidableEq ι] [DecidableEq τ] [DecidableEq ω]

/-- Every RPC runs its handler once and returns the handler's result. -/
def Action.reliable : Action ι τ ω → Bool
  | .acquireFail _ _ _ => false
  | _ => true

def Sys.barges (s : Sys ι τ ω) : Action ι τ ω → Bool
  | .acquireHandle c t =>
    match (s.client c).thread t with
    | .calling l =>
      (s.server.lockTable l).ownerCl.isNone && !(s.server.lockTable l).waitingCls.isEmpty
    | _ => false
  | _ => false

omit [DecidableEq ι] [DecidableEq τ] [DecidableEq ω] in
theorem Sys.allowed_of_not_barges {s : Sys ι τ ω} {a : Action ι τ ω} (hr : a.reliable = true)
    (hb : s.barges a = false) : s.Allowed false a := by
  cases a with
  | acquireFail c t f => cases hr
  | acquireHandle c t =>
    intro l ht ho
    left
    simpa [Sys.barges, ht, ho] using hb
  | _ => trivial

/-- In every run in which no grant passes waiting clients, at most one thread of all clients
holds a lock. -/
theorem mutual_exclusion {acts : List (Action ι τ ω)} {s : Sys ι τ ω}
    (hc : (lockSystem ι τ ω).Along (fun s a => a.reliable = true ∧ s.barges a = false)
      (lockSystem ι τ ω).init acts)
    (hrun : (lockSystem ι τ ω).run acts = some s) (lid : ℕ) {c d : ι} {t u : τ}
    (ht : (s.client c).held t lid = true) (hu : (s.client d).held u lid = true) :
    c = d ∧ t = u := by
  have hallowed : (lockSystem ι τ ω).Along (Sys.Allowed false) (lockSystem ι τ ω).init acts :=
    hc.imp (I := fun _ => True) (fun _ _ _ _ _ _ => trivial)
      (fun _ _ _ hca => Sys.allowed_of_not_barges hca.1 hca.2) trivial
  obtain ⟨h, hh, hm⟩ := (refines_run hallowed hrun).lock lid
  obtain ⟨hrc, e, he, howne⟩ := hm.of_held ht
  obtain ⟨hrd, f, hf, hownf⟩ := hm.of_held hu
  have hcd : c = d := hh.unique (by simp [hrc, Role.Possesses]) (by simp [hrd, Role.Possesses])
  subst hcd
  rw [he, Option.some.injEq] at hf
  rw [hf, hownf, Option.some.injEq] at howne
  exact ⟨rfl, howne.symm⟩

section Runs

def fetch (c : Fin 3) : List (Action (Fin 3) (Fin 1) (Fin 1)) :=
  [.acquire c 0 7, .acquireHandle c 0, .acquireReturn c 0]

/-- Client 1 asks for lock 7 while client 0 has it; client 0 is revoked and releases to the
server, up to the point where the server has no owner and has not woken the retryer. -/
def handBack : List (Action (Fin 3) (Fin 1) (Fin 1)) :=
  fetch 0 ++ fetch 1 ++ [.release 0 0 7 none none, .revoker, .takeJob 0, .callOwner 0,
    .revokeHandle 0, .revokeFinish 0, .releaser 0, .releaserTake 0 0, .releaserRpc 0 0,
    .releaseHandle 0 0]

def handOn : List (Action (Fin 3) (Fin 1) (Fin 1)) :=
  [.retryer, .takeJob 0, .callOwner 0, .retryHandle 0 (some 0), .acquireWake 1 0]

/-- A complete hand-over from client 0 to client 1. -/
theorem mutual_exclusion_handed_over :
    (lockSystem (Fin 3) (Fin 1) (Fin 1)).Along
      (fun s a => a.reliable = true ∧ s.barges a = false)
      (lockSystem (Fin 3) (Fin 1) (Fin 1)).init (handBack ++ handOn) ∧
    ∃ s, (lockSystem (Fin 3) (Fin 1) (Fin 1)).run (handBack ++ handOn) = some s ∧
      (s.client 1).held 0 7 = true ∧
      ∀ d u, (s.client d).held u 7 = true → 1 = d ∧ 0 = u := by
  have hc : (lockSystem (Fin 3) (Fin 1) (Fin 1)).Along
      (fun s a => a.reliable = true ∧ s.barges a = false)
      (lockSystem (Fin 3) (Fin 1) (Fin 1)).init (handBack ++ handOn) := by decide
  exact ⟨hc, _, rfl, rfl, fun d u hu => mutual_exclusion hc rfl 7 rfl hu⟩

/-- Client 2 acquires in the gap and client 1 is handed the lock as well. All RPCs are reliable
and the server's pool is never full. -/
theorem two_holders :
    (lockSystem (Fin 3) (Fin 1) (Fin 1)).Along
      (fun s a => a.reliable = true ∧ s.server.jobs.length < poolCapacity)
      (lockSystem (Fin 3) (Fin 1) (Fin 1)).init (handBack ++ fetch 2 ++ handOn) ∧
    ∃ s, (lockSystem (Fin 3) (Fin 1) (Fin 1)).run (handBack ++ fetch 2 ++ handOn) = some s ∧
      (s.client 1).held 0 7 = true ∧ (s.client 2).held 0 7 = true :=
  ⟨by decide, _, rfl, rfl, rfl⟩

end Runs
end YFS.Lock
