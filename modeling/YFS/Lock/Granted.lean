import YFS.Lock.Refinement.Run

/-! # A held lock was granted

`acquire` turns every result of its RPC except `RETRY` into `OK`, a failure of the RPC
included. Where a failed call had been granted by the server that is harmless.
-/

namespace YFS.Lock
open YFS.Library

variable {ι τ ω : Type} [DecidableEq ι] [DecidableEq τ] [DecidableEq ω]

/-- An acquire call fails only after the server has answered it with `OK`. -/
def Sys.failsGranted (s : Sys ι τ ω) : Action ι τ ω → Bool
  | .acquireFail c t _ =>
    match (s.client c).thread t with
    | .answered _ .OK => true
    | _ => false
  | _ => true

omit [DecidableEq ι] [DecidableEq τ] [DecidableEq ω] in
theorem Sys.allowed_of_failsGranted {s : Sys ι τ ω} {a : Action ι τ ω}
    (hf : s.failsGranted a = true) : s.Allowed true a := by
  cases a with
  | acquireFail c t f =>
    simp only [Sys.failsGranted] at hf
    split at hf
    · exact ⟨_, ‹_›⟩
    · cases hf
  | acquireHandle c t => exact fun _ _ _ => Or.inr rfl
  | _ => trivial

/-- In every run in which acquire calls fail only after a grant, a thread that has returned from
`acquire` does so on a lock that the server has granted to its client and not got back. -/
theorem held_was_granted {acts : List (Action ι τ ω)} {s : Sys ι τ ω}
    (hc : (lockSystem ι τ ω).Along (fun s a => s.failsGranted a = true)
      (lockSystem ι τ ω).init acts)
    (hrun : (lockSystem ι τ ω).run acts = some s) (c : ι) (t : τ) (lid : ℕ)
    (ht : (s.client c).held t lid = true) : s.granted c lid = true := by
  have hallowed : (lockSystem ι τ ω).Along (Sys.Allowed true) (lockSystem ι τ ω).init acts :=
    hc.imp (I := fun _ => True) (fun _ _ _ _ _ _ => trivial)
      (fun _ _ _ hca => Sys.allowed_of_failsGranted hca) trivial
  obtain ⟨h, hh, hm⟩ := (refines_run hallowed hrun).lock lid
  have hrole := (hm.of_held ht).1
  have hgrant := hh.valid.granted c (by simp [hrole, Role.Possesses])
  rw [← hm.granted] at hgrant
  exact hgrant

/-- The reply that grants lock 7 is lost and the call times out. -/
theorem held_was_granted_reply_lost :
    (lockSystem (Fin 2) (Fin 1) (Fin 1)).Along (fun s a => s.failsGranted a = true)
      (lockSystem (Fin 2) (Fin 1) (Fin 1)).init
      [.acquire 0 0 7, .acquireHandle 0 0, .acquireFail 0 0 .timeout] ∧
    ∃ s, (lockSystem (Fin 2) (Fin 1) (Fin 1)).run
      [.acquire 0 0 7, .acquireHandle 0 0, .acquireFail 0 0 .timeout] = some s ∧
      (s.client 0).held 0 7 = true ∧ s.granted 0 7 = true := by
  have hc : (lockSystem (Fin 2) (Fin 1) (Fin 1)).Along (fun s a => s.failsGranted a = true)
      (lockSystem (Fin 2) (Fin 1) (Fin 1)).init
      [.acquire 0 0 7, .acquireHandle 0 0, .acquireFail 0 0 .timeout] := by decide
  exact ⟨hc, _, rfl, rfl, held_was_granted hc rfl 0 0 7 rfl⟩

/-- Client 0 holds lock 7, client 1's call times out before it reaches the server, and its
`acquire` returns as if it had been granted. -/
theorem held_ungranted :
    ∃ s, (lockSystem (Fin 2) (Fin 1) (Fin 1)).run
      [.acquire 0 0 7, .acquireHandle 0 0, .acquireReturn 0 0, .acquire 1 0 7,
        .acquireFail 1 0 .timeout] = some s ∧
      (s.client 1).held 0 7 = true ∧ s.granted 1 7 = false ∧
      (s.server.lockTable 7).ownerCl = some 0 :=
  ⟨_, rfl, rfl, rfl, rfl⟩

end YFS.Lock
