import YFS.Rpc.Cancel.Shutdown

/-! # More threads in `cancel` than calls

Each call makes one signal when it leaves, which wakes one thread.
-/

namespace YFS.Rpc
open YFS.Library YFS.Library.Condition

namespace Shutdown
section Stranded
variable {ι κ : Type*} [Fintype ι] [Fintype κ] {s t : Shutdown ι κ}

/-- More threads are blocked in `cancel` than calls are registered. -/
def Stranded (s : Shutdown ι κ) : Prop :=
  placed s.rpcc.pc .waiting < placed s.cancel (.wait false)

/-- The wait of `cancel` only ends with a signal. -/
def Signalled (s : Shutdown ι κ) : ShutdownEvent ι κ → Prop
  | .cancelWake x => s.cancel x = .wait true
  | _ => True

instance : Decidable s.Stranded := inferInstanceAs (Decidable (_ < _))

variable [DecidableEq ι] [DecidableEq κ]

instance : (e : ShutdownEvent ι κ) → Decidable (s.Signalled e)
  | .cancelWake x => inferInstanceAs (Decidable (s.cancel x = .wait true))
  | .call1 _ _ | .bound _ | .gotPdu _ | .sent _ | .test _ | .wake _ _ _ | .expire _ | .leave _ _
  | .ret _ | .cancel _ => isTrue trivial

omit [DecidableEq ι] in
theorem Stranded.awaitEmpty (h : s.Stranded) {x : κ} (hx : s.cancel x ≠ .wait false) :
    (s.awaitEmpty x).Stranded := by
  have hcount := placed_update s.cancel x
    (if s.rpcc.calls.entries.isEmpty then .returned else .wait false) (.wait false)
  rw [if_neg hx] at hcount
  rw [Stranded] at h
  rw [Stranded, Shutdown.awaitEmpty]
  dsimp only
  omega

theorem Stranded.step (hd : s.rpcc.destroyWait = true) (h : s.Stranded) {e : ShutdownEvent ι κ}
    (hc : s.Signalled e) (hst : s.step e = some t) : t.Stranded := by
  cases moves_of_step hst with
  | @call1 k proc c hcall =>
    obtain ⟨hidle, hcall⟩ := Option.ite_none_right_eq_some.mp hcall
    obtain ⟨ret, hret⟩ := Callers.refuses_of_destroyWait hd proc
    rw [hret] at hcall
    cases hcall
    rw [Stranded, placed_update_of_ne (by simp [hidle]) (by simp)]
    exact h
  | bound hbound =>
    cases hbound
    exact h
  | gotPdu hpdu =>
    obtain ⟨⟨hpc, -⟩, -⟩ := Callers.step_gotPdu hpdu
    rw [Stranded, hpc]
    exact h
  | sent | test | wake | expire => exact h
  | @leave k pick c _ hleave =>
    obtain ⟨hk, hleave⟩ := Option.ite_none_right_eq_some.mp hleave
    cases hleave
    have hcalls := placed_update s.rpcc.pc k .left .waiting
    have hcancel : placed s.cancel (.wait false) ≤
        placed (signal CancelPc.wait s.cancel pick) (.wait false) + 1 :=
      placed_le_signal pick (CancelPc.wait false)
    rw [Stranded] at h
    rw [if_pos hk, if_neg (by simp)] at hcalls
    rw [Stranded, hd, if_pos rfl]
    dsimp only
    omega
  | ret hret =>
    obtain ⟨hk, hret⟩ := Option.ite_none_right_eq_some.mp hret
    cases hret
    rw [Stranded, placed_update_of_ne (by simp [hk]) (by simp)]
    exact h
  | cancel hx => exact Stranded.awaitEmpty (s := s.mark) h (by simp [mark, hx])
  | cancelWake => exact h.awaitEmpty (by simp [show s.cancel _ = .wait true from hc])

end Stranded
end Shutdown

/-- When more threads are blocked in `cancel` than calls are registered, some thread is blocked
there at every later time, for as long as no wait ends without a signal. -/
theorem cancel_strands {ι κ : Type*} [Fintype ι] [DecidableEq ι] [Fintype κ] [DecidableEq κ]
    (cltNonce : ℕ) {s t : Shutdown ι κ} {fs : List (ShutdownEvent ι κ)}
    (hd : s.rpcc.destroyWait = true) (hs : s.Stranded)
    (hfs : (shutdown ι κ cltNonce).Along Shutdown.Signalled s fs)
    (hrun : (shutdown ι κ cltNonce).runFrom s fs = some t) : ∃ x, t.cancel x = .wait false := by
  obtain ⟨-, ht⟩ := hfs.invariant (I := fun s => s.rpcc.destroyWait = true ∧ s.Stranded)
    (fun _ _ _ h hc hst => ⟨Shutdown.destroyWait_step h.1 hst, h.2.step h.1 hc hst⟩) ⟨hd, hs⟩ hrun
  exact placed_pos_iff.mp (Nat.zero_lt_of_lt ht)

/-- Two threads cancel one call, whose signal lets one of them return. -/
theorem cancel_strands_second :
    ∃ s t, (shutdown (Fin 1) (Fin 2) 0).run
        [.call1 0 rpcBind, .cancel 0, .cancel 1] = some s ∧
      (shutdown (Fin 1) (Fin 2) 0).runFrom s
        [.sent 0, .test 0, .leave 0 (some 0), .cancelWake 0] = some t ∧
      ∃ x, t.cancel x = .wait false := by
  obtain ⟨s, hrun, hd, hs, hfs, hnext⟩ := Machine.exists_run_of_any
    (m := shutdown (Fin 1) (Fin 2) 0)
    (p := fun s => s.rpcc.destroyWait = true ∧ s.Stranded ∧
      (shutdown (Fin 1) (Fin 2) 0).Along Shutdown.Signalled s
        [.sent 0, .test 0, .leave 0 (some 0), .cancelWake 0] ∧
      ((shutdown (Fin 1) (Fin 2) 0).runFrom s
        [.sent 0, .test 0, .leave 0 (some 0), .cancelWake 0]).isSome = true)
    [.call1 0 rpcBind, .cancel 0, .cancel 1] (by decide +kernel)
  obtain ⟨t, ht⟩ := Option.isSome_iff_exists.mp hnext
  exact ⟨s, t, hrun, ht, cancel_strands 0 hd hs hfs ht⟩

end YFS.Rpc
