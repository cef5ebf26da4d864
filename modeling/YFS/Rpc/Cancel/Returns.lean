import YFS.Rpc.Cancel.Invariant

/-! # How `cancel` comes to an end

From the time a thread waits in `cancel` on, the calls and the thread only have a bounded number of
steps to make, and one of them can be made for as long as the thread waits. The thread can be kept
waiting only by calls that do not come back from `send`.
-/

namespace YFS.Rpc
open YFS.Library YFS.Library.Condition

/-- What is left of a call: a transmission, a pass of its loop, its exit, and the signal it makes
there. -/
def LoopPos.weight : LoopPos → ℕ
  | .outside => 0
  | .transmitting => 4
  | .looping => 3
  | .wait sig => if sig then 3 else 0
  | .leaving => 2

def CancelPc.weight : CancelPc → ℕ
  | .wait sig => if sig then 1 else 0
  | _ => 0

theorem LoopPos.weight_le (p : LoopPos) : p.weight ≤ 4 := by
  rcases p with - | - | - | (- | -) | - <;> simp [weight]

theorem CancelPc.weight_le (p : CancelPc) : p.weight ≤ 1 := by
  rcases p with - | (- | -) | - <;> simp [weight]

namespace Shutdown

section Cancelling
variable {ι κ : Type*} [DecidableEq ι] [DecidableEq κ] {s : Shutdown ι κ}

omit [DecidableEq ι] [DecidableEq κ] in
theorem Inv.done_of_inside (h : s.Inv) (hd : s.rpcc.destroyWait = true) {k : ι}
    (hk : s.pos k ≠ .outside) : (s.rpcc.callers k).done = true :=
  (h.cancelled hd k (by_contra fun hne => hk ((h.inside k).mpr hne))).1

/-- A cancelled call that is not in `send` goes on. -/
theorem Inv.exists_prompted_of_pos (h : s.Inv) (hd : s.rpcc.destroyWait = true) {k : ι}
    (hk : s.rpcc.pc k = .waiting) (hsend : s.pos k ≠ .transmitting) :
    ∃ e t, (s.Delivered e ∧ s.Orderly e) ∧ s.Prompted e ∧ s.step e = some t ∧
      ∀ k, e = .sent k → ∀ j, s.rpcc.pc j = .waiting → s.pos j = .transmitting := by
  have hin : s.pos k ≠ .outside := fun hout => (h.inside k).mp hout hk
  have hdone := h.done_of_inside hd hin
  cases hpos : s.pos k with
  | outside => exact absurd hpos hin
  | transmitting => exact absurd hpos hsend
  | looping =>
    exact ⟨.test k, s.tested k (.wait false), ⟨trivial, trivial⟩, trivial, if_pos hpos, by simp⟩
  | wait sig =>
    cases sig with
    | false =>
      rw [h.blocked k hpos] at hdone
      cases hdone
    | true =>
      refine ⟨.wake k false false, s.tested k (afterWait false false), ⟨trivial, trivial⟩, hpos, ?_,
        by simp⟩
      simp [Shutdown.step, hpos]
  | leaving =>
    obtain ⟨pick, hpick⟩ := exists_reaches CancelPc.wait s.cancel
    have hsome : (s.step (.leave k pick)).isSome = true := by
      rw [Shutdown.step, if_pos hpos, Callers.step, if_pos hk]
      rfl
    obtain ⟨t, ht⟩ := Option.isSome_iff_exists.mp hsome
    exact ⟨.leave k pick, t, ⟨hpick, trivial⟩, trivial, ht, by simp⟩

/-- While a thread waits in `cancel`, some thread goes on that does not wait for a signal. It need
not be a call that returns from `send` unless all of them are there. -/
theorem Inv.exists_prompted (h : s.Inv) (hw : Waits CancelPc.wait s.cancel) :
    ∃ e t, (s.Delivered e ∧ s.Orderly e) ∧ s.Prompted e ∧ s.step e = some t ∧
      ∀ k, e = .sent k → ∀ j, s.rpcc.pc j = .waiting → s.pos j = .transmitting := by
  have hd := h.entered hw
  obtain ⟨x, sig, hx⟩ := hw
  cases sig with
  | true =>
    refine ⟨.cancelWake x, s.awaitEmpty x, ⟨trivial, trivial⟩, hx, ?_, by simp⟩
    simp only [Shutdown.step, hx]
  | false =>
    by_cases hall : ∀ j, s.rpcc.pc j = .waiting → s.pos j = .transmitting
    · obtain ⟨k, hk⟩ := h.needed x hx
      exact ⟨.sent k, _, ⟨trivial, trivial⟩, trivial, if_pos (hall k hk), fun _ _ => hall⟩
    · obtain ⟨k, hk, hpos⟩ := not_forall₂.mp hall
      exact h.exists_prompted_of_pos hd hk hpos

omit [DecidableEq κ] in
/-- While all registered calls are cancelled a reply wakes nobody. -/
theorem Inv.broadcast_found (h : s.Inv) (hd : s.rpcc.destroyWait = true) (b : Bytes) :
    broadcast s.pos (s.found b) = s.pos := by
  cases hf : s.found b with
  | none => rfl
  | some k =>
    obtain ⟨hdr, -, hlookup⟩ := Option.bind_eq_some_iff.mp hf
    have hk := ((h.exact _ k).mp hlookup).1
    have hdone := (h.cancelled hd k hk).1
    have hrouse : (s.pos k).rouse = s.pos k := by
      apply LoopPos.rouse_eq_self
      intro hblocked
      rw [h.blocked k hblocked] at hdone
      cases hdone
    rw [broadcast, hrouse, Function.update_eq_self]

omit [DecidableEq κ] in
/-- There is nobody to wake. -/
theorem Inv.mark_pos (h : s.Inv) (hnone : ∀ k, s.rpcc.pc k ≠ .waiting) : s.mark.pos = s.pos := by
  funext k
  exact if_neg fun hlisted => hnone k ((h.exact.listed_iff k).mp hlisted)

end Cancelling

section Weight
variable {ι κ : Type*} [Fintype ι] [Fintype κ] {s t : Shutdown ι κ}

def weight (s : Shutdown ι κ) : ℕ := ∑ k, (s.pos k).weight + ∑ x, (s.cancel x).weight

theorem weight_le (s : Shutdown ι κ) : s.weight ≤ 4 * Fintype.card ι + Fintype.card κ := by
  have hpos := Finset.sum_le_card_nsmul Finset.univ (fun k => (s.pos k).weight) 4
    fun k _ => (s.pos k).weight_le
  have hcancel := Finset.sum_le_card_nsmul Finset.univ (fun x => (s.cancel x).weight) 1
    fun x _ => (s.cancel x).weight_le
  rw [Finset.card_univ, smul_eq_mul] at hpos hcancel
  rw [weight]
  omega

variable [DecidableEq ι]

theorem weight_setPos (s : Shutdown ι κ) (k : ι) (p : LoopPos) :
    weight { s with pos := Function.update s.pos k p } + (s.pos k).weight =
      s.weight + p.weight := by
  have hsum := sum_update LoopPos.weight s.pos k p
  rw [weight, weight]
  dsimp only
  omega

/-- A call whose wait is over is on its way out after the test. -/
theorem weight_tested {k : ι} (hdone : (s.rpcc.callers k).done = true) (otherwise : LoopPos) :
    (s.tested k otherwise).weight + (s.pos k).weight = s.weight + 2 := by
  rw [tested, hdone]
  exact weight_setPos s k .leaving

variable [DecidableEq κ]

omit [DecidableEq ι] in
theorem weight_awaitEmpty (s : Shutdown ι κ) (x : κ) :
    (s.awaitEmpty x).weight + (s.cancel x).weight = s.weight := by
  have hsum := sum_update CancelPc.weight s.cancel x
    (if s.rpcc.calls.entries.isEmpty then .returned else .wait false)
  have hzero : CancelPc.weight
      (if s.rpcc.calls.entries.isEmpty then .returned else .wait false) = 0 := by
    split <;> rfl
  rw [weight, weight, awaitEmpty]
  dsimp only
  omega

/-- The weight of a cancelled `rpcc` falls with each step that does not have to wait, and never
rises. -/
theorem Inv.weight_step (h : s.Inv) (hd : s.rpcc.destroyWait = true) {e : ShutdownEvent ι κ}
    (hc : s.Delivered e ∧ s.Orderly e) (hst : s.step e = some t) :
    t.weight ≤ s.weight ∧ (s.Prompted e → t.weight < s.weight) := by
  cases moves_of_step hst with
  | @call1 k proc c hcall =>
    obtain ⟨-, hcall⟩ := Option.ite_none_right_eq_some.mp hcall
    obtain ⟨ret, hret⟩ := Callers.refuses_of_destroyWait hd proc
    rw [hret] at hcall
    cases hcall
    simp [weight, Prompted]
  | bound | ret => exact ⟨le_rfl, False.elim⟩
  | @gotPdu b =>
    refine ⟨?_, False.elim⟩
    rw [weight, h.broadcast_found hd b]
    exact le_rfl
  | @sent k hk =>
    have hsum := weight_setPos s k .looping
    rw [hk, LoopPos.weight, LoopPos.weight] at hsum
    exact ⟨by omega, fun _ => by omega⟩
  | @test k hk =>
    have hdone := h.done_of_inside hd (k := k) (by simp [hk])
    have hsum := weight_tested hdone (.wait false)
    rw [hk, LoopPos.weight] at hsum
    exact ⟨by omega, fun _ => by omega⟩
  | @wake k timedOut transmit sig hk =>
    have hdone := h.done_of_inside hd (k := k) (by simp [hk])
    have hsum := weight_tested hdone (afterWait timedOut transmit)
    cases sig with
    | false =>
      rw [h.blocked k hk] at hdone
      cases hdone
    | true =>
      rw [hk, LoopPos.weight, if_pos rfl] at hsum
      exact ⟨by omega, fun _ => by omega⟩
  | @expire k hk =>
    have hsum := weight_setPos s k .leaving
    rw [hk, LoopPos.weight, LoopPos.weight] at hsum
    exact ⟨by omega, fun _ => by omega⟩
  | @leave k pick c hk =>
    have hpos := sum_update LoopPos.weight s.pos k .outside
    have hcancel : ∑ x, (signal CancelPc.wait s.cancel pick x).weight ≤
        ∑ x, (s.cancel x).weight + 1 := sum_signal_le le_rfl s.cancel pick
    rw [hk, LoopPos.weight, LoopPos.weight] at hpos
    rw [weight, weight, hd]
    dsimp only
    rw [if_pos rfl]
    exact ⟨by omega, fun _ => by omega⟩
  | @cancel x =>
    have hsum := weight_awaitEmpty s.mark x
    have hnone := (h.emptied hd).resolve_left hc.2
    have hmark : s.mark.weight = s.weight := by
      rw [weight, h.mark_pos hnone]
      rfl
    exact ⟨by omega, False.elim⟩
  | @cancelWake x =>
    have hsum := weight_awaitEmpty s x
    refine ⟨by omega, fun hp => ?_⟩
    rw [show s.cancel x = .wait true from hp, CancelPc.weight, if_pos rfl] at hsum
    omega

end Weight

section Instances
variable {ι κ : Type*} [DecidableEq ι] [DecidableEq κ] (s : Shutdown ι κ)

instance [Fintype κ] : (e : ShutdownEvent ι κ) → Decidable (s.Delivered e)
  | .leave _ pick => inferInstanceAs (Decidable (Reaches CancelPc.wait s.cancel pick))
  | .call1 _ _ | .bound _ | .gotPdu _ | .sent _ | .test _ | .wake _ _ _ | .expire _ | .ret _
  | .cancel _ | .cancelWake _ => isTrue trivial

instance [Fintype ι] [Fintype κ] : (e : ShutdownEvent ι κ) → Decidable (s.Orderly e)
  | .cancel _ => inferInstanceAs (Decidable (¬ Waits CancelPc.wait s.cancel))
  | .call1 k proc => inferInstanceAs (Decidable (s.rpcc.pc k = .idle → s.rpcc.refuses proc = none →
      ∀ j, s.rpcc.pc j = .waiting → (s.rpcc.callers j).xid ≠ s.rpcc.xid))
  | .bound _ | .gotPdu _ | .sent _ | .test _ | .wake _ _ _ | .expire _ | .leave _ _ | .ret _
  | .cancelWake _ => isTrue trivial

instance : (e : ShutdownEvent ι κ) → Decidable (s.Prompted e)
  | .sent _ | .test _ | .expire _ | .leave _ _ => isTrue trivial
  | .wake k _ _ => inferInstanceAs (Decidable (s.pos k = .wait true))
  | .cancelWake x => inferInstanceAs (Decidable (s.cancel x = .wait true))
  | .call1 _ _ | .bound _ | .gotPdu _ | .ret _ | .cancel _ => isFalse id

end Instances
end Shutdown

/-- From the time a thread waits in `cancel` on, the calls that are registered then return
`cancel_failure` whatever replies come in. The threads make a bounded number of steps that need no
further signal, and can make such a step until the thread leaves `cancel`, which it does with
`calls_` empty. Only while all registered calls are in `send` is the return of a `send` the one step
they can make. -/
theorem cancel_returns {ι κ : Type*} [Fintype ι] [DecidableEq ι] [Fintype κ] [DecidableEq κ]
    (cltNonce : ℕ) {es fs : List (ShutdownEvent ι κ)} {s t : Shutdown ι κ}
    (hes : (shutdown ι κ cltNonce).Along (fun s e => s.Delivered e ∧ s.Orderly e)
      (shutdown ι κ cltNonce).init es)
    (hrun : (shutdown ι κ cltNonce).run es = some s) (hw : Waits CancelPc.wait s.cancel)
    (hfs : (shutdown ι κ cltNonce).Along (fun s e => s.Delivered e ∧ s.Orderly e) s fs)
    (hrest : (shutdown ι κ cltNonce).runFrom s fs = some t) :
    (∀ k, s.rpcc.pc k = .waiting → ∀ ret, t.rpcc.pc k = .returned ret → ret = cancelFailure) ∧
    (shutdown ι κ cltNonce).count Shutdown.Prompted s fs ≤ 4 * Fintype.card ι + Fintype.card κ ∧
    (Waits CancelPc.wait t.cancel → ∃ e u, (t.Delivered e ∧ t.Orderly e) ∧ t.Prompted e ∧
      (shutdown ι κ cltNonce).step t e = some u ∧
      ∀ k, e = .sent k → ∀ j, t.rpcc.pc j = .waiting → t.pos j = .transmitting) ∧
    (¬ Waits CancelPc.wait t.cancel → t.rpcc.calls.entries = []) := by
  have hs : s.Inv := hes.invariant Shutdown.Inv.step (Shutdown.inv_init cltNonce) hrun
  have ht : t.Inv := hfs.invariant Shutdown.Inv.step hs hrest
  have hd := hs.entered hw
  have hd' : t.rpcc.destroyWait = true :=
    hfs.invariant (I := fun s => s.rpcc.destroyWait = true)
      (fun _ _ _ h _ hst => Shutdown.destroyWait_step h hst) hd hrest
  refine ⟨fun k hk ret hret => ?_, ?_, ht.exists_prompted, fun hnone => ?_⟩
  · obtain ⟨hdone, hintret⟩ := hs.cancelled hd k hk
    have hfailing : t.rpcc.Failing k :=
      hfs.invariant (I := fun s => s.rpcc.Failing k)
        (fun _ _ _ h _ hst => Shutdown.failing_step h hst) ⟨hd, hdone, hintret, by simp [hk]⟩ hrest
    have hpc := hfailing.pc
    simpa [hret] using hpc
  · have hcount := hfs.count_le (D := Shutdown.Prompted) Shutdown.weight
      (I := fun s => s.Inv ∧ s.rpcc.destroyWait = true)
      (fun s e t hi hc hst =>
        ⟨⟨hi.1.step s e t hc hst, Shutdown.destroyWait_step hi.2 hst⟩,
          hi.1.weight_step hi.2 hc hst⟩)
      ⟨hs, hd⟩ hrest
    have hle := s.weight_le
    omega
  · exact List.isEmpty_iff.mp (ht.exact.isEmpty_iff.mpr ((ht.emptied hd').resolve_left hnone))

/-- Two calls are cancelled, one of them blocked and the other one in `send`. The first to leave
wakes the thread in `cancel` too early. -/
theorem cancel_returns_two :
    ∃ s t, (shutdown (Fin 2) (Fin 1) 0).run
        [.call1 0 rpcBind, .call1 1 rpcBind, .sent 0, .test 0, .cancel 0] = some s ∧
      Waits CancelPc.wait s.cancel ∧
      (shutdown (Fin 2) (Fin 1) 0).runFrom s [.wake 0 false false, .leave 0 (some 0),
        .cancelWake 0, .sent 1, .test 1, .leave 1 (some 0), .cancelWake 0, .ret 0, .ret 1] = some t ∧
      t.rpcc.calls.entries = [] := by
  obtain ⟨s, hrun, hw, hfs, hnext⟩ := Machine.exists_run_of_any (m := shutdown (Fin 2) (Fin 1) 0)
    (p := fun s => Waits CancelPc.wait s.cancel ∧
      (shutdown (Fin 2) (Fin 1) 0).Along (fun s e => s.Delivered e ∧ s.Orderly e) s
        [.wake 0 false false, .leave 0 (some 0), .cancelWake 0, .sent 1, .test 1, .leave 1 (some 0),
          .cancelWake 0, .ret 0, .ret 1] ∧
      ((shutdown (Fin 2) (Fin 1) 0).runFrom s [.wake 0 false false, .leave 0 (some 0),
        .cancelWake 0, .sent 1, .test 1, .leave 1 (some 0), .cancelWake 0, .ret 0, .ret 1]).any
          (fun t => decide ¬ Waits CancelPc.wait t.cancel) = true)
    [.call1 0 rpcBind, .call1 1 rpcBind, .sent 0, .test 0, .cancel 0] (by decide +kernel)
  obtain ⟨t, ht, hnone⟩ := (Option.any_eq_true _ _).mp hnext
  obtain ⟨-, -, -, hempty⟩ := cancel_returns 0 (by decide +kernel) hrun hw hfs ht
  exact ⟨s, t, hrun, hw, ht, hempty (of_decide_eq_true hnone)⟩

end YFS.Rpc
