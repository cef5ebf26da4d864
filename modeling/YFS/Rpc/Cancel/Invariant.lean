import YFS.Rpc.Cancel.Shutdown

/-! # What cancelling keeps

A registered call is in the loop of `call1`, and blocked only while it is not completed; a thread
is blocked in `cancel` only while there is a registered call, and all of those are cancelled.
-/

namespace YFS.Rpc.Shutdown
open YFS.Library YFS.Library.Condition

section Conditions
variable {ι κ : Type*}

/-- The signal of a call that leaves wakes a thread in `cancel`, if one waits. -/
def Delivered (s : Shutdown ι κ) : ShutdownEvent ι κ → Prop
  | .leave _ pick => Reaches CancelPc.wait s.cancel pick
  | _ => True

/-- Only one thread at a time is in `cancel`, and no call registers under the xid of one that is
still registered. -/
def Orderly (s : Shutdown ι κ) : ShutdownEvent ι κ → Prop
  | .cancel _ => ¬ Waits CancelPc.wait s.cancel
  | .call1 k proc => s.rpcc.Fresh (.call1 k proc)
  | _ => True

/-- A call that does not wait for a signal goes on, or a thread that has been signalled. The return
of a call from `send` is one of these steps. -/
def Prompted (s : Shutdown ι κ) : ShutdownEvent ι κ → Prop
  | .sent _ | .test _ | .expire _ | .leave _ _ => True
  | .wake k _ _ => s.pos k = .wait true
  | .cancelWake x => s.cancel x = .wait true
  | _ => False

/-- A registered call is in its loop and blocked only while it is not completed. Once a thread has
waited in `cancel`, every registered call has been cancelled, and the thread is blocked only while
there is one. -/
structure Entered (s : Shutdown ι κ) : Prop where
  exact : s.rpcc.Exact
  inside : ∀ k, s.pos k = .outside ↔ s.rpcc.pc k ≠ .waiting
  blocked : ∀ k, s.pos k = .wait false → (s.rpcc.callers k).done = false
  cancelled : s.rpcc.destroyWait = true → ∀ k, s.rpcc.pc k = .waiting →
    (s.rpcc.callers k).done = true ∧ (s.rpcc.callers k).intret = cancelFailure
  entered : Waits CancelPc.wait s.cancel → s.rpcc.destroyWait = true
  alone : ∀ x y sig sig', s.cancel x = .wait sig → s.cancel y = .wait sig' → x = y
  needed : ∀ x, s.cancel x = .wait false → ∃ k, s.rpcc.pc k = .waiting

/-- The thread does not return while there is a registered call. -/
structure Inv (s : Shutdown ι κ) : Prop extends Entered s where
  emptied : s.rpcc.destroyWait = true → Waits CancelPc.wait s.cancel ∨ ∀ k, s.rpcc.pc k ≠ .waiting

end Conditions

theorem inv_init {ι κ : Type*} [DecidableEq ι] [DecidableEq κ] (cltNonce : ℕ) :
    (shutdown ι κ cltNonce).init.Inv where
  exact x k := by simp [shutdown, callers]
  inside k := by simp [shutdown, callers]
  blocked k hk := by cases hk
  cancelled hd := by cases hd
  entered := by
    rintro ⟨x, sig, hx⟩
    cases hx
  emptied hd := by cases hd
  alone x y sig sig' hx := by cases hx
  needed x hx := by cases hx

section Calls
variable {ι κ : Type*} [DecidableEq ι] {s : Shutdown ι κ}

theorem broadcast_eq_outside_iff {pos : ι → LoopPos} {o : Option ι} (k : ι) :
    broadcast pos o k = .outside ↔ pos k = .outside := by
  cases o with
  | none => exact Iff.rfl
  | some j =>
    by_cases hkj : k = j
    · rw [hkj, broadcast, Function.update_self]
      exact LoopPos.rouse_eq_iff
    · rw [broadcast, Function.update_of_ne hkj]

theorem broadcast_blocked {pos : ι → LoopPos} {o : Option ι} {k : ι}
    (h : broadcast pos o k = .wait false) : pos k = .wait false ∧ o ≠ some k := by
  cases o with
  | none => exact ⟨h, by simp⟩
  | some j =>
    by_cases hkj : k = j
    · rw [hkj, broadcast, Function.update_self] at h
      exact absurd h (pos j).rouse_ne_blocked
    · rw [broadcast, Function.update_of_ne hkj] at h
      exact ⟨h, by simpa using Ne.symm hkj⟩

theorem Inv.setPos (h : s.Inv) {k : ι} {p : LoopPos} (hk : s.pos k ≠ .outside)
    (hp : p ≠ .outside) (hblocked : p = .wait false → (s.rpcc.callers k).done = false) :
    Inv { s with pos := Function.update s.pos k p } where
  exact := h.exact
  inside j := by
    change Function.update s.pos k p j = .outside ↔ _
    by_cases hj : j = k
    · rw [hj, Function.update_self, ← h.inside k]
      exact ⟨fun he => absurd he hp, fun he => absurd he hk⟩
    · rw [Function.update_of_ne hj]
      exact h.inside j
  blocked j hj := by
    change Function.update s.pos k p j = .wait false at hj
    by_cases hjk : j = k
    · rw [hjk, Function.update_self] at hj
      rw [hjk]
      exact hblocked hj
    · rw [Function.update_of_ne hjk] at hj
      exact h.blocked j hj
  cancelled := h.cancelled
  entered := h.entered
  emptied := h.emptied
  alone := h.alone
  needed := h.needed

theorem Inv.tested (h : s.Inv) {k : ι} {otherwise : LoopPos} (hk : s.pos k ≠ .outside)
    (hp : otherwise ≠ .outside) : (s.tested k otherwise).Inv := by
  rw [Shutdown.tested]
  cases hdone : (s.rpcc.callers k).done with
  | true => exact h.setPos hk (by simp) (by simp)
  | false => exact h.setPos hk hp fun _ => hdone

/-- A call moves between places at which it is not registered. -/
theorem update_pc_iff {pc : ι → CallPc} {k : ι} {p : CallPc} (hk : pc k ≠ .waiting)
    (hp : p ≠ .waiting) (j : ι) : Function.update pc k p j = .waiting ↔ pc j = .waiting := by
  by_cases hj : j = k
  · rw [hj, Function.update_self]
    exact ⟨fun he => absurd he hp, fun he => absurd he hk⟩
  · rw [Function.update_of_ne hj]

omit [DecidableEq ι] in
/-- Nothing changes for the calls that are registered. -/
theorem Inv.setRpcc (h : s.Inv) {c : Callers ι} (hexact : c.Exact)
    (hd : c.destroyWait = s.rpcc.destroyWait) (hcallers : c.callers = s.rpcc.callers)
    (hpc : ∀ j, c.pc j = .waiting ↔ s.rpcc.pc j = .waiting) : Inv { s with rpcc := c } where
  exact := hexact
  inside j := (h.inside j).trans (not_congr (hpc j)).symm
  blocked j hj := by
    change (c.callers j).done = false
    rw [hcallers]
    exact h.blocked j hj
  cancelled hd' j hj := by
    change (c.callers j).done = true ∧ (c.callers j).intret = cancelFailure
    rw [hcallers]
    exact h.cancelled (hd.symm.trans hd') j ((hpc j).mp hj)
  entered hw := hd.trans (h.entered hw)
  emptied hd' :=
    (h.emptied (hd.symm.trans hd')).imp_right fun hnone j hj => hnone j ((hpc j).mp hj)
  alone := h.alone
  needed x hx := (h.needed x hx).imp fun j hj => (hpc j).mpr hj

theorem Inv.call1 (h : s.Inv) {k : ι} {proc : ℕ} (hfresh : s.rpcc.Fresh (.call1 k proc))
    {c : Callers ι} (hc : s.rpcc.step (.call1 k proc) = some c) :
    Inv { s with
      rpcc := c
      pos := if c.pc k = .waiting then Function.update s.pos k .transmitting else s.pos } := by
  have hexact := h.exact.step hfresh hc
  simp only [Callers.step, Option.ite_none_right_eq_some] at hc
  obtain ⟨hidle, hc⟩ := hc
  split at hc
  · rename_i ret hret
    cases hc
    simp only [Function.update_self, reduceCtorEq, if_false]
    exact h.setRpcc hexact rfl rfl (update_pc_iff (by simp [hidle]) (by simp))
  · rename_i hrefuses
    cases hc
    have hd : s.rpcc.destroyWait = false := Callers.destroyWait_of_refuses hrefuses
    have hwait : (s.rpcc.register k proc).pc k = .waiting := by simp [Callers.register]
    have hnone : ¬ Waits CancelPc.wait s.cancel := by
      intro hw
      rw [h.entered hw] at hd
      cases hd
    rw [if_pos hwait]
    refine
      { exact := hexact
        inside := ?_
        blocked := ?_
        cancelled := fun hd' => absurd (hd.symm.trans hd') (by simp)
        entered := fun hw => absurd hw hnone
        emptied := fun hd' => absurd (hd.symm.trans hd') (by simp)
        alone := h.alone
        needed := fun x hx => absurd ⟨x, false, hx⟩ hnone }
    · intro j
      change Function.update s.pos k .transmitting j = .outside ↔
        (s.rpcc.register k proc).pc j ≠ .waiting
      by_cases hj : j = k
      · simp [hj, hwait]
      · rw [Function.update_of_ne hj, (Callers.register_of_ne hj).1]
        exact h.inside j
    · intro j hj
      change Function.update s.pos k .transmitting j = .wait false at hj
      by_cases hjk : j = k
      · simp [hjk] at hj
      · rw [Function.update_of_ne hjk] at hj
        change ((s.rpcc.register k proc).callers j).done = false
        rw [(Callers.register_of_ne hjk).2]
        exact h.blocked j hj

theorem Inv.gotPdu (h : s.Inv) {b : Bytes} {c : Callers ι}
    (hc : s.rpcc.step (.gotPdu b) = some c) :
    Inv { s with rpcc := c, pos := broadcast s.pos (s.found b) } := by
  have hexact := h.exact.step (e := .gotPdu b) trivial hc
  obtain ⟨⟨hpc, -, hd⟩, hdone, hother⟩ := Callers.step_gotPdu hc
  refine
    { exact := hexact
      inside := ?_
      blocked := ?_
      cancelled := ?_
      entered := fun hw => hd.trans (h.entered hw)
      emptied := ?_
      alone := h.alone
      needed := fun x hx => (h.needed x hx).imp fun k hk => (congrFun hpc k).trans hk }
  · intro k
    change _ ↔ c.pc k ≠ .waiting
    rw [hpc, ← h.inside k]
    exact broadcast_eq_outside_iff k
  · intro k hk
    obtain ⟨hk, hne⟩ := broadcast_blocked hk
    change (c.callers k).done = false
    rw [hother k hne]
    exact h.blocked k hk
  · intro hd' k hk
    change c.destroyWait = true at hd'
    change c.pc k = .waiting at hk
    rw [hd] at hd'
    rw [hpc] at hk
    have hcancelled := h.cancelled hd' k hk
    change (c.callers k).done = true ∧ (c.callers k).intret = cancelFailure
    rw [hdone k hcancelled.1]
    exact hcancelled
  · intro hd'
    change c.destroyWait = true at hd'
    rw [hd] at hd'
    refine (h.emptied hd').imp_right fun hnone k hk => hnone k ?_
    rw [← hpc]
    exact hk

theorem Inv.ret (h : s.Inv) {k : ι} {c : Callers ι} (hc : s.rpcc.step (.ret k) = some c) :
    Inv { s with rpcc := c } := by
  have hexact := h.exact.step (e := .ret k) trivial hc
  simp only [Callers.step, Option.ite_none_right_eq_some, Option.some.injEq] at hc
  obtain ⟨hleft, rfl⟩ := hc
  exact h.setRpcc hexact rfl rfl (update_pc_iff (by simp [hleft]) (by simp))

theorem Inv.bound (h : s.Inv) {n : ℕ} {c : Callers ι} (hc : s.rpcc.step (.bound n) = some c) :
    Inv { s with rpcc := c } := by
  have hexact := h.exact.step (e := .bound n) trivial hc
  cases hc
  exact h.setRpcc hexact rfl rfl fun _ => Iff.rfl

end Calls

section Cancelling
variable {ι κ : Type*} [DecidableEq ι] [DecidableEq κ] {s : Shutdown ι κ}

theorem Inv.leave (h : s.Inv) {k : ι} {pick : Option κ}
    (hpick : Reaches CancelPc.wait s.cancel pick) {c : Callers ι}
    (hc : s.rpcc.step (.leave k) = some c) :
    Inv
      { rpcc := c
        pos := Function.update s.pos k .outside
        cancel :=
          if s.rpcc.destroyWait then signal CancelPc.wait s.cancel pick else s.cancel } := by
  have hexact := h.exact.step (e := .leave k) trivial hc
  simp only [Callers.step, Option.ite_none_right_eq_some, Option.some.injEq] at hc
  obtain ⟨hwait, rfl⟩ := hc
  have hpc : ∀ j, Function.update s.rpcc.pc k .left j = .waiting → s.rpcc.pc j = .waiting := by
    intro j hj
    by_cases hjk : j = k
    · simp [hjk] at hj
    · rwa [Function.update_of_ne hjk] at hj
  set woken := if s.rpcc.destroyWait then signal CancelPc.wait s.cancel pick else s.cancel
    with hwoken
  have hcancel : ∀ x, (∃ sig, woken x = .wait sig) ↔ ∃ sig, s.cancel x = .wait sig := by
    intro x
    rw [hwoken]
    split
    · exact exists_signal_iff pick x
    · exact Iff.rfl
  have hwaits : Waits CancelPc.wait woken ↔ Waits CancelPc.wait s.cancel := exists_congr hcancel
  have halone : ∀ x y sig sig', woken x = .wait sig → woken y = .wait sig' → x = y := by
    intro x y sig sig' hx hy
    obtain ⟨sx, hx⟩ := (hcancel x).mp ⟨sig, hx⟩
    obtain ⟨sy, hy⟩ := (hcancel y).mp ⟨sig', hy⟩
    exact h.alone x y sx sy hx hy
  refine
    { exact := hexact
      inside := ?_
      blocked := ?_
      cancelled := fun hd j hj => h.cancelled hd j (hpc j hj)
      entered := fun hw => h.entered (hwaits.mp hw)
      emptied := fun hd => (h.emptied hd).imp hwaits.mpr fun hnone j hj => hnone j (hpc j hj)
      alone := halone
      needed := ?_ }
  · intro j
    change Function.update s.pos k .outside j = .outside ↔
      Function.update s.rpcc.pc k .left j ≠ .waiting
    by_cases hj : j = k
    · simp [hj]
    · rw [Function.update_of_ne hj, Function.update_of_ne hj]
      exact h.inside j
  · intro j hj
    change Function.update s.pos k .outside j = .wait false at hj
    by_cases hjk : j = k
    · simp [hjk] at hj
    · rw [Function.update_of_ne hjk] at hj
      exact h.blocked j hj
  · intro x hx
    obtain ⟨sig, hsig⟩ := (hcancel x).mp ⟨false, hx⟩
    change woken x = .wait false at hx
    rw [hwoken, if_pos (h.entered ⟨x, sig, hsig⟩)] at hx
    obtain ⟨y, hy⟩ := roused_signal hpick ⟨x, sig, hsig⟩
    obtain ⟨sig', hsig'⟩ := (exists_signal_iff pick y).mp ⟨true, hy⟩
    rw [h.alone y x sig' sig hsig' hsig, hx] at hy
    cases hy

omit [DecidableEq κ] in
theorem Entered.mark (h : s.Entered) (hnone : ¬ Waits CancelPc.wait s.cancel) : s.mark.Entered := by
  refine
    { exact := h.exact.step (e := .cancel) trivial rfl
      inside := ?_
      blocked := ?_
      cancelled := ?_
      entered := fun hw => absurd hw hnone
      alone := h.alone
      needed := fun x hx => absurd ⟨x, false, hx⟩ hnone }
  · intro k
    refine Iff.trans ?_ (h.inside k)
    change (if _ then _ else _) = _ ↔ _
    split
    · exact LoopPos.rouse_eq_iff
    · exact Iff.rfl
  · intro k hk
    change (if ∃ entry ∈ s.rpcc.calls.entries, entry.2 = k then _ else _) = _ at hk
    split at hk
    · exact absurd hk (s.pos k).rouse_ne_blocked
    · rename_i hlisted
      change (s.rpcc.cancel.callers k).done = false
      rw [Callers.cancel]
      dsimp only
      rw [if_neg hlisted]
      exact h.blocked k hk
  · intro _ k hk
    have hlisted := (h.exact.listed_iff k).mpr hk
    change (s.rpcc.cancel.callers k).done = true ∧ (s.rpcc.cancel.callers k).intret = cancelFailure
    rw [Callers.cancel]
    dsimp only
    rw [if_pos hlisted]
    exact ⟨rfl, rfl⟩

omit [DecidableEq ι] in
/-- The test of `calls_.size()` by the only thread in `cancel`. -/
theorem Entered.awaitEmpty (h : s.Entered) {x : κ}
    (hd : s.rpcc.calls.entries.isEmpty = false → s.rpcc.destroyWait = true)
    (hx : ∀ y sig, s.cancel y = .wait sig → y = x) : (s.awaitEmpty x).Inv := by
  have hempty := h.exact.isEmpty_iff
  cases hcalls : s.rpcc.calls.entries.isEmpty with
  | true =>
    have hnone : ¬ Waits CancelPc.wait (s.awaitEmpty x).cancel := by
      rintro ⟨y, sig, hy⟩
      rw [Shutdown.awaitEmpty, hcalls] at hy
      by_cases hyx : y = x
      · simp [hyx] at hy
      · exact hyx (hx y sig ((Function.update_of_ne hyx _ _).symm.trans hy))
    exact
      { exact := h.exact
        inside := h.inside
        blocked := h.blocked
        cancelled := h.cancelled
        entered := fun hw => absurd hw hnone
        emptied := fun _ => Or.inr (hempty.mp hcalls)
        alone := fun y _ sig _ hy _ => absurd ⟨y, sig, hy⟩ hnone
        needed := fun y hy => absurd ⟨y, false, hy⟩ hnone }
  | false =>
    have hwait : (s.awaitEmpty x).cancel x = .wait false := by
      simp [Shutdown.awaitEmpty, hcalls]
    have honly : ∀ y sig, (s.awaitEmpty x).cancel y = .wait sig → y = x := by
      intro y sig hy
      by_contra hyx
      exact hyx (hx y sig ((Function.update_of_ne hyx _ _).symm.trans hy))
    have hsome : ∃ k, s.rpcc.pc k = .waiting := by
      by_contra hnot
      rw [hempty.mpr fun k hk => hnot ⟨k, hk⟩] at hcalls
      cases hcalls
    exact
      { exact := h.exact
        inside := h.inside
        blocked := h.blocked
        cancelled := h.cancelled
        entered := fun _ => hd hcalls
        emptied := fun _ => Or.inl ⟨x, false, hwait⟩
        alone := fun y z sig sig' hy hz => (honly y sig hy).trans (honly z sig' hz).symm
        needed := fun _ _ => hsome }

theorem Inv.cancel (h : s.Inv) {x : κ} (hnone : ¬ Waits CancelPc.wait s.cancel) :
    (s.mark.awaitEmpty x).Inv := by
  apply (h.toEntered.mark hnone).awaitEmpty
  · intro hcalls
    change (s.rpcc.destroyWait || !s.rpcc.calls.entries.isEmpty) = true
    rw [show s.rpcc.calls.entries.isEmpty = false from hcalls]
    exact Bool.or_true _
  · intro y sig hy
    exact absurd ⟨y, sig, hy⟩ hnone

omit [DecidableEq ι] in
theorem Inv.cancelWake (h : s.Inv) {x : κ} {sig : Bool} (hx : s.cancel x = .wait sig) :
    (s.awaitEmpty x).Inv :=
  h.toEntered.awaitEmpty (fun _ => h.entered ⟨x, sig, hx⟩) fun y sig' hy =>
    h.alone y x sig' sig hy hx

theorem Inv.step (s : Shutdown ι κ) (e : ShutdownEvent ι κ) (t : Shutdown ι κ) (h : s.Inv)
    (hc : s.Delivered e ∧ s.Orderly e) (hst : s.step e = some t) : t.Inv := by
  obtain ⟨hdelivered, horderly⟩ := hc
  cases moves_of_step hst with
  | call1 hc => exact h.call1 horderly hc
  | bound hc => exact h.bound hc
  | gotPdu hc => exact h.gotPdu hc
  | sent hk => exact h.setPos (by simp [hk]) (by simp) (by simp)
  | test hk => exact h.tested (by simp [hk]) (by simp)
  | wake hk => exact h.tested (by simp [hk]) (afterWait_ne_outside _ _)
  | expire hk => exact h.setPos (by simp [hk]) (by simp) (by simp)
  | leave _ hc => exact h.leave hdelivered hc
  | ret hc => exact h.ret hc
  | cancel => exact h.cancel horderly
  | cancelWake hx => exact h.cancelWake hx

end Cancelling

end YFS.Rpc.Shutdown
