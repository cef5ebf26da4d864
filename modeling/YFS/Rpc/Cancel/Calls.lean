import YFS.Rpc.Callers.Delivery

/-! # Calls that are cancelled

Once `cancel` has set `destroy_wait_` no call registers any more, and a call that it has completed
with `cancel_failure` returns that, whatever replies still come in.
-/

namespace YFS.Rpc.Callers
open YFS.Library

variable {ι : Type*} {s : Callers ι}

theorem Exact.listed_iff (h : s.Exact) (k : ι) :
    (∃ entry ∈ s.calls.entries, entry.2 = k) ↔ s.pc k = .waiting := by
  constructor
  · rintro ⟨⟨x, j⟩, hmem, rfl⟩
    exact ((h x j).mp (AList.mem_lookup_iff.mpr hmem)).1
  · intro hk
    have hlookup := (h _ k).mpr ⟨hk, rfl⟩
    exact ⟨⟨(s.callers k).xid, k⟩, AList.mem_lookup_iff.mp hlookup, rfl⟩

theorem Exact.isEmpty_iff (h : s.Exact) :
    s.calls.entries.isEmpty = true ↔ ∀ k, s.pc k ≠ .waiting := by
  rw [List.isEmpty_iff]
  constructor
  · intro hnil k hk
    obtain ⟨entry, hmem, -⟩ := (h.listed_iff k).mpr hk
    rw [hnil] at hmem
    cases hmem
  · intro hnone
    apply List.eq_nil_iff_forall_not_mem.mpr
    intro entry hmem
    exact hnone entry.2 ((h.listed_iff entry.2).mp ⟨entry, hmem, rfl⟩)

/-- A call is only refused for its own sake or because of `cancel`. -/
theorem destroyWait_of_refuses {proc : ℕ} (h : s.refuses proc = none) : s.destroyWait = false := by
  rw [refuses] at h
  split at h
  · cases h
  · split at h
    · cases h
    · rename_i hd
      exact Bool.eq_false_of_not_eq_true hd

/-- A reply changes the call it is for, if that is not completed yet, and no other one. -/
theorem step_gotPdu [DecidableEq ι] {c : Callers ι} {b : Bytes}
    (h : s.step (.gotPdu b) = some c) :
    (c.pc = s.pc ∧ c.calls = s.calls ∧ c.destroyWait = s.destroyWait) ∧
      (∀ k, (s.callers k).done = true → c.callers k = s.callers k) ∧
      (∀ k, ((replyHeader b).bind fun hd => s.calls.lookup hd.1.toNat) ≠ some k →
        c.callers k = s.callers k) := by
  have hdone := fun k hk => (settled s (.gotPdu b) c h k hk).1
  simp only [Callers.step] at h
  split at h
  · cases h
    exact ⟨⟨rfl, rfl, rfl⟩, hdone, fun _ _ => rfl⟩
  · rename_i xid ret hb
    cases h
    unfold Callers.accept at hdone ⊢
    rw [hb]
    split
    · exact ⟨⟨rfl, rfl, rfl⟩, fun _ _ => rfl, fun _ _ => rfl⟩
    · rename_i j hj
      split
      · exact ⟨⟨rfl, rfl, rfl⟩, fun _ _ => rfl, fun _ _ => rfl⟩
      · rename_i hnot
        have hother : ∀ k, k ≠ j → Function.update s.callers j
            { s.callers j with un := Unmarshall.takeIn b, intret := ret, done := true } k =
            s.callers k := fun k hk => Function.update_of_ne hk _ _
        refine ⟨⟨rfl, rfl, rfl⟩, fun k hk => hother k ?_, fun k hk => hother k ?_⟩
        · rintro rfl
          exact hnot hk
        · rintro rfl
          exact hk hj

/-- A call that `cancel` has completed and that has not returned with anything else. -/
structure Failing (s : Callers ι) (k : ι) : Prop where
  refusing : s.destroyWait = true
  done : (s.callers k).done = true
  intret : (s.callers k).intret = cancelFailure
  pc : s.pc k ∈ [.waiting, .left, .returned cancelFailure]

theorem refuses_of_destroyWait (h : s.destroyWait = true) (proc : ℕ) :
    ∃ ret, s.refuses proc = some ret := by
  cases hret : s.refuses proc with
  | none =>
    rw [destroyWait_of_refuses hret] at h
    cases h
  | some ret => exact ⟨ret, rfl⟩

/-- `destroy_wait_` is never reset. -/
theorem destroyWait_step [DecidableEq ι] {e : CallEvent ι} {t : Callers ι}
    (h : s.destroyWait = true) (ht : s.step e = some t) : t.destroyWait = true := by
  cases e with
  | call1 j proc =>
    obtain ⟨-, ht⟩ := Option.ite_none_right_eq_some.mp ht
    split at ht <;> cases ht <;> exact h
  | gotPdu b =>
    obtain ⟨⟨-, -, hd⟩, -⟩ := step_gotPdu ht
    exact hd.trans h
  | cancel =>
    cases ht
    simp [Callers.cancel, h]
  | leave j | ret j =>
    obtain ⟨-, ht⟩ := Option.ite_none_right_eq_some.mp ht
    cases ht
    exact h
  | bound n =>
    cases ht
    exact h

theorem Failing.step [DecidableEq ι] {k : ι} (h : s.Failing k) {e : CallEvent ι} {t : Callers ι}
    (ht : s.step e = some t) : t.Failing k := by
  have hd' := destroyWait_step h.refusing ht
  obtain ⟨hd, hdone, hintret, hpc⟩ := h
  cases e with
  | call1 j proc =>
    obtain ⟨hidle, ht⟩ := Option.ite_none_right_eq_some.mp ht
    obtain ⟨ret, hret⟩ := refuses_of_destroyWait hd proc
    rw [hret] at ht
    cases ht
    have hkj : k ≠ j := by
      rintro rfl
      simp [hidle] at hpc
    refine ⟨hd', hdone, hintret, ?_⟩
    change Function.update s.pc j _ k ∈ _
    rwa [Function.update_of_ne hkj]
  | gotPdu b =>
    obtain ⟨⟨hpc', -, -⟩, hkeep, -⟩ := step_gotPdu ht
    have hsame := hkeep k hdone
    exact ⟨hd', hsame ▸ hdone, hsame ▸ hintret, hpc' ▸ hpc⟩
  | cancel =>
    cases ht
    have hsame : s.cancel.callers k = s.callers k := by
      rw [Callers.cancel]
      dsimp only
      split
      · rw [← hdone, ← hintret]
      · rfl
    exact ⟨hd', hsame ▸ hdone, hsame ▸ hintret, hpc⟩
  | leave j =>
    obtain ⟨-, ht⟩ := Option.ite_none_right_eq_some.mp ht
    cases ht
    refine ⟨hd', hdone, hintret, ?_⟩
    by_cases hkj : k = j
    · simp [hkj]
    · change Function.update s.pc j .left k ∈ _
      rwa [Function.update_of_ne hkj]
  | ret j =>
    obtain ⟨-, ht⟩ := Option.ite_none_right_eq_some.mp ht
    cases ht
    refine ⟨hd', hdone, hintret, ?_⟩
    by_cases hkj : k = j
    · simp [← hkj, Caller.result, hdone, hintret]
    · change Function.update s.pc j _ k ∈ _
      rwa [Function.update_of_ne hkj]
  | bound n =>
    cases ht
    exact ⟨hd', hdone, hintret, hpc⟩

end YFS.Rpc.Callers
