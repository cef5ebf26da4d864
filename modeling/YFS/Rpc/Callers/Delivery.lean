import YFS.Rpc.Callers.Invariant

/-! # Replies reach their callers -/

namespace YFS.Rpc
open YFS.Library

namespace Callers

variable {ι : Type*} [DecidableEq ι]

/-! ## The calls in the table -/

section Exact
variable {s t : Callers ι} {k : ι}

theorem Exact.setPc {p : CallPc} (h : s.Exact) (hk : s.pc k ≠ .waiting) (hp : p ≠ .waiting) :
    Exact { s with pc := Function.update s.pc k p } := by
  intro x j
  rw [show AList.lookup x s.calls = some j ↔ _ from h x j]
  by_cases hjk : j = k
  · subst hjk
    simp [hk, hp]
  · simp [Function.update_of_ne hjk]

theorem Exact.register {proc : ℕ} (h : s.Exact) (hk : s.pc k = .idle)
    (hfresh : ∀ j, s.pc j = .waiting → (s.callers j).xid ≠ s.xid) : (s.register k proc).Exact := by
  intro x j
  by_cases hjk : j = k
  · subst hjk
    have hold : s.calls.lookup x ≠ some j := by simp [h x j, hk]
    by_cases hx : x = s.xid
    · subst hx
      simp [Callers.register]
    · simp [Callers.register, AList.lookup_insert_ne hx, hold, Ne.symm hx]
  · rw [(register_of_ne hjk).1, (register_of_ne hjk).2, ← h x j]
    by_cases hx : x = s.xid
    · subst hx
      have hold : s.calls.lookup s.xid ≠ some j :=
        fun hj => hfresh j ((h _ j).mp hj).1 ((h _ j).mp hj).2
      simp [Callers.register, hold, Ne.symm hjk]
    · simp [Callers.register, AList.lookup_insert_ne hx]

theorem Exact.leave {window : List ℕ} (h : s.Exact) (hk : s.pc k = .waiting) :
    Exact { s with
      calls := s.calls.erase (s.callers k).xid
      xidRepWindow := window
      pc := Function.update s.pc k .left } := by
  intro x j
  have hself : s.calls.lookup (s.callers k).xid = some k := (h _ k).mpr ⟨hk, rfl⟩
  by_cases hjk : j = k
  · subst hjk
    by_cases hx : x = (s.callers j).xid
    · subst hx
      simp
    · simp [AList.lookup_erase_ne hx, h x j, Ne.symm hx]
  · simp only [Function.update_of_ne hjk]
    rw [← h x j]
    by_cases hx : x = (s.callers k).xid
    · subst hx
      simp [hself, Ne.symm hjk]
    · simp [AList.lookup_erase_ne hx]

omit [DecidableEq ι] in
/-- A step after which the same calls wait under the same xids. -/
theorem Exact.congr (h : s.Exact) (hcalls : t.calls = s.calls) (hpc : t.pc = s.pc)
    (hxid : ∀ k, (t.callers k).xid = (s.callers k).xid) : t.Exact := by
  intro x k
  rw [hcalls, hpc, hxid]
  exact h x k

theorem Exact.accept {b : Bytes} {xid ret : BitVec 32} (h : s.Exact) : (s.accept b xid ret).Exact := by
  unfold Callers.accept
  split
  · exact h.congr rfl rfl fun _ => rfl
  · rename_i k hk
    split
    · exact h.congr rfl rfl fun _ => rfl
    · refine h.congr rfl rfl fun j => ?_
      by_cases hjk : j = k
      · subst hjk
        simp
      · simp [Function.update_of_ne hjk]

theorem Exact.step {e : CallEvent ι} (h : s.Exact) (hfresh : s.Fresh e) (ht : s.step e = some t) :
    t.Exact := by
  cases e with
  | call1 k proc =>
    simp only [Callers.step, Option.ite_none_right_eq_some] at ht
    obtain ⟨hidle, ht⟩ := ht
    split at ht
    · cases ht
      exact h.setPc (by simp [hidle]) (by simp)
    · rename_i hrefuses
      cases ht
      exact h.register hidle (hfresh hidle hrefuses)
  | gotPdu b =>
    simp only [Callers.step] at ht
    split at ht
    · cases ht
      exact h.congr rfl rfl fun _ => rfl
    · cases ht
      exact h.accept
  | cancel =>
    cases ht
    refine h.congr rfl rfl fun k => ?_
    simp only [Callers.cancel]
    split <;> rfl
  | leave k =>
    simp only [Callers.step, Option.ite_none_right_eq_some, Option.some.injEq] at ht
    obtain ⟨hwait, rfl⟩ := ht
    exact h.leave hwait
  | ret k =>
    simp only [Callers.step, Option.ite_none_right_eq_some, Option.some.injEq] at ht
    obtain ⟨hleft, rfl⟩ := ht
    exact h.setPc (by simp [hleft]) (by simp)
  | bound r =>
    cases ht
    exact h.congr rfl rfl fun _ => rfl

/-- A call that registers under the xid of another one takes its place in `calls_`. -/
theorem fresh_of_exact {e : CallEvent ι} (h : ∀ t, s.step e = some t → t.Exact) : s.Fresh e := by
  cases e with
  | call1 k proc =>
    intro hidle hrefuses j hj hx
    have hexact : (s.register k proc).Exact := h _ (by simp [Callers.step, hidle, hrefuses])
    have hjk : j ≠ k := by
      rintro rfl
      rw [hidle] at hj
      cases hj
    have hlookup : (s.register k proc).calls.lookup s.xid = some j := by
      rw [hexact]
      rw [(register_of_ne hjk).1, (register_of_ne hjk).2]
      exact ⟨hj, hx⟩
    simp only [Callers.register, AList.lookup_insert, Option.some.injEq] at hlookup
    exact hjk hlookup.symm
  | gotPdu | cancel | leave | ret | bound => trivial

end Exact
end Callers

theorem callers_inv (ι : Type*) [DecidableEq ι] (cltNonce : ℕ) : (callers ι cltNonce).init.Inv where
  xid := rfl
  listed _ _ hk := nomatch hk
  once _ _ _ hj := nomatch hj
  known _ :=
    { numbered := fun _ hreq => nomatch hreq
      requested := fun hp => nomatch hp
      idle := fun _ => rfl
      completed := fun _ hn => nomatch hn
      done := fun hdone => nomatch hdone
      returned := fun _ hp => nomatch hp }

/-- In every run, replies reach their own callers and change nothing afterwards. That `calls_`
holds just the calls that are under way is so as long as no call registers under the xid of such a
call. -/
theorem replies_reach_callers_iff {ι : Type*} [DecidableEq ι] (cltNonce : ℕ)
    (es : List (CallEvent ι)) :
    (callers ι cltNonce).Throughout Callers.Delivered (callers ι cltNonce).init es ∧
    (callers ι cltNonce).Along Callers.Settled (callers ι cltNonce).init es ∧
    ((callers ι cltNonce).Throughout Callers.Exact (callers ι cltNonce).init es ↔
      (callers ι cltNonce).Along Callers.Fresh (callers ι cltNonce).init es) := by
  have hexact : (callers ι cltNonce).init.Exact := fun x k => by simp [callers]
  refine ⟨?_, ?_, ?_⟩
  · exact Machine.throughout_of_invariant (I := Callers.Inv) (fun _ h => Callers.Inv.delivered h)
      (fun _ _ _ h ht => Callers.Inv.step h ht) (callers_inv ι cltNonce) es
  · exact Machine.along_of_all Callers.settled _ es
  · exact Machine.Along.throughout_iff (fun _ h => h)
      (fun _ _ _ h _ hfresh ht => Callers.Exact.step h hfresh ht)
      (fun _ _ _ _ h => Callers.fresh_of_exact h) hexact
      (Machine.along_of_all (fun _ _ => trivial) _ es)

def passing (k : ℕ) : List (CallEvent ℕ) := [.call1 k 5, .leave k, .ret k]

/-- The client binds and call 0 registers; while it waits, the calls `1` to `n` come and go. -/
def registrations (n : ℕ) : List (CallEvent ℕ) :=
  [.bound 0, .call1 0 5] ++ (List.range n).flatMap fun k => passing (k + 1)

theorem registrations_succ (n : ℕ) : registrations (n + 1) = registrations n ++ passing (n + 1) := by
  rw [registrations, List.range_succ, List.flatMap_append, ← List.append_assoc, ← registrations,
    List.flatMap_singleton]

theorem step_call1 {s : Callers ℕ} {k : ℕ} (hidle : s.pc k = .idle)
    (hrefuses : s.refuses 5 = none) :
    (callers ℕ 0).step s (.call1 k 5) = some (s.register k 5) := by
  simp [callers, Callers.step, hidle, hrefuses]

/-- A call that comes and goes uses up one xid. -/
theorem runFrom_passing {s : Callers ℕ} {k : ℕ} (hidle : s.pc k = .idle)
    (hrefuses : s.refuses 5 = none) :
    ∃ t, (callers ℕ 0).runFrom s (passing k) = some t ∧ t.bindDone = s.bindDone ∧
      t.destroyWait = s.destroyWait ∧ t.xid = succXid s.xid ∧
      ∀ j, j ≠ k → t.pc j = s.pc j ∧ t.callers j = s.callers j := by
  have hwait : (s.register k 5).pc k = .waiting := Function.update_self ..
  have hleave : (callers ℕ 0).step (s.register k 5) (.leave k) = some _ := if_pos hwait
  rw [passing, Machine.runFrom_cons, step_call1 hidle hrefuses, Option.bind_some,
    Machine.runFrom_cons, hleave, Option.bind_some, Machine.runFrom_cons]
  refine ⟨_, congrArg (Option.bind · _) (if_pos (Function.update_self ..)), rfl, rfl, rfl,
    fun j hj => ?_⟩
  simp [Callers.register, hj]

/-- Call 0 waits under the xid 1, whatever the others have done. -/
theorem run_registrations (n : ℕ) : ∃ s, (callers ℕ 0).run (registrations n) = some s ∧
    s.bindDone = true ∧ s.destroyWait = false ∧ s.xid = (n + 2) % 2 ^ 32 ∧
    s.pc 0 = .waiting ∧ (s.callers 0).xid = 1 ∧ ∀ k, n < k → s.pc k = .idle := by
  induction n with
  | zero =>
    refine ⟨_, rfl, rfl, rfl, rfl, rfl, rfl, fun k hk => ?_⟩
    exact Function.update_of_ne hk.ne' _ _
  | succ n ih =>
    obtain ⟨s, hrun, hbind, hdestroy, hxid, hpc, hx, hidle⟩ := ih
    have hrefuses : s.refuses 5 = none := by simp [Callers.refuses, hbind, hdestroy, rpcBind]
    obtain ⟨t, hpass, hbind', hdestroy', hxid', hother⟩ :=
      runFrom_passing (hidle (n + 1) (by omega)) hrefuses
    obtain ⟨hpc', hcallers'⟩ := hother 0 (by omega)
    refine ⟨t, ?_, hbind'.trans hbind, hdestroy'.trans hdestroy, ?_, hpc'.trans hpc, ?_,
      fun k hk => ?_⟩
    · rw [Machine.run] at hrun
      rw [registrations_succ, Machine.run, Machine.runFrom_append, hrun, Option.bind_some, hpass]
    · rw [hxid', succXid, hxid, Nat.mod_add_mod]
    · rw [hcallers', hx]
    · rw [(hother k (by omega)).1, hidle k (by omega)]

/-- When `2 ^ 32 - 1` calls have come and gone the xids begin anew: the next call takes the place in
`calls_` of the first one, which still waits. -/
theorem registered_over :
    ∃ s, (callers ℕ 0).run (registrations (2 ^ 32 - 1) ++ [.call1 (2 ^ 32) 5]) = some s ∧
      s.pc 0 = .waiting ∧ (s.callers 0).xid = 1 ∧ s.calls.lookup 1 = some (2 ^ 32) ∧
      ¬ s.Exact := by
  obtain ⟨s, hrun, hbind, hdestroy, hxid, hpc, hx, hidle⟩ := run_registrations (2 ^ 32 - 1)
  have hrefuses : s.refuses 5 = none := by simp [Callers.refuses, hbind, hdestroy, rpcBind]
  have hstep := step_call1 (hidle (2 ^ 32) (by decide)) hrefuses
  have hone : s.xid = 1 := hxid.trans (by decide)
  have hwait : (s.register (2 ^ 32) 5).pc 0 = .waiting := by
    rw [(Callers.register_of_ne (by decide)).1, hpc]
  have hfirst : ((s.register (2 ^ 32) 5).callers 0).xid = 1 := by
    rw [(Callers.register_of_ne (by decide)).2, hx]
  have hlookup : (s.register (2 ^ 32) 5).calls.lookup 1 = some (2 ^ 32) := by
    rw [← hone]
    exact AList.lookup_insert _
  refine ⟨s.register (2 ^ 32) 5, ?_, hwait, hfirst, hlookup, fun hexact => ?_⟩
  · rw [Machine.run_concat hrun, hstep]
  · have hzero := (hexact 1 0).mpr ⟨hwait, hfirst⟩
    rw [hlookup] at hzero
    cases hzero

end YFS.Rpc
