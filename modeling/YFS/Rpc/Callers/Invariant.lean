import YFS.Rpc.Callers.Model

/-! # What is known of every call -/

namespace YFS.Rpc.Callers
open YFS.Library

variable {ι : Type*} [DecidableEq ι]

/-- What is known of one call. Its status is that of the reply as long as nobody cancels it. -/
structure Known (received : List Bytes) (ca : Caller) (pc : CallPc) (reply : Option ℕ) (number : ℕ) :
    Prop where
  numbered : ∀ h, ca.request = some h → h.xid = ca.xid ∧ h.xid = (1 + number) % 2 ^ 32
  requested : pc = .waiting → ∃ h, ca.request = some h
  idle : pc = .idle → reply = none
  completed : ∀ n, reply = some n → ca.done = true ∧
    ∃ ret, ca.CompletedBy received n ret ∧ (ca.intret = ret ∨ ca.intret = cancelFailure)
  done : ca.done = true → (∃ n, reply = some n) ∨ ca.intret = cancelFailure
  returned : ∀ ret, pc = .returned ret → ret ∈ localFailures ∨ ca.done = true ∧ ca.intret = ret

structure Inv (s : Callers ι) : Prop where
  xid : s.xid = (1 + s.registered) % 2 ^ 32
  listed : ∀ x k, s.calls.lookup x = some k → s.pc k = .waiting ∧ (s.callers k).xid = x
  once : ∀ j k n, s.completedBy j = some n → s.completedBy k = some n → j = k
  known : ∀ k, Known s.received (s.callers k) (s.pc k) (s.completedBy k) (s.number k)

section Known
variable {received : List Bytes} {ca : Caller} {pc : CallPc} {reply : Option ℕ} {number : ℕ}

theorem Known.lt_length {n : ℕ} (h : Known received ca pc reply number) (hn : reply = some n) :
    n < received.length := by
  obtain ⟨-, _, ⟨b, _, _, hb, -⟩, -⟩ := h.completed n hn
  exact (List.getElem?_eq_some_iff.mp hb).1

theorem Known.append (h : Known received ca pc reply number) (b : Bytes) :
    Known (received ++ [b]) ca pc reply number :=
  { h with
    completed := fun n hn => by
      obtain ⟨hdone, ret, ⟨b', x, hd, hb, rest⟩, hr⟩ := h.completed n hn
      refine ⟨hdone, ret, ⟨b', x, hd, ?_, rest⟩, hr⟩
      rwa [List.getElem?_append_left (h.lt_length hn)] }

theorem Known.setPc {p : CallPc} (h : Known received ca pc reply number) (hwait : p ≠ .waiting)
    (hidle : p ≠ .idle)
    (hret : ∀ ret, p = .returned ret → ret ∈ localFailures ∨ ca.done = true ∧ ca.intret = ret) :
    Known received ca p reply number :=
  { h with
    requested := fun hp => absurd hp hwait
    idle := fun hp => absurd hp hidle
    returned := hret }

theorem Known.cancel (h : Known received ca .waiting reply number) :
    Known received { ca with done := true, intret := cancelFailure } .waiting reply number where
  numbered := h.numbered
  requested := h.requested
  idle := h.idle
  completed n hn := by
    obtain ⟨-, ret, hby, -⟩ := h.completed n hn
    exact ⟨rfl, ret, hby, .inr rfl⟩
  done _ := .inr rfl
  returned ret hp := nomatch hp

theorem Known.complete {b : Bytes} {xid ret : BitVec 32} (h : Known received ca .waiting reply number)
    (hb : replyHeader b = some (xid, ret)) (hx : ca.xid = xid.toNat) :
    Known (received ++ [b]) { ca with un := Unmarshall.takeIn b, intret := ret, done := true } .waiting
      (some received.length) number where
  numbered := h.numbered
  requested := h.requested
  idle hp := nomatch hp
  completed n hn := by
    cases hn
    obtain ⟨hd, hreq⟩ := h.requested rfl
    refine ⟨rfl, ret, ⟨b, xid, hd, ?_, hb, hreq, ?_, rfl⟩, .inl rfl⟩
    · simp
    · rw [(h.numbered hd hreq).1, hx]
  done _ := .inl ⟨_, rfl⟩
  returned ret hp := nomatch hp

end Known

section Inv
variable {s t : Callers ι} {k : ι}

omit [DecidableEq ι] in
theorem Inv.delivered (h : s.Inv) : s.Delivered where
  own k ret hpc hret := by
    obtain hlocal | ⟨hdone, rfl⟩ := (h.known k).returned ret hpc
    · exact absurd hlocal hret
    have hcancel : (s.callers k).intret ≠ cancelFailure := by
      intro heq
      exact hret (by simp [localFailures, heq])
    obtain ⟨n, hn⟩ := ((h.known k).done hdone).resolve_right hcancel
    obtain ⟨-, ret, hby, hr⟩ := (h.known k).completed n hn
    rw [hr.resolve_right hcancel]
    exact ⟨n, hn, hby⟩
  once := h.once
  copies j k m n hj hk hsame := by
    obtain ⟨-, _, ⟨b, x, hj, hbj, hxj, hreqj, hj', -⟩, -⟩ := (h.known j).completed m hj
    obtain ⟨-, _, ⟨b', x', hk, hbk, hxk, hreqk, hk', -⟩, -⟩ := (h.known k).completed n hk
    rw [hsame, hbk] at hbj
    cases hbj
    rw [hxk] at hxj
    cases hxj
    have hmod : (1 + s.number j) % 2 ^ 32 = (1 + s.number k) % 2 ^ 32 := by
      rw [← ((h.known j).numbered hj hreqj).2, ← ((h.known k).numbered hk hreqk).2, hj', hk']
    exact Nat.ModEq.add_left_cancel' 1 hmod

omit [DecidableEq ι] in
theorem Inv.ne_of_idle {x : ℕ} {j : ι} (h : s.Inv) (hk : s.pc k ≠ .waiting)
    (hj : s.calls.lookup x = some j) : j ≠ k := by
  rintro rfl
  exact hk (h.listed x j hj).1

theorem Inv.setPc {p : CallPc} (h : s.Inv) (hout : ∀ x, s.calls.lookup x ≠ some k)
    (hk : Known s.received (s.callers k) p (s.completedBy k) (s.number k)) :
    Inv { s with pc := Function.update s.pc k p } where
  xid := h.xid
  listed x j hj := by
    have hjk : j ≠ k := by
      rintro rfl
      exact hout x hj
    obtain ⟨hpc, hx⟩ := h.listed x j hj
    exact ⟨(Function.update_of_ne hjk _ _).trans hpc, hx⟩
  once := h.once
  known j := by
    by_cases hjk : j = k
    · subst hjk
      simpa only [Function.update_self] using hk
    · simpa only [Function.update_of_ne hjk] using h.known j

theorem register_of_ne {proc : ℕ} {j : ι} (hj : j ≠ k) :
    (s.register k proc).pc j = s.pc j ∧ (s.register k proc).callers j = s.callers j := by
  simp [Callers.register, Function.update_of_ne hj]

theorem Inv.register {proc : ℕ} (h : s.Inv) (hk : s.pc k = .idle) : (s.register k proc).Inv where
  xid := by
    change succXid s.xid = (1 + (s.registered + 1)) % 2 ^ 32
    rw [succXid, h.xid, Nat.mod_add_mod, Nat.add_assoc]
  listed x j hj := by
    by_cases hx : x = s.xid
    · subst hx
      have hkj : k = j := Option.some.inj ((AList.lookup_insert _).symm.trans hj)
      subst hkj
      simp [Callers.register]
    · have hj' : s.calls.lookup x = some j := (AList.lookup_insert_ne hx).symm.trans hj
      have hjk : j ≠ k := h.ne_of_idle (by simp [hk]) hj'
      rw [(register_of_ne hjk).1, (register_of_ne hjk).2]
      exact h.listed x j hj'
  once := h.once
  known j := by
    by_cases hjk : j = k
    · subst hjk
      have hnone : s.completedBy j = none := (h.known j).idle hk
      simp only [Callers.register, Function.update_self, hnone]
      exact
        { numbered := fun hd hreq => Option.some.inj hreq ▸ ⟨rfl, h.xid⟩
          requested := fun _ => ⟨_, rfl⟩
          idle := fun _ => rfl
          completed := fun n hn => nomatch hn
          done := fun hdone => nomatch hdone
          returned := fun ret hp => nomatch hp }
    · simpa only [Callers.register, Function.update_of_ne hjk] using h.known j

/-- A reply completes at most the call it finds, and only if that is not completed yet. -/
theorem Inv.accept {b : Bytes} {xid ret : BitVec 32} (h : s.Inv) (hb : replyHeader b = some (xid, ret)) :
    (s.accept b xid ret).Inv := by
  unfold Callers.accept
  split
  · exact { h with known := fun k => (h.known k).append b }
  rename_i k hlookup
  split
  · exact { h with known := fun k => (h.known k).append b }
  obtain ⟨hwait, hx⟩ := h.listed _ k hlookup
  refine ⟨h.xid, fun x j hj => ?_, fun i j n hi hj => ?_, fun j => ?_⟩
  · by_cases hjk : j = k
    · subst hjk
      simpa only [Function.update_self] using h.listed x j hj
    · simpa only [Function.update_of_ne hjk] using h.listed x j hj
  · have hnew : ∀ {j n}, s.completedBy j = some n → s.received.length ≠ n :=
      fun hj => ((h.known _).lt_length hj).ne'
    by_cases hik : i = k <;> by_cases hjk : j = k
    · rw [hik, hjk]
    · subst hik
      simp only [Function.update_self, Function.update_of_ne hjk, Option.some.injEq] at hi hj
      exact absurd hi (hnew hj)
    · subst hjk
      simp only [Function.update_self, Function.update_of_ne hik, Option.some.injEq] at hi hj
      exact absurd hj (hnew hi)
    · simp only [Function.update_of_ne hik, Function.update_of_ne hjk] at hi hj
      exact h.once i j n hi hj
  · by_cases hjk : j = k
    · subst hjk
      simp only [Function.update_self, hwait]
      exact (hwait ▸ h.known j).complete hb hx
    · simpa only [Function.update_of_ne hjk] using (h.known j).append b

theorem Inv.cancel (h : s.Inv) : s.cancel.Inv where
  xid := h.xid
  listed x k hk := by
    obtain ⟨hwait, hx⟩ := h.listed x k hk
    refine ⟨hwait, ?_⟩
    simp only [Callers.cancel]
    split <;> exact hx
  once := h.once
  known k := by
    simp only [Callers.cancel]
    split
    · rename_i hentry
      obtain ⟨⟨x, j⟩, hmem, rfl⟩ := hentry
      have hwait := (h.listed x j (AList.mem_lookup_iff.mpr hmem)).1
      rw [hwait]
      exact (hwait ▸ h.known j).cancel
    · exact h.known k

theorem Inv.leave {window : List ℕ} (h : s.Inv) :
    Inv { s with
      calls := s.calls.erase (s.callers k).xid
      xidRepWindow := window
      pc := Function.update s.pc k .left } := by
  have hlookup : ∀ {x j}, (s.calls.erase (s.callers k).xid).lookup x = some j →
      s.calls.lookup x = some j ∧ x ≠ (s.callers k).xid := by
    intro x j hj
    by_cases hx : x = (s.callers k).xid
    · subst hx
      rw [AList.lookup_erase] at hj
      cases hj
    · exact ⟨(AList.lookup_erase_ne hx).symm.trans hj, hx⟩
  have herased : Inv { s with
      calls := s.calls.erase (s.callers k).xid
      xidRepWindow := window } := { h with listed := fun x j hj => h.listed x j (hlookup hj).1 }
  refine herased.setPc (fun x hx => ?_) ((h.known k).setPc (by simp) (by simp) (by simp))
  exact (hlookup hx).2 (h.listed x k (hlookup hx).1).2.symm

theorem Inv.step {e : CallEvent ι} (h : s.Inv) (ht : s.step e = some t) : t.Inv := by
  cases e with
  | call1 k proc =>
    simp only [Callers.step, Option.ite_none_right_eq_some] at ht
    obtain ⟨hidle, ht⟩ := ht
    split at ht
    · rename_i ret hret
      cases ht
      have hlocal : ret ∈ localFailures := by
        unfold refuses at hret
        split_ifs at hret <;> cases hret <;> simp [localFailures]
      refine h.setPc (fun x hx => h.ne_of_idle (by simp [hidle]) hx rfl) ?_
      refine (h.known k).setPc (by simp) (by simp) fun ret' hp => ?_
      cases hp
      exact .inl hlocal
    · cases ht
      exact h.register hidle
  | gotPdu b =>
    simp only [Callers.step] at ht
    split at ht
    · cases ht
      exact { h with known := fun k => (h.known k).append b }
    · rename_i hb
      cases ht
      exact h.accept hb
  | cancel =>
    cases ht
    exact h.cancel
  | leave k =>
    simp only [Callers.step, Option.ite_none_right_eq_some, Option.some.injEq] at ht
    obtain ⟨-, rfl⟩ := ht
    exact h.leave
  | ret k =>
    simp only [Callers.step, Option.ite_none_right_eq_some, Option.some.injEq] at ht
    obtain ⟨hleft, rfl⟩ := ht
    refine h.setPc (fun x hx => h.ne_of_idle (by simp [hleft]) hx rfl) ?_
    refine (h.known k).setPc (by simp) (by simp) fun ret hp => ?_
    cases hp
    unfold Caller.result
    split
    · rename_i hdone
      exact .inr ⟨hdone, rfl⟩
    · exact .inl (by simp [localFailures])
  | bound r =>
    cases ht
    exact { h with }

theorem settled (s : Callers ι) (e : CallEvent ι) : s.Settled e := by
  cases e with
  | gotPdu b =>
    intro t ht k hk
    simp only [Callers.step] at ht
    split at ht
    · cases ht
      exact ⟨rfl, rfl⟩
    · cases ht
      unfold Callers.accept
      split
      · exact ⟨rfl, rfl⟩
      · rename_i j hj
        split
        · exact ⟨rfl, rfl⟩
        · rename_i hdone
          have hkj : k ≠ j := by
            rintro rfl
            exact hdone hk
          exact ⟨Function.update_of_ne hkj _ _, rfl⟩
  | call1 | cancel | leave | ret | bound => trivial

end Inv

end YFS.Rpc.Callers
