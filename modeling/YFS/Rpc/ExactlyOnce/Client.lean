import YFS.Rpc.ExactlyOnce.InStep

/-! # The steps of a client keep it in step -/

namespace YFS.Rpc.Exchange.InStep
open YFS.Library

variable {ι : Type} [DecidableEq ι] {args : ℕ → ι → List Value} {c top : ℕ} {s s' : Exchange ι}
  (h : InStep args c top s)
include h

theorem client {e : CallEvent ι} {cl : Callers ι} (he : (s.client c).Steady s.server.nonce e)
    (hb : ∀ b, e ≠ .gotPdu b) (hs : (s.client c).step e = some cl) :
    InStep args c top { s with client := Function.update s.client c cl } := by
  have hsame : Function.update s.client c cl c = cl := Function.update_self ..
  have hrecord := Callers.record_of_step he hb hs
  refine
    { h with
      own := fun d => ?_
      sequential := ?_
      last := ?_
      requested := fun r hr hc => ?_
      completed := fun k hk => ?_ }
  · by_cases hd : d = c
    · subst hd
      simpa using (h.own d).step hs
    · simpa [hd] using h.own d
  · dsimp only
    rw [hsame]
    exact h.sequential.step he hs
  · dsimp only
    rw [hsame]
    rcases Callers.registered_of_step he hb hs with ⟨hreg, hkeep⟩ | ⟨hreg, hnone, k, hk, hdone⟩
    · rw [hreg]
      refine h.last.imp_right fun ⟨htop, k, hk, hdone⟩ => ⟨htop, k, hkeep k hk hdone, ?_⟩
      rcases hrecord k with heq | ⟨hidle, -⟩
      · rw [heq, hdone]
      · rw [hidle] at hk
        cases hk
    · rcases h.last with htop | ⟨-, j, hj, -⟩
      · exact .inr ⟨by rw [hreg, htop], k, hk, hdone⟩
      · exact absurd hj (hnone j)
  · dsimp only
    rw [hsame]
    obtain ⟨k, hk, hargs⟩ := h.requested r hr hc
    refine ⟨k, ?_, hargs⟩
    rcases hrecord k with heq | ⟨hidle, -⟩
    · rw [heq, hk]
    · rw [(h.sequential.idle k hidle).1] at hk
      cases hk
  · dsimp only at hk ⊢
    rw [hsame] at hk ⊢
    rcases hrecord k with heq | ⟨-, hdone⟩
    · rw [heq] at hk ⊢
      exact h.completed k hk
    · rw [hdone] at hk
      cases hk

omit [DecidableEq ι] in
theorem completes {b : Bytes} {xid ret : BitVec 32} {k : ι} (hb : Replied s.ran c top b)
    (hheader : replyHeader b = some (xid, ret))
    (hk : (s.client c).calls.lookup xid.toNat = some k)
    (hdone : ((s.client c).callers k).done = false) :
    xid.toNat ≤ top ∧ ∃ hd, ((s.client c).callers k).request = some hd ∧ hd.xid = xid.toNat ∧
      Answers s.ran ⟨hd, args c k⟩ ret b := by
  obtain ⟨hwait, hxid⟩ := h.sequential.inv.listed _ k hk
  obtain ⟨hd, hreq⟩ := (h.sequential.inv.known k).requested hwait
  have hxd : hd.xid = xid.toNat := ((h.sequential.inv.known k).numbered hd hreq).1.trans hxid
  rcases hb with ⟨r, ret', hc, ha⟩ | ⟨x, ret', hheader', hlt⟩
  · obtain ⟨vals, hmem, hpdu, hle⟩ := id ha
    have hheader' := replyHeader_of_isPdu hpdu hle
    rw [hheader] at hheader'
    cases hheader'
    have hrun : r ∈ s.jobs ++ s.ran.map Prod.fst :=
      List.mem_append_right _ (List.mem_map_of_mem hmem)
    have htop := h.xid_le_top hrun hc
    have hshort := h.sequential.short
    have hreg := h.registered_le.2
    have hnat : (BitVec.ofNat 32 r.header.xid).toNat = r.header.xid := by
      rw [BitVec.toNat_ofNat]
      exact Nat.mod_eq_of_lt (by omega)
    rw [hnat] at hxd ⊢
    obtain ⟨j, hj, hargs⟩ := h.requested r hrun hc
    obtain rfl := h.sequential.distinct k j hd r.header hreq hj hxd
    rw [hreq, Option.some.injEq] at hj
    refine ⟨htop, hd, hreq, hxd, ?_⟩
    rw [hj, ← hargs]
    exact ha
  · rw [hheader] at hheader'
    cases hheader'
    have hlast := (h.sequential.xid_eq hreq hdone).2
    have hreg := h.registered_le.2
    omega

theorem gotPdu {b : Bytes} {cl : Callers ι} (hb : Replied s.ran c top b)
    (hs : (s.client c).step (.gotPdu b) = some cl) :
    InStep args c top { s with client := Function.update s.client c cl } := by
  have hsame : Function.update s.client c cl c = cl := Function.update_self ..
  have hheader : ∃ xid ret, replyHeader b = some (xid, ret) := by
    rcases hb with ⟨r, ret, -, vals, -, hpdu, hle⟩ | ⟨x, ret, hheader, -⟩
    · exact ⟨_, _, replyHeader_of_isPdu hpdu hle⟩
    · exact ⟨x, ret, hheader⟩
  obtain ⟨xid, ret, hheader⟩ := hheader
  obtain ⟨hreg, hpc, hcases⟩ := Callers.gotPdu_cases hheader hs
  refine
    { h with
      own := fun d => ?_
      sequential := ?_
      last := ?_
      requested := fun r hr hc => ?_
      completed := fun k hk => ?_ }
  · by_cases hd : d = c
    · subst hd
      simpa using (h.own d).step hs
    · simpa [hd] using h.own d
  · dsimp only
    rw [hsame]
    exact h.sequential.step (e := .gotPdu b) trivial hs
  · dsimp only
    rw [hsame, hreg, hpc]
    refine h.last.imp_right fun ⟨htop, j, hj, hdone⟩ => ⟨htop, j, hj, ?_⟩
    rcases hcases with heq | ⟨k, hk, hkdone, heq⟩
    · rw [heq, hdone]
    · have hjk : j ≠ k := by
        rintro rfl
        obtain ⟨hle, hd, hreq, hxd, -⟩ := h.completes hb hheader hk hkdone
        have hlast := (h.sequential.xid_eq hreq hdone).2
        omega
      rw [heq, Function.update_of_ne hjk, hdone]
  · dsimp only
    rw [hsame]
    obtain ⟨j, hj, hargs⟩ := h.requested r hr hc
    refine ⟨j, ?_, hargs⟩
    rcases hcases with heq | ⟨k, -, -, heq⟩
    · rw [heq, hj]
    · by_cases hjk : j = k
      · subst hjk
        rw [heq, Function.update_self]
        exact hj
      · rw [heq, Function.update_of_ne hjk, hj]
  · dsimp only at hk ⊢
    rw [hsame] at hk ⊢
    rcases hcases with heq | ⟨j, hj, hjdone, heq⟩
    · rw [heq] at hk ⊢
      exact h.completed k hk
    · by_cases hkj : k = j
      · subst hkj
        obtain ⟨-, hd, hreq, -, ha⟩ := h.completes hb hheader hj hjdone
        rw [heq, Function.update_self]
        exact ⟨hd, b, ret, hreq, ha, rfl, rfl⟩
      · rw [heq, Function.update_of_ne hkj] at hk ⊢
        exact h.completed k hk

end YFS.Rpc.Exchange.InStep
