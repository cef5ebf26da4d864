import YFS.Rpc.ExactlyOnce.InStep

/-! # The steps of the server keep its clients in step -/

namespace YFS.Rpc.Exchange.InStep
open YFS.Library

variable {ι : Type} [DecidableEq ι] {args : ℕ → ι → List Value} {c top : ℕ} {s s' : Exchange ι}
  (h : InStep args c top s)
include h

omit [DecidableEq ι] in
theorem requestOther {d : ℕ} {r : Run} {mem : ℕ → UInt8} {server : Rpcs} {freed : List ℕ}
    {disp : Disposition} (hd : d ≠ c) (hr : r.header.cltNonce = d)
    (hdisp : s.server.dispatch r.header = some (server, disp))
    (hs : serve { s with server := server, freed := freed } d r mem disp = some s') :
    InStep args c top s' := by
  have hserver : server.nonce = s.server.nonce ∧
      server.replyWindow c = s.server.replyWindow c := by
    rw [Rpcs.dispatch] at hdisp
    split at hdisp
    · cases hdisp
      exact ⟨rfl, rfl⟩
    · split at hdisp
      · cases hdisp
        exact ⟨rfl, rfl⟩
      · split at hdisp
        · obtain ⟨⟨a, w⟩, -, hdisp⟩ := Option.bind_eq_some_iff.mp hdisp
          cases hdisp
          exact ⟨rfl, Rpcs.setWindow_of_ne _ (hr ▸ hd.symm) _⟩
        · cases hdisp
          exact ⟨rfl, rfl⟩
  have h' : InStep args c top { s with server := server, freed := freed } := by
    refine h.setServer hserver.1 ?_ fun e he _ _ => hserver.2 ▸ he
    rw [hserver.2]
    exact h.window
  cases disp with
  | oldServer =>
    simp only [serve] at hs
    obtain ⟨b, -, rfl⟩ := Option.map_eq_some_iff.mp hs
    exact h'.sendTo fun hdc => absurd hdc hd
  | badProc =>
    cases hs
    exact h'
  | served a =>
    simp only [serve] at hs
    split at hs
    · cases hs
      exact h'.addJob (hr.trans_ne hd)
    · cases hs
      exact h'
    · obtain ⟨out, -, rfl⟩ := Option.map_eq_some_iff.mp hs
      exact h'.addSending fun hdc => absurd hdc hd
    · obtain ⟨b, -, rfl⟩ := Option.map_eq_some_iff.mp hs
      exact h'.sendTo fun hdc => absurd hdc hd

omit [DecidableEq ι] in
/-- A request that arrives for the first time is the next one, and its handler is run. -/
theorem admitted {k : ι} {hd : ReqHeader} {freed : List ℕ}
    (hreq : ((s.client c).callers k).request = some hd) (hx : hd.xid = top + 1) :
    InStep args c (top + 1) { s with
      server := s.server.setWindow c (opened (s.server.replyWindow c) ++ [Reply.new hd.xid])
      freed := freed
      jobs := s.jobs ++ [⟨hd, args c k⟩] } := by
  have hnonce : hd.cltNonce = c := (h.own c).2 k hd hreq
  have hle := (h.sequential.request k hd hreq).2.2
  have hreg := h.registered_le.1
  refine
    { h with
      window := ?_
      last := .inl (by dsimp only; omega)
      runs := fun x => ?_
      requested := fun r hr hc => ?_
      stored := fun e he hcb hxe => ?_
      replies := fun b hb => (h.replies b hb).mono (List.Subset.refl _) (Nat.le_succ _) }
  · dsimp only
    rw [Rpcs.setWindow_self, opened_of_ne_nil (by simp), hx]
    exact h.window.concat
  · have hruns := h.runs x
    simp only [Exchange.runs, List.countP_append, List.countP_singleton, hnonce, hx] at hruns ⊢
    by_cases hxt : top + 1 = x
    · subst hxt
      simp only [decide_true, Bool.and_self, if_true]
      rw [if_neg (by omega)] at hruns
      rw [if_pos (by omega)]
      omega
    · simp only [hxt, decide_false, Bool.and_false, Bool.false_eq_true, if_false, Nat.add_zero]
      rw [hruns]
      apply if_congr _ rfl rfl
      omega
  · simp only [List.mem_append, List.mem_singleton] at hr
    rcases hr with (hr | rfl) | hr
    · exact h.requested r (List.mem_append_left _ hr) hc
    · exact ⟨k, hreq, rfl⟩
    · exact h.requested r (List.mem_append_right _ hr) hc
  · dsimp only at he
    rw [Rpcs.setWindow_self] at he
    rcases List.mem_append.mp he with he | he
    · exact h.stored e (mem_opened he hxe) hcb hxe
    · rw [List.mem_singleton.mp he] at hcb
      cases hcb

omit [DecidableEq ι] in
/-- A request of the client, however often it has arrived before. -/
theorem requestOwn {k : ι} {hd : ReqHeader} {mem : ℕ → UInt8} {server : Rpcs} {freed : List ℕ}
    {disp : Disposition} (hc0 : c ≠ 0) (hreq : ((s.client c).callers k).request = some hd)
    (hdisp : s.server.dispatch hd = some (server, disp))
    (hs : serve { s with server := server, freed := freed } c ⟨hd, args c k⟩ mem disp = some s') :
    ∃ top', InStep args c top' s' := by
  have hnonce : hd.cltNonce = c := (h.own c).2 k hd hreq
  obtain ⟨hsrv, hpos, hle⟩ := h.sequential.request k hd hreq
  have hnew := h.registered_le.1
  have hshort := h.sequential.short
  by_cases hproc : s.server.procs hd.proc = true
  · have hreach : s.server.Reaches hd := ⟨hsrv, hproc, hnonce.trans_ne hc0⟩
    rw [Rpcs.dispatch_reaches hreach, hnonce] at hdisp
    obtain ⟨⟨a, w⟩, hcheck, hdisp⟩ := Option.map_eq_some_iff.mp hdisp
    cases hdisp
    have ho : Outcome (opened (s.server.replyWindow c)) hd.xid a w := by
      rcases check_cases hd.xid hd.xidRep h.window.lastMax with ⟨-, hnone⟩ | ⟨-, a', w', hsome, ho⟩
      · rw [hcheck] at hnone
        cases hnone
      · rw [hcheck] at hsome
        cases hsome
        exact ho
    rcases h.window.outcome ho (by omega) with ⟨rfl, hx, rfl⟩ | ⟨ha, hw⟩
    · cases hs
      exact ⟨top + 1, h.admitted hreq hx⟩
    · have hcontiguous : Contiguous w top := by
        rcases hw with rfl | rfl
        · exact h.window
        · exact h.window.moved
      have hstay : InStep args c top
          { s with server := s.server.setWindow c w, freed := freed } := by
        refine h.setServer rfl ?_ fun e he _ hxe => ?_
        · rw [Rpcs.setWindow_self, opened_of_ne_nil hcontiguous.ne_nil]
          exact hcontiguous
        · rw [Rpcs.setWindow_self] at he
          rcases hw with rfl | rfl
          · exact mem_opened he hxe
          · exact mem_opened (mem_of_mem_moved he) hxe
      refine ⟨top, ?_⟩
      rcases ha with ⟨hlt, rfl⟩ | ⟨-, e, he, hxe, rfl⟩
      · simp only [serve] at hs
        obtain ⟨b, hb, rfl⟩ := Option.map_eq_some_iff.mp hs
        exact hstay.sendTo fun _ => .refusal hb hlt (by omega)
      · cases hcb : e.cbPresent with
        | false =>
          simp only [serve, Reply.answer, hcb, Bool.false_eq_true, if_false, Option.some.injEq] at hs
          subst hs
          exact hstay
        | true =>
          have hxe : e.xid ≠ 0 := by omega
          simp only [serve, Reply.answer, hcb, if_true, Option.map_some, Option.some.injEq] at hs
          subst hs
          exact hstay.addSending fun _ => h.stored e (mem_opened he hxe) hcb hxe
  · have hold : ¬ (hd.srvNonce ≠ 0 ∧ hd.srvNonce ≠ s.server.nonce) := by tauto
    rw [Rpcs.dispatch, if_neg hold, if_pos (Bool.not_eq_true _ ▸ hproc)] at hdisp
    cases hdisp
    cases hs
    exact ⟨top, h.setServer rfl h.window fun e he _ _ => he⟩

omit h [DecidableEq ι] in
theorem recorded_concat {b : ℕ} {bytes : Bytes} {res : Run × BitVec 32 × List Value}
    (hb : s.Recorded c b) :
    Recorded { s with buffers := s.buffers ++ [bytes], ran := s.ran ++ [res] } c b := by
  obtain ⟨old, r, ret, hget, hr, ha⟩ := hb
  refine ⟨old, r, ret, ?_, hr, ha.mono (List.subset_append_left ..)⟩
  exact (List.getElem?_append_left (List.getElem?_eq_some_iff.mp hget).1).trans hget

omit [DecidableEq ι] in
theorem finish {n : ℕ} {r : Run} {ret : BitVec 32} {vals : List Value} {mem : ℕ → UInt8} {b : Bytes}
    (hn : s.jobs[n]? = some r)
    (hfit : r.header.cltNonce = c → RPC_HEADER_SZ + (encodeAll vals).length ≤ MAX_PDU)
    (hb : replyBuf mem r.header.xid ret vals = some b) :
    InStep args c top (Exchange.finish { s with jobs := s.jobs.eraseIdx n } r ret vals b) := by
  have hperm : (s.jobs.eraseIdx n ++ (s.ran ++ [(r, ret, vals)]).map Prod.fst).Perm
      (s.jobs ++ s.ran.map Prod.fst) := by
    obtain ⟨hlt, rfl⟩ := List.getElem?_eq_some_iff.mp hn
    rw [List.map_append, ← List.append_assoc]
    refine List.perm_append_comm.trans ?_
    exact (List.getElem_cons_eraseIdx_perm hlt).append_right _
  have hsub : s.ran ⊆ s.ran ++ [(r, ret, vals)] := List.subset_append_left ..
  have hnew (hc : r.header.cltNonce = c) : Recorded { s with
      buffers := s.buffers ++ [b]
      ran := s.ran ++ [(r, ret, vals)] } c (s.buffers.length + 1) := by
    obtain ⟨hpdu, hle⟩ := replyBuf_isPdu (hfit hc) hb
    exact ⟨b, r, ret, by simp, hc, vals, by simp, hpdu, hle⟩
  refine
    { h with
      sequential := ?_
      window := ?_
      runs := fun x => ?_
      requested := fun r' hr' hc => ?_
      stored := fun e he hcb hx => ?_
      sending := fun b' hb' => ?_
      replies := fun b' hb' => (h.replies b' hb').mono hsub le_rfl
      completed := fun k hk => ?_ }
  · simp only [Exchange.finish]
    split
    · exact h.sequential
    · exact h.sequential
  · simp only [Exchange.finish]
    split
    · by_cases hc : c = r.header.cltNonce
      · rw [← hc, Rpcs.setWindow_self]
        exact h.window.opened_addReply ..
      · rw [Rpcs.setWindow_of_ne _ hc]
        exact h.window
    · exact h.window
  · rw [← h.runs x]
    exact hperm.countP_eq _
  · exact h.requested r' (hperm.mem_iff.mp hr') hc
  · simp only [Exchange.finish] at he
    split at he
    · by_cases hc : c = r.header.cltNonce
      · rw [← hc, Rpcs.setWindow_self] at he
        obtain ⟨e₀, he₀, rfl⟩ := List.mem_map.mp he
        by_cases hxr : r.header.xid = e₀.xid
        · rw [if_pos hxr]
          exact hnew hc.symm
        · rw [if_neg hxr] at hcb hx ⊢
          exact recorded_concat (h.stored e₀ he₀ hcb hx)
      · rw [Rpcs.setWindow_of_ne _ hc] at he
        exact recorded_concat (h.stored e he hcb hx)
    · exact recorded_concat (h.stored e he hcb hx)
  · rcases List.mem_append.mp hb' with hold | hlast
    · exact recorded_concat (h.sending b' hold)
    · rw [List.mem_singleton, Prod.mk.injEq] at hlast
      rw [hlast.2]
      exact hnew hlast.1.symm
  · obtain ⟨hd, b', ret', hreq, ha, hrest⟩ := h.completed k hk
    exact ⟨hd, b', ret', hreq, ha.mono hsub, hrest⟩

omit [DecidableEq ι] in
theorem send {n d b : ℕ} {bytes : Bytes} {freed : List ℕ} (hn : s.sending[n]? = some (d, b))
    (hb : s.contents b = some bytes) :
    InStep args c top (Exchange.sendTo { s with
      sending := s.sending.eraseIdx n
      freed := freed } d bytes) := by
  have h' : InStep args c top { s with sending := s.sending.eraseIdx n, freed := freed } :=
    { h with sending := fun b' hb' => h.sending b' (List.mem_of_mem_eraseIdx hb') }
  refine h'.sendTo fun hdc => ?_
  subst hdc
  obtain ⟨bytes', r, ret, hget, hr, ha⟩ := h.sending b (List.mem_of_getElem? hn)
  rw [contents, Option.ite_none_left_eq_some] at hb
  obtain rfl : bytes' = bytes := Option.some.inj (hget.symm.trans hb.2)
  exact .inl ⟨r, ret, hr, ha.sized⟩

end YFS.Rpc.Exchange.InStep
