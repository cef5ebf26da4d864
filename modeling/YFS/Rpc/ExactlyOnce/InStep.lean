import YFS.Rpc.Replay
import YFS.Rpc.Sequential

/-! # A client in step with the server -/

namespace YFS.Rpc
open YFS.Library

variable {ι : Type} [DecidableEq ι]

namespace Callers

def Own (cl : Callers ι) (c : ℕ) : Prop :=
  cl.cltNonce = c ∧ ∀ k h, (cl.callers k).request = some h → h.cltNonce = c

theorem Own.step {cl cl' : Callers ι} {c : ℕ} {e : CallEvent ι} (h : cl.Own c)
    (hs : cl.step e = some cl') : cl'.Own c := by
  cases e with
  | call1 k proc =>
    simp only [Callers.step, Option.ite_none_right_eq_some] at hs
    obtain ⟨-, hs⟩ := hs
    split at hs
    · cases hs
      exact h
    · cases hs
      refine ⟨h.1, fun j hd hreq => ?_⟩
      by_cases hjk : j = k
      · subst hjk
        simp only [register, Function.update_self, Option.some.injEq] at hreq
        rw [← hreq]
        exact h.1
      · rw [(register_of_ne hjk).2] at hreq
        exact h.2 j hd hreq
  | gotPdu b =>
    simp only [Callers.step] at hs
    split at hs
    · cases hs
      exact h
    · simp only [accept, Option.some.injEq] at hs
      split at hs
      · subst hs
        exact h
      · rename_i k _
        split at hs
        · subst hs
          exact h
        · subst hs
          refine ⟨h.1, fun j hd hreq => h.2 j hd ?_⟩
          by_cases hjk : j = k
          · subst hjk
            simpa using hreq
          · simpa [hjk] using hreq
  | cancel =>
    cases hs
    refine ⟨h.1, fun j hd hreq => h.2 j hd ?_⟩
    simp only [cancel] at hreq
    split at hreq <;> exact hreq
  | leave k =>
    simp only [Callers.step, Option.ite_none_right_eq_some, Option.some.injEq] at hs
    obtain ⟨-, rfl⟩ := hs
    exact h
  | ret k =>
    simp only [Callers.step, Option.ite_none_right_eq_some, Option.some.injEq] at hs
    obtain ⟨-, rfl⟩ := hs
    exact h
  | bound n =>
    cases hs
    exact h

/-- A step of a steady client that is not `got_pdu` changes at most the record of a call that
begins. -/
theorem record_of_step {cl cl' : Callers ι} {nonce : ℕ} {e : CallEvent ι} (he : cl.Steady nonce e)
    (hb : ∀ b, e ≠ .gotPdu b) (hs : cl.step e = some cl') (k : ι) :
    cl'.callers k = cl.callers k ∨ cl.pc k = .idle ∧ (cl'.callers k).done = false := by
  cases e with
  | call1 j proc =>
    simp only [Callers.step, Option.ite_none_right_eq_some] at hs
    obtain ⟨hj, hs⟩ := hs
    split at hs
    · cases hs
      exact .inl rfl
    · cases hs
      by_cases hkj : k = j
      · subst hkj
        exact .inr ⟨hj, by simp [register]⟩
      · exact .inl (register_of_ne hkj).2
  | gotPdu b => exact absurd rfl (hb b)
  | cancel => exact he.elim
  | leave j =>
    simp only [Callers.step, Option.ite_none_right_eq_some, Option.some.injEq] at hs
    obtain ⟨-, rfl⟩ := hs
    exact .inl rfl
  | ret j =>
    simp only [Callers.step, Option.ite_none_right_eq_some, Option.some.injEq] at hs
    obtain ⟨-, rfl⟩ := hs
    exact .inl rfl
  | bound n =>
    cases hs
    exact .inl rfl

/-- Such a step begins a call where no other one waits, or leaves every call waiting that has not
been answered. -/
theorem registered_of_step {cl cl' : Callers ι} {nonce : ℕ} {e : CallEvent ι}
    (he : cl.Steady nonce e) (hb : ∀ b, e ≠ .gotPdu b) (hs : cl.step e = some cl') :
    (cl'.registered = cl.registered ∧ ∀ k, cl.pc k = .waiting → (cl.callers k).done = false →
      cl'.pc k = .waiting) ∨
    (cl'.registered = cl.registered + 1 ∧ (∀ j, cl.pc j ≠ .waiting) ∧
      ∃ k, cl'.pc k = .waiting ∧ (cl'.callers k).done = false) := by
  have hkeep {j : ι} {p : CallPc} (hj : cl.pc j ≠ .waiting ∨ (cl.callers j).done = true) (k : ι)
      (hk : cl.pc k = .waiting) (hdone : (cl.callers k).done = false) :
      Function.update cl.pc j p k = .waiting := by
    rw [Function.update_of_ne, hk]
    rintro rfl
    rcases hj with hj | hj
    · exact hj hk
    · rw [hdone] at hj
      cases hj
  cases e with
  | call1 j proc =>
    simp only [Callers.step, Option.ite_none_right_eq_some] at hs
    obtain ⟨hj, hs⟩ := hs
    split at hs
    · cases hs
      exact .inl ⟨rfl, hkeep (.inl (by simp [hj]))⟩
    · cases hs
      exact .inr ⟨rfl, he.1, j, by simp [register], by simp [register]⟩
  | gotPdu b => exact absurd rfl (hb b)
  | cancel => exact he.elim
  | leave j =>
    simp only [Callers.step, Option.ite_none_right_eq_some, Option.some.injEq] at hs
    obtain ⟨-, rfl⟩ := hs
    exact .inl ⟨rfl, hkeep (.inr he)⟩
  | ret j =>
    simp only [Callers.step, Option.ite_none_right_eq_some, Option.some.injEq] at hs
    obtain ⟨hj, rfl⟩ := hs
    exact .inl ⟨rfl, hkeep (.inl (by simp [hj]))⟩
  | bound n =>
    cases hs
    exact .inl ⟨rfl, fun _ hk _ => hk⟩

/-- A reply completes the call under its xid that has not been answered, or nothing. -/
theorem gotPdu_cases {cl cl' : Callers ι} {b : Bytes} {xid ret : BitVec 32}
    (hb : replyHeader b = some (xid, ret)) (hs : cl.step (.gotPdu b) = some cl') :
    cl'.registered = cl.registered ∧ cl'.pc = cl.pc ∧
      (cl'.callers = cl.callers ∨ ∃ k, cl.calls.lookup xid.toNat = some k ∧
        (cl.callers k).done = false ∧ cl'.callers = Function.update cl.callers k
          { cl.callers k with un := Unmarshall.takeIn b, intret := ret, done := true }) := by
  simp only [Callers.step, hb, accept, Option.some.injEq] at hs
  split at hs
  · subst hs
    exact ⟨rfl, rfl, .inl rfl⟩
  · rename_i k hk
    split at hs
    · subst hs
      exact ⟨rfl, rfl, .inl rfl⟩
    · rename_i hdone
      subst hs
      exact ⟨rfl, rfl, .inr ⟨k, hk, Bool.not_eq_true _ ▸ hdone, rfl⟩⟩

end Callers

/-- What a PDU for client `c` can be: the reply to a run for the client, or a refusal of a request
that is not the last one. -/
def Replied (ran : List (Run × BitVec 32 × List Value)) (c top : ℕ) (b : Bytes) : Prop :=
  (∃ r ret, r.header.cltNonce = c ∧ Answers ran r ret b) ∨
    ∃ x ret, replyHeader b = some (x, ret) ∧ x.toNat < top

theorem Replied.mono {ran ran' : List (Run × BitVec 32 × List Value)} {c top top' : ℕ} {b : Bytes}
    (h : Replied ran c top b) (hsub : ran ⊆ ran') (htop : top ≤ top') : Replied ran' c top' b := by
  rcases h with ⟨r, ret, hr, ha⟩ | ⟨x, ret, hb, hx⟩
  · exact .inl ⟨r, ret, hr, ha.mono hsub⟩
  · exact .inr ⟨x, ret, hb, hx.trans_le htop⟩

theorem Replied.refusal {ran : List (Run × BitVec 32 × List Value)} {c top x : ℕ} {ret : BitVec 32}
    {mem : ℕ → UInt8} {b : Bytes} (hb : replyBuf mem x ret [] = some b) (hx : x < top)
    (hshort : x < 2 ^ 32) : Replied ran c top (sized b) := by
  obtain ⟨hpdu, hle⟩ := replyBuf_isPdu (by decide) hb
  obtain ⟨hpdu, hlen⟩ := isPdu_sized hpdu
  refine .inr ⟨_, _, replyHeader_of_isPdu hpdu (hlen.le.trans hle), ?_⟩
  rwa [BitVec.toNat_ofNat, Nat.mod_eq_of_lt hshort]

namespace Exchange

/-- Client `c` is steady, and the replies to it fit into a PDU. -/
def Steady (c : ℕ) (s : Exchange ι) : ExchangeEvent ι → Prop
  | .client d e => d = c → (s.client c).Steady s.server.nonce e
  | .finish n _ vals _ => ∀ r ∈ s.jobs[n]?, r.header.cltNonce = c →
      RPC_HEADER_SZ + (encodeAll vals).length ≤ MAX_PDU
  | _ => True

/-- The buffer holds the reply to a run for client `c`. -/
def Recorded (s : Exchange ι) (c b : ℕ) : Prop :=
  ∃ bytes r ret, s.buffers[b - 1]? = some bytes ∧ r.header.cltNonce = c ∧ Answers s.ran r ret bytes

/-- Client `c` and the server are in step: `top` is the last request of the client that has arrived.
-/
structure InStep (args : ℕ → ι → List Value) (c top : ℕ) (s : Exchange ι) : Prop where
  own : ∀ d, (s.client d).Own d
  sequential : (s.client c).Sequential s.server.nonce
  window : Contiguous (opened (s.server.replyWindow c)) top
  last : (s.client c).registered = top ∨ (s.client c).registered = top + 1 ∧
    ∃ k, (s.client c).pc k = .waiting ∧ ((s.client c).callers k).done = false
  runs : ∀ x, s.runs c x = if 1 ≤ x ∧ x ≤ top then 1 else 0
  requested : ∀ r ∈ s.jobs ++ s.ran.map Prod.fst, r.header.cltNonce = c →
    ∃ k, ((s.client c).callers k).request = some r.header ∧ r.args = args c k
  stored : ∀ e ∈ s.server.replyWindow c, e.cbPresent = true → e.xid ≠ 0 → s.Recorded c e.buf
  sending : ∀ b, (c, b) ∈ s.sending → s.Recorded c b
  replies : ∀ b, (c, b) ∈ s.replies → Replied s.ran c top b
  completed : ∀ k, ((s.client c).callers k).done = true → ∃ h b ret,
    ((s.client c).callers k).request = some h ∧ Answers s.ran ⟨h, args c k⟩ ret b ∧
      ((s.client c).callers k).intret = ret ∧ ((s.client c).callers k).un = Unmarshall.takeIn b

variable {args : ℕ → ι → List Value} {c top : ℕ} {s s' : Exchange ι}

namespace InStep
variable (h : InStep args c top s)
include h

omit [DecidableEq ι] in
theorem registered_le : (s.client c).registered ≤ top + 1 ∧ top ≤ (s.client c).registered := by
  rcases h.last with heq | ⟨heq, -⟩ <;> omega

omit [DecidableEq ι] in
/-- A run for client `c` is one of a request that has arrived. -/
theorem xid_le_top {r : Run} (hr : r ∈ s.jobs ++ s.ran.map Prod.fst) (hc : r.header.cltNonce = c) :
    r.header.xid ≤ top := by
  have hpos : 0 < s.runs c r.header.xid := by
    rw [Exchange.runs, List.countP_pos_iff]
    exact ⟨r, hr, by simp [hc]⟩
  rw [h.runs] at hpos
  split at hpos
  · rename_i hx
    exact hx.2
  · cases hpos

/-! ### Changes that concern other clients or only add to the network -/

section
omit [DecidableEq ι]

theorem sendTo {d : ℕ} {b : Bytes} (hb : d = c → Replied s.ran c top (sized b)) :
    InStep args c top (s.sendTo d b) :=
  { h with
    replies := fun b' hb' => by
      rcases List.mem_append.mp hb' with hold | hnew
      · exact h.replies b' hold
      · cases List.mem_singleton.mp hnew
        exact hb rfl }

theorem addSending {d b : ℕ} (hb : d = c → s.Recorded c b) :
    InStep args c top { s with sending := s.sending ++ [(d, b)] } :=
  { h with
    sending := fun b' hb' => by
      rcases List.mem_append.mp hb' with hold | hnew
      · exact h.sending b' hold
      · cases List.mem_singleton.mp hnew
        exact hb rfl }

theorem addJob {r : Run} (hr : r.header.cltNonce ≠ c) :
    InStep args c top { s with jobs := s.jobs ++ [r] } :=
  { h with
    runs := fun x => by
      rw [← h.runs x]
      simp [Exchange.runs, hr]
    requested := fun r' hr' hc => by
      refine h.requested r' ?_ hc
      simp only [List.mem_append, List.mem_singleton] at hr' ⊢
      rcases hr' with (hr' | rfl) | hr'
      · exact .inl hr'
      · exact absurd hc hr
      · exact .inr hr' }

theorem setServer {server : Rpcs} {freed : List ℕ} (hnonce : server.nonce = s.server.nonce)
    (hwindow : Contiguous (opened (server.replyWindow c)) top)
    (hstored : ∀ e ∈ server.replyWindow c, e.cbPresent = true → e.xid ≠ 0 →
      e ∈ s.server.replyWindow c) :
    InStep args c top { s with server := server, freed := freed } :=
  { h with
    sequential := by
      dsimp only
      rw [hnonce]
      exact h.sequential
    window := hwindow
    stored := fun e he hcb hx => h.stored e (hstored e he hcb hx) hcb hx }

theorem setClient {d : ℕ} {cl : Callers ι} (hd : d ≠ c) (hown : cl.Own d) :
    InStep args c top { s with client := Function.update s.client d cl } := by
  have hsame : Function.update s.client d cl c = s.client c := Function.update_of_ne hd.symm ..
  refine
    { h with
      own := fun d' => ?_
      sequential := ?_
      last := ?_
      requested := ?_
      completed := ?_ }
  · by_cases hd' : d' = d
    · subst hd'
      simpa using hown
    · simpa [hd'] using h.own d'
  · dsimp only
    rw [hsame]
    exact h.sequential
  · dsimp only
    rw [hsame]
    exact h.last
  · dsimp only
    rw [hsame]
    exact h.requested
  · dsimp only
    rw [hsame]
    exact h.completed

end

end InStep
end Exchange

end YFS.Rpc
