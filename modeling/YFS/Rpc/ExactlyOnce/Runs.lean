import YFS.Rpc.ExactlyOnce.Client
import YFS.Rpc.ExactlyOnce.Server

/-! # Exactly once

Whatever the network loses, repeats and delays, and whatever other clients do: a client that
makes its calls one at a time and waits for each reply gets from every call just what one run of
the handler on its arguments has returned, and the handler has been run for it once.
-/

namespace YFS.Rpc
open YFS.Library

variable {ι : Type} [DecidableEq ι]

namespace Exchange.InStep

variable {args : ℕ → ι → List Value} {c top : ℕ} {s s' : Exchange ι} (h : InStep args c top s)
include h

theorem step {e : ExchangeEvent ι} (hc0 : c ≠ 0) (he : s.Steady c e)
    (hs : s.step args e = some s') : ∃ top', InStep args c top' s' := by
  cases e with
  | client d e =>
    have hb : ∀ b, e ≠ .gotPdu b := by
      rintro b rfl
      simp [Exchange.step] at hs
    have hstep : ((s.client d).step e).map
        (fun cl => { s with client := Function.update s.client d cl }) = some s' := by
      cases e with
      | gotPdu b => exact absurd rfl (hb b)
      | _ => exact hs
    obtain ⟨cl, hcl, rfl⟩ := Option.map_eq_some_iff.mp hstep
    by_cases hd : d = c
    · subst hd
      exact ⟨top, h.client (he rfl) hb hcl⟩
    · exact ⟨top, h.setClient hd ((h.own d).step hcl)⟩
  | request d k mem =>
    cases hreq : ((s.client d).callers k).request with
    | none => simp [Exchange.step, hreq] at hs
    | some hd =>
      simp only [Exchange.step, hreq] at hs
      obtain ⟨⟨server, disp⟩, hdisp, hs⟩ := Option.bind_eq_some_iff.mp hs
      by_cases hdc : d = c
      · subst hdc
        exact h.requestOwn hc0 hreq hdisp hs
      · exact ⟨top, h.requestOther hdc ((h.own d).2 k hd hreq) hdisp hs⟩
  | finish n ret vals mem =>
    cases hn : s.jobs[n]? with
    | none => simp [Exchange.step, hn] at hs
    | some r =>
      simp only [Exchange.step, hn, Option.ite_none_left_eq_some] at hs
      obtain ⟨b, hb, rfl⟩ := Option.map_eq_some_iff.mp hs.2
      exact ⟨top, h.finish hn (he r hn) hb⟩
  | send n =>
    cases hn : s.sending[n]? with
    | none => simp [Exchange.step, hn] at hs
    | some p =>
      simp only [Exchange.step, hn] at hs
      obtain ⟨bytes, hb, rfl⟩ := Option.map_eq_some_iff.mp hs
      exact ⟨top, h.send hn hb⟩
  | reply d b =>
    simp only [Exchange.step, Option.ite_none_right_eq_some] at hs
    obtain ⟨⟨hb, -⟩, hs⟩ := hs
    obtain ⟨cl, hcl, rfl⟩ := Option.map_eq_some_iff.mp hs
    by_cases hd : d = c
    · subst hd
      exact ⟨top, h.gotPdu (h.replies b hb) hcl⟩
    · exact ⟨top, h.setClient hd ((h.own d).step hcl)⟩

end Exchange.InStep

instance Callers.decidableSteady [Fintype ι] (cl : Callers ι) (nonce : ℕ) :
    (e : CallEvent ι) → Decidable (cl.Steady nonce e)
  | .call1 _ _ =>
    inferInstanceAs (Decidable ((∀ j, cl.pc j ≠ .waiting) ∧ cl.registered + 2 < 2 ^ 32))
  | .gotPdu _ => isTrue trivial
  | .cancel => isFalse id
  | .leave k => inferInstanceAs (Decidable ((cl.callers k).done = true))
  | .ret _ => isTrue trivial
  | .bound n => inferInstanceAs (Decidable (n = nonce))

instance Exchange.decidableSteady [Fintype ι] (c : ℕ) (s : Exchange ι) :
    (e : ExchangeEvent ι) → Decidable (s.Steady c e)
  | .client d e =>
    haveI := Callers.decidableSteady (s.client c) s.server.nonce e
    inferInstanceAs (Decidable (d = c → (s.client c).Steady s.server.nonce e))
  | .finish n _ vals _ => inferInstanceAs (Decidable (∀ r ∈ s.jobs[n]?, r.header.cltNonce = c →
      RPC_HEADER_SZ + (encodeAll vals).length ≤ MAX_PDU))
  | .request _ _ _ => isTrue trivial
  | .send _ => isTrue trivial
  | .reply _ _ => isTrue trivial

end YFS.Rpc
