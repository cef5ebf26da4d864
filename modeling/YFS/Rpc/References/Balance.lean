import YFS.Rpc.References.Steps

/-! # References are released and dead connections deleted -/

namespace YFS.Rpc
open YFS.Library

namespace Refs

variable {ι κ : Type} [DecidableEq ι] [DecidableEq κ] {s : Refs ι κ} {c : κ} {nonce : ℕ}
  (procs : ℕ → Bool)

omit [DecidableEq ι] in
/-- With no job under way the only holders are entries of `conns_`. -/
theorem Balanced.settled (hs : s.Balanced) : s.RefsBalance := by
  intro hset c k hk
  obtain ⟨T, hT, hcard⟩ := hs.tally.holders c
  have hleft : T.toLeft = ∅ := by
    ext j
    rw [Finset.mem_toLeft, hT]
    rcases hset j with hj | hj <;> simp [held, hj, JobPc.conn]
  have href : k.refno = 1 + T.toRight.card := by
    have hsum := T.card_toLeft_add_card_toRight
    rw [hleft, Finset.card_empty, zero_add] at hsum
    rw [shared, hk, Option.elim_some, ← hsum] at hcard
    omega
  refine ⟨T.toRight, fun clt => ?_, href⟩
  rw [Finset.mem_toRight, hT, held, Sum.elim_inr, Option.join_eq_some_iff]

/-- The acceptor deletes a dead connection if and only if the creator's reference is the last. -/
theorem collect_iff {k : Conn} (hk : s.conns c = some k) (hdead : k.dead = true) :
    (∃ t ∈ s.step nonce procs (.collect c), t.conns c = none) ↔ k.refno = 1 := by
  have hstep : s.step nonce procs (.collect c) =
      if k.dead = true ∧ k.refno = 1 then s.decref c else some s := by
    simp only [step, hk]
  rw [hstep]
  constructor
  · rintro ⟨t, ht, hnone⟩
    by_contra hne
    rw [if_neg fun h => hne h.2] at ht
    cases ht
    rw [hk] at hnone
    cases hnone
  · intro hone
    rw [if_pos ⟨hdead, hone⟩, decref_last hk hdead hone]
    exact ⟨_, rfl, Function.update_self ..⟩

theorem Balanced.collectable_iff (hs : s.Balanced) :
    s.Collectable nonce procs ↔ s.Current := by
  refine forall_congr' fun hset => forall_congr' fun c => forall_congr' fun k => ?_
  refine forall_congr' fun hk => forall_congr' fun hdead => ?_
  obtain ⟨E, hE, href⟩ := hs.settled hset c k hk
  have hone : k.refno = 1 ↔ E = ∅ := by
    rw [← Finset.card_eq_zero]
    omega
  rw [collect_iff procs hk hdead, hone, Finset.eq_empty_iff_forall_notMem]
  exact forall_congr' fun clt => not_congr (hE clt)

end Refs

open Refs in
/-- In a run without requests for an old server, and in which no request without a client nonce
loses its connection before its reply, no step uses a connection that does not exist and the
references balance whenever the jobs have finished. Dead connections are then collectable if and
only if no entry of `conns_` is left that points to one. -/
theorem refs_balanced {ι κ : Type} [DecidableEq ι] [DecidableEq κ] (nonce : ℕ) (procs : ℕ → Bool)
    (es : List (RefEvent ι κ))
    (h : (refs ι κ nonce procs).Along (Plain nonce) (refs ι κ nonce procs).init es) :
    (∃ s, (refs ι κ nonce procs).run es = some s) ∧
      (refs ι κ nonce procs).Throughout RefsBalance (refs ι κ nonce procs).init es ∧
      ((refs ι κ nonce procs).Throughout (Collectable nonce procs) (refs ι κ nonce procs).init es ↔
        (refs ι κ nonce procs).Throughout Current (refs ι κ nonce procs).init es) := by
  have hinit : (refs ι κ nonce procs).init.Balanced := by
    refine ⟨?_, ⟨fun _ => nofun, fun _ => trivial⟩⟩
    have hnobody : (refs ι κ nonce procs).init.held = fun _ => none := by
      funext i
      cases i <;> rfl
    rw [hnobody]
    exact Tally.nobody
  have hprogress : ∀ s e, Balanced s → Plain nonce s e →
      ∃ t, (refs ι κ nonce procs).step s e = some t ∧ t.Balanced :=
    fun s e hs hp => step_balanced procs hs e hp
  have hstep : ∀ s e t, Balanced s → Plain nonce s e →
      (refs ι κ nonce procs).step s e = some t → t.Balanced := by
    intro s e t hs hp hst
    obtain ⟨u, hu, hb⟩ := hprogress s e hs hp
    rw [hst] at hu
    cases hu
    exact hb
  obtain ⟨s, hrun, -⟩ := Machine.Along.progress hprogress hinit h
  refine ⟨⟨s, hrun⟩, ?_, ?_⟩
  · exact Machine.Along.throughout (fun s hs => Balanced.settled hs) hstep hinit h
  · exact Machine.Along.throughout_congr (fun s hs => Balanced.collectable_iff procs hs) hstep hinit
      h

/-- The connection `false` dies while its request is served; the client repeats the request over
`true`, and the reply goes there. Then nothing but its creator refers to `false`. -/
def reconnect : List (RefEvent Bool Bool) :=
  [.accept false 1 0, .gotPdu false false (some ⟨1, 2, 7, 5, 0⟩) true, .start false,
    .register false, .check false .NEW, .die false, .accept true 2 0,
    .gotPdu true true (some ⟨1, 2, 7, 5, 0⟩) true, .start true, .register true,
    .check true .INPROGRESS, .swap false, .send false, .release false, .release true,
    .collect false]

instance {κ : Type} (nonce : ℕ) : DecidablePred fun pc : JobPc κ => Refs.ForServer nonce pc
  | .queued _ (some h) => inferInstanceAs (Decidable (h.srvNonce = 0 ∨ h.srvNonce = nonce))
  | .queued _ none | .idle | .oldServer _ | .register .. | .check .. | .running .. | .sending _
  | .release _ | .finished => isTrue trivial

instance {ι κ : Type} (s : Refs ι κ) : DecidablePred s.Answerable
  | .running c h => inferInstanceAs (Decidable (h.cltNonce ≠ 0 ∨ ∀ k ∈ s.conns c, k.dead = false))
  | .queued .. | .idle | .oldServer _ | .register .. | .check .. | .sending _
  | .release _ | .finished => isTrue trivial

instance {ι κ : Type} (nonce : ℕ) (s : Refs ι κ) : DecidablePred (s.Plain nonce)
  | .start j => inferInstanceAs (Decidable (Refs.ForServer nonce (s.jobs j)))
  | .swap j => inferInstanceAs (Decidable (s.Answerable (s.jobs j)))
  | .accept .. | .die _ | .collect _ | .gotPdu .. | .register _ | .check .. | .send _
  | .release _ => isTrue trivial

instance {ι κ : Type} [Fintype ι] [DecidableEq κ] (s : Refs ι κ) : Decidable s.Settled :=
  inferInstanceAs (Decidable (∀ _, _))

instance {ι κ : Type} [Fintype ι] [DecidableEq ι] [Fintype κ] [DecidableEq κ] (nonce : ℕ)
    (procs : ℕ → Bool) (s : Refs ι κ) : Decidable (s.Collectable nonce procs) :=
  inferInstanceAs (Decidable (s.Settled → _))

open Refs in
theorem refs_balanced_reconnect :
    (refs Bool Bool 5 fun _ => true).Along (Plain 5) (refs Bool Bool 5 fun _ => true).init
        reconnect ∧
      (∃ s, (refs Bool Bool 5 fun _ => true).run reconnect = some s) ∧
      (refs Bool Bool 5 fun _ => true).Throughout RefsBalance
        (refs Bool Bool 5 fun _ => true).init reconnect ∧
      (refs Bool Bool 5 fun _ => true).Throughout (Collectable 5 fun _ => true)
        (refs Bool Bool 5 fun _ => true).init reconnect ∧
      (refs Bool Bool 5 fun _ => true).Throughout Current
        (refs Bool Bool 5 fun _ => true).init reconnect := by
  have hplain : (refs Bool Bool 5 fun _ => true).Along (Plain 5)
      (refs Bool Bool 5 fun _ => true).init reconnect := by decide
  have hcollect : (refs Bool Bool 5 fun _ => true).Throughout (Collectable 5 fun _ => true)
      (refs Bool Bool 5 fun _ => true).init reconnect := by decide
  obtain ⟨hrun, hbalance, hiff⟩ := refs_balanced 5 (fun _ => true) reconnect hplain
  exact ⟨hplain, hrun, hbalance, hcollect, hiff.mp hcollect⟩

def departed : List (RefEvent Bool Bool) :=
  [.accept true 1 0, .gotPdu true true (some ⟨1, 2, 7, 5, 0⟩) true, .start true, .register true,
    .check true .NEW, .swap true, .send true, .release true, .die true, .collect true]

open Refs in
/-- A request for an old server leaves its reference, so that the dead connection is not deleted; a
request without a client nonce whose connection dies ends in `incref` of `NULL`; and the entry of a
client that does not come back keeps its dead connection. -/
theorem refs_leaked :
    (∃ s, (refs Bool Bool 5 fun _ => true).run [.accept true 1 0,
        .gotPdu true true (some ⟨1, 2, 7, 4, 0⟩) true, .start true, .send true, .die true,
        .collect true] = some s ∧
      s.conns true = some ⟨true, 2, 1, 0⟩ ∧ (∀ clt, s.latest clt = none) ∧ ¬s.RefsBalance) ∧
    (refs Bool Bool 5 fun _ => true).run [.accept true 1 0,
      .gotPdu true true (some ⟨1, 2, 0, 5, 0⟩) true, .start true, .die true,
      .swap true] = none ∧
    (refs Bool Bool 5 fun _ => true).Along (Plain 5) (refs Bool Bool 5 fun _ => true).init
        departed ∧
    ∃ s, (refs Bool Bool 5 fun _ => true).run departed = some s ∧
      s.conns true = some ⟨true, 2, 1, 0⟩ ∧ s.latest 7 = some (some true) ∧
      ¬s.Collectable 5 fun _ => true := by
  refine ⟨⟨_, rfl, rfl, fun _ => rfl, fun h => ?_⟩, rfl, by decide, _, rfl, rfl, rfl, by decide⟩
  obtain ⟨E, hE, href⟩ := h (fun j => by cases j; exacts [.inl rfl, .inr rfl]) true _ rfl
  have hempty : E = ∅ := Finset.eq_empty_of_forall_notMem fun clt hclt => nomatch (hE clt).mp hclt
  rw [hempty] at href
  exact absurd href (by decide)

end YFS.Rpc
