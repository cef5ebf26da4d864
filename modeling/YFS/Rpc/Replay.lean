import YFS.Rpc.Server

/-! # Replay of recorded replies

`DONE` is the initial value of the result, so it is also what a scan answers that
matches nothing. That happens exactly when the scan drops the front entry and the
xid belongs between the two entries behind it: `reply_iter_after` still points at
the entry that has become the front, and the gap to the next one is never looked
at. Every `DONE` that comes from a match carries the latest recorded reply.
-/

namespace YFS.Rpc
open YFS.Library

/-- The buffer and size of the latest `add_reply` for this client and xid. -/
def ServerState.lastStored (s : ServerState) (c x : ℕ) : Option (ℕ × ℤ) :=
  s.seen.findSome? fun
    | .stored c' x' b sz => if c' = c ∧ x' = x then some (b, sz) else none
    | _ => none

/-- The request gets an answer, and if this is `DONE` then a reply for this very client and xid
was recorded before and `*b` and `*sz` are set to what was recorded. -/
def Replays (s : ServerState) : ServerEvent → Prop
  | .pdu h => s.srv.Reaches h →
      ∃ a w, checkduplicateAndUpdate (s.srv.replyWindow h.cltNonce) h.xid h.xidRep = some (a, w) ∧
        (a.stat = .DONE → ∃ b sz, s.lastStored h.cltNonce h.xid = some (b, sz) ∧
          a.out = some (b, sz))
  | .reply .. => True

/-- The request does not fall through the scan behind a trimmed front entry and does not repeat
an answered only entry. -/
def Matched (s : ServerState) : ServerEvent → Prop
  | .pdu h => s.srv.Reaches h →
      fallsThrough h.xid (s.windowOf h) = false ∧ repeatsOnly h.xid (s.windowOf h) = false
  | .reply .. => True

/-- Every entry that claims to have a reply holds the latest recorded one. -/
structure Faithful (s : ServerState) : Prop where
  lastMax : ∀ c, LastMax (opened (s.srv.replyWindow c))
  recorded : ∀ c, ∀ e ∈ s.srv.replyWindow c, e.cbPresent = true → e.xid ≠ 0 →
    s.lastStored c e.xid = some (e.buf, e.sz)

theorem faithful_init (nonce : ℕ) (procs : ℕ → Bool) : Faithful (server nonce procs).init where
  lastMax _ := LastMax.opened_nil
  recorded c e he := absurd he (by simp [server])

theorem mem_opened {w : List Reply} {e : Reply} (h : e ∈ opened w) (hx : e.xid ≠ 0) : e ∈ w := by
  cases w with
  | nil =>
    rw [opened_nil, List.mem_singleton] at h
    subst h
    exact absurd rfl hx
  | cons f w => exact h

theorem lastStored_record (s : ServerState) (h : ReqHeader) (d : Disposition) (srv : Rpcs)
    (c x : ℕ) : (⟨srv, record h d ++ s.seen⟩ : ServerState).lastStored c x = s.lastStored c x := by
  cases d with
  | oldServer => rfl
  | badProc => rfl
  | served a =>
    by_cases hn : a.stat = .NEW <;> by_cases hc : h.cltNonce = 0 <;>
      simp [record, ServerState.lastStored, hn, hc]

theorem recorded_pdu {s t : ServerState} (hs : Faithful s) {h : ReqHeader}
    (ht : serverStep s (.pdu h) = some t) {c : ℕ} {e : Reply}
    (hmem : e ∈ t.srv.replyWindow c) (hcb : e.cbPresent = true) (hx : e.xid ≠ 0) :
    t.lastStored c e.xid = some (e.buf, e.sz) := by
  by_cases hr : s.srv.Reaches h
  · obtain ⟨a, w, -, ho, rfl⟩ := serverStep_outcome (hs.lastMax h.cltNonce) hr ht
    rw [lastStored_record]
    by_cases he : c = h.cltNonce
    · subst he
      rw [Rpcs.setWindow_self] at hmem
      rcases ho.mem_or_new hmem with hold | ⟨-, rfl⟩
      · exact hs.recorded _ e (mem_opened hold hx) hcb hx
      · cases hcb
    · exact hs.recorded c e (by simpa [he] using hmem) hcb hx
  · obtain ⟨d, hd, -⟩ := Rpcs.dispatch_not_reaches hr
    have ht' : t = ⟨s.srv, record h d ++ s.seen⟩ := by simpa [serverStep, hd] using ht.symm
    subst ht'
    rw [lastStored_record]
    exact hs.recorded c e hmem hcb hx

theorem recorded_reply {s : ServerState} (hs : Faithful s) (c x b : ℕ) (sz : ℤ) {c' : ℕ}
    {e : Reply} (hcb : e.cbPresent = true) (hx : e.xid ≠ 0)
    (hmem : e ∈ (s.srv.setWindow c (addReply (s.srv.replyWindow c) x b sz)).replyWindow c') :
    (⟨s.srv.setWindow c (addReply (s.srv.replyWindow c) x b sz),
      .stored c x b sz :: s.seen⟩ : ServerState).lastStored c' e.xid = some (e.buf, e.sz) := by
  have hstored (srv : Rpcs) (x' : ℕ) :
      (⟨srv, .stored c x b sz :: s.seen⟩ : ServerState).lastStored c' x' =
        if c = c' ∧ x = x' then some (b, sz) else s.lastStored c' x' := by
    simp only [ServerState.lastStored, List.findSome?_cons]
    split_ifs <;> rfl
  rw [hstored]
  by_cases he : c' = c
  · subst he
    simp only [Rpcs.setWindow_self, addReply, List.mem_map] at hmem
    obtain ⟨e', hmem', rfl⟩ := hmem
    by_cases hxe : x = e'.xid
    · simp [hxe]
    · simp only [hxe, if_false, and_false] at hcb hx ⊢
      exact hs.recorded _ e' hmem' hcb hx
  · have hold := hs.recorded c' e (by simpa [he] using hmem) hcb hx
    simpa [Ne.symm he] using hold

theorem faithful_step {s t : ServerState} {e : ServerEvent} (hs : Faithful s)
    (ht : serverStep s e = some t) : Faithful t where
  lastMax := lastMax_step hs.lastMax ht
  recorded c r hmem hcb hx := by
    cases e with
    | pdu h => exact recorded_pdu hs ht hmem hcb hx
    | reply c' x b sz =>
      cases ht
      exact recorded_reply hs c' x b sz hcb hx hmem

/-- A request that falls through is answered `DONE` with nothing stored. -/
theorem Outcome.of_fallsThrough {w : List Reply} {x : ℕ} {a : Answer} {w' : List Reply}
    (ho : Outcome w x a w') (hf : fallsThrough x w = true) : a = ⟨.DONE, none⟩ := by
  match w, ho, hf with
  | e :: f :: r, ho, hf =>
    simp only [fallsThrough, Bool.and_eq_true, decide_eq_true_eq, List.any_eq_true,
      List.all_eq_true, Bool.not_eq_true'] at hf
    obtain ⟨⟨⟨⟨⟨ht, hex⟩, hfx⟩, g, hg, hxg⟩, hne⟩, hgap⟩ := hf
    have hm : moved (e :: f :: r) = f :: r := by simp [moved, ht]
    cases ho with
    | fresh h => exact absurd (h g (by simp [hg])) (Nat.not_lt.mpr hxg)
    | below e' r' hw h =>
      cases hw
      omega
    | dropped e' f' r' hw _ _ h =>
      cases hw
      omega
    | held g' _ h hx =>
      rw [hm] at h
      rcases List.mem_cons.mp h with rfl | h
      · omega
      · exact absurd hx (hne g' h)
    | filled pre post cur next _ hw hp hl hr =>
      have hcomp : r = pre.tail ++ cur :: next :: post := by
        obtain ⟨p, ps, rfl⟩ := List.exists_cons_of_ne_nil (hp ht)
        rw [hm] at hw
        exact (List.cons.inj hw).2
      rw [hcomp, inGap_append_pair _ _ hl hr] at hgap
      cases hgap
    | missed _ => rfl

theorem replays_iff_matched {s : ServerState} {e : ServerEvent} (hs : Faithful s)
    (hv : Admissible 1 (2 ^ 32 - 1) s e) : Replays s e ↔ Matched s e := by
  cases e with
  | reply c x b sz => exact Iff.rfl
  | pdu h =>
    refine forall_congr' fun hr => ?_
    have hx : h.xid ≠ 0 := Nat.ne_of_gt (hv hr.2.2).1
    rcases check_cases h.xid h.xidRep (hs.lastMax h.cltNonce) with ⟨hrep, hn⟩ | ⟨hrep, a, w, hc, ho⟩
    · constructor
      · rintro ⟨a, w, hc, -⟩
        rw [hn] at hc
        cases hc
      · rintro ⟨-, hrep'⟩
        exact absurd (hrep.symm.trans hrep') (by simp)
    · constructor
      · rintro ⟨a', w', hc', hdone⟩
        rw [hc] at hc'
        cases hc'
        refine ⟨?_, hrep⟩
        by_contra hf
        have ha := ho.of_fallsThrough (Bool.not_eq_false _ ▸ hf)
        obtain ⟨b, sz, -, hout⟩ := hdone (by rw [ha])
        rw [ha] at hout
        cases hout
      · rintro ⟨hf, -⟩
        refine ⟨a, w, hc, fun hdone => ?_⟩
        cases ho with
        | held e _ he hex =>
          unfold Reply.answer at hdone ⊢
          split_ifs at hdone ⊢ with hcb
          refine ⟨e.buf, e.sz, ?_, rfl⟩
          have hold := mem_opened (mem_of_mem_moved he) (hex ▸ hx)
          rw [← hs.recorded _ e hold hcb (hex ▸ hx), hex]
        | missed hm =>
          change fallsThrough h.xid (opened (s.srv.replyWindow h.cltNonce)) = false at hf
          rw [hm] at hf
          cases hf
        | _ => cases hdone

/-- In every run of requests with positive xids and of replies to admitted requests, all answers
are given and every `DONE` replays the recorded reply, if and only if no request of the run
falls through the scan and none repeats an answered only entry. -/
theorem replay_correct_iff {nonce : ℕ} {procs : ℕ → Bool} {es : List ServerEvent}
    (hv : (server nonce procs).Along (Admissible 1 (2 ^ 32 - 1)) (server nonce procs).init es) :
    (server nonce procs).Along Replays (server nonce procs).init es ↔
      (server nonce procs).Along Matched (server nonce procs).init es :=
  Machine.Along.congr (I := Faithful) (fun _ _ _ hs _ _ ht => faithful_step hs ht)
    (fun _ _ hs hve => replays_iff_matched hs hve) (faithful_init nonce procs) hv

/-- A request, its reply and its retransmission. -/
theorem replay_correct_iff_retransmitted :
    (server 3 fun _ => true).Along (Admissible 1 (2 ^ 32 - 1)) (server 3 fun _ => true).init
      [.pdu (plainRequest 1), .reply 7 1 64 20, .pdu (plainRequest 1)] ∧
    ((server 3 fun _ => true).Along Replays (server 3 fun _ => true).init
      [.pdu (plainRequest 1), .reply 7 1 64 20, .pdu (plainRequest 1)] ↔
    (server 3 fun _ => true).Along Matched (server 3 fun _ => true).init
      [.pdu (plainRequest 1), .reply 7 1 64 20, .pdu (plainRequest 1)]) := by
  have hv : (server 3 fun _ => true).Along (Admissible 1 (2 ^ 32 - 1))
      (server 3 fun _ => true).init
      [.pdu (plainRequest 1), .reply 7 1 64 20, .pdu (plainRequest 1)] := by
    refine ⟨fun _ => by decide, ?_⟩
    rintro _ ⟨⟩
    refine ⟨⟨⟨.NEW, none⟩, by decide, rfl⟩, ?_⟩
    rintro _ ⟨⟩
    exact ⟨fun _ => by decide, fun _ _ => trivial⟩
  exact ⟨hv, replay_correct_iff hv⟩

/-- The requests 1 and 3 are being executed when 2 arrives: 2 is answered `DONE` although it was
never executed, and `*b` and `*sz` stay unset. -/
theorem done_without_reply :
    (server 3 fun _ => true).Along (Admissible 1 (2 ^ 32 - 1)) (server 3 fun _ => true).init
      [.pdu (plainRequest 1), .pdu (plainRequest 3), .pdu (plainRequest 2)] ∧
    ¬ (server 3 fun _ => true).Along Replays (server 3 fun _ => true).init
      [.pdu (plainRequest 1), .pdu (plainRequest 3), .pdu (plainRequest 2)] ∧
    ∃ s, (server 3 fun _ => true).run
        [.pdu (plainRequest 1), .pdu (plainRequest 3), .pdu (plainRequest 2)] = some s ∧
      Seen.answered 7 2 ⟨.DONE, none⟩ ∈ s.seen ∧ Seen.executed 7 2 ∉ s.seen ∧
      s.lastStored 7 2 = none := by
  refine ⟨?_, ?_, _, rfl, by decide, by decide, by decide⟩
  · exact ⟨fun _ => by decide, fun _ _ => ⟨fun _ => by decide, fun _ _ => ⟨fun _ => by decide,
      fun _ _ => trivial⟩⟩⟩
  · intro h
    obtain ⟨a, w, hc, hdone⟩ := ((h.2 _ rfl).2 _ rfl).1 (by decide)
    cases hc
    obtain ⟨b, sz, -, hout⟩ := hdone rfl
    cases hout

end YFS.Rpc
