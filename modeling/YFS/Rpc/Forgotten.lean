import YFS.Rpc.Client

/-! # Which replies the server forgets

One client and the server, with requests that may be delivered late, again or out of
order and replies that may be lost. The server drops an entry as soon as its reply is
recorded and the next xid has arrived, and it never reads `xid_rep`, so it can refuse
a request the client has not acknowledged. What is sufficient for it not to do so is
stated on the window before each request: an entry that is trimmed was acknowledged,
and no request is inserted in front of the window above the acknowledged xids.
-/

namespace YFS.Rpc
open YFS.Library

/-- The client, the request headers it has sent, the server, and the largest `xid_rep` that has
arrived there. -/
structure Session where
  clt : Rpcc
  sent : List ReqHeader
  srv : ServerState
  acked : ℕ

inductive SessionEvent where
  | call (proc : ℕ)
  | deliver (h : ReqHeader)
  | finish (xid b : ℕ) (sz : ℤ)
  | gotPdu (xid : ℕ)
  | leave (xid : ℕ)
  deriving DecidableEq, Repr

/-- A reply for this xid has been sent: the handler's, a recorded one, or a refusal. -/
def ServerState.replied (s : ServerState) (c x : ℕ) : Bool :=
  s.seen.any fun
    | .stored c' x' _ _ => decide (c' = c ∧ x' = x)
    | .answered c' x' a => decide (c' = c ∧ x' = x ∧ (a.stat = .DONE ∨ a.stat = .FORGOTTEN))
    | .executed _ _ => false

/-- One event; one that cannot happen, such as the delivery of a request that was never sent,
leaves the session as it is. -/
def sessionStep (s : Session) : SessionEvent → Option Session
  | .call proc =>
    some { s with clt := (s.clt.call1 proc).2, sent := (s.clt.call1 proc).1 :: s.sent }
  | .deliver h =>
    if h ∈ s.sent then
      (serverStep s.srv (.pdu h)).map fun srv => { s with srv := srv, acked := max s.acked h.xidRep }
    else some s
  | .finish x b sz =>
    if Seen.executed s.clt.cltNonce x ∈ s.srv.seen then
      (serverStep s.srv (.reply s.clt.cltNonce x b sz)).map fun srv => { s with srv := srv }
    else some s
  | .gotPdu x =>
    if s.srv.replied s.clt.cltNonce x then some { s with clt := s.clt.gotPdu x } else some s
  | .leave x => if x ∈ s.clt.calls then some { s with clt := s.clt.leave x } else some s

def session (cltNonce nonce : ℕ) (procs : ℕ → Bool) : Machine Session SessionEvent where
  init := ⟨Rpcc.new cltNonce nonce, [], (server nonce procs).init, 0⟩
  step := sessionStep

/-- The request is answered, and refused only if its xid has been acknowledged. -/
def RefusesAcknowledged (s : Session) : SessionEvent → Prop
  | .deliver h => h ∈ s.sent → s.srv.srv.Reaches h →
      ∃ a w, checkduplicateAndUpdate (s.srv.srv.replyWindow h.cltNonce) h.xid h.xidRep =
          some (a, w) ∧
        (a.stat = .FORGOTTEN → h.xid ≤ max s.acked h.xidRep)
  | _ => True

/-- A scan for `x` neither trims an entry above `acked` nor inserts `x` in front of the window
with unacknowledged xids below it. -/
def keepsUnacknowledged (x acked : ℕ) : List Reply → Bool
  | e :: a :: r =>
    if e.xid ≤ x ∧ (e :: a :: r).any (fun f => decide (x ≤ f.xid)) = true then
      if trims (e :: a :: r) then decide (e.xid ≤ acked)
      else decide (e.xid < x ∧ x < a.xid → x ≤ acked + 1)
    else true
  | _ => true

/-- The request keeps what is unacknowledged and does not repeat an answered only entry. -/
def Acknowledging (s : Session) : SessionEvent → Prop
  | .deliver h => h ∈ s.sent → s.srv.srv.Reaches h →
      keepsUnacknowledged h.xid (max s.acked h.xidRep) (s.srv.windowOf h) = true ∧
        repeatsOnly h.xid (s.srv.windowOf h) = false
  | _ => True

/-- Nothing unacknowledged is below the front of a window. -/
structure Unforgotten (s : Session) : Prop where
  lastMax : ∀ c, LastMax (opened (s.srv.srv.replyWindow c))
  front : ∀ c, ((opened (s.srv.srv.replyWindow c)).headD sentinel).xid ≤ s.acked + 1

theorem unforgotten_init (cltNonce nonce : ℕ) (procs : ℕ → Bool) :
    Unforgotten (session cltNonce nonce procs).init where
  lastMax _ := LastMax.opened_nil
  front _ := by simp [session, server, sentinel]

theorem succXid_le (x : ℕ) : succXid x ≤ x + 1 := Nat.mod_le _ _

theorem moved_front {w : List Reply} {A : ℕ} (hA : (w.headD sentinel).xid ≤ A + 1)
    (ht : trims w = true → (w.headD sentinel).xid ≤ A) :
    ((moved w).headD sentinel).xid ≤ A + 1 := by
  unfold moved
  split_ifs with h
  · match w, h, ht with
    | e :: a :: r, h, ht =>
      simp only [trims, Bool.and_eq_true, decide_eq_true_eq] at h
      have he := ht (by simp [trims, h])
      have hs := succXid_le e.xid
      simp only [List.headD_cons, List.tail_cons] at he ⊢
      omega
  · exact hA

/-- The scan trims only what is acknowledged. -/
theorem keeps_trims {w : List Reply} {x A : ℕ} (hk : keepsUnacknowledged x A w = true)
    (hf : (w.headD sentinel).xid ≤ x) (hb : ∃ f ∈ w, x ≤ f.xid) (ht : trims w = true) :
    (w.headD sentinel).xid ≤ A := by
  match w, ht with
  | e :: a :: r, ht =>
    have hany : (e :: a :: r).any (fun f => decide (x ≤ f.xid)) = true := by
      simpa only [List.any_eq_true, decide_eq_true_eq] using hb
    rw [keepsUnacknowledged, if_pos ⟨hf, hany⟩, ht] at hk
    simpa using hk

/-- The scan inserts in front of the window only above acknowledged xids. -/
theorem keeps_inserts {e a : Reply} {r : List Reply} {x A : ℕ}
    (hk : keepsUnacknowledged x A (e :: a :: r) = true) (ht : trims (e :: a :: r) = false)
    (he : e.xid < x) (ha : x < a.xid) : x ≤ A + 1 := by
  have hany : (e :: a :: r).any (fun f => decide (x ≤ f.xid)) = true := by
    simpa using Or.inr (Or.inl ha.le)
  rw [keepsUnacknowledged, if_pos ⟨he.le, hany⟩, ht] at hk
  simp only [Bool.false_eq_true, if_false, decide_eq_true_eq] at hk
  exact hk ⟨he, ha⟩

/-- A request with a kept window is refused only when acknowledged, and it leaves nothing
unacknowledged below the front. -/
theorem Outcome.unforgotten {w : List Reply} {x A : ℕ} {a : Answer} {w' : List Reply}
    (ho : Outcome w x a w') (hne : w ≠ []) (hA : (w.headD sentinel).xid ≤ A + 1)
    (hk : keepsUnacknowledged x A w = true) :
    (a.stat = .FORGOTTEN → x ≤ A) ∧ (w'.headD sentinel).xid ≤ A + 1 := by
  cases ho with
  | fresh h =>
    obtain ⟨e, r, rfl⟩ := List.exists_cons_of_ne_nil hne
    exact ⟨by simp, by simpa using hA⟩
  | below e r hw h =>
    subst hw
    simp only [List.headD_cons] at hA ⊢
    exact ⟨fun _ => by omega, hA⟩
  | dropped e f r hw ht he h =>
    subst hw
    have hf : f.xid = succXid e.xid := by
      simp only [trims, Bool.and_eq_true, decide_eq_true_eq] at ht
      exact ht.2
    have hsucc := succXid_le e.xid
    have heA := keeps_trims hk he ⟨f, by simp, h.le⟩ ht
    simp only [List.headD_cons] at heA ⊢
    exact ⟨fun _ => by omega, by omega⟩
  | held e hf h hx =>
    refine ⟨?_, moved_front hA fun ht => keeps_trims hk hf ⟨e, mem_of_mem_moved h, hx.ge⟩ ht⟩
    unfold Reply.answer
    split_ifs <;> simp
  | filled pre post cur next hf hw hp hl hr =>
    have hnext : next ∈ w := mem_of_mem_moved (by simp [hw])
    have hm := moved_front hA fun ht => keeps_trims hk hf ⟨next, hnext, hr.le⟩ ht
    refine ⟨by simp, ?_⟩
    rw [hw] at hm
    cases pre with
    | cons p ps => simpa using hm
    | nil =>
      have ht : trims w = false := by simpa using fun h => hp h rfl
      have hw' : w = cur :: next :: post := by simpa [moved, ht] using hw
      subst hw'
      simpa using keeps_inserts hk ht hl hr
  | missed h =>
    refine ⟨by simp, ?_⟩
    rcases w with _ | ⟨e, _ | ⟨f, r⟩⟩
    · cases h
    · cases h
    · simp only [fallsThrough, Bool.and_eq_true, decide_eq_true_eq, List.any_eq_true] at h
      obtain ⟨⟨⟨⟨⟨-, hex⟩, -⟩, g, hg, hxg⟩, -⟩, -⟩ := h
      exact moved_front hA fun ht => keeps_trims hk hex ⟨g, by simp [hg], hxg⟩ ht

theorem addReply_front (w : List Reply) (x b : ℕ) (sz : ℤ) :
    ((opened (addReply w x b sz)).headD sentinel).xid = ((opened w).headD sentinel).xid := by
  cases w with
  | nil => rfl
  | cons e w =>
    simp only [addReply, List.map_cons, opened_cons, List.headD_cons]
    split_ifs <;> rfl

theorem unforgotten_deliver {s : Session} (hs : Unforgotten s) {h : ReqHeader}
    (hmem : h ∈ s.sent) (hc : Acknowledging s (.deliver h)) {srv : ServerState}
    (ht : serverStep s.srv (.pdu h) = some srv) :
    Unforgotten { s with srv := srv, acked := max s.acked h.xidRep } := by
  refine ⟨lastMax_step hs.lastMax ht, fun c => ?_⟩
  have hle : s.acked + 1 ≤ max s.acked h.xidRep + 1 := by omega
  by_cases hr : s.srv.srv.Reaches h
  · obtain ⟨a, w, -, ho, rfl⟩ := serverStep_outcome (hs.lastMax h.cltNonce) hr ht
    by_cases he : c = h.cltNonce
    · subst he
      have hkept := ho.unforgotten (opened_ne_nil _) ((hs.front _).trans hle) (hc hmem hr).1
      simpa [opened_of_ne_nil ho.ne_nil] using hkept.2
    · simpa [he] using (hs.front c).trans hle
  · obtain ⟨l, hl, -⟩ := serverStep_pdu_away hr
    rw [hl] at ht
    cases ht
    exact (hs.front c).trans hle

theorem unforgotten_step {s t : Session} {e : SessionEvent} (hs : Unforgotten s)
    (hc : Acknowledging s e) (ht : sessionStep s e = some t) : Unforgotten t := by
  cases e with
  | call proc =>
    cases ht
    exact ⟨hs.lastMax, hs.front⟩
  | deliver h =>
    simp only [sessionStep] at ht
    split_ifs at ht with hmem
    · obtain ⟨srv, hsrv, rfl⟩ := Option.map_eq_some_iff.mp ht
      exact unforgotten_deliver hs hmem hc hsrv
    · cases ht
      exact hs
  | finish x b sz =>
    simp only [sessionStep] at ht
    split_ifs at ht
    · obtain ⟨srv, hsrv, rfl⟩ := Option.map_eq_some_iff.mp ht
      refine ⟨lastMax_step hs.lastMax hsrv, fun c => ?_⟩
      cases hsrv
      by_cases he : c = s.clt.cltNonce
      · subst he
        rw [Rpcs.setWindow_self, addReply_front]
        exact hs.front _
      · rw [Rpcs.setWindow_of_ne _ he]
        exact hs.front c
    · cases ht
      exact hs
  | gotPdu x =>
    simp only [sessionStep] at ht
    split_ifs at ht <;> cases ht <;> exact ⟨hs.lastMax, hs.front⟩
  | leave x =>
    simp only [sessionStep] at ht
    split_ifs at ht <;> cases ht <;> exact ⟨hs.lastMax, hs.front⟩

/-- In every run in which each request keeps what is unacknowledged, every request is answered
and only acknowledged ones are refused. -/
theorem forgets_only_acknowledged {cltNonce nonce : ℕ} {procs : ℕ → Bool} {es : List SessionEvent}
    (hc : (session cltNonce nonce procs).Along Acknowledging
      (session cltNonce nonce procs).init es) :
    (session cltNonce nonce procs).Along RefusesAcknowledged
      (session cltNonce nonce procs).init es := by
  refine Machine.Along.imp (I := Unforgotten) (fun _ _ _ hs hc ht => unforgotten_step hs hc ht)
    ?_ (unforgotten_init cltNonce nonce procs) hc
  intro s e hs hc
  cases e with
  | deliver h =>
    intro hmem hr
    obtain ⟨hk, hrep⟩ := hc hmem hr
    rcases check_cases h.xid h.xidRep (hs.lastMax h.cltNonce) with ⟨hrep', -⟩ | ⟨-, a, w, hchk, ho⟩
    · exact absurd (hrep.symm.trans hrep') (by simp)
    · have hA := (hs.front h.cltNonce).trans
        (by omega : s.acked + 1 ≤ max s.acked h.xidRep + 1)
      exact ⟨a, w, hchk, (ho.unforgotten (opened_ne_nil _) hA hk).1⟩
  | _ => trivial

/-- Client 7 calls, gets its reply, calls again with the first request acknowledged, and the
first request is then delivered twice more: it is replayed once and refused once. -/
def acknowledgedRun : List SessionEvent :=
  [.call 1, .deliver ⟨1, 1, 7, 3, 0⟩, .finish 1 64 20, .gotPdu 1, .call 1,
    .deliver ⟨2, 1, 7, 3, 1⟩, .deliver ⟨1, 1, 7, 3, 0⟩, .deliver ⟨1, 1, 7, 3, 0⟩]

theorem forgets_only_acknowledged_repeated :
    (session 7 3 fun _ => true).Along Acknowledging (session 7 3 fun _ => true).init
      acknowledgedRun ∧
    (session 7 3 fun _ => true).Along RefusesAcknowledged (session 7 3 fun _ => true).init
      acknowledgedRun := by
  have hc : (session 7 3 fun _ => true).Along Acknowledging (session 7 3 fun _ => true).init
      acknowledgedRun := by
    refine ⟨trivial, ?_⟩
    rintro _ ⟨⟩
    refine ⟨fun _ _ => by decide, ?_⟩
    rintro _ ⟨⟩
    refine ⟨trivial, ?_⟩
    rintro _ ⟨⟩
    refine ⟨trivial, ?_⟩
    rintro _ ⟨⟩
    refine ⟨trivial, ?_⟩
    rintro _ ⟨⟩
    refine ⟨fun _ _ => by decide, ?_⟩
    rintro _ ⟨⟩
    refine ⟨fun _ _ => by decide, ?_⟩
    rintro _ ⟨⟩
    exact ⟨fun _ _ => by decide, fun _ _ => trivial⟩
  exact ⟨hc, forgets_only_acknowledged hc⟩

/-- Two calls are executed, the first one's reply is recorded and lost on its way, and the second
request is retransmitted twice: the retransmission of the first is refused, although the client
has acknowledged nothing. -/
theorem unacknowledged_refused :
    ¬ (session 7 3 fun _ => true).Along RefusesAcknowledged (session 7 3 fun _ => true).init
      [.call 1, .call 1, .deliver ⟨1, 1, 7, 3, 0⟩, .deliver ⟨2, 1, 7, 3, 0⟩, .finish 1 64 20,
        .deliver ⟨2, 1, 7, 3, 0⟩, .deliver ⟨2, 1, 7, 3, 0⟩, .deliver ⟨1, 1, 7, 3, 0⟩] := by
  intro h
  have hlast := (((((((h.2 _ rfl).2 _ rfl).2 _ rfl).2 _ rfl).2 _ rfl).2 _ rfl).2 _ rfl).1
  obtain ⟨a, w, hchk, hforgot⟩ := hlast (by decide) (by decide)
  cases hchk
  exact absurd (hforgot rfl) (by decide)

end YFS.Rpc
