import YFS.Rpc.ReplyWindow

/-! # Request dispatch of `rpcs`

A request PDU goes through `rpcs::dispatch` up to its switch on the reply-window
state in one step; the reply is recorded by a later, separate `add_reply`. The
history of answers, handler executions and recorded replies is kept, newest first,
beside the server's own state.
-/

namespace YFS.Rpc
open YFS.Library

structure ReqHeader where
  xid : ℕ
  proc : ℕ
  cltNonce : ℕ
  srvNonce : ℕ
  xidRep : ℕ
  deriving DecidableEq, Repr

/-- The part of `rpcs` that `dispatch` reads: `nonce_`, the registered procedures `procs_` and
`reply_window_`, where a client without an entry has the empty list. -/
structure Rpcs where
  nonce : ℕ
  procs : ℕ → Bool
  replyWindow : ℕ → List Reply

def Rpcs.setWindow (s : Rpcs) (c : ℕ) (w : List Reply) : Rpcs :=
  { s with replyWindow := Function.update s.replyWindow c w }

@[simp] theorem Rpcs.setWindow_self (s : Rpcs) (c : ℕ) (w : List Reply) :
    (s.setWindow c w).replyWindow c = w := Function.update_self ..

@[simp] theorem Rpcs.setWindow_of_ne (s : Rpcs) {c d : ℕ} (h : d ≠ c) (w : List Reply) :
    (s.setWindow c w).replyWindow d = s.replyWindow d := Function.update_of_ne h ..

/-- How `dispatch` leaves: `oldsrv_failure`, a dropped request, or its switch on a state. -/
inductive Disposition where
  | oldServer
  | badProc
  | served (a : Answer)

/-- `rpcs::dispatch` up to its switch. -/
def Rpcs.dispatch (s : Rpcs) (h : ReqHeader) : Option (Rpcs × Disposition) :=
  if h.srvNonce ≠ 0 ∧ h.srvNonce ≠ s.nonce then some (s, .oldServer)
  else if s.procs h.proc = false then some (s, .badProc)
  else if h.cltNonce ≠ 0 then do
    let (a, w) ← checkduplicateAndUpdate (s.replyWindow h.cltNonce) h.xid h.xidRep
    some (s.setWindow h.cltNonce w, .served a)
  else some (s, .served ⟨.NEW, none⟩)

inductive Seen where
  | answered (cltNonce xid : ℕ) (a : Answer)
  | executed (cltNonce xid : ℕ)
  | stored (cltNonce xid b : ℕ) (sz : ℤ)
  deriving DecidableEq, Repr

/-- The entries a request adds to the history: the answer of `checkduplicate_and_update`, which
is only called for a nonzero client nonce, and the run of the handler `f->fn` in case `NEW`. -/
def record (h : ReqHeader) : Disposition → List Seen
  | .oldServer => []
  | .badProc => []
  | .served a =>
    (if a.stat = .NEW then [.executed h.cltNonce h.xid] else []) ++
      (if h.cltNonce ≠ 0 then [.answered h.cltNonce h.xid a] else [])

structure ServerState where
  srv : Rpcs
  seen : List Seen

inductive ServerEvent where
  | pdu (h : ReqHeader)
  | reply (cltNonce xid b : ℕ) (sz : ℤ)
  deriving DecidableEq, Repr

def serverStep (s : ServerState) : ServerEvent → Option ServerState
  | .pdu h => do
    let (srv, d) ← s.srv.dispatch h
    some ⟨srv, record h d ++ s.seen⟩
  | .reply c x b sz =>
    some ⟨s.srv.setWindow c (addReply (s.srv.replyWindow c) x b sz), .stored c x b sz :: s.seen⟩

def server (nonce : ℕ) (procs : ℕ → Bool) : Machine ServerState ServerEvent where
  init := ⟨⟨nonce, procs, fun _ => []⟩, []⟩
  step := serverStep

/-- The request passes the checks of `dispatch` in front of the reply window. -/
def Rpcs.Reaches (s : Rpcs) (h : ReqHeader) : Prop :=
  (h.srvNonce = 0 ∨ h.srvNonce = s.nonce) ∧ s.procs h.proc = true ∧ h.cltNonce ≠ 0

instance (s : Rpcs) (h : ReqHeader) : Decidable (s.Reaches h) :=
  inferInstanceAs (Decidable (_ ∧ _ ∧ _))

def ServerState.windowOf (s : ServerState) (h : ReqHeader) : List Reply :=
  opened (s.srv.replyWindow h.cltNonce)

def ServerState.Admitted (s : ServerState) (c x : ℕ) : Prop :=
  ∃ a, Seen.answered c x a ∈ s.seen ∧ a.stat = .NEW

/-- Requests carry xids in the given range, replies are only added for admitted requests. -/
def Admissible (lo hi : ℕ) (s : ServerState) : ServerEvent → Prop
  | .pdu h => h.cltNonce ≠ 0 → lo ≤ h.xid ∧ h.xid ≤ hi
  | .reply c x _ _ => s.Admitted c x

theorem Rpcs.dispatch_reaches {s : Rpcs} {h : ReqHeader} (hr : s.Reaches h) :
    s.dispatch h =
      (checkduplicateAndUpdate (s.replyWindow h.cltNonce) h.xid h.xidRep).map fun p =>
        (s.setWindow h.cltNonce p.2, .served p.1) := by
  obtain ⟨hs, hp, hc⟩ := hr
  have hold : ¬ (h.srvNonce ≠ 0 ∧ h.srvNonce ≠ s.nonce) := by tauto
  rw [dispatch, if_neg hold, if_neg (by simp [hp]), if_pos hc]
  cases checkduplicateAndUpdate (s.replyWindow h.cltNonce) h.xid h.xidRep <;> rfl

theorem Rpcs.dispatch_not_reaches {s : Rpcs} {h : ReqHeader} (hr : ¬ s.Reaches h) :
    ∃ d, s.dispatch h = some (s, d) ∧
      ∀ r ∈ record h d, h.cltNonce = 0 ∧ r = .executed h.cltNonce h.xid := by
  unfold dispatch
  split_ifs with h1 h2 h3
  · exact ⟨_, rfl, by simp [record]⟩
  · exact ⟨_, rfl, by simp [record]⟩
  · refine absurd ⟨?_, by simpa using h2, h3⟩ hr
    tauto
  · exact ⟨_, rfl, by simp [record, not_not.mp h3]⟩

/-- One request that reaches the window, in terms of the window's call. -/
theorem serverStep_pdu {s t : ServerState} {h : ReqHeader} (hr : s.srv.Reaches h)
    (ht : serverStep s (.pdu h) = some t) :
    ∃ a w, checkduplicateAndUpdate (s.srv.replyWindow h.cltNonce) h.xid h.xidRep = some (a, w) ∧
      t = ⟨s.srv.setWindow h.cltNonce w, record h (.served a) ++ s.seen⟩ := by
  simp only [serverStep, Rpcs.dispatch_reaches hr] at ht
  cases hc : checkduplicateAndUpdate (s.srv.replyWindow h.cltNonce) h.xid h.xidRep with
  | none => simp [hc] at ht
  | some p => exact ⟨p.1, p.2, rfl, by simpa [hc] using ht.symm⟩

theorem serverStep_pdu_eq {s : ServerState} {h : ReqHeader} {a : Answer} {w : List Reply}
    (hr : s.srv.Reaches h)
    (hc : checkduplicateAndUpdate (s.srv.replyWindow h.cltNonce) h.xid h.xidRep = some (a, w)) :
    serverStep s (.pdu h) =
      some ⟨s.srv.setWindow h.cltNonce w, record h (.served a) ++ s.seen⟩ := by
  simp [serverStep, Rpcs.dispatch_reaches hr, hc]

/-- A request that reaches the window and is answered, in terms of the outcome. -/
theorem serverStep_outcome {s t : ServerState} {h : ReqHeader} (hm : LastMax (s.windowOf h))
    (hr : s.srv.Reaches h) (ht : serverStep s (.pdu h) = some t) :
    ∃ a w, checkduplicateAndUpdate (s.srv.replyWindow h.cltNonce) h.xid h.xidRep = some (a, w) ∧
      Outcome (s.windowOf h) h.xid a w ∧
      t = ⟨s.srv.setWindow h.cltNonce w, record h (.served a) ++ s.seen⟩ := by
  obtain ⟨a, w, hc, rfl⟩ := serverStep_pdu hr ht
  rcases check_cases h.xid h.xidRep hm with ⟨-, hn⟩ | ⟨-, a', w', hc', ho⟩
  · rw [hc] at hn
    cases hn
  · rw [hc] at hc'
    cases hc'
    exact ⟨a, w, hc, ho, rfl⟩

/-- A request turned away in front of the window changes no window and answers nothing. -/
theorem serverStep_pdu_away {s : ServerState} {h : ReqHeader} (hr : ¬ s.srv.Reaches h) :
    ∃ l, serverStep s (.pdu h) = some ⟨s.srv, l ++ s.seen⟩ ∧
      ∀ r ∈ l, h.cltNonce = 0 ∧ r = .executed h.cltNonce h.xid := by
  obtain ⟨d, hd, hl⟩ := Rpcs.dispatch_not_reaches hr
  exact ⟨record h d, by simp [serverStep, hd], hl⟩

theorem addReply_map_xid (w : List Reply) (x b : ℕ) (sz : ℤ) :
    (addReply w x b sz).map Reply.xid = w.map Reply.xid := by
  simp only [addReply, List.map_map]
  apply List.map_congr_left
  intro e _
  simp only [Function.comp_apply]
  split_ifs <;> rfl

theorem LastMax.of_subset {w v : List Reply} (hw : LastMax w) (hl : v.getLast? = w.getLast?)
    (hs : ∀ e ∈ v, e ∈ w) : LastMax v :=
  fun b hb e he => hw b (hl ▸ hb) e (hs e he)

theorem LastMax.addReply {w : List Reply} (hw : LastMax w) (x b : ℕ) (sz : ℤ) :
    LastMax (addReply w x b sz) := by
  intro c hc e he
  simp only [Rpc.addReply, List.getLast?_map, Option.map_eq_some_iff] at hc
  obtain ⟨c', hc', rfl⟩ := hc
  obtain ⟨e', he', rfl⟩ := List.mem_map.mp he
  have h := hw c' hc' e' he'
  split_ifs <;> exact h

theorem LastMax.opened_nil : LastMax (opened []) := by
  intro b hb e he
  simp only [Rpc.opened_nil, List.getLast?_singleton, Option.some.injEq, List.mem_singleton]
    at hb he
  simp [← hb, he]

theorem opened_addReply {w : List Reply} (hw : w ≠ []) (x b : ℕ) (sz : ℤ) :
    opened (addReply w x b sz) = addReply w x b sz := by
  obtain ⟨e, r, rfl⟩ := List.exists_cons_of_ne_nil hw
  rfl

theorem moved_getLast? {w : List Reply} : (moved w).getLast? = w.getLast? := by
  unfold moved
  split_ifs with h
  · match w, h with
    | e :: a :: r, _ => rw [List.tail_cons, List.getLast?_cons_cons]
  · rfl

theorem mem_of_mem_moved {w : List Reply} {e : Reply} (h : e ∈ moved w) : e ∈ w := by
  unfold moved at h
  split_ifs at h
  · exact List.mem_of_mem_tail h
  · exact h

/-- Where an entry for `x` is put: behind everything, or in front of the lower end of a gap. -/
def Room (x : ℕ) (pre post : List Reply) : Prop :=
  (post = [] ∧ ∀ e ∈ pre, e.xid < x) ∨
    ∃ cur next rest, post = cur :: next :: rest ∧ cur.xid < x ∧ x < next.xid

/-- A call moves the window or not, and adds one entry exactly when it answers `NEW`. -/
theorem Outcome.kept_or_new {w : List Reply} {x : ℕ} {a : Answer} {w' : List Reply}
    (ho : Outcome w x a w') : ∃ v, (v = w ∨ v = moved w) ∧
      (a.stat ≠ .NEW ∧ w' = v ∨ a.stat = .NEW ∧ ∃ pre post, v = pre ++ post ∧
        w' = pre ++ Reply.new x :: post ∧ Room x pre post) := by
  cases ho with
  | fresh h => exact ⟨w, .inl rfl, .inr ⟨rfl, w, [], by simp, rfl, .inl ⟨rfl, h⟩⟩⟩
  | below e r hw h => exact ⟨w, .inl rfl, .inl ⟨by simp, rfl⟩⟩
  | dropped e f r hw ht he h =>
    subst hw
    exact ⟨_, .inr rfl, .inl ⟨by simp, by simp [moved, ht]⟩⟩
  | held e hf h hx =>
    refine ⟨_, .inr rfl, .inl ⟨?_, rfl⟩⟩
    unfold Reply.answer
    split_ifs <;> simp
  | filled pre post cur next hf hw hp hl hr =>
    exact ⟨_, .inr rfl, .inr ⟨rfl, pre, _, hw, rfl, .inr ⟨cur, next, post, rfl, hl, hr⟩⟩⟩
  | missed h => exact ⟨_, .inr rfl, .inl ⟨by simp, rfl⟩⟩

/-- The only entry a call adds is the one for the request it answers `NEW`. -/
theorem Outcome.mem_or_new {w : List Reply} {x : ℕ} {a : Answer} {w' : List Reply}
    (ho : Outcome w x a w') {e : Reply} (he : e ∈ w') :
    e ∈ w ∨ (a.stat = .NEW ∧ e = Reply.new x) := by
  obtain ⟨v, hv, h⟩ := ho.kept_or_new
  have hvw : e ∈ v → e ∈ w := by
    rcases hv with rfl | rfl
    · exact id
    · exact mem_of_mem_moved
  rcases h with ⟨-, rfl⟩ | ⟨hn, pre, post, rfl, rfl, -⟩
  · exact .inl (hvw he)
  · simp only [List.mem_append, List.mem_cons] at he hvw
    tauto

theorem Outcome.lastMax {w : List Reply} {x : ℕ} {a : Answer} {w' : List Reply}
    (ho : Outcome w x a w') (hw : LastMax w) : LastMax w' := by
  obtain ⟨v, hv, h⟩ := ho.kept_or_new
  have hmax : LastMax v := by
    rcases hv with rfl | rfl
    · exact hw
    · exact hw.of_subset moved_getLast? fun _ => mem_of_mem_moved
  rcases h with ⟨-, rfl⟩ | ⟨-, pre, post, rfl, rfl, ⟨rfl, hpre⟩ | ⟨cur, next, rest, rfl, -, hr⟩⟩
  · exact hmax
  · intro b hb e he
    obtain rfl : Reply.new x = b := by simpa using hb
    rcases List.mem_append.mp he with he | he
    · exact (hpre e he).le
    · rw [List.mem_singleton.mp he]
  · intro b hb e he
    have hlast : (pre ++ cur :: next :: rest).getLast? = some b := by
      rw [← hb, List.getLast?_append, List.getLast?_append]
      simp [List.getLast?_cons_cons]
    have hnext : x ≤ b.xid := hr.le.trans (hmax b hlast next (by simp))
    rcases List.mem_append.mp he with he | he
    · exact hmax b hlast e (List.mem_append_left _ he)
    · rcases List.mem_cons.mp he with rfl | he
      · exact hnext
      · exact hmax b hlast e (List.mem_append_right _ he)

theorem Outcome.ne_nil {w : List Reply} {x : ℕ} {a : Answer} {w' : List Reply}
    (ho : Outcome w x a w') : w' ≠ [] := by
  cases ho with
  | fresh h => simp
  | below e r hwe h => simp [hwe]
  | dropped e f r hwe ht he h => simp
  | held e hf h hx => exact List.ne_nil_of_mem h
  | filled pre post cur next hf hwm hp hl hr => simp
  | missed h =>
    match w, h with
    | e :: f :: r, h =>
      unfold moved
      split_ifs <;> simp

/-- The last entry is never given up for a smaller one. -/
theorem Outcome.covers {w : List Reply} {x : ℕ} {a : Answer} {w' : List Reply}
    (ho : Outcome w x a w') (hw : LastMax w) {y : ℕ} (hy : ∃ e ∈ w, y ≤ e.xid) :
    ∃ e ∈ w', y ≤ e.xid := by
  obtain ⟨e₀, he₀, hye⟩ := hy
  obtain ⟨b, hb⟩ := exists_getLast? (List.ne_nil_of_mem he₀)
  obtain ⟨v, hv, h⟩ := ho.kept_or_new
  have hbv : b ∈ v := by
    rcases hv with rfl | rfl
    · exact List.mem_of_getLast? hb
    · exact List.mem_of_getLast? (moved_getLast?.trans hb)
  refine ⟨b, ?_, hye.trans (hw b hb e₀ he₀)⟩
  rcases h with ⟨-, rfl⟩ | ⟨-, pre, post, rfl, rfl, -⟩
  · exact hbv
  · simp only [List.mem_append, List.mem_cons] at hbv ⊢
    tauto

theorem opened_of_ne_nil {w : List Reply} (h : w ≠ []) : opened w = w := by
  obtain ⟨e, r, rfl⟩ := List.exists_cons_of_ne_nil h
  rfl

theorem LastMax.opened_addReply {w : List Reply} (hw : LastMax (opened w)) (x b : ℕ) (sz : ℤ) :
    LastMax (opened (Rpc.addReply w x b sz)) := by
  rcases eq_or_ne w [] with rfl | hne
  · exact LastMax.opened_nil
  · rw [opened_of_ne_nil hne] at hw
    rw [Rpc.opened_addReply hne]
    exact hw.addReply x b sz

/-- In every window the last entry stays the largest, whatever arrives. -/
theorem lastMax_step {s t : ServerState} {e : ServerEvent}
    (hs : ∀ c, LastMax (opened (s.srv.replyWindow c))) (ht : serverStep s e = some t) :
    ∀ c, LastMax (opened (t.srv.replyWindow c)) := by
  intro c
  cases e with
  | pdu h =>
    by_cases hr : s.srv.Reaches h
    · obtain ⟨a, w, -, ho, rfl⟩ := serverStep_outcome (hs h.cltNonce) hr ht
      by_cases he : c = h.cltNonce
      · subst he
        simpa [opened_of_ne_nil ho.ne_nil] using ho.lastMax (hs _)
      · simpa [he] using hs c
    · obtain ⟨l, hl, -⟩ := serverStep_pdu_away hr
      rw [hl] at ht
      cases ht
      exact hs c
  | reply c' x b sz =>
    cases ht
    by_cases he : c = c'
    · subst he
      simpa using (hs c).opened_addReply x b sz
    · simpa [he] using hs c

def plainRequest (xid : ℕ) : ReqHeader := ⟨xid, 1, 7, 0, 0⟩

end YFS.Rpc
