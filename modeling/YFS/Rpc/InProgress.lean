import YFS.Rpc.AtMostOnce

/-! # Requests in progress

The scan trims the front entry when its reply has been recorded, and nothing else is ever
taken out of a window. An entry without a reply therefore stays until `add_reply` is called
for its xid. The scan itself leaves the list only at a window of one entry.
-/

namespace YFS.Rpc
open YFS.Library

/-! ## The scan and the end of the list -/

/-- The call of `checkduplicate_and_update` comes back. -/
def ScanReturns (s : ServerState) : ServerEvent → Prop
  | .pdu h => s.srv.Reaches h →
      ∃ r, checkduplicateAndUpdate (s.srv.replyWindow h.cltNonce) h.xid h.xidRep = some r
  | .reply .. => True

/-- The request does not repeat the only entry of its window after the reply. -/
def NotOnlyEntry (s : ServerState) : ServerEvent → Prop
  | .pdu h => s.srv.Reaches h → repeatsOnly h.xid (s.windowOf h) = false
  | .reply .. => True

theorem scanReturns_iff_notOnlyEntry {s : ServerState} {e : ServerEvent}
    (hs : ∀ c, LastMax (opened (s.srv.replyWindow c))) : ScanReturns s e ↔ NotOnlyEntry s e := by
  cases e with
  | reply c x b sz => exact Iff.rfl
  | pdu h =>
    apply forall_congr'
    intro hr
    rcases check_cases h.xid h.xidRep (hs h.cltNonce) with ⟨hrep, hn⟩ | ⟨hrep, a, w, hc, -⟩
    · rw [hn, ServerState.windowOf, hrep]
      simp
    · rw [hc, ServerState.windowOf, hrep]
      simp

/-- The scan stays inside the list in exactly those runs in which no request repeats the only entry
of its window after the reply has been recorded. -/
theorem scan_inside_iff (nonce : ℕ) (procs : ℕ → Bool) (es : List ServerEvent) :
    (server nonce procs).Along ScanReturns (server nonce procs).init es ↔
      (server nonce procs).Along NotOnlyEntry (server nonce procs).init es :=
  Machine.Along.congr (V := fun _ _ => True)
    (I := fun s => ∀ c, LastMax (opened (s.srv.replyWindow c)))
    (fun _ _ _ hs _ _ ht => lastMax_step hs ht) (fun _ _ hs _ => scanReturns_iff_notOnlyEntry hs)
    (fun _ => LastMax.opened_nil) (Machine.along_of_all (fun _ _ => trivial) _ es)

/-- A request, its reply and two retransmissions: the first one trims the entry of xid 0, and the
second one looks behind the only entry that is left. -/
theorem scan_past_end :
    ¬ (server 3 fun _ => true).Along ScanReturns (server 3 fun _ => true).init
      [.pdu (plainRequest 1), .reply 7 1 64 20, .pdu (plainRequest 1), .pdu (plainRequest 1)] := by
  intro h
  obtain ⟨r, hr⟩ := (((h.2 _ rfl).2 _ rfl).2 _ rfl).1 (by decide)
  cases hr

/-! ## Entries that wait for their reply -/

def isStored (c x : ℕ) : Seen → Bool
  | .stored c' x' _ _ => decide (c' = c) && decide (x' = x)
  | _ => false

def ServerState.storedCount (s : ServerState) (c x : ℕ) : ℕ := s.seen.countP (isStored c x)

/-- The xid has been answered `NEW`, and `add_reply` has not been called for it since. -/
def ServerState.pending (s : ServerState) (c x : ℕ) : Bool :=
  (s.seen.find? fun r => isNew c x r || isStored c x r).any (isNew c x)

/-- Every pending request has an entry without a reply. -/
def ServerState.Waiting (s : ServerState) : Prop :=
  ∀ c x, s.pending c x = true → ∃ e ∈ s.srv.replyWindow c, e.xid = x ∧ e.cbPresent = false

/-- Only a pending request is answered `INPROGRESS`, and each `NEW` gives one `add_reply` that finds
an entry. -/
def Tracks (s : ServerState) : ServerEvent → Prop
  | .pdu h => s.srv.Reaches h →
      ∀ a w, checkduplicateAndUpdate (s.srv.replyWindow h.cltNonce) h.xid h.xidRep = some (a, w) →
        a.stat = .INPROGRESS → s.pending h.cltNonce h.xid = true
  | .reply c x _ _ => s.storedCount c x < s.newCount c x → ∃ e ∈ s.srv.replyWindow c, e.xid = x

def ShortXid : ServerEvent → Prop
  | .pdu h => h.xid < 2 ^ 32
  | .reply .. => True

instance : DecidablePred ShortXid
  | .pdu h => inferInstanceAs (Decidable (h.xid < 2 ^ 32))
  | .reply .. => inferInstanceAs (Decidable True)

/-- The last xid is the largest, and no other entry carries it too. -/
def LastTop (l : List ℕ) : Prop :=
  ∀ b, l.getLast? = some b → b < 2 ^ 32 ∧ ∀ y ∈ l.dropLast, y < b

/-- The entries for `x`, with one more when the front has passed `x`. -/
def copies (x : ℕ) (l : List ℕ) : ℕ := l.count x + if x < l.headD 0 then 1 else 0

theorem mem_moved_of_waiting {w : List Reply} {e : Reply} (he : e ∈ w) (hc : e.cbPresent = false) :
    e ∈ moved w := by
  unfold moved
  split_ifs with ht
  · match w, ht with
    | f :: a :: r, ht =>
      have hf : f.cbPresent = true := by
        simp only [trims, Bool.and_eq_true] at ht
        exact ht.1
      refine (List.mem_cons.mp he).resolve_left ?_
      rintro rfl
      simp [hf] at hc
  · exact he

/-- No call takes out an entry that waits for its reply. -/
theorem Outcome.mem_of_waiting {w : List Reply} {x : ℕ} {a : Answer} {w' : List Reply}
    (ho : Outcome w x a w') {e : Reply} (he : e ∈ w) (hc : e.cbPresent = false) : e ∈ w' := by
  obtain ⟨v, hv, h⟩ := ho.kept_or_new
  have hev : e ∈ v := by
    rcases hv with rfl | rfl
    · exact he
    · exact mem_moved_of_waiting he hc
  rcases h with ⟨-, rfl⟩ | ⟨-, pre, post, rfl, rfl, -⟩
  · exact hev
  · simp only [List.mem_append, List.mem_cons] at hev ⊢
    tauto

theorem Outcome.new_mem {w : List Reply} {x : ℕ} {a : Answer} {w' : List Reply}
    (ho : Outcome w x a w') (hn : a.stat = .NEW) : Reply.new x ∈ w' := by
  obtain ⟨v, -, ⟨h, -⟩ | ⟨-, pre, post, -, rfl, -⟩⟩ := ho.kept_or_new
  · exact absurd hn h
  · simp

/-- The answer `INPROGRESS` comes from an entry that waits for its reply. -/
theorem Outcome.waiting_of_inProgress {w : List Reply} {x : ℕ} {a : Answer} {w' : List Reply}
    (ho : Outcome w x a w') (ha : a.stat = .INPROGRESS) :
    ∃ e ∈ w, e.xid = x ∧ e.cbPresent = false := by
  cases ho with
  | held e hf h hx =>
    refine ⟨e, mem_of_mem_moved h, hx, ?_⟩
    unfold Reply.answer at ha
    split_ifs at ha with hc
    simpa using hc
  | _ => cases ha

/-! ### How the xids of a window move -/

theorem LastTop.le {l : List ℕ} (h : LastTop l) {b : ℕ} (hb : l.getLast? = some b) {y : ℕ}
    (hy : y ∈ l) : y ≤ b := by
  rw [← List.dropLast_append_getLast? b hb, List.mem_append, List.mem_singleton] at hy
  rcases hy with hy | rfl
  · exact ((h b hb).2 y hy).le
  · exact le_rfl

theorem LastTop.lastMax {w : List Reply} (h : LastTop (w.map Reply.xid)) : LastMax w := by
  intro b hb e he
  exact h.le (by rw [List.getLast?_map, hb]; rfl) (List.mem_map_of_mem he)

theorem LastTop.tail {y z : ℕ} {l : List ℕ} (h : LastTop (y :: z :: l)) : LastTop (z :: l) := by
  intro b hb
  obtain ⟨hb', hlt⟩ := h b (by rw [List.getLast?_cons_cons, hb])
  exact ⟨hb', fun x hx => hlt x (List.mem_cons_of_mem y hx)⟩

/-- In front of the last entry the successor of an xid does not wrap around. -/
theorem LastTop.succXid_eq {y z : ℕ} {l : List ℕ} (h : LastTop (y :: z :: l)) :
    succXid y = y + 1 := by
  obtain ⟨b, hb⟩ : ∃ b, (y :: z :: l).getLast? = some b := ⟨_, List.getLast?_eq_some_getLast (by simp)⟩
  obtain ⟨hlt, hy⟩ := h b hb
  have := hy y (by simp)
  exact Nat.mod_eq_of_lt (by omega)

theorem LastTop.moved {w : List Reply} (h : LastTop (w.map Reply.xid)) :
    LastTop ((moved w).map Reply.xid) := by
  unfold Rpc.moved
  split_ifs with ht
  · match w, ht with
    | e :: a :: r, _ => exact h.tail
  · exact h

theorem LastTop.insert {x : ℕ} {pre post : List Reply} (h : LastTop ((pre ++ post).map Reply.xid))
    (hr : Room x pre post) (hx : x < 2 ^ 32) :
    LastTop ((pre ++ Reply.new x :: post).map Reply.xid) := by
  rcases hr with ⟨rfl, hpre⟩ | ⟨cur, next, rest, rfl, hl, hn⟩
  · intro b hb
    obtain rfl : x = b := by simpa using hb
    exact ⟨hx, by simpa using hpre⟩
  · intro b hb
    have hb' : ((pre ++ cur :: next :: rest).map Reply.xid).getLast? = some b := by
      rw [← hb]
      simp [List.getLast?_append, List.getLast?_cons_cons]
    have hnext : next.xid ≤ b := h.le hb' (by simp)
    refine ⟨(h b hb').1, fun y hy => ?_⟩
    have hold := (h b hb').2 y
    simp only [List.map_append, List.map_cons, List.dropLast_append_cons, List.dropLast_cons_cons,
      List.mem_append, List.mem_cons, Reply.new_xid] at hy hold
    rcases hy with hy | rfl | hy
    · exact hold (.inl hy)
    · omega
    · exact hold (.inr hy)

theorem copies_moved {w : List Reply} (h : LastTop (w.map Reply.xid)) (y : ℕ) :
    copies y (w.map Reply.xid) ≤ copies y ((moved w).map Reply.xid) := by
  unfold moved
  split_ifs with ht
  · match w, ht with
    | e :: a :: r, ht =>
      have hs : succXid e.xid = e.xid + 1 := h.succXid_eq
      have ha : a.xid = e.xid + 1 := by
        simp only [trims, Bool.and_eq_true, decide_eq_true_eq] at ht
        rw [ht.2, hs]
      simp only [copies, List.map_cons, List.tail_cons, List.headD_cons, List.count_cons, beq_iff_eq,
        ha]
      split_ifs <;> omega
  · exact le_rfl

theorem copies_insert {x : ℕ} {pre post : List Reply} (hr : Room x pre post) (y : ℕ) :
    copies y ((pre ++ post).map Reply.xid) + (if y = x then 1 else 0) ≤
      copies y ((pre ++ Reply.new x :: post).map Reply.xid) := by
  have hhead : ((pre ++ post).map Reply.xid).headD 0 ≤
      ((pre ++ Reply.new x :: post).map Reply.xid).headD 0 := by
    cases pre with
    | cons e pre => simp
    | nil =>
      rcases hr with ⟨rfl, -⟩ | ⟨cur, next, rest, rfl, hl, -⟩
      · simp
      · simpa using hl.le
  simp only [copies, List.map_append, List.map_cons, List.count_append, List.count_cons, beq_iff_eq,
    Reply.new_xid] at hhead ⊢
  split_ifs <;> omega

theorem Outcome.lastTop {w : List Reply} {x : ℕ} {a : Answer} {w' : List Reply}
    (ho : Outcome w x a w') (hw : LastTop (w.map Reply.xid)) (hx : x < 2 ^ 32) :
    LastTop (w'.map Reply.xid) := by
  obtain ⟨v, hv, h⟩ := ho.kept_or_new
  have hvt : LastTop (v.map Reply.xid) := by
    rcases hv with rfl | rfl
    · exact hw
    · exact hw.moved
  rcases h with ⟨-, rfl⟩ | ⟨-, pre, post, rfl, rfl, hr⟩
  · exact hvt
  · exact hvt.insert hr hx

/-- A call loses at most the front copy of an xid, and that only by passing it. -/
theorem Outcome.copies_le {w : List Reply} {x : ℕ} {a : Answer} {w' : List Reply}
    (ho : Outcome w x a w') (hw : LastTop (w.map Reply.xid)) (y : ℕ) :
    copies y (w.map Reply.xid) + (if y = x ∧ a.stat = .NEW then 1 else 0) ≤
      copies y (w'.map Reply.xid) := by
  obtain ⟨v, hv, h⟩ := ho.kept_or_new
  have hvc : copies y (w.map Reply.xid) ≤ copies y (v.map Reply.xid) := by
    rcases hv with rfl | rfl
    · exact le_rfl
    · exact copies_moved hw y
  rcases h with ⟨hn, rfl⟩ | ⟨hn, pre, post, rfl, rfl, hr⟩
  · simpa [hn] using hvc
  · simp only [hn, and_true]
    exact (Nat.add_le_add_right hvc _).trans (copies_insert hr y)

/-! ### Every run -/

@[simp] theorem isNew_answered (c x c' x' : ℕ) (a : Answer) : isNew c x (.answered c' x' a) =
    (decide (c' = c) && decide (x' = x) && decide (a.stat = .NEW)) := rfl
@[simp] theorem isNew_executed (c x c' x' : ℕ) : isNew c x (.executed c' x') = false := rfl
@[simp] theorem isNew_stored (c x c' x' b : ℕ) (sz : ℤ) :
    isNew c x (.stored c' x' b sz) = false := rfl
@[simp] theorem isStored_answered (c x c' x' : ℕ) (a : Answer) :
    isStored c x (.answered c' x' a) = false := rfl
@[simp] theorem isStored_executed (c x c' x' : ℕ) : isStored c x (.executed c' x') = false := rfl
@[simp] theorem isStored_stored (c x c' x' b : ℕ) (sz : ℤ) :
    isStored c x (.stored c' x' b sz) = (decide (c' = c) && decide (x' = x)) := rfl

theorem pending_record (s : ServerState) {h : ReqHeader} (hc : h.cltNonce ≠ 0) (a : Answer)
    (srv : Rpcs) (c x : ℕ) :
    (⟨srv, record h (.served a) ++ s.seen⟩ : ServerState).pending c x =
      (decide (h.cltNonce = c ∧ h.xid = x ∧ a.stat = .NEW) || s.pending c x) := by
  have hrec : record h (.served a) = (if a.stat = .NEW then [.executed h.cltNonce h.xid] else []) ++
      [.answered h.cltNonce h.xid a] := by simp [record, hc]
  by_cases hn : a.stat = .NEW <;> by_cases h1 : h.cltNonce = c <;> by_cases h2 : h.xid = x <;>
    simp [hrec, hn, h1, h2, ServerState.pending]

theorem pending_stored (s : ServerState) (c x b : ℕ) (sz : ℤ) (srv : Rpcs) (c' x' : ℕ) :
    (⟨srv, .stored c x b sz :: s.seen⟩ : ServerState).pending c' x' =
      (!decide (c = c' ∧ x = x') && s.pending c' x') := by
  by_cases h1 : c = c' <;> by_cases h2 : x = x' <;>
    simp [h1, h2, ServerState.pending]

/-- An xid that was answered `NEW` and never had a reply added is pending. -/
theorem pending_of_storedCount {s : ServerState} {c x : ℕ} (hs : s.storedCount c x = 0)
    (hn : 0 < s.newCount c x) : s.pending c x = true := by
  obtain ⟨r, hr, hrn⟩ := List.countP_pos_iff.mp hn
  have hunstored := List.countP_eq_zero.mp hs
  unfold ServerState.pending
  cases hf : s.seen.find? fun r => isNew c x r || isStored c x r with
  | none =>
    have h := List.find?_eq_none.mp hf r hr
    simp [hrn] at h
  | some q =>
    have h := List.find?_some hf
    simpa [hunstored q (List.mem_of_find?_eq_some hf)] using h

/-- Pending requests and waiting entries are the same, and each `NEW` has left its entry. -/
structure Tracked (s : ServerState) : Prop where
  lastTop : ∀ c, LastTop ((opened (s.srv.replyWindow c)).map Reply.xid)
  waiting : s.Waiting
  pending : ∀ c, ∀ e ∈ s.srv.replyWindow c, e.cbPresent = false → s.pending c e.xid = true
  copies : ∀ c x, s.newCount c x ≤ copies x ((s.srv.replyWindow c).map Reply.xid)

theorem copies_le_opened (x : ℕ) (w : List Reply) :
    copies x (w.map Reply.xid) ≤ copies x ((opened w).map Reply.xid) := by
  cases w with
  | nil => simp [copies]
  | cons e w => exact le_rfl

theorem mem_of_waiting_opened {w : List Reply} {e : Reply} (he : e ∈ opened w)
    (hc : e.cbPresent = false) : e ∈ w := by
  cases w with
  | nil =>
    rw [opened_nil, List.mem_singleton] at he
    subst he
    cases hc
  | cons f w => exact he

theorem tracked_init (nonce : ℕ) (procs : ℕ → Bool) : Tracked (server nonce procs).init where
  lastTop c := by
    intro b hb
    obtain rfl : 0 = b := by simpa [server, sentinel] using hb
    exact ⟨by decide, by simp [server]⟩
  waiting c x hp := by cases hp
  pending c e he := by cases he
  copies c x := by simp [server, ServerState.newCount]

theorem Tracked.answer {s : ServerState} (hs : Tracked s) {h : ReqHeader} {a : Answer}
    {w : List Reply} (hc : h.cltNonce ≠ 0) (hx : h.xid < 2 ^ 32)
    (ho : Outcome (s.windowOf h) h.xid a w) :
    Tracked ⟨s.srv.setWindow h.cltNonce w, record h (.served a) ++ s.seen⟩ := by
  refine ⟨?_, ?_, ?_, ?_⟩
  · intro c
    by_cases he : c = h.cltNonce
    · subst he
      simpa [opened_of_ne_nil ho.ne_nil] using ho.lastTop (hs.lastTop _) hx
    · simpa [he] using hs.lastTop c
  · intro c x hp
    rw [pending_record s hc, Bool.or_eq_true, decide_eq_true_eq] at hp
    by_cases he : c = h.cltNonce
    · subst he
      rw [Rpcs.setWindow_self]
      rcases hp with ⟨-, rfl, hn⟩ | hp
      · exact ⟨Reply.new h.xid, ho.new_mem hn, rfl, rfl⟩
      · obtain ⟨e, hew, hex, hec⟩ := hs.waiting _ _ hp
        have hopen : e ∈ s.windowOf h := by
          rw [ServerState.windowOf, opened_of_ne_nil (List.ne_nil_of_mem hew)]
          exact hew
        exact ⟨e, ho.mem_of_waiting hopen hec, hex, hec⟩
    · rw [Rpcs.setWindow_of_ne _ he]
      exact hs.waiting c x (hp.resolve_left fun hp => he hp.1.symm)
  · intro c e hew hec
    rw [pending_record s hc, Bool.or_eq_true, decide_eq_true_eq]
    by_cases he : c = h.cltNonce
    · subst he
      rw [Rpcs.setWindow_self] at hew
      rcases ho.mem_or_new hew with hold | ⟨hn, rfl⟩
      · exact .inr (hs.pending _ e (mem_of_waiting_opened hold hec) hec)
      · exact .inl ⟨rfl, rfl, hn⟩
    · rw [Rpcs.setWindow_of_ne _ he] at hew
      exact .inr (hs.pending c e hew hec)
  · intro c x
    rw [newCount_record s hc]
    have hold := hs.copies c x
    by_cases he : c = h.cltNonce
    · subst he
      have hcop := ho.copies_le (hs.lastTop _) x
      have hop := copies_le_opened x (s.srv.replyWindow h.cltNonce)
      rw [ServerState.windowOf] at hcop
      simp only [Rpcs.setWindow_self, true_and]
      omega
    · simpa [he] using hold

/-- Adding a reply marks every entry of its xid and takes the xid off the pending ones. -/
theorem Tracked.addReply {s : ServerState} (hs : Tracked s) (c x b : ℕ) (sz : ℤ) :
    Tracked ⟨s.srv.setWindow c (addReply (s.srv.replyWindow c) x b sz),
      .stored c x b sz :: s.seen⟩ := by
  refine ⟨?_, ?_, ?_, ?_⟩
  · intro d
    by_cases he : d = c
    · subst he
      rw [Rpcs.setWindow_self, opened_addReply_map_xid]
      exact hs.lastTop d
    · simpa [he] using hs.lastTop d
  · intro d y hp
    rw [pending_stored, Bool.and_eq_true, Bool.not_eq_true', decide_eq_false_iff_not] at hp
    obtain ⟨e, hew, hey, hec⟩ := hs.waiting d y hp.2
    by_cases he : d = c
    · subst he
      have hxe : x ≠ e.xid := fun h => hp.1 ⟨rfl, h.trans hey⟩
      rw [Rpcs.setWindow_self]
      exact ⟨e, List.mem_map.mpr ⟨e, hew, if_neg hxe⟩, hey, hec⟩
    · rw [Rpcs.setWindow_of_ne _ he]
      exact ⟨e, hew, hey, hec⟩
  · intro d e hew hec
    rw [pending_stored, Bool.and_eq_true, Bool.not_eq_true', decide_eq_false_iff_not]
    by_cases he : d = c
    · subst he
      rw [Rpcs.setWindow_self] at hew
      obtain ⟨f, hf, rfl⟩ := List.mem_map.mp hew
      by_cases hxf : x = f.xid
      · simp [hxf] at hec
      · rw [if_neg hxf] at hec ⊢
        exact ⟨fun h => hxf h.2, hs.pending d f hf hec⟩
    · rw [Rpcs.setWindow_of_ne _ he] at hew
      exact ⟨fun h => he h.1.symm, hs.pending d e hew hec⟩
  · intro d y
    have hold := hs.copies d y
    by_cases he : d = c
    · subst he
      simpa [ServerState.newCount, addReply_map_xid] using hold
    · simpa [he, ServerState.newCount] using hold

/-- Runs of handlers for a client without a nonce are no part of the history of any xid. -/
theorem Tracked.away {s : ServerState} (hs : Tracked s) {l : List Seen}
    (hl : ∀ r ∈ l, ∃ c x, r = .executed c x) : Tracked ⟨s.srv, l ++ s.seen⟩ := by
  have hpend (c x : ℕ) : (⟨s.srv, l ++ s.seen⟩ : ServerState).pending c x = s.pending c x := by
    have hnone : l.find? (fun r => isNew c x r || isStored c x r) = none := by
      apply List.find?_eq_none.mpr
      intro r hr
      obtain ⟨c', x', rfl⟩ := hl r hr
      simp
    simp [ServerState.pending, List.find?_append, hnone]
  have hnew (c x : ℕ) : (⟨s.srv, l ++ s.seen⟩ : ServerState).newCount c x = s.newCount c x := by
    have hzero : l.countP (isNew c x) = 0 := by
      apply List.countP_eq_zero.mpr
      intro r hr
      obtain ⟨c', x', rfl⟩ := hl r hr
      simp
    simp [ServerState.newCount, List.countP_append, hzero]
  refine ⟨hs.lastTop, fun c x hp => ?_, fun c e he hec => ?_, fun c x => ?_⟩
  · exact hs.waiting c x (hpend c x ▸ hp)
  · rw [hpend]
    exact hs.pending c e he hec
  · rw [hnew]
    exact hs.copies c x

theorem tracked_step {s t : ServerState} {e : ServerEvent} (hs : Tracked s) (hx : ShortXid e)
    (ht : serverStep s e = some t) : Tracked t := by
  cases e with
  | pdu h =>
    by_cases hr : s.srv.Reaches h
    · obtain ⟨a, w, -, ho, rfl⟩ := serverStep_outcome (hs.lastTop h.cltNonce).lastMax hr ht
      exact hs.answer hr.2.2 hx ho
    · obtain ⟨l, hl, hrec⟩ := serverStep_pdu_away hr
      rw [hl] at ht
      cases ht
      exact hs.away fun r hr => ⟨_, _, (hrec r hr).2⟩
  | reply c x b sz =>
    cases ht
    exact hs.addReply c x b sz

/-- An `add_reply` that is not one too many finds an entry: the front passes only one copy of an
xid, so one reply is missing its entry only after another one was added. -/
theorem Tracked.entry {s : ServerState} (hs : Tracked s) {c x : ℕ}
    (hlt : s.storedCount c x < s.newCount c x) : ∃ e ∈ s.srv.replyWindow c, e.xid = x := by
  by_cases hm : x ∈ (s.srv.replyWindow c).map Reply.xid
  · exact List.mem_map.mp hm
  · have hle := hs.copies c x
    rw [Rpc.copies, List.count_eq_zero.mpr hm] at hle
    have hzero : s.storedCount c x = 0 := by
      split_ifs at hle <;> omega
    obtain ⟨e, he, hex, -⟩ := hs.waiting c x (pending_of_storedCount hzero (by omega))
    exact ⟨e, he, hex⟩

theorem Tracked.tracks {s : ServerState} (hs : Tracked s) (e : ServerEvent) : Tracks s e := by
  cases e with
  | reply c x b sz => exact hs.entry
  | pdu h =>
    intro hr a w hc ha
    obtain ⟨a', w', hc', ho, -⟩ :=
      serverStep_outcome (hs.lastTop h.cltNonce).lastMax hr (serverStep_pdu_eq hr hc)
    rw [hc] at hc'
    cases hc'
    obtain ⟨e, he, hex, hec⟩ := ho.waiting_of_inProgress ha
    rw [← hex]
    exact hs.pending _ e (mem_of_waiting_opened he hec) hec

/-- In every run, whatever arrives in whatever order, a request that was answered `NEW` has an entry
without a reply until `add_reply` is called for it, each such call finds an entry, and `INPROGRESS`
is answered only in between. -/
theorem pending_kept {nonce : ℕ} {procs : ℕ → Bool} {es : List ServerEvent}
    (hx : ∀ e ∈ es, ShortXid e) :
    (server nonce procs).Throughout ServerState.Waiting (server nonce procs).init es ∧
      (server nonce procs).Along Tracks (server nonce procs).init es := by
  have hshort := Machine.along_of_forall (m := server nonce procs) (s := (server nonce procs).init) hx
  constructor
  · exact hshort.throughout (I := Tracked) (fun _ hs => hs.waiting)
      (fun _ _ _ hs hx ht => tracked_step hs hx ht) (tracked_init nonce procs)
  · exact hshort.imp (I := Tracked) (fun _ _ _ hs hx ht => tracked_step hs hx ht)
      (fun _ e hs _ => hs.tracks e) (tracked_init nonce procs)

/-- A request that waits while a later one is answered and repeated. -/
theorem pending_kept_overtaken :
    (∀ e ∈ [ServerEvent.pdu (plainRequest 1), .pdu (plainRequest 2), .reply 7 2 64 20,
      .pdu (plainRequest 2), .pdu (plainRequest 1)], ShortXid e) ∧
    (server 3 fun _ => true).Throughout ServerState.Waiting (server 3 fun _ => true).init
      [.pdu (plainRequest 1), .pdu (plainRequest 2), .reply 7 2 64 20, .pdu (plainRequest 2),
        .pdu (plainRequest 1)] ∧
    (server 3 fun _ => true).Along Tracks (server 3 fun _ => true).init
      [.pdu (plainRequest 1), .pdu (plainRequest 2), .reply 7 2 64 20, .pdu (plainRequest 2),
        .pdu (plainRequest 1)] :=
  ⟨by decide, pending_kept (by decide)⟩

end YFS.Rpc
