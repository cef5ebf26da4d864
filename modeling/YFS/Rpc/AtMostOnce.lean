import YFS.Rpc.Server

/-! # At-most-once execution

The scan inserts a request that lands between two entries in front of the smaller
one. From then on the list is out of order and a later scan can meet a gap before
it meets the entry it looks for, so the same xid is admitted again. As long as no
request lands in a gap that the scan compares, an xid is admitted only above
everything in the window, and therefore once.
-/

namespace YFS.Rpc
open YFS.Library

def isNew (c x : ℕ) : Seen → Bool
  | .answered c' x' a => decide (c' = c) && decide (x' = x) && decide (a.stat = .NEW)
  | _ => false

def isRun (c x : ℕ) : Seen → Bool
  | .executed c' x' => decide (c' = c) && decide (x' = x)
  | _ => false

def ServerState.newCount (s : ServerState) (c x : ℕ) : ℕ := s.seen.countP (isNew c x)

def ServerState.runCount (s : ServerState) (c x : ℕ) : ℕ := s.seen.countP (isRun c x)

/-- The entries whose neighbouring pairs the scan compares the xid with. -/
def compared (w : List Reply) : List Reply := if trims w then w.drop 2 else w

/-- The request neither lands in a gap the scan compares nor repeats an answered only entry. -/
def Orderly (s : ServerState) : ServerEvent → Prop
  | .pdu h => s.srv.Reaches h →
      inGap h.xid (compared (s.windowOf h)) = false ∧ repeatsOnly h.xid (s.windowOf h) = false
  | .reply .. => True

theorem compared_of_moved {w : List Reply} {x : ℕ} {pre post : List Reply} {cur next : Reply}
    (hw : moved w = pre ++ cur :: next :: post) (hp : trims w = true → pre ≠ [])
    (hl : cur.xid < x) (hr : x < next.xid) : inGap x (compared w) = true := by
  unfold moved at hw
  unfold compared
  split_ifs at hw ⊢ with ht
  · obtain ⟨p, ps, rfl⟩ := List.exists_cons_of_ne_nil (hp ht)
    have hd : w.drop 2 = ps ++ cur :: next :: post := by
      rw [show w.drop 2 = w.tail.tail by rw [← List.drop_one, ← List.drop_one, List.drop_drop], hw]
      rfl
    rw [hd]
    exact inGap_append_pair ps post hl hr
  · rw [hw]
    exact inGap_append_pair pre post hl hr

/-- Outside the compared gaps only an xid above the whole window is answered `NEW`. -/
theorem Outcome.new_above {w : List Reply} {x : ℕ} {a : Answer} {w' : List Reply}
    (ho : Outcome w x a w') (ha : a.stat = .NEW) (hg : inGap x (compared w) = false) :
    ∀ e ∈ w, e.xid < x := by
  cases ho with
  | fresh h => exact h
  | below e r hwe h => cases ha
  | dropped e f r hwe ht he h => cases ha
  | held e hf h hx =>
    unfold Reply.answer at ha
    split_ifs at ha
  | filled pre post cur next hf hwm hp hl hr =>
    rw [compared_of_moved hwm hp hl hr] at hg
    cases hg
  | missed h => cases ha

/-- Every admitted xid is covered by the window, admitted once and executed once. -/
structure Once (s : ServerState) : Prop where
  lastMax : ∀ c, LastMax (opened (s.srv.replyWindow c))
  covered : ∀ c x, 0 < s.newCount c x → ∃ e ∈ opened (s.srv.replyWindow c), x ≤ e.xid
  once : ∀ c x, s.newCount c x ≤ 1
  runs : ∀ c x, c ≠ 0 → s.runCount c x = s.newCount c x

theorem once_init (nonce : ℕ) (procs : ℕ → Bool) : Once (server nonce procs).init where
  lastMax _ := LastMax.opened_nil
  covered c x h := absurd h (by simp [server, ServerState.newCount])
  once c x := by simp [server, ServerState.newCount]
  runs c x _ := by simp [server, ServerState.newCount, ServerState.runCount]

theorem newCount_record (s : ServerState) {h : ReqHeader} (hc : h.cltNonce ≠ 0) (a : Answer)
    (srv : Rpcs) (c x : ℕ) :
    (⟨srv, record h (.served a) ++ s.seen⟩ : ServerState).newCount c x =
      (if c = h.cltNonce ∧ x = h.xid ∧ a.stat = .NEW then 1 else 0) + s.newCount c x := by
  by_cases hn : a.stat = .NEW <;> by_cases h1 : c = h.cltNonce <;> by_cases h2 : x = h.xid <;>
    simp [record, hc, hn, h1, h2, isNew, ServerState.newCount, eq_comm, add_comm]

/-- A request answered from the window keeps the invariant. -/
theorem Once.answer {s : ServerState} (hs : Once s) {h : ReqHeader} {a : Answer} {w : List Reply}
    (hc : h.cltNonce ≠ 0) (ho : Outcome (s.windowOf h) h.xid a w)
    (hg : inGap h.xid (compared (s.windowOf h)) = false) :
    Once ⟨s.srv.setWindow h.cltNonce w, record h (.served a) ++ s.seen⟩ := by
  have hopen : opened w = w := opened_of_ne_nil ho.ne_nil
  have hnew (c x : ℕ) : (record h (.served a) ++ s.seen).countP (isNew c x) =
      (if c = h.cltNonce ∧ x = h.xid ∧ a.stat = .NEW then 1 else 0) + s.newCount c x :=
    newCount_record s hc a s.srv c x
  have hrun (c x : ℕ) : (record h (.served a) ++ s.seen).countP (isRun c x) =
      (if c = h.cltNonce ∧ x = h.xid ∧ a.stat = .NEW then 1 else 0) + s.runCount c x := by
    by_cases hn : a.stat = .NEW <;> by_cases h1 : c = h.cltNonce <;> by_cases h2 : x = h.xid <;>
      simp [record, hc, hn, h1, h2, isRun, ServerState.runCount, eq_comm, add_comm]
  refine ⟨?_, ?_, ?_, ?_⟩
  · intro c
    by_cases he : c = h.cltNonce
    · subst he
      simpa [hopen] using ho.lastMax (hs.lastMax _)
    · simpa [he] using hs.lastMax c
  · intro c x hx
    have hx : 0 < (record h (.served a) ++ s.seen).countP (isNew c x) := hx
    rw [hnew] at hx
    by_cases he : c = h.cltNonce
    · subst he
      simp only [Rpcs.setWindow_self, hopen]
      by_cases hnewx : x = h.xid ∧ a.stat = .NEW
      · obtain ⟨rfl, hn⟩ := hnewx
        have habove := ho.new_above hn hg
        cases ho with
        | fresh _ => exact ⟨Reply.new h.xid, by simp, le_rfl⟩
        | filled pre post cur next hf hwm hp hl hr => exact ⟨next, by simp, hr.le⟩
        | held e hf hem hex => exact ⟨e, hem, hex.ge⟩
        | _ => cases hn
      · have hold : 0 < s.newCount h.cltNonce x := by simpa [hnewx] using hx
        exact ho.covers (hs.lastMax _) (hs.covered _ _ hold)
    · simpa [he] using hs.covered c x (by simpa [he] using hx)
  · intro c x
    have hle := hs.once c x
    change (record h (.served a) ++ s.seen).countP (isNew c x) ≤ 1
    rw [hnew]
    split_ifs with hcx
    · obtain ⟨rfl, rfl, hn⟩ := hcx
      have hzero : s.newCount h.cltNonce h.xid = 0 := by
        by_contra hpos
        obtain ⟨e, he, hxe⟩ := hs.covered _ _ (Nat.pos_of_ne_zero hpos)
        exact absurd (ho.new_above hn hg e he) (Nat.not_lt.mpr hxe)
      omega
    · omega
  · intro c x hc0
    change (record h (.served a) ++ s.seen).countP (isRun c x) =
      (record h (.served a) ++ s.seen).countP (isNew c x)
    rw [hnew, hrun, hs.runs c x hc0]

/-- Entries of the history that are no answers and no runs of a numbered client keep it too. -/
theorem Once.extend {s : ServerState} (hs : Once s) {srv : Rpcs} {l : List Seen}
    (hwin : ∀ c, (opened (srv.replyWindow c)).map Reply.xid =
      (opened (s.srv.replyWindow c)).map Reply.xid)
    (hl : ∀ r ∈ l, ∀ c x, isNew c x r = false ∧ (c ≠ 0 → isRun c x r = false)) :
    Once ⟨srv, l ++ s.seen⟩ := by
  have hnew (c x : ℕ) : (l ++ s.seen).countP (isNew c x) = s.newCount c x := by
    rw [List.countP_append, List.countP_eq_zero.mpr fun r hr => by simp [(hl r hr c x).1],
      zero_add]
    rfl
  have hrun (c x : ℕ) (hc : c ≠ 0) : (l ++ s.seen).countP (isRun c x) = s.runCount c x := by
    rw [List.countP_append, List.countP_eq_zero.mpr fun r hr => by simp [(hl r hr c x).2 hc],
      zero_add]
    rfl
  have hcover (c : ℕ) {y : ℕ} (hy : ∃ e ∈ opened (s.srv.replyWindow c), y ≤ e.xid) :
      ∃ e ∈ opened (srv.replyWindow c), y ≤ e.xid := by
    obtain ⟨e, he, hye⟩ := hy
    have hm := List.mem_map_of_mem (f := Reply.xid) he
    rw [← hwin c] at hm
    obtain ⟨e', he', hx⟩ := List.mem_map.mp hm
    exact ⟨e', he', by omega⟩
  refine ⟨?_, fun c x h => hcover c (hs.covered c x (hnew c x ▸ h)),
    fun c x => (hnew c x).trans_le (hs.once c x), ?_⟩
  · intro c b hb e he
    have hlast := congrArg List.getLast? (hwin c)
    rw [List.getLast?_map, List.getLast?_map, hb] at hlast
    obtain ⟨b', hb', hbx⟩ := Option.map_eq_some_iff.mp hlast.symm
    have hm := List.mem_map_of_mem (f := Reply.xid) he
    rw [hwin c] at hm
    obtain ⟨e', he', hx⟩ := List.mem_map.mp hm
    have := hs.lastMax c b' hb' e' he'
    omega
  · intro c x hc
    exact (hrun c x hc).trans ((hs.runs c x hc).trans (hnew c x).symm)

theorem opened_addReply_map_xid {w : List Reply} (x b : ℕ) (sz : ℤ) :
    (opened (addReply w x b sz)).map Reply.xid = (opened w).map Reply.xid := by
  cases w with
  | nil => rfl
  | cons e w =>
    rw [opened_addReply (by simp)]
    exact addReply_map_xid _ _ _ _

theorem once_step {s : ServerState} (hs : Once s) {e : ServerEvent} (ho : Orderly s e) :
    ∃ t, serverStep s e = some t ∧ Once t := by
  cases e with
  | pdu h =>
    by_cases hr : s.srv.Reaches h
    · obtain ⟨hg, hrep⟩ := ho hr
      rcases check_cases h.xid h.xidRep (hs.lastMax h.cltNonce) with ⟨hrep', -⟩ | ⟨-, a, w, hc, hout⟩
      · exact absurd (hrep.symm.trans hrep') (by simp)
      · exact ⟨_, serverStep_pdu_eq hr hc, hs.answer hr.2.2 hout hg⟩
    · obtain ⟨l, hl, hrec⟩ := serverStep_pdu_away hr
      refine ⟨_, hl, hs.extend (fun _ => rfl) ?_⟩
      intro r hmem c x
      obtain ⟨h0, rfl⟩ := hrec r hmem
      refine ⟨rfl, fun hc => ?_⟩
      simp [isRun, h0, Ne.symm hc]
  | reply c x b sz =>
    refine ⟨_, rfl, hs.extend (l := [.stored c x b sz]) (fun c' => ?_) (by simp [isNew, isRun])⟩
    by_cases he : c' = c
    · subst he
      rw [Rpcs.setWindow_self]
      exact opened_addReply_map_xid x b sz
    · rw [Rpcs.setWindow_of_ne _ he]

/-- In every run of orderly requests and replies, no read goes past the end of the window,
every xid of every client is answered `NEW` at most once, and its handler runs at most once. -/
theorem at_most_once {nonce : ℕ} {procs : ℕ → Bool} {es : List ServerEvent}
    (ho : (server nonce procs).Along Orderly (server nonce procs).init es) :
    ∃ s, (server nonce procs).run es = some s ∧
      ∀ c x, c ≠ 0 → s.newCount c x ≤ 1 ∧ s.runCount c x ≤ 1 := by
  obtain ⟨s, hrun, hs⟩ := Machine.Along.progress (I := Once)
    (fun _ _ hi hc => once_step hi hc) (once_init nonce procs) ho
  refine ⟨s, hrun, fun c x hc => ⟨hs.once c x, ?_⟩⟩
  rw [hs.runs c x hc]
  exact hs.once c x

/-- Two requests in order, each repeated, with the first reply recorded in between. -/
theorem at_most_once_repeated :
    (server 3 fun _ => true).Along Orderly (server 3 fun _ => true).init
      [.pdu (plainRequest 1), .pdu (plainRequest 1), .reply 7 1 64 20, .pdu (plainRequest 2),
        .pdu (plainRequest 1)] ∧
    ∃ s, (server 3 fun _ => true).run
      [.pdu (plainRequest 1), .pdu (plainRequest 1), .reply 7 1 64 20, .pdu (plainRequest 2),
        .pdu (plainRequest 1)] = some s ∧
      ∀ c x, c ≠ 0 → s.newCount c x ≤ 1 ∧ s.runCount c x ≤ 1 := by
  have ho : (server 3 fun _ => true).Along Orderly (server 3 fun _ => true).init
      [.pdu (plainRequest 1), .pdu (plainRequest 1), .reply 7 1 64 20, .pdu (plainRequest 2),
        .pdu (plainRequest 1)] := by
    refine ⟨fun _ => by decide, ?_⟩
    rintro _ ⟨⟩
    refine ⟨fun _ => by decide, ?_⟩
    rintro _ ⟨⟩
    refine ⟨trivial, ?_⟩
    rintro _ ⟨⟩
    refine ⟨fun _ => by decide, ?_⟩
    rintro _ ⟨⟩
    refine ⟨fun _ => by decide, ?_⟩
    rintro _ ⟨⟩
    trivial
  exact ⟨ho, at_most_once ho⟩

/-- The requests 5, 10 and 7 arrive in this order, then 5 is retransmitted: the handler of the
request with xid 5 runs twice although none of the requests was ever answered. -/
theorem executed_twice :
    (server 3 fun _ => true).Along (Admissible 1 (2 ^ 32 - 2)) (server 3 fun _ => true).init
      [.pdu (plainRequest 5), .pdu (plainRequest 10), .pdu (plainRequest 7),
        .pdu (plainRequest 5)] ∧
    ∃ s, (server 3 fun _ => true).run
      [.pdu (plainRequest 5), .pdu (plainRequest 10), .pdu (plainRequest 7),
        .pdu (plainRequest 5)] = some s ∧
      s.newCount 7 5 = 2 ∧ s.runCount 7 5 = 2 := by
  refine ⟨?_, _, rfl, by decide, by decide⟩
  refine ⟨fun _ => by decide, fun _ _ => ⟨fun _ => by decide, fun _ _ => ⟨fun _ => by decide,
    fun _ _ => ⟨fun _ => by decide, fun _ _ => trivial⟩⟩⟩⟩

end YFS.Rpc
