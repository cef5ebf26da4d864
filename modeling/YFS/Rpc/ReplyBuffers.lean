import YFS.Rpc.AtMostOnce
import YFS.Rpc.Exchange
import YFS.Rpc.InProgress

/-! # The reply buffers

`dispatch` takes the buffer of a reply from `marshall` and leaves it to the reply window, where
the window move of `checkduplicate_and_update` or `free_reply_window` gives it back. As long as
no request lands in a gap that the scan compares, every buffer is at any time either in one entry
of one window or has been given to `free` once.
-/

namespace YFS.Rpc
open YFS.Library

/-- The reply windows of a server with the buffers of its replies. `clients` are the keys of
`reply_window_`, `running` the client and the xid of every handler that runs. A buffer is known by
its address, of which `allocated` have been handed out; `freed` are the arguments of `free`, null
among them. -/
structure Buffers where
  srv : Rpcs
  clients : List ℕ
  running : List (ℕ × ℕ)
  allocated : ℕ
  freed : List ℕ

inductive BufferEvent where
  | request (h : ReqHeader)
  | finish (n : ℕ) (sz : ℤ)

def bufs (w : List Reply) : List ℕ := w.map Reply.buf

namespace Buffers

def keys (clients : List ℕ) (c : ℕ) : List ℕ :=
  if c ∈ clients then clients else clients.orderedInsert (· ≤ ·) c

def step (s : Buffers) : BufferEvent → Option Buffers
  | .request h => (s.srv.dispatch h).map fun p =>
      { s with
        srv := p.1
        clients := if s.srv.Reaches h then keys s.clients h.cltNonce else s.clients
        running := match p.2 with
          | .served a => if a.stat = .NEW then s.running ++ [(h.cltNonce, h.xid)] else s.running
          | _ => s.running
        freed := s.freed ++ if s.srv.Reaches h then
          freedBy (opened (s.srv.replyWindow h.cltNonce)) h.xid else [] }
  | .finish n sz =>
    match s.running[n]? with
    | none => none
    | some (c, x) =>
      let b := s.allocated + 1
      if c ≠ 0 then
        some { s with
          srv := s.srv.setWindow c (addReply (s.srv.replyWindow c) x b sz)
          running := s.running.eraseIdx n
          allocated := b }
      else
        -- the reply is sent and not recorded
        some { s with running := s.running.eraseIdx n, allocated := b, freed := s.freed ++ [b] }

/-- The buffers in the reply windows, in the order of `free_reply_window`. -/
def held (s : Buffers) : List ℕ :=
  s.clients.flatMap fun c => bufs (s.srv.replyWindow c)

/-- `rpcs::free_reply_window`, called by the destructor when all handlers have returned. -/
def freeReplyWindow (s : Buffers) : Buffers :=
  { s with
    srv := { s.srv with replyWindow := fun _ => [] }
    clients := []
    freed := s.freed ++ s.held }

/-- The request does not land in a gap that the scan compares. -/
def Orderly (s : Buffers) : BufferEvent → Prop
  | .request h => s.srv.Reaches h →
      inGap h.xid (compared (opened (s.srv.replyWindow h.cltNonce))) = false
  | .finish _ _ => True

instance (s : Buffers) : (e : BufferEvent) → Decidable (s.Orderly e)
  | .request h => inferInstanceAs (Decidable (s.srv.Reaches h →
      inGap h.xid (compared (opened (s.srv.replyWindow h.cltNonce))) = false))
  | .finish _ _ => isTrue trivial

end Buffers

def buffers (nonce : ℕ) (procs : ℕ → Bool) : Machine Buffers BufferEvent where
  init := ⟨⟨nonce, procs, fun _ => []⟩, [], [], 0, []⟩
  step := Buffers.step

/-! ## Windows in order -/

def Ascending (w : List Reply) : Prop := (w.map Reply.xid).Pairwise (· < ·)

theorem bufs_opened {w : List Reply} {b : ℕ} (hb : b ≠ 0) :
    (bufs (opened w)).count b = (bufs w).count b := by
  cases w with
  | nil => simp [bufs, sentinel, Reply.new, hb.symm]
  | cons e w => rfl

namespace Ascending
variable {w : List Reply}

theorem opened (h : Ascending w) : Ascending (opened w) := by
  cases w with
  | nil => exact List.pairwise_singleton ..
  | cons e w => exact h

theorem lastMax (h : Ascending w) : LastMax w := by
  intro b hb e he
  obtain ⟨pre, rfl⟩ := List.getLast?_eq_some_iff.mp hb
  rw [Ascending, List.map_append, List.pairwise_append] at h
  rcases List.mem_append.mp he with he | he
  · exact (h.2.2 _ (List.mem_map_of_mem he) _ (List.mem_singleton_self _)).le
  · rw [List.mem_singleton.mp he]

theorem moved (h : Ascending w) : Ascending (moved w) := by
  rw [Rpc.moved]
  split
  · rw [Ascending, List.map_tail]
    exact List.Pairwise.tail h
  · exact h

theorem concat (h : Ascending w) {x : ℕ} (hx : ∀ e ∈ w, e.xid < x) :
    Ascending (w ++ [Reply.new x]) := by
  rw [Ascending, List.map_append, List.pairwise_append]
  refine ⟨h, List.pairwise_singleton .., fun y hy z hz => ?_⟩
  obtain ⟨e, he, rfl⟩ := List.mem_map.mp hy
  rw [List.map_singleton, List.mem_singleton] at hz
  rw [hz]
  exact hx e he

theorem addReply (h : Ascending w) (x b : ℕ) (sz : ℤ) : Ascending (addReply w x b sz) := by
  rw [Ascending, addReply_map_xid]
  exact h

theorem addReply_eq (h : Ascending w) {e : Reply} (he : e ∈ w) (b : ℕ) (sz : ℤ) :
    ∃ pre post, w = pre ++ e :: post ∧
      Rpc.addReply w e.xid b sz =
        pre ++ { e with sz := sz, buf := b, cbPresent := true } :: post := by
  obtain ⟨pre, post, rfl⟩ := List.append_of_mem he
  refine ⟨pre, post, rfl, ?_⟩
  rw [Ascending, List.map_append, List.pairwise_append, List.map_cons, List.pairwise_cons] at h
  have hpre : Rpc.addReply pre e.xid b sz = pre := by
    refine (List.map_congr_left fun e' he' => ?_).trans (List.map_id _)
    exact if_neg (h.2.2 _ (List.mem_map_of_mem he') _ List.mem_cons_self).ne'
  have hpost : Rpc.addReply post e.xid b sz = post := by
    refine (List.map_congr_left fun e' he' => ?_).trans (List.map_id _)
    exact if_neg (h.2.1.1 _ (List.mem_map_of_mem he')).ne
  rw [Rpc.addReply, List.map_append, List.map_cons, if_pos rfl]
  exact congrArg₂ _ hpre (congrArg _ hpost)

theorem count_bufs_addReply (h : Ascending w) {e : Reply} (he : e ∈ w) (hblank : e.buf = 0)
    (addr : ℕ) (sz : ℤ) {b : ℕ} (hb : b ≠ 0) :
    (bufs (Rpc.addReply w e.xid addr sz)).count b =
      (bufs w).count b + if addr = b then 1 else 0 := by
  obtain ⟨pre, post, hw, hw'⟩ := h.addReply_eq he addr sz
  rw [hw', hw]
  simp [bufs, List.count_cons, hblank, hb.symm, add_assoc]

end Ascending

/-- Outside the compared gaps the window stays in order. -/
theorem Outcome.ascending {w w' : List Reply} {x : ℕ} {a : Answer} (ho : Outcome w x a w')
    (h : Ascending w) (hg : inGap x (compared w) = false) : Ascending w' := by
  cases ho with
  | fresh hall => exact h.concat hall
  | below e r hw hlt => exact h
  | dropped e c r hw ht he hlt =>
    have hmoved := h.moved
    rw [moved, if_pos ht, hw] at hmoved
    exact hmoved
  | held e hf hmem hx => exact h.moved
  | filled pre post cur next hf hw hp hl hr =>
    rw [compared_of_moved hw hp hl hr] at hg
    cases hg
  | missed hfalls => exact h.moved

/-- What the scan takes out of a window is the entry whose buffer is freed. -/
theorem count_bufs_moved {w : List Reply} {x : ℕ} (hx : (w.headD sentinel).xid ≤ x)
    (hany : ∃ e ∈ w, x ≤ e.xid) (b : ℕ) :
    (bufs w).count b = (freedBy w x).count b + (bufs (moved w)).count b := by
  have hany : w.any (fun e => decide (x ≤ e.xid)) = true := by simpa using hany
  rw [freedBy, moved, decide_eq_true hx, hany, Bool.and_true, Bool.and_true]
  cases w with
  | nil => rfl
  | cons e w =>
    split
    · simp [bufs, List.count_cons, add_comm]
    · simp

/-- An entry that leaves a window has its buffer freed, and no other one. -/
theorem Outcome.count_bufs {w w' : List Reply} {x : ℕ} {a : Answer} (ho : Outcome w x a w')
    {b : ℕ} (hb : b ≠ 0) : (bufs w).count b = (freedBy w x).count b + (bufs w').count b := by
  have hnew (pre post : List Reply) :
      (bufs (pre ++ Reply.new x :: post)).count b = (bufs (pre ++ post)).count b := by
    simp [bufs, Reply.new, hb.symm]
  cases ho with
  | fresh hall =>
    have hany : w.any (fun e => decide (x ≤ e.xid)) = false := by simpa using hall
    rw [freedBy, hany, Bool.and_false, hnew, List.append_nil]
    simp
  | below e r hw hlt =>
    have hx : ¬ (w.headD sentinel).xid ≤ x := by
      rw [hw]
      exact hlt.not_ge
    rw [freedBy, decide_eq_false hx, Bool.and_false, Bool.false_and]
    simp
  | dropped e c r hw ht he hlt =>
    rw [count_bufs_moved (hw ▸ he) ⟨c, by simp [hw], hlt.le⟩, moved, if_pos ht, hw]
    rfl
  | held e hf hmem hx => exact count_bufs_moved hf ⟨e, mem_of_mem_moved hmem, hx.ge⟩ b
  | filled pre post cur next hf hw hp hl hr =>
    have hnext : next ∈ moved w := by simp [hw]
    rw [hnew, ← hw]
    exact count_bufs_moved hf ⟨next, mem_of_mem_moved hnext, hr.le⟩ b
  | missed hfalls =>
    cases w with
    | nil => cases hfalls
    | cons e w =>
      cases w with
      | nil => cases hfalls
      | cons c r =>
        simp only [fallsThrough, Bool.and_eq_true, decide_eq_true_eq, List.any_eq_true] at hfalls
        obtain ⟨⟨⟨⟨⟨-, he⟩, -⟩, g, hg, hxg⟩, -⟩, -⟩ := hfalls
        exact count_bufs_moved he ⟨g, by simp [hg], hxg⟩ b

/-! ## The ledger -/

namespace Buffers

/-- What every step keeps. The entries of handlers that run are blank, and a buffer that has been
handed out is in one entry or has been freed. -/
structure Owned (s : Buffers) : Prop where
  nodup : s.clients.Nodup
  known : ∀ c, c ∉ s.clients → s.srv.replyWindow c = []
  ascending : ∀ c, Ascending (s.srv.replyWindow c)
  blank : ∀ c, ∀ e ∈ s.srv.replyWindow c, e.cbPresent = false → e.buf = 0
  running : ∀ c x, c ≠ 0 → (c, x) ∈ s.running →
    ∃ e ∈ s.srv.replyWindow c, e.xid = x ∧ e.cbPresent = false
  once : ∀ c x, c ≠ 0 → s.running.count (c, x) ≤ 1
  ledger : ∀ b, b ≠ 0 → s.freed.count b + s.held.count b = if b ≤ s.allocated then 1 else 0

theorem owned_init (nonce : ℕ) (procs : ℕ → Bool) : Owned (buffers nonce procs).init where
  nodup := List.nodup_nil
  known _ _ := rfl
  ascending _ := List.Pairwise.nil
  blank c e he := by cases he
  running c x _ hx := by cases hx
  once _ _ _ := Nat.zero_le _
  ledger b hb := by
    rw [if_neg (by simpa [buffers] using hb)]
    rfl

theorem keys_perm (clients : List ℕ) (c : ℕ) : (keys clients c).Perm (c :: clients.erase c) := by
  rw [keys]
  split
  · rename_i hc
    exact List.perm_cons_erase hc
  · rename_i hc
    rw [List.erase_of_not_mem hc]
    exact List.perm_orderedInsert ..

variable {s s' : Buffers}

theorem Owned.count_held (h : Owned s) (c b : ℕ) : s.held.count b =
    (bufs (s.srv.replyWindow c)).count b + ((s.clients.erase c).flatMap fun d =>
      bufs (s.srv.replyWindow d)).count b := by
  by_cases hc : c ∈ s.clients
  · have hperm := (List.perm_cons_erase hc).flatMap_right fun d => bufs (s.srv.replyWindow d)
    rw [List.flatMap_cons] at hperm
    exact (hperm.count_eq b).trans (List.count_append ..)
  · rw [h.known c hc, List.erase_of_not_mem hc]
    exact (Nat.zero_add _).symm

theorem Owned.count_held_setWindow (h : Owned s) (c : ℕ) (w : List Reply) {clients : List ℕ}
    (hclients : clients.Perm (c :: s.clients.erase c)) (b : ℕ) :
    (clients.flatMap fun d => bufs ((s.srv.setWindow c w).replyWindow d)).count b =
      (bufs w).count b + ((s.clients.erase c).flatMap fun d =>
        bufs (s.srv.replyWindow d)).count b := by
  have hperm := hclients.flatMap_right fun d => bufs ((s.srv.setWindow c w).replyWindow d)
  rw [List.flatMap_cons, Rpcs.setWindow_self] at hperm
  rw [hperm.count_eq b, List.count_append]
  congr 2
  refine List.flatMap_congr fun d hd => ?_
  have hne : d ≠ c := (h.nodup.mem_erase_iff.mp hd).1
  rw [Rpcs.setWindow_of_ne _ hne]

theorem ite_le_succ (n b : ℕ) :
    ((if b ≤ n then 1 else 0) + if n + 1 = b then 1 else 0) = if b ≤ n + 1 then 1 else 0 := by
  split_ifs <;> omega

theorem Owned.lookup (h : Owned s) {c x : ℕ} {a : Answer} {w : List Reply} (hc : c ≠ 0)
    (ho : Outcome (opened (s.srv.replyWindow c)) x a w)
    (hg : inGap x (compared (opened (s.srv.replyWindow c))) = false) :
    Owned { s with
      srv := s.srv.setWindow c w
      clients := keys s.clients c
      running := if a.stat = .NEW then s.running ++ [(c, x)] else s.running
      freed := s.freed ++ freedBy (opened (s.srv.replyWindow c)) x } where
  nodup := by
    rw [(keys_perm s.clients c).nodup_iff]
    exact List.nodup_cons.mpr ⟨h.nodup.not_mem_erase, h.nodup.erase c⟩
  known d hd := by
    rw [(keys_perm s.clients c).mem_iff, List.mem_cons, not_or] at hd
    dsimp only
    rw [Rpcs.setWindow_of_ne _ hd.1]
    exact h.known d fun hmem => hd.2 ((List.mem_erase_of_ne hd.1).mpr hmem)
  ascending d := by
    by_cases hd : d = c
    · subst hd
      dsimp only
      rw [Rpcs.setWindow_self]
      exact ho.ascending (h.ascending d).opened hg
    · dsimp only
      rw [Rpcs.setWindow_of_ne _ hd]
      exact h.ascending d
  blank d e he hcb := by
    by_cases hd : d = c
    · subst hd
      dsimp only at he
      rw [Rpcs.setWindow_self] at he
      rcases ho.mem_or_new he with he | ⟨-, rfl⟩
      · exact h.blank d e (mem_of_waiting_opened he hcb) hcb
      · rfl
    · dsimp only at he
      rw [Rpcs.setWindow_of_ne _ hd] at he
      exact h.blank d e he hcb
  running d y hd hy := by
    have hold (hy : (d, y) ∈ s.running) :
        ∃ e ∈ (s.srv.setWindow c w).replyWindow d, e.xid = y ∧ e.cbPresent = false := by
      obtain ⟨e, he, hxe, hcb⟩ := h.running d y hd hy
      refine ⟨e, ?_, hxe, hcb⟩
      by_cases hdc : d = c
      · subst hdc
        rw [Rpcs.setWindow_self]
        rw [← opened_of_ne_nil (List.ne_nil_of_mem he)] at he
        exact ho.mem_of_waiting he hcb
      · rw [Rpcs.setWindow_of_ne _ hdc]
        exact he
    dsimp only at hy
    split at hy
    · rename_i hnew
      rcases List.mem_append.mp hy with hy | hy
      · exact hold hy
      · cases List.mem_singleton.mp hy
        dsimp only
        rw [Rpcs.setWindow_self]
        exact ⟨Reply.new x, ho.new_mem hnew, rfl, rfl⟩
    · exact hold hy
  once d y hd := by
    dsimp only
    split
    · rename_i hnew
      rw [List.count_append, List.count_singleton]
      by_cases hdy : (c, x) = (d, y)
      · cases hdy
        have hzero : s.running.count (c, x) = 0 := by
          rw [List.count_eq_zero]
          intro hmem
          obtain ⟨e, he, hxe, -⟩ := h.running c x hd hmem
          rw [← opened_of_ne_nil (List.ne_nil_of_mem he)] at he
          exact (ho.new_above hnew hg e he).ne hxe
        rw [hzero]
        split <;> simp
      · simpa [hdy] using h.once d y hd
    · exact h.once d y hd
  ledger b hb := by
    have hledger := h.ledger b hb
    have hheld := h.count_held c b
    have hout := ho.count_bufs hb
    rw [bufs_opened hb] at hout
    have hnew := h.count_held_setWindow c w (keys_perm s.clients c) b
    rw [← hledger, List.count_append, held, hnew]
    omega

theorem Owned.addRunning (h : Owned s) (x : ℕ) :
    Owned { s with running := s.running ++ [(0, x)] } :=
  { h with
    running := fun c y hc hy => by
      refine h.running c y hc ((List.mem_append.mp hy).resolve_right fun hy => hc ?_)
      exact congrArg Prod.fst (List.mem_singleton.mp hy)
    once := fun c y hc => by
      have hne : (0, x) ≠ (c, y) := fun heq => hc (congrArg Prod.fst heq).symm
      simpa [hne] using h.once c y hc }

theorem Owned.request (h : Owned s) {hd : ReqHeader} (ho : s.Orderly (.request hd))
    (hs : s.step (.request hd) = some s') : Owned s' := by
  by_cases hr : s.srv.Reaches hd
  · simp only [step, Rpcs.dispatch_reaches hr, if_pos hr, Option.map_map] at hs
    obtain ⟨⟨a, w⟩, hcheck, rfl⟩ := Option.map_eq_some_iff.mp hs
    rcases check_cases hd.xid hd.xidRep (h.ascending hd.cltNonce).opened.lastMax with
      ⟨-, hnone⟩ | ⟨-, a', w', hsome, hout⟩
    · rw [hcheck] at hnone
      cases hnone
    · rw [hcheck] at hsome
      cases hsome
      exact h.lookup hr.2.2 hout (ho hr)
  · obtain ⟨d, hdisp, hrecord⟩ := Rpcs.dispatch_not_reaches hr
    simp only [step, hdisp, if_neg hr, Option.map_some, List.append_nil, Option.some.injEq] at hs
    subst hs
    cases d with
    | oldServer => exact h
    | badProc => exact h
    | served a =>
      by_cases hnew : a.stat = .NEW
      · have h0 : hd.cltNonce = 0 := (hrecord _ (by simp [record, hnew]; exact .inl rfl)).1
        simp only [if_pos hnew, h0]
        exact h.addRunning hd.xid
      · simp only [if_neg hnew]
        exact h

theorem Owned.finish (h : Owned s) {n : ℕ} {sz : ℤ} (hs : s.step (.finish n sz) = some s') :
    Owned s' := by
  cases hn : s.running[n]? with
  | none => simp [step, hn] at hs
  | some p =>
    obtain ⟨c, x⟩ := p
    have hsub : (s.running.eraseIdx n).Sublist s.running := List.eraseIdx_sublist ..
    have hmem : (c, x) ∈ s.running := List.mem_of_getElem? hn
    simp only [step, hn] at hs
    split at hs
    · rename_i hc
      cases hs
      obtain ⟨e, he, rfl, hcb⟩ := h.running c x hc hmem
      obtain ⟨pre, post, hw, hw'⟩ := (h.ascending c).addReply_eq he (s.allocated + 1) sz
      have hclient : c ∈ s.clients := by
        by_contra hclient
        rw [h.known c hclient] at he
        cases he
      have hgone : (c, e.xid) ∉ s.running.eraseIdx n := by
        obtain ⟨hlt, hget⟩ := List.getElem?_eq_some_iff.mp hn
        have hcount := (List.getElem_cons_eraseIdx_perm hlt).count_eq (c, e.xid)
        rw [hget, List.count_cons_self] at hcount
        have honce := h.once c e.xid hc
        rw [← List.count_eq_zero]
        omega
      refine
        { nodup := h.nodup
          known := fun d hd => ?_
          ascending := fun d => ?_
          blank := fun d e' he' hcb' => ?_
          running := fun d y hd hy => ?_
          once := fun d y hd => (hsub.count_le _).trans (h.once d y hd)
          ledger := fun b hb => ?_ }
      · have hdc : d ≠ c := fun hdc => hd (hdc ▸ hclient)
        dsimp only
        rw [Rpcs.setWindow_of_ne _ hdc]
        exact h.known d hd
      · by_cases hd : d = c
        · subst hd
          dsimp only
          rw [Rpcs.setWindow_self]
          exact (h.ascending d).addReply ..
        · dsimp only
          rw [Rpcs.setWindow_of_ne _ hd]
          exact h.ascending d
      · by_cases hd : d = c
        · subst hd
          dsimp only at he'
          rw [Rpcs.setWindow_self, hw'] at he'
          refine h.blank d e' ?_ hcb'
          rw [hw]
          rcases List.mem_append.mp he' with he' | he'
          · exact List.mem_append_left _ he'
          · rcases List.mem_cons.mp he' with rfl | he'
            · cases hcb'
            · exact List.mem_append_right _ (List.mem_cons_of_mem _ he')
        · dsimp only at he'
          rw [Rpcs.setWindow_of_ne _ hd] at he'
          exact h.blank d e' he' hcb'
      · obtain ⟨e', he', hxe, hcb'⟩ := h.running d y hd (hsub.subset hy)
        refine ⟨e', ?_, hxe, hcb'⟩
        by_cases hdc : d = c
        · subst hdc
          have hne : e' ≠ e := by
            rintro rfl
            exact hgone (hxe ▸ hy)
          dsimp only
          rw [Rpcs.setWindow_self, hw']
          rw [hw] at he'
          simp only [List.mem_append, List.mem_cons] at he' ⊢
          tauto
        · dsimp only
          rw [Rpcs.setWindow_of_ne _ hdc]
          exact he'
      · have hledger := h.ledger b hb
        have hheld := h.count_held c b
        have hnew := h.count_held_setWindow c (addReply (s.srv.replyWindow c) e.xid
          (s.allocated + 1) sz) (List.perm_cons_erase hclient) b
        rw [(h.ascending c).count_bufs_addReply he (h.blank c e he hcb) _ _ hb] at hnew
        rw [held, hnew, ← ite_le_succ]
        dsimp only
        omega
    · cases hs
      refine
        { h with
          running := fun d y hd hy => h.running d y hd (hsub.subset hy)
          once := fun d y hd => (hsub.count_le _).trans (h.once d y hd)
          ledger := fun b hb => ?_ }
      have hledger := h.ledger b hb
      rw [List.count_append, List.count_singleton, ← ite_le_succ, ← hledger]
      simp only [beq_iff_eq, held]
      omega

theorem Owned.step {e : BufferEvent} (h : Owned s) (ho : s.Orderly e) (hs : s.step e = some s') :
    Owned s' := by
  cases e with
  | request hd => exact h.request ho hs
  | finish n sz => exact h.finish hs

end Buffers

/-- In every run of orderly requests, every buffer that has been handed out is in one entry of one
window or has been given to `free` once. When the server ends, each one has been freed once. -/
theorem reply_buffers_freed_once {nonce : ℕ} {procs : ℕ → Bool} {es : List BufferEvent}
    {s : Buffers}
    (ho : (buffers nonce procs).Along Buffers.Orderly (buffers nonce procs).init es)
    (hrun : (buffers nonce procs).run es = some s) :
    ∀ b, b ≠ 0 →
      (s.freed.count b + s.held.count b = if b ≤ s.allocated then 1 else 0) ∧
      s.freeReplyWindow.freed.count b = if b ≤ s.allocated then 1 else 0 := by
  have howned : s.Owned := ho.invariant (fun s e t h ho hs => h.step ho hs)
    (Buffers.owned_init nonce procs) hrun
  intro b hb
  have hledger := howned.ledger b hb
  exact ⟨hledger, (List.count_append ..).trans hledger⟩

/-- The second request is repeated when both have been answered. -/
def repeatedSecond : List BufferEvent :=
  [.request (plainRequest 1), .finish 0 20, .request (plainRequest 2), .finish 0 24,
    .request (plainRequest 2)]

theorem reply_buffers_freed_once_repeated :
    (buffers 3 fun _ => true).Along Buffers.Orderly (buffers 3 fun _ => true).init repeatedSecond ∧
    ∃ s, (buffers 3 fun _ => true).run repeatedSecond = some s ∧
      s.freed = [0] ∧ s.held = [1, 2] ∧
      ∀ b, b ≠ 0 →
        (s.freed.count b + s.held.count b = if b ≤ s.allocated then 1 else 0) ∧
        s.freeReplyWindow.freed.count b = if b ≤ s.allocated then 1 else 0 := by
  have ho : (buffers 3 fun _ => true).Along Buffers.Orderly (buffers 3 fun _ => true).init
      repeatedSecond := by decide +kernel
  obtain ⟨s, hrun, hfreed, hheld⟩ := Machine.exists_run_of_any (m := buffers 3 fun _ => true)
    (p := fun s => s.freed = [0] ∧ s.held = [1, 2]) repeatedSecond (by decide +kernel)
  exact ⟨ho, s, hrun, hfreed, hheld, reply_buffers_freed_once ho hrun⟩

end YFS.Rpc
