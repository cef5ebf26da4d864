import YFS.Library.Machine

/-! # The reply window of `rpcs`

`checkduplicate_and_update` and `add_reply` over the `std::list<reply_t>` of one
client. The list is walked with two iterators; `none` as a result stands for a
dereference of the past-the-end iterator, which C++ leaves undefined.
-/

namespace YFS.Rpc

def succXid (x : ℕ) : ℕ := (x + 1) % 2 ^ 32

/-- `reply_t`; `buf` is the address of the reply buffer, zero for `NULL`. -/
structure Reply where
  xid : ℕ
  cbPresent : Bool
  buf : ℕ
  sz : ℤ
  deriving DecidableEq, Repr

def Reply.new (xid : ℕ) : Reply := ⟨xid, false, 0, 0⟩

inductive RpcState where
  | NEW
  | INPROGRESS
  | DONE
  | FORGOTTEN
  deriving DecidableEq, Repr

/-- The returned state and what was written through `b` and `sz`, if anything was. -/
structure Answer where
  stat : RpcState
  out : Option (ℕ × ℤ)
  deriving DecidableEq, Repr

/-- The `while (reply_iter == begin())` loop. `after` is where `reply_iter_after` was left
before the loop: it is not moved along when an entry is erased. -/
def moveWindow (after : Option Reply) : List Reply → Option (List Reply)
  | [] => none
  | cur :: rest =>
    if cur.cbPresent then
      match after with
      | none => none
      | some a => if a.xid = succXid cur.xid then moveWindow after rest else some (cur :: rest)
    else some (cur :: rest)

inductive Visit where
  | stop (a : Answer) (w : List Reply)
  | goOn
  | pastEnd

/-- The body of the scan loop behind the window move, with `pre` in front of `reply_iter`. -/
def visit (xid : ℕ) (pre : List Reply) (cur : Reply) (rest : List Reply)
    (after : Option Reply) : Visit :=
  if xid < (pre.headD cur).xid then .stop ⟨.FORGOTTEN, none⟩ (pre ++ cur :: rest)
  else if xid = cur.xid then
    if cur.cbPresent then .stop ⟨.DONE, some (cur.buf, cur.sz)⟩ (pre ++ cur :: rest)
    else .stop ⟨.INPROGRESS, none⟩ (pre ++ cur :: rest)
  else if cur.xid < xid then
    match after with
    | none => .pastEnd
    | some a =>
      if xid < a.xid then .stop ⟨.NEW, none⟩ (pre ++ Reply.new xid :: cur :: rest) else .goOn
  else .goOn

/-- The scan loop from a position behind the first, where the window is never moved. When it
falls through, the result is still the initial `DONE` and nothing was stored. -/
def scanFrom (xid : ℕ) (pre : List Reply) : List Reply → Option (Answer × List Reply)
  | [] => some (⟨.DONE, none⟩, pre)
  | cur :: rest =>
    match visit xid pre cur rest rest.head? with
    | .stop a w => some (a, w)
    | .pastEnd => none
    | .goOn => scanFrom xid (pre ++ [cur]) rest

def scan (xid : ℕ) : List Reply → Option (Answer × List Reply)
  | [] => some (⟨.DONE, none⟩, [])
  | cur :: rest =>
    match moveWindow rest.head? (cur :: rest) with
    | none => none
    | some [] => none
    | some (cur' :: rest') =>
      match visit xid [] cur' rest' rest.head? with
      | .stop a w => some (a, w)
      | .pastEnd => none
      | .goOn => scanFrom xid [cur'] rest'

def sentinel : Reply := { Reply.new 0 with cbPresent := true }

def opened (w : List Reply) : List Reply := if w.isEmpty then [sentinel] else w

/-- `rpcs::checkduplicate_and_update` on the list of one client. The acknowledgement
`xid_rep` is passed in and never looked at. -/
def checkduplicateAndUpdate (w : List Reply) (xid _xidRep : ℕ) :
    Option (Answer × List Reply) := do
  let w := opened w
  let back ← w.getLast?
  let (xidcheck, w) :=
    if back.xid < xid then (RpcState.NEW, w ++ [Reply.new xid]) else (RpcState.DONE, w)
  let front ← w.head?
  let xidcheck := if xid < front.xid then RpcState.FORGOTTEN else xidcheck
  if xidcheck ≠ .NEW ∧ xidcheck ≠ .FORGOTTEN then scan xid w else some (⟨xidcheck, none⟩, w)

def addReply (w : List Reply) (xid b : ℕ) (sz : ℤ) : List Reply :=
  w.map fun e => if xid = e.xid then { e with sz := sz, buf := b, cbPresent := true } else e

/-- What a scan that stops at the entry `e` answers. -/
def Reply.answer (e : Reply) : Answer :=
  if e.cbPresent then ⟨.DONE, some (e.buf, e.sz)⟩ else ⟨.INPROGRESS, none⟩

/-- The front entry has its reply and the next entry carries the next xid. -/
def trims : List Reply → Bool
  | e :: a :: _ => e.cbPresent && decide (a.xid = succXid e.xid)
  | _ => false

def moved (w : List Reply) : List Reply := if trims w then w.tail else w

def inGap (x : ℕ) : List Reply → Bool
  | a :: b :: w => (decide (a.xid < x) && decide (x < b.xid)) || inGap x (b :: w)
  | _ => false

def LastMax (w : List Reply) : Prop := ∀ b, w.getLast? = some b → ∀ e ∈ w, e.xid ≤ b.xid

theorem succXid_ne (x : ℕ) : succXid x ≠ x := by
  unfold succXid
  omega

@[simp] theorem Reply.new_xid (x : ℕ) : (Reply.new x).xid = x := rfl

@[simp] theorem opened_nil : opened [] = [sentinel] := rfl
@[simp] theorem opened_cons (e : Reply) (w : List Reply) : opened (e :: w) = e :: w := rfl

theorem opened_ne_nil (w : List Reply) : opened w ≠ [] := by
  cases w <;> simp

theorem inGap_append_pair {x : ℕ} (pre : List Reply) {a b : Reply} (post : List Reply)
    (ha : a.xid < x) (hb : x < b.xid) : inGap x (pre ++ a :: b :: post) = true := by
  induction pre with
  | nil => simp [inGap, ha, hb]
  | cons e pre ih =>
    cases pre with
    | nil => simp [inGap, ha, hb]
    | cons f pre =>
      simp only [List.cons_append, inGap, Bool.or_eq_true] at ih ⊢
      exact Or.inr ih

/-- Between an entry below the xid and a last entry not below it there is the xid or a gap. -/
theorem gap_of_below {x : ℕ} {a : Reply} {w : List Reply} (ha : a.xid ≤ x)
    (hne : ∀ e ∈ a :: w, e.xid ≠ x) (hb : ∀ b, (a :: w).getLast? = some b → x ≤ b.xid) :
    inGap x (a :: w) = true := by
  induction w generalizing a with
  | nil =>
    have hx := hb a rfl
    exact absurd (Nat.le_antisymm ha hx) (hne a (by simp))
  | cons b w ih =>
    have hlt : a.xid < x := lt_of_le_of_ne ha (hne a (by simp))
    by_cases hbx : x < b.xid
    · simp [inGap, hlt, hbx]
    · have h := ih (Nat.le_of_not_lt hbx) (fun e he => hne e (List.mem_cons_of_mem _ he))
        (fun c hc => hb c (by rw [List.getLast?_cons_cons, hc]))
      simp [inGap, h]

theorem visit_eq {x : ℕ} {pre : List Reply} {cur : Reply} {rest : List Reply}
    {after : Option Reply} (hf : (pre.headD cur).xid ≤ x) :
    visit x pre cur rest after =
      if x = cur.xid then .stop cur.answer (pre ++ cur :: rest)
      else if cur.xid < x then
        match after with
        | none => .pastEnd
        | some a =>
          if x < a.xid then .stop ⟨.NEW, none⟩ (pre ++ Reply.new x :: cur :: rest) else .goOn
      else .goOn := by
  unfold visit Reply.answer
  rw [if_neg (by omega)]
  split_ifs <;> rfl

theorem scanFrom_stop {x : ℕ} {pre : List Reply} {cur : Reply} {rest : List Reply} {a : Answer}
    {w : List Reply} (h : visit x pre cur rest rest.head? = .stop a w) :
    scanFrom x pre (cur :: rest) = some (a, w) := by
  rw [scanFrom, h]

theorem scanFrom_goOn {x : ℕ} {pre : List Reply} {cur : Reply} {rest : List Reply}
    (h : visit x pre cur rest rest.head? = .goOn) :
    scanFrom x pre (cur :: rest) = scanFrom x (pre ++ [cur]) rest := by
  rw [scanFrom, h]

/-- The scan behind the first entry stops at the entry it looks for, or at the first gap that
holds the xid, or falls through. -/
theorem scanFrom_cases {x : ℕ} {pre post : List Reply} (hp : pre ≠ [])
    (hf : (pre.headD sentinel).xid ≤ x) (hb : ∀ b, post.getLast? = some b → x ≤ b.xid) :
    (∃ e ∈ post, e.xid = x ∧ scanFrom x pre post = some (e.answer, pre ++ post)) ∨
    (∃ mid cur next rest, post = mid ++ cur :: next :: rest ∧ cur.xid < x ∧ x < next.xid ∧
      scanFrom x pre post =
        some (⟨.NEW, none⟩, pre ++ mid ++ Reply.new x :: cur :: next :: rest)) ∨
    ((∀ e ∈ post, e.xid ≠ x) ∧ inGap x post = false ∧
      scanFrom x pre post = some (⟨.DONE, none⟩, pre ++ post)) := by
  induction post generalizing pre with
  | nil => exact Or.inr (Or.inr ⟨by simp, rfl, by simp [scanFrom]⟩)
  | cons cur rest ih =>
    obtain ⟨f, fs, rfl⟩ := List.exists_cons_of_ne_nil hp
    have hfront : ((f :: fs).headD cur).xid ≤ x := by simpa using hf
    have hv : visit x (f :: fs) cur rest rest.head? = _ := visit_eq hfront
    by_cases he : x = cur.xid
    · rw [if_pos he] at hv
      exact Or.inl ⟨cur, by simp, he.symm, scanFrom_stop hv⟩
    have hrest : ∀ b, rest.getLast? = some b → x ≤ b.xid := by
      intro b h
      apply hb b
      cases rest with
      | nil => simp at h
      | cons a r => rw [List.getLast?_cons_cons, h]
    rw [if_neg he] at hv
    cases rest with
    | nil =>
      have hle : x ≤ cur.xid := hb cur rfl
      rw [if_neg (by omega)] at hv
      exact Or.inr (Or.inr ⟨by simpa using Ne.symm he, rfl, by rw [scanFrom_goOn hv]; rfl⟩)
    | cons a r =>
      by_cases hgap : cur.xid < x ∧ x < a.xid
      · refine Or.inr (Or.inl ⟨[], cur, a, r, rfl, hgap.1, hgap.2, ?_⟩)
        simp only [List.head?_cons, hgap.1, hgap.2, if_true] at hv
        rw [scanFrom_stop hv, List.append_nil]
      · have hvgo : visit x (f :: fs) cur (a :: r) (a :: r).head? = .goOn := by
          rw [hv]
          simp only [List.head?_cons]
          split_ifs <;> first | rfl | omega
        rw [scanFrom_goOn hvgo]
        have hne' : f :: fs ++ [cur] ≠ [] := by simp
        rcases ih hne' (by simpa using hf) hrest with
          ⟨e, hem, hex, h⟩ | ⟨mid, c, n, r', hr, hc, hn, h⟩ | ⟨hne, hg, h⟩
        · exact Or.inl ⟨e, List.mem_cons_of_mem _ hem, hex, by simpa using h⟩
        · refine Or.inr (Or.inl ⟨cur :: mid, c, n, r', by simp [hr], hc, hn, ?_⟩)
          simpa using h
        · refine Or.inr (Or.inr ⟨?_, ?_, by simpa using h⟩)
          · intro e hem
            rcases List.mem_cons.mp hem with rfl | hem
            · exact Ne.symm he
            · exact hne e hem
          · simp only [inGap, hg, Bool.or_false, Bool.and_eq_false_iff, decide_eq_false_iff_not]
            tauto

/-- The stale `reply_iter_after` stops the move after one entry. -/
theorem moveWindow_cons_cons (e a : Reply) (r : List Reply) :
    moveWindow (some a) (e :: a :: r) = some (moved (e :: a :: r)) := by
  have hstale : moveWindow (some a) (a :: r) = some (a :: r) := by
    simp [moveWindow, Ne.symm (succXid_ne a.xid)]
  unfold moved trims
  by_cases hc : e.cbPresent <;> by_cases hx : a.xid = succXid e.xid <;>
    simp [moveWindow, hc, hx]
  simpa [moveWindow, hx] using hstale

theorem scan_kept {x : ℕ} {e a : Reply} {r : List Reply} (ht : trims (e :: a :: r) = false)
    (hf : e.xid ≤ x) :
    scan x (e :: a :: r) =
      if x = e.xid then some (e.answer, e :: a :: r)
      else if x < a.xid then some (⟨.NEW, none⟩, Reply.new x :: e :: a :: r)
      else scanFrom x [e] (a :: r) := by
  have hm : moveWindow (some a) (e :: a :: r) = some (e :: a :: r) := by
    rw [moveWindow_cons_cons, moved, ht]
    rfl
  simp only [scan, List.head?_cons, hm]
  rw [visit_eq (by simpa using hf)]
  by_cases he : x = e.xid
  · simp [he]
  · have hlt : e.xid < x := by omega
    by_cases ha : x < a.xid <;> simp [he, hlt, ha]

theorem scan_trimmed {x : ℕ} {e a : Reply} {r : List Reply} (ht : trims (e :: a :: r) = true) :
    scan x (e :: a :: r) =
      if x < a.xid then some (⟨.FORGOTTEN, none⟩, a :: r)
      else if x = a.xid then some (a.answer, a :: r)
      else scanFrom x [a] r := by
  have hm : moveWindow (some a) (e :: a :: r) = some (a :: r) := by
    rw [moveWindow_cons_cons, moved, ht]
    rfl
  simp only [scan, List.head?_cons, hm]
  by_cases hlt : x < a.xid
  · simp [visit, hlt]
  · rw [visit_eq (by simpa using hlt)]
    by_cases he : x = a.xid
    · simp [he]
    · have hgt : a.xid < x := by omega
      simp [he, hgt, hlt]

/-- The entry right behind a trimmed front is below the xid, and no entry and no gap further
back holds it: the loop runs off the end of the list without having matched anything. -/
def fallsThrough (x : ℕ) : List Reply → Bool
  | e :: a :: r => trims (e :: a :: r) && decide (e.xid ≤ x) && decide (a.xid < x) &&
      r.any (fun f => decide (x ≤ f.xid)) && r.all (fun f => decide (f.xid ≠ x)) && !inGap x r
  | _ => false

/-- The xid repeats the only entry of the window, which has its reply. -/
def repeatsOnly (x : ℕ) : List Reply → Bool
  | [e] => e.cbPresent && decide (x = e.xid)
  | _ => false

/-- Everything a call on the opened window `w` can answer, with the window it leaves. -/
inductive Outcome (w : List Reply) (x : ℕ) : Answer → List Reply → Prop where
  | fresh (h : ∀ e ∈ w, e.xid < x) : Outcome w x ⟨.NEW, none⟩ (w ++ [Reply.new x])
  | below (e : Reply) (r : List Reply) (hw : w = e :: r) (h : x < e.xid) :
      Outcome w x ⟨.FORGOTTEN, none⟩ w
  | dropped (e a : Reply) (r : List Reply) (hw : w = e :: a :: r) (ht : trims w = true)
      (he : e.xid ≤ x) (h : x < a.xid) : Outcome w x ⟨.FORGOTTEN, none⟩ (a :: r)
  | held (e : Reply) (hf : (w.headD sentinel).xid ≤ x) (h : e ∈ moved w) (hx : e.xid = x) :
      Outcome w x e.answer (moved w)
  | filled (pre post : List Reply) (cur next : Reply) (hf : (w.headD sentinel).xid ≤ x)
      (hw : moved w = pre ++ cur :: next :: post) (hp : trims w = true → pre ≠ [])
      (hl : cur.xid < x) (hr : x < next.xid) :
      Outcome w x ⟨.NEW, none⟩ (pre ++ Reply.new x :: cur :: next :: post)
  | missed (h : fallsThrough x w = true) : Outcome w x ⟨.DONE, none⟩ (moved w)

theorem getLast?_of_tail {e : Reply} {w : List Reply} {b : Reply} (h : w.getLast? = some b) :
    (e :: w).getLast? = some b := by
  cases w with
  | nil => simp at h
  | cons a r => rw [List.getLast?_cons_cons, h]

/-- A scan that is not at an only entry with its reply always comes back. -/
theorem scan_outcome {x : ℕ} {e : Reply} {r : List Reply} (hf : e.xid ≤ x)
    (hb : ∀ b, (e :: r).getLast? = some b → x ≤ b.xid) (hr : repeatsOnly x (e :: r) = false) :
    ∃ ans w, scan x (e :: r) = some (ans, w) ∧ Outcome (e :: r) x ans w := by
  cases r with
  | nil =>
    have hx : x = e.xid := Nat.le_antisymm (hb e rfl) hf
    have hc : e.cbPresent = false := by simpa [repeatsOnly, hx] using hr
    refine ⟨e.answer, [e], ?_, .held e hf (by simp [moved, trims]) hx.symm⟩
    simp [scan, moveWindow, hc, visit, hx, Reply.answer]
  | cons a r =>
    have hb' : ∀ b, (a :: r).getLast? = some b → x ≤ b.xid :=
      fun b h => hb b (getLast?_of_tail h)
    cases ht : trims (e :: a :: r) with
    | false =>
      have hm : moved (e :: a :: r) = e :: a :: r := by simp [moved, ht]
      rw [scan_kept ht hf]
      by_cases he : x = e.xid
      · refine ⟨_, _, if_pos he, ?_⟩
        have h := Outcome.held (w := e :: a :: r) e hf (by simp [hm]) he.symm
        rwa [hm] at h
      · by_cases ha : x < a.xid
        · refine ⟨_, _, by rw [if_neg he, if_pos ha], ?_⟩
          exact .filled [] r e a hf hm (by simp [ht]) (by omega) ha
        · rw [if_neg he, if_neg ha]
          rcases scanFrom_cases (List.cons_ne_nil e []) (by simpa using hf) hb' with
            ⟨f, hfm, hfx, h⟩ | ⟨mid, c, n, rest, hp, hc, hn, h⟩ | ⟨hne, hg, h⟩
          · refine ⟨_, _, h, ?_⟩
            have ho := Outcome.held (w := e :: a :: r) f hf (by simp [hm, hfm]) hfx
            rwa [hm] at ho
          · exact ⟨_, _, h, .filled (e :: mid) rest c n hf (by rw [hm, hp]; rfl) (by simp) hc hn⟩
          · exact absurd (gap_of_below (by omega) hne hb') (by simp [hg])
    | true =>
      have hm : moved (e :: a :: r) = a :: r := by simp [moved, ht]
      rw [scan_trimmed ht]
      by_cases ha : x < a.xid
      · exact ⟨_, _, if_pos ha, .dropped e a r rfl ht hf ha⟩
      · by_cases he : x = a.xid
        · refine ⟨_, _, by rw [if_neg ha, if_pos he], ?_⟩
          have ho := Outcome.held (w := e :: a :: r) a hf (by simp [hm]) he.symm
          rwa [hm] at ho
        · rw [if_neg ha, if_neg he]
          have hr' : ∀ b, r.getLast? = some b → x ≤ b.xid :=
            fun b h => hb' b (getLast?_of_tail h)
          rcases scanFrom_cases (List.cons_ne_nil a []) (by simpa using Nat.le_of_not_lt ha) hr' with
            ⟨f, hfm, hfx, h⟩ | ⟨mid, c, n, rest, hp, hc, hn, h⟩ | ⟨hne, hg, h⟩
          · refine ⟨_, _, h, ?_⟩
            have ho := Outcome.held (w := e :: a :: r) f hf (by simp [hm, hfm]) hfx
            rwa [hm] at ho
          · exact ⟨_, _, h, .filled (a :: mid) rest c n hf (by rw [hm, hp]; rfl) (by simp) hc hn⟩
          · refine ⟨_, _, h, ?_⟩
            have hlast : ∃ f ∈ r, x ≤ f.xid := by
              cases hl : r.getLast? with
              | none =>
                rw [List.getLast?_eq_none_iff.mp hl] at hb'
                exact absurd (hb' a rfl) (by omega)
              | some b => exact ⟨b, List.mem_of_getLast? hl, hr' b hl⟩
            have ho := Outcome.missed (w := e :: a :: r) (x := x) (by
              simp only [fallsThrough, ht, hf, hg, decide_true, Bool.true_and, Bool.not_false,
                Bool.and_true, Bool.and_eq_true, decide_eq_true_eq, List.any_eq_true,
                List.all_eq_true]
              exact ⟨⟨by omega, hlast⟩, hne⟩)
            rwa [hm] at ho

theorem exists_getLast? {w : List Reply} (h : w ≠ []) : ∃ b, w.getLast? = some b :=
  ⟨w.getLast h, List.getLast?_eq_some_getLast h⟩

theorem check_fresh {w : List Reply} {x rep : ℕ} (h : ∀ e ∈ opened w, e.xid < x) :
    checkduplicateAndUpdate w x rep = some (⟨.NEW, none⟩, opened w ++ [Reply.new x]) := by
  obtain ⟨b, hb⟩ := exists_getLast? (opened_ne_nil w)
  obtain ⟨e, r, hw⟩ := List.exists_cons_of_ne_nil (opened_ne_nil w)
  have hbx : b.xid < x := h b (List.mem_of_getLast? hb)
  have hex : ¬ x < e.xid := Nat.lt_asymm (h e (by simp [hw]))
  simp only [checkduplicateAndUpdate, hb, Option.bind_eq_bind, Option.bind_some, hbx, if_true]
  simp [hw, hex]

theorem check_old {w : List Reply} {x rep : ℕ} {b e : Reply} {r : List Reply}
    (hb : (opened w).getLast? = some b) (hx : x ≤ b.xid) (hw : opened w = e :: r) :
    checkduplicateAndUpdate w x rep =
      if x < e.xid then some (⟨.FORGOTTEN, none⟩, opened w) else scan x (opened w) := by
  have hbx : ¬ b.xid < x := Nat.not_lt.mpr hx
  simp only [checkduplicateAndUpdate, hb, Option.bind_eq_bind, Option.bind_some, hbx, if_false]
  simp only [hw, List.head?_cons, Option.bind_some]
  by_cases he : x < e.xid <;> simp [he]

/-- A call is undefined exactly when it repeats the only entry of the window and that entry has
its reply; every other call has one of the listed outcomes. -/
theorem check_cases {w : List Reply} (x rep : ℕ) (hm : LastMax (opened w)) :
    (repeatsOnly x (opened w) = true ∧ checkduplicateAndUpdate w x rep = none) ∨
    (repeatsOnly x (opened w) = false ∧ ∃ a w', checkduplicateAndUpdate w x rep = some (a, w') ∧
      Outcome (opened w) x a w') := by
  obtain ⟨b, hb⟩ := exists_getLast? (opened_ne_nil w)
  obtain ⟨e, r, hw⟩ := List.exists_cons_of_ne_nil (opened_ne_nil w)
  by_cases hbx : b.xid < x
  · have hall : ∀ f ∈ opened w, f.xid < x := fun f hf => (hm b hb f hf).trans_lt hbx
    refine Or.inr ⟨?_, _, _, check_fresh hall, .fresh hall⟩
    cases r with
    | nil =>
      have hex := hall e (by simp [hw])
      simp [hw, repeatsOnly, Nat.ne_of_gt hex]
    | cons a r => simp [hw, repeatsOnly]
  · rw [check_old hb (Nat.le_of_not_lt hbx) hw]
    have hlast : ∀ c, (e :: r).getLast? = some c → x ≤ c.xid := by
      intro c hc
      rw [← hw, hb] at hc
      cases hc
      exact Nat.le_of_not_lt hbx
    by_cases hex : x < e.xid
    · rw [if_pos hex]
      refine Or.inr ⟨?_, _, _, rfl, .below e r hw hex⟩
      cases r with
      | nil => simp [hw, repeatsOnly, Nat.ne_of_lt hex]
      | cons a r => simp [hw, repeatsOnly]
    · rw [if_neg hex, hw]
      cases hr : repeatsOnly x (e :: r) with
      | false =>
        obtain ⟨ans, w', hs, ho⟩ := scan_outcome (Nat.le_of_not_lt hex) hlast hr
        exact Or.inr ⟨rfl, ans, w', hs, ho⟩
      | true =>
        refine Or.inl ⟨rfl, ?_⟩
        cases r with
        | nil =>
          have hc : e.cbPresent = true ∧ x = e.xid := by simpa [repeatsOnly] using hr
          simp [scan, moveWindow, hc.1]
        | cons a r => simp [repeatsOnly] at hr

end YFS.Rpc
