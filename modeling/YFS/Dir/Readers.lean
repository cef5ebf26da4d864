import YFS.Dir.Text

/-! # The two readers of a directory

`dir_find` and `readir` go through the lines of a text in loops of their own. Both pass over empty
lines and stop at the first line that is no entry, so that they see the same entries whatever the
text is. Where each line has its newline the offset that `dir_find` computes from the position of
the stream is that of the line; erasing the line leaves an empty one behind.
-/

namespace YFS.Dir
open YFS.Library

def named (name : Bytes) (ent : Bytes × ℕ) : Bool := decide (ent.1 = name)

def Closed (text : Bytes) : Prop := ∀ p ∈ lines text, p.2 = true

instance (text : Bytes) : Decidable (Closed text) := List.decidableBAll _ _

/-! ## The same entries -/

/-- Both loops look at the lines in the same way. -/
theorem findFrom_inum (name : Bytes) (pos : ℕ) (ls : List (Bytes × Bool)) :
    (findFrom name pos ls).map Found.inum = ((entriesOf ls).find? (named name)).map Prod.snd := by
  induction ls generalizing pos with
  | nil => rfl
  | cons p ls ih =>
    obtain ⟨line, t⟩ := p
    rw [findFrom, entriesOf]
    by_cases hl : line.length = 0
    · rw [if_pos hl, if_pos hl]
      exact ih _
    · rw [if_neg hl, if_neg hl]
      cases entRead line with
      | none => rfl
      | some ent =>
        obtain ⟨curname, inum⟩ := ent
        dsimp only
        by_cases hname : curname = name
        · have hnamed : named name (curname, inum) = true := decide_eq_true hname
          rw [if_pos hname, List.find?_cons_of_pos hnamed]
          rfl
        · have hnamed : ¬ named name (curname, inum) = true := by simpa [named] using hname
          rw [if_neg hname, List.find?_cons_of_neg hnamed]
          exact ih _

theorem dirFind_inum_iff (text name : Bytes) (i : ℕ) :
    (∃ f, dirFind text name = some f ∧ f.inum = i) ↔
      (entries text).find? (named name) = some (name, i) := by
  have hinum := findFrom_inum name 0 (lines text)
  constructor
  · rintro ⟨f, hf, rfl⟩
    rw [dirFind] at hf
    rw [hf, Option.map_some, eq_comm, Option.map_eq_some_iff] at hinum
    obtain ⟨⟨n, i⟩, hent, rfl⟩ := hinum
    have hnamed : named name (n, f.inum) = true := List.find?_some hent
    have hn : n = name := of_decide_eq_true hnamed
    rw [entries, hent, hn]
  · intro hent
    rw [entries] at hent
    rw [hent] at hinum
    exact Option.map_eq_some_iff.mp hinum

/-! ## Where the line is -/

/-- The loops get past this line. -/
def Passed (name : Bytes) (p : Bytes × Bool) : Prop :=
  p.1.length = 0 ∨ ∃ ent, entRead p.1 = some ent ∧ ent.1 ≠ name

theorem findFrom_split {name : Bytes} {pos : ℕ} {ls : List (Bytes × Bool)} {f : Found}
    (h : findFrom name pos ls = some f) :
    ∃ before line t after, ls = before ++ (line, t) :: after ∧ (∀ p ∈ before, Passed name p) ∧
      line.length ≠ 0 ∧ entRead line = some (name, f.inum) ∧ f.buflen = line.length ∧
      f.bufoff = if t then some (pos + extent before) else none := by
  induction ls generalizing pos with
  | nil => cases h
  | cons p ls ih =>
    obtain ⟨line, t⟩ := p
    rw [findFrom] at h
    have hlater (hp : Passed name (line, t))
        (h : findFrom name (pos + line.length + 1) ls = some f) :
        ∃ before l t' after, (line, t) :: ls = before ++ (l, t') :: after ∧
          (∀ p ∈ before, Passed name p) ∧ l.length ≠ 0 ∧ entRead l = some (name, f.inum) ∧
          f.buflen = l.length ∧ f.bufoff = if t' then some (pos + extent before) else none := by
      obtain ⟨before, l, t', after, rfl, hpassed, hl, hread, hlen, hoff⟩ := ih h
      refine ⟨(line, t) :: before, l, t', after, rfl, ?_, hl, hread, hlen, ?_⟩
      · rw [List.forall_mem_cons]
        exact ⟨hp, hpassed⟩
      · rw [hoff]
        simp only [extent, List.map_cons, List.sum_cons]
        congr 2
        omega
    by_cases hl : line.length = 0
    · rw [if_pos hl] at h
      exact hlater (Or.inl hl) h
    · rw [if_neg hl] at h
      cases hread : entRead line with
      | none =>
        rw [hread] at h
        cases h
      | some ent =>
        obtain ⟨curname, inum⟩ := ent
        rw [hread] at h
        dsimp only at h
        by_cases hname : curname = name
        · rw [if_pos hname] at h
          cases h
          refine ⟨[], line, t, ls, rfl, List.forall_mem_nil _, hl, ?_, rfl, rfl⟩
          rw [hread, hname]
        · rw [if_neg hname] at h
          exact hlater (Or.inr ⟨_, hread, hname⟩) h

/-- What is read of lines that are got past does not depend on what follows. -/
theorem entriesOf_append {name : Bytes} {before : List (Bytes × Bool)}
    (hpassed : ∀ p ∈ before, Passed name p) (ls : List (Bytes × Bool)) :
    entriesOf (before ++ ls) = entriesOf before ++ entriesOf ls ∧
      ∀ ent ∈ entriesOf before, ¬ named name ent = true := by
  induction before with
  | nil => exact ⟨rfl, List.forall_mem_nil _⟩
  | cons p before ih =>
    obtain ⟨hp, hbefore⟩ := List.forall_mem_cons.mp hpassed
    obtain ⟨happend, hnames⟩ := ih hbefore
    rw [List.cons_append, entriesOf, entriesOf]
    by_cases hl : p.1.length = 0
    · rw [if_pos hl, if_pos hl]
      exact ⟨happend, hnames⟩
    · obtain ⟨ent, hread, hne⟩ := hp.resolve_left hl
      rw [if_neg hl, if_neg hl, hread]
      dsimp only
      refine ⟨by rw [happend, List.cons_append], List.forall_mem_cons.mpr ⟨?_, hnames⟩⟩
      simpa [named] using hne

/-! ## Lines back to text -/

def unlines (ls : List (Bytes × Bool)) : Bytes := ls.flatMap fun p => p.1 ++ [newline]

theorem length_unlines (ls : List (Bytes × Bool)) : (unlines ls).length = extent ls := by
  simp [unlines, extent, List.length_flatMap]

theorem newline_notMem_lines {text : Bytes} {p : Bytes × Bool} (hp : p ∈ lines text) :
    newline ∉ p.1 := by
  induction text generalizing p with
  | nil => cases hp
  | cons b text ih =>
    rw [lines] at hp
    by_cases hb : b = newline
    · rw [if_pos hb] at hp
      rcases List.mem_cons.mp hp with rfl | hp
      · exact List.not_mem_nil
      · exact ih hp
    · rw [if_neg hb] at hp
      rcases hls : lines text with _ | ⟨⟨l, t⟩, ls⟩
      · rw [hls, List.mem_singleton] at hp
        subst hp
        simpa using Ne.symm hb
      · rw [hls] at hp ih
        rcases List.mem_cons.mp hp with rfl | hp
        · have hl := ih List.mem_cons_self
          simp only [List.mem_cons, not_or]
          exact ⟨Ne.symm hb, hl⟩
        · exact ih (List.mem_cons_of_mem _ hp)

theorem lines_unlines_append {ls : List (Bytes × Bool)}
    (hls : ∀ p ∈ ls, newline ∉ p.1 ∧ p.2 = true) (s : Bytes) :
    lines (unlines ls ++ s) = ls ++ lines s := by
  induction ls with
  | nil => rfl
  | cons p ls ih =>
    obtain ⟨⟨hnewline, hclosed⟩, hls⟩ := List.forall_mem_cons.mp hls
    have htext : unlines (p :: ls) ++ s = p.1 ++ newline :: (unlines ls ++ s) := by
      simp [unlines]
    rw [htext, lines_cons_line hnewline, ih hls, ← hclosed]
    rfl

theorem lines_unlines {ls : List (Bytes × Bool)} (hls : ∀ p ∈ ls, newline ∉ p.1 ∧ p.2 = true) :
    lines (unlines ls) = ls := by
  have h := lines_unlines_append hls []
  rwa [List.append_nil, lines_nil, List.append_nil] at h

/-- A text whose lines have their newlines is that of its lines. -/
theorem unlines_lines {text : Bytes} (h : Closed text) : unlines (lines text) = text := by
  induction text with
  | nil => rfl
  | cons b text ih =>
    rw [Closed, lines] at h
    rw [lines]
    by_cases hb : b = newline
    · rw [if_pos hb] at h ⊢
      have htext := ih (List.forall_mem_cons.mp h).2
      simp [unlines, hb] at htext ⊢
      exact htext
    · rw [if_neg hb] at h ⊢
      rcases hls : lines text with _ | ⟨⟨l, t⟩, ls⟩
      · rw [hls] at h
        cases h _ (List.mem_singleton_self _)
      · rw [hls] at h ih
        have hclosed : Closed text := by
          rw [Closed, hls]
          exact List.forall_mem_cons.mpr (List.forall_mem_cons.mp h)
        have htext := ih hclosed
        simp only [unlines, List.flatMap_cons, List.cons_append] at htext ⊢
        rw [htext]

/-! ## Erasing the line -/

/-- The line that `dir_find` finds in a text of whole lines, and what is around it. -/
theorem dirFind_split {text name : Bytes} {f : Found} (hclosed : Closed text)
    (h : dirFind text name = some f) :
    ∃ before line after, lines text = before ++ (line, true) :: after ∧
      text = unlines before ++ (line ++ newline :: unlines after) ∧
      (∀ p ∈ before, Passed name p) ∧ line.length ≠ 0 ∧ entRead line = some (name, f.inum) ∧
      f.bufoff = some (unlines before).length ∧ f.buflen = line.length := by
  obtain ⟨before, line, t, after, hlines, hpassed, hl, hread, hlen, hoff⟩ := findFrom_split h
  have ht : t = true := hclosed (line, t) (by simp [hlines])
  subst ht
  refine ⟨before, line, after, hlines, ?_, hpassed, hl, hread, ?_, hlen⟩
  · have htext := unlines_lines hclosed
    rw [hlines] at htext
    rw [← htext]
    simp [unlines]
  · rw [hoff, length_unlines, Nat.zero_add]
    rfl

theorem entries_erase {text name : Bytes} {f : Found} (hclosed : Closed text)
    (h : dirFind text name = some f) :
    ∃ buf, erase text f.bufoff f.buflen = some buf ∧
      entries buf = (entries text).eraseP (named name) := by
  obtain ⟨before, line, after, hlines, htext, hpassed, hl, hread, hoff, hlen⟩ :=
    dirFind_split hclosed h
  have hline : ∀ p ∈ before ++ (line, true) :: after, newline ∉ p.1 ∧ p.2 = true :=
    fun p hp => ⟨newline_notMem_lines (hlines ▸ hp), hclosed p (hlines ▸ hp)⟩
  obtain ⟨hbefore, hafter⟩ := List.forall_mem_append.mp hline
  have hafter := (List.forall_mem_cons.mp hafter).2
  refine ⟨unlines before ++ newline :: unlines after, ?_, ?_⟩
  · rw [hoff, hlen, erase, if_pos (by rw [htext]; simp)]
    rw [htext, List.take_left, ← List.drop_drop, List.drop_left, List.drop_left]
  · have hnew : lines (unlines before ++ newline :: unlines after) =
        before ++ ([], true) :: after := by
      rw [lines_unlines_append hbefore, lines_newline, lines_unlines hafter]
    obtain ⟨hsplit, hnames⟩ := entriesOf_append hpassed ((line, true) :: after)
    have hfirst : entriesOf ((line, true) :: after) = (name, f.inum) :: entriesOf after := by
      rw [entriesOf, if_neg hl, hread]
    have hempty : entriesOf (([], true) :: after) = entriesOf after := by
      rw [entriesOf, if_pos List.length_nil]
    have hnamed : named name (name, f.inum) = true := decide_eq_true rfl
    rw [entries, entries, hnew, hlines, hsplit, (entriesOf_append hpassed _).1, hfirst, hempty,
      List.eraseP_append_right _ hnames, List.eraseP_cons_of_pos hnamed]

/-- The two readers agree on every text: `dir_find` succeeds with the inum of the first entry of
that name in the list of `readir`, and with no other. If each line of the text has its newline,
the offset and the length it reports are those of the line of this entry, and erasing them takes
just this entry from the list. -/
theorem readers_agree (text name : Bytes) :
    (∀ i, (∃ f, dirFind text name = some f ∧ f.inum = i) ↔
      (entries text).find? (named name) = some (name, i)) ∧
    (Closed text → ∀ f, dirFind text name = some f →
      (∃ before line after, text = before ++ (line ++ newline :: after) ∧ Closed before ∧
        newline ∉ line ∧ entRead line = some (name, f.inum) ∧
        f.bufoff = some before.length ∧ f.buflen = line.length) ∧
      ∃ buf, erase text f.bufoff f.buflen = some buf ∧
        entries buf = (entries text).eraseP (named name)) := by
  refine ⟨dirFind_inum_iff text name, fun hclosed f hf => ⟨?_, entries_erase hclosed hf⟩⟩
  obtain ⟨before, line, after, hlines, htext, -, -, hread, hoff, hlen⟩ := dirFind_split hclosed hf
  have hmem : ∀ p ∈ before, p ∈ lines text := fun p hp => by simp [hlines, hp]
  have hbefore : Closed (unlines before) := by
    intro p hp
    rw [lines_unlines fun q hq => ⟨newline_notMem_lines (hmem q hq), hclosed q (hmem q hq)⟩] at hp
    exact hclosed p (hmem p hp)
  have hfound : (line, true) ∈ lines text := by simp [hlines]
  have hline : newline ∉ line := newline_notMem_lines hfound
  exact ⟨unlines before, line, unlines after, htext, hbefore, hline, hread, hoff, hlen⟩

end YFS.Dir
