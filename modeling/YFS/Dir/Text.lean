import YFS.Library.Decimal

/-! # Directories as text

A directory is a byte string of lines `name:inum`. The readers go through the lines of a
stream with `getline`; an empty line is skipped, and a line that is not an entry ends the
reading. Names are compared with what stands before the first colon of a line.
-/

namespace YFS.Dir
open YFS.Library

def newline : UInt8 := 10
def colon : UInt8 := 58

/-- The lines that `while(getline(istr, line))` yields, each with whether a newline ended it. -/
def lines : Bytes → List (Bytes × Bool)
  | [] => []
  | b :: s =>
    if b = newline then ([], true) :: lines s
    else
      match lines s with
      | [] => [([b], false)]
      | (l, t) :: ls => (b :: l, t) :: ls

/-- `yfs_client::ent_read`: the name and the inum of a line, `none` where it returns false. -/
def entRead (dirline : Bytes) : Option (Bytes × ℕ) :=
  if colon ∈ dirline then
    (Decimal.extract ((dirline.dropWhile (· ≠ colon)).tail)).map fun i =>
      (dirline.takeWhile (· ≠ colon), i)
  else none

/-- What `dir_find` hands back: the inum, the offset of the line and its length. Behind a line
without newline `tellg` fails and the offset computed from its result lies past every string;
that is `none`. -/
structure Found where
  inum : ℕ
  bufoff : Option ℕ
  buflen : ℕ
  deriving DecidableEq, Repr

def findFrom (name : Bytes) (pos : ℕ) : List (Bytes × Bool) → Option Found
  | [] => none
  | (line, t) :: ls =>
    let next := pos + line.length + 1
    if line.length = 0 then findFrom name next ls
    else
      match entRead line with
      | none => none
      | some (curname, inum) =>
        if curname = name then some ⟨inum, if t then some pos else none, line.length⟩
        else findFrom name next ls

def dirFind (dirbuf name : Bytes) : Option Found := findFrom name 0 (lines dirbuf)

def entriesOf : List (Bytes × Bool) → List (Bytes × ℕ)
  | [] => []
  | (line, _) :: ls =>
    if line.length = 0 then entriesOf ls
    else
      match entRead line with
      | none => []
      | some ent => ent :: entriesOf ls

def entries (text : Bytes) : List (Bytes × ℕ) := entriesOf (lines text)

def entLine (name : Bytes) (inum : ℕ) : Bytes := name ++ colon :: Decimal.print inum ++ [newline]

/-- `buf.erase(off, len)`; `none` where it throws. -/
def erase (buf : Bytes) (off : Option ℕ) (len : ℕ) : Option Bytes :=
  match off with
  | none => none
  | some off => if off ≤ buf.length then some (buf.take off ++ buf.drop (off + len)) else none

section Lines

@[simp] theorem lines_nil : lines [] = [] := rfl

theorem lines_newline (s : Bytes) : lines (newline :: s) = ([], true) :: lines s := by
  simp [lines]

theorem lines_cons_line {l : Bytes} (hl : newline ∉ l) (s : Bytes) :
    lines (l ++ newline :: s) = (l, true) :: lines s := by
  induction l with
  | nil => exact lines_newline s
  | cons b l ih =>
    have hb : b ≠ newline := fun h => hl (by simp [h])
    have ih := ih fun h => hl (by simp [h])
    rw [List.cons_append, lines, if_neg hb, ih]

def firstLine (s : Bytes) : Bytes := s.takeWhile (· ≠ newline)

theorem lines_eq_firstLine_cons {s : Bytes} (hs : s ≠ []) :
    ∃ t ls, lines s = (firstLine s, t) :: ls := by
  induction s with
  | nil => exact absurd rfl hs
  | cons b s ih =>
    by_cases hb : b = newline
    · exact ⟨true, lines s, by simp [lines, firstLine, hb]⟩
    · cases s with
      | nil => exact ⟨false, [], by simp [lines, firstLine, hb]⟩
      | cons a s =>
        obtain ⟨t, ls, h⟩ := ih (List.cons_ne_nil a s)
        refine ⟨t, ls, ?_⟩
        rw [lines, if_neg hb, h]
        simp [firstLine, hb]

/-- Lines followed by the lines of a text appended to theirs: a last line without newline goes on
with the first line of the appended text. -/
def joinLines : List (Bytes × Bool) → List (Bytes × Bool) → List (Bytes × Bool)
  | [], ms => ms
  | [(l, false)], (x, t) :: ms => (l ++ x, t) :: ms
  | p :: ls, ms => p :: joinLines ls ms

theorem joinLines_cons_cons (p q : Bytes × Bool) (ls ms : List (Bytes × Bool)) :
    joinLines (p :: q :: ls) ms = p :: joinLines (q :: ls) ms := by
  rw [joinLines]
  simp

theorem joinLines_closed (l : Bytes) (ls ms : List (Bytes × Bool)) :
    joinLines ((l, true) :: ls) ms = (l, true) :: joinLines ls ms := by
  rw [joinLines]
  simp

theorem lines_append (text s : Bytes) : lines (text ++ s) = joinLines (lines text) (lines s) := by
  induction text with
  | nil => rfl
  | cons b text ih =>
    rw [List.cons_append, lines, lines, ih]
    by_cases hb : b = newline
    · rw [if_pos hb, if_pos hb, joinLines_closed]
    · rw [if_neg hb, if_neg hb]
      rcases lines text with _ | ⟨⟨l, t⟩, ls⟩
      · rcases lines s with _ | ⟨⟨x, t⟩, ms⟩ <;> rfl
      · rcases ls with _ | ⟨q, ls⟩
        · cases t
          · rcases lines s with _ | ⟨⟨x, t⟩, ms⟩ <;> rfl
          · rfl
        · simp only [joinLines_cons_cons]

/-- Whether what is read of these lines stays the same when `x` is appended to the last one, if it
has no newline: reading does not get there, or that line is no entry, or it is the same entry
with `x` behind it. -/
def KeepsOpen (x : Bytes) : List (Bytes × Bool) → Prop
  | [] => True
  | [(l, false)] => entRead l = none ∨ entRead (l ++ x) = entRead l
  | (l, _) :: ls => (entRead l = none → l.length = 0) → KeepsOpen x ls

theorem entRead_nil : entRead [] = none := rfl

/-- The entries before an appended text are still read before it exactly if it does not change
the entry of an open last line. -/
theorem entriesOf_prefix_iff (ls : List (Bytes × Bool)) (x : Bytes) (t : Bool)
    (ms : List (Bytes × Bool)) :
    entriesOf ls <+: entriesOf (joinLines ls ((x, t) :: ms)) ↔ KeepsOpen x ls := by
  induction ls with
  | nil => simp [entriesOf, KeepsOpen]
  | cons p ls ih =>
    obtain ⟨l, closed⟩ := p
    by_cases hopen : closed = false ∧ ls = []
    · obtain ⟨rfl, rfl⟩ := hopen
      simp only [joinLines, KeepsOpen, entriesOf]
      cases hr : entRead l with
      | none => simp
      | some ent =>
        have hl : l.length ≠ 0 := by
          intro h
          rw [List.length_eq_zero_iff.mp h, entRead_nil] at hr
          cases hr
        have hlx : (l ++ x).length ≠ 0 := by
          rw [List.length_append]
          omega
        rw [if_neg hl, if_neg hlx]
        cases entRead (l ++ x) with
        | none => simp
        | some ent' => simp [List.cons_prefix_cons, eq_comm]
    · have hj : joinLines ((l, closed) :: ls) ((x, t) :: ms) =
          (l, closed) :: joinLines ls ((x, t) :: ms) := by
        cases closed
        · obtain ⟨q, ls, rfl⟩ := List.exists_cons_of_ne_nil fun h => hopen ⟨rfl, h⟩
          exact joinLines_cons_cons ..
        · exact joinLines_closed ..
      have hk : KeepsOpen x ((l, closed) :: ls) ↔
          ((entRead l = none → l.length = 0) → KeepsOpen x ls) := by
        cases closed
        · obtain ⟨q, ls, rfl⟩ := List.exists_cons_of_ne_nil fun h => hopen ⟨rfl, h⟩
          rw [KeepsOpen]
          simp
        · rw [KeepsOpen]
          simp
      rw [hj, hk, ← ih, entriesOf, entriesOf]
      by_cases hl : l.length = 0
      · simp [hl]
      · rw [if_neg hl, if_neg hl]
        cases hr : entRead l with
        | none => simp [hl]
        | some ent => simp [List.cons_prefix_cons]

end Lines

section Erase

/-- The bytes of these lines if each ended in a newline. -/
def extent (ls : List (Bytes × Bool)) : ℕ := (ls.map fun l => l.1.length + 1).sum

theorem extent_lines (text : Bytes) : extent (lines text) ≤ text.length + 1 := by
  induction text with
  | nil => simp [extent]
  | cons b text ih =>
    rw [lines]
    by_cases hb : b = newline
    · simp only [if_pos hb, extent, List.map_cons, List.sum_cons, List.length_nil,
        List.length_cons] at ih ⊢
      omega
    · rw [if_neg hb]
      generalize lines text = ls at ih ⊢
      rcases ls with _ | ⟨⟨l, t⟩, ls⟩
      · simp [extent]
      · simp only [extent, List.map_cons, List.sum_cons, List.length_cons] at ih ⊢
        omega

theorem findFrom_bounds {name : Bytes} {pos : ℕ} {ls : List (Bytes × Bool)} {f : Found}
    (h : findFrom name pos ls = some f) :
    0 < f.buflen ∧ ∀ off, f.bufoff = some off → off + f.buflen + 1 ≤ pos + extent ls := by
  induction ls generalizing pos with
  | nil => cases h
  | cons p ls ih =>
    obtain ⟨l, t⟩ := p
    have hext : extent ((l, t) :: ls) = l.length + 1 + extent ls := by simp [extent]
    rw [hext]
    rw [findFrom] at h
    by_cases hl : l.length = 0
    · rw [if_pos hl] at h
      refine ⟨(ih h).1, fun off hoff => ?_⟩
      have := (ih h).2 off hoff
      omega
    · rw [if_neg hl] at h
      cases hr : entRead l with
      | none =>
        rw [hr] at h
        cases h
      | some ent =>
        rw [hr] at h
        dsimp only at h
        split at h
        · cases h
          refine ⟨Nat.pos_of_ne_zero hl, fun off hoff => ?_⟩
          dsimp only at hoff
          split at hoff
          · cases hoff
            dsimp only
            omega
          · cases hoff
        · refine ⟨(ih h).1, fun off hoff => ?_⟩
          have := (ih h).2 off hoff
          omega

/-- Erasing a line that was found: it fails behind a line without newline, and shortens the text
otherwise. -/
theorem erase_dirFind {text name : Bytes} {f : Found} (h : dirFind text name = some f)
    (hoff : f.bufoff ≠ none) : ∃ buf, erase text f.bufoff f.buflen = some buf ∧ buf ≠ text := by
  obtain ⟨off, ho⟩ := Option.ne_none_iff_exists'.mp hoff
  obtain ⟨hpos, hle⟩ := findFrom_bounds h
  have hb := hle off ho
  have hext := extent_lines text
  have hlen : off + f.buflen ≤ text.length := by omega
  refine ⟨text.take off ++ text.drop (off + f.buflen), ?_, ?_⟩
  · rw [ho, erase, if_pos (by omega)]
  · intro heq
    have := congrArg List.length heq
    rw [List.length_append, List.length_take, List.length_drop] at this
    omega

end Erase

theorem entRead_entry {name : Bytes} (hn : colon ∉ name) {inum : ℕ} (hi : inum < 2 ^ 64) :
    entRead (name ++ colon :: Decimal.print inum) = some (name, inum) := by
  have hpos (a : UInt8) (ha : a ∈ name) : decide (a ≠ colon) = true := by
    rw [decide_eq_true_eq]
    rintro rfl
    exact hn ha
  have htake : (name ++ colon :: Decimal.print inum).takeWhile (· ≠ colon) = name := by
    rw [List.takeWhile_append_of_pos hpos]
    simp
  have hdrop : (name ++ colon :: Decimal.print inum).dropWhile (· ≠ colon) =
      colon :: Decimal.print inum := by
    rw [List.dropWhile_append_of_pos hpos]
    simp
  have hread := Decimal.extract_print hi (s := []) (by simp)
  rw [List.append_nil] at hread
  rw [entRead, if_pos (by simp), htake, hdrop, List.tail_cons, hread]
  rfl

end YFS.Dir
