import Mathlib.Tactic

/-! # Records that delimit themselves

A stream is cut wherever it is cut; a reader takes the whole records at the front of what it
gets and ignores the beginning of one more. Where every record stores the position behind
itself, a reader can go on from there, page by page.
-/

namespace YFS.Library

/-- A format of records: what it can hold, how a record is written, and how the next one is read. -/
structure Records (α β : Type*) where
  Fits : α → Prop
  encode : α → List β
  next : List β → Option (α × List β)
  encode_ne : ∀ a, encode a ≠ []
  next_nil : next [] = none
  next_encode : ∀ a rest, Fits a → next (encode a ++ rest) = some (a, rest)
  next_cut : ∀ a part, Fits a → part <+: encode a → part ≠ encode a → next part = none

namespace Records

variable {α β : Type*} (f : Records α β)

def size (a : α) : ℕ := (f.encode a).length

def concat (as : List α) : List β := as.flatMap f.encode

/-- The whole records at the front, at most so many. -/
def readAtMost : ℕ → List β → List α
  | 0, _ => []
  | n + 1, bs => match f.next bs with
    | none => []
    | some (a, rest) => a :: readAtMost n rest

/-- The whole records at the front; every record takes some room. -/
def read (bs : List β) : List α := f.readAtMost bs.length bs

def fitting : ℕ → List α → List α
  | _, [] => []
  | room, a :: as => if f.size a ≤ room then a :: fitting (room - f.size a) as else []

variable {f}

theorem size_pos (a : α) : 0 < f.size a := List.length_pos_of_ne_nil (f.encode_ne a)

@[simp] theorem concat_nil : f.concat [] = [] := rfl

@[simp] theorem concat_cons (a : α) (as : List α) :
    f.concat (a :: as) = f.encode a ++ f.concat as := rfl

theorem concat_append (as bs : List α) : f.concat (as ++ bs) = f.concat as ++ f.concat bs :=
  List.flatMap_append

theorem readAtMost_take {as : List α} (hfits : ∀ a ∈ as, f.Fits a) {room n : ℕ}
    (hn : ((f.concat as).take room).length ≤ n) :
    f.readAtMost n ((f.concat as).take room) = f.fitting room as := by
  induction as generalizing room n with
  | nil =>
    cases n with
    | zero => rfl
    | succ n => simp [readAtMost, fitting, f.next_nil]
  | cons a as ih =>
    have hfit : f.Fits a := hfits a List.mem_cons_self
    by_cases hroom : f.size a ≤ room
    · have htake : (f.concat (a :: as)).take room =
          f.encode a ++ (f.concat as).take (room - f.size a) := by
        rw [concat_cons, List.take_append, List.take_of_length_le hroom]
        rfl
      rw [htake, List.length_append] at hn
      have hpos : 0 < (f.encode a).length := size_pos a
      obtain ⟨m, rfl⟩ := Nat.exists_eq_add_of_lt (Nat.lt_of_lt_of_le hpos (by omega : _ ≤ n))
      rw [htake, Nat.zero_add, readAtMost, f.next_encode a _ hfit, fitting, if_pos hroom]
      simp only
      rw [ih (fun x hx => hfits x (List.mem_cons_of_mem _ hx)) (by omega)]
    · have htake : (f.concat (a :: as)).take room = (f.encode a).take room := by
        rw [concat_cons, List.take_append_of_le_length (by unfold size at hroom; omega)]
      have hcut : f.next ((f.encode a).take room) = none := by
        refine f.next_cut a _ hfit (List.take_prefix _ _) fun heq => hroom ?_
        have hlength := congrArg List.length heq
        rw [List.length_take] at hlength
        unfold size
        omega
      rw [htake, fitting, if_neg hroom]
      cases n with
      | zero => rfl
      | succ n => rw [readAtMost, hcut]

/-- A reader gets the records that fit. -/
theorem read_take {as : List α} (hfits : ∀ a ∈ as, f.Fits a) (room : ℕ) :
    f.read ((f.concat as).take room) = f.fitting room as :=
  readAtMost_take hfits le_rfl

theorem fitting_prefix (room : ℕ) (as : List α) : f.fitting room as <+: as := by
  induction as generalizing room with
  | nil => exact List.prefix_rfl
  | cons a as ih =>
    rw [fitting]
    split
    · exact (List.prefix_cons_inj a).mpr (ih _)
    · exact List.nil_prefix

theorem fitting_ne_nil {room : ℕ} {a : α} {as : List α} (h : f.size a ≤ room) :
    f.fitting room (a :: as) ≠ [] := by
  rw [fitting, if_pos h]
  exact List.cons_ne_nil _ _

/-! ## Reading page by page -/

section Paging
variable (f) (stored : α → ℕ)

/-- Every record stores the position behind it, where the first one begins at `pos`. -/
def Placed : ℕ → List α → Prop
  | _, [] => True
  | pos, a :: as => stored a = pos + f.size a ∧ Placed (pos + f.size a) as

/-- The part of a stream from a position on, as far as there is room. -/
def page (stream : List β) (pos room : ℕ) : List β := (stream.drop pos).take room

/-- The position a reader has come to and the records it has got, after a number of pages with the
rooms `room 0`, `room 1` and so on. The next position is the one stored in the last record. -/
def reader (reply : ℕ → ℕ → List β) (room : ℕ → ℕ) : ℕ → ℕ × List α
  | 0 => (0, [])
  | n + 1 =>
    let (pos, got) := reader reply room n
    let as := f.read (reply pos (room n))
    ((as.getLast?.map stored).getD pos, got ++ as)

variable {f stored}

/-- The last record that has been read stores where the rest begins. -/
theorem Placed.getLast {pos : ℕ} {as bs : List α} {a : α} (h : f.Placed stored pos (as ++ bs))
    (ha : as.getLast? = some a) : stored a = pos + (f.concat as).length := by
  induction as generalizing pos with
  | nil => cases ha
  | cons x xs ih =>
    obtain ⟨hx, hplaced⟩ := h
    rw [concat_cons, List.length_append]
    cases xs with
    | nil =>
      cases ha
      rw [concat_nil, List.length_nil, Nat.add_zero]
      exact hx
    | cons y ys =>
      rw [ih hplaced ha, Nat.add_assoc]
      rfl

theorem drop_concat (as bs : List α) :
    (f.concat (as ++ bs)).drop (f.concat as).length = f.concat bs := by
  rw [concat_append, List.drop_left]

theorem page_concat (as bs : List α) (room : ℕ) :
    page (f.concat (as ++ bs)) (f.concat as).length room = (f.concat bs).take room := by
  rw [page, drop_concat]

variable {as : List α} {room : ℕ → ℕ}

/-- One page: the reader goes on by the records that fit. -/
theorem reader_succ (hfits : ∀ a ∈ as, f.Fits a) (hplaced : f.Placed stored 0 as) {n : ℕ}
    {got rest : List α} (has : as = got ++ rest)
    (hgot : f.reader stored (page (f.concat as)) room n = ((f.concat got).length, got)) :
    f.reader stored (page (f.concat as)) room (n + 1) =
      ((f.concat (got ++ f.fitting (room n) rest)).length, got ++ f.fitting (room n) rest) := by
  have hread : f.read (page (f.concat as) (f.concat got).length (room n)) =
      f.fitting (room n) rest := by
    rw [has, page_concat]
    refine read_take (fun a ha => hfits a ?_) _
    rw [has]
    exact List.mem_append_right _ ha
  obtain ⟨rest', hrest⟩ := f.fitting_prefix (room n) rest
  rw [reader, hgot]
  simp only [hread]
  congr 1
  cases hlast : (f.fitting (room n) rest).getLast? with
  | none =>
    rw [List.getLast?_eq_none_iff.mp hlast, List.append_nil]
    rfl
  | some a =>
    have hplaced' : f.Placed stored 0 ((got ++ f.fitting (room n) rest) ++ rest') := by
      rw [List.append_assoc, hrest, ← has]
      exact hplaced
    have hlast' : (got ++ f.fitting (room n) rest).getLast? = some a := by
      rw [List.getLast?_append, hlast]
      rfl
    have hstored := hplaced'.getLast hlast'
    rw [Nat.zero_add] at hstored
    exact hstored

/-- After each page the reader stands behind the first records, and it has got one more of them
with every page until there is none left. -/
theorem reader_spec (hfits : ∀ a ∈ as, f.Fits a) (hplaced : f.Placed stored 0 as)
    (hroom : ∀ n, ∀ a ∈ as, f.size a ≤ room n) (n : ℕ) :
    ∃ got rest, as = got ++ rest ∧
      f.reader stored (page (f.concat as)) room n = ((f.concat got).length, got) ∧
      (n ≤ got.length ∨ rest = []) := by
  induction n with
  | zero => exact ⟨[], as, rfl, rfl, .inl le_rfl⟩
  | succ n ih =>
    obtain ⟨got, rest, has, hgot, hmany⟩ := ih
    obtain ⟨rest', hrest⟩ := f.fitting_prefix (room n) rest
    refine ⟨got ++ f.fitting (room n) rest, rest', ?_, reader_succ hfits hplaced has hgot, ?_⟩
    · rw [List.append_assoc, hrest, has]
    · cases rest with
      | nil =>
        have hnil : f.fitting (room n) [] ++ rest' = [] := hrest
        exact .inr (List.append_eq_nil_iff.mp hnil).2
      | cons a rest =>
        have ha : f.size a ≤ room n := hroom n a (by rw [has]; simp)
        have hne : f.fitting (room n) (a :: rest) ≠ [] := fitting_ne_nil ha
        have hpos := List.length_pos_of_ne_nil hne
        have hn := hmany.resolve_right (List.cons_ne_nil _ _)
        rw [List.length_append]
        exact .inl (by omega)

/-- If every record fits into every page, the reader gets all records, once and in order, from pages
that are not empty, and then an empty page. -/
theorem reader_complete (hfits : ∀ a ∈ as, f.Fits a) (hplaced : f.Placed stored 0 as)
    (hroom : ∀ n, ∀ a ∈ as, f.size a ≤ room n) :
    ∃ n, (∀ m < n, page (f.concat as) (f.reader stored (page (f.concat as)) room m).1 (room m) ≠ []) ∧
      (f.reader stored (page (f.concat as)) room n).2 = as ∧
      page (f.concat as) (f.reader stored (page (f.concat as)) room n).1 (room n) = [] := by
  classical
  have hend : ∃ n, (f.reader stored (page (f.concat as)) room n).2 = as := by
    obtain ⟨got, rest, has, hgot, hmany⟩ := reader_spec hfits hplaced hroom (as.length + 1)
    have hlength := congrArg List.length has
    rw [List.length_append] at hlength
    refine ⟨as.length + 1, ?_⟩
    rw [hgot, has, hmany.resolve_left (by omega), List.append_nil]
  refine ⟨Nat.find hend, fun m hm => ?_, Nat.find_spec hend, ?_⟩
  · obtain ⟨got, rest, has, hgot, -⟩ := reader_spec hfits hplaced hroom m
    have hpage : page (f.concat as) (f.concat got).length (room m) =
        (f.concat rest).take (room m) := by
      rw [has, page_concat]
    rw [hgot, hpage]
    cases rest with
    | nil =>
      refine absurd ?_ (Nat.find_min hend hm)
      rw [hgot, has, List.append_nil]
    | cons a rest =>
      have ha : f.size a ≤ room m := hroom m a (by rw [has]; simp)
      refine List.ne_nil_of_length_pos ?_
      have hpos := f.size_pos a
      rw [List.length_take, concat_cons, List.length_append]
      unfold size at ha hpos
      omega
  · obtain ⟨got, rest, has, hgot, -⟩ := reader_spec hfits hplaced hroom (Nat.find hend)
    have hall := Nat.find_spec hend
    rw [hgot] at hall ⊢
    change page _ (f.concat got).length _ = []
    rw [show got = as from hall, page, List.drop_length]
    exact List.take_nil

end Paging
end Records
end YFS.Library
