import Mathlib.Data.List.ReduceOption
import YFS.Dir.Text

/-! # The layout of a directory's text

A directory written only by `dir_add_entry` and `remove`, with names free of colons and
newlines, is a sequence of slots: entries, and the blank lines that removed entries leave.
The readers and writers of `YFS.Dir.Text` are computed on slots here.
-/

namespace YFS.Dir
open YFS.Library

/-- A name that can be read back from an entry's line. -/
def Clean (name : Bytes) : Prop := colon ∉ name ∧ newline ∉ name

instance (name : Bytes) : Decidable (Clean name) := by unfold Clean; infer_instance

structure Entry where
  name : Bytes
  inum : ℕ
  clean : Clean name
  inum_lt : inum < 2 ^ 64

def Entry.line (e : Entry) : Bytes := e.name ++ colon :: Decimal.print e.inum

def slotLine : Option Entry → Bytes × Bool
  | none => ([], true)
  | some e => (e.line, true)

def render (d : List (Option Entry)) : Bytes := d.flatMap fun s => (slotLine s).1 ++ [newline]

theorem Entry.newline_notMem (e : Entry) : newline ∉ e.line := by
  intro h
  rcases List.mem_append.mp h with h | h
  · exact e.clean.2 h
  · rcases List.mem_cons.mp h with h | h
    · exact absurd h (by decide)
    · exact absurd (Decimal.isDigit_of_mem_print h) (by decide)

theorem Entry.line_length (e : Entry) : e.line.length ≠ 0 := by
  simp [line]

theorem Entry.entRead_line (e : Entry) : entRead e.line = some (e.name, e.inum) :=
  entRead_entry e.clean.1 e.inum_lt

@[simp] theorem render_nil : render [] = [] := rfl

theorem render_cons (s : Option Entry) (d : List (Option Entry)) :
    render (s :: d) = (slotLine s).1 ++ newline :: render d := by
  simp [render]

theorem render_append (d₁ d₂ : List (Option Entry)) :
    render (d₁ ++ d₂) = render d₁ ++ render d₂ := by
  simp [render]

theorem entLine_eq_render (e : Entry) : entLine e.name e.inum = render [some e] := by
  simp [entLine, render, slotLine, Entry.line]

theorem lines_render (d : List (Option Entry)) : lines (render d) = d.map slotLine := by
  induction d with
  | nil => rfl
  | cons s d ih =>
    have hs : newline ∉ (slotLine s).1 := by
      cases s with
      | none => simp [slotLine]
      | some e => exact e.newline_notMem
    rw [render_cons, lines_cons_line hs, ih]
    cases s <;> rfl

/-- `readir` lists the entries in the order of their slots. -/
theorem entries_render (d : List (Option Entry)) :
    entries (render d) = d.reduceOption.map fun e => (e.name, e.inum) := by
  rw [entries, lines_render]
  induction d with
  | nil => rfl
  | cons s d ih =>
    cases s with
    | none => simpa [entriesOf, slotLine] using ih
    | some e => simp [entriesOf, slotLine, e.line_length, e.entRead_line, ih]

section Find
variable {name : Bytes}

/-- The search passes over slots that do not hold the name. -/
theorem findFrom_append {d₁ : List (Option Entry)} (h₁ : ∀ e, some e ∈ d₁ → e.name ≠ name)
    (d₂ : List (Option Entry)) (pos : ℕ) :
    findFrom name pos ((d₁ ++ d₂).map slotLine) =
      findFrom name (pos + (render d₁).length) (d₂.map slotLine) := by
  induction d₁ generalizing pos with
  | nil => rfl
  | cons s d₁ ih =>
    have ih := ih fun e he => h₁ e (List.mem_cons_of_mem _ he)
    have hpos : pos + (render (s :: d₁)).length =
        pos + (slotLine s).1.length + 1 + (render d₁).length := by
      rw [render_cons, List.length_append, List.length_cons]
      omega
    rw [hpos, ← ih]
    cases s with
    | none => simp [findFrom, slotLine]
    | some e =>
      have hne : e.name ≠ name := h₁ e (by simp)
      simp [findFrom, slotLine, e.line_length, e.entRead_line, hne]

theorem dirFind_render_of_forall {d : List (Option Entry)} (h : ∀ e, some e ∈ d → e.name ≠ name) :
    dirFind (render d) name = none := by
  have := findFrom_append h [] 0
  rw [List.append_nil] at this
  rw [dirFind, lines_render, this]
  rfl

/-- The first entry of a name is found, with the place of its line. -/
theorem dirFind_render {d₁ : List (Option Entry)} {e : Entry} (hname : e.name = name)
    (h₁ : ∀ e, some e ∈ d₁ → e.name ≠ name) (d₂ : List (Option Entry)) :
    dirFind (render (d₁ ++ some e :: d₂)) name =
      some ⟨e.inum, some (render d₁).length, e.line.length⟩ := by
  rw [dirFind, lines_render, findFrom_append h₁]
  simp [findFrom, slotLine, e.line_length, e.entRead_line, hname]

/-- What is found is the line of the first slot with the name. -/
theorem dirFind_render_first {d : List (Option Entry)} {f : Found}
    (h : dirFind (render d) name = some f) :
    ∃ d₁ e d₂, d = d₁ ++ some e :: d₂ ∧ e.name = name ∧ (∀ e', some e' ∈ d₁ → e'.name ≠ name) ∧
      f = ⟨e.inum, some (render d₁).length, e.line.length⟩ := by
  cases hs : d.find? fun s => s.any fun e => e.name = name with
  | none =>
    have hne : ∀ e, some e ∈ d → e.name ≠ name := fun e he => by
      simpa using List.find?_eq_none.mp hs (some e) he
    rw [dirFind_render_of_forall hne] at h
    cases h
  | some s =>
    obtain ⟨hname, d₁, d₂, rfl, h₁⟩ := List.find?_eq_some_iff_append.mp hs
    cases s with
    | none => cases hname
    | some e =>
      have hname : e.name = name := by simpa using hname
      have h₁ : ∀ e', some e' ∈ d₁ → e'.name ≠ name := fun e' he' => by simpa using h₁ _ he'
      rw [dirFind_render hname h₁] at h
      exact ⟨d₁, e, d₂, rfl, hname, h₁, (Option.some.inj h).symm⟩

theorem dirFind_render_some {d : List (Option Entry)} {f : Found}
    (h : dirFind (render d) name = some f) :
    ∃ d₁ e d₂, d = d₁ ++ some e :: d₂ ∧ f = ⟨e.inum, some (render d₁).length, e.line.length⟩ := by
  obtain ⟨d₁, e, d₂, hd, -, -, hf⟩ := dirFind_render_first h
  exact ⟨d₁, e, d₂, hd, hf⟩

end Find

theorem erase_render (d₁ : List (Option Entry)) (e : Entry) (d₂ : List (Option Entry)) :
    erase (render (d₁ ++ some e :: d₂)) (some (render d₁).length) e.line.length =
      some (render (d₁ ++ none :: d₂)) := by
  have hle : (render d₁).length ≤ (render (d₁ ++ some e :: d₂)).length := by
    rw [render_append, List.length_append]
    omega
  rw [erase, if_pos hle, render_append, render_append, render_cons, render_cons, List.take_left]
  simp [slotLine, List.drop_append]

/-- The slots hold exactly the entries of a finite map, each name once. -/
structure Represents (d : List (Option Entry)) (m : Bytes → Option ℕ) : Prop where
  nodup : (d.reduceOption.map Entry.name).Nodup
  mem_iff : ∀ name i, m name = some i ↔ ∃ e, some e ∈ d ∧ e.name = name ∧ e.inum = i

namespace Represents
variable {d : List (Option Entry)} {m : Bytes → Option ℕ}

theorem nil : Represents [] fun _ => none := by
  constructor
  · exact List.nodup_nil
  · simp

theorem name_ne {name : Bytes} (h : Represents d m) (hm : m name = none) :
    ∀ e, some e ∈ d → e.name ≠ name := by
  rintro e he rfl
  have := (h.mem_iff e.name e.inum).mpr ⟨e, he, rfl, rfl⟩
  rw [hm] at this
  cases this

theorem dirFind_none {name : Bytes} (h : Represents d m) (hm : m name = none) :
    dirFind (render d) name = none :=
  dirFind_render_of_forall (h.name_ne hm)

/-- The slot of a name that is present, with no other entry of that name around it. -/
theorem split {name : Bytes} {i : ℕ} (h : Represents d m) (hm : m name = some i) :
    ∃ d₁ e d₂, d = d₁ ++ some e :: d₂ ∧ e.name = name ∧ e.inum = i ∧
      ∀ e', some e' ∈ d₁ ∨ some e' ∈ d₂ → e'.name ≠ name := by
  obtain ⟨e, he, rfl, rfl⟩ := (h.mem_iff name i).mp hm
  obtain ⟨d₁, d₂, rfl⟩ := List.append_of_mem he
  refine ⟨d₁, e, d₂, rfl, rfl, rfl, ?_⟩
  have hnd := h.nodup
  rw [List.reduceOption_append, List.reduceOption_cons_of_some, List.map_append, List.map_cons,
    List.nodup_middle, List.nodup_cons] at hnd
  intro e' he' heq
  apply hnd.1
  rw [← heq, ← List.map_append]
  apply List.mem_map_of_mem
  rw [← List.reduceOption_append, List.reduceOption_mem_iff, List.mem_append]
  exact he'

theorem dirFind_some {name : Bytes} {i : ℕ} (h : Represents d m) (hm : m name = some i) :
    ∃ f, dirFind (render d) name = some f ∧ f.inum = i := by
  obtain ⟨d₁, e, d₂, rfl, hname, rfl, hne⟩ := h.split hm
  exact ⟨_, dirFind_render hname (fun e' he' => hne e' (Or.inl he')) d₂, rfl⟩

theorem append (h : Represents d m) {e : Entry} (hm : m e.name = none) :
    Represents (d ++ [some e]) (Function.update m e.name (some e.inum)) := by
  have hne := h.name_ne hm
  constructor
  · rw [List.reduceOption_append, List.reduceOption_cons_of_some, List.map_append,
      List.nodup_append']
    refine ⟨h.nodup, List.nodup_singleton _, ?_⟩
    intro n hn hn'
    obtain ⟨e', he', rfl⟩ := List.mem_map.mp hn
    rw [List.reduceOption_nil, List.map_cons, List.map_nil, List.mem_singleton] at hn'
    exact hne e' (List.reduceOption_mem_iff.mp he') hn'
  · intro name i
    by_cases hname : name = e.name
    · subst hname
      grind
    · rw [Function.update_of_ne hname, h.mem_iff]
      grind

theorem erase {d₁ d₂ : List (Option Entry)} {e : Entry}
    (h : Represents (d₁ ++ some e :: d₂) m)
    (hne : ∀ e', some e' ∈ d₁ ∨ some e' ∈ d₂ → e'.name ≠ e.name) :
    Represents (d₁ ++ none :: d₂) (Function.update m e.name none) := by
  constructor
  · have hnd := h.nodup
    rw [List.reduceOption_append, List.reduceOption_cons_of_some, List.map_append, List.map_cons,
      List.nodup_middle, List.nodup_cons] at hnd
    rw [List.reduceOption_append, List.reduceOption_cons_of_none, List.map_append]
    exact hnd.2
  · intro name i
    by_cases hname : name = e.name
    · subst hname
      rw [Function.update_self]
      grind
    · rw [Function.update_of_ne hname, h.mem_iff]
      grind

theorem entries (h : Represents d m) :
    ((entries (render d)).map Prod.fst).Nodup ∧
      ∀ name i, (name, i) ∈ Dir.entries (render d) ↔ m name = some i := by
  rw [entries_render, List.map_map]
  refine ⟨h.nodup, fun name i => ?_⟩
  rw [h.mem_iff]
  simp [List.reduceOption_mem_iff]

end Represents
end YFS.Dir
