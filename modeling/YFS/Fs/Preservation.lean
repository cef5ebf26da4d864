import YFS.Fs.Sequential

/-! # What creating an entry leaves alone

`create` and `mkadir` put an empty extent under the inum that `new_inum` draws, whether or
not an extent is stored there, and append a line to the parent's text, whether or not the
text ends in a newline.
-/

namespace YFS.Fs
open YFS.Library YFS.Extent YFS.Dir

/-- Extents other than the parent keep their bytes, and the entries of the parent are still
listed, in the same order, before any others. -/
structure Preserves (parent : ℕ) (c c' : Contents) : Prop where
  others : ∀ k b, k ≠ key parent → c k = some b → c' k = some b
  entries : ∀ text, c (key parent) = some text →
    ∃ text', c' (key parent) = some text' ∧ Dir.entries text <+: Dir.entries text'

theorem Preserves.refl (parent : ℕ) (c : Contents) : Preserves parent c c :=
  ⟨fun _ _ _ hb => hb, fun text ht => ⟨text, ht, List.prefix_rfl⟩⟩

/-- If the call gets to adding the entry: the inum drawn is not that of another non-empty extent,
and the line appended does not change the entry of an open last line. -/
def AddKeeps (c : Contents) (parent : ℕ) (name : Bytes) (isfile : Bool) (random : List Random) :
    Prop :=
  ∀ text n, c (key parent) = some text → dirFind text name = none →
    drawn parent isfile random = some n →
    (key n = key parent ∨ c (key n) = none ∨ c (key n) = some []) ∧
      KeepsOpen (firstLine (entLine name n)) (lines text)

/-- The entries of a text before and after a line is appended. -/
theorem entries_prefix_iff (text name : Bytes) (n : ℕ) :
    entries text <+: entries (text ++ entLine name n) ↔
      KeepsOpen (firstLine (entLine name n)) (lines text) := by
  have hne : entLine name n ≠ [] := by simp [entLine]
  obtain ⟨t, ls, hls⟩ := lines_eq_firstLine_cons hne
  rw [entries, entries, lines_append, hls]
  exact entriesOf_prefix_iff ..

/-- Putting an empty extent and the parent's new text preserves the rest under exactly the
conditions of `AddKeeps`. -/
theorem preserves_update_iff {c : Contents} {parent : ℕ} {text : Bytes}
    (hc : c (key parent) = some text) (name : Bytes) (n : ℕ) :
    Preserves parent c (Function.update (Function.update c (key n) (some [])) (key parent)
        (some (text ++ entLine name n))) ↔
      (key n = key parent ∨ c (key n) = none ∨ c (key n) = some []) ∧
        KeepsOpen (firstLine (entLine name n)) (lines text) := by
  rw [← entries_prefix_iff]
  constructor
  · intro h
    constructor
    · by_cases hk : key n = key parent
      · exact Or.inl hk
      · cases hn : c (key n) with
        | none => exact Or.inr (Or.inl rfl)
        | some b =>
          have hb := h.others (key n) b hk hn
          rw [Function.update_of_ne hk, Function.update_self] at hb
          exact Or.inr (Or.inr hb.symm)
    · obtain ⟨text', ht', hp⟩ := h.entries text hc
      rw [Function.update_self] at ht'
      cases ht'
      exact hp
  · rintro ⟨hn, hp⟩
    constructor
    · intro k b hk hb
      rw [Function.update_of_ne hk]
      by_cases hkn : k = key n
      · subst hkn
        rw [Function.update_self]
        rcases hn with hn | hn | hn
        · exact absurd hn hk
        · rw [hn] at hb
          cases hb
        · exact hn.symm.trans hb
      · rw [Function.update_of_ne hkn]
        exact hb
    · intro text' ht'
      cases hc.symm.trans ht'
      exact ⟨_, Function.update_self .., hp⟩

theorem dirAddEntry_preserves_iff (s : Store) (parent : ℕ) (name : Bytes) (isfile : Bool)
    (now : ℕ → ℕ) (random : List Random) :
    Preserves parent s.contents
        ((dirAddEntry parent name isfile).outcome (Env.reliable now random) s).2 ↔
      AddKeeps s.contents parent name isfile random := by
  rw [outcome_dirAddEntry, addEffect, AddKeeps, ← newInum_fst]
  dsimp only [Env.reliable]
  cases hc : s.contents (key parent) with
  | none => simp [Preserves.refl]
  | some text =>
    dsimp only
    cases hf : dirFind text name with
    | some f =>
      apply iff_of_true (Preserves.refl _ _)
      intro text' n ht' hf'
      cases ht'
      cases hf.symm.trans hf'
    | none =>
      dsimp only
      cases hn : newInum parent isfile random with
      | none => simp [Preserves.refl]
      | some p =>
        obtain ⟨n, rs⟩ := p
        simpa [hf, putUnless] using preserves_update_iff hc name n

/-- For every store, parent, name and sequence of random values, `create` and `mkadir` leave all
other extents and the parent's entries as they are exactly under the condition `AddKeeps`. -/
theorem creating_preserves_iff (s : Store) (parent : ℕ) (name : Bytes) (now : ℕ → ℕ)
    (random : List Random) :
    (Preserves parent s.contents ((create parent name).outcome (Env.reliable now random) s).2 ↔
      AddKeeps s.contents parent name true random) ∧
    (Preserves parent s.contents ((mkadir parent name).outcome (Env.reliable now random) s).2 ↔
      AddKeeps s.contents parent name false random) :=
  ⟨dirAddEntry_preserves_iff .., dirAddEntry_preserves_iff ..⟩

/-- "f" is created and gets one byte; `random()` repeats itself when "g" is created, and "f" is
empty. -/
theorem create_empties_other :
    let s := after (Store.init 0)
      [(.create 1 [102], Env.reliable (fun _ => 0) [5]),
        (.write 0x80000005 [120] 0, Env.reliable (fun _ => 0) [])]
    s.contents 0x80000005 = some [120] ∧
    ((create 1 [103]).outcome (Env.reliable (fun _ => 0) [5]) s).1 =
      .returned { Reply.of OK with inum := some 0x80000005 } ∧
    ((create 1 [103]).outcome (Env.reliable (fun _ => 0) [5]) s).2 0x80000005 = some [] := by
  refine ⟨?_, ?_, ?_⟩ <;> decide +kernel

end YFS.Fs
