import Mathlib.Tactic

/-! # Condition variables

Threads are at positions; `wait false` is the position of a thread that is blocked on the
condition variable, `wait true` that of one that has been signalled and has not run yet.
-/

namespace YFS.Library.Condition

variable {α P : Type*} (wait : Bool → P)

def Waits (pos : α → P) : Prop := ∃ a sig, pos a = wait sig

def Roused (pos : α → P) : Prop := ∃ a, pos a = wait true

/-- The thread that a signal picks is a blocked one, if there is one. -/
def Reaches (pos : α → P) (pick : Option α) : Prop :=
  ∀ a, pos a = wait false → ∃ b, pick = some b ∧ pos b = wait false

def signal [DecidableEq α] [DecidableEq P] (pos : α → P) : Option α → α → P
  | none => pos
  | some a => if pos a = wait false ∨ pos a = wait true then Function.update pos a (wait true) else pos

variable {wait} {pos : α → P}

instance [Fintype α] [DecidableEq P] : Decidable (Waits wait pos) :=
  inferInstanceAs (Decidable (∃ a sig, pos a = wait sig))

instance [Fintype α] [DecidableEq P] : Decidable (Roused wait pos) :=
  inferInstanceAs (Decidable (∃ a, pos a = wait true))

instance [Fintype α] [DecidableEq P] (pick : Option α) : Decidable (Reaches wait pos pick) :=
  inferInstanceAs (Decidable (∀ a, pos a = wait false → ∃ b, pick = some b ∧ pos b = wait false))

variable (wait pos) in
theorem exists_reaches : ∃ pick, Reaches wait pos pick := by
  by_cases h : ∃ a, pos a = wait false
  · obtain ⟨a, ha⟩ := h
    exact ⟨some a, fun _ _ => ⟨a, rfl, ha⟩⟩
  · exact ⟨none, fun a ha => absurd ⟨a, ha⟩ h⟩

section Signal
variable [DecidableEq α] [DecidableEq P]

/-- A signal leaves every thread where it waits. -/
theorem exists_signal_iff (pick : Option α) (a : α) :
    (∃ sig, signal wait pos pick a = wait sig) ↔ ∃ sig, pos a = wait sig := by
  rcases pick with - | b
  · exact Iff.rfl
  · rw [signal]
    split
    · rename_i hb
      by_cases hab : a = b
      · subst hab
        rw [Function.update_self]
        refine ⟨fun _ => ?_, fun _ => ⟨true, rfl⟩⟩
        rcases hb with hb | hb
        · exact ⟨false, hb⟩
        · exact ⟨true, hb⟩
      · rw [Function.update_of_ne hab]
    · exact Iff.rfl

theorem waits_signal (pick : Option α) : Waits wait (signal wait pos pick) ↔ Waits wait pos :=
  exists_congr fun a => exists_signal_iff pick a

theorem signal_eq_iff (pick : Option α) {p : P} (hp : ∀ sig, p ≠ wait sig) (a : α) :
    signal wait pos pick a = p ↔ pos a = p := by
  rcases pick with - | b
  · exact Iff.rfl
  · rw [signal]
    split
    · rename_i hb
      by_cases hab : a = b
      · subst hab
        rw [Function.update_self]
        refine ⟨fun h => absurd h.symm (hp true), fun h => ?_⟩
        rcases hb with hb | hb
        · exact absurd (h.symm.trans hb) (hp false)
        · exact absurd (h.symm.trans hb) (hp true)
      · rw [Function.update_of_ne hab]
    · exact Iff.rfl

theorem signal_of_true (pick : Option α) {a : α} (ha : pos a = wait true) :
    signal wait pos pick a = wait true := by
  rcases pick with - | b
  · exact ha
  · rw [signal]
    split
    · by_cases hab : a = b
      · rw [hab, Function.update_self]
      · rw [Function.update_of_ne hab, ha]
    · exact ha

/-- A signal that is delivered leaves a waiting thread signalled. -/
theorem roused_signal {pick : Option α} (hr : Reaches wait pos pick) (hw : Waits wait pos) :
    Roused wait (signal wait pos pick) := by
  obtain ⟨a, sig, ha⟩ := hw
  cases sig with
  | false =>
    obtain ⟨b, rfl, hb⟩ := hr a ha
    exact ⟨b, by simp [signal, hb]⟩
  | true => exact ⟨a, signal_of_true pick ha⟩

end Signal

section Update
variable [DecidableEq α] {a : α} {p : P}

theorem update_eq_wait_iff (ho : ∀ sig, pos a ≠ wait sig) (hn : ∀ sig, p ≠ wait sig) (b : α)
    (sig : Bool) : Function.update pos a p b = wait sig ↔ pos b = wait sig := by
  by_cases hb : b = a
  · subst hb
    rw [Function.update_self]
    exact ⟨fun h => absurd h (hn sig), fun h => absurd h (ho sig)⟩
  · rw [Function.update_of_ne hb]

theorem waits_update (ho : ∀ sig, pos a ≠ wait sig) (hn : ∀ sig, p ≠ wait sig) :
    Waits wait (Function.update pos a p) ↔ Waits wait pos :=
  exists_congr fun b => exists_congr fun sig => update_eq_wait_iff ho hn b sig

theorem roused_update (ho : pos a ≠ wait true) (hn : p ≠ wait true) :
    Roused wait (Function.update pos a p) ↔ Roused wait pos := by
  apply exists_congr
  intro b
  by_cases hb : b = a
  · subst hb
    rw [Function.update_self]
    exact ⟨fun h => absurd h hn, fun h => absurd h ho⟩
  · rw [Function.update_of_ne hb]

end Update

section Placed
variable [Fintype α] [DecidableEq P]

def placed (pos : α → P) (p : P) : ℕ := (Finset.univ.filter fun a => pos a = p).card

theorem placed_pos_iff {p : P} : 0 < placed pos p ↔ ∃ a, pos a = p := by
  rw [placed, Finset.card_pos]
  constructor
  · rintro ⟨a, ha⟩
    exact ⟨a, (Finset.mem_filter.mp ha).2⟩
  · rintro ⟨a, ha⟩
    exact ⟨a, Finset.mem_filter.mpr ⟨Finset.mem_univ a, ha⟩⟩

theorem placed_congr {pos' : α → P} {p : P} (h : ∀ a, pos' a = p ↔ pos a = p) :
    placed pos' p = placed pos p := by
  simp only [placed, h]

theorem placed_eq_card_iff {p : P} : placed pos p = Fintype.card α ↔ ∀ a, pos a = p := by
  rw [placed, ← Finset.card_univ, Finset.card_filter_eq_iff]
  simp

variable (wait) in
/-- While a thread is blocked there are at least `m` that have been signalled: with `m` things
to wait for, none is there that no running thread will see. -/
def Covered (pos : α → P) (m : ℕ) : Prop :=
  ∀ a, pos a = wait false → m ≤ placed pos (wait true)

theorem Covered.roused {m : ℕ} (h : Covered wait pos m) (hm : 0 < m) {a : α}
    (ha : pos a = wait false) : Roused wait pos :=
  placed_pos_iff.mp (lt_of_lt_of_le hm (h a ha))

variable [DecidableEq α]

theorem placed_update (pos : α → P) (a : α) (p q : P) :
    placed (Function.update pos a p) q + (if pos a = q then 1 else 0) =
      placed pos q + if p = q then 1 else 0 := by
  have hothers : ∑ b ∈ Finset.univ.erase a, (if Function.update pos a p b = q then 1 else 0) =
      ∑ b ∈ Finset.univ.erase a, if pos b = q then 1 else 0 := by
    apply Finset.sum_congr rfl
    intro b hb
    rw [Function.update_of_ne (Finset.ne_of_mem_erase hb)]
  have hmem := Finset.mem_univ a
  rw [placed, placed, Finset.card_filter, Finset.card_filter, ← Finset.add_sum_erase _ _ hmem,
    ← Finset.add_sum_erase _ (fun b => if pos b = q then 1 else 0) hmem, hothers,
    Function.update_self]
  omega

theorem placed_update_of_ne {a : α} {p q : P} (ho : pos a ≠ q) (hn : p ≠ q) :
    placed (Function.update pos a p) q = placed pos q := by
  have h := placed_update pos a p q
  rwa [if_neg ho, if_neg hn] at h

/-- A signal takes at most one thread from any position. -/
theorem placed_le_signal (pick : Option α) (p : P) :
    placed pos p ≤ placed (signal wait pos pick) p + 1 := by
  rcases pick with - | b
  · exact Nat.le_succ _
  · rw [signal]
    split
    · have hcount := placed_update pos b (wait true) p
      split at hcount <;> omega
    · exact Nat.le_succ _

/-- A delivered signal covers one thing more. -/
theorem Covered.signal {m : ℕ} {pick : Option α} (h : Covered wait pos m)
    (hr : Reaches wait pos pick) (hne : wait false ≠ wait true) :
    Covered wait (signal wait pos pick) (m + 1) := by
  intro a ha
  rcases pick with - | b
  · obtain ⟨b, hb, -⟩ := hr a ha
    cases hb
  · by_cases hb : pos b = wait false
    · rw [Condition.signal, if_pos (Or.inl hb)]
      have hcount := placed_update pos b (wait true) (wait true)
      rw [hb, if_neg hne, if_pos rfl] at hcount
      have hm := h b hb
      omega
    · have hstill : pos a = wait false := by
        rw [Condition.signal] at ha
        split at ha
        · by_cases hab : a = b
          · rw [hab, Function.update_self] at ha
            exact absurd ha.symm hne
          · rwa [Function.update_of_ne hab] at ha
        · exact ha
      obtain ⟨d, hd, hblocked⟩ := hr a hstill
      cases hd
      exact absurd hblocked hb

theorem Covered.leave {m : ℕ} (h : Covered wait pos (m + 1)) (a : α) {p : P}
    (hp : ∀ sig, p ≠ wait sig) : Covered wait (Function.update pos a p) m := by
  intro b hb
  have hba : b ≠ a := by
    rintro rfl
    rw [Function.update_self] at hb
    exact hp false hb
  rw [Function.update_of_ne hba] at hb
  have hm := h b hb
  have hcount := placed_update pos a p (wait true)
  rw [if_neg (hp true)] at hcount
  split at hcount <;> omega

theorem Covered.elsewhere {m : ℕ} (h : Covered wait pos m) {a : α} {p : P}
    (ho : ∀ sig, pos a ≠ wait sig) (hn : ∀ sig, p ≠ wait sig) :
    Covered wait (Function.update pos a p) m := by
  intro b hb
  rw [placed_congr fun d => update_eq_wait_iff ho hn d true]
  exact h b ((update_eq_wait_iff ho hn b false).mp hb)

/-- A signal on another condition variable. -/
theorem Covered.signal_elsewhere {wait' : Bool → P} (hne : ∀ sig sig', wait' sig ≠ wait sig')
    {m : ℕ} (h : Covered wait pos m) (pick : Option α) :
    Covered wait (Condition.signal wait' pos pick) m := by
  rcases pick with - | b
  · exact h
  · rw [Condition.signal]
    split
    · rename_i hb
      apply h.elsewhere _ (hne true)
      intro sig hsig
      rcases hb with hb | hb
      · exact hne false sig (hb.symm.trans hsig)
      · exact hne true sig (hb.symm.trans hsig)
    · exact h

omit [DecidableEq P] in
/-- A thread leaves its position for another: what a sum over the threads gains and loses. -/
theorem sum_update (f : P → ℕ) (pos : α → P) (a : α) (p : P) :
    ∑ b, f (Function.update pos a p b) + f (pos a) = ∑ b, f (pos b) + f p := by
  have hothers : ∑ b ∈ Finset.univ.erase a, f (Function.update pos a p b) =
      ∑ b ∈ Finset.univ.erase a, f (pos b) := by
    apply Finset.sum_congr rfl
    intro b hb
    rw [Function.update_of_ne (Finset.ne_of_mem_erase hb)]
  have hmem := Finset.mem_univ a
  rw [← Finset.add_sum_erase _ _ hmem, ← Finset.add_sum_erase _ (fun b => f (pos b)) hmem, hothers,
    Function.update_self]
  omega

theorem sum_signal_le {f : P → ℕ} (hf : f (wait true) ≤ f (wait false) + 1) (pos : α → P)
    (pick : Option α) : ∑ b, f (Condition.signal wait pos pick b) ≤ ∑ b, f (pos b) + 1 := by
  rcases pick with - | a
  · exact Nat.le_succ _
  · rw [Condition.signal]
    split
    · rename_i ha
      have hsum := sum_update f pos a (wait true)
      rcases ha with ha | ha <;> rw [ha] at hsum <;> omega
    · exact Nat.le_succ _

end Placed
end YFS.Library.Condition
