import Mathlib.Tactic

/-! # Counting holders

Each of some holders holds one thing or nothing, and only finitely many hold something. A
tally gives for every thing the number of its holders; it goes up by one at what a holder
takes and down by one at what it drops.
-/

namespace YFS.Library
variable {ι κ : Type*} [DecidableEq κ]

def Tally (held : ι → Option κ) (n : κ → ℤ) : Prop :=
  ∃ S : Finset ι, (∀ i, held i ≠ none → i ∈ S) ∧
    ∀ c, n c = ∑ i ∈ S, if held i = some c then 1 else 0

namespace Tally
variable {held : ι → Option κ} {n : κ → ℤ}

theorem nobody : Tally (fun _ : ι => (none : Option κ)) fun _ => 0 :=
  ⟨∅, by simp, by simp⟩

theorem holders (h : Tally held n) (c : κ) :
    ∃ T : Finset ι, (∀ i, i ∈ T ↔ held i = some c) ∧ n c = T.card := by
  obtain ⟨S, hS, hn⟩ := h
  refine ⟨S.filter fun i => held i = some c, fun i => ?_, ?_⟩
  · rw [Finset.mem_filter]
    exact ⟨And.right, fun hi => ⟨hS i (by simp [hi]), hi⟩⟩
  · rw [hn c, Finset.card_filter]
    push_cast
    rfl

theorem pos (h : Tally held n) {i : ι} {c : κ} (hi : held i = some c) : 1 ≤ n c := by
  obtain ⟨T, hT, hn⟩ := h.holders c
  have hcard : 0 < T.card := Finset.card_pos.mpr ⟨i, (hT i).mpr hi⟩
  omega

variable [DecidableEq ι]

theorem update (h : Tally held n) (i : ι) (v : Option κ) :
    Tally (Function.update held i v) fun c =>
      n c - (if held i = some c then 1 else 0) + if v = some c then 1 else 0 := by
  obtain ⟨S, hS, hn⟩ := h
  refine ⟨insert i S, fun j hj => ?_, fun c => ?_⟩
  · by_cases he : j = i
    · exact he ▸ Finset.mem_insert_self i S
    · rw [Function.update_of_ne he] at hj
      exact Finset.mem_insert_of_mem (hS j hj)
  · have hgrow : n c = ∑ j ∈ insert i S, if held j = some c then 1 else 0 := by
      rw [hn c]
      apply Finset.sum_subset (Finset.subset_insert i S)
      intro j _ hj
      have hnone : held j = none := not_not.mp fun hne => hj (hS j hne)
      simp [hnone]
    have hothers : ∑ j ∈ (insert i S).erase i, (if Function.update held i v j = some c then 1
        else 0) = ∑ j ∈ (insert i S).erase i, if held j = some c then (1 : ℤ) else 0 := by
      apply Finset.sum_congr rfl
      intro j hj
      rw [Function.update_of_ne (Finset.ne_of_mem_erase hj)]
    have hmem := Finset.mem_insert_self i S
    simp only [hgrow]
    rw [← Finset.add_sum_erase _ _ hmem, ← Finset.add_sum_erase _ _ hmem, hothers,
      Function.update_self]
    ring

theorem take (h : Tally held n) {i : ι} (hi : held i = none) (c : κ) :
    Tally (Function.update held i (some c)) (Function.update n c (n c + 1)) := by
  convert h.update i (some c) using 1
  funext d
  by_cases hd : d = c
  · simp [hd, hi]
  · simp [hd, hi, Ne.symm hd]

theorem drop (h : Tally held n) {i : ι} {c : κ} (hi : held i = some c) :
    Tally (Function.update held i none) (Function.update n c (n c - 1)) := by
  convert h.update i none using 1
  funext d
  by_cases hd : d = c
  · simp [hd, hi]
  · simp [hd, hi, Ne.symm hd]

end Tally
end YFS.Library
