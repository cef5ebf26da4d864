import Mathlib.Tactic

/-! # Memory as a function from addresses

Writing a list of values from an address on, and reading back the values of a range of
addresses.
-/

namespace YFS.Library.Memory

variable {α : Type*}

def overwrite (mem : ℕ → α) (pos : ℕ) : List α → ℕ → α
  | [] => mem
  | x :: xs => overwrite (Function.update mem pos x) (pos + 1) xs

def region (mem : ℕ → α) (pos n : ℕ) : List α := (List.range' pos n).map mem

@[simp] theorem length_region (mem : ℕ → α) (pos n : ℕ) : (region mem pos n).length = n := by
  simp [region]

theorem region_add (mem : ℕ → α) (pos m n : ℕ) :
    region mem pos (m + n) = region mem pos m ++ region mem (pos + m) n := by
  have h : List.range' pos (m + n) = List.range' pos m ++ List.range' (pos + m) n := by simp
  rw [region, h, List.map_append]
  rfl

theorem overwrite_append (mem : ℕ → α) (pos : ℕ) (xs ys : List α) :
    overwrite mem pos (xs ++ ys) = overwrite (overwrite mem pos xs) (pos + xs.length) ys := by
  induction xs generalizing mem pos with
  | nil => rfl
  | cons x xs ih =>
    have h : pos + 1 + xs.length = pos + (x :: xs).length := by simp; omega
    rw [List.cons_append, overwrite, ih, h]
    rfl

theorem overwrite_of_outside (mem : ℕ → α) (pos : ℕ) (xs : List α) {i : ℕ}
    (h : i < pos ∨ pos + xs.length ≤ i) : overwrite mem pos xs i = mem i := by
  induction xs generalizing mem pos with
  | nil => rfl
  | cons x xs ih =>
    rw [List.length_cons] at h
    rw [overwrite, ih (Function.update mem pos x) (pos + 1) (by omega)]
    exact Function.update_of_ne (by omega) ..

theorem region_overwrite_self (mem : ℕ → α) (pos : ℕ) (xs : List α) :
    region (overwrite mem pos xs) pos xs.length = xs := by
  induction xs generalizing mem pos with
  | nil => rfl
  | cons x xs ih =>
    have hx : overwrite (Function.update mem pos x) (pos + 1) xs pos = x := by
      rw [overwrite_of_outside _ _ _ (Or.inl (Nat.lt_succ_self pos)), Function.update_self]
    have hxs := ih (Function.update mem pos x) (pos + 1)
    rw [region] at hxs ⊢
    rw [List.length_cons, List.range'_succ, List.map_cons, overwrite, hx, hxs]

theorem region_overwrite_of_disjoint (mem : ℕ → α) (pos : ℕ) (xs : List α) {q n : ℕ}
    (h : q + n ≤ pos ∨ pos + xs.length ≤ q) :
    region (overwrite mem pos xs) q n = region mem q n := by
  apply List.map_congr_left
  intro i hi
  rw [List.mem_range'_1] at hi
  exact overwrite_of_outside mem pos xs (by omega)

theorem region_overwrite_of_le (mem : ℕ → α) (pos : ℕ) {xs : List α} {n : ℕ} (h : xs.length ≤ n) :
    region (overwrite mem pos xs) pos n = xs ++ region mem (pos + xs.length) (n - xs.length) := by
  obtain ⟨k, rfl⟩ := Nat.exists_eq_add_of_le h
  rw [region_add, region_overwrite_self, region_overwrite_of_disjoint _ _ _ (Or.inr le_rfl),
    Nat.add_sub_cancel_left]

end YFS.Library.Memory
