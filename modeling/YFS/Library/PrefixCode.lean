import Mathlib.Tactic

/-! # Prefix codes

Words of which none begins with another one. A stream of such words, with a piece of one more
at its end, can be cut into words in one way only.
-/

namespace YFS.Library
variable {α : Type*} {C : Set (List α)}

/-- No word of the code begins with another one. -/
def PrefixCode (C : Set (List α)) : Prop := ∀ p ∈ C, ∀ q ∈ C, p <+: q → p = q

def Incomplete (C : Set (List α)) (part : List α) : Prop := ∀ p ∈ C, ¬ p <+: part

theorem incomplete_nil (hne : [] ∉ C) : Incomplete C [] := by
  intro p hp hpre
  rw [List.prefix_nil.mp hpre] at hp
  exact hne hp

namespace PrefixCode
variable (hC : PrefixCode C)
include hC

theorem incomplete {q part : List α} (hq : q ∈ C) (hpart : part <+: q)
    (hlt : part.length < q.length) : Incomplete C part := by
  intro p hp hpre
  obtain rfl := hC p hp q hq (hpre.trans hpart)
  exact absurd hpre.length_le (Nat.not_le.mpr hlt)

theorem prefix_of_flatten {ps qs : List (List α)} {part : List α} (hps : ∀ p ∈ ps, p ∈ C)
    (hqs : ∀ q ∈ qs, q ∈ C) (hpart : Incomplete C part)
    (h : ps.flatten <+: qs.flatten ++ part) : ps <+: qs := by
  induction ps generalizing qs with
  | nil => exact List.nil_prefix
  | cons p ps ih =>
    rw [List.flatten_cons] at h
    have hp : p ∈ C := hps p List.mem_cons_self
    cases qs with
    | nil => exact absurd ((List.prefix_append p _).trans h) (hpart p hp)
    | cons q qs =>
      have hq : q ∈ C := hqs q List.mem_cons_self
      rw [List.flatten_cons, List.append_assoc] at h
      -- both words begin the stream, so one begins the other
      have hpq : p = q := by
        rcases List.prefix_or_prefix_of_prefix ((List.prefix_append p _).trans h)
          (List.prefix_append q _) with hpre | hpre
        · exact hC p hp q hq hpre
        · exact (hC q hq p hp hpre).symm
      subst hpq
      rw [List.prefix_cons_inj]
      apply ih (fun p hp => hps p (List.mem_cons_of_mem _ hp))
        (fun q hq => hqs q (List.mem_cons_of_mem _ hq))
      exact (List.prefix_append_right_inj p).mp h

end PrefixCode
end YFS.Library
