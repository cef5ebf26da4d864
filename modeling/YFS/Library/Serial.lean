import Mathlib.Tactic

/-! # Serial execution

Calls executed one after another on a state, with the list of their results.
-/

namespace YFS.Library
variable {C S T R : Type*}

def serially (exec : C → S → R × S) : List C → S → List R × S
  | [], s => ([], s)
  | c :: cs, s =>
    let (r, t) := exec c s
    let (rs, u) := serially exec cs t
    (r :: rs, u)

theorem serially_concat (exec : C → S → R × S) (cs : List C) (c : C) (s : S) :
    serially exec (cs ++ [c]) s =
      ((serially exec cs s).1 ++ [(exec c (serially exec cs s).2).1],
        (exec c (serially exec cs s).2).2) := by
  induction cs generalizing s with
  | nil => rfl
  | cons d cs ih =>
    simp only [List.cons_append, serially]
    rw [ih]

theorem serially_map {exec : C → S → R × S} {exec' : C → T → R × T} {f : S → T}
    (h : ∀ c s, exec' c (f s) = ((exec c s).1, f (exec c s).2)) (cs : List C) (s : S) :
    serially exec' cs (f s) = ((serially exec cs s).1, f (serially exec cs s).2) := by
  induction cs generalizing s with
  | nil => rfl
  | cons c cs ih =>
    simp only [serially]
    rw [h]
    simp only [ih]

end YFS.Library
