import Mathlib.Data.Nat.Digits.Lemmas
import Mathlib.Tactic

/-! # Decimal numbers in byte strings

Printing a natural number in base ten, and reading one the way a C++ stream extracts an
`unsigned long long`: white space is skipped, a sign is allowed, and a minus sign negates
modulo `2 ^ 64`.
-/

namespace YFS.Library

abbrev Bytes := List UInt8

namespace Decimal

def isDigit (b : UInt8) : Bool := 48 ≤ b && b ≤ 57

def isSpace (b : UInt8) : Bool := b == 32 || (9 ≤ b && b ≤ 13)

def digitByte (d : ℕ) : UInt8 := UInt8.ofNat (48 + d)

def value (ds : Bytes) : ℕ := ds.foldl (fun a b => 10 * a + (b.toNat - 48)) 0

def print (n : ℕ) : Bytes :=
  if n = 0 then [48] else (Nat.digits 10 n).reverse.map digitByte

def sign : Bytes → Bool × Bytes
  | 45 :: s => (true, s)
  | 43 :: s => (false, s)
  | s => (false, s)

/-- `stream >> x` for an `unsigned long long`; `none` when the stream fails. -/
def extract (s : Bytes) : Option ℕ :=
  let (neg, s) := sign (s.dropWhile isSpace)
  let ds := s.takeWhile isDigit
  if ds = [] then none
  else if 2 ^ 64 ≤ value ds then none
  else some (if neg then (2 ^ 64 - value ds) % 2 ^ 64 else value ds)

theorem toNat_digitByte {d : ℕ} (hd : d < 10) : (digitByte d).toNat = 48 + d := by
  rw [digitByte, UInt8.toNat_ofNat']
  omega

theorem isDigit_digitByte {d : ℕ} (hd : d < 10) : isDigit (digitByte d) = true := by
  have h := toNat_digitByte hd
  simp only [isDigit, Bool.and_eq_true, decide_eq_true_eq, UInt8.le_iff_toNat_le, h]
  exact ⟨Nat.le_add_right 48 d, by change 48 + d ≤ 57; omega⟩

theorem isDigit_of_mem_print {n : ℕ} {b : UInt8} (hb : b ∈ print n) : isDigit b = true := by
  rw [print] at hb
  split at hb
  · rw [List.mem_singleton] at hb
    subst hb
    decide
  · obtain ⟨d, hd, rfl⟩ := List.mem_map.mp hb
    exact isDigit_digitByte (Nat.digits_lt_base (by decide) (List.mem_reverse.mp hd))

theorem print_ne_nil (n : ℕ) : print n ≠ [] := by
  rw [print]
  split
  · simp
  · rename_i hn
    simpa [Nat.digits_eq_nil_iff_eq_zero] using hn

theorem value_map_digitByte {l : List ℕ} (hl : ∀ d ∈ l, d < 10) :
    value (l.reverse.map digitByte) = Nat.ofDigits 10 l := by
  induction l with
  | nil => rfl
  | cons d l ih =>
    have hd := hl d (by simp)
    have ih := ih fun e he => hl e (by simp [he])
    rw [value] at ih ⊢
    rw [List.reverse_cons, List.map_append, List.foldl_append, ih, Nat.ofDigits_cons]
    simp only [List.map_cons, List.map_nil, List.foldl_cons, List.foldl_nil, toNat_digitByte hd]
    omega

theorem value_print (n : ℕ) : value (print n) = n := by
  rw [print]
  split
  · rename_i hn
    subst hn
    rfl
  · rw [value_map_digitByte fun d hd => Nat.digits_lt_base (by decide) hd, Nat.ofDigits_digits]

theorem isSpace_of_isDigit {b : UInt8} (hb : isDigit b = true) : isSpace b = false := by
  simp only [isDigit, Bool.and_eq_true, decide_eq_true_eq, UInt8.le_iff_toNat_le] at hb
  simp only [isSpace, Bool.or_eq_false_iff, Bool.and_eq_false_iff, decide_eq_false_iff_not,
    UInt8.le_iff_toNat_le, beq_eq_false_iff_ne, ne_eq, UInt8.ext_iff]
  have h48 : (48 : UInt8).toNat = 48 := rfl
  have h32 : (32 : UInt8).toNat = 32 := rfl
  have h13 : (13 : UInt8).toNat = 13 := rfl
  omega

theorem sign_of_isDigit {b : UInt8} (hb : isDigit b = true) (s : Bytes) :
    sign (b :: s) = (false, b :: s) := by
  rw [sign]
  · rintro _ ⟨⟩
    exact absurd hb (by decide)
  · rintro _ ⟨⟩
    exact absurd hb (by decide)

/-- A printed number is read back, whatever follows it that is not a digit. -/
theorem extract_print {n : ℕ} (hn : n < 2 ^ 64) {s : Bytes}
    (hs : ∀ b, s.head? = some b → isDigit b = false) : extract (print n ++ s) = some n := by
  obtain ⟨b, l, hbl⟩ := List.exists_cons_of_ne_nil (print_ne_nil n)
  have hb : isDigit b = true := isDigit_of_mem_print (n := n) (by simp [hbl])
  have htake : (print n ++ s).takeWhile isDigit = print n := by
    rw [List.takeWhile_append_of_pos fun a ha => isDigit_of_mem_print ha]
    cases s with
    | nil => simp
    | cons a s => simp [hs a rfl]
  have hdrop : (print n ++ s).dropWhile isSpace = print n ++ s := by
    rw [hbl, List.cons_append, List.dropWhile_cons_of_neg]
    simp [isSpace_of_isDigit hb]
  have hsign : sign (print n ++ s) = (false, print n ++ s) := by
    rw [hbl]
    exact sign_of_isDigit hb _
  simp only [extract, hdrop, hsign, htake, value_print]
  rw [if_neg (print_ne_nil n), if_neg (by omega)]
  simp

end Decimal
end YFS.Library
