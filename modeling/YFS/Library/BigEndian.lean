import Mathlib.Tactic

/-! # Words as big-endian bytes

The lowest `n` bytes of a word in network order, and the word that bytes in network order
stand for. The widths are arbitrary; a word is recovered from its bytes when they cover it.
-/

namespace YFS.Library.BigEndian

variable {w : ℕ}

/-- The byte of a word that starts at bit `s`. -/
def byteAt (x : BitVec w) (s : ℕ) : UInt8 := ⟨(x >>> s).setWidth 8⟩

def place (w : ℕ) (b : UInt8) (s : ℕ) : BitVec w := b.toBitVec.setWidth w <<< s

/-- The lowest `n` bytes, the most significant one first. -/
def toBytes : ℕ → BitVec w → List UInt8
  | 0, _ => []
  | n + 1, x => byteAt x (8 * n) :: toBytes n x

def ofBytes (w : ℕ) : List UInt8 → BitVec w
  | [] => 0
  | b :: bs => place w b (8 * bs.length) ||| ofBytes w bs

@[simp] theorem length_toBytes (n : ℕ) (x : BitVec w) : (toBytes n x).length = n := by
  induction n with
  | zero => rfl
  | succ n ih => rw [toBytes, List.length_cons, ih]

theorem getLsbD_byteAt (x : BitVec w) (s i : ℕ) :
    (byteAt x s).toBitVec.getLsbD i = (decide (i < 8) && x.getLsbD (s + i)) := by
  simp [byteAt]

theorem getLsbD_place (b : UInt8) (s i : ℕ) :
    (place w b s).getLsbD i = (decide (i < w) && (decide (s ≤ i) && b.toBitVec.getLsbD (i - s))) := by
  rw [place, BitVec.getLsbD_shiftLeft, BitVec.getLsbD_setWidth]
  by_cases hi : i < w
  · by_cases hs : s ≤ i
    · simp [hi, hs, show i - s < w by omega]
    · simp [hi, hs, show i < s by omega]
  · simp [hi]

theorem getLsbD_ofBytes_toBytes (n : ℕ) (x : BitVec w) (i : ℕ) :
    (ofBytes w (toBytes n x)).getLsbD i = (decide (i < 8 * n) && x.getLsbD i) := by
  induction n with
  | zero => simp [toBytes, ofBytes]
  | succ n ih =>
    rw [toBytes, ofBytes, BitVec.getLsbD_or, ih, length_toBytes, getLsbD_place, getLsbD_byteAt]
    by_cases hw : i < w
    · by_cases h : i < 8 * n
      · simp [h, show i < 8 * (n + 1) by omega, show ¬ 8 * n ≤ i by omega]
      · by_cases h' : i < 8 * (n + 1)
        · simp [h, h', hw, show 8 * n ≤ i by omega, show i - 8 * n < 8 by omega,
            show 8 * n + (i - 8 * n) = i by omega]
        · simp [h, h', show ¬ i - 8 * n < 8 by omega]
    · simp [BitVec.getLsbD_of_ge x i (by omega), hw]

theorem ofBytes_toBytes {n : ℕ} (x : BitVec w) (h : w ≤ 8 * n) : ofBytes w (toBytes n x) = x := by
  apply BitVec.eq_of_getLsbD_eq
  intro i hi
  simp [getLsbD_ofBytes_toBytes, show i < 8 * n by omega]

theorem getLsbD_ofBytes_of_ge (bs : List UInt8) {i : ℕ} (h : 8 * bs.length ≤ i) :
    (ofBytes w bs).getLsbD i = false := by
  induction bs with
  | nil => simp [ofBytes]
  | cons b bs ih =>
    rw [List.length_cons] at h
    rw [ofBytes, BitVec.getLsbD_or, getLsbD_place, ih (by omega),
      BitVec.getLsbD_of_ge b.toBitVec _ (by omega)]
    simp

theorem toBytes_congr {n : ℕ} {x y : BitVec w} (h : ∀ i < 8 * n, x.getLsbD i = y.getLsbD i) :
    toBytes n x = toBytes n y := by
  induction n with
  | zero => rfl
  | succ n ih =>
    have hb : byteAt x (8 * n) = byteAt y (8 * n) := by
      apply UInt8.toBitVec_inj.mp
      apply BitVec.eq_of_getLsbD_eq
      intro i hi
      rw [getLsbD_byteAt, getLsbD_byteAt, h (8 * n + i) (by omega)]
    rw [toBytes, toBytes, hb, ih fun i hi => h i (by omega)]

theorem byteAt_setWidth {v s : ℕ} (x : BitVec w) (h : s + 8 ≤ v) :
    byteAt (x.setWidth v) s = byteAt x s := by
  apply UInt8.toBitVec_inj.mp
  apply BitVec.eq_of_getLsbD_eq
  intro i hi
  rw [getLsbD_byteAt, getLsbD_byteAt, BitVec.getLsbD_setWidth]
  simp [show s + i < v by omega]

theorem byteAt_ushiftRight (x : BitVec w) (r s : ℕ) : byteAt (x >>> r) s = byteAt x (r + s) := by
  rw [byteAt, byteAt, BitVec.shiftRight_add]

theorem toBytes_setWidth {n v : ℕ} (x : BitVec w) (h : 8 * n ≤ v) :
    toBytes n (x.setWidth v) = toBytes n x := by
  induction n with
  | zero => rfl
  | succ n ih => rw [toBytes, toBytes, byteAt_setWidth x (by omega), ih (by omega)]

/-- A word is sent as its upper part followed by its lower part. -/
theorem toBytes_add {m n u v : ℕ} (x : BitVec w) (hm : 8 * m ≤ u) (hn : 8 * n ≤ v) :
    toBytes (m + n) x = toBytes m ((x >>> (8 * n)).setWidth u) ++ toBytes n (x.setWidth v) := by
  rw [toBytes_setWidth _ hm, toBytes_setWidth _ hn]
  clear hm
  induction m with
  | zero => simp [toBytes]
  | succ m ih =>
    rw [Nat.succ_add, toBytes, ih, toBytes, byteAt_ushiftRight, Nat.mul_add, Nat.add_comm (8 * m)]
    rfl

theorem toBytes_ofBytes (bs : List UInt8) (h : 8 * bs.length ≤ w) :
    toBytes bs.length (ofBytes w bs) = bs := by
  induction bs with
  | nil => rfl
  | cons b bs ih =>
    rw [List.length_cons] at h
    have hb : byteAt (ofBytes w (b :: bs)) (8 * bs.length) = b := by
      apply UInt8.toBitVec_inj.mp
      apply BitVec.eq_of_getLsbD_eq
      intro i hi
      rw [getLsbD_byteAt, ofBytes, BitVec.getLsbD_or, getLsbD_place,
        getLsbD_ofBytes_of_ge bs (by omega)]
      simp [hi, show 8 * bs.length + i < w by omega]
    have hbs : toBytes bs.length (ofBytes w (b :: bs)) = toBytes bs.length (ofBytes w bs) := by
      apply toBytes_congr
      intro i hi
      rw [ofBytes, BitVec.getLsbD_or, getLsbD_place]
      simp [show ¬ 8 * bs.length ≤ i by omega]
    rw [List.length_cons, toBytes, hb, hbs, ih (by omega)]

theorem setWidth_place {v : ℕ} (b : UInt8) {s : ℕ} (h : s + 8 ≤ v) (r : ℕ) :
    (place v b s).setWidth w <<< r = place w b (s + r) := by
  apply BitVec.eq_of_getLsbD_eq
  intro i hi
  rw [BitVec.getLsbD_shiftLeft, BitVec.getLsbD_setWidth, getLsbD_place, getLsbD_place]
  by_cases hr : s + r ≤ i
  · by_cases hb : i - (s + r) < 8
    · simp [hi, hr, show ¬ i < r by omega, show i - r < w by omega, show i - r < v by omega,
        show s ≤ i - r by omega, show i - r - s = i - (s + r) by omega]
    · simp [BitVec.getLsbD_of_ge b.toBitVec (i - r - s) (by omega),
        BitVec.getLsbD_of_ge b.toBitVec (i - (s + r)) (by omega)]
  · by_cases hir : i < r
    · simp [hr, hir]
    · simp [hr, show ¬ s ≤ i - r by omega]

theorem setWidth_ofBytes {v : ℕ} (bs : List UInt8) (h : 8 * bs.length ≤ v) :
    (ofBytes v bs).setWidth w = ofBytes w bs := by
  induction bs with
  | nil => simp [ofBytes]
  | cons b bs ih =>
    rw [List.length_cons] at h
    have hb : (place v b (8 * bs.length)).setWidth w = place w b (8 * bs.length) := by
      simpa using setWidth_place (w := w) b (show 8 * bs.length + 8 ≤ v by omega) 0
    rw [ofBytes, ofBytes, BitVec.setWidth_or, hb, ih (by omega)]

/-- Words for the upper and for the lower bytes, combined. -/
theorem ofBytes_append {u v : ℕ} (as bs : List UInt8) (ha : 8 * as.length ≤ u)
    (hb : 8 * bs.length ≤ v) :
    ofBytes w (as ++ bs) =
      (ofBytes u as).setWidth w <<< (8 * bs.length) ||| (ofBytes v bs).setWidth w := by
  rw [setWidth_ofBytes bs hb]
  induction as with
  | nil => simp [ofBytes]
  | cons a as ih =>
    rw [List.length_cons] at ha
    rw [List.cons_append, ofBytes, ih (by omega), ofBytes, BitVec.setWidth_or,
      BitVec.shiftLeft_or_distrib, setWidth_place a (by omega), List.length_append, Nat.mul_add,
      BitVec.or_assoc]

end YFS.Library.BigEndian
