import YFS.Library.BigEndian
import YFS.Rpc.Marshall

/-! # The wire format

What each type looks like on the wire, as a function to byte strings: integers in network
order, a length in front of strings and containers. The operators of `marshall` append
exactly these bytes, and those of `unmarshall` read back the value they stand for.
-/

namespace YFS.Rpc
open YFS.Library BigEndian Memory

def lengthBytes (n : ℕ) : Bytes := toBytes 4 (BitVec.ofNat 32 n)

def encodeBool (x : Bool) : Bytes := [if x then 1 else 0]

def encodeString (s : Bytes) : Bytes := lengthBytes s.length ++ s

def encodeList {α : Type} (enc : α → Bytes) (v : List α) : Bytes :=
  lengthBytes v.length ++ v.flatMap enc

def encodeMap {κ β : Type} {c : Comparator κ} (enc : κ × β → Bytes) (d : OrderedMap c β) : Bytes :=
  encodeList enc d.val

def AttrWords.encode (a : AttrWords) : Bytes :=
  toBytes 4 a.atime ++ (toBytes 4 a.mtime ++ (toBytes 4 a.ctime ++ toBytes 4 a.size))

def Ty.encode : (t : Ty) → t.Val → Bytes
  | bool, x => encodeBool x
  | char, x => toBytes 1 (w := 8) x
  | uchar, x => toBytes 1 (w := 8) x
  | short, x => toBytes 2 (w := 16) x
  | ushort, x => toBytes 2 (w := 16) x
  | int, x => toBytes 4 (w := 32) x
  | uint, x => toBytes 4 (w := 32) x
  | ull, x => toBytes 8 (w := 64) x
  | string, x => encodeString x
  | attr, x => AttrWords.encode x
  | vector t, x => encodeList t.encode x
  | map k v, x => encodeMap (fun p => k.encode p.1 ++ v.encode p.2) x

def encodeAll (vs : List Value) : Bytes := vs.flatMap fun v => v.1.encode v.2

theorem run_bind {σ α β : Type} {p : StateT σ Option α} {f : α → StateT σ Option β} {s s' : σ}
    {x : α} (h : p s = some (x, s')) : (p >>= f) s = f x s' := by
  change ((p s).bind fun r => f r.1 r.2) = _
  rw [h]
  rfl

/-! ## Writing -/

/-- The operation writes these bytes at `_ind`, into any buffer, as long as the size of the buffer
stays an `int`. -/
def Appends (p : Put) (bs : Bytes) : Prop :=
  ∀ m : Marshall, 0 < m.capa → m.ind ≤ m.capa → m.ind + bs.length < 2 ^ 30 →
    ∃ capa, p m = some ((), ⟨overwrite m.buf m.ind bs, capa, m.ind + bs.length⟩) ∧
      m.capa ≤ capa ∧ m.ind + bs.length ≤ capa

namespace Appends

variable {p q : Put} {a b : Bytes}

theorem nil : Appends (pure ()) [] := fun m _ hle _ => ⟨m.capa, rfl, le_rfl, hle⟩

theorem andThen (hp : Appends p a) (hq : Appends q b) : Appends (do p; q) (a ++ b) := by
  intro m hpos hle hlt
  rw [List.length_append] at hlt
  obtain ⟨capa, hm, hcapa, hind⟩ := hp m hpos hle (by omega)
  have hpos' : 0 < capa := by omega
  obtain ⟨capa', hm', hcapa', hind'⟩ := hq ⟨overwrite m.buf m.ind a, capa, m.ind + a.length⟩
    hpos' hind (show m.ind + a.length + b.length < 2 ^ 30 by omega)
  have hlen : m.ind + (a ++ b).length = m.ind + a.length + b.length := by
    rw [List.length_append]
    omega
  refine ⟨capa', ?_, hcapa.trans hcapa', hlen ▸ hind'⟩
  rw [overwrite_append, hlen]
  exact (run_bind hm).trans hm'

theorem forM {α : Type} {put : α → Put} {enc : α → Bytes} (h : ∀ x, Appends (put x) (enc x))
    (xs : List α) : Appends (xs.forM put) (xs.flatMap enc) := by
  induction xs with
  | nil => exact nil
  | cons x xs ih => exact (h x).andThen ih

theorem grow (m : Marshall) (bs : Bytes) {full : Prop} [Decidable full] {c : ℕ}
    (hfull : full → c < 2 ^ 31 ∧ m.capa ≤ c ∧ m.ind + bs.length ≤ c)
    (hroom : ¬full → m.ind + bs.length ≤ m.capa) :
    ∃ capa, (do if full then Marshall.realloc c
                Marshall.store bs : Put) m =
        some ((), ⟨overwrite m.buf m.ind bs, capa, m.ind + bs.length⟩) ∧
      m.capa ≤ capa ∧ m.ind + bs.length ≤ capa := by
  by_cases h : full
  · obtain ⟨hint, hcapa, hind⟩ := hfull h
    refine ⟨c, ?_, hcapa, hind⟩
    simp only [h, if_true, bind, StateT.bind, Marshall.realloc, if_pos hint, Option.bind_some,
      Marshall.store, if_pos hind]
  · refine ⟨m.capa, ?_, le_rfl, hroom h⟩
    simp only [h, if_false, bind, Marshall.store, if_pos (hroom h)]

theorem rawbyte (x : UInt8) : Appends (Marshall.rawbyte x) [x] := by
  intro m hpos hle hlt
  rw [List.length_singleton] at hlt
  apply grow m [x]
  · intro h
    rw [List.length_singleton]
    omega
  · intro h
    rw [List.length_singleton]
    omega

theorem rawbytes (bs : Bytes) : Appends (Marshall.rawbytes bs) bs := by
  intro m hpos hle hlt
  apply grow m bs
  · intro h
    split <;> omega
  · intro h
    omega

end Appends

theorem getLsbD_lowByte {w : ℕ} (x : BitVec w) {i : ℕ} (hi : i < 8) :
    (lowByte x).toBitVec.getLsbD i = x.getLsbD i := by
  have hmask : (0xff : ℕ).testBit i = true := by
    revert i
    decide
  simp only [lowByte, BitVec.getLsbD_setWidth, BitVec.getLsbD_and, BitVec.getLsbD_ofNat, hmask, hi]
  by_cases hw : i < w
  · simp [hw]
  · simp [BitVec.getLsbD_of_ge x i (by omega)]

theorem lowByte_ushiftRight {w : ℕ} (x : BitVec w) (s : ℕ) : lowByte (x >>> s) = byteAt x s := by
  apply UInt8.toBitVec_inj.mp
  apply BitVec.eq_of_getLsbD_eq
  intro i hi
  rw [getLsbD_lowByte _ hi, getLsbD_byteAt]
  simp [hi]

theorem lowByte_sshiftRight {w s : ℕ} (x : BitVec w) (h : s + 8 ≤ w) :
    lowByte (x.sshiftRight s) = byteAt x s := by
  apply UInt8.toBitVec_inj.mp
  apply BitVec.eq_of_getLsbD_eq
  intro i hi
  rw [getLsbD_lowByte _ hi, getLsbD_byteAt, BitVec.getLsbD_sshiftRight]
  simp [hi, show s + i < w by omega, show i < w by omega]

theorem lowByte_eq {w : ℕ} (x : BitVec w) : lowByte x = byteAt x 0 := lowByte_ushiftRight x 0

namespace Appends

theorem putUchar (x : BitVec 8) : Appends (Marshall.putUchar x) (toBytes 1 x) := by
  have hx : toBytes 1 x = [⟨x⟩] := by simp [toBytes, byteAt]
  rw [hx]
  exact rawbyte _

theorem putUshort (x : BitVec 16) : Appends (Marshall.putUshort x) (toBytes 2 x) := by
  have hx : toBytes 2 x = [lowByte (x >>> 8)] ++ [lowByte x] := by
    simp only [lowByte_ushiftRight, lowByte_eq x]
    rfl
  rw [hx]
  exact (rawbyte _).andThen (rawbyte _)

theorem putUint (x : BitVec 32) : Appends (Marshall.putUint x) (toBytes 4 x) := by
  have hx : toBytes 4 x =
      [lowByte (x >>> 24)] ++ ([lowByte (x >>> 16)] ++ ([lowByte (x >>> 8)] ++ [lowByte x])) := by
    simp only [lowByte_ushiftRight, lowByte_eq x]
    rfl
  rw [hx]
  exact (rawbyte _).andThen ((rawbyte _).andThen ((rawbyte _).andThen (rawbyte _)))

theorem pack (x : BitVec 32) : Appends (Marshall.pack x) (toBytes 4 x) := by
  have hx : toBytes 4 x = [lowByte (x.sshiftRight 24)] ++
      ([lowByte (x.sshiftRight 16)] ++ ([lowByte (x.sshiftRight 8)] ++ [lowByte x])) := by
    rw [lowByte_sshiftRight x (by decide), lowByte_sshiftRight x (by decide),
      lowByte_sshiftRight x (by decide), lowByte_eq x]
    rfl
  rw [hx]
  exact (rawbyte _).andThen ((rawbyte _).andThen ((rawbyte _).andThen (rawbyte _)))

theorem putUll (x : BitVec 64) : Appends (Marshall.putUll x) (toBytes 8 x) := by
  have hx : toBytes 8 x = toBytes 4 ((x >>> 32).setWidth 32) ++ toBytes 4 (x.setWidth 32) :=
    toBytes_add (m := 4) (n := 4) x le_rfl le_rfl
  rw [hx]
  exact (putUint _).andThen (putUint _)

theorem putVector {α : Type} {put : α → Put} {enc : α → Bytes} (h : ∀ x, Appends (put x) (enc x))
    (v : List α) : Appends (Marshall.putVector put v) (encodeList enc v) :=
  (putUint _).andThen (Appends.forM h v)

theorem putMap {κ β : Type} {c : Comparator κ} {putKey : κ → Put} {putVal : β → Put}
    {encKey : κ → Bytes} {encVal : β → Bytes} (hk : ∀ k, Appends (putKey k) (encKey k))
    (hv : ∀ x, Appends (putVal x) (encVal x)) (d : OrderedMap c β) :
    Appends (Marshall.putMap putKey putVal d) (encodeMap (fun p => encKey p.1 ++ encVal p.2) d) :=
  putVector (fun p : κ × β => (hk p.1).andThen (hv p.2)) d.val

theorem put (t : Ty) (x : t.Val) : Appends (t.put x) (t.encode x) := by
  induction t with
  | bool => exact rawbyte _
  | char => exact putUchar x
  | uchar => exact putUchar x
  | short => exact putUshort x
  | ushort => exact putUshort x
  | int => exact putUint x
  | uint => exact putUint x
  | ull => exact putUll x
  | string => exact (putUint _).andThen (rawbytes _)
  | attr =>
    exact (putUint _).andThen ((putUint _).andThen ((putUint _).andThen (putUint _)))
  | vector t ih => exact putVector ih x
  | map k v ihk ihv => exact putMap ihk ihv x

theorem putAll (vs : List Value) : Appends (Rpc.putAll vs) (encodeAll vs) :=
  Appends.forM (fun v : Value => put v.1 v.2) vs

end Appends

/-! ## Reading -/

theorem length_le_flatMap {α : Type} {enc : α → Bytes} (h : ∀ x, 0 < (enc x).length) (v : List α) :
    v.length ≤ (v.flatMap enc).length := by
  induction v with
  | nil => exact Nat.zero_le _
  | cons x v ih =>
    have hx := h x
    rw [List.flatMap_cons, List.length_append, List.length_cons]
    omega

namespace Unmarshall

/-- The next extraction starts `n` bytes further on. -/
def skip (u : Unmarshall) (n : ℕ) : Unmarshall := { u with ind := u.ind + n }

/-- Nothing has failed, and the message goes on with these bytes. -/
structure Holds (u : Unmarshall) (bs : Bytes) : Prop where
  ok : u.ok = true
  size_lt : u.buf.length < 2 ^ 31
  ind_le : u.ind ≤ u.buf.length
  start : bs <+: u.buf.drop u.ind

namespace Holds

variable {u : Unmarshall} {a b : Bytes}

theorem left (h : u.Holds (a ++ b)) : u.Holds a :=
  ⟨h.ok, h.size_lt, h.ind_le, (List.prefix_append a b).trans h.start⟩

theorem length_le (h : u.Holds a) : u.ind + a.length ≤ u.buf.length := by
  have hle := h.start.length_le
  have hind := h.ind_le
  rw [List.length_drop] at hle
  omega

theorem right (h : u.Holds (a ++ b)) : (u.skip a.length).Holds b := by
  refine ⟨h.ok, h.size_lt, h.left.length_le, ?_⟩
  obtain ⟨t, ht⟩ := h.start
  refine ⟨t, ?_⟩
  calc b ++ t = (a ++ b ++ t).drop a.length := by rw [List.append_assoc, List.drop_left]
    _ = u.buf.drop (u.ind + a.length) := by rw [ht, List.drop_drop]

theorem take (h : u.Holds a) : (u.buf.drop u.ind).take a.length = a := by
  obtain ⟨t, ht⟩ := h.start
  rw [← ht, List.take_left]

end Holds

end Unmarshall

theorem signExtend_and (c : UInt8) :
    c.toBitVec.signExtend 32 &&& 0xff = c.toBitVec.setWidth 32 := by
  generalize c.toBitVec = b
  revert b
  decide

theorem setWidth_signExtend (c : UInt8) :
    (c.toBitVec.signExtend 32).setWidth 8 = c.toBitVec := by
  generalize c.toBitVec = b
  revert b
  decide

theorem ofBytes_one (a : UInt8) : ofBytes 8 [a] = (a.toBitVec.signExtend 32).setWidth 8 := by
  rw [setWidth_signExtend]
  simp [ofBytes, place]

theorem ofBytes_two (a b : UInt8) :
    ofBytes 16 [a, b] = ((a.toBitVec.signExtend 32 &&& 0xff) <<< 8).setWidth 16 |||
      (b.toBitVec.signExtend 32 &&& 0xff).setWidth 16 := by
  have hw : ofBytes 32 [a, b] = a.toBitVec.setWidth 32 <<< 8 ||| b.toBitVec.setWidth 32 := by
    simp [ofBytes, place]
  rw [signExtend_and, signExtend_and, ← BitVec.setWidth_or, ← hw, setWidth_ofBytes [a, b] (by simp)]

theorem ofBytes_four (a b c d : UInt8) :
    ofBytes 32 [a, b, c, d] =
      (a.toBitVec.signExtend 32 &&& 0xff) <<< 24 ||| (b.toBitVec.signExtend 32 &&& 0xff) <<< 16 |||
        (c.toBitVec.signExtend 32 &&& 0xff) <<< 8 ||| (d.toBitVec.signExtend 32 &&& 0xff) := by
  simp only [signExtend_and]
  simp [ofBytes, place, BitVec.or_assoc]

theorem ofBytes_eight {hi lo : Bytes} (hhi : hi.length = 4) (hlo : lo.length = 4) :
    ofBytes 64 (hi ++ lo) =
      (ofBytes 32 lo).setWidth 64 ||| (ofBytes 32 hi).setWidth 64 <<< 32 := by
  rw [ofBytes_append (u := 32) (v := 32) _ _ (by omega) (by omega), hlo, BitVec.or_comm]

/-- On a message that goes on with these bytes, the extraction consumes them and gives `x`. -/
def Yields {α : Type} (g : Get α) (bs : Bytes) (x : α) : Prop :=
  ∀ u : Unmarshall, u.Holds bs → g u = some (x, u.skip bs.length)

namespace Yields

variable {α β : Type} {g : Get α} {a b : Bytes} {x : α}

theorem pure (x : α) : Yields (Pure.pure x) [] x := fun _ _ => rfl

theorem bind {f : α → Get β} {y : β} (hg : Yields g a x) (hf : Yields (f x) b y) :
    Yields (g >>= f) (a ++ b) y := by
  intro u hu
  have hskip : u.skip (a ++ b).length = (u.skip a.length).skip b.length := by
    simp [Unmarshall.skip, Nat.add_assoc]
  rw [hskip]
  exact (run_bind (hg u hu.left)).trans (hf _ hu.right)

theorem map {f : α → β} (hg : Yields g a x) : Yields (do let x ← g; Pure.pure (f x)) a (f x) := by
  have h := hg.bind (f := fun x => Pure.pure (f x)) (pure (f x))
  rwa [List.append_nil] at h

/-- Only encodings that fit into a message matter. -/
theorem of_length {bs : Bytes} (h : bs.length < 2 ^ 31 → Yields g bs x) : Yields g bs x := by
  intro u hu
  have hlen := hu.length_le
  have hsize := hu.size_lt
  exact h (by omega) u hu

theorem rawbyte (c : UInt8) : Yields Unmarshall.rawbyte [c] (c.toBitVec.signExtend 32) := by
  intro u hu
  obtain ⟨t, ht⟩ := hu.start
  have hc : u.buf[u.ind]? = some c := by
    rw [← List.head?_drop, ← ht]
    rfl
  rw [Unmarshall.rawbyte, hc]
  rfl

theorem rawbytes {n : BitVec 32} {s : Bytes} (hn : n.toNat = s.length) :
    Yields (Unmarshall.rawbytes n) s s := by
  intro u hu
  have hle := hu.length_le
  have hsize := hu.size_lt
  rw [Unmarshall.rawbytes, hn, if_neg (by omega), if_pos hle, hu.take]
  rfl

theorem getUint {bs : Bytes} (h : bs.length = 4) :
    Yields Unmarshall.getUint bs (ofBytes 32 bs) := by
  match bs, h with
  | [a, b, c, d], _ =>
    rw [ofBytes_four]
    exact (rawbyte a).bind ((rawbyte b).bind ((rawbyte c).bind (rawbyte d).map))

theorem getUshort {bs : Bytes} (h : bs.length = 2) :
    Yields Unmarshall.getUshort bs (ofBytes 16 bs) := by
  match bs, h with
  | [a, b], _ =>
    rw [ofBytes_two]
    exact (rawbyte a).bind (rawbyte b).map

theorem getUchar {bs : Bytes} (h : bs.length = 1) :
    Yields Unmarshall.getUchar bs (ofBytes 8 bs) := by
  match bs, h with
  | [a], _ =>
    rw [ofBytes_one]
    exact (rawbyte a).map

theorem getUll {bs : Bytes} (h : bs.length = 8) : Yields Unmarshall.getUll bs (ofBytes 64 bs) := by
  obtain ⟨hi, lo, rfl, hhi, hlo⟩ : ∃ hi lo, bs = hi ++ lo ∧ hi.length = 4 ∧ lo.length = 4 :=
    ⟨bs.take 4, bs.drop 4, (List.take_append_drop 4 bs).symm, by simp [h], by simp [h]⟩
  rw [ofBytes_eight hhi hlo]
  exact (getUint hhi).bind (getUint hlo).map

theorem lengthBytes (n : ℕ) :
    Yields Unmarshall.getUint (Rpc.lengthBytes n) (BitVec.ofNat 32 n) := by
  have h := getUint (length_toBytes 4 (BitVec.ofNat 32 n))
  rwa [ofBytes_toBytes (n := 4) _ le_rfl] at h

theorem ifOk {g g' : Get α} {bs : Bytes} (h : Yields g bs x) :
    Yields (do let u ← get; if u.ok then g else g') bs x := by
  intro u hu
  rw [← h u hu]
  show (if u.ok = true then g else g') u = g u
  rw [if_pos hu.ok]

theorem getString (s : Bytes) : Yields Unmarshall.getString (encodeString s) s := by
  apply of_length
  intro hlt
  rw [encodeString, List.length_append] at hlt
  exact (lengthBytes s.length).bind (ifOk (rawbytes (by simp; omega)))

theorem loop {σ α : Type} {body : σ → Get σ} {enc : α → Bytes} {step : σ → α → σ}
    (h : ∀ s x, Yields (body s) (enc x) (step s x)) (xs : List α) (s : σ) :
    Yields (Unmarshall.loop body xs.length s) (xs.flatMap enc) (xs.foldl step s) := by
  induction xs generalizing s with
  | nil => exact pure s
  | cons x xs ih => exact (h s x).bind (ih (step s x))

/-- A loop over the entries of a container whose number has been sent in front of them. -/
theorem counted {σ : Type} {body : σ → Get σ} {enc : α → Bytes} {step : σ → α → σ}
    (hpos : ∀ x, 0 < (enc x).length) (h : ∀ s x, Yields (body s) (enc x) (step s x)) (xs : List α)
    (s : σ) :
    Yields (do let n ← Unmarshall.getUint; Unmarshall.loop body n.toNat s) (encodeList enc xs)
      (xs.foldl step s) := by
  apply of_length
  intro hlt
  have hlen := length_le_flatMap hpos xs
  rw [encodeList, List.length_append] at hlt
  have hn : (BitVec.ofNat 32 xs.length).toNat = xs.length := by
    simp
    omega
  refine (lengthBytes xs.length).bind ?_
  rw [hn]
  exact loop h xs s

theorem getVector {get : Get α} {enc : α → Bytes} (hpos : ∀ x, 0 < (enc x).length)
    (h : ∀ x, Yields get (enc x) x) (v : List α) :
    Yields (Unmarshall.getVector get) (encodeList enc v) v := by
  have hv := counted hpos (fun v x => (h x).map (f := fun z => v ++ [z])) v []
  rwa [show v.foldl (fun v x => v ++ [x]) [] = v by simp [← List.flatMap_def]] at hv

theorem getMap {κ : Type} {c : Comparator κ} {getKey : Get κ} {getVal : Get β} {encKey : κ → Bytes}
    {encVal : β → Bytes} (hpos : ∀ x, 0 < (encKey x).length) (hk : ∀ x, Yields getKey (encKey x) x)
    (hv : ∀ x, Yields getVal (encVal x) x) (d : OrderedMap c β) :
    Yields (Unmarshall.getMap getKey getVal)
      (encodeMap (fun p => encKey p.1 ++ encVal p.2) d) d := by
  have hentry : ∀ p : κ × β, 0 < (encKey p.1 ++ encVal p.2).length := by
    intro p
    rw [List.length_append]
    exact Nat.add_pos_left (hpos p.1) _
  have hstep : ∀ (d : OrderedMap c β) (p : κ × β),
      Yields (do let a ← getKey; let b ← getVal; Pure.pure (d.insert a b))
        (encKey p.1 ++ encVal p.2) (d.insert p.1 p.2) :=
    fun d p => (hk p.1).bind ((hv p.2).map (f := d.insert p.1))
  have hd := counted hentry hstep d.val OrderedMap.empty
  rwa [OrderedMap.foldl_insert] at hd

end Yields

theorem Ty.length_encode_pos (t : Ty) (x : t.Val) : 0 < (t.encode x).length := by
  cases t <;> exact Nat.succ_pos _

namespace Yields

theorem word {w n : ℕ} {get : Get (BitVec w)}
    (h : ∀ {bs : Bytes}, bs.length = n → Yields get bs (ofBytes w bs)) (hw : w ≤ 8 * n)
    (x : BitVec w) : Yields get (toBytes n x) x := by
  have hx := h (length_toBytes n x)
  rwa [ofBytes_toBytes x hw] at hx

theorem getBool (x : Bool) : Yields Unmarshall.getBool (encodeBool x) x := by
  have h := (rawbyte (if x then 1 else 0)).map (f := fun y => y != 0)
  cases x <;> exact h

theorem getAttr (a : AttrWords) : Yields AttrWords.get a.encode a :=
  (word getUint le_rfl a.atime).bind <| (word getUint le_rfl a.mtime).bind <|
    (word getUint le_rfl a.ctime).bind (word getUint le_rfl a.size).map

theorem get (t : Ty) (x : t.Val) : Yields t.get (t.encode x) x := by
  induction t with
  | bool => exact getBool x
  | char => exact word getUchar le_rfl x
  | uchar => exact word getUchar le_rfl x
  | short => exact word getUshort le_rfl x
  | ushort => exact word getUshort le_rfl x
  | int => exact word getUint le_rfl x
  | uint => exact word getUint le_rfl x
  | ull => exact word getUll le_rfl x
  | string => exact getString x
  | attr => exact getAttr x
  | vector t ih => exact getVector t.length_encode_pos ih x
  | map k v ihk ihv => exact getMap k.length_encode_pos ihk ihv x

theorem getAll (vs : List Value) : Yields (Rpc.getAll (vs.map Sigma.fst)) (encodeAll vs) vs := by
  induction vs with
  | nil => exact pure []
  | cons v vs ih => exact (get v.1 v.2).bind ih.map

end Yields

end YFS.Rpc
