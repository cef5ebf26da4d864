import YFS.Rpc.Wire

/-! # Extractions from arbitrary bytes

`Total` extractions are defined on every message and never take a failure back. `Exact`
extractions leave `ok()` true only behind bytes that encode the value they give.
-/

namespace YFS.Rpc
open YFS.Library BigEndian

/-- Defined in this state; the message is kept, and so is a failure. -/
def Keeps {α : Type} (g : Get α) (u : Unmarshall) : Prop :=
  ∃ x u', g u = some (x, u') ∧ u'.buf = u.buf ∧ (u.ok = false → u'.ok = false)

def Total {α : Type} (g : Get α) : Prop := ∀ u, Keeps g u

namespace Total

variable {α β : Type} {g : Get α}

theorem pure (x : α) : Total (Pure.pure x) := fun u => ⟨x, u, rfl, rfl, id⟩

theorem bind {f : α → Get β} (hg : Total g) (hf : ∀ x, Total (f x)) : Total (g >>= f) := by
  intro u
  obtain ⟨x, u₁, hu₁, hbuf₁, hok₁⟩ := hg u
  obtain ⟨y, u₂, hu₂, hbuf₂, hok₂⟩ := hf x u₁
  exact ⟨y, u₂, (run_bind hu₁).trans hu₂, hbuf₂.trans hbuf₁, hok₂ ∘ hok₁⟩

theorem seek (i : ℕ) : Total (Unmarshall.seek i) := fun _ => ⟨(), _, rfl, rfl, id⟩

theorem rawbyte : Total Unmarshall.rawbyte := by
  intro u
  rw [Keeps, Unmarshall.rawbyte]
  cases u.buf[u.ind]? with
  | none => exact ⟨_, _, rfl, rfl, fun _ => rfl⟩
  | some c => exact ⟨_, _, rfl, rfl, id⟩

theorem getBool : Total Unmarshall.getBool := rawbyte.bind fun _ => pure _

theorem getUchar : Total Unmarshall.getUchar := rawbyte.bind fun _ => pure _

theorem getUshort : Total Unmarshall.getUshort :=
  rawbyte.bind fun _ => rawbyte.bind fun _ => pure _

theorem getUint : Total Unmarshall.getUint :=
  rawbyte.bind fun _ => rawbyte.bind fun _ => rawbyte.bind fun _ => rawbyte.bind fun _ => pure _

theorem getUll : Total Unmarshall.getUll := getUint.bind fun _ => getUint.bind fun _ => pure _

theorem getAttr : Total AttrWords.get :=
  getUint.bind fun _ => getUint.bind fun _ => getUint.bind fun _ => getUint.bind fun _ => pure _

theorem unpackWith {words : Get α} (h : Total words) : Total (Header.unpackWith words) :=
  (seek 4).bind fun _ => h.bind fun _ => (seek RPC_HEADER_SZ).bind fun _ => pure _

theorem unpackReq : Total Header.unpackReq :=
  unpackWith <| getUint.bind fun _ => getUint.bind fun _ => getUint.bind fun _ =>
    getUint.bind fun _ => getUint.bind fun _ => pure _

theorem unpackReply : Total Header.unpackReply :=
  unpackWith <| getUint.bind fun _ => getUint.bind fun _ => pure _

end Total

/-- Where `ok()` is true afterwards it was so before, and the bytes that have been read are in `R`
with the value. -/
def Exact {α : Type} (g : Get α) (R : α → Bytes → Prop) : Prop :=
  ∀ u x u', g u = some (x, u') → u'.ok = true →
    u.ok = true ∧ ∃ bs, R x bs ∧ bs <+: u.buf.drop u.ind ∧ u' = u.skip bs.length

theorem append_prefix {a b l : Bytes} (ha : a <+: l) (hb : b <+: l.drop a.length) :
    a ++ b <+: l := by
  obtain ⟨t, rfl⟩ := ha
  rw [List.drop_left] at hb
  exact (List.prefix_append_right_inj a).mpr hb

namespace Exact

variable {α β : Type} {g : Get α} {R : α → Bytes → Prop}

theorem pure (x : α) : Exact (Pure.pure x) fun y bs => y = x ∧ bs = [] := by
  rintro u y u' ⟨⟩ hok
  exact ⟨hok, [], ⟨rfl, rfl⟩, List.nil_prefix, rfl⟩

theorem imp {S : α → Bytes → Prop} (h : Exact g R) (hS : ∀ x bs, R x bs → S x bs) : Exact g S := by
  intro u x u' hu hok
  obtain ⟨hok', bs, hR, hpre, hskip⟩ := h u x u' hu hok
  exact ⟨hok', bs, hS x bs hR, hpre, hskip⟩

theorem bind {f : α → Get β} {S : α → β → Bytes → Prop} (hg : Exact g R)
    (hf : ∀ x, Exact (f x) (S x)) :
    Exact (g >>= f) fun y bs => ∃ x a b, R x a ∧ S x y b ∧ bs = a ++ b := by
  intro u y u' hu hok
  obtain ⟨⟨x, u₁⟩, hu₁, hu'⟩ := Option.bind_eq_some_iff.mp hu
  obtain ⟨hok₁, b, hS, hb, rfl⟩ := hf x u₁ y u' hu' hok
  obtain ⟨hok₀, a, hR, ha, rfl⟩ := hg u x u₁ hu₁ hok₁
  refine ⟨hok₀, a ++ b, ⟨x, a, b, hR, hS, rfl⟩, append_prefix ha ?_, ?_⟩
  · rwa [List.drop_drop]
  · simp [Unmarshall.skip, Nat.add_assoc]

theorem rawbyte :
    Exact Unmarshall.rawbyte fun x bs => ∃ c, bs = [c] ∧ x = c.toBitVec.signExtend 32 := by
  intro u x u' hu hok
  rw [Unmarshall.rawbyte] at hu
  cases hc : u.buf[u.ind]? with
  | none =>
    rw [hc] at hu
    cases hu
    cases hok
  | some c =>
    rw [hc] at hu
    cases hu
    rw [← List.head?_drop] at hc
    obtain ⟨t, ht⟩ := List.head?_eq_some_iff.mp hc
    exact ⟨hok, [c], ⟨c, rfl, rfl⟩, ⟨t, ht.symm⟩, rfl⟩

theorem rawbytes (n : BitVec 32) :
    Exact (Unmarshall.rawbytes n) fun s bs => bs = s ∧ s.length = n.toNat := by
  intro u s u' hu hok
  rw [Unmarshall.rawbytes] at hu
  split at hu
  · cases hu
    cases hok
  · split at hu
    · rename_i hle
      cases hu
      have hlen : ((u.buf.drop u.ind).take n.toNat).length = n.toNat := by
        rw [List.length_take, List.length_drop]
        omega
      refine ⟨hok, _, ⟨rfl, hlen⟩, List.take_prefix .., ?_⟩
      rw [hlen]
      rfl
    · cases hu

theorem getUchar : Exact Unmarshall.getUchar fun x bs => bs = toBytes 1 x := by
  apply imp <| rawbyte.bind fun _ => pure _
  rintro x bs ⟨_, _, _, ⟨a, rfl, rfl⟩, ⟨rfl, rfl⟩, rfl⟩
  rw [← ofBytes_one]
  exact (toBytes_ofBytes [a] (by simp)).symm

theorem getUshort : Exact Unmarshall.getUshort fun x bs => bs = toBytes 2 x := by
  apply imp <| rawbyte.bind fun _ => rawbyte.bind fun _ => pure _
  rintro x bs ⟨_, _, _, ⟨a, rfl, rfl⟩, ⟨_, _, _, ⟨b, rfl, rfl⟩, ⟨rfl, rfl⟩, rfl⟩, rfl⟩
  rw [← ofBytes_two]
  exact (toBytes_ofBytes [a, b] (by simp)).symm

theorem getUint : Exact Unmarshall.getUint fun x bs => bs = toBytes 4 x := by
  apply imp <| rawbyte.bind fun _ => rawbyte.bind fun _ => rawbyte.bind fun _ =>
    rawbyte.bind fun _ => pure _
  rintro x bs ⟨_, _, _, ⟨a, rfl, rfl⟩, ⟨_, _, _, ⟨b, rfl, rfl⟩, ⟨_, _, _, ⟨c, rfl, rfl⟩,
    ⟨_, _, _, ⟨d, rfl, rfl⟩, ⟨rfl, rfl⟩, rfl⟩, rfl⟩, rfl⟩, rfl⟩
  rw [← ofBytes_four]
  exact (toBytes_ofBytes [a, b, c, d] (by simp)).symm

theorem getUll : Exact Unmarshall.getUll fun x bs => bs = toBytes 8 x := by
  apply imp <| getUint.bind fun _ => getUint.bind fun _ => pure _
  rintro x bs ⟨h, _, _, rfl, ⟨l, _, _, rfl, ⟨rfl, rfl⟩, rfl⟩, rfl⟩
  have hx := ofBytes_eight (length_toBytes 4 h) (length_toBytes 4 l)
  rw [ofBytes_toBytes (n := 4) h le_rfl, ofBytes_toBytes (n := 4) l le_rfl] at hx
  rw [← hx, List.append_nil]
  exact (toBytes_ofBytes (toBytes 4 h ++ toBytes 4 l) (by simp)).symm

theorem ifOk (h : Exact g R) (x : α) :
    Exact (do let u ← get; if u.ok then g else Pure.pure x) R := by
  intro u y u' hu hok
  change (if u.ok = true then g else Pure.pure x) u = some (y, u') at hu
  split at hu
  · exact h u y u' hu hok
  · cases hu
    contradiction

theorem getString : Exact Unmarshall.getString fun s bs => bs = encodeString s := by
  apply imp <| getUint.bind fun n => ifOk (rawbytes n) []
  rintro s bs ⟨n, _, _, rfl, ⟨rfl, hlen⟩, rfl⟩
  rw [encodeString, lengthBytes, hlen, BitVec.ofNat_toNat, BitVec.setWidth_eq]

end Exact

/-- The integers of fixed width and the strings, whose values have one encoding each. -/
def Ty.plain : Ty → Bool
  | char | uchar | short | ushort | int | uint | ull | string => true
  | bool | attr | vector _ | map _ _ => false

namespace Exact

theorem get {t : Ty} (h : t.plain = true) : Exact t.get fun x bs => bs = t.encode x := by
  cases t with
  | char => exact getUchar
  | uchar => exact getUchar
  | short => exact getUshort
  | ushort => exact getUshort
  | int => exact getUint
  | uint => exact getUint
  | ull => exact getUll
  | string => exact getString
  | _ => cases h

theorem getAll {ts : List Ty} (h : ∀ t ∈ ts, t.plain = true) :
    Exact (Rpc.getAll ts) fun vs bs => vs.map Sigma.fst = ts ∧ bs = encodeAll vs := by
  induction ts with
  | nil =>
    apply imp (pure [])
    rintro vs bs ⟨rfl, rfl⟩
    exact ⟨rfl, rfl⟩
  | cons t ts ih =>
    have ht := get (h t List.mem_cons_self)
    have hts := ih fun t' ht' => h t' (List.mem_cons_of_mem t ht')
    apply imp <| ht.bind fun x => hts.bind fun vs => pure (⟨t, x⟩ :: vs)
    rintro _ _ ⟨x, _, _, rfl, ⟨vs, _, _, ⟨rfl, rfl⟩, ⟨rfl, rfl⟩, rfl⟩, rfl⟩
    simp [encodeAll]

end Exact

namespace Unmarshall

/-- A string is about to be extracted whose length takes the sum that is compared beyond 32 bits. -/
def wraps (u : Unmarshall) : Bool :=
  match getUint u with
  | some (n, u') => u'.ok && decide (2 ^ 32 ≤ u'.ind + n.toNat)
  | none => false

theorem rawbytes_of_wraps {u : Unmarshall} {n : BitVec 32} (hle : u.ind ≤ u.buf.length)
    (hw : 2 ^ 32 ≤ u.ind + n.toNat) (hsz : u.buf.length < 2 ^ 31) : rawbytes n u = none := by
  have hn := n.isLt
  rw [rawbytes, if_neg (by omega), if_neg (by omega)]

theorem rawbytes_of_not_wraps {u : Unmarshall} {n : BitVec 32} (hw : u.ind + n.toNat < 2 ^ 32) :
    Keeps (rawbytes n) u := by
  rw [Keeps, rawbytes, Nat.mod_eq_of_lt hw]
  split
  · exact ⟨_, _, rfl, rfl, fun _ => rfl⟩
  · rw [if_pos (by omega)]
    exact ⟨_, _, rfl, rfl, id⟩

theorem ind_le_of_getUint {u u' : Unmarshall} {n : BitVec 32} (hu : getUint u = some (n, u'))
    (hok : u'.ok = true) : u'.ind ≤ u'.buf.length := by
  obtain ⟨-, bs, rfl, hpre, rfl⟩ := Exact.getUint u n u' hu hok
  have hlen := hpre.length_le
  simp only [List.length_drop, length_toBytes] at hlen
  simp only [skip, length_toBytes]
  omega

/-- A string is read outside the message just when the sum wraps around. -/
theorem getString_cases {u : Unmarshall} (hsz : u.buf.length < 2 ^ 31) :
    (u.wraps = true ∧ getString u = none) ∨ (u.wraps = false ∧ Keeps getString u) := by
  obtain ⟨n, u', hu', hbuf, hsticky⟩ := Total.getUint u
  have hrun : getString u = (if u'.ok = true then rawbytes n else pure []) u' := run_bind hu'
  rw [Keeps, hrun, wraps, hu', ← hbuf]
  by_cases hok : u'.ok = true
  · have hle := ind_le_of_getUint hu' hok
    rw [if_pos hok]
    by_cases hw : 2 ^ 32 ≤ u'.ind + n.toNat
    · exact Or.inl ⟨by simpa [hok] using hw, rawbytes_of_wraps hle hw (hbuf ▸ hsz)⟩
    · obtain ⟨s, u'', hu'', hbuf'', hsticky''⟩ := rawbytes_of_not_wraps (Nat.lt_of_not_le hw)
      exact Or.inr ⟨by simpa [hok] using hw, s, u'', hu'', hbuf'', hsticky'' ∘ hsticky⟩
  · rw [if_neg hok]
    exact Or.inr ⟨by simp [hok], [], u', rfl, rfl, hsticky⟩

end Unmarshall

def Ty.flat : Ty → Bool
  | vector _ | map _ _ => false
  | _ => true

theorem Ty.flat_of_plain {t : Ty} (h : t.plain = true) : t.flat = true := by
  cases t <;> first | rfl | cases h

def Ty.wraps (u : Unmarshall) : Ty → Bool
  | string => u.wraps
  | _ => false

theorem Total.cases {α : Type} {g : Get α} (h : Total g) {b : Bool} (hb : b = false)
    (u : Unmarshall) : (b = true ∧ g u = none) ∨ (b = false ∧ Keeps g u) :=
  Or.inr ⟨hb, h u⟩

theorem Ty.get_cases {t : Ty} (h : t.flat = true) {u : Unmarshall} (hsz : u.buf.length < 2 ^ 31) :
    (t.wraps u = true ∧ t.get u = none) ∨ (t.wraps u = false ∧ Keeps t.get u) := by
  cases t with
  | bool => exact Total.getBool.cases rfl u
  | char => exact Total.getUchar.cases rfl u
  | uchar => exact Total.getUchar.cases rfl u
  | short => exact Total.getUshort.cases rfl u
  | ushort => exact Total.getUshort.cases rfl u
  | int => exact Total.getUint.cases rfl u
  | uint => exact Total.getUint.cases rfl u
  | ull => exact Total.getUll.cases rfl u
  | string => exact Unmarshall.getString_cases hsz
  | attr => exact Total.getAttr.cases rfl u
  | vector t => cases h
  | map k v => cases h

end YFS.Rpc
