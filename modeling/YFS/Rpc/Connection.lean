import YFS.Library.BigEndian
import YFS.Library.Machine
import YFS.Rpc.Marshall

/-! # Reading PDUs from a connection

`read_cb` and `readpdu` over a stream that `read()` returns in pieces. The first four bytes
of a PDU hold its size. A PDU that `got_pdu` refuses is kept and offered again by the next
`read_cb`.
-/

namespace YFS.Rpc
open YFS.Library

/-- The PDU in `rpdu_`: `sz`, and the first `solong` bytes of `buf`. -/
structure PartialPdu where
  sz : ℕ
  buf : Bytes
  deriving DecidableEq, Repr

/-- The reading side of a `connection`: `rpdu_`, where `none` is a `NULL` buffer, and `dead_`, with
the bytes that have not been read yet and the offers to `got_pdu` with its answers. -/
structure Reader where
  rpdu : Option PartialPdu
  dead : Bool
  stream : Bytes
  offers : List (Bytes × Bool)
  deriving DecidableEq, Repr

/-- What `read()` returns: a number of bytes, zero, or -1; in the last two cases with whether
`errno` is `EAGAIN`, which a call that returns zero leaves as it was. -/
inductive ReadResult where
  | got (n : ℕ)
  | zero (eagain : Bool)
  | fail (eagain : Bool)
  deriving DecidableEq, Repr

/-- A call of `read_cb`: the results of its reads of the size and of the rest, as far as it comes to
them, and the answer of `got_pdu`. -/
structure ReadCb where
  size : ReadResult
  rest : ReadResult
  accept : Bool
  deriving DecidableEq, Repr

namespace ReadResult

/-- `read()` can return these many bytes out of `count` that are asked for. -/
def returns (count : ℕ) (stream : Bytes) (n : ℕ) : Bool :=
  decide (1 ≤ n ∧ n ≤ count ∧ n ≤ stream.length)

end ReadResult

namespace Reader

def readRest (c : Reader) (p : PartialPdu) : ReadResult → Option (Bool × Reader)
  | .got n =>
    if ReadResult.returns (p.sz - p.buf.length) c.stream n then
      some (true, { c with
        rpdu := some { p with buf := p.buf ++ c.stream.take n }
        stream := c.stream.drop n })
    else none
  | .zero eagain | .fail eagain =>
    if eagain then some (true, c) else some (false, { c with rpdu := none })

/-- The size that the first bytes of a PDU hold, an `int` in network order. -/
def sizeOf (bs : Bytes) : ℤ := (BigEndian.ofBytes 32 bs).toInt

def readpdu (c : Reader) (size rest : ReadResult) : Option (Bool × Reader) :=
  match c.rpdu with
  | some p => c.readRest p rest
  | none =>
    match size with
    | .zero _ => some (false, c)
    -- `VERIFY(errno!=EAGAIN)`
    | .fail eagain => if eagain then none else some (false, c)
    | .got n =>
      if ReadResult.returns 4 c.stream n then
        let c' := { c with stream := c.stream.drop n }
        if n ≠ 4 then some (false, c')
        else
          let sz := sizeOf (c.stream.take 4)
          if sz > MAX_PDU then some (false, c')
          -- the rest is read into a buffer that is too small
          else if sz < 4 then none
          else
            let p := ⟨sz.toNat, c.stream.take 4⟩
            { c' with rpdu := some p }.readRest p rest
      else none

def offer (c : Reader) (accept : Bool) : Reader :=
  match c.rpdu with
  | none => c
  | some p =>
    if p.sz = p.buf.length then
      { c with rpdu := if accept then none else some p, offers := c.offers ++ [(p.buf, accept)] }
    else c

/-- The buffer is `NULL` or not full. -/
def wantsMore (c : Reader) : Bool :=
  match c.rpdu with
  | none => true
  | some p => decide (p.buf.length < p.sz)

def readCb (c : Reader) (e : ReadCb) : Option Reader :=
  if c.dead then some c
  else if c.wantsMore then do
    let (succ, c) ← c.readpdu e.size e.rest
    some ({ c with dead := !succ }.offer e.accept)
  else some (c.offer e.accept)

end Reader

def reader (stream : Bytes) : Machine Reader ReadCb where
  init := ⟨none, false, stream, []⟩
  step := Reader.readCb

def accepted (offers : List (Bytes × Bool)) : List Bytes := (offers.filter Prod.snd).map Prod.fst

/-- Each offer is of the PDU behind those that have been accepted before. -/
def InOrder (pdus : List Bytes) (offers : List (Bytes × Bool)) : Prop :=
  ∀ pre o post, offers = pre ++ o :: post → accepted pre ++ [o.1] <+: pdus

/-- The connection lives, the offers are in order, and with the last byte all PDUs have been
accepted or the last one waits to be offered again. -/
def Reassembles (pdus : List Bytes) (es : List ReadCb) : Prop :=
  ∃ c, (reader pdus.flatten).run es = some c ∧ c.dead = false ∧ InOrder pdus c.offers ∧
    accepted c.offers <+: pdus ∧ (c.stream = [] → c.rpdu = none → accepted c.offers = pdus)

structure Framed (p : Bytes) : Prop where
  header_le : RPC_HEADER_SZ ≤ p.length
  le_max : p.length ≤ MAX_PDU
  size_eq : Reader.sizeOf (p.take 4) = p.length

namespace Reader

/-- The rest of a PDU comes in pieces of any size, and nothing at all with `EAGAIN`. -/
def restArrives (count : ℕ) (stream : Bytes) : ReadResult → Bool
  | .got n => ReadResult.returns count stream n
  | .zero _ => false
  | .fail eagain => eagain

/-- Every `read()` of the call returns bytes of the stream, or `EAGAIN` behind the size. -/
def arrives (c : Reader) (e : ReadCb) : Bool :=
  match c.rpdu with
  | some p => decide (p.buf.length = p.sz) || restArrives (p.sz - p.buf.length) c.stream e.rest
  | none =>
    match e.size with
    | .got n => ReadResult.returns 4 c.stream n && (decide (n ≠ 4) ||
        restArrives ((sizeOf (c.stream.take 4)).toNat - 4) (c.stream.drop 4) e.rest)
    | _ => false

/-- The size of a PDU is not split. -/
def sizeWhole (c : Reader) (e : ReadCb) : Bool :=
  match c.rpdu with
  | some _ => true
  | none => decide (e.size = .got 4)

end Reader

/-! ## Reassembly -/

theorem accepted_append (xs ys : List (Bytes × Bool)) :
    accepted (xs ++ ys) = accepted xs ++ accepted ys := by
  simp [accepted]

theorem InOrder.concat {pdus : List Bytes} {offers : List (Bytes × Bool)} (h : InOrder pdus offers)
    {q : Bytes} (hq : accepted offers ++ [q] <+: pdus) (b : Bool) :
    InOrder pdus (offers ++ [(q, b)]) := by
  intro pre o post heq
  rcases List.eq_nil_or_concat post with rfl | ⟨post', last, rfl⟩
  · obtain ⟨rfl, hlast⟩ := List.append_inj' heq rfl
    cases hlast
    exact hq
  · rw [List.concat_eq_append, ← List.cons_append, ← List.append_assoc] at heq
    exact h pre o post' (List.append_inj' heq rfl).1

/-- The buffer holds the beginning of `q`, whose other bytes come next in the stream. -/
structure PartialPdu.Within (p : PartialPdu) (stream q : Bytes) (rest : List Bytes) : Prop where
  sz_eq : p.sz = q.length
  length_le : p.buf.length ≤ q.length
  append_eq : p.buf ++ stream = q ++ rest.flatten

namespace PartialPdu.Within

variable {p : PartialPdu} {stream q : Bytes} {rest : List Bytes}

theorem buf_eq (h : p.Within stream q rest) (hfull : p.sz = p.buf.length) :
    p.buf = q ∧ stream = rest.flatten :=
  List.append_inj h.append_eq (hfull.symm.trans h.sz_eq)

theorem append (h : p.Within stream q rest) {n : ℕ} (hn : n ≤ p.sz - p.buf.length)
    (hlen : n ≤ stream.length) :
    PartialPdu.Within { p with buf := p.buf ++ stream.take n } (stream.drop n) q rest := by
  have hsz := h.sz_eq
  have hle := h.length_le
  refine ⟨hsz, ?_, ?_⟩
  · simp only [List.length_append, List.length_take]
    omega
  · rw [List.append_assoc, List.take_append_drop]
    exact h.append_eq

end PartialPdu.Within

namespace Reader

variable {pdus : List Bytes} {c : Reader}

/-- What is in the buffer and in the stream makes up these PDUs. -/
def Remains (c : Reader) (rest : List Bytes) : Prop :=
  match c.rpdu with
  | none => c.stream = rest.flatten
  | some p => ∃ q rest', rest = q :: rest' ∧ p.Within c.stream q rest'

/-- The PDUs that have not been accepted can still be read. -/
structure Reads (pdus : List Bytes) (c : Reader) : Prop where
  alive : c.dead = false
  inOrder : InOrder pdus c.offers
  remains : ∃ rest, pdus = accepted c.offers ++ rest ∧ c.Remains rest

theorem reads_init (pdus : List Bytes) : Reads pdus (reader pdus.flatten).init :=
  ⟨rfl, fun pre o post h => by simp [reader] at h, pdus, rfl, rfl⟩

/-- The state in front of an offer: `q` is next, and a part of it or all of it is in the buffer. -/
structure Offers (pdus : List Bytes) (c : Reader) : Prop where
  alive : c.dead = false
  inOrder : InOrder pdus c.offers
  next : ∃ p q rest, c.rpdu = some p ∧ p.Within c.stream q rest ∧
    pdus = accepted c.offers ++ q :: rest

theorem Offers.reads (h : Offers pdus c) (b : Bool) : Reads pdus (c.offer b) := by
  obtain ⟨p, q, rest, hp, hwithin, hpdus⟩ := h.next
  rw [offer, hp]
  dsimp only
  split
  · rename_i hfull
    obtain ⟨rfl, hstream⟩ := hwithin.buf_eq hfull
    have hpre : accepted c.offers ++ [p.buf] <+: pdus := ⟨rest, by rw [hpdus]; simp⟩
    refine ⟨h.alive, h.inOrder.concat hpre b, ?_⟩
    cases b with
    | true =>
      refine ⟨rest, ?_, hstream⟩
      rw [hpdus, accepted_append]
      simp [accepted]
    | false =>
      refine ⟨p.buf :: rest, ?_, p.buf, rest, rfl, hwithin⟩
      rw [hpdus, accepted_append]
      simp [accepted]
  · refine ⟨h.alive, h.inOrder, q :: rest, hpdus, ?_⟩
    rw [Remains, hp]
    exact ⟨q, rest, rfl, hwithin⟩

/-- Reading the rest of a PDU succeeds and leaves it to be offered. -/
theorem Offers.readRest (h : Offers pdus c) {p : PartialPdu} (hp : c.rpdu = some p) {r : ReadResult}
    (hr : restArrives (p.sz - p.buf.length) c.stream r = true) :
    ∃ d, c.readRest p r = some (true, d) ∧ Offers pdus d := by
  cases r with
  | got n =>
    have hn : 1 ≤ n ∧ n ≤ p.sz - p.buf.length ∧ n ≤ c.stream.length := of_decide_eq_true hr
    obtain ⟨p', q, rest, hp', hwithin, hpdus⟩ := h.next
    rw [hp] at hp'
    cases hp'
    exact ⟨_, if_pos hr, h.alive, h.inOrder, _, q, rest, rfl, hwithin.append hn.2.1 hn.2.2, hpdus⟩
  | zero eagain => cases hr
  | fail eagain => exact ⟨c, if_pos hr, h⟩

theorem Reads.offers (h : Reads pdus c) {p : PartialPdu} (hp : c.rpdu = some p) :
    Offers pdus c := by
  obtain ⟨rest, hpdus, hremains⟩ := h.remains
  rw [Remains, hp] at hremains
  obtain ⟨q, rest', rfl, hwithin⟩ := hremains
  exact ⟨h.alive, h.inOrder, p, q, rest', hp, hwithin, hpdus⟩

/-- The first bytes of a stream of PDUs are the size of the first one. -/
theorem within_take_four {q : Bytes} (hq : Framed q) (rest : List Bytes) :
    (q ++ rest.flatten).take 4 = q.take 4 ∧
      PartialPdu.Within ⟨q.length, q.take 4⟩ ((q ++ rest.flatten).drop 4) q rest := by
  have hlen : 4 ≤ q.length := le_trans (by decide) hq.header_le
  refine ⟨List.take_append_of_le_length hlen, rfl, by simp, ?_⟩
  rw [List.drop_append_of_le_length hlen, ← List.append_assoc, List.take_append_drop]

/-- In front of a PDU, four bytes are its size, and with them in the buffer it is next. -/
theorem Reads.size (hframed : ∀ q ∈ pdus, Framed q) (h : Reads pdus c) (hp : c.rpdu = none)
    (hne : c.stream ≠ []) :
    ∃ q, Framed q ∧ c.stream.take 4 = q.take 4 ∧
      Offers pdus ⟨some ⟨q.length, q.take 4⟩, c.dead, c.stream.drop 4, c.offers⟩ := by
  obtain ⟨rest, hpdus, hremains⟩ := h.remains
  rw [Remains, hp] at hremains
  cases rest with
  | nil => exact absurd hremains hne
  | cons q rest =>
    have hq : Framed q := hframed q (by rw [hpdus]; simp)
    obtain ⟨htake, hwithin⟩ := within_take_four hq rest
    rw [← List.flatten_cons, ← hremains] at htake hwithin
    exact ⟨q, hq, htake, h.alive, h.inOrder, _, q, rest, rfl, hwithin, hpdus⟩

/-- Reading the size of a PDU in one piece succeeds as well. -/
theorem Reads.readpdu (hframed : ∀ q ∈ pdus, Framed q) (h : Reads pdus c) {e : ReadCb}
    (harrives : c.arrives e = true) (hwhole : c.sizeWhole e = true) (hmore : c.wantsMore = true) :
    ∃ d, c.readpdu e.size e.rest = some (true, d) ∧ Offers pdus d := by
  cases hp : c.rpdu with
  | some p =>
    have hlt : p.buf.length < p.sz := by simpa [wantsMore, hp] using hmore
    have hrest : restArrives (p.sz - p.buf.length) c.stream e.rest = true := by
      simpa [arrives, hp, hlt.ne] using harrives
    have hread : c.readpdu e.size e.rest = c.readRest p e.rest := by simp [Reader.readpdu, hp]
    rw [hread]
    exact (h.offers hp).readRest hp hrest
  | none =>
    have hsize : e.size = .got 4 := by simpa [sizeWhole, hp] using hwhole
    simp only [arrives, hp, hsize, Bool.and_eq_true] at harrives
    obtain ⟨hreturns, hrest⟩ := harrives
    have hne : c.stream ≠ [] := by
      intro hnil
      rw [hnil] at hreturns
      cases hreturns
    obtain ⟨q, hq, htake, hoffers⟩ := h.size hframed hp hne
    have hmax := hq.le_max
    have hmin : 4 ≤ q.length := le_trans (by decide) hq.header_le
    have hread : c.readpdu e.size e.rest =
        Reader.readRest ⟨some ⟨q.length, q.take 4⟩, c.dead, c.stream.drop 4, c.offers⟩
          ⟨q.length, q.take 4⟩ e.rest := by
      simp [Reader.readpdu, hp, hsize, hreturns, htake, hq.size_eq, Nat.not_lt.mpr hmax, hmin]
    rw [hread]
    apply hoffers.readRest rfl
    simpa [htake, hq.size_eq, hmin] using hrest

theorem Reads.readCb (hframed : ∀ q ∈ pdus, Framed q) (h : Reads pdus c) {e : ReadCb}
    (harrives : c.arrives e = true) (hwhole : c.sizeWhole e = true) :
    ∃ d, c.readCb e = some d ∧ Reads pdus d := by
  rw [Reader.readCb, h.alive]
  by_cases hmore : c.wantsMore = true
  · obtain ⟨d, hd, hoffers⟩ := h.readpdu hframed harrives hwhole hmore
    have hoffers' : Offers pdus { d with dead := !true } := ⟨rfl, hoffers.inOrder, hoffers.next⟩
    refine ⟨_, ?_, hoffers'.reads e.accept⟩
    simp [hmore, hd]
  · cases hp : c.rpdu with
    | none => simp [wantsMore, hp] at hmore
    | some p =>
      refine ⟨c.offer e.accept, ?_, (h.offers hp).reads e.accept⟩
      simp [hmore]

theorem alive_of_readCb {d : Reader} {e : ReadCb} (h : c.readCb e = some d) (hd : d.dead = false) :
    c.dead = false := by
  cases hc : c.dead with
  | false => rfl
  | true =>
    rw [Reader.readCb, hc] at h
    cases h
    exact hc.symm.trans hd

/-- A part of a size is the end of the connection. -/
theorem dead_of_not_sizeWhole (halive : c.dead = false) {e : ReadCb} (harrives : c.arrives e = true)
    (hwhole : c.sizeWhole e ≠ true) : ∃ d, c.readCb e = some d ∧ d.dead = true := by
  cases hp : c.rpdu with
  | some p => simp [sizeWhole, hp] at hwhole
  | none =>
    cases hsize : e.size with
    | zero eagain => simp [arrives, hp, hsize] at harrives
    | fail eagain => simp [arrives, hp, hsize] at harrives
    | got n =>
      have hn : n ≠ 4 := by simpa [sizeWhole, hp, hsize] using hwhole
      have hreturns : ReadResult.returns 4 c.stream n = true := by
        simp only [arrives, hp, hsize, Bool.and_eq_true] at harrives
        exact harrives.1
      have hread :
          c.readpdu e.size e.rest = some (false, { c with stream := c.stream.drop n }) := by
        simp [Reader.readpdu, hp, hsize, hreturns, hn]
      refine ⟨{ c with stream := c.stream.drop n, dead := true }, ?_, rfl⟩
      simp [Reader.readCb, halive, wantsMore, hp, hread, offer]

/-- With nothing in the buffer and in the stream, all PDUs have been accepted. -/
theorem Reads.accepted_eq (hframed : ∀ q ∈ pdus, Framed q) (h : Reads pdus c)
    (hstream : c.stream = []) (hrpdu : c.rpdu = none) : accepted c.offers = pdus := by
  obtain ⟨rest, hpdus, hremains⟩ := h.remains
  rw [Remains, hrpdu] at hremains
  cases rest with
  | nil => rw [hpdus, List.append_nil]
  | cons q rest =>
    have hq : RPC_HEADER_SZ ≤ q.length := (hframed q (by rw [hpdus]; simp)).header_le
    dsimp only at hremains
    rw [hstream, List.flatten_cons] at hremains
    have hnil : q = [] := (List.append_eq_nil_iff.mp hremains.symm).1
    rw [hnil] at hq
    exact absurd hq (by decide)

end Reader

/-- However the stream is cut and whichever offers are refused, the PDUs are reassembled just when
the size of each of them is read in one piece. -/
theorem reassembles_iff (pdus : List Bytes) (hframed : ∀ q ∈ pdus, Framed q) (es : List ReadCb)
    (h : (reader pdus.flatten).Along (fun c e => c.arrives e = true)
      (reader pdus.flatten).init es) :
    Reassembles pdus es ↔ (reader pdus.flatten).Along (fun c e => c.sizeWhole e = true)
      (reader pdus.flatten).init es := by
  have hiff := Machine.Along.throughout_iff (m := reader pdus.flatten)
    (P := fun c => c.dead = false) (I := Reader.Reads pdus) (C := fun c e => c.sizeWhole e = true)
    (fun c hc => hc.alive)
    (fun c e d hc harrives hwhole hd => by
      obtain ⟨d', hd', hreads⟩ := hc.readCb hframed harrives hwhole
      cases hd'.symm.trans hd
      exact hreads)
    (fun c e hc harrives halive => by
      by_contra hwhole
      obtain ⟨d, hd, hdead⟩ := Reader.dead_of_not_sizeWhole hc.alive harrives hwhole
      cases hdead.symm.trans (halive d hd))
    (Reader.reads_init pdus) h
  constructor
  · rintro ⟨c, hc, halive, -⟩
    exact hiff.mp (Machine.throughout_of_runFrom (fun _ _ _ => Reader.alive_of_readCb) hc halive)
  · intro hwhole
    obtain ⟨c, hc, hreads⟩ := Machine.Along.progress (m := reader pdus.flatten)
      (I := Reader.Reads pdus) (fun c e hc he => hc.readCb hframed he.1 he.2)
      (Reader.reads_init pdus) (h.and hwhole)
    obtain ⟨rest, hpdus, -⟩ := hreads.remains
    exact ⟨c, hc, hreads.alive, hreads.inOrder, ⟨rest, hpdus.symm⟩, hreads.accepted_eq hframed⟩

def sized (buf : Bytes) : Bytes :=
  BigEndian.toBytes 4 (BitVec.ofNat 32 buf.length) ++ buf.drop 4

theorem length_sized {buf : Bytes} (h : 4 ≤ buf.length) : (sized buf).length = buf.length := by
  rw [sized, List.length_append, BigEndian.length_toBytes, List.length_drop]
  omega

theorem drop_sized (buf : Bytes) : (sized buf).drop 4 = buf.drop 4 := by
  rw [sized, List.drop_left' (BigEndian.length_toBytes ..)]

theorem sizeOf_sized {buf : Bytes} (h : buf.length < 2 ^ 31) :
    Reader.sizeOf ((sized buf).take 4) = buf.length := by
  have hnat : (BitVec.ofNat 32 buf.length).toNat = buf.length := by
    rw [BitVec.toNat_ofNat, Nat.mod_eq_of_lt (by omega)]
  rw [sized, List.take_left' (BigEndian.length_toBytes ..), Reader.sizeOf,
    BigEndian.ofBytes_toBytes _ (by decide), BitVec.toInt_eq_toNat_of_lt (by omega), hnat]

theorem framed_sized {buf : Bytes} (hmin : RPC_HEADER_SZ ≤ buf.length)
    (hmax : buf.length ≤ MAX_PDU) : Framed (sized buf) := by
  have hlen : (sized buf).length = buf.length := length_sized (le_trans (by decide) hmin)
  have hbound : buf.length < 2 ^ 31 := lt_of_le_of_lt hmax (by decide)
  exact ⟨hlen ▸ hmin, hlen ▸ hmax, by rw [sizeOf_sized hbound, hlen]⟩

def uniformPdu (n : ℕ) : Bytes := sized (List.replicate n 7)

def splitReads : List ReadCb :=
  [⟨.got 4, .fail true, true⟩, ⟨.fail true, .got 7, true⟩, ⟨.fail true, .got 13, false⟩,
    ⟨.fail true, .fail true, true⟩, ⟨.got 4, .got 22, true⟩]

theorem reassembles_iff_splitReads :
    (reader [uniformPdu 24, uniformPdu 26].flatten).Along (fun c e => c.arrives e = true)
        (reader [uniformPdu 24, uniformPdu 26].flatten).init splitReads ∧
      Reassembles [uniformPdu 24, uniformPdu 26] splitReads :=
  ⟨by decide, (reassembles_iff _ (by
    intro q hq
    rcases List.mem_pair.mp hq with rfl | rfl
    · exact framed_sized (by decide) (by decide)
    · exact framed_sized (by decide) (by decide)) _ (by decide)).mpr (by decide)⟩

/-- A connection that gets two of the four bytes of a size is given up. -/
theorem short_size_read :
    Framed (uniformPdu 24) ∧
      (reader [uniformPdu 24].flatten).Along (fun c e => c.arrives e = true)
        (reader [uniformPdu 24].flatten).init [⟨.got 2, .fail true, true⟩] ∧
      ¬ Reassembles [uniformPdu 24] [⟨.got 2, .fail true, true⟩] := by
  refine ⟨framed_sized (by decide) (by decide), by decide, ?_⟩
  rintro ⟨c, hc, halive, -⟩
  have hdead : ((reader [uniformPdu 24].flatten).run [⟨.got 2, .fail true, true⟩]).any Reader.dead =
      true := by decide
  rw [hc, Option.any_some, halive] at hdead
  cases hdead

end YFS.Rpc
