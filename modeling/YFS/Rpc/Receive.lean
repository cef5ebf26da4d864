import YFS.Rpc.Connection

/-! # The receive buffer

`readpdu` and `read_cb` with the numbers they compute with: `sz` and `solong` are `int`s, the
buffer has the number of bytes that was asked of `malloc`, and a count given to `read` is
converted to a `size_t` of 32 bits. The size is whatever the peer has sent.
-/

namespace YFS.Rpc
open YFS.Library

/-- `rpdu_`; a buffer is given by its size, `none` for `NULL`. -/
structure Rpdu where
  buf : Option ℕ
  sz : ℤ
  solong : ℤ
  deriving DecidableEq, Repr

/-- What the read of the size gives: a number of bytes, with the value in host order when there are
four of them, zero, or -1 with whether `errno` is `EAGAIN`. -/
inductive SizeRead where
  | got (n : ℕ) (sz : BitVec 32)
  | zero
  | fail (eagain : Bool)
  deriving DecidableEq, Repr

/-- A call of `read_cb`: the results of its reads as far as it comes to them, whether `malloc`
succeeds, and the answer of `got_pdu`. -/
structure Recv where
  size : SizeRead
  malloc : Bool
  rest : ReadResult
  accept : Bool
  deriving DecidableEq, Repr

/-- How the first half of `readpdu` ends: it returns false, a `VERIFY` fails, or the rest is read. -/
inductive HeaderRead where
  | fails
  | aborts
  | reads (p : Rpdu)

namespace Rpdu

def empty : Rpdu := ⟨none, 0, 0⟩

def header (p : Rpdu) (e : Recv) : HeaderRead :=
  if p.sz ≠ 0 then .reads p
  else
    match e.size with
    | .zero => .fails
    | .fail eagain => if eagain then .aborts else .fails
    | .got n sz =>
      if n ≠ 4 then .fails
      else if sz.toInt > MAX_PDU then .fails
      else if p.buf.isSome then .aborts
      else if e.malloc then .reads ⟨some ((sz.toInt + 4) % 2 ^ 32).toNat, sz.toInt, 4⟩
      else .aborts

/-- The number of bytes the second `read` is asked for, before it becomes a `size_t`. -/
def asked (p : Rpdu) : ℤ := p.sz - p.solong

/-- The second half of `readpdu`; `none` if `read` cannot return this. -/
def readRest (p : Rpdu) : ReadResult → Option (Bool × Rpdu)
  | .got n =>
    if 1 ≤ n ∧ (n : ℤ) ≤ p.asked % 2 ^ 32 then some (true, { p with solong := p.solong + n })
    else none
  | .zero eagain | .fail eagain => if eagain then some (true, p) else some (false, empty)

/-- No PDU is being received, or the sizes are in order and the buffer is large enough. -/
def InBounds (p : Rpdu) : Prop :=
  p = empty ∨ ∃ cap, p.buf = some cap ∧ 4 ≤ p.solong ∧ p.solong ≤ p.sz ∧ p.sz ≤ MAX_PDU ∧ p.sz ≤ cap

/-- The `read` stays inside the buffer. -/
def ReadFits (p : Rpdu) : Prop := ∃ cap, p.buf = some cap ∧ 0 ≤ p.asked ∧ p.solong + p.asked ≤ cap

end Rpdu

structure Receiver where
  rpdu : Rpdu
  dead : Bool
  deriving DecidableEq, Repr

namespace Receiver

def reads (c : Receiver) : Bool :=
  !c.dead && (c.rpdu.buf.isNone || decide (c.rpdu.solong < c.rpdu.sz))

def offer (c : Receiver) (accept : Bool) : Receiver :=
  if c.rpdu.buf.isSome ∧ c.rpdu.sz = c.rpdu.solong ∧ accept then { c with rpdu := .empty } else c

def readCb (c : Receiver) (e : Recv) : Option Receiver :=
  if c.dead then some c
  else if c.reads then
    match c.rpdu.header e with
    | .aborts => none
    | .fails => some ({ c with dead := true }.offer e.accept)
    | .reads p => (p.readRest e.rest).map fun (succ, p) => (⟨p, !succ⟩ : Receiver).offer e.accept
  else some (c.offer e.accept)

/-- Before the call, at its second `read` and after it the buffer is in bounds, and every size
outside the bounds makes `readpdu` fail. -/
structure Bounded (c : Receiver) (e : Recv) : Prop where
  before : c.rpdu.InBounds
  atRead : c.reads = true → ∀ p, c.rpdu.header e = .reads p → p.InBounds ∧ p.ReadFits
  refused : c.reads = true → c.rpdu.sz = 0 → ∀ sz, e.size = .got 4 sz →
    sz.toInt < 4 ∨ MAX_PDU < sz.toInt → c.rpdu.header e = .fails
  after : ∀ t, c.readCb e = some t → t.rpdu.InBounds

/-- A size that is read is at least 4. -/
def LargeSize (c : Receiver) (e : Recv) : Prop :=
  c.reads = true → c.rpdu.sz = 0 → ∀ sz, e.size = .got 4 sz → 4 ≤ sz.toInt

end Receiver

def receiver : Machine Receiver Recv where
  init := ⟨.empty, false⟩
  step := Receiver.readCb

/-! ## Bounds -/

namespace Rpdu

theorem inBounds_empty : empty.InBounds := .inl rfl

theorem InBounds.readFits {p : Rpdu} (h : p.InBounds) (hsz : p.sz ≠ 0) : p.ReadFits := by
  rcases h with rfl | ⟨cap, hbuf, h4, hle, -, hcap⟩
  · exact absurd rfl hsz
  · exact ⟨cap, hbuf, by rw [asked]; omega, by rw [asked]; omega⟩

theorem InBounds.header {p q : Rpdu} {e : Recv} (h : p.InBounds)
    (hlarge : p.sz = 0 → ∀ sz, e.size = .got 4 sz → 4 ≤ sz.toInt) (hq : p.header e = .reads q) :
    q.InBounds ∧ q.sz ≠ 0 := by
  rw [Rpdu.header] at hq
  by_cases hsz : p.sz ≠ 0
  · rw [if_pos hsz] at hq
    cases hq
    exact ⟨h, hsz⟩
  · rw [if_neg hsz] at hq
    cases hsize : e.size with
    | zero => simp [hsize] at hq
    | fail eagain => cases eagain <;> simp [hsize] at hq
    | got n sz =>
      simp only [hsize] at hq
      split_ifs at hq with hn hmax hbuf hmalloc
      cases hq
      have h4 : 4 ≤ sz.toInt := hlarge (not_not.mp hsz) sz (by rw [hsize, not_not.mp hn])
      have hcap : (sz.toInt + 4) % 2 ^ 32 = sz.toInt + 4 := by
        apply Int.emod_eq_of_lt <;> simp only [MAX_PDU] at hmax <;> omega
      refine ⟨.inr ⟨_, rfl, le_rfl, h4, not_lt.mp hmax, ?_⟩, by dsimp only; omega⟩
      rw [hcap]
      dsimp only
      omega

theorem InBounds.readRest {p q : Rpdu} {r : ReadResult} {succ : Bool} (h : p.InBounds)
    (hq : p.readRest r = some (succ, q)) : q.InBounds := by
  cases r with
  | got n =>
    rw [Rpdu.readRest] at hq
    split_ifs at hq with hn
    cases hq
    rcases h with rfl | ⟨cap, hbuf, h4, hle, hmax, hcap⟩
    · have : (n : ℤ) ≤ 0 := hn.2
      omega
    · have hmod : p.asked % 2 ^ 32 = p.asked := by
        apply Int.emod_eq_of_lt <;> simp only [asked, MAX_PDU] at hmax ⊢ <;> omega
      rw [hmod, asked] at hn
      exact .inr ⟨cap, hbuf, by dsimp only; omega, by dsimp only; omega, hmax, hcap⟩
  | zero eagain =>
    cases eagain <;> cases hq
    · exact inBounds_empty
    · exact h
  | fail eagain =>
    cases eagain <;> cases hq
    · exact inBounds_empty
    · exact h

end Rpdu

namespace Receiver

theorem inBounds_offer {c : Receiver} (h : c.rpdu.InBounds) (accept : Bool) :
    (c.offer accept).rpdu.InBounds := by
  rw [offer]
  split_ifs
  · exact Rpdu.inBounds_empty
  · exact h

theorem inBounds_readCb {c t : Receiver} {e : Recv} (h : c.rpdu.InBounds) (hlarge : c.LargeSize e)
    (ht : c.readCb e = some t) : t.rpdu.InBounds := by
  rw [readCb] at ht
  split_ifs at ht with hdead hreads
  · cases ht
    exact h
  · cases hh : c.rpdu.header e with
    | fails =>
      simp only [hh] at ht
      cases ht
      exact inBounds_offer (c := ⟨c.rpdu, true⟩) h _
    | aborts => simp [hh] at ht
    | reads p =>
      simp only [hh] at ht
      obtain ⟨⟨succ, q⟩, hq, rfl⟩ := Option.map_eq_some_iff.mp ht
      exact inBounds_offer ((h.header (hlarge hreads) hh).1.readRest hq) _
  · cases ht
    exact inBounds_offer h _

/-- Where there is no PDU, a size of at most `MAX_PDU` is not refused. -/
theorem header_ne_fails {p : Rpdu} {e : Recv} {sz : BitVec 32} (hsz : p.sz = 0)
    (hsize : e.size = .got 4 sz) (hmax : sz.toInt ≤ MAX_PDU) : p.header e ≠ .fails := by
  rw [Rpdu.header, if_neg (not_not.mpr hsz), hsize]
  dsimp only
  rw [if_neg (not_not.mpr rfl), if_neg (by omega)]
  split_ifs <;> simp

theorem bounded_iff {c : Receiver} {e : Recv} (h : c.rpdu.InBounds) :
    c.Bounded e ↔ c.LargeSize e := by
  constructor
  · intro hb hreads hsz sz hsize
    by_contra hlt
    have hmax : sz.toInt ≤ MAX_PDU := by
      simp only [MAX_PDU]
      omega
    exact header_ne_fails hsz hsize hmax (hb.refused hreads hsz sz hsize (.inl (by omega)))
  · intro hlarge
    refine ⟨h, fun hreads p hp => ?_, fun hreads hsz sz hsize hout => ?_,
      fun t ht => inBounds_readCb h hlarge ht⟩
    · obtain ⟨hin, hne⟩ := h.header (hlarge hreads) hp
      exact ⟨hin, hin.readFits hne⟩
    · have h4 := hlarge hreads hsz sz hsize
      rw [Rpdu.header, if_neg (not_not.mpr hsz), hsize]
      dsimp only
      rw [if_neg (not_not.mpr rfl), if_pos (by omega)]

end Receiver

/-! ## The reader of whole PDUs -/

def Reader.receiver (c : Reader) : Receiver :=
  ⟨match c.rpdu with
    | none => .empty
    | some p => ⟨some (p.sz + 4), p.sz, p.buf.length⟩, c.dead⟩

/-- The same call of `read_cb`, with the size at the front of the stream. -/
def Reader.recv (c : Reader) (e : ReadCb) : Recv where
  size :=
    match e.size with
    | .got n => .got n (BigEndian.ofBytes 32 (c.stream.take 4))
    | .zero _ => .zero
    | .fail eagain => .fail eagain
  malloc := true
  rest := e.rest
  accept := e.accept

theorem Reader.receiver_offer (c : Reader) (accept : Bool) :
    (c.offer accept).receiver = c.receiver.offer accept := by
  cases hp : c.rpdu with
  | none => simp [Reader.offer, Reader.receiver, Receiver.offer, hp, Rpdu.empty]
  | some p =>
    by_cases hfull : p.sz = p.buf.length <;> cases accept <;>
      simp [Reader.offer, Reader.receiver, Receiver.offer, hp, hfull]

theorem Reader.receiver_reads (c : Reader) : c.receiver.reads = (!c.dead && c.wantsMore) := by
  cases hp : c.rpdu <;> simp [Receiver.reads, Reader.receiver, Reader.wantsMore, hp, Rpdu.empty]

theorem Reader.receiver_readRest {c d : Reader} {p : PartialPdu} {r : ReadResult} {succ : Bool}
    (hp : c.rpdu = some p) (hb : c.receiver.rpdu.InBounds) (h : c.readRest p r = some (succ, d)) :
    c.receiver.rpdu.readRest r = some (succ, d.receiver.rpdu) := by
  have hrpdu : c.receiver.rpdu = ⟨some (p.sz + 4), p.sz, p.buf.length⟩ := by
    simp only [Reader.receiver, hp]
  rw [hrpdu] at hb ⊢
  cases r with
  | got n =>
    rw [Reader.readRest] at h
    split_ifs at h with hn
    cases h
    have hn : 1 ≤ n ∧ n ≤ p.sz - p.buf.length ∧ n ≤ c.stream.length := of_decide_eq_true hn
    have hasked : Rpdu.asked ⟨some (p.sz + 4), p.sz, p.buf.length⟩ % 2 ^ 32 =
        (p.sz : ℤ) - p.buf.length := by
      rcases hb with hempty | ⟨cap, -, -, hle, hmax, -⟩
      · cases hempty
      · apply Int.emod_eq_of_lt <;> simp only [Rpdu.asked, MAX_PDU] at hle hmax ⊢ <;> omega
    rw [Rpdu.readRest, hasked, if_pos (by omega)]
    simp [Reader.receiver, List.length_take, hn.2.2]
  | zero eagain =>
    cases eagain <;> cases h
    · rfl
    · rw [← hrpdu]
      rfl
  | fail eagain =>
    cases eagain <;> cases h
    · rfl
    · rw [← hrpdu]
      rfl

theorem Rpdu.header_empty {e : Recv} {sz : BitVec 32} (hsize : e.size = .got 4 sz)
    (hmalloc : e.malloc = true) (hmax : sz.toInt ≤ MAX_PDU) :
    empty.header e = .reads ⟨some ((sz.toInt + 4) % 2 ^ 32).toNat, sz.toInt, 4⟩ := by
  simp [header, empty, hsize, hmalloc, not_lt.mpr hmax]

/-- The reader with the size of the next PDU in its buffer. -/
def Reader.started (c : Reader) : Reader :=
  { c with
    rpdu := some ⟨(sizeOf (c.stream.take 4)).toNat, c.stream.take 4⟩
    stream := c.stream.drop 4 }

theorem Reader.receiver_started {c : Reader} {e : ReadCb} (hsize : e.size = .got 4)
    (hlen : 4 ≤ c.stream.length) (hmin : 4 ≤ sizeOf (c.stream.take 4))
    (hmax : sizeOf (c.stream.take 4) ≤ MAX_PDU) :
    Rpdu.empty.header (c.recv e) = .reads c.started.receiver.rpdu := by
  have hrecv : (c.recv e).size = .got 4 (BigEndian.ofBytes 32 (c.stream.take 4)) := by
    simp only [Reader.recv, hsize]
  rw [Rpdu.header_empty hrecv rfl hmax]
  congr 1
  change Rpdu.mk (some ((sizeOf (c.stream.take 4) + 4) % 2 ^ 32).toNat) (sizeOf (c.stream.take 4)) 4 =
    ⟨some ((sizeOf (c.stream.take 4)).toNat + 4), ((sizeOf (c.stream.take 4)).toNat : ℤ),
      ((c.stream.take 4).length : ℤ)⟩
  have hmod : (sizeOf (c.stream.take 4) + 4) % 2 ^ 32 = sizeOf (c.stream.take 4) + 4 := by
    apply Int.emod_eq_of_lt <;> simp only [MAX_PDU] at hmax <;> omega
  rw [hmod, List.length_take_of_le hlen, Int.toNat_of_nonneg (by omega)]
  congr 2
  omega

theorem Reader.receiver_readpdu_size {c d : Reader} {e : ReadCb} {succ : Bool}
    (hp : c.rpdu = none) (h : c.readpdu e.size e.rest = some (succ, d)) :
    (Rpdu.empty.header (c.recv e) = .fails ∧ succ = false ∧ d.receiver = c.receiver) ∨
    ∃ p, Rpdu.empty.header (c.recv e) = .reads p ∧
      p.readRest e.rest = some (succ, d.receiver.rpdu) := by
  simp only [Reader.readpdu, hp] at h
  cases hsize : e.size with
  | zero eagain =>
    rw [hsize] at h
    cases h
    exact .inl ⟨by simp [Rpdu.header, Rpdu.empty, Reader.recv, hsize], rfl, rfl⟩
  | fail eagain =>
    rw [hsize] at h
    cases eagain <;> cases h
    exact .inl ⟨by simp [Rpdu.header, Rpdu.empty, Reader.recv, hsize], rfl, rfl⟩
  | got n =>
    simp only [hsize] at h
    split_ifs at h with hret h4 hmax hmin
    · cases h
      exact .inl ⟨by simp [Rpdu.header, Rpdu.empty, Reader.recv, hsize, h4], rfl,
        by simp only [Reader.receiver, hp]⟩
    · cases h
      have hbig : (BigEndian.ofBytes 32 (c.stream.take 4)).toInt > MAX_PDU := hmax
      exact .inl ⟨by simp [Rpdu.header, Rpdu.empty, Reader.recv, hsize, hbig], rfl,
        by simp only [Reader.receiver, hp]⟩
    · obtain rfl : n = 4 := not_not.mp h4
      have hlen : 4 ≤ c.stream.length := (of_decide_eq_true hret).2.2
      have hhead := receiver_started hsize hlen (not_lt.mp hmin) (not_lt.mp hmax)
      have hlarge : ∀ sz, (c.recv e).size = .got 4 sz → 4 ≤ sz.toInt := by
        intro sz hsz
        simp only [Reader.recv, hsize] at hsz
        cases hsz
        exact not_lt.mp hmin
      have hb' := (Rpdu.inBounds_empty.header (fun _ => hlarge) hhead).1
      exact .inr ⟨_, hhead, receiver_readRest (c := c.started) rfl hb' h⟩

/-- Where the reader is defined, the halves of `readpdu` are those of the receiver. -/
theorem Reader.receiver_readpdu {c d : Reader} {e : ReadCb} {succ : Bool}
    (hb : c.receiver.rpdu.InBounds) (h : c.readpdu e.size e.rest = some (succ, d)) :
    (c.receiver.rpdu.header (c.recv e) = .fails ∧ succ = false ∧ d.receiver = c.receiver) ∨
    ∃ p, c.receiver.rpdu.header (c.recv e) = .reads p ∧
      p.readRest e.rest = some (succ, d.receiver.rpdu) := by
  cases hp : c.rpdu with
  | some p =>
    have hsz : c.receiver.rpdu.sz ≠ 0 := by
      rcases hb with hempty | ⟨cap, -, h4, hle, -⟩
      · simp [Reader.receiver, hp, Rpdu.empty] at hempty
      · omega
    simp only [Reader.readpdu, hp] at h
    exact .inr ⟨_, if_pos hsz, receiver_readRest hp hb h⟩
  | none =>
    have hempty : c.receiver.rpdu = .empty := by simp only [Reader.receiver, hp]
    rw [hempty]
    exact Reader.receiver_readpdu_size hp h

/-- The reader is the receiver wherever it is defined. -/
theorem Reader.receiver_readCb {c d : Reader} {e : ReadCb} (hb : c.receiver.rpdu.InBounds)
    (h : c.readCb e = some d) : c.receiver.readCb (c.recv e) = some d.receiver := by
  have hreads := c.receiver_reads
  rw [Reader.readCb] at h
  rw [Receiver.readCb]
  split_ifs at h with hdead hmore
  · cases h
    exact if_pos hdead
  · obtain ⟨⟨succ, c'⟩, hread, hd⟩ := Option.bind_eq_some_iff.mp h
    cases hd
    rw [if_neg (show ¬ c.receiver.dead = true from hdead), if_pos (by simp [hreads, hdead, hmore])]
    rcases receiver_readpdu hb hread with ⟨hf, rfl, hsame⟩ | ⟨p, hp, hrest⟩
    · rw [hf, receiver_offer]
      change some (Receiver.offer ⟨c.receiver.rpdu, true⟩ e.accept) = _
      rw [← hsame]
      rfl
    · rw [hp, receiver_offer]
      change (p.readRest e.rest).map _ = _
      rw [hrest]
      rfl
  · cases h
    rw [if_neg (show ¬ c.receiver.dead = true from hdead), if_neg (by simp [hreads, hmore]),
      receiver_offer]
    rfl

/-- The buffer stays in bounds in exactly those runs in which no size below 4 is read: `readpdu`
compares the size with `MAX_PDU` only. -/
theorem receive_bounded_iff (es : List Recv) :
    receiver.Along Receiver.Bounded receiver.init es ↔
      receiver.Along Receiver.LargeSize receiver.init es :=
  Machine.Along.congr (V := fun _ _ => True) (I := fun c => c.rpdu.InBounds)
    (fun _ _ _ hc _ hlarge ht => Receiver.inBounds_readCb hc hlarge ht)
    (fun _ _ hc _ => Receiver.bounded_iff hc) Rpdu.inBounds_empty
    (Machine.along_of_all (fun _ _ => trivial) _ es)

/-- The size 0: four bytes are in a PDU of none, and -4 bytes are asked for. -/
theorem receive_size_zero :
    ¬ receiver.Along Receiver.Bounded receiver.init [⟨.got 4 0, true, .fail true, true⟩] := by
  intro h
  have hfails := h.1.refused rfl rfl 0 rfl (.inl (by decide))
  exact Receiver.header_ne_fails rfl rfl (by decide) hfails

end YFS.Rpc
