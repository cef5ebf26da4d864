import YFS.Library.Decimal
import YFS.Library.Memory
import YFS.Library.OrderedMap

/-! # Marshalling

`marshall` and `unmarshall` with their operators. A word of `w` bits stands for the signed and
for the unsigned integer of that width. A result `none` is a write outside the buffer of a
`marshall`, a buffer whose size is not an `int`, or a read outside the buffer of an
`unmarshall`.
-/

namespace YFS.Rpc
open YFS.Library

def DEFAULT_RPC_SZ : ℕ := 1024

/-- Four bytes for the size of the PDU and the five words of the larger header. -/
def RPC_HEADER_SZ : ℕ := 24

def MAX_PDU : ℕ := 10 * 2 ^ 20

def lowByte {w : ℕ} (x : BitVec w) : UInt8 := ⟨(x &&& BitVec.ofNat w 0xff).setWidth 8⟩

/-- `marshall`; `buf` is the memory from `_buf` on, with arbitrary values where nothing has been
written. -/
structure Marshall where
  buf : ℕ → UInt8
  capa : ℕ
  ind : ℕ

abbrev Put := StateT Marshall Option Unit

namespace Marshall

def new (mem : ℕ → UInt8) : Marshall := ⟨mem, DEFAULT_RPC_SZ, RPC_HEADER_SZ⟩

def realloc (capa : ℕ) : Put := fun m =>
  if capa < 2 ^ 31 then some ((), { m with capa := capa }) else none

/-- Copies the bytes to `_buf + _ind` and moves `_ind` behind them. No byte may land at or beyond
the capacity. -/
def store (p : Bytes) : Put := fun m =>
  if m.ind + p.length ≤ m.capa then
    some ((), ⟨Memory.overwrite m.buf m.ind p, m.capa, m.ind + p.length⟩)
  else none

def rawbyte (x : UInt8) : Put := do
  let m ← get
  if m.ind ≥ m.capa then realloc (2 * m.capa)
  store [x]

def rawbytes (p : Bytes) : Put := do
  let m ← get
  if m.ind + p.length > m.capa then
    realloc (if m.capa > p.length then 2 * m.capa else m.capa + p.length)
  store p

def putBool (x : Bool) : Put := rawbyte (if x then 1 else 0)

def putUchar (x : BitVec 8) : Put := rawbyte ⟨x⟩

def putChar (x : BitVec 8) : Put := putUchar x

def putUshort (x : BitVec 16) : Put := do
  rawbyte (lowByte (x >>> 8))
  rawbyte (lowByte x)

def putShort (x : BitVec 16) : Put := putUshort x

def putUint (x : BitVec 32) : Put := do
  rawbyte (lowByte (x >>> 24))
  rawbyte (lowByte (x >>> 16))
  rawbyte (lowByte (x >>> 8))
  rawbyte (lowByte x)

def putInt (x : BitVec 32) : Put := putUint x

def putString (s : Bytes) : Put := do
  putUint (BitVec.ofNat 32 s.length)
  rawbytes s

def putUll (x : BitVec 64) : Put := do
  putUint ((x >>> 32).setWidth 32)
  putUint (x.setWidth 32)

/-- `marshall::pack`; the argument is an `int`, so its sign is shifted in. -/
def pack (x : BitVec 32) : Put := do
  rawbyte (lowByte (x.sshiftRight 24))
  rawbyte (lowByte (x.sshiftRight 16))
  rawbyte (lowByte (x.sshiftRight 8))
  rawbyte (lowByte x)

def seek (i : ℕ) : Put := modify fun m => { m with ind := i }

/-- The words of a header go behind the four bytes for the size; `_ind` is restored. -/
def packHeader (ws : List (BitVec 32)) : Put := do
  let m ← get
  seek 4
  ws.forM pack
  seek m.ind

def putVector {α : Type} (put : α → Put) (v : List α) : Put := do
  putUint (BitVec.ofNat 32 v.length)
  v.forM put

/-- `operator<<` of `std::map`, whose entries are iterated in the order of their keys. -/
def putMap {κ β : Type} {c : Comparator κ} (putKey : κ → Put) (putVal : β → Put)
    (d : OrderedMap c β) : Put := do
  putUint (BitVec.ofNat 32 d.val.length)
  d.val.forM fun p => do
    putKey p.1
    putVal p.2

def takeBuf (m : Marshall) : Bytes := Memory.region m.buf 0 m.ind

end Marshall

/-- `unmarshall`; `_sz` is the length of `buf`. -/
structure Unmarshall where
  buf : Bytes
  ind : ℕ
  ok : Bool
  deriving DecidableEq, Repr

abbrev Get (α : Type) := StateT Unmarshall Option α

namespace Unmarshall

def new (buf : Bytes) : Unmarshall := ⟨buf, 0, true⟩

def takeIn (buf : Bytes) : Unmarshall := ⟨buf, RPC_HEADER_SZ, decide (RPC_HEADER_SZ ≤ buf.length)⟩

def okdone (u : Unmarshall) : Bool := u.ok && u.ind == u.buf.length

/-- The byte is a `char` that is widened to `unsigned int` with its sign. -/
def rawbyte : Get (BitVec 32) := fun u =>
  match u.buf[u.ind]? with
  | none => some (0, { u with ok := false })
  | some c => some (c.toBitVec.signExtend 32, { u with ind := u.ind + 1 })

/-- `_ind + n` is compared in 32 bits; the bytes are then read wherever they are. The string stays
empty when the comparison fails. -/
def rawbytes (n : BitVec 32) : Get Bytes := fun u =>
  if (u.ind + n.toNat) % 2 ^ 32 > u.buf.length then some ([], { u with ok := false })
  else if u.ind + n.toNat ≤ u.buf.length then
    some ((u.buf.drop u.ind).take n.toNat, { u with ind := u.ind + n.toNat })
  else none

def getBool : Get Bool := do
  let x ← rawbyte
  pure (x != 0)

def getUchar : Get (BitVec 8) := do
  let x ← rawbyte
  pure (x.setWidth 8)

def getChar : Get (BitVec 8) := getUchar

def getUshort : Get (BitVec 16) := do
  let a ← rawbyte
  let x := ((a &&& 0xff) <<< 8).setWidth 16
  let b ← rawbyte
  pure (x ||| (b &&& 0xff).setWidth 16)

def getShort : Get (BitVec 16) := getUshort

def getUint : Get (BitVec 32) := do
  let a ← rawbyte
  let b ← rawbyte
  let c ← rawbyte
  let d ← rawbyte
  pure ((a &&& 0xff) <<< 24 ||| (b &&& 0xff) <<< 16 ||| (c &&& 0xff) <<< 8 ||| (d &&& 0xff))

def getInt : Get (BitVec 32) := getUint

def getUll : Get (BitVec 64) := do
  let h ← getUint
  let l ← getUint
  pure (l.setWidth 64 ||| h.setWidth 64 <<< 32)

def getString : Get Bytes := do
  let sz ← getUint
  let u ← get
  if u.ok then rawbytes sz else pure []

def unpack : Get (BitVec 32) := getUint

def seek (i : ℕ) : Get Unit := modify fun u => { u with ind := i }

/-- As many turns of a loop as a counter read from the message says. -/
def loop {σ : Type} (body : σ → Get σ) : ℕ → σ → Get σ
  | 0, s => pure s
  | n + 1, s => do
    let s ← body s
    loop body n s

def getVector {α : Type} (get : Get α) : Get (List α) := do
  let n ← getUint
  loop (fun v => do
    let z ← get
    pure (v ++ [z])) n.toNat []

def getMap {κ β : Type} {c : Comparator κ} (getKey : Get κ) (getVal : Get β) :
    Get (OrderedMap c β) := do
  let n ← getUint
  loop (fun d => do
    let a ← getKey
    let b ← getVal
    pure (d.insert a b)) n.toNat OrderedMap.empty

end Unmarshall

/-- `req_header` and `reply_header` with the words they are packed as. -/
inductive Header where
  | req (xid proc cltNonce srvNonce xidRep : BitVec 32)
  | reply (xid ret : BitVec 32)
  deriving DecidableEq, Repr

namespace Header

def words : Header → List (BitVec 32)
  | .req xid proc cltNonce srvNonce xidRep => [xid, proc, cltNonce, srvNonce, xidRep]
  | .reply xid ret => [xid, ret]

def pack (h : Header) : Put := Marshall.packHeader h.words

/-- The words behind the size of the PDU are read, and `_ind` is moved to the payload. -/
def unpackWith {α : Type} (words : Get α) : Get α := do
  Unmarshall.seek 4
  let h ← words
  Unmarshall.seek RPC_HEADER_SZ
  pure h

def unpackReq : Get Header := unpackWith do
  let xid ← Unmarshall.unpack
  let proc ← Unmarshall.unpack
  let cltNonce ← Unmarshall.unpack
  let srvNonce ← Unmarshall.unpack
  let xidRep ← Unmarshall.unpack
  pure (.req xid proc cltNonce srvNonce xidRep)

def unpackReply : Get Header := unpackWith do
  let xid ← Unmarshall.unpack
  let ret ← Unmarshall.unpack
  pure (.reply xid ret)

def unpackLike : Header → Get Header
  | .req .. => unpackReq
  | .reply .. => unpackReply

end Header

/-- `extent_protocol::attr` with fields of the width they are sent in. -/
structure AttrWords where
  atime : BitVec 32
  mtime : BitVec 32
  ctime : BitVec 32
  size : BitVec 32
  deriving DecidableEq, Repr

def AttrWords.put (a : AttrWords) : Put := do
  Marshall.putUint a.atime
  Marshall.putUint a.mtime
  Marshall.putUint a.ctime
  Marshall.putUint a.size

def AttrWords.get : Get AttrWords := do
  let atime ← Unmarshall.getUint
  let mtime ← Unmarshall.getUint
  let ctime ← Unmarshall.getUint
  let size ← Unmarshall.getUint
  pure ⟨atime, mtime, ctime, size⟩

/-- The types with marshalling operators. -/
inductive Ty where
  | bool
  | char
  | uchar
  | short
  | ushort
  | int
  | uint
  | ull
  | string
  | attr
  | vector (t : Ty)
  | map (k v : Ty)
  deriving DecidableEq, Repr

/-- The values of a type with the comparison that `std::map` uses for keys of the type. -/
structure Carrier where
  Val : Type
  order : Comparator Val

namespace Carrier

def signed (w : ℕ) : Carrier := ⟨BitVec w, (Comparator.ofLinearOrder ℤ).comap BitVec.toInt⟩

def unsigned (w : ℕ) : Carrier := ⟨BitVec w, (Comparator.ofLinearOrder ℕ).comap BitVec.toNat⟩

end Carrier

namespace Ty

def carrier : Ty → Carrier
  | bool => ⟨Bool, Comparator.ofLinearOrder Bool⟩
  | char => Carrier.signed 8
  | uchar => Carrier.unsigned 8
  | short => Carrier.signed 16
  | ushort => Carrier.unsigned 16
  | int => Carrier.signed 32
  | uint => Carrier.unsigned 32
  | ull => Carrier.unsigned 64
  | string => ⟨Bytes, ((Comparator.ofLinearOrder ℕ).comap UInt8.toNat).list⟩
  -- there is no `operator<` for `attr`, and no map has such keys
  | attr => ⟨AttrWords, (Comparator.ofLinearOrder ℕ).comap fun _ => 0⟩
  | vector t => ⟨List t.carrier.Val, t.carrier.order.list⟩
  | map k v => ⟨OrderedMap k.carrier.order v.carrier.Val,
      ((k.carrier.order.prod v.carrier.order).list).comap Subtype.val⟩

abbrev Val (t : Ty) : Type := t.carrier.Val

def put : (t : Ty) → t.Val → Put
  | bool, x => Marshall.putBool x
  | char, x => Marshall.putChar x
  | uchar, x => Marshall.putUchar x
  | short, x => Marshall.putShort x
  | ushort, x => Marshall.putUshort x
  | int, x => Marshall.putInt x
  | uint, x => Marshall.putUint x
  | ull, x => Marshall.putUll x
  | string, x => Marshall.putString x
  | attr, x => AttrWords.put x
  | vector t, x => Marshall.putVector t.put x
  | map k v, x => Marshall.putMap k.put v.put x

def get : (t : Ty) → Get t.Val
  | bool => Unmarshall.getBool
  | char => Unmarshall.getChar
  | uchar => Unmarshall.getUchar
  | short => Unmarshall.getShort
  | ushort => Unmarshall.getUshort
  | int => Unmarshall.getInt
  | uint => Unmarshall.getUint
  | ull => Unmarshall.getUll
  | string => Unmarshall.getString
  | attr => AttrWords.get
  | vector t => Unmarshall.getVector t.get
  | map k v => Unmarshall.getMap k.get v.get

end Ty

abbrev Value := (t : Ty) × t.Val

def putAll (vs : List Value) : Put := vs.forM fun v => v.1.put v.2

def getAll : List Ty → Get (List Value)
  | [] => pure []
  | t :: ts => do
    let x ← t.get
    let vs ← getAll ts
    pure (⟨t, x⟩ :: vs)

end YFS.Rpc
