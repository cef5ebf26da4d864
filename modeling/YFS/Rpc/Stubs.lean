import YFS.Rpc.Handler
import YFS.Rpc.RoundTrip

/-! # Stubs and handlers

The types that the stubs of the clients marshal and the signatures of the methods that are
registered under their procedure numbers, and a call from the stub's arguments to the result
it extracts. `size_t` has the width of `unsigned int`.
-/

namespace YFS.Rpc
open YFS.Library

namespace ExtentProtocol

def put : BitVec 32 := 0x6001
def get : BitVec 32 := 0x6002
def getattr : BitVec 32 := 0x6003
def remove : BitVec 32 := 0x6004
def resize : BitVec 32 := 0x6005
def getbuf : BitVec 32 := 0x6006
def putbuf : BitVec 32 := 0x6007

end ExtentProtocol

namespace LockProtocol

def acquire : BitVec 32 := 0x7001
def release : BitVec 32 := 0x7002
def stat : BitVec 32 := 0x7003

end LockProtocol

namespace RlockProtocol

def revoke : BitVec 32 := 0x8001
def retry : BitVec 32 := 0x8002

end RlockProtocol

def bindProc : BitVec 32 := 1

inductive Endpoint where
  | extentSmain
  | lockSmain
  | lockClientCache
  deriving DecidableEq, Repr

/-- The methods in the order in which they are registered; `rpcbind` comes with every `rpcs`. -/
def Endpoint.procs : Endpoint → List (BitVec 32 × Signature)
  | .extentSmain =>
    [(bindProc, ⟨[.int], .int⟩),
      (ExtentProtocol.get, ⟨[.ull], .string⟩),
      (ExtentProtocol.getattr, ⟨[.ull], .attr⟩),
      (ExtentProtocol.put, ⟨[.ull, .string], .int⟩),
      (ExtentProtocol.remove, ⟨[.ull], .int⟩),
      (ExtentProtocol.resize, ⟨[.ull, .uint], .int⟩),
      (ExtentProtocol.getbuf, ⟨[.ull, .uint, .uint], .string⟩),
      (ExtentProtocol.putbuf, ⟨[.ull, .uint, .string], .int⟩)]
  | .lockSmain =>
    [(bindProc, ⟨[.int], .int⟩),
      (LockProtocol.stat, ⟨[.ull], .int⟩),
      (LockProtocol.acquire, ⟨[.ull, .string], .int⟩),
      (LockProtocol.release, ⟨[.ull, .string], .int⟩)]
  | .lockClientCache =>
    [(bindProc, ⟨[.int], .int⟩),
      (RlockProtocol.revoke, ⟨[.ull], .int⟩),
      (RlockProtocol.retry, ⟨[.ull], .int⟩)]

/-- The calls of `extent_client`, of `lock_client_cache` with the `stat` it inherits from
`lock_client`, of the server's `retryer_rpc` and `revoker_rpc`, and `rpcc::bind`. -/
inductive Stub where
  | put
  | get
  | getattr
  | remove
  | resize
  | getbuf
  | putbuf
  | acquire
  | release
  | stat
  | retry
  | revoke
  | bind (e : Endpoint)
  deriving DecidableEq, Repr

namespace Stub

def endpoint : Stub → Endpoint
  | put | get | getattr | remove | resize | getbuf | putbuf => .extentSmain
  | acquire | release | stat => .lockSmain
  | retry | revoke => .lockClientCache
  | bind e => e

def proc : Stub → BitVec 32
  | put => ExtentProtocol.put
  | get => ExtentProtocol.get
  | getattr => ExtentProtocol.getattr
  | remove => ExtentProtocol.remove
  | resize => ExtentProtocol.resize
  | getbuf => ExtentProtocol.getbuf
  | putbuf => ExtentProtocol.putbuf
  | acquire => LockProtocol.acquire
  | release => LockProtocol.release
  | stat => LockProtocol.stat
  | retry => RlockProtocol.retry
  | revoke => RlockProtocol.revoke
  | bind _ => bindProc

/-- The types of what the stub passes to `call` and of the variable for the result. -/
def types : Stub → Signature
  | put => ⟨[.ull, .string], .int⟩
  | get => ⟨[.ull], .string⟩
  | getattr => ⟨[.ull], .attr⟩
  | remove => ⟨[.ull], .int⟩
  | resize => ⟨[.ull, .uint], .int⟩
  | getbuf => ⟨[.ull, .uint, .uint], .string⟩
  | putbuf => ⟨[.ull, .uint, .string], .int⟩
  | acquire => ⟨[.ull, .string], .int⟩
  | release => ⟨[.ull, .string], .int⟩
  -- `cl->id()` goes in front of the lock
  | stat => ⟨[.uint, .ull], .int⟩
  | retry => ⟨[.ull], .int⟩
  | revoke => ⟨[.ull], .int⟩
  | bind _ => ⟨[.int], .int⟩

/-- `rpcc::call` up to `call1`, which packs the header with the words it chooses. -/
def request (s : Stub) (vs : List Value) (xid cltNonce srvNonce xidRep : BitVec 32)
    (mem : ℕ → UInt8) : Option Bytes := do
  let (_, m) ← putAll vs (Marshall.new mem)
  let (_, m) ← (Header.req xid s.proc cltNonce srvNonce xidRep).pack m
  some m.takeBuf

end Stub

/-- What a request leaves at the server: the object, the calls of a method, and the reply unless
the request is dropped. -/
structure Handled (σ : Type) where
  obj : σ
  calls : List (List Value)
  reply : Option Bytes

/-- `rpcs::dispatch` of a new request; `impl` are the methods. -/
def Endpoint.serve {σ : Type} (e : Endpoint) (impl : BitVec 32 → (sig : Signature) → Method σ sig)
    (sob : σ) (mem : ℕ → UInt8) (buf : Bytes) : Option (Handled σ) := do
  let (h, req) ← Header.unpackReq (Unmarshall.new buf)
  match h with
  | .req xid proc _ _ _ =>
    if !req.ok then some ⟨sob, [], none⟩
    else match e.procs.lookup proc with
      | none => some ⟨sob, [], none⟩
      | some sig =>
        let o ← sig.fn (impl proc sig) sob req (Marshall.new mem)
        -- `VERIFY(rh.ret >= 0 || rh.ret == unmarshal_args_failure)`
        if o.ret.slt 0#32 && o.ret != unmarshalArgsFailure then none
        else
          let rep ← o.reply
          let (_, rep) ← (Header.reply xid o.ret).pack rep
          some ⟨o.obj, o.calls, some rep.takeBuf⟩
  | .reply _ _ => none

def unmarshalReplyFailure : BitVec 32 := BitVec.ofInt 32 (-3)

/-- `rpcc::got_pdu` and the rest of `call_m`: what `call` returns, and the result unless the
extraction is not reached. -/
def Stub.receive (s : Stub) (buf : Bytes) : Option (BitVec 32 × Option Value) := do
  let (h, rep) ← Header.unpackReply (Unmarshall.new buf)
  match h with
  | .reply _ ret =>
    if !rep.ok then none
    else if ret.slt 0#32 then some (ret, none)
    else
      let (r, u) ← s.types.res.get (Unmarshall.takeIn buf)
      some (if u.okdone then ret else unmarshalReplyFailure, some ⟨s.types.res, r⟩)
  | .req _ _ _ _ _ => none

/-- Whatever the arguments, the methods and the words of the header: the handler of the procedure is
called once and with the arguments of the stub, and the stub gets what the handler returns. Messages
of `2 ^ 30` bytes and more are not considered, since the capacity of a `marshall` is an `int`. -/
def Stub.Agrees (s : Stub) : Prop :=
  ∀ vs : List Value, vs.map Sigma.fst = s.types.args →
    RPC_HEADER_SZ + (encodeAll vs).length < 2 ^ 30 →
  ∀ (σ : Type) (impl : BitVec 32 → (sig : Signature) → Method σ sig) (sob : σ)
    (xid cltNonce srvNonce xidRep : BitVec 32) (mem mem' : ℕ → UInt8),
  ∃ sig, s.endpoint.procs.lookup s.proc = some sig ∧
    ∀ sob' b r, impl s.proc sig sob vs = (sob', b, r) → b.slt 0#32 = false →
      RPC_HEADER_SZ + (sig.res.encode r).length < 2 ^ 30 →
      ∃ msg rep, s.request vs xid cltNonce srvNonce xidRep mem = some msg ∧
        s.endpoint.serve impl sob mem' msg = some ⟨sob', [vs], some rep⟩ ∧
        s.receive rep = some (b, some ⟨sig.res, r⟩)

instance Ty.inhabitedVal : (t : Ty) → Inhabited t.Val
  | bool => ⟨false⟩
  | char | uchar => ⟨(0 : BitVec 8)⟩
  | short | ushort => ⟨(0 : BitVec 16)⟩
  | int | uint => ⟨(0 : BitVec 32)⟩
  | ull => ⟨(0 : BitVec 64)⟩
  | string => ⟨([] : Bytes)⟩
  | attr => ⟨(⟨0, 0, 0, 0⟩ : AttrWords)⟩
  | vector t => ⟨([] : List t.Val)⟩
  | map _ _ => ⟨OrderedMap.empty⟩

section
variable {s : Stub} {σ : Type} {impl : BitVec 32 → (sig : Signature) → Method σ sig} {sob sob' : σ}
  {xid cltNonce srvNonce xidRep : BitVec 32} {vs : List Value}

theorem Stub.isPdu_request (s : Stub) (vs : List Value) (xid cltNonce srvNonce xidRep : BitVec 32)
    (mem : ℕ → UInt8) (hlt : RPC_HEADER_SZ + (encodeAll vs).length < 2 ^ 30) :
    ∃ msg, s.request vs xid cltNonce srvNonce xidRep mem = some msg ∧
      IsPdu (.req xid s.proc cltNonce srvNonce xidRep) (encodeAll vs) msg ∧
      msg.length < 2 ^ 31 := by
  obtain ⟨m, m', hm, hpack, hpdu, hlen⟩ := isPdu_of_append (Appends.putAll vs)
    (.req xid s.proc cltNonce srvNonce xidRep) mem hlt
  refine ⟨m'.takeBuf, ?_, hpdu, by omega⟩
  simp [request, hm, hpack]

theorem Endpoint.serve_of_isPdu {e : Endpoint} {proc : BitVec 32} {sig : Signature}
    {payload buf : Bytes}
    (hb : IsPdu (.req xid proc cltNonce srvNonce xidRep) payload buf) (hlt : buf.length < 2 ^ 31)
    (hsig : e.procs.lookup proc = some sig) {mem : ℕ → UInt8} {o : Served σ}
    (ho : sig.fn (impl proc sig) sob ⟨buf, RPC_HEADER_SZ, true⟩ (Marshall.new mem) = some o)
    (hret : o.ret.slt 0#32 = true → o.ret = unmarshalArgsFailure) {m m' : Marshall}
    (hm : o.reply = some m) (hpack : (Header.reply xid o.ret).pack m = some ((), m')) :
    e.serve impl sob mem buf = some ⟨o.obj, o.calls, some m'.takeBuf⟩ := by
  have hunpack : Header.unpackReq (Unmarshall.new buf) = _ := (unpackLike_of_isPdu hb hlt).1
  simpa [serve, hunpack, hsig, ho, hm, hpack] using hret

theorem Stub.receive_of_isPdu {b : BitVec 32} {r : s.types.res.Val} {rep : Bytes}
    (hb : IsPdu (.reply xid b) (s.types.res.encode r) rep) (hlt : rep.length < 2 ^ 31)
    (hpos : b.slt 0#32 = false) : s.receive rep = some (b, some ⟨s.types.res, r⟩) := by
  obtain ⟨hunpack, hpayload, hlen⟩ := unpackLike_of_isPdu hb hlt
  have hunpack' : Header.unpackReply (Unmarshall.new rep) = _ := hunpack
  have htake : Unmarshall.takeIn rep = ⟨rep, RPC_HEADER_SZ, true⟩ := by
    simp [Unmarshall.takeIn, hlen]
  have hget := Yields.get s.types.res r _ hpayload
  simp [receive, hunpack', htake, hget, hpos, Unmarshall.okdone, Unmarshall.skip, hlen]

/-- A stub agrees with a method of the types it uses itself. -/
theorem Stub.agrees_of_lookup (h : s.endpoint.procs.lookup s.proc = some s.types) : s.Agrees := by
  intro vs hvs hlt σ impl sob xid cltNonce srvNonce xidRep mem mem'
  refine ⟨s.types, h, ?_⟩
  intro sob' b r hcall hpos hlt'
  obtain ⟨msg, hmsg, hpdu, hsz⟩ := s.isPdu_request vs xid cltNonce srvNonce xidRep mem hlt
  obtain ⟨m, m', hm, hpack, hreply, hsz'⟩ := isPdu_of_append (Appends.put s.types.res r)
    (.reply xid b) mem' hlt'
  refine ⟨msg, m'.takeBuf, hmsg, ?_, Stub.receive_of_isPdu hreply (by omega) hpos⟩
  have hfn : s.types.fn (impl s.proc s.types) sob ⟨msg, RPC_HEADER_SZ, true⟩ (Marshall.new mem') =
      some ⟨sob', [vs], b, some m⟩ := by
    obtain ⟨header, rfl, hheader⟩ := hpdu.exists_header
    rw [Signature.fn_of_encodes hheader hsz ⟨hvs, rfl⟩, Signature.called, hcall, hm]
    rfl
  exact Endpoint.serve_of_isPdu hpdu hsz h hfn (by simp [hpos]) rfl hpack

/-- The types of every other stub are those of its handler. -/
theorem Stub.lookup_proc (h : s ≠ .stat) : s.endpoint.procs.lookup s.proc = some s.types := by
  cases s with
  | stat => exact absurd rfl h
  | bind e => cases e <;> rfl
  | _ => rfl

/-- `lock_server_cache::stat` takes the lock alone, and the identity of the client is left over. -/
theorem stat_refused (id : BitVec 32) (lid : BitVec 64) {header : Bytes}
    (hheader : header.length = RPC_HEADER_SZ) (meth : Method σ ⟨[.ull], .int⟩) (sob : σ)
    (ret : Marshall) :
    Signature.fn ⟨[.ull], .int⟩ meth sob
        ⟨header ++ encodeAll [⟨.uint, id⟩, ⟨.ull, lid⟩], RPC_HEADER_SZ, true⟩ ret =
      some (.refused sob ret) := by
  generalize hpayload : encodeAll [⟨.uint, id⟩, ⟨.ull, lid⟩] = payload
  have hlen : payload.length = 12 := by
    rw [← hpayload]
    rfl
  have hsplit : payload =
      encodeAll [⟨.ull, BigEndian.ofBytes 64 (payload.take 8)⟩] ++ payload.drop 8 := by
    have h8 : (payload.take 8).length = 8 := by simp [hlen]
    have hbytes := BigEndian.toBytes_ofBytes (w := 64) (payload.take 8) (by omega)
    rw [h8] at hbytes
    change payload = (BigEndian.toBytes 8 (BigEndian.ofBytes 64 (payload.take 8)) ++ []) ++ _
    rw [hbytes, List.append_nil, List.take_append_drop]
  have hextra : payload.drop 8 ≠ [] := by
    apply List.ne_nil_of_length_pos
    simp [hlen]
  rw [hsplit]
  apply Signature.fn_of_surplus hheader rfl hextra
  rw [← hsplit, List.length_append, hheader, hlen]
  decide

/-- No method is called for a `stat`, whatever lock it asks for, and the stub gets the failure. -/
theorem serve_stat (impl : BitVec 32 → (sig : Signature) → Method σ sig) (sob : σ)
    (id : BitVec 32) (lid : BitVec 64) {msg : Bytes}
    (hb : IsPdu (.req xid LockProtocol.stat cltNonce srvNonce xidRep)
      (encodeAll [⟨.uint, id⟩, ⟨.ull, lid⟩]) msg) (hlt : msg.length < 2 ^ 31) (mem : ℕ → UInt8) :
    ∃ rep, Endpoint.lockSmain.serve impl sob mem msg = some ⟨sob, [], some rep⟩ ∧
      Stub.stat.receive rep = some (unmarshalArgsFailure, none) := by
  obtain ⟨_, m, ⟨⟩, hpack, hpdu, hlen⟩ :=
    isPdu_of_append Appends.nil (.reply xid unmarshalArgsFailure) mem (by decide)
  have hfn : Signature.fn ⟨[.ull], .int⟩ (impl LockProtocol.stat _) sob ⟨msg, RPC_HEADER_SZ, true⟩
      (Marshall.new mem) = some (.refused sob (Marshall.new mem)) := by
    obtain ⟨header, rfl, hheader⟩ := hb.exists_header
    exact stat_refused id lid hheader ..
  have hunpack : Header.unpackReply (Unmarshall.new m.takeBuf) = _ :=
    (unpackLike_of_isPdu hpdu (by rw [hlen]; decide)).1
  refine ⟨m.takeBuf, Endpoint.serve_of_isPdu hb hlt rfl hfn (fun _ => rfl) rfl hpack, ?_⟩
  rw [Stub.receive, hunpack]
  rfl

def statArgs : List Value := [⟨.uint, (0 : BitVec 32)⟩, ⟨.ull, (0 : BitVec 64)⟩]

theorem Stub.not_agrees_stat : ¬ Stub.stat.Agrees := by
  intro h
  obtain ⟨msg, hmsg, hpdu, hsz⟩ := Stub.stat.isPdu_request statArgs 1 1 1 0 (fun _ => 0) (by decide)
  obtain ⟨sig, hsig, hcall⟩ := h statArgs rfl (by decide) Unit (fun _ _ _ _ => ((), 0, default)) ()
    1 1 1 0 (fun _ => 0) (fun _ => 0)
  cases hsig
  obtain ⟨msg', rep, hmsg', hserve, -⟩ := hcall () 0 default rfl rfl (by decide)
  rw [hmsg] at hmsg'
  cases hmsg'
  obtain ⟨rep', hserve', -⟩ :=
    serve_stat (fun _ _ _ _ => ((), 0, default)) () 0 0 hpdu hsz fun _ => 0
  cases hserve'.symm.trans hserve

end

/-- All stubs but `lock_client::stat` agree with their handlers. -/
theorem stub_agrees_iff (s : Stub) : s.Agrees ↔ s ≠ .stat := by
  constructor
  · rintro h rfl
    exact Stub.not_agrees_stat h
  · intro h
    exact Stub.agrees_of_lookup (Stub.lookup_proc h)

/-- A `stat` for lock 0: the server finds four bytes left over and does not call its method. -/
theorem stat_disagrees :
    ∃ msg rep, Stub.stat.request statArgs 1 1 1 0 (fun _ => 0) = some msg ∧
      Endpoint.lockSmain.serve (fun _ _ _ _ => ((), 0, default)) () (fun _ => 0) msg =
        some ⟨(), [], some rep⟩ ∧
      Stub.stat.receive rep = some (unmarshalArgsFailure, none) ∧ ¬ Stub.stat.Agrees := by
  obtain ⟨msg, hmsg, hpdu, hsz⟩ := Stub.stat.isPdu_request statArgs 1 1 1 0 (fun _ => 0) (by decide)
  obtain ⟨rep, hserve, hreceive⟩ :=
    serve_stat (fun _ _ _ _ => ((), 0, default)) () 0 0 hpdu hsz fun _ => 0
  exact ⟨msg, rep, hmsg, hserve, hreceive, Stub.not_agrees_stat⟩

end YFS.Rpc
