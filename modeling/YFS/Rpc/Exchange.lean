import YFS.Rpc.Callers.Model
import YFS.Rpc.Connection
import YFS.Rpc.Handler
import YFS.Rpc.RoundTrip

/-! # Clients and a server over a network

Any number of `rpcc`s, told apart by their `clt_nonce`, call the procedures of one `rpcs`. The
network brings a request that has been sent to the server, and a reply to its client, at any
later time and any number of times, or never: retransmissions, repeated requests, broken
connections and new ones are all among this. The threads of the server are between the test of
the reply window and the end of the handler, and between `add_reply` or the test and `send`.
Where the code is undefined, behind the end of a window and in a freed buffer, there is no step.
-/

namespace YFS.Rpc
open YFS.Library

def atmostonceFailure : BitVec 32 := BitVec.ofInt 32 (-4)

def oldsrvFailure : BitVec 32 := BitVec.ofInt 32 (-5)

structure Run where
  header : ReqHeader
  args : List Value

/-- The clients, the server with its reply buffers, and the network. A buffer is known by its
address; `freed` are the addresses that have been given to `free`. `jobs` are the handlers that
run, `sending` the client and the buffer of each thread that is about to send a recorded reply,
`replies` the PDUs sent. `ran` is history: the handlers that have returned, with their results. -/
structure Exchange (ι : Type) where
  client : ℕ → Callers ι
  server : Rpcs
  buffers : List Bytes
  freed : List ℕ
  jobs : List Run
  sending : List (ℕ × ℕ)
  replies : List (ℕ × Bytes)
  ran : List (Run × BitVec 32 × List Value)

/-- A step of a client other than `got_pdu`, a request of a call that arrives, a handler that
returns, a recorded reply that is sent, and a reply that arrives. `mem` is what `malloc` returns
for the reply. -/
inductive ExchangeEvent (ι : Type) where
  | client (c : ℕ) (e : CallEvent ι)
  | request (c : ℕ) (k : ι) (mem : ℕ → UInt8)
  | finish (n : ℕ) (ret : BitVec 32) (vals : List Value) (mem : ℕ → UInt8)
  | send (n : ℕ)
  | reply (c : ℕ) (b : Bytes)

/-- The values that a handler has put into `rep`, and the header that `dispatch` packs. -/
def replyBuf (mem : ℕ → UInt8) (xid : ℕ) (ret : BitVec 32) (vals : List Value) : Option Bytes :=
  ((do putAll vals; (Header.reply (BitVec.ofNat 32 xid) ret).pack : Put) (Marshall.new mem)).map
    fun p => p.2.takeBuf

/-- The buffer that the window move of `checkduplicate_and_update` gives to `free`. -/
def freedBy (w : List Reply) (xid : ℕ) : List ℕ :=
  if trims w && decide ((w.headD sentinel).xid ≤ xid) && w.any (fun e => decide (xid ≤ e.xid)) then
    [(w.headD sentinel).buf]
  else []

namespace Exchange
variable {ι : Type} [DecidableEq ι]

/-- `c->send`: the client gets the buffer with its size in front. -/
def sendTo (s : Exchange ι) (c : ℕ) (b : Bytes) : Exchange ι :=
  { s with replies := s.replies ++ [(c, sized b)] }

def contents (s : Exchange ι) (b : ℕ) : Option Bytes :=
  if b ∈ s.freed then none else s.buffers[b - 1]?

/-- `dispatch` from its switch on, up to the handler or to the sending of a recorded reply. There
is nothing to send where `b1` has not been set. -/
def serve (s : Exchange ι) (c : ℕ) (r : Run) (mem : ℕ → UInt8) : Disposition → Option (Exchange ι)
  | .oldServer => (replyBuf mem r.header.xid oldsrvFailure []).map (s.sendTo c)
  | .badProc => some s
  | .served a =>
    match a.stat with
    | .NEW => some { s with jobs := s.jobs ++ [r] }
    | .INPROGRESS => some s
    | .DONE => a.out.map fun out => { s with sending := s.sending ++ [(c, out.1)] }
    | .FORGOTTEN => (replyBuf mem r.header.xid atmostonceFailure []).map (s.sendTo c)

/-- `dispatch` behind the handler, up to the sending of the reply. The reply is recorded for
clients that require at-most-once logic. -/
def finish (s : Exchange ι) (r : Run) (ret : BitVec 32) (vals : List Value) (b : Bytes) :
    Exchange ι :=
  let addr := s.buffers.length + 1
  let c := r.header.cltNonce
  { s with
    buffers := s.buffers ++ [b]
    server := if c ≠ 0 then
        s.server.setWindow c (addReply (s.server.replyWindow c) r.header.xid addr b.length)
      else s.server
    sending := s.sending ++ [(c, addr)]
    ran := s.ran ++ [(r, ret, vals)] }

/-- `args c k` are the arguments of call `k` of client `c`. -/
def step (args : ℕ → ι → List Value) (s : Exchange ι) : ExchangeEvent ι → Option (Exchange ι)
  | .client c e =>
    match e with
    | .gotPdu _ => none
    | _ => ((s.client c).step e).map fun cl => { s with client := Function.update s.client c cl }
  | .request c k mem =>
    match ((s.client c).callers k).request with
    | none => none
    | some h => do
      let (server, d) ← s.server.dispatch h
      let freed := if s.server.Reaches h then
        freedBy (opened (s.server.replyWindow h.cltNonce)) h.xid else []
      serve { s with server := server, freed := s.freed ++ freed } c ⟨h, args c k⟩ mem d
  | .finish n ret vals mem =>
    match s.jobs[n]? with
    | none => none
    | some r =>
      -- `VERIFY(rh.ret >= 0 || rh.ret == rpc_const::unmarshal_args_failure)`
      if ret.slt 0#32 && ret != unmarshalArgsFailure then none
      else (replyBuf mem r.header.xid ret vals).map fun b =>
        finish { s with jobs := s.jobs.eraseIdx n } r ret vals b
  | .send n =>
    match s.sending[n]? with
    | none => none
    | some (c, b) => (s.contents b).map fun bytes =>
        sendTo { s with
          sending := s.sending.eraseIdx n
          -- the reply of a client without at-most-once logic is not kept
          freed := if c = 0 then s.freed ++ [b] else s.freed } c bytes
  | .reply c b =>
    -- a longer PDU is the end of the connection
    if (c, b) ∈ s.replies ∧ b.length ≤ MAX_PDU then
      ((s.client c).step (.gotPdu b)).map fun cl =>
        { s with client := Function.update s.client c cl }
    else none

def runs (s : Exchange ι) (c x : ℕ) : ℕ :=
  (s.jobs ++ s.ran.map Prod.fst).countP fun r =>
    decide (r.header.cltNonce = c) && decide (r.header.xid = x)

end Exchange

end YFS.Rpc
