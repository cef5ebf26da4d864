import YFS.Library.Tally
import YFS.Rpc.Server

/-! # References to connections

`got_pdu` takes a reference to its connection for every job, `dispatch` releases it, and
the table `conns_` of `rpcs` holds one for the newest connection of each client. Jobs run
in several threads; what one of them does under `conss_m_` or in one call of the connection
is one step. Connections die at any time, and the acceptor deletes a dead one when only its
own reference is left.
-/

namespace YFS.Rpc
open YFS.Library

structure Conn where
  dead : Bool
  refno : ℤ
  sec : ℤ
  usec : ℤ
  deriving DecidableEq, Repr

def Conn.compare (k another : Conn) : ℤ :=
  if k.sec > another.sec then 1
  else if k.sec < another.sec then -1
  else if k.usec > another.usec then 1
  else if k.usec < another.usec then -1
  else 0

/-- Where a job stands in `dispatch`, with its connection `c`: in the pool, before the reply to a
request for an old server, before the section that saves the connection, before and after
`checkduplicate_and_update`, before a reply is sent, and before the last `decref`. A header that
cannot be unmarshalled is `none`. -/
inductive JobPc (κ : Type) where
  | idle
  | queued (c : κ) (h : Option ReqHeader)
  | oldServer (c : κ)
  | register (c : κ) (h : ReqHeader)
  | check (c : κ) (h : ReqHeader)
  | running (c : κ) (h : ReqHeader)
  | sending (c : κ)
  | release (c : κ)
  | finished
  deriving DecidableEq

def JobPc.conn {κ : Type} : JobPc κ → Option κ
  | .idle => none
  | .queued c _ => some c
  | .oldServer c => some c
  | .register c _ => some c
  | .check c _ => some c
  | .running c _ => some c
  | .sending c => some c
  | .release c => some c
  | .finished => none

/-- The connections that exist, the table `conns_` of `rpcs`, in which `some none` is a `NULL`
pointer, and the jobs. -/
structure Refs (ι κ : Type) where
  conns : κ → Option Conn
  latest : ℕ → Option (Option κ)
  jobs : ι → JobPc κ

inductive RefEvent (ι κ : Type) where
  | accept (c : κ) (sec usec : ℤ)
  | die (c : κ)
  | collect (c : κ)
  | gotPdu (c : κ) (j : ι) (h : Option ReqHeader) (succ : Bool)
  | start (j : ι)
  | register (j : ι)
  | check (j : ι) (stat : RpcState)
  | swap (j : ι)
  | send (j : ι)
  | release (j : ι)

namespace Refs

variable {ι κ : Type} [DecidableEq ι] [DecidableEq κ]

def setConn (s : Refs ι κ) (c : κ) (k : Option Conn) : Refs ι κ :=
  { s with conns := Function.update s.conns c k }

def setLatest (s : Refs ι κ) (clt : ℕ) (c : κ) : Refs ι κ :=
  { s with latest := Function.update s.latest clt (some (some c)) }

def setJob (s : Refs ι κ) (j : ι) (pc : JobPc κ) : Refs ι κ :=
  { s with jobs := Function.update s.jobs j pc }

def incref (s : Refs ι κ) (c : κ) : Option (Refs ι κ) := do
  let k ← s.conns c
  some (s.setConn c (some { k with refno := k.refno + 1 }))

/-- `connection::decref`; `none` if there is no such connection or the `VERIFY` fails. -/
def decref (s : Refs ι κ) (c : κ) : Option (Refs ι κ) := do
  let k ← s.conns c
  let k := { k with refno := k.refno - 1 }
  if k.refno < 0 then none
  else some (s.setConn c (if k.refno = 0 ∧ k.dead then none else some k))

/-- The last `decref` of a job. -/
def leave (s : Refs ι κ) (j : ι) (c : κ) : Option (Refs ι κ) := do
  let s ← s.decref c
  some (s.setJob j .finished)

/-- The section of `dispatch` that saves the latest good connection to the client. -/
def save (s : Refs ι κ) (c : κ) (clt : ℕ) : Option (Refs ι κ) :=
  match s.latest clt with
  | none => do
    let s ← s.incref c
    some (s.setLatest clt c)
  | some none => none
  | some (some d) => do
    let kd ← s.conns d
    let kc ← s.conns c
    if kd.compare kc < 0 then
      let s ← s.decref d
      let s ← s.incref c
      some (s.setLatest clt c)
    else some s

/-- The section of `dispatch` that gets the latest connection to the client, and the connection it
gets; `none` where that is `NULL`. -/
def newest (s : Refs ι κ) (c : κ) (clt : ℕ) : Option (Refs ι κ × κ) := do
  let k ← s.conns c
  if k.dead then
    match s.latest clt with
    | some (some d) =>
      if c = d then some (s, c)
      else
        let s ← s.decref c
        let s ← s.incref d
        some (s, d)
    | _ => none
  else some (s, c)

def gotPdu (s : Refs ι κ) (c : κ) (j : ι) (h : Option ReqHeader) (succ : Bool) :
    Option (Refs ι κ) := do
  let s ← s.incref c
  if succ then some (s.setJob j (.queued c h)) else s.decref c

variable (nonce : ℕ) (procs : ℕ → Bool)

/-- One step; an event that is not possible changes nothing. -/
def step (s : Refs ι κ) : RefEvent ι κ → Option (Refs ι κ)
  | .accept c sec usec =>
    match s.conns c with
    | some _ => some s
    | none => some (s.setConn c (some ⟨false, 1, sec, usec⟩))
  | .die c =>
    match s.conns c with
    | some k => some (s.setConn c (some { k with dead := true }))
    | none => some s
  | .collect c =>
    match s.conns c with
    | some k => if k.dead ∧ k.refno = 1 then s.decref c else some s
    | none => some s
  | .gotPdu c j h succ =>
    match s.conns c, s.jobs j with
    | some k, .idle =>
      -- `read_cb` of a dead connection returns at once
      if k.dead then some s else s.gotPdu c j h succ
    | _, _ => some s
  | .start j =>
    match s.jobs j with
    | .queued c none => s.leave j c
    | .queued c (some h) =>
      if h.srvNonce ≠ 0 ∧ h.srvNonce ≠ nonce then some (s.setJob j (.oldServer c))
      else if procs h.proc = false then s.leave j c
      else if h.cltNonce ≠ 0 then some (s.setJob j (.register c h))
      else some (s.setJob j (.running c h))
    | _ => some s
  | .register j =>
    match s.jobs j with
    | .register c h => do
      let s ← s.save c h.cltNonce
      some (s.setJob j (.check c h))
    | _ => some s
  | .check j stat =>
    match s.jobs j with
    | .check c h =>
      match stat with
      | .NEW => some (s.setJob j (.running c h))
      | .INPROGRESS => some (s.setJob j (.release c))
      | .DONE => some (s.setJob j (.sending c))
      | .FORGOTTEN => some (s.setJob j (.sending c))
    | _ => some s
  | .swap j =>
    match s.jobs j with
    | .running c h => do
      let (s, d) ← s.newest c h.cltNonce
      some (s.setJob j (.sending d))
    | _ => some s
  | .send j =>
    match s.jobs j with
    | .oldServer c => do
      let _ ← s.conns c
      -- the reference is not released
      some (s.setJob j .finished)
    | .sending c => do
      let _ ← s.conns c
      some (s.setJob j (.release c))
    | _ => some s
  | .release j =>
    match s.jobs j with
    | .release c => s.leave j c
    | _ => some s

end Refs

def refs (ι κ : Type) [DecidableEq ι] [DecidableEq κ] (nonce : ℕ) (procs : ℕ → Bool) :
    Machine (Refs ι κ) (RefEvent ι κ) where
  init := ⟨fun _ => none, fun _ => none, fun _ => .idle⟩
  step := Refs.step nonce procs

namespace Refs

variable {ι κ : Type}

def Settled (s : Refs ι κ) : Prop := ∀ j, s.jobs j = .idle ∨ s.jobs j = .finished

def ForServer (nonce : ℕ) : JobPc κ → Prop
  | .queued _ (some h) => h.srvNonce = 0 ∨ h.srvNonce = nonce
  | _ => True

/-- The reply has a connection: the client has a nonce, or the request's connection lives. -/
def Answerable (s : Refs ι κ) : JobPc κ → Prop
  | .running c h => h.cltNonce ≠ 0 ∨ ∀ k ∈ s.conns c, k.dead = false
  | _ => True

/-- No request is for an old server, and none without a client nonce finds its connection dead when
its reply is to be sent. -/
def Plain (nonce : ℕ) (s : Refs ι κ) : RefEvent ι κ → Prop
  | .start j => ForServer nonce (s.jobs j)
  | .swap j => s.Answerable (s.jobs j)
  | _ => True

/-- With no job under way, the references to a connection are that of its creator and those of the
entries that point to it. -/
def RefsBalance (s : Refs ι κ) : Prop :=
  s.Settled → ∀ c k, s.conns c = some k →
    ∃ E : Finset ℕ, (∀ clt, clt ∈ E ↔ s.latest clt = some (some c)) ∧ k.refno = 1 + E.card

/-- With no job under way, the acceptor deletes every dead connection when it next looks at it. -/
def Collectable [DecidableEq ι] [DecidableEq κ] (nonce : ℕ) (procs : ℕ → Bool) (s : Refs ι κ) :
    Prop :=
  s.Settled → ∀ c, ∀ k ∈ s.conns c, k.dead = true →
    ∃ t ∈ s.step nonce procs (.collect c), t.conns c = none

/-- With no job under way, no entry points to a dead connection. No entry is ever erased: this is so
if each client whose connection has died has since sent a request over a newer one. -/
def Current (s : Refs ι κ) : Prop :=
  s.Settled → ∀ c, ∀ k ∈ s.conns c, k.dead = true → ∀ clt, s.latest clt ≠ some (some c)

end Refs

end YFS.Rpc
