import Mathlib.Data.List.AList
import YFS.Library.Machine
import YFS.Rpc.Client
import YFS.Rpc.Marshall

/-! # Replies and their callers

Any number of threads call `rpcc::call1` on one `rpcc`. Their `caller` records are reached through
`calls_` by `got_pdu`, for whatever replies come in, and by `cancel`. A call may leave its waiting
loop at any time, since its deadlines are arbitrary here. Each of the steps is a section under
`rpcc::m_`, which all of these hold while they use a record that is not their own.
-/

namespace YFS.Rpc
open YFS.Library

def rpcBind : ℕ := 1

def timeoutFailure : BitVec 32 := BitVec.ofInt 32 (-1)

def bindFailure : BitVec 32 := BitVec.ofInt 32 (-6)

def cancelFailure : BitVec 32 := BitVec.ofInt 32 (-7)

def replyHeader (b : Bytes) : Option (BitVec 32 × BitVec 32) :=
  match Header.unpackReply (Unmarshall.new b) with
  | some (.reply xid ret, rep) => if rep.ok then some (xid, ret) else none
  | _ => none

/-- `rpcc::caller` and the header that has been packed into the request. `intret` is not initialised
by the code. -/
structure Caller where
  xid : ℕ
  request : Option ReqHeader
  un : Unmarshall
  intret : BitVec 32
  done : Bool

def Caller.result (ca : Caller) : BitVec 32 := if ca.done then ca.intret else timeoutFailure

/-- Where a call of `call1` stands: registered until the section that erases it from `calls_`, then
on its way out. -/
inductive CallPc where
  | idle
  | waiting
  | left
  | returned (ret : BitVec 32)
  deriving DecidableEq, Repr

/-- `rpcc` with the calls of `call1`. The last four are no variables of the code: the replies so
far, which of them has completed a call, how many calls have registered, and how many had when a
call did. -/
structure Callers (ι : Type*) where
  cltNonce : ℕ
  srvNonce : ℕ
  bindDone : Bool
  xid : ℕ
  xidRepWindow : List ℕ
  destroyWait : Bool
  calls : AList fun _ : ℕ => ι
  callers : ι → Caller
  pc : ι → CallPc
  received : List Bytes
  completedBy : ι → Option ℕ
  registered : ℕ
  number : ι → ℕ

inductive CallEvent (ι : Type*) where
  | call1 (k : ι) (proc : ℕ)
  | gotPdu (b : Bytes)
  | cancel
  | leave (k : ι)
  | ret (k : ι)
  | bound (srvNonce : ℕ)

namespace Callers

variable {ι : Type*} [DecidableEq ι]

def refuses (s : Callers ι) (proc : ℕ) : Option (BitVec 32) :=
  if (proc ≠ rpcBind ∧ s.bindDone = false) ∨ (proc = rpcBind ∧ s.bindDone = true) then some bindFailure
  else if s.destroyWait then some cancelFailure
  else none

def register (s : Callers ι) (k : ι) (proc : ℕ) : Callers ι :=
  { s with
    xid := succXid s.xid
    calls := s.calls.insert s.xid k
    callers := Function.update s.callers k
      { xid := s.xid
        request := some ⟨s.xid, proc, s.cltNonce, s.srvNonce, s.xidRepWindow.headD 0⟩
        un := ⟨[], 0, false⟩
        intret := 0
        done := false }
    pc := Function.update s.pc k .waiting
    registered := s.registered + 1
    number := Function.update s.number k s.registered }

def accept (s : Callers ι) (b : Bytes) (xid ret : BitVec 32) : Callers ι :=
  let t := { s with
    xidRepWindow := updateXidRep s.xidRepWindow xid.toNat
    received := s.received ++ [b] }
  match s.calls.lookup xid.toNat with
  | none => t
  | some k =>
    if (s.callers k).done then t
    else { t with
      callers := Function.update s.callers k
        { s.callers k with un := Unmarshall.takeIn b, intret := ret, done := true }
      completedBy := Function.update s.completedBy k (some s.received.length) }

/-- `rpcc::cancel` up to its wait, which has no further effect: `destroy_wait_` stays set. -/
def cancel (s : Callers ι) : Callers ι :=
  { s with
    callers := fun k =>
      if ∃ entry ∈ s.calls.entries, entry.2 = k then
        { s.callers k with done := true, intret := cancelFailure }
      else s.callers k
    destroyWait := s.destroyWait || !s.calls.entries.isEmpty }

def step (s : Callers ι) : CallEvent ι → Option (Callers ι)
  | .call1 k proc =>
    if s.pc k = .idle then
      match s.refuses proc with
      | some ret => some { s with pc := Function.update s.pc k (.returned ret) }
      | none => some (s.register k proc)
    else none
  | .gotPdu b =>
    match replyHeader b with
    | none => some { s with received := s.received ++ [b] }
    | some (xid, ret) => some (s.accept b xid ret)
  | .cancel => some s.cancel
  | .leave k =>
    if s.pc k = .waiting then
      some { s with
        calls := s.calls.erase (s.callers k).xid
        xidRepWindow := updateXidRep s.xidRepWindow (s.callers k).xid
        pc := Function.update s.pc k .left }
    else none
  | .ret k =>
    if s.pc k = .left then
      some { s with pc := Function.update s.pc k (.returned (s.callers k).result) }
    else none
  | .bound srvNonce => some { s with bindDone := true, srvNonce := srvNonce }

end Callers

def callers (ι : Type*) [DecidableEq ι] (cltNonce : ℕ) : Machine (Callers ι) (CallEvent ι) where
  init :=
    { cltNonce := cltNonce
      srvNonce := 0
      bindDone := false
      xid := 1
      xidRepWindow := [0]
      destroyWait := false
      calls := ∅
      callers := fun _ => ⟨0, none, ⟨[], 0, false⟩, 0, false⟩
      pc := fun _ => .idle
      received := []
      completedBy := fun _ => none
      registered := 0
      number := fun _ => 0 }
  step := Callers.step

/-- The reply `n` carries the xid of the request and this status, and the `unmarshall` has its
payload. -/
def Caller.CompletedBy (ca : Caller) (received : List Bytes) (n : ℕ) (ret : BitVec 32) : Prop :=
  ∃ b xid h, received[n]? = some b ∧ replyHeader b = some (xid, ret) ∧
    ca.request = some h ∧ h.xid = xid.toNat ∧ ca.un = Unmarshall.takeIn b

namespace Callers

variable {ι : Type*} [DecidableEq ι]

def localFailures : List (BitVec 32) := [timeoutFailure, bindFailure, cancelFailure]

/-- A call that returns a status not its own returns that of a reply to its request. No reply has
completed two calls, and where two copies of one have, the calls are a multiple of `2 ^ 32` apart.
-/
structure Delivered (s : Callers ι) : Prop where
  own : ∀ k ret, s.pc k = .returned ret → ret ∉ localFailures →
    ∃ n, s.completedBy k = some n ∧ (s.callers k).CompletedBy s.received n ret
  once : ∀ j k n, s.completedBy j = some n → s.completedBy k = some n → j = k
  copies : ∀ j k m n, s.completedBy j = some m → s.completedBy k = some n →
    s.received[m]? = s.received[n]? → s.number j ≡ s.number k [MOD 2 ^ 32]

def Settled (s : Callers ι) : CallEvent ι → Prop
  | .gotPdu b => ∀ t, s.step (.gotPdu b) = some t →
      ∀ k, (s.callers k).done = true → t.callers k = s.callers k ∧ t.pc k = s.pc k
  | _ => True

/-- `calls_` holds the calls between their registration and their exit. -/
def Exact (s : Callers ι) : Prop :=
  ∀ x k, s.calls.lookup x = some k ↔ s.pc k = .waiting ∧ (s.callers k).xid = x

/-- No call registers under the xid of one that is still registered. -/
def Fresh (s : Callers ι) : CallEvent ι → Prop
  | .call1 k proc => s.pc k = .idle → s.refuses proc = none →
      ∀ j, s.pc j = .waiting → (s.callers j).xid ≠ s.xid
  | _ => True

end Callers

end YFS.Rpc
