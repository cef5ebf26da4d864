import YFS.Rpc.Server

/-! # The acknowledgements of `rpcc`

`update_xid_rep` keeps the xids whose replies the client has seen, with everything
up to the front acknowledged; `call1` puts the front into the header of each new
request.
-/

namespace YFS.Rpc

/-- The insertion loop of `update_xid_rep`: in front of the first larger xid, else at the end. -/
def insertXid (xid : ℕ) : List ℕ → List ℕ
  | [] => [xid]
  | y :: ys => if xid < y then xid :: y :: ys else y :: insertXid xid ys

/-- `while (front() + 1 == *it) pop_front()`, with `pre` the entries in front of `it`. Once these
are gone the front is `*it` itself and the loop ends. -/
def popFront (it : ℕ) : List ℕ → List ℕ
  | [] => []
  | f :: fs => if succXid f = it then popFront it fs else f :: fs

def compress (pre : List ℕ) : List ℕ → List ℕ
  | [] => pre
  | it :: post => compress (popFront it pre ++ [it]) post

/-- `rpcc::update_xid_rep`; the window holds xid 0 from the constructor on and is never empty. -/
def updateXidRep (w : List ℕ) (xid : ℕ) : List ℕ :=
  match w with
  | [] => []
  | front :: rest =>
    if xid ≤ front then w
    else match insertXid xid (front :: rest) with
      | [] => []
      | f :: fs => compress [f] fs

/-- The part of `rpcc` that numbers requests: `clt_nonce_`, `srv_nonce_`, `xid_`,
`xid_rep_window_` and the keys of `calls_`. -/
structure Rpcc where
  cltNonce : ℕ
  srvNonce : ℕ
  xid : ℕ
  xidRepWindow : List ℕ
  calls : List ℕ

def Rpcc.new (cltNonce srvNonce : ℕ) : Rpcc := ⟨cltNonce, srvNonce, 1, [0], []⟩

/-- The first critical section of `rpcc::call1`: the request is numbered and its header packed. -/
def Rpcc.call1 (c : Rpcc) (proc : ℕ) : ReqHeader × Rpcc :=
  (⟨c.xid, proc, c.cltNonce, c.srvNonce, c.xidRepWindow.headD 0⟩,
    { c with xid := succXid c.xid, calls := c.xid :: c.calls })

def Rpcc.gotPdu (c : Rpcc) (xid : ℕ) : Rpcc :=
  { c with xidRepWindow := updateXidRep c.xidRepWindow xid }

def Rpcc.leave (c : Rpcc) (xid : ℕ) : Rpcc :=
  { c with calls := c.calls.erase xid, xidRepWindow := updateXidRep c.xidRepWindow xid }

end YFS.Rpc
