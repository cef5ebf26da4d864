import YFS.Lock.Client

/-! # The caching lock server

`lock_server_cache` with its retryer and revoker threads and the workers of its pool.
As in the client, each function is one stretch of code under the server's mutex. The
jobs `retryer_rpc` and `revoker_rpc` read `owner_cl` without the mutex, in a step of
their own between being taken from the pool's queue and calling the client.
-/

namespace YFS.Lock

/-- `lock_server_cache::lock`; `ownerCl` is `none` for the empty string. A lock that is not in
`lock_table` behaves as one without owner and waiters. -/
structure ServerLock (ι : Type) where
  ownerCl : Option ι
  waitingCls : List ι

inductive Job where
  | retryer (lid : ℕ)
  | revoker (lid : ℕ)
  deriving DecidableEq, Repr

inductive ServerPc (ι : Type) where
  | idle
  | retryStart (lid : ℕ)
  | retryCalling (lid : ℕ) (c : ι)
  | retryAnswered (lid : ℕ) (ret : RStatus)
  | revokeStart (lid : ℕ)
  | revokeCalling (lid : ℕ) (c : ι)
  | revokeAnswered (lid : ℕ) (ret : RStatus)
  deriving DecidableEq, Repr

structure Server (ι ω : Type) where
  lockTable : ℕ → ServerLock ι
  retryerQueue : List ℕ
  revokerQueue : List ℕ
  retryer : Daemon
  revoker : Daemon
  jobs : List Job
  worker : ω → ServerPc ι

namespace Server
variable {ι ω : Type} [DecidableEq ι] [DecidableEq ω]

def new : Server ι ω where
  lockTable _ := ⟨none, []⟩
  retryerQueue := []
  revokerQueue := []
  retryer := .awake
  revoker := .awake
  jobs := []
  worker _ := .idle

def setLock (s : Server ι ω) (lid : ℕ) (l : ServerLock ι) : Server ι ω :=
  { s with lockTable := Function.update s.lockTable lid l }

def setWorker (s : Server ι ω) (w : ω) (pc : ServerPc ι) : Server ι ω :=
  { s with worker := Function.update s.worker w pc }

/-- `revoker_queue.push(lid)` and the signal that follows it. -/
def askRevoker (s : Server ι ω) (lid : ℕ) : Server ι ω :=
  { s with revokerQueue := s.revokerQueue ++ [lid], revoker := s.revoker.signal }

def acquire (s : Server ι ω) (lid : ℕ) (id : ι) : Status × Server ι ω :=
  let reqlock := s.lockTable lid
  match reqlock.ownerCl with
  | none => (.OK, s.setLock lid { reqlock with ownerCl := some id })
  | some _ =>
    let s := if reqlock.waitingCls.length = 0 then s.askRevoker lid else s
    (.RETRY, s.setLock lid { reqlock with waitingCls := reqlock.waitingCls ++ [id] })

def release (s : Server ι ω) (lid : ℕ) (id : ι) : Status × Server ι ω :=
  if (s.lockTable lid).ownerCl = some id then
    let s := s.setLock lid { s.lockTable lid with ownerCl := none }
    (.OK, { s with retryerQueue := s.retryerQueue ++ [lid], retryer := s.retryer.signal })
  else (.IOERR, s)

def retryerTurn (s : Server ι ω) : Server ι ω :=
  match s.retryerQueue with
  | [] => { s with retryer := .asleep false }
  | lid :: q =>
    let s := { s with retryerQueue := q }
    match (s.lockTable lid).waitingCls with
    | [] => s
    | c :: _ =>
      let s := s.setLock lid { s.lockTable lid with ownerCl := some c }
      { s with jobs := addObjJob s.jobs (.retryer lid) }

def revokerTurn (s : Server ι ω) : Server ι ω :=
  match s.revokerQueue with
  | [] => { s with revoker := .asleep false }
  | lid :: q =>
    let s := { s with revokerQueue := q }
    if (s.lockTable lid).waitingCls.length > 0 then
      { s with jobs := addObjJob s.jobs (.revoker lid) }
    else s

def takeJob (s : Server ι ω) (w : ω) : Option (Server ι ω) :=
  match s.jobs with
  | [] => none
  | .retryer lid :: js => some ({ s with jobs := js }.setWorker w (.retryStart lid))
  | .revoker lid :: js => some ({ s with jobs := js }.setWorker w (.revokeStart lid))

/-- `handle h(target->owner_cl)` and `safebind`: the owner is read and its client called. With
no owner there is nobody to bind to. -/
def callOwner (s : Server ι ω) (w : ω) : Option (Server ι ω) :=
  match s.worker w with
  | .retryStart lid =>
    match (s.lockTable lid).ownerCl with
    | none => some (s.setWorker w (.retryAnswered lid .RPCERR))
    | some c => some (s.setWorker w (.retryCalling lid c))
  | .revokeStart lid =>
    match (s.lockTable lid).ownerCl with
    | none => some (s.setWorker w (.revokeAnswered lid .RPCERR))
    | some c => some (s.setWorker w (.revokeCalling lid c))
  | _ => none

/-- `retryer_rpc` after its RPC; `none` where it pops from an empty queue. -/
def retryFinish (s : Server ι ω) (w : ω) (lid : ℕ) (ret : RStatus) : Option (Server ι ω) :=
  let s := s.setWorker w .idle
  let target := s.lockTable lid
  if ret = .OK then
    match target.waitingCls with
    | [] => none
    | _ :: q =>
      let s := s.setLock lid { target with waitingCls := q }
      some (if q.isEmpty then s else s.askRevoker lid)
  else
    let s := s.setLock lid { target with ownerCl := none }
    some { s with retryerQueue := s.retryerQueue ++ [lid] }

def revokeFinish (s : Server ι ω) (w : ω) (lid : ℕ) (ret : RStatus) : Server ι ω :=
  let s := s.setWorker w .idle
  if ret = .OK then s else { s with revokerQueue := s.revokerQueue ++ [lid] }

end Server
end YFS.Lock
