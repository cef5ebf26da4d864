import Mathlib.Tactic

/-! # The caching lock client

`lock_client_cache` with the threads that call it and the workers of its pool. Each
function below is one stretch of the code under `lock_client_cache_mutex`; where the
code drops the mutex, in a condition wait or around an RPC, the position of the thread
is kept. A condition variable is the set of threads positioned at it, each with a flag
that says whether it has been signalled. A wake-up may also be spurious.
-/

namespace YFS.Lock

inductive Status where
  | OK
  | RETRY
  | RPCERR
  | NOENT
  | IOERR
  deriving DecidableEq, Repr

inductive RStatus where
  | OK
  | RPCERR
  deriving DecidableEq, Repr

/-- The negative results of `rpcc::call`, from `rpc_const`. -/
inductive RpcFailure where
  | timeout
  | unmarshalArgs
  | unmarshalReply
  | atmostonce
  | oldsrv
  | bind
  | cancel
  deriving DecidableEq, Repr

/-- What `cl->call` returns: the status the handler returned, or a failure of the RPC. -/
inductive CallResult where
  | returned (ret : Status)
  | failed (f : RpcFailure)
  deriving DecidableEq, Repr

inductive LockState where
  | NONE
  | FREE
  | LOCKED
  | ACQUIRING
  | RELEASING
  deriving DecidableEq, Repr

/-- `cache_lock` without its condition variables; `owner` is `none` for the thread id 0. -/
structure CacheLock (τ : Type) where
  state : LockState
  owner : Option τ
  ifrevoke : Bool
  iftimout : Bool
  ifrlsreq : Bool
  waitThreads : ℤ
  deriving DecidableEq, Repr

def CacheLock.new {τ : Type} : CacheLock τ := ⟨.NONE, none, false, false, false, 0⟩

inductive ThreadPc where
  | idle
  | queueWait (lid : ℕ) (signalled : Bool)
  | calling (lid : ℕ)
  | answered (lid : ℕ) (ret : Status)
  deriving DecidableEq, Repr

inductive ReleaserPc where
  | idle
  | start (lid : ℕ)
  | tmoutWait (lid : ℕ) (signalled : Bool)
  | calling (lid : ℕ)
  | answered (lid : ℕ) (ret : Status)
  deriving DecidableEq, Repr

/-- Where the `revoke_handler` serving one of the lock server's workers is. -/
inductive HandlerPc where
  | idle
  | revokeWait (lid : ℕ) (signalled : Bool)
  deriving DecidableEq, Repr

/-- A thread that loops over a queue and sleeps on a condition variable while it is empty. -/
inductive Daemon where
  | awake
  | asleep (signalled : Bool)
  deriving DecidableEq, Repr

def Daemon.signal : Daemon → Daemon
  | .awake => .awake
  | .asleep _ => .asleep true

/-- The capacity `100 * sz` of the queue of a `ThrPool` of `sz = 20` threads. -/
def poolCapacity : ℕ := 2000

/-- `addObjJob` of a pool that does not block: a job that finds the queue full is refused. -/
def addObjJob {α : Type} (q : List α) (j : α) : List α :=
  if q.length < poolCapacity then q ++ [j] else q

/-- One `lock_client_cache`. `held` is history: the thread has returned from `acquire` of the
lock and has not called `release` since. -/
structure Client (τ ω : Type) where
  table : ℕ → Option (CacheLock τ)
  releaserQueue : List ℕ
  releaser : Daemon
  jobs : List ℕ
  worker : ω → ReleaserPc
  handler : ω → HandlerPc
  thread : τ → ThreadPc
  held : τ → ℕ → Bool

namespace Client
variable {τ ω : Type} [DecidableEq τ] [DecidableEq ω]

def new : Client τ ω where
  table _ := none
  releaserQueue := []
  releaser := .awake
  jobs := []
  worker _ := .idle
  handler _ := .idle
  thread _ := .idle
  held _ _ := false

def setEntry (c : Client τ ω) (lid : ℕ) (e : CacheLock τ) : Client τ ω :=
  { c with table := Function.update c.table lid (some e) }

def setThread (c : Client τ ω) (t : τ) (pc : ThreadPc) : Client τ ω :=
  { c with thread := Function.update c.thread t pc }

def setWorker (c : Client τ ω) (w : ω) (pc : ReleaserPc) : Client τ ω :=
  { c with worker := Function.update c.worker w pc }

def setHandler (c : Client τ ω) (w : ω) (pc : HandlerPc) : Client τ ω :=
  { c with handler := Function.update c.handler w pc }

def setHeld (c : Client τ ω) (t : τ) (lid : ℕ) (b : Bool) : Client τ ω :=
  { c with held := Function.update c.held t (Function.update (c.held t) lid b) }

def pushRelease (c : Client τ ω) (lid : ℕ) : Client τ ω :=
  { c with releaserQueue := c.releaserQueue ++ [lid] }

/-- `pthread_cond_signal(&queue_cond)`, which reaches the thread in `pick`. -/
def signalQueue (c : Client τ ω) (lid : ℕ) (pick : Option τ) : Client τ ω :=
  match pick with
  | none => c
  | some t =>
    match c.thread t with
    | .queueWait l _ => if l = lid then c.setThread t (.queueWait lid true) else c
    | _ => c

def signalRevoke (c : Client τ ω) (lid : ℕ) (pick : Option ω) : Client τ ω :=
  match pick with
  | none => c
  | some w =>
    match c.handler w with
    | .revokeWait l _ => if l = lid then c.setHandler w (.revokeWait lid true) else c
    | _ => c

def signalTmout (c : Client τ ω) (lid : ℕ) (pick : Option ω) : Client τ ω :=
  match pick with
  | none => c
  | some w =>
    match c.worker w with
    | .tmoutWait l _ => if l = lid then c.setWorker w (.tmoutWait lid true) else c
    | _ => c

def grant (c : Client τ ω) (t : τ) (lid : ℕ) (e : CacheLock τ) : Client τ ω :=
  ((c.setEntry lid { e with
      state := .LOCKED, owner := some t, waitThreads := e.waitThreads - 1 }).setThread t
    .idle).setHeld t lid true

def startCall (c : Client τ ω) (t : τ) (lid : ℕ) (e : CacheLock τ) : Client τ ω :=
  (c.setEntry lid { e with state := .ACQUIRING }).setThread t (.calling lid)

/-- `acquire` from the label `RETRY_WAIT` on: the waiting loop and what follows it. -/
def retryWait (c : Client τ ω) (t : τ) (lid : ℕ) (e : CacheLock τ) : Client τ ω :=
  match e.state with
  | .FREE => c.grant t lid e
  | .NONE => c.startCall t lid e
  | _ => (c.setEntry lid e).setThread t (.queueWait lid false)

/-- `lock_client_cache::acquire` up to the point where it returns, waits or calls the server. -/
def acquire (c : Client τ ω) (t : τ) (lid : ℕ) : Client τ ω :=
  let e := (c.table lid).getD CacheLock.new
  let e := { e with waitThreads := e.waitThreads + 1 }
  match e.state with
  | .LOCKED => if e.owner = some t then c.grant t lid e else c.retryWait t lid e
  | .ACQUIRING => c.retryWait t lid e
  | .RELEASING => c.retryWait t lid e
  | .NONE => c.startCall t lid e
  | .FREE => c.grant t lid e

/-- `acquire` after the RPC has returned: everything but `RETRY` becomes `OK`. -/
def acquireReturn (c : Client τ ω) (t : τ) (lid : ℕ) (e : CacheLock τ) (ret : CallResult) :
    Client τ ω :=
  if ret = .returned .RETRY then c.retryWait t lid e else c.grant t lid e

def release (c : Client τ ω) (t : τ) (lid : ℕ) (pickThread : Option τ) (pickWorker : Option ω) :
    Status × Client τ ω :=
  match c.table lid with
  | none => (.NOENT, c.setHeld t lid false)
  | some e =>
    if e.state = .LOCKED ∧ e.owner = some t then
      let c := (c.setHeld t lid false).setEntry lid { e with state := .FREE }
      (.OK,
        if e.iftimout ∨ (e.ifrlsreq ∧ e.waitThreads = 0) then c.signalTmout lid pickWorker
        else if e.ifrevoke then c.signalRevoke lid pickWorker
        else c.signalQueue lid pickThread)
    else (.NOENT, c.setHeld t lid false)

/-- The waiting loop of `revoke_handler` and what follows it; no status while it waits. -/
def revokeLoop (c : Client τ ω) (w : ω) (lid : ℕ) (e : CacheLock τ) :
    Client τ ω × Option RStatus :=
  if e.state = .FREE then
    let c := ((c.setEntry lid { e with ifrevoke := false, state := .RELEASING }).setHandler w
      .idle).pushRelease lid
    ({ c with releaser := c.releaser.signal }, some .OK)
  else ((c.setEntry lid e).setHandler w (.revokeWait lid false), none)

def revokeHandler (c : Client τ ω) (w : ω) (lid : ℕ) : Client τ ω × Option RStatus :=
  match c.table lid with
  | none => (c, some .RPCERR)
  | some e => c.revokeLoop w lid { e with ifrevoke := true }

def retryHandler (c : Client τ ω) (lid : ℕ) (pick : Option τ) : Client τ ω × RStatus :=
  match c.table lid with
  | none => (c, .RPCERR)
  | some e =>
    if e.state = .ACQUIRING then
      ((c.setEntry lid { e with state := .FREE }).signalQueue lid pick, .OK)
    else (c, .RPCERR)

def releaserTurn (c : Client τ ω) : Client τ ω :=
  match c.releaserQueue with
  | [] => { c with releaser := .asleep false }
  | lid :: q => { c with releaserQueue := q, jobs := addObjJob c.jobs lid }

def sendRelease (c : Client τ ω) (w : ω) (lid : ℕ) (e : CacheLock τ) : Client τ ω :=
  (c.setEntry lid { e with iftimout := false, ifrlsreq := false, state := .RELEASING }).setWorker w
    (.calling lid)

def releaserRpc (c : Client τ ω) (w : ω) (lid : ℕ) (e : CacheLock τ) : Client τ ω :=
  if e.waitThreads > 0 then
    (c.setEntry lid { e with state := .FREE, ifrlsreq := true }).setWorker w (.tmoutWait lid false)
  else c.sendRelease w lid e

/-- The timed wait of `releaser_rpc` returns, signalled, timed out or neither. -/
def tmoutWake (c : Client τ ω) (w : ω) (lid : ℕ) (e : CacheLock τ) : Client τ ω :=
  if e.state = .FREE then c.sendRelease w lid { e with iftimout := true }
  else (c.setEntry lid { e with iftimout := true }).setWorker w (.tmoutWait lid false)

def releaseReturn (c : Client τ ω) (w : ω) (lid : ℕ) (e : CacheLock τ) (ret : Status)
    (pick : Option τ) : Client τ ω :=
  if ret = .OK then
    let c := (c.setEntry lid { e with owner := none, state := .NONE }).setWorker w .idle
    if e.waitThreads > 0 then c.signalQueue lid pick else c
  else (c.setWorker w .idle).pushRelease lid

end Client
end YFS.Lock
