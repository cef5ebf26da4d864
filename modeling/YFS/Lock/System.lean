import YFS.Library.Machine
import YFS.Lock.Server

/-! # The lock system

Any number of caching clients and the server, with every interleaving of their
mutex-protected steps and of the RPCs between them. An RPC is a position of its caller:
the call is under way until the step that runs the handler, and answered until the step
in which the caller goes on. The acquire RPC may also fail at its caller, before or after
its handler has run; a request whose caller has given up can still reach the server.
-/

namespace YFS.Lock
open YFS.Library

/-- Clients `ι`, each with threads `τ` and pool workers `ω`; the server's workers are `ω` too.
`lost` are acquire requests under way whose callers have given up. `granted` is history: the
server has granted the lock to the client and not got it back since. -/
structure Sys (ι τ ω : Type) where
  server : Server ι ω
  client : ι → Client τ ω
  lost : List (ι × ℕ)
  granted : ι → ℕ → Bool

/-- The steps of the system; `pick` is the thread a condition signal reaches. -/
inductive Action (ι τ ω : Type) where
  | acquire (c : ι) (t : τ) (lid : ℕ)
  | acquireWake (c : ι) (t : τ)
  | acquireHandle (c : ι) (t : τ)
  | acquireReturn (c : ι) (t : τ)
  | acquireFail (c : ι) (t : τ) (f : RpcFailure)
  | acquireLate (c : ι) (lid : ℕ)
  | release (c : ι) (t : τ) (lid : ℕ) (pickThread : Option τ) (pickWorker : Option ω)
  | revokeHandle (w : ω)
  | revokeWake (c : ι) (w : ω)
  | retryHandle (w : ω) (pick : Option τ)
  | releaser (c : ι)
  | releaserWake (c : ι)
  | releaserTake (c : ι) (w : ω)
  | releaserRpc (c : ι) (w : ω)
  | tmoutWake (c : ι) (w : ω)
  | releaseHandle (c : ι) (w : ω)
  | releaseReturn (c : ι) (w : ω) (pick : Option τ)
  | retryer
  | retryerWake
  | revoker
  | revokerWake
  | takeJob (w : ω)
  | callOwner (w : ω)
  | retryFinish (w : ω)
  | revokeFinish (w : ω)

namespace Sys
variable {ι τ ω : Type} [DecidableEq ι] [DecidableEq τ] [DecidableEq ω]

def init : Sys ι τ ω := ⟨.new, fun _ => .new, [], fun _ _ => false⟩

def setClient (s : Sys ι τ ω) (c : ι) (cl : Client τ ω) : Sys ι τ ω :=
  { s with client := Function.update s.client c cl }

def setServer (s : Sys ι τ ω) (srv : Server ι ω) : Sys ι τ ω := { s with server := srv }

def setGranted (s : Sys ι τ ω) (c : ι) (lid : ℕ) (b : Bool) : Sys ι τ ω :=
  { s with granted := Function.update s.granted c (Function.update (s.granted c) lid b) }

def serveAcquire (s : Sys ι τ ω) (c : ι) (lid : ℕ) : Status × Sys ι τ ω :=
  let (ret, srv) := s.server.acquire lid c
  (ret, if ret = .OK then (s.setServer srv).setGranted c lid true else s.setServer srv)

/-- The revoke handler of client `c` for worker `w` comes to a wait or to its reply. -/
def serveRevoke (s : Sys ι τ ω) (c : ι) (w : ω) (lid : ℕ) (r : Client τ ω × Option RStatus) :
    Sys ι τ ω :=
  match r.2 with
  | none => s.setClient c r.1
  | some ret => (s.setClient c r.1).setServer (s.server.setWorker w (.revokeAnswered lid ret))

def step (s : Sys ι τ ω) : Action ι τ ω → Option (Sys ι τ ω)
  | .acquire c t lid =>
    if (s.client c).thread t = .idle then some (s.setClient c ((s.client c).acquire t lid))
    else none
  | .acquireWake c t =>
    match (s.client c).thread t with
    | .queueWait lid _ =>
      ((s.client c).table lid).map fun e => s.setClient c ((s.client c).retryWait t lid e)
    | _ => none
  | .acquireHandle c t =>
    match (s.client c).thread t with
    | .calling lid =>
      let (ret, s') := s.serveAcquire c lid
      some (s'.setClient c ((s.client c).setThread t (.answered lid ret)))
    | _ => none
  | .acquireReturn c t =>
    match (s.client c).thread t with
    | .answered lid ret => ((s.client c).table lid).map fun e =>
        s.setClient c ((s.client c).acquireReturn t lid e (.returned ret))
    | _ => none
  | .acquireFail c t f =>
    match (s.client c).thread t with
    | .calling lid => ((s.client c).table lid).map fun e =>
        { s.setClient c ((s.client c).acquireReturn t lid e (.failed f)) with
          lost := (c, lid) :: s.lost }
    | .answered lid _ => ((s.client c).table lid).map fun e =>
        s.setClient c ((s.client c).acquireReturn t lid e (.failed f))
    | _ => none
  | .acquireLate c lid =>
    if (c, lid) ∈ s.lost then some { (s.serveAcquire c lid).2 with lost := s.lost.erase (c, lid) }
    else none
  | .release c t lid pickThread pickWorker =>
    if (s.client c).thread t = .idle then
      some (s.setClient c ((s.client c).release t lid pickThread pickWorker).2)
    else none
  | .revokeHandle w =>
    match s.server.worker w with
    | .revokeCalling lid c =>
      if (s.client c).handler w = .idle then
        some (s.serveRevoke c w lid ((s.client c).revokeHandler w lid))
      else none
    | _ => none
  | .revokeWake c w =>
    match (s.client c).handler w with
    | .revokeWait lid _ => ((s.client c).table lid).map fun e =>
        s.serveRevoke c w lid ((s.client c).revokeLoop w lid e)
    | _ => none
  | .retryHandle w pick =>
    match s.server.worker w with
    | .retryCalling lid c =>
      let (cl, ret) := (s.client c).retryHandler lid pick
      let s' := (s.setClient c cl).setServer (s.server.setWorker w (.retryAnswered lid ret))
      some (if ret = .OK then s'.setGranted c lid true else s')
    | _ => none
  | .releaser c =>
    if (s.client c).releaser = .awake then some (s.setClient c (s.client c).releaserTurn) else none
  | .releaserWake c =>
    match (s.client c).releaser with
    | .asleep _ => some (s.setClient c { s.client c with releaser := .awake })
    | .awake => none
  | .releaserTake c w =>
    match (s.client c).worker w, (s.client c).jobs with
    | .idle, lid :: js =>
      some (s.setClient c ({ s.client c with jobs := js }.setWorker w (.start lid)))
    | _, _ => none
  | .releaserRpc c w =>
    match (s.client c).worker w with
    | .start lid => ((s.client c).table lid).bind fun e =>
        if e.state = .RELEASING then some (s.setClient c ((s.client c).releaserRpc w lid e))
        else none
    | _ => none
  | .tmoutWake c w =>
    match (s.client c).worker w with
    | .tmoutWait lid _ => ((s.client c).table lid).map fun e =>
        s.setClient c ((s.client c).tmoutWake w lid e)
    | _ => none
  | .releaseHandle c w =>
    match (s.client c).worker w with
    | .calling lid =>
      let (ret, srv) := s.server.release lid c
      let s' := (s.setServer srv).setClient c ((s.client c).setWorker w (.answered lid ret))
      some (if ret = .OK then s'.setGranted c lid false else s')
    | _ => none
  | .releaseReturn c w pick =>
    match (s.client c).worker w with
    | .answered lid ret => ((s.client c).table lid).bind fun e =>
        if e.state = .RELEASING then
          some (s.setClient c ((s.client c).releaseReturn w lid e ret pick))
        else none
    | _ => none
  | .retryer =>
    if s.server.retryer = .awake then some (s.setServer s.server.retryerTurn) else none
  | .retryerWake =>
    match s.server.retryer with
    | .asleep _ => some (s.setServer { s.server with retryer := .awake })
    | .awake => none
  | .revoker =>
    if s.server.revoker = .awake then some (s.setServer s.server.revokerTurn) else none
  | .revokerWake =>
    match s.server.revoker with
    | .asleep _ => some (s.setServer { s.server with revoker := .awake })
    | .awake => none
  | .takeJob w =>
    if s.server.worker w = .idle then (s.server.takeJob w).map s.setServer else none
  | .callOwner w => (s.server.callOwner w).map s.setServer
  | .retryFinish w =>
    match s.server.worker w with
    | .retryAnswered lid ret => (s.server.retryFinish w lid ret).map s.setServer
    | _ => none
  | .revokeFinish w =>
    match s.server.worker w with
    | .revokeAnswered lid ret => some (s.setServer (s.server.revokeFinish w lid ret))
    | _ => none

end Sys

def lockSystem (ι τ ω : Type) [DecidableEq ι] [DecidableEq τ] [DecidableEq ω] :
    Machine (Sys ι τ ω) (Action ι τ ω) := ⟨Sys.init, Sys.step⟩

end YFS.Lock
