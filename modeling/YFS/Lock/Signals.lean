import YFS.Lock.Cache
import YFS.Lock.Registry

/-! # The signals to the background threads

The retryer and the revoker of the server and the releaser of a client sleep while their
queue is empty. Whoever puts a lock into the queue signals the thread, except for the
jobs of the pools: where an RPC has failed they put the lock back and signal nobody.
-/

namespace YFS.Lock
open YFS.Library

variable {ι τ ω : Type} [DecidableEq ι] [DecidableEq τ] [DecidableEq ω]

/-- The thread is not blocked without a signal pending while there is work. -/
def Daemon.Alert (d : Daemon) (q : List ℕ) : Prop := q ≠ [] → d ≠ .asleep false

theorem Daemon.Alert.awake (q : List ℕ) : Daemon.awake.Alert q := fun _ => by simp

theorem Daemon.Alert.signal (d : Daemon) (q : List ℕ) : d.signal.Alert q := by
  cases d <;> simp [Alert, Daemon.signal]

theorem Daemon.alert_nil (d : Daemon) : d.Alert [] := fun h => absurd rfl h

/-- A lock is put into the queue and nobody signalled. -/
theorem Daemon.alert_append_iff (d : Daemon) (q : List ℕ) (lid : ℕ) :
    d.Alert (q ++ [lid]) ↔ d ≠ .asleep false := by
  simp [Alert]

def Server.Alert (s : Server ι ω) : Prop :=
  s.retryer.Alert s.retryerQueue ∧ s.revoker.Alert s.revokerQueue

def Client.Alert (c : Client τ ω) : Prop := c.releaser.Alert c.releaserQueue

/-- A failed retry or revoke puts its lock back while the thread is blocked. -/
def Registry.losesSignal (s : Registry ι ω) : RegistryEvent ι ω → Bool
  | .retryFinish w =>
    match s.server.worker w with
    | .retryAnswered _ ret => ret ≠ .OK ∧ s.server.retryer = .asleep false
    | _ => false
  | .revokeFinish w =>
    match s.server.worker w with
    | .revokeAnswered _ ret => ret ≠ .OK ∧ s.server.revoker = .asleep false
    | _ => false
  | _ => false

def Cache.losesSignal (s : Cache τ ω) : CacheEvent τ ω → Bool
  | .releaseReturn w res pick =>
    (s.step (.releaseReturn w res pick)).isSome ∧ res.status ≠ .OK ∧
      s.client.releaser = .asleep false
  | _ => false

namespace Server
variable {srv srv' : Server ι ω} {lid : ℕ} {c : ι} {w : ω}

omit [DecidableEq ι] [DecidableEq ω] in
theorem Alert.acquire (ha : srv.Alert) : (srv.acquire lid c).2.Alert := by
  simp only [Server.acquire]
  split
  · exact ha
  · dsimp only
    split
    · exact ⟨ha.1, Daemon.Alert.signal _ _⟩
    · exact ha

omit [DecidableEq ω] in
theorem Alert.release (ha : srv.Alert) : (srv.release lid c).2.Alert := by
  rw [Server.release]
  split
  · exact ⟨Daemon.Alert.signal _ _, ha.2⟩
  · exact ha

omit [DecidableEq ι] [DecidableEq ω] in
theorem Alert.retryerTurn (ha : srv.Alert) (hd : srv.retryer = .awake) :
    srv.retryerTurn.Alert := by
  have hawake (q : List ℕ) : srv.retryer.Alert q := by
    rw [hd]
    exact Daemon.Alert.awake q
  simp only [Server.retryerTurn]
  split
  · rename_i hq
    refine ⟨?_, ha.2⟩
    simpa only [hq] using Daemon.alert_nil _
  · split
    · exact ⟨hawake _, ha.2⟩
    · exact ⟨hawake _, ha.2⟩

omit [DecidableEq ι] [DecidableEq ω] in
theorem Alert.revokerTurn (ha : srv.Alert) (hd : srv.revoker = .awake) :
    srv.revokerTurn.Alert := by
  have hawake (q : List ℕ) : srv.revoker.Alert q := by
    rw [hd]
    exact Daemon.Alert.awake q
  simp only [Server.revokerTurn]
  split
  · rename_i hq
    refine ⟨ha.1, ?_⟩
    simpa only [hq] using Daemon.alert_nil _
  · split
    · exact ⟨ha.1, hawake _⟩
    · exact ⟨ha.1, hawake _⟩

section
omit [DecidableEq ι]

theorem Alert.takeJob (ha : srv.Alert) (h : srv.takeJob w = some srv') : srv'.Alert := by
  simp only [Server.takeJob] at h
  split at h <;> cases h <;> exact ha

theorem Alert.callOwner (ha : srv.Alert) (h : srv.callOwner w = some srv') : srv'.Alert := by
  simp only [Server.callOwner] at h
  split at h
  · split at h <;> cases h <;> exact ha
  · split at h <;> cases h <;> exact ha
  · cases h

theorem Alert.retryFinish {ret : RStatus} (ha : srv.Alert)
    (hl : ret = .OK ∨ srv.retryer ≠ .asleep false) (h : srv.retryFinish w lid ret = some srv') :
    srv'.Alert := by
  simp only [Server.retryFinish] at h
  split at h
  · split at h
    · cases h
    · cases h
      split
      · exact ha
      · exact ⟨ha.1, Daemon.Alert.signal _ _⟩
  · rename_i hret
    cases h
    exact ⟨fun _ => hl.resolve_left hret, ha.2⟩

theorem Alert.revokeFinish {ret : RStatus} (ha : srv.Alert)
    (hl : ret = .OK ∨ srv.revoker ≠ .asleep false) : (srv.revokeFinish w lid ret).Alert := by
  simp only [Server.revokeFinish]
  split
  · exact ha
  · rename_i hret
    exact ⟨ha.1, fun _ => hl.resolve_left hret⟩

end

end Server

section Registry
variable {s s' : Registry ι ω} {ev : RegistryEvent ι ω}

theorem Server.Alert.step (ha : s.server.Alert) (hl : s.losesSignal ev = false)
    (h : s.step ev = some s') : s'.server.Alert := by
  cases ev with
  | acquire lid c =>
    cases h
    exact ha.acquire
  | release lid c =>
    cases h
    split <;> exact ha.release
  | retryer =>
    simp only [Registry.step] at h
    split at h
    · rename_i hd
      cases h
      exact ha.retryerTurn hd
    · cases h
  | retryerWake =>
    simp only [Registry.step] at h
    split at h
    · cases h
      exact ⟨Daemon.Alert.awake _, ha.2⟩
    · cases h
  | revoker =>
    simp only [Registry.step] at h
    split at h
    · rename_i hd
      cases h
      exact ha.revokerTurn hd
    · cases h
  | revokerWake =>
    simp only [Registry.step] at h
    split at h
    · cases h
      exact ⟨ha.1, Daemon.Alert.awake _⟩
    · cases h
  | takeJob w =>
    simp only [Registry.step] at h
    split at h
    · obtain ⟨srv, hsrv, rfl⟩ := Option.map_eq_some_iff.mp h
      exact ha.takeJob hsrv
    · cases h
  | callOwner w =>
    obtain ⟨srv, hsrv, rfl⟩ := Option.map_eq_some_iff.mp h
    split <;> exact ha.callOwner hsrv
  | retryReply w ret =>
    simp only [Registry.step] at h
    split at h <;> cases h
    exact ha
  | revokeReply w ret =>
    simp only [Registry.step] at h
    split at h <;> cases h
    exact ha
  | retryFinish w =>
    simp only [Registry.step] at h
    split at h
    · rename_i lid ret hw
      obtain ⟨srv, hsrv, rfl⟩ := Option.map_eq_some_iff.mp h
      refine ha.retryFinish ?_ hsrv
      simpa [Registry.losesSignal, hw, or_iff_not_imp_left] using hl
    · cases h
  | revokeFinish w =>
    simp only [Registry.step] at h
    split at h
    · rename_i lid ret hw
      cases h
      refine ha.revokeFinish ?_
      simpa [Registry.losesSignal, hw, or_iff_not_imp_left] using hl
    · cases h

theorem Registry.not_losesSignal_of_alert (h : ∀ s', s.step ev = some s' → s'.server.Alert) :
    s.losesSignal ev = false := by
  cases ev with
  | retryFinish w =>
    cases hw : s.server.worker w with
    | retryAnswered lid ret =>
      by_contra hl
      simp only [losesSignal, hw, decide_eq_false_iff_not, not_not] at hl
      simp only [step, hw, Server.retryFinish, if_neg hl.1, Option.map_some] at h
      exact (Daemon.alert_append_iff _ _ _).mp (h _ rfl).1 hl.2
    | _ => simp [losesSignal, hw]
  | revokeFinish w =>
    cases hw : s.server.worker w with
    | revokeAnswered lid ret =>
      by_contra hl
      simp only [losesSignal, hw, decide_eq_false_iff_not, not_not] at hl
      simp only [step, hw, Server.revokeFinish, if_neg hl.1] at h
      exact (Daemon.alert_append_iff _ _ _).mp (h _ rfl).2 hl.2
    | _ => simp [losesSignal, hw]
  | _ => rfl

end Registry

namespace Client
variable {c : Client τ ω} {lid : ℕ} {t : τ} {w : ω} {e : CacheLock τ}

omit [DecidableEq ω] in
theorem Alert.retryWait (ha : c.Alert) : (c.retryWait t lid e).Alert := by
  rw [Client.retryWait]
  split <;> exact ha

omit [DecidableEq ω] in
theorem Alert.acquire (ha : c.Alert) : (c.acquire t lid).Alert := by
  simp only [Client.acquire]
  split
  · split
    · exact ha
    · exact ha.retryWait
  · exact ha.retryWait
  · exact ha.retryWait
  · exact ha
  · exact ha

omit [DecidableEq ω] in
theorem Alert.acquireReturn {res : CallResult} (ha : c.Alert) :
    (c.acquireReturn t lid e res).Alert := by
  rw [Client.acquireReturn]
  split
  · exact ha.retryWait
  · exact ha

theorem Alert.release (ha : c.Alert) (pt : Option τ) (pw : Option ω) :
    (c.release t lid pt pw).2.Alert := by
  rw [Client.release]
  split
  · exact ha
  · split
    · dsimp only
      rw [signalTmout_eq, signalRevoke_eq, signalQueue_eq]
      split
      · exact ha
      · split <;> exact ha
    · exact ha

omit [DecidableEq τ] in
theorem Alert.revokeLoop (ha : c.Alert) : (c.revokeLoop w lid e).1.Alert := by
  rw [Client.revokeLoop]
  split
  · exact Daemon.Alert.signal _ _
  · exact ha

omit [DecidableEq τ] in
theorem Alert.revokeHandler (ha : c.Alert) : (c.revokeHandler w lid).1.Alert := by
  rw [Client.revokeHandler]
  split
  · exact ha
  · exact ha.revokeLoop

omit [DecidableEq ω] in
theorem Alert.retryHandler (ha : c.Alert) (pick : Option τ) :
    (c.retryHandler lid pick).1.Alert := by
  rw [Client.retryHandler]
  split
  · exact ha
  · split
    · rw [signalQueue_eq]
      exact ha
    · exact ha

omit [DecidableEq τ] [DecidableEq ω] in
theorem alert_releaserTurn (hd : c.releaser = .awake) : c.releaserTurn.Alert := by
  rw [Client.releaserTurn]
  split
  · rename_i hq
    simpa only [Alert, hq] using Daemon.alert_nil _
  · simpa only [Alert, hd] using Daemon.Alert.awake _

omit [DecidableEq τ] in
theorem Alert.releaserRpc (ha : c.Alert) : (c.releaserRpc w lid e).Alert := by
  rw [Client.releaserRpc]
  split <;> exact ha

omit [DecidableEq τ] in
theorem Alert.tmoutWake (ha : c.Alert) : (c.tmoutWake w lid e).Alert := by
  rw [Client.tmoutWake]
  split <;> exact ha

theorem Alert.releaseReturn {ret : Status} (ha : c.Alert) (pick : Option τ)
    (hl : ret = .OK ∨ c.releaser ≠ .asleep false) : (c.releaseReturn w lid e ret pick).Alert := by
  rw [Client.releaseReturn]
  split
  · dsimp only
    rw [signalQueue_eq]
    split <;> exact ha
  · rename_i hret
    exact fun _ => hl.resolve_left hret

end Client

section Cache
variable {s s' : Cache τ ω} {ev : CacheEvent τ ω}

theorem Client.Alert.step (ha : s.client.Alert) (hl : s.losesSignal ev = false)
    (h : s.step ev = some s') : s'.client.Alert := by
  rcases Cache.moves_or_rests h with ⟨lid, hm⟩ | hr
  · cases hm with
    | acquire t ht => exact ha.acquire
    | acquireWake ht he => exact ha.retryWait
    | answer ret ht hret => exact ha
    | answerRetry ht => exact ha
    | acquireReturn res ht he => exact ha.acquireReturn
    | release t pt pw ht => exact ha.release pt pw
    | revoke w hw => exact ha.revokeHandler
    | revokeWake hw he => exact ha.revokeLoop
    | retry pick => exact ha.retryHandler pick
    | releaser hd hq => exact alert_releaserTurn hd
    | releaserTake hw hj => exact ha
    | releaserRpc hw he hst => exact ha.releaserRpc
    | tmoutWake hw he => exact ha.tmoutWake
    | releaseReturn res pick hw he hst =>
      apply ha.releaseReturn pick
      simpa [Cache.losesSignal, h, or_iff_not_imp_left] using hl
  · cases hr with
    | sleep hq =>
      simp only [Cache.setClient, Alert, hq]
      exact Daemon.alert_nil _
    | wake => exact Daemon.Alert.awake _

theorem Cache.not_losesSignal_of_alert (h : ∀ s', s.step ev = some s' → s'.client.Alert) :
    s.losesSignal ev = false := by
  cases ev with
  | releaseReturn w res pick =>
    by_contra hl
    simp only [losesSignal, decide_eq_false_iff_not, not_not] at hl
    obtain ⟨hsome, hret, hasleep⟩ := hl
    obtain ⟨s', hs'⟩ := Option.isSome_iff_exists.mp hsome
    have ha := h s' hs'
    rcases moves_or_rests hs' with ⟨lid, hm⟩ | hr
    · cases hm
      simp only [setClient, Client.releaseReturn, if_neg hret] at ha
      exact (Daemon.alert_append_iff _ _ _).mp ha hasleep
    · cases hr
  | _ => rfl

end Cache

/-- In a run of the server, and in a run of a client, no background thread is ever blocked without
a signal while there is work, if and only if no failed RPC puts its lock back while the thread
that is to look after it is blocked. -/
theorem alert_iff (evs : List (RegistryEvent ι ω)) (cevs : List (CacheEvent τ ω)) :
    ((registrySystem ι ω).Throughout (fun s => s.server.Alert) (registrySystem ι ω).init evs ↔
      (registrySystem ι ω).Along (fun s ev => s.losesSignal ev = false)
        (registrySystem ι ω).init evs) ∧
    ((cacheSystem τ ω).Throughout (fun s => s.client.Alert) (cacheSystem τ ω).init cevs ↔
      (cacheSystem τ ω).Along (fun s ev => s.losesSignal ev = false)
        (cacheSystem τ ω).init cevs) := by
  have hany {S E : Type} (m : Machine S E) (es : List E) :
      m.Along (fun _ _ => True) m.init es := Machine.along_of_all (fun _ _ => trivial) _ es
  constructor
  · exact (hany (registrySystem ι ω) evs).throughout_iff (fun _ ha => ha)
      (fun _ _ _ ha _ hl h => ha.step hl h)
      (fun _ _ _ _ h => Registry.not_losesSignal_of_alert h)
      ⟨Daemon.alert_nil _, Daemon.alert_nil _⟩
  · exact (hany (cacheSystem τ ω) cevs).throughout_iff (fun _ ha => ha)
      (fun _ _ _ ha _ hl h => ha.step hl h)
      (fun _ _ _ _ h => Cache.not_losesSignal_of_alert h) (Daemon.alert_nil _)

section Runs

/-- The retry call for client `true` fails after the retryer has gone to sleep. -/
def failedRetry : List (RegistryEvent Bool (Fin 1)) :=
  [.acquire 7 false, .acquire 7 true, .release 7 false, .retryer, .retryer, .takeJob 0,
    .callOwner 0, .retryReply 0 .RPCERR, .retryFinish 0]

/-- The revoke call for client `false` fails after the revoker has gone to sleep. -/
def failedRevoke : List (RegistryEvent Bool (Fin 1)) :=
  [.acquire 7 false, .acquire 7 true, .revoker, .revoker, .takeJob 0, .callOwner 0,
    .revokeReply 0 .RPCERR, .revokeFinish 0]

/-- The release call times out after the releaser has gone to sleep. -/
def failedRelease : List (CacheEvent (Fin 1) (Fin 1)) :=
  [.acquire 0 7, .answer 0 .OK, .acquireReturn 0 (.returned .OK), .release 0 7 none none,
    .revoke 0 7, .releaser, .releaser, .releaserTake 0, .releaserRpc 0,
    .releaseReturn 0 (.failed .timeout) none]

/-- Lock 7 is back in its queue and nobody has told the thread. -/
theorem lost_signals :
    (∃ s, (registrySystem Bool (Fin 1)).run failedRetry = some s ∧
      s.server.retryerQueue = [7] ∧ s.server.retryer = .asleep false ∧ ¬ s.server.Alert) ∧
    (∃ s, (registrySystem Bool (Fin 1)).run failedRevoke = some s ∧
      s.server.revokerQueue = [7] ∧ s.server.revoker = .asleep false ∧ ¬ s.server.Alert) ∧
    ∃ s, (cacheSystem (Fin 1) (Fin 1)).run failedRelease = some s ∧
      s.client.releaserQueue = [7] ∧ s.client.releaser = .asleep false ∧ ¬ s.client.Alert := by
  refine ⟨⟨_, rfl, rfl, rfl, fun h => ?_⟩, ⟨_, rfl, rfl, rfl, fun h => ?_⟩,
    ⟨_, rfl, rfl, rfl, fun h => ?_⟩⟩
  · exact h.1 (List.cons_ne_nil 7 []) rfl
  · exact h.2 (List.cons_ne_nil 7 []) rfl
  · exact h (List.cons_ne_nil 7 []) rfl

end Runs
end YFS.Lock
