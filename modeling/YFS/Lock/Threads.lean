import YFS.Lock.Refinement.Run

/-! # The calls of the threads

What the code that uses a lock client sees of it: which `acquire` each thread is in and
which locks it has. Most steps of the lock system leave this as it is; the others let one
call begin, go on or return.
-/

namespace YFS.Lock
open YFS.Library

variable {ι τ ω : Type} [DecidableEq ι] [DecidableEq τ] [DecidableEq ω]

@[ext]
structure Calls (τ : Type) where
  inside : τ → Option ℕ
  held : τ → ℕ → Bool

namespace Calls
variable (cs cs' : Calls τ) (t : τ) (lid : ℕ)

def enter : Calls τ := { cs with inside := Function.update cs.inside t (some lid) }

def setHeld (b : Bool) : Calls τ :=
  { cs with held := Function.update cs.held t (Function.update (cs.held t) lid b) }

def grant : Calls τ :=
  { cs.setHeld t lid true with inside := Function.update cs.inside t none }

/-- The thread begins its `acquire`, goes on with it or returns from it. -/
def Acquires : Prop := cs' = cs.enter t lid ∨ cs' = cs.grant t lid

/-- The thread has called `acquire`: it is inside, or back with the lock. -/
def Asked : Prop := cs.inside t = some lid ∨ cs.inside t = none ∧ cs.held t lid = true

theorem enter_of_inside {cs : Calls τ} {t : τ} {lid : ℕ} (h : cs.inside t = some lid) :
    cs.enter t lid = cs := by
  ext u : 2
  · simp only [enter, ← h, Function.update_eq_self]
  · rfl

variable {cs cs'} {t} {lid} {u : τ} {l : ℕ}

theorem Acquires.others (h : cs.Acquires cs' t lid) (hu : u ≠ t) :
    cs'.inside u = cs.inside u ∧ cs'.held u = cs.held u := by
  rcases h with rfl | rfl
  · exact ⟨Function.update_of_ne hu .., rfl⟩
  · exact ⟨Function.update_of_ne hu .., Function.update_of_ne hu ..⟩

theorem Acquires.own (h : cs.Acquires cs' t lid) : cs'.Asked t lid := by
  rcases h with rfl | rfl
  · exact .inl (Function.update_self ..)
  · right
    simp [grant, setHeld]

theorem Acquires.asked (h : cs.Acquires cs' t lid) (ht : cs.inside t = some lid)
    (hu : cs.Asked u l) : cs'.Asked u l := by
  by_cases hut : u = t
  · subst hut
    rcases hu with hin | ⟨hout, -⟩
    · rw [ht, Option.some.injEq] at hin
      exact hin ▸ h.own
    · rw [ht] at hout
      cases hout
  · obtain ⟨hin, hheld⟩ := h.others hut
    rwa [Asked, hin, hheld]

theorem Acquires.held_mono (h : cs.Acquires cs' t lid) (hl : cs.held u l = true) :
    cs'.held u l = true := by
  rcases h with rfl | rfl
  · exact hl
  · by_cases hu : u = t
    · subst hu
      by_cases hlid : l = lid <;> simp [grant, setHeld, hlid, hl]
    · simpa [grant, setHeld, hu] using hl

end Calls

namespace Client
variable (cl : Client τ ω) (t : τ) (w : ω) (lid : ℕ) (e : CacheLock τ)

def calls (cl : Client τ ω) : Calls τ := ⟨fun t => (cl.thread t).lock, cl.held⟩

omit [DecidableEq τ] [DecidableEq ω] in
@[simp] theorem calls_setEntry : (cl.setEntry lid e).calls = cl.calls := rfl

omit [DecidableEq τ] in
@[simp] theorem calls_setWorker (pc : ReleaserPc) : (cl.setWorker w pc).calls = cl.calls := rfl

omit [DecidableEq τ] in
@[simp] theorem calls_setHandler (pc : HandlerPc) : (cl.setHandler w pc).calls = cl.calls := rfl

omit [DecidableEq τ] [DecidableEq ω] in
@[simp] theorem calls_pushRelease : (cl.pushRelease lid).calls = cl.calls := rfl

omit [DecidableEq ω] in
@[simp] theorem calls_setHeld (b : Bool) :
    (cl.setHeld t lid b).calls = cl.calls.setHeld t lid b := rfl

omit [DecidableEq ω] in
theorem calls_setThread (pc : ThreadPc) : (cl.setThread t pc).calls =
    { cl.calls with inside := Function.update cl.calls.inside t pc.lock } := by
  ext u : 2
  · by_cases hu : u = t <;> simp [calls, setThread, hu]
  · rfl

omit [DecidableEq ω] in
@[simp] theorem calls_signalQueue (pick : Option τ) :
    (cl.signalQueue lid pick).calls = cl.calls := by
  rcases pick with - | t
  · rfl
  · simp only [signalQueue]
    split
    · rename_i l sig hpc
      split
      · rename_i hl
        rw [calls_setThread, ← hl]
        exact Calls.enter_of_inside (by simp [calls, hpc, ThreadPc.lock])
      · rfl
    · rfl

omit [DecidableEq τ] in
@[simp] theorem calls_signalRevoke (pick : Option ω) :
    (cl.signalRevoke lid pick).calls = cl.calls := by
  rw [signalRevoke_eq]
  rfl

omit [DecidableEq τ] in
@[simp] theorem calls_signalTmout (pick : Option ω) :
    (cl.signalTmout lid pick).calls = cl.calls := by
  rw [signalTmout_eq]
  rfl

section
omit [DecidableEq ω]

theorem calls_grant : (cl.grant t lid e).calls = cl.calls.grant t lid := by
  rw [grant, calls_setHeld, calls_setThread, calls_setEntry]
  rfl

theorem calls_startCall : (cl.startCall t lid e).calls = cl.calls.enter t lid := by
  rw [startCall, calls_setThread, calls_setEntry]
  rfl

theorem calls_retryWait : cl.calls.Acquires (cl.retryWait t lid e).calls t lid := by
  rw [retryWait]
  split
  · exact .inr (calls_grant ..)
  · exact .inl (calls_startCall ..)
  · left
    rw [calls_setThread, calls_setEntry]
    rfl

theorem calls_acquire : cl.calls.Acquires (cl.acquire t lid).calls t lid := by
  simp only [acquire]
  split
  · split
    · exact .inr (calls_grant ..)
    · exact calls_retryWait ..
  · exact calls_retryWait ..
  · exact calls_retryWait ..
  · exact .inl (calls_startCall ..)
  · exact .inr (calls_grant ..)

theorem calls_acquireReturn (ret : CallResult) :
    cl.calls.Acquires (cl.acquireReturn t lid e ret).calls t lid := by
  rw [acquireReturn]
  split
  · exact calls_retryWait ..
  · exact .inr (calls_grant ..)

end

theorem calls_release (pt : Option τ) (pw : Option ω) :
    (cl.release t lid pt pw).2.calls = cl.calls.setHeld t lid false := by
  rw [release]
  split
  · rfl
  · split
    · dsimp only
      split_ifs <;> simp
    · rfl

omit [DecidableEq τ] in
@[simp] theorem calls_revokeLoop : (cl.revokeLoop w lid e).1.calls = cl.calls := by
  rw [revokeLoop]
  split <;> rfl

omit [DecidableEq τ] in
@[simp] theorem calls_revokeHandler : (cl.revokeHandler w lid).1.calls = cl.calls := by
  rw [revokeHandler]
  split
  · rfl
  · exact calls_revokeLoop ..

omit [DecidableEq ω] in
@[simp] theorem calls_retryHandler (pick : Option τ) :
    (cl.retryHandler lid pick).1.calls = cl.calls := by
  rw [retryHandler]
  split
  · rfl
  · split <;> simp

omit [DecidableEq τ] [DecidableEq ω] in
@[simp] theorem calls_releaserTurn : cl.releaserTurn.calls = cl.calls := by
  rw [releaserTurn]
  split <;> rfl

omit [DecidableEq τ] in
@[simp] theorem calls_releaserRpc : (cl.releaserRpc w lid e).calls = cl.calls := by
  rw [releaserRpc]
  split <;> rfl

omit [DecidableEq τ] in
@[simp] theorem calls_tmoutWake : (cl.tmoutWake w lid e).calls = cl.calls := by
  rw [tmoutWake]
  split <;> rfl

@[simp] theorem calls_releaseReturn (ret : Status) (pick : Option τ) :
    (cl.releaseReturn w lid e ret pick).calls = cl.calls := by
  rw [releaseReturn]
  split
  · dsimp only
    split <;> simp
  · rfl

end Client

def Action.internal : Action ι τ ω → Bool
  | .acquire .. => false
  | .release .. => false
  | _ => true

namespace Sys
variable {s s' : Sys ι τ ω} {a : Action ι τ ω} {c : ι} {t : τ}

def calls (s : Sys ι τ ω) (c : ι) : Calls τ := (s.client c).calls

omit [DecidableEq τ] [DecidableEq ω] in
theorem calls_setClient (s : Sys ι τ ω) (c : ι) (cl : Client τ ω) :
    (s.setClient c cl).calls = Function.update s.calls c cl.calls := by
  funext d
  by_cases hd : d = c
  · subst hd
    simp [calls, setClient]
  · simp [calls, setClient, hd]

omit [DecidableEq τ] [DecidableEq ω] in
theorem calls_setClient_of_eq {cl : Client τ ω} (h : cl.calls = (s.client c).calls) :
    (s.setClient c cl).calls = s.calls := by
  rw [calls_setClient, h]
  exact Function.update_eq_self ..

omit [DecidableEq ι] [DecidableEq τ] [DecidableEq ω] in
@[simp] theorem calls_setServer (s : Sys ι τ ω) (srv : Server ι ω) :
    (s.setServer srv).calls = s.calls := rfl

omit [DecidableEq τ] [DecidableEq ω] in
@[simp] theorem calls_setGranted (s : Sys ι τ ω) (c : ι) (lid : ℕ) (b : Bool) :
    (s.setGranted c lid b).calls = s.calls := rfl

omit [DecidableEq τ] [DecidableEq ω] in
theorem calls_serveAcquire (s : Sys ι τ ω) (c : ι) (lid : ℕ) :
    (s.serveAcquire c lid).2.calls = s.calls := by
  rw [serveAcquire]
  dsimp only
  split <;> rfl

omit [DecidableEq τ] in
theorem calls_serveRevoke {w : ω} {lid : ℕ} {r : Client τ ω × Option RStatus}
    (h : r.1.calls = (s.client c).calls) : (s.serveRevoke c w lid r).calls = s.calls := by
  rw [serveRevoke]
  split
  · exact calls_setClient_of_eq h
  · exact calls_setClient_of_eq h

theorem calls_of_acquire {lid : ℕ} (hs : s.step (.acquire c t lid) = some s') :
    (s.calls c).inside t = none ∧
      ∃ cs, (s.calls c).Acquires cs t lid ∧ s'.calls = Function.update s.calls c cs := by
  simp only [step] at hs
  split at hs
  · rename_i ht
    cases hs
    exact ⟨by simp [calls, Client.calls, ht, ThreadPc.lock], _, Client.calls_acquire ..,
      calls_setClient ..⟩
  · cases hs

theorem calls_of_release {lid : ℕ} {pt : Option τ} {pw : Option ω}
    (hs : s.step (.release c t lid pt pw) = some s') :
    s'.calls = Function.update s.calls c ((s.calls c).setHeld t lid false) := by
  simp only [step] at hs
  split at hs
  · cases hs
    rw [calls_setClient, Client.calls_release]
    rfl
  · cases hs

/-- A step in which no thread calls lets at most one `acquire` go on or return. -/
theorem calls_of_internal (ha : a.internal = true) (hs : s.step a = some s') :
    s'.calls = s.calls ∨ ∃ c t lid cs, (s.calls c).inside t = some lid ∧
      (s.calls c).Acquires cs t lid ∧ s'.calls = Function.update s.calls c cs := by
  have hgo {c : ι} {t : τ} {lid : ℕ} {cl : Client τ ω}
      (ht : ((s.client c).thread t).lock = some lid)
      (hcl : (s.client c).calls.Acquires cl.calls t lid) :
      ∃ c' t lid cs, (s.calls c').inside t = some lid ∧
        (s.calls c').Acquires cs t lid ∧
          (s.setClient c cl).calls = Function.update s.calls c' cs :=
    ⟨c, t, lid, _, ht, hcl, calls_setClient ..⟩
  cases a with
  | acquire c t lid => cases ha
  | release c t lid pt pw => cases ha
  | acquireWake c t =>
    simp only [step] at hs
    split at hs
    · rename_i lid sig ht
      obtain ⟨e, -, rfl⟩ := Option.map_eq_some_iff.mp hs
      exact .inr (hgo (by rw [ht]; rfl) (Client.calls_retryWait ..))
    · cases hs
  | acquireHandle c t =>
    simp only [step] at hs
    split at hs
    · rename_i lid ht
      cases hs
      left
      rw [calls_setClient, calls_serveAcquire, Client.calls_setThread]
      have hin : (s.calls c).inside t = some lid := by simp [calls, Client.calls, ht, ThreadPc.lock]
      exact (congrArg _ (Calls.enter_of_inside hin)).trans (Function.update_eq_self ..)
    · cases hs
  | acquireReturn c t =>
    simp only [step] at hs
    split at hs
    · rename_i lid ret ht
      obtain ⟨e, -, rfl⟩ := Option.map_eq_some_iff.mp hs
      exact .inr (hgo (by rw [ht]; rfl) (Client.calls_acquireReturn ..))
    · cases hs
  | acquireFail c t f =>
    simp only [step] at hs
    split at hs
    · rename_i lid ht
      obtain ⟨e, -, rfl⟩ := Option.map_eq_some_iff.mp hs
      exact .inr (hgo (by rw [ht]; rfl) (Client.calls_acquireReturn ..))
    · rename_i lid ret ht
      obtain ⟨e, -, rfl⟩ := Option.map_eq_some_iff.mp hs
      exact .inr (hgo (by rw [ht]; rfl) (Client.calls_acquireReturn ..))
    · cases hs
  | acquireLate c lid =>
    simp only [step] at hs
    split at hs
    · cases hs
      exact .inl (calls_serveAcquire ..)
    · cases hs
  | revokeHandle w =>
    simp only [step] at hs
    split at hs
    · split at hs
      · cases hs
        exact .inl (calls_serveRevoke (Client.calls_revokeHandler ..))
      · cases hs
    · cases hs
  | revokeWake c w =>
    simp only [step] at hs
    split at hs
    · obtain ⟨e, -, rfl⟩ := Option.map_eq_some_iff.mp hs
      exact .inl (calls_serveRevoke (Client.calls_revokeLoop ..))
    · cases hs
  | retryHandle w pick =>
    simp only [step] at hs
    split at hs
    · rename_i lid c hw
      cases hs
      left
      have hcl := calls_setClient_of_eq (Client.calls_retryHandler (s.client c) lid pick)
      split <;> simpa using hcl
    · cases hs
  | releaseHandle c w =>
    simp only [step] at hs
    split at hs
    · cases hs
      left
      split <;> exact calls_setClient_of_eq (s := s.setServer _) rfl
    · cases hs
  | releaser c =>
    simp only [step] at hs
    split at hs
    · cases hs
      exact .inl (calls_setClient_of_eq (Client.calls_releaserTurn ..))
    · cases hs
  | releaserWake c | releaserTake c w =>
    simp only [step] at hs
    split at hs
    · cases hs
      exact .inl (calls_setClient_of_eq rfl)
    · cases hs
  | releaserRpc c w =>
    simp only [step] at hs
    split at hs
    · obtain ⟨e, -, hs⟩ := Option.bind_eq_some_iff.mp hs
      split at hs
      · cases hs
        exact .inl (calls_setClient_of_eq (Client.calls_releaserRpc ..))
      · cases hs
    · cases hs
  | releaseReturn c w pick =>
    simp only [step] at hs
    split at hs
    · obtain ⟨e, -, hs⟩ := Option.bind_eq_some_iff.mp hs
      split at hs
      · cases hs
        exact .inl (calls_setClient_of_eq (Client.calls_releaseReturn ..))
      · cases hs
    · cases hs
  | tmoutWake c w =>
    simp only [step] at hs
    split at hs
    · obtain ⟨e, -, rfl⟩ := Option.map_eq_some_iff.mp hs
      exact .inl (calls_setClient_of_eq (Client.calls_tmoutWake ..))
    · cases hs
  | takeJob w | retryFinish w =>
    simp only [step] at hs
    split at hs
    · obtain ⟨srv, -, rfl⟩ := Option.map_eq_some_iff.mp hs
      exact .inl rfl
    · cases hs
  | callOwner w =>
    obtain ⟨srv, -, rfl⟩ := Option.map_eq_some_iff.mp hs
    exact .inl rfl
  | retryer | retryerWake | revoker | revokerWake | revokeFinish w =>
    simp only [step] at hs
    split at hs
    · cases hs
      exact .inl rfl
    · cases hs

section Steps
variable {lid l : ℕ} {d : ι} {u : τ}

theorem held_of_internal (ha : a.internal = true) (hs : s.step a = some s')
    (hl : (s.calls d).held u l = true) : (s'.calls d).held u l = true := by
  rcases calls_of_internal ha hs with heq | ⟨c, t, lid, cs, -, hacq, heq⟩
  · rwa [heq]
  · rw [heq]
    by_cases hd : d = c
    · subst hd
      rw [Function.update_self]
      exact hacq.held_mono hl
    · rwa [Function.update_of_ne hd]

theorem asked_of_internal (ha : a.internal = true) (hs : s.step a = some s')
    (hl : (s.calls d).Asked u l) : (s'.calls d).Asked u l := by
  rcases calls_of_internal ha hs with heq | ⟨c, t, lid, cs, ht, hacq, heq⟩
  · rwa [heq]
  · rw [heq]
    by_cases hd : d = c
    · subst hd
      rw [Function.update_self]
      exact hacq.asked ht hl
    · rwa [Function.update_of_ne hd]

theorem held_of_acquire (hs : s.step (.acquire c t lid) = some s')
    (hl : (s.calls d).held u l = true) : (s'.calls d).held u l = true := by
  obtain ⟨-, cs, hacq, heq⟩ := calls_of_acquire hs
  rw [heq]
  by_cases hd : d = c
  · subst hd
    rw [Function.update_self]
    exact hacq.held_mono hl
  · rwa [Function.update_of_ne hd]

theorem asked_of_acquire (hs : s.step (.acquire c t lid) = some s') :
    (s'.calls c).Asked t lid := by
  obtain ⟨-, cs, hacq, heq⟩ := calls_of_acquire hs
  rw [heq, Function.update_self]
  exact hacq.own

theorem calls_of_acquire_ne (hs : s.step (.acquire c t lid) = some s') (hne : (d, u) ≠ (c, t)) :
    (s'.calls d).inside u = (s.calls d).inside u ∧ (s'.calls d).held u = (s.calls d).held u := by
  obtain ⟨-, cs, hacq, heq⟩ := calls_of_acquire hs
  rw [heq]
  by_cases hd : d = c
  · subst hd
    rw [Function.update_self]
    exact hacq.others fun hu => hne (by rw [hu])
  · rw [Function.update_of_ne hd]
    exact ⟨rfl, rfl⟩

theorem inside_of_release {pt : Option τ} {pw : Option ω}
    (hs : s.step (.release c t lid pt pw) = some s') :
    (s'.calls d).inside u = (s.calls d).inside u := by
  rw [calls_of_release hs]
  by_cases hd : d = c
  · subst hd
    rw [Function.update_self]
    rfl
  · rw [Function.update_of_ne hd]

theorem held_of_release {pt : Option τ} {pw : Option ω}
    (hs : s.step (.release c t lid pt pw) = some s') (hne : (d, u) = (c, t) → l ≠ lid) :
    (s'.calls d).held u l = (s.calls d).held u l := by
  rw [calls_of_release hs]
  by_cases hd : d = c
  · subst hd
    rw [Function.update_self, Calls.setHeld]
    by_cases hu : u = t
    · subst hu
      simp [hne rfl]
    · simp [hu]
  · rw [Function.update_of_ne hd]

end Steps

theorem Refines.exclusive (hr : s.Refines false) {lid : ℕ} {d : ι} {u : τ}
    (ht : (s.calls c).held t lid = true) (hu : (s.calls d).held u lid = true) :
    (c, t) = (d, u) := by
  obtain ⟨h, hh, hm⟩ := hr.lock lid
  obtain ⟨hrc, e, he, howne⟩ := hm.of_held ht
  obtain ⟨hrd, f, hf, hownf⟩ := hm.of_held hu
  have hcd : c = d := hh.unique (by simp [hrc, Role.Possesses]) (by simp [hrd, Role.Possesses])
  subst hcd
  rw [he, Option.some.injEq] at hf
  rw [hf, hownf, Option.some.injEq] at howne
  rw [howne]

end Sys
end YFS.Lock
