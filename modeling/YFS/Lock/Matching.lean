import YFS.Lock.Handover
import YFS.Lock.View

/-! # The client's part of the refinement

When the view of a lock matches a state of the hand-over protocol. The phase fixes the
queues and workers that carry the obligation, the role of a client fixes the state of
its entry and which thread's call is under way. The lemmas below follow one client's
operation on the lock and say which role it leaves the client in.
-/

namespace YFS.Lock

variable {ι τ ω : Type} [DecidableEq ι] [DecidableEq τ] [DecidableEq ω]

/-- The position the phase puts a worker of the server in. -/
def Phase.serverPc (lid : ℕ) (w : ω) : Phase ι ω → ServerPc ι
  | .revRun v => if v = w then .revokeStart lid else .idle
  | .revCall v c => if v = w then .revokeCalling lid c else .idle
  | .retRun v => if v = w then .retryStart lid else .idle
  | .retCall v c => if v = w then .retryCalling lid c else .idle
  | .retAcc v => if v = w then .retryAnswered lid .OK else .idle
  | _ => .idle

/-- The position the phase puts a worker of client `c` in. -/
def Phase.releaserPc (lid : ℕ) (c : ι) (w : ω) : Phase ι ω → ReleaserPc
  | .relRun d v => if d = c ∧ v = w then .start lid else .idle
  | .relTimed d v => if d = c ∧ v = w then .tmoutWait lid false else .idle
  | .relCall d v => if d = c ∧ v = w then .calling lid else .idle
  | _ => .idle

/-- The states an entry may have in the client's role. -/
def Role.Shows : Role τ ω → LockState → Prop
  | .out, st => st = .NONE
  | .asking _, st | .answered _, st | .queued, st => st = .ACQUIRING
  | .holding, st => st = .FREE ∨ st = .LOCKED
  | .releasing, st | .leaving _, st => st = .RELEASING

structure ClientMatches (lid : ℕ) (c : ι) (v : ClientView τ ω) (p : Phase ι ω) (r : Role τ ω) :
    Prop where
  state : r.Shows (entryState v.entry)
  relQ : v.relQ = if p = .relQ c then 1 else 0
  relJ : v.relJ = if p = .relJ c then 1 else 0
  worker : ∀ w, v.worker w = if r = .leaving w then .answered lid .OK else p.releaserPc lid c w
  handler : ∀ w, v.handler w ≠ .idle → p = .revCall w c
  calling : ∀ t, v.thread t = .calling lid ↔ r = .asking t
  answered : ∀ t, v.thread t = .answered lid .OK ↔ r = .answered t
  replies : ∀ t ret, v.thread t = .answered lid ret → ret = .OK ∨ ret = .RETRY
  held : ∀ t, v.held t = true → ∃ e, v.entry = some e ∧ e.state = .LOCKED ∧ e.owner = some t

structure Phase.Same (lid : ℕ) (c : ι) (p q : Phase ι ω) : Prop where
  relQ : p = .relQ c ↔ q = .relQ c
  relJ : p = .relJ c ↔ q = .relJ c
  worker : ∀ w, p.releaserPc lid c w = q.releaserPc lid c w
  handler : ∀ w, p = .revCall w c → q = .revCall w c

section Client
variable {lid : ℕ} {c : ι} {cl : Client τ ω} {v : ClientView τ ω} {p q : Phase ι ω}
  {r : Role τ ω} {t : τ} {e : CacheLock τ}

theorem ClientMatches.setPhase (hm : ClientMatches lid c v p r) (hpq : p.Same lid c q) :
    ClientMatches lid c v q r where
  state := hm.state
  relQ := by rw [hm.relQ]; simp only [hpq.relQ]
  relJ := by rw [hm.relJ]; simp only [hpq.relJ]
  worker w := by rw [hm.worker w, hpq.worker w]
  handler w hw := hpq.handler w (hm.handler w hw)
  calling := hm.calling
  answered := hm.answered
  replies := hm.replies
  held := hm.held

theorem ClientMatches.not_held (hm : ClientMatches lid c v p r)
    (hs : entryState v.entry ≠ .LOCKED) (t : τ) : v.held t = false := by
  rw [Bool.eq_false_iff]
  intro ht
  obtain ⟨e, he, hst, -⟩ := hm.held t ht
  exact hs (by simp [entryState, he, hst])

/-- The thread has no call under way that the server may grant or has granted. -/
def Free (lid : ℕ) (v : ClientView τ ω) (t : τ) : Prop :=
  v.thread t ≠ .calling lid ∧ v.thread t ≠ .answered lid .OK

section Operations
variable (hm : ClientMatches lid c v p r)
include hm

/-- A thread takes the lock: it is free or the thread's own, or granted to the thread's call. -/
theorem ClientMatches.grant
    (hr : r = .holding ∧ (entryState v.entry = .FREE ∨
      ∃ e₀, v.entry = some e₀ ∧ e₀.state = .LOCKED ∧ e₀.owner = some t) ∨ r = .answered t)
    (hs : e.state = .LOCKED) (ho : e.owner = some t) :
    ClientMatches lid c (((v.setEntry e).setThread t .idle).setHeld t true) p .holding where
  state := Or.inr (by simp [entryState, ClientView.setEntry, ClientView.setThread,
    ClientView.setHeld, hs])
  relQ := hm.relQ
  relJ := hm.relJ
  worker w := by
    have hw := hm.worker w
    change v.worker w = _
    rcases hr with ⟨rfl, -⟩ | rfl <;> simpa using hw
  handler := hm.handler
  calling u := by
    have hu := hm.calling u
    by_cases hut : u = t
    · simp [ClientView.setHeld, ClientView.setThread, hut]
    · rcases hr with ⟨rfl, -⟩ | rfl <;>
        simpa [ClientView.setHeld, ClientView.setThread, ClientView.setEntry, hut] using hu
  answered u := by
    have hu := hm.answered u
    by_cases hut : u = t
    · simp [ClientView.setHeld, ClientView.setThread, hut]
    · have hut' : t ≠ u := fun h => hut h.symm
      rcases hr with ⟨rfl, -⟩ | rfl <;>
        simpa [ClientView.setHeld, ClientView.setThread, ClientView.setEntry, hut, hut'] using hu
  replies u ret hu := by
    by_cases hut : u = t
    · simp [ClientView.setHeld, ClientView.setThread, hut] at hu
    · exact hm.replies u ret
        (by simpa [ClientView.setHeld, ClientView.setThread, ClientView.setEntry, hut] using hu)
  held u hu := by
    refine ⟨e, rfl, hs, ?_⟩
    by_cases hut : u = t
    · rw [hut, ho]
    · have hu' : v.held u = true := by
        simpa [ClientView.setHeld, ClientView.setThread, ClientView.setEntry, hut] using hu
      obtain ⟨e₁, he₁, hst, hown⟩ := hm.held u hu'
      have hstate := hm.state
      rcases hr with ⟨rfl, hfree | ⟨e₀, he₀, -, hown₀⟩⟩ | rfl
      · simp [entryState, he₁, hst] at hfree
      · rw [he₁, Option.some.injEq] at he₀
        rw [ho, ← hown₀, ← he₀, hown]
      · simp [entryState, he₁, hst, Role.Shows] at hstate

theorem ClientMatches.startCall (hr : r = .out) (hs : e.state = .ACQUIRING) :
    ClientMatches lid c ((v.setEntry e).setThread t (.calling lid)) p (.asking t) where
  state := by simp [Role.Shows, entryState, ClientView.setEntry, ClientView.setThread, hs]
  relQ := hm.relQ
  relJ := hm.relJ
  worker w := by
    have hw := hm.worker w
    change v.worker w = _
    simpa [hr] using hw
  handler := hm.handler
  calling u := by
    by_cases hut : u = t
    · simp [ClientView.setThread, hut]
    · have hut' : t ≠ u := fun h => hut h.symm
      simpa [ClientView.setThread, ClientView.setEntry, hut, hut', hr] using hm.calling u
  answered u := by
    by_cases hut : u = t
    · simp [ClientView.setThread, hut]
    · simpa [ClientView.setThread, ClientView.setEntry, hut, hr] using hm.answered u
  replies u ret hu := by
    by_cases hut : u = t
    · simp [ClientView.setThread, hut] at hu
    · exact hm.replies u ret (by simpa [ClientView.setThread, ClientView.setEntry, hut] using hu)
  held u hu := by
    have hnone := hm.state
    rw [hr, Role.Shows] at hnone
    have := hm.not_held (by simp [hnone]) u
    simp [ClientView.setThread, ClientView.setEntry, this] at hu

theorem ClientMatches.setEntry (hs : e.state = entryState v.entry)
    (ho : e.state = .LOCKED → e.owner = v.entry.bind CacheLock.owner) :
    ClientMatches lid c (v.setEntry e) p r where
  state := by simpa [entryState, ClientView.setEntry, hs] using hm.state
  relQ := hm.relQ
  relJ := hm.relJ
  worker := hm.worker
  handler := hm.handler
  calling := hm.calling
  answered := hm.answered
  replies := hm.replies
  held u hu := by
    obtain ⟨e₁, he₁, hst, hown⟩ := hm.held u hu
    have hlock : e.state = .LOCKED := by simp [hs, entryState, he₁, hst]
    exact ⟨e, rfl, hlock, by rw [ho hlock, he₁, Option.bind_some, hown]⟩

theorem ClientMatches.park (hf : Free lid v t) :
    ClientMatches lid c (v.setThread t (.queueWait lid false)) p r where
  state := hm.state
  relQ := hm.relQ
  relJ := hm.relJ
  worker := hm.worker
  handler := hm.handler
  calling u := by
    by_cases hut : u = t
    · subst hut
      simpa [ClientView.setThread, hf.1] using hm.calling u
    · simpa [ClientView.setThread, hut] using hm.calling u
  answered u := by
    by_cases hut : u = t
    · subst hut
      simpa [ClientView.setThread, hf.2] using hm.answered u
    · simpa [ClientView.setThread, hut] using hm.answered u
  replies u ret hu := by
    by_cases hut : u = t
    · simp [ClientView.setThread, hut] at hu
    · exact hm.replies u ret (by simpa [ClientView.setThread, hut] using hu)
  held := hm.held

theorem ClientMatches.drop : ClientMatches lid c (v.setHeld t false) p r where
  state := hm.state
  relQ := hm.relQ
  relJ := hm.relJ
  worker := hm.worker
  handler := hm.handler
  calling := hm.calling
  answered := hm.answered
  replies := hm.replies
  held u hu := by
    by_cases hut : u = t
    · simp [ClientView.setHeld, hut] at hu
    · exact hm.held u (by simpa [ClientView.setHeld, hut] using hu)

/-- No thread's call decides about the lock while the entry, the role and the phase change. -/
theorem ClientMatches.become {v' : ClientView τ ω} {q : Phase ι ω} {r' : Role τ ω}
    (hthread : v'.thread = v.thread) (hheld : v'.held = v.held)
    (hr : ∀ t, r ≠ .asking t ∧ r ≠ .answered t) (hr' : ∀ t, r' ≠ .asking t ∧ r' ≠ .answered t)
    (hfree : entryState v.entry ≠ .LOCKED) (hstate : r'.Shows (entryState v'.entry))
    (hrelQ : v'.relQ = if q = .relQ c then 1 else 0)
    (hrelJ : v'.relJ = if q = .relJ c then 1 else 0)
    (hworker : ∀ w, v'.worker w =
      if r' = .leaving w then .answered lid .OK else q.releaserPc lid c w)
    (hhandler : ∀ w, v'.handler w ≠ .idle → q = .revCall w c) : ClientMatches lid c v' q r' where
  state := hstate
  relQ := hrelQ
  relJ := hrelJ
  worker := hworker
  handler := hhandler
  calling t := by
    rw [hthread, hm.calling t]
    simp [(hr t).1, (hr' t).1]
  answered t := by
    rw [hthread, hm.answered t]
    simp [(hr t).2, (hr' t).2]
  replies t := by
    rw [hthread]
    exact hm.replies t
  held t ht := by
    rw [hheld, hm.not_held hfree t] at ht
    cases ht

/-- The client that waited for the lock is told that it has it. -/
theorem ClientMatches.accept {w : ω} (hr : r = .queued) (hp : p = .retCall w c)
    (hs : e.state = .FREE) : ClientMatches lid c (v.setEntry e) (.retAcc w) .holding := by
  subst hr hp
  have hst : entryState v.entry = .ACQUIRING := hm.state
  apply hm.become
  · rfl
  · rfl
  · simp
  · simp
  · simp [hst]
  · exact Or.inl hs
  · simpa [ClientView.setEntry] using hm.relQ
  · simpa [ClientView.setEntry] using hm.relJ
  · simpa [ClientView.setEntry, Phase.releaserPc] using hm.worker
  · intro u hu
    cases hm.handler u hu

/-- The client that holds the lock, free, turns to releasing it. -/
theorem ClientMatches.revoked {w : ω} (hr : r = .holding) (hp : p = .revCall w c)
    (hfree : entryState v.entry = .FREE) (hs : e.state = .RELEASING) :
    ClientMatches lid c { (v.setEntry e).setHandler w .idle with relQ := v.relQ + 1 } (.relQ c)
      .releasing := by
  subst hr hp
  apply hm.become
  · rfl
  · rfl
  · simp
  · simp
  · simp [hfree]
  · exact hs
  · simpa using hm.relQ
  · simpa [ClientView.setEntry, ClientView.setHandler] using hm.relJ
  · simpa [ClientView.setEntry, ClientView.setHandler, Phase.releaserPc] using hm.worker
  · intro u hu
    by_cases huw : u = w
    · simp [ClientView.setHandler, huw] at hu
    · cases hm.handler u (by simpa [ClientView.setEntry, ClientView.setHandler, huw] using hu)
      exact absurd rfl huw

theorem ClientMatches.leave {w : ω} (hr : r = .releasing) (hp : p = .relCall c w) :
    ClientMatches lid c (v.setWorker w (.answered lid .OK)) .retQ (.leaving w) := by
  subst hr hp
  have hst : entryState v.entry = .RELEASING := hm.state
  apply hm.become
  · rfl
  · rfl
  · simp
  · simp
  · simp [hst]
  · exact hst
  · simpa [ClientView.setWorker] using hm.relQ
  · simpa [ClientView.setWorker] using hm.relJ
  · intro u
    by_cases hu : u = w
    · simp [ClientView.setWorker, hu]
    · have hu' : w ≠ u := fun hwu => hu hwu.symm
      simpa [ClientView.setWorker, Phase.releaserPc, hu, hu'] using hm.worker u
  · intro u hu
    cases hm.handler u hu

theorem ClientMatches.answer (hr : r = .asking t) {ret : Status} {r' : Role τ ω}
    (hret : ret = .OK ∧ r' = .answered t ∨ ret = .RETRY ∧ r' = .queued) :
    ClientMatches lid c (v.setThread t (.answered lid ret)) p r' where
  state := by
    have hs := hm.state
    rw [hr] at hs
    rcases hret with ⟨-, rfl⟩ | ⟨-, rfl⟩ <;> exact hs
  relQ := hm.relQ
  relJ := hm.relJ
  worker w := by
    have hw := hm.worker w
    change v.worker w = _
    rcases hret with ⟨-, rfl⟩ | ⟨-, rfl⟩ <;> simpa [hr] using hw
  handler := hm.handler
  calling u := by
    have hu := hm.calling u
    by_cases hut : u = t
    · rcases hret with ⟨-, rfl⟩ | ⟨-, rfl⟩ <;> simp [ClientView.setThread, hut]
    · have hut' : t ≠ u := fun h => hut h.symm
      rcases hret with ⟨-, rfl⟩ | ⟨-, rfl⟩ <;>
        simpa [ClientView.setThread, hut, hut', hr] using hu
  answered u := by
    have hu := hm.answered u
    by_cases hut : u = t
    · rcases hret with ⟨rfl, rfl⟩ | ⟨rfl, rfl⟩ <;> simp [ClientView.setThread, hut]
    · have hut' : t ≠ u := fun h => hut h.symm
      rcases hret with ⟨-, rfl⟩ | ⟨-, rfl⟩ <;>
        simpa [ClientView.setThread, hut, hut', hr] using hu
  replies u ret' hu := by
    by_cases hut : u = t
    · have : ret = ret' := by simpa [ClientView.setThread, hut] using hu
      subst this
      rcases hret with ⟨h, -⟩ | ⟨h, -⟩
      · exact Or.inl h
      · exact Or.inr h
    · exact hm.replies u ret' (by simpa [ClientView.setThread, hut] using hu)
  held := hm.held

end Operations

section Acquire
variable (hm : ClientMatches lid c (cl.view lid) p r)
include hm

theorem ClientMatches.view_grant
    (hr : r = .holding ∧ (entryState (cl.table lid) = .FREE ∨
      ∃ e₀, cl.table lid = some e₀ ∧ e₀.state = .LOCKED ∧ e₀.owner = some t) ∨ r = .answered t) :
    ClientMatches lid c ((cl.grant t lid e).view lid) p .holding := by
  rw [Client.grant, Client.view_setHeld, Client.view_setThread, Client.view_setEntry]
  exact hm.grant hr rfl rfl

/-- From the waiting loop on a thread takes a free lock, asks for one that is not there, or
waits. -/
theorem ClientMatches.view_retryWait (hf : Free lid (cl.view lid) t)
    (hs : e.state = entryState (cl.table lid))
    (ho : e.state = .LOCKED → e.owner = (cl.table lid).bind CacheLock.owner) :
    ∃ r', (r' = r ∨ r = .out ∧ r' = .asking t) ∧
      ClientMatches lid c ((cl.retryWait t lid e).view lid) p r' := by
  have hst : r.Shows (entryState (cl.table lid)) := hm.state
  rw [Client.retryWait]
  split
  · rename_i hfree
    have hr : r = .holding := by
      cases r <;> simp [← hs, hfree, Role.Shows] at hst ⊢
    exact ⟨.holding, Or.inl hr.symm, hm.view_grant (Or.inl ⟨hr, Or.inl (hs ▸ hfree)⟩)⟩
  · rename_i hnone
    have hr : r = .out := by
      cases r <;> simp [← hs, hnone, Role.Shows] at hst ⊢
    refine ⟨.asking t, Or.inr ⟨hr, rfl⟩, ?_⟩
    rw [Client.startCall, Client.view_setThread, Client.view_setEntry, ThreadPc.restrict_calling,
      if_pos rfl]
    exact hm.startCall hr rfl
  · refine ⟨r, Or.inl rfl, ?_⟩
    rw [Client.view_setThread, Client.view_setEntry, ThreadPc.restrict_queueWait, if_pos rfl]
    exact (hm.setEntry hs ho).park hf

theorem ClientMatches.view_acquire (ht : cl.thread t = .idle) :
    ∃ r', (r' = r ∨ r = .out ∧ r' = .asking t) ∧
      ClientMatches lid c ((cl.acquire t lid).view lid) p r' := by
  have hf : Free lid (cl.view lid) t := by simp [Free, Client.view, ht]
  have hst : r.Shows (entryState (cl.table lid)) := hm.state
  set e : CacheLock τ := (cl.table lid).getD CacheLock.new with he
  have hs : e.state = entryState (cl.table lid) := by
    rw [he]
    cases cl.table lid <;> rfl
  have ho : e.state = .LOCKED → e.owner = (cl.table lid).bind CacheLock.owner := by
    intro _
    rw [he]
    cases cl.table lid <;> rfl
  have hwait := hm.view_retryWait (e := { e with waitThreads := e.waitThreads + 1 }) hf hs ho
  simp only [Client.acquire, ← he]
  split
  · rename_i hlock
    split
    · rename_i hown
      have hr : r = .holding := by
        cases r <;> simp [← hs, hlock, Role.Shows] at hst ⊢
      obtain ⟨e₀, he₀⟩ : ∃ e₀, cl.table lid = some e₀ := by
        cases htab : cl.table lid with
        | none => simp [hs, htab, entryState] at hlock
        | some e₀ => exact ⟨e₀, rfl⟩
      have hee : e = e₀ := by rw [he, he₀, Option.getD_some]
      refine ⟨.holding, Or.inl hr.symm, hm.view_grant (Or.inl ⟨hr, Or.inr ⟨e₀, he₀, ?_, ?_⟩⟩)⟩
      · rw [← hee, hlock]
      · rw [← hee, hown]
    · exact hwait
  · exact hwait
  · exact hwait
  · rename_i hnone
    simpa only [Client.retryWait, hnone] using hwait
  · rename_i hfree
    simpa only [Client.retryWait, hfree] using hwait

end Acquire
end Client
end YFS.Lock
