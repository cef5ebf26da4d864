import YFS.Lock.Counted

/-! # Safety of the lock cache

For every lock the client holds at most one of these: an acquire call without answer, an
answer `OK` under way, the promise of a retry, the free or locked entry, or the duty to
release, which is an id in the releaser's queue, a job, or a worker in `releaser_rpc`
outside its timed wait. Where the lock stands fixes the state of its entry.
-/

namespace YFS.Lock
open YFS.Library

variable {τ ω : Type} [DecidableEq τ] [DecidableEq ω]

/-- Where a lock stands in a client. `relLost` is a release whose job was refused. -/
inductive Place (τ ω : Type) where
  | absent
  | asking (t : τ)
  | granted (t : τ)
  | promised
  | free
  | locked (t : τ)
  | relQ
  | relJ
  | relStart (w : ω)
  | relCall (w : ω)
  | relLost
  deriving DecidableEq

def Place.state : Place τ ω → LockState
  | .absent => .NONE
  | .asking _ | .granted _ | .promised => .ACQUIRING
  | .free => .FREE
  | .locked _ => .LOCKED
  | _ => .RELEASING

/-- The view of the lock, with the number of retries due, when it stands at `p`. Workers in the
timed wait carry nothing. -/
structure Fits (lid : ℕ) (v : ClientView τ ω) (due : ℕ) (p : Place τ ω) : Prop where
  state : entryState v.entry = p.state
  relQ : v.relQ = if p = .relQ then 1 else 0
  relJ : v.relJ = if p = .relJ then 1 else 0
  start : ∀ w, v.worker w = .start lid ↔ p = .relStart w
  calling : ∀ w, v.worker w = .calling lid ↔ p = .relCall w
  asking : ∀ t, v.thread t = .calling lid ↔ p = .asking t
  granted : ∀ t, v.thread t = .answered lid .OK ↔ p = .granted t
  replies : ∀ t ret, v.thread t = .answered lid ret → ret = .OK ∨ ret = .RETRY
  due : due = if p = .promised then 1 else 0
  held : ∀ t, v.held t = true ↔ p = .locked t
  owner : ∀ t e, v.entry = some e → p = .locked t → e.owner = some t

section View
variable {lid n : ℕ} {v : ClientView τ ω} {p q : Place τ ω} {t : τ} {w : ω} {e : CacheLock τ}

attribute [local simp] ClientView.setEntry ClientView.setThread ClientView.setWorker
  ClientView.setHandler ClientView.setHeld Function.update_apply Place.state

theorem Fits.grant (hf : Fits lid v n p) (hp : p = .free ∨ p = .locked t ∨ p = .granted t)
    (hs : e.state = .LOCKED) (ho : e.owner = some t) :
    Fits lid (((v.setEntry e).setThread t .idle).setHeld t true) n (.locked t) := by
  obtain ⟨hst, hrq, hrj, hstart, hcall, hask, hgr, hrep, hdue, hheld, hown⟩ := hf
  constructor <;> simp <;> grind [Place.state]

theorem Fits.startCall (hf : Fits lid v n .absent) (hs : e.state = .ACQUIRING) :
    Fits lid ((v.setEntry e).setThread t (.calling lid)) n (.asking t) := by
  obtain ⟨hst, hrq, hrj, hstart, hcall, hask, hgr, hrep, hdue, hheld, hown⟩ := hf
  constructor <;> simp <;> grind [Place.state]

/-- A thread goes to sleep; its entry changes at most in its counter. -/
theorem Fits.park (hf : Fits lid v n p) (hs : e.state = p.state)
    (ho : ∀ u, p = .locked u → e.owner = some u) (hp : p ≠ .asking t ∧ p ≠ .granted t) :
    Fits lid ((v.setEntry e).setThread t (.queueWait lid false)) n p := by
  obtain ⟨hst, hrq, hrj, hstart, hcall, hask, hgr, hrep, hdue, hheld, hown⟩ := hf
  refine ⟨hs, hrq, hrj, hstart, hcall, ?_, ?_, ?_, hdue, hheld, ?_⟩ <;> simp <;> grind

theorem Fits.answerOk (hf : Fits lid v n (.asking t)) :
    Fits lid (v.setThread t (.answered lid .OK)) n (.granted t) := by
  obtain ⟨hst, hrq, hrj, hstart, hcall, hask, hgr, hrep, hdue, hheld, hown⟩ := hf
  constructor <;> simp <;> grind [Place.state]

theorem Fits.answerRetry (hf : Fits lid v n (.asking t)) :
    Fits lid (v.setThread t (.answered lid .RETRY)) (n + 1) .promised := by
  obtain ⟨hst, hrq, hrj, hstart, hcall, hask, hgr, hrep, hdue, hheld, hown⟩ := hf
  constructor <;> simp <;> grind [Place.state]

theorem Fits.retried (hf : Fits lid v n .promised) (hs : e.state = .FREE) :
    Fits lid (v.setEntry e) (n - 1) .free := by
  obtain ⟨hst, hrq, hrj, hstart, hcall, hask, hgr, hrep, hdue, hheld, hown⟩ := hf
  constructor <;> simp <;> grind [Place.state]

theorem Fits.released (hf : Fits lid v n (.locked t)) (hs : e.state = .FREE) :
    Fits lid ((v.setHeld t false).setEntry e) n .free := by
  obtain ⟨hst, hrq, hrj, hstart, hcall, hask, hgr, hrep, hdue, hheld, hown⟩ := hf
  constructor <;> simp <;> grind [Place.state]

theorem Fits.setHeld (hf : Fits lid v n p) (hp : p ≠ .locked t) :
    Fits lid (v.setHeld t false) n p where
  __ := hf
  held u := by
    have hu := hf.held u
    simp
    grind

theorem Fits.setEntry (hf : Fits lid v n p) (hs : e.state = p.state)
    (ho : ∀ u, p = .locked u → e.owner = some u) : Fits lid (v.setEntry e) n p where
  __ := hf
  state := hs
  owner u e' he' hu := by
    cases he'
    exact ho u hu

theorem Fits.setHandler (hf : Fits lid v n p) (pc : HandlerPc) :
    Fits lid (v.setHandler w pc) n p where
  __ := hf

/-- A revoke finds the lock free and asks for its release. -/
theorem Fits.revoked (hf : Fits lid v n .free) (hs : e.state = .RELEASING) :
    Fits lid { v.setEntry e with relQ := v.relQ + 1 } n .relQ := by
  obtain ⟨hst, hrq, hrj, hstart, hcall, hask, hgr, hrep, hdue, hheld, hown⟩ := hf
  constructor <;> simp <;> grind [Place.state]

/-- The releaser has passed the id on to the pool, which may refuse it. -/
theorem Fits.passed {k : ℕ} (hf : Fits lid v n .relQ) (hp : p = .relJ ∨ p = .relLost)
    (hk : k = if p = .relJ then 1 else 0) :
    Fits lid { v with relQ := 0, relJ := k } n p := by
  obtain ⟨hst, hrq, hrj, hstart, hcall, hask, hgr, hrep, hdue, hheld, hown⟩ := hf
  rcases hp with rfl | rfl
  all_goals
    subst hk
    constructor <;> simp <;> grind [Place.state]

theorem Fits.taken (hf : Fits lid v n .relJ) :
    Fits lid ({ v with relJ := 0 }.setWorker w (.start lid)) n (.relStart w) := by
  obtain ⟨hst, hrq, hrj, hstart, hcall, hask, hgr, hrep, hdue, hheld, hown⟩ := hf
  constructor <;> simp <;> grind [Place.state]

/-- `releaser_rpc` lets waiting threads go first. -/
theorem Fits.timedWait (hf : Fits lid v n (.relStart w)) (hs : e.state = .FREE) :
    Fits lid ((v.setEntry e).setWorker w (.tmoutWait lid false)) n .free := by
  obtain ⟨hst, hrq, hrj, hstart, hcall, hask, hgr, hrep, hdue, hheld, hown⟩ := hf
  constructor <;> simp <;> grind [Place.state]

theorem Fits.sent (hf : Fits lid v n p) (hp : p = .relStart w ∨ p = .free)
    (hs : e.state = .RELEASING) :
    Fits lid ((v.setEntry e).setWorker w (.calling lid)) n (.relCall w) := by
  obtain ⟨hst, hrq, hrj, hstart, hcall, hask, hgr, hrep, hdue, hheld, hown⟩ := hf
  constructor <;> simp <;> grind [Place.state]

theorem Fits.gone (hf : Fits lid v n (.relCall w)) (hs : e.state = .NONE) :
    Fits lid ((v.setEntry e).setWorker w .idle) n .absent := by
  obtain ⟨hst, hrq, hrj, hstart, hcall, hask, hgr, hrep, hdue, hheld, hown⟩ := hf
  constructor <;> simp <;> grind [Place.state]

theorem Fits.requeued (hf : Fits lid v n (.relCall w)) :
    Fits lid { v.setWorker w .idle with relQ := v.relQ + 1 } n .relQ := by
  obtain ⟨hst, hrq, hrj, hstart, hcall, hask, hgr, hrep, hdue, hheld, hown⟩ := hf
  constructor <;> simp <;> grind [Place.state]

end View

section Client
variable {lid n : ℕ} {cl : Client τ ω} {p : Place τ ω} {t : τ} {w : ω} {e : CacheLock τ}

/-- The lock's place does not change with an operation on another lock. -/
theorem Fits.of_slice {cl' : Client τ ω} (hf : Fits lid (cl.view lid) n p)
    (hs : cl'.slice lid = cl.slice lid) : ∃ q, Fits lid (cl'.view lid) n q := by
  rw [Client.view_congr hs]
  exact ⟨p, hf⟩

/-- The entry in the table has the state and the owner of the place. -/
theorem Fits.of_table (hf : Fits lid (cl.view lid) n p) (he : cl.table lid = some e) :
    e.state = p.state ∧ ∀ u, p = .locked u → e.owner = some u := by
  have hst := hf.state
  simp only [Client.view, he, entryState_some] at hst
  exact ⟨hst, fun u hu => hf.owner u e he hu⟩

theorem Fits.not_calling (hf : Fits lid (cl.view lid) n p)
    (ht : (cl.thread t).restrict lid ≠ .calling lid)
    (ht' : (cl.thread t).restrict lid ≠ .answered lid .OK) : p ≠ .asking t ∧ p ≠ .granted t :=
  ⟨fun hp => ht ((hf.asking t).mpr hp), fun hp => ht' ((hf.granted t).mpr hp)⟩

theorem Fits.eq_asking (hf : Fits lid (cl.view lid) n p) (ht : cl.thread t = .calling lid) :
    p = .asking t :=
  (hf.asking t).mp (by simp [Client.view, ht])

theorem Fits.eq_relCall (hf : Fits lid (cl.view lid) n p) (hw : cl.worker w = .calling lid) :
    p = .relCall w :=
  (hf.calling w).mp (by simp [Client.view, hw])

theorem Fits.view_grant (hf : Fits lid (cl.view lid) n p)
    (hp : p = .free ∨ p = .locked t ∨ p = .granted t) :
    ∃ q, Fits lid ((cl.grant t lid e).view lid) n q := by
  rw [Client.grant, Client.view_setHeld, Client.view_setThread, Client.view_setEntry]
  exact ⟨_, hf.grant hp rfl rfl⟩

theorem Fits.view_retryWait (hf : Fits lid (cl.view lid) n p) (hs : e.state = p.state)
    (ho : ∀ u, p = .locked u → e.owner = some u) (hp : p ≠ .asking t ∧ p ≠ .granted t) :
    ∃ q, Fits lid ((cl.retryWait t lid e).view lid) n q := by
  rw [Client.retryWait]
  split
  · rename_i hfree
    apply hf.view_grant
    cases p <;> simp [hfree, Place.state] at hs ⊢
  · rename_i hnone
    have hq : p = .absent := by
      cases p <;> simp [hnone, Place.state] at hs ⊢
    subst hq
    rw [Client.startCall, Client.view_setThread, Client.view_setEntry, ThreadPc.restrict_calling,
      if_pos rfl]
    exact ⟨_, hf.startCall rfl⟩
  · rw [Client.view_setThread, Client.view_setEntry, ThreadPc.restrict_queueWait, if_pos rfl]
    exact ⟨p, hf.park hs ho hp⟩

theorem Fits.view_acquire (hf : Fits lid (cl.view lid) n p) (ht : cl.thread t = .idle) :
    ∃ q, Fits lid ((cl.acquire t lid).view lid) n q := by
  have hp := hf.not_calling (t := t) (by simp [ht]) (by simp [ht])
  generalize he : (cl.table lid).getD CacheLock.new = e
  have hent : e.state = p.state ∧ ∀ u, p = .locked u → e.owner = some u := by
    cases htab : cl.table lid with
    | none =>
      have hst := hf.state
      simp only [Client.view, htab, entryState_none] at hst
      rw [htab, Option.getD_none] at he
      subst he
      refine ⟨hst, fun u hu => ?_⟩
      simp [hu, Place.state] at hst
    | some e' =>
      rw [htab, Option.getD_some] at he
      subst he
      exact hf.of_table htab
  have hwait := hf.view_retryWait (e := { e with waitThreads := e.waitThreads + 1 }) hent.1
    hent.2 hp
  simp only [Client.acquire, he]
  split
  · rename_i hlock
    split
    · rename_i hown
      apply hf.view_grant
      rw [hent.1] at hlock
      cases p <;> simp [Place.state] at hlock
      rename_i u
      rw [hent.2 u rfl, Option.some.injEq] at hown
      simp [hown]
    · exact hwait
  · exact hwait
  · exact hwait
  · rename_i hnone
    simpa only [Client.retryWait, hnone] using hwait
  · rename_i hfree
    simpa only [Client.retryWait, hfree] using hwait

theorem Fits.view_acquireReturn {ret : Status} (hf : Fits lid (cl.view lid) n p)
    (ht : cl.thread t = .answered lid ret) (he : cl.table lid = some e) :
    ∃ q, Fits lid ((cl.acquireReturn t lid e (.returned ret)).view lid) n q := by
  rcases hf.replies t ret (by simp [Client.view, ht]) with rfl | rfl
  · apply hf.view_grant
    have hp := (hf.granted t).mp (by simp [Client.view, ht])
    simp [hp]
  · obtain ⟨hs, ho⟩ := hf.of_table he
    exact hf.view_retryWait hs ho (hf.not_calling (by simp [ht]) (by simp [ht]))

theorem Fits.view_release (hf : Fits lid (cl.view lid) n p) (pt : Option τ) (pw : Option ω) :
    ∃ q, Fits lid ((cl.release t lid pt pw).2.view lid) n q := by
  rw [Client.release]
  split
  · rename_i he
    have hp : p ≠ .locked t := by
      intro hp
      simpa [Client.view, he, hp, Place.state] using hf.state
    rw [Client.view_setHeld]
    exact ⟨p, hf.setHeld hp⟩
  · rename_i e he
    obtain ⟨hs, ho⟩ := hf.of_table he
    split
    · rename_i hmine
      have hp : p = .locked t := by
        have hlock := hs.symm.trans hmine.1
        cases p <;> simp [Place.state] at hlock
        rename_i u
        have hown := (ho u rfl).symm.trans hmine.2
        simpa using hown
      subst hp
      refine ⟨.free, ?_⟩
      dsimp only
      split
      · rw [Client.view_signalTmout, Client.view_setEntry, Client.view_setHeld]
        exact hf.released rfl
      · split
        · rw [Client.view_signalRevoke, Client.view_setEntry, Client.view_setHeld]
          exact hf.released rfl
        · rw [Client.view_signalQueue, Client.view_setEntry, Client.view_setHeld]
          exact hf.released rfl
    · rename_i hmine
      have hp : p ≠ .locked t := by
        intro hp
        exact hmine ⟨by simp [hs, hp, Place.state], ho t hp⟩
      rw [Client.view_setHeld]
      exact ⟨p, hf.setHeld hp⟩

theorem Fits.view_revokeLoop (hf : Fits lid (cl.view lid) n p) (hs : e.state = p.state)
    (ho : ∀ u, p = .locked u → e.owner = some u) :
    ∃ q, Fits lid ((cl.revokeLoop w lid e).1.view lid) n q := by
  rw [Client.revokeLoop]
  split
  · rename_i hfree
    have hp : p = .free := by
      cases p <;> simp [hfree, Place.state] at hs ⊢
    subst hp
    rw [Client.view_releaser, Client.view_pushRelease, Client.view_setHandler,
      Client.view_setEntry]
    exact ⟨_, (hf.setHandler _).revoked rfl⟩
  · rw [Client.view_setHandler, Client.view_setEntry]
    exact ⟨p, (hf.setEntry hs ho).setHandler _⟩

theorem Fits.view_revokeHandler (hf : Fits lid (cl.view lid) n p) :
    ∃ q, Fits lid ((cl.revokeHandler w lid).1.view lid) n q := by
  rw [Client.revokeHandler]
  split
  · exact ⟨p, hf⟩
  · rename_i e he
    obtain ⟨hs, ho⟩ := hf.of_table he
    exact hf.view_revokeLoop hs ho

/-- A retry that is due finds the entry in state `ACQUIRING`. -/
theorem Fits.view_retryHandler (hf : Fits lid (cl.view lid) n p) (hn : 0 < n) (pick : Option τ) :
    ∃ q, Fits lid ((cl.retryHandler lid pick).1.view lid) (n - 1) q := by
  have hp : p = .promised := by
    by_contra hp
    simp [hf.due, hp] at hn
  subst hp
  rw [Client.retryHandler]
  split
  · rename_i he
    simpa [Client.view, he, Place.state] using hf.state
  · rename_i e he
    have hst : e.state = .ACQUIRING := (hf.of_table he).1
    rw [if_pos hst, Client.view_signalQueue, Client.view_setEntry]
    exact ⟨.free, hf.retried rfl⟩

theorem Fits.view_releaserTurn (hf : Fits lid (cl.view lid) n p) :
    ∃ q, Fits lid (cl.releaserTurn.view lid) n q := by
  by_cases hq : cl.releaserQueue.head? = some lid
  · obtain ⟨q, hlq⟩ := List.head?_eq_some_iff.mp hq
    have hcount := hf.relQ
    simp only [Client.view, hlq] at hcount
    obtain ⟨rfl, hq₀⟩ := eq_of_count_cons hcount
    have hj₀ : cl.jobs.count lid = 0 := by
      simpa [Client.view] using hf.relJ
    obtain ⟨p, hp, hj⟩ := exists_addObjJob hj₀ (a := (.relJ : Place τ ω)) (b := .relLost)
      (by simp)
    have hturn : cl.releaserTurn.view lid = { cl.view lid with
        relQ := 0, relJ := (addObjJob cl.jobs lid).count lid } := by
      ext <;> simp [Client.releaserTurn, hlq, Client.view, hq₀]
    rw [hturn]
    exact ⟨p, hf.passed hp hj⟩
  · exact hf.of_slice (Client.slice_releaserTurn_ne hq)

theorem Fits.view_take {js : List ℕ} (hf : Fits lid (cl.view lid) n p)
    (hj : cl.jobs = lid :: js) :
    ∃ q, Fits lid (({ cl with jobs := js }.setWorker w (.start lid)).view lid) n q := by
  have hcount := hf.relJ
  simp only [Client.view, hj] at hcount
  obtain ⟨rfl, hj₀⟩ := eq_of_count_cons hcount
  have hview : ({ cl with jobs := js } : Client τ ω).view lid = { cl.view lid with relJ := 0 } := by
    ext <;> simp [Client.view, hj₀]
  rw [Client.view_setWorker, hview, ReleaserPc.restrict_start, if_pos rfl]
  exact ⟨_, hf.taken⟩

theorem Fits.view_sendRelease (hf : Fits lid (cl.view lid) n p)
    (hp : p = .relStart w ∨ p = .free) :
    ∃ q, Fits lid ((cl.sendRelease w lid e).view lid) n q := by
  rw [Client.sendRelease, Client.view_setWorker, Client.view_setEntry,
    ReleaserPc.restrict_calling, if_pos rfl]
  exact ⟨_, hf.sent hp rfl⟩

theorem Fits.view_releaserRpc (hf : Fits lid (cl.view lid) n p)
    (hw : cl.worker w = .start lid) : ∃ q, Fits lid ((cl.releaserRpc w lid e).view lid) n q := by
  obtain rfl := (hf.start w).mp (by simp [Client.view, hw])
  rw [Client.releaserRpc]
  split
  · rw [Client.view_setWorker, Client.view_setEntry, ReleaserPc.restrict_tmoutWait, if_pos rfl]
    exact ⟨.free, hf.timedWait rfl⟩
  · exact hf.view_sendRelease (Or.inl rfl)

theorem Fits.view_tmoutWake {sig : Bool} (hf : Fits lid (cl.view lid) n p)
    (hw : cl.worker w = .tmoutWait lid sig) (he : cl.table lid = some e) :
    ∃ q, Fits lid ((cl.tmoutWake w lid e).view lid) n q := by
  obtain ⟨hs, ho⟩ := hf.of_table he
  rw [Client.tmoutWake]
  split
  · rename_i hfree
    apply hf.view_sendRelease
    cases p <;> simp [hfree, Place.state] at hs ⊢
  · rw [Client.view_setWorker_of_eq (by simp [hw]), Client.view_setEntry]
    exact ⟨p, hf.setEntry hs ho⟩

theorem Fits.view_releaseReturn {ret : Status} (hf : Fits lid (cl.view lid) n p)
    (hw : cl.worker w = .calling lid) (pick : Option τ) :
    ∃ q, Fits lid ((cl.releaseReturn w lid e ret pick).view lid) n q := by
  obtain rfl := hf.eq_relCall hw
  rw [Client.releaseReturn]
  split
  · refine ⟨.absent, ?_⟩
    dsimp only
    split
    · rw [Client.view_signalQueue, Client.view_setWorker, Client.view_setEntry]
      exact hf.gone rfl
    · rw [Client.view_setWorker, Client.view_setEntry]
      exact hf.gone rfl
  · rw [Client.view_pushRelease, Client.view_setWorker]
    exact ⟨.relQ, hf.requeued⟩

end Client

/-- What is assumed of the server: it answers an acquire call with `OK` or `RETRY`, the call
returns what was answered, and a retry comes once for every answer `RETRY`. -/
def Cache.serves (s : Cache τ ω) : CacheEvent τ ω → Bool
  | .answer _ ret => ret = .OK ∨ ret = .RETRY
  | .acquireReturn t res =>
    match s.client.thread t with
    | .answered _ ret => res = .returned ret
    | _ => false
  | .retry lid _ => 0 < s.due lid
  | _ => true

def Cache.Placed (s : Cache τ ω) : Prop :=
  ∀ lid, ∃ p, Fits lid (s.client.view lid) (s.due lid) p

theorem Cache.placed_init : (Cache.init : Cache τ ω).Placed := by
  intro lid
  refine ⟨.absent, ?_⟩
  constructor <;> simp [init, Client.new, Client.view, Place.state]

theorem Cache.Placed.step {s s' : Cache τ ω} {ev : CacheEvent τ ω} (hp : s.Placed)
    (hs : s.serves ev = true) (h : s.step ev = some s') : s'.Placed := by
  intro lid
  obtain ⟨p, hf⟩ := hp lid
  rcases same_or_moves h lid with hsame | hm
  · rw [hsame.2]
    exact hf.of_slice hsame.1
  · cases hm with
    | acquire t ht => exact hf.view_acquire ht
    | acquireWake ht he =>
      obtain ⟨hst, ho⟩ := hf.of_table he
      exact hf.view_retryWait hst ho (hf.not_calling (by simp [ht]) (by simp [ht]))
    | answer ret ht hret =>
      have hret : ret = .OK := by simpa [serves, hret] using hs
      subst hret
      change ∃ q, Fits lid ((s.client.setThread _ _).view lid) _ q
      rw [Client.view_setThread, ThreadPc.restrict_answered, if_pos rfl]
      obtain rfl := hf.eq_asking ht
      exact ⟨_, hf.answerOk⟩
    | answerRetry ht =>
      change ∃ q, Fits lid ((s.client.setThread _ _).view lid) _ q
      rw [Client.view_setThread, ThreadPc.restrict_answered, if_pos rfl]
      obtain rfl := hf.eq_asking ht
      refine ⟨.promised, ?_⟩
      simpa [setDue] using hf.answerRetry
    | acquireReturn res ht he =>
      rcases ht with ht | ⟨ret, ht⟩
      · simp [serves, ht] at hs
      · have hres : res = .returned ret := by simpa [serves, ht] using hs
        subst hres
        exact hf.view_acquireReturn ht he
    | release t pt pw ht => exact hf.view_release pt pw
    | revoke w hw => exact hf.view_revokeHandler
    | revokeWake hw he =>
      obtain ⟨hst, ho⟩ := hf.of_table he
      exact hf.view_revokeLoop hst ho
    | retry pick =>
      have hdue : 0 < s.due lid := by simpa [serves] using hs
      simpa [setDue, setClient] using hf.view_retryHandler hdue pick
    | releaser hd hq => exact hf.view_releaserTurn
    | releaserTake hw hj => exact hf.view_take hj
    | releaserRpc hw he hst => exact hf.view_releaserRpc hw
    | tmoutWake hw he => exact hf.view_tmoutWake hw he
    | releaseReturn res pick hw he hst => exact hf.view_releaseReturn hw pick

/-- What the cache guarantees for a lock. A thread at `calling` has an acquire RPC that the server
has not answered; `verify` are the two assertions of `releaser_rpc`. -/
structure Client.Safe (cl : Client τ ω) (lid : ℕ) : Prop where
  verify : ∀ w, cl.worker w = .start lid ∨ cl.worker w = .calling lid →
    ∃ e, cl.table lid = some e ∧ e.state = .RELEASING
  release : {w | cl.worker w = .calling lid}.encard ≤ 1
  acquire : {t | cl.thread t = .calling lid}.encard ≤ 1
  exclusive : ∀ t u, cl.held t lid = true → cl.held u lid = true → t = u
  owner : ∀ t, cl.held t lid = true ↔
    ∃ e, cl.table lid = some e ∧ e.state = .LOCKED ∧ e.owner = some t
  waiting : ∃ S : Finset τ, (∀ t, t ∈ S ↔ (cl.thread t).lock = some lid) ∧
    (cl.table lid).elim 0 CacheLock.waitThreads = S.card

section Safe
variable {lid n : ℕ} {cl : Client τ ω} {p : Place τ ω}

theorem Fits.exists_entry (hf : Fits lid (cl.view lid) n p) (hp : p ≠ .absent) :
    ∃ e, cl.table lid = some e ∧ e.state = p.state := by
  have hst := hf.state
  cases he : cl.table lid with
  | none =>
    simp only [Client.view, he, entryState_none] at hst
    cases p <;> simp [Place.state] at hst hp
  | some e => exact ⟨e, rfl, (hf.of_table he).1⟩

theorem Fits.held_iff (hf : Fits lid (cl.view lid) n p) (t : τ) : cl.held t lid = true ↔
    ∃ e, cl.table lid = some e ∧ e.state = .LOCKED ∧ e.owner = some t := by
  have hheld : cl.held t lid = true ↔ p = .locked t := hf.held t
  rw [hheld]
  constructor
  · rintro rfl
    obtain ⟨e, he, hst⟩ := hf.exists_entry (by simp)
    exact ⟨e, he, hst, (hf.of_table he).2 t rfl⟩
  · rintro ⟨e, he, hst, hown⟩
    obtain ⟨hp, ho⟩ := hf.of_table he
    rw [hst] at hp
    cases p <;> simp [Place.state] at hp
    rename_i u
    rw [ho u rfl, Option.some.injEq] at hown
    rw [hown]

omit [DecidableEq τ] [DecidableEq ω] in
theorem ClientView.Counted.exists_inside (hc : (cl.view lid).Counted) :
    ∃ S : Finset τ, (∀ t, t ∈ S ↔ (cl.thread t).lock = some lid) ∧
      (cl.table lid).elim 0 CacheLock.waitThreads = S.card := by
  obtain ⟨S, hS, hn⟩ := hc
  refine ⟨S, fun t => ?_, hn⟩
  rw [hS]
  cases hpc : cl.thread t <;> simp [Client.view, hpc, ThreadPc.lock]

theorem Fits.safe (hf : Fits lid (cl.view lid) n p) (hc : (cl.view lid).Counted) :
    cl.Safe lid := by
  constructor
  case verify =>
    rintro w (hw | hw)
    · obtain rfl := (hf.start w).mp (by simp [Client.view, hw])
      exact hf.exists_entry (by simp)
    · obtain rfl := hf.eq_relCall hw
      exact hf.exists_entry (by simp)
  case release =>
    apply Set.encard_le_one_iff.mpr
    intro v w hv hw
    simpa using (hf.eq_relCall hv).symm.trans (hf.eq_relCall hw)
  case acquire =>
    apply Set.encard_le_one_iff.mpr
    intro t u ht hu
    simpa using (hf.eq_asking ht).symm.trans (hf.eq_asking hu)
  case exclusive =>
    intro t u ht hu
    simpa using ((hf.held t).mp ht).symm.trans ((hf.held u).mp hu)
  case owner => exact hf.held_iff
  case waiting => exact hc.exists_inside

end Safe

/-- In every run in which the server answers acquires with `OK` or `RETRY` and retries once for
each `RETRY`, every lock of the client is safe. Revokes come at any time, and release RPCs have
any result. -/
theorem cache_safe {evs : List (CacheEvent τ ω)} {s : Cache τ ω}
    (hc : (cacheSystem τ ω).Along (fun s ev => s.serves ev = true) (cacheSystem τ ω).init evs)
    (hrun : (cacheSystem τ ω).run evs = some s) (lid : ℕ) : s.client.Safe lid := by
  have hinv : s.Placed ∧ s.Counted := by
    apply hc.invariant (I := fun s => s.Placed ∧ s.Counted) _ _ hrun
    · rintro s ev s' ⟨hp, hn⟩ hs h
      exact ⟨hp.step hs h, hn.step h⟩
    · exact ⟨Cache.placed_init, Cache.counted_init⟩
  obtain ⟨p, hf⟩ := hinv.1 lid
  exact hf.safe (hinv.2 lid)

theorem cache_safe_revokedWhileWaited :
    (cacheSystem (Fin 2) (Fin 1)).Along (fun s ev => s.serves ev = true)
      (cacheSystem (Fin 2) (Fin 1)).init revokedWhileWaited ∧
    ∃ s, (cacheSystem (Fin 2) (Fin 1)).run revokedWhileWaited = some s ∧
      s.client.worker 0 = .start 7 ∧ s.client.Safe 7 := by
  have hc : (cacheSystem (Fin 2) (Fin 1)).Along (fun s ev => s.serves ev = true)
      (cacheSystem (Fin 2) (Fin 1)).init revokedWhileWaited := by decide
  exact ⟨hc, _, rfl, rfl, cache_safe hc rfl 7⟩

end YFS.Lock
