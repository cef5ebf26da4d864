import YFS.Lock.MutualExclusion

/-! # The retry handshake

The retryer makes the front of the queue the owner and leaves it in the queue; a job then
calls that client and pops the queue when the client has accepted. Between the two, other
acquires are handled and revokes go out. The run is watched by noting, for every worker of
the server, which client accepted the retry it has called for.
-/

namespace YFS.Lock
open YFS.Library

variable {ι τ ω : Type} [DecidableEq ι] [DecidableEq τ] [DecidableEq ω]

def ServerPc.retries (lid : ℕ) : ServerPc ι → Bool
  | .retryStart l | .retryCalling l _ | .retryAnswered l _ => l = lid
  | _ => false

def Sys.noted (s s' : Sys ι τ ω) (accepted : ω → Option ι) (w : ω) : Option ι :=
  match s.server.worker w, s'.server.worker w with
  | .retryCalling _ c, .retryAnswered _ .OK => some c
  | _, _ => accepted w

def watchedSystem (ι τ ω : Type) [DecidableEq ι] [DecidableEq τ] [DecidableEq ω] :
    Machine (Sys ι τ ω × (ω → Option ι)) (Action ι τ ω) where
  init := (Sys.init, fun _ => none)
  step s a := (s.1.step a).map fun s' => (s', s.1.noted s' s.2)

/-- The handshake for one lock: at most one retry is queued or under way, its client is in a
state to accept it, and the front of the queue is the client that has. -/
structure Sys.Handshake (s : Sys ι τ ω) (accepted : ω → Option ι) (lid : ℕ) : Prop where
  single : (s.server.retryerQueue.count lid + s.server.jobs.count (.retryer lid) : ℕ∞) +
    {w | (s.server.worker w).retries lid = true}.encard ≤ 1
  acquiring : ∀ w c, s.server.worker w = .retryCalling lid c →
    (∃ e, (s.client c).table lid = some e ∧ e.state = .ACQUIRING) ∧
      ∀ pick, ((s.client c).retryHandler lid pick).2 = .OK
  accept : ∀ w ret, s.server.worker w = .retryAnswered lid ret → ret = .OK
  front : ∀ w ret, s.server.worker w = .retryAnswered lid ret →
    ∃ c q, accepted w = some c ∧ (s.server.lockTable lid).waitingCls = c :: q
  nodup : (s.server.lockTable lid).waitingCls.Nodup

omit [DecidableEq ι] in
theorem ServerPc.eq_of_restrict {pc x : ServerPc ι} {lid : ℕ} (h : pc.restrict lid = x)
    (hx : x ≠ .idle) : pc = x := by
  subst h
  cases pc <;> simp only [restrict] at hx ⊢ <;> split at hx <;> simp_all

omit [DecidableEq ι] in
theorem Phase.eq_of_retries {p : Phase ι ω} {lid : ℕ} {v w : ω}
    (hv : (p.serverPc lid v).retries lid = true) (hw : (p.serverPc lid w).retries lid = true) :
    v = w := by
  cases p <;> grind [serverPc, ServerPc.retries]

omit [DecidableEq τ] [DecidableEq ω] in
/-- The queue only grows behind its front while an accepted retry has not been popped. -/
theorem Handover.Step.of_retAcc {b : Bool} {h h' : Handover ι τ ω} {w : ω} (hs : Step b h h')
    (hph : h'.phase = .retAcc w) :
    (h.phase = .retAcc w ∧ ∃ l, h'.waiting = h.waiting ++ l) ∨
      ∃ c, h.phase = .retCall w c ∧ h'.waiting = h.waiting := by
  cases hs with
  | queue c t hc ho hw => exact Or.inl ⟨hph, [c], rfl⟩
  | accept v c hv =>
    cases hph
    exact Or.inr ⟨c, hv, rfl⟩
  | ask c t hc => exact Or.inl ⟨hph, [], (List.append_nil _).symm⟩
  | hold c t hc => exact Or.inl ⟨hph, [], (List.append_nil _).symm⟩
  | left c v hc => exact Or.inl ⟨hph, [], (List.append_nil _).symm⟩
  | grant c t hc ho hw => exact Or.inl ⟨hph, [], (List.append_nil _).symm⟩
  | revJob p _ hp | relJob c p _ hp | retJob c l p _ _ hp =>
    rcases hp with rfl | rfl <;> cases hph
  | _ => cases hph

section State
variable {lid : ℕ} {b : Bool} {s s' : Sys ι τ ω} {h : Handover ι τ ω}

theorem Matches.serverPc_of_retries (hm : Matches lid (s.view lid) h) {w : ω}
    (hw : (s.server.worker w).retries lid = true) :
    h.phase.serverPc lid w = s.server.worker w := by
  rw [hm.phase_of_server rfl]
  · cases hpc : s.server.worker w <;> simp_all [ServerPc.retries, ServerPc.restrict]
  · cases hpc : s.server.worker w <;> simp_all [ServerPc.retries, ServerPc.restrict]

theorem Matches.retries_empty (hm : Matches lid (s.view lid) h)
    (hph : h.phase = .retQ ∨ h.phase = .retJ) :
    {w | (s.server.worker w).retries lid = true} = ∅ := by
  apply Set.eq_empty_of_forall_notMem
  intro w hw
  have hpc : (h.phase.serverPc lid w).retries lid = true := by
    rw [hm.serverPc_of_retries hw]
    exact hw
  rcases hph with hph | hph <;> simp [hph, Phase.serverPc, ServerPc.retries] at hpc

theorem Matches.encard_retries (hm : Matches lid (s.view lid) h) :
    {w | (s.server.worker w).retries lid = true}.encard ≤ 1 := by
  apply Set.encard_le_one_iff.mpr
  intro v w hv hw
  apply Phase.eq_of_retries (p := h.phase)
  · rw [hm.serverPc_of_retries hv]
    exact hv
  · rw [hm.serverPc_of_retries hw]
    exact hw

theorem Matches.single_retry (hm : Matches lid (s.view lid) h) :
    (s.server.retryerQueue.count lid + s.server.jobs.count (.retryer lid) : ℕ∞) +
      {w | (s.server.worker w).retries lid = true}.encard ≤ 1 := by
  have hq : s.server.retryerQueue.count lid = if h.phase = .retQ then 1 else 0 := hm.server.retQ
  have hj : s.server.jobs.count (.retryer lid) = if h.phase = .retJ then 1 else 0 :=
    hm.server.retJ
  rw [hq, hj]
  by_cases hph : h.phase = .retQ
  · simp [hph, hm.retries_empty (Or.inl hph)]
  · by_cases hph' : h.phase = .retJ
    · simp [hph', hm.retries_empty (Or.inr hph')]
    · simpa [hph, hph'] using hm.encard_retries

/-- The client that is called for a retry waits for it. -/
theorem Matches.acquiring_of_retryCalling (hm : Matches lid (s.view lid) h) (hv : h.Valid) {w : ω}
    {c : ι} (hw : s.server.worker w = .retryCalling lid c) :
    ∃ e, (s.client c).table lid = some e ∧ e.state = .ACQUIRING := by
  have hph : h.phase = .retCall w c :=
    Phase.eq_retCall ((hm.phase_of_server hw (by simp)).trans (by simp))
  have hst : (h.role c).Shows (entryState ((s.client c).table lid)) := (hm.client c).state
  rw [hv.role_of_retCall hph] at hst
  cases he : (s.client c).table lid with
  | none => simp [he, entryState, Role.Shows] at hst
  | some e => exact ⟨e, rfl, by simpa [he, entryState, Role.Shows] using hst⟩

theorem Matches.retAcc_of_retryAnswered (hm : Matches lid (s.view lid) h) {w : ω} {ret : RStatus}
    (hw : s.server.worker w = .retryAnswered lid ret) : ret = .OK ∧ h.phase = .retAcc w := by
  have hpc := hm.phase_of_server hw (by simp)
  rw [ServerPc.restrict_retryAnswered, if_pos rfl] at hpc
  exact Phase.eq_retAcc hpc

theorem Matches.worker_of_phase (hm : Matches lid (s.view lid) h) {w : ω} {x : ServerPc ι}
    (hx : h.phase.serverPc lid w = x) (hne : x ≠ .idle) : s.server.worker w = x := by
  rcases hm.server.worker w with hw | ⟨-, hidle⟩
  · exact ServerPc.eq_of_restrict (hw.trans hx) hne
  · exact absurd (hx.symm.trans hidle) hne

/-- The client at the front of the queue, where its retry has been accepted, is the one noted. -/
def Sys.FrontAccepted (s : Sys ι τ ω) (accepted : ω → Option ι) : Prop :=
  ∀ w lid ret, s.server.worker w = .retryAnswered lid ret →
    ∃ c q, accepted w = some c ∧ (s.server.lockTable lid).waitingCls = c :: q

theorem Sys.Refines.frontAccepted (hr : s.Refines b) {a : Action ι τ ω} (ha : s.Allowed b a)
    (hs : s.step a = some s') {accepted : ω → Option ι} (hf : s.FrontAccepted accepted) :
    s'.FrontAccepted (s.noted s' accepted) := by
  intro w lid ret hw'
  obtain ⟨h, hh, hm⟩ := hr.lock lid
  obtain ⟨h', hstep, hm'⟩ := hm.follow hr hh.valid ha hs
  obtain ⟨rfl, hph'⟩ := hm'.retAcc_of_retryAnswered hw'
  have hwait : (s.server.lockTable lid).waitingCls = h.waiting := hm.server.waiting
  have hwait' : (s'.server.lockTable lid).waitingCls = h'.waiting := hm'.server.waiting
  have hkept (l : List ι) (hph : h.phase = .retAcc w) (hl : h'.waiting = h.waiting ++ l) :
      ∃ c q, s.noted s' accepted w = some c ∧ (s'.server.lockTable lid).waitingCls = c :: q := by
    have hw : s.server.worker w = .retryAnswered lid .OK :=
      hm.worker_of_phase (by simp [hph, Phase.serverPc]) (by simp)
    obtain ⟨c, q, hc, hq⟩ := hf w lid _ hw
    refine ⟨c, q ++ l, ?_, ?_⟩
    · simpa [Sys.noted, hw] using hc
    · rw [hwait', hl, ← hwait, hq, List.cons_append]
  rcases hstep with rfl | hstep
  · exact hkept [] hph' (List.append_nil _).symm
  · rcases hstep.of_retAcc hph' with ⟨hph, l, hl⟩ | ⟨c, hph, hl⟩
    · exact hkept l hph hl
    · have hw : s.server.worker w = .retryCalling lid c :=
        hm.worker_of_phase (by simp [hph, Phase.serverPc]) (by simp)
      have hk := hh.valid.phase
      simp only [Handover.PhaseOk, hph] at hk
      obtain ⟨q, hq, -⟩ := hk
      refine ⟨c, q, ?_, ?_⟩
      · simp [Sys.noted, hw, hw']
      · rw [hwait', hl, hq]

theorem Sys.Refines.handshake (hr : s.Refines b) {accepted : ω → Option ι}
    (hf : s.FrontAccepted accepted) (lid : ℕ) : s.Handshake accepted lid := by
  obtain ⟨h, hh, hm⟩ := hr.lock lid
  have hwait : (s.server.lockTable lid).waitingCls = h.waiting := hm.server.waiting
  constructor
  case single => exact hm.single_retry
  case acquiring =>
    intro w c hw
    obtain ⟨e, he, hst⟩ := hm.acquiring_of_retryCalling hh.valid hw
    refine ⟨⟨e, he, hst⟩, fun pick => ?_⟩
    simp [Client.retryHandler, he, hst]
  case accept => exact fun w ret hw => (hm.retAcc_of_retryAnswered hw).1
  case front => exact fun w ret hw => hf w lid ret hw
  case nodup =>
    rw [hwait]
    exact hh.valid.nodup

end State

omit [DecidableEq ι] [DecidableEq τ] [DecidableEq ω] in
/-- A reliable call is allowed whether or not it passes waiting clients. -/
theorem Sys.allowed_of_reliable {s : Sys ι τ ω} {a : Action ι τ ω} (hr : a.reliable = true) :
    s.Allowed true a := by
  cases a with
  | acquireFail c t f => cases hr
  | acquireHandle c t => exact fun _ _ _ => Or.inr rfl
  | _ => trivial

/-- In every run with reliable RPCs the retry handshake of every lock is exact. -/
theorem retry_handshake {acts : List (Action ι τ ω)} (hc : ∀ a ∈ acts, a.reliable = true)
    {s : Sys ι τ ω} {accepted : ω → Option ι}
    (hrun : (watchedSystem ι τ ω).run acts = some (s, accepted)) (lid : ℕ) :
    s.Handshake accepted lid := by
  have hinv : s.Refines true ∧ s.FrontAccepted accepted := by
    apply Machine.Along.invariant (C := fun _ a => a.reliable = true)
      (I := fun x => x.1.Refines true ∧ x.1.FrontAccepted x.2) _ _ _ hrun
    · rintro ⟨s, acc⟩ a t ⟨hr, hf⟩ ha ht
      obtain ⟨s', hs, rfl⟩ := Option.map_eq_some_iff.mp ht
      have hallow := Sys.allowed_of_reliable (s := s) ha
      exact ⟨hr.step hallow hs, hr.frontAccepted hallow hs hf⟩
    · refine ⟨Sys.refines_init, fun w lid ret hw => ?_⟩
      cases hw
    · exact Machine.along_of_forall hc
  exact hinv.1.handshake hinv.2 lid

/-- Client 1 has accepted the retry for lock 7 and is about to be popped. -/
theorem retry_handshake_handed_over :
    (∀ a ∈ handBack ++ handOn, a.reliable = true) ∧
    ∃ s accepted, (watchedSystem (Fin 3) (Fin 1) (Fin 1)).run (handBack ++ handOn) =
        some (s, accepted) ∧
      s.server.worker 0 = .retryAnswered 7 .OK ∧ accepted 0 = some 1 ∧
      (s.server.lockTable 7).waitingCls = [1] ∧ s.Handshake accepted 7 := by
  have hc : ∀ a ∈ handBack ++ handOn, a.reliable = true := by decide
  exact ⟨hc, _, _, rfl, rfl, rfl, rfl, retry_handshake hc rfl 7⟩

end YFS.Lock
