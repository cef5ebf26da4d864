import YFS.Lock.Matching

/-! # The state of the hand-over protocol in the view of a lock -/

namespace YFS.Lock

variable {ι τ ω : Type} [DecidableEq ι] [DecidableEq τ] [DecidableEq ω]

structure ServerMatches (lid : ℕ) (v : ServerView ι ω) (h : Handover ι τ ω) : Prop where
  owner : v.owner = h.owner
  waiting : v.waiting = h.waiting
  revQ : v.revQ = if h.phase = .revQ then 1 else 0
  revJ : v.revJ = if h.phase = .revJ then 1 else 0
  retQ : v.retQ = if h.phase = .retQ then 1 else 0
  retJ : v.retJ = if h.phase = .retJ then 1 else 0
  worker : ∀ w, v.worker w = h.phase.serverPc lid w ∨
    v.worker w = .revokeAnswered lid .OK ∧ h.phase.serverPc lid w = .idle

structure Matches (lid : ℕ) (v : View ι τ ω) (h : Handover ι τ ω) : Prop where
  server : ServerMatches lid v.server h
  client : ∀ c, ClientMatches lid c (v.client c) h.phase (h.role c)
  granted : v.granted = h.granted

/-- The client whose queues, workers and handlers the phase is about. -/
def Phase.concerns : Phase ι ω → Option ι
  | .revCall _ c | .relQ c | .relJ c | .relRun c _ | .relTimed c _ | .relCall c _ => some c
  | _ => none

def Phase.AtClient (c : ι) : Phase ι ω → Prop
  | .relQ d | .relJ d | .relRun d _ | .relTimed d _ | .relCall d _ | .relLost d => d = c
  | _ => False

theorem Phase.releaserPc_of_concerns (lid : ℕ) {d : ι} {p : Phase ι ω} (hp : p.concerns ≠ some d)
    (w : ω) : p.releaserPc lid d w = .idle := by
  cases p <;> simp_all [concerns, releaserPc]

theorem Phase.same_of_concerns (lid : ℕ) {d : ι} {p q : Phase ι ω} (hp : p.concerns ≠ some d)
    (hq : q.concerns ≠ some d) : p.Same lid d q where
  relQ := by
    constructor
    · rintro rfl
      exact absurd rfl hp
    · rintro rfl
      exact absurd rfl hq
  relJ := by
    constructor
    · rintro rfl
      exact absurd rfl hp
    · rintro rfl
      exact absurd rfl hq
  worker w := by rw [releaserPc_of_concerns lid hp, releaserPc_of_concerns lid hq]
  handler w hw := by
    subst hw
    exact absurd rfl hp

section Positions
variable {lid : ℕ} {p : Phase ι ω} {w : ω} {c : ι}

section
omit [DecidableEq ι]

theorem Phase.eq_revRun (hw : p.serverPc lid w = .revokeStart lid) : p = .revRun w := by
  cases p <;> grind [serverPc]

theorem Phase.eq_revCall (hw : p.serverPc lid w = .revokeCalling lid c) : p = .revCall w c := by
  cases p <;> grind [serverPc]

theorem Phase.eq_retRun (hw : p.serverPc lid w = .retryStart lid) : p = .retRun w := by
  cases p <;> grind [serverPc]

theorem Phase.eq_retCall (hw : p.serverPc lid w = .retryCalling lid c) : p = .retCall w c := by
  cases p <;> grind [serverPc]

theorem Phase.eq_retAcc {ret : RStatus} (hw : p.serverPc lid w = .retryAnswered lid ret) :
    ret = .OK ∧ p = .retAcc w := by
  cases p <;> grind [serverPc]

theorem Phase.ne_revokeAnswered (ret : RStatus) : p.serverPc lid w ≠ .revokeAnswered lid ret := by
  cases p <;> grind [serverPc]

end

theorem Phase.eq_relRun (hw : p.releaserPc lid c w = .start lid) : p = .relRun c w := by
  cases p <;> grind [releaserPc]

theorem Phase.eq_relTimed (hw : p.releaserPc lid c w = .tmoutWait lid false) :
    p = .relTimed c w := by
  cases p <;> grind [releaserPc]

theorem Phase.eq_relCall (hw : p.releaserPc lid c w = .calling lid) : p = .relCall c w := by
  cases p <;> grind [releaserPc]

theorem Phase.ne_answered (ret : Status) : p.releaserPc lid c w ≠ .answered lid ret := by
  cases p <;> grind [releaserPc]

end Positions

omit [DecidableEq τ] in
theorem ServerMatches.moveWorker {lid : ℕ} {v : ServerView ι ω} {h : Handover ι τ ω}
    (hm : ServerMatches lid v h) {q : Phase ι ω} {w : ω} {pc : ServerPc ι}
    (hne : ∀ u, u ≠ w → h.phase.serverPc lid u = q.serverPc lid u)
    (hpc : pc = q.serverPc lid w ∨ pc = .revokeAnswered lid .OK ∧ q.serverPc lid w = .idle)
    (u : ω) : Function.update v.worker w pc u = q.serverPc lid u ∨
      Function.update v.worker w pc u = .revokeAnswered lid .OK ∧ q.serverPc lid u = .idle := by
  by_cases hu : u = w
  · subst hu
    simpa using hpc
  · rw [Function.update_of_ne hu, ← hne u hu]
    exact hm.worker u

def Phase.Unqueued (p : Phase ι ω) : Prop := p ≠ .revQ ∧ p ≠ .revJ ∧ p ≠ .retQ ∧ p ≠ .retJ

omit [DecidableEq τ] in
/-- The queues of the server hold nothing about the lock, before and after. -/
theorem ServerMatches.unqueued {lid : ℕ} {v : ServerView ι ω} {h h' : Handover ι τ ω}
    (hm : ServerMatches lid v h) (hp : h.phase.Unqueued) (hq : h'.phase.Unqueued)
    (ho : h'.owner = h.owner) (hw : h'.waiting = h.waiting) {f : ω → ServerPc ι}
    (hf : ∀ w, f w = h'.phase.serverPc lid w ∨
      f w = .revokeAnswered lid .OK ∧ h'.phase.serverPc lid w = .idle) :
    ServerMatches lid { v with worker := f } h' where
  owner := ho ▸ hm.owner
  waiting := hw ▸ hm.waiting
  revQ := by rw [hm.revQ, if_neg hp.1, if_neg hq.1]
  revJ := by rw [hm.revJ, if_neg hp.2.1, if_neg hq.2.1]
  retQ := by rw [hm.retQ, if_neg hp.2.2.1, if_neg hq.2.2.1]
  retJ := by rw [hm.retJ, if_neg hp.2.2.2, if_neg hq.2.2.2]
  worker := hf

omit [DecidableEq τ] in
/-- The server takes no part in a release under way in a client. -/
theorem ServerMatches.atClient {lid : ℕ} {v : ServerView ι ω} {h h' : Handover ι τ ω} {c : ι}
    (hm : ServerMatches lid v h) (hp : h.phase.AtClient c) (hq : h'.phase.AtClient c)
    (ho : h'.owner = h.owner) (hw : h'.waiting = h.waiting) : ServerMatches lid v h' := by
  have hout {x : Phase ι ω} (hx : x.AtClient c) : x.Unqueued := by
    cases x <;> simp_all [Phase.AtClient, Phase.Unqueued]
  have hidle {x : Phase ι ω} (hx : x.AtClient c) (w : ω) : x.serverPc lid w = .idle := by
    cases x <;> first | rfl | exact hx.elim
  apply hm.unqueued (hout hp) (hout hq) ho hw
  intro w
  have := hm.worker w
  rw [hidle hp w] at this
  rwa [hidle hq w]

omit [DecidableEq τ] in
/-- No worker is busy with the release of a client that has released. -/
theorem Handover.Valid.releaserPc_of_leaving {h : Handover ι τ ω} (hv : h.Valid) (lid : ℕ) {c : ι}
    {w : ω} (hr : h.role c = .leaving w) (u : ω) : h.phase.releaserPc lid c u = .idle := by
  have hrel : ¬h.phase.Owes c := by
    rw [← hv.releasing c, hr]
    simp
  have hk := hv.phase
  cases hph : h.phase with
  | relRun d v | relCall d v =>
    have hd : d ≠ c := by simpa [hph, Phase.Owes] using hrel
    simp [Phase.releaserPc, hd]
  | relTimed d v =>
    have hd : d ≠ c := by
      rintro rfl
      simp [Handover.PhaseOk, hph, hr] at hk
    simp [Phase.releaserPc, hd]
  | _ => rfl

section Matches
variable {lid : ℕ} {v v' : View ι τ ω} {h h' : Handover ι τ ω} {c : ι}

/-- Only client `c`, the server and the phase change, and the phases concern `c` alone. -/
theorem Matches.update (hm : Matches lid v h) (hserver : ServerMatches lid v'.server h')
    (hgranted : v'.granted = h'.granted)
    (hclient : ClientMatches lid c (v'.client c) h'.phase (h'.role c))
    (hview : ∀ d, d ≠ c → v'.client d = v.client d) (hrole : ∀ d, d ≠ c → h'.role d = h.role d)
    (hphase : ∀ d, d ≠ c → h.phase.Same lid d h'.phase) : Matches lid v' h' where
  server := hserver
  granted := hgranted
  client d := by
    by_cases hd : d = c
    · subst hd
      exact hclient
    · rw [hview d hd, hrole d hd]
      exact (hm.client d).setPhase (hphase d hd)

theorem Matches.updateServer (hm : Matches lid v h) (hserver : ServerMatches lid v'.server h')
    (hgranted : v'.granted = h'.granted) (hview : v'.client = v.client)
    (hrole : h'.role = h.role) (hphase : ∀ d, h.phase.Same lid d h'.phase) :
    Matches lid v' h' where
  server := hserver
  granted := hgranted
  client d := by
    rw [hview, hrole]
    exact (hm.client d).setPhase (hphase d)

theorem Matches.setClient (hm : Matches lid v h) {cv : ClientView τ ω} {r : Role τ ω}
    (hc : ClientMatches lid c cv h.phase r) :
    Matches lid { v with client := Function.update v.client c cv } (h.setRole c r) := by
  apply hm.update (c := c)
  · exact ⟨hm.server.owner, hm.server.waiting, hm.server.revQ, hm.server.revJ, hm.server.retQ,
      hm.server.retJ, hm.server.worker⟩
  · exact hm.granted
  · simpa [Handover.setRole_role] using hc
  · intro d hd
    simp [hd]
  · intro d hd
    simp [Handover.setRole_role, hd]
  · intro d _
    exact ⟨Iff.rfl, Iff.rfl, fun _ => rfl, fun _ => id⟩

theorem Matches.init : Matches lid ((Sys.init : Sys ι τ ω).view lid) Handover.init := by
  constructor
  · constructor <;> simp [Sys.init, Sys.view, Server.view, Server.new, Handover.init, Phase.serverPc]
  · intro c
    constructor <;> simp [Sys.init, Sys.view, Client.view, Client.new, Handover.init,
      Phase.releaserPc, entryState, Role.Shows]
  · rfl

end Matches

/-- The protocol follows the system into `s'`, by a step or by standing still. -/
def Follows (lid : ℕ) (b : Bool) (h : Handover ι τ ω) (s' : Sys ι τ ω) : Prop :=
  ∃ h', (h' = h ∨ Handover.Step b h h') ∧ Matches lid (s'.view lid) h'

section Follows
variable {lid l : ℕ} {b : Bool} {s s' : Sys ι τ ω} {h : Handover ι τ ω} {c : ι} {cl : Client τ ω}
  {t : τ} {w : ω} {r : Role τ ω}

theorem Matches.stutter (hm : Matches lid (s.view lid) h) (hv : s'.view lid = s.view lid) :
    Follows lid b h s' :=
  ⟨h, Or.inl rfl, hv ▸ hm⟩

theorem Matches.stutterClient (hm : Matches lid (s.view lid) h)
    (hv : cl.view lid = (s.client c).view lid) : Follows lid b h (s.setClient c cl) :=
  hm.stutter (Sys.view_setClient_of_eq hv)

/-- A client's operation changes at most the client's role. -/
theorem Matches.followClient (hm : Matches lid (s.view lid) h)
    (hc : ClientMatches lid c (cl.view lid) h.phase r)
    (hr : r = h.role c ∨ Handover.Step b h (h.setRole c r)) :
    Follows lid b h (s.setClient c cl) := by
  refine ⟨h.setRole c r, ?_, ?_⟩
  · rcases hr with rfl | hstep
    · left
      simp [Handover.setRole]
    · exact Or.inr hstep
  · rw [Sys.view_setClient]
    exact hm.setClient hc

/-- A thread that enters or reenters the waiting loop keeps the client's role or asks. -/
theorem Matches.followAsk (hm : Matches lid (s.view lid) h)
    (hc : ∃ r', (r' = h.role c ∨ h.role c = .out ∧ r' = .asking t) ∧
      ClientMatches lid c (cl.view lid) h.phase r') : Follows lid b h (s.setClient c cl) := by
  obtain ⟨r', hr, hc⟩ := hc
  apply hm.followClient hc
  rcases hr with rfl | ⟨hout, rfl⟩
  · exact Or.inl rfl
  · exact Or.inr (.ask c t hout)

/-- A release under way in a client goes on there. -/
theorem Matches.followRelease (hm : Matches lid (s.view lid) h) {q : Phase ι ω}
    (hp : h.phase.AtClient c) (hq : q.AtClient c) (hc : ClientMatches lid c (cl.view lid) q r)
    (hstep : Handover.Step b h ((h.setRole c r).setPhase q)) :
    Follows lid b h (s.setClient c cl) := by
  have hother {x : Phase ι ω} (hx : x.AtClient c) {d : ι} (hd : d ≠ c) : x.concerns ≠ some d := by
    cases x <;> simp_all [Phase.AtClient, Phase.concerns, hd.symm]
  refine ⟨_, Or.inr hstep, ?_⟩
  rw [Sys.view_setClient]
  apply hm.update (c := c)
  · exact hm.server.atClient hp hq rfl rfl
  · exact hm.granted
  · simpa [Handover.setRole_role] using hc
  · intro d hd
    simp [hd]
  · intro d hd
    simp [Handover.setRole_role, hd]
  · intro d hd
    exact Phase.same_of_concerns lid (hother hp hd) (hother hq hd)

/-- The position of a worker of the server that is busy with the lock fixes the phase. -/
theorem Matches.phase_of_server (hm : Matches lid (s.view lid) h) {pc : ServerPc ι}
    (hw : s.server.worker w = pc) (hpc : pc.restrict lid ≠ .revokeAnswered lid .OK) :
    h.phase.serverPc lid w = pc.restrict lid := by
  rcases hm.server.worker w with hc | ⟨hc, -⟩
  · change (s.server.worker w).restrict lid = _ at hc
    rw [hw] at hc
    exact hc.symm
  · change (s.server.worker w).restrict lid = _ at hc
    rw [hw] at hc
    exact absurd hc hpc

end Follows

end YFS.Lock
