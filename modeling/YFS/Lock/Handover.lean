import Mathlib.Logic.Relation
import Mathlib.Tactic

/-! # Handing one lock over

The protocol the lock service runs for a single lock, without queues, tables and
threads. While clients wait there is one obligation to serve them, and `Phase` says where
it stands: with the revoker, at the owner as a lock to be released, or with the retryer.
`Role` says what the lock is to one client. The server may grant a lock without owner to
a client that asks while others wait; `Step true` allows that, `Step false` does not.
-/

namespace YFS.Lock

/-- Where the obligation to serve the waiting clients stands. In the last three it was
refused by a full job queue. -/
inductive Phase (ι ω : Type) where
  | idle
  | revQ
  | revJ
  | revRun (w : ω)
  | revCall (w : ω) (c : ι)
  | relQ (c : ι)
  | relJ (c : ι)
  | relRun (c : ι) (w : ω)
  | relTimed (c : ι) (w : ω)
  | relCall (c : ι) (w : ω)
  | retQ
  | retJ
  | retRun (w : ω)
  | retCall (w : ω) (c : ι)
  | retAcc (w : ω)
  | revLost
  | relLost (c : ι)
  | retLost
  deriving DecidableEq

/-- What the lock is to a client: `asking` and `answered` name the thread whose acquire call
is on its way to the server or granted, `leaving` the worker whose release was accepted. -/
inductive Role (τ ω : Type) where
  | out
  | asking (t : τ)
  | answered (t : τ)
  | queued
  | holding
  | releasing
  | leaving (w : ω)
  deriving DecidableEq

/-- The lock has been granted to the client and not been taken back. -/
def Role.Possesses {τ ω : Type} : Role τ ω → Prop
  | .answered _ | .holding | .releasing => True
  | _ => False

/-- The obligation is a release that the client owes. -/
def Phase.Owes {ι ω : Type} (c : ι) : Phase ι ω → Prop
  | .relQ d | .relJ d | .relRun d _ | .relCall d _ | .relLost d => d = c
  | _ => False

/-- The front of the queue has been made the owner and not been told. -/
def Phase.Hands {ι ω : Type} : Phase ι ω → Prop
  | .retJ | .retRun _ | .retCall _ _ | .retLost => True
  | _ => False

structure Handover (ι τ ω : Type) where
  owner : Option ι
  waiting : List ι
  phase : Phase ι ω
  role : ι → Role τ ω
  granted : ι → Bool

namespace Handover
variable {ι τ ω : Type}

def init : Handover ι τ ω := ⟨none, [], .idle, fun _ => .out, fun _ => false⟩

/-- The clients still to be told: the front of the queue is not among them once it has
accepted its retry. -/
def pending (h : Handover ι τ ω) : List ι :=
  match h.phase with
  | .retAcc _ => h.waiting.tail
  | _ => h.waiting

variable [DecidableEq ι]

def setRole (h : Handover ι τ ω) (c : ι) (r : Role τ ω) : Handover ι τ ω :=
  { h with role := Function.update h.role c r }

def setPhase (h : Handover ι τ ω) (p : Phase ι ω) : Handover ι τ ω := { h with phase := p }

def setOwner (h : Handover ι τ ω) (o : Option ι) : Handover ι τ ω := { h with owner := o }

def setWaiting (h : Handover ι τ ω) (l : List ι) : Handover ι τ ω := { h with waiting := l }

def setGranted (h : Handover ι τ ω) (c : ι) (b : Bool) : Handover ι τ ω :=
  { h with granted := Function.update h.granted c b }

def grantTo (h : Handover ι τ ω) (c : ι) (t : τ) : Handover ι τ ω :=
  ((h.setOwner (some c)).setRole c (.answered t)).setGranted c true

inductive Step (barge : Bool) : Handover ι τ ω → Handover ι τ ω → Prop
  | ask {h} (c : ι) (t : τ) : h.role c = .out → Step barge h (h.setRole c (.asking t))
  | grant {h} (c : ι) (t : τ) : h.role c = .asking t → h.owner = none →
      (h.waiting = [] ∨ barge = true) → Step barge h (h.grantTo c t)
  | first {h} (c : ι) (t : τ) : h.role c = .asking t → h.owner ≠ none → h.waiting = [] →
      Step barge h (((h.setWaiting [c]).setRole c .queued).setPhase .revQ)
  | queue {h} (c : ι) (t : τ) : h.role c = .asking t → h.owner ≠ none → h.waiting ≠ [] →
      Step barge h ((h.setWaiting (h.waiting ++ [c])).setRole c .queued)
  | hold {h} (c : ι) (t : τ) : h.role c = .answered t → Step barge h (h.setRole c .holding)
  | revJob {h} (p : Phase ι ω) : h.phase = .revQ → p = .revJ ∨ p = .revLost →
      Step barge h (h.setPhase p)
  | revTake {h} (w : ω) : h.phase = .revJ → Step barge h (h.setPhase (.revRun w))
  | revCall {h} (w : ω) (c : ι) : h.phase = .revRun w → h.owner = some c →
      Step barge h (h.setPhase (.revCall w c))
  | revoked {h} (w : ω) (c : ι) : h.phase = .revCall w c → h.role c = .holding →
      Step barge h ((h.setRole c .releasing).setPhase (.relQ c))
  | relJob {h} (c : ι) (p : Phase ι ω) : h.phase = .relQ c → p = .relJ c ∨ p = .relLost c →
      Step barge h (h.setPhase p)
  | relTake {h} (c : ι) (w : ω) : h.phase = .relJ c → Step barge h (h.setPhase (.relRun c w))
  | relWait {h} (c : ι) (w : ω) : h.phase = .relRun c w →
      Step barge h ((h.setRole c .holding).setPhase (.relTimed c w))
  | relCall {h} (c : ι) (w : ω) : h.phase = .relRun c w ∨ h.phase = .relTimed c w →
      Step barge h ((h.setRole c .releasing).setPhase (.relCall c w))
  | released {h} (c : ι) (w : ω) : h.phase = .relCall c w → Step barge h
      ((((h.setOwner none).setRole c (.leaving w)).setGranted c false).setPhase .retQ)
  | left {h} (c : ι) (w : ω) : h.role c = .leaving w → Step barge h (h.setRole c .out)
  | retJob {h} (c : ι) (l : List ι) (p : Phase ι ω) : h.phase = .retQ → h.waiting = c :: l →
      p = .retJ ∨ p = .retLost → Step barge h ((h.setOwner (some c)).setPhase p)
  | retTake {h} (w : ω) : h.phase = .retJ → Step barge h (h.setPhase (.retRun w))
  | retCall {h} (w : ω) (c : ι) : h.phase = .retRun w → h.owner = some c →
      Step barge h (h.setPhase (.retCall w c))
  | accept {h} (w : ω) (c : ι) : h.phase = .retCall w c →
      Step barge h (((h.setRole c .holding).setGranted c true).setPhase (.retAcc w))
  | served {h} (w : ω) (c : ι) : h.phase = .retAcc w → h.waiting = [c] →
      Step barge h ((h.setWaiting []).setPhase .idle)
  | next {h} (w : ω) (c d : ι) (l : List ι) : h.phase = .retAcc w → h.waiting = c :: d :: l →
      Step barge h ((h.setWaiting (d :: l)).setPhase .revQ)

def Reach (barge : Bool) (h : Handover ι τ ω) : Prop :=
  Relation.ReflTransGen (Step barge) init h

omit [DecidableEq ι] in
def PhaseOk (h : Handover ι τ ω) : Prop :=
  match h.phase with
  | .idle => h.waiting = []
  | .revQ | .revJ | .revRun _ | .revLost => h.waiting ≠ [] ∧ h.owner ≠ none
  | .revCall _ c | .relQ c | .relJ c | .relRun c _ | .relCall c _ | .relLost c =>
    h.waiting ≠ [] ∧ h.owner = some c
  | .relTimed c _ => h.waiting ≠ [] ∧ h.owner = some c ∧ h.role c = .holding
  | .retQ => h.waiting ≠ []
  | .retJ | .retRun _ | .retLost => ∃ c l, h.waiting = c :: l ∧ h.owner = some c
  | .retCall _ c => ∃ l, h.waiting = c :: l ∧ h.owner = some c
  | .retAcc _ => ∃ c l, h.waiting = c :: l ∧ h.owner = some c ∧ h.role c = .holding

structure Valid (h : Handover ι τ ω) : Prop where
  nodup : h.waiting.Nodup
  phase : h.PhaseOk
  queued : ∀ c, h.role c = .queued ↔ c ∈ h.pending
  releasing : ∀ c, h.role c = .releasing ↔ h.phase.Owes c
  owned : ∀ c, h.owner = some c → (h.role c).Possesses ∨ (h.phase.Hands ∧ h.role c = .queued)
  granted : ∀ c, (h.role c).Possesses → h.granted c = true

/-- What holds besides when no grant passes the queue. -/
structure Exclusive (h : Handover ι τ ω) : Prop where
  owner : ∀ c, (h.role c).Possesses → h.owner = some c
  free : h.phase = .retQ → h.owner = none

omit [DecidableEq ι] in
theorem valid_init : (init : Handover ι τ ω).Valid where
  nodup := List.nodup_nil
  phase := rfl
  queued c := by simp [init, pending]
  releasing c := by simp [init, Phase.Owes]
  owned c hc := by simp [init] at hc
  granted c hc := by simp [init, Role.Possesses] at hc

section RoleAndPhase
variable {h : Handover ι τ ω} {c : ι} {r : Role τ ω} {p : Phase ι ω} {o : Option ι} {l : List ι}
  {b : Bool}

@[simp] theorem setRole_owner : (h.setRole c r).owner = h.owner := rfl
@[simp] theorem setRole_waiting : (h.setRole c r).waiting = h.waiting := rfl
@[simp] theorem setRole_phase : (h.setRole c r).phase = h.phase := rfl
@[simp] theorem setRole_granted : (h.setRole c r).granted = h.granted := rfl
@[simp] theorem setRole_pending : (h.setRole c r).pending = h.pending := rfl

section
omit [DecidableEq ι]

@[simp] theorem setPhase_owner : (h.setPhase p).owner = h.owner := rfl
@[simp] theorem setPhase_waiting : (h.setPhase p).waiting = h.waiting := rfl
@[simp] theorem setPhase_phase : (h.setPhase p).phase = p := rfl
@[simp] theorem setPhase_role : (h.setPhase p).role = h.role := rfl
@[simp] theorem setPhase_granted : (h.setPhase p).granted = h.granted := rfl

@[simp] theorem setOwner_owner : (h.setOwner o).owner = o := rfl
@[simp] theorem setOwner_waiting : (h.setOwner o).waiting = h.waiting := rfl
@[simp] theorem setOwner_phase : (h.setOwner o).phase = h.phase := rfl
@[simp] theorem setOwner_role : (h.setOwner o).role = h.role := rfl
@[simp] theorem setOwner_granted : (h.setOwner o).granted = h.granted := rfl
@[simp] theorem setWaiting_waiting : (h.setWaiting l).waiting = l := rfl
@[simp] theorem setWaiting_owner : (h.setWaiting l).owner = h.owner := rfl
@[simp] theorem setWaiting_phase : (h.setWaiting l).phase = h.phase := rfl
@[simp] theorem setWaiting_role : (h.setWaiting l).role = h.role := rfl
@[simp] theorem setWaiting_granted : (h.setWaiting l).granted = h.granted := rfl

end

@[simp] theorem setGranted_granted : (h.setGranted c b).granted = Function.update h.granted c b := rfl
@[simp] theorem setGranted_owner : (h.setGranted c b).owner = h.owner := rfl
@[simp] theorem setGranted_waiting : (h.setGranted c b).waiting = h.waiting := rfl
@[simp] theorem setGranted_phase : (h.setGranted c b).phase = h.phase := rfl
@[simp] theorem setGranted_role : (h.setGranted c b).role = h.role := rfl

theorem setRole_role (d : ι) : (h.setRole c r).role d = if d = c then r else h.role d :=
  Function.update_apply ..

/-- Only a holder's role matters to the phase. -/
theorem PhaseOk.setRole (hp : h.PhaseOk) (hc : h.role c ≠ .holding) :
    (h.setRole c r).PhaseOk := by
  have hne (d : ι) (hd : h.role d = .holding) : (h.setRole c r).role d = .holding := by
    have hdc : d ≠ c := by
      rintro rfl
      exact hc hd
    rw [setRole_role, if_neg hdc, hd]
  cases hph : h.phase with
  | relTimed d w =>
    simp only [PhaseOk, hph, setRole_phase] at hp ⊢
    exact ⟨hp.1, hp.2.1, hne d hp.2.2⟩
  | retAcc w =>
    simp only [PhaseOk, hph, setRole_phase] at hp ⊢
    obtain ⟨d, l, hw, hown, hd⟩ := hp
    exact ⟨d, l, hw, hown, hne d hd⟩
  | _ => simpa only [PhaseOk, hph, setRole_phase, setRole_owner, setRole_waiting] using hp

/-- A client that neither waits nor releases takes another such role. -/
theorem Valid.setRole (hv : h.Valid) (hh : h.role c ≠ .holding) (hq : h.role c ≠ .queued)
    (hr : h.role c ≠ .releasing) (hq' : r ≠ .queued) (hr' : r ≠ .releasing)
    (hpos : (h.role c).Possesses ↔ r.Possesses) : (h.setRole c r).Valid where
  nodup := hv.nodup
  phase := hv.phase.setRole hh
  queued d := by
    rw [setRole_role, setRole_pending, ← hv.queued d]
    by_cases hd : d = c
    · subst hd
      simp [hq, hq']
    · simp [hd]
  releasing d := by
    rw [setRole_role, setRole_phase, ← hv.releasing d]
    by_cases hd : d = c
    · subst hd
      simp [hr, hr']
    · simp [hd]
  owned d hd := by
    have := hv.owned d hd
    rw [setRole_role]
    by_cases hdc : d = c
    · subst hdc
      rw [if_pos rfl]
      exact Or.inl (hpos.mp (this.resolve_right fun hq₂ => hq hq₂.2))
    · rw [if_neg hdc]
      exact this
  granted d hd := by
    rw [setRole_role] at hd
    by_cases hdc : d = c
    · subst hdc
      exact hv.granted d (hpos.mpr (by simpa using hd))
    · exact hv.granted d (by simpa [hdc] using hd)

omit [DecidableEq ι] in
theorem Valid.setPhase (hv : h.Valid) (hp : (h.setPhase p).PhaseOk)
    (hpend : (h.setPhase p).pending = h.pending) (howes : ∀ d, p.Owes d ↔ h.phase.Owes d)
    (hhands : h.phase.Hands → p.Hands) : (h.setPhase p).Valid where
  nodup := hv.nodup
  phase := hp
  queued d := by rw [hpend]; exact hv.queued d
  releasing d := (hv.releasing d).trans (howes d).symm
  owned d hd := (hv.owned d hd).imp_right fun hq => ⟨hhands hq.1, hq.2⟩
  granted := hv.granted

end RoleAndPhase

section Invariant
variable {h h' : Handover ι τ ω} {b : Bool}

section
omit [DecidableEq ι]

theorem Valid.owner_ne (hv : h.Valid) {c : ι} (hp : ¬(h.role c).Possesses)
    (hq : h.role c ≠ .queued) : h.owner ≠ some c := by
  intro hc
  rcases hv.owned c hc with hpos | hhand
  · exact hp hpos
  · exact hq hhand.2

theorem Valid.idle_of_empty (hv : h.Valid) (hw : h.waiting = []) : h.phase = .idle := by
  have hk := hv.phase
  cases hph : h.phase <;> simp_all [PhaseOk]

/-- Without an owner nobody waits or the lock is on its way to the retryer. -/
theorem Valid.phase_of_free (hv : h.Valid) (ho : h.owner = none) :
    h.phase = .idle ∨ h.phase = .retQ := by
  have hk := hv.phase
  cases hph : h.phase <;> simp_all [PhaseOk]

/-- The worker has begun on the release, and the client no longer lends the lock. -/
theorem Valid.role_of_relRun (hv : h.Valid) {c : ι} {w : ω} (hph : h.phase = .relRun c w) :
    h.role c = .releasing := by
  rw [hv.releasing c, hph]
  rfl

/-- While the worker waits its client's threads may use the lock. -/
theorem Valid.role_of_relTimed (hv : h.Valid) {c : ι} {w : ω} (hph : h.phase = .relTimed c w) :
    h.role c = .holding := by
  have hk := hv.phase
  simp only [PhaseOk, hph] at hk
  exact hk.2.2

/-- The client that the retry call goes to waits at the front of the queue. -/
theorem Valid.role_of_retCall (hv : h.Valid) {c : ι} {w : ω} (hph : h.phase = .retCall w c) :
    h.role c = .queued := by
  have hk := hv.phase
  simp only [PhaseOk, hph] at hk
  obtain ⟨q, hq, -⟩ := hk
  rw [hv.queued c]
  simp [pending, hph, hq]

end

theorem pending_append (hw : h.waiting ≠ []) (c : ι) :
    ((h.setWaiting (h.waiting ++ [c])).setRole c .queued).pending = h.pending ++ [c] := by
  cases hph : h.phase <;> simp [pending, setWaiting, setRole, hph, List.tail_append_of_ne_nil hw]

omit [DecidableEq ι] in
theorem PhaseOk.append (hp : h.PhaseOk) (hw : h.waiting ≠ []) (c : ι) :
    (h.setWaiting (h.waiting ++ [c])).PhaseOk := by
  obtain ⟨d, l, hdl⟩ := List.exists_cons_of_ne_nil hw
  cases hph : h.phase <;> simp_all [PhaseOk, setWaiting]

theorem Valid.grantTo (hv : h.Valid) {c : ι} {t : τ} (hc : h.role c = .asking t)
    (ho : h.owner = none) : (h.grantTo c t).Valid := by
  have hph := hv.phase_of_free ho
  obtain ⟨hn, hp, hq, hr, -, hg⟩ := hv
  rcases h with ⟨o, l, p, r, g⟩
  dsimp only at hph ho hc
  subst ho
  rcases hph with rfl | rfl <;>
    simp only [PhaseOk, pending, Phase.Owes, iff_false] at hp hq hr <;>
    constructor <;>
    simp only [Handover.grantTo, setOwner, Handover.setRole, setGranted, PhaseOk, pending,
      Phase.Owes, Phase.Hands, Function.update_apply, iff_false] <;>
    grind [Role.Possesses]

/-- The first client to wait sets the obligation up. -/
theorem Valid.first (hv : h.Valid) {c : ι} {t : τ} (hc : h.role c = .asking t)
    (ho : h.owner ≠ none) (hw : h.waiting = []) :
    (((h.setWaiting [c]).setRole c .queued).setPhase .revQ).Valid := by
  have hph := hv.idle_of_empty hw
  obtain ⟨hn, -, hq, hr, hown, hg⟩ := hv
  rcases h with ⟨o, l, p, r, g⟩
  dsimp only at hph ho hc hw
  subst hph hw
  simp only [pending, Phase.Owes, Phase.Hands, iff_false, false_and, or_false] at hq hr hown
  constructor <;>
    simp only [setWaiting, Handover.setRole, Handover.setPhase, PhaseOk, pending, Phase.Owes,
      Phase.Hands, Function.update_apply, iff_false, false_and, or_false] <;>
    grind [Role.Possesses]

theorem Valid.queue (hv : h.Valid) {c : ι} {t : τ} (hc : h.role c = .asking t)
    (hw : h.waiting ≠ []) : ((h.setWaiting (h.waiting ++ [c])).setRole c .queued).Valid where
  nodup := by
    have hnp : c ∉ h.waiting := by
      intro hmem
      have hpend : c ∉ h.pending := by
        rw [← hv.queued c, hc]
        simp
      have hk := hv.phase
      cases hph : h.phase with
      | retAcc w =>
        simp only [PhaseOk, hph] at hk
        obtain ⟨d, l, hdl, -, hd⟩ := hk
        simp only [pending, hph, hdl, List.tail_cons] at hpend
        rw [hdl, List.mem_cons] at hmem
        rcases hmem with rfl | hmem
        · simp [hc] at hd
        · exact hpend hmem
      | _ => exact hpend (by simpa only [pending, hph] using hmem)
    apply List.nodup_append.mpr
    refine ⟨hv.nodup, List.nodup_singleton c, ?_⟩
    intro a ha d hd
    rw [List.mem_singleton] at hd
    rintro rfl
    exact hnp (hd ▸ ha)
  phase := by
    apply (hv.phase.append hw c).setRole
    change h.role c ≠ .holding
    simp [hc]
  queued d := by
    rw [pending_append hw, setRole_role, List.mem_append, List.mem_singleton, ← hv.queued d]
    by_cases hd : d = c
    · simp [hd]
    · simp only [hd, if_false, or_false]
      rfl
  releasing d := by
    change _ ↔ h.phase.Owes d
    rw [setRole_role, ← hv.releasing d]
    by_cases hd : d = c
    · simp [hd, hc]
    · simp only [hd, if_false]
      rfl
  owned d hd := by
    have hdc : d ≠ c := by
      rintro rfl
      exact hv.owner_ne (by simp [hc, Role.Possesses]) (by simp [hc]) hd
    rw [setRole_role, if_neg hdc]
    exact hv.owned d hd
  granted d hd := by
    rw [setRole_role] at hd
    by_cases hdc : d = c
    · simp [hdc, Role.Possesses] at hd
    · rw [if_neg hdc] at hd
      exact hv.granted d hd

theorem Step.valid (hs : Step b h h') (hv : h.Valid) : h'.Valid := by
  cases hs with
  | ask c t hc => apply hv.setRole <;> simp [hc, Role.Possesses]
  | hold c t hc => apply hv.setRole <;> simp [hc, Role.Possesses]
  | left c w hc => apply hv.setRole <;> simp [hc, Role.Possesses]
  | grant c t hc ho hw => exact hv.grantTo hc ho
  | first c t hc ho hw => exact hv.first hc ho hw
  | queue c t hc ho hw => exact hv.queue hc hw
  | revJob p hph hp =>
    have hk := hv.phase
    apply hv.setPhase <;> rcases hp with rfl | rfl <;>
      simp_all [PhaseOk, pending, Phase.Owes, Phase.Hands]
  | relJob c p hph hp =>
    have hk := hv.phase
    apply hv.setPhase <;> rcases hp with rfl | rfl <;>
      simp_all [PhaseOk, pending, Phase.Owes, Phase.Hands]
  | revTake w hph | relTake c w hph | retTake w hph | revCall w c hph hc | retCall w c hph hc =>
    have hk := hv.phase
    apply hv.setPhase <;> simp_all [PhaseOk, pending, Phase.Owes, Phase.Hands]
  | relCall c w hph =>
    obtain ⟨hn, hp, hq, hr, hown, hg⟩ := hv
    rcases h with ⟨o, l, p, r, g⟩
    dsimp only at hph
    rcases hph with rfl | rfl <;>
      simp only [PhaseOk, pending, Phase.Owes, Phase.Hands, iff_false, false_and, or_false]
        at hp hq hr hown <;>
      constructor <;>
      simp only [Handover.setRole, Handover.setPhase, PhaseOk, pending, Phase.Owes, Phase.Hands,
        Function.update_apply, false_and, or_false] <;>
      grind [Role.Possesses]
  | revoked w c hph hc | relWait c w hph | released c w hph | accept w c hph =>
    obtain ⟨hn, hp, hq, hr, hown, hg⟩ := hv
    rcases h with ⟨o, l, p, r, g⟩
    dsimp only at hph
    subst hph
    simp only [PhaseOk, pending, Phase.Owes, Phase.Hands, iff_false, false_and, or_false, true_and]
      at hp hq hr hown
    constructor <;>
      simp only [setOwner, setGranted, Handover.setRole, Handover.setPhase, PhaseOk, pending,
        Phase.Owes, Phase.Hands, Function.update_apply, iff_false, false_and, or_false] <;>
      grind [Role.Possesses]
  | retJob c l p hph hw hp =>
    obtain ⟨hn, hk, hq, hr, hown, hg⟩ := hv
    rcases h with ⟨o, l, p, r, g⟩
    dsimp only at hph hw
    subst hph hw
    simp only [pending, Phase.Owes, Phase.Hands, iff_false, false_and, or_false] at hq hr hown
    rcases hp with rfl | rfl <;> constructor <;>
      simp only [setOwner, Handover.setPhase, PhaseOk, pending, Phase.Owes, Phase.Hands, iff_false,
        true_and] <;>
      grind [Role.Possesses]
  | served w c hph hw | next w c d l hph hw =>
    obtain ⟨hn, hk, hq, hr, hown, hg⟩ := hv
    rcases h with ⟨o, l, p, r, g⟩
    dsimp only at hph hw
    subst hph hw
    simp only [PhaseOk, pending, Phase.Owes, Phase.Hands, iff_false, false_and, or_false,
      List.tail_cons] at hk hq hr hown
    constructor <;>
      simp only [setWaiting, Handover.setPhase, PhaseOk, pending, Phase.Owes, Phase.Hands,
        iff_false, false_and, or_false] <;>
      grind [Role.Possesses]

theorem Reach.valid (hr : Reach b h) : h.Valid := by
  induction hr with
  | refl => exact valid_init
  | tail _ hs ih => exact hs.valid ih

/-- Without grants past the queue a client with the lock stays its owner. -/
theorem Step.exclusive (hs : Step false h h') (hv : h.Valid) (he : h.Exclusive) :
    h'.Exclusive := by
  obtain ⟨hown, hfree⟩ := he
  have hk := hv.phase
  have hrel := hv.releasing
  cases hs <;> constructor <;>
    simp only [setOwner, setGranted, setWaiting, grantTo, Handover.setRole, Handover.setPhase,
      Function.update_apply] <;>
    grind [Role.Possesses, PhaseOk]

theorem Reach.exclusive (hr : Reach false h) : h.Exclusive := by
  induction hr with
  | refl => exact ⟨fun c hc => by simp [init, Role.Possesses] at hc, fun _ => rfl⟩
  | tail hr hs ih => exact hs.exclusive (Reach.valid hr) ih

/-- At most one client has a lock that is never granted past its queue. -/
theorem Reach.unique (hr : Reach false h) {c d : ι} (hc : (h.role c).Possesses)
    (hd : (h.role d).Possesses) : c = d := by
  have hcd : some c = some d := (hr.exclusive.owner c hc).symm.trans (hr.exclusive.owner d hd)
  exact Option.some.inj hcd

end Invariant

end Handover
end YFS.Lock
