import YFS.Library.Condition
import YFS.Rpc.Cancel.Calls

/-! # Cancelling all calls

`rpcc::cancel` completes every call that is registered with `cancel_failure`, wakes it, and waits
on `destroy_wait_c_` until `calls_` is empty; a call that erases itself signals there. The calls
wait on the condition variable of their own `caller`, under its own mutex, so between two sections
under `rpcc::m_` a call may transmit, test `done`, block, wake up and time out. Waits may end
without a signal. A call that transmits may be kept in `get_refconn` and `connection::send` for any
time, and no signal of `cancel` reaches it there.
-/

namespace YFS.Rpc
open YFS.Library YFS.Library.Condition

/-- Where a call stands in the loop of `call1`. -/
inductive LoopPos where
  /-- not registered -/
  | outside
  /-- in `get_refconn` or `connection::send` -/
  | transmitting
  /-- before the test of `ca.done` -/
  | looping
  /-- in `pthread_cond_timedwait` -/
  | wait (sig : Bool)
  /-- behind the loop, before the section that erases the call -/
  | leaving
  deriving DecidableEq, Repr

inductive CancelPc where
  | idle
  /-- on `destroy_wait_c_` -/
  | wait (sig : Bool)
  | returned
  deriving DecidableEq, Repr

/-- A signal on the condition variable of the call. -/
def LoopPos.rouse : LoopPos → LoopPos
  | .wait _ => .wait true
  | p => p

structure Shutdown (ι κ : Type*) where
  rpcc : Callers ι
  pos : ι → LoopPos
  cancel : κ → CancelPc

/-- A `pick` is the thread that the signal on `destroy_wait_c_` wakes, if it is made. -/
inductive ShutdownEvent (ι κ : Type*) where
  | call1 (k : ι) (proc : ℕ)
  | bound (srvNonce : ℕ)
  | gotPdu (b : Bytes)
  /-- the call has transmitted its request, or failed to -/
  | sent (k : ι)
  /-- the test of `ca.done` -/
  | test (k : ι)
  /-- the wait of a call ends, with `ETIMEDOUT` or not; then the call may transmit again -/
  | wake (k : ι) (timedOut transmit : Bool)
  /-- the final deadline has passed -/
  | expire (k : ι)
  | leave (k : ι) (pick : Option κ)
  | ret (k : ι)
  | cancel (x : κ)
  /-- the wait of `cancel` ends -/
  | cancelWake (x : κ)

namespace Shutdown
variable {ι κ : Type*} [DecidableEq ι] [DecidableEq κ]

def found (s : Shutdown ι κ) (b : Bytes) : Option ι :=
  (replyHeader b).bind fun h => s.rpcc.calls.lookup h.1.toNat

def broadcast (pos : ι → LoopPos) : Option ι → ι → LoopPos
  | none => pos
  | some k => Function.update pos k (pos k).rouse

def tested (s : Shutdown ι κ) (k : ι) (otherwise : LoopPos) : Shutdown ι κ :=
  { s with
    pos := Function.update s.pos k (if (s.rpcc.callers k).done then .leaving else otherwise) }

/-- Where a call goes on after a wait that has not found it done. -/
def afterWait (timedOut transmit : Bool) : LoopPos :=
  if timedOut then if transmit then .transmitting else .looping else .wait false

/-- The test `calls_.size() > 0`, with the `rpcc` as it is then. -/
def awaitEmpty (s : Shutdown ι κ) (x : κ) : Shutdown ι κ :=
  { s with
    cancel := Function.update s.cancel x
      (if s.rpcc.calls.entries.isEmpty then .returned else .wait false) }

def mark (s : Shutdown ι κ) : Shutdown ι κ :=
  { s with
    rpcc := s.rpcc.cancel
    pos := fun k =>
      if ∃ entry ∈ s.rpcc.calls.entries, entry.2 = k then (s.pos k).rouse else s.pos k }

def step (s : Shutdown ι κ) : ShutdownEvent ι κ → Option (Shutdown ι κ)
  | .call1 k proc => (s.rpcc.step (.call1 k proc)).map fun c =>
      { s with
        rpcc := c
        pos := if c.pc k = .waiting then Function.update s.pos k .transmitting else s.pos }
  | .bound srvNonce => (s.rpcc.step (.bound srvNonce)).map fun c => { s with rpcc := c }
  | .gotPdu b => (s.rpcc.step (.gotPdu b)).map fun c =>
      { s with rpcc := c, pos := broadcast s.pos (s.found b) }
  | .sent k =>
    if s.pos k = .transmitting then some { s with pos := Function.update s.pos k .looping }
    else none
  | .test k => if s.pos k = .looping then some (s.tested k (.wait false)) else none
  | .wake k timedOut transmit =>
    match s.pos k with
    | .wait _ => some (s.tested k (afterWait timedOut transmit))
    | _ => none
  | .expire k =>
    if s.pos k = .looping then some { s with pos := Function.update s.pos k .leaving } else none
  | .leave k pick =>
    if s.pos k = .leaving then
      (s.rpcc.step (.leave k)).map fun c =>
        { rpcc := c
          pos := Function.update s.pos k .outside
          cancel :=
            if s.rpcc.destroyWait then signal CancelPc.wait s.cancel pick else s.cancel }
    else none
  | .ret k => (s.rpcc.step (.ret k)).map fun c => { s with rpcc := c }
  | .cancel x => if s.cancel x = .idle then some (s.mark.awaitEmpty x) else none
  | .cancelWake x =>
    match s.cancel x with
    | .wait _ => some (s.awaitEmpty x)
    | _ => none

end Shutdown

def shutdown (ι κ : Type*) [DecidableEq ι] [DecidableEq κ] (cltNonce : ℕ) :
    Machine (Shutdown ι κ) (ShutdownEvent ι κ) where
  init := ⟨(callers ι cltNonce).init, fun _ => .outside, fun _ => .idle⟩
  step := Shutdown.step

/-! ## What a step does -/

theorem LoopPos.rouse_eq_iff {p : LoopPos} : p.rouse = .outside ↔ p = .outside := by
  cases p <;> simp [rouse]

theorem LoopPos.rouse_eq_self {p : LoopPos} (h : p ≠ .wait false) : p.rouse = p := by
  rcases p with - | - | - | (- | -) | - <;> simp_all [rouse]

theorem LoopPos.rouse_ne_blocked (p : LoopPos) : p.rouse ≠ .wait false := by
  cases p <;> simp [rouse]

namespace Shutdown

theorem afterWait_ne_outside (timedOut transmit : Bool) :
    afterWait timedOut transmit ≠ .outside := by
  cases timedOut <;> cases transmit <;> simp [afterWait]

section Moves
variable {ι κ : Type*} [DecidableEq ι] [DecidableEq κ]

inductive Moves (s : Shutdown ι κ) : ShutdownEvent ι κ → Shutdown ι κ → Prop
  | call1 {k : ι} {proc : ℕ} {c : Callers ι} (hc : s.rpcc.step (.call1 k proc) = some c) :
    Moves s (.call1 k proc)
      { s with
        rpcc := c
        pos := if c.pc k = .waiting then Function.update s.pos k .transmitting else s.pos }
  | bound {srvNonce : ℕ} {c : Callers ι} (hc : s.rpcc.step (.bound srvNonce) = some c) :
    Moves s (.bound srvNonce) { s with rpcc := c }
  | gotPdu {b : Bytes} {c : Callers ι} (hc : s.rpcc.step (.gotPdu b) = some c) :
    Moves s (.gotPdu b) { s with rpcc := c, pos := broadcast s.pos (s.found b) }
  | sent {k : ι} (hk : s.pos k = .transmitting) :
    Moves s (.sent k) { s with pos := Function.update s.pos k .looping }
  | test {k : ι} (hk : s.pos k = .looping) : Moves s (.test k) (s.tested k (.wait false))
  | wake {k : ι} {timedOut transmit sig : Bool} (hk : s.pos k = .wait sig) :
    Moves s (.wake k timedOut transmit) (s.tested k (afterWait timedOut transmit))
  | expire {k : ι} (hk : s.pos k = .looping) :
    Moves s (.expire k) { s with pos := Function.update s.pos k .leaving }
  | leave {k : ι} {pick : Option κ} {c : Callers ι} (hk : s.pos k = .leaving)
      (hc : s.rpcc.step (.leave k) = some c) :
    Moves s (.leave k pick)
      { rpcc := c
        pos := Function.update s.pos k .outside
        cancel := if s.rpcc.destroyWait then signal CancelPc.wait s.cancel pick else s.cancel }
  | ret {k : ι} {c : Callers ι} (hc : s.rpcc.step (.ret k) = some c) :
    Moves s (.ret k) { s with rpcc := c }
  | cancel {x : κ} (hx : s.cancel x = .idle) : Moves s (.cancel x) (s.mark.awaitEmpty x)
  | cancelWake {x : κ} {sig : Bool} (hx : s.cancel x = .wait sig) :
    Moves s (.cancelWake x) (s.awaitEmpty x)

theorem moves_of_step {s t : Shutdown ι κ} {e : ShutdownEvent ι κ} (hst : s.step e = some t) :
    s.Moves e t := by
  cases e with
  | call1 k proc =>
    obtain ⟨c, hc, rfl⟩ := Option.map_eq_some_iff.mp hst
    exact .call1 hc
  | bound n =>
    cases hst
    exact .bound rfl
  | gotPdu b =>
    obtain ⟨c, hc, rfl⟩ := Option.map_eq_some_iff.mp hst
    exact .gotPdu hc
  | sent k =>
    obtain ⟨hk, hst⟩ := Option.ite_none_right_eq_some.mp hst
    cases hst
    exact .sent hk
  | test k =>
    obtain ⟨hk, hst⟩ := Option.ite_none_right_eq_some.mp hst
    cases hst
    exact .test hk
  | wake k timedOut transmit =>
    simp only [Shutdown.step] at hst
    split at hst
    · rename_i sig hk
      cases hst
      exact .wake hk
    · cases hst
  | expire k =>
    obtain ⟨hk, hst⟩ := Option.ite_none_right_eq_some.mp hst
    cases hst
    exact .expire hk
  | leave k pick =>
    obtain ⟨hk, hst⟩ := Option.ite_none_right_eq_some.mp hst
    obtain ⟨c, hc, rfl⟩ := Option.map_eq_some_iff.mp hst
    exact .leave hk hc
  | ret k =>
    obtain ⟨c, hc, rfl⟩ := Option.map_eq_some_iff.mp hst
    exact .ret hc
  | cancel x =>
    obtain ⟨hx, hst⟩ := Option.ite_none_right_eq_some.mp hst
    cases hst
    exact .cancel hx
  | cancelWake x =>
    simp only [Shutdown.step] at hst
    split at hst
    · rename_i sig hx
      cases hst
      exact .cancelWake hx
    · cases hst

/-- A step is one of the `rpcc`, or does not concern it. -/
theorem step_rpcc {s t : Shutdown ι κ} {e : ShutdownEvent ι κ} (hst : s.step e = some t) :
    t.rpcc = s.rpcc ∨ ∃ e', s.rpcc.step e' = some t.rpcc := by
  cases moves_of_step hst with
  | call1 hc | bound hc | gotPdu hc | leave _ hc | ret hc => exact Or.inr ⟨_, hc⟩
  | cancel => exact Or.inr ⟨.cancel, rfl⟩
  | sent | test | wake | expire | cancelWake => exact Or.inl rfl

theorem failing_step {s t : Shutdown ι κ} {e : ShutdownEvent ι κ} {k : ι} (h : s.rpcc.Failing k)
    (hst : s.step e = some t) : t.rpcc.Failing k := by
  obtain hsame | ⟨e', he'⟩ := step_rpcc hst
  · rwa [hsame]
  · exact h.step he'

theorem destroyWait_step {s t : Shutdown ι κ} {e : ShutdownEvent ι κ}
    (h : s.rpcc.destroyWait = true) (hst : s.step e = some t) : t.rpcc.destroyWait = true := by
  obtain hsame | ⟨e', he'⟩ := step_rpcc hst
  · rwa [hsame]
  · exact Callers.destroyWait_step h he'

end Moves

end Shutdown
end YFS.Rpc
