import YFS.Rpc.Poll
import YFS.Rpc.Send

/-! # A connection under the poll thread

One connection together with the `PollMgr` that calls its `read_cb` and `write_cb`: the sections
that `connection::m_` protects, the calls of `add_callback`, `del_callback` and
`block_remove_fd` they make, and the poll thread. `send` after an error and `closeconn`
set `dead_` first and withdraw the descriptor later. The other users of the `PollMgr` may do
what they like with other descriptors.
-/

namespace YFS.Rpc
open YFS.Library

namespace Poll

variable {κ ι : Type*} [DecidableEq κ] [DecidableEq ι]

def addCallback (s : Poll κ ι) (fd : ℕ) (flag : PollFlag) (ch : κ) : Option (Poll κ ι) :=
  (s.step (.addCallback fd flag ch)).bind complete

def delCallback (s : Poll κ ι) (fd : ℕ) (flag : PollFlag) : Option (Poll κ ι) :=
  (s.step (.delCallback fd flag)).bind fun t => if t.held = none then some t else t.complete

end Poll

def Held.fd {κ : Type*} : Held κ → ℕ
  | .add fd _ => fd
  | .del fd => fd

/-- The callback that runs is this one. -/
def LoopPc.Executes (op : CbOp) (fd : ℕ) : LoopPc → Prop
  | .executing (x :: _) => x = (op, fd)
  | _ => False

instance (op : CbOp) (fd : ℕ) : (pc : LoopPc) → Decidable (pc.Executes op fd)
  | .executing (x :: _) => inferInstanceAs (Decidable (x = (op, fd)))
  | .executing [] | .checked _ | .top | .copying | .selecting _ _ _ | .serving _ => isFalse id

/-- A step of the poll thread, or one of another thread that is about another descriptor. -/
def Poll.foreign {κ ι : Type*} (fd : ℕ) (s : Poll κ (ι ⊕ ℕ)) : PollEvent κ (ι ⊕ ℕ) → Bool
  | .addCallback fd' _ _ => decide (fd' ≠ fd)
  | .delCallback fd' _ => decide (fd' ≠ fd)
  | .complete => s.held.all fun h => decide (h.fd ≠ fd)
  | .blockRemove i fd' => i.isRight && decide (fd' ≠ fd)
  | .resume i => i.isRight
  | .leave => !decide (s.loop.Executes .read fd) && !decide (s.loop.Executes .write fd)
  | _ => true

/-- A call of `block_remove_fd` for the connection: not made, to be made, begun, and returned. -/
inductive Stage where
  | none
  | due
  | inside
  | out
  deriving DecidableEq, Repr

/-- The calls of `send` are numbered by `ι` and those of `closeconn` by `ρ`; either may end up in
`block_remove_fd`. -/
structure Polled (κ ι ρ : Type*) where
  conn : Sender ι
  poll : Poll κ ((ι ⊕ ρ) ⊕ ℕ)
  stage : ι ⊕ ρ → Stage

inductive PolledEvent (κ ι ρ : Type*) where
  | send (k : ι) (w : WriteResult)
  | slotWake (k : ι) (w : WriteResult)
  | completeWake (k : ι)
  | closeconn (j : ρ)
  | remove (x : ι ⊕ ρ)
  | resume (x : ι ⊕ ρ)
  | removed (k : ι)
  | readCb (succ : Bool)
  | writeCb (w : WriteResult)
  | poll (e : PollEvent κ ((ι ⊕ ρ) ⊕ ℕ))

namespace Polled

variable {κ ι ρ : Type*} [DecidableEq κ] [DecidableEq ι] [DecidableEq ρ]
variable (self : κ) (fd : ℕ) (buf : ι → Bytes)

/-- A section of `send` from its test of `dead_` and `wpdu_.buf` on. A part that is left over is
watched for; after an error `block_remove_fd` is called once the mutex is free. -/
def sendSection (c : Polled κ ι ρ) (k : ι) (e : SendEvent ι) : Option (Polled κ ι ρ) :=
  (c.conn.step buf e).bind fun s =>
    match s.calls k with
    | .waitComplete =>
      (c.poll.addCallback fd .wronly self).map fun p => { c with conn := s, poll := p }
    | .removing => some { c with conn := s, stage := Function.update c.stage (.inl k) .due }
    | _ => some { c with conn := s }

/-- `read_cb`, where `succ` is what `readpdu` returns if it is called. -/
def readCb (c : Polled κ ι ρ) (succ : Bool) : Option (Polled κ ι ρ) :=
  if c.conn.dead ∨ succ then some c
  else (c.poll.delCallback fd .rdwr).map fun p =>
    { c with conn := { c.conn with dead := true }, poll := p }

/-- `write_cb`; its `VERIFY(!dead_)` is that of `Sender.writeCb`. -/
def writeCb (c : Polled κ ι ρ) (w : WriteResult) : Option (Polled κ ι ρ) :=
  (c.conn.writeCb w).bind fun s =>
    if c.conn.wpdu.sz = 0 then
      (c.poll.delCallback fd .wronly).map fun p => { c with conn := s, poll := p }
    else if s.dead then
      (c.poll.delCallback fd .rdwr).map fun p => { c with conn := s, poll := p }
    else some { c with conn := s }

def leave (c : Polled κ ι ρ) : Option (Polled κ ι ρ) :=
  (c.poll.step .leave).map fun p => { c with poll := p }

def step (c : Polled κ ι ρ) : PolledEvent κ ι ρ → Option (Polled κ ι ρ)
  | .send k w => c.sendSection self fd buf k (.send k w)
  | .slotWake k w => c.sendSection self fd buf k (.slotWake k w)
  | .completeWake k => (c.conn.step buf (.completeWake k)).map fun s => { c with conn := s }
  | .closeconn j =>
    if c.stage (.inr j) = .none then
      if c.conn.dead then some c
      else some { c with
        conn := { c.conn with dead := true }
        stage := Function.update c.stage (.inr j) .due }
    else none
  | .remove x =>
    if c.stage x = .due then
      (c.poll.step (.blockRemove (.inl x) fd)).map fun p =>
        { c with poll := p, stage := Function.update c.stage x .inside }
    else none
  | .resume x =>
    if c.stage x = .inside then
      (c.poll.step (.resume (.inl x))).map fun p =>
        { c with poll := p, stage := Function.update c.stage x .out }
    else none
  | .removed k =>
    if c.stage (.inl k) = .out then
      (c.conn.step buf (.removed k)).map fun s => { c with conn := s }
    else none
  | .readCb succ => if c.poll.loop.Executes .read fd then (c.readCb fd succ).bind leave else none
  | .writeCb w => if c.poll.loop.Executes .write fd then (c.writeCb fd w).bind leave else none
  | .poll e =>
    if c.poll.foreign fd e then (c.poll.step e).map fun p => { c with poll := p } else none

end Polled

/-- A connection on the descriptor `fd`, made while the `PollMgr` is in the state `p`; `self` is the
connection as a callback. -/
def polled {κ ι : Type*} (ρ : Type*) [DecidableEq κ] [DecidableEq ι] [DecidableEq ρ] (self : κ) (fd : ℕ)
    (buf : ι → Bytes) (p : Poll κ ((ι ⊕ ρ) ⊕ ℕ)) : Machine (Polled κ ι ρ) (PolledEvent κ ι ρ) where
  init :=
    { conn := (sender buf).init
      poll := { p with
        aio := p.aio.watchFd fd .rdonly
        callbacks := Function.update p.callbacks fd (some self) }
      stage := fun _ => .none }
  step := Polled.step self fd buf

namespace Polled

variable {κ ι ρ : Type*}

def Verified (fd : ℕ) (c : Polled κ ι ρ) : Prop :=
  c.poll.loop.Executes .write fd → c.conn.dead = false

/-- A `send` whose `write` fails and a `closeconn` find the descriptor neither watched for writing
nor in the poll thread's sets and lists. -/
def Quiet (fd : ℕ) (c : Polled κ ι ρ) : PolledEvent κ ι ρ → Prop
  | .send _ w =>
    w = .error → c.conn.dead = false → c.conn.wpdu.buf = none → c.poll.PutAway .write fd
  | .slotWake _ w =>
    w = .error → c.conn.dead = false → c.conn.wpdu.buf = none → c.poll.PutAway .write fd
  | .closeconn _ => c.conn.dead = false → c.poll.PutAway .write fd
  | _ => True

/-- The poll thread does not come to call `write_cb`. -/
def Harmless (fd : ℕ) (s : Poll κ ι) : Prop :=
  s.PutAway .write fd ∨ (s.callbacks fd = none ∧ ¬ s.loop.Serves .write fd)

end Polled

namespace Poll

variable {κ ι : Type*} {s t : Poll κ ι} {e : PollEvent κ ι} {op : CbOp} {fd : ℕ}

/-- The poll thread serves an entry only if there was a callback for it. -/
theorem serves_of_serve {pc : LoopPc} (h : s.serve e = some pc) (hs : pc.Serves op fd) :
    s.loop.Serves op fd ∨ (s.callbacks fd).isSome = true := by
  cases serving_of_serve h with
  | check hloop hcb | call hloop hcb =>
    cases hs
    exact .inr hcb
  | _ => exact hs.elim

end Poll

namespace Polled

variable {κ ι : Type*} [DecidableEq ι] {s t : Poll κ ι} {e : PollEvent κ ι} {fd : ℕ}

theorem Harmless.moves (hm : Poll.Moves s e t) (hadd : ∀ flag ch, e ≠ .addCallback fd flag ch)
    (hheld : e = .complete → ∀ ch, s.held ≠ some (.add fd ch)) (h : Harmless fd s) :
    Harmless fd t := by
  rcases h with haway | ⟨hcb, hserves⟩
  · exact .inl (haway.moves hm hadd)
  · refine .inr ?_
    cases hm with
    | added fd' ch hadded =>
      refine ⟨?_, hserves⟩
      have hne : fd ≠ fd' := by
        rintro rfl
        exact hheld rfl ch hadded
      rw [← hcb]
      exact Function.update_of_ne hne _ _
    | deleted fd' =>
      refine ⟨?_, hserves⟩
      simp only [Function.update_apply, hcb, ite_self]
    | resume i fd' =>
      refine ⟨?_, hserves⟩
      simp only [Function.update_apply, hcb, ite_self]
    | change => exact ⟨hcb, id⟩
    | serve e pc hpc =>
      refine ⟨hcb, fun hs => ?_⟩
      rcases Poll.serves_of_serve hpc hs with hs | hsome
      · exact hserves hs
      · rw [hcb] at hsome
        cases hsome
    | add | del | block => exact ⟨hcb, hserves⟩

end Polled

namespace Poll

variable {κ ι : Type*} [DecidableEq κ] [DecidableEq ι] {s t : Poll κ ι} {fd : ℕ}

/-- A callback that is removed altogether is gone, wherever the poll thread stands. -/
theorem delCallback_rdwr (h : s.delCallback fd .rdwr = some t) :
    t.callbacks fd = none ∧ t.loop = s.loop := by
  have hgone := s.aio.unwatchFd_rdwr fd
  obtain ⟨u, hu, ht⟩ := Option.bind_eq_some_iff.mp h
  simp only [step, Option.ite_none_right_eq_some, Option.some.injEq, hgone, if_true] at hu
  obtain ⟨-, rfl⟩ := hu
  simp only [reduceCtorEq, if_false, complete, Option.some.injEq] at ht
  subst ht
  exact ⟨Function.update_self .., rfl⟩

/-- After a callback that has been removed the poll thread goes on to the other entries. -/
theorem harmless_leave (hcb : s.callbacks fd = none) (h : s.step .leave = some t) :
    Polled.Harmless fd t := by
  obtain ⟨pc, hpc, rfl⟩ := Option.map_eq_some_iff.mp h
  refine .inr ⟨hcb, fun hserves => ?_⟩
  unfold serve at hpc
  split at hpc <;> simp_all
  subst hpc
  exact hserves

end Poll

namespace Sender

variable {ι : Type*} [DecidableEq ι] {buf : ι → Bytes} {s t : Sender ι} {k : ι} {w : WriteResult}

omit [DecidableEq ι] in
theorem dead_of_writepdu {succ : Bool} (h : s.writepdu w = some (succ, t)) :
    t.dead = s.dead ∧ t.calls = s.calls ∧ (succ = false → w = .error) := by
  unfold writepdu at h
  split at h
  · cases h
  · split at h
    · cases h
    split at h
    · cases h
      exact ⟨rfl, rfl, by simp⟩
    · cases w with
      | wrote n =>
        simp only [Option.ite_none_right_eq_some, Option.some.injEq] at h
        obtain ⟨-, h⟩ := h
        cases h
        exact ⟨rfl, rfl, by simp⟩
      | again =>
        cases h
        exact ⟨rfl, rfl, by simp⟩
      | error =>
        cases h
        exact ⟨rfl, rfl, by simp⟩

/-- `send` finds the connection dead, leaves it alive, or kills it and goes on to
`block_remove_fd`. -/
theorem enter_cases (h : s.enter buf k w = some t) :
    (s.dead = true ∧ t = s.setCall k (.returned false)) ∨
    (s.dead = false ∧ t.dead = false) ∨
    (s.dead = false ∧ s.wpdu.buf = none ∧ w = .error ∧ t.calls k = .removing) := by
  unfold enter at h
  split_ifs at h with hdead hbuf
  · cases h
    exact .inl ⟨hdead, rfl⟩
  · cases h
    have halive : s.dead = false := by simpa using hdead
    exact .inr (.inl ⟨halive, halive⟩)
  · obtain ⟨⟨succ, u⟩, hu, ht⟩ := Option.bind_eq_some_iff.mp h
    obtain ⟨hud, -, herr⟩ := dead_of_writepdu hu
    have halive : s.dead = false := by simpa using hdead
    have hnone : s.wpdu.buf = none := by simpa using hbuf
    simp only at ht
    split_ifs at ht with hsucc
    · cases ht
      exact .inr (.inr ⟨halive, hnone, herr hsucc, Function.update_self ..⟩)
    · cases ht
      exact .inr (.inl ⟨halive, hud.trans halive⟩)
    · cases ht
      exact .inr (.inl ⟨halive, hud.trans halive⟩)

end Sender

namespace Polled

variable {κ ι ρ : Type*} [DecidableEq κ] [DecidableEq ι] [DecidableEq ρ]
variable {self : κ} {fd : ℕ} {buf : ι → Bytes} {c d : Polled κ ι ρ} {e : PolledEvent κ ι ρ}

/-- Once the connection is dead the poll thread does not come to call `write_cb`. -/
def Inv (fd : ℕ) (c : Polled κ ι ρ) : Prop := c.conn.dead = true → Harmless fd c.poll

omit [DecidableEq κ] [DecidableEq ι] [DecidableEq ρ] in
theorem Inv.verified (h : c.Inv fd) : c.Verified fd := by
  intro hexec
  by_contra hdead
  have hserves : c.poll.loop.Serves .write fd := by
    unfold LoopPc.Executes at hexec
    split at hexec
    · rename_i heq
      rw [heq]
      exact hexec
    · exact hexec.elim
  rcases h (by simpa using hdead) with haway | ⟨-, hnot⟩
  · exact haway.unlisted hserves.lists
  · exact hnot hserves

theorem Inv.sendSection {k : ι} {w : WriteResult} {e : SendEvent ι} (hs : c.Inv fd)
    (he : ∀ s, c.conn.step buf e = some s → c.conn.enter buf k w = some s)
    (hq : w = .error → c.conn.dead = false → c.conn.wpdu.buf = none → c.poll.PutAway .write fd)
    (h : c.sendSection self fd buf k e = some d) : d.Inv fd := by
  obtain ⟨s, hstep, h⟩ := Option.bind_eq_some_iff.mp h
  rcases Sender.enter_cases (he s hstep) with
    ⟨hdead, rfl⟩ | ⟨-, halive⟩ | ⟨halive, hnone, herr, hcall⟩
  · simp only [Sender.setCall, Function.update_self, Option.some.injEq] at h
    subst h
    exact fun _ => hs hdead
  · have hd : d.conn.dead = false := by
      split at h
      · obtain ⟨p, -, rfl⟩ := Option.map_eq_some_iff.mp h
        exact halive
      · cases h
        exact halive
      · cases h
        exact halive
    intro hdead
    rw [hd] at hdead
    cases hdead
  · simp only [hcall, Option.some.injEq] at h
    subst h
    exact fun _ => .inl (hq herr halive hnone)

theorem Inv.foreign {e : PollEvent κ ((ι ⊕ ρ) ⊕ ℕ)} {p : Poll κ ((ι ⊕ ρ) ⊕ ℕ)} (hs : c.Inv fd)
    (hf : c.poll.foreign fd e = true) (h : c.poll.step e = some p) (hdead : c.conn.dead = true) :
    Harmless fd p := by
  refine (hs hdead).moves (Poll.moves_of_step h) ?_ ?_
  · rintro flag ch rfl
    simp [Poll.foreign] at hf
  · rintro rfl ch hheld
    simp [Poll.foreign, hheld, Held.fd] at hf

theorem Inv.step (hs : c.Inv fd) (hq : c.Quiet fd e) (h : c.step self fd buf e = some d) :
    d.Inv fd := by
  cases e with
  | send k w =>
    refine hs.sendSection (fun s hst => ?_) hq h
    simp only [Sender.step, Option.ite_none_right_eq_some] at hst
    exact hst.2
  | slotWake k w =>
    refine hs.sendSection (fun s hst => ?_) hq h
    simp only [Sender.step, Option.ite_none_right_eq_some] at hst
    exact hst.2
  | completeWake k =>
    obtain ⟨s, hst, rfl⟩ := Option.map_eq_some_iff.mp h
    have hdead : s.dead = c.conn.dead := by
      simp only [Sender.step] at hst
      split_ifs at hst <;> cases hst <;> rfl
    exact fun hd => hs (hdead ▸ hd)
  | closeconn j =>
    simp only [Polled.step, Option.ite_none_right_eq_some] at h
    obtain ⟨-, h⟩ := h
    split_ifs at h with hdead
    · cases h
      exact hs
    · cases h
      exact fun _ => .inl (hq (by simpa using hdead))
  | remove x =>
    simp only [Polled.step, Option.ite_none_right_eq_some] at h
    obtain ⟨p, hp, rfl⟩ := Option.map_eq_some_iff.mp h.2
    exact fun hdead => (hs hdead).moves (Poll.moves_of_step hp) (by simp) (by simp)
  | resume x =>
    simp only [Polled.step, Option.ite_none_right_eq_some] at h
    obtain ⟨p, hp, rfl⟩ := Option.map_eq_some_iff.mp h.2
    exact fun hdead => (hs hdead).moves (Poll.moves_of_step hp) (by simp) (by simp)
  | removed k =>
    simp only [Polled.step, Option.ite_none_right_eq_some] at h
    obtain ⟨s, hst, rfl⟩ := Option.map_eq_some_iff.mp h.2
    have hdead : s.dead = c.conn.dead := by
      simp only [Sender.step] at hst
      split_ifs at hst
      cases hst
      rfl
    exact fun hd => hs (hdead ▸ hd)
  | readCb succ =>
    simp only [Polled.step, Option.ite_none_right_eq_some] at h
    obtain ⟨b, hb, hleave⟩ := Option.bind_eq_some_iff.mp h.2
    obtain ⟨p, hp, rfl⟩ := Option.map_eq_some_iff.mp hleave
    unfold Polled.readCb at hb
    split_ifs at hb
    · cases hb
      exact fun hdead => (hs hdead).moves (Poll.moves_of_step hp) (by simp) (by simp)
    · obtain ⟨q, hq, rfl⟩ := Option.map_eq_some_iff.mp hb
      exact fun _ => Poll.harmless_leave (Poll.delCallback_rdwr hq).1 hp
  | writeCb w =>
    simp only [Polled.step, Option.ite_none_right_eq_some] at h
    obtain ⟨b, hb, hleave⟩ := Option.bind_eq_some_iff.mp h.2
    obtain ⟨p, hp, rfl⟩ := Option.map_eq_some_iff.mp hleave
    obtain ⟨s, hw, hb⟩ := Option.bind_eq_some_iff.mp hb
    split_ifs at hb with hsz hdead
    · obtain ⟨q, -, rfl⟩ := Option.map_eq_some_iff.mp hb
      simp only [Sender.writeCb, hsz, if_true] at hw
      split_ifs at hw with hd
      cases hw
      exact fun hdead => absurd hdead hd
    · obtain ⟨q, hq, rfl⟩ := Option.map_eq_some_iff.mp hb
      exact fun _ => Poll.harmless_leave (Poll.delCallback_rdwr hq).1 hp
    · cases hb
      exact fun hd => absurd hd hdead
  | poll e =>
    simp only [Polled.step, Option.ite_none_right_eq_some] at h
    obtain ⟨p, hp, rfl⟩ := Option.map_eq_some_iff.mp h.2
    exact fun hdead => hs.foreign h.1 hp hdead

end Polled

/-- In every run in which a `send` that fails and `closeconn` find the descriptor neither watched
for writing nor on the poll thread's way to `write_cb`, no `write_cb` is entered on a dead
connection. -/
theorem write_cb_alive {κ ι ρ : Type*} [DecidableEq κ] [DecidableEq ι] [DecidableEq ρ] {self : κ}
    {fd : ℕ} {buf : ι → Bytes} {p : Poll κ ((ι ⊕ ρ) ⊕ ℕ)} {es : List (PolledEvent κ ι ρ)}
    (h : (polled ρ self fd buf p).Along (Polled.Quiet fd) (polled ρ self fd buf p).init es) :
    (polled ρ self fd buf p).Throughout (Polled.Verified fd) (polled ρ self fd buf p).init es := by
  have hinit : (polled ρ self fd buf p).init.Inv fd := fun hdead => Bool.noConfusion hdead
  exact Machine.Along.throughout (fun _ hs => Polled.Inv.verified hs)
    (fun _ _ _ hs hq hst => Polled.Inv.step hs hq hst) hinit h

instance {κ ι : Type*} (s : Poll κ ι) (op : CbOp) (fd : ℕ) : Decidable (s.PutAway op fd) :=
  decidable_of_iff (fd ∉ s.aio.fds op ∧ ¬ s.loop.Lists op fd)
    ⟨fun h => ⟨h.1, h.2⟩, fun h => ⟨h.unwatched, h.unlisted⟩⟩

instance {κ ι ρ : Type*} (fd : ℕ) (c : Polled κ ι ρ) :
    (e : PolledEvent κ ι ρ) → Decidable (c.Quiet fd e)
  | .send _ w | .slotWake _ w => inferInstanceAs (Decidable (w = .error → c.conn.dead = false →
      c.conn.wpdu.buf = none → c.poll.PutAway .write fd))
  | .closeconn _ => inferInstanceAs (Decidable (c.conn.dead = false → c.poll.PutAway .write fd))
  | .completeWake _ | .remove _ | .resume _ | .removed _ | .readCb _ | .writeCb _ | .poll _ =>
    isTrue trivial

/-- A PDU is written in two parts, the watch is dropped in the round after, and then the
connection is closed. -/
def closedLate : List (PolledEvent ℕ (Fin 2) (Fin 1)) :=
  [.send 0 (.wrote 2), .poll .change, .poll .copy, .poll (.select ∅ {5}), .poll .check, .poll .call,
    .writeCb (.wrote 4), .completeWake 0, .poll .next, .poll .change, .poll .copy,
    .poll (.select ∅ {5}), .poll .check, .poll .call, .writeCb .again, .poll .next, .closeconn 0,
    .remove (.inr 0), .poll .change, .resume (.inr 0)]

theorem write_cb_alive_late :
    (polled (Fin 1) 0 5 (fun _ => [0, 0, 0, 0, 1, 2]) (poll ℕ _ 3).init).Along (Polled.Quiet 5)
      (polled (Fin 1) 0 5 (fun _ => [0, 0, 0, 0, 1, 2]) (poll ℕ _ 3).init).init closedLate ∧
    (polled (Fin 1) 0 5 (fun _ => [0, 0, 0, 0, 1, 2]) (poll ℕ _ 3).init).Throughout
      (Polled.Verified 5)
      (polled (Fin 1) 0 5 (fun _ => [0, 0, 0, 0, 1, 2]) (poll ℕ _ 3).init).init closedLate := by
  have hquiet : (polled (Fin 1) 0 5 (fun _ => [0, 0, 0, 0, 1, 2]) (poll ℕ _ 3).init).Along
      (Polled.Quiet 5)
      (polled (Fin 1) 0 5 (fun _ => [0, 0, 0, 0, 1, 2]) (poll ℕ _ 3).init).init closedLate := by
    decide
  exact ⟨hquiet, write_cb_alive hquiet⟩

/-- The watch of a PDU that has been written is still there when the connection is closed, or when
the next `send` fails: the poll thread enters `write_cb` with `dead_` set. -/
theorem write_cb_on_dead :
    (∃ c, (polled (Fin 1) 0 5 (fun _ : Fin 2 => [0, 0, 0, 0, 1, 2]) (poll ℕ _ 3).init).run
        [.send 0 (.wrote 2), .poll .change, .poll .copy, .poll (.select ∅ {5}), .poll .check,
          .poll .call, .writeCb (.wrote 4), .poll .next, .poll .change, .closeconn 0, .poll .copy,
          .poll (.select ∅ {5}), .poll .check, .poll .call] = some c ∧
      c.poll.loop.Executes .write 5 ∧ c.conn.dead = true) ∧
    ∃ c, (polled (Fin 1) 0 5 (fun _ : Fin 2 => [0, 0, 0, 0, 1, 2]) (poll ℕ _ 3).init).run
        [.send 0 (.wrote 2), .poll .change, .poll .copy, .poll (.select ∅ {5}), .poll .check,
          .poll .call, .writeCb (.wrote 4), .completeWake 0, .poll .next, .poll .change, .poll .copy,
          .poll (.select ∅ {5}), .send 1 .error, .poll .check, .poll .call] = some c ∧
      c.poll.loop.Executes .write 5 ∧ c.conn.dead = true :=
  ⟨Machine.exists_run_of_any _ (by decide), Machine.exists_run_of_any _ (by decide)⟩

end YFS.Rpc
