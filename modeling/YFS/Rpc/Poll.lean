import YFS.Library.Machine

/-! # The poll thread

`PollMgr` with `SelectAIO` below it. Any number of threads call `add_callback`,
`del_callback` and `block_remove_fd`, while the poll thread runs `wait_loop`. That thread takes
`PollMgr::m_` only at the top of a round and `SelectAIO::m_` only to copy the descriptor
sets; it reads `callbacks_` with no lock, once to test it and once more to call. So
`add_callback` and `del_callback` are two steps each, one for the sets and one for
`callbacks_`, during which `PollMgr::m_` is held.
-/

namespace YFS.Rpc
open YFS.Library

def MAX_POLL_FDS : ℕ := 128

inductive PollFlag where
  | rdonly
  | wronly
  | rdwr
  deriving DecidableEq, Repr

/-- `pipe` is `pipefd_[0]`. The bytes in the pipe only end the wait of `select`, which may end at
any time here. -/
structure SelectAIO where
  pipe : ℕ
  rfds : Finset ℕ
  wfds : Finset ℕ
  highfds : ℕ
  deriving DecidableEq

namespace SelectAIO

def watchFd (a : SelectAIO) (fd : ℕ) (flag : PollFlag) : SelectAIO :=
  { a with
    rfds := if flag = .wronly then a.rfds else insert fd a.rfds
    wfds := if flag = .rdonly then a.wfds else insert fd a.wfds
    highfds := if a.highfds ≤ fd then fd else a.highfds }

def clearFd (a : SelectAIO) (fd : ℕ) (flag : PollFlag) : SelectAIO :=
  { a with
    rfds := if flag = .wronly then a.rfds else a.rfds.erase fd
    wfds := if flag = .rdonly then a.wfds else a.wfds.erase fd }

/-- The loop of `unwatch_fd` that looks for the highest descriptor. -/
def newHigh (a : SelectAIO) : ℕ :=
  (List.range (a.highfds + 1)).foldl
    (fun newh i => if i ∈ a.rfds then i else if i ∈ a.wfds then i else newh) a.pipe

/-- The result is whether the descriptor is in neither set any more. -/
def unwatchFd (a : SelectAIO) (fd : ℕ) (flag : PollFlag) : Bool × SelectAIO :=
  let a := a.clearFd fd flag
  let gone := decide (fd ∉ a.rfds ∧ fd ∉ a.wfds)
  (gone, if gone ∧ fd = a.highfds then { a with highfds := a.newHigh } else a)

/-- The loop at the end of `wait_ready`: those of `fds` it lists, where `trfds` are the descriptors
that `select` has reported for reading. -/
def listed (a : SelectAIO) (high : ℕ) (trfds fds : Finset ℕ) : List ℕ :=
  (List.range (high + 1)).filter fun fd => decide (fd ∈ fds ∧ ¬ (fd = a.pipe ∧ fd ∈ trfds))

end SelectAIO

inductive CbOp where
  | read
  | write
  deriving DecidableEq, Repr

/-- Where `wait_loop` stands: before the locked part of a round, before the copy of the descriptor
sets, in `select` with the copies, or going through `readable` and then `writable`. What is left
of these begins with the entry that is next, that has passed the test, or whose callback runs. -/
inductive LoopPc where
  | top
  | copying
  | selecting (trfds twfds : Finset ℕ) (high : ℕ)
  | serving (todo : List (CbOp × ℕ))
  | checked (todo : List (CbOp × ℕ))
  | executing (todo : List (CbOp × ℕ))
  deriving DecidableEq

/-- A thread is not in `block_remove_fd`, or it waits there for `changedone_c_`, signalled or not.
-/
inductive RemovePc where
  | idle
  | waiting (fd : ℕ) (changed : Bool)
  deriving DecidableEq, Repr

/-- The broadcast on `changedone_c_`. -/
def RemovePc.rouse : RemovePc → RemovePc
  | .idle => .idle
  | .waiting fd _ => .waiting fd true

/-- What a thread that holds `PollMgr::m_` has yet to do. -/
inductive Held (κ : Type*) where
  | add (fd : ℕ) (ch : κ)
  | del (fd : ℕ)
  deriving DecidableEq

/-- `returned` is no variable of the code: the descriptors for which a `block_remove_fd` has
returned with no `add_callback` since. -/
structure Poll (κ ι : Type*) where
  aio : SelectAIO
  callbacks : ℕ → Option κ
  pending : Bool
  held : Option (Held κ)
  loop : LoopPc
  removers : ι → RemovePc
  returned : Finset ℕ

/-- The steps of the threads that change the table, and those of the poll thread. -/
inductive PollEvent (κ ι : Type*) where
  | addCallback (fd : ℕ) (flag : PollFlag) (ch : κ)
  | delCallback (fd : ℕ) (flag : PollFlag)
  | complete
  | blockRemove (i : ι) (fd : ℕ)
  | resume (i : ι)
  | change
  | copy
  | select (readable writable : Finset ℕ)
  | interrupted
  | check
  | call
  | leave
  | next

namespace Poll

variable {κ ι : Type*} [DecidableEq κ] [DecidableEq ι]

def complete (s : Poll κ ι) : Option (Poll κ ι) :=
  match s.held with
  | none => none
  | some (.add fd ch) =>
    if s.callbacks fd = none ∨ s.callbacks fd = some ch then
      some { s with callbacks := Function.update s.callbacks fd (some ch), held := none }
    else none
  | some (.del fd) =>
    some { s with callbacks := Function.update s.callbacks fd none, held := none }

def resume (s : Poll κ ι) (i : ι) : Option (Poll κ ι) :=
  match s.removers i with
  | .idle => none
  | .waiting fd _ =>
    some { s with
      callbacks := Function.update s.callbacks fd none
      removers := Function.update s.removers i .idle
      returned := insert fd s.returned }

/-- The poll thread's own steps; the others do not concern it. -/
def serve (s : Poll κ ι) (e : PollEvent κ ι) : Option LoopPc :=
  match s.loop, e with
  | .copying, .copy => some (.selecting s.aio.rfds s.aio.wfds s.aio.highfds)
  | .selecting trfds twfds high, .select r w =>
    if r ⊆ trfds ∧ w ⊆ twfds then
      some (.serving ((s.aio.listed high r r).map (.read, ·) ++
        (s.aio.listed high r w).map (.write, ·)))
    else none
  | .selecting _ _ _, .interrupted => some (.serving [])
  | .serving (x :: todo), .check =>
    some (if (s.callbacks x.2).isSome then .checked (x :: todo) else .serving todo)
  -- a call through a pointer that is null by now has no defined effect
  | .checked (x :: todo), .call =>
    if (s.callbacks x.2).isSome then some (.executing (x :: todo)) else none
  | .executing (_ :: todo), .leave => some (.serving todo)
  | .serving [], .next => some .top
  | _, _ => none

def step (s : Poll κ ι) : PollEvent κ ι → Option (Poll κ ι)
  | .addCallback fd flag ch =>
    if s.held = none ∧ fd < MAX_POLL_FDS then
      some { s with
        aio := s.aio.watchFd fd flag
        held := some (.add fd ch)
        returned := s.returned.erase fd }
    else none
  | .delCallback fd flag =>
    if s.held = none then
      some { s with
        aio := (s.aio.unwatchFd fd flag).2
        held := if (s.aio.unwatchFd fd flag).1 then some (.del fd) else none }
    else none
  | .complete => s.complete
  | .blockRemove i fd =>
    if s.held = none ∧ s.removers i = .idle then
      some { s with
        aio := (s.aio.unwatchFd fd .rdwr).2
        pending := true
        removers := Function.update s.removers i (.waiting fd false) }
    else none
  | .resume i => if s.held = none then s.resume i else none
  | .change =>
    if s.held = none ∧ s.loop = .top then
      if s.pending then
        some { s with
          pending := false, loop := .copying, removers := fun i => (s.removers i).rouse }
      else some { s with loop := .copying }
    else none
  | e => (s.serve e).map fun pc => { s with loop := pc }

end Poll

def poll (κ ι : Type*) [DecidableEq κ] [DecidableEq ι] (pipe : ℕ) :
    Machine (Poll κ ι) (PollEvent κ ι) where
  init :=
    { aio := ⟨pipe, {pipe}, ∅, pipe⟩
      callbacks := fun _ => none
      pending := false
      held := none
      loop := .top
      removers := fun _ => .idle
      returned := ∅ }
  step := Poll.step

/-! ## Descriptors the poll thread has put away -/

def SelectAIO.fds (a : SelectAIO) : CbOp → Finset ℕ
  | .read => a.rfds
  | .write => a.wfds

/-- The entry that has passed the test, or whose callback runs, is this one. -/
def LoopPc.Serves (op : CbOp) (fd : ℕ) : LoopPc → Prop
  | .checked (x :: _) => x = (op, fd)
  | .executing (x :: _) => x = (op, fd)
  | _ => False

instance (op : CbOp) (fd : ℕ) : (pc : LoopPc) → Decidable (pc.Serves op fd)
  | .checked (x :: _) => inferInstanceAs (Decidable (x = (op, fd)))
  | .executing (x :: _) => inferInstanceAs (Decidable (x = (op, fd)))
  | .checked [] | .executing [] | .top | .copying | .selecting _ _ _ | .serving _ => isFalse id

/-- The poll thread has the entry in its copies of the sets or in its lists. -/
def LoopPc.Lists (op : CbOp) (fd : ℕ) : LoopPc → Prop
  | .top | .copying => False
  | .selecting trfds twfds _ => match op with
    | .read => fd ∈ trfds
    | .write => fd ∈ twfds
  | .serving todo | .checked todo | .executing todo => (op, fd) ∈ todo

instance (op : CbOp) (fd : ℕ) : (pc : LoopPc) → Decidable (pc.Lists op fd)
  | .top | .copying => isFalse id
  | .selecting trfds twfds _ => match op with
    | .read => inferInstanceAs (Decidable (fd ∈ trfds))
    | .write => inferInstanceAs (Decidable (fd ∈ twfds))
  | .serving todo | .checked todo | .executing todo => inferInstanceAs (Decidable ((op, fd) ∈ todo))

namespace Poll

variable {κ ι : Type*}

/-- After `block_remove_fd(fd)` has returned and until the next `add_callback` for `fd`,
`wait_loop` is not executing a callback for `fd` and does not start one. -/
def Kept (s : Poll κ ι) : Prop := ∀ fd ∈ s.returned, ∀ op, ¬ s.loop.Serves op fd

/-- A wait in `block_remove_fd` ends only after the broadcast, and nobody adds a callback for a
descriptor that is being removed. -/
def Orderly (s : Poll κ ι) : PollEvent κ ι → Prop
  | .resume i => ∀ fd, s.removers i ≠ .waiting fd false
  | .addCallback fd _ _ => ∀ i changed, s.removers i ≠ .waiting fd changed
  | _ => True

instance [Fintype ι] (s : Poll κ ι) : (e : PollEvent κ ι) → Decidable (s.Orderly e)
  | .resume i => match h : s.removers i with
    | .idle => isTrue fun fd hw => RemovePc.noConfusion (h.symm.trans hw)
    | .waiting fd true => isTrue fun fd' hw => by cases h.symm.trans hw
    | .waiting fd false => isFalse fun hw => hw fd h
  | .addCallback fd _ _ =>
    inferInstanceAs (Decidable (∀ i changed, s.removers i ≠ .waiting fd changed))
  | .delCallback _ _ | .complete | .blockRemove _ _ | .change | .copy | .select _ _ | .interrupted
  | .check | .call | .leave | .next => isTrue trivial

/-- The descriptor is not watched, nor does the poll thread have it from before. -/
structure PutAway (s : Poll κ ι) (op : CbOp) (fd : ℕ) : Prop where
  unwatched : fd ∉ s.aio.fds op
  unlisted : ¬ s.loop.Lists op fd

end Poll

theorem LoopPc.Serves.lists {op : CbOp} {fd : ℕ} {pc : LoopPc} (h : pc.Serves op fd) :
    pc.Lists op fd := by
  unfold LoopPc.Serves at h
  split at h
  · subst h
    exact List.mem_cons_self
  · subst h
    exact List.mem_cons_self
  · exact h.elim

namespace SelectAIO

theorem mem_watchFd {a : SelectAIO} {op : CbOp} {fd fd' : ℕ} {flag : PollFlag} (hne : fd' ≠ fd) :
    fd' ∈ (a.watchFd fd flag).fds op ↔ fd' ∈ a.fds op := by
  cases op <;> cases flag <;> simp [watchFd, fds, hne]

theorem fds_unwatchFd (a : SelectAIO) (op : CbOp) (fd : ℕ) (flag : PollFlag) :
    (a.unwatchFd fd flag).2.fds op = (a.clearFd fd flag).fds op := by
  unfold unwatchFd
  dsimp only
  split <;> rfl

theorem unwatchFd_subset (a : SelectAIO) (op : CbOp) (fd : ℕ) (flag : PollFlag) :
    (a.unwatchFd fd flag).2.fds op ⊆ a.fds op := by
  rw [fds_unwatchFd]
  cases op <;> cases flag <;> simp [clearFd, fds, Finset.erase_subset]

theorem unwatchFd_rdwr (a : SelectAIO) (fd : ℕ) : (a.unwatchFd fd .rdwr).1 = true := by
  simp [unwatchFd, clearFd]

theorem notMem_unwatchFd (a : SelectAIO) (op : CbOp) (fd : ℕ) :
    fd ∉ (a.unwatchFd fd .rdwr).2.fds op := by
  rw [fds_unwatchFd]
  cases op <;> simp [clearFd, fds]

theorem mem_of_listed {a : SelectAIO} {high fd : ℕ} {trfds fds : Finset ℕ}
    (h : fd ∈ a.listed high trfds fds) : fd ∈ fds :=
  (of_decide_eq_true (List.mem_filter.mp h).2).1

end SelectAIO

namespace Poll

variable {κ ι : Type*} {s t : Poll κ ι} {e : PollEvent κ ι} {op : CbOp} {fd : ℕ}

inductive Serving (s : Poll κ ι) : PollEvent κ ι → LoopPc → Prop
  | copy (hloop : s.loop = .copying) :
    Serving s .copy (.selecting s.aio.rfds s.aio.wfds s.aio.highfds)
  | select {trfds twfds r w : Finset ℕ} {high : ℕ} (hloop : s.loop = .selecting trfds twfds high)
      (hsub : r ⊆ trfds ∧ w ⊆ twfds) :
    Serving s (.select r w) (.serving ((s.aio.listed high r r).map (.read, ·) ++
      (s.aio.listed high r w).map (.write, ·)))
  | interrupted : Serving s .interrupted (.serving [])
  | check {x : CbOp × ℕ} {todo : List (CbOp × ℕ)} (hloop : s.loop = .serving (x :: todo))
      (hcb : (s.callbacks x.2).isSome = true) : Serving s .check (.checked (x :: todo))
  | skip {x : CbOp × ℕ} {todo : List (CbOp × ℕ)} (hloop : s.loop = .serving (x :: todo)) :
    Serving s .check (.serving todo)
  | call {x : CbOp × ℕ} {todo : List (CbOp × ℕ)} (hloop : s.loop = .checked (x :: todo))
      (hcb : (s.callbacks x.2).isSome = true) : Serving s .call (.executing (x :: todo))
  | leave {x : CbOp × ℕ} {todo : List (CbOp × ℕ)} (hloop : s.loop = .executing (x :: todo)) :
    Serving s .leave (.serving todo)
  | next : Serving s .next .top

theorem serving_of_serve {pc : LoopPc} (h : s.serve e = some pc) : s.Serving e pc := by
  unfold serve at h
  split at h
  · rename_i hloop
    cases h
    exact .copy hloop
  · rename_i hloop
    obtain ⟨hsub, h⟩ := Option.ite_none_right_eq_some.mp h
    cases h
    exact .select hloop hsub
  · cases h
    exact .interrupted
  · rename_i hloop
    split_ifs at h with hcb <;> cases h
    · exact .check hloop hcb
    · exact .skip hloop
  · rename_i hloop
    obtain ⟨hcb, h⟩ := Option.ite_none_right_eq_some.mp h
    cases h
    exact .call hloop hcb
  · rename_i hloop
    cases h
    exact .leave hloop
  · cases h
    exact .next
  · cases h

theorem lists_of_serve {pc : LoopPc} (h : s.serve e = some pc) (hl : pc.Lists op fd) :
    s.loop.Lists op fd ∨ fd ∈ s.aio.fds op := by
  cases serving_of_serve h with
  | copy hloop => cases op <;> exact .inr hl
  | select hloop hsub =>
    rw [hloop]
    rcases List.mem_append.mp hl with hm | hm
    · obtain ⟨fd', hfd, hx⟩ := List.mem_map.mp hm
      cases hx
      exact .inl <| hsub.1 <| SelectAIO.mem_of_listed hfd
    · obtain ⟨fd', hfd, hx⟩ := List.mem_map.mp hm
      cases hx
      exact .inl <| hsub.2 <| SelectAIO.mem_of_listed hfd
  | interrupted => cases hl
  | check hloop hcb =>
    rw [hloop]
    exact .inl hl
  | skip hloop =>
    rw [hloop]
    exact .inl (List.mem_cons_of_mem _ hl)
  | call hloop hcb =>
    rw [hloop]
    exact .inl hl
  | leave hloop =>
    rw [hloop]
    exact .inl (List.mem_cons_of_mem _ hl)
  | next => exact hl.elim

structure Inv (s : Poll κ ι) : Prop where
  waiting : ∀ i fd changed, s.removers i = .waiting fd changed → ∀ op, fd ∉ s.aio.fds op
  changed : ∀ i fd, s.removers i = .waiting fd true → ∀ op, s.PutAway op fd
  returned : ∀ fd ∈ s.returned, ∀ op, s.PutAway op fd

theorem Inv.kept (h : s.Inv) : s.Kept :=
  fun fd hfd op hserves => (h.returned fd hfd op).unlisted hserves.lists

variable [DecidableEq ι]

inductive Moves (s : Poll κ ι) : PollEvent κ ι → Poll κ ι → Prop where
  | add (fd : ℕ) (flag : PollFlag) (ch : κ) :
    Moves s (.addCallback fd flag ch) { s with
      aio := s.aio.watchFd fd flag
      held := some (.add fd ch)
      returned := s.returned.erase fd }
  | del (fd : ℕ) (flag : PollFlag) (held : Option (Held κ)) :
    Moves s (.delCallback fd flag) { s with aio := (s.aio.unwatchFd fd flag).2, held := held }
  | added (fd : ℕ) (ch : κ) (hheld : s.held = some (.add fd ch)) :
    Moves s .complete { s with callbacks := Function.update s.callbacks fd (some ch), held := none }
  | deleted (fd : ℕ) (hheld : s.held = some (.del fd)) :
    Moves s .complete { s with callbacks := Function.update s.callbacks fd none, held := none }
  | block (i : ι) (fd : ℕ) :
    Moves s (.blockRemove i fd) { s with
      aio := (s.aio.unwatchFd fd .rdwr).2
      pending := true
      removers := Function.update s.removers i (.waiting fd false) }
  | resume (i : ι) (fd : ℕ) (changed : Bool) (hi : s.removers i = .waiting fd changed) :
    Moves s (.resume i) { s with
      callbacks := Function.update s.callbacks fd none
      removers := Function.update s.removers i .idle
      returned := insert fd s.returned }
  | change (removers : ι → RemovePc)
      (hr : removers = s.removers ∨ removers = fun i => (s.removers i).rouse) :
    Moves s .change { s with pending := false, loop := .copying, removers := removers }
  | serve (e : PollEvent κ ι) (pc : LoopPc) (hpc : s.serve e = some pc) :
    Moves s e { s with loop := pc }

theorem moves_of_step [DecidableEq κ] (h : s.step e = some t) : Moves s e t := by
  cases e with
  | addCallback fd flag ch =>
    simp only [step] at h
    split_ifs at h
    cases h
    exact .add fd flag ch
  | delCallback fd flag =>
    simp only [step, Option.ite_none_right_eq_some, Option.some.injEq] at h
    obtain ⟨-, rfl⟩ := h
    exact .del fd flag _
  | complete =>
    simp only [step, complete] at h
    split at h
    · cases h
    · rename_i fd ch hheld
      split_ifs at h
      cases h
      exact .added fd ch hheld
    · rename_i fd hheld
      cases h
      exact .deleted fd hheld
  | blockRemove i fd =>
    simp only [step] at h
    split_ifs at h
    cases h
    exact .block i fd
  | resume i =>
    simp only [step, resume] at h
    split_ifs at h
    split at h
    · cases h
    · rename_i fd changed hi
      cases h
      exact .resume i fd changed hi
  | change =>
    simp only [step] at h
    split_ifs at h with htop hpending
    · cases h
      exact .change _ (.inr rfl)
    · cases h
      have hmoves : Moves s .change { s with pending := false, loop := .copying } :=
        .change _ (.inl rfl)
      rwa [← Bool.eq_false_of_not_eq_true hpending] at hmoves
  | _ =>
    obtain ⟨pc, hpc, rfl⟩ := Option.map_eq_some_iff.mp h
    exact .serve _ pc hpc

/-- A descriptor that is not watched stays so until it is added. -/
theorem unwatched_of_moves (hm : Moves s e t) (hadd : ∀ flag ch, e ≠ .addCallback fd flag ch)
    (h : fd ∉ s.aio.fds op) : fd ∉ t.aio.fds op := by
  cases hm with
  | add fd' flag ch =>
    have hne : fd ≠ fd' := by
      rintro rfl
      exact hadd flag ch rfl
    exact fun hmem => h <| SelectAIO.mem_watchFd hne |>.mp hmem
  | del fd' flag => exact fun hmem => h (s.aio.unwatchFd_subset op fd' flag hmem)
  | block i fd' => exact fun hmem => h (s.aio.unwatchFd_subset op fd' .rdwr hmem)
  | added | deleted | resume | change | serve => exact h

/-- A descriptor that is put away stays so until it is added. -/
theorem PutAway.moves (hm : Moves s e t) (hadd : ∀ flag ch, e ≠ .addCallback fd flag ch)
    (h : s.PutAway op fd) : t.PutAway op fd := by
  refine ⟨unwatched_of_moves hm hadd h.unwatched, ?_⟩
  cases hm with
  | serve e pc hpc => exact fun hl => (lists_of_serve hpc hl).elim h.unlisted h.unwatched
  | change => exact id
  | add | del | added | deleted | block | resume => exact h.unlisted

/-- A thread waits for what it waited for before, or it has just begun. -/
theorem waiting_of_moves {i : ι} {changed : Bool} (hm : Moves s e t)
    (hi : t.removers i = .waiting fd changed) :
    s.removers i = .waiting fd changed ∨ (e = .blockRemove i fd ∧ changed = false) ∨
      (e = .change ∧ ∃ b, s.removers i = .waiting fd b) := by
  cases hm with
  | block j fd' =>
    by_cases hij : i = j
    · subst hij
      simp only [Function.update_self] at hi
      cases hi
      exact .inr (.inl ⟨rfl, rfl⟩)
    · exact .inl (by simpa [Function.update_of_ne hij] using hi)
  | resume j fd' changed' hj =>
    by_cases hij : i = j
    · subst hij
      simp at hi
    · exact .inl (by simpa [Function.update_of_ne hij] using hi)
  | change removers hr =>
    rcases hr with rfl | rfl
    · exact .inl hi
    · refine .inr (.inr ⟨rfl, ?_⟩)
      cases hs : s.removers i with
      | idle => simp [hs, RemovePc.rouse] at hi
      | waiting fd' b =>
        simp only [hs, RemovePc.rouse] at hi
        cases hi
        exact ⟨b, rfl⟩
  | add | del | added | deleted | serve => exact .inl hi

theorem returned_of_moves (hm : Moves s e t) (hfd : fd ∈ t.returned) :
    (fd ∈ s.returned ∧ ∀ flag ch, e ≠ .addCallback fd flag ch) ∨
      ∃ i changed, e = .resume i ∧ s.removers i = .waiting fd changed := by
  cases hm with
  | add fd' flag ch =>
    obtain ⟨hne, hmem⟩ := Finset.mem_erase.mp hfd
    refine .inl ⟨hmem, ?_⟩
    rintro flag' ch' ⟨⟩
    exact hne rfl
  | resume i fd' changed hi =>
    rcases Finset.mem_insert.mp hfd with rfl | hmem
    · exact .inr ⟨i, changed, rfl, hi⟩
    · exact .inl ⟨hmem, by simp⟩
  | serve e pc hpc =>
    refine .inl ⟨hfd, ?_⟩
    rintro flag ch rfl
    unfold Poll.serve at hpc
    split at hpc <;> simp_all
  | del | added | deleted | block | change => exact .inl ⟨hfd, by simp⟩

theorem Inv.step [DecidableEq κ] (hs : s.Inv) (ho : s.Orderly e) (h : s.step e = some t) : t.Inv := by
  have hm := moves_of_step h
  have hadd : ∀ {i fd changed}, s.removers i = .waiting fd changed →
      ∀ flag ch, e ≠ .addCallback fd flag ch := by
    rintro i fd changed hi flag ch rfl
    exact ho i changed hi
  refine ⟨fun i fd changed hi op => ?_, fun i fd hi op => ?_, fun fd hfd op => ?_⟩
  · rcases waiting_of_moves hm hi with hi | ⟨rfl, -⟩ | ⟨-, b, hi⟩
    · exact unwatched_of_moves hm (hadd hi) (hs.waiting i fd changed hi op)
    · cases hm with
      | block => exact s.aio.notMem_unwatchFd op fd
      | serve e pc hpc => simp [Poll.serve] at hpc
    · exact unwatched_of_moves hm (hadd hi) (hs.waiting i fd b hi op)
  · rcases waiting_of_moves hm hi with hi | ⟨-, hfalse⟩ | ⟨rfl, b, hi⟩
    · exact (hs.changed i fd hi op).moves hm (hadd hi)
    · cases hfalse
    · refine ⟨unwatched_of_moves hm (hadd hi) (hs.waiting i fd b hi op), ?_⟩
      cases hm with
      | change => exact id
      | serve e pc hpc => simp [Poll.serve] at hpc
  · rcases returned_of_moves hm hfd with ⟨hfd, hne⟩ | ⟨i, changed, rfl, hi⟩
    · exact (hs.returned fd hfd op).moves hm hne
    · cases changed with
      | false => exact absurd hi (ho fd)
      | true => exact (hs.changed i fd hi op).moves hm (by simp)

end Poll

theorem poll_inv (κ ι : Type*) [DecidableEq κ] [DecidableEq ι] (pipe : ℕ) :
    (poll κ ι pipe).init.Inv := by
  refine ⟨fun i fd changed hi => ?_, fun i fd hi => ?_, fun fd hfd => ?_⟩
  · cases hi
  · cases hi
  · exact absurd hfd (Finset.notMem_empty fd)

/-- In every run in which no wait of `block_remove_fd` ends before the broadcast and no callback is
added for a descriptor that is being removed, `block_remove_fd` keeps its promise. -/
theorem block_remove_keeps {κ ι : Type*} [DecidableEq κ] [DecidableEq ι] {pipe : ℕ}
    {es : List (PollEvent κ ι)} (h : (poll κ ι pipe).Along Poll.Orderly (poll κ ι pipe).init es) :
    (poll κ ι pipe).Throughout Poll.Kept (poll κ ι pipe).init es :=
  Machine.Along.throughout (fun _ hs => hs.kept) (fun _ _ _ hs ho hst => hs.step ho hst)
    (poll_inv κ ι pipe) h

/-- Two threads remove one descriptor while its `read_cb` runs; both return after the next round has
begun. -/
theorem block_remove_keeps_two :
    (poll ℕ (Fin 2) 3).Along Poll.Orderly (poll ℕ (Fin 2) 3).init
      [.addCallback 5 .rdonly 0, .complete, .change, .copy, .select {5} ∅, .check, .call,
        .blockRemove 0 5, .blockRemove 1 5, .leave, .next, .change, .resume 1, .resume 0] ∧
    (poll ℕ (Fin 2) 3).Throughout Poll.Kept (poll ℕ (Fin 2) 3).init
      [.addCallback 5 .rdonly 0, .complete, .change, .copy, .select {5} ∅, .check, .call,
        .blockRemove 0 5, .blockRemove 1 5, .leave, .next, .change, .resume 1, .resume 0] := by
  have horderly : (poll ℕ (Fin 2) 3).Along Poll.Orderly (poll ℕ (Fin 2) 3).init
      [.addCallback 5 .rdonly 0, .complete, .change, .copy, .select {5} ∅, .check, .call,
        .blockRemove 0 5, .blockRemove 1 5, .leave, .next, .change, .resume 1, .resume 0] := by
    decide
  exact ⟨horderly, block_remove_keeps horderly⟩

/-- `block_remove_fd` waits once and tests nothing: it returns from a spurious wake-up while
`read_cb` runs. With an `add_callback` in between, so it does after the broadcast. -/
theorem block_remove_returns_early :
    (∃ s, (poll ℕ (Fin 1) 3).run [.addCallback 5 .rdonly 0, .complete, .change, .copy, .select {5} ∅,
      .check, .call, .blockRemove 0 5, .resume 0] = some s ∧ 5 ∈ s.returned ∧ s.loop.Serves .read 5) ∧
    ∃ s, (poll ℕ (Fin 1) 3).run [.blockRemove 0 5, .addCallback 5 .rdonly 0, .complete, .change, .copy,
      .select {5} ∅, .check, .call, .resume 0] = some s ∧ 5 ∈ s.returned ∧ s.loop.Serves .read 5 :=
  ⟨Machine.exists_run_of_any _ (by decide), Machine.exists_run_of_any _ (by decide)⟩

end YFS.Rpc
