import YFS.Library.Condition
import YFS.Library.Machine

/-! # The thread pool and its shutdown

A `ThrPool` is `n` workers that take from one bounded `fifo`. The queue's mutex makes every
pass through the loops of `enq` and `deq` one step; a wait on one of the two condition
variables may end at any time, with or without a signal. The destructor puts one poison pill
for each worker behind the jobs and then joins the workers.
-/

namespace YFS.Rpc
open Library Library.Condition

inductive WorkerPc where
  /-- before `takeJob` -/
  | taking
  /-- in `deq`, on `non_empty_c_` -/
  | wait (sig : Bool)
  /-- in the function of the job that was taken as number `i` -/
  | running (i : ℕ)
  | exited
  deriving DecidableEq, Repr

inductive DtorPc where
  | idle
  /-- before the test of the first loop -/
  | pushing
  /-- in `enq`, on `has_space_c_` -/
  | wait (sig : Bool)
  /-- before the join of worker `i` -/
  | joining (i : ℕ)
  | done
  deriving DecidableEq, Repr

/-- `addObjJob` never passes a null function, so in the queue `none` is a poison pill and
`some j` a job. -/
structure Pool (α : Type*) (n : ℕ) where
  q : List (Option α)
  workers : Fin n → WorkerPc
  /-- the jobs of the callers of `addJob` that wait on `has_space_c_` -/
  waiting : List α
  dtor : DtorPc
  /-- the counter of the destructor's first loop -/
  pills : ℕ
  /-- history: the jobs for which `addJob` returned true -/
  accepted : List α
  /-- history: the jobs taken from the queue, and who took them -/
  taken : List (α × Fin n)
  /-- history: the number of a job that has returned, and the worker that ran it -/
  finished : List (ℕ × Fin n)
  /-- history: the pills each worker has taken -/
  consumed : Fin n → ℕ

/-- A `pick` is the worker that the signal of an `enq` wakes, if the `enq` comes to it. -/
inductive PoolEvent (α : Type*) (n : ℕ) where
  | addJob (j : α) (pick : Option (Fin n))
  /-- the wait of a caller of `addJob` ends -/
  | addWake (i : ℕ) (pick : Option (Fin n))
  /-- the destructor is entered -/
  | destroy
  | push (pick : Option (Fin n))
  | pushWake (pick : Option (Fin n))
  | take (w : Fin n)
  | takeWake (w : Fin n)
  /-- the job of a worker returns -/
  | finish (w : Fin n)
  | join

/-- `pthread_cond_signal(&has_space_c_)`, which `deq` makes when it leaves `len` entries. -/
def DtorPc.hasSpace (max len : ℕ) : DtorPc → DtorPc
  | .wait sig => .wait (sig || decide (max ≠ 0 ∧ len < max))
  | d => d

namespace Pool
variable {α : Type*} {n : ℕ}

def init : Pool α n where
  q := []
  workers := fun _ => .taking
  waiting := []
  dtor := .idle
  pills := 0
  accepted := []
  taken := []
  finished := []
  consumed := fun _ => 0

def HasSpace (max : ℕ) (s : Pool α n) : Prop := max = 0 ∨ s.q.length < max

instance (max : ℕ) (s : Pool α n) : Decidable (s.HasSpace max) :=
  inferInstanceAs (Decidable (_ ∨ _))

def enq (s : Pool α n) (x : Option α) (pick : Option (Fin n)) : Pool α n :=
  { s with q := s.q ++ [x], workers := signal WorkerPc.wait s.workers pick }

def accept (s : Pool α n) (j : α) (pick : Option (Fin n)) : Pool α n :=
  { s.enq (some j) pick with accepted := s.accepted ++ [j] }

def enqPill (max : ℕ) (s : Pool α n) (pick : Option (Fin n)) : Pool α n :=
  if s.HasSpace max then { s.enq none pick with dtor := .pushing, pills := s.pills + 1 }
  else { s with dtor := .wait false }

/-- One pass through the loop of `deq`, and what `takeJob` and `do_worker` make of the entry. -/
def deq (max : ℕ) (s : Pool α n) (w : Fin n) : Pool α n :=
  match s.q with
  | [] => { s with workers := Function.update s.workers w (.wait false) }
  | some j :: q =>
    { s with
      q := q
      workers := Function.update s.workers w (.running s.taken.length)
      dtor := s.dtor.hasSpace max q.length
      taken := s.taken ++ [(j, w)] }
  | none :: q =>
    { s with
      q := q
      workers := Function.update s.workers w .exited
      dtor := s.dtor.hasSpace max q.length
      consumed := Function.update s.consumed w (s.consumed w + 1) }

/-- The destructor must not be entered while a caller is in `addJob`, and no job is added
behind it. -/
def step (max : ℕ) (blockadd : Bool) (s : Pool α n) : PoolEvent α n → Option (Pool α n)
  | .addJob j pick =>
    if s.dtor = .idle then
      some (if s.HasSpace max then s.accept j pick
        else if blockadd then { s with waiting := s.waiting ++ [j] }
        else s)
    else none
  | .addWake i pick =>
    match s.waiting[i]? with
    | some j =>
      some (if s.HasSpace max then { s.accept j pick with waiting := s.waiting.eraseIdx i } else s)
    | none => none
  | .destroy =>
    if s.dtor = .idle ∧ s.waiting.length = 0 then some { s with dtor := .pushing } else none
  | .push pick =>
    if s.dtor = .pushing then
      some (if s.pills < n then s.enqPill max pick else { s with dtor := .joining 0 })
    else none
  | .pushWake pick =>
    match s.dtor with
    | .wait _ => some (s.enqPill max pick)
    | _ => none
  | .take w => if s.workers w = .taking then some (s.deq max w) else none
  | .takeWake w =>
    match s.workers w with
    | .wait _ => some (s.deq max w)
    | _ => none
  | .finish w =>
    match s.workers w with
    | .running i =>
      some { s with
        workers := Function.update s.workers w .taking
        finished := s.finished ++ [(i, w)] }
    | _ => none
  | .join =>
    match s.dtor with
    | .joining i =>
      if h : i < n then
        if s.workers ⟨i, h⟩ = .exited then some { s with dtor := .joining (i + 1) } else none
      else some { s with dtor := .done }
    | _ => none

end Pool

/-- A pool of `n` workers over a queue of capacity `max`, where 0 is no bound. The constructor
makes it with `max = 100 * n`. -/
def thrPool (α : Type*) (n max : ℕ) (blockadd : Bool) : Machine (Pool α n) (PoolEvent α n) where
  init := Pool.init
  step := Pool.step max blockadd

/-! ## What a step can do -/

/-- The signal an event may make on `non_empty_c_`. -/
def PoolEvent.signals {α : Type*} {n : ℕ} : PoolEvent α n → Option (Option (Fin n))
  | .addJob _ pick | .addWake _ pick | .push pick | .pushWake pick => some pick
  | _ => none

namespace Pool
variable {α : Type*} {n max : ℕ} {blockadd : Bool} {s t : Pool α n} {e : PoolEvent α n}

def Pushing (s : Pool α n) : Prop := s.dtor = .pushing ∧ s.pills < n ∨ ∃ sig, s.dtor = .wait sig

def Looks (s : Pool α n) (w : Fin n) : Prop :=
  s.workers w = .taking ∨ ∃ sig, s.workers w = .wait sig

inductive Moves (max : ℕ) (s : Pool α n) (e : PoolEvent α n) : Pool α n → Prop
  | same : Moves max s e s
  | callers (waiting : List α) (h : s.dtor = .idle) : Moves max s e { s with waiting := waiting }
  | accept (j : α) (pick : Option (Fin n)) (waiting : List α)
      (h : s.dtor = .idle ∨ s.waiting ≠ []) (he : e.signals = some pick) :
      Moves max s e { s.accept j pick with waiting := waiting }
  | destroy (h : s.dtor = .idle) (hw : s.waiting = []) : Moves max s e { s with dtor := .pushing }
  | pill (pick : Option (Fin n)) (h : s.Pushing) (he : e.signals = some pick) :
      Moves max s e { s.enq none pick with dtor := .pushing, pills := s.pills + 1 }
  | full (h : s.Pushing) (hq : ¬ s.HasSpace max) : Moves max s e { s with dtor := .wait false }
  | pushed (h : s.dtor = .pushing) (hp : n ≤ s.pills) :
      Moves max s e { s with dtor := .joining 0 }
  | sleep (w : Fin n) (h : s.Looks w) (hq : s.q = []) :
      Moves max s e { s with workers := Function.update s.workers w (.wait false) }
  | job (w : Fin n) (j : α) (q : List (Option α)) (h : s.Looks w) (hq : s.q = some j :: q) :
      Moves max s e { s with
        q := q
        workers := Function.update s.workers w (.running s.taken.length)
        dtor := s.dtor.hasSpace max q.length
        taken := s.taken ++ [(j, w)] }
  | exit (w : Fin n) (q : List (Option α)) (h : s.Looks w) (hq : s.q = none :: q) :
      Moves max s e { s with
        q := q
        workers := Function.update s.workers w .exited
        dtor := s.dtor.hasSpace max q.length
        consumed := Function.update s.consumed w (s.consumed w + 1) }
  | finish (w : Fin n) (i : ℕ) (h : s.workers w = .running i) :
      Moves max s e { s with
        workers := Function.update s.workers w .taking
        finished := s.finished ++ [(i, w)] }
  | join (i : ℕ) (hi : i < n) (h : s.dtor = .joining i) (hw : s.workers ⟨i, hi⟩ = .exited) :
      Moves max s e { s with dtor := .joining (i + 1) }
  | joined (i : ℕ) (hi : n ≤ i) (h : s.dtor = .joining i) : Moves max s e { s with dtor := .done }

theorem moves_deq {w : Fin n} (h : s.Looks w) : Moves max s e (s.deq max w) := by
  rw [deq]
  split
  · exact .sleep w h ‹_›
  · exact .job w _ _ h ‹_›
  · exact .exit w _ h ‹_›

theorem moves_enqPill {pick : Option (Fin n)} (h : s.Pushing) (he : e.signals = some pick) :
    Moves max s e (s.enqPill max pick) := by
  rw [enqPill]
  split
  · exact .pill pick h he
  · exact .full h ‹_›

theorem moves_of_step (h : s.step max blockadd e = some t) : Moves max s e t := by
  cases e with
  | addJob j pick =>
    simp only [step] at h
    split at h
    · rename_i hidle
      cases h
      split
      · exact .accept j pick s.waiting (.inl hidle) rfl
      · split
        · exact .callers _ hidle
        · exact .same
    · cases h
  | addWake i pick =>
    simp only [step] at h
    split at h
    · rename_i j hj
      cases h
      split
      · refine .accept j pick _ (.inr ?_) rfl
        rintro hnil
        simp [hnil] at hj
      · exact .same
    · cases h
  | destroy =>
    simp only [step] at h
    split at h
    · rename_i hd
      cases h
      exact .destroy hd.1 (List.eq_nil_of_length_eq_zero hd.2)
    · cases h
  | push pick =>
    simp only [step] at h
    split at h
    · rename_i hd
      cases h
      split
      · exact moves_enqPill (.inl ⟨hd, ‹_›⟩) rfl
      · exact .pushed hd (not_lt.mp ‹_›)
    · cases h
  | pushWake pick =>
    simp only [step] at h
    split at h
    · rename_i sig hd
      cases h
      exact moves_enqPill (.inr ⟨sig, hd⟩) rfl
    · cases h
  | take w =>
    simp only [step] at h
    split at h
    · cases h
      exact moves_deq (.inl ‹_›)
    · cases h
  | takeWake w =>
    simp only [step] at h
    split at h
    · rename_i sig hw
      cases h
      exact moves_deq (.inr ⟨sig, hw⟩)
    · cases h
  | finish w =>
    simp only [step] at h
    split at h
    · cases h
      exact .finish w _ ‹_›
    · cases h
  | join =>
    simp only [step] at h
    split at h
    · rename_i i hd
      split at h
      · rename_i hi
        split at h
        · cases h
          exact .join i hi hd ‹_›
        · cases h
      · cases h
        exact .joined i (not_lt.mp ‹_›) hd
    · cases h

theorem Looks.ne {w : Fin n} (h : s.Looks w) :
    s.workers w ≠ .exited ∧ ∀ i, s.workers w ≠ .running i := by
  rcases h with h | ⟨sig, h⟩ <;> rw [h] <;> exact ⟨nofun, nofun⟩

theorem quiet_signal (pick : Option (Fin n)) (w : Fin n) (p : WorkerPc)
    (hp : p = .exited ∨ ∃ i, p = .running i) :
    signal WorkerPc.wait s.workers pick w = p ↔ s.workers w = p := by
  apply signal_eq_iff
  rcases hp with rfl | ⟨i, rfl⟩ <;> exact fun _ => nofun

end Pool

end YFS.Rpc
