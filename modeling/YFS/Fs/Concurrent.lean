import YFS.Fs.Sequential
import YFS.Library.Machine

/-! # Concurrent operations

Any number of operations of any number of clients, interleaved at their single requests.
An inum's lock is held by at most one operation at a time, and an extent RPC is executed
exactly once, when it is issued. An operation that asks for a lock that another one holds waits;
one that holds the lock already is given it at once, and its first release ends both. After an
uncaught exception an operation holds its locks forever.
-/

namespace YFS.Fs
open YFS.Library YFS.Extent

structure Request where
  call : Call
  random : List Random

inductive Task where
  | idle
  | running (q : Request) (left : List Random) (p : Prog)
  | ended (q : Request) (e : Ending)

def Task.isRunning : Task → Bool
  | .running _ _ _ => true
  | _ => false

/-- The extent store, the locks with the operations that hold them, the operations, and, as
history, the inums that `new_inum` has returned and the keys of the extents removed. -/
structure Conc (ι : Type) where
  store : Store
  held : List (ℕ × ι)
  task : ι → Task
  issued : List ℕ
  removed : List ℕ

inductive Event (ι : Type) where
  | start (i : ι) (q : Request)
  | next (i : ι) (now : ℕ)

def Event.Starts {ι : Type} (P : Request → Prop) : Event ι → Prop
  | .start _ q => P q
  | .next _ _ => True

instance {ι : Type} {P : Request → Prop} [DecidablePred P] :
    (ev : Event ι) → Decidable (ev.Starts P)
  | .start _ q => inferInstanceAs (Decidable (P q))
  | .next _ _ => isTrue trivial

namespace Conc
variable {ι : Type} [DecidableEq ι]

def resume (s : Conc ι) (i : ι) (q : Request) (left : List Random) (p : Prog) : Conc ι :=
  { s with task := Function.update s.task i (.running q left p) }

def finish (s : Conc ι) (i : ι) (q : Request) (e : Ending) : Conc ι :=
  { s with task := Function.update s.task i (.ended q e) }

def Barred (s : Conc ι) (i : ι) (lid : ℕ) : Prop := ∃ h ∈ s.held, h.1 = lid ∧ h.2 ≠ i

instance (s : Conc ι) (i : ι) (lid : ℕ) : Decidable (s.Barred i lid) :=
  inferInstanceAs (Decidable (∃ h ∈ s.held, _))

/-- The next request of operation `i`, which stands at `p`. There is none while another operation
holds the lock it waits for, when the extent server dies of an exception, and when `new_inum` goes on forever. -/
def advance (s : Conc ι) (i : ι) (q : Request) (left : List Random) (now : ℕ) :
    Prog → Option (Conc ι)
  | .done r => some (s.finish i q (.returned r))
  | .throw => some (s.finish i q .threw)
  | .acquire lid next =>
    if s.Barred i lid then none
    else some { s.resume i q left (next 0) with held := s.held.insert (lid, i) }
  | .release lid next =>
    some { s.resume i q left next with held := s.held.filter (· ≠ (lid, i)) }
  | .get id next =>
    let (st, buf, store) := s.store.get now id
    some { s.resume i q left (next st buf) with store := store }
  | .put id buf next =>
    let (st, store) := s.store.put now id buf
    some { s.resume i q left (next st) with store := store }
  | .remove id next =>
    let (st, store) := s.store.remove id
    some { s.resume i q left (next st) with
      store := store
      removed := if st = Status.OK then key id :: s.removed else s.removed }
  | .getbuf id askSize off next =>
    let (st, buf, store) := s.store.getbuf now id askSize off
    some { s.resume i q left (next st buf) with store := store }
  | .putbuf id off buf next =>
    match s.store.putbuf now id off buf with
    | none => none
    | some (st, store) => some { s.resume i q left (next st) with store := store }
  | .newInum parent isfile next =>
    match Fs.newInum parent isfile left with
    | none => none
    | some (n, left') => some { s.resume i q left' (next n) with issued := n :: s.issued }

def step (s : Conc ι) : Event ι → Option (Conc ι)
  | .start i q =>
    match s.task i with
    | .idle => some (s.resume i q q.random q.call.prog)
    | _ => none
  | .next i now =>
    match s.task i with
    | .running q left p => s.advance i q left now p
    | _ => none

def at? (s : Conc ι) (i : ι) : Option (List Random × Prog) :=
  match s.task i with
  | .running _ left p => some (left, p)
  | _ => none

/-- `new_inum` returns an inum that no earlier `new_inum` has returned and under which the store
had nothing at the beginning. -/
def Fresh (s₀ : Store) (s : Conc ι) : Event ι → Prop
  | .start _ _ => True
  | .next i _ =>
    match s.at? i with
    | some (left, .newInum parent isfile _) =>
      ∀ p ∈ Fs.newInum parent isfile left, p.1 ∉ s.issued ∧ s₀ p.1 = none
    | _ => True

/-- A lock is acquired only while no lock of another inum with the same key is held. -/
def Unaliased (s : Conc ι) : Event ι → Prop
  | .start _ _ => True
  | .next i _ =>
    match s.at? i with
    | some (_, .acquire lid _) => ∀ h ∈ s.held, key h.1 = key lid → h.1 = lid
    | _ => True

instance (s₀ : Store) (s : Conc ι) (e : Event ι) : Decidable (s.Fresh s₀ e) := by
  unfold Fresh
  split
  · infer_instance
  · split <;> infer_instance

instance (s : Conc ι) (e : Event ι) : Decidable (s.Unaliased e) := by
  unfold Unaliased
  split
  · infer_instance
  · split <;> infer_instance

end Conc

def clients (ι : Type) [DecidableEq ι] (s₀ : Store) : Machine (Conc ι) (Event ι) where
  init := ⟨s₀, [], fun _ => .idle, [], []⟩
  step := Conc.step

end YFS.Fs
