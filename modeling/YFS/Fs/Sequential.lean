import YFS.Fs.Program

/-! # Running an operation alone

One operation from its first to its last request, with nobody else using the store. The
environment says which extent RPCs fail, with which status, and what the clock and
`random()` return. Locks are always granted: `lock_client_cache::acquire` has no other
result than `OK`.
-/

namespace YFS.Fs
open YFS.Library YFS.Extent

inductive Ending where
  | returned (r : Reply)
  | threw
  | drawing
  deriving DecidableEq, Repr

/-- What the run meets: for each extent RPC in turn a status other than `OK` with which it fails
without taking effect, if it fails, and the time; and the values of `random()`. -/
structure Env where
  fault : ℕ → Option Status
  fault_ne : ∀ i, fault i ≠ some 0
  now : ℕ → ℕ
  random : List Random

namespace Env

def tick (e : Env) : Env where
  fault i := e.fault (i + 1)
  fault_ne i := e.fault_ne (i + 1)
  now i := e.now (i + 1)
  random := e.random

def setRandom (e : Env) (rs : List Random) : Env := { e with random := rs }

def reliable (now : ℕ → ℕ) (random : List Random) : Env where
  fault _ := none
  fault_ne _ := by simp
  now := now
  random := random

@[simp] theorem tick_fault (e : Env) (i : ℕ) : e.tick.fault i = e.fault (i + 1) := rfl
@[simp] theorem tick_random (e : Env) : e.tick.random = e.random := rfl
@[simp] theorem setRandom_fault (e : Env) (rs : List Random) : (e.setRandom rs).fault = e.fault := rfl

end Env

def Prog.run : Prog → Env → Store → Ending × Store
  | .done r, _, s => (.returned r, s)
  | .throw, _, s => (.threw, s)
  | .acquire _ next, e, s => (next 0).run e s
  | .release _ next, e, s => next.run e s
  | .get id next, e, s =>
    match e.fault 0 with
    | some st => (next st []).run e.tick s
    | none =>
      let (st, buf, s') := s.get (e.now 0) id
      (next st buf).run e.tick s'
  | .put id buf next, e, s =>
    match e.fault 0 with
    | some st => (next st).run e.tick s
    | none =>
      let (st, s') := s.put (e.now 0) id buf
      (next st).run e.tick s'
  | .remove id next, e, s =>
    match e.fault 0 with
    | some st => (next st).run e.tick s
    | none =>
      let (st, s') := s.remove id
      (next st).run e.tick s'
  | .getbuf id askSize off next, e, s =>
    match e.fault 0 with
    | some st => (next st []).run e.tick s
    | none =>
      let (st, buf, s') := s.getbuf (e.now 0) id askSize off
      (next st buf).run e.tick s'
  | .putbuf id off buf next, e, s =>
    match e.fault 0 with
    | some st => (next st).run e.tick s
    | none =>
      match s.putbuf (e.now 0) id off buf with
      | none => (.threw, s)
      | some (st, s') => (next st).run e.tick s'
  | .newInum parent isfile next, e, s =>
    match Fs.newInum parent isfile e.random with
    | none => (.drawing, s)
    | some (n, rs) => (next n).run (e.setRandom rs) s

def after (s : Store) (calls : List (Call × Env)) : Store :=
  calls.foldl (fun s c => (c.1.prog.run c.2 s).2) s

abbrev Contents := ℕ → Option Bytes

def putUnless (fault : Option Status) (id : ℕ) (buf : Bytes) (c : Contents) : Contents :=
  match fault with
  | none => Function.update c (key id) (some buf)
  | some _ => c

section Effects
variable (e : Env) (c : Contents)

/-- What `dir_add_entry` returns and leaves, in terms of the bytes stored. -/
def addEffect (parent : ℕ) (name : Bytes) (isfile : Bool) : Ending × Contents :=
  match e.fault 0 with
  | some st => (.returned (Reply.of st), c)
  | none =>
    match c (key parent) with
    | none => (.returned (Reply.of NOENT), c)
    | some text =>
      match Dir.dirFind text name with
      | some f => (.returned { Reply.of EXIST with inum := some f.inum }, c)
      | none =>
        match newInum parent isfile e.random with
        | none => (.drawing, c)
        | some (n, _) => (.returned { Reply.of OK with inum := some n },
            putUnless (e.fault 2) parent (text ++ Dir.entLine name n) (putUnless (e.fault 1) n [] c))

def removeEffect (parent : ℕ) (name : Bytes) : Ending × Contents :=
  match e.fault 0 with
  | some st => (.returned (Reply.of st), c)
  | none =>
    match c (key parent) with
    | none => (.returned (Reply.of NOENT), c)
    | some text =>
      match Dir.dirFind text name with
      | none => (.returned (Reply.of IOERR), c)
      | some f =>
        match e.fault 1 with
        | some st => (.returned (Reply.of st), c)
        | none =>
          if c (key f.inum) = none then (.returned (Reply.of NOENT), c)
          else
            let c := Function.update c (key f.inum) none
            match Dir.erase text f.bufoff f.buflen with
            | none => (.threw, c)
            | some buf => (.returned (Reply.of OK), putUnless (e.fault 2) parent buf c)

def lookupEffect (parent : ℕ) (name : Bytes) : Ending :=
  match e.fault 0 with
  | some st => .returned (Reply.of st)
  | none =>
    match c (key parent) with
    | none => .returned (Reply.of NOENT)
    | some text =>
      match Dir.dirFind text name with
      | none => .returned (Reply.of NOENT)
      | some f => .returned { Reply.of OK with inum := some f.inum }

def readirEffect (parent : ℕ) : Ending :=
  match e.fault 0 with
  | some st => .returned (Reply.of st)
  | none =>
    match c (key parent) with
    | none => .returned (Reply.of NOENT)
    | some text => .returned { Reply.of OK with dirents := Dir.entries text }

def resizeEffect (target newSize : ℕ) : Ending × Contents :=
  match e.fault 0 with
  | some st => (.returned (Reply.of st), c)
  | none =>
    match c (key target) with
    | none => (.returned (Reply.of NOENT), c)
    | some buf =>
      (.returned (Reply.of OK), putUnless (e.fault 1) target (Store.resized buf newSize) c)

end Effects

def Prog.outcome (p : Prog) (e : Env) (s : Store) : Ending × Contents :=
  ((p.run e s).1, (p.run e s).2.contents)

section Run
variable (e : Env) (s : Store)

attribute [local simp] Prog.run

@[simp] theorem outcome_done (r : Reply) :
    (Prog.done r).outcome e s = (.returned r, s.contents) := rfl

@[simp] theorem outcome_acquire (lid : ℕ) (next : ℤ → Prog) :
    (Prog.acquire lid next).outcome e s = (next 0).outcome e s := rfl

@[simp] theorem outcome_release (lid : ℕ) (next : Prog) :
    (Prog.release lid next).outcome e s = next.outcome e s := rfl

theorem outcome_get_fault {st : Status} (hf : e.fault 0 = some st) (id : ℕ)
    (next : Status → Bytes → Prog) :
    (Prog.get id next).outcome e s = (next st []).outcome e.tick s := by
  simp [Prog.outcome, hf]

theorem outcome_get_none (hf : e.fault 0 = none) {id : ℕ} (hc : s.contents (key id) = none)
    (next : Status → Bytes → Prog) :
    (Prog.get id next).outcome e s = (next .NOENT []).outcome e.tick s := by
  simp [Prog.outcome, hf, Store.get_of_none hc]

theorem outcome_get_some (hf : e.fault 0 = none) {id : ℕ} {b : Bytes}
    (hc : s.contents (key id) = some b) (next : Status → Bytes → Prog) :
    ∃ s', s'.contents = s.contents ∧
      (Prog.get id next).outcome e s = (next 0 b).outcome e.tick s' := by
  obtain ⟨s', hs', hg⟩ := Store.get_of_some hc (e.now 0)
  refine ⟨s', hs', ?_⟩
  simp only [Prog.outcome, Prog.run, hf, hg]
  rfl

theorem outcome_put (id : ℕ) (buf : Bytes) (next : Prog) :
    ∃ s', s'.contents = putUnless (e.fault 0) id buf s.contents ∧
      (Prog.put id buf fun _ => next).outcome e s = next.outcome e.tick s' := by
  cases hf : e.fault 0 with
  | some st => exact ⟨s, rfl, by simp [Prog.outcome, hf]⟩
  | none =>
    refine ⟨(s.put (e.now 0) id buf).2, Store.contents_put .., ?_⟩
    simp [Prog.outcome, hf]

theorem outcome_remove_fault {st : Status} (hf : e.fault 0 = some st) (id : ℕ)
    (next : Status → Prog) :
    (Prog.remove id next).outcome e s = (next st).outcome e.tick s := by
  simp [Prog.outcome, hf]

theorem outcome_remove (hf : e.fault 0 = none) (id : ℕ) (next : Status → Prog) :
    ∃ s', s'.contents = Function.update s.contents (key id) none ∧
      (Prog.remove id next).outcome e s =
        (next (if s.contents (key id) = none then .NOENT else 0)).outcome e.tick s' := by
  refine ⟨(s.remove id).2, Store.contents_remove .., ?_⟩
  have hst : (if s.contents (key id) = none then Status.NOENT else 0) = (s.remove id).1 :=
    (Store.remove_status s id).symm
  rw [hst]
  simp [Prog.outcome, hf]

theorem outcome_getbuf (hf : e.fault 0 = none) {id askSize off : ℕ} {st : Status} {buf : Bytes}
    {s' : Store} (hg : s.getbuf (e.now 0) id askSize off = (st, buf, s'))
    (next : Status → Bytes → Prog) :
    (Prog.getbuf id askSize off next).outcome e s = (next st buf).outcome e.tick s' := by
  simp [Prog.outcome, hf, hg]

theorem outcome_putbuf (hf : e.fault 0 = none) {id off : ℕ} {st : Status} {buf : Bytes}
    {s' : Store} (hp : s.putbuf (e.now 0) id off buf = some (st, s')) (next : Status → Prog) :
    (Prog.putbuf id off buf next).outcome e s = (next st).outcome e.tick s' := by
  simp [Prog.outcome, hf, hp]

theorem outcome_newInum {parent : ℕ} {isfile : Bool} {n : ℕ} {rs : List Random}
    (hn : newInum parent isfile e.random = some (n, rs)) (next : ℕ → Prog) :
    (Prog.newInum parent isfile next).outcome e s = (next n).outcome (e.setRandom rs) s := by
  simp [Prog.outcome, hn]

theorem outcome_newInum_none {parent : ℕ} {isfile : Bool}
    (hn : newInum parent isfile e.random = none) (next : ℕ → Prog) :
    (Prog.newInum parent isfile next).outcome e s = (.drawing, s.contents) := by
  simp [Prog.outcome, hn]

/-- A status the fault pattern gives is not `OK`, and `stat2yfs` hands it on. -/
theorem Env.status_ne {i : ℕ} {st : Status} (hf : e.fault i = some st) : st ≠ 0 :=
  fun h => e.fault_ne i (h ▸ hf)

theorem stat2yfs_ext {st : Status} (hst : st ≠ 0) (yfs : ℤ) : stat2yfs yfs st 0 = st := by
  simp [stat2yfs, hst]

theorem outcome_dirAddEntry (parent : ℕ) (name : Bytes) (isfile : Bool) :
    (dirAddEntry parent name isfile).outcome e s = addEffect e s.contents parent name isfile := by
  rw [dirAddEntry, outcome_acquire, if_pos rfl, addEffect]
  cases hf : e.fault 0 with
  | some st =>
    have hst := e.status_ne hf
    simp [outcome_get_fault e s hf, hst, stat2yfs_ext hst]
  | none =>
    cases hc : s.contents (key parent) with
    | none =>
      rw [outcome_get_none e s hf hc]
      rfl
    | some text =>
      obtain ⟨s₁, hs₁, hget⟩ := outcome_get_some e s hf hc _
      rw [hget, if_pos rfl, ← hs₁]
      dsimp only
      cases hfind : Dir.dirFind text name with
      | some f => rfl
      | none =>
        dsimp only
        cases hn : newInum parent isfile e.random with
        | none => exact outcome_newInum_none e.tick s₁ hn _
        | some p =>
          obtain ⟨n, rs⟩ := p
          rw [outcome_newInum e.tick s₁ hn]
          obtain ⟨s₂, hs₂, hput⟩ := outcome_put (e.tick.setRandom rs) s₁ n [] _
          rw [hput]
          obtain ⟨s₃, hs₃, hput'⟩ := outcome_put (e.tick.setRandom rs).tick s₂ parent _ _
          rw [hput', outcome_release, outcome_done, hs₃, hs₂]
          rfl

theorem outcome_remove_call (parent : ℕ) (name : Bytes) :
    (remove parent name).outcome e s = removeEffect e s.contents parent name := by
  rw [remove, outcome_acquire, if_pos rfl, removeEffect]
  cases hf : e.fault 0 with
  | some st =>
    have hst := e.status_ne hf
    simp [outcome_get_fault e s hf, hst, stat2yfs_ext hst]
  | none =>
    cases hc : s.contents (key parent) with
    | none =>
      rw [outcome_get_none e s hf hc]
      rfl
    | some text =>
      obtain ⟨s₁, hs₁, hget⟩ := outcome_get_some e s hf hc _
      rw [hget, if_pos rfl, ← hs₁]
      dsimp only
      cases hfind : Dir.dirFind text name with
      | none => rfl
      | some f =>
        dsimp only
        rw [outcome_acquire, if_pos rfl]
        cases hf₁ : e.fault 1 with
        | some st =>
          have hst := e.status_ne hf₁
          simp [outcome_remove_fault e.tick s₁ hf₁, hst, stat2yfs_ext hst]
        | none =>
          obtain ⟨s₂, hs₂, hrem⟩ := outcome_remove e.tick s₁ hf₁ f.inum _
          rw [hrem]
          dsimp only
          by_cases hk : s₁.contents (key f.inum) = none
          · rw [if_pos hk, if_pos hk, if_neg (by decide), outcome_release, outcome_release,
              outcome_done, hs₂, ← hk, Function.update_eq_self]
            rfl
          · rw [if_neg hk, if_neg hk, if_pos rfl]
            cases her : Dir.erase text f.bufoff f.buflen with
            | none => rw [← hs₂]; rfl
            | some buf =>
              dsimp only
              obtain ⟨s₃, hs₃, hput⟩ := outcome_put e.tick.tick s₂ parent buf _
              rw [hput, outcome_release, outcome_release, outcome_done, hs₃, hs₂]
              rfl

theorem outcome_lookup (parent : ℕ) (name : Bytes) :
    (lookup parent name).outcome e s = (lookupEffect e s.contents parent name, s.contents) := by
  rw [lookup, outcome_acquire, if_pos rfl, lookupEffect]
  cases hf : e.fault 0 with
  | some st =>
    have hst := e.status_ne hf
    simp [outcome_get_fault e s hf, hst, stat2yfs_ext hst]
  | none =>
    cases hc : s.contents (key parent) with
    | none =>
      rw [outcome_get_none e s hf hc]
      rfl
    | some text =>
      obtain ⟨s₁, hs₁, hget⟩ := outcome_get_some e s hf hc _
      rw [hget, if_pos rfl, ← hs₁]
      dsimp only
      cases Dir.dirFind text name <;> rfl

theorem outcome_readir (parent : ℕ) :
    (readir parent).outcome e s = (readirEffect e s.contents parent, s.contents) := by
  rw [readir, readirEffect]
  cases hf : e.fault 0 with
  | some st =>
    have hst := e.status_ne hf
    simp [outcome_get_fault e s hf, hst, stat2yfs_ext hst]
  | none =>
    cases hc : s.contents (key parent) with
    | none =>
      rw [outcome_get_none e s hf hc]
      rfl
    | some text =>
      obtain ⟨s₁, hs₁, hget⟩ := outcome_get_some e s hf hc _
      rw [hget, if_pos rfl, ← hs₁]
      rfl

theorem outcome_resize (target newSize : ℕ) :
    (resize target newSize).outcome e s = resizeEffect e s.contents target newSize := by
  rw [resize, outcome_acquire, if_pos rfl, resizeEffect]
  cases hf : e.fault 0 with
  | some st =>
    have hst := e.status_ne hf
    simp [outcome_get_fault e s hf, hst, stat2yfs_ext hst]
  | none =>
    cases hc : s.contents (key target) with
    | none =>
      rw [outcome_get_none e s hf hc]
      rfl
    | some text =>
      obtain ⟨s₁, hs₁, hget⟩ := outcome_get_some e s hf hc _
      obtain ⟨s₂, hs₂, hput⟩ := outcome_put e.tick s₁ target (Store.resized text newSize) _
      rw [hget, if_pos rfl, hput, outcome_release, outcome_done, hs₂, hs₁]
      rfl

end Run
end YFS.Fs
