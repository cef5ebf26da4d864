import YFS.Fs.Concurrent

/-! # What an operation does with its locks

The operations that take locks do so in one pattern. Holding locks, they read extents under
them and may draw a new inum; then comes one request that decides the outcome; after it at
most one `put` of an extent read before is left, and the locks are released. The request
that decides is the operation's commit point. `Opening` describes a program before that
point, `tail` one that has only releases left.
-/

namespace YFS.Fs
open YFS.Library YFS.Extent

/-- A program run alone with RPCs that succeed, in terms of the bytes stored. -/
def Prog.exec : Prog → List Random → Contents → Ending × Contents
  | .done r, _, c => (.returned r, c)
  | .throw, _, c => (.threw, c)
  | .acquire _ next, rs, c => (next 0).exec rs c
  | .release _ next, rs, c => next.exec rs c
  | .get id next, rs, c =>
    match c (key id) with
    | none => (next .NOENT []).exec rs c
    | some b => (next 0 b).exec rs c
  | .put id buf next, rs, c => (next 0).exec rs (Function.update c (key id) (some buf))
  | .remove id next, rs, c =>
    (next (if c (key id) = none then .NOENT else 0)).exec rs (Function.update c (key id) none)
  | .getbuf id askSize off next, rs, c =>
    match c (key id) with
    | none => (next .NOENT []).exec rs c
    | some b =>
      match Store.sliced b askSize off with
      | none => (next .IOERR []).exec rs c
      | some buf => (next 0 buf).exec rs c
  | .putbuf id off buf next, rs, c =>
    match c (key id) with
    | none => (next .NOENT).exec rs c
    | some b =>
      match Store.written b off buf with
      | none => (.threw, c)
      | some b' => (next 0).exec rs (Function.update c (key id) (some b'))
  | .newInum parent isfile next, rs, c =>
    match Fs.newInum parent isfile rs with
    | none => (.drawing, c)
    | some (n, rs') => (next n).exec rs' c

/-- Running alone on a store is running on its bytes. -/
theorem Prog.outcome_reliable (p : Prog) (now : ℕ → ℕ) (rs : List Random) (s : Store) :
    p.outcome (Env.reliable now rs) s = p.exec rs s.contents := by
  induction p generalizing now rs s with
  | done r => rfl
  | throw => rfl
  | acquire lid next ih => exact ih 0 now rs s
  | release lid next ih => exact ih now rs s
  | get id next ih =>
    cases hc : s.contents (key id) with
    | none =>
      rw [outcome_get_none _ _ rfl hc, exec, hc]
      exact ih _ _ _ rs s
    | some b =>
      obtain ⟨s', hs', ho⟩ := outcome_get_some (Env.reliable now rs) s rfl hc next
      rw [ho, exec, hc, ← hs']
      exact ih _ _ _ rs s'
  | put id buf next ih =>
    have := ih 0 (fun t => now (t + 1)) rs (s.put (now 0) id buf).2
    rwa [Store.contents_put] at this
  | remove id next ih =>
    obtain ⟨s', hs', ho⟩ := outcome_remove (Env.reliable now rs) s rfl id next
    rw [ho, exec, ← hs']
    exact ih _ _ rs s'
  | getbuf id askSize off next ih =>
    rw [exec]
    cases hc : s.contents (key id) with
    | none =>
      rw [outcome_getbuf (Env.reliable now rs) s rfl (Store.getbuf_of_none hc ..)]
      exact ih _ _ _ rs s
    | some b =>
      obtain ⟨s', hs', hg⟩ := Store.getbuf_of_some hc (now 0) askSize off
      dsimp only
      rw [← hs']
      cases hsl : Store.sliced b askSize off with
      | none =>
        rw [hsl] at hg
        rw [outcome_getbuf (Env.reliable now rs) s rfl hg]
        exact ih _ _ _ rs s'
      | some buf =>
        rw [hsl] at hg
        rw [outcome_getbuf (Env.reliable now rs) s rfl hg]
        exact ih _ _ _ rs s'
  | putbuf id off buf next ih =>
    rw [exec]
    cases hc : s.contents (key id) with
    | none =>
      rw [outcome_putbuf (Env.reliable now rs) s rfl (Store.putbuf_of_none hc ..)]
      exact ih _ _ rs s
    | some b =>
      dsimp only
      cases hw : Store.written b off buf with
      | none =>
        obtain ⟨r, hr, rfl⟩ := Store.find_of_contents hc
        simp [outcome, run, Env.reliable, Store.putbuf, hr, hw]
      | some b' =>
        obtain ⟨s', hs', hp⟩ := Store.putbuf_of_some hc hw (now 0)
        rw [outcome_putbuf (Env.reliable now rs) s rfl hp]
        dsimp only
        rw [← hs']
        exact ih _ _ rs s'
  | newInum parent isfile next ih =>
    rw [exec]
    cases hn : Fs.newInum parent isfile rs with
    | none => exact outcome_newInum_none _ _ hn _
    | some q =>
      obtain ⟨n, rs'⟩ := q
      rw [outcome_newInum (Env.reliable now rs) s hn]
      exact ih n now rs' s

def Call.locks : Call → Bool
  | .readir _ | .read _ _ _ => false
  | _ => true

def Request.drawn (q : Request) : Option ℕ :=
  match q.call with
  | .create parent _ => Fs.drawn parent true q.random
  | .mkadir parent _ => Fs.drawn parent false q.random
  | _ => none

namespace Prog

def tail : Prog → Option Ending
  | .done r => some (.returned r)
  | .throw => some .threw
  | .release _ next => next.tail
  | _ => none

/-- After its commit point: the program writes `w`, if anything, to an extent it has read, and
ends with `e`. -/
def Closing (R : List ℕ) (e : Ending) (w : Option (ℕ × Bytes)) : Prog → Prop
  | .put id buf next => w = some (key id, buf) ∧ key id ∈ R ∧ (next 0).tail = some e
  | p => w = none ∧ p.tail = some e

def Closes (R : List ℕ) (p : Prog) : Prop := ∃ e w, p.Closing R e w

/-- Before its commit point: the program of the request `q` holds locks of the keys `K`, has read the
texts `R` under some of them, has drawn the inum `n` and still has the random values `left`. It
removes only what it has found in the directory that it writes after that. -/
def Opening (q : Request) (left : List Random) (K : List ℕ) (R : List (ℕ × Bytes)) (n : Option ℕ) :
    Prog → Prop
  | .acquire lid next => Opening q left (key lid :: K) R n (next 0)
  | .get id next =>
    key id ∈ K ∧ (next .NOENT []).tail ≠ none ∧
      ∀ b, (next 0 b).tail ≠ none ∨ Opening q left K ((key id, b) :: R) n (next 0 b)
  | .newInum parent isfile next =>
    n = none ∧ (Fs.newInum parent isfile left).map Prod.fst = q.drawn ∧
      ∀ m left', Fs.newInum parent isfile left = some (m, left') →
        Opening q left' K R (some m) (next m)
  | .put id _ next =>
    key id ∈ R.map Prod.fst ∧ q.drawn = none ∧ (next 0).tail ≠ none ∨
      n = some id ∧ Closes (R.map Prod.fst) (next 0)
  | .remove id next =>
    key id ∈ K ∧ q.drawn = none ∧ Closes (R.map Prod.fst) (next .NOENT) ∧
      Closes (R.map Prod.fst) (next 0) ∧ ∀ st dir buf rest, next st = .put dir buf rest →
        ∃ name text f, q.call = .remove dir name ∧ (key dir, text) ∈ R ∧
          Dir.dirFind text name = some f ∧ f.inum = id
  | .putbuf id _ _ next =>
    key id ∈ K ∧ q.drawn = none ∧ (next .NOENT).tail ≠ none ∧ (next 0).tail ≠ none
  | _ => False

def Reads : Prog → Prop
  | .done _ => True
  | .get _ next => ∀ st b, (next st b).Reads
  | .getbuf _ _ _ next => ∀ st b, (next st b).Reads
  | _ => False

theorem closing_of_tail {p : Prog} {e : Ending} (h : p.tail = some e) (R : List ℕ) :
    p.Closing R e none := by
  cases p <;> first | exact ⟨rfl, h⟩ | cases h

theorem closes_of_tail {p : Prog} (h : p.tail ≠ none) (R : List ℕ) : p.Closes R := by
  obtain ⟨e, he⟩ := Option.ne_none_iff_exists'.mp h
  exact ⟨e, none, closing_of_tail he R⟩

theorem Closing.mem {R : List ℕ} {e : Ending} {k : ℕ} {b : Bytes} {p : Prog}
    (h : p.Closing R e (some (k, b))) : k ∈ R := by
  cases p with
  | put id buf next =>
    obtain ⟨hw, hmem, -⟩ := h
    cases hw
    exact hmem
  | _ => cases h.1

/-- What is left after the commit point changes only what is to be written. -/
theorem exec_of_tail {p : Prog} {e : Ending} (h : p.tail = some e) (rs : List Random)
    (c : Contents) : p.exec rs c = (e, c) := by
  induction p with
  | done r =>
    cases h
    rfl
  | throw =>
    cases h
    rfl
  | release lid next ih => exact ih h
  | _ => cases h

theorem Reads.exec_snd {p : Prog} (h : p.Reads) (rs : List Random) (c : Contents) :
    (p.exec rs c).2 = c := by
  induction p with
  | done r => rfl
  | get id next ih =>
    rw [Prog.exec]
    split
    · exact ih _ _ (h _ _)
    · exact ih _ _ (h _ _)
  | getbuf id askSize off next ih =>
    rw [Prog.exec]
    split
    · exact ih _ _ (h _ _)
    · split
      · exact ih _ _ (h _ _)
      · exact ih _ _ (h _ _)
  | _ => exact h.elim

end Prog

/-- The bytes after a write that is still to be made. -/
def overlay (w : Option (ℕ × Bytes)) (c : Contents) : Contents :=
  match w with
  | none => c
  | some (k, b) => Function.update c k (some b)

theorem Prog.Closing.exec {R : List ℕ} {e : Ending} {w : Option (ℕ × Bytes)} {p : Prog}
    (h : p.Closing R e w) (rs : List Random) (c : Contents) : p.exec rs c = (e, overlay w c) := by
  cases p with
  | put id buf next =>
    obtain ⟨rfl, -, ht⟩ := h
    exact exec_of_tail ht rs _
  | done r => obtain ⟨rfl, ht⟩ := h; exact exec_of_tail ht rs c
  | throw => obtain ⟨rfl, ht⟩ := h; exact exec_of_tail ht rs c
  | release lid next => obtain ⟨rfl, ht⟩ := h; exact exec_of_tail ht rs c
  | _ => cases h.2

section Openings

attribute [local simp] Prog.tail Status.NOENT

theorem opening_dirAddEntry {q : Request} {parent : ℕ} {isfile : Bool}
    (hq : q.drawn = drawn parent isfile q.random) (name : Bytes) :
    (dirAddEntry parent name isfile).Opening q q.random [] [] none := by
  refine ⟨List.mem_singleton.mpr rfl, by simp, fun b => ?_⟩
  cases hf : Dir.dirFind b name with
  | some f => exact Or.inl (by simp [hf])
  | none =>
    right
    simp only [hf, if_true]
    refine ⟨rfl, (newInum_fst ..).trans hq.symm, fun m left' hm => Or.inr ⟨rfl, ?_⟩⟩
    exact ⟨_, _, rfl, List.mem_singleton.mpr rfl, rfl⟩

theorem opening_remove (parent : ℕ) (name : Bytes) (rs : List Random) :
    (remove parent name).Opening ⟨.remove parent name, rs⟩ rs [] [] none := by
  refine ⟨List.mem_singleton.mpr rfl, by simp, fun b => ?_⟩
  cases hf : Dir.dirFind b name with
  | none => exact Or.inl (by simp [hf])
  | some f =>
    right
    simp only [hf, if_true]
    refine ⟨List.mem_cons_self, rfl, ?_, ?_, fun st dir buf rest => ?_⟩
    · exact Prog.closes_of_tail (by simp) _
    · simp only [if_true]
      cases Dir.erase b f.bufoff f.buflen with
      | none => exact Prog.closes_of_tail (by simp) _
      | some buf => exact ⟨_, _, rfl, List.mem_singleton.mpr rfl, rfl⟩
    · by_cases hst : st = 0
      · simp only [hst, if_true]
        cases Dir.erase b f.bufoff f.buflen with
        | none => rintro ⟨⟩
        | some buf =>
          rintro ⟨⟩
          exact ⟨name, b, f, rfl, List.mem_singleton.mpr rfl, hf, rfl⟩
      · simp only [hst, if_false]
        rintro ⟨⟩

theorem opening_lookup (q : Request) (parent : ℕ) (name : Bytes) :
    (lookup parent name).Opening q q.random [] [] none := by
  refine ⟨List.mem_singleton.mpr rfl, by simp, fun b => Or.inl ?_⟩
  cases hf : Dir.dirFind b name <;> simp [hf]

theorem opening_resize {q : Request} (hq : q.drawn = none) (target newSize : ℕ) :
    (resize target newSize).Opening q q.random [] [] none := by
  refine ⟨List.mem_singleton.mpr rfl, by simp, fun b => Or.inr ?_⟩
  exact Or.inl ⟨List.mem_singleton.mpr rfl, hq, by simp⟩

theorem opening_write {q : Request} (hq : q.drawn = none) (target : ℕ) (buf : Bytes) (offset : ℕ) :
    (write target buf offset).Opening q q.random [] [] none :=
  ⟨List.mem_singleton.mpr rfl, hq, by simp, by simp⟩

end Openings

theorem Request.opening {q : Request} (h : q.call.locks = true) :
    q.call.prog.Opening q q.random [] [] none := by
  obtain ⟨call, rs⟩ := q
  cases call with
  | create parent name => exact opening_dirAddEntry rfl name
  | mkadir parent name => exact opening_dirAddEntry rfl name
  | remove parent name => exact opening_remove parent name rs
  | lookup parent name => exact opening_lookup _ parent name
  | resize target newSize => exact opening_resize rfl target newSize
  | write target buf offset => exact opening_write rfl target buf offset
  | readir parent => cases h
  | read target size offset => cases h

theorem Call.reads {c : Call} (h : c.locks = false) : c.prog.Reads := by
  cases c with
  | readir parent =>
    intro st b
    dsimp only
    split <;> trivial
  | read target size offset =>
    intro st b
    dsimp only
    split <;> trivial
  | _ => cases h

end YFS.Fs
