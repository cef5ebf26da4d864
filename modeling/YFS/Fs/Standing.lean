import YFS.Fs.Removed
import YFS.Fs.Tree

/-! # Where an operation stands

An operation asks for its first lock with empty hands. Only `remove` asks for a second one, that
of the inum it has found in the directory whose lock it holds. `Prog.Asks` says so of a program;
`Conc.Standing` ties it to the locks and texts of a state. On a linked store no operation throws,
all locks are those of inums below `2 ^ 32`, and every operation ends without a lock.
-/

namespace YFS.Fs
open YFS.Library YFS.Extent YFS.Dir

/-- Holding the locks `H` and knowing the texts `R` it has read under them, the program asks for a
lock only if it holds none, or for an inum in the directory that it holds and knows. Of two writes
in a row the second is to a directory, what it writes into a file ends below `2 ^ 32`, it does not
throw, and it ends without a lock. -/
def Prog.Asks (H : List ℕ) (R : List (ℕ × Bytes)) : Prog → Prop
  | .done _ => H = []
  | .throw => False
  | .acquire lid next =>
    (H = [] ∧ lid < 2 ^ 32 ∨ ∃ dir text, H = [dir] ∧ isfile dir = false ∧ (dir, text) ∈ R ∧
      lid ∈ (entries text).map Prod.snd) ∧ Asks (lid :: H) R (next 0)
  | .release lid next => Asks (H.filter (· ≠ lid)) [] next
  | .get id next =>
    Asks H R (next .NOENT []) ∧ ∀ b, (id ∈ H → isfile id = false → ∃ d, b = render d) →
      Asks H (if id ∈ H then (id, b) :: R else R) (next 0 b)
  | .put _ _ next =>
    (∀ id buf rest, next 0 = .put id buf rest → isfile id = false) ∧ Asks H [] (next 0)
  | .remove _ next =>
    (∀ st id buf rest, next st = .put id buf rest → isfile id = false) ∧
      Asks H [] (next .NOENT) ∧ Asks H [] (next 0)
  | .getbuf _ _ _ next => ∀ st b, Asks H R (next st b)
  | .putbuf _ off buf next =>
    off + buf.length < 2 ^ 32 ∧ Asks H [] (next .NOENT) ∧ Asks H [] (next 0)
  | .newInum _ _ next => ∀ n, Asks H R (next n)

def Request.Fit (q : Request) : Prop := q.Proper ∧ q.Short

instance (q : Request) : Decidable q.Fit := inferInstanceAs (Decidable (_ ∧ _))

section Asks

attribute [local simp] Prog.Asks Status.NOENT

theorem asks_dirAddEntry {parent : ℕ} (hp : isfile parent = false) (hs : parent < 2 ^ 32)
    (name : Bytes) (isfile' : Bool) : (dirAddEntry parent name isfile').Asks [] [] := by
  refine ⟨Or.inl ⟨rfl, hs⟩, ?_, fun b _ => ?_⟩
  · simp
  · cases hf : dirFind b name <;> simp [hf, hp]

theorem asks_remove {parent : ℕ} (hp : isfile parent = false) (hs : parent < 2 ^ 32)
    (name : Bytes) : (remove parent name).Asks [] [] := by
  refine ⟨Or.inl ⟨rfl, hs⟩, ?_, fun b hb => ?_⟩
  · simp
  · obtain ⟨d, rfl⟩ := hb List.mem_cons_self hp
    cases hf : dirFind (render d) name with
    | none => simp [hf]
    | some f =>
      have hmem : f.inum ∈ (entries (render d)).map Prod.snd := by
        obtain ⟨ent, hent, hinum⟩ := Option.map_eq_some_iff.mp (child_of_some hf)
        rw [← hinum]
        exact List.mem_map_of_mem (List.mem_of_find?_eq_some hent)
      obtain ⟨buf, hbuf, -⟩ := entries_erase hf
      simp only [hf, if_true]
      refine ⟨Or.inr ⟨parent, render d, rfl, hp, by simp, hmem⟩, fun st id buf' rest => ?_, ?_, ?_⟩
      · simp only [hbuf]
        split
        · rintro ⟨⟩
          exact hp
        · rintro ⟨⟩
      · simp
      · simp [hbuf]

theorem asks_lookup {parent : ℕ} (hs : parent < 2 ^ 32) (name : Bytes) :
    (lookup parent name).Asks [] [] := by
  refine ⟨Or.inl ⟨rfl, hs⟩, ?_, fun b _ => ?_⟩
  · simp
  · cases hf : dirFind b name <;> simp [hf]

theorem asks_readir (parent : ℕ) : (readir parent).Asks [] [] := by
  refine ⟨?_, fun b _ => ?_⟩
  · simp
  · simp

theorem asks_resize {target : ℕ} (hs : target < 2 ^ 32) (newSize : ℕ) :
    (resize target newSize).Asks [] [] := by
  refine ⟨Or.inl ⟨rfl, hs⟩, ?_, fun b _ => ?_⟩
  · simp
  · simp

theorem asks_read (target size offset : ℕ) : (read target size offset).Asks [] [] := by
  intro st b
  dsimp only
  split <;> rfl

theorem asks_write {target : ℕ} (hs : target < 2 ^ 32) {buf : Bytes} {offset : ℕ}
    (ho : offset + buf.length < 2 ^ 32) : (write target buf offset).Asks [] [] := by
  refine ⟨Or.inl ⟨rfl, hs⟩, ?_, ?_, ?_⟩
  · rwa [Nat.mod_eq_of_lt (by omega)]
  · simp
  · simp

end Asks

theorem Request.Fit.asks {q : Request} (h : q.Fit) : q.call.prog.Asks [] [] := by
  obtain ⟨call, rs⟩ := q
  obtain ⟨hq, hs⟩ := h
  cases call with
  | create parent name => exact asks_dirAddEntry hq.1 hs name true
  | mkadir parent name => exact asks_dirAddEntry hq.1 hs name false
  | remove parent name => exact asks_remove hq hs name
  | lookup parent name => exact asks_lookup hs name
  | readir parent => exact asks_readir parent
  | resize target newSize => exact asks_resize hs newSize
  | read target size offset => exact asks_read target size offset
  | write target buf offset => exact asks_write hs.1 hs.2

variable {ι : Type}

/-- Operation `i` stands at `p` with exactly the locks `H`; the texts in `R` are those stored. -/
structure Conc.Standing (s : Conc ι) (i : ι) (p : Prog) (H : List ℕ) (R : List (ℕ × Bytes)) :
    Prop where
  asks : p.Asks H R
  holds : ∀ l, (l, i) ∈ s.held ↔ l ∈ H
  knows : ∀ r ∈ R, r.1 ∈ H ∧ s.store.contents (key r.1) = some r.2

def Conc.Stands (s : Conc ι) (i : ι) : Prop :=
  match s.task i with
  | .running _ _ p => ∃ H R, s.Standing i p H R
  | _ => ∀ l, (l, i) ∉ s.held

section Stands
variable {s s' : Conc ι} {i : ι} {q : Request} {left : List Random} {p : Prog}

theorem stands_running (ht : s.task i = .running q left p) :
    s.Stands i ↔ ∃ H R, s.Standing i p H R := by
  rw [Conc.Stands, ht]

theorem stands_resting (ht : (s.task i).isRunning = false) :
    s.Stands i ↔ ∀ l, (l, i) ∉ s.held := by
  rw [Conc.Stands]
  split
  · rename_i ht'
    rw [ht'] at ht
    cases ht
  · exact Iff.rfl

/-- What others do to other extents does not move an operation. -/
theorem Conc.Stands.frame (h : s.Stands i) (htask : s'.task i = s.task i)
    (hheld : ∀ l, (l, i) ∈ s'.held ↔ (l, i) ∈ s.held)
    (hcont : ∀ k, s.Covers i k → s.store.contents k ≠ none →
      s'.store.contents k = s.store.contents k) : s'.Stands i := by
  cases ht : s.task i with
  | running q left p =>
    obtain ⟨H, R, hst⟩ := (stands_running ht).mp h
    refine (stands_running (htask.trans ht)).mpr ⟨H, R, hst.asks, fun l => ?_, fun r hr => ?_⟩
    · rw [hheld, hst.holds]
    · obtain ⟨hH, hr⟩ := hst.knows r hr
      refine ⟨hH, ?_⟩
      rw [hcont _ ⟨r.1, (hst.holds r.1).mpr hH, rfl⟩ (by rw [hr]; simp), hr]
  | idle =>
    have hrest : (s.task i).isRunning = false := by rw [ht]; rfl
    rw [stands_resting (htask ▸ hrest)]
    exact fun l hl => (stands_resting hrest).mp h l ((hheld l).mp hl)
  | ended q e =>
    have hrest : (s.task i).isRunning = false := by rw [ht]; rfl
    rw [stands_resting (htask ▸ hrest)]
    exact fun l hl => (stands_resting hrest).mp h l ((hheld l).mp hl)

end Stands

variable [DecidableEq ι]

section Advance
variable {s s' : Conc ι} {i : ι} {q : Request} {left : List Random} {p p' : Prog} {now : ℕ}
variable {H : List ℕ} {R : List (ℕ × Bytes)} {c : Contents}

theorem Moved.stands (hm : Moved s s' i q left p' c) (hholds : ∀ l, (l, i) ∈ s.held ↔ l ∈ H)
    (hasks : p'.Asks H R) (hknows : ∀ r ∈ R, r.1 ∈ H ∧ c (key r.1) = some r.2) : s'.Stands i := by
  have htask : s'.task i = .running q left p' := by rw [hm.task, Function.update_self]
  refine (stands_running htask).mpr ⟨H, R, hasks, ?_, ?_⟩
  · rw [hm.held]
    exact hholds
  · rw [hm.contents]
    exact hknows

omit [DecidableEq ι] in
theorem knows_nil (c : Contents) :
    ∀ r ∈ ([] : List (ℕ × Bytes)), r.1 ∈ H ∧ c (key r.1) = some r.2 :=
  fun _ hr => absurd hr List.not_mem_nil

/-- The operation's own step, in a store whose directories are laid out. -/
theorem Conc.Standing.advance (h : s.Standing i p H R)
    (hlay : ∀ id next b, p = .get id next → id ∈ H → isfile id = false →
      s.store.contents (key id) = some b → ∃ d, b = render d)
    (hs : s.advance i q left now p = some s') : s'.Stands i := by
  cases p with
  | done r =>
    cases hs
    have hrest : ((s.finish i q (.returned r)).task i).isRunning = false := by
      simp [Conc.finish, Task.isRunning]
    have hH : H = [] := h.asks
    rw [stands_resting hrest]
    intro l hl
    exact absurd ((h.holds l).mp hl) (by simp [hH])
  | throw => exact h.asks.elim
  | acquire lid next =>
    rw [Conc.advance] at hs
    split at hs
    · cases hs
    · cases hs
      refine (stands_running (Function.update_self ..)).mpr ⟨lid :: H, R, h.asks.2, ?_, ?_⟩
      · intro l
        have := h.holds l
        simp only [List.mem_insert_iff, List.mem_cons, Prod.mk.injEq, and_true, this]
      · intro r hr
        exact ⟨List.mem_cons_of_mem _ (h.knows r hr).1, (h.knows r hr).2⟩
  | release lid next =>
    cases hs
    refine (stands_running (Function.update_self ..)).mpr
      ⟨H.filter (· ≠ lid), [], h.asks, ?_, knows_nil _⟩
    intro l
    have := h.holds l
    simp [List.mem_filter, this]
  | get id next =>
    obtain ⟨-, hm⟩ := Conc.advance_get hs
    cases hc : s.store.contents (key id) with
    | none =>
      rw [hc] at hm
      exact hm.stands h.holds h.asks.1 h.knows
    | some b =>
      rw [hc] at hm
      refine hm.stands h.holds (h.asks.2 b fun hid hfile => hlay id next b rfl hid hfile hc) ?_
      intro r hr
      split at hr
      · rename_i hid
        rcases List.mem_cons.mp hr with rfl | hr
        · exact ⟨hid, hc⟩
        · exact h.knows r hr
      · exact h.knows r hr
  | put id buf next =>
    obtain ⟨-, hm⟩ := Conc.advance_put hs
    exact hm.stands h.holds h.asks.2 (knows_nil _)
  | remove id next =>
    obtain ⟨-, hm⟩ := Conc.advance_remove hs
    split at hm
    · exact hm.stands h.holds h.asks.2.1 (knows_nil _)
    · exact hm.stands h.holds h.asks.2.2 (knows_nil _)
  | getbuf id askSize off next =>
    obtain ⟨-, st, b, hm⟩ := Conc.advance_getbuf hs
    exact hm.stands h.holds (h.asks st b) h.knows
  | putbuf id off buf next =>
    obtain ⟨-, ⟨-, hm⟩ | ⟨b, b', -, -, hm⟩⟩ := Conc.advance_putbuf hs
    · exact hm.stands h.holds h.asks.2.1 (knows_nil _)
    · exact hm.stands h.holds h.asks.2.2 (knows_nil _)
  | newInum parent isfile next =>
    rw [Conc.advance] at hs
    split at hs
    · cases hs
    · cases hs
      exact (stands_running (Function.update_self ..)).mpr ⟨H, R, h.asks _, h.holds, h.knows⟩

theorem Conc.advance_own (hs : s.advance i q left now p = some s') :
    (∃ left' p', s'.task i = .running q left' p') ∨ ∃ e, s'.task i = .ended q e := by
  have hmoved {left' : List Random} {p' : Prog} {c : Contents} (hm : Moved s s' i q left' p' c) :
      (∃ left' p', s'.task i = .running q left' p') ∨ ∃ e, s'.task i = .ended q e :=
    Or.inl ⟨left', p', by rw [hm.task, Function.update_self]⟩
  cases p with
  | done r =>
    cases hs
    exact Or.inr ⟨_, Function.update_self ..⟩
  | throw =>
    cases hs
    exact Or.inr ⟨_, Function.update_self ..⟩
  | acquire lid next =>
    rw [Conc.advance] at hs
    split at hs
    · cases hs
    · cases hs
      exact Or.inl ⟨_, _, Function.update_self ..⟩
  | release lid next =>
    cases hs
    exact Or.inl ⟨_, _, Function.update_self ..⟩
  | get id next =>
    obtain ⟨-, hm⟩ := Conc.advance_get hs
    split at hm
    · exact hmoved hm
    · exact hmoved hm
  | put id buf next => exact hmoved (Conc.advance_put hs).2
  | remove id next => exact hmoved (Conc.advance_remove hs).2
  | getbuf id askSize off next =>
    obtain ⟨-, st, b, hm⟩ := Conc.advance_getbuf hs
    exact hmoved hm
  | putbuf id off buf next =>
    obtain ⟨-, ⟨-, hm⟩ | ⟨b, b', -, -, hm⟩⟩ := Conc.advance_putbuf hs
    · exact hmoved hm
    · exact hmoved hm
  | newInum parent isfile next =>
    rw [Conc.advance] at hs
    split at hs
    · cases hs
    · cases hs
      exact Or.inl ⟨_, _, Function.update_self ..⟩

theorem Conc.advance_others {j : ι} (hji : j ≠ i) (hs : s.advance i q left now p = some s') :
    s'.task j = s.task j ∧ ∀ l, (l, j) ∈ s'.held ↔ (l, j) ∈ s.held := by
  have hmoved {left' : List Random} {p' : Prog} {c : Contents} (hm : Moved s s' i q left' p' c) :
      s'.task j = s.task j ∧ ∀ l, (l, j) ∈ s'.held ↔ (l, j) ∈ s.held := by
    rw [hm.task, hm.held, Function.update_of_ne hji]
    exact ⟨rfl, fun _ => Iff.rfl⟩
  cases p with
  | done r =>
    cases hs
    exact ⟨Function.update_of_ne hji .., fun _ => Iff.rfl⟩
  | throw =>
    cases hs
    exact ⟨Function.update_of_ne hji .., fun _ => Iff.rfl⟩
  | acquire lid next =>
    rw [Conc.advance] at hs
    split at hs
    · cases hs
    · cases hs
      refine ⟨Function.update_of_ne hji .., fun l => ?_⟩
      simp [hji]
  | release lid next =>
    cases hs
    refine ⟨Function.update_of_ne hji .., fun l => ?_⟩
    simp [hji]
  | get id next =>
    obtain ⟨-, hm⟩ := Conc.advance_get hs
    split at hm
    · exact hmoved hm
    · exact hmoved hm
  | put id buf next => exact hmoved (Conc.advance_put hs).2
  | remove id next => exact hmoved (Conc.advance_remove hs).2
  | getbuf id askSize off next =>
    obtain ⟨-, st, b, hm⟩ := Conc.advance_getbuf hs
    exact hmoved hm
  | putbuf id off buf next =>
    obtain ⟨-, ⟨-, hm⟩ | ⟨b, b', -, -, hm⟩⟩ := Conc.advance_putbuf hs
    · exact hmoved hm
    · exact hmoved hm
  | newInum parent isfile next =>
    rw [Conc.advance] at hs
    split at hs
    · cases hs
    · cases hs
      exact ⟨Function.update_of_ne hji .., fun _ => Iff.rfl⟩

end Advance

/-! ## Operations on a linked store -/

theorem Request.drawn_lt (q : Request) {n : ℕ} (h : q.drawn = some n) : n < 2 ^ 32 := by
  have hdrawn {parent : ℕ} {isfile' : Bool} (h : Fs.drawn parent isfile' q.random = some n) :
      n < 2 ^ 32 := by
    rw [← newInum_fst] at h
    obtain ⟨⟨m, rs⟩, hm, rfl⟩ := Option.map_eq_some_iff.mp h
    exact newInum_lt hm
  unfold Request.drawn at h
  split at h
  · exact hdrawn h
  · exact hdrawn h
  · cases h

/-- An operation gets at most the lock it asks for. -/
theorem Conc.mem_held_of_advance {s s' : Conc ι} {i : ι} {q : Request} {left : List Random}
    {now : ℕ} {p : Prog} (hs : s.advance i q left now p = some s') {l : ℕ × ι}
    (hl : l ∈ s'.held) : l ∈ s.held ∨ ∃ next, p = .acquire l.1 next ∧ l.2 = i := by
  cases p with
  | acquire lid next =>
    rw [Conc.advance] at hs
    split at hs
    · cases hs
    · cases hs
      rcases List.mem_insert_iff.mp hl with rfl | hl
      · exact Or.inr ⟨next, rfl, rfl⟩
      · exact Or.inl hl
  | release lid next =>
    cases hs
    exact Or.inl (List.mem_of_mem_filter hl)
  | putbuf id off buf next =>
    rw [Conc.advance] at hs
    split at hs
    · cases hs
    · cases hs
      exact Or.inl hl
  | newInum parent isfile next =>
    rw [Conc.advance] at hs
    split at hs
    · cases hs
    · cases hs
      exact Or.inl hl
  | _ =>
    cases hs
    exact Or.inl hl

def Conc.HeldShort (s : Conc ι) : Prop := ∀ l ∈ s.held, l.1 < 2 ^ 32

/-- The requests so far are simulated on a linked store without cycles, and all operations stand
as they should. -/
structure Orderly (s₀ : Store) (s : Conc ι) (g : Ghost ι) : Prop where
  sim : Sim s₀.contents Request.Fit s g
  linked : Linked g.serial
  acyclic : (tree g.serial).Acyclic
  short : s.HeldShort
  stands : ∀ i, s.Stands i
  pending : ∀ i k b, g.pend i = some (k, b) → isfile k = false

section Sim
variable {c₀ : Contents} {P : Request → Prop} {s : Conc ι} {g : Ghost ι} {i : ι} {q : Request}
variable {left : List Random} {p : Prog} (h : Sim c₀ P s g)
variable (ht : s.task i = .running q left p)
include h ht

omit [DecidableEq ι] in
/-- What an operation that asks for a lock or reads under one finds is in the serial store. -/
theorem Sim.pend_none (hp : (∃ lid next, p = .acquire lid next) ∨ ∃ id next, p = .get id next) :
    g.pend i = none := by
  obtain ⟨-, hw | hc | ⟨ha, -⟩⟩ := (stage_running ht).mp (h.stage i)
  · exact hw.pend
  · obtain ⟨-, e, R, -, hcl⟩ := hc
    obtain ⟨lid, next, rfl⟩ | ⟨id, next, rfl⟩ := hp <;> exact hcl.1
  · exact ha.pend

end Sim

namespace Orderly
variable {s₀ : Store} {s s' : Conc ι} {g : Ghost ι} {i : ι} {q : Request} {left : List Random}
variable (h : Orderly s₀ s g)
include h

section
omit [DecidableEq ι]

/-- What a standing operation has locked and read is in the serial store. -/
theorem serial_of_knows {p : Prog} (ht : s.task i = .running q left p)
    (hp : ∃ lid next, p = .acquire lid next) {H : List ℕ} {R : List (ℕ × Bytes)}
    (hst : s.Standing i p H R) {r : ℕ × Bytes} (hr : r ∈ R) : g.serial (key r.1) = some r.2 := by
  obtain ⟨hH, hc⟩ := hst.knows r hr
  rw [h.sim.serial_eq_of_covers (h.sim.pend_none ht (Or.inl hp)) ⟨r.1, (hst.holds r.1).mpr hH, rfl⟩,
    hc]

/-- An operation that asks for a lock holds none, or holds that of a directory with an entry for
what it asks for. -/
theorem asking {lid : ℕ} {next : ℤ → Prog} (ht : s.task i = .running q left (.acquire lid next)) :
    lid < 2 ^ 32 ∧ ((∀ l, (l, i) ∉ s.held) ∨ ∃ dir, (∀ l, (l, i) ∈ s.held ↔ l = dir) ∧
      lid ∈ refs g.serial dir) := by
  obtain ⟨H, R, hst⟩ := (stands_running ht).mp (h.stands i)
  obtain ⟨⟨rfl, hlt⟩ | ⟨dir, text, rfl, hdir, hR, hlid⟩, -⟩ := hst.asks
  · exact ⟨hlt, Or.inl fun l hl => absurd ((hst.holds l).mp hl) List.not_mem_nil⟩
  · have hheld : (dir, i) ∈ s.held := (hst.holds dir).mpr (List.mem_singleton.mpr rfl)
    have hkey : key dir = dir := Nat.mod_eq_of_lt (h.short _ hheld)
    have hser := h.serial_of_knows ht ⟨lid, next, rfl⟩ hst hR
    rw [hkey] at hser
    have hmem : lid ∈ refs g.serial dir := by
      rw [refs, if_neg (by simp [hdir]), hser]
      exact hlid
    refine ⟨(h.linked.present dir lid hmem).1, Or.inr ⟨dir, fun l => ?_, hmem⟩⟩
    rw [hst.holds, List.mem_singleton]

theorem isRunning_of_held {l : ℕ} {i : ι} (hl : (l, i) ∈ s.held) : (s.task i).isRunning = true := by
  by_contra hrest
  exact (stands_resting (Bool.not_eq_true _ ▸ hrest)).mp (h.stands i) l hl

/-- All locks in use are of inums below `2 ^ 32`, so two locks with one key are the same. -/
theorem unaliased (ev : Event ι) : s.Unaliased ev := by
  cases ev with
  | start i q => trivial
  | next i now =>
    unfold Conc.Unaliased
    dsimp only
    split
    · rename_i left lid next hat
      unfold Conc.at? at hat
      split at hat
      · rename_i q left' p ht
        cases hat
        intro l hl hk
        have hl : key l.1 = l.1 := Nat.mod_eq_of_lt (h.short l hl)
        have hlid : key lid = lid := Nat.mod_eq_of_lt (h.asking ht).1
        rw [← hl, hk, hlid]
      · cases hat
    · trivial

end

theorem short_step {ev : Event ι} (hs : s.step ev = some s') : s'.HeldShort := by
  intro l hl
  cases ev with
  | start i q =>
    rw [Conc.step] at hs
    split at hs
    · cases hs
      exact h.short l hl
    · cases hs
  | next i now =>
    rw [Conc.step] at hs
    split at hs
    · rename_i q left p ht
      rcases Conc.mem_held_of_advance hs hl with hl | ⟨next, rfl, -⟩
      · exact h.short l hl
      · exact (h.asking ht).1
    · cases hs

theorem stands_step {ev : Event ι} (hfit : ev.Starts Request.Fit) (hs : s.step ev = some s')
    (j : ι) : s'.Stands j := by
  cases ev with
  | start i q =>
    rw [Conc.step] at hs
    split at hs
    · rename_i ht
      cases hs
      by_cases hji : j = i
      · subst hji
        have hrest : (s.task j).isRunning = false := by rw [ht]; rfl
        have hnone := (stands_resting hrest).mp (h.stands j)
        refine (stands_running (Function.update_self ..)).mpr ⟨[], [], hfit.asks, ?_, knows_nil _⟩
        exact fun l => ⟨fun hl => absurd hl (hnone l), fun hl => absurd hl List.not_mem_nil⟩
      · exact (h.stands j).frame (Function.update_of_ne hji ..) (fun _ => Iff.rfl) fun _ _ _ => rfl
    · cases hs
  | next i now =>
    rw [Conc.step] at hs
    split at hs
    · rename_i q left p ht
      by_cases hji : j = i
      · subst hji
        obtain ⟨H, R, hst⟩ := (stands_running ht).mp (h.stands j)
        apply hst.advance _ hs
        rintro id next b rfl hid hfile hc
        rw [← h.sim.serial_eq_of_covers (h.sim.pend_none ht (Or.inr ⟨id, next, rfl⟩))
          ⟨id, (hst.holds id).mpr hid, rfl⟩] at hc
        exact h.linked.layout (key id) b (by rw [isfile_key, hfile]) hc
      · obtain ⟨htask, hheld⟩ := Conc.advance_others hji hs
        exact (h.stands j).frame htask hheld fun k hk hne => h.sim.kept ht hs hji hk hne
    · cases hs

omit h [DecidableEq ι] in
/-- What the serial store takes keeps it linked and without cycles. -/
theorem advances {g g' : Ghost ι} (hl : Linked g.serial) (ha : (tree g.serial).Acyclic)
    (hadv : g.Advances Request.Fit g') : Linked g'.serial ∧ (tree g'.serial).Acyclic := by
  rcases hadv with heq | ⟨q, ⟨hq, hs⟩, heq, hfresh⟩
  · rw [heq]
    exact ⟨hl, ha⟩
  · have htree := hl.tree_exec hq hs
    rw [heq] at hfresh ⊢
    refine ⟨hl.exec hq hfresh, ?_⟩
    rw [show tree (q.exec g.serial).2 = ((tree g.serial).exec q).2 by rw [htree]]
    apply ha.exec
    intro n hn
    rcases hfresh n hn with hsame | hnone
    · left
      rw [htree, hsame]
    · right
      rw [show key n = n from Nat.mod_eq_of_lt (q.drawn_lt hn)] at hnone
      exact ⟨tree_of_none hnone, hl.unreferenced hnone⟩

omit [DecidableEq ι] in
/-- The write that an operation leaves behind a request is to a directory. -/
theorem leaves {p : Prog} (ht : s.task i = .running q left p) {k : ℕ} (hk : p.Leaves k) :
    isfile k = false := by
  obtain ⟨H, R, hst⟩ := (stands_running ht).mp (h.stands i)
  cases p with
  | put id buf next =>
    obtain ⟨id', buf', rest, hnext, rfl⟩ := hk
    rw [isfile_key]
    exact hst.asks.1 id' buf' rest hnext
  | remove id next =>
    obtain ⟨st, id', buf', rest, hnext, rfl⟩ := hk
    rw [isfile_key]
    exact hst.asks.1 st id' buf' rest hnext
  | _ => exact hk.elim

theorem step {ev : Event ι} (hfit : ev.Starts Request.Fit) (hfresh : s.Fresh s₀ ev)
    (hs : s.step ev = some s') :
    ∃ g', Orderly s₀ s' g' ∧ g.Grows Request.Fit s g' := by
  obtain ⟨g', hsim, hgrow⟩ := h.sim.grow hfit hfresh (h.unaliased ev) hs
  obtain ⟨hlinked, hacyclic⟩ := advances h.linked h.acyclic hgrow.advances
  refine ⟨g', ⟨hsim, hlinked, hacyclic, h.short_step hs, h.stands_step hfit hs, ?_⟩, hgrow⟩
  intro j k b hb
  rcases hgrow.pend j k b hb with hold | ⟨q, left, p, ht, -, hleaves⟩
  · exact h.pending j k b hold
  · exact h.leaves ht hleaves

end Orderly

theorem orderly_init (now : ℕ) : Orderly (Store.init now) (clients ι (Store.init now)).init
    ⟨[], (Store.init now).contents, fun _ => none, fun _ => none⟩ where
  sim := Sim.init _ _
  linked := linked_init now
  acyclic := by
    rw [tree_init]
    exact Tree.acyclic_init
  short _ hl := absurd hl List.not_mem_nil
  stands _ := fun _ => List.not_mem_nil
  pending _ _ _ hb := by cases hb

def Conc.Used (s₀ : Store) (s : Conc ι) (ev : Event ι) : Prop :=
  ev.Starts Request.Fit ∧ s.Fresh s₀ ev

instance (s₀ : Store) (s : Conc ι) (ev : Event ι) : Decidable (s.Used s₀ ev) :=
  inferInstanceAs (Decidable (_ ∧ _))

theorem orderly_run {now : ℕ} {evs : List (Event ι)} {s : Conc ι}
    (hc : (clients ι (Store.init now)).Along (Conc.Used (Store.init now))
      (clients ι (Store.init now)).init evs)
    (hrun : (clients ι (Store.init now)).run evs = some s) :
    ∃ g, Orderly (Store.init now) s g := by
  refine hc.invariant (I := fun s => ∃ g, Orderly (Store.init now) s g) ?_
    ⟨_, orderly_init now⟩ hrun
  rintro s ev s' ⟨g, hg⟩ ⟨hfit, hfresh⟩ hs
  obtain ⟨g', hg', -⟩ := hg.step hfit hfresh hs
  exact ⟨g', hg'⟩

end YFS.Fs
