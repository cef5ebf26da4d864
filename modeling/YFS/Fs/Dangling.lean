import YFS.Fs.Removed

/-! # No dangling entries

Between the two RPCs of `create` and of `remove` the directory and the store do not fit, but
then the directory's lock is held. The serial store is linked at all times; a directory whose
lock is free is the same in the real store.
-/

namespace YFS.Fs
open YFS.Library YFS.Extent YFS.Dir

variable {ι : Type}

/-- Directory `dir` has the text `text`, and nobody holds a lock of an inum that names it. -/
def Conc.Idle (s : Conc ι) (dir : ℕ) (text : Bytes) : Prop :=
  isfile dir = false ∧ s.store.contents dir = some text ∧ ∀ i, ¬ s.Covers i dir

/-- The directories whose lock is free hold only entry lines and blank lines, their entries refer
to extents that are stored, and no inum is referred to twice; no extent removed is stored. -/
structure Conc.Sound (s : Conc ι) : Prop where
  layout : ∀ dir text, s.Idle dir text → ∃ d, text = render d
  present : ∀ dir text, s.Idle dir text → ∀ e ∈ entries text, s.store.contents (key e.2) ≠ none
  once : ∀ dir text, s.Idle dir text → ((entries text).map Prod.snd).Nodup
  apart : ∀ dir dir' text text', dir ≠ dir' → s.Idle dir text → s.Idle dir' text' →
    ((entries text).map Prod.snd).Disjoint ((entries text').map Prod.snd)
  gone : ∀ k ∈ s.removed, s.store.contents k = none

section Idle
variable {c₀ : Contents} {P : Request → Prop} {s : Conc ι} {g : Ghost ι} (h : Sim c₀ P s g)
include h

theorem Sim.contents_ne_none (hi : Intact s g) {k : ℕ} (hk : g.serial k ≠ none) :
    s.store.contents k ≠ none := by
  by_cases hpend : ∃ i b, g.pend i = some (k, b)
  · obtain ⟨i, b, hb⟩ := hpend
    exact hi.pend i k b hb
  · rwa [← h.settled k fun i b hb => hpend ⟨i, b, hb⟩]

theorem Sim.serial_of_idle {dir : ℕ} {text : Bytes} (hi : s.Idle dir text) :
    g.serial dir = some text := by
  rw [h.settled, hi.2.1]
  exact fun i b hb => hi.2.2 i (h.pend i dir b hb).2.2

theorem Sim.refs_of_idle {dir : ℕ} {text : Bytes} (hi : s.Idle dir text) :
    refs g.serial dir = (entries text).map Prod.snd := by
  rw [refs, if_neg (by rw [hi.1]; decide), h.serial_of_idle hi]
  rfl

/-- What holds of the serial store holds of the directories whose lock is free. -/
theorem Sim.sound (hi : Intact s g) (hlinked : Linked g.serial) : s.Sound where
  layout dir text hidle := hlinked.layout dir text hidle.1 (h.serial_of_idle hidle)
  present dir text hidle e he := by
    have hmem : e.2 ∈ refs g.serial dir := by
      rw [h.refs_of_idle hidle]
      exact List.mem_map_of_mem he
    obtain ⟨hlt, hne⟩ := hlinked.present dir e.2 hmem
    rw [show key e.2 = e.2 from Nat.mod_eq_of_lt hlt]
    exact h.contents_ne_none hi hne
  once dir text hidle := by
    rw [← h.refs_of_idle hidle]
    exact hlinked.nodup dir
  apart dir dir' text text' hne hidle hidle' := by
    rw [← h.refs_of_idle hidle, ← h.refs_of_idle hidle']
    exact hlinked.disjoint dir dir' hne
  gone := hi.gone

end Idle

variable [DecidableEq ι]

/-- In every run of calls on proper arguments in which inums are drawn fresh and a lock is acquired
only while no lock of another inum with the same low 32 bits is held, the directories whose lock is
free are sound. -/
theorem no_dangling {now : ℕ} {evs : List (Event ι)} {s : Conc ι}
    (hc : (clients ι (Store.init now)).Along
      (fun s ev => ev.Starts Request.Proper ∧ s.Fresh (Store.init now) ev ∧ s.Unaliased ev)
      (clients ι (Store.init now)).init evs)
    (hrun : (clients ι (Store.init now)).run evs = some s) : s.Sound := by
  have hinit : Intact (clients ι (Store.init now)).init
      ⟨[], (Store.init now).contents, fun _ => none, fun _ => none⟩ := by
    constructor
    · intro i k b hb
      cases hb
    · exact fun k hk => absurd hk List.not_mem_nil
  have hinv : ∃ g, Sim (Store.init now).contents Request.Proper s g ∧ Linked g.serial ∧
      Intact s g := by
    refine hc.invariant (I := fun s => ∃ g, Sim (Store.init now).contents Request.Proper s g ∧
      Linked g.serial ∧ Intact s g) ?_ ⟨_, Sim.init _ _, linked_init now, hinit⟩ hrun
    rintro s ev s' ⟨g, hg, hlinked, hi⟩ ⟨hP, hfresh, hun⟩ hs
    obtain ⟨g', hg', hgrow⟩ := hg.grow hP hfresh hun hs
    exact ⟨g', hg', hlinked.advances hgrow.advances, hi.step hg hlinked hs hgrow⟩
  obtain ⟨g, hg, hlinked, hi⟩ := hinv
  exact hg.sound hi hlinked

/-- "a" is created in the root directory; then it is removed while "b" is created there by a client
that names the directory by `parent`. -/
def crossing (parent : ℕ) : List (Event (Fin 3)) :=
  [.start 0 ⟨.create 1 [97], [5]⟩] ++ List.replicate 7 (.next 0 0) ++
    [.start 1 ⟨.remove 1 [97], []⟩, .start 2 ⟨.create parent [98], [6]⟩]

/-- With one inum for the directory, the removal and the creation take turns. -/
theorem no_dangling_removed :
    (clients (Fin 3) (Store.init 0)).Along
      (fun s ev => ev.Starts Request.Proper ∧ s.Fresh (Store.init 0) ev ∧ s.Unaliased ev)
      (clients (Fin 3) (Store.init 0)).init
      (crossing 1 ++ List.replicate 8 (.next 1 0) ++ List.replicate 7 (.next 2 0)) ∧
    ∃ s, (clients (Fin 3) (Store.init 0)).run
        (crossing 1 ++ List.replicate 8 (.next 1 0) ++ List.replicate 7 (.next 2 0)) = some s ∧
      s.removed = [0x80000005] ∧ s.Sound := by
  have hc : (clients (Fin 3) (Store.init 0)).Along
      (fun s ev => ev.Starts Request.Proper ∧ s.Fresh (Store.init 0) ev ∧ s.Unaliased ev)
      (clients (Fin 3) (Store.init 0)).init
      (crossing 1 ++ List.replicate 8 (.next 1 0) ++ List.replicate 7 (.next 2 0)) := by
    decide +kernel
  obtain ⟨s, hrun, hremoved⟩ := Machine.exists_run_of_any
    (m := clients (Fin 3) (Store.init 0)) (p := fun s => s.removed = [0x80000005])
    (crossing 1 ++ List.replicate 8 (.next 1 0) ++ List.replicate 7 (.next 2 0)) (by decide +kernel)
  exact ⟨hc, s, hrun, hremoved, no_dangling hc hrun⟩

/-- The second client names the root directory by an inum with the same low 32 bits and reads it
before "a" is removed; what it writes brings the entry back. -/
theorem entry_brought_back :
    (clients (Fin 3) (Store.init 0)).Along
      (fun s ev => ev.Starts Request.Proper ∧ s.Fresh (Store.init 0) ev)
      (clients (Fin 3) (Store.init 0)).init
      (crossing (2 ^ 32 + 1) ++ List.replicate 2 (.next 2 0) ++ List.replicate 8 (.next 1 0) ++
        List.replicate 5 (.next 2 0)) ∧
    ∃ s, (clients (Fin 3) (Store.init 0)).run
        (crossing (2 ^ 32 + 1) ++ List.replicate 2 (.next 2 0) ++ List.replicate 8 (.next 1 0) ++
          List.replicate 5 (.next 2 0)) = some s ∧
      s.held = [] ∧
      (s.store.contents 1).map entries = some [([97], 0x80000005), ([98], 0x80000006)] ∧
      s.store.contents 0x80000005 = none := by
  refine ⟨by decide +kernel, Machine.exists_run_of_any _ ?_⟩
  decide +kernel

end YFS.Fs
