import YFS.Fs.Standing

/-! # No deadlock among the operations

`remove` holds the lock of a directory while it waits for the lock of one of its entries; all
other operations hold nothing while they wait. A chain of operations that wait for each other
leads from directories to their entries, and since there are no cycles of directories it ends at
an operation that does not wait.
-/

namespace YFS.Fs
open YFS.Library YFS.Extent YFS.Dir

variable {ι : Type}

def Conc.Waits (s : Conc ι) (i : ι) (lid : ℕ) : Prop :=
  (∃ q left next, s.task i = .running q left (.acquire lid next)) ∧ s.Barred i lid

namespace Orderly
variable {s₀ : Store} {s : Conc ι} {g : Ghost ι} (h : Orderly s₀ s g)
include h

/-- An operation that holds a lock and waits for another: from a directory to an entry of it. -/
theorem refs_of_waits {i : ι} {l lid : ℕ} (hl : (l, i) ∈ s.held) (hw : s.Waits i lid) :
    lid ∈ refs g.serial l := by
  obtain ⟨⟨q, left, next, ht⟩, -⟩ := hw
  obtain ⟨-, hnone | ⟨dir, hdir, hmem⟩⟩ := h.asking ht
  · exact absurd hl (hnone l)
  · rwa [(hdir l).mp hl]

/-- If any operation is running, then one is that does not wait. -/
theorem exists_not_waiting {i : ι} (hi : (s.task i).isRunning = true) :
    ∃ j, (s.task j).isRunning = true ∧ ∀ lid, ¬ s.Waits j lid := by
  classical
  by_contra hall
  have hall : ∀ j, (s.task j).isRunning = true → ∃ lid, s.Waits j lid := fun j hj =>
    by_contra fun hno => hall ⟨j, hj, fun lid hw => hno ⟨lid, hw⟩⟩
  obtain ⟨rank, hrank⟩ := h.acyclic
  -- of the locks that are waited for, one with the highest rank
  let waited := (s.held.map Prod.fst).toFinset.filter fun lid => ∃ j, s.Waits j lid
  have hmem (j : ι) (lid : ℕ) (hw : s.Waits j lid) : lid ∈ waited := by
    obtain ⟨x, hx, hlid, -⟩ := hw.2
    exact Finset.mem_filter.mpr ⟨List.mem_toFinset.mpr (List.mem_map.mpr ⟨x, hx, hlid⟩), j, hw⟩
  obtain ⟨lid₀, hw₀⟩ := hall i hi
  obtain ⟨lid, hlid, hmax⟩ := Finset.exists_max_image waited rank ⟨lid₀, hmem i lid₀ hw₀⟩
  obtain ⟨⟨l, j⟩, hheld, rfl⟩ := List.mem_map.mp (List.mem_toFinset.mp (Finset.mem_filter.mp hlid).1)
  obtain ⟨lid', hw'⟩ := hall j (h.isRunning_of_held hheld)
  obtain ⟨es, hes, e, he, rfl⟩ := mem_refs (h.refs_of_waits hheld hw')
  exact absurd (hrank l es hes e he) (Nat.not_lt.mpr (hmax e.2 (hmem j e.2 hw')))

variable [DecidableEq ι]

/-- The next step of an operation that does not wait, unless it is to draw an inum and has no
random value for it. -/
theorem advances_of_not_waiting {i : ι} {q : Request} {left : List Random} {p : Prog}
    (ht : s.task i = .running q left p) (hw : ∀ lid, ¬ s.Waits i lid)
    (hdraw : ∀ parent isfile next, p = .newInum parent isfile next →
      newInum parent isfile left ≠ none) (now : ℕ) : ∃ s', s.step (.next i now) = some s' := by
  obtain ⟨H, R, hst⟩ := (stands_running ht).mp (h.stands i)
  simp only [Conc.step, ht]
  cases p with
  | throw => exact hst.asks.elim
  | acquire lid next =>
    rw [Conc.advance, if_neg fun hl => hw lid ⟨⟨q, left, next, ht⟩, hl⟩]
    exact ⟨_, rfl⟩
  | putbuf id off buf next =>
    rw [Conc.advance]
    cases hc : s.store.contents (key id) with
    | none =>
      rw [Store.putbuf_of_none hc]
      exact ⟨_, rfl⟩
    | some b =>
      obtain ⟨s₁, -, hp⟩ := Store.putbuf_of_some hc (Files.written_eq hst.asks.1 b) now
      rw [hp]
      exact ⟨_, rfl⟩
  | newInum parent isfile next =>
    rw [Conc.advance]
    cases hn : newInum parent isfile left with
    | none => exact absurd hn (hdraw parent isfile next rfl)
    | some r => exact ⟨_, rfl⟩
  | _ => exact ⟨_, rfl⟩

end Orderly

def Conc.Drawing (s : Conc ι) (i : ι) : Prop :=
  ∃ q left parent isfile next, s.task i = .running q left (.newInum parent isfile next) ∧
    newInum parent isfile left = none

variable [DecidableEq ι]

/-- In every state reached by fit requests with inums drawn fresh: if an operation has not ended
then one of those that have not can take its next step, or is drawing an inum. -/
theorem no_deadlock {now : ℕ} {evs : List (Event ι)} {s : Conc ι}
    (hc : (clients ι (Store.init now)).Along (Conc.Used (Store.init now))
      (clients ι (Store.init now)).init evs)
    (hrun : (clients ι (Store.init now)).run evs = some s) {i : ι}
    (hi : (s.task i).isRunning = true) :
    ∃ j, (s.task j).isRunning = true ∧
      (s.Drawing j ∨ ∀ t, ∃ s', s.step (.next j t) = some s') := by
  obtain ⟨g, hg⟩ := orderly_run hc hrun
  obtain ⟨j, hj, hw⟩ := hg.exists_not_waiting hi
  refine ⟨j, hj, or_iff_not_imp_left.mpr fun hdraw => ?_⟩
  cases ht : s.task j with
  | idle => rw [ht] at hj; cases hj
  | ended q e => rw [ht] at hj; cases hj
  | running q left p =>
    apply hg.advances_of_not_waiting ht hw
    rintro parent isfile next rfl hn
    exact hdraw ⟨q, left, parent, isfile, next, ht, hn⟩

def removalWaits : List (Event (Fin 3)) :=
  [.start 0 ⟨.create 1 [97], [5]⟩] ++ List.replicate 7 (.next 0 0) ++
    [.start 1 ⟨.remove 1 [97], []⟩, .start 2 ⟨.write 0x80000005 [1, 2] 0, []⟩, .next 2 0,
      .next 1 0, .next 1 0]

/-- The removal waits for the lock of the file, the write does not wait. -/
theorem no_deadlock_removal :
    (clients (Fin 3) (Store.init 0)).Along (Conc.Used (Store.init 0))
      (clients (Fin 3) (Store.init 0)).init removalWaits ∧
    ∃ s, (clients (Fin 3) (Store.init 0)).run removalWaits = some s ∧
      (s.task 1).isRunning = true ∧ s.held = [(1, 1), (0x80000005, 2)] ∧
      ∃ j, (s.task j).isRunning = true ∧
        (s.Drawing j ∨ ∀ t, ∃ s', s.step (.next j t) = some s') := by
  have hc : (clients (Fin 3) (Store.init 0)).Along (Conc.Used (Store.init 0))
      (clients (Fin 3) (Store.init 0)).init removalWaits := by decide +kernel
  obtain ⟨s, hrun, hi, hheld⟩ := Machine.exists_run_of_any (m := clients (Fin 3) (Store.init 0))
    (p := fun s => (s.task 1).isRunning = true ∧ s.held = [(1, 1), (0x80000005, 2)])
    removalWaits (by decide +kernel)
  exact ⟨hc, s, hrun, hi, hheld, no_deadlock hc hrun hi⟩

end YFS.Fs
