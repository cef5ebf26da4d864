import YFS.Fs.Interleaving

/-! # No lost updates

Concurrent calls that take locks return what they would return one after another, and leave
the same bytes. The locks are those of inums, the extents those of the low 32 bits of inums.
Where two inums share their low 32 bits, their locks do not exclude each other.
-/

namespace YFS.Fs
open YFS.Library YFS.Extent

variable {ι : Type}

def Request.run (now : ℕ → ℕ) (q : Request) (s : Store) : Ending × Store :=
  q.call.prog.run (Env.reliable now q.random) s

theorem serially_run (now : ℕ → ℕ) (qs : List Request) (s : Store) :
    serially Request.exec qs s.contents =
      ((serially (Request.run now) qs s).1, (serially (Request.run now) qs s).2.contents) :=
  serially_map (fun q s => (q.call.prog.outcome_reliable now q.random s).symm) qs s

section Ended
variable {c₀ : Contents} {s : Conc ι} {g : Ghost ι}
variable (h : Sim c₀ (fun q => q.call.locks = true) s g)
variable (hdone : ∀ i, (s.task i).isRunning = false)

include h hdone

/-- When all calls have ended, nothing is left to write. -/
theorem Sim.serial_eq_contents : g.serial = s.store.contents := by
  funext k
  apply h.settled
  intro i b hb
  have hi := h.stage i
  unfold Stage at hi
  cases ht : s.task i with
  | idle =>
    rw [ht] at hi
    exact nomatch hi.2.1.symm.trans hb
  | running q left p => exact absurd (hdone i) (by rw [ht]; simp [Task.isRunning])
  | ended q e =>
    rw [ht] at hi
    exact nomatch hi.2.1.symm.trans hb

/-- When all calls have ended, the log holds exactly the calls made, with their results. -/
theorem Sim.mem_log_iff (i : ι) (q : Request) (e : Ending) :
    (i, q, e) ∈ g.log ↔ s.task i = .ended q e := by
  have hi := h.stage i
  unfold Stage at hi
  constructor
  · intro hmem
    have hlogged : g.Logged i := List.mem_map.mpr ⟨_, hmem, rfl⟩
    cases ht : s.task i with
    | idle =>
      rw [ht] at hi
      exact absurd hlogged hi.1
    | running q left p => exact absurd (hdone i) (by rw [ht]; simp [Task.isRunning])
    | ended q' e' =>
      rw [ht] at hi
      rcases hi.2.2.2 with hmem' | ha
      · cases List.inj_on_of_nodup_map h.nodup hmem hmem' rfl
        rfl
      · exact absurd hlogged ha.unlogged
  · intro ht
    rw [ht] at hi
    obtain ⟨hl, -, -, hmem | ha⟩ := hi
    · exact hmem
    · exact nomatch ha.unlocked.symm.trans hl

end Ended

variable [DecidableEq ι]

/-- In every run of calls that take locks, in which inums are drawn fresh and a lock is acquired
only while no lock of another inum with the same low 32 bits is held: when all calls have ended,
there is an order of them in which, run one after another, they return the same and leave the
same bytes. -/
theorem serializable {s₀ : Store} {evs : List (Event ι)} {s : Conc ι}
    (hc : (clients ι s₀).Along
      (fun s ev => ev.Starts (fun q => q.call.locks = true) ∧ s.Fresh s₀ ev ∧ s.Unaliased ev)
      (clients ι s₀).init evs)
    (hrun : (clients ι s₀).run evs = some s) (hdone : ∀ i, (s.task i).isRunning = false)
    (now : ℕ → ℕ) :
    ∃ order : List (ι × Request × Ending), (order.map Prod.fst).Nodup ∧
      (∀ i q e, (i, q, e) ∈ order ↔ s.task i = .ended q e) ∧
      ∃ t, serially (Request.run now) (order.map fun o => o.2.1) s₀ =
          (order.map fun o => o.2.2, t) ∧
        t.contents = s.store.contents := by
  obtain ⟨g, hg, -⟩ := Sim.run (I := fun _ => True) (fun _ _ _ _ => trivial) trivial hc hrun
  obtain ⟨hres, hcont⟩ := Prod.mk.inj ((serially_run now _ s₀).symm.trans hg.serial)
  refine ⟨g.log, hg.nodup, hg.mem_log_iff hdone, _, Prod.ext hres rfl, ?_⟩
  rw [← hg.serial_eq_contents hdone]
  exact hcont

/-- The root directory is given an entry for itself, "self:1". The removal of that entry gets the
lock of the directory a second time, removes the directory and puts it back. -/
example : ((clients (Fin 2) (Store.init 0)).run
    ([.start 0 ⟨.write 1 [115, 101, 108, 102, 58, 49, 10] 0, []⟩] ++ List.replicate 4 (.next 0 0) ++
      [.start 1 ⟨.remove 1 [115, 101, 108, 102], []⟩] ++ List.replicate 8 (.next 1 0))).any
    (fun s => s.removed = [1] ∧ s.held = [] ∧ s.store.contents 1 = some [10] ∧
      ∀ i, (s.task i).isRunning = false) = true := by
  decide +kernel

/-- The requests of two clients that create "a" and "b"; the second names the parent directory
by `parent`. -/
def creations (parent : ℕ) (i : Fin 2) : Request :=
  if i = 0 then ⟨.create 1 [97], [5]⟩ else ⟨.create parent [98], [6]⟩

def oneByOne (parent : ℕ) : List (Event (Fin 2)) :=
  [.start 0 (creations parent 0), .start 1 (creations parent 1)] ++
    List.replicate 7 (.next 0 0) ++ List.replicate 7 (.next 1 0)

/-- "a" and "b" are created in the root directory, the second call waiting for the lock. -/
theorem serializable_two_creations :
    (clients (Fin 2) (Store.init 0)).Along
      (fun s ev => ev.Starts (fun q => q.call.locks = true) ∧ s.Fresh (Store.init 0) ev ∧
        s.Unaliased ev) (clients (Fin 2) (Store.init 0)).init (oneByOne 1) ∧
    ∃ s, (clients (Fin 2) (Store.init 0)).run (oneByOne 1) = some s ∧
      (∀ i, (s.task i).isRunning = false) ∧
      ∃ order : List (Fin 2 × Request × Ending), (order.map Prod.fst).Nodup ∧
        (∀ i q e, (i, q, e) ∈ order ↔ s.task i = .ended q e) ∧
        ∃ t, serially (Request.run fun _ => 0) (order.map fun o => o.2.1) (Store.init 0) =
            (order.map fun o => o.2.2, t) ∧
          t.contents = s.store.contents := by
  have hc : (clients (Fin 2) (Store.init 0)).Along
      (fun s ev => ev.Starts (fun q => q.call.locks = true) ∧ s.Fresh (Store.init 0) ev ∧
        s.Unaliased ev) (clients (Fin 2) (Store.init 0)).init (oneByOne 1) := by decide +kernel
  obtain ⟨s, hrun, hdone⟩ := Machine.exists_run_of_any (m := clients (Fin 2) (Store.init 0))
    (p := fun s => ∀ i, (s.task i).isRunning = false) (oneByOne 1) (by decide +kernel)
  exact ⟨hc, s, hrun, hdone, serializable hc hrun hdone _⟩

def overlapping (parent : ℕ) : List (Event (Fin 2)) :=
  [.start 0 (creations parent 0), .start 1 (creations parent 1), .next 0 0, .next 1 0, .next 0 0,
    .next 1 0] ++ List.replicate 5 (.next 0 0) ++ List.replicate 5 (.next 1 0)

/-- The second client names the root directory by an inum with the same low 32 bits. Both calls
return `OK`, but only "b" is in the directory; in either order, one after the other, both are. -/
theorem lost_creation :
    (clients (Fin 2) (Store.init 0)).Along
      (fun s ev => ev.Starts (fun q => q.call.locks = true) ∧ s.Fresh (Store.init 0) ev)
      (clients (Fin 2) (Store.init 0)).init (overlapping (2 ^ 32 + 1)) ∧
    ∃ s, (clients (Fin 2) (Store.init 0)).run (overlapping (2 ^ 32 + 1)) = some s ∧
      (∀ i, (s.task i).isRunning = false) ∧
      (s.store.contents 1).map Dir.entries = some [([98], 0x80000006)] ∧
      ∀ order ∈ [[creations (2 ^ 32 + 1) 0, creations (2 ^ 32 + 1) 1],
          [creations (2 ^ 32 + 1) 1, creations (2 ^ 32 + 1) 0]],
        (serially (Request.run fun _ => 0) order (Store.init 0)).2.contents 1 ≠
          s.store.contents 1 := by
  refine ⟨by decide +kernel, Machine.exists_run_of_any _ ?_⟩
  decide +kernel

end YFS.Fs
