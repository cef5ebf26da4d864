import YFS.Fs.Standing
import YFS.Lock.MutualExclusion
import YFS.Lock.Threads

/-! # The operations over the lock service

The operations of the clients together with the caching lock clients and the lock server they
run on: `acquire` and `release` are calls of the operation's thread into its lock client, and
the lock service takes its own steps in between. The operations do not notice: what they do is
a run of the clients over ideal locks.
-/

namespace YFS.Fs
open YFS.Library YFS.Extent

variable {ι κ τ ω : Type} [DecidableEq ι] [DecidableEq κ] [DecidableEq τ] [DecidableEq ω]

/-- The operations `ι` over the lock clients `κ` with their threads `τ`. `asked` are the operations
inside `lc->acquire`, `current` is the operation that a thread runs. -/
structure Stack (ι κ τ ω : Type) where
  lock : Lock.Sys κ τ ω
  fs : Conc ι
  asked : ι → Bool
  current : κ × τ → Option ι

/-- `acquire` and `acquired` are the call of `lc->acquire` and its return, `release` is a call of
`lc->release`, `request` any other request, `lock` a step of the lock service on its own. -/
inductive StackEvent (ι κ τ ω : Type) where
  | start (i : ι) (q : Request)
  | acquire (i : ι)
  | acquired (i : ι)
  | release (i : ι) (pickThread : Option τ) (pickWorker : Option ω)
  | request (i : ι) (now : ℕ)
  | lock (a : Lock.Action κ τ ω)

def StackEvent.shown : StackEvent ι κ τ ω → Option (Event ι)
  | .start i q => some (.start i q)
  | .acquire _ => none
  | .acquired i => some (.next i 0)
  | .release i _ _ => some (.next i 0)
  | .request i now => some (.next i now)
  | .lock _ => none

def Prog.isLocking : Prog → Bool
  | .acquire _ _ => true
  | .release _ _ => true
  | _ => false

namespace Stack

/-- Operation `i` runs in the thread `home i`, which runs one operation at a time. -/
def step (home : ι → κ × τ) (s : Stack ι κ τ ω) : StackEvent ι κ τ ω → Option (Stack ι κ τ ω)
  | .start i q =>
    if s.current (home i) = none then
      (s.fs.step (.start i q)).map fun fs =>
        { s with fs := fs, current := Function.update s.current (home i) (some i) }
    else none
  | .acquire i =>
    match s.fs.task i with
    | .running _ _ (.acquire lid _) =>
      if s.asked i then none
      else (s.lock.step (.acquire (home i).1 (home i).2 lid)).map fun lock =>
        { s with lock := lock, asked := Function.update s.asked i true }
    | _ => none
  | .acquired i =>
    match s.fs.task i with
    | .running q left (.acquire lid next) =>
      if s.asked i ∧ (s.lock.client (home i).1).thread (home i).2 = .idle then
        some { s with
          fs := { s.fs.resume i q left (next 0) with held := s.fs.held.insert (lid, i) }
          asked := Function.update s.asked i false }
      else none
    | _ => none
  | .release i pickThread pickWorker =>
    match s.fs.task i with
    | .running q left (.release lid next) =>
      (s.lock.step (.release (home i).1 (home i).2 lid pickThread pickWorker)).map fun lock =>
        { s with
          lock := lock
          fs := { s.fs.resume i q left next with held := s.fs.held.filter (· ≠ (lid, i)) } }
    | _ => none
  | .request i now =>
    match s.fs.task i with
    | .running q left p =>
      if p.isLocking then none
      else (s.fs.advance i q left now p).map fun fs =>
        { s with
          fs := fs
          current := if (fs.task i).isRunning then s.current
            else Function.update s.current (home i) none }
    | _ => none
  | .lock a => if a.internal then (s.lock.step a).map fun lock => { s with lock := lock } else none

/-- The RPCs of the lock service are reliable, and no grant of the lock server passes waiting
clients. -/
def Reliable (s : Stack ι κ τ ω) : StackEvent ι κ τ ω → Prop
  | .lock a => a.reliable = true ∧ s.lock.barges a = false
  | _ => True

instance (s : Stack ι κ τ ω) : (ev : StackEvent ι κ τ ω) → Decidable (s.Reliable ev)
  | .lock _ => inferInstanceAs (Decidable (_ ∧ _))
  | .start _ _ | .acquire _ | .acquired _ | .release _ _ _ | .request _ _ => isTrue trivial

def Used (s₀ : Store) (s : Stack ι κ τ ω) (ev : StackEvent ι κ τ ω) : Prop :=
  (∀ e ∈ ev.shown, s.fs.Used s₀ e) ∧ s.Reliable ev

instance (s₀ : Store) (s : Stack ι κ τ ω) (ev : StackEvent ι κ τ ω) : Decidable (s.Used s₀ ev) :=
  inferInstanceAs (Decidable (_ ∧ _))

end Stack

def overLocks (home : ι → κ × τ) (ω : Type) [DecidableEq ω] (s₀ : Store) :
    Machine (Stack ι κ τ ω) (StackEvent ι κ τ ω) where
  init := ⟨.init, (clients ι s₀).init, fun _ => false, fun _ => none⟩
  step := Stack.step home

/-- Only the requests to the lock client change what is held. -/
theorem Conc.advance_held {s s' : Conc ι} {i : ι} {q : Request} {left : List Random} {now : ℕ}
    {p : Prog} (hp : p.isLocking = false) (hs : s.advance i q left now p = some s') :
    s'.held = s.held := by
  cases p with
  | acquire lid next => cases hp
  | release lid next => cases hp
  | done r =>
    cases hs
    rfl
  | throw =>
    cases hs
    rfl
  | get id next =>
    obtain ⟨-, hm⟩ := Conc.advance_get hs
    split at hm <;> exact hm.held
  | put id buf next => exact (Conc.advance_put hs).2.held
  | remove id next => exact (Conc.advance_remove hs).2.held
  | getbuf id askSize off next =>
    obtain ⟨-, st, b, hm⟩ := Conc.advance_getbuf hs
    exact hm.held
  | putbuf id off buf next =>
    obtain ⟨-, ⟨-, hm⟩ | ⟨b, b', -, -, hm⟩⟩ := Conc.advance_putbuf hs
    · exact hm.held
    · exact hm.held
  | newInum parent isfile next =>
    rw [Conc.advance] at hs
    split at hs
    · cases hs
    · cases hs
      rfl

namespace Stack

/-- What joins the operations and the lock service: an operation that holds a lock runs in a
thread that has it, and one inside `acquire` runs in a thread that is, or is back with the lock. -/
structure Joined (home : ι → κ × τ) (s₀ : Store) (s : Stack ι κ τ ω) : Prop where
  orderly : ∃ g, Orderly s₀ s.fs g
  refines : s.lock.Refines false
  current : ∀ i, (s.fs.task i).isRunning = true → s.current (home i) = some i
  asked : ∀ i, s.asked i = true → ∃ q left lid next,
    s.fs.task i = .running q left (.acquire lid next) ∧
      (s.lock.calls (home i).1).Asked (home i).2 lid
  holds : ∀ l i, (l, i) ∈ s.fs.held → (s.lock.calls (home i).1).held (home i).2 l = true

theorem joined_init (home : ι → κ × τ) (now : ℕ) :
    Joined home (Store.init now) (overLocks home ω (Store.init now)).init where
  orderly := ⟨_, orderly_init now⟩
  refines := Lock.Sys.refines_init
  current _ hi := by cases hi
  asked _ hi := by cases hi
  holds _ _ hl := by cases hl

namespace Joined
variable {home : ι → κ × τ} {s₀ : Store} {s s' : Stack ι κ τ ω} {i j : ι} {q : Request}
variable {left : List Random} (h : Joined home s₀ s)
include h

section
omit [DecidableEq ι]

theorem eq_of_home (hi : (s.fs.task i).isRunning = true) (hj : (s.fs.task j).isRunning = true)
    (hij : home i = home j) : i = j := by
  have hci := h.current i hi
  rw [hij, h.current j hj, Option.some.injEq] at hci
  exact hci.symm

theorem home_ne (hi : (s.fs.task i).isRunning = true) (hj : (s.fs.task j).isRunning = true)
    (hji : j ≠ i) : home j ≠ home i :=
  fun hhome => hji (h.eq_of_home hj hi hhome)

theorem isRunning_of_asked (hi : s.asked i = true) : (s.fs.task i).isRunning = true := by
  obtain ⟨q, left, lid, next, ht, -⟩ := h.asked i hi
  rw [ht]
  rfl

theorem free {lid : ℕ} {next : ℤ → Prog} (ht : s.fs.task i = .running q left (.acquire lid next))
    (hasked : s.asked i = true) (hidle : (s.lock.client (home i).1).thread (home i).2 = .idle) :
    (s.lock.calls (home i).1).held (home i).2 lid = true ∧ ¬ s.fs.Barred i lid := by
  obtain ⟨q', left', lid', next', ht', hpc⟩ := h.asked i hasked
  rw [ht] at ht'
  cases ht'
  have hheld : (s.lock.calls (home i).1).held (home i).2 lid = true := by
    rcases hpc with hin | ⟨-, hheld⟩
    · simp [Lock.Sys.calls, Lock.Client.calls, hidle, Lock.ThreadPc.lock] at hin
    · exact hheld
  refine ⟨hheld, ?_⟩
  rintro ⟨⟨l, j⟩, hl, rfl, hji⟩
  obtain ⟨g, hg⟩ := h.orderly
  -- the lock service gives the lock to one thread only, and the thread runs one operation
  have hhome : home j = home i := h.refines.exclusive (h.holds l j hl) hheld
  exact hji (h.eq_of_home (hg.isRunning_of_held hl) (by rw [ht]; rfl) hhome)

end

/-- The step that the operations over ideal locks take. -/
theorem shown {ev : StackEvent ι κ τ ω} {e : Event ι} (hs : s.step home ev = some s')
    (he : ev.shown = some e) : s.fs.step e = some s'.fs := by
  cases ev with
  | acquire i => cases he
  | lock a => cases he
  | start i q =>
    cases he
    simp only [step] at hs
    split at hs
    · obtain ⟨fs, hfs, rfl⟩ := Option.map_eq_some_iff.mp hs
      exact hfs
    · cases hs
  | acquired i =>
    cases he
    simp only [step] at hs
    split at hs
    · rename_i q left lid next ht
      split at hs
      · rename_i hguard
        cases hs
        simp only [Conc.step, ht]
        exact if_neg (h.free ht hguard.1 hguard.2).2
      · cases hs
    · cases hs
  | release i pt pw =>
    cases he
    simp only [step] at hs
    split at hs
    · rename_i q left lid next ht
      obtain ⟨lock, -, rfl⟩ := Option.map_eq_some_iff.mp hs
      simp only [Conc.step, ht]
      rfl
    · cases hs
  | request i now =>
    cases he
    simp only [step] at hs
    split at hs
    · rename_i q left p ht
      split at hs
      · cases hs
      · obtain ⟨fs, hfs, rfl⟩ := Option.map_eq_some_iff.mp hs
        simp only [Conc.step, ht]
        exact hfs
    · cases hs

omit h in
theorem hidden {ev : StackEvent ι κ τ ω} (hs : s.step home ev = some s')
    (he : ev.shown = none) : s'.fs = s.fs := by
  cases ev with
  | acquire i =>
    simp only [step] at hs
    split at hs
    · split at hs
      · cases hs
      · obtain ⟨lock, -, rfl⟩ := Option.map_eq_some_iff.mp hs
        rfl
    · cases hs
  | lock a =>
    simp only [step] at hs
    split at hs
    · obtain ⟨lock, -, rfl⟩ := Option.map_eq_some_iff.mp hs
      rfl
    · cases hs
  | _ => cases he

theorem orderly_step {ev : StackEvent ι κ τ ω} (hu : s.Used s₀ ev) (hs : s.step home ev = some s') :
    ∃ g, Orderly s₀ s'.fs g := by
  cases he : ev.shown with
  | none =>
    rw [hidden hs he]
    exact h.orderly
  | some e =>
    obtain ⟨g, hg⟩ := h.orderly
    obtain ⟨hfit, hfresh⟩ := hu.1 e he
    obtain ⟨g', hg', -⟩ := hg.step hfit hfresh (h.shown hs he)
    exact ⟨g', hg'⟩

theorem start (horderly : ∃ g, Orderly s₀ s'.fs g) (hs : s.step home (.start i q) = some s') :
    Joined home s₀ s' := by
  simp only [step] at hs
  split at hs
  · rename_i hfree
    obtain ⟨fs, hfs, rfl⟩ := Option.map_eq_some_iff.mp hs
    simp only [Conc.step] at hfs
    split at hfs
    · rename_i ht
      cases hfs
      have hother {j : ι} (hj : (s.fs.task j).isRunning = true) : j ≠ i := by
        rintro rfl
        rw [ht] at hj
        cases hj
      refine ⟨horderly, h.refines, fun j hj => ?_, fun j hj => ?_, h.holds⟩
      · by_cases hji : j = i
        · subst hji
          exact Function.update_self ..
        · have hj : (s.fs.task j).isRunning = true := by simpa [Conc.resume, hji] using hj
          have hcur := h.current j hj
          have hhome : home j ≠ home i := by
            intro heq
            rw [heq, hfree] at hcur
            cases hcur
          exact (Function.update_of_ne hhome ..).trans hcur
      · obtain ⟨q', left, lid, next, ht', hpc⟩ := h.asked j hj
        refine ⟨q', left, lid, next, ?_, hpc⟩
        exact (Function.update_of_ne (hother (h.isRunning_of_asked hj)) ..).trans ht'
    · cases hfs
  · cases hs

theorem acquire (hs : s.step home (.acquire i) = some s') : Joined home s₀ s' := by
  simp only [step] at hs
  split at hs
  · rename_i q left lid next ht
    split at hs
    · cases hs
    · obtain ⟨lock, hlock, rfl⟩ := Option.map_eq_some_iff.mp hs
      have hrefines := h.refines.step (a := .acquire (home i).1 (home i).2 lid) trivial hlock
      refine ⟨h.orderly, hrefines, h.current, fun j hj => ?_, fun l j hl => ?_⟩
      · by_cases hji : j = i
        · subst hji
          exact ⟨q, left, lid, next, ht, Lock.Sys.asked_of_acquire hlock⟩
        · have hj : s.asked j = true := by simpa [hji] using hj
          obtain ⟨q', left', lid', next', ht', hpc⟩ := h.asked j hj
          have hhome := h.home_ne (i := i) (by rw [ht]; rfl) (h.isRunning_of_asked hj) hji
          obtain ⟨hin, hheld⟩ := Lock.Sys.calls_of_acquire_ne hlock hhome
          refine ⟨q', left', lid', next', ht', ?_⟩
          rwa [Lock.Calls.Asked, hin, hheld]
      · exact Lock.Sys.held_of_acquire hlock (h.holds l j hl)
  · cases hs

theorem acquired (horderly : ∃ g, Orderly s₀ s'.fs g)
    (hs : s.step home (.acquired i) = some s') : Joined home s₀ s' := by
  simp only [step] at hs
  split at hs
  · rename_i q left lid next ht
    split at hs
    · rename_i hguard
      cases hs
      refine ⟨horderly, h.refines, fun j hj => ?_, fun j hj => ?_, fun l j hl => ?_⟩
      · apply h.current
        by_cases hji : j = i
        · rw [hji, ht]
          rfl
        · simpa [Conc.resume, hji] using hj
      · have hji : j ≠ i := by
          rintro rfl
          simp at hj
        obtain ⟨q', left', lid', next', ht', hpc⟩ := h.asked j (by simpa [hji] using hj)
        exact ⟨q', left', lid', next', (Function.update_of_ne hji ..).trans ht', hpc⟩
      · rcases List.mem_insert_iff.mp hl with heq | hl
        · cases heq
          exact (h.free ht hguard.1 hguard.2).1
        · exact h.holds l j hl
    · cases hs
  · cases hs

theorem release {pt : Option τ} {pw : Option ω} (horderly : ∃ g, Orderly s₀ s'.fs g)
    (hs : s.step home (.release i pt pw) = some s') : Joined home s₀ s' := by
  simp only [step] at hs
  split at hs
  · rename_i q left lid next ht
    have hi : (s.fs.task i).isRunning = true := by
      rw [ht]
      rfl
    obtain ⟨lock, hlock, rfl⟩ := Option.map_eq_some_iff.mp hs
    obtain ⟨g, hg⟩ := h.orderly
    have hrefines := h.refines.step (a := .release (home i).1 (home i).2 lid pt pw) trivial hlock
    refine ⟨horderly, hrefines, fun j hj => ?_, fun j hj => ?_, fun l j hl => ?_⟩
    · apply h.current
      by_cases hji : j = i
      · rw [hji]
        exact hi
      · simpa [Conc.resume, hji] using hj
    · obtain ⟨q', left', lid', next', ht', hpc⟩ := h.asked j hj
      have hji : j ≠ i := by
        rintro rfl
        rw [ht] at ht'
        cases ht'
      have hhome := h.home_ne hi (h.isRunning_of_asked hj) hji
      refine ⟨q', left', lid', next', (Function.update_of_ne hji ..).trans ht', ?_⟩
      rw [Lock.Calls.Asked, Lock.Sys.inside_of_release hlock, Lock.Sys.held_of_release hlock]
      · exact hpc
      · exact fun heq => absurd heq hhome
    · obtain ⟨hmem, hne⟩ := List.mem_filter.mp hl
      rw [Lock.Sys.held_of_release hlock]
      · exact h.holds l j hmem
      · rintro hhome rfl
        obtain rfl := h.eq_of_home (hg.isRunning_of_held hmem) hi hhome
        simp at hne
  · cases hs

theorem request {now : ℕ} (horderly : ∃ g, Orderly s₀ s'.fs g)
    (hs : s.step home (.request i now) = some s') : Joined home s₀ s' := by
  simp only [step] at hs
  split at hs
  · rename_i q left p ht
    split at hs
    · cases hs
    · rename_i hp
      have hi : (s.fs.task i).isRunning = true := by
        rw [ht]
        rfl
      obtain ⟨fs, hfs, rfl⟩ := Option.map_eq_some_iff.mp hs
      refine ⟨horderly, h.refines, fun j hj => ?_, fun j hj => ?_, fun l j hl => ?_⟩
      · by_cases hji : j = i
        · subst hji
          exact (congrFun (if_pos hj) _).trans (h.current j hi)
        · rw [(Conc.advance_others hji hfs).1] at hj
          dsimp only
          split
          · exact h.current j hj
          · exact (Function.update_of_ne (h.home_ne hi hj hji) ..).trans (h.current j hj)
      · obtain ⟨q', left', lid', next', ht', hpc⟩ := h.asked j hj
        have hji : j ≠ i := by
          rintro rfl
          rw [ht] at ht'
          cases ht'
          simp [Prog.isLocking] at hp
        exact ⟨q', left', lid', next', (Conc.advance_others hji hfs).1.trans ht', hpc⟩
      · rw [Conc.advance_held (Bool.not_eq_true _ ▸ hp) hfs] at hl
        exact h.holds l j hl
  · cases hs

theorem lock {a : Lock.Action κ τ ω} (ha : s.lock.Allowed false a)
    (hs : s.step home (.lock a) = some s') : Joined home s₀ s' := by
  simp only [step] at hs
  split at hs
  · rename_i hint
    obtain ⟨lock, hlock, rfl⟩ := Option.map_eq_some_iff.mp hs
    refine ⟨h.orderly, h.refines.step ha hlock, h.current, fun j hj => ?_, fun l j hl => ?_⟩
    · obtain ⟨q, left, lid, next, ht, hpc⟩ := h.asked j hj
      exact ⟨q, left, lid, next, ht, Lock.Sys.asked_of_internal hint hlock hpc⟩
    · exact Lock.Sys.held_of_internal hint hlock (h.holds l j hl)
  · cases hs

theorem next {ev : StackEvent ι κ τ ω} (hu : s.Used s₀ ev) (hs : s.step home ev = some s') :
    Joined home s₀ s' := by
  have horderly := h.orderly_step hu hs
  cases ev with
  | start i q => exact h.start horderly hs
  | acquire i => exact h.acquire hs
  | acquired i => exact h.acquired horderly hs
  | release i pt pw => exact h.release horderly hs
  | request i now => exact h.request horderly hs
  | lock a => exact h.lock (Lock.Sys.allowed_of_not_barges hu.2.1 hu.2.2) hs

end Joined
end Stack

/-- Over the lock service the operations run as over ideal locks: what a run shows of them is a
run of the clients, used as they should be, that leaves the operations and the extents in the
same state. -/
theorem overLocks_refines (home : ι → κ × τ) {now : ℕ} {evs : List (StackEvent ι κ τ ω)}
    {s : Stack ι κ τ ω}
    (hc : (overLocks home ω (Store.init now)).Along (Stack.Used (Store.init now))
      (overLocks home ω (Store.init now)).init evs)
    (hrun : (overLocks home ω (Store.init now)).run evs = some s) :
    (clients ι (Store.init now)).Along (Conc.Used (Store.init now))
        (clients ι (Store.init now)).init (evs.filterMap StackEvent.shown) ∧
      (clients ι (Store.init now)).run (evs.filterMap StackEvent.shown) = some s.fs := by
  refine hc.simulation (I := Stack.Joined home (Store.init now)) Stack.fs StackEvent.shown
    ?_ ?_ ?_ (Stack.joined_init home now) hrun
  · exact fun s ev s' hj hu hs => hj.next hu hs
  · exact fun s ev s' e hj hu hs he => ⟨hu.1 e he, hj.shown hs he⟩
  · exact fun s ev s' hj hu hs he => Stack.Joined.hidden hs he

/-- Client 0 creates "a" in the root; client 1 asks for the lock of the root in the meantime, is
handed it over and finds "a". -/
def handedOver : List (StackEvent (Fin 2) (Fin 2) (Fin 1) (Fin 1)) :=
  [.start 0 ⟨.create 1 [97], [5]⟩, .acquire 0, .lock (.acquireHandle 0 0),
    .lock (.acquireReturn 0 0), .acquired 0, .request 0 0, .request 0 0, .request 0 0,
    .start 1 ⟨.lookup 1 [97], []⟩, .acquire 1, .lock (.acquireHandle 1 0),
    .lock (.acquireReturn 1 0), .lock .revoker, .lock (.takeJob 0), .lock (.callOwner 0),
    .lock (.revokeHandle 0), .request 0 0, .release 0 none (some 0), .request 0 0,
    .lock (.revokeWake 0 0), .lock (.revokeFinish 0), .lock (.releaser 0),
    .lock (.releaserTake 0 0), .lock (.releaserRpc 0 0), .lock (.releaseHandle 0 0),
    .lock .retryer, .lock (.takeJob 0), .lock (.callOwner 0), .lock (.retryHandle 0 (some 0)),
    .lock (.acquireWake 1 0), .acquired 1, .request 1 0, .release 1 none none, .request 1 0]

theorem overLocks_refines_handed_over :
    (overLocks (fun i : Fin 2 => (i, (0 : Fin 1))) (Fin 1) (Store.init 0)).Along
      (Stack.Used (Store.init 0))
      (overLocks (fun i : Fin 2 => (i, (0 : Fin 1))) (Fin 1) (Store.init 0)).init handedOver ∧
    ∃ s, (overLocks (fun i : Fin 2 => (i, (0 : Fin 1))) (Fin 1) (Store.init 0)).run handedOver =
        some s ∧
      (∀ i, (s.fs.task i).isRunning = false) ∧
      (clients (Fin 2) (Store.init 0)).Along (Conc.Used (Store.init 0))
        (clients (Fin 2) (Store.init 0)).init (handedOver.filterMap StackEvent.shown) ∧
      (clients (Fin 2) (Store.init 0)).run (handedOver.filterMap StackEvent.shown) =
        some s.fs := by
  have hc : (overLocks (fun i : Fin 2 => (i, (0 : Fin 1))) (Fin 1) (Store.init 0)).Along
      (Stack.Used (Store.init 0))
      (overLocks (fun i : Fin 2 => (i, (0 : Fin 1))) (Fin 1) (Store.init 0)).init handedOver := by
    decide +kernel
  obtain ⟨s, hrun, hdone⟩ := Machine.exists_run_of_any
    (m := overLocks (fun i : Fin 2 => (i, (0 : Fin 1))) (Fin 1) (Store.init 0))
    (p := fun s => ∀ i, (s.fs.task i).isRunning = false) handedOver (by decide +kernel)
  exact ⟨hc, s, hrun, hdone, overLocks_refines _ hc hrun⟩

end YFS.Fs
