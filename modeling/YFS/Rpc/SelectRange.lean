import YFS.Rpc.Poll

/-! # The range of `select`

`select` looks at the descriptors up to the number it is given, and `wait_ready` gives it
`highfds_ + 1`. `watch_fd` raises `highfds_`; `unwatch_fd` goes through all descriptors anew, but
only when the highest one has lost its last watch. The read end of the wake-up pipe is in `rfds_`
from the beginning.
-/

namespace YFS.Rpc
open YFS.Library

inductive AioCall where
  | watchFd (fd : ℕ) (flag : PollFlag)
  | unwatchFd (fd : ℕ) (flag : PollFlag)
  deriving DecidableEq, Repr

def AioCall.fd : AioCall → ℕ
  | .watchFd fd _ => fd
  | .unwatchFd fd _ => fd

def aio (pipe : ℕ) : Machine SelectAIO AioCall where
  init := ⟨pipe, {pipe}, ∅, pipe⟩
  step a
    | .watchFd fd flag => some (a.watchFd fd flag)
    | .unwatchFd fd flag => some (a.unwatchFd fd flag).2

namespace SelectAIO

def Watched (a : SelectAIO) (fd : ℕ) : Prop := fd ∈ a.rfds ∨ fd ∈ a.wfds

instance (a : SelectAIO) (fd : ℕ) : Decidable (a.Watched fd) :=
  inferInstanceAs (Decidable (_ ∨ _))

/-- `highfds_` is the maximum of the pipe and of all descriptors that are watched. -/
def HighExact (a : SelectAIO) : Prop := IsGreatest {fd | fd = a.pipe ∨ a.Watched fd} a.highfds

/-- The call `select(high+1, &trfds, &twfds, ...)` of `wait_ready` looks at every descriptor that
is watched. -/
def InRange (a : SelectAIO) : Prop := ∀ fd, a.Watched fd → fd < a.highfds + 1

theorem HighExact.inRange {a : SelectAIO} (h : a.HighExact) : a.InRange :=
  fun _ hfd => Nat.lt_succ_of_le (h.2 (Or.inr hfd))

end SelectAIO

/-! ## The scan for the highest descriptor -/

/-- A loop upwards that keeps the last number with `p` ends with the greatest. -/
theorem foldl_range_isGreatest {p : ℕ → Prop} [DecidablePred p] (d : ℕ) {n : ℕ}
    (h : ∃ i < n, p i) :
    IsGreatest {i | i < n ∧ p i}
      ((List.range n).foldl (fun last i => if p i then i else last) d) := by
  induction n with
  | zero =>
    obtain ⟨i, hi, -⟩ := h
    exact absurd hi (Nat.not_lt_zero i)
  | succ n ih =>
    rw [List.range_succ, List.foldl_append, List.foldl_cons, List.foldl_nil]
    by_cases hn : p n
    · rw [if_pos hn]
      exact ⟨⟨Nat.lt_succ_self n, hn⟩, fun i hi => Nat.le_of_lt_succ hi.1⟩
    · rw [if_neg hn]
      have hbelow : ∀ i, i < n + 1 ∧ p i → i < n := by
        rintro i ⟨hi, hp⟩
        refine lt_of_le_of_ne (Nat.le_of_lt_succ hi) ?_
        rintro rfl
        exact hn hp
      obtain ⟨i, hi, hp⟩ := h
      obtain ⟨hmem, hmax⟩ := ih ⟨i, hbelow i ⟨hi, hp⟩, hp⟩
      exact ⟨⟨Nat.lt_succ_of_lt hmem.1, hmem.2⟩, fun j hj => hmax ⟨hbelow j hj, hj.2⟩⟩

namespace SelectAIO
variable {a : SelectAIO} {fd : ℕ} {flag : PollFlag}

theorem newHigh_eq_foldl (a : SelectAIO) :
    a.newHigh = (List.range (a.highfds + 1)).foldl
      (fun newh i => if a.Watched i then i else newh) a.pipe := by
  rw [newHigh]
  congr 1
  funext newh i
  by_cases hr : i ∈ a.rfds
  · have hwatched : a.Watched i := Or.inl hr
    rw [if_pos hr, if_pos hwatched]
  · by_cases hw : i ∈ a.wfds
    · have hwatched : a.Watched i := Or.inr hw
      rw [if_neg hr, if_pos hw, if_pos hwatched]
    · have hnot : ¬ a.Watched i := not_or.mpr ⟨hr, hw⟩
      rw [if_neg hr, if_neg hw, if_neg hnot]

/-- The scan finds the highest descriptor if none is above its range. -/
theorem newHigh_isGreatest (hpipe : a.pipe ∈ a.rfds) (hle : ∀ fd, a.Watched fd → fd ≤ a.highfds) :
    IsGreatest {fd | fd = a.pipe ∨ a.Watched fd} a.newHigh := by
  have hsome : ∃ i < a.highfds + 1, a.Watched i :=
    ⟨a.pipe, Nat.lt_succ_of_le (hle _ (Or.inl hpipe)), Or.inl hpipe⟩
  obtain ⟨hmem, hmax⟩ := foldl_range_isGreatest a.pipe hsome
  rw [← newHigh_eq_foldl] at hmem hmax
  refine ⟨Or.inr hmem.2, ?_⟩
  rintro i (rfl | hi)
  · exact hmax ⟨Nat.lt_succ_of_le (hle _ (Or.inl hpipe)), Or.inl hpipe⟩
  · exact hmax ⟨Nat.lt_succ_of_le (hle i hi), hi⟩

/-! ## The two calls -/

theorem watched_watchFd (i : ℕ) : (a.watchFd fd flag).Watched i ↔ i = fd ∨ a.Watched i := by
  cases flag <;> simp [Watched, watchFd] <;> tauto

theorem watched_clearFd_of_ne {i : ℕ} (hi : i ≠ fd) :
    (a.clearFd fd flag).Watched i ↔ a.Watched i := by
  cases flag <;> simp [Watched, clearFd, hi]

theorem watched_of_clearFd {i : ℕ} (h : (a.clearFd fd flag).Watched i) : a.Watched i := by
  by_cases hi : i = fd
  · subst hi
    cases flag <;> simp [Watched, clearFd] at h ⊢ <;> tauto
  · exact (watched_clearFd_of_ne hi).mp h

/-- What the two calls keep up: the pipe is watched, and `highfds_` is exact. -/
structure Kept (a : SelectAIO) : Prop where
  pipe : a.pipe ∈ a.rfds
  high : a.HighExact

theorem Kept.init (pipe : ℕ) : Kept ⟨pipe, {pipe}, ∅, pipe⟩ := by
  refine ⟨Finset.mem_singleton_self pipe, Or.inl rfl, ?_⟩
  rintro i (rfl | hi)
  · exact le_rfl
  · simp only [Watched, Finset.mem_singleton, Finset.notMem_empty, or_false] at hi
    exact hi.le

theorem Kept.watchFd (h : a.Kept) (fd : ℕ) (flag : PollFlag) : (a.watchFd fd flag).Kept where
  pipe := by
    cases flag
    · exact Finset.mem_insert_of_mem h.pipe
    · exact h.pipe
    · exact Finset.mem_insert_of_mem h.pipe
  high := by
    have hhigh : (a.watchFd fd flag).highfds = if a.highfds ≤ fd then fd else a.highfds := rfl
    obtain ⟨hmem, hmax⟩ := h.high
    rw [HighExact, hhigh]
    split
    · rename_i hle
      refine ⟨Or.inr ((watched_watchFd fd).mpr (Or.inl rfl)), ?_⟩
      rintro i (rfl | hi)
      · exact (hmax (Or.inl rfl)).trans hle
      · rcases (watched_watchFd i).mp hi with rfl | hi
        · exact le_rfl
        · exact (hmax (Or.inr hi)).trans hle
    · rename_i hlt
      refine ⟨hmem.imp_right fun hw => (watched_watchFd _).mpr (Or.inr hw), ?_⟩
      rintro i (rfl | hi)
      · exact hmax (Or.inl rfl)
      · rcases (watched_watchFd i).mp hi with rfl | hi
        · exact (not_le.mp hlt).le
        · exact hmax (Or.inr hi)

/-- The sets after `unwatch_fd` are those after the `FD_CLR`s, and `highfds_` is that from before
unless the highest descriptor has lost its last watch. -/
theorem unwatchFd_cases (a : SelectAIO) (fd : ℕ) (flag : PollFlag) :
    (a.unwatchFd fd flag).2 = { a.clearFd fd flag with highfds := (a.clearFd fd flag).newHigh } ∨
      (a.unwatchFd fd flag).2 = a.clearFd fd flag ∧
        (fd = a.highfds → (a.clearFd fd flag).Watched fd) := by
  by_cases hgone : (fd ∉ (a.clearFd fd flag).rfds ∧ fd ∉ (a.clearFd fd flag).wfds) ∧
      fd = a.highfds
  · left
    simp only [unwatchFd]
    rw [if_pos ⟨by simpa using hgone.1, hgone.2⟩]
  · right
    simp only [unwatchFd]
    constructor
    · rw [if_neg fun h => hgone ⟨by simpa using h.1, h.2⟩]
    · intro hfd
      by_contra hnot
      exact hgone ⟨not_or.mp hnot, hfd⟩

theorem Kept.unwatchFd (h : a.Kept) (hfd : fd ≠ a.pipe) (flag : PollFlag) :
    (a.unwatchFd fd flag).2.Kept := by
  have hpipe : a.pipe ∈ (a.clearFd fd flag).rfds := by
    cases flag
    · exact Finset.mem_erase.mpr ⟨hfd.symm, h.pipe⟩
    · exact h.pipe
    · exact Finset.mem_erase.mpr ⟨hfd.symm, h.pipe⟩
  have hle : ∀ i, (a.clearFd fd flag).Watched i → i ≤ a.highfds :=
    fun i hi => h.high.2 (Or.inr (watched_of_clearFd hi))
  rcases a.unwatchFd_cases fd flag with heq | ⟨heq, hstill⟩
  · rw [heq]
    exact ⟨hpipe, newHigh_isGreatest hpipe hle⟩
  · rw [heq]
    refine ⟨hpipe, ?_, ?_⟩
    · rcases h.high.1 with hhigh | hhigh
      · exact Or.inl hhigh
      · right
        by_cases hne : a.highfds = fd
        · exact hne ▸ hstill hne.symm
        · exact (watched_clearFd_of_ne hne).mpr hhigh
    · rintro i (rfl | hi)
      · exact h.high.2 (Or.inl rfl)
      · exact hle i hi

theorem pipe_unwatchFd : (a.unwatchFd fd flag).2.pipe = a.pipe := by
  rcases a.unwatchFd_cases fd flag with heq | ⟨heq, -⟩ <;> rw [heq] <;> rfl

end SelectAIO

/-- Whatever is watched and unwatched, in whatever order, except the pipe itself: `highfds_` is the
maximum of the pipe and the watched descriptors, and `select` gets to see all of them. -/
theorem watched_in_select_range {pipe : ℕ} {es : List AioCall} (hes : ∀ e ∈ es, e.fd ≠ pipe) :
    (aio pipe).Throughout (fun a => a.pipe = pipe ∧ a.HighExact ∧ a.InRange)
      (aio pipe).init es := by
  have hfds : (aio pipe).Along (fun _ e => e.fd ≠ pipe) (aio pipe).init es :=
    Machine.along_of_forall hes
  apply Machine.Along.throughout (I := fun a => a.pipe = pipe ∧ a.Kept) _ _ _ hfds
  · rintro a ⟨hpipe, hkept⟩
    exact ⟨hpipe, hkept.high, hkept.high.inRange⟩
  · rintro a e t ⟨hpipe, hkept⟩ hfd hstep
    cases e with
    | watchFd fd flag =>
      cases hstep
      exact ⟨hpipe, hkept.watchFd fd flag⟩
    | unwatchFd fd flag =>
      cases hstep
      have hne : fd ≠ a.pipe := hpipe ▸ hfd
      have hsame : (a.unwatchFd fd flag).2.pipe = a.pipe := SelectAIO.pipe_unwatchFd
      exact ⟨hsame.trans hpipe, hkept.unwatchFd hne flag⟩
  · exact ⟨rfl, .init pipe⟩

/-- The top descriptor loses one watch and then the other, and is watched again. -/
theorem watched_in_select_range_top :
    (∀ e ∈ [AioCall.watchFd 7 .rdwr, .watchFd 5 .wronly, .unwatchFd 7 .rdonly, .unwatchFd 9 .rdwr,
      .unwatchFd 7 .wronly, .watchFd 7 .wronly], e.fd ≠ 3) ∧
    (aio 3).Throughout (fun a => a.pipe = 3 ∧ a.HighExact ∧ a.InRange) (aio 3).init
      [.watchFd 7 .rdwr, .watchFd 5 .wronly, .unwatchFd 7 .rdonly, .unwatchFd 9 .rdwr,
        .unwatchFd 7 .wronly, .watchFd 7 .wronly] := by
  have hes : ∀ e ∈ [AioCall.watchFd 7 .rdwr, .watchFd 5 .wronly, .unwatchFd 7 .rdonly,
      .unwatchFd 9 .rdwr, .unwatchFd 7 .wronly, .watchFd 7 .wronly], e.fd ≠ 3 := by decide
  exact ⟨hes, watched_in_select_range hes⟩

/-! ## Below the poll thread -/

namespace Poll
variable {κ ι : Type*} [DecidableEq κ] [DecidableEq ι] {s t : Poll κ ι} {e : PollEvent κ ι}

/-- No callback is added to or removed from the pipe. -/
def SparesPipe (s : Poll κ ι) : PollEvent κ ι → Prop
  | .addCallback fd _ _ | .delCallback fd _ | .blockRemove _ fd => fd ≠ s.aio.pipe
  | _ => True

/-- The descriptors with which the poll thread is in `select` are in the range it has given. -/
def SelectsAll (s : Poll κ ι) : Prop :=
  ∀ trfds twfds high, s.loop = .selecting trfds twfds high → ∀ fd ∈ trfds ∪ twfds, fd < high + 1

omit [DecidableEq κ] [DecidableEq ι] in
theorem selectsAll_of_serve {pc : LoopPc} (ha : s.aio.Kept) (h : s.serve e = some pc) :
    SelectsAll { s with loop := pc } := by
  intro trfds twfds high hpc fd hfd
  obtain rfl : pc = .selecting trfds twfds high := hpc
  cases serving_of_serve h
  exact ha.high.inRange fd (Finset.mem_union.mp hfd)

omit [DecidableEq κ] in
theorem kept_of_moves (h : s.aio.Kept ∧ s.SelectsAll) (he : s.SparesPipe e) (hm : Moves s e t) :
    t.aio.Kept ∧ t.SelectsAll := by
  obtain ⟨ha, hs⟩ := h
  cases hm with
  | add fd flag ch => exact ⟨ha.watchFd fd flag, hs⟩
  | del fd flag held => exact ⟨ha.unwatchFd he flag, hs⟩
  | block i fd => exact ⟨ha.unwatchFd he .rdwr, hs⟩
  | change removers => exact ⟨ha, nofun⟩
  | serve e pc hpc => exact ⟨ha, selectsAll_of_serve ha hpc⟩
  | added | deleted | resume => exact ⟨ha, hs⟩

end Poll

/-- Whatever the other threads do, the poll thread never waits for a descriptor that `select` does
not look at. -/
theorem poll_selects_all {κ ι : Type*} [DecidableEq κ] [DecidableEq ι] {pipe : ℕ}
    {es : List (PollEvent κ ι)}
    (h : (poll κ ι pipe).Along Poll.SparesPipe (poll κ ι pipe).init es) :
    (poll κ ι pipe).Throughout Poll.SelectsAll (poll κ ι pipe).init es := by
  have htop : (poll κ ι pipe).init.SelectsAll := by
    intro trfds twfds high hloop
    cases hloop
  exact Machine.Along.throughout (I := fun s => s.aio.Kept ∧ s.SelectsAll) (fun _ hs => hs.2)
    (fun _ _ _ hs he hst => Poll.kept_of_moves hs he (Poll.moves_of_step hst))
    ⟨.init pipe, htop⟩ h

end YFS.Rpc
