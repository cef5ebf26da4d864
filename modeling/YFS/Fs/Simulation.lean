import YFS.Fs.Discipline
import YFS.Library.Serial

/-! # Concurrent operations simulate serial ones

Each operation is executed in one piece on a serial store at the moment of its commit point.
The real store lags behind the serial one by the writes that committed operations still
have to make, each to an extent whose lock the operation holds. `Sim` says so, and that the
operations before their commit point have only read what has not changed since.
-/

namespace YFS.Fs
open YFS.Library YFS.Extent

variable {ι : Type}

def Request.exec (q : Request) (c : Contents) : Ending × Contents :=
  q.call.prog.exec q.random c

def Conc.Covers (s : Conc ι) (i : ι) (k : ℕ) : Prop := ∃ lid, (lid, i) ∈ s.held ∧ key lid = k

/-- What the simulation keeps beside the state: the operations in the order of their commit points
with their results, the serial store, the writes still to be made, and the inums drawn under
which nothing is stored yet. -/
structure Ghost (ι : Type) where
  log : List (ι × Request × Ending)
  serial : Contents
  pend : ι → Option (ℕ × Bytes)
  fresh : ι → Option ℕ

namespace Ghost

def Logged (g : Ghost ι) (i : ι) : Prop := i ∈ g.log.map Prod.fst

end Ghost

/-- Before the commit point: the rest of the program does to every store that agrees on what was
read what the whole call does. -/
structure Waiting (s : Conc ι) (g : Ghost ι) (i : ι) (q : Request) (left : List Random) (p : Prog) :
    Prop where
  unlogged : ¬ g.Logged i
  pend : g.pend i = none
  drawn : ∀ n, g.fresh i = some n → q.drawn = some n
  opening : ∃ K R, p.Opening q left K R (g.fresh i) ∧ (∀ k ∈ K, s.Covers i k) ∧
    (∀ r ∈ R, s.Covers i r.1 ∧ s.store.contents r.1 = some r.2) ∧
    ∀ c, (∀ r ∈ R, c r.1 = some r.2) → p.exec left c = q.exec c

structure Committed (g : Ghost ι) (i : ι) (q : Request) (p : Prog) : Prop where
  fresh : g.fresh i = none
  closing : ∃ e R, (i, q, e) ∈ g.log ∧ p.Closing R e (g.pend i)

/-- Not part of the serial order: the operation takes no locks and changes nothing. -/
structure Apart (g : Ghost ι) (i : ι) (q : Request) : Prop where
  unlocked : q.call.locks = false
  unlogged : ¬ g.Logged i
  pend : g.pend i = none
  fresh : g.fresh i = none

def Stage (P : Request → Prop) (s : Conc ι) (g : Ghost ι) (i : ι) : Prop :=
  match s.task i with
  | .idle => ¬ g.Logged i ∧ g.pend i = none ∧ g.fresh i = none
  | .running q left p =>
    P q ∧ (Waiting s g i q left p ∨ Committed g i q p ∨ Apart g i q ∧ p.Reads)
  | .ended q e => P q ∧ g.pend i = none ∧ g.fresh i = none ∧ ((i, q, e) ∈ g.log ∨ Apart g i q)

/-- Something is stored under `k`, or was and is removed. -/
structure Stored (c₀ : Contents) (s : Conc ι) (g : Ghost ι) (k : ℕ) : Prop where
  known : k ∈ s.issued ∨ c₀ k ≠ none
  unfresh : ∀ i, g.fresh i ≠ some k

/-- The state `s`, reached from the bytes `c₀` by requests that meet `P`, and the serial execution
beside it. -/
structure Sim (c₀ : Contents) (P : Request → Prop) (s : Conc ι) (g : Ghost ι) : Prop where
  serial : serially Request.exec (g.log.map fun l => l.2.1) c₀ =
    (g.log.map fun l => l.2.2, g.serial)
  nodup : (g.log.map Prod.fst).Nodup
  locks : (s.held.map fun h => key h.1).Nodup
  pend : ∀ i k b, g.pend i = some (k, b) → g.serial k = some b ∧ Stored c₀ s g k ∧ s.Covers i k
  settled : ∀ k, (∀ i b, g.pend i ≠ some (k, b)) → g.serial k = s.store.contents k
  unissued : ∀ n, n ∉ s.issued → c₀ n = none → s.store.contents n = none
  fresh : ∀ i n, g.fresh i = some n → n ∈ s.issued ∧ key n = n ∧ s.store.contents n = none
  fresh_inj : ∀ i j n, g.fresh i = some n → g.fresh j = some n → i = j
  removed : ∀ k ∈ s.removed, Stored c₀ s g k
  stage : ∀ i, Stage P s g i

section Frame
variable {P : Request → Prop} {s s' : Conc ι} {g g' : Ghost ι}

/-- What an operation relies on: its own place, its locks, and the extents stored under them. -/
structure Undisturbed (s s' : Conc ι) (g g' : Ghost ι) (j : ι) : Prop where
  task : s'.task j = s.task j
  pend : g'.pend j = g.pend j
  fresh : g'.fresh j = g.fresh j
  log : ∀ q e, (j, q, e) ∈ g.log → (j, q, e) ∈ g'.log
  logged : g'.Logged j → g.Logged j
  covers : ∀ k, s.Covers j k → s'.Covers j k
  contents : ∀ k, s.Covers j k → s.store.contents k ≠ none →
    s'.store.contents k = s.store.contents k

theorem Waiting.frame {j : ι} {q : Request} {left : List Random} {p : Prog}
    (hu : Undisturbed s s' g g' j) (h : Waiting s g j q left p) : Waiting s' g' j q left p := by
  obtain ⟨K, R, hop, hK, hR, hex⟩ := h.opening
  refine ⟨fun hl => h.unlogged (hu.logged hl), hu.pend.trans h.pend, ?_, K, R, ?_, ?_, ?_, ?_⟩
  · rw [hu.fresh]
    exact h.drawn
  · rw [hu.fresh]
    exact hop
  · exact fun k hk => hu.covers k (hK k hk)
  · intro r hr
    obtain ⟨hcov, hc⟩ := hR r hr
    rw [hu.contents r.1 hcov (by simp [hc])]
    exact ⟨hu.covers r.1 hcov, hc⟩
  · exact hex

theorem Apart.frame {j : ι} {q : Request} (hu : Undisturbed s s' g g' j) (h : Apart g j q) :
    Apart g' j q :=
  ⟨h.unlocked, fun hl => h.unlogged (hu.logged hl), hu.pend.trans h.pend, hu.fresh.trans h.fresh⟩

theorem Stage.frame {j : ι} (hu : Undisturbed s s' g g' j) (h : Stage P s g j) :
    Stage P s' g' j := by
  unfold Stage at h ⊢
  rw [hu.task]
  cases ht : s.task j with
  | idle =>
    rw [ht] at h
    exact ⟨fun hl => h.1 (hu.logged hl), hu.pend.trans h.2.1, hu.fresh.trans h.2.2⟩
  | running q left p =>
    rw [ht] at h
    refine ⟨h.1, ?_⟩
    rcases h.2 with hw | ⟨hf, e, R, hmem, hcl⟩ | ⟨ha, hr⟩
    · exact Or.inl (hw.frame hu)
    · refine Or.inr (Or.inl ⟨hu.fresh.trans hf, e, R, hu.log q e hmem, ?_⟩)
      rw [hu.pend]
      exact hcl
    · exact Or.inr (Or.inr ⟨ha.frame hu, hr⟩)
  | ended q e =>
    rw [ht] at h
    refine ⟨h.1, hu.pend.trans h.2.1, hu.fresh.trans h.2.2.1, ?_⟩
    rcases h.2.2.2 with hmem | ha
    · exact Or.inl (hu.log q e hmem)
    · exact Or.inr (ha.frame hu)

theorem Stored.mono {c₀ : Contents} {k : ℕ} (h : Stored c₀ s g k) (hissued : s'.issued = s.issued)
    (hfresh : ∀ i n, g'.fresh i = some n → g.fresh i = some n) : Stored c₀ s' g' k :=
  ⟨hissued ▸ h.known, fun i hi => h.unfresh i (hfresh i k hi)⟩

end Frame

namespace Sim
variable {c₀ : Contents} {P : Request → Prop} {s : Conc ι} {g : Ghost ι} (h : Sim c₀ P s g)

include h in
theorem stored {k : ℕ} (hk : s.store.contents k ≠ none) : Stored c₀ s g k := by
  constructor
  · by_contra hnew
    push Not at hnew
    exact hk (h.unissued k hnew.1 hnew.2)
  · exact fun i hi => hk (h.fresh i k hi).2.2

include h in
theorem covers_inj {i j : ι} {k : ℕ} (hi : s.Covers i k) (hj : s.Covers j k) : i = j := by
  obtain ⟨l, hl, rfl⟩ := hi
  obtain ⟨l', hl', hk⟩ := hj
  have := List.inj_on_of_nodup_map h.locks hl hl' hk.symm
  exact congrArg Prod.snd this

include h in
/-- The serial store agrees with the real one under the locks of an operation that has nothing
left to write. -/
theorem serial_eq_of_covers {i : ι} (hp : g.pend i = none) {k : ℕ} (hk : s.Covers i k) :
    g.serial k = s.store.contents k := by
  apply h.settled
  intro j b hj
  have := h.covers_inj hk (h.pend j k b hj).2.2
  subst this
  rw [hp] at hj
  cases hj

include h in
theorem serial_eq_of_fresh {i : ι} {n : ℕ} (hn : g.fresh i = some n) : g.serial n = none := by
  rw [h.settled]
  · exact (h.fresh i n hn).2.2
  · exact fun j b hj => (h.pend j n b hj).2.1.unfresh i hn

include h in
/-- What an operation writes at its commit point, under a lock of its own or an inum it has
drawn, the others have not locked and found there. -/
theorem ne_of_covers {i j : ι} {k n : ℕ} (hkey : s.Covers i k ∨ g.fresh i = some k) (hji : j ≠ i)
    (hc : s.Covers j n) (hn : Stored c₀ s g n) : n ≠ k := by
  rintro rfl
  rcases hkey with hk | hk
  · exact hji (h.covers_inj hc hk)
  · exact hn.unfresh i hk

include h in
theorem quiet {s' : Conc ι} {i : ι} (hcont : s'.store.contents = s.store.contents)
    (htask : ∀ j, j ≠ i → s'.task j = s.task j)
    (hlocks : (s'.held.map fun h => key h.1).Nodup)
    (hcov : ∀ j k, j ≠ i → s.Covers j k → s'.Covers j k)
    (hpend : ∀ k b, g.pend i = some (k, b) → s'.Covers i k)
    (hissued : s'.issued = s.issued) (hremoved : s'.removed = s.removed)
    (hstage : Stage P s' g i) : Sim c₀ P s' g where
  serial := h.serial
  nodup := h.nodup
  locks := hlocks
  pend j k b hj := by
    obtain ⟨hser, hk, hc⟩ := h.pend j k b hj
    refine ⟨hser, hk.mono hissued fun _ _ => id, ?_⟩
    by_cases hji : j = i
    · subst hji
      exact hpend k b hj
    · exact hcov j k hji hc
  settled k hk := by
    rw [hcont]
    exact h.settled k hk
  unissued := by
    rw [hcont, hissued]
    exact h.unissued
  fresh := by
    rw [hcont, hissued]
    exact h.fresh
  fresh_inj := h.fresh_inj
  removed k hk := by
    rw [hremoved] at hk
    exact (h.removed k hk).mono hissued fun _ _ => id
  stage j := by
    by_cases hji : j = i
    · exact hji ▸ hstage
    · apply (h.stage j).frame
      exact ⟨htask j hji, rfl, rfl, fun _ _ hm => hm, id, fun k => hcov j k hji,
        fun k _ _ => by rw [hcont]⟩

end Sim

variable [DecidableEq ι]

/-- A step of operation `i` to `p` that leaves the bytes `c` and all locks and inums as they are. -/
structure Moved (s s' : Conc ι) (i : ι) (q : Request) (left : List Random) (p : Prog)
    (c : Contents) : Prop where
  contents : s'.store.contents = c
  task : s'.task = Function.update s.task i (.running q left p)
  held : s'.held = s.held
  issued : s'.issued = s.issued

theorem Moved.covers {s s' : Conc ι} {i : ι} {q : Request} {left : List Random} {p : Prog}
    {c : Contents} (hm : Moved s s' i q left p c) (j : ι) (k : ℕ) :
    s'.Covers j k ↔ s.Covers j k := by
  rw [Conc.Covers, hm.held]
  rfl

section Write
variable {s s' : Conc ι} {g g' : Ghost ι} {i : ι} {q : Request} {left : List Random} {p : Prog}
  {k n : ℕ} {v : Option Bytes}
  (hm : Moved s s' i q left p (Function.update s.store.contents k v))
include hm

theorem Moved.written : s'.store.contents k = v := by rw [hm.contents, Function.update_self]

theorem Moved.kept (hn : n ≠ k) : s'.store.contents n = s.store.contents n := by
  rw [hm.contents, Function.update_of_ne hn]

theorem Moved.none_of_none (hn : s.store.contents n = none) (hv : n = k → v = none) :
    s'.store.contents n = none := by
  by_cases hnk : n = k
  · rw [hnk, hm.written, hv hnk]
  · rw [hm.kept hnk, hn]

/-- The others do not see a write to an extent that none of them has locked and found there. -/
theorem Moved.undisturbed {j : ι} (hji : j ≠ i) (hpend : g'.pend j = g.pend j)
    (hfresh : g'.fresh j = g.fresh j) (hlog : ∀ q e, (j, q, e) ∈ g.log → (j, q, e) ∈ g'.log)
    (hlogged : g'.Logged j → g.Logged j)
    (hother : ∀ n, s.Covers j n → s.store.contents n ≠ none → n ≠ k) :
    Undisturbed s s' g g' j where
  task := by rw [hm.task, Function.update_of_ne hji]
  pend := hpend
  fresh := hfresh
  log := hlog
  logged := hlogged
  covers n hc := (hm.covers j n).mpr hc
  contents n hc hn := hm.kept (hother n hc hn)

end Write

/-- The operation commits with result `e`, having written `v` under `k`, and with the write `w`
still to be made. -/
def Ghost.commit (g : Ghost ι) (i : ι) (q : Request) (e : Ending) (k : ℕ) (v : Option Bytes)
    (w : Option (ℕ × Bytes)) : Ghost ι where
  log := g.log ++ [(i, q, e)]
  serial := overlay w (Function.update g.serial k v)
  pend := Function.update g.pend i w
  fresh := Function.update g.fresh i none

section
variable (g : Ghost ι) (i : ι) (q : Request) (e : Ending) (k : ℕ) (v : Option Bytes)
  (w : Option (ℕ × Bytes))

theorem Ghost.commit_log : (g.commit i q e k v w).log = g.log ++ [(i, q, e)] := rfl

theorem Ghost.commit_serial :
    (g.commit i q e k v w).serial = overlay w (Function.update g.serial k v) := rfl

theorem Ghost.commit_pend : (g.commit i q e k v w).pend = Function.update g.pend i w := rfl

theorem Ghost.logged_commit (j : ι) : (g.commit i q e k v w).Logged j ↔ g.Logged j ∨ j = i := by
  rw [Logged, commit_log, List.map_append, List.mem_append, List.map_singleton, List.mem_singleton]
  rfl

end

theorem overlay_of_ne {w : Option (ℕ × Bytes)} {n : ℕ} (h : ∀ b, w ≠ some (n, b)) (c : Contents) :
    overlay w c n = c n := by
  rcases w with _ | ⟨k, b⟩
  · rfl
  · have hn : n ≠ k := by
      rintro rfl
      exact h b rfl
    exact Function.update_of_ne hn ..

theorem update_none_eq_some {α : Type*} {f : ι → Option α} {i j : ι} {a : α}
    (h : Function.update f i none j = some a) : j ≠ i ∧ f j = some a := by
  by_cases hj : j = i
  · rw [hj, Function.update_self] at h
    cases h
  · rw [Function.update_of_ne hj] at h
    exact ⟨hj, h⟩

namespace Sim
variable {c₀ : Contents} {P : Request → Prop} {s s' : Conc ι} {g : Ghost ι} (h : Sim c₀ P s g)

include h in
/-- Operation `i` goes on with `p'`, and the others see nothing of it. -/
theorem stage_step {g' : Ghost ι} {i : ι} {q : Request} {left : List Random} {p' : Prog}
    (htask : s'.task = Function.update s.task i (.running q left p')) (hP : P q)
    (hstage : Waiting s' g' i q left p' ∨ Committed g' i q p' ∨ Apart g' i q ∧ p'.Reads)
    (hother : ∀ j, j ≠ i → Undisturbed s s' g g' j) (j : ι) : Stage P s' g' j := by
  by_cases hji : j = i
  · subst hji
    unfold Stage
    rw [htask, Function.update_self]
    exact ⟨hP, hstage⟩
  · exact (h.stage j).frame (hother j hji)

include h in
/-- The commit point of `i`: it writes `v` under `k`, which it has a lock for or has drawn. -/
theorem commit {i : ι} {q : Request} {left left' : List Random} {p p' : Prog} (hP : P q)
    (hw : Waiting s g i q left p) {k : ℕ} {v : Option Bytes} {e : Ending}
    {w : Option (ℕ × Bytes)} {R : List ℕ}
    (hm : Moved s s' i q left' p' (Function.update s.store.contents k v))
    (hremoved : ∀ n ∈ s'.removed, n ∈ s.removed ∨ s.store.contents n ≠ none)
    (hclose : p'.Closing R e w) (hR : ∀ k ∈ R, s.Covers i k ∧ s.store.contents k ≠ none)
    (hkey : s.Covers i k ∨ g.fresh i = some k)
    (hgrow : v ≠ none → s.store.contents k ≠ none ∨ g.fresh i = some k)
    (hexec : q.exec g.serial = (e, overlay w (Function.update g.serial k v))) :
    Sim c₀ P s' (g.commit i q e k v w) := by
  have hstill : ∀ n, s.store.contents n = none → g.fresh i ≠ some n →
      s'.store.contents n = none := by
    intro n hn hf
    apply hm.none_of_none hn
    rintro rfl
    by_contra hv
    exact (hgrow hv).elim (fun hk => hk hn) hf
  have hstored : ∀ n, Stored c₀ s g n → Stored c₀ s' (g.commit i q e k v w) n := fun n hn =>
    hn.mono hm.issued fun j m hj => (update_none_eq_some hj).2
  have hleft : ∀ n b, w = some (n, b) → n ∈ R := by
    rintro n b rfl
    exact hclose.mem
  constructor
  case serial =>
    rw [Ghost.commit_log, List.map_append, List.map_append, List.map_cons, List.map_nil,
      serially_concat, h.serial, hexec]
    rfl
  case nodup =>
    rw [Ghost.commit_log, List.map_append, List.nodup_append']
    refine ⟨h.nodup, List.nodup_singleton _, ?_⟩
    intro j hj hj'
    rw [List.map_cons, List.map_nil, List.mem_singleton] at hj'
    subst hj'
    exact hw.unlogged hj
  case locks =>
    rw [hm.held]
    exact h.locks
  case pend =>
    intro j n b hj
    rw [Ghost.commit_pend] at hj
    rw [hm.covers, Ghost.commit_serial]
    by_cases hji : j = i
    · subst hji
      rw [Function.update_self] at hj
      obtain ⟨hc, hn⟩ := hR n (hleft n b hj)
      refine ⟨?_, hstored n (h.stored hn), hc⟩
      rw [hj]
      exact Function.update_self ..
    · rw [Function.update_of_ne hji] at hj
      obtain ⟨hser, hn, hc⟩ := h.pend j n b hj
      have hnk := h.ne_of_covers hkey hji hc hn
      have hwn : ∀ b', w ≠ some (n, b') := fun b' hb' =>
        hji (h.covers_inj hc (hR n (hleft n b' hb')).1)
      rw [overlay_of_ne hwn, Function.update_of_ne hnk, hser]
      exact ⟨rfl, hstored n hn, hc⟩
  case settled =>
    intro n hn
    rw [Ghost.commit_pend] at hn
    have hwn : ∀ b, w ≠ some (n, b) := fun b hb => hn i b ((Function.update_self ..).trans hb)
    rw [Ghost.commit_serial, overlay_of_ne hwn, hm.contents]
    by_cases hnk : n = k
    · rw [hnk, Function.update_self, Function.update_self]
    · rw [Function.update_of_ne hnk, Function.update_of_ne hnk]
      apply h.settled
      intro j b hj
      by_cases hji : j = i
      · rw [hji, hw.pend] at hj
        cases hj
      · exact hn j b ((Function.update_of_ne hji ..).trans hj)
  case unissued =>
    intro n hn hc
    rw [hm.issued] at hn
    exact hstill n (h.unissued n hn hc) fun hf => hn (h.fresh i n hf).1
  case fresh =>
    intro j n hj
    obtain ⟨hji, hj⟩ := update_none_eq_some hj
    obtain ⟨hn, hkn, hnone⟩ := h.fresh j n hj
    rw [hm.issued]
    exact ⟨hn, hkn, hstill n hnone fun hf => hji (h.fresh_inj j i n hj hf)⟩
  case fresh_inj =>
    intro j j' n hj hj'
    exact h.fresh_inj j j' n (update_none_eq_some hj).2 (update_none_eq_some hj').2
  case removed =>
    intro n hn
    exact hstored n ((hremoved n hn).elim (h.removed n) h.stored)
  case stage =>
    apply h.stage_step hm.task hP
    · refine Or.inr (Or.inl ⟨Function.update_self .., e, R, ?_, ?_⟩)
      · exact List.mem_append_right _ (List.mem_singleton.mpr rfl)
      · rw [Ghost.commit_pend, Function.update_self]
        exact hclose
    · intro j hji
      apply hm.undisturbed hji
      · exact Function.update_of_ne hji ..
      · exact Function.update_of_ne hji ..
      · exact fun _ _ hmem => List.mem_append_left _ hmem
      · rw [Ghost.logged_commit]
        exact fun hl => hl.resolve_right hji
      · exact fun n hc hn => h.ne_of_covers hkey hji hc (h.stored hn)

include h in
theorem flush {i : ι} {q : Request} {left : List Random} {p' : Prog} {k : ℕ} {buf : Bytes}
    (hpend : g.pend i = some (k, buf))
    (hm : Moved s s' i q left p' (Function.update s.store.contents k (some buf)))
    (hremoved : s'.removed = s.removed)
    (hP : P q) (hclosed : Committed { g with pend := Function.update g.pend i none } i q p') :
    Sim c₀ P s' { g with pend := Function.update g.pend i none } := by
  obtain ⟨hser, hthen, hcov⟩ := h.pend i k buf hpend
  constructor
  case serial => exact h.serial
  case nodup => exact h.nodup
  case locks =>
    rw [hm.held]
    exact h.locks
  case pend =>
    intro j n b hj
    obtain ⟨hji, hj⟩ := update_none_eq_some hj
    obtain ⟨hsn, hn, hc⟩ := h.pend j n b hj
    exact ⟨hsn, hn.mono hm.issued fun _ _ => id, (hm.covers j n).mpr hc⟩
  case settled =>
    intro n hn
    by_cases hnk : n = k
    · rw [hnk, hm.written]
      exact hser
    · rw [hm.kept hnk]
      apply h.settled
      intro j b hj
      by_cases hji : j = i
      · rw [hji, hpend] at hj
        cases hj
        exact hnk rfl
      · exact hn j b ((Function.update_of_ne hji ..).trans hj)
  case unissued =>
    intro n hn hc
    rw [hm.issued] at hn
    have hnk : n ≠ k := by
      rintro rfl
      exact hthen.known.elim hn fun hne => hne hc
    rw [hm.kept hnk]
    exact h.unissued n hn hc
  case fresh =>
    intro j n hj
    have hnk : n ≠ k := by
      rintro rfl
      exact hthen.unfresh j hj
    rw [hm.issued, hm.kept hnk]
    exact h.fresh j n hj
  case fresh_inj => exact h.fresh_inj
  case removed =>
    intro n hn
    rw [hremoved] at hn
    exact (h.removed n hn).mono hm.issued fun _ _ => id
  case stage =>
    apply h.stage_step hm.task hP (Or.inr (Or.inl hclosed))
    intro j hji
    apply hm.undisturbed hji
    · exact Function.update_of_ne hji ..
    · rfl
    · exact fun _ _ hmem => hmem
    · exact id
    · exact fun n hc hn => h.ne_of_covers (Or.inl hcov) hji hc (h.stored hn)

include h in
theorem draw {i : ι} {q : Request} {left : List Random} {p' : Prog} {n : ℕ}
    (hn : n ∉ s.issued) (hn₀ : c₀ n = none) (hkey : key n = n)
    (hcont : s'.store = s.store) (htask : s'.task = Function.update s.task i (.running q left p'))
    (hheld : s'.held = s.held) (hissued : s'.issued = n :: s.issued)
    (hremoved : s'.removed = s.removed) (hP : P q)
    (hw : Waiting s' { g with fresh := Function.update g.fresh i (some n) } i q left p') :
    Sim c₀ P s' { g with fresh := Function.update g.fresh i (some n) } := by
  have hcovers (j : ι) (m : ℕ) : s'.Covers j m ↔ s.Covers j m := by rw [Conc.Covers, hheld]; rfl
  have hfresh : ∀ j m, Function.update g.fresh i (some n) j = some m →
      j = i ∧ m = n ∨ j ≠ i ∧ g.fresh j = some m := by
    intro j m hj
    by_cases hji : j = i
    · subst hji
      rw [Function.update_self] at hj
      exact Or.inl ⟨rfl, (Option.some.inj hj).symm⟩
    · rw [Function.update_of_ne hji] at hj
      exact Or.inr ⟨hji, hj⟩
  have hstored : ∀ m, Stored c₀ s g m →
      Stored c₀ s' { g with fresh := Function.update g.fresh i (some n) } m := by
    intro m hm
    refine ⟨?_, fun j hj => ?_⟩
    · rw [hissued, List.mem_cons]
      exact hm.known.imp_left Or.inr
    · rcases hfresh j m hj with ⟨-, rfl⟩ | ⟨-, hj⟩
      · exact hm.known.elim hn fun hne => hne hn₀
      · exact hm.unfresh j hj
  constructor
  case serial => exact h.serial
  case nodup => exact h.nodup
  case locks =>
    rw [hheld]
    exact h.locks
  case pend =>
    intro j m b hj
    obtain ⟨hser, hm, hc⟩ := h.pend j m b hj
    exact ⟨hser, hstored m hm, (hcovers j m).mpr hc⟩
  case settled =>
    rw [hcont]
    exact h.settled
  case unissued =>
    intro m hm hc
    rw [hissued, List.mem_cons, not_or] at hm
    rw [hcont]
    exact h.unissued m hm.2 hc
  case fresh =>
    intro j m hj
    rw [hcont, hissued, List.mem_cons]
    rcases hfresh j m hj with ⟨rfl, rfl⟩ | ⟨-, hj⟩
    · exact ⟨Or.inl rfl, hkey, h.unissued m hn hn₀⟩
    · obtain ⟨hm, hkm, hnone⟩ := h.fresh j m hj
      exact ⟨Or.inr hm, hkm, hnone⟩
  case fresh_inj =>
    intro j j' m hj hj'
    rcases hfresh j m hj with ⟨hji, hmn⟩ | ⟨-, hold⟩
    · rcases hfresh j' m hj' with ⟨hji', -⟩ | ⟨-, hold'⟩
      · exact hji.trans hji'.symm
      · exact absurd (hmn ▸ (h.fresh j' m hold').1) hn
    · rcases hfresh j' m hj' with ⟨-, hmn⟩ | ⟨-, hold'⟩
      · exact absurd (hmn ▸ (h.fresh j m hold).1) hn
      · exact h.fresh_inj j j' m hold hold'
  case removed =>
    intro m hm
    rw [hremoved] at hm
    exact hstored m (h.removed m hm)
  case stage =>
    apply h.stage_step htask hP (Or.inl hw)
    intro j hji
    constructor
    · rw [htask, Function.update_of_ne hji]
    · rfl
    · exact Function.update_of_ne hji ..
    · exact fun _ _ hm => hm
    · exact id
    · exact fun m hc => (hcovers j m).mpr hc
    · exact fun m _ _ => by rw [hcont]

end Sim

end YFS.Fs
