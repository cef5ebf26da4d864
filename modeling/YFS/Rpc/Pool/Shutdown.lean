import YFS.Rpc.Pool.Queue
import YFS.Rpc.Pool.Workers

/-! # The shutdown loses no job -/

namespace YFS.Rpc
open Library Library.Condition

namespace Pool
variable {α : Type*} {n max : ℕ} {blockadd : Bool} {s t : Pool α n} {e : PoolEvent α n}

structure Inv (s : Pool α n) : Prop where
  phase : s.Phase
  fifo : s.Fifo
  ran : s.Ran

theorem Inv.init : (Pool.init : Pool α n).Inv where
  phase := rfl
  fifo := ⟨[], 0, rfl, rfl, by simp [Pool.init, placed], fun _ => rfl⟩
  ran := ⟨nofun, List.nodup_nil, nofun, nofun, fun _ => rfl⟩

theorem Inv.moves (h : s.Inv) (hm : Moves max s e t) : t.Inv :=
  ⟨h.phase.moves hm, h.fifo.moves h.phase hm, h.ran.moves hm⟩

structure Lossless (s : Pool α n) : Prop where
  /-- the jobs have been taken in the order in which they were accepted -/
  order : s.taken.map Prod.fst <+: s.accepted
  /-- a job runs on the worker that took it, and has not run before -/
  running : ∀ w i, s.workers w = .running i →
    (∃ j, s.taken[i]? = some (j, w)) ∧ i ∉ s.finished.map Prod.fst
  /-- a job that has returned ran once, on the worker that took it -/
  ran : (s.finished.map Prod.fst).Nodup ∧ ∀ x ∈ s.finished, ∃ j, s.taken[x.1]? = some (j, x.2)
  /-- a worker exits with its first pill -/
  pills : ∀ w, s.consumed w = if s.workers w = .exited then 1 else 0
  /-- behind the joins every worker has exited, the queue is empty and all jobs have returned -/
  done : s.dtor = .done → (∀ w, s.workers w = .exited) ∧ s.q = [] ∧
    s.taken.map Prod.fst = s.accepted ∧
    (s.finished.map Prod.fst).Perm (List.range s.accepted.length)

theorem Inv.lossless (hn : 0 < n) (h : s.Inv) : s.Lossless where
  order := h.fifo.order
  running := h.ran.running
  ran := ⟨h.ran.once, h.ran.finished⟩
  pills := h.ran.pills
  done hd := by
    have hphase := h.phase
    rw [Phase, hd] at hphase
    obtain ⟨-, hp, hw⟩ := hphase
    have hq := h.fifo.empty hn hp.le hw
    have htaken := h.fifo.taken_of_empty hq
    refine ⟨hw, hq, htaken, ?_⟩
    rw [← htaken, List.length_map]
    exact h.ran.perm hw

/-! ## The shutdown can always go on -/

def Delivered (s : Pool α n) (e : PoolEvent α n) : Prop :=
  ∀ pick, e.signals = some pick → Reaches WorkerPc.wait s.workers pick

def Prompted (s : Pool α n) : PoolEvent α n → Prop
  | .pushWake _ => s.dtor = .wait true
  | .takeWake w => s.workers w = .wait true
  | _ => True

/-- No wake-up is lost: there are as many signalled workers as entries while a worker is
blocked, and the destructor is blocked on a full queue only. -/
structure Live (max : ℕ) (s : Pool α n) : Prop where
  covered : Covered WorkerPc.wait s.workers s.q.length
  space : s.dtor = .wait false → max ≠ 0 ∧ max ≤ s.q.length

theorem hasSpace_blocked {d : DtorPc} {len : ℕ} (h : d.hasSpace max len = .wait false) :
    d = .wait false ∧ ¬ (max ≠ 0 ∧ len < max) := by
  cases d with
  | wait sig =>
    have hsig := DtorPc.wait.inj h
    rw [Bool.or_eq_false_iff, decide_eq_false_iff_not] at hsig
    exact ⟨by rw [hsig.1], hsig.2⟩
  | _ => cases h

theorem Live.took (h : s.Live max) {w : Fin n} {x : Option α} {q : List (Option α)}
    (hq : s.q = x :: q) {p : WorkerPc} (hp : ∀ sig, p ≠ .wait sig) :
    Covered WorkerPc.wait (Function.update s.workers w p) q.length ∧
      (s.dtor.hasSpace max q.length = .wait false → max ≠ 0 ∧ max ≤ q.length) := by
  constructor
  · have hcovered := h.covered
    rw [hq, List.length_cons] at hcovered
    exact hcovered.leave w hp
  · intro hd
    obtain ⟨hd, hlt⟩ := hasSpace_blocked hd
    have hmax := (h.space hd).1
    exact ⟨hmax, not_lt.mp fun hlen => hlt ⟨hmax, hlen⟩⟩

theorem Live.moves (h : s.Live max) (he : s.Delivered e) (hm : Moves max s e t) : t.Live max := by
  cases hm with
  | accept j pick waiting ho hpick =>
    have hlen : (s.q ++ [some j]).length = s.q.length + 1 := by simp
    refine ⟨?_, fun hd => ?_⟩
    · change Covered WorkerPc.wait (signal WorkerPc.wait s.workers pick) (s.q ++ [some j]).length
      rw [hlen]
      exact h.covered.signal (he pick hpick) nofun
    · obtain ⟨hmax, hle⟩ := h.space hd
      refine ⟨hmax, ?_⟩
      change max ≤ (s.q ++ [some j]).length
      omega
  | destroy => exact ⟨h.covered, nofun⟩
  | pill pick hp hpick =>
    refine ⟨?_, nofun⟩
    change Covered WorkerPc.wait (signal WorkerPc.wait s.workers pick) (s.q ++ [none]).length
    rw [List.length_append, List.length_singleton]
    exact h.covered.signal (he pick hpick) nofun
  | full hp hq =>
    obtain ⟨hmax, hlen⟩ := not_or.mp hq
    exact ⟨h.covered, fun _ => ⟨hmax, not_lt.mp hlen⟩⟩
  | pushed => exact ⟨h.covered, nofun⟩
  | sleep w hl hq =>
    refine ⟨fun _ _ => ?_, h.space⟩
    rw [hq]
    exact Nat.zero_le _
  | job w j q hl hq =>
    obtain ⟨hcovered, hspace⟩ := h.took (w := w) hq (p := .running s.taken.length) (fun _ => nofun)
    exact ⟨hcovered, hspace⟩
  | exit w q hl hq =>
    obtain ⟨hcovered, hspace⟩ := h.took (w := w) hq (p := .exited) (fun _ => nofun)
    exact ⟨hcovered, hspace⟩
  | finish w i hw =>
    refine ⟨h.covered.elsewhere (fun _ => ?_) (fun _ => nofun), h.space⟩
    rw [hw]
    exact nofun
  | join => exact ⟨h.covered, nofun⟩
  | joined => exact ⟨h.covered, nofun⟩
  | _ => exact ⟨h.covered, h.space⟩

/-- The queue that blocked the destructor has been full ever since. -/
theorem Live.signalled (h : s.Live max) (hq : s.q = []) {sig : Bool} (hd : s.dtor = .wait sig) :
    sig = true := by
  cases sig with
  | false =>
    obtain ⟨hmax, hle⟩ := h.space hd
    rw [hq, List.length_nil] at hle
    exact absurd (Nat.le_zero.mp hle) hmax
  | true => rfl

/-- While no job runs and the queue is not empty, a worker can take from it. -/
theorem exists_looks (hn : 0 < n) (h : s.Inv) (hl : s.Live max) (hq : s.q ≠ [])
    (hle : s.pills ≤ n) (hrun : ∀ w i, s.workers w ≠ .running i) :
    ∃ w, s.workers w = .taking ∨ s.workers w = .wait true := by
  by_contra hnone
  push Not at hnone
  -- a blocked worker leaves one that has been signalled, so there is none
  have hw : ∀ w, s.workers w = .exited := by
    intro w
    cases hpc : s.workers w with
    | taking => exact absurd hpc (hnone w).1
    | wait sig =>
      cases sig with
      | false =>
        obtain ⟨v, hv⟩ := hl.covered.roused (List.length_pos_iff.mpr hq) hpc
        exact absurd hv (hnone v).2
      | true => exact absurd hpc (hnone w).2
    | running i => exact absurd hpc (hrun w i)
    | exited => rfl
  exact hq (h.fifo.empty hn hle hw)

end Pool

/-- The steps that the destructor itself has left behind its first loop. -/
def DtorPc.left (n : ℕ) : DtorPc → ℕ
  | .idle | .done => 0
  | .pushing | .wait _ => n + 2
  | .joining i => n - i + 1

namespace Pool
variable {α : Type*} {n max : ℕ} {blockadd : Bool} {s t : Pool α n} {e : PoolEvent α n}

/-- What is left to do: a pill to push is also one to take, a job to take also one to run. -/
def left (s : Pool α n) : ℕ :=
  3 * (n - s.pills) + 2 * s.q.length + (s.taken.length - s.finished.length) + s.dtor.left n

theorem left_hasSpace (d : DtorPc) (len : ℕ) : (d.hasSpace max len).left n = d.left n := by
  cases d <;> rfl

theorem left_deq (hq : s.q ≠ []) (w : Fin n) : (s.deq max w).left < s.left := by
  rw [deq]
  split
  · contradiction
  · rename_i j q hfront
    simp only [left, left_hasSpace, hfront, List.length_cons, List.length_append, List.length_nil]
    omega
  · rename_i q hfront
    simp only [left, left_hasSpace, hfront, List.length_cons]
    omega

theorem left_enqPill (hp : s.Pushing) (hlt : s.pills < n) (hq : s.HasSpace max)
    (pick : Option (Fin n)) : (s.enqPill max pick).left < s.left := by
  have hd : s.dtor.left n = n + 2 := by
    rcases hp with ⟨hd, -⟩ | ⟨sig, hd⟩ <;> rw [hd] <;> rfl
  rw [enqPill, if_pos hq]
  rw [left, left, hd]
  simp only [enq, DtorPc.left, List.length_append, List.length_singleton]
  omega

theorem Ran.length_lt (h : s.Ran) {w : Fin n} {i : ℕ} (hw : s.workers w = .running i) :
    s.finished.length < s.taken.length := by
  have hnodup : (i :: s.finished.map Prod.fst).Nodup :=
    List.nodup_cons.mpr ⟨(h.running w i hw).2, h.once⟩
  have hsub : i :: s.finished.map Prod.fst ⊆ List.range s.taken.length := by
    intro k hk
    rw [List.mem_range]
    rcases List.mem_cons.mp hk with rfl | hk
    · obtain ⟨⟨j, hj⟩, -⟩ := h.running w k hw
      exact (List.getElem?_eq_some_iff.mp hj).1
    · exact h.finished_lt hk
  have hlen := (hnodup.subperm hsub).length_le
  rw [List.length_cons, List.length_map, List.length_range] at hlen
  exact hlen

theorem delivered_of_none (he : e.signals = none) : s.Delivered e := by
  intro pick hpick
  rw [he] at hpick
  cases hpick

theorem exists_finish (h : s.Ran) {w : Fin n} {i : ℕ} (hw : s.workers w = .running i) :
    ∃ e t, (s.Delivered e ∧ s.Prompted e) ∧ s.step max blockadd e = some t ∧ t.left < s.left := by
  refine ⟨.finish w, { s with
    workers := Function.update s.workers w .taking
    finished := s.finished ++ [(i, w)] }, ⟨delivered_of_none rfl, trivial⟩,
    by simp only [step, hw], ?_⟩
  have hlt := h.length_lt hw
  simp only [left, List.length_append, List.length_singleton]
  omega

theorem exists_take (hq : s.q ≠ []) {w : Fin n}
    (hw : s.workers w = .taking ∨ s.workers w = .wait true) :
    ∃ e t, (s.Delivered e ∧ s.Prompted e) ∧ s.step max blockadd e = some t ∧ t.left < s.left := by
  rcases hw with hw | hw
  · refine ⟨.take w, s.deq max w, ⟨delivered_of_none rfl, trivial⟩, ?_, left_deq hq w⟩
    simp only [step, hw, if_true]
  · refine ⟨.takeWake w, s.deq max w, ⟨delivered_of_none rfl, hw⟩, ?_, left_deq hq w⟩
    simp only [step, hw]

/-- With no job running and nothing in the queue the destructor goes on. -/
theorem exists_dtor (h : s.Inv) (hl : s.Live max) (hq : s.q = []) (hidle : s.dtor ≠ .idle)
    (hdone : s.dtor ≠ .done) :
    ∃ e t, (s.Delivered e ∧ s.Prompted e) ∧ s.step max blockadd e = some t ∧ t.left < s.left := by
  obtain ⟨pick, hpick⟩ := exists_reaches WorkerPc.wait s.workers
  have hdel : ∀ e : PoolEvent α n, e.signals = some pick → s.Delivered e := by
    intro e he pick' he'
    rw [he] at he'
    cases he'
    exact hpick
  have hphase := h.phase
  have hspace : s.HasSpace max := by
    rw [HasSpace, hq, List.length_nil]
    exact Nat.eq_zero_or_pos max
  cases hd : s.dtor with
  | idle => exact absurd hd hidle
  | done => exact absurd hd hdone
  | pushing =>
    rw [Phase, hd] at hphase
    by_cases hlt : s.pills < n
    · refine ⟨.push pick, s.enqPill max pick, ?_, by simp only [step, hd, hlt, if_true], ?_⟩
      · exact ⟨hdel _ rfl, trivial⟩
      · exact left_enqPill (.inl ⟨hd, hlt⟩) hlt hspace pick
    · refine ⟨.push pick, { s with dtor := .joining 0 }, ?_,
        by simp only [step, hd, hlt, if_true, if_false], ?_⟩
      · exact ⟨hdel _ rfl, trivial⟩
      · simp only [left, hd, DtorPc.left]
        omega
  | wait sig =>
    rw [Phase, hd] at hphase
    obtain rfl := hl.signalled hq hd
    refine ⟨.pushWake pick, s.enqPill max pick, ?_, by simp only [step, hd], ?_⟩
    · exact ⟨hdel _ rfl, hd⟩
    · exact left_enqPill (.inr ⟨true, hd⟩) hphase.2 hspace pick
  | joining i =>
    rw [Phase, hd] at hphase
    by_cases hi : i < n
    · have hw := h.fifo.exited hq hphase.2.1
      refine ⟨.join, { s with dtor := .joining (i + 1) }, ⟨delivered_of_none rfl, trivial⟩,
        by simp only [step, hd, hi, hw, if_true, dite_true], ?_⟩
      simp only [left, hd, DtorPc.left]
      omega
    · refine ⟨.join, { s with dtor := .done }, ⟨delivered_of_none rfl, trivial⟩,
        by simp only [step, hd, hi, dite_false], ?_⟩
      simp only [left, hd, DtorPc.left]
      omega

theorem exists_advance (hn : 0 < n) (h : s.Inv) (hl : s.Live max) (hidle : s.dtor ≠ .idle)
    (hdone : s.dtor ≠ .done) :
    ∃ e t, (s.Delivered e ∧ s.Prompted e) ∧ s.step max blockadd e = some t ∧ t.left < s.left := by
  by_cases hrun : ∃ w i, s.workers w = .running i
  · obtain ⟨w, i, hw⟩ := hrun
    exact exists_finish h.ran hw
  · push Not at hrun
    by_cases hq : s.q = []
    · exact exists_dtor h hl hq hidle hdone
    · obtain ⟨w, hw⟩ := exists_looks hn h hl hq (h.phase.pills_le hidle) hrun
      exact exists_take hq hw

theorem hasSpace_idle {d : DtorPc} {len : ℕ} (h : d.hasSpace max len = .idle) : d = .idle := by
  cases d with
  | idle => rfl
  | _ => cases h

theorem Moves.started (hm : Moves max s e t) (ht : t.dtor = .idle) : s.dtor = .idle := by
  cases hm with
  | job w j q => exact hasSpace_idle ht
  | exit w q => exact hasSpace_idle ht
  | same | callers | accept | sleep | finish => exact ht
  | _ => cases ht

theorem Live.init : (Pool.init : Pool α n).Live max := ⟨nofun, nofun⟩

theorem Inv.exists_done (hn : 0 < n) (h : s.Inv) (hl : s.Live max) (hidle : s.dtor ≠ .idle) :
    ∃ fs t, (thrPool α n max blockadd).Along (fun s e => s.Delivered e ∧ s.Prompted e) s fs ∧
      (thrPool α n max blockadd).runFrom s fs = some t ∧ t.dtor = .done := by
  apply Machine.exists_run_of_measure
    (I := fun s : Pool α n => s.Inv ∧ s.Live max ∧ s.dtor ≠ .idle) left
  · rintro s ⟨h, hl, hidle⟩ hdone
    obtain ⟨e, t, he, hst, hlt⟩ := exists_advance hn h hl hidle hdone
    have hm := moves_of_step hst
    exact ⟨e, t, he, hst, ⟨h.moves hm, hl.moves he.1 hm, fun ht => hidle (hm.started ht)⟩, hlt⟩
  · exact ⟨h, hl, hidle⟩

end Pool

/-- In a pool with at least one worker no job is lost: in every run the jobs are taken in the
order in which they were accepted, each runs on the one worker that took it, each worker exits
with the one pill it takes, and behind the joins the queue is empty and every job has returned.
If the signals are delivered then the destructor, once entered, can always go on to its end,
without a wait that ends by itself. -/
theorem shutdown_loses_no_job {α : Type*} {n max : ℕ} {blockadd : Bool} (hn : 0 < n)
    (es : List (PoolEvent α n)) :
    (thrPool α n max blockadd).Throughout Pool.Lossless Pool.init es ∧
      ((thrPool α n max blockadd).Along Pool.Delivered Pool.init es →
        ∀ s, (thrPool α n max blockadd).run es = some s → s.dtor ≠ .idle →
          ∃ fs t, (thrPool α n max blockadd).Along (fun s e => s.Delivered e ∧ s.Prompted e) s fs ∧
            (thrPool α n max blockadd).runFrom s fs = some t ∧ t.dtor = .done) := by
  constructor
  · apply Machine.throughout_of_invariant (fun _ h => Pool.Inv.lossless hn h)
    · intro s e t h hst
      exact h.moves (Pool.moves_of_step hst)
    · exact Pool.Inv.init
  · intro hdel s hrun hidle
    have hinv : s.Inv ∧ s.Live max := by
      refine Machine.Along.invariant (I := fun s => s.Inv ∧ s.Live max) ?_
        ⟨Pool.Inv.init, Pool.Live.init⟩ hdel hrun
      rintro s e t ⟨h, hl⟩ he hst
      have hm := Pool.moves_of_step hst
      exact ⟨h.moves hm, hl.moves he hm⟩
    exact hinv.1.exists_done hn hinv.2 hidle

/-- One worker over a queue of one entry: the job fills it, and the pill waits for space. -/
theorem shutdown_loses_no_job_one : 0 < 1 ∧
    (thrPool ℕ 1 1 true).Throughout Pool.Lossless Pool.init
      [.addJob 7 none, .destroy, .push none, .take 0, .pushWake none, .push none, .finish 0,
        .take 0, .join, .join] ∧
    ∃ s, (thrPool ℕ 1 1 true).run
      [.addJob 7 none, .destroy, .push none, .take 0, .pushWake none, .push none, .finish 0,
        .take 0, .join, .join] = some s ∧ s.dtor = .done ∧ s.finished = [(0, 0)] :=
  ⟨by decide, (shutdown_loses_no_job (by decide) _).1,
    Machine.exists_run_of_any _ (by decide)⟩

/-- A pool without workers accepts a job; its destructor has nobody to join and leaves the job
in the queue. -/
theorem shutdown_without_workers :
    ∃ s, (thrPool ℕ 0 0 true).run [.addJob 7 none, .destroy, .push none, .join] = some s ∧
      s.dtor = .done ∧ s.accepted = [7] ∧ s.q = [some 7] ∧ s.finished = [] :=
  Machine.exists_run_of_any _ (by decide)

end YFS.Rpc
