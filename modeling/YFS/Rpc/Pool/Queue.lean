import YFS.Rpc.Pool.Model

/-! # The queue of the pool and the phases of its destructor -/

namespace YFS.Rpc.Pool
open Library Library.Condition

variable {α : Type*} {n max : ℕ} {blockadd : Bool} {s t : Pool α n} {e : PoolEvent α n}

/-! ## The phases of the destructor -/

def Phase (s : Pool α n) : Prop :=
  match s.dtor with
  | .idle => s.pills = 0
  | .pushing => s.waiting = [] ∧ s.pills ≤ n
  | .wait _ => s.waiting = [] ∧ s.pills < n
  | .joining i => s.waiting = [] ∧ s.pills = n ∧ ∀ w : Fin n, w.val < i → s.workers w = .exited
  | .done => s.waiting = [] ∧ s.pills = n ∧ ∀ w, s.workers w = .exited

theorem Phase.idle_of_caller (h : s.Phase) (ho : s.dtor = .idle ∨ s.waiting ≠ []) :
    s.dtor = .idle ∧ s.pills = 0 := by
  rw [Phase] at h
  cases hd : s.dtor <;> simp_all

theorem Phase.pushing (h : s.Phase) (hp : s.Pushing) : s.waiting = [] ∧ s.pills < n := by
  rcases hp with ⟨hd, hlt⟩ | ⟨sig, hd⟩
  · rw [Phase, hd] at h
    exact ⟨h.1, hlt⟩
  · rw [Phase, hd] at h
    exact h

theorem Phase.pills_le (h : s.Phase) (hd : s.dtor ≠ .idle) : s.pills ≤ n := by
  rw [Phase] at h
  cases hs : s.dtor with
  | idle => exact absurd hs hd
  | pushing =>
    rw [hs] at h
    exact h.2
  | wait sig =>
    rw [hs] at h
    exact h.2.le
  | joining i =>
    rw [hs] at h
    exact h.2.1.le
  | done =>
    rw [hs] at h
    exact h.2.1.le

theorem hasSpace_kind (d : DtorPc) (max len : ℕ) :
    d.hasSpace max len = d ∨ ∃ a b, d = .wait a ∧ d.hasSpace max len = .wait b := by
  cases d with
  | wait sig => exact .inr ⟨sig, _, rfl, rfl⟩
  | _ => exact .inl rfl

theorem Phase.worker (h : s.Phase) (hp : t.pills = s.pills) (hc : t.waiting = s.waiting)
    (hd : t.dtor = s.dtor ∨ ∃ a b, s.dtor = .wait a ∧ t.dtor = .wait b)
    (hw : ∀ w, s.workers w = .exited → t.workers w = .exited) : t.Phase := by
  rcases hd with hd | ⟨a, b, hs, ht⟩
  · rw [Phase] at h ⊢
    rw [hd, hp, hc]
    cases hs : s.dtor with
    | joining i =>
      rw [hs] at h
      exact ⟨h.1, h.2.1, fun w hi => hw w (h.2.2 w hi)⟩
    | done =>
      rw [hs] at h
      exact ⟨h.1, h.2.1, fun w => hw w (h.2.2 w)⟩
    | _ => rwa [hs] at h
  · rw [Phase, hs] at h
    rw [Phase, ht, hp, hc]
    exact h

theorem update_exited {w : Fin n} (hw : s.workers w ≠ .exited) (p : WorkerPc) (v : Fin n)
    (hv : s.workers v = .exited) : Function.update s.workers w p v = .exited := by
  rw [Function.update_of_ne _]
  · exact hv
  · rintro rfl
    exact hw hv

theorem Phase.moves (h : s.Phase) (hm : Moves max s e t) : t.Phase := by
  cases hm with
  | same => exact h
  | callers waiting hidle =>
    rw [Phase, hidle] at h
    rw [Phase, hidle]
    exact h
  | accept j pick waiting ho =>
    obtain ⟨hidle, hp⟩ := h.idle_of_caller ho
    simp only [Phase, accept, enq, hidle]
    exact hp
  | destroy hidle hw =>
    rw [Phase, hidle] at h
    exact ⟨hw, h ▸ Nat.zero_le n⟩
  | pill pick hp => exact h.pushing hp
  | full hp => exact h.pushing hp
  | pushed hd hp =>
    rw [Phase, hd] at h
    exact ⟨h.1, le_antisymm h.2 hp, fun w hw => absurd hw (Nat.not_lt_zero _)⟩
  | sleep w hl => exact h.worker rfl rfl (.inl rfl) (update_exited hl.ne.1 _)
  | job w j q hl => exact h.worker rfl rfl (hasSpace_kind _ _ _) (update_exited hl.ne.1 _)
  | exit w q hl => exact h.worker rfl rfl (hasSpace_kind _ _ _) (update_exited hl.ne.1 _)
  | finish w i hw =>
    refine h.worker rfl rfl (.inl rfl) (update_exited ?_ _)
    rw [hw]
    exact WorkerPc.noConfusion
  | join i hi hd hw =>
    rw [Phase, hd] at h
    refine ⟨h.1, h.2.1, fun v hv => ?_⟩
    rcases Nat.lt_succ_iff_lt_or_eq.mp hv with hlt | heq
    · exact h.2.2 v hlt
    · rwa [show v = ⟨i, hi⟩ from Fin.ext heq]
  | joined i hi hd =>
    rw [Phase, hd] at h
    exact ⟨h.1, h.2.1, fun v => h.2.2 v (lt_of_lt_of_le v.isLt hi)⟩

/-! ## The order of the queue -/

/-- In the queue the jobs stand in the order of their acceptance, and the pills behind them. -/
def Fifo (s : Pool α n) : Prop :=
  ∃ jobs p, s.q = jobs.map some ++ List.replicate p none ∧
    s.accepted = s.taken.map Prod.fst ++ jobs ∧
    placed s.workers .exited + p = s.pills ∧ (0 < placed s.workers .exited → jobs = [])

theorem placed_signal (pick : Option (Fin n)) :
    placed (signal WorkerPc.wait s.workers pick) .exited = placed s.workers .exited :=
  placed_congr fun w => quiet_signal pick w .exited (.inl rfl)

theorem Fifo.moves (h : s.Fifo) (hs : s.Phase) (hm : Moves max s e t) : t.Fifo := by
  obtain ⟨jobs, p, hq, hacc, hpills, hnone⟩ := h
  cases hm with
  | accept j pick waiting ho =>
    obtain ⟨-, hzero⟩ := hs.idle_of_caller ho
    obtain rfl : p = 0 := by omega
    refine ⟨jobs ++ [j], 0, ?_, ?_, ?_, fun hpos => ?_⟩
    · simp [accept, enq, hq]
    · simp [accept, enq, hacc]
    · exact (placed_signal pick).symm ▸ hpills
    · have hexited := placed_signal (s := s) pick
      simp only [accept, enq] at hpos
      omega
  | pill pick =>
    refine ⟨jobs, p + 1, ?_, hacc, ?_, fun hpos => hnone ?_⟩
    · simp [enq, hq, List.replicate_succ']
    · simp only [enq, placed_signal]
      omega
    · simpa only [enq, placed_signal] using hpos
  | sleep w hl =>
    have hsame : placed (Function.update s.workers w (.wait false)) .exited = _ :=
      placed_update_of_ne hl.ne.1 WorkerPc.noConfusion
    exact ⟨jobs, p, hq, hacc, hsame.symm ▸ hpills, fun hpos => hnone (hsame ▸ hpos)⟩
  | job w j q hl hfront =>
    have hsame : placed (Function.update s.workers w (.running s.taken.length)) .exited = _ :=
      placed_update_of_ne hl.ne.1 WorkerPc.noConfusion
    rw [hfront] at hq
    cases jobs with
    | nil => cases p <;> simp [List.replicate_succ] at hq
    | cons i jobs =>
      obtain ⟨hj, hrest⟩ := List.cons.inj hq
      obtain rfl := Option.some.inj hj
      refine ⟨jobs, p, hrest, ?_, hsame.symm ▸ hpills, fun hpos => ?_⟩
      · simp [hacc]
      · exact absurd (hnone (hsame ▸ hpos)) (List.cons_ne_nil _ _)
  | exit w q hl hfront =>
    have hmore := placed_update s.workers w .exited .exited
    rw [if_neg hl.ne.1, if_pos rfl, add_zero] at hmore
    rw [hfront] at hq
    cases jobs with
    | nil =>
      cases p with
      | zero => cases hq
      | succ p =>
        refine ⟨[], p, (List.cons.inj hq).2, hacc, ?_, fun _ => rfl⟩
        simp only [hmore]
        omega
    | cons i jobs => cases (List.cons.inj hq).1
  | finish w i hw =>
    have hne : s.workers w ≠ .exited := by simp [hw]
    have hsame : placed (Function.update s.workers w .taking) .exited = _ :=
      placed_update_of_ne hne WorkerPc.noConfusion
    exact ⟨jobs, p, hq, hacc, hsame.symm ▸ hpills, fun hpos => hnone (hsame ▸ hpos)⟩
  | _ => exact ⟨jobs, p, hq, hacc, hpills, hnone⟩

/-- Once all pills are out and taken, every worker has one. -/
theorem Fifo.exited (h : s.Fifo) (hq : s.q = []) (hp : s.pills = n) (w : Fin n) :
    s.workers w = .exited := by
  obtain ⟨jobs, p, hjobs, -, hpills, -⟩ := h
  have hzero : p = 0 := by
    have hlen := congrArg List.length hjobs
    rw [hq, List.length_append, List.length_replicate, List.length_nil] at hlen
    omega
  revert w
  rw [← placed_eq_card_iff, Fintype.card_fin]
  omega

/-- A worker has exited, so every job has been taken; when all have, every pill has too. -/
theorem Fifo.empty (h : s.Fifo) (hn : 0 < n) (hle : s.pills ≤ n)
    (hw : ∀ w, s.workers w = .exited) : s.q = [] := by
  obtain ⟨jobs, p, hq, -, hpills, hnone⟩ := h
  have hcard : placed s.workers .exited = n := by
    rw [placed_eq_card_iff.mpr hw, Fintype.card_fin]
  have hjobs : jobs = [] := hnone (by omega)
  have hp : p = 0 := by omega
  rw [hq, hjobs, hp]
  rfl

theorem Fifo.order (h : s.Fifo) : s.taken.map Prod.fst <+: s.accepted := by
  obtain ⟨jobs, -, -, hacc, -⟩ := h
  exact ⟨jobs, hacc.symm⟩

theorem Fifo.taken_of_empty (h : s.Fifo) (hq : s.q = []) : s.taken.map Prod.fst = s.accepted := by
  obtain ⟨jobs, p, hjobs, hacc, -⟩ := h
  rw [hq] at hjobs
  obtain rfl : jobs = [] := List.map_eq_nil_iff.mp (List.append_eq_nil_iff.mp hjobs.symm).1
  rw [hacc, List.append_nil]

end YFS.Rpc.Pool
