import YFS.Rpc.Pool.Model

/-! # Which worker runs which job -/

namespace YFS.Rpc.Pool
open Library Library.Condition

variable {α : Type*} {n max : ℕ} {blockadd : Bool} {s t : Pool α n} {e : PoolEvent α n}

/-- The jobs that are running, those that have returned, and the pills. -/
structure Ran (s : Pool α n) : Prop where
  running : ∀ w i, s.workers w = .running i →
    (∃ j, s.taken[i]? = some (j, w)) ∧ i ∉ s.finished.map Prod.fst
  once : (s.finished.map Prod.fst).Nodup
  finished : ∀ x ∈ s.finished, ∃ j, s.taken[x.1]? = some (j, x.2)
  started : ∀ i, i < s.taken.length →
    i ∈ s.finished.map Prod.fst ∨ ∃ w, s.workers w = .running i
  pills : ∀ w, s.consumed w = if s.workers w = .exited then 1 else 0

theorem Ran.finished_lt (h : s.Ran) {i : ℕ} (hi : i ∈ s.finished.map Prod.fst) :
    i < s.taken.length := by
  obtain ⟨x, hx, rfl⟩ := List.mem_map.mp hi
  obtain ⟨j, hj⟩ := h.finished x hx
  exact (List.getElem?_eq_some_iff.mp hj).1

structure Quiet (s t : Pool α n) : Prop where
  taken : t.taken = s.taken
  finished : t.finished = s.finished
  consumed : t.consumed = s.consumed
  workers : ∀ w p, p = .exited ∨ (∃ i, p = .running i) → (t.workers w = p ↔ s.workers w = p)

theorem quiet_sleep {w : Fin n} (hl : s.Looks w) (v : Fin n) (p : WorkerPc)
    (hp : p = .exited ∨ ∃ i, p = .running i) :
    Function.update s.workers w (.wait false) v = p ↔ s.workers v = p := by
  by_cases hvw : v = w
  · subst hvw
    rw [Function.update_self]
    rcases hp with rfl | ⟨i, rfl⟩
    · exact ⟨nofun, fun hv => absurd hv hl.ne.1⟩
    · exact ⟨nofun, fun hv => absurd hv (hl.ne.2 i)⟩
  · rw [Function.update_of_ne hvw]

theorem Ran.quiet (h : s.Ran) (hq : Quiet s t) : t.Ran where
  running w i hw := by
    rw [hq.taken, hq.finished]
    exact h.running w i ((hq.workers w _ (.inr ⟨i, rfl⟩)).mp hw)
  once := by
    rw [hq.finished]
    exact h.once
  finished := by
    rw [hq.taken, hq.finished]
    exact h.finished
  started i := by
    rw [hq.taken, hq.finished]
    intro hi
    exact (h.started i hi).imp_right fun ⟨w, hw⟩ => ⟨w, (hq.workers w _ (.inr ⟨i, rfl⟩)).mpr hw⟩
  pills w := by
    rw [hq.consumed, h.pills w]
    simp only [hq.workers w .exited (.inl rfl)]

/-- The pills of the workers after one that has not exited moves to another place than the exit. -/
theorem Ran.pills_update (h : s.Ran) {w : Fin n} (hw : s.workers w ≠ .exited) {p : WorkerPc}
    (hp : p ≠ .exited) (v : Fin n) :
    s.consumed v = if Function.update s.workers w p v = .exited then 1 else 0 := by
  rw [h.pills v]
  by_cases hv : v = w
  · subst hv
    rw [Function.update_self, if_neg hw, if_neg hp]
  · rw [Function.update_of_ne hv]

theorem running_update {w v : Fin n} {i : ℕ} (hw : ∀ i, s.workers w ≠ .running i) (p : WorkerPc)
    (hv : s.workers v = .running i) : Function.update s.workers w p v = .running i := by
  rw [Function.update_of_ne _]
  · exact hv
  · rintro rfl
    exact hw i hv

theorem Ran.job (h : s.Ran) {w : Fin n} (hl : s.Looks w) (j : α) (q : List (Option α))
    (d : DtorPc) :
    Ran { s with
      q := q
      workers := Function.update s.workers w (.running s.taken.length)
      dtor := d
      taken := s.taken ++ [(j, w)] } where
  running v i hv := by
    by_cases hvw : v = w
    · subst hvw
      simp only [Function.update_self, WorkerPc.running.injEq] at hv
      subst hv
      refine ⟨⟨j, by simp⟩, fun hi => ?_⟩
      exact absurd (h.finished_lt hi) (lt_irrefl _)
    · simp only [Function.update_of_ne hvw] at hv
      obtain ⟨⟨k, hk⟩, hi⟩ := h.running v i hv
      exact ⟨⟨k, by rw [List.getElem?_append_left (List.getElem?_eq_some_iff.mp hk).1, hk]⟩, hi⟩
  once := h.once
  finished x hx := by
    obtain ⟨k, hk⟩ := h.finished x hx
    exact ⟨k, by rw [List.getElem?_append_left (List.getElem?_eq_some_iff.mp hk).1, hk]⟩
  started i hi := by
    rw [List.length_append, List.length_singleton] at hi
    rcases Nat.lt_succ_iff_lt_or_eq.mp hi with hlt | rfl
    · exact (h.started i hlt).imp_right fun ⟨v, hv⟩ => ⟨v, running_update hl.ne.2 _ hv⟩
    · exact .inr ⟨w, Function.update_self _ _ _⟩
  pills := h.pills_update hl.ne.1 nofun

theorem Ran.exit (h : s.Ran) {w : Fin n} (hl : s.Looks w) (q : List (Option α)) (d : DtorPc) :
    Ran { s with
      q := q
      workers := Function.update s.workers w .exited
      dtor := d
      consumed := Function.update s.consumed w (s.consumed w + 1) } where
  running v i hv := by
    by_cases hvw : v = w
    · subst hvw
      simp only [Function.update_self, reduceCtorEq] at hv
    · simp only [Function.update_of_ne hvw] at hv
      exact h.running v i hv
  once := h.once
  finished := h.finished
  started i hi := (h.started i hi).imp_right fun ⟨v, hv⟩ => ⟨v, running_update hl.ne.2 _ hv⟩
  pills v := by
    by_cases hvw : v = w
    · subst hvw
      simp only [Function.update_self, h.pills v, if_neg hl.ne.1, if_true]
    · simp only [Function.update_of_ne hvw, h.pills v]

theorem Ran.finish (h : s.Ran) {w : Fin n} {i : ℕ} (hw : s.workers w = .running i) :
    Ran { s with
      workers := Function.update s.workers w .taking
      finished := s.finished ++ [(i, w)] } where
  running v k hv := by
    by_cases hvw : v = w
    · subst hvw
      simp only [Function.update_self, reduceCtorEq] at hv
    · simp only [Function.update_of_ne hvw] at hv
      obtain ⟨⟨j, hj⟩, hk⟩ := h.running v k hv
      refine ⟨⟨j, hj⟩, fun hmem => ?_⟩
      rw [List.map_append, List.mem_append] at hmem
      rcases hmem with hmem | hmem
      · exact hk hmem
      · obtain rfl : k = i := by simpa using hmem
        obtain ⟨⟨j', hj'⟩, -⟩ := h.running w k hw
        rw [hj] at hj'
        cases hj'
        exact hvw rfl
  once := by
    rw [List.map_append, List.nodup_append']
    refine ⟨h.once, List.nodup_singleton _, ?_⟩
    rw [List.map_singleton, List.disjoint_singleton]
    exact (h.running w i hw).2
  finished x hx := by
    rcases List.mem_append.mp hx with hx | hx
    · exact h.finished x hx
    · obtain rfl := List.mem_singleton.mp hx
      exact (h.running w i hw).1
  started k hk := by
    simp only [List.map_append, List.mem_append]
    rcases h.started k hk with hmem | ⟨v, hv⟩
    · exact .inl (.inl hmem)
    · by_cases hvw : v = w
      · subst hvw
        rw [hw] at hv
        cases hv
        exact .inl (.inr (List.mem_singleton_self _))
      · exact .inr ⟨v, by rw [Function.update_of_ne hvw, hv]⟩
  pills := h.pills_update (hw ▸ nofun) nofun

theorem Ran.moves (h : s.Ran) (hm : Moves max s e t) : t.Ran := by
  cases hm with
  | job w j q hl => exact h.job hl j q _
  | exit w q hl => exact h.exit hl q _
  | finish w i hw => exact h.finish hw
  | accept j pick => exact h.quiet ⟨rfl, rfl, rfl, quiet_signal pick⟩
  | pill pick => exact h.quiet ⟨rfl, rfl, rfl, quiet_signal pick⟩
  | sleep w hl => exact h.quiet ⟨rfl, rfl, rfl, quiet_sleep hl⟩
  | _ => exact h.quiet ⟨rfl, rfl, rfl, fun _ _ _ => Iff.rfl⟩

/-- Once every worker has exited each job that was taken has returned, once. -/
theorem Ran.perm (h : s.Ran) (hw : ∀ w, s.workers w = .exited) :
    (s.finished.map Prod.fst).Perm (List.range s.taken.length) := by
  rw [List.perm_ext_iff_of_nodup h.once List.nodup_range]
  intro i
  rw [List.mem_range]
  refine ⟨h.finished_lt, fun hi => ?_⟩
  rcases h.started i hi with hmem | ⟨w, hrun⟩
  · exact hmem
  · rw [hw w] at hrun
    cases hrun

end YFS.Rpc.Pool
