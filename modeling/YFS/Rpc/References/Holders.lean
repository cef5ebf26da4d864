import YFS.Rpc.References.Model

/-! # Who holds a reference to a connection -/

namespace YFS.Rpc.Refs
open YFS.Library

variable {ι κ : Type}

def held (s : Refs ι κ) : ι ⊕ ℕ → Option κ :=
  Sum.elim (fun j => (s.jobs j).conn) fun clt => (s.latest clt).join

def shared (s : Refs ι κ) (c : κ) : ℤ := (s.conns c).elim 0 fun k => k.refno - 1

/-- What a job relies on: it is not on its way out without a `decref`, and a client that has a
nonce has an entry once the connection is saved. -/
def JobOk (s : Refs ι κ) : JobPc κ → Prop
  | .oldServer _ => False
  | .check _ h => ∃ d, s.latest h.cltNonce = some (some d)
  | .running _ h => h.cltNonce ≠ 0 → ∃ d, s.latest h.cltNonce = some (some d)
  | _ => True

structure Sound (s : Refs ι κ) : Prop where
  entries : ∀ clt, s.latest clt ≠ some none
  jobs : ∀ j, s.JobOk (s.jobs j)

structure Balanced [DecidableEq κ] (s : Refs ι κ) : Prop where
  tally : Tally s.held s.shared
  sound : s.Sound

variable {s t : Refs ι κ} {c d : κ} {j : ι} {clt : ℕ}

theorem held_congr (hl : t.latest = s.latest) (hj : t.jobs = s.jobs) : t.held = s.held := by
  rw [held, held, hl, hj]

theorem held_entry {v : Option κ} (he : s.latest clt = some v) : s.held (.inr clt) = v := by
  rw [held, Sum.elim_inr, he, Option.join_some]

theorem JobOk.mono (hl : ∀ clt d, s.latest clt = some (some d) → ∃ d, t.latest clt = some (some d))
    {pc : JobPc κ} (h : s.JobOk pc) : t.JobOk pc := by
  cases pc with
  | oldServer => exact h
  | check c r =>
    obtain ⟨d, hd⟩ := h
    exact hl _ d hd
  | running c r =>
    intro hne
    obtain ⟨d, hd⟩ := h hne
    exact hl _ d hd
  | _ => trivial

theorem Sound.congr (hs : s.Sound) (hl : t.latest = s.latest) (hj : t.jobs = s.jobs) :
    t.Sound := by
  refine ⟨fun clt => hl ▸ hs.entries clt, fun j => ?_⟩
  rw [hj]
  exact (hs.jobs j).mono fun clt d hd => ⟨d, hl ▸ hd⟩

theorem Sound.setLatest (hs : s.Sound) : (s.setLatest clt c).Sound := by
  constructor
  · intro i
    by_cases hi : i = clt
    · simp [Refs.setLatest, hi]
    · simpa [Refs.setLatest, hi] using hs.entries i
  · intro j
    refine (hs.jobs j).mono fun i d hd => ?_
    by_cases hi : i = clt
    · exact ⟨c, by simp [Refs.setLatest, hi]⟩
    · exact ⟨d, by simpa [Refs.setLatest, hi] using hd⟩

section Jobs
variable [DecidableEq ι]

theorem held_setLatest : (s.setLatest clt c).held = Function.update s.held (.inr clt) (some c) := by
  funext i
  cases i with
  | inl j => simp [held, setLatest]
  | inr i =>
    by_cases hi : i = clt
    · subst hi
      simp [held, setLatest]
    · simp [held, setLatest, hi]

theorem held_setJob {pc : JobPc κ} :
    (s.setJob j pc).held = Function.update s.held (.inl j) pc.conn := by
  funext i
  cases i with
  | inl i =>
    by_cases hi : i = j
    · subst hi
      simp [held, setJob]
    · simp [held, setJob, hi]
  | inr clt => simp [held, setJob]

theorem Sound.setJob (hs : s.Sound) {pc : JobPc κ} (hpc : s.JobOk pc) : (s.setJob j pc).Sound := by
  refine ⟨hs.entries, fun i => ?_⟩
  by_cases hi : i = j
  · subst hi
    simp only [Refs.setJob, Function.update_self]
    exact hpc
  · simp only [Refs.setJob, Function.update_of_ne hi]
    exact hs.jobs i

end Jobs

/-! ## References taken and released -/

section Counts
variable [DecidableEq κ] {α : Type} {held : α → Option κ} {i : α} {k : Conn}

theorem shared_setConn {v : Option Conn} :
    (s.setConn c v).shared = Function.update s.shared c (v.elim 0 fun k => k.refno - 1) := by
  funext d
  by_cases hd : d = c
  · subst hd
    simp [shared, setConn]
  · simp [shared, setConn, hd]

theorem exists_conn (h : Tally held s.shared) (hi : held i = some c) :
    ∃ k, s.conns c = some k ∧ 2 ≤ k.refno := by
  have hpos := h.pos hi
  unfold shared at hpos
  cases hc : s.conns c with
  | none => simp [hc] at hpos
  | some k =>
    rw [hc, Option.elim_some] at hpos
    exact ⟨k, rfl, by omega⟩

variable [DecidableEq α]

theorem incref_tally (h : Tally held s.shared) (hk : s.conns c = some k) (hi : held i = none) :
    ∃ t, s.incref c = some t ∧ t.latest = s.latest ∧ t.jobs = s.jobs ∧
      Tally (Function.update held i (some c)) t.shared := by
  refine ⟨s.setConn c (some { k with refno := k.refno + 1 }), ?_, rfl, rfl, ?_⟩
  · simp only [incref, hk, Option.bind_eq_bind, Option.bind_some]
  · have hshared : s.shared c + 1 = k.refno + 1 - 1 := by
      rw [shared, hk, Option.elim_some]
      ring
    rw [shared_setConn, Option.elim_some, ← hshared]
    exact h.take hi c

theorem decref_tally (h : Tally held s.shared) (hi : held i = some c) :
    ∃ t, s.decref c = some t ∧ t.latest = s.latest ∧ t.jobs = s.jobs ∧
      Tally (Function.update held i none) t.shared := by
  obtain ⟨k, hk, hr⟩ := exists_conn h hi
  have hneg : ¬k.refno - 1 < 0 := by omega
  have hzero : ¬k.refno - 1 = 0 := by omega
  refine ⟨s.setConn c (some { k with refno := k.refno - 1 }), ?_, rfl, rfl, ?_⟩
  · simp only [decref, hk, Option.bind_eq_bind, Option.bind_some, hneg, hzero, if_false, false_and]
  · have hshared : s.shared c - 1 = k.refno - 1 - 1 := by rw [shared, hk, Option.elim_some]
    rw [shared_setConn, Option.elim_some, ← hshared]
    exact h.drop hi

omit [DecidableEq α] in
theorem decref_last (hk : s.conns c = some k) (hdead : k.dead = true) (hone : k.refno = 1) :
    s.decref c = some (s.setConn c none) := by
  simp only [decref, hk, hone, hdead, Option.bind_eq_bind, Option.bind_some, sub_self, lt_irrefl,
    if_false, and_self, if_true]

theorem exchange_tally (h : Tally held s.shared) (hi : held i = some d) {i' : α} (hne : i' ≠ i)
    (hc : held i' = some c) :
    ∃ t u, s.decref d = some t ∧ t.incref c = some u ∧ u.latest = s.latest ∧ u.jobs = s.jobs ∧
      Tally (Function.update held i (some c)) u.shared := by
  obtain ⟨t, hdec, htl, htj, ht⟩ := decref_tally h hi
  have hheld : Function.update held i none i' = some c := by rw [Function.update_of_ne hne, hc]
  obtain ⟨k, hk, -⟩ := exists_conn ht hheld
  obtain ⟨u, hinc, hul, huj, hu⟩ := incref_tally ht hk (Function.update_self i none held)
  rw [Function.update_idem] at hu
  exact ⟨t, u, hdec, hinc, hul.trans htl, huj.trans htj, hu⟩

/-- The connection is made, dies or is deleted, and no reference is taken or released. -/
theorem Balanced.setConn (hs : s.Balanced) {v : Option Conn}
    (hv : v.elim 0 (fun k => k.refno - 1) = s.shared c) : (s.setConn c v).Balanced := by
  refine ⟨?_, hs.sound.congr rfl rfl⟩
  rw [shared_setConn, hv, Function.update_eq_self]
  exact hs.tally

end Counts

end YFS.Rpc.Refs
