import YFS.Rpc.References.Holders

/-! # The references stay balanced -/

namespace YFS.Rpc.Refs
open YFS.Library

variable {ι κ : Type} [DecidableEq ι] [DecidableEq κ] {s t : Refs ι κ} {c d : κ} {j : ι} {clt : ℕ}

theorem Balanced.setJob (hs : s.Balanced) {pc : JobPc κ} (hc : pc.conn = (s.jobs j).conn)
    (hpc : s.JobOk pc) : (s.setJob j pc).Balanced := by
  refine ⟨?_, hs.sound.setJob hpc⟩
  rw [held_setJob, hc]
  exact (Function.update_eq_self (Sum.inl j) s.held).symm ▸ hs.tally

theorem Balanced.leave (hs : s.Balanced) (hj : (s.jobs j).conn = some c) :
    ∃ t, s.leave j c = some t ∧ t.Balanced := by
  obtain ⟨t, hdec, hl, hjobs, ht⟩ := decref_tally (i := Sum.inl j) hs.tally hj
  refine ⟨t.setJob j .finished, ?_, ?_, (hs.sound.congr hl hjobs).setJob trivial⟩
  · simp only [Refs.leave, hdec, Option.bind_eq_bind, Option.bind_some]
  · rw [held_setJob, held_congr hl hjobs]
    exact ht

/-- The entry of the client takes a reference or exchanges the one it has. -/
theorem Balanced.save (hs : s.Balanced) (clt : ℕ) (hj : (s.jobs j).conn = some c) :
    ∃ t, s.save c clt = some t ∧ t.Balanced ∧ t.jobs = s.jobs ∧
      ∃ d, t.latest clt = some (some d) := by
  have hentry {u : Refs ι κ} (hul : u.latest = s.latest) (huj : u.jobs = s.jobs)
      (hu : Tally (Function.update s.held (.inr clt) (some c)) u.shared) :
      (u.setLatest clt c).Balanced := by
    refine ⟨?_, (hs.sound.congr hul huj).setLatest⟩
    rw [held_setLatest, held_congr hul huj]
    exact hu
  have hheld : s.held (.inl j) = some c := hj
  obtain ⟨kc, hkc, -⟩ := exists_conn hs.tally hheld
  rcases he : s.latest clt with - | (- | d)
  · have hnone : s.held (.inr clt) = none := by rw [held, Sum.elim_inr, he, Option.join_none]
    obtain ⟨t, hinc, hl, hjobs, ht⟩ := incref_tally hs.tally hkc hnone
    refine ⟨t.setLatest clt c, ?_, hentry hl hjobs ht, hjobs, c, Function.update_self ..⟩
    simp only [Refs.save, he, hinc, Option.bind_eq_bind, Option.bind_some]
  · exact absurd he (hs.sound.entries clt)
  · obtain ⟨kd, hkd, -⟩ := exists_conn hs.tally (held_entry he)
    by_cases hlt : kd.compare kc < 0
    · obtain ⟨t, u, hdec, hinc, hl, hjobs, hu⟩ :=
        exchange_tally hs.tally (held_entry he) Sum.inl_ne_inr hheld
      refine ⟨u.setLatest clt c, ?_, hentry hl hjobs hu, hjobs, c, Function.update_self ..⟩
      simp only [Refs.save, he, hkd, hkc, hdec, hinc, Option.bind_eq_bind, Option.bind_some,
        if_pos hlt]
    · refine ⟨s, ?_, hs, rfl, d, he⟩
      simp only [Refs.save, he, hkd, hkc, Option.bind_eq_bind, Option.bind_some, if_neg hlt]

/-- The job keeps its reference or exchanges it for one to the latest connection. -/
theorem Balanced.newest (hs : s.Balanced) (hj : (s.jobs j).conn = some c)
    (hlive : ∀ k, s.conns c = some k → k.dead = true → ∃ d, s.latest clt = some (some d)) :
    ∃ t d, s.newest c clt = some (t, d) ∧ (t.setJob j (.sending d)).Balanced := by
  have hheld : s.held (.inl j) = some c := hj
  have hkeep : (s.setJob j (.sending c)).Balanced := hs.setJob hj.symm trivial
  obtain ⟨k, hk, -⟩ := exists_conn hs.tally hheld
  by_cases hdead : k.dead = true
  · obtain ⟨d, he⟩ := hlive k hk hdead
    by_cases hcd : c = d
    · refine ⟨s, c, ?_, hkeep⟩
      simp only [Refs.newest, hk, he, Option.bind_eq_bind, Option.bind_some, if_pos hdead,
        if_pos hcd]
    · obtain ⟨t, u, hdec, hinc, hl, hjobs, hu⟩ :=
        exchange_tally hs.tally hheld Sum.inr_ne_inl (held_entry he)
      refine ⟨u, d, ?_, ?_, (hs.sound.congr hl hjobs).setJob trivial⟩
      · simp only [Refs.newest, hk, he, hdec, hinc, Option.bind_eq_bind, Option.bind_some,
          if_pos hdead, if_neg hcd]
      · rw [held_setJob, held_congr hl hjobs]
        exact hu
  · refine ⟨s, c, ?_, hkeep⟩
    simp only [Refs.newest, hk, Option.bind_eq_bind, Option.bind_some, if_neg hdead]

theorem Balanced.gotPdu (hs : s.Balanced) {k : Conn} (hk : s.conns c = some k)
    (hj : s.jobs j = .idle) (h : Option ReqHeader) (succ : Bool) :
    ∃ t, s.gotPdu c j h succ = some t ∧ t.Balanced := by
  have hnone : s.held (.inl j) = none := congrArg JobPc.conn hj
  obtain ⟨t, hinc, hl, hjobs, ht⟩ := incref_tally hs.tally hk hnone
  simp only [Refs.gotPdu, hinc, Option.bind_eq_bind, Option.bind_some]
  cases succ with
  | true =>
    refine ⟨_, if_pos rfl, ?_, (hs.sound.congr hl hjobs).setJob trivial⟩
    rw [held_setJob, held_congr hl hjobs]
    exact ht
  | false =>
    obtain ⟨u, hdec, hul, huj, hu⟩ := decref_tally ht (Function.update_self ..)
    refine ⟨u, hdec, ?_, hs.sound.congr (hul.trans hl) (huj.trans hjobs)⟩
    rw [held_congr (hul.trans hl) (huj.trans hjobs)]
    rwa [Function.update_idem, ← hnone, Function.update_eq_self] at hu

variable {nonce : ℕ} (procs : ℕ → Bool)

theorem Balanced.collect (hs : s.Balanced) (c : κ) :
    ∃ t, s.step nonce procs (.collect c) = some t ∧ t.Balanced := by
  simp only [step]
  split
  next k hk =>
    split_ifs with hcond
    · rw [decref_last hk hcond.1 hcond.2]
      refine ⟨_, rfl, hs.setConn ?_⟩
      rw [shared, hk, Option.elim_some, hcond.2]
      rfl
    · exact ⟨s, rfl, hs⟩
  · exact ⟨s, rfl, hs⟩

theorem Balanced.start (hs : s.Balanced) (hp : s.Plain nonce (.start j)) :
    ∃ t, s.step nonce procs (.start j) = some t ∧ t.Balanced := by
  simp only [step]
  split
  next c hj => exact hs.leave (congrArg JobPc.conn hj)
  next c h hj =>
    have hconn : (s.jobs j).conn = some c := congrArg JobPc.conn hj
    have hold : ¬(h.srvNonce ≠ 0 ∧ h.srvNonce ≠ nonce) := by
      rintro ⟨hzero, hother⟩
      rw [Plain, hj] at hp
      exact hp.elim hzero hother
    rw [if_neg hold]
    split_ifs with hproc hclt
    · exact hs.leave hconn
    · exact ⟨_, rfl, hs.setJob hconn.symm trivial⟩
    · exact ⟨_, rfl, hs.setJob hconn.symm fun hne => absurd hne hclt⟩
  · exact ⟨s, rfl, hs⟩

theorem Balanced.register (hs : s.Balanced) (j : ι) :
    ∃ t, s.step nonce procs (.register j) = some t ∧ t.Balanced := by
  simp only [step]
  split
  next c h hj =>
    have hconn : (s.jobs j).conn = some c := congrArg JobPc.conn hj
    obtain ⟨t, hsave, ht, hjobs, hentry⟩ := hs.save h.cltNonce hconn
    have htconn : (JobPc.check c h).conn = (t.jobs j).conn := by
      rw [hjobs, hconn]
      rfl
    rw [hsave]
    exact ⟨_, rfl, ht.setJob htconn hentry⟩
  · exact ⟨s, rfl, hs⟩

theorem Balanced.check (hs : s.Balanced) (j : ι) (stat : RpcState) :
    ∃ t, s.step nonce procs (.check j stat) = some t ∧ t.Balanced := by
  simp only [step]
  split
  next c h hj =>
    have hconn : (s.jobs j).conn = some c := congrArg JobPc.conn hj
    have hok : s.JobOk (.check c h) := hj ▸ hs.sound.jobs j
    cases stat with
    | NEW => exact ⟨_, rfl, hs.setJob hconn.symm fun _ => hok⟩
    | INPROGRESS => exact ⟨_, rfl, hs.setJob hconn.symm trivial⟩
    | DONE => exact ⟨_, rfl, hs.setJob hconn.symm trivial⟩
    | FORGOTTEN => exact ⟨_, rfl, hs.setJob hconn.symm trivial⟩
  · exact ⟨s, rfl, hs⟩

theorem Balanced.swap (hs : s.Balanced) (hp : s.Plain nonce (.swap j)) :
    ∃ t, s.step nonce procs (.swap j) = some t ∧ t.Balanced := by
  simp only [step]
  split
  next c h hj =>
    have hok : s.JobOk (.running c h) := hj ▸ hs.sound.jobs j
    have hlive : ∀ k, s.conns c = some k → k.dead = true →
        ∃ d, s.latest h.cltNonce = some (some d) := by
      intro k hk hdead
      rw [Plain, hj] at hp
      rcases hp with hclt | hlive
      · exact hok hclt
      · rw [hlive k hk] at hdead
        exact absurd hdead Bool.false_ne_true
    obtain ⟨t, d, hnew, ht⟩ := hs.newest (congrArg JobPc.conn hj) hlive
    rw [hnew]
    exact ⟨_, rfl, ht⟩
  · exact ⟨s, rfl, hs⟩

theorem Balanced.send (hs : s.Balanced) (j : ι) :
    ∃ t, s.step nonce procs (.send j) = some t ∧ t.Balanced := by
  have hok := hs.sound.jobs j
  simp only [step]
  split
  next c hj =>
    rw [hj] at hok
    exact hok.elim
  next c hj =>
    have hconn : (s.jobs j).conn = some c := congrArg JobPc.conn hj
    obtain ⟨k, hk, -⟩ := exists_conn (i := Sum.inl j) hs.tally hconn
    rw [hk]
    exact ⟨_, rfl, hs.setJob hconn.symm trivial⟩
  · exact ⟨s, rfl, hs⟩

/-- Every plain step is defined and keeps the references balanced. -/
theorem step_balanced (hs : s.Balanced) (e : RefEvent ι κ) (hp : s.Plain nonce e) :
    ∃ t, s.step nonce procs e = some t ∧ t.Balanced := by
  cases e with
  | accept c sec usec =>
    simp only [step]
    split
    · exact ⟨s, rfl, hs⟩
    next hk =>
      refine ⟨_, rfl, hs.setConn ?_⟩
      rw [shared, hk]
      rfl
  | die c =>
    simp only [step]
    split
    next k hk =>
      refine ⟨_, rfl, hs.setConn ?_⟩
      rw [shared, hk]
      rfl
    · exact ⟨s, rfl, hs⟩
  | collect c => exact hs.collect procs c
  | gotPdu c j h succ =>
    simp only [step]
    split
    next k hk hj =>
      split_ifs
      · exact ⟨s, rfl, hs⟩
      · exact hs.gotPdu hk hj h succ
    · exact ⟨s, rfl, hs⟩
  | start j => exact hs.start procs hp
  | register j => exact hs.register procs j
  | check j stat => exact hs.check procs j stat
  | swap j => exact hs.swap procs hp
  | send j => exact hs.send procs j
  | release j =>
    simp only [step]
    split
    next c hj => exact hs.leave (congrArg JobPc.conn hj)
    · exact ⟨s, rfl, hs⟩

end YFS.Rpc.Refs
