import YFS.Fs.Simulation

/-! # Every interleaving is simulated

One lemma for each request an operation can make, before and after its commit point; from
them, every step and every run of the concurrent operations keeps the simulation.
-/

namespace YFS.Fs
open YFS.Library YFS.Extent

variable {ι : Type}

theorem stage_running {P : Request → Prop} {s : Conc ι} {g : Ghost ι} {i : ι} {q : Request}
    {left : List Random} {p : Prog} (ht : s.task i = .running q left p) :
    Stage P s g i ↔
      P q ∧ (Waiting s g i q left p ∨ Committed g i q p ∨ Apart g i q ∧ p.Reads) := by
  unfold Stage
  rw [ht]

theorem stage_ended {P : Request → Prop} {s : Conc ι} {g : Ghost ι} {i : ι} {q : Request}
    {e : Ending} (ht : s.task i = .ended q e) :
    Stage P s g i ↔
      P q ∧ g.pend i = none ∧ g.fresh i = none ∧ ((i, q, e) ∈ g.log ∨ Apart g i q) := by
  unfold Stage
  rw [ht]

/-- The serial store stays, or takes one request that meets `P`; an inum this request draws was
not in use. -/
def Ghost.Advances (P : Request → Prop) (g g' : Ghost ι) : Prop :=
  g'.serial = g.serial ∨ ∃ q, P q ∧ g'.serial = (q.exec g.serial).2 ∧
    ∀ n, q.drawn = some n → g'.serial = g.serial ∨ g.serial (key n) = none

/-- The request that the program makes next is followed by a write under `k`. -/
def Prog.Leaves (k : ℕ) : Prog → Prop
  | .put _ _ next => ∃ id buf rest, next 0 = .put id buf rest ∧ key id = k
  | .remove _ next => ∃ st id buf rest, next st = .put id buf rest ∧ key id = k
  | _ => False

/-- The serial store advances, at most one operation is added to the log, at its commit point, and
writes are left only to operations that have just made a request with a write behind it. -/
structure Ghost.Grows (P : Request → Prop) (s : Conc ι) (g g' : Ghost ι) : Prop where
  advances : g.Advances P g'
  log : g'.log = g.log ∨ ∃ l left p, g'.log = g.log ++ [l] ∧
    s.task l.1 = .running l.2.1 left p ∧ Waiting s g l.1 l.2.1 left p
  pend : ∀ j k b, g'.pend j = some (k, b) → g.pend j = some (k, b) ∨
    ∃ q left p, s.task j = .running q left p ∧ Waiting s g j q left p ∧ p.Leaves k

theorem Ghost.Grows.refl (P : Request → Prop) (s : Conc ι) (g : Ghost ι) : g.Grows P s g :=
  ⟨Or.inl rfl, Or.inl rfl, fun _ _ _ hb => Or.inl hb⟩

theorem Prog.Closing.eq_put {R : List ℕ} {e : Ending} {k : ℕ} {b : Bytes} {p : Prog}
    (h : p.Closing R e (some (k, b))) : ∃ id rest, p = .put id b rest ∧ key id = k := by
  cases p with
  | put id buf next =>
    obtain ⟨hw, -, -⟩ := h
    cases hw
    exact ⟨id, next, rfl, rfl⟩
  | _ => cases h.1

variable [DecidableEq ι]

section Advance
variable {s s' : Conc ι} {i : ι} {q : Request} {left : List Random} {now id : ℕ}

theorem Conc.advance_get {next : Status → Bytes → Prog}
    (hs : s.advance i q left now (.get id next) = some s') :
    s'.removed = s.removed ∧
      match s.store.contents (key id) with
      | none => Moved s s' i q left (next .NOENT []) s.store.contents
      | some b => Moved s s' i q left (next 0 b) s.store.contents := by
  rw [Conc.advance] at hs
  cases hc : s.store.contents (key id) with
  | none =>
    rw [Store.get_of_none hc] at hs
    cases hs
    exact ⟨rfl, rfl, rfl, rfl, rfl⟩
  | some b =>
    obtain ⟨s₁, hs₁, hg⟩ := Store.get_of_some hc now
    rw [hg] at hs
    cases hs
    exact ⟨rfl, hs₁, rfl, rfl, rfl⟩

theorem Conc.advance_put {buf : Bytes} {next : Status → Prog}
    (hs : s.advance i q left now (.put id buf next) = some s') :
    s'.removed = s.removed ∧
      Moved s s' i q left (next 0) (Function.update s.store.contents (key id) (some buf)) := by
  cases hs
  exact ⟨rfl, Store.contents_put .., rfl, rfl, rfl⟩

theorem Conc.advance_remove {next : Status → Prog}
    (hs : s.advance i q left now (.remove id next) = some s') :
    (∀ n ∈ s'.removed, n ∈ s.removed ∨ n = key id ∧ s.store.contents (key id) ≠ none) ∧
      Moved s s' i q left (next (if s.store.contents (key id) = none then .NOENT else 0))
        (Function.update s.store.contents (key id) none) := by
  have hst := Store.remove_status s.store id
  have hcont := Store.contents_remove s.store id
  rw [Conc.advance] at hs
  generalize s.store.remove id = r at hs hst hcont
  cases hs
  refine ⟨?_, hcont, ?_, rfl, rfl⟩
  · intro n hn
    dsimp only at hn
    rw [hst] at hn
    by_cases hc : s.store.contents (key id) = none
    · rw [if_pos hc, if_neg (by decide)] at hn
      exact Or.inl hn
    · rw [if_neg hc, if_pos rfl, List.mem_cons] at hn
      exact hn.symm.imp_right fun hn => ⟨hn, hc⟩
  · dsimp only
    rw [hst]
    rfl

theorem Conc.advance_getbuf {askSize off : ℕ} {next : Status → Bytes → Prog}
    (hs : s.advance i q left now (.getbuf id askSize off next) = some s') :
    s'.removed = s.removed ∧ ∃ st b, Moved s s' i q left (next st b) s.store.contents := by
  have hcont : (s.store.getbuf now id askSize off).2.2.contents = s.store.contents := by
    cases hc : s.store.contents (key id) with
    | none => rw [Store.getbuf_of_none hc]
    | some b =>
      obtain ⟨s₁, hs₁, hg⟩ := Store.getbuf_of_some hc now askSize off
      rw [hg]
      cases Store.sliced b askSize off <;> exact hs₁
  rw [Conc.advance] at hs
  generalize s.store.getbuf now id askSize off = r at hs hcont
  cases hs
  exact ⟨rfl, _, _, hcont, rfl, rfl, rfl⟩

theorem Conc.advance_putbuf {off : ℕ} {buf : Bytes} {next : Status → Prog}
    (hs : s.advance i q left now (.putbuf id off buf next) = some s') :
    s'.removed = s.removed ∧
      (s.store.contents (key id) = none ∧ Moved s s' i q left (next .NOENT) s.store.contents ∨
        ∃ b b', s.store.contents (key id) = some b ∧ Store.written b off buf = some b' ∧
          Moved s s' i q left (next 0) (Function.update s.store.contents (key id) (some b'))) := by
  rw [Conc.advance] at hs
  cases hc : s.store.contents (key id) with
  | none =>
    rw [Store.putbuf_of_none hc] at hs
    cases hs
    exact ⟨rfl, Or.inl ⟨rfl, rfl, rfl, rfl, rfl⟩⟩
  | some b =>
    cases hw : Store.written b off buf with
    | none =>
      obtain ⟨r, hr, rfl⟩ := Store.find_of_contents hc
      simp [Store.putbuf, hr, hw] at hs
    | some b' =>
      obtain ⟨s₁, hs₁, hp⟩ := Store.putbuf_of_some hc hw now
      rw [hp] at hs
      cases hs
      exact ⟨rfl, Or.inr ⟨b, b', rfl, hw, hs₁, rfl, rfl, rfl⟩⟩

end Advance

theorem Ghost.Grows.commit {P : Request → Prop} {s : Conc ι} {g : Ghost ι} {i : ι} {q : Request}
    {left : List Random} {p : Prog} {e : Ending} {k : ℕ} {v : Option Bytes}
    {w : Option (ℕ × Bytes)} (ht : s.task i = .running q left p) (hwait : Waiting s g i q left p)
    (hadv : g.Advances P (g.commit i q e k v w)) (hw : ∀ k' b, w = some (k', b) → p.Leaves k') :
    g.Grows P s (g.commit i q e k v w) where
  advances := hadv
  log := Or.inr ⟨_, left, p, rfl, ht, hwait⟩
  pend j k' b hb := by
    rw [Ghost.commit_pend] at hb
    by_cases hj : j = i
    · rw [hj, Function.update_self] at hb
      rw [hj]
      exact Or.inr ⟨q, left, p, ht, hwait, hw k' b hb⟩
    · rw [Function.update_of_ne hj] at hb
      exact Or.inl hb

namespace Sim
variable {c₀ : Contents} {P : Request → Prop} {s s' : Conc ι} {g : Ghost ι} {i : ι} {q : Request}
variable {left : List Random} (h : Sim c₀ P s g) (hP : P q)

include h hP

omit hP in
theorem locks_insert {lid : ℕ} (hfree : ¬ s.Barred i lid)
    (hun : ∀ x ∈ s.held, key x.1 = key lid → x.1 = lid) :
    ((s.held.insert (lid, i)).map fun x => key x.1).Nodup := by
  by_cases hmem : (lid, i) ∈ s.held
  · rw [List.insert_of_mem hmem]
    exact h.locks
  · rw [List.insert_of_not_mem hmem, List.map_cons, List.nodup_cons]
    refine ⟨fun hk => hmem ?_, h.locks⟩
    obtain ⟨⟨l, j⟩, hx, hkx⟩ := List.mem_map.mp hk
    obtain rfl : l = lid := hun _ hx hkx
    obtain rfl : j = i := by_contra fun hj => hfree ⟨_, hx, rfl, hj⟩
    exact hx

theorem acquire {lid : ℕ} {next : ℤ → Prog} (hw : Waiting s g i q left (.acquire lid next))
    (hfree : ¬ s.Barred i lid) (hun : ∀ x ∈ s.held, key x.1 = key lid → x.1 = lid) :
    Sim c₀ P { s.resume i q left (next 0) with held := s.held.insert (lid, i) } g := by
  have hcov : ∀ j k, s.Covers j k →
      Conc.Covers { s.resume i q left (next 0) with held := s.held.insert (lid, i) } j k :=
    fun j k ⟨l, hl, hk⟩ => ⟨l, List.mem_insert_of_mem hl, hk⟩
  apply h.quiet (i := i)
  · rfl
  · exact fun j hj => Function.update_of_ne hj ..
  · exact h.locks_insert hfree hun
  · exact fun j k _ => hcov j k
  · intro k b hb
    rw [hw.pend] at hb
    cases hb
  · rfl
  · rfl
  · rw [stage_running (Function.update_self ..)]
    obtain ⟨K, R, hop, hK, hR, hex⟩ := hw.opening
    refine ⟨hP, Or.inl ⟨hw.unlogged, hw.pend, hw.drawn, key lid :: K, R, hop, ?_, ?_, hex⟩⟩
    · intro k hk
      rcases List.mem_cons.mp hk with rfl | hk
      · exact ⟨lid, List.mem_insert_self, rfl⟩
      · exact hcov i k (hK k hk)
    · exact fun r hr => ⟨hcov i r.1 (hR r hr).1, (hR r hr).2⟩

omit hP [DecidableEq ι] in
/-- The rest of a program before its commit point does to the serial store what the call does. -/
theorem exec_serial {p : Prog} (hw : Waiting s g i q left p) :
    p.exec left g.serial = q.exec g.serial := by
  obtain ⟨K, R, -, -, hR, hex⟩ := hw.opening
  refine hex g.serial fun r hr => ?_
  rw [h.serial_eq_of_covers hw.pend (hR r hr).1, (hR r hr).2]

theorem commit_unchanged {left' : List Random} {p p' : Prog} {k : ℕ}
    (ht : s.task i = .running q left p) (hw : Waiting s g i q left p) (hk : s.Covers i k)
    (hm : Moved s s' i q left' p' s.store.contents) (hremoved : s'.removed = s.removed)
    (htail : p'.tail ≠ none) (hexec : p'.exec left' g.serial = q.exec g.serial) :
    ∃ g', Sim c₀ P s' g' ∧ g.Grows P s g' := by
  obtain ⟨e, he⟩ := Option.ne_none_iff_exists'.mp htail
  have hself : Function.update g.serial k (s.store.contents k) = g.serial := by
    rw [← h.serial_eq_of_covers hw.pend hk, Function.update_eq_self]
  refine ⟨g.commit i q e k (s.store.contents k) none, ?_, .commit ht hw (Or.inl hself) (by simp)⟩
  apply h.commit hP hw (R := [])
  · rw [Function.update_eq_self]
    exact hm
  · rw [hremoved]
    exact fun n hn => Or.inl hn
  · exact Prog.closing_of_tail he []
  · exact fun k hk => absurd hk List.not_mem_nil
  · exact Or.inl hk
  · exact Or.inl
  · rw [hself, ← hexec]
    exact Prog.exec_of_tail he left' g.serial

omit hP in
theorem quiet_moved {left' : List Random} {p' : Prog}
    (hm : Moved s s' i q left' p' s.store.contents) (hremoved : s'.removed = s.removed)
    (hstage : P q ∧ (Waiting s' g i q left' p' ∨ Committed g i q p' ∨ Apart g i q ∧ p'.Reads)) :
    Sim c₀ P s' g := by
  apply h.quiet (i := i) hm.contents
  · intro j hj
    rw [hm.task, Function.update_of_ne hj]
  · rw [hm.held]
    exact h.locks
  · exact fun j k _ => (hm.covers j k).mpr
  · exact fun k b hb => (hm.covers i k).mpr (h.pend i k b hb).2.2
  · exact hm.issued
  · exact hremoved
  · rwa [stage_running (by rw [hm.task, Function.update_self])]

/-- An operation before its commit point reads an extent; if it has nothing to do after that, it
commits here. -/
theorem get {now id : ℕ} {next : Status → Bytes → Prog}
    (ht : s.task i = .running q left (.get id next))
    (hw : Waiting s g i q left (.get id next))
    (hs : s.advance i q left now (.get id next) = some s') :
    ∃ g', Sim c₀ P s' g' ∧ g.Grows P s g' := by
  obtain ⟨K, R, ⟨hid, hnone, hsome⟩, hK, hR, hex⟩ := hw.opening
  have hcov := hK _ hid
  have hexec := h.exec_serial hw
  rw [Prog.exec, h.serial_eq_of_covers hw.pend hcov] at hexec
  obtain ⟨hremoved, hm⟩ := Conc.advance_get hs
  cases hc : s.store.contents (key id) with
  | none =>
    rw [hc] at hm hexec
    exact h.commit_unchanged hP ht hw hcov hm hremoved hnone hexec
  | some b =>
    rw [hc] at hm hexec
    rcases hsome b with htail | hop
    · exact h.commit_unchanged hP ht hw hcov hm hremoved htail hexec
    · refine ⟨g, h.quiet_moved hm hremoved ⟨hP, Or.inl ?_⟩, .refl P s g⟩
      refine ⟨hw.unlogged, hw.pend, hw.drawn, K, (key id, b) :: R, hop, ?_, ?_, ?_⟩
      · exact fun k hk => (hm.covers i k).mpr (hK k hk)
      · intro r hr
        rw [hm.contents, hm.covers]
        rcases List.mem_cons.mp hr with rfl | hr
        · exact ⟨hcov, hc⟩
        · exact hR r hr
      · intro c hagree
        rw [← hex c fun r hr => hagree r (List.mem_cons_of_mem _ hr), Prog.exec,
          hagree (key id, b) List.mem_cons_self]

omit hP [DecidableEq ι] h in
/-- What an operation has read is under its locks, and stored. -/
theorem covers_of_read {R : List (ℕ × Bytes)}
    (hR : ∀ r ∈ R, s.Covers i r.1 ∧ s.store.contents r.1 = some r.2) :
    ∀ k ∈ R.map Prod.fst, s.Covers i k ∧ s.store.contents k ≠ none := by
  intro k hk
  obtain ⟨r, hr, rfl⟩ := List.mem_map.mp hk
  exact ⟨(hR r hr).1, by simp [(hR r hr).2]⟩

theorem put {now id : ℕ} {buf : Bytes} {next : Status → Prog}
    (ht : s.task i = .running q left (.put id buf next))
    (hw : Waiting s g i q left (.put id buf next))
    (hs : s.advance i q left now (.put id buf next) = some s') :
    ∃ g', Sim c₀ P s' g' ∧ g.Grows P s g' := by
  obtain ⟨K, R, hop, hK, hR, hex⟩ := hw.opening
  have hR := covers_of_read hR
  have hexec := h.exec_serial hw
  rw [Prog.exec] at hexec
  obtain ⟨hremoved, hm⟩ := Conc.advance_put hs
  have hremoved' : ∀ n ∈ s'.removed, n ∈ s.removed ∨ s.store.contents n ≠ none := by
    rw [hremoved]
    exact fun n hn => Or.inl hn
  rcases hop with ⟨hid, hd, htail⟩ | ⟨hf, e, w, hcl⟩
  · obtain ⟨e, he⟩ := Option.ne_none_iff_exists'.mp htail
    rw [Prog.exec_of_tail he] at hexec
    refine ⟨g.commit i q e (key id) (some buf) none, ?_,
      .commit ht hw (Or.inr ⟨q, hP, ?_, ?_⟩) (by simp)⟩
    · exact h.commit hP hw hm hremoved' (Prog.closing_of_tail he _) hR (Or.inl (hR _ hid).1)
        (fun _ => Or.inl (hR _ hid).2) hexec.symm
    · rw [← hexec]
      rfl
    · rw [hd]
      intro n hn
      cases hn
  · obtain ⟨-, hkn, -⟩ := h.fresh i id hf
    rw [hcl.exec] at hexec
    refine ⟨g.commit i q e (key id) (some buf) w, ?_, .commit ht hw (Or.inr ⟨q, hP, ?_, ?_⟩) ?_⟩
    · exact h.commit hP hw hm hremoved' hcl hR (Or.inr (hkn.symm ▸ hf))
        (fun _ => Or.inr (hkn.symm ▸ hf)) hexec.symm
    · rw [← hexec]
      rfl
    · intro n hn
      right
      have hnid : n = id := Option.some.inj (hn.symm.trans (hw.drawn id hf))
      rw [hnid, hkn]
      exact h.serial_eq_of_fresh hf
    · rintro k' b rfl
      obtain ⟨id', rest, hnext, hk'⟩ := hcl.eq_put
      exact ⟨id', b, rest, hnext, hk'⟩

theorem remove {now id : ℕ} {next : Status → Prog}
    (ht : s.task i = .running q left (.remove id next))
    (hw : Waiting s g i q left (.remove id next))
    (hs : s.advance i q left now (.remove id next) = some s') :
    ∃ g', Sim c₀ P s' g' ∧ g.Grows P s g' := by
  obtain ⟨K, R, ⟨hid, hd, hnone, hsome, -⟩, hK, hR, hex⟩ := hw.opening
  have hcov := hK _ hid
  have hexec := h.exec_serial hw
  rw [Prog.exec, h.serial_eq_of_covers hw.pend hcov] at hexec
  obtain ⟨hremoved, hm⟩ := Conc.advance_remove hs
  obtain ⟨e, w, hcl⟩ :
      (next (if s.store.contents (key id) = none then .NOENT else 0)).Closes (R.map Prod.fst) := by
    split
    · exact hnone
    · exact hsome
  rw [hcl.exec] at hexec
  refine ⟨g.commit i q e (key id) none w, ?_, .commit ht hw (Or.inr ⟨q, hP, ?_, ?_⟩) ?_⟩
  · apply h.commit hP hw hm _ hcl (covers_of_read hR) (Or.inl hcov) (fun hv => absurd rfl hv)
      hexec.symm
    intro n hn
    rcases hremoved n hn with hold | ⟨rfl, hne⟩
    · exact Or.inl hold
    · exact Or.inr hne
  · rw [← hexec]
    rfl
  · rw [hd]
    intro n hn
    cases hn
  · rintro k' b rfl
    obtain ⟨id', rest, hnext, hk'⟩ := hcl.eq_put
    exact ⟨_, id', b, rest, hnext, hk'⟩

theorem putbuf {now id off : ℕ} {buf : Bytes} {next : Status → Prog}
    (ht : s.task i = .running q left (.putbuf id off buf next))
    (hw : Waiting s g i q left (.putbuf id off buf next))
    (hs : s.advance i q left now (.putbuf id off buf next) = some s') :
    ∃ g', Sim c₀ P s' g' ∧ g.Grows P s g' := by
  obtain ⟨K, R, ⟨hid, hd, hnone, hsome⟩, hK, hR, hex⟩ := hw.opening
  have hcov := hK _ hid
  have hexec := h.exec_serial hw
  rw [Prog.exec, h.serial_eq_of_covers hw.pend hcov] at hexec
  obtain ⟨hremoved, ⟨hc, hm⟩ | ⟨b, b', hc, hwr, hm⟩⟩ := Conc.advance_putbuf hs
  · rw [hc] at hexec
    exact h.commit_unchanged hP ht hw hcov hm hremoved hnone hexec
  · obtain ⟨e, he⟩ := Option.ne_none_iff_exists'.mp hsome
    rw [hc] at hexec
    dsimp only at hexec
    rw [hwr] at hexec
    dsimp only at hexec
    rw [Prog.exec_of_tail he] at hexec
    refine ⟨g.commit i q e (key id) (some b') none, ?_,
      .commit ht hw (Or.inr ⟨q, hP, ?_, ?_⟩) (by simp)⟩
    · apply h.commit hP hw hm _ (Prog.closing_of_tail he _) (covers_of_read hR) (Or.inl hcov)
        (fun _ => Or.inl (by rw [hc]; simp)) hexec.symm
      rw [hremoved]
      exact fun n hn => Or.inl hn
    · rw [← hexec]
      rfl
    · rw [hd]
      intro n hn
      cases hn

theorem newInum {now parent : ℕ} {isfile : Bool} {next : ℕ → Prog}
    (hw : Waiting s g i q left (.newInum parent isfile next))
    (hfresh : ∀ p ∈ Fs.newInum parent isfile left, p.1 ∉ s.issued ∧ c₀ p.1 = none)
    (hs : s.advance i q left now (.newInum parent isfile next) = some s') :
    ∃ g', Sim c₀ P s' g' ∧ g.Grows P s g' := by
  obtain ⟨K, R, ⟨hf, hd, hop⟩, hK, hR, hex⟩ := hw.opening
  rw [Conc.advance] at hs
  cases hn : Fs.newInum parent isfile left with
  | none =>
    rw [hn] at hs
    cases hs
  | some p =>
    obtain ⟨n, left'⟩ := p
    rw [hn] at hs hd
    cases hs
    obtain ⟨hissued, hn₀⟩ := hfresh (n, left') hn
    refine ⟨{ g with fresh := Function.update g.fresh i (some n) }, ?_,
      ⟨Or.inl rfl, Or.inl rfl, fun _ _ _ hb => Or.inl hb⟩⟩
    apply h.draw (i := i)
    · exact hissued
    · exact hn₀
    · exact Nat.mod_eq_of_lt (newInum_lt hn)
    · rfl
    · rfl
    · rfl
    · rfl
    · rfl
    · exact hP
    · refine ⟨hw.unlogged, hw.pend, ?_, K, R, ?_, hK, hR, ?_⟩
      · intro m hm
        dsimp only at hm
        rw [Function.update_self] at hm
        exact hd.symm.trans hm
      · dsimp only
        rw [Function.update_self]
        exact hop n left' hn
      · intro c hc
        rw [← hex c hc, Prog.exec, hn]

theorem waiting {now : ℕ} {p : Prog} (ht : s.task i = .running q left p)
    (hw : Waiting s g i q left p)
    (hfresh : ∀ parent isfile next, p = .newInum parent isfile next →
      ∀ r ∈ Fs.newInum parent isfile left, r.1 ∉ s.issued ∧ c₀ r.1 = none)
    (hun : ∀ lid next, p = .acquire lid next → ∀ x ∈ s.held, key x.1 = key lid → x.1 = lid)
    (hs : s.advance i q left now p = some s') :
    ∃ g', Sim c₀ P s' g' ∧ g.Grows P s g' := by
  cases p with
  | acquire lid next =>
    rw [Conc.advance] at hs
    split at hs
    · cases hs
    · rename_i hfree
      cases hs
      exact ⟨g, h.acquire hP hw hfree (hun lid next rfl), .refl P s g⟩
  | get id next => exact h.get hP ht hw hs
  | put id buf next => exact h.put hP ht hw hs
  | remove id next => exact h.remove hP ht hw hs
  | putbuf id off buf next => exact h.putbuf hP ht hw hs
  | newInum parent isfile next => exact h.newInum hP hw (hfresh parent isfile next rfl) hs
  | done r => exact hw.opening.elim fun K ⟨R, hop, _⟩ => hop.elim
  | throw => exact hw.opening.elim fun K ⟨R, hop, _⟩ => hop.elim
  | release lid next => exact hw.opening.elim fun K ⟨R, hop, _⟩ => hop.elim
  | getbuf id askSize off next => exact hw.opening.elim fun K ⟨R, hop, _⟩ => hop.elim

theorem finish {e : Ending} (hp : g.pend i = none) (hf : g.fresh i = none)
    (he : (i, q, e) ∈ g.log ∨ Apart g i q) : Sim c₀ P (s.finish i q e) g := by
  apply h.quiet (i := i)
  · rfl
  · exact fun j hj => Function.update_of_ne hj ..
  · exact h.locks
  · exact fun j k _ hjk => hjk
  · exact fun k b hb => nomatch hp.symm.trans hb
  · rfl
  · rfl
  · rw [stage_ended (Function.update_self ..)]
    exact ⟨hP, hp, hf, he⟩

theorem committed {now : ℕ} {p : Prog} (hcom : Committed g i q p)
    (hs : s.advance i q left now p = some s') : ∃ g', Sim c₀ P s' g' ∧ g.Grows P s g' := by
  obtain ⟨hf, e, R, hmem, hcl⟩ := hcom
  cases p with
  | put id buf next =>
    obtain ⟨hpend, -, htail⟩ := hcl
    obtain ⟨hremoved, hm⟩ := Conc.advance_put hs
    refine ⟨_, h.flush hpend hm hremoved hP ⟨hf, e, [], hmem, ?_⟩,
      ⟨Or.inl rfl, Or.inl rfl, fun _ _ _ hb => Or.inl (update_none_eq_some hb).2⟩⟩
    dsimp only
    rw [Function.update_self]
    exact Prog.closing_of_tail htail []
  | release lid next =>
    obtain ⟨hpend, htail⟩ := hcl
    cases hs
    refine ⟨g, ?_, .refl P s g⟩
    apply h.quiet (i := i)
    · rfl
    · exact fun j hj => Function.update_of_ne hj ..
    · exact h.locks.sublist (List.filter_sublist.map _)
    · rintro j k hj ⟨l, hl, hk⟩
      refine ⟨l, List.mem_filter.mpr ⟨hl, decide_eq_true fun heq => hj ?_⟩, hk⟩
      exact congrArg Prod.snd heq
    · exact fun k b hb => nomatch hpend.symm.trans hb
    · rfl
    · rfl
    · rw [stage_running (Function.update_self ..)]
      refine ⟨hP, Or.inr (Or.inl ⟨hf, e, [], hmem, ?_⟩)⟩
      rw [hpend]
      exact Prog.closing_of_tail (p := next) htail []
  | done r =>
    obtain ⟨hpend, htail⟩ := hcl
    cases hs
    cases htail
    exact ⟨g, h.finish hP hpend hf (Or.inl hmem), .refl P s g⟩
  | throw =>
    obtain ⟨hpend, htail⟩ := hcl
    cases hs
    cases htail
    exact ⟨g, h.finish hP hpend hf (Or.inl hmem), .refl P s g⟩
  | _ => cases hcl.2

theorem apart {now : ℕ} {p : Prog} (ha : Apart g i q) (hr : p.Reads)
    (hs : s.advance i q left now p = some s') : Sim c₀ P s' g := by
  cases p with
  | get id next =>
    obtain ⟨hremoved, hm⟩ := Conc.advance_get hs
    split at hm
    · exact h.quiet_moved hm hremoved ⟨hP, Or.inr (Or.inr ⟨ha, hr _ _⟩)⟩
    · exact h.quiet_moved hm hremoved ⟨hP, Or.inr (Or.inr ⟨ha, hr _ _⟩)⟩
  | getbuf id askSize off next =>
    obtain ⟨hremoved, st, b, hm⟩ := Conc.advance_getbuf hs
    exact h.quiet_moved hm hremoved ⟨hP, Or.inr (Or.inr ⟨ha, hr _ _⟩)⟩
  | done r =>
    cases hs
    exact h.finish hP ha.pend ha.fresh (Or.inr ha)
  | _ => exact hr.elim

omit hP in
theorem start (hP : P q) (ht : s.task i = .idle) :
    Sim c₀ P (s.resume i q q.random q.call.prog) g := by
  have hi := h.stage i
  unfold Stage at hi
  rw [ht] at hi
  obtain ⟨hlog, hpend, hfresh⟩ := hi
  apply h.quiet (i := i)
  · rfl
  · exact fun j hj => Function.update_of_ne hj ..
  · exact h.locks
  · exact fun j k _ hjk => hjk
  · exact fun k b hb => nomatch hpend.symm.trans hb
  · rfl
  · rfl
  · rw [stage_running (Function.update_self ..)]
    refine ⟨hP, ?_⟩
    cases hl : q.call.locks with
    | false => exact Or.inr (Or.inr ⟨⟨hl, hlog, hpend, hfresh⟩, q.call.reads hl⟩)
    | true =>
      refine Or.inl ⟨hlog, hpend, ?_, [], [], ?_, ?_, ?_, fun c _ => rfl⟩
      · exact fun n hn => nomatch hfresh.symm.trans hn
      · rw [hfresh]
        exact q.opening hl
      · exact fun k hk => absurd hk List.not_mem_nil
      · exact fun k hk => absurd hk List.not_mem_nil

end Sim

theorem Sim.grow {s₀ : Store} {P : Request → Prop} {s s' : Conc ι} {g : Ghost ι} {ev : Event ι}
    (h : Sim s₀.contents P s g) (hP : ev.Starts P) (hfresh : s.Fresh s₀ ev)
    (hun : s.Unaliased ev) (hs : s.step ev = some s') :
    ∃ g', Sim s₀.contents P s' g' ∧ g.Grows P s g' := by
  cases ev with
  | start i q =>
    rw [Conc.step] at hs
    cases ht : s.task i with
    | idle =>
      rw [ht] at hs
      cases hs
      exact ⟨g, h.start hP ht, .refl P s g⟩
    | running q left p => simp [ht] at hs
    | ended q e => simp [ht] at hs
  | next i now =>
    rw [Conc.step] at hs
    cases ht : s.task i with
    | idle => simp [ht] at hs
    | ended q e => simp [ht] at hs
    | running q left p =>
      rw [ht] at hs
      obtain ⟨hq, hw | hc | ⟨ha, hr⟩⟩ := (stage_running ht).mp (h.stage i)
      · refine h.waiting hq ht hw ?_ ?_ hs
        · rintro parent isfile next rfl r hr
          simp only [Conc.Fresh, Conc.at?, ht] at hfresh
          obtain ⟨hn, hn₀⟩ := hfresh r hr
          exact ⟨hn, Option.map_eq_none_iff.mpr hn₀⟩
        · rintro lid next rfl
          simpa only [Conc.Unaliased, Conc.at?, ht] using hun
      · exact h.committed hq hc hs
      · exact ⟨g, h.apart hq ha hr hs, .refl P s g⟩

theorem Sim.step {s₀ : Store} {P : Request → Prop} {s s' : Conc ι} {g : Ghost ι} {ev : Event ι}
    (h : Sim s₀.contents P s g) (hP : ev.Starts P) (hfresh : s.Fresh s₀ ev)
    (hun : s.Unaliased ev) (hs : s.step ev = some s') :
    ∃ g', Sim s₀.contents P s' g' ∧ g.Advances P g' := by
  obtain ⟨g', hg', hgrow⟩ := h.grow hP hfresh hun hs
  exact ⟨g', hg', hgrow.advances⟩

theorem Sim.init (s₀ : Store) (P : Request → Prop) :
    Sim s₀.contents P (clients ι s₀).init ⟨[], s₀.contents, fun _ => none, fun _ => none⟩ where
  serial := rfl
  nodup := List.nodup_nil
  locks := List.nodup_nil
  pend _ _ _ h := nomatch h
  settled _ _ := rfl
  unissued _ _ h := h
  fresh _ _ h := nomatch h
  fresh_inj _ _ _ h := nomatch h
  removed _ h := absurd h List.not_mem_nil
  stage _ := ⟨List.not_mem_nil, rfl, rfl⟩

/-- Every run in which inums are drawn fresh and no aliased locks are held together is simulated,
with any property of the serial store that the requests keep. -/
theorem Sim.run {s₀ : Store} {P : Request → Prop} {I : Contents → Prop}
    (hI : ∀ (g g' : Ghost ι), I g.serial → g.Advances P g' → I g'.serial) (h₀ : I s₀.contents)
    {evs : List (Event ι)} {s : Conc ι}
    (hc : (clients ι s₀).Along (fun s ev => ev.Starts P ∧ s.Fresh s₀ ev ∧ s.Unaliased ev)
      (clients ι s₀).init evs)
    (hrun : (clients ι s₀).run evs = some s) : ∃ g, Sim s₀.contents P s g ∧ I g.serial := by
  refine hc.invariant (I := fun s => ∃ g, Sim s₀.contents P s g ∧ I g.serial) ?_
    ⟨_, Sim.init s₀ P, h₀⟩ hrun
  rintro s ev s' ⟨g, hg, hi⟩ ⟨hP, hfresh, hun⟩ hs
  obtain ⟨g', hg', ha⟩ := hg.step hP hfresh hun hs
  exact ⟨g', hg', hI g g' hi ha⟩

end YFS.Fs
