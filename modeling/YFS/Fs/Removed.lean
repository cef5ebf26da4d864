import YFS.Fs.Interleaving
import YFS.Fs.Linked

/-! # What is removed stays removed

A committed operation has at most one write left, to an extent that it has read. The extent is
still stored unless the operation has removed it itself, as `remove` does with a directory that has
an entry for itself. A linked store has no such directory, and nothing removed is written again.
-/

namespace YFS.Fs
open YFS.Library YFS.Extent YFS.Dir

variable {ι : Type}

inductive Prog.Changes (c : Contents) : Prog → ℕ → Option Bytes → Prop
  | put (id : ℕ) (buf : Bytes) (next : Status → Prog) :
    Changes c (.put id buf next) (key id) (some buf)
  | remove (id : ℕ) (next : Status → Prog) : Changes c (.remove id next) (key id) none
  | putbuf (id off : ℕ) (buf b : Bytes) (next : Status → Prog) (hc : c (key id) ≠ none) :
    Changes c (.putbuf id off buf next) (key id) (some b)

theorem Conc.advance_changes [DecidableEq ι] {s s' : Conc ι} {i : ι} {q : Request}
    {left : List Random} {p : Prog} {now : ℕ} (hs : s.advance i q left now p = some s') :
    s'.store.contents = s.store.contents ∧ s'.removed = s.removed ∨
      ∃ k v, p.Changes s.store.contents k v ∧
        s'.store.contents = Function.update s.store.contents k v ∧
        ∀ n ∈ s'.removed, n ∈ s.removed ∨ n = k ∧ v = none := by
  cases p with
  | put id buf next =>
    obtain ⟨hremoved, hm⟩ := Conc.advance_put hs
    refine Or.inr ⟨_, _, .put id buf next, hm.contents, ?_⟩
    rw [hremoved]
    exact fun n hn => Or.inl hn
  | remove id next =>
    obtain ⟨hremoved, hm⟩ := Conc.advance_remove hs
    refine Or.inr ⟨_, _, .remove id next, hm.contents, ?_⟩
    exact fun n hn => (hremoved n hn).imp_right fun hk => ⟨hk.1, rfl⟩
  | putbuf id off buf next =>
    obtain ⟨hremoved, ⟨-, hm⟩ | ⟨b, b', hc, -, hm⟩⟩ := Conc.advance_putbuf hs
    · exact Or.inl ⟨hm.contents, hremoved⟩
    · refine Or.inr ⟨_, _, .putbuf id off buf b' next (by simp [hc]), hm.contents, ?_⟩
      rw [hremoved]
      exact fun n hn => Or.inl hn
  | get id next =>
    obtain ⟨hremoved, hm⟩ := Conc.advance_get hs
    split at hm <;> exact Or.inl ⟨hm.contents, hremoved⟩
  | getbuf id askSize off next =>
    obtain ⟨hremoved, st, b, hm⟩ := Conc.advance_getbuf hs
    exact Or.inl ⟨hm.contents, hremoved⟩
  | acquire lid next =>
    rw [Conc.advance] at hs
    split at hs <;> cases hs
    exact Or.inl ⟨rfl, rfl⟩
  | newInum parent isfile next =>
    rw [Conc.advance] at hs
    split at hs <;> cases hs
    exact Or.inl ⟨rfl, rfl⟩
  | release lid next =>
    cases hs
    exact Or.inl ⟨rfl, rfl⟩
  | done r =>
    cases hs
    exact Or.inl ⟨rfl, rfl⟩
  | throw =>
    cases hs
    exact Or.inl ⟨rfl, rfl⟩

section Writes
variable {c₀ : Contents} {P : Request → Prop} {s s' : Conc ι} {g g' : Ghost ι} {i : ι} {q : Request}
variable {left : List Random} {p : Prog} {k now : ℕ}

/-- What an operation writes after its commit point it has read before. -/
theorem Waiting.stored_of_leaves (hw : Waiting s g i q left p) (hk : p.Leaves k) :
    s.Covers i k ∧ s.store.contents k ≠ none := by
  obtain ⟨K, R, hop, hK, hR, -⟩ := hw.opening
  have hR := Sim.covers_of_read hR
  cases p with
  | put id buf next =>
    obtain ⟨dir, text, rest, hnext, rfl⟩ := hk
    rw [Prog.Opening, hnext] at hop
    obtain ⟨-, -, htail⟩ | ⟨-, e, w, -, hmem, -⟩ := hop
    · exact absurd rfl htail
    · exact hR _ hmem
  | remove id next =>
    obtain ⟨st, dir, buf, rest, hnext, rfl⟩ := hk
    obtain ⟨-, -, -, -, hput⟩ := hop
    obtain ⟨name, text, f, -, hmem, -⟩ := hput st dir buf rest hnext
    exact hR _ (List.mem_map.mpr ⟨_, hmem, rfl⟩)
  | _ => exact hk.elim

variable (h : Sim c₀ P s g) (ht : s.task i = .running q left p)
include h ht

/-- What an operation is about to write is new, or it is under one of its locks and stored or the
write that the operation has left. -/
theorem Sim.writes {v : Option Bytes} (hp : p.Changes s.store.contents k v) :
    s.Covers i k ∧ (v = none ∨ s.store.contents k ≠ none ∨ ∃ b, g.pend i = some (k, b)) ∨
      g.fresh i = some k := by
  obtain ⟨-, hw | ⟨-, e, R, -, hcl⟩ | ⟨-, hr⟩⟩ := (stage_running ht).mp (h.stage i)
  · obtain ⟨K, R, hop, hK, hR, -⟩ := hw.opening
    cases hp with
    | put id buf next =>
      rcases hop with ⟨hid, -⟩ | ⟨hf, -⟩
      · obtain ⟨hcov, hne⟩ := Sim.covers_of_read hR _ hid
        exact Or.inl ⟨hcov, Or.inr (Or.inl hne)⟩
      · right
        rw [(h.fresh i id hf).2.1]
        exact hf
    | remove id next => exact Or.inl ⟨hK _ hop.1, Or.inl rfl⟩
    | putbuf id off buf b next hc => exact Or.inl ⟨hK _ hop.1, Or.inr (Or.inl hc)⟩
  · cases hp with
    | put id buf next => exact Or.inl ⟨(h.pend i _ _ hcl.1).2.2, Or.inr (Or.inr ⟨buf, hcl.1⟩)⟩
    | remove id next => cases hcl.2
    | putbuf id off buf b next => cases hcl.2
  · cases hp <;> exact hr.elim

/-- The step of an operation leaves alone what others have locked and found stored. -/
theorem Sim.kept [DecidableEq ι] (hs : s.advance i q left now p = some s') {j : ι} (hji : j ≠ i)
    (hk : s.Covers j k) (hne : s.store.contents k ≠ none) :
    s'.store.contents k = s.store.contents k := by
  rcases Conc.advance_changes hs with ⟨hc, -⟩ | ⟨n, v, hp, hc, -⟩
  · rw [hc]
  · have hkey : s.Covers i n ∨ g.fresh i = some n := (h.writes ht hp).imp_left And.left
    rw [hc, Function.update_of_ne (h.ne_of_covers hkey hji hk (h.stored hne))]

end Writes

theorem Linked.advances {g g' : Ghost ι} (hl : Linked g.serial)
    (hadv : g.Advances Request.Proper g') : Linked g'.serial := by
  rcases hadv with heq | ⟨q, hq, heq, hfresh⟩
  · rw [heq]
    exact hl
  · rw [heq] at hfresh ⊢
    exact hl.exec hq hfresh

/-- The writes still to be made are to extents that are stored, and nothing removed is stored. -/
structure Intact (s : Conc ι) (g : Ghost ι) : Prop where
  pend : ∀ i k b, g.pend i = some (k, b) → s.store.contents k ≠ none
  gone : ∀ k ∈ s.removed, s.store.contents k = none

section Steps
variable {c₀ : Contents} {s s' : Conc ι} {g g' : Ghost ι} {i : ι} {q : Request}
variable {left : List Random} {p : Prog} {k now : ℕ}
variable (hi : Intact s g) (h : Sim c₀ Request.Proper s g)
include h

/-- In a linked store no operation removes the directory that it writes after that. -/
theorem Sim.leaves_ne (hl : Linked g.serial) (hq : q.Proper) {id : ℕ} {next : Status → Prog}
    (hw : Waiting s g i q left (.remove id next)) (hk : (Prog.remove id next).Leaves k) :
    k ≠ key id := by
  obtain ⟨K, R, ⟨-, -, -, -, hput⟩, -, hR, -⟩ := hw.opening
  obtain ⟨st, dir, buf, rest, hnext, rfl⟩ := hk
  obtain ⟨name, text, f, hcall, hmem, hfind, rfl⟩ := hput st dir buf rest hnext
  have hdir : isfile (key dir) = false := by
    rw [Request.Proper, hcall] at hq
    rw [isfile_key, hq]
  obtain ⟨hcov, hc⟩ := hR _ hmem
  rw [← h.serial_eq_of_covers hw.pend hcov] at hc
  have href := hl.mem_refs_of_dirFind hdir hc hfind
  have hinum : key f.inum = f.inum := Nat.mod_eq_of_lt (hl.present _ _ href).1
  intro heq
  rw [heq, hinum] at href
  exact hl.irrefl _ href

include hi

/-- Nothing is written under a key that is free, except by who has drawn it. -/
theorem Intact.overwrites (ht : s.task i = .running q left p) {b : Bytes}
    (hp : p.Changes s.store.contents k (some b)) :
    s.store.contents k ≠ none ∨ g.fresh i = some k := by
  rcases h.writes ht hp with ⟨-, hv | hne | ⟨b', hb'⟩⟩ | hf
  · cases hv
  · exact Or.inl hne
  · exact Or.inl (hi.pend i k b' hb')
  · exact Or.inr hf

variable [DecidableEq ι]

theorem Intact.gone_advance (ht : s.task i = .running q left p)
    (hs : s.advance i q left now p = some s') : ∀ k ∈ s'.removed, s'.store.contents k = none := by
  intro k hk
  rcases Conc.advance_changes hs with ⟨hc, hremoved⟩ | ⟨n, v, hp, hc, hremoved⟩
  · rw [hremoved] at hk
    rw [hc, hi.gone k hk]
  · rcases hremoved k hk with hold | ⟨rfl, rfl⟩
    · by_cases hkn : k = n
      · subst hkn
        rw [hc, Function.update_self]
        cases v with
        | none => rfl
        | some b =>
          rcases hi.overwrites h ht hp with hne | hf
          · exact absurd (hi.gone k hold) hne
          · exact absurd hf ((h.removed k hold).unfresh i)
      · rw [hc, Function.update_of_ne hkn, hi.gone k hold]
    · rw [hc, Function.update_self]

/-- The operation has not removed what it is left to write. -/
theorem Intact.pend_advance (hl : Linked g.serial) (ht : s.task i = .running q left p)
    (hs : s.advance i q left now p = some s') (hgrow : g.Grows Request.Proper s g') {j : ι}
    {b : Bytes} (hb : g'.pend j = some (k, b)) : s'.store.contents k ≠ none := by
  obtain ⟨hcov, hne, hself⟩ : s.Covers j k ∧ s.store.contents k ≠ none ∧
      (j = i → ∀ v, p.Changes s.store.contents k v → v ≠ none) := by
    rcases hgrow.pend j k b hb with hold | ⟨q', left', p', ht', hw, hleaves⟩
    · refine ⟨(h.pend j k b hold).2.2, hi.pend j k b hold, ?_⟩
      rintro rfl v hp
      obtain ⟨-, hw | ⟨-, e, R, -, hcl⟩ | ⟨ha, -⟩⟩ := (stage_running ht).mp (h.stage j)
      · cases hw.pend.symm.trans hold
      · cases hp with
        | remove id next => cases hcl.2
        | _ => exact Option.some_ne_none _
      · cases ha.pend.symm.trans hold
    · obtain ⟨hcov, hne⟩ := hw.stored_of_leaves hleaves
      refine ⟨hcov, hne, ?_⟩
      rintro rfl v hp
      rw [ht] at ht'
      cases ht'
      cases hp with
      | remove id next =>
        have hq := ((stage_running ht).mp (h.stage j)).1
        exact absurd rfl (h.leaves_ne hl hq hw hleaves)
      | _ => exact Option.some_ne_none _
  by_cases hji : j = i
  · rcases Conc.advance_changes hs with ⟨hc, -⟩ | ⟨n, v, hp, hc, -⟩
    · rwa [hc]
    · by_cases hkn : k = n
      · subst hkn
        rw [hc, Function.update_self]
        exact hself hji v hp
      · rwa [hc, Function.update_of_ne hkn]
  · rwa [h.kept ht hs hji hcov hne]

theorem Intact.step (hl : Linked g.serial) {ev : Event ι} (hs : s.step ev = some s')
    (hgrow : g.Grows Request.Proper s g') : Intact s' g' := by
  cases ev with
  | start i q =>
    rw [Conc.step] at hs
    split at hs
    · cases hs
      refine ⟨fun j k b hb => ?_, hi.gone⟩
      rcases hgrow.pend j k b hb with hold | ⟨q', left', p', -, hw, hleaves⟩
      · exact hi.pend j k b hold
      · exact (hw.stored_of_leaves hleaves).2
    · cases hs
  | next i now =>
    rw [Conc.step] at hs
    split at hs
    · rename_i q left p ht
      exact ⟨fun j k b hb => hi.pend_advance h hl ht hs hgrow hb,
        hi.gone_advance h ht hs⟩
    · cases hs

end Steps
end YFS.Fs
