import YFS.Fs.Standing

/-! # The concurrent operations as operations on one tree

Every operation but `readir` takes effect on the tree at one moment between its start and its
end. For an operation with locks that is its commit point; a `read` takes effect when the server
executes its one request, since the writes that committed operations still have to make are all
to directories. `readir` reads such a directory without a lock and is left out.
-/

namespace YFS.Fs
open YFS.Library YFS.Extent YFS.Dir

variable {ι : Type}

def Call.isRead : Call → Bool
  | .read _ _ _ => true
  | _ => false

def Call.isReadir : Call → Bool
  | .readir _ => true
  | _ => false

def Conc.Answered (s : Conc ι) (x : ι × Request × Ending) : Prop :=
  s.task x.1 = .ended x.2.1 x.2.2 ∨
    ∃ left r, s.task x.1 = .running x.2.1 left (.done r) ∧ x.2.2 = .returned r

structure History (s : Conc ι) (g : Ghost ι) (hist : List (ι × Request × Ending)) : Prop where
  legal : serially Tree.exec (hist.map fun x => x.2.1) Tree.init =
    (hist.map fun x => x.2.2, tree g.serial)
  nodup : (hist.map Prod.fst).Nodup
  logged : ∀ x ∈ g.log, x ∈ hist
  locked : ∀ x ∈ g.log, x.2.1.call.isRead = false
  mem : ∀ x ∈ hist, x ∈ g.log ∨ x.2.1.call.isRead = true ∧ s.Answered x
  running : ∀ i q left p, s.task i = .running q left p → q.call.isRead = true →
    p = q.call.prog ∨ ∃ r, p = .done r ∧ (i, q, .returned r) ∈ hist
  ended : ∀ i q e, s.task i = .ended q e → q.call.isRead = true → (i, q, e) ∈ hist

/-! ## What is logged -/

section Logged
variable {c₀ : Contents} {P : Request → Prop} {s : Conc ι} {g : Ghost ι} (h : Sim c₀ P s g)
include h

theorem Sim.task_of_log {i : ι} {q : Request} {e : Ending} (hx : (i, q, e) ∈ g.log) :
    P q ∧ (s.task i = .ended q e ∨ ∃ left p, s.task i = .running q left p) := by
  have hlogged : g.Logged i := List.mem_map_of_mem hx
  cases ht : s.task i with
  | idle =>
    have hi := h.stage i
    unfold Stage at hi
    rw [ht] at hi
    exact absurd hlogged hi.1
  | running q' left p =>
    obtain ⟨hq, hw | ⟨-, e', R, hmem, -⟩ | ⟨ha, -⟩⟩ := (stage_running ht).mp (h.stage i)
    · exact absurd hlogged hw.unlogged
    · cases List.inj_on_of_nodup_map h.nodup hx hmem rfl
      exact ⟨hq, Or.inr ⟨left, p, rfl⟩⟩
    · exact absurd hlogged ha.unlogged
  | ended q' e' =>
    obtain ⟨hq, -, -, hmem | ha⟩ := (stage_ended ht).mp (h.stage i)
    · cases List.inj_on_of_nodup_map h.nodup hx hmem rfl
      exact ⟨hq, Or.inl rfl⟩
    · exact absurd hlogged ha.unlogged

theorem Sim.pend_of_resting {i : ι} (ht : (s.task i).isRunning = false) : g.pend i = none := by
  cases htask : s.task i with
  | idle =>
    have hi := h.stage i
    unfold Stage at hi
    rw [htask] at hi
    exact hi.2.1
  | running q left p =>
    rw [htask] at ht
    cases ht
  | ended q e => exact ((stage_ended htask).mp (h.stage i)).2.1

end Logged

theorem Sim.serial_of_log {c₀ : Contents} {P : Request → Prop} {s s' : Conc ι} {g g' : Ghost ι}
    (h : Sim c₀ P s g) (h' : Sim c₀ P s' g') {l : ι × Request × Ending}
    (hlog : g'.log = g.log ++ [l]) : l.2.1.exec g.serial = (l.2.2, g'.serial) := by
  have hser := h'.serial
  rw [hlog, List.map_append, List.map_append, List.map_singleton, List.map_singleton,
    serially_concat, h.serial, Prod.mk.injEq] at hser
  obtain ⟨hres, hend⟩ := hser
  exact Prod.ext (List.singleton_inj.mp (List.append_cancel_left hres)) hend

/-- A `read` is never at a commit point of an operation with locks. -/
theorem Waiting.not_read {s : Conc ι} {g : Ghost ι} {i : ι} {q : Request} {left : List Random}
    {p : Prog} (hw : Waiting s g i q left p) (hread : q.call.isRead = true)
    (hp : p = q.call.prog ∨ ∃ r, p = .done r) : False := by
  obtain ⟨K, R, hop, -⟩ := hw.opening
  obtain ⟨call, rs⟩ := q
  cases call with
  | read target size offset =>
    rcases hp with rfl | ⟨r, rfl⟩
    · exact hop.elim
    · exact hop.elim
  | _ => cases hread

variable [DecidableEq ι]

section Answered
variable {s s' : Conc ι}

theorem Conc.Answered.step {x : ι × Request × Ending} (h : s.Answered x) {ev : Event ι}
    (hs : s.step ev = some s') : s'.Answered x := by
  have hkeep (htask : s'.task x.1 = s.task x.1) : s'.Answered x := by
    rw [Answered, htask]
    exact h
  cases ev with
  | start i q =>
    rw [Conc.step] at hs
    split at hs
    · rename_i ht
      cases hs
      apply hkeep
      apply Function.update_of_ne
      rintro rfl
      rcases h with h | ⟨left, r, h, -⟩
      · rw [ht] at h
        cases h
      · rw [ht] at h
        cases h
    · cases hs
  | next i now =>
    rw [Conc.step] at hs
    split at hs
    · rename_i q left p ht
      by_cases hi : x.1 = i
      · subst hi
        rcases h with h | ⟨left', r, h, he⟩
        · rw [ht] at h
          cases h
        · rw [ht] at h
          cases h
          cases hs
          left
          rw [he]
          exact Function.update_self ..
      · exact hkeep (Conc.advance_others hi hs).1
    · cases hs

/-- The one request of a `read`, and the bytes it finds. -/
theorem Conc.advance_read {i : ι} {q : Request} {left : List Random} {now target size offset : ℕ}
    (hs : s.advance i q left now (Fs.read target size offset) = some s') :
    ∃ r, Moved s s' i q left (.done r) s.store.contents ∧
      ((Fs.read target size offset).exec left s.store.contents).1 = .returned r := by
  rw [Fs.read] at hs ⊢
  rw [Conc.advance] at hs
  rw [Prog.exec]
  cases hc : s.store.contents (key target) with
  | none =>
    rw [Store.getbuf_of_none hc] at hs
    cases hs
    exact ⟨Reply.of NOENT, ⟨rfl, rfl, rfl, rfl⟩, rfl⟩
  | some b =>
    obtain ⟨s₁, hs₁, hg⟩ := Store.getbuf_of_some hc now size (offset % 2 ^ 32)
    rw [hg] at hs
    dsimp only
    cases hsl : Store.sliced b size (offset % 2 ^ 32) with
    | none =>
      rw [hsl] at hs
      cases hs
      exact ⟨Reply.of IOERR, ⟨hs₁, rfl, rfl, rfl⟩, rfl⟩
    | some buf =>
      rw [hsl] at hs
      cases hs
      exact ⟨{ Reply.of OK with data := buf }, ⟨hs₁, rfl, rfl, rfl⟩, rfl⟩

end Answered

/-! ## One step -/

section Step
variable {s₀ : Store} {s s' : Conc ι} {g g' : Ghost ι} {hist : List (ι × Request × Ending)}
variable {ev : Event ι}

omit [DecidableEq ι] in
theorem legal_concat {x : ι × Request × Ending} {t t' : Tree}
    (h : serially Tree.exec (hist.map fun x => x.2.1) Tree.init = (hist.map fun x => x.2.2, t))
    (hx : t.exec x.2.1 = (x.2.2, t')) :
    serially Tree.exec ((hist ++ [x]).map fun x => x.2.1) Tree.init =
      ((hist ++ [x]).map fun x => x.2.2, t') := by
  rw [List.map_append, List.map_append, List.map_singleton, List.map_singleton, serially_concat, h]
  dsimp only
  rw [hx]

omit [DecidableEq ι] in
/-- The operation that commits in this step takes effect behind all others. -/
theorem History.commit (hh : History s g hist) (ho : Orderly s₀ s g) (ho' : Orderly s₀ s' g')
    (hgrow : g.Grows Request.Fit s g') :
    ∃ hist₁, hist <+: hist₁ ∧
      serially Tree.exec (hist₁.map fun x => x.2.1) Tree.init =
        (hist₁.map fun x => x.2.2, tree g'.serial) ∧
      (hist₁.map Prod.fst).Nodup ∧ (∀ x ∈ g'.log, x ∈ hist₁) ∧
      (∀ x ∈ g'.log, x.2.1.call.isRead = false) ∧
      ∀ x ∈ hist₁, x ∈ g'.log ∨ x ∈ hist ∧ x.2.1.call.isRead = true ∧ s.Answered x := by
  rcases hgrow.log with hlog | ⟨l, left, p, hlog, ht, hw⟩
  · have hser : g'.serial = g.serial := by
      have h' := ho'.sim.serial
      rw [hlog, ho.sim.serial, Prod.mk.injEq] at h'
      exact h'.2.symm
    rw [hlog, hser]
    refine ⟨hist, List.prefix_rfl, hh.legal, hh.nodup, hh.logged, hh.locked, fun x hx => ?_⟩
    exact (hh.mem x hx).imp_right fun hr => ⟨hx, hr⟩
  · have hexec := ho.sim.serial_of_log ho'.sim hlog
    obtain ⟨hq, hs⟩ := ((stage_running ht).mp (ho.sim.stage l.1)).1
    have htree := ho.linked.tree_exec hq hs
    rw [hexec] at htree
    have hnew : l.1 ∉ hist.map Prod.fst := by
      intro hmem
      obtain ⟨x, hx, hxl⟩ := List.mem_map.mp hmem
      rcases hh.mem x hx with hxlog | ⟨hread, hans | ⟨left', r, hans, -⟩⟩
      · exact hw.unlogged (List.mem_map.mpr ⟨x, hxlog, hxl⟩)
      · rw [hxl, ht] at hans
        cases hans
      · rw [hxl, ht] at hans
        injection hans with hq' _ hp
        exact hw.not_read (hq' ▸ hread) (Or.inr ⟨r, hp⟩)
    refine ⟨hist ++ [l], List.prefix_append .., legal_concat hh.legal htree, ?_, ?_, ?_, ?_⟩
    · rw [List.map_append, List.nodup_append']
      exact ⟨hh.nodup, List.nodup_singleton _, List.disjoint_singleton.mpr hnew⟩
    · rw [hlog]
      intro x hx
      rcases List.mem_append.mp hx with hx | hx
      · exact List.mem_append_left _ (hh.logged x hx)
      · exact List.mem_append_right _ hx
    · rw [hlog]
      intro x hx
      rcases List.mem_append.mp hx with hx | hx
      · exact hh.locked x hx
      · rw [List.mem_singleton.mp hx, ← Bool.not_eq_true]
        intro hread
        apply hw.not_read hread
        exact (hh.running l.1 _ left p ht hread).imp_right fun ⟨r, hr, _⟩ => ⟨r, hr⟩
    · rw [hlog]
      intro x hx
      rcases List.mem_append.mp hx with hx | hx
      · exact (hh.mem x hx).imp (fun hl => List.mem_append_left _ hl) fun hr => ⟨hx, hr⟩
      · exact Or.inl (List.mem_append_right _ hx)

omit [DecidableEq ι] in
/-- The file that a `read` finds is that of the tree. -/
theorem Orderly.read_exec (ho : Orderly s₀ s g) {q : Request} (hfit : q.Fit)
    (hread : q.call.isRead = true) (left : List Random) {r : Reply}
    (hr : (q.call.prog.exec left s.store.contents).1 = .returned r) :
    (tree g.serial).exec q = (.returned r, tree g.serial) := by
  obtain ⟨call, rs⟩ := q
  cases call with
  | read target size offset =>
    obtain ⟨hfile, htarget, hoff⟩ := hfit
    have hsame : g.serial (key target) = s.store.contents (key target) := by
      apply ho.sim.settled
      intro i b hb
      have hdir := ho.pending i _ b hb
      rw [isfile_key] at hdir
      exact absurd (hfile.symm.trans hdir) (by simp)
    have hexec : ((Fs.read target size offset).exec left g.serial).1 = .returned r := by
      rw [← hr]
      simp only [Call.prog, Fs.read, Prog.exec, hsame]
      cases s.store.contents (key target) with
      | none => rfl
      | some b =>
        dsimp only
        cases Store.sliced b size (offset % 2 ^ 32) <;> rfl
    have hkeep : ((Fs.read target size offset).exec left g.serial).2 = g.serial :=
      (Call.reads (c := .read target size offset) rfl).exec_snd left g.serial
    have htree : ((tree g.serial).read target size offset, tree g.serial) =
        (((Fs.read target size offset).exec left g.serial).1,
          tree ((Fs.read target size offset).exec left g.serial).2) :=
      tree_read hfile htarget size hoff
    rw [hexec, hkeep] at htree
    exact htree
  | _ => cases hread

theorem History.quiet (hh : History s g hist) {hist₁ : List (ι × Request × Ending)}
    (hpre : hist <+: hist₁) (hs : s.step ev = some s')
    (hno : ∀ i now q left, ev = .next i now → s.task i = .running q left q.call.prog →
      q.call.isRead = false) :
    (∀ i q left p, s'.task i = .running q left p → q.call.isRead = true →
      p = q.call.prog ∨ ∃ r, p = .done r ∧ (i, q, .returned r) ∈ hist₁) ∧
    ∀ i q e, s'.task i = .ended q e → q.call.isRead = true → (i, q, e) ∈ hist₁ := by
  have hsub := hpre.subset
  have hsame (i : ι) (htask : s'.task i = s.task i) :
      (∀ q left p, s'.task i = .running q left p → q.call.isRead = true →
        p = q.call.prog ∨ ∃ r, p = .done r ∧ (i, q, .returned r) ∈ hist₁) ∧
      ∀ q e, s'.task i = .ended q e → q.call.isRead = true → (i, q, e) ∈ hist₁ := by
    rw [htask]
    refine ⟨fun q left p ht hread => ?_, fun q e ht hread => hsub (hh.ended i q e ht hread)⟩
    exact (hh.running i q left p ht hread).imp_right fun ⟨r, hp, hmem⟩ => ⟨r, hp, hsub hmem⟩
  rw [← forall_and]
  intro i
  cases ev with
  | start j q =>
    rw [Conc.step] at hs
    split at hs
    · cases hs
      by_cases hij : i = j
      · subst hij
        refine ⟨fun q' left p ht _ => Or.inl ?_, fun q' e ht _ => ?_⟩
        · rw [show (s.resume i q q.random q.call.prog).task i = _ from Function.update_self ..] at ht
          cases ht
          rfl
        · rw [show (s.resume i q q.random q.call.prog).task i = _ from Function.update_self ..] at ht
          cases ht
      · exact hsame i (Function.update_of_ne hij ..)
    · cases hs
  | next j now =>
    rw [Conc.step] at hs
    split at hs
    · rename_i q left p ht
      by_cases hij : i = j
      · subst hij
        cases hread : q.call.isRead with
        | false =>
          refine ⟨fun q₁ left₁ p₁ ht₁ hr₁ => ?_, fun q₁ e₁ ht₁ hr₁ => ?_⟩
          · rcases Conc.advance_own hs with ⟨left', p', ht'⟩ | ⟨e, ht'⟩
            · rw [ht'] at ht₁
              cases ht₁
              exact absurd (hread.symm.trans hr₁) (by simp)
            · rw [ht'] at ht₁
              cases ht₁
          · rcases Conc.advance_own hs with ⟨left', p', ht'⟩ | ⟨e, ht'⟩
            · rw [ht'] at ht₁
              cases ht₁
            · rw [ht'] at ht₁
              cases ht₁
              exact absurd (hread.symm.trans hr₁) (by simp)
        | true =>
          rcases hh.running i q left p ht hread with rfl | ⟨r, rfl, hmem⟩
          · rw [hno i now q left rfl ht] at hread
            cases hread
          · cases hs
            have htask : (s.finish i q (.returned r)).task i = .ended q (.returned r) :=
              Function.update_self ..
            refine ⟨fun q₁ left₁ p₁ ht₁ _ => ?_, fun q₁ e₁ ht₁ _ => ?_⟩
            · rw [htask] at ht₁
              cases ht₁
            · rw [htask] at ht₁
              cases ht₁
              exact hsub hmem
      · exact hsame i (Conc.advance_others hij hs).1
    · cases hs

theorem History.answer (hh : History s g hist) {hist₁ : List (ι × Request × Ending)}
    (hpre : hist <+: hist₁) {i : ι} {q : Request} {left : List Random} {r : Reply}
    (hm : Moved s s' i q left (.done r) s.store.contents) :
    (∀ j q' left' p, s'.task j = .running q' left' p → q'.call.isRead = true →
      p = q'.call.prog ∨ ∃ r', p = .done r' ∧
        (j, q', .returned r') ∈ hist₁ ++ [(i, q, .returned r)]) ∧
    ∀ j q' e, s'.task j = .ended q' e → q'.call.isRead = true →
      (j, q', e) ∈ hist₁ ++ [(i, q, .returned r)] := by
  have hsub : hist ⊆ hist₁ ++ [(i, q, .returned r)] := fun x hx =>
    List.mem_append_left _ (hpre.subset hx)
  rw [hm.task]
  constructor
  · intro j q' left' p htj hread
    by_cases hji : j = i
    · subst hji
      rw [Function.update_self] at htj
      cases htj
      exact Or.inr ⟨r, rfl, List.mem_append_right _ (List.mem_singleton.mpr rfl)⟩
    · rw [Function.update_of_ne hji] at htj
      exact (hh.running j q' left' p htj hread).imp_right fun ⟨r', hp, hmem⟩ => ⟨r', hp, hsub hmem⟩
  · intro j q' e htj hread
    by_cases hji : j = i
    · subst hji
      rw [Function.update_self] at htj
      cases htj
    · rw [Function.update_of_ne hji] at htj
      exact hsub (hh.ended j q' e htj hread)

theorem History.step (hh : History s g hist) (ho : Orderly s₀ s g) (ho' : Orderly s₀ s' g')
    (hgrow : g.Grows Request.Fit s g') (hs : s.step ev = some s') :
    ∃ hist', History s' g' hist' ∧ hist <+: hist' := by
  obtain ⟨hist₁, hpre, hlegal, hnodup, hlogged, hlocked, hmem⟩ := hh.commit ho ho' hgrow
  have hmem' : ∀ x ∈ hist₁, x ∈ g'.log ∨ x.2.1.call.isRead = true ∧ s'.Answered x :=
    fun x hx => (hmem x hx).imp_right fun ⟨_, hread, hans⟩ => ⟨hread, hans.step hs⟩
  by_cases hex : ∃ i now q left, ev = .next i now ∧ s.task i = .running q left q.call.prog ∧
      q.call.isRead = true
  · obtain ⟨i, now, q, left, rfl, ht, hread⟩ := hex
    have hfit : q.Fit := ((stage_running ht).mp (ho.sim.stage i)).1
    obtain ⟨r, hm, hr⟩ : ∃ r, Moved s s' i q left (.done r) s.store.contents ∧
        (q.call.prog.exec left s.store.contents).1 = .returned r := by
      simp only [Conc.step, ht] at hs
      obtain ⟨call, rs⟩ := q
      cases call with
      | read target size offset => exact Conc.advance_read hs
      | _ => cases hread
    have htree := ho'.read_exec hfit hread left (hm.contents.symm ▸ hr)
    have hnew : i ∉ hist₁.map Prod.fst := by
      intro hi
      obtain ⟨x, hx, rfl⟩ := List.mem_map.mp hi
      rcases hmem x hx with hxlog | ⟨-, -, hans | ⟨left', r', hans, -⟩⟩
      · have htask : s'.task x.1 = .running q left (.done r) := by
          rw [hm.task, Function.update_self]
        obtain ⟨-, hend | ⟨left', p', hrun⟩⟩ := ho'.sim.task_of_log hxlog
        · rw [htask] at hend
          cases hend
        · rw [htask] at hrun
          injection hrun with hq
          exact absurd (hread.symm.trans (hq ▸ hlocked x hxlog)) (by simp)
      · rw [ht] at hans
        cases hans
      · rw [ht] at hans
        injection hans with _ _ hp
        obtain ⟨call, rs⟩ := q
        cases call with
        | read target size offset => cases hp
        | _ => cases hread
    obtain ⟨hrunning, hended⟩ := hh.answer hpre hm
    refine ⟨hist₁ ++ [(i, q, .returned r)], ⟨legal_concat hlegal htree, ?_, ?_, hlocked, ?_,
      hrunning, hended⟩, hpre.trans (List.prefix_append ..)⟩
    · rw [List.map_append, List.nodup_append']
      exact ⟨hnodup, List.nodup_singleton _, List.disjoint_singleton.mpr hnew⟩
    · exact fun x hx => List.mem_append_left _ (hlogged x hx)
    · intro x hx
      rcases List.mem_append.mp hx with hx | hx
      · exact hmem' x hx
      · rw [List.mem_singleton.mp hx]
        refine Or.inr ⟨hread, Or.inr ⟨left, r, ?_, rfl⟩⟩
        rw [hm.task, Function.update_self]
  · obtain ⟨hrunning, hended⟩ := hh.quiet hpre hs fun i now q left hev ht => by
      rw [← Bool.not_eq_true]
      exact fun hread => hex ⟨i, now, q, left, hev, ht, hread⟩
    exact ⟨hist₁, ⟨hlegal, hnodup, hlogged, hlocked, hmem', hrunning, hended⟩, hpre⟩

end Step

/-! ## Whole runs -/

/-- An order of the operations of a run in which they might as well have been executed one after
another on the tree: each operation that has ended has the result it has there; an operation that
ended before another one started stands in front of it; and once all have ended, the store holds
the tree that is left. -/
structure Linearization (now : ℕ) (evs : List (Event ι)) (s : Conc ι)
    (order : List (ι × Request × Ending)) : Prop where
  nodup : (order.map Prod.fst).Nodup
  complete : ∀ i q e, s.task i = .ended q e → q.call.isReadir = false → (i, q, e) ∈ order
  begun : ∀ i q e, (i, q, e) ∈ order →
    s.task i = .ended q e ∨ ∃ left p, s.task i = .running q left p
  legal : (serially Tree.exec (order.map fun x => x.2.1) Tree.init).1 = order.map fun x => x.2.2
  realTime : ∀ evs₁ evs₂ s₁, evs = evs₁ ++ evs₂ →
    (clients ι (Store.init now)).run evs₁ = some s₁ →
    ∀ i q e j, s₁.task i = .ended q e → q.call.isReadir = false → s₁.task j = .idle →
      ∃ before after, order = before ++ after ∧ i ∈ before.map Prod.fst ∧ j ∉ before.map Prod.fst
  final : (∀ i, (s.task i).isRunning = false) →
    (serially Tree.exec (order.map fun x => x.2.1) Tree.init).2 = tree s.store.contents

section Run
variable {s₀ : Store} {s : Conc ι} {g : Ghost ι} {hist : List (ι × Request × Ending)}

omit [DecidableEq ι] in
theorem History.mem_of_ended (hh : History s g hist) (ho : Orderly s₀ s g) {i : ι} {q : Request}
    {e : Ending} (ht : s.task i = .ended q e) (hq : q.call.isReadir = false) :
    (i, q, e) ∈ hist := by
  obtain ⟨-, -, -, hmem | ha⟩ := (stage_ended ht).mp (ho.sim.stage i)
  · exact hh.logged _ hmem
  · apply hh.ended i q e ht
    have hlocks := ha.unlocked
    obtain ⟨call, rs⟩ := q
    cases call with
    | read target size offset => rfl
    | readir parent => cases hq
    | _ => cases hlocks

omit [DecidableEq ι] in
theorem History.begun (hh : History s g hist) (ho : Orderly s₀ s g) {i : ι} {q : Request}
    {e : Ending} (hx : (i, q, e) ∈ hist) :
    s.task i = .ended q e ∨ ∃ left p, s.task i = .running q left p := by
  rcases hh.mem _ hx with hlog | ⟨-, hend | ⟨left, r, hrun, -⟩⟩
  · exact (ho.sim.task_of_log hlog).2
  · exact Or.inl hend
  · exact Or.inr ⟨left, _, hrun⟩

end Run

theorem history_init (now : ℕ) : History (clients ι (Store.init now)).init
    ⟨[], (Store.init now).contents, fun _ => none, fun _ => none⟩ [] where
  legal := by
    rw [tree_init]
    rfl
  nodup := List.nodup_nil
  logged _ hx := absurd hx List.not_mem_nil
  locked _ hx := absurd hx List.not_mem_nil
  mem _ hx := absurd hx List.not_mem_nil
  running _ _ _ _ ht := by cases ht
  ended _ _ _ ht := by cases ht

/-- Every run of fit requests in which inums are drawn fresh has a linearization. -/
theorem linearizable {now : ℕ} {evs : List (Event ι)} {s : Conc ι}
    (hc : (clients ι (Store.init now)).Along (Conc.Used (Store.init now))
      (clients ι (Store.init now)).init evs)
    (hrun : (clients ι (Store.init now)).run evs = some s) :
    ∃ order, Linearization now evs s order := by
  obtain ⟨order, ⟨g, ho, hh⟩, -, hpre⟩ := hc.ghost (R := fun h h' => h <+: h')
    (G := fun s hist => ∃ g, Orderly (Store.init now) s g ∧ History s g hist)
    (fun _ => List.prefix_rfl) (fun _ _ _ => List.IsPrefix.trans)
    (fun s ev t hist ⟨g, ho, hh⟩ hused hs => by
      obtain ⟨g', ho', hgrow⟩ := ho.step hused.1 hused.2 hs
      obtain ⟨hist', hh', hle⟩ := hh.step ho ho' hgrow hs
      exact ⟨hist', ⟨g', ho', hh'⟩, hle⟩)
    ⟨_, orderly_init now, history_init now⟩ hrun
  refine ⟨order, hh.nodup, fun i q e ht hq => hh.mem_of_ended ho ht hq,
    fun i q e hx => hh.begun ho hx, by rw [hh.legal], ?_, ?_⟩
  · intro evs₁ evs₂ s₁ hevs hrun₁ i q e j hi hq hj
    obtain ⟨before, ⟨g₁, ho₁, hh₁⟩, after, rfl⟩ := hpre evs₁ evs₂ s₁ hevs hrun₁
    refine ⟨before, after, rfl, List.mem_map_of_mem (hh₁.mem_of_ended ho₁ hi hq), fun hmem => ?_⟩
    obtain ⟨⟨j', q', e'⟩, hx, rfl⟩ := List.mem_map.mp hmem
    rcases hh₁.begun ho₁ hx with hend | ⟨left, p, hrun'⟩
    · rw [hj] at hend
      cases hend
    · rw [hj] at hrun'
      cases hrun'
  · intro hrest
    rw [hh.legal]
    have hsame : g.serial = s.store.contents := by
      funext k
      apply ho.sim.settled
      intro i b hb
      rw [ho.sim.pend_of_resting (hrest i)] at hb
      cases hb
    rw [hsame]

def readAndWrite : List (Event (Fin 3)) :=
  [.start 0 ⟨.create 1 [97], [5]⟩] ++ List.replicate 7 (.next 0 0) ++
    [.start 1 ⟨.write 0x80000005 [1, 2] 0, []⟩, .start 2 ⟨.read 0x80000005 9 0, []⟩] ++
    List.replicate 4 (.next 1 0) ++ List.replicate 2 (.next 2 0)

theorem linearizable_read_and_write :
    (clients (Fin 3) (Store.init 0)).Along (Conc.Used (Store.init 0))
      (clients (Fin 3) (Store.init 0)).init readAndWrite ∧
    ∃ s, (clients (Fin 3) (Store.init 0)).run readAndWrite = some s ∧
      (∀ i, (s.task i).isRunning = false) ∧ ∃ order, Linearization 0 readAndWrite s order := by
  have hc : (clients (Fin 3) (Store.init 0)).Along (Conc.Used (Store.init 0))
      (clients (Fin 3) (Store.init 0)).init readAndWrite := by decide +kernel
  obtain ⟨s, hrun, hdone⟩ := Machine.exists_run_of_any (m := clients (Fin 3) (Store.init 0))
    (p := fun s => ∀ i, (s.task i).isRunning = false) readAndWrite (by decide +kernel)
  exact ⟨hc, s, hrun, hdone, linearizable hc hrun⟩

end YFS.Fs
