import YFS.Dir.Layout
import YFS.Fs.Simulation

/-! # Directories that refer to what is stored

A store is linked if its directories are laid out, their entries refer to extents that are
stored, no inum is referred to twice and no directory refers to itself. Every call on proper
arguments keeps a store linked when it is run alone.
-/

namespace YFS.Fs
open YFS.Library YFS.Extent YFS.Dir

def refs (c : Contents) (k : ℕ) : List ℕ :=
  if isfile k then [] else ((c k).map fun text => (entries text).map Prod.snd).getD []

structure Linked (c : Contents) : Prop where
  layout : ∀ k text, isfile k = false → c k = some text → ∃ d, text = render d
  present : ∀ k, ∀ n ∈ refs c k, n < 2 ^ 32 ∧ c n ≠ none
  nodup : ∀ k, (refs c k).Nodup
  disjoint : ∀ k k', k ≠ k' → (refs c k).Disjoint (refs c k')
  irrefl : ∀ k, k ∉ refs c k

theorem isfile_key (id : ℕ) : isfile (key id) = isfile id := by
  rw [isfile, isfile, key, Nat.testBit_mod_two_pow]
  rfl

section Refs
variable {c c' : Contents} {k : ℕ}

theorem refs_of_isfile (hk : isfile k = true) (c : Contents) : refs c k = [] := by
  rw [refs, if_pos hk]

theorem refs_of_none (hk : c k = none) : refs c k = [] := by
  simp [refs, hk]

theorem refs_congr (hk : c' k = c k) : refs c' k = refs c k := by
  rw [refs, refs, hk]

theorem refs_render (hk : isfile k = false) {d : List (Option Entry)}
    (hc : c k = some (render d)) : refs c k = d.reduceOption.map Entry.inum := by
  simp [refs, hk, hc, entries_render, Function.comp_def]

end Refs

namespace Linked
variable {c c' : Contents} (h : Linked c)
include h

/-- Entries and extents may go as long as no entry stays without its extent. -/
theorem shrink (hlay : ∀ k text, isfile k = false → c' k = some text → ∃ d, text = render d)
    (hsub : ∀ k, (refs c' k).Sublist (refs c k))
    (hpres : ∀ k, ∀ n ∈ refs c' k, c n ≠ none → c' n ≠ none) : Linked c' where
  layout := hlay
  present k n hn := by
    obtain ⟨hlt, hne⟩ := h.present k n ((hsub k).subset hn)
    exact ⟨hlt, hpres k n hn hne⟩
  nodup k := (h.nodup k).sublist (hsub k)
  disjoint k k' hk n hn hn' :=
    h.disjoint k k' hk ((hsub k).subset hn) ((hsub k').subset hn')
  irrefl k hk := h.irrefl k ((hsub k).subset hk)

theorem write_file {t : ℕ} (ht : isfile t = true) (hc : c t ≠ none) (b : Bytes) :
    Linked (Function.update c t (some b)) := by
  apply h.shrink
  · intro k text hk hck
    have hkt : k ≠ t := by
      rintro rfl
      exact nomatch ht.symm.trans hk
    rw [Function.update_of_ne hkt] at hck
    exact h.layout k text hk hck
  · intro k
    by_cases hkt : k = t
    · rw [hkt, refs_of_isfile ht]
      exact List.nil_sublist _
    · rw [refs_congr (Function.update_of_ne hkt ..)]
  · intro k n _ hn
    by_cases hnt : n = t
    · rw [hnt, Function.update_self]
      simp
    · rwa [Function.update_of_ne hnt]

theorem add {p n : ℕ} {text name : Bytes} (hp : isfile p = false) (hc : c p = some text)
    (hname : Clean name) (hlt : n < 2 ^ 32) (hn : c n = none) :
    Linked (Function.update (Function.update c n (some [])) p
      (some (text ++ entLine name n))) := by
  obtain ⟨d, rfl⟩ := h.layout p text hp hc
  let e : Entry := ⟨name, n, hname, lt_trans hlt (by decide)⟩
  have hpn : n ≠ p := by
    rintro rfl
    exact nomatch hn.symm.trans hc
  have htext : render d ++ entLine name n = render (d ++ [some e]) := by
    rw [render_append]
    exact congrArg (render d ++ ·) (entLine_eq_render e)
  have hnew : ∀ k, n ∉ refs c k := fun k hk => (h.present k n hk).2 hn
  rw [htext]
  generalize hc' : Function.update (Function.update c n (some [])) p
    (some (render (d ++ [some e]))) = c'
  have hp' : c' p = some (render (d ++ [some e])) := by rw [← hc', Function.update_self]
  have hn' : c' n = some [] := by rw [← hc', Function.update_of_ne hpn, Function.update_self]
  have hother : ∀ k, k ≠ p → k ≠ n → c' k = c k := by
    intro k hk hkn
    rw [← hc', Function.update_of_ne hk, Function.update_of_ne hkn]
  have hstored : ∀ k, c k ≠ none → c' k ≠ none := by
    intro k hk
    by_cases hkp : k = p
    · rw [hkp, hp']
      simp
    · rwa [hother k hkp fun hkn => hk (hkn ▸ hn)]
  have hrefs : ∀ k, k ≠ p → refs c' k = refs c k := by
    intro k hk
    by_cases hkn : k = n
    · rw [hkn, refs_of_none hn]
      simp [refs, hn', entries, entriesOf]
    · exact refs_congr (hother k hk hkn)
  have hrefsp : refs c' p = refs c p ++ [n] := by
    rw [refs_render hp hp', refs_render hp hc, List.reduceOption_append, List.map_append]
    rfl
  constructor
  · intro k text hk hck
    by_cases hkp : k = p
    · rw [hkp, hp'] at hck
      exact ⟨_, (Option.some.inj hck).symm⟩
    · by_cases hkn : k = n
      · rw [hkn, hn'] at hck
        exact ⟨[], (Option.some.inj hck).symm⟩
      · rw [hother k hkp hkn] at hck
        exact h.layout k text hk hck
  · intro k m hm
    by_cases hkp : k = p
    · rw [hkp, hrefsp, List.mem_append, List.mem_singleton] at hm
      rcases hm with hm | rfl
      · exact ⟨(h.present p m hm).1, hstored m (h.present p m hm).2⟩
      · exact ⟨hlt, by rw [hn']; simp⟩
    · rw [hrefs k hkp] at hm
      exact ⟨(h.present k m hm).1, hstored m (h.present k m hm).2⟩
  · intro k
    by_cases hkp : k = p
    · rw [hkp, hrefsp, List.nodup_append']
      exact ⟨h.nodup p, List.nodup_singleton n, List.disjoint_singleton.mpr (hnew p)⟩
    · rw [hrefs k hkp]
      exact h.nodup k
  · have hfirst : ∀ k, k ≠ p → (refs c' p).Disjoint (refs c' k) := by
      intro k hk
      rw [hrefsp, hrefs k hk, List.disjoint_append_left]
      exact ⟨h.disjoint p k (Ne.symm hk), List.singleton_disjoint.mpr (hnew k)⟩
    intro k k' hkk'
    by_cases hkp : k = p
    · subst hkp
      exact hfirst k' (Ne.symm hkk')
    · by_cases hkp' : k' = p
      · subst hkp'
        exact (hfirst k hkp).symm
      · rw [hrefs k hkp, hrefs k' hkp']
        exact h.disjoint k k' hkk'
  · intro k hk
    by_cases hkp : k = p
    · rw [hkp, hrefsp, List.mem_append, List.mem_singleton] at hk
      exact hk.elim (h.irrefl p) (Ne.symm hpn)
    · rw [hrefs k hkp] at hk
      exact h.irrefl k hk

theorem erase {p : ℕ} {d₁ d₂ : List (Option Entry)} {e : Entry} (hp : isfile p = false)
    (hc : c p = some (render (d₁ ++ some e :: d₂))) :
    Linked (Function.update (Function.update c e.inum none) p
      (some (render (d₁ ++ none :: d₂)))) := by
  generalize hc' : Function.update (Function.update c e.inum none) p
    (some (render (d₁ ++ none :: d₂))) = c'
  have hp' : c' p = some (render (d₁ ++ none :: d₂)) := by rw [← hc', Function.update_self]
  have hother : ∀ k, k ≠ p → k ≠ e.inum → c' k = c k := by
    intro k hk hke
    rw [← hc', Function.update_of_ne hk, Function.update_of_ne hke]
  have hgone : ∀ k, k ≠ p → k = e.inum → c' k = none := by
    rintro k hk rfl
    rw [← hc', Function.update_of_ne hk, Function.update_self]
  have hrefsp : refs c p = d₁.reduceOption.map Entry.inum ++
      e.inum :: d₂.reduceOption.map Entry.inum := by
    rw [refs_render hp hc, List.reduceOption_append, List.reduceOption_cons_of_some,
      List.map_append, List.map_cons]
  have hrefsp' : refs c' p = d₁.reduceOption.map Entry.inum ++
      d₂.reduceOption.map Entry.inum := by
    rw [refs_render hp hp', List.reduceOption_append, List.reduceOption_cons_of_none,
      List.map_append]
  have hsub : ∀ k, (refs c' k).Sublist (refs c k) := by
    intro k
    by_cases hkp : k = p
    · rw [hkp, hrefsp, hrefsp']
      exact List.Sublist.append_left (List.sublist_cons_self ..) _
    · by_cases hke : k = e.inum
      · rw [refs_of_none (hgone k hkp hke)]
        exact List.nil_sublist _
      · rw [refs_congr (hother k hkp hke)]
  have hnot : ∀ k, e.inum ∉ refs c' k := by
    intro k hk
    by_cases hkp : k = p
    · have hnd := h.nodup p
      rw [hrefsp, List.nodup_middle, List.nodup_cons] at hnd
      rw [hkp, hrefsp'] at hk
      exact hnd.1 hk
    · refine h.disjoint p k (Ne.symm hkp) ?_ ((hsub k).subset hk)
      rw [hrefsp]
      simp
  apply h.shrink
  · intro k text hk hck
    by_cases hkp : k = p
    · rw [hkp, hp'] at hck
      exact ⟨_, (Option.some.inj hck).symm⟩
    · by_cases hke : k = e.inum
      · rw [hgone k hkp hke] at hck
        cases hck
      · rw [hother k hkp hke] at hck
        exact h.layout k text hk hck
  · exact hsub
  · intro k n hn hcn
    by_cases hnp : n = p
    · rw [hnp, hp']
      simp
    · rwa [hother n hnp fun hne => hnot k (hne ▸ hn)]

end Linked

def ofContents (c : Contents) : Store := fun k => (c k).map fun b => ⟨b, ⟨0, 0, 0, 0⟩⟩

theorem contents_ofContents (c : Contents) : (ofContents c).contents = c := by
  funext k
  simp [Store.contents, ofContents, Function.comp_def]

theorem Prog.exec_eq_outcome (p : Prog) (rs : List Random) (c : Contents) :
    p.exec rs c = p.outcome (Env.reliable (fun _ => 0) rs) (ofContents c) := by
  rw [p.outcome_reliable, contents_ofContents]

/-- The arguments are of the right kind: parents are directory inums, the operations on files get
file inums, and new names contain neither a colon nor a newline. -/
def Request.Proper (q : Request) : Prop :=
  match q.call with
  | .create parent name | .mkadir parent name => isfile parent = false ∧ Clean name
  | .remove parent _ | .lookup parent _ | .readir parent => isfile parent = false
  | .resize target _ | .read target _ _ | .write target _ _ => isfile target = true

instance (q : Request) : Decidable q.Proper := by
  unfold Request.Proper
  split <;> infer_instance

namespace Linked
variable {c : Contents} (h : Linked c)
include h

theorem mem_refs_of_dirFind {k : ℕ} {text name : Bytes} {f : Found} (hk : isfile k = false)
    (hc : c k = some text) (hf : dirFind text name = some f) : f.inum ∈ refs c k := by
  obtain ⟨d, rfl⟩ := h.layout k text hk hc
  obtain ⟨d₁, e, d₂, rfl, rfl⟩ := dirFind_render_some hf
  rw [refs_render hk hc, List.reduceOption_append, List.reduceOption_cons_of_some]
  simp

theorem addEffect {parent : ℕ} {name : Bytes} {isfile' : Bool} {rs : List Random}
    (hp : isfile parent = false) (hname : Clean name)
    (hfresh : ∀ n, drawn parent isfile' rs = some n →
      (Fs.addEffect (Env.reliable (fun _ => 0) rs) c parent name isfile').2 = c ∨
        c (key n) = none) :
    Linked (Fs.addEffect (Env.reliable (fun _ => 0) rs) c parent name isfile').2 := by
  rw [Fs.addEffect] at hfresh ⊢
  dsimp only [Env.reliable] at hfresh ⊢
  cases hc : c (key parent) with
  | none => exact h
  | some text =>
    rw [hc] at hfresh
    dsimp only at hfresh ⊢
    cases hf : dirFind text name with
    | some f => exact h
    | none =>
      rw [hf] at hfresh
      dsimp only at hfresh ⊢
      rw [← newInum_fst] at hfresh
      cases hn : newInum parent isfile' rs with
      | none => exact h
      | some r =>
        obtain ⟨n, rs'⟩ := r
        rw [hn] at hfresh
        have hlt := newInum_lt hn
        have hkey : key n = n := Nat.mod_eq_of_lt hlt
        rcases hfresh n rfl with heq | hnone
        · dsimp only at heq ⊢
          rw [heq]
          exact h
        · dsimp only [putUnless]
          rw [hkey] at hnone ⊢
          exact h.add (by rw [isfile_key, hp]) hc hname hlt hnone

theorem removeEffect {parent : ℕ} {name : Bytes} {rs : List Random}
    (hp : isfile parent = false) :
    Linked (Fs.removeEffect (Env.reliable (fun _ => 0) rs) c parent name).2 := by
  rw [Fs.removeEffect]
  dsimp only [Env.reliable]
  cases hc : c (key parent) with
  | none => exact h
  | some text =>
    have hp' : isfile (key parent) = false := by rw [isfile_key, hp]
    obtain ⟨d, rfl⟩ := h.layout _ text hp' hc
    dsimp only
    cases hf : dirFind (render d) name with
    | none => exact h
    | some f =>
      have hmem := h.mem_refs_of_dirFind hp' hc hf
      obtain ⟨d₁, e, d₂, rfl, rfl⟩ := dirFind_render_some hf
      dsimp only
      split
      · exact h
      · have hkey : key e.inum = e.inum := Nat.mod_eq_of_lt (h.present _ _ hmem).1
        rw [erase_render, hkey]
        exact h.erase hp' hc

theorem resizeEffect {target newSize : ℕ} {rs : List Random} (ht : isfile target = true) :
    Linked (Fs.resizeEffect (Env.reliable (fun _ => 0) rs) c target newSize).2 := by
  rw [Fs.resizeEffect]
  dsimp only [Env.reliable]
  cases hc : c (key target) with
  | none => exact h
  | some b => exact h.write_file (by rw [isfile_key, ht]) (by rw [hc]; simp) _

theorem write {target offset : ℕ} {buf : Bytes} {rs : List Random} (ht : isfile target = true) :
    Linked ((Fs.write target buf offset).exec rs c).2 := by
  rw [Fs.write, Prog.exec, if_pos rfl, Prog.exec]
  cases hc : c (key target) with
  | none => exact h
  | some b =>
    dsimp only
    cases Store.written b (offset % 2 ^ 32) buf with
    | none => exact h
    | some b' => exact h.write_file (by rw [isfile_key, ht]) (by rw [hc]; simp) b'

theorem exec {q : Request} (hq : q.Proper)
    (hfresh : ∀ n, q.drawn = some n → (q.exec c).2 = c ∨ c (key n) = none) :
    Linked (q.exec c).2 := by
  obtain ⟨call, rs⟩ := q
  have hadd (parent : ℕ) (name : Bytes) (isfile' : Bool) :
      (dirAddEntry parent name isfile').exec rs c =
        Fs.addEffect (Env.reliable (fun _ => 0) rs) c parent name isfile' := by
    rw [Prog.exec_eq_outcome, outcome_dirAddEntry, contents_ofContents]
  cases call with
  | create parent name =>
    have heq : Request.exec ⟨.create parent name, rs⟩ c = _ := hadd parent name true
    rw [heq] at hfresh ⊢
    exact h.addEffect hq.1 hq.2 hfresh
  | mkadir parent name =>
    have heq : Request.exec ⟨.mkadir parent name, rs⟩ c = _ := hadd parent name false
    rw [heq] at hfresh ⊢
    exact h.addEffect hq.1 hq.2 hfresh
  | remove parent name =>
    rw [Request.exec, Prog.exec_eq_outcome, Call.prog, outcome_remove_call, contents_ofContents]
    exact h.removeEffect hq
  | lookup parent name =>
    rw [Request.exec, Prog.exec_eq_outcome, Call.prog, outcome_lookup, contents_ofContents]
    exact h
  | readir parent =>
    rw [Request.exec, (Call.reads rfl).exec_snd]
    exact h
  | resize target newSize =>
    rw [Request.exec, Prog.exec_eq_outcome, Call.prog, outcome_resize, contents_ofContents]
    exact h.resizeEffect hq
  | read target size offset =>
    rw [Request.exec, (Call.reads rfl).exec_snd]
    exact h
  | write target buf offset => exact h.write hq

end Linked

theorem linked_init (now : ℕ) : Linked (Store.init now).contents := by
  have hinit : (Store.init now).contents = Function.update (fun _ : ℕ => none) 1 (some []) :=
    Store.contents_put ..
  have hc : ∀ k text, (Store.init now).contents k = some text → text = [] := by
    intro k text hk
    rw [hinit] at hk
    by_cases h1 : k = 1
    · rw [h1, Function.update_self] at hk
      exact (Option.some.inj hk).symm
    · rw [Function.update_of_ne h1] at hk
      cases hk
  have hrefs : ∀ k, refs (Store.init now).contents k = [] := by
    intro k
    cases hk : (Store.init now).contents k with
    | none => exact refs_of_none hk
    | some text =>
      have ht := hc k text hk
      subst ht
      simp [refs, hk, entries, entriesOf]
  constructor
  · exact fun k text _ hk => ⟨[], hc k text hk⟩
  · intro k n hn
    rw [hrefs] at hn
    cases hn
  · intro k
    rw [hrefs]
    exact List.nodup_nil
  · intro k k' _
    rw [hrefs]
    exact List.disjoint_nil_left _
  · intro k hk
    rw [hrefs] at hk
    cases hk

end YFS.Fs
