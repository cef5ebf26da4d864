import YFS.Dir.Layout
import YFS.Fs.Sequential
import YFS.Library.Machine

/-! # A directory as a finite map

Sequences of calls on one directory, made one after another with extent RPCs that all
succeed. What the directory should answer is read off the history of calls and replies.
Names with a colon or a newline are stored in a way the readers do not understand.
-/

namespace YFS.Fs
open YFS.Library YFS.Extent YFS.Dir

inductive DirCall where
  | create (name : Bytes)
  | mkadir (name : Bytes)
  | remove (name : Bytes)
  | lookup (name : Bytes)
  | readir
  deriving DecidableEq, Repr

def DirCall.prog (dir : ℕ) : DirCall → Prog
  | .create name => Fs.create dir name
  | .mkadir name => Fs.mkadir dir name
  | .remove name => Fs.remove dir name
  | .lookup name => Fs.lookup dir name
  | .readir => Fs.readir dir

structure Invocation where
  call : DirCall
  now : ℕ → ℕ
  random : List Random

def Invocation.env (i : Invocation) : Env := Env.reliable i.now i.random

structure Session where
  store : Store
  history : List (DirCall × Ending)

def session (dir : ℕ) (s₀ : Store) : Machine Session Invocation where
  init := ⟨s₀, []⟩
  step s i :=
    let (r, store) := (i.call.prog dir).run i.env s.store
    some ⟨store, (i.call, r) :: s.history⟩

/-- What a call made of a name, if it was a successful change of that name. -/
def change (name : Bytes) : DirCall × Ending → Option (Option ℕ)
  | (.create n, .returned r) | (.mkadir n, .returned r) =>
    if n = name ∧ r.status = OK then some r.inum else none
  | (.remove n, .returned r) => if n = name ∧ r.status = OK then some none else none
  | _ => none

/-- The inum of a name after a history: that of the latest successful change of the name. -/
def latest : List (DirCall × Ending) → Bytes → Option ℕ
  | [], _ => none
  | h :: hs, name => (change name h).getD (latest hs name)

structure Session.IsMap (dir : ℕ) (s : Session) : Prop where
  lookup : ∀ now random name i,
    (∃ r, ((Fs.lookup dir name).run (Env.reliable now random) s.store).1 = .returned r ∧
      r.status = OK ∧ r.inum = some i) ↔ latest s.history name = some i
  add : ∀ now random name i isfile, latest s.history name = some i →
    (dirAddEntry dir name isfile).outcome (Env.reliable now random) s.store =
      (.returned { Reply.of EXIST with inum := some i }, s.store.contents)
  readir : ∀ now random, ∃ ents,
    ((Fs.readir dir).run (Env.reliable now random) s.store).1 =
      .returned { Reply.of OK with dirents := ents } ∧
    (ents.map Prod.fst).Nodup ∧ ∀ name i, (name, i) ∈ ents ↔ latest s.history name = some i

def DirCall.CleanName : DirCall → Prop
  | .create name | .mkadir name => Clean name
  | _ => True

instance (c : DirCall) : Decidable c.CleanName := by
  cases c <;> unfold DirCall.CleanName <;> infer_instance

def Session.Laid (dir : ℕ) (s : Session) : Prop :=
  ∃ d, s.store.contents (key dir) = some (render d) ∧ Represents d (latest s.history)

section Latest
variable {h : List (DirCall × Ending)}

theorem latest_cons_of_none {c : DirCall × Ending} (hc : ∀ n, change n c = none) :
    latest (c :: h) = latest h := by
  funext n
  rw [latest, hc, Option.getD_none]

theorem latest_cons_of_change {c : DirCall × Ending} (name : Bytes) {v : Option ℕ}
    (hc : ∀ n, change n c = if name = n then some v else none) :
    latest (c :: h) = Function.update (latest h) name v := by
  funext n
  rw [latest, hc]
  by_cases hn : name = n
  · subst hn
    simp
  · rw [if_neg hn, Function.update_of_ne (Ne.symm hn), Option.getD_none]

end Latest

section Effects
variable {c : Contents} {dir : ℕ} {d : List (Option Entry)} {m : Bytes → Option ℕ} {name : Bytes}
variable {i : ℕ} (now : ℕ → ℕ) (random : List Random)

theorem addEffect_present (hc : c (key dir) = some (render d)) (hd : Represents d m)
    (hm : m name = some i) (isfile : Bool) :
    addEffect (Env.reliable now random) c dir name isfile =
      (.returned { Reply.of EXIST with inum := some i }, c) := by
  obtain ⟨f, hf, rfl⟩ := hd.dirFind_some hm
  simp [addEffect, Env.reliable, hc, hf]

theorem addEffect_absent (hc : c (key dir) = some (render d)) (hd : Represents d m)
    (hm : m name = none) {isfile : Bool} {n : ℕ} {rs : List Random}
    (hn : newInum dir isfile random = some (n, rs)) :
    addEffect (Env.reliable now random) c dir name isfile =
      (.returned { Reply.of OK with inum := some n },
        Function.update (Function.update c (key n) (some [])) (key dir)
          (some (render d ++ entLine name n))) := by
  simp [addEffect, Env.reliable, hc, hd.dirFind_none hm, hn, putUnless]

theorem addEffect_drawing (hc : c (key dir) = some (render d)) (hd : Represents d m)
    (hm : m name = none) {isfile : Bool} (hn : newInum dir isfile random = none) :
    addEffect (Env.reliable now random) c dir name isfile = (.drawing, c) := by
  simp [addEffect, Env.reliable, hc, hd.dirFind_none hm, hn]

theorem removeEffect_absent (hc : c (key dir) = some (render d)) (hd : Represents d m)
    (hm : m name = none) :
    removeEffect (Env.reliable now random) c dir name = (.returned (Reply.of IOERR), c) := by
  simp [removeEffect, Env.reliable, hc, hd.dirFind_none hm]

theorem removeEffect_present (hd : Represents d m) (hc : c (key dir) = some (render d))
    (hm : m name = some i) :
    removeEffect (Env.reliable now random) c dir name = (.returned (Reply.of NOENT), c) ∨
    ∃ d', Represents d' (Function.update m name none) ∧
      removeEffect (Env.reliable now random) c dir name =
        (.returned (Reply.of OK),
          Function.update (Function.update c (key i) none) (key dir) (some (render d'))) := by
  obtain ⟨d₁, e, d₂, rfl, rfl, rfl, hne⟩ := hd.split hm
  have hf := dirFind_render rfl (fun e' he' => hne e' (Or.inl he')) d₂
  by_cases hk : c (key e.inum) = none
  · left
    simp [removeEffect, Env.reliable, hc, hf, hk]
  · right
    refine ⟨_, hd.erase hne, ?_⟩
    simp [removeEffect, Env.reliable, hc, hf, hk, erase_render, putUnless]

end Effects

section Step
variable {dir : ℕ} {s₀ : Store} {s : Session}

/-- A call whose outcome is known leaves a layout if the outcome is one. -/
theorem Session.laid_of_outcome {i : Invocation} {r : Ending} {c : Contents} {t : Session}
    (ho : (i.call.prog dir).outcome i.env s.store = (r, c)) {d : List (Option Entry)}
    (hc : c (key dir) = some (render d)) (hd : Represents d (latest ((i.call, r) :: s.history)))
    (hstep : (session dir s₀).step s i = some t) : t.Laid dir := by
  cases hstep
  obtain ⟨rfl, rfl⟩ := Prod.mk.inj ho
  exact ⟨d, hc, hd⟩

theorem Session.laid_of_unchanged {i : Invocation} {r : Ending} {t : Session} (hs : s.Laid dir)
    (ho : (i.call.prog dir).outcome i.env s.store = (r, s.store.contents))
    (hr : ∀ n, change n (i.call, r) = none)
    (hstep : (session dir s₀).step s i = some t) : t.Laid dir := by
  obtain ⟨d, hc, hd⟩ := hs
  apply laid_of_outcome ho hc _ hstep
  rw [latest_cons_of_none hr]
  exact hd

theorem Session.laid_add {i : Invocation} {t : Session} {name : Bytes} {isfile : Bool}
    (hs : s.Laid dir) (hclean : Clean name)
    (hprog : i.call.prog dir = dirAddEntry dir name isfile)
    (hchange : ∀ n r, change n (i.call, .returned r) =
      if name = n ∧ r.status = OK then some r.inum else none)
    (hdraw : ∀ n, change n (i.call, .drawing) = none)
    (hstep : (session dir s₀).step s i = some t) : t.Laid dir := by
  have ho := outcome_dirAddEntry i.env s.store dir name isfile
  rw [← hprog] at ho
  have hs' := hs
  obtain ⟨d, hc, hd⟩ := hs
  cases hm : latest s.history name with
  | some j =>
    refine laid_of_unchanged hs' (ho.trans (addEffect_present _ _ hc hd hm isfile)) ?_ hstep
    intro n
    rw [hchange]
    exact if_neg fun h => absurd h.2 (show EXIST ≠ OK by decide)
  | none =>
    cases hn : newInum dir isfile i.random with
    | none => exact laid_of_unchanged hs' (ho.trans (addEffect_drawing _ _ hc hd hm hn)) hdraw hstep
    | some p =>
      obtain ⟨n, rs⟩ := p
      have hlt : n < 2 ^ 64 := lt_trans (newInum_lt hn) (by decide)
      let e : Entry := ⟨name, n, hclean, hlt⟩
      refine laid_of_outcome (ho.trans (addEffect_absent _ _ hc hd hm hn)) (d := d ++ [some e])
        ?_ ?_ hstep
      · rw [Function.update_self, render_append]
        exact congrArg (fun l => some (render d ++ l)) (entLine_eq_render e)
      · rw [latest_cons_of_change name (v := some n)]
        · exact hd.append (e := e) hm
        · intro k
          rw [hchange]
          by_cases hk : name = k <;> simp [hk, Reply.of]

theorem Session.laid_remove {i : Invocation} {t : Session} {name : Bytes} (hs : s.Laid dir)
    (hcall : i.call = .remove name) (hstep : (session dir s₀).step s i = some t) : t.Laid dir := by
  have ho : (i.call.prog dir).outcome i.env s.store = removeEffect i.env s.store.contents dir name := by
    rw [hcall]
    exact outcome_remove_call i.env s.store dir name
  have hfail (st : ℤ) (hst : st ≠ OK) (n : Bytes) :
      change n (i.call, .returned (Reply.of st)) = none := by
    rw [hcall]
    exact if_neg fun h => hst h.2
  have hs' := hs
  obtain ⟨d, hc, hd⟩ := hs
  cases hm : latest s.history name with
  | none =>
    exact laid_of_unchanged hs' (ho.trans (removeEffect_absent _ _ hc hd hm))
      (hfail _ (by decide)) hstep
  | some j =>
    rcases removeEffect_present i.now i.random hd hc hm with hr | ⟨d', hd', hr⟩
    · exact laid_of_unchanged hs' (ho.trans hr) (hfail _ (by decide)) hstep
    · apply laid_of_outcome (ho.trans hr) (Function.update_self ..) _ hstep
      rw [latest_cons_of_change name (v := none)]
      · exact hd'
      · intro n
        rw [hcall]
        by_cases hn : name = n <;> simp [change, hn, Reply.of]

theorem Session.laid_step {i : Invocation} {t : Session} (hs : s.Laid dir)
    (hi : i.call.CleanName) (hstep : (session dir s₀).step s i = some t) : t.Laid dir := by
  obtain ⟨call, now, random⟩ := i
  cases call with
  | create name => exact laid_add hs hi rfl (fun _ _ => rfl) (fun _ => rfl) hstep
  | mkadir name => exact laid_add hs hi rfl (fun _ _ => rfl) (fun _ => rfl) hstep
  | remove name => exact laid_remove hs rfl hstep
  | lookup name =>
    exact laid_of_unchanged (i := ⟨.lookup name, now, random⟩) hs
      (outcome_lookup _ s.store dir name) (fun _ => rfl) hstep
  | readir =>
    exact laid_of_unchanged (i := ⟨.readir, now, random⟩) hs
      (outcome_readir _ s.store dir) (fun _ => rfl) hstep

/-- A laid out directory answers like the map. -/
theorem Session.Laid.isMap (hs : s.Laid dir) : s.IsMap dir := by
  obtain ⟨d, hc, hd⟩ := hs
  constructor
  · intro now random name i
    have ho := congrArg Prod.fst (outcome_lookup (Env.reliable now random) s.store dir name)
    simp only [Prog.outcome, lookupEffect, Env.reliable, hc] at ho
    cases hm : latest s.history name with
    | none =>
      rw [hd.dirFind_none hm] at ho
      constructor
      · rintro ⟨r, hr, hst, -⟩
        cases hr.symm.trans ho
        exact absurd hst (by decide)
      · intro h
        cases h
    | some j =>
      obtain ⟨f, hf, rfl⟩ := hd.dirFind_some hm
      rw [hf] at ho
      constructor
      · rintro ⟨r, hr, -, hi⟩
        cases hr.symm.trans ho
        exact hi
      · intro h
        exact ⟨_, ho, rfl, h⟩
  · intro now random name i isfile hm
    rw [outcome_dirAddEntry]
    exact addEffect_present now random hc hd hm isfile
  · intro now random
    have ho := congrArg Prod.fst (outcome_readir (Env.reliable now random) s.store dir)
    simp only [Prog.outcome, readirEffect, Env.reliable, hc] at ho
    exact ⟨_, ho, hd.entries⟩

end Step

/-- Starting from an empty directory, a sequence of calls that creates no name with a colon or a
newline leaves a directory that answers like the finite map of the calls so far. -/
theorem directory_is_map {dir : ℕ} {s₀ : Store} (h₀ : s₀.contents (key dir) = some [])
    {calls : List Invocation} {s : Session}
    (hc : (session dir s₀).Along (fun _ i => i.call.CleanName) (session dir s₀).init calls)
    (hrun : (session dir s₀).run calls = some s) : s.IsMap dir := by
  have hinit : (session dir s₀).init.Laid dir := ⟨[], h₀, Represents.nil⟩
  have hs : s.Laid dir :=
    hc.invariant (I := Session.Laid dir) (fun _ _ _ hs hi ht => Session.laid_step hs hi ht) hinit hrun
  exact hs.isMap

/-- "f" is created, removed and created again; its second inum is found. -/
theorem directory_is_map_created_again :
    (Store.init 0).contents (key 1) = some [] ∧
    (session 1 (Store.init 0)).Along (fun _ i => i.call.CleanName)
      (session 1 (Store.init 0)).init
      [⟨.create [102], fun _ => 0, [5]⟩, ⟨.remove [102], fun _ => 0, []⟩,
        ⟨.create [102], fun _ => 0, [6]⟩] ∧
    ∃ s, (session 1 (Store.init 0)).run
      [⟨.create [102], fun _ => 0, [5]⟩, ⟨.remove [102], fun _ => 0, []⟩,
        ⟨.create [102], fun _ => 0, [6]⟩] = some s ∧
      latest s.history [102] = some 0x80000006 ∧ s.IsMap 1 := by
  have h₀ : (Store.init 0).contents (key 1) = some [] := rfl
  have hc : (session 1 (Store.init 0)).Along (fun _ i => i.call.CleanName)
      (session 1 (Store.init 0)).init
      [⟨.create [102], fun _ => 0, [5]⟩, ⟨.remove [102], fun _ => 0, []⟩,
        ⟨.create [102], fun _ => 0, [6]⟩] := by decide +kernel
  refine ⟨h₀, hc, _, rfl, ?_, directory_is_map h₀ hc rfl⟩
  decide +kernel

/-- Once "a:b" has been created, "f", created after it, is not found. -/
theorem directory_colon_hides :
    ∃ s, (session 1 (Store.init 0)).run
      [⟨.create [97, 58, 98], fun _ => 0, [5]⟩, ⟨.create [102], fun _ => 0, [6]⟩] = some s ∧
      latest s.history [102] = some 0x80000006 ∧
      ((Fs.lookup 1 [102]).run (Env.reliable (fun _ => 0) []) s.store).1 =
        .returned (Reply.of NOENT) ∧
      ((Fs.readir 1).run (Env.reliable (fun _ => 0) []) s.store).1 =
        .returned { Reply.of OK with dirents := [] } := by
  refine ⟨_, rfl, ?_, ?_, ?_⟩ <;> decide +kernel

end YFS.Fs
