import YFS.Fs.Sequential

/-! # All or nothing under failing extent RPCs

The calls that change the store, with any pattern of failing extent RPCs. Only the first
`get` and the `remove` are checked; what the `put`s return is ignored.
-/

namespace YFS.Fs
open YFS.Library YFS.Extent YFS.Dir

inductive Change where
  | create (parent : ℕ) (name : Bytes)
  | mkadir (parent : ℕ) (name : Bytes)
  | remove (parent : ℕ) (name : Bytes)
  | resize (target newSize : ℕ)
  deriving DecidableEq, Repr

def Change.prog : Change → Prog
  | .create parent name => Fs.create parent name
  | .mkadir parent name => Fs.mkadir parent name
  | .remove parent name => Fs.remove parent name
  | .resize target newSize => Fs.resize target newSize

def Added (parent : ℕ) (name : Bytes) (c : Contents) (r : Reply) (c' : Contents) : Prop :=
  ∃ text n, c (key parent) = some text ∧ r.inum = some n ∧
    c' = Function.update (Function.update c (key n) (some [])) (key parent)
      (some (text ++ entLine name n))

def Removed (parent : ℕ) (name : Bytes) (c c' : Contents) : Prop :=
  ∃ text f buf, c (key parent) = some text ∧ dirFind text name = some f ∧
    erase text f.bufoff f.buflen = some buf ∧ c' (key f.inum) = none ∧
    c' = Function.update (Function.update c (key f.inum) none) (key parent) (some buf)

def Resized (target newSize : ℕ) (c c' : Contents) : Prop :=
  ∃ buf, c (key target) = some buf ∧
    c' = Function.update c (key target) (some (Store.resized buf newSize))

def Change.Took (u : Change) (c : Contents) (r : Reply) (c' : Contents) : Prop :=
  match u with
  | .create parent name | .mkadir parent name => Added parent name c r c'
  | .remove parent name => Removed parent name c c'
  | .resize target newSize => Resized target newSize c c'

def Kept (c c' : Contents) : Prop := ∀ k b, c k = some b → c' k = some b

theorem Kept.refl (c : Contents) : Kept c c := fun _ _ hb => hb

/-- A call that returns `OK` has made all its updates; one that ends in any other way has changed
no extent that existed. -/
def AllOrNothing (took : Reply → Contents → Prop) (c : Contents) : Ending × Contents → Prop
  | (.returned r, c') => if r.status = OK then took r c' else Kept c c'
  | (.threw, c') => Kept c c'
  | (.drawing, c') => Kept c c'

/-- If the entry is added: both `put`s succeed, or only the first fails and the new extent is
there and empty already, or is the parent's own. -/
def AddSafe (e : Env) (c : Contents) (parent : ℕ) (name : Bytes) (isfile : Bool) : Prop :=
  ∀ text n, e.fault 0 = none → c (key parent) = some text → dirFind text name = none →
    drawn parent isfile e.random = some n →
    (e.fault 1 = none ∨ key n = key parent ∨ c (key n) = some []) ∧ e.fault 2 = none

/-- If the extent is removed: the `put` of the parent succeeds, the extent is not the parent's own,
and the entry's line ends in a newline. -/
def RemoveSafe (e : Env) (c : Contents) (parent : ℕ) (name : Bytes) : Prop :=
  ∀ text f, e.fault 0 = none → c (key parent) = some text → dirFind text name = some f →
    e.fault 1 = none → c (key f.inum) ≠ none →
    e.fault 2 = none ∧ key f.inum ≠ key parent ∧ f.bufoff ≠ none

/-- If the `get` succeeds: so does the `put`, or the size is the old one. -/
def ResizeSafe (e : Env) (c : Contents) (target newSize : ℕ) : Prop :=
  ∀ buf, e.fault 0 = none → c (key target) = some buf →
    e.fault 1 = none ∨ buf.length = newSize

def Change.Safe (e : Env) (c : Contents) : Change → Prop
  | .create parent name => AddSafe e c parent name true
  | .mkadir parent name => AddSafe e c parent name false
  | .remove parent name => RemoveSafe e c parent name
  | .resize target newSize => ResizeSafe e c target newSize

section Outcomes
variable {took : Reply → Contents → Prop} {c c' : Contents} {st : ℤ}

theorem allOrNothing_of_fail {r : Reply} (hr : r.status ≠ OK) :
    AllOrNothing took c (.returned r, c) := by
  rw [AllOrNothing, if_neg hr]
  exact Kept.refl c

theorem allOrNothing_ok {r : Reply} (hr : r.status = OK) :
    AllOrNothing took c (.returned r, c') ↔ took r c' := by
  rw [AllOrNothing, if_pos hr]

end Outcomes

/-- The two `put`s of `dir_add_entry` have their full effect. -/
theorem putUnless_putUnless_eq_iff {c : Contents} {f₁ f₂ : Option Status} {n parent : ℕ}
    {buf : Bytes} (hbuf : buf ≠ []) (hc : c (key parent) ≠ some buf) :
    putUnless f₂ parent buf (putUnless f₁ n [] c) =
        Function.update (Function.update c (key n) (some [])) (key parent) (some buf) ↔
      (f₁ = none ∨ key n = key parent ∨ c (key n) = some []) ∧ f₂ = none := by
  cases f₂ with
  | some st =>
    apply iff_of_false
    · intro h
      have hp := congrFun h (key parent)
      rw [Function.update_self] at hp
      cases f₁ with
      | some st₁ => exact hc hp
      | none =>
        rw [putUnless, putUnless] at hp
        by_cases hk : key parent = key n
        · rw [hk, Function.update_self] at hp
          exact hbuf (Option.some.inj hp).symm
        · rw [Function.update_of_ne hk] at hp
          exact hc hp
    · rintro ⟨-, h⟩
      cases h
  | none =>
    cases f₁ with
    | none => simp [putUnless]
    | some st₁ =>
      simp only [putUnless, reduceCtorEq, false_or, and_true]
      constructor
      · intro h
        by_cases hk : key n = key parent
        · exact Or.inl hk
        · have hn := congrFun h (key n)
          rw [Function.update_of_ne hk, Function.update_of_ne hk, Function.update_self] at hn
          exact Or.inr hn
      · rintro (hk | hn)
        · rw [hk, Function.update_idem]
        · rw [← hn, Function.update_eq_self]

theorem add_allOrNothing_iff (e : Env) (c : Contents) (parent : ℕ) (name : Bytes) (isfile : Bool) :
    AllOrNothing (Added parent name c) c (addEffect e c parent name isfile) ↔
      AddSafe e c parent name isfile := by
  rw [addEffect, AddSafe, ← newInum_fst]
  cases hf : e.fault 0 with
  | some st => exact iff_of_true (allOrNothing_of_fail (e.status_ne hf)) (by simp)
  | none =>
    dsimp only
    cases hc : c (key parent) with
    | none => exact iff_of_true (allOrNothing_of_fail (by decide)) (by simp)
    | some text =>
      dsimp only
      cases hd : dirFind text name with
      | some f =>
        apply iff_of_true (allOrNothing_of_fail (show EXIST ≠ OK by decide))
        intro text' n _ ht hd'
        cases ht
        cases hd.symm.trans hd'
      | none =>
        dsimp only
        cases hn : newInum parent isfile e.random with
        | none => exact iff_of_true (Kept.refl c) (by simp)
        | some p =>
          obtain ⟨n, rs⟩ := p
          have hbuf : text ++ entLine name n ≠ [] := by simp [entLine]
          have hne : c (key parent) ≠ some (text ++ entLine name n) := by
            rw [hc]
            simp [entLine]
          dsimp only
          rw [allOrNothing_ok rfl, Added]
          simpa [hc, hd] using putUnless_putUnless_eq_iff hbuf hne

/-- The `remove` of the extent and the `put` of the parent's text have their full effect. -/
theorem putUnless_update_eq_iff {c : Contents} {f₂ : Option Status} {n parent : ℕ} {buf : Bytes}
    (hc : c (key parent) ≠ some buf) :
    (putUnless f₂ parent buf (Function.update c (key n) none) (key n) = none ∧
      putUnless f₂ parent buf (Function.update c (key n) none) =
        Function.update (Function.update c (key n) none) (key parent) (some buf)) ↔
      f₂ = none ∧ key n ≠ key parent := by
  cases f₂ with
  | some st =>
    apply iff_of_false
    · rintro ⟨-, h⟩
      have hp := congrFun h (key parent)
      rw [putUnless, Function.update_self] at hp
      by_cases hk : key parent = key n
      · rw [hk, Function.update_self] at hp
        cases hp
      · rw [Function.update_of_ne hk] at hp
        exact hc hp
    · rintro ⟨h, -⟩
      cases h
  | none =>
    simp only [putUnless, and_true, true_and]
    by_cases hk : key n = key parent
    · simp [hk]
    · simp [hk]

theorem remove_allOrNothing_iff (e : Env) (c : Contents) (parent : ℕ) (name : Bytes) :
    AllOrNothing (fun _ => Removed parent name c) c (removeEffect e c parent name) ↔
      RemoveSafe e c parent name := by
  rw [removeEffect, RemoveSafe]
  cases hf : e.fault 0 with
  | some st => exact iff_of_true (allOrNothing_of_fail (e.status_ne hf)) (by simp)
  | none =>
    dsimp only
    cases hc : c (key parent) with
    | none => exact iff_of_true (allOrNothing_of_fail (by decide)) (by simp)
    | some text =>
      dsimp only
      cases hd : dirFind text name with
      | none =>
        apply iff_of_true (allOrNothing_of_fail (show IOERR ≠ OK by decide))
        intro text' f _ ht hd'
        cases ht
        cases hd.symm.trans hd'
      | some f =>
        dsimp only
        cases hf₁ : e.fault 1 with
        | some st => exact iff_of_true (allOrNothing_of_fail (e.status_ne hf₁)) (by simp)
        | none =>
          dsimp only
          by_cases hk : c (key f.inum) = none
          · rw [if_pos hk]
            apply iff_of_true (allOrNothing_of_fail (show NOENT ≠ OK by decide))
            intro text' f' _ ht hd' _ hne
            cases ht
            cases hd.symm.trans hd'
            exact absurd hk hne
          · rw [if_neg hk]
            have hsafe : (∀ text' f', (none : Option Status) = none → some text = some text' →
                dirFind text' name = some f' → (none : Option Status) = none →
                c (key f'.inum) ≠ none →
                e.fault 2 = none ∧ key f'.inum ≠ key parent ∧ f'.bufoff ≠ none) ↔
                e.fault 2 = none ∧ key f.inum ≠ key parent ∧ f.bufoff ≠ none := by
              constructor
              · intro h
                exact h text f rfl rfl hd rfl hk
              · intro h text' f' _ ht hd' _ _
                cases ht
                cases hd.symm.trans hd'
                exact h
            rw [hsafe]
            by_cases hoff : f.bufoff = none
            · -- the exception leaves the extent removed
              have her : erase text f.bufoff f.buflen = none := by rw [hoff, erase]
              rw [her]
              apply iff_of_false
              · intro h
                obtain ⟨b, hb⟩ := Option.ne_none_iff_exists'.mp hk
                have := h (key f.inum) b hb
                rw [Function.update_self] at this
                cases this
              · exact fun h => h.2.2 hoff
            · obtain ⟨buf, her, hne⟩ := erase_dirFind hd hoff
              have hcb : c (key parent) ≠ some buf := by
                rw [hc]
                exact fun h => hne (Option.some.inj h).symm
              rw [her]
              dsimp only
              rw [allOrNothing_ok rfl, Removed]
              simpa [hc, hd, her, hoff] using putUnless_update_eq_iff hcb

theorem resized_eq_self_iff (buf : Bytes) (n : ℕ) : Store.resized buf n = buf ↔ buf.length = n := by
  constructor
  · intro h
    have := congrArg List.length h
    rw [Store.resized, List.length_append, List.length_take, List.length_replicate] at this
    omega
  · rintro rfl
    simp [Store.resized]

theorem resize_allOrNothing_iff (e : Env) (c : Contents) (target newSize : ℕ) :
    AllOrNothing (fun _ => Resized target newSize c) c (resizeEffect e c target newSize) ↔
      ResizeSafe e c target newSize := by
  rw [resizeEffect, ResizeSafe]
  cases hf : e.fault 0 with
  | some st => exact iff_of_true (allOrNothing_of_fail (e.status_ne hf)) (by simp)
  | none =>
    dsimp only
    cases hc : c (key target) with
    | none => exact iff_of_true (allOrNothing_of_fail (by decide)) (by simp)
    | some buf =>
      dsimp only
      rw [allOrNothing_ok rfl, Resized]
      cases e.fault 1 with
      | none => simp [hc, putUnless]
      | some st =>
        have : c = Function.update c (key target) (some (Store.resized buf newSize)) ↔
            buf.length = newSize := by
          rw [← resized_eq_self_iff, eq_comm, Function.update_eq_self_iff, hc, Option.some.injEq]
        simpa [hc, putUnless] using this

/-- For every store, every changing call and every pattern of failing extent RPCs, the call is all
or nothing exactly under the condition `Change.Safe`. -/
theorem all_or_nothing_iff (e : Env) (s : Store) (u : Change) :
    AllOrNothing (u.Took s.contents) s.contents (u.prog.outcome e s) ↔ u.Safe e s.contents := by
  cases u with
  | create parent name =>
    have ho := outcome_dirAddEntry e s parent name true
    exact ho ▸ add_allOrNothing_iff e s.contents parent name true
  | mkadir parent name =>
    have ho := outcome_dirAddEntry e s parent name false
    exact ho ▸ add_allOrNothing_iff e s.contents parent name false
  | remove parent name =>
    have ho := outcome_remove_call e s parent name
    exact ho ▸ remove_allOrNothing_iff e s.contents parent name
  | resize target newSize =>
    have ho := outcome_resize e s target newSize
    exact ho ▸ resize_allOrNothing_iff e s.contents target newSize

def thirdFails : Env where
  fault i := if i = 2 then some Status.IOERR else none
  fault_ne i := by split <;> simp [Status.IOERR]
  now _ := 0
  random := []

/-- "f" is removed and the `put` of the directory fails: the call returns `OK`, the extent is
gone, and the directory still has the entry. -/
theorem remove_leaves_entry :
    let s := after (Store.init 0) [(.create 1 [102], Env.reliable (fun _ => 0) [5])]
    ((remove 1 [102]).outcome thirdFails s).1 = .returned (Reply.of OK) ∧
    ((remove 1 [102]).outcome thirdFails s).2 0x80000005 = none ∧
    ((remove 1 [102]).outcome thirdFails s).2 1 = s.contents 1 ∧
    (s.contents 1).map entries = some [([102], 0x80000005)] := by
  refine ⟨?_, ?_, ?_, ?_⟩ <;> decide +kernel

end YFS.Fs
