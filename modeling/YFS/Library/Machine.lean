import Mathlib.Tactic

/-! # Guarded machines and their runs

A machine takes one event at a time and is undefined on an event it cannot take.
A condition on single steps is lifted to whole runs by `Along`: every event of the
run, for as long as the run is defined, is taken in a state where the condition
holds. The rules below turn facts about one step into facts about every run.
-/

namespace YFS.Library

/-- An initial state and a step function, `none` where the event has no defined effect. -/
structure Machine (S E : Type*) where
  init : S
  step : S → E → Option S

namespace Machine
variable {S E : Type*} (m : Machine S E)

def runFrom : S → List E → Option S
  | s, [] => some s
  | s, e :: es => (m.step s e).bind fun t => runFrom t es

def run (es : List E) : Option S := m.runFrom m.init es

/-- The number of events of the run that meet `C` in the state in which they are taken. -/
def count (C : S → E → Prop) [∀ s e, Decidable (C s e)] : S → List E → ℕ
  | _, [] => 0
  | s, e :: es => (if C s e then 1 else 0) + ((m.step s e).map fun t => count C t es).getD 0

/-- Every event of the run meets `C` in the state in which it is taken. -/
def Along (C : S → E → Prop) : S → List E → Prop
  | _, [] => True
  | s, e :: es => C s e ∧ ∀ t, m.step s e = some t → Along C t es

/-- Every state the run passes, the first and the last included, has `P`. -/
def Throughout (P : S → Prop) : S → List E → Prop
  | s, [] => P s
  | s, e :: es => P s ∧ ∀ t, m.step s e = some t → Throughout P t es

@[simp] theorem runFrom_nil (s : S) : m.runFrom s [] = some s := rfl

theorem runFrom_cons (s : S) (e : E) (es : List E) :
    m.runFrom s (e :: es) = (m.step s e).bind fun t => m.runFrom t es := rfl

theorem runFrom_append (s : S) (es fs : List E) :
    m.runFrom s (es ++ fs) = (m.runFrom s es).bind fun t => m.runFrom t fs := by
  induction es generalizing s with
  | nil => rfl
  | cons e es ih =>
    rw [List.cons_append, runFrom_cons, runFrom_cons, Option.bind_assoc]
    simp only [ih]

variable {m}

theorem run_concat {s : S} {es : List E} (h : m.run es = some s) (e : E) :
    m.run (es ++ [e]) = m.step s e := by
  rw [run] at h
  rw [run, runFrom_append, h, Option.bind_some, runFrom_cons]
  exact Option.bind_fun_some _

/-- An invariant that every conforming step keeps holds at the end of every conforming run. -/
theorem Along.invariant {C : S → E → Prop} {I : S → Prop}
    (hstep : ∀ s e t, I s → C s e → m.step s e = some t → I t)
    {s t : S} {es : List E} (hs : I s) (hc : m.Along C s es) (hr : m.runFrom s es = some t) :
    I t := by
  induction es generalizing s with
  | nil =>
    cases hr
    exact hs
  | cons e es ih =>
    obtain ⟨u, hu, hr⟩ := Option.bind_eq_some_iff.mp hr
    exact ih (hstep s e u hs hc.1 hu) (hc.2 u hu) hr

/-- What every defined step from the invariant meets is met along every defined run. -/
theorem along_of_runFrom {C : S → E → Prop} {I : S → Prop}
    (hstep : ∀ s e t, I s → m.step s e = some t → C s e ∧ I t)
    {s t : S} {es : List E} (hs : I s) (hr : m.runFrom s es = some t) : m.Along C s es ∧ I t := by
  induction es generalizing s with
  | nil =>
    cases hr
    exact ⟨trivial, hs⟩
  | cons e es ih =>
    obtain ⟨u, hu, hr⟩ := Option.bind_eq_some_iff.mp hr
    obtain ⟨hc, hiu⟩ := hstep s e u hs hu
    obtain ⟨halong, hit⟩ := ih hiu hr
    refine ⟨⟨hc, fun v hv => ?_⟩, hit⟩
    rw [hu] at hv
    cases hv
    exact halong

/-- If every conforming step is defined and keeps the invariant, so does every conforming run. -/
theorem Along.progress {C : S → E → Prop} {I : S → Prop}
    (hstep : ∀ s e, I s → C s e → ∃ t, m.step s e = some t ∧ I t)
    {s : S} {es : List E} (hs : I s) (hc : m.Along C s es) :
    ∃ t, m.runFrom s es = some t ∧ I t := by
  induction es generalizing s with
  | nil => exact ⟨s, rfl, hs⟩
  | cons e es ih =>
    obtain ⟨u, hu, hi⟩ := hstep s e hs hc.1
    obtain ⟨t, ht, hit⟩ := ih hi (hc.2 u hu)
    refine ⟨t, ?_, hit⟩
    rw [runFrom_cons, hu]
    exact ht

theorem Along.and {C D : S → E → Prop} {s : S} {es : List E} (hc : m.Along C s es)
    (hd : m.Along D s es) : m.Along (fun s e => C s e ∧ D s e) s es := by
  induction es generalizing s with
  | nil => trivial
  | cons e es ih => exact ⟨⟨hc.1, hd.1⟩, fun t ht => ih (hc.2 t ht) (hd.2 t ht)⟩

theorem along_of_forall {P : E → Prop} {s : S} {es : List E} (h : ∀ e ∈ es, P e) :
    m.Along (fun _ e => P e) s es := by
  induction es generalizing s with
  | nil => trivial
  | cons e es ih =>
    refine ⟨h e List.mem_cons_self, fun t _ => ih fun e' he' => ?_⟩
    exact h e' (List.mem_cons_of_mem _ he')

theorem along_of_all {C : S → E → Prop} (h : ∀ s e, C s e) (s : S) (es : List E) :
    m.Along C s es := by
  induction es generalizing s with
  | nil => trivial
  | cons e es ih => exact ⟨h s e, fun t _ => ih t⟩

/-- A step condition that follows from another one and an invariant holds along the same runs. -/
theorem Along.imp {C D : S → E → Prop} {I : S → Prop}
    (hstep : ∀ s e t, I s → C s e → m.step s e = some t → I t)
    (h : ∀ s e, I s → C s e → D s e)
    {s : S} {es : List E} (hs : I s) (hc : m.Along C s es) : m.Along D s es := by
  induction es generalizing s with
  | nil => trivial
  | cons e es ih => exact ⟨h s e hs hc.1, fun t ht => ih (hstep s e t hs hc.1 ht) (hc.2 t ht)⟩

/-- Two step conditions that agree wherever an invariant holds select the same runs; the invariant
may use either of them. -/
theorem Along.congr {V C D : S → E → Prop} {I : S → Prop}
    (hstep : ∀ s e t, I s → V s e → D s e → m.step s e = some t → I t)
    (h : ∀ s e, I s → V s e → (C s e ↔ D s e))
    {s : S} {es : List E} (hs : I s) (hv : m.Along V s es) :
    m.Along C s es ↔ m.Along D s es := by
  induction es generalizing s with
  | nil => exact Iff.rfl
  | cons e es ih =>
    have hcd := h s e hs hv.1
    constructor
    · rintro ⟨hc, ht⟩
      have hd := hcd.mp hc
      exact ⟨hd, fun t hst => (ih (hstep s e t hs hv.1 hd hst) (hv.2 t hst)).mp (ht t hst)⟩
    · rintro ⟨hd, ht⟩
      exact ⟨hcd.mpr hd, fun t hst => (ih (hstep s e t hs hv.1 hd hst) (hv.2 t hst)).mpr (ht t hst)⟩

theorem Throughout.head {P : S → Prop} {s : S} {es : List E} (h : m.Throughout P s es) : P s := by
  cases es with
  | nil => exact h
  | cons e es => exact h.1

/-- What follows from an invariant of the conforming steps holds throughout every conforming run. -/
theorem Along.throughout {C : S → E → Prop} {P I : S → Prop} (hP : ∀ s, I s → P s)
    (hstep : ∀ s e t, I s → C s e → m.step s e = some t → I t)
    {s : S} {es : List E} (hs : I s) (hc : m.Along C s es) : m.Throughout P s es := by
  induction es generalizing s with
  | nil => exact hP s hs
  | cons e es ih => exact ⟨hP s hs, fun t ht => ih (hstep s e t hs hc.1 ht) (hc.2 t ht)⟩

/-- Two properties that agree wherever the invariant holds are had throughout by the same conforming
runs. -/
theorem Along.throughout_congr {C : S → E → Prop} {P Q I : S → Prop} (h : ∀ s, I s → (P s ↔ Q s))
    (hstep : ∀ s e t, I s → C s e → m.step s e = some t → I t)
    {s : S} {es : List E} (hs : I s) (hc : m.Along C s es) :
    m.Throughout P s es ↔ m.Throughout Q s es := by
  induction es generalizing s with
  | nil => exact h s hs
  | cons e es ih =>
    refine and_congr (h s hs) (forall_congr' fun t => forall_congr' fun ht => ?_)
    exact ih (hstep s e t hs hc.1 ht) (hc.2 t ht)

/-- What follows from an invariant of all steps holds throughout every run. -/
theorem throughout_of_invariant {P I : S → Prop} (hP : ∀ s, I s → P s)
    (hstep : ∀ s e t, I s → m.step s e = some t → I t) {s : S} (hs : I s) (es : List E) :
    m.Throughout P s es :=
  Along.throughout hP (fun s e t hi _ => hstep s e t hi) hs (along_of_all (fun _ _ => trivial) s es)

/-- What holds throughout a run holds in the state each of its steps leads to. -/
theorem Throughout.along_next {P : S → Prop} {s : S} {es : List E} (h : m.Throughout P s es) :
    m.Along (fun s e => ∀ t, m.step s e = some t → P t) s es := by
  induction es generalizing s with
  | nil => trivial
  | cons e es ih => exact ⟨fun t ht => (h.2 t ht).head, fun t ht => ih (h.2 t ht)⟩

/-- Where `P` cannot be regained, a run that ends with it has had it throughout. -/
theorem throughout_of_runFrom {P : S → Prop} (hstep : ∀ s e t, m.step s e = some t → P t → P s)
    {s t : S} {es : List E} (hr : m.runFrom s es = some t) (ht : P t) : m.Throughout P s es := by
  induction es generalizing s with
  | nil =>
    cases hr
    exact ht
  | cons e es ih =>
    obtain ⟨u, hu, hr⟩ := Option.bind_eq_some_iff.mp hr
    have hP : m.Throughout P u es := ih hr
    refine ⟨hstep s e u hu hP.head, fun v hv => ?_⟩
    rw [hu] at hv
    cases hv
    exact hP

/-- Where a condition on a step is just what the step needs to lead to `P`, the runs that have `P`
throughout are those that meet the condition at every step. The invariant `I` may use both. -/
theorem Along.throughout_iff {V C : S → E → Prop} {P I : S → Prop} (hP : ∀ s, I s → P s)
    (hstep : ∀ s e t, I s → V s e → C s e → m.step s e = some t → I t)
    (h : ∀ s e, I s → V s e → (∀ t, m.step s e = some t → P t) → C s e)
    {s : S} {es : List E} (hs : I s) (hv : m.Along V s es) :
    m.Throughout P s es ↔ m.Along C s es := by
  induction es generalizing s with
  | nil => exact ⟨fun _ => trivial, fun _ => hP s hs⟩
  | cons e es ih =>
    constructor
    · rintro ⟨-, ht⟩
      have hc : C s e := h s e hs hv.1 fun t hst => (ht t hst).head
      exact ⟨hc, fun t hst => (ih (hstep s e t hs hv.1 hc hst) (hv.2 t hst)).mp (ht t hst)⟩
    · rintro ⟨hc, ht⟩
      refine ⟨hP s hs, fun t hst => ?_⟩
      exact (ih (hstep s e t hs hv.1 hc hst) (hv.2 t hst)).mpr (ht t hst)

/-- Where the goal is not reached some conforming step brings it nearer: then some conforming
run reaches it. -/
theorem exists_run_of_measure {C : S → E → Prop} {I G : S → Prop} (μ : S → ℕ)
    (hstep : ∀ s, I s → ¬ G s → ∃ e t, C s e ∧ m.step s e = some t ∧ I t ∧ μ t < μ s)
    {s : S} (hs : I s) : ∃ es t, m.Along C s es ∧ m.runFrom s es = some t ∧ G t := by
  induction hk : μ s using Nat.strong_induction_on generalizing s with
  | _ k ih =>
    by_cases hg : G s
    · exact ⟨[], s, trivial, rfl, hg⟩
    · obtain ⟨e, t, he, hst, ht, hlt⟩ := hstep s hs hg
      obtain ⟨es, u, hes, hu, hgu⟩ := ih (μ t) (hk ▸ hlt) ht rfl
      refine ⟨e :: es, u, ⟨he, fun t' hst' => ?_⟩, ?_, hgu⟩
      · rw [hst] at hst'
        cases hst'
        exact hes
      · rw [runFrom_cons, hst, Option.bind_some, hu]

/-- Where every conforming step lowers the measure, it bounds the length of conforming runs. -/
theorem Along.length_le {C : S → E → Prop} {I : S → Prop} (μ : S → ℕ)
    (hstep : ∀ s e t, I s → C s e → m.step s e = some t → I t ∧ μ t < μ s)
    {s t : S} {es : List E} (hs : I s) (hc : m.Along C s es) (hr : m.runFrom s es = some t) :
    es.length + μ t ≤ μ s := by
  induction es generalizing s with
  | nil =>
    cases hr
    exact (Nat.zero_add _).le
  | cons e es ih =>
    obtain ⟨u, hu, hr⟩ := Option.bind_eq_some_iff.mp hr
    obtain ⟨hi, hlt⟩ := hstep s e u hs hc.1 hu
    have hle := ih hi (hc.2 u hu) hr
    rw [List.length_cons]
    omega

/-- Where no conforming step raises the measure and each that also meets `D` lowers it, it bounds how
often conforming runs meet `D`. -/
theorem Along.count_le {C D : S → E → Prop} [∀ s e, Decidable (D s e)] {I : S → Prop} (μ : S → ℕ)
    (hstep : ∀ s e t, I s → C s e → m.step s e = some t →
      I t ∧ μ t ≤ μ s ∧ (D s e → μ t < μ s))
    {s t : S} {es : List E} (hs : I s) (hc : m.Along C s es) (hr : m.runFrom s es = some t) :
    m.count D s es + μ t ≤ μ s := by
  induction es generalizing s with
  | nil =>
    cases hr
    exact (Nat.zero_add _).le
  | cons e es ih =>
    obtain ⟨u, hu, hr⟩ := Option.bind_eq_some_iff.mp hr
    obtain ⟨hi, hle, hlt⟩ := hstep s e u hs hc.1 hu
    have hrest := ih hi (hc.2 u hu) hr
    rw [count, hu, Option.map_some, Option.getD_some]
    split
    · rename_i hd
      have hlt := hlt hd
      omega
    · omega

/-- Ghost values that every conforming step can extend: a conforming run has one that extends a
ghost value of each state on the way. -/
theorem Along.ghost {γ : Type*} {R : γ → γ → Prop} (hrefl : ∀ g, R g g)
    (htrans : ∀ g g' g'', R g g' → R g' g'' → R g g'') {C : S → E → Prop} {G : S → γ → Prop}
    (hstep : ∀ s e t g, G s g → C s e → m.step s e = some t → ∃ g', G t g' ∧ R g g')
    {s t : S} {es : List E} {g : γ} (hg : G s g) (hc : m.Along C s es)
    (hr : m.runFrom s es = some t) :
    ∃ g', G t g' ∧ R g g' ∧ ∀ es₁ es₂ u, es = es₁ ++ es₂ → m.runFrom s es₁ = some u →
      ∃ gu, G u gu ∧ R gu g' := by
  induction es generalizing s g with
  | nil =>
    cases hr
    refine ⟨g, hg, hrefl g, fun es₁ es₂ u hes hu => ?_⟩
    rw [(List.nil_eq_append_iff.mp hes).1] at hu
    cases hu
    exact ⟨g, hg, hrefl g⟩
  | cons e es ih =>
    obtain ⟨v, hv, hr⟩ := Option.bind_eq_some_iff.mp hr
    obtain ⟨gv, hgv, hext⟩ := hstep s e v g hg hc.1 hv
    obtain ⟨g', hg', hext', hpre⟩ := ih hgv (hc.2 v hv) hr
    refine ⟨g', hg', htrans _ _ _ hext hext', fun es₁ es₂ u hes hu => ?_⟩
    cases es₁ with
    | nil =>
      cases hu
      exact ⟨g, hg, htrans _ _ _ hext hext'⟩
    | cons e' es₁ =>
      obtain ⟨rfl, rfl⟩ := List.cons.inj hes
      rw [runFrom_cons, hv] at hu
      exact hpre es₁ es₂ u rfl hu

/-- A machine `m` seen through `f`, whose events show as events of `m'` or not at all: a conforming
run of `m` shows a conforming run of `m'`. -/
theorem Along.simulation {S' E' : Type*} {m' : Machine S' E'} (f : S → S') (α : E → Option E')
    {C : S → E → Prop} {C' : S' → E' → Prop} {I : S → Prop}
    (hstep : ∀ s e t, I s → C s e → m.step s e = some t → I t)
    (hshow : ∀ s e t e', I s → C s e → m.step s e = some t → α e = some e' →
      C' (f s) e' ∧ m'.step (f s) e' = some (f t))
    (hhide : ∀ s e t, I s → C s e → m.step s e = some t → α e = none → f t = f s)
    {s t : S} {es : List E} (hs : I s) (hc : m.Along C s es) (hr : m.runFrom s es = some t) :
    m'.Along C' (f s) (es.filterMap α) ∧ m'.runFrom (f s) (es.filterMap α) = some (f t) := by
  induction es generalizing s with
  | nil =>
    cases hr
    exact ⟨trivial, rfl⟩
  | cons e es ih =>
    obtain ⟨u, hu, hr⟩ := Option.bind_eq_some_iff.mp hr
    have hrest := ih (hstep s e u hs hc.1 hu) (hc.2 u hu) hr
    cases he : α e with
    | none =>
      rw [List.filterMap_cons_none he, ← hhide s e u hs hc.1 hu he]
      exact hrest
    | some e' =>
      obtain ⟨hc', hst'⟩ := hshow s e u e' hs hc.1 hu he
      rw [List.filterMap_cons_some he, runFrom_cons, hst']
      refine ⟨⟨hc', fun v hv => ?_⟩, hrest.2⟩
      rw [hst'] at hv
      cases hv
      exact hrest.1

/-- A run that is evaluated together with a property of the state it reaches. -/
theorem exists_run_of_any {p : S → Prop} [DecidablePred p] (es : List E)
    (h : (m.run es).any (fun s => decide (p s)) = true) : ∃ s, m.run es = some s ∧ p s := by
  cases hr : m.run es with
  | none =>
    rw [hr] at h
    cases h
  | some s =>
    rw [hr] at h
    exact ⟨s, rfl, of_decide_eq_true h⟩

/-- Whether a run meets a decidable step condition can be computed along the run. -/
instance decidableAlong {C : S → E → Prop} [∀ s e, Decidable (C s e)] :
    (s : S) → (es : List E) → Decidable (m.Along C s es)
  | _, [] => isTrue trivial
  | s, e :: es =>
    haveI : Decidable (∀ t, m.step s e = some t → m.Along C t es) :=
      match m.step s e with
      | none => isTrue fun _ ht => nomatch ht
      | some t =>
        haveI := decidableAlong (C := C) t es
        decidable_of_iff (m.Along C t es) ⟨fun ha _ ht => Option.some.inj ht ▸ ha, fun ha => ha t rfl⟩
    inferInstanceAs (Decidable (C s e ∧ ∀ t, m.step s e = some t → m.Along C t es))

instance decidableThroughout {P : S → Prop} [DecidablePred P] :
    (s : S) → (es : List E) → Decidable (m.Throughout P s es)
  | s, [] => inferInstanceAs (Decidable (P s))
  | s, e :: es =>
    haveI : Decidable (∀ t, m.step s e = some t → m.Throughout P t es) :=
      match m.step s e with
      | none => isTrue fun _ ht => nomatch ht
      | some t =>
        haveI := decidableThroughout (P := P) t es
        decidable_of_iff (m.Throughout P t es)
          ⟨fun ha _ ht => Option.some.inj ht ▸ ha, fun ha => ha t rfl⟩
    inferInstanceAs (Decidable (P s ∧ ∀ t, m.step s e = some t → m.Throughout P t es))

end Machine

/-! ## Numbered parties

Concrete runs number their threads, clients and jobs. Under named instances the numerals carry no
proofs of their own. -/

instance neZero_one : NeZero 1 := ⟨Nat.one_ne_zero⟩

instance neZero_two : NeZero 2 := ⟨two_ne_zero⟩

instance neZero_three : NeZero 3 := ⟨three_ne_zero⟩

end YFS.Library
