import YFS.Library.Machine

/-! # The deadlines of a call

`call1` waits until a deadline that `add_timespec` computes from the clock and a timeout in
milliseconds. The clock may return any valid time at any moment, also one before the last;
seconds and nanoseconds are integers here, and a timeout is an `int`.
-/

namespace YFS.Rpc
open YFS.Library

structure Timespec where
  sec : ℤ
  nsec : ℤ
  deriving DecidableEq, Repr

namespace Timespec

/-- What `pthread_cond_timedwait` accepts; it returns `EINVAL` for anything else. -/
def Valid (a : Timespec) : Prop := 0 ≤ a.nsec ∧ a.nsec < 1000000000

def value (a : Timespec) : ℤ := a.sec * 1000000000 + a.nsec

instance : DecidablePred Valid := fun a => inferInstanceAs (Decidable (0 ≤ a.nsec ∧ _))

def cmp (a b : Timespec) : ℤ :=
  if a.sec > b.sec then 1
  else if a.sec < b.sec then -1
  else if a.nsec > b.nsec then 1
  else if a.nsec < b.nsec then -1
  else 0

def carry (a : Timespec) : Timespec :=
  if a.nsec > 1000000000 then carry ⟨a.sec + 1, a.nsec - 1000000000⟩ else a
termination_by a.nsec.toNat
decreasing_by omega

/-- `add_timespec`; `none` where its `VERIFY` fails. -/
def add (a : Timespec) (b : ℤ) : Option Timespec :=
  let sec := a.sec + b.tdiv 1000
  let nsec := a.nsec + b.tmod 1000 * 1000000
  if nsec < 0 then none else some (carry ⟨sec, nsec⟩)

/-- The nanoseconds before the carry, on which the result of `add_timespec` depends. -/
def sum (a : Timespec) (b : ℤ) : ℤ := a.nsec + b.tmod 1000 * 1000000

end Timespec

/-! ## The waits of one call -/

/-- Where `call1` stands: before it has read the clock, at the top of its loop with `finaldeadline`
and `curr_to`, in the loop around `pthread_cond_timedwait` with a deadline, or behind its loop. -/
inductive WaitPc where
  | begin
  | top (final : Timespec) (currTo : ℤ)
  | waiting (final : Timespec) (currTo : ℤ) (deadline : Timespec)
  | left
  deriving DecidableEq, Repr

/-- The clock is read, or the wait returns: with `ETIMEDOUT`, or not and `done` is set or not. -/
inductive WaitEvent where
  | clock (now : Timespec)
  | timedOut
  | woken (done : Bool)
  deriving DecidableEq, Repr

def int32 (x : ℤ) : ℤ := x.bmod (2 ^ 32)

def toMin : ℤ := 1000

/-- One step of a call with the timeout `ms`; an event that is not possible changes nothing. -/
def WaitPc.step (ms : ℤ) : WaitPc → WaitEvent → Option WaitPc
  | .begin, .clock now => do
    let final ← now.add ms
    some (.top final toMin)
  | .top final currTo, .clock now =>
    if final.sec = 0 then some .left
    else do
      let next ← now.add currTo
      if next.cmp final > 0 then some (.waiting { final with sec := 0 } currTo final)
      else some (.waiting final currTo next)
  | .waiting final currTo _, .timedOut => some (.top final (int32 (2 * currTo)))
  | .waiting _ _ _, .woken true => some .left
  | s, _ => some s

def waits (ms : ℤ) : Machine WaitPc WaitEvent where
  init := .begin
  step := WaitPc.step ms

/-- The timeout that is added to the clock next. -/
def WaitPc.timeout (ms : ℤ) : WaitPc → Option ℤ
  | .begin => some ms
  | .top final currTo => if final.sec = 0 then none else some currTo
  | _ => none

/-- What `add_timespec` computes is valid and exact. -/
def DeadlineExact (ms : ℤ) (s : WaitPc) : WaitEvent → Prop
  | .clock now => ∀ b ∈ s.timeout ms, ∀ x, now.add b = some x →
      x.Valid ∧ x.value = now.value + b * 1000000
  | _ => True

/-- No wait is entered with a deadline that makes it return `EINVAL`. -/
def WaitPc.Enterable : WaitPc → Prop
  | .waiting _ _ deadline => deadline.Valid
  | _ => True

/-- Nanoseconds and milliseconds do not add up to just one second. -/
def OffBoundary (ms : ℤ) (s : WaitPc) : WaitEvent → Prop
  | .clock now => ∀ b ∈ s.timeout ms, now.sum b ≠ 1000000000
  | _ => True

def ValidClock : WaitEvent → Prop
  | .clock now => now.Valid
  | _ => True

namespace Timespec

theorem value_carry (a : Timespec) : a.carry.value = a.value := by
  induction a using carry.induct with
  | case1 a h ih =>
    rw [carry, if_pos h, ih]
    simp only [value]
    ring
  | case2 a h => rw [carry, if_neg h]

/-- The loop ends with a valid time unless it starts from a whole number of seconds. -/
theorem valid_carry_iff {a : Timespec} (hpos : 0 ≤ a.nsec) (hlt : a.nsec < 2000000000) :
    a.carry.Valid ↔ a.nsec ≠ 1000000000 := by
  rw [carry]
  split_ifs with h
  · rw [carry, if_neg (by simp only; omega)]
    simp only [Valid]
    omega
  · simp only [Valid]
    omega

section Add
variable {a : Timespec} {b : ℤ}

theorem sum_lt (ha : a.Valid) : a.sum b < 2000000000 := by
  have hrem : b.tmod 1000 < 1000 := Int.tmod_lt_of_pos b (by decide)
  have hlt := ha.2
  simp only [sum]
  omega

theorem add_eq_some {x : Timespec} (h : a.add b = some x) :
    0 ≤ a.sum b ∧ x = carry ⟨a.sec + b.tdiv 1000, a.sum b⟩ := by
  simp only [add] at h
  split_ifs at h with hneg
  cases h
  exact ⟨not_lt.mp hneg, rfl⟩

theorem value_add {x : Timespec} (h : a.add b = some x) : x.value = a.value + b * 1000000 := by
  obtain ⟨-, rfl⟩ := add_eq_some h
  have hdiv := Int.tdiv_mul_add_tmod b 1000
  rw [value_carry]
  simp only [value, sum]
  linarith

theorem valid_add_iff (ha : a.Valid) {x : Timespec} (h : a.add b = some x) :
    x.Valid ↔ a.sum b ≠ 1000000000 := by
  obtain ⟨hpos, rfl⟩ := add_eq_some h
  exact valid_carry_iff hpos (sum_lt ha)

/-- A timeout that is not negative passes the `VERIFY`. -/
theorem exists_add (ha : a.Valid) (hb : 0 ≤ b) : ∃ x, a.add b = some x := by
  have hrem : 0 ≤ b.tmod 1000 := Int.tmod_nonneg 1000 hb
  have hpos : 0 ≤ a.sum b := by
    have hnsec := ha.1
    simp only [sum]
    omega
  exact ⟨_, if_neg (not_lt.mpr hpos)⟩

end Add
end Timespec

def WaitPc.Sound : WaitPc → Prop
  | .top final _ => final.Valid
  | .waiting final _ deadline => final.Valid ∧ deadline.Valid
  | _ => True

theorem WaitPc.Sound.enterable {s : WaitPc} (h : s.Sound) : s.Enterable := by
  cases s with
  | waiting final currTo deadline => exact h.2
  | _ => trivial

theorem exact_iff_offBoundary {ms : ℤ} {s : WaitPc} {e : WaitEvent} (he : ValidClock e) :
    DeadlineExact ms s e ↔ OffBoundary ms s e := by
  cases e with
  | clock now =>
    refine forall₂_congr fun b _ => ⟨fun h => ?_, fun h x hx => ?_⟩
    · by_cases hneg : now.sum b < 0
      · omega
      · have hadd : now.add b = some (Timespec.carry ⟨now.sec + b.tdiv 1000, now.sum b⟩) :=
          if_neg hneg
        exact (Timespec.valid_add_iff he hadd).mp (h _ hadd).1
    · exact ⟨(Timespec.valid_add_iff he hx).mpr h, Timespec.value_add hx⟩
  | _ => exact Iff.rfl

theorem WaitPc.Sound.step {ms : ℤ} {s t : WaitPc} {e : WaitEvent} (h : s.Sound)
    (hx : DeadlineExact ms s e) (ht : s.step ms e = some t) : t.Sound := by
  cases s with
  | begin =>
    cases e with
    | clock now =>
      obtain ⟨final, hadd, ht⟩ := Option.bind_eq_some_iff.mp ht
      cases ht
      exact (hx ms rfl final hadd).1
    | _ =>
      cases ht
      exact h
  | top final currTo =>
    cases e with
    | clock now =>
      simp only [WaitPc.step] at ht
      split_ifs at ht with hzero
      · cases ht
        trivial
      · obtain ⟨next, hadd, ht⟩ := Option.bind_eq_some_iff.mp ht
        have hnext : next.Valid := (hx currTo (if_neg hzero) next hadd).1
        split_ifs at ht <;> cases ht
        · exact ⟨h, h⟩
        · exact ⟨h, hnext⟩
    | _ =>
      cases ht
      exact h
  | waiting final currTo deadline =>
    cases e with
    | timedOut =>
      cases ht
      exact h.1
    | woken done =>
      cases done <;> cases ht
      · exact h
      · trivial
    | clock now =>
      cases ht
      exact h
  | left =>
    cases e <;> cases ht <;> trivial

/-- `add_timespec` gives the exact time, and a valid one just when nanoseconds and milliseconds do
not add up to one second; this decides over every deadline of a call, whatever the clock says. -/
theorem deadlines_exact_iff {a : Timespec} (ha : a.Valid) {b : ℤ} (hb : 0 ≤ b) (ms : ℤ)
    {es : List WaitEvent} (hclock : ∀ e ∈ es, ValidClock e) :
    ((∃ x, a.add b = some x ∧ x.Valid ∧ x.value = a.value + b * 1000000) ↔
      a.sum b ≠ 1000000000) ∧
    (((waits ms).Along (DeadlineExact ms) (waits ms).init es ∧
        (waits ms).Throughout WaitPc.Enterable (waits ms).init es) ↔
      (waits ms).Along (OffBoundary ms) (waits ms).init es) := by
  constructor
  · obtain ⟨x, hx⟩ := Timespec.exists_add ha hb
    have hvalid := Timespec.valid_add_iff ha hx
    constructor
    · rintro ⟨x', hx', hv, -⟩
      rw [hx] at hx'
      cases hx'
      exact hvalid.mp hv
    · exact fun hoff => ⟨x, hx, hvalid.mpr hoff, Timespec.value_add hx⟩
  · have hiff : (waits ms).Along (DeadlineExact ms) (waits ms).init es ↔
        (waits ms).Along (OffBoundary ms) (waits ms).init es :=
      Machine.Along.congr (V := fun _ e => ValidClock e) (I := fun _ => True)
        (fun _ _ _ _ _ _ _ => trivial) (fun _ _ _ he => exact_iff_offBoundary he) trivial
        (Machine.along_of_forall hclock)
    refine ⟨fun h => hiff.mp h.1, fun h => ⟨hiff.mpr h, ?_⟩⟩
    exact (hiff.mpr h).throughout (I := WaitPc.Sound) (fun _ hs => hs.enterable)
      (fun _ _ _ hs hx ht => hs.step hx ht) trivial

/-- A call with a timeout of one and a half seconds that starts at 0.25 s and times out twice. -/
theorem deadlines_exact_timed_out :
    (⟨100, 250000000⟩ : Timespec).Valid ∧
    ((∃ x, (⟨100, 250000000⟩ : Timespec).add 1500 = some x ∧ x.Valid ∧
        x.value = (⟨100, 250000000⟩ : Timespec).value + 1500 * 1000000) ↔
      (⟨100, 250000000⟩ : Timespec).sum 1500 ≠ 1000000000) ∧
    (((waits 1500).Along (DeadlineExact 1500) (waits 1500).init
          [.clock ⟨100, 250000000⟩, .clock ⟨100, 250001000⟩, .timedOut, .clock ⟨101, 250001000⟩,
            .timedOut] ∧
        (waits 1500).Throughout WaitPc.Enterable (waits 1500).init
          [.clock ⟨100, 250000000⟩, .clock ⟨100, 250001000⟩, .timedOut, .clock ⟨101, 250001000⟩,
            .timedOut]) ↔
      (waits 1500).Along (OffBoundary 1500) (waits 1500).init
        [.clock ⟨100, 250000000⟩, .clock ⟨100, 250001000⟩, .timedOut, .clock ⟨101, 250001000⟩,
          .timedOut]) := by
  have ha : (⟨100, 250000000⟩ : Timespec).Valid := by decide
  exact ⟨ha, deadlines_exact_iff ha (by decide) 1500 (by simp [ValidClock, Timespec.Valid])⟩

/-- Half a second after 0.5 s: the nanoseconds stay at `10 ^ 9`, and a call that starts then and
reads the clock again a microsecond later waits with it. -/
theorem deadline_on_the_second :
    (⟨100, 500000000⟩ : Timespec).add 500 = some ⟨100, 1000000000⟩ ∧
    ¬ (⟨100, 1000000000⟩ : Timespec).Valid ∧
    (waits 500).run [.clock ⟨100, 500000000⟩, .clock ⟨100, 500001000⟩] =
      some (.waiting ⟨0, 1000000000⟩ 1000 ⟨100, 1000000000⟩) := by
  have hfinal : (⟨100, 500000000⟩ : Timespec).add 500 = some ⟨100, 1000000000⟩ := by
    simp [Timespec.add, Timespec.carry]
  have hnext : (⟨100, 500001000⟩ : Timespec).add 1000 = some ⟨101, 500001000⟩ := by
    simp [Timespec.add, Timespec.carry]
  refine ⟨hfinal, by decide, ?_⟩
  simp [Machine.run, Machine.runFrom, waits, WaitPc.step, hfinal, hnext, toMin, Timespec.cmp]

end YFS.Rpc
