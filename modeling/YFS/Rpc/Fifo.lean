import YFS.Library.Condition
import YFS.Library.Machine

/-! # The bounded queue

A `fifo` between any number of threads that call `enq` and `deq`. Its mutex makes every pass
through the loop of a call one step. A thread in `enq` waits on `has_space_c_` and one in `deq` on
`non_empty_c_`, and either wait may end without a signal.
-/

namespace YFS.Rpc
open Library Library.Condition

inductive FifoPc where
  /-- in neither call -/
  | outside
  /-- in `enq`, on `has_space_c_` -/
  | hasSpace (sig : Bool)
  /-- in `deq`, on `non_empty_c_` -/
  | nonEmpty (sig : Bool)
  deriving DecidableEq, Repr

namespace FifoPc

theorem outside_ne_hasSpace (sig : Bool) : outside ≠ hasSpace sig := nofun

theorem outside_ne_nonEmpty (sig : Bool) : outside ≠ nonEmpty sig := nofun

theorem hasSpace_ne_nonEmpty (sig sig' : Bool) : hasSpace sig ≠ nonEmpty sig' := nofun

theorem nonEmpty_ne_hasSpace (sig sig' : Bool) : nonEmpty sig ≠ hasSpace sig' := nofun

/-- What is left of a wait: a signalled thread makes a pass, and one that leaves may signal another
thread. -/
def weight : FifoPc → ℕ
  | .outside => 0
  | .hasSpace sig | .nonEmpty sig => if sig then 3 else 2

theorem weight_le (p : FifoPc) : p.weight ≤ 3 := by
  cases p with
  | outside => exact Nat.zero_le 3
  | hasSpace sig | nonEmpty sig => cases sig <;> decide

end FifoPc

structure Fifo (τ α : Type*) where
  q : List α
  pos : τ → FifoPc
  /-- the argument of the `enq` that a thread waits in -/
  arg : τ → Option α
  /-- history: what each `enq` that returned true has put into the queue, and who called it -/
  put : List (τ × α)
  /-- history: what each `deq` has returned, and to whom -/
  got : List (τ × α)

/-- A `pick` is the thread that the signal of the call wakes, if the pass comes to it. -/
inductive FifoEvent (τ α : Type*) where
  | enq (t : τ) (e : α) (blocking : Bool) (pick : Option τ)
  /-- the wait of an `enq` ends -/
  | enqWake (t : τ) (pick : Option τ)
  | deq (t : τ) (pick : Option τ)
  /-- the wait of a `deq` ends -/
  | deqWake (t : τ) (pick : Option τ)

namespace Fifo
variable {τ α : Type*}

def init : Fifo τ α where
  q := []
  pos := fun _ => .outside
  arg := fun _ => none
  put := []
  got := []

def HasSpace (max : ℕ) (s : Fifo τ α) : Prop := max = 0 ∨ s.q.length < max

instance (max : ℕ) (s : Fifo τ α) : Decidable (s.HasSpace max) :=
  inferInstanceAs (Decidable (_ ∨ _))

variable [DecidableEq τ]

/-- One pass through the loop of `enq`. A call that does not block gives up on a full queue. -/
def enq (max : ℕ) (s : Fifo τ α) (t : τ) (e : α) (blocking : Bool) (pick : Option τ) : Fifo τ α :=
  if s.HasSpace max then
    { s with
      q := s.q ++ [e]
      pos := Function.update (signal FifoPc.nonEmpty s.pos pick) t .outside
      put := s.put ++ [(t, e)] }
  else if blocking then
    { s with
      pos := Function.update s.pos t (.hasSpace false)
      arg := Function.update s.arg t (some e) }
  else s

def signalSpace (max len : ℕ) (pos : τ → FifoPc) (pick : Option τ) : τ → FifoPc :=
  if max ≠ 0 ∧ len < max then signal FifoPc.hasSpace pos pick else pos

def deq (max : ℕ) (s : Fifo τ α) (t : τ) (pick : Option τ) : Fifo τ α :=
  match s.q with
  | [] => { s with pos := Function.update s.pos t (.nonEmpty false) }
  | e :: q =>
    { s with
      q := q
      pos := Function.update (signalSpace max q.length s.pos pick) t .outside
      got := s.got ++ [(t, e)] }

def step (max : ℕ) (s : Fifo τ α) : FifoEvent τ α → Option (Fifo τ α)
  | .enq t e blocking pick =>
    if s.pos t = .outside then some (s.enq max t e blocking pick) else none
  | .enqWake t pick =>
    match s.pos t with
    | .hasSpace _ => (s.arg t).map fun e => s.enq max t e true pick
    | _ => none
  | .deq t pick => if s.pos t = .outside then some (s.deq max t pick) else none
  | .deqWake t pick =>
    match s.pos t with
    | .nonEmpty _ => some (s.deq max t pick)
    | _ => none

end Fifo

/-- A queue of capacity `max`, where 0 is no bound. -/
def fifo (τ α : Type*) [DecidableEq τ] (max : ℕ) : Machine (Fifo τ α) (FifoEvent τ α) where
  init := Fifo.init
  step := Fifo.step max

namespace Fifo

/-! ## What a step can do -/

section Passes
variable {τ α : Type*} {s : Fifo τ α} {ev : FifoEvent τ α} {t : τ} {pick : Option τ}

def Enqueues (s : Fifo τ α) (ev : FifoEvent τ α) (t : τ) (pick : Option τ) : Prop :=
  (∃ e blocking, ev = .enq t e blocking pick) ∧ s.pos t = .outside ∨
    ev = .enqWake t pick ∧ ∃ sig, s.pos t = .hasSpace sig

def Dequeues (s : Fifo τ α) (ev : FifoEvent τ α) (t : τ) (pick : Option τ) : Prop :=
  ev = .deq t pick ∧ s.pos t = .outside ∨ ev = .deqWake t pick ∧ ∃ sig, s.pos t = .nonEmpty sig

def Delivered (s : Fifo τ α) : FifoEvent τ α → Prop
  | .enq _ _ _ pick | .enqWake _ pick => Reaches FifoPc.nonEmpty s.pos pick
  | .deq _ pick | .deqWake _ pick => Reaches FifoPc.hasSpace s.pos pick

def Prompted (s : Fifo τ α) : FifoEvent τ α → Prop
  | .enqWake t _ => s.pos t = .hasSpace true
  | .deqWake t _ => s.pos t = .nonEmpty true
  | _ => False

/-- Whoever waits has reason to: on a full queue in `enq`, on an empty one in `deq`. -/
def Settled (max : ℕ) (s : Fifo τ α) : Prop :=
  (Waits FifoPc.hasSpace s.pos → max ≠ 0 ∧ s.q.length = max) ∧
    (Waits FifoPc.nonEmpty s.pos → s.q = [])

instance [Fintype τ] (s : Fifo τ α) : (ev : FifoEvent τ α) → Decidable (s.Delivered ev)
  | .enq _ _ _ pick | .enqWake _ pick =>
    inferInstanceAs (Decidable (Reaches FifoPc.nonEmpty s.pos pick))
  | .deq _ pick | .deqWake _ pick =>
    inferInstanceAs (Decidable (Reaches FifoPc.hasSpace s.pos pick))

instance (s : Fifo τ α) : (ev : FifoEvent τ α) → Decidable (s.Prompted ev)
  | .enqWake t _ => inferInstanceAs (Decidable (s.pos t = .hasSpace true))
  | .deqWake t _ => inferInstanceAs (Decidable (s.pos t = .nonEmpty true))
  | .enq _ _ _ _ | .deq _ _ => isFalse id

theorem Enqueues.reaches (h : s.Enqueues ev t pick) (hd : s.Delivered ev) :
    Reaches FifoPc.nonEmpty s.pos pick := by
  rcases h with ⟨⟨e, blocking, rfl⟩, -⟩ | ⟨rfl, -⟩
  · exact hd
  · exact hd

theorem Enqueues.ne_nonEmpty (h : s.Enqueues ev t pick) (sig : Bool) :
    s.pos t ≠ .nonEmpty sig := by
  rcases h with ⟨-, hpos⟩ | ⟨-, sig', hpos⟩ <;> rw [hpos] <;> simp

theorem Enqueues.prompted (h : s.Enqueues ev t pick) (hp : s.Prompted ev) :
    s.pos t = .hasSpace true := by
  rcases h with ⟨⟨e, blocking, rfl⟩, -⟩ | ⟨rfl, -⟩
  · cases hp
  · exact hp

theorem Dequeues.reaches (h : s.Dequeues ev t pick) (hd : s.Delivered ev) :
    Reaches FifoPc.hasSpace s.pos pick := by
  rcases h with ⟨rfl, -⟩ | ⟨rfl, -⟩
  · exact hd
  · exact hd

theorem Dequeues.ne_hasSpace (h : s.Dequeues ev t pick) (sig : Bool) : s.pos t ≠ .hasSpace sig := by
  rcases h with ⟨-, hpos⟩ | ⟨-, sig', hpos⟩ <;> rw [hpos] <;> simp

theorem Dequeues.prompted (h : s.Dequeues ev t pick) (hp : s.Prompted ev) :
    s.pos t = .nonEmpty true := by
  rcases h with ⟨rfl, -⟩ | ⟨rfl, -⟩
  · cases hp
  · exact hp

end Passes

section Steps
variable {τ α : Type*} [DecidableEq τ] {max : ℕ} {s s' : Fifo τ α} {ev : FifoEvent τ α} {t : τ}
  {pick : Option τ}

inductive Moves (max : ℕ) (s : Fifo τ α) (ev : FifoEvent τ α) : Fifo τ α → Prop
  | refused (t : τ) (pick : Option τ) (h : s.Enqueues ev t pick) (hpos : s.pos t = .outside) :
    Moves max s ev s
  | entered (t : τ) (e : α) (pick : Option τ) (h : s.Enqueues ev t pick) (hq : s.HasSpace max) :
    Moves max s ev
      { s with
        q := s.q ++ [e]
        pos := Function.update (signal FifoPc.nonEmpty s.pos pick) t .outside
        put := s.put ++ [(t, e)] }
  | full (t : τ) (e : α) (pick : Option τ) (h : s.Enqueues ev t pick) (hq : ¬ s.HasSpace max) :
    Moves max s ev
      { s with
        pos := Function.update s.pos t (.hasSpace false)
        arg := Function.update s.arg t (some e) }
  | left (t : τ) (e : α) (q : List α) (pick : Option τ) (h : s.Dequeues ev t pick)
      (hq : s.q = e :: q) :
    Moves max s ev
      { s with
        q := q
        pos := Function.update (signalSpace max q.length s.pos pick) t .outside
        got := s.got ++ [(t, e)] }
  | empty (t : τ) (pick : Option τ) (h : s.Dequeues ev t pick) (hq : s.q = []) :
    Moves max s ev { s with pos := Function.update s.pos t (.nonEmpty false) }

theorem Enqueues.moves (h : s.Enqueues ev t pick) (e : α) {blocking : Bool}
    (hb : blocking = true ∨ s.pos t = .outside) :
    Moves max s ev (s.enq max t e blocking pick) := by
  rw [enq]
  split
  · rename_i hq
    exact .entered t e pick h hq
  · rename_i hq
    split
    · exact .full t e pick h hq
    · rename_i hblocking
      exact .refused t pick h (hb.resolve_left hblocking)

theorem Dequeues.moves (h : s.Dequeues ev t pick) : Moves max s ev (s.deq max t pick) := by
  rw [deq]
  split
  · rename_i hq
    exact .empty t pick h hq
  · rename_i e q hq
    exact .left t e q pick h hq

theorem moves_of_step (h : s.step max ev = some s') : Moves max s ev s' := by
  cases ev with
  | enq t e blocking pick =>
    rw [step] at h
    split at h
    · rename_i hpos
      cases h
      exact Enqueues.moves (.inl ⟨⟨e, blocking, rfl⟩, hpos⟩) e (.inr hpos)
    · cases h
  | enqWake t pick =>
    rw [step] at h
    split at h
    · rename_i sig hpos
      obtain ⟨e, -, rfl⟩ := Option.map_eq_some_iff.mp h
      exact Enqueues.moves (.inr ⟨rfl, sig, hpos⟩) e (.inl rfl)
    · cases h
  | deq t pick =>
    rw [step] at h
    split at h
    · rename_i hpos
      cases h
      exact Dequeues.moves (.inl ⟨rfl, hpos⟩)
    · cases h
  | deqWake t pick =>
    rw [step] at h
    split at h
    · rename_i sig hpos
      cases h
      exact Dequeues.moves (.inr ⟨rfl, sig, hpos⟩)
    · cases h

/-- The signal on `non_empty_c_` brings nobody into the wait of `enq`. -/
theorem hasSpace_of_entered {x : τ} {sig : Bool}
    (hx : Function.update (signal FifoPc.nonEmpty s.pos pick) t .outside x = .hasSpace sig) :
    s.pos x = .hasSpace sig := by
  by_cases hxt : x = t
  · rw [hxt, Function.update_self] at hx
    cases hx
  · rw [Function.update_of_ne hxt] at hx
    exact (signal_eq_iff pick (FifoPc.hasSpace_ne_nonEmpty sig) x).mp hx

/-- Neither does the one on `has_space_c_`, which only marks who is in it. -/
theorem hasSpace_of_left {x : τ} {sig : Bool} {len : ℕ}
    (hx : Function.update (signalSpace max len s.pos pick) t .outside x = .hasSpace sig) :
    ∃ sig, s.pos x = .hasSpace sig := by
  by_cases hxt : x = t
  · rw [hxt, Function.update_self] at hx
    cases hx
  · rw [Function.update_of_ne hxt, signalSpace] at hx
    split at hx
    · exact (exists_signal_iff pick x).mp ⟨sig, hx⟩
    · exact ⟨sig, hx⟩

end Steps

/-! ## The order of the entries, and who waits for them -/

section Invariant
variable {τ α : Type*} [Fintype τ] {max : ℕ} {s s' : Fifo τ α} {ev : FifoEvent τ α} {t : τ}
  {pick : Option τ}

/-- While a thread is blocked in `deq` as many others have been signalled as there are entries, and
while one is blocked in `enq` as many as there are free places. -/
structure Inv (max : ℕ) (s : Fifo τ α) : Prop where
  order : s.got.map Prod.snd ++ s.q = s.put.map Prod.snd
  capacity : max = 0 ∨ s.q.length ≤ max
  waiting : ∀ t sig, s.pos t = .hasSpace sig → max ≠ 0 ∧ (s.arg t).isSome
  entries : Covered FifoPc.nonEmpty s.pos s.q.length
  spaces : Covered FifoPc.hasSpace s.pos (max - s.q.length)

theorem inv_init : (init : Fifo τ α).Inv max where
  order := rfl
  capacity := .inr (Nat.zero_le _)
  waiting := nofun
  entries := nofun
  spaces := nofun

variable [DecidableEq τ]

theorem Inv.entered (h : s.Inv max) (ht : s.Enqueues ev t pick) (hd : s.Delivered ev)
    (hq : s.HasSpace max) (e : α) :
    Inv max
      { s with
        q := s.q ++ [e]
        pos := Function.update (signal FifoPc.nonEmpty s.pos pick) t .outside
        put := s.put ++ [(t, e)] } := by
  have hlen : (s.q ++ [e]).length = s.q.length + 1 := List.length_append
  refine
    { order := ?_
      capacity := ?_
      waiting := fun x sig hx => h.waiting x sig (hasSpace_of_entered hx)
      entries := ?_
      spaces := ?_ }
  · change s.got.map Prod.snd ++ (s.q ++ [e]) = (s.put ++ [(t, e)]).map Prod.snd
    rw [List.map_append, ← h.order, List.append_assoc]
    rfl
  · exact hq.imp_right fun hlt => hlen.le.trans hlt
  · change Covered _ _ (s.q ++ [e]).length
    rw [hlen]
    apply (h.entries.signal (ht.reaches hd) (by simp)).elsewhere _ FifoPc.outside_ne_nonEmpty
    intro sig hsig
    obtain ⟨sig', hsig'⟩ := (exists_signal_iff pick t).mp ⟨sig, hsig⟩
    exact ht.ne_nonEmpty sig' hsig'
  · change Covered _ _ (max - (s.q ++ [e]).length)
    rw [hlen]
    have hspaces := h.spaces.signal_elsewhere FifoPc.nonEmpty_ne_hasSpace pick
    rcases hq with rfl | hlt
    · rw [Nat.zero_sub]
      exact fun _ _ => Nat.zero_le _
    · have hone : max - s.q.length = max - (s.q.length + 1) + 1 := by omega
      rw [hone] at hspaces
      exact hspaces.leave t FifoPc.outside_ne_hasSpace

theorem Inv.full (h : s.Inv max) (ht : s.Enqueues ev t pick) (hq : ¬ s.HasSpace max) (e : α) :
    Inv max
      { s with
        pos := Function.update s.pos t (.hasSpace false)
        arg := Function.update s.arg t (some e) } := by
  obtain ⟨hmax, hlen⟩ := not_or.mp hq
  refine
    { order := h.order
      capacity := h.capacity
      waiting := ?_
      entries := h.entries.elsewhere ht.ne_nonEmpty (FifoPc.hasSpace_ne_nonEmpty false)
      spaces := ?_ }
  · intro x sig hx
    refine ⟨hmax, ?_⟩
    change (Function.update s.arg t (some e) x).isSome
    by_cases hxt : x = t
    · rw [hxt, Function.update_self]
      rfl
    · change Function.update s.pos t (.hasSpace false) x = .hasSpace sig at hx
      rw [Function.update_of_ne hxt] at hx
      rw [Function.update_of_ne hxt]
      exact (h.waiting x sig hx).2
  · change Covered _ _ (max - s.q.length)
    rw [Nat.sub_eq_zero_of_le (not_lt.mp hlen)]
    exact fun _ _ => Nat.zero_le _

theorem Inv.left (h : s.Inv max) (ht : s.Dequeues ev t pick) (hd : s.Delivered ev) {e : α}
    {q : List α} (hq : s.q = e :: q) :
    Inv max
      { s with
        q := q
        pos := Function.update (signalSpace max q.length s.pos pick) t .outside
        got := s.got ++ [(t, e)] } := by
  have hcapacity := h.capacity
  have hentries := h.entries
  have hspaces := h.spaces
  rw [hq, List.length_cons] at hcapacity hentries hspaces
  refine
    { order := ?_
      capacity := hcapacity.imp_right Nat.le_of_succ_le
      waiting := ?_
      entries := ?_
      spaces := ?_ }
  · change (s.got ++ [(t, e)]).map Prod.snd ++ q = s.put.map Prod.snd
    rw [← h.order, hq, List.map_append, List.append_assoc]
    rfl
  · intro x sig hx
    obtain ⟨sig', hx⟩ := hasSpace_of_left hx
    exact h.waiting x sig' hx
  · rw [signalSpace]
    split
    · have hothers := hentries.signal_elsewhere FifoPc.hasSpace_ne_nonEmpty pick
      exact hothers.leave t FifoPc.outside_ne_nonEmpty
    · exact hentries.leave t FifoPc.outside_ne_nonEmpty
  · change Covered _ _ (max - q.length)
    rw [signalSpace]
    split
    · rename_i hspace
      have hone : max - q.length = max - (q.length + 1) + 1 := by omega
      rw [hone]
      apply (hspaces.signal (ht.reaches hd) (by simp)).elsewhere _ FifoPc.outside_ne_hasSpace
      intro sig hsig
      obtain ⟨sig', hsig'⟩ := (exists_signal_iff pick t).mp ⟨sig, hsig⟩
      exact ht.ne_hasSpace sig' hsig'
    · rename_i hspace
      have hmax : max = 0 := by omega
      rw [hmax, Nat.zero_sub]
      exact fun _ _ => Nat.zero_le _

theorem Inv.empty (h : s.Inv max) (ht : s.Dequeues ev t pick) (hq : s.q = []) :
    Inv max { s with pos := Function.update s.pos t (.nonEmpty false) } where
  order := h.order
  capacity := h.capacity
  waiting x sig hx := by
    change Function.update s.pos t (.nonEmpty false) x = .hasSpace sig at hx
    have hxt : x ≠ t := by
      rintro rfl
      rw [Function.update_self] at hx
      cases hx
    rw [Function.update_of_ne hxt] at hx
    exact h.waiting x sig hx
  entries := by
    change Covered _ _ s.q.length
    rw [hq]
    exact fun _ _ => Nat.zero_le _
  spaces := h.spaces.elsewhere ht.ne_hasSpace (FifoPc.nonEmpty_ne_hasSpace false)

theorem Inv.moves (h : s.Inv max) (hd : s.Delivered ev) (hm : Moves max s ev s') : s'.Inv max := by
  cases hm with
  | refused t pick ht hpos => exact h
  | entered t e pick ht hq => exact h.entered ht hd hq e
  | full t e pick ht hq => exact h.full ht hq e
  | left t e q pick ht hq => exact h.left ht hd hq
  | empty t pick ht hq => exact h.empty ht hq

omit [DecidableEq τ] in
/-- Where nobody has been signalled nobody waits without reason. -/
theorem Inv.settled (h : s.Inv max) (hspace : ¬ Roused FifoPc.hasSpace s.pos)
    (hentry : ¬ Roused FifoPc.nonEmpty s.pos) : s.Settled max := by
  constructor
  · rintro ⟨t, sig, ht⟩
    obtain ⟨hmax, -⟩ := h.waiting t sig ht
    refine ⟨hmax, le_antisymm (h.capacity.resolve_left hmax) ?_⟩
    cases sig with
    | true => exact absurd ⟨t, ht⟩ hspace
    | false =>
      by_contra hlt
      exact hspace (h.spaces.roused (by omega) ht)
  · rintro ⟨t, sig, ht⟩
    cases sig with
    | true => exact absurd ⟨t, ht⟩ hentry
    | false =>
      by_contra hne
      exact hentry (h.entries.roused (List.length_pos_iff.mpr hne) ht)

/-- A thread that has been signalled can make its next pass. -/
theorem Inv.exists_prompted (h : s.Inv max)
    (hr : Roused FifoPc.hasSpace s.pos ∨ Roused FifoPc.nonEmpty s.pos) :
    ∃ ev s', (s.Delivered ev ∧ s.Prompted ev) ∧ s.step max ev = some s' := by
  rcases hr with ⟨t, ht⟩ | ⟨t, ht⟩
  · obtain ⟨pick, hpick⟩ := exists_reaches FifoPc.nonEmpty s.pos
    obtain ⟨e, he⟩ := Option.isSome_iff_exists.mp (h.waiting t true ht).2
    refine ⟨.enqWake t pick, s.enq max t e true pick, ⟨hpick, ht⟩, ?_⟩
    simp only [step, ht, he, Option.map_some]
  · obtain ⟨pick, hpick⟩ := exists_reaches FifoPc.hasSpace s.pos
    refine ⟨.deqWake t pick, s.deq max t pick, ⟨hpick, ht⟩, ?_⟩
    simp only [step, ht]

end Invariant

/-! ## How long the signals last -/

section Weight
variable {τ α : Type*} [Fintype τ] {max : ℕ} {s s' : Fifo τ α} {ev : FifoEvent τ α}

def weight (s : Fifo τ α) : ℕ := ∑ t, (s.pos t).weight

theorem weight_le (s : Fifo τ α) : s.weight ≤ 3 * Fintype.card τ := by
  have hle := Finset.sum_le_card_nsmul Finset.univ (fun t => (s.pos t).weight) 3
    fun t _ => (s.pos t).weight_le
  rw [Finset.card_univ, smul_eq_mul, Nat.mul_comm] at hle
  exact hle

variable [DecidableEq τ]

/-- A thread leaves with one pass and one signal less, and may make a signal. -/
theorem weight_left {t : τ} {pos pos' : τ → FifoPc} (ht : (pos' t).weight = 3)
    (hle : ∑ x, (pos' x).weight ≤ ∑ x, (pos x).weight + 1) :
    ∑ x, (Function.update pos' t .outside x).weight < ∑ x, (pos x).weight := by
  have hsum := sum_update FifoPc.weight pos' t .outside
  rw [ht, FifoPc.weight] at hsum
  omega

/-- A thread that has to wait again has lost its signal. -/
theorem weight_waits {t : τ} {pos : τ → FifoPc} {p : FifoPc} (ht : (pos t).weight = 3)
    (hp : p.weight = 2) : ∑ x, (Function.update pos t p x).weight < ∑ x, (pos x).weight := by
  have hsum := sum_update FifoPc.weight pos t p
  omega

theorem Moves.weight_lt (hm : Moves max s ev s') (hp : s.Prompted ev) : s'.weight < s.weight := by
  cases hm with
  | refused t pick ht hpos =>
    have hsig := ht.prompted hp
    rw [hpos] at hsig
    cases hsig
  | entered t e pick ht hq =>
    apply weight_left
    · rw [(signal_eq_iff pick (FifoPc.hasSpace_ne_nonEmpty true) t).mpr (ht.prompted hp)]
      rfl
    · exact sum_signal_le (by decide) s.pos pick
  | full t e pick ht hq =>
    apply weight_waits _ rfl
    rw [ht.prompted hp]
    rfl
  | left t e q pick ht hq =>
    have hsig := ht.prompted hp
    apply weight_left
    · rw [signalSpace]
      split
      · rw [(signal_eq_iff pick (FifoPc.nonEmpty_ne_hasSpace true) t).mpr hsig]
        rfl
      · rw [hsig]
        rfl
    · rw [signalSpace]
      split
      · exact sum_signal_le (by decide) s.pos pick
      · exact Nat.le_succ _
  | empty t pick ht hq =>
    apply weight_waits _ rfl
    rw [ht.prompted hp]
    rfl

end Weight
end Fifo

section
variable {τ α : Type*} [Fintype τ] [DecidableEq τ]

/-- What `enq` has put into the queue comes out of `deq` in the same order, at most `max` at a time
are in between, and no wake-up is lost: when no further call is made, every sequence of wake-ups of
threads that have been signalled is short, and at its end another signalled thread can go on or
everyone who waits waits on a full queue in `enq` and on an empty one in `deq`. -/
theorem fifo_strands_nobody (max : ℕ) {evs : List (FifoEvent τ α)} {s : Fifo τ α}
    (hd : (fifo τ α max).Along Fifo.Delivered Fifo.init evs)
    (hrun : (fifo τ α max).run evs = some s) :
    s.got.map Prod.snd ++ s.q = s.put.map Prod.snd ∧ (max = 0 ∨ s.q.length ≤ max) ∧
      ∀ wakes t, (fifo τ α max).Along (fun s ev => s.Delivered ev ∧ s.Prompted ev) s wakes →
        (fifo τ α max).runFrom s wakes = some t →
        wakes.length ≤ 3 * Fintype.card τ ∧
          ((∃ ev u, (t.Delivered ev ∧ t.Prompted ev) ∧ (fifo τ α max).step t ev = some u) ∨
            t.Settled max) := by
  have hstep : ∀ s ev t, Fifo.Inv max s → s.Delivered ev → (fifo τ α max).step s ev = some t →
      Fifo.Inv max t := fun s ev t hi hd hst => hi.moves hd (Fifo.moves_of_step hst)
  have hs : Fifo.Inv max s := hd.invariant hstep Fifo.inv_init hrun
  refine ⟨hs.order, hs.capacity, fun wakes t hw ht => ⟨?_, ?_⟩⟩
  · have hle := hw.length_le Fifo.weight (I := Fifo.Inv max) (fun s ev t hi hc hst =>
      ⟨hstep s ev t hi hc.1 hst, (Fifo.moves_of_step hst).weight_lt hc.2⟩) hs ht
    have hcard := s.weight_le
    omega
  · have hi : Fifo.Inv max t := hw.invariant (fun s ev t hi hc => hstep s ev t hi hc.1) hs ht
    by_cases hr : Roused FifoPc.hasSpace t.pos ∨ Roused FifoPc.nonEmpty t.pos
    · exact .inl (hi.exists_prompted hr)
    · obtain ⟨hspace, hentry⟩ := not_or.mp hr
      exact .inr (hi.settled hspace hentry)

end

/-- A queue of one place: the second `enq` waits until a `deq` signals it, and goes on with nobody
left who waits. -/
theorem fifo_strands_nobody_one_place :
    ∃ s t, (fifo (Fin 3) ℕ 1).run
        [.enq 0 7 true none, .enq 1 8 true none, .deq 2 (some 1)] = some s ∧
      (fifo (Fin 3) ℕ 1).runFrom s [.enqWake 1 none] = some t ∧
      s.got.map Prod.snd ++ s.q = s.put.map Prod.snd ∧
      ((∃ ev u, (t.Delivered ev ∧ t.Prompted ev) ∧ (fifo (Fin 3) ℕ 1).step t ev = some u) ∨
        t.Settled 1) := by
  obtain ⟨s, hrun, hwakes, hnext⟩ := Machine.exists_run_of_any (m := fifo (Fin 3) ℕ 1)
    (p := fun s => (fifo (Fin 3) ℕ 1).Along (fun s ev => s.Delivered ev ∧ s.Prompted ev) s
      [.enqWake 1 none] ∧ ((fifo (Fin 3) ℕ 1).runFrom s [.enqWake 1 none]).isSome)
    [.enq 0 7 true none, .enq 1 8 true none, .deq 2 (some 1)] (by decide)
  obtain ⟨t, ht⟩ := Option.isSome_iff_exists.mp hnext
  obtain ⟨horder, -, hwake⟩ := fifo_strands_nobody 1 (by decide) hrun
  exact ⟨s, t, hrun, ht, horder, (hwake _ t hwakes ht).2⟩

end YFS.Rpc
