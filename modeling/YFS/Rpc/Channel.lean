import YFS.Library.Machine
import YFS.Library.Tally

/-! # The connections of a client

An `rpcc` keeps its connection in `chan_` and replaces it when it has died; every `call1` keeps
the one it has sent its request on. Each of them has a reference. What `get_refconn` does under
`chan_m_` is one step, and so is every other call of a connection. Connections die at any time.
-/

namespace YFS.Rpc
open YFS.Library

structure ClientConn where
  dead : Bool
  refno : ℤ
  deriving DecidableEq, Repr

/-- The connections that exist, `chan_`, and for every `call1` under way its `ch`. -/
structure Channel (ι κ : Type) where
  conns : κ → Option ClientConn
  chan : Option κ
  calls : ι → Option (Option κ)
  closed : Bool

/-- `call1` begins, sends on a connection, for which `connect_to_dst` may have to make `new`, uses
it again, and returns; a connection dies; `~rpcc`. -/
inductive ChannelEvent (ι κ : Type) where
  | call (k : ι)
  | transmit (k : ι) (new : Option κ)
  | use (k : ι)
  | finish (k : ι)
  | die (c : κ)
  | destroy

namespace Channel
variable {ι κ : Type} [DecidableEq ι] [DecidableEq κ]

def setConn (s : Channel ι κ) (c : κ) (v : Option ClientConn) : Channel ι κ :=
  { s with conns := Function.update s.conns c v }

def setCall (s : Channel ι κ) (k : ι) (v : Option (Option κ)) : Channel ι κ :=
  { s with calls := Function.update s.calls k v }

def incref (s : Channel ι κ) (c : κ) : Option (Channel ι κ) :=
  (s.conns c).map fun v => s.setConn c (some { v with refno := v.refno + 1 })

/-- `connection::decref`; `none` if there is no such connection or the `VERIFY` fails. -/
def decref (s : Channel ι κ) (c : κ) : Option (Channel ι κ) :=
  (s.conns c).bind fun v =>
    if v.refno - 1 < 0 then none
    else some (s.setConn c (if v.refno - 1 = 0 ∧ v.dead then none
      else some { v with refno := v.refno - 1 }))

/-- `decref` behind a test for `NULL`. -/
def decrefIf (s : Channel ι κ) : Option κ → Option (Channel ι κ)
  | none => some s
  | some c => s.decref c

def needsConn (s : Channel ι κ) : Option Bool :=
  match s.chan with
  | none => some true
  | some c => (s.conns c).map ClientConn.dead

/-- The new connection of `connect_to_dst`, or `NULL`. -/
def connect (s : Channel ι κ) : Option κ → Channel ι κ
  | none => { s with chan := none }
  | some c => { s.setConn c (some ⟨false, 1⟩) with chan := some c }

def renew (s : Channel ι κ) (new : Option κ) : Option (Channel ι κ) :=
  s.needsConn.bind fun needed =>
    if needed then (s.decrefIf s.chan).map fun s => s.connect new else some s

/-- The second half of `get_refconn`: `*ch` becomes `chan_`, unless that is `NULL`. -/
def share (s : Channel ι κ) (k : ι) (ch : Option κ) : Option (Channel ι κ) :=
  match s.chan with
  | none => some s
  | some c => (s.decrefIf ch).bind fun s => (s.incref c).map fun s => s.setCall k (some (some c))

def getRefconn (s : Channel ι κ) (k : ι) (ch new : Option κ) : Option (Channel ι κ) :=
  (s.renew new).bind fun s => s.share k ch

def step (s : Channel ι κ) : ChannelEvent ι κ → Option (Channel ι κ)
  | .call k => some (if s.calls k = none then s.setCall k (some none) else s)
  | .transmit k new =>
    match s.calls k with
    | none => some s
    | some ch => if new.any fun c => (s.conns c).isSome then some s else s.getRefconn k ch new
  | .use k =>
    match s.calls k with
    | some (some c) => (s.conns c).map fun _ => s
    | _ => some s
  | .finish k =>
    match s.calls k with
    | none => some s
    | some ch => (s.decrefIf ch).map fun s => s.setCall k none
  | .die c => some (s.setConn c ((s.conns c).map fun v => { v with dead := true }))
  | .destroy =>
    match s.chan with
    | none => some { s with closed := true }
    | some c =>
      -- `closeconn`
      ((s.setConn c ((s.conns c).map fun v => { v with dead := true })).decref c).map fun s =>
        { s with chan := none, closed := true }

/-- Destruction happens only when no thread is inside the `rpcc` or will use it. -/
def Proper (s : Channel ι κ) : ChannelEvent ι κ → Prop
  | .call _ => s.closed = false
  | .destroy => ∀ k, s.calls k = none
  | _ => True

instance [Fintype ι] (s : Channel ι κ) : (e : ChannelEvent ι κ) → Decidable (s.Proper e)
  | .call _ => inferInstanceAs (Decidable (s.closed = false))
  | .destroy => inferInstanceAs (Decidable (∀ k, s.calls k = none))
  | .transmit _ _ | .use _ | .finish _ | .die _ => isTrue trivial

def held (s : Channel ι κ) : Option ι → Option κ
  | none => s.chan
  | some k => (s.calls k).join

def refs (s : Channel ι κ) (c : κ) : ℤ := (s.conns c).elim 0 ClientConn.refno

/-- A connection that exists is referred to as often as it counts, and only the one in `chan_` can
be alive. -/
structure Balanced (s : Channel ι κ) : Prop where
  tally : Tally s.held s.refs
  pos : ∀ c v, s.conns c = some v → 1 ≤ v.refno
  dead : ∀ c v, s.conns c = some v → s.chan ≠ some c → v.dead = true
  closed : s.closed = true → s.chan = none ∧ ∀ k, s.calls k = none

end Channel

def channel (ι κ : Type) [DecidableEq ι] [DecidableEq κ] :
    Machine (Channel ι κ) (ChannelEvent ι κ) where
  init := ⟨fun _ => none, none, fun _ => none, false⟩
  step := Channel.step

namespace Channel
variable {ι κ : Type} [DecidableEq ι] [DecidableEq κ] {s : Channel ι κ} {c : κ}

theorem balanced_init : (channel ι κ).init.Balanced where
  tally := by
    have hheld : (channel ι κ).init.held = fun _ => none := by
      funext i
      cases i <;> rfl
    rw [hheld]
    exact Tally.nobody
  pos c v h := by cases h
  dead c v h := by cases h
  closed h := by cases h

omit [DecidableEq ι] in
@[simp] theorem setConn_self (v : Option ClientConn) : (s.setConn c v).conns c = v :=
  Function.update_self ..

omit [DecidableEq ι] in
theorem setConn_of_ne {d : κ} (hd : d ≠ c) (v : Option ClientConn) :
    (s.setConn c v).conns d = s.conns d :=
  Function.update_of_ne hd ..

theorem held_connect (new : Option κ) : (s.connect new).held = Function.update s.held none new := by
  funext i
  cases i with
  | none =>
    rw [Function.update_self]
    cases new <;> rfl
  | some k =>
    rw [Function.update_of_ne (by simp)]
    cases new <;> rfl

omit [DecidableEq κ] in
theorem held_clear : ({ s with chan := none, closed := true } : Channel ι κ).held =
    Function.update s.held none none := by
  funext i
  cases i with
  | none =>
    rw [Function.update_self]
    rfl
  | some k =>
    rw [Function.update_of_ne (by simp)]
    rfl

omit [DecidableEq ι] in
theorem refs_setConn (v : Option ClientConn) :
    (s.setConn c v).refs = Function.update s.refs c (v.elim 0 ClientConn.refno) := by
  funext d
  by_cases hd : d = c
  · subst hd
    simp [refs, setConn]
  · simp [refs, setConn, hd]

omit [DecidableEq κ] in
theorem held_setCall (k : ι) (v : Option (Option κ)) :
    (s.setCall k v).held = Function.update s.held (some k) v.join := by
  funext i
  cases i with
  | none => simp [held, setCall]
  | some j =>
    by_cases hj : j = k
    · subst hj
      simp [held, setCall]
    · simp [held, setCall, hj]

omit [DecidableEq ι] in
theorem exists_conn {α : Type} {holds : α → Option κ} (h : Tally holds s.refs) {i : α}
    (hi : holds i = some c) : ∃ v, s.conns c = some v ∧ 1 ≤ v.refno := by
  have hpos := h.pos hi
  rw [refs] at hpos
  cases hc : s.conns c with
  | none => simp [hc] at hpos
  | some v => exact ⟨v, rfl, by simpa [hc] using hpos⟩

/-- Only the counts are other, and what is gone. -/
structure Keeps (s t : Channel ι κ) : Prop where
  chan : t.chan = s.chan
  calls : t.calls = s.calls
  closed : t.closed = s.closed
  conns : ∀ c v, t.conns c = some v → 1 ≤ v.refno ∧ ∃ u, s.conns c = some u ∧ u.dead = v.dead

omit [DecidableEq ι] in
theorem keeps_setConn (hpos : ∀ c v, s.conns c = some v → 1 ≤ v.refno) {w : Option ClientConn}
    (hw : ∀ v ∈ w, 1 ≤ v.refno ∧ ∃ u, s.conns c = some u ∧ u.dead = v.dead) :
    s.Keeps (s.setConn c w) where
  chan := rfl
  calls := rfl
  closed := rfl
  conns d v hv := by
    by_cases hd : d = c
    · subst hd
      rw [setConn_self] at hv
      exact hw v hv
    · rw [setConn_of_ne hd] at hv
      exact ⟨hpos d v hv, v, hv, rfl⟩

section Counts
variable {α : Type} [DecidableEq α] {holds : α → Option κ} {i : α}

omit [DecidableEq ι] in
theorem incref_spec (h : Tally holds s.refs) (hpos : ∀ c v, s.conns c = some v → 1 ≤ v.refno)
    {v : ClientConn} (hc : s.conns c = some v) (hi : holds i = none) :
    ∃ t, s.incref c = some t ∧ s.Keeps t ∧ Tally (Function.update holds i (some c)) t.refs := by
  refine ⟨s.setConn c (some { v with refno := v.refno + 1 }), ?_, ?_, ?_⟩
  · rw [incref, hc, Option.map_some]
  · refine keeps_setConn hpos fun u hu => ?_
    cases hu
    have hv := hpos c v hc
    exact ⟨by dsimp only; omega, v, hc, rfl⟩
  · have hrefs : s.refs c + 1 = v.refno + 1 := by rw [refs, hc, Option.elim_some]
    rw [refs_setConn, Option.elim_some, ← hrefs]
    exact h.take hi c

omit [DecidableEq ι] in
theorem decref_spec (h : Tally holds s.refs) (hpos : ∀ c v, s.conns c = some v → 1 ≤ v.refno)
    (hi : holds i = some c)
    (hlast : (∀ v, s.conns c = some v → v.dead = true) ∨ ∃ i', i' ≠ i ∧ holds i' = some c) :
    ∃ t, s.decref c = some t ∧ s.Keeps t ∧ Tally (Function.update holds i none) t.refs := by
  obtain ⟨v, hc, hv⟩ := exists_conn h hi
  have hrefs : s.refs c - 1 = v.refno - 1 := by rw [refs, hc, Option.elim_some]
  have hdrop := h.drop hi
  rw [hrefs] at hdrop
  have hneg : ¬ v.refno - 1 < 0 := by omega
  by_cases hzero : v.refno - 1 = 0
  · have hdead : v.dead = true := by
      rcases hlast with hdead | ⟨i', hne, hi'⟩
      · exact hdead v hc
      · have hmore := hdrop.pos ((Function.update_of_ne hne ..).trans hi')
        rw [Function.update_self] at hmore
        omega
    refine ⟨s.setConn c none, ?_, keeps_setConn hpos (by simp), ?_⟩
    · rw [decref, hc, Option.bind_some, if_neg hneg, if_pos ⟨hzero, hdead⟩]
    · rw [refs_setConn, Option.elim_none, ← hzero]
      exact hdrop
  · refine ⟨s.setConn c (some { v with refno := v.refno - 1 }), ?_, ?_, ?_⟩
    · rw [decref, hc, Option.bind_some, if_neg hneg, if_neg fun hboth => hzero hboth.1]
    · refine keeps_setConn hpos fun u hu => ?_
      cases hu
      exact ⟨by dsimp only; omega, v, hc, rfl⟩
    · rw [refs_setConn, Option.elim_some]
      exact hdrop

end Counts

omit [DecidableEq ι] [DecidableEq κ] in
theorem Keeps.trans {s t u : Channel ι κ} (h : s.Keeps t) (h' : t.Keeps u) : s.Keeps u where
  chan := h'.chan.trans h.chan
  calls := h'.calls.trans h.calls
  closed := h'.closed.trans h.closed
  conns c v hv := by
    obtain ⟨hpos, v', hv', hdead'⟩ := h'.conns c v hv
    obtain ⟨-, v'', hv'', hdead⟩ := h.conns c v' hv'
    exact ⟨hpos, v'', hv'', hdead.trans hdead'⟩

omit [DecidableEq ι] [DecidableEq κ] in
theorem Keeps.held {s t : Channel ι κ} (h : s.Keeps t) : t.held = s.held := by
  funext i
  cases i with
  | none => exact h.chan
  | some k => exact congrArg Option.join (congrFun h.calls k)

namespace Balanced

theorem connect {new : Option κ} (htally : Tally (Function.update s.held none none) s.refs)
    (hpos : ∀ c v, s.conns c = some v → 1 ≤ v.refno)
    (hdead : ∀ c v, s.conns c = some v → v.dead = true) (hopen : s.closed = false)
    (hnew : ∀ c ∈ new, s.conns c = none) : (s.connect new).Balanced := by
  cases new with
  | none =>
    refine ⟨?_, hpos, fun c v hv _ => hdead c v hv, fun hclosed => ?_⟩
    · rw [held_connect]
      exact htally
    · rw [show s.closed = true from hclosed] at hopen
      cases hopen
  | some c =>
    have hc : s.conns c = none := hnew c rfl
    have hother {d : κ} {v : ClientConn} (hd : d ≠ c) (hv : (s.connect (some c)).conns d = some v) :
        s.conns d = some v := (setConn_of_ne hd _).symm.trans hv
    have hself {v : ClientConn} (hv : (s.connect (some c)).conns c = some v) : v = ⟨false, 1⟩ :=
      (Option.some.inj ((setConn_self _).symm.trans hv)).symm
    refine ⟨?_, fun d v hv => ?_, fun d v hv hne => ?_, fun hclosed => ?_⟩
    · have htake := htally.take (i := none) (Function.update_self ..) c
      have hrefs : (s.connect (some c)).refs = Function.update s.refs c (s.refs c + 1) := by
        rw [show s.refs c = 0 by rw [refs, hc, Option.elim_none]]
        exact refs_setConn _
      rw [Function.update_idem] at htake
      rw [held_connect, hrefs]
      exact htake
    · by_cases hd : d = c
      · subst hd
        rw [hself hv]
      · exact hpos d v (hother hd hv)
    · have hd : d ≠ c := by
        rintro rfl
        exact hne rfl
      exact hdead d v (hother hd hv)
    · rw [show s.closed = true from hclosed] at hopen
      cases hopen

theorem renew {new : Option κ} (h : s.Balanced) (hopen : s.closed = false)
    (hnew : ∀ c ∈ new, s.conns c = none) :
    ∃ t, s.renew new = some t ∧ t.Balanced ∧ t.calls = s.calls := by
  cases hchan : s.chan with
  | none =>
    refine ⟨s.connect new, by simp [Channel.renew, needsConn, hchan, Channel.decrefIf], ?_, ?_⟩
    · refine connect ?_ h.pos (fun c v hv => h.dead c v hv (by simp [hchan])) hopen hnew
      have hsame : Function.update s.held none none = s.held := by
        rw [← hchan]
        exact Function.update_eq_self ..
      rw [hsame]
      exact h.tally
    · cases new <;> rfl
  | some c =>
    obtain ⟨v, hc, -⟩ := exists_conn h.tally (show s.held none = some c from hchan)
    have hneeds : s.needsConn = some v.dead := by simp [needsConn, hchan, hc]
    cases hv : v.dead with
    | false => exact ⟨s, by simp [Channel.renew, hneeds, hv], h, rfl⟩
    | true =>
      have hdead : ∀ u, s.conns c = some u → u.dead = true := by
        intro u hu
        rw [hc] at hu
        cases hu
        exact hv
      obtain ⟨t, ht, hk, htally⟩ := decref_spec h.tally h.pos (i := none) hchan (.inl hdead)
      have hgone (d : κ) (u : ClientConn) (hu : t.conns d = some u) : u.dead = true := by
        obtain ⟨-, u', hu', hsame⟩ := hk.conns d u hu
        rw [← hsame]
        by_cases hd : d = c
        · subst hd
          exact hdead u' hu'
        · refine h.dead d u' hu' fun heq => hd ?_
          rw [hchan] at heq
          exact (Option.some.inj heq).symm
      refine ⟨t.connect new, ?_, ?_, ?_⟩
      · simp [Channel.renew, hneeds, hv, hchan, Channel.decrefIf, ht]
      · refine connect (hk.held ▸ htally) (fun d u hu => (hk.conns d u hu).1) hgone
          (hk.closed.trans hopen) fun d hd => ?_
        cases htd : t.conns d with
        | none => rfl
        | some u =>
          obtain ⟨-, u', hu', -⟩ := hk.conns d u htd
          rw [hnew d hd] at hu'
          cases hu'
      · cases new <;> exact hk.calls

theorem decrefIf {k : ι} {ch : Option κ} (h : s.Balanced) (hk : s.calls k = some ch) :
    ∃ t, s.decrefIf ch = some t ∧ s.Keeps t ∧
      Tally (Function.update s.held (some k) none) t.refs := by
  have hheld : s.held (some k) = ch := by rw [held, hk, Option.join_some]
  cases ch with
  | none =>
    refine ⟨s, rfl, ⟨rfl, rfl, rfl, fun d v hv => ⟨h.pos d v hv, v, hv, rfl⟩⟩, ?_⟩
    rw [← hheld, Function.update_eq_self]
    exact h.tally
  | some d =>
    refine decref_spec h.tally h.pos hheld ?_
    by_cases hd : s.chan = some d
    · exact .inr ⟨none, by simp, hd⟩
    · exact .inl fun v hv => h.dead d v hv hd

omit [DecidableEq ι] in
/-- An `rpcc` in use has not been destroyed. -/
theorem closed_eq {k : ι} {ch : Option κ} (h : s.Balanced) (hk : s.calls k = some ch) :
    s.closed = false := by
  by_contra hclosed
  rw [Bool.not_eq_false] at hclosed
  rw [(h.closed hclosed).2 k] at hk
  cases hk

theorem setCall {t : Channel ι κ} {k : ι} {v : Option (Option κ)} (h : s.Balanced)
    (hk : s.Keeps t) (hopen : s.closed = false)
    (htally : Tally (Function.update s.held (some k) v.join) t.refs) :
    (t.setCall k v).Balanced where
  tally := by
    rw [held_setCall, hk.held]
    exact htally
  pos c w hw := (hk.conns c w hw).1
  dead c w hw hne := by
    obtain ⟨-, u, hu, hsame⟩ := hk.conns c w hw
    rw [← hsame]
    exact h.dead c u hu fun heq => hne (hk.chan.trans heq)
  closed hclosed := by
    rw [show s.closed = true from hk.closed ▸ hclosed] at hopen
    cases hopen

theorem share {k : ι} {ch : Option κ} (h : s.Balanced) (hk : s.calls k = some ch) :
    ∃ t, s.share k ch = some t ∧ t.Balanced := by
  cases hchan : s.chan with
  | none => exact ⟨s, by rw [Channel.share, hchan], h⟩
  | some c =>
    obtain ⟨t, ht, hkt, htally⟩ := h.decrefIf hk
    have hholds : Function.update s.held (some k) none none = some c :=
      (Function.update_of_ne (by simp) ..).trans hchan
    obtain ⟨v, hv, -⟩ := exists_conn htally hholds
    obtain ⟨u, hu, hku, hutally⟩ := incref_spec htally (fun d v hv => (hkt.conns d v hv).1) hv
      (Function.update_self (some k) none s.held)
    rw [Function.update_idem] at hutally
    refine ⟨u.setCall k (some (some c)), by simp [Channel.share, hchan, ht, hu], ?_⟩
    exact h.setCall (hkt.trans hku) (h.closed_eq hk) hutally

theorem getRefconn {k : ι} {ch new : Option κ} (h : s.Balanced) (hk : s.calls k = some ch)
    (hnew : ∀ c ∈ new, s.conns c = none) : ∃ t, s.getRefconn k ch new = some t ∧ t.Balanced := by
  obtain ⟨t, ht, hbal, hcalls⟩ := h.renew (h.closed_eq hk) hnew
  obtain ⟨u, hu, hbal'⟩ := hbal.share ((congrFun hcalls k).trans hk)
  exact ⟨u, by rw [Channel.getRefconn, ht, Option.bind_some, hu], hbal'⟩

omit [DecidableEq ι] in
theorem die (h : s.Balanced) (c : κ) :
    (s.setConn c ((s.conns c).map fun v => { v with dead := true })).Balanced := by
  have hconn {d : κ} {v : ClientConn}
      (hv : (s.setConn c ((s.conns c).map fun v => { v with dead := true })).conns d = some v) :
      ∃ u, s.conns d = some u ∧ u.refno = v.refno ∧ (u.dead = true → v.dead = true) := by
    by_cases hd : d = c
    · subst hd
      rw [setConn_self] at hv
      obtain ⟨u, hu, rfl⟩ := Option.map_eq_some_iff.mp hv
      exact ⟨u, hu, rfl, fun _ => rfl⟩
    · rw [setConn_of_ne hd] at hv
      exact ⟨v, hv, rfl, id⟩
  refine ⟨?_, fun d v hv => ?_, fun d v hv hne => ?_, h.closed⟩
  · have hrefs : (s.setConn c ((s.conns c).map fun v => { v with dead := true })).refs = s.refs := by
      rw [refs_setConn]
      convert Function.update_eq_self c s.refs
      cases hc : s.conns c <;> simp [refs, hc]
    rw [hrefs]
    exact h.tally
  · obtain ⟨u, hu, hrefno, -⟩ := hconn hv
    rw [← hrefno]
    exact h.pos d u hu
  · obtain ⟨u, hu, -, hdead⟩ := hconn hv
    exact hdead (h.dead d u hu hne)

theorem destroy (h : s.Balanced) (hidle : ∀ k, s.calls k = none) :
    ∃ t, s.step .destroy = some t ∧ t.Balanced := by
  cases hchan : s.chan with
  | none =>
    refine ⟨{ s with closed := true }, by rw [Channel.step, hchan], ?_⟩
    exact { h with closed := fun _ => ⟨hchan, hidle⟩ }
  | some c =>
    have hdie := h.die c
    have hdead : ∀ v, (s.setConn c ((s.conns c).map fun v => { v with dead := true })).conns c =
        some v → v.dead = true := by
      intro v hv
      rw [setConn_self] at hv
      obtain ⟨u, -, rfl⟩ := Option.map_eq_some_iff.mp hv
      rfl
    obtain ⟨t, ht, hk, htally⟩ := decref_spec (i := none) hdie.tally hdie.pos hchan (.inl hdead)
    refine ⟨{ t with chan := none, closed := true }, by simp [Channel.step, hchan, ht], ?_,
      fun d v hv => (hk.conns d v hv).1, fun d v hv _ => ?_, fun _ => ⟨rfl, fun k => ?_⟩⟩
    · rw [held_clear, hk.held]
      exact htally
    · obtain ⟨-, u, hu, hsame⟩ := hk.conns d v hv
      rw [← hsame]
      by_cases hd : d = c
      · subst hd
        exact hdead u hu
      · refine hdie.dead d u hu fun heq => hd ?_
        exact Option.some.inj (heq.symm.trans hchan)
    · exact (congrFun hk.calls k).trans (hidle k)

theorem step {e : ChannelEvent ι κ} (h : s.Balanced) (he : s.Proper e) :
    ∃ t, s.step e = some t ∧ t.Balanced := by
  cases e with
  | call k =>
    by_cases hk : s.calls k = none
    · refine ⟨s.setCall k (some none), by rw [Channel.step, if_pos hk], ?_⟩
      refine h.setCall ⟨rfl, rfl, rfl, fun d v hv => ⟨h.pos d v hv, v, hv, rfl⟩⟩ he ?_
      have hheld : s.held (some k) = none := by rw [held, hk, Option.join_none]
      rw [Option.join_some, ← hheld, Function.update_eq_self]
      exact h.tally
    · exact ⟨s, by rw [Channel.step, if_neg hk], h⟩
  | transmit k new =>
    cases hk : s.calls k with
    | none => exact ⟨s, by rw [Channel.step, hk], h⟩
    | some ch =>
      by_cases hnew : new.any (fun c => (s.conns c).isSome) = true
      · exact ⟨s, by simp only [Channel.step, hk, hnew, if_true], h⟩
      · have hfree : ∀ c, new = some c → s.conns c = none := by
          intro c hc
          cases hc
          simpa using hnew
        obtain ⟨t, ht, hbal⟩ := h.getRefconn hk hfree
        exact ⟨t, by simp only [Channel.step, hk, hnew, Bool.false_eq_true, if_false, ht], hbal⟩
  | use k =>
    cases hk : s.calls k with
    | none => exact ⟨s, by rw [Channel.step, hk], h⟩
    | some ch =>
      cases ch with
      | none => exact ⟨s, by rw [Channel.step, hk], h⟩
      | some c =>
        have hheld : s.held (some k) = some c := by rw [held, hk, Option.join_some]
        obtain ⟨v, hc, -⟩ := exists_conn h.tally hheld
        exact ⟨s, by simp [Channel.step, hk, hc], h⟩
  | finish k =>
    cases hk : s.calls k with
    | none => exact ⟨s, by rw [Channel.step, hk], h⟩
    | some ch =>
      obtain ⟨t, ht, hkeeps, htally⟩ := h.decrefIf hk
      refine ⟨t.setCall k none, by simp [Channel.step, hk, ht], ?_⟩
      exact h.setCall hkeeps (h.closed_eq hk) htally
  | die c => exact ⟨_, rfl, h.die c⟩
  | destroy => exact h.destroy he

end Balanced

/-- What is known of one connection: it does not exist and nobody refers to it, or its count is
the number of those who do, there are such, and it is dead unless it is `chan_`. -/
def Accounted (s : Channel ι κ) (c : κ) : Prop :=
  (s.conns c = none ∧ ∀ i, s.held i ≠ some c) ∨
    ∃ v, ∃ T : Finset (Option ι), s.conns c = some v ∧ (∀ i, i ∈ T ↔ s.held i = some c) ∧
      v.refno = T.card ∧ T.Nonempty ∧ (v.dead = false → s.chan = some c)

omit [DecidableEq ι] in
theorem Balanced.accounted (h : s.Balanced) (c : κ) : s.Accounted c := by
  cases hc : s.conns c with
  | none =>
    refine .inl ⟨hc, fun i hi => ?_⟩
    obtain ⟨v, hv, -⟩ := exists_conn h.tally hi
    rw [hc] at hv
    cases hv
  | some v =>
    obtain ⟨T, hT, hcard⟩ := h.tally.holders c
    rw [refs, hc, Option.elim_some] at hcard
    have hpos := h.pos c v hc
    refine .inr ⟨v, T, hc, hT, hcard, Finset.card_pos.mp (by omega), fun halive => ?_⟩
    by_contra hne
    rw [h.dead c v hc hne] at halive
    cases halive

end Channel

/-- Whatever the calls, the network and the connections do, no `VERIFY` fails and nothing that has
been deleted is used; every connection is deleted with its last reference; and at most one
connection of the client is alive, the one in `chan_`. When the client has been destroyed, all
its connections have been deleted. -/
theorem connections_accounted {ι κ : Type} [DecidableEq ι] [DecidableEq κ]
    {es : List (ChannelEvent ι κ)}
    (hes : (channel ι κ).Along Channel.Proper (channel ι κ).init es) :
    ∃ s, (channel ι κ).run es = some s ∧ (∀ c, s.Accounted c) ∧
      (s.closed = true → ∀ c, s.conns c = none) := by
  obtain ⟨s, hrun, hbal⟩ := hes.progress (I := Channel.Balanced)
    (fun _ _ h he => h.step he) Channel.balanced_init
  refine ⟨s, hrun, hbal.accounted, fun hclosed c => ?_⟩
  obtain ⟨hchan, hcalls⟩ := hbal.closed hclosed
  have hnobody (i : Option ι) : s.held i = none := by
    cases i with
    | none => exact hchan
    | some k => rw [Channel.held, hcalls k, Option.join_none]
  rcases hbal.accounted c with ⟨hc, -⟩ | ⟨v, T, -, hT, -, ⟨i, hi⟩, -⟩
  · exact hc
  · rw [hT, hnobody i] at hi
    cases hi

/-- Two calls share a connection; when it has died, one of them sends again on a new one. -/
def sharedAndReplaced : List (ChannelEvent Bool ℕ) :=
  [.call false, .transmit false (some 0), .call true, .transmit true none, .use true, .die 0,
    .transmit false (some 1), .use false, .finish true, .finish false, .destroy]

theorem connections_accounted_replaced :
    (channel Bool ℕ).Along Channel.Proper (channel Bool ℕ).init sharedAndReplaced ∧
    ∃ s, (channel Bool ℕ).run sharedAndReplaced = some s ∧ (∀ c, s.Accounted c) ∧
      (s.closed = true → ∀ c, s.conns c = none) := by
  have hes : (channel Bool ℕ).Along Channel.Proper (channel Bool ℕ).init sharedAndReplaced := by
    decide
  exact ⟨hes, connections_accounted hes⟩

end YFS.Rpc
