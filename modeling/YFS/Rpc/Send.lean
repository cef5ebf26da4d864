import YFS.Rpc.Connection

/-! # Sending PDUs over a connection

Any number of threads call `connection::send` on one connection. The slot `wpdu_` belongs to
one of them at a time, also while `write_cb` goes on with its PDU in the poll thread. Waits
on the condition variables may end at any time, as they may in the code; what a thread does
next depends on the tests it makes under `m_`.
-/

namespace YFS.Rpc
open YFS.Library

/-- `wpdu_`, where `none` is a `NULL` buffer. -/
structure Wpdu where
  buf : Option Bytes
  sz : ℤ
  solong : ℤ
  deriving DecidableEq, Repr

def Wpdu.empty : Wpdu := ⟨none, 0, 0⟩

/-- Where a call of `send` stands: it waits for the slot or for its PDU to be written, it is in
`block_remove_fd` after an error, or it has returned. -/
inductive SendPc where
  | idle
  | waitSlot
  | waitComplete
  | removing
  | returned (ret : Bool)
  deriving DecidableEq, Repr

/-- What `write()` returns: a number of bytes, or -1 with `EAGAIN` or with another error. -/
inductive WriteResult where
  | wrote (n : ℕ)
  | again
  | error
  deriving DecidableEq, Repr

/-- The sending side of a `connection`: `dead_`, `wpdu_`, the calls of `send`, and the bytes that
have been written to the socket. -/
structure Sender (ι : Type*) where
  dead : Bool
  wpdu : Wpdu
  calls : ι → SendPc
  wire : Bytes

/-- `send`, a wait in it or `block_remove_fd` that ends, `write_cb`, and the ways in which the
connection dies elsewhere: a failure in `read_cb` and `closeconn`. -/
inductive SendEvent (ι : Type*) where
  | send (k : ι) (w : WriteResult)
  | slotWake (k : ι) (w : WriteResult)
  | completeWake (k : ι)
  | removed (k : ι)
  | writeCb (w : WriteResult)
  | readFail
  | closeconn

namespace Sender

variable {ι : Type*} [DecidableEq ι] (buf : ι → Bytes)

def setCall (s : Sender ι) (k : ι) (pc : SendPc) : Sender ι :=
  { s with calls := Function.update s.calls k pc }

/-- `connection::writepdu`; `none` where its `VERIFY` fails or `write` cannot return this. -/
def writepdu (s : Sender ι) (w : WriteResult) : Option (Bool × Sender ι) :=
  match s.wpdu.buf with
  | none => none
  | some b =>
    if s.wpdu.solong < 0 then none
    else if s.wpdu.solong = s.wpdu.sz then some (true, s)
    else
      -- the size is copied over the first four bytes
      let b := if s.wpdu.solong = 0 then
        BigEndian.toBytes 4 (BitVec.ofInt 32 s.wpdu.sz) ++ b.drop 4 else b
      match w with
      | .wrote n =>
        if (n : ℤ) ≤ s.wpdu.sz - s.wpdu.solong then
          some (true, { s with
            wpdu := ⟨some b, s.wpdu.sz, s.wpdu.solong + n⟩
            wire := s.wire ++ (b.drop s.wpdu.solong.toNat).take n })
        else none
      | .again => some (true, { s with wpdu := { s.wpdu with buf := some b } })
      | .error => some (false, { s with wpdu := ⟨some b, 0, -1⟩ })

def finish (s : Sender ι) (k : ι) : Sender ι :=
  { s.setCall k (.returned (!s.dead && decide (s.wpdu.solong = s.wpdu.sz))) with wpdu := .empty }

/-- `send` from its test of `dead_` and `wpdu_.buf` on. -/
def enter (s : Sender ι) (k : ι) (w : WriteResult) : Option (Sender ι) :=
  if s.dead then some (s.setCall k (.returned false))
  else if s.wpdu.buf.isSome then some (s.setCall k .waitSlot)
  else do
    let (succ, s) ← writepdu { s with wpdu := ⟨some (buf k), (buf k).length, 0⟩ } w
    if succ = false then some ({ s with dead := true }.setCall k .removing)
    else if s.wpdu.solong = s.wpdu.sz then some (s.finish k)
    else some (s.setCall k .waitComplete)

def writeCb (s : Sender ι) (w : WriteResult) : Option (Sender ι) :=
  if s.dead then none
  else if s.wpdu.sz = 0 then some s
  else do
    let (succ, s) ← s.writepdu w
    if succ = false then some { s with dead := true }
    else if s.wpdu.solong < 0 then none
    else some s

def step (s : Sender ι) : SendEvent ι → Option (Sender ι)
  | .send k w => if s.calls k = .idle then s.enter buf k w else none
  | .slotWake k w => if s.calls k = .waitSlot then s.enter buf k w else none
  | .completeWake k =>
    if s.calls k = .waitComplete then
      if !s.dead && decide (0 ≤ s.wpdu.solong) && decide (s.wpdu.solong < s.wpdu.sz) then some s
      else some (s.finish k)
    else none
  | .removed k => if s.calls k = .removing then some (s.finish k) else none
  | .writeCb w => s.writeCb w
  | .readFail => some { s with dead := true }
  | .closeconn => some { s with dead := true }

end Sender

def sender {ι : Type*} [DecidableEq ι] (buf : ι → Bytes) : Machine (Sender ι) (SendEvent ι) where
  init := ⟨false, .empty, fun _ => .idle, []⟩
  step := Sender.step buf

namespace Sender

variable {ι : Type*} [DecidableEq ι] (buf : ι → Bytes)

def pdus (done : List ι) : Bytes := (done.map fun k => sized (buf k)).flatten

/-- Nothing, or a proper beginning of the PDU of a call that is not among those completed. -/
def Cut (done : List ι) (part : Bytes) : Prop :=
  part = [] ∨ ∃ k, k ∉ done ∧ part <+: sized (buf k) ∧ part.length < (sized (buf k)).length

/-- The socket has got whole PDUs and at most a part of one more, each at most once, and `send` has
returned true only for whole ones. -/
def WholePdus (s : Sender ι) : Prop :=
  ∃ done part, s.wire = pdus buf done ++ part ∧ done.Nodup ∧ Cut buf done part ∧
    ∀ k, s.calls k = .returned true → k ∈ done

/-- Nothing is written once the connection is dead. -/
def Silent (s : Sender ι) (e : SendEvent ι) : Prop :=
  s.dead = true → ∀ t, s.step buf e = some t → t.wire = s.wire

end Sender

/-! ## The bytes of one PDU -/

/-- The size is copied again as long as nothing has been written. -/
theorem copied_sized {b b' : Bytes} (h : b' = b ∨ b' = sized b) :
    BigEndian.toBytes 4 (BitVec.ofInt 32 (b.length : ℤ)) ++ b'.drop 4 = sized b := by
  have hdrop : b'.drop 4 = b.drop 4 := by
    rcases h with rfl | rfl
    · rfl
    · exact drop_sized b
  rw [hdrop, BitVec.ofInt_natCast]
  rfl

def SendPc.Holds (pc : SendPc) : Prop := pc = .waitComplete ∨ pc = .removing

/-- The call has not got the slot yet. -/
def SendPc.Outside (pc : SendPc) : Prop := pc = .idle ∨ pc = .waitSlot

namespace Sender

variable {ι : Type*} {buf : ι → Bytes}

/-- `writepdu` in front of the last byte of a PDU writes some more bytes, possibly none, or fails. -/
theorem writepdu_cases {s t : Sender ι} {b b' : Bytes} {n : ℕ} {w : WriteResult} {succ : Bool}
    (hw : s.wpdu = ⟨some b', b.length, n⟩) (hb : b' = sized b ∨ n = 0 ∧ b' = b)
    (hn : n < b.length) (h : s.writepdu w = some (succ, t)) :
    (succ = true ∧ ∃ m, n + m ≤ b.length ∧
      t = ⟨s.dead, ⟨some (sized b), b.length, (n + m : ℕ)⟩, s.calls,
        s.wire ++ ((sized b).drop n).take m⟩) ∨
    (succ = false ∧ t = { s with wpdu := ⟨some (sized b), 0, -1⟩ }) := by
  have hcopy : (if (n : ℤ) = 0 then
      BigEndian.toBytes 4 (BitVec.ofInt 32 (b.length : ℤ)) ++ b'.drop 4 else b') = sized b := by
    split_ifs with h0
    · exact copied_sized (hb.symm.imp And.right id)
    · rcases hb with rfl | ⟨rfl, -⟩
      · rfl
      · exact absurd rfl h0
  have hpos : ¬ (n : ℤ) < 0 := by omega
  have hne : ¬ (n : ℤ) = b.length := by omega
  rw [writepdu, hw] at h
  dsimp only at h
  rw [if_neg hpos, if_neg hne, hcopy] at h
  cases w with
  | wrote m =>
    dsimp only at h
    split_ifs at h with hm
    cases h
    exact .inl ⟨rfl, m, by omega, by simp⟩
  | again =>
    cases h
    exact .inl ⟨rfl, 0, by omega, by simp⟩
  | error =>
    cases h
    exact .inr ⟨rfl, rfl⟩

/-! ## The slot -/

/-- `done` are the calls whose PDUs are complete. -/
structure Log (calls : ι → SendPc) (done : List ι) : Prop where
  nodup : done.Nodup
  entered : ∀ k ∈ done, ¬ (calls k).Outside
  returned : ∀ k, calls k = .returned true → k ∈ done

variable (buf) in
/-- The slot is free, or a call holds it and has written `n` bytes, or the connection is dead. -/
inductive Phase (s : Sender ι) (done : List ι) : Prop where
  | free (hdead : s.dead = false) (hw : s.wpdu = .empty) (hwire : s.wire = pdus buf done)
      (hpc : ∀ j, ¬ (s.calls j).Holds)
  | busy (k : ι) (n : ℕ) (hdead : s.dead = false) (hk : k ∉ done) (hn : n ≤ (buf k).length)
      (hw : s.wpdu = ⟨some (sized (buf k)), (buf k).length, n⟩)
      (hwire : s.wire = pdus buf done ++ (sized (buf k)).take n)
      (hpc : s.calls k = .waitComplete) (honly : ∀ j, (s.calls j).Holds → j = k)
  | dead (part : Bytes) (hdead : s.dead = true) (hwire : s.wire = pdus buf done ++ part)
      (hcut : Cut buf done part)

variable (buf) in
def Inv (s : Sender ι) : Prop := ∃ done, Log s.calls done ∧ Phase buf s done

theorem pdus_concat (done : List ι) (k : ι) :
    pdus buf (done ++ [k]) = pdus buf done ++ sized (buf k) := by
  simp [pdus]

theorem Log.concat {calls : ι → SendPc} {done : List ι} (h : Log calls done) {k : ι} (hk : k ∉ done)
    (hpc : ¬ (calls k).Outside) : Log calls (done ++ [k]) where
  nodup := List.nodup_append.mpr ⟨h.nodup, List.nodup_singleton k, by
    rintro j hj _ hk' rfl
    rw [List.mem_singleton] at hk'
    exact hk (hk' ▸ hj)⟩
  entered j hj := by
    rcases List.mem_append.mp hj with hj | hj
    · exact h.entered j hj
    · rwa [List.mem_singleton.mp hj]
  returned j hj := List.mem_append_left _ (h.returned j hj)

theorem Inv.die {s t : Sender ι} (hbuf : ∀ k, 4 ≤ (buf k).length) (h : Inv buf s)
    (hdead : t.dead = true) (hcalls : t.calls = s.calls) (hwire : t.wire = s.wire) : Inv buf t := by
  obtain ⟨done, hlog, hphase⟩ := h
  rw [← hcalls] at hlog
  cases hphase with
  | free _ hw hs hpc =>
    exact ⟨done, hlog, .dead [] hdead (by rw [hwire, hs, List.append_nil]) (.inl rfl)⟩
  | dead part _ hs hcut => exact ⟨done, hlog, .dead part hdead (hwire.trans hs) hcut⟩
  | busy k n _ hk hn hw hs hpc honly =>
    have hlen := length_sized (hbuf k)
    rcases hn.lt_or_eq with hlt | rfl
    · refine ⟨done, hlog, .dead _ hdead (hwire.trans hs) (.inr ⟨k, hk, List.take_prefix .., ?_⟩)⟩
      rw [List.length_take]
      omega
    · have hout : ¬ (t.calls k).Outside := by
        rw [hcalls, hpc]
        rintro (h | h) <;> cases h
      refine ⟨done ++ [k], hlog.concat hk hout, .dead [] hdead ?_ (.inl rfl)⟩
      rw [hwire, hs, List.take_of_length_le hlen.le, pdus_concat, List.append_nil]

theorem Inv.wholePdus {s : Sender ι} (hbuf : ∀ k, 4 ≤ (buf k).length) (h : Inv buf s) :
    WholePdus buf s := by
  obtain ⟨done, hlog, hphase⟩ := h.die (t := { s with dead := true }) hbuf rfl rfl rfl
  cases hphase with
  | free hdead _ _ _ => cases hdead
  | busy k n hdead _ _ _ _ _ _ => cases hdead
  | dead part _ hwire hcut => exact ⟨done, part, hwire, hlog.nodup, hcut, hlog.returned⟩

theorem Inv.writeCb {s t : Sender ι} {w : WriteResult} (hbuf : ∀ k, 4 ≤ (buf k).length)
    (h : Inv buf s) (ht : s.writeCb w = some t) : Inv buf t := by
  obtain ⟨done, hlog, hphase⟩ := id h
  rw [Sender.writeCb] at ht
  cases hphase with
  | dead part hdead hwire hcut =>
    rw [if_pos hdead] at ht
    cases ht
  | free hdead hw hwire hpc =>
    rw [if_neg (by simp [hdead]), if_pos (by simp [hw, Wpdu.empty])] at ht
    cases ht
    exact h
  | busy k n hdead hk hn hw hwire hpc honly =>
    have hpos := hbuf k
    have hsz : s.wpdu.sz ≠ 0 := by
      rw [hw]
      dsimp only
      omega
    rw [if_neg (by simp [hdead]), if_neg hsz] at ht
    obtain ⟨⟨succ, u⟩, hu, ht⟩ := Option.bind_eq_some_iff.mp ht
    dsimp only at ht
    rcases hn.lt_or_eq with hlt | rfl
    · rcases writepdu_cases hw (.inl rfl) hlt hu with ⟨rfl, m, hm, rfl⟩ | ⟨rfl, rfl⟩
      · rw [if_neg (by decide), if_neg (by dsimp only; omega)] at ht
        cases ht
        refine ⟨done, hlog, .busy k (n + m) hdead hk hm rfl ?_ hpc honly⟩
        change s.wire ++ _ = _
        rw [hwire, List.append_assoc, List.take_add]
      · rw [if_pos rfl] at ht
        cases ht
        exact h.die hbuf rfl rfl rfl
    · have hsame : s.writepdu w = some (true, s) := by
        rw [writepdu, hw]
        dsimp only
        rw [if_neg (by omega), if_pos rfl]
      rw [hsame] at hu
      cases hu
      rw [if_neg (by decide), if_neg (by rw [hw]; dsimp only; omega)] at ht
      cases ht
      exact h

variable [DecidableEq ι]

theorem inv_init : Inv buf (sender buf).init := by
  refine ⟨[], ⟨List.nodup_nil, by simp, fun k h => by cases h⟩, .free rfl rfl rfl fun j h => ?_⟩
  rcases h with h | h <;> cases h

theorem Log.update {calls : ι → SendPc} {done : List ι} (h : Log calls done) {k : ι} {pc : SendPc}
    (hout : pc.Outside → k ∉ done) (hret : pc = .returned true → k ∈ done) :
    Log (Function.update calls k pc) done where
  nodup := h.nodup
  entered j hj := by
    by_cases he : j = k
    · subst he
      rw [Function.update_self]
      exact fun ho => hout ho hj
    · rw [Function.update_of_ne he]
      exact h.entered j hj
  returned j hj := by
    by_cases he : j = k
    · subst he
      rw [Function.update_self] at hj
      exact hret hj
    · rw [Function.update_of_ne he] at hj
      exact h.returned j hj

theorem holds_of_update {calls : ι → SendPc} {j k : ι} {pc : SendPc}
    (h : (Function.update calls k pc j).Holds) (hpc : ¬ pc.Holds) : j ≠ k ∧ (calls j).Holds := by
  have hne : j ≠ k := by
    rintro rfl
    rw [Function.update_self] at h
    exact hpc h
  rw [Function.update_of_ne hne] at h
  exact ⟨hne, h⟩

/-- The owner of the slot leaves `send` once its PDU is complete or the connection is dead. -/
theorem Inv.finish {s : Sender ι} {k : ι} (hbuf : ∀ k, 4 ≤ (buf k).length) (h : Inv buf s)
    (hk : (s.calls k).Holds)
    (hfull : s.dead = false → ¬ (0 ≤ s.wpdu.solong ∧ s.wpdu.solong < s.wpdu.sz)) :
    Inv buf (s.finish k) := by
  obtain ⟨done, hlog, hphase⟩ := h
  cases hphase with
  | free hdead hw hwire hpc => exact absurd hk (hpc k)
  | dead part hdead hwire hcut =>
    refine ⟨done, hlog.update ?_ ?_, .dead part hdead hwire hcut⟩
    · rintro (h | h) <;> cases h
    · simp [hdead]
  | busy j n hdead hj hn hw hwire hpc honly =>
    obtain rfl := honly k hk
    have hfull := hfull hdead
    rw [hw] at hfull
    dsimp only at hfull
    obtain rfl : n = (buf k).length := by omega
    have hout : ¬ (s.calls k).Outside := by
      rw [hpc]
      rintro (h | h) <;> cases h
    refine ⟨done ++ [k], (hlog.concat hj hout).update ?_ (by simp), .free hdead rfl ?_ ?_⟩
    · rintro (h | h) <;> cases h
    · change s.wire = _
      rw [hwire, List.take_of_length_le (length_sized (hbuf k)).le, pdus_concat]
    · intro j hj
      obtain ⟨hne, hj⟩ := holds_of_update hj (by rintro (h | h) <;> cases h)
      exact hne (honly j hj)

/-- With its first bytes written a call holds the slot. -/
theorem Inv.take {s : Sender ι} {done : List ι} {k : ι} {m : ℕ} (hlog : Log s.calls done)
    (hdead : s.dead = false) (hwire : s.wire = pdus buf done) (hpc : ∀ j, ¬ (s.calls j).Holds)
    (hk : k ∉ done) (hm : m ≤ (buf k).length) :
    Inv buf (setCall ⟨s.dead, ⟨some (sized (buf k)), (buf k).length, m⟩, s.calls,
      s.wire ++ (sized (buf k)).take m⟩ k .waitComplete) := by
  refine ⟨done, hlog.update ?_ (by simp), .busy k m hdead hk hm rfl ?_ ?_ ?_⟩
  · rintro (h | h) <;> cases h
  · exact congrArg (· ++ _) hwire
  · exact Function.update_self ..
  · intro j hj
    by_contra hne
    change (Function.update s.calls k _ j).Holds at hj
    rw [Function.update_of_ne hne] at hj
    exact hpc j hj

theorem Inv.enter {s t : Sender ι} {k : ι} {w : WriteResult} (hbuf : ∀ k, 4 ≤ (buf k).length)
    (h : Inv buf s) (hk : (s.calls k).Outside) (ht : s.enter buf k w = some t) : Inv buf t := by
  obtain ⟨done, hlog, hphase⟩ := h
  have hkd : k ∉ done := fun hd => hlog.entered k hd hk
  rw [Sender.enter] at ht
  cases hphase with
  | dead part hdead hwire hcut =>
    rw [if_pos hdead] at ht
    cases ht
    exact ⟨done, hlog.update (fun _ => hkd) (by simp), .dead part hdead hwire hcut⟩
  | busy j n hdead hj hn hw hwire hpc honly =>
    rw [if_neg (by simp [hdead]), if_pos (by simp [hw])] at ht
    cases ht
    have hne : j ≠ k := by
      rintro rfl
      rw [hpc] at hk
      rcases hk with h | h <;> cases h
    refine ⟨done, hlog.update (fun _ => hkd) (by simp), .busy j n hdead hj hn hw hwire ?_ ?_⟩
    · exact (Function.update_of_ne hne ..).trans hpc
    · intro i hi
      exact honly i (holds_of_update hi (by rintro (h | h) <;> cases h)).2
  | free hdead hw hwire hpc =>
    rw [if_neg (by simp [hdead]), if_neg (by simp [hw, Wpdu.empty])] at ht
    obtain ⟨⟨succ, u⟩, hu, ht⟩ := Option.bind_eq_some_iff.mp ht
    dsimp only at ht
    have hpos : 0 < (buf k).length := lt_of_lt_of_le (by decide) (hbuf k)
    rcases writepdu_cases (b := buf k) (n := 0) rfl (.inr ⟨rfl, rfl⟩) hpos hu with
      ⟨rfl, m, hm, rfl⟩ | ⟨rfl, rfl⟩
    · rw [zero_add] at hm
      simp only [zero_add, List.drop_zero] at ht
      have hbusy := Inv.take hlog hdead hwire hpc hkd hm
      -- the call leaves the slot at once if that was all
      rw [if_neg (by decide)] at ht
      split_ifs at ht with hfull
      · cases ht
        have hfinish := hbusy.finish (k := k) hbuf (.inl (Function.update_self ..)) (by
          intro _ hlt
          exact absurd hfull hlt.2.ne)
        simpa [Sender.finish, setCall] using hfinish
      · cases ht
        exact hbusy
    · rw [if_pos rfl] at ht
      cases ht
      refine ⟨done, hlog.update ?_ (by simp), .dead [] rfl ?_ (.inl rfl)⟩
      · rintro (h | h) <;> cases h
      · change s.wire = _
        rw [hwire, List.append_nil]

theorem Inv.step {s t : Sender ι} {e : SendEvent ι} (hbuf : ∀ k, 4 ≤ (buf k).length)
    (h : Inv buf s) (ht : s.step buf e = some t) : Inv buf t := by
  cases e with
  | send k w =>
    rw [Sender.step] at ht
    split_ifs at ht with hk
    exact h.enter hbuf (.inl hk) ht
  | slotWake k w =>
    rw [Sender.step] at ht
    split_ifs at ht with hk
    exact h.enter hbuf (.inr hk) ht
  | completeWake k =>
    rw [Sender.step] at ht
    split_ifs at ht with hk hmore <;> cases ht
    · exact h
    · refine h.finish hbuf (.inl hk) fun hdead hlt => hmore ?_
      simp [hdead, hlt.1, hlt.2]
  | removed k =>
    rw [Sender.step] at ht
    split_ifs at ht with hk
    cases ht
    refine h.finish hbuf (.inr hk) fun hdead => ?_
    obtain ⟨done, -, hphase⟩ := h
    cases hphase with
    | free _ _ _ hpc => exact absurd (.inr hk) (hpc k)
    | dead _ hdead' _ _ => simp [hdead] at hdead'
    | busy j n _ _ _ _ _ hpc honly =>
      rw [← honly k (.inr hk), hk] at hpc
      cases hpc
  | writeCb w => exact h.writeCb hbuf ht
  | readFail =>
    cases ht
    exact h.die hbuf rfl rfl rfl
  | closeconn =>
    cases ht
    exact h.die hbuf rfl rfl rfl

theorem silent (s : Sender ι) (e : SendEvent ι) : Silent buf s e := by
  intro hdead t ht
  have henter {k : ι} {w : WriteResult} (h : s.enter buf k w = some t) : t.wire = s.wire := by
    rw [Sender.enter, if_pos hdead] at h
    cases h
    rfl
  cases e with
  | send k w =>
    rw [Sender.step] at ht
    split_ifs at ht
    exact henter ht
  | slotWake k w =>
    rw [Sender.step] at ht
    split_ifs at ht
    exact henter ht
  | completeWake k =>
    rw [Sender.step] at ht
    split_ifs at ht <;> cases ht <;> rfl
  | removed k =>
    rw [Sender.step] at ht
    split_ifs at ht
    cases ht
    rfl
  | writeCb w =>
    rw [Sender.step, Sender.writeCb, if_pos hdead] at ht
    cases ht
  | readFail =>
    cases ht
    rfl
  | closeconn =>
    cases ht
    rfl

end Sender

/-- In every state of every run, whatever the threads, the poll thread and `write` do, the socket
has got whole PDUs, each with its size in front, and at most a part of one more, which is never
continued once the connection is dead. -/
theorem whole_pdus_sent {ι : Type*} [DecidableEq ι] {buf : ι → Bytes}
    (hbuf : ∀ k, 4 ≤ (buf k).length ∧ (buf k).length < 2 ^ 31)
    (es : List (SendEvent ι)) :
    (sender buf).Throughout (Sender.WholePdus buf) (sender buf).init es ∧
    (sender buf).Along (Sender.Silent buf) (sender buf).init es ∧
    ∀ k, Reader.sizeOf ((sized (buf k)).take 4) = (buf k).length ∧
      (sized (buf k)).length = (buf k).length ∧ (sized (buf k)).drop 4 = (buf k).drop 4 := by
  have hfour (k : ι) : 4 ≤ (buf k).length := (hbuf k).1
  refine ⟨?_, ?_, fun k => ⟨sizeOf_sized (hbuf k).2, length_sized (hfour k), drop_sized (buf k)⟩⟩
  · exact Machine.throughout_of_invariant (I := Sender.Inv buf) (fun s hs => hs.wholePdus hfour)
      (fun s e t hs ht => hs.step hfour ht) Sender.inv_init es
  · exact Machine.along_of_all Sender.silent _ es

def twoBufs (k : Bool) : Bytes := List.replicate 24 (if k then 1 else 0)

def twoSends : List (SendEvent Bool) :=
  [.send false (.wrote 10), .send true .again, .writeCb .again, .writeCb (.wrote 14),
    .completeWake false, .slotWake true (.wrote 24)]

theorem whole_pdus_sent_two :
    (∀ k, 4 ≤ (twoBufs k).length ∧ (twoBufs k).length < 2 ^ 31) ∧
    (sender twoBufs).Throughout (Sender.WholePdus twoBufs) (sender twoBufs).init twoSends ∧
    (sender twoBufs).Along (Sender.Silent twoBufs) (sender twoBufs).init twoSends := by
  have hbuf : ∀ k, 4 ≤ (twoBufs k).length ∧ (twoBufs k).length < 2 ^ 31 := by decide
  exact ⟨hbuf, (whole_pdus_sent hbuf twoSends).1, (whole_pdus_sent hbuf twoSends).2.1⟩

example : ((sender twoBufs).run twoSends).map Sender.wire =
    some (sized (twoBufs false) ++ sized (twoBufs true)) := by
  decide +kernel

end YFS.Rpc
