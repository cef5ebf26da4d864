import YFS.Rpc.Receive

/-! # A peer that closes

`read()` returns zero once the peer has closed the connection, and leaves `errno` as earlier
calls have left it. The first `read` of `readpdu` takes zero as the end; the second one
treats zero and -1 alike and looks at `errno`.
-/

namespace YFS.Rpc
open YFS.Library

def EAGAIN : ℕ := 11

/-- What `read_cb` calls: `del_callback(fd_, CB_RDWR)`, a signal to `send_complete_`, and
`got_pdu`. -/
inductive ReadAct where
  | delCallback
  | signalComplete
  | gotPdu
  deriving DecidableEq, Repr

namespace Receiver

def offerTraced (c : Receiver) (accept : Bool) (acts : List ReadAct) :
    Receiver × List ReadAct :=
  if c.rpdu.buf.isSome ∧ c.rpdu.sz = c.rpdu.solong then
    (if accept then { c with rpdu := .empty } else c, acts ++ [.gotPdu])
  else (c, acts)

/-- `connection::read_cb` with the calls it makes. -/
def readCbTraced (c : Receiver) (e : Recv) : Option (Receiver × List ReadAct) :=
  if c.dead then some (c, [])
  else if c.reads then
    match c.rpdu.header e with
    | .aborts => none
    | .fails => some ({ c with dead := true }.offerTraced e.accept [.delCallback, .signalComplete])
    | .reads p => (p.readRest e.rest).map fun (succ, p) =>
        (⟨p, !succ⟩ : Receiver).offerTraced e.accept
          (if succ then [] else [.delCallback, .signalComplete])
  else some (c.offerTraced e.accept [])

/-- It receives: between two PDUs, or with a part of one. -/
def Receiving (c : Receiver) : Prop :=
  c.dead = false ∧
    (c.rpdu = .empty ∨ c.rpdu.buf.isSome = true ∧ 4 ≤ c.rpdu.solong ∧ c.rpdu.solong < c.rpdu.sz)

/-- A `read` of this call returns zero because the peer has closed: the one for the size, or the one
for the rest while some of it is missing. -/
inductive SeesClose (c : Receiver) (errno : ℕ) (e : Recv) : Prop where
  | atSize (hempty : c.rpdu = .empty) (hsize : e.size = .zero)
  | atRest (p : Rpdu) (hreads : c.rpdu.header e = .reads p) (hmissing : p.solong < p.sz)
      (hrest : e.rest = .zero (decide (errno = EAGAIN)))

/-- The connection is dead, its callbacks are removed, and the part of a PDU is gone without having
been handed on. -/
def Notices (c : Receiver) (e : Recv) : Prop :=
  ∃ t acts, c.readCbTraced e = some (t, acts) ∧ t.dead = true ∧ t.rpdu = .empty ∧
    .delCallback ∈ acts ∧ .gotPdu ∉ acts

theorem offerTraced_fst (c : Receiver) (accept : Bool) (acts : List ReadAct) :
    (c.offerTraced accept acts).1 = c.offer accept := by
  unfold offerTraced offer
  by_cases hwhole : c.rpdu.buf.isSome = true ∧ c.rpdu.sz = c.rpdu.solong
  · rw [if_pos hwhole]
    cases accept
    · exact (if_neg fun h => Bool.false_ne_true h.2.2).symm
    · exact (if_pos ⟨hwhole.1, hwhole.2, rfl⟩).symm
  · rw [if_neg hwhole, if_neg fun h => hwhole ⟨h.1, h.2.1⟩]

/-- The calls are those of the `read_cb` whose states are known. -/
theorem readCbTraced_fst (c : Receiver) (e : Recv) :
    (c.readCbTraced e).map Prod.fst = c.readCb e := by
  unfold readCbTraced readCb
  split_ifs
  · rfl
  · cases c.rpdu.header e with
    | fails => exact congrArg some (offerTraced_fst ..)
    | aborts => rfl
    | reads p =>
      simp only [Option.map_map]
      congr 1
      funext r
      exact offerTraced_fst ..
  · exact congrArg some (offerTraced_fst ..)

theorem Receiving.reads {c : Receiver} (h : c.Receiving) : c.reads = true := by
  obtain ⟨hdead, hempty | ⟨-, -, hlt⟩⟩ := h
  · simp [Receiver.reads, hdead, hempty, Rpdu.empty]
  · simp [Receiver.reads, hdead, hlt]

theorem offerTraced_empty (dead accept : Bool) (acts : List ReadAct) :
    offerTraced ⟨.empty, dead⟩ accept acts = (⟨.empty, dead⟩, acts) := rfl

theorem notices_at_size {c : Receiver} {e : Recv} (hc : c.Receiving) (hempty : c.rpdu = .empty)
    (hsize : e.size = .zero) : c.Notices e := by
  have hheader : c.rpdu.header e = .fails := by simp [hempty, Rpdu.header, Rpdu.empty, hsize]
  refine ⟨⟨.empty, true⟩, [.delCallback, .signalComplete], ?_, rfl, rfl, by simp, by simp⟩
  simp only [readCbTraced, hc.1, hc.reads, hheader, Bool.false_eq_true, if_false, if_true]
  rw [hempty, offerTraced_empty]

/-- At the rest the end is taken for one just when `errno` is not `EAGAIN`. -/
theorem notices_at_rest {c : Receiver} {e : Recv} {p : Rpdu} {errno : ℕ} (hc : c.Receiving)
    (hreads : c.rpdu.header e = .reads p) (hmissing : p.solong < p.sz)
    (hrest : e.rest = .zero (decide (errno = EAGAIN))) : c.Notices e ↔ errno ≠ EAGAIN := by
  have htraced : c.readCbTraced e = (p.readRest e.rest).map fun r =>
      (⟨r.2, !r.1⟩ : Receiver).offerTraced e.accept
        (if r.1 then [] else [.delCallback, .signalComplete]) := by
    simp only [readCbTraced, hc.1, hc.reads, hreads, Bool.false_eq_true, if_false, if_true]
  by_cases herr : errno = EAGAIN
  · have hrest' : p.readRest e.rest = some (true, p) := by simp [Rpdu.readRest, hrest, herr]
    have hkept : c.readCbTraced e = some (⟨p, false⟩, []) := by
      rw [htraced, hrest']
      simp [offerTraced, hmissing.ne']
    refine ⟨fun h => ?_, fun h => absurd herr h⟩
    obtain ⟨t, acts, ht, hdead, -⟩ := h
    rw [hkept] at ht
    cases ht
    cases hdead
  · have hrest' : p.readRest e.rest = some (false, .empty) := by simp [Rpdu.readRest, hrest, herr]
    refine ⟨fun _ => herr, fun _ => ?_⟩
    refine ⟨⟨.empty, true⟩, [.delCallback, .signalComplete], ?_, rfl, rfl, by simp, by simp⟩
    rw [htraced, hrest']
    rfl

end Receiver

/-- A peer that has closed is noticed by the `read_cb` that sees it, except where it is the rest
of a PDU that cannot be read and `errno` happens to be `EAGAIN`. -/
theorem close_noticed_iff {c : Receiver} {errno : ℕ} {e : Recv} (hc : c.Receiving)
    (he : c.SeesClose errno e) :
    c.Notices e ↔ (c.rpdu = .empty ∧ e.size = .zero) ∨ errno ≠ EAGAIN := by
  cases he with
  | atSize hempty hsize =>
    exact ⟨fun _ => .inl ⟨hempty, hsize⟩, fun _ => Receiver.notices_at_size hc hempty hsize⟩
  | atRest p hreads hmissing hrest =>
    rw [Receiver.notices_at_rest hc hreads hmissing hrest]
    refine ⟨.inr, fun h => h.resolve_left ?_⟩
    rintro ⟨hempty, hsize⟩
    simp [hempty, Rpdu.header, Rpdu.empty, hsize] at hreads

/-- Ten bytes of a hundred have come, and `errno` is that of a refused connection. -/
theorem close_noticed_refused :
    (⟨⟨some 104, 100, 10⟩, false⟩ : Receiver).Receiving ∧
    (⟨⟨some 104, 100, 10⟩, false⟩ : Receiver).SeesClose 111 ⟨.zero, true, .zero false, true⟩ ∧
    ((⟨⟨some 104, 100, 10⟩, false⟩ : Receiver).Notices ⟨.zero, true, .zero false, true⟩ ↔
      ((⟨some 104, 100, 10⟩ : Rpdu) = .empty ∧ SizeRead.zero = .zero) ∨ 111 ≠ EAGAIN) := by
  have hc : (⟨⟨some 104, 100, 10⟩, false⟩ : Receiver).Receiving := ⟨rfl, .inr (by decide)⟩
  have he : (⟨⟨some 104, 100, 10⟩, false⟩ : Receiver).SeesClose 111
      ⟨.zero, true, .zero false, true⟩ := .atRest _ rfl (by decide) rfl
  exact ⟨hc, he, close_noticed_iff hc he⟩

/-- The same with the `EAGAIN` of an earlier call: the connection lives on with its ten bytes. -/
theorem close_overlooked :
    (⟨⟨some 104, 100, 10⟩, false⟩ : Receiver).Receiving ∧
    (⟨⟨some 104, 100, 10⟩, false⟩ : Receiver).SeesClose EAGAIN ⟨.zero, true, .zero true, true⟩ ∧
    (⟨⟨some 104, 100, 10⟩, false⟩ : Receiver).readCbTraced ⟨.zero, true, .zero true, true⟩ =
      some (⟨⟨some 104, 100, 10⟩, false⟩, []) ∧
    ¬ (⟨⟨some 104, 100, 10⟩, false⟩ : Receiver).Notices ⟨.zero, true, .zero true, true⟩ := by
  refine ⟨⟨rfl, .inr (by decide)⟩, .atRest _ rfl (by decide) rfl, rfl, ?_⟩
  rintro ⟨t, acts, ht, hdead, -⟩
  cases ht
  cases hdead

end YFS.Rpc
