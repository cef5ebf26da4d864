import YFS.Library.PrefixCode
import YFS.Rpc.Send

/-! # A connection from end to end

The sending side of a connection at one host and the reading side at the other, with the bytes
that are under way between them. Both sides take their steps in any order; `write` and `read`
cut the stream as they like and may fail at any time. PDUs start with their size, so none of
them begins with another one: the reader can only cut the stream as the sender has put it
together.
-/

namespace YFS.Rpc
open YFS.Library

def selfSized : Set Bytes := {p | 4 ≤ p.length ∧ Reader.sizeOf (p.take 4) = p.length}

theorem prefixCode_selfSized : PrefixCode selfSized := by
  rintro p ⟨hp, hpsz⟩ q ⟨hq, hqsz⟩ hpre
  apply hpre.eq_of_length
  obtain ⟨r, rfl⟩ := hpre
  rw [List.take_append_of_le_length hp, hpsz] at hqsz
  exact_mod_cast hqsz

theorem sized_mem_selfSized {buf : Bytes} (hmin : 4 ≤ buf.length) (hmax : buf.length < 2 ^ 31) :
    sized buf ∈ selfSized := by
  constructor
  · rwa [length_sized hmin]
  · rw [sizeOf_sized hmax, length_sized hmin]

/-! ## The reading side -/

namespace Reader
variable {c d : Reader} {wire : Bytes}

def buffered (c : Reader) : Bytes := c.rpdu.elim [] PartialPdu.buf

/-- What the reader has made of the bytes on the wire. -/
structure Parses (wire : Bytes) (c : Reader) : Prop where
  selfSized : ∀ o ∈ c.offers, o.1 ∈ selfSized
  offered : ∀ pre o post, c.offers = pre ++ o :: post → (accepted pre).flatten ++ o.1 <+: wire
  taken : (accepted c.offers).flatten <+: wire
  size : ∀ p, c.rpdu = some p →
    4 ≤ p.buf.length ∧ p.buf.length ≤ p.sz ∧ sizeOf (p.buf.take 4) = p.sz
  closed : c.dead = true → c.rpdu = none
  whole : c.dead = false → (accepted c.offers).flatten ++ (c.buffered ++ c.stream) = wire

theorem parses_init : Parses [] (reader []).init where
  selfSized _ ho := by cases ho
  offered _ _ _ h := by simp [reader] at h
  taken := List.nil_prefix
  size _ hp := by cases hp
  closed hdead := by cases hdead
  whole _ := rfl

theorem Parses.arrive (h : Parses wire c) (bytes : Bytes) :
    Parses (wire ++ bytes) { c with stream := c.stream ++ bytes } where
  selfSized := h.selfSized
  offered pre o post heq := (h.offered pre o post heq).trans (List.prefix_append ..)
  taken := h.taken.trans (List.prefix_append ..)
  size := h.size
  closed := h.closed
  whole halive := by
    rw [← h.whole halive]
    simp [buffered]

theorem Parses.giveUp (h : Parses wire c) (hoffers : d.offers = c.offers) (hdead : d.dead = true)
    (hrpdu : d.rpdu = none) : Parses wire d where
  selfSized := by
    rw [hoffers]
    exact h.selfSized
  offered := by
    rw [hoffers]
    exact h.offered
  taken := by
    rw [hoffers]
    exact h.taken
  size p hp := by
    rw [hrpdu] at hp
    cases hp
  closed _ := hrpdu
  whole halive := by
    rw [hdead] at halive
    cases halive

theorem Parses.readRest (h : Parses wire c) (halive : c.dead = false) {p : PartialPdu}
    (hp : c.rpdu = some p) {r : ReadResult} {succ : Bool} (hr : c.readRest p r = some (succ, d)) :
    Parses wire { d with dead := !succ } := by
  have hfail {eagain : Bool} (hr : (if eagain then some (true, c)
      else some (false, { c with rpdu := none })) = some (succ, d)) :
      Parses wire { d with dead := !succ } := by
    split at hr
    · cases hr
      simpa only [Bool.not_true, ← halive] using h
    · cases hr
      exact h.giveUp rfl rfl rfl
  cases r with
  | zero eagain => exact hfail hr
  | fail eagain => exact hfail hr
  | got n =>
    simp only [Reader.readRest] at hr
    split at hr
    · rename_i hn
      cases hr
      have hn : 1 ≤ n ∧ n ≤ p.sz - p.buf.length ∧ n ≤ c.stream.length := of_decide_eq_true hn
      obtain ⟨hmin, hmax, hsz⟩ := h.size p hp
      refine ⟨h.selfSized, h.offered, h.taken, ?_, fun hdead => (by cases hdead), fun _ => ?_⟩
      · rintro _ ⟨⟩
        refine ⟨?_, ?_, ?_⟩
        · simp only [List.length_append]
          omega
        · simp only [List.length_append, List.length_take]
          omega
        · rw [List.take_append_of_le_length hmin]
          exact hsz
      · rw [← h.whole halive]
        simp [buffered, hp]
    · cases hr

/-- `readpdu` moves bytes from the stream to the buffer, or fails. -/
theorem Parses.readpdu (h : Parses wire c) (halive : c.dead = false) {size rest : ReadResult}
    {succ : Bool} (hr : c.readpdu size rest = some (succ, d)) :
    Parses wire { d with dead := !succ } := by
  cases hp : c.rpdu with
  | some p =>
    simp only [Reader.readpdu, hp] at hr
    exact h.readRest halive hp hr
  | none =>
    simp only [Reader.readpdu, hp] at hr
    cases size with
    | zero eagain =>
      cases hr
      exact h.giveUp rfl rfl hp
    | fail eagain =>
      dsimp only at hr
      split at hr
      · cases hr
      · cases hr
        exact h.giveUp rfl rfl hp
    | got n =>
      dsimp only at hr
      split at hr
      · rename_i hret
        have hn : 1 ≤ n ∧ n ≤ 4 ∧ n ≤ c.stream.length := of_decide_eq_true hret
        split at hr
        · cases hr
          exact h.giveUp rfl rfl rfl
        · rename_i hfour
          rw [not_not] at hfour
          subst hfour
          split at hr
          · cases hr
            exact h.giveUp rfl rfl rfl
          · split at hr
            · cases hr
            · rename_i hmin
              have hlen : (c.stream.take 4).length = 4 := by
                rw [List.length_take]
                omega
              refine readRest (c := ⟨some ⟨(sizeOf (c.stream.take 4)).toNat, c.stream.take 4⟩, c.dead,
                c.stream.drop 4, c.offers⟩) ?_ halive rfl hr
              refine ⟨h.selfSized, h.offered, h.taken, ?_, ?_, fun _ => ?_⟩
              · rintro _ ⟨⟩
                refine ⟨hlen.ge, ?_, ?_⟩
                · dsimp only
                  omega
                · dsimp only
                  rw [List.take_take, min_self]
                  omega
              · intro hdead
                rw [halive] at hdead
                cases hdead
              · rw [← h.whole halive]
                simp [buffered, hp]
      · cases hr

theorem Parses.offer (h : Parses wire c) (accept : Bool) : Parses wire (c.offer accept) := by
  rw [Reader.offer]
  cases hp : c.rpdu with
  | none => exact h
  | some p =>
    dsimp only
    split
    · rename_i hfull
      have halive : c.dead = false := by
        by_contra hdead
        rw [h.closed (Bool.not_eq_false _ ▸ hdead)] at hp
        cases hp
      obtain ⟨hmin, -, hsz⟩ := h.size p hp
      have hwhole : (accepted c.offers).flatten ++ (p.buf ++ c.stream) = wire := by
        rw [← h.whole halive, buffered, hp, Option.elim_some]
      have hpre : (accepted c.offers).flatten ++ p.buf <+: wire := by
        rw [← hwhole, ← List.append_assoc]
        exact List.prefix_append ..
      refine ⟨?_, ?_, ?_, ?_, ?_, fun _ => ?_⟩
      · intro o ho
        rcases List.mem_append.mp ho with ho | ho
        · exact h.selfSized o ho
        · rw [List.mem_singleton.mp ho]
          exact ⟨hmin, by rw [hsz, hfull]⟩
      · intro pre o post heq
        rcases List.eq_nil_or_concat post with rfl | ⟨post', last, rfl⟩
        · obtain ⟨rfl, hlast⟩ := List.append_inj' heq rfl
          cases hlast
          exact hpre
        · rw [List.concat_eq_append, ← List.cons_append, ← List.append_assoc] at heq
          exact h.offered pre o post' (List.append_inj' heq rfl).1
      · cases accept
        · simpa [accepted_append, accepted] using h.taken
        · simpa [accepted_append, accepted] using hpre
      · intro p' hp'
        cases accept
        · cases hp'
          exact h.size p hp
        · cases hp'
      · intro hdead
        rw [halive] at hdead
        cases hdead
      · cases accept
        · simpa [accepted_append, accepted, buffered] using hwhole
        · simpa [accepted_append, accepted, buffered] using hwhole
    · exact h

theorem Parses.readCb (h : Parses wire c) {e : ReadCb} (hr : c.readCb e = some d) :
    Parses wire d := by
  rw [Reader.readCb] at hr
  split at hr
  · cases hr
    exact h
  · rename_i halive
    split at hr
    · obtain ⟨⟨succ, d'⟩, hread, hr⟩ := Option.bind_eq_some_iff.mp hr
      cases hr
      exact (h.readpdu (Bool.not_eq_true _ ▸ halive) hread).offer e.accept
    · cases hr
      exact h.offer e.accept

end Reader

/-! ## The sending side -/

namespace Sender
variable {ι : Type*} [DecidableEq ι] {buf : ι → Bytes} {s t : Sender ι}

omit [DecidableEq ι] in
theorem wire_writepdu {w : WriteResult} {succ : Bool} (h : s.writepdu w = some (succ, t)) :
    s.wire <+: t.wire := by
  rw [writepdu] at h
  split at h
  · cases h
  · split at h
    · cases h
    · split at h
      · cases h
        exact List.prefix_rfl
      · cases w with
        | wrote n =>
          dsimp only at h
          split at h
          · cases h
            exact List.prefix_append ..
          · cases h
        | again =>
          cases h
          exact List.prefix_rfl
        | error =>
          cases h
          exact List.prefix_rfl

theorem wire_enter {k : ι} {w : WriteResult} (h : s.enter buf k w = some t) :
    s.wire <+: t.wire := by
  rw [enter] at h
  split at h
  · cases h
    exact List.prefix_rfl
  · split at h
    · cases h
      exact List.prefix_rfl
    · obtain ⟨⟨succ, u⟩, hu, h⟩ := Option.bind_eq_some_iff.mp h
      have hpre := wire_writepdu hu
      dsimp only at h hpre
      split at h
      · cases h
        exact hpre
      · split at h
        · cases h
          exact hpre
        · cases h
          exact hpre

omit [DecidableEq ι] in
theorem wire_writeCb {w : WriteResult} (h : s.writeCb w = some t) : s.wire <+: t.wire := by
  rw [writeCb] at h
  split at h
  · cases h
  · split at h
    · cases h
      exact List.prefix_rfl
    · obtain ⟨⟨succ, u⟩, hu, h⟩ := Option.bind_eq_some_iff.mp h
      have hpre : s.wire <+: u.wire := wire_writepdu hu
      dsimp only at h
      split at h
      · cases h
        exact hpre
      · split at h
        · cases h
        · cases h
          exact hpre

theorem wire_step {e : SendEvent ι} (h : s.step buf e = some t) : s.wire <+: t.wire := by
  cases e with
  | send k w =>
    rw [step] at h
    split at h
    · exact wire_enter h
    · cases h
  | slotWake k w =>
    rw [step] at h
    split at h
    · exact wire_enter h
    · cases h
  | completeWake k =>
    rw [step] at h
    split_ifs at h <;> cases h <;> exact List.prefix_rfl
  | removed k =>
    rw [step] at h
    split at h
    · cases h
      exact List.prefix_rfl
    · cases h
  | writeCb w => exact wire_writeCb h
  | readFail =>
    cases h
    exact List.prefix_rfl
  | closeconn =>
    cases h
    exact List.prefix_rfl

end Sender

/-! ## Both sides -/

structure Link (ι : Type*) where
  sender : Sender ι
  reader : Reader

inductive LinkEvent (ι : Type*) where
  | send (e : SendEvent ι)
  | read (e : ReadCb)

variable {ι : Type*} [DecidableEq ι] (buf : ι → Bytes)

namespace Link

def step (s : Link ι) : LinkEvent ι → Option (Link ι)
  | .send e => (s.sender.step buf e).map fun t =>
      ⟨t, { s.reader with stream := s.reader.stream ++ t.wire.drop s.sender.wire.length }⟩
  | .read e => (s.reader.readCb e).map fun r => { s with reader := r }

/-- The calls in `done` have their PDUs on the wire, with a part of one more behind them. They are
offered to the other side in this order and each one again until it is accepted; as long as the
other side has not given up, what it has not accepted is still there to be read. -/
structure Delivers (s : Link ι) (done : List ι) (part : Bytes) : Prop where
  nodup : done.Nodup
  returned : ∀ k, s.sender.calls k = .returned true → k ∈ done
  cut : Sender.Cut buf done part
  inOrder : InOrder (done.map fun k => sized (buf k)) s.reader.offers
  accepted : accepted s.reader.offers <+: done.map fun k => sized (buf k)
  unread : s.reader.dead = false → ∃ rest,
    (done.map fun k => sized (buf k)) = Rpc.accepted s.reader.offers ++ rest ∧
      s.reader.buffered ++ s.reader.stream = rest.flatten ++ part

end Link

def link : Machine (Link ι) (LinkEvent ι) where
  init := ⟨(sender buf).init, (reader []).init⟩
  step := Link.step buf

namespace Link
variable {buf} {s s' : Link ι}

/-- The two sides agree on the bytes. -/
structure Agrees (buf : ι → Bytes) (s : Link ι) : Prop where
  inv : Sender.Inv buf s.sender
  parses : s.reader.Parses s.sender.wire

theorem agrees_init : Agrees buf (link buf).init := ⟨Sender.inv_init, Reader.parses_init⟩

theorem Agrees.step (hbuf : ∀ k, 4 ≤ (buf k).length) (h : Agrees buf s) {e : LinkEvent ι}
    (hs : s.step buf e = some s') : Agrees buf s' := by
  cases e with
  | send e =>
    obtain ⟨t, ht, rfl⟩ := Option.map_eq_some_iff.mp hs
    refine ⟨h.inv.step hbuf ht, ?_⟩
    obtain ⟨bytes, hbytes⟩ := Sender.wire_step ht
    dsimp only
    rw [← hbytes, List.drop_left]
    exact h.parses.arrive bytes
  | read e =>
    obtain ⟨r, hr, rfl⟩ := Option.map_eq_some_iff.mp hs
    exact ⟨h.inv, h.parses.readCb hr⟩

omit [DecidableEq ι] in
theorem Agrees.delivers (hbuf : ∀ k, 4 ≤ (buf k).length ∧ (buf k).length < 2 ^ 31)
    (h : Agrees buf s) : ∃ done part, s.Delivers buf done part := by
  obtain ⟨done, part, hwire, hnodup, hcut, hret⟩ := h.inv.wholePdus fun k => (hbuf k).1
  have hsized (k : ι) : sized (buf k) ∈ selfSized := sized_mem_selfSized (hbuf k).1 (hbuf k).2
  have hwords : ∀ q ∈ done.map fun k => sized (buf k), q ∈ selfSized := by
    intro q hq
    obtain ⟨k, -, rfl⟩ := List.mem_map.mp hq
    exact hsized k
  have hpart : Incomplete selfSized part := by
    rcases hcut with rfl | ⟨k, -, hpre, hlt⟩
    · exact incomplete_nil fun hnil => absurd hnil.1 (by decide)
    · exact prefixCode_selfSized.incomplete (hsized k) hpre hlt
  have hfirst {ps : List Bytes} (hps : ∀ p ∈ ps, p ∈ selfSized)
      (hpre : ps.flatten <+: s.sender.wire) : ps <+: done.map fun k => sized (buf k) :=
    prefixCode_selfSized.prefix_of_flatten hps hwords hpart (hwire ▸ hpre)
  have hacc (offers : List (Bytes × Bool)) (hoffers : ∀ o ∈ offers, o.1 ∈ selfSized) :
      ∀ p ∈ accepted offers, p ∈ selfSized := by
    intro p hp
    obtain ⟨o, ho, rfl⟩ := List.mem_map.mp hp
    exact hoffers o (List.mem_filter.mp ho).1
  have haccepted : accepted s.reader.offers <+: done.map fun k => sized (buf k) :=
    hfirst (hacc _ h.parses.selfSized) h.parses.taken
  refine ⟨done, part, hnodup, hret, hcut, ?_, haccepted, fun halive => ?_⟩
  · intro pre o post heq
    have hmem (o' : Bytes × Bool) (ho' : o' ∈ pre ∨ o' = o) : o'.1 ∈ selfSized := by
      apply h.parses.selfSized
      rw [heq, List.mem_append, List.mem_cons]
      exact ho'.imp_right Or.inl
    apply hfirst
    · intro p hp
      rcases List.mem_append.mp hp with hp | hp
      · exact hacc pre (fun o' ho' => hmem o' (Or.inl ho')) p hp
      · rw [List.mem_singleton.mp hp]
        exact hmem o (Or.inr rfl)
    · rw [List.flatten_append, List.flatten_singleton]
      exact h.parses.offered pre o post heq
  · obtain ⟨rest, hrest⟩ := haccepted
    refine ⟨rest, hrest.symm, ?_⟩
    have hwhole := h.parses.whole halive
    rw [hwire, Sender.pdus, ← hrest, List.flatten_append, List.append_assoc] at hwhole
    exact List.append_cancel_left hwhole

end Link

/-- Whatever the threads of one host, the poll threads, `write`, `read` and the network do: the PDUs
sent over a connection come out at the other side in the order in which they were written, each
at most once and unchanged but for the size in front, and none is lost while the other side
reads. -/
theorem link_delivers {buf : ι → Bytes}
    (hbuf : ∀ k, 4 ≤ (buf k).length ∧ (buf k).length < 2 ^ 31) {es : List (LinkEvent ι)}
    {s : Link ι} (hrun : (link buf).run es = some s) : ∃ done part, s.Delivers buf done part := by
  have hagrees : Link.Agrees buf s :=
    (Machine.along_of_runFrom (m := link buf) (C := fun _ _ => True) (I := Link.Agrees buf)
      (fun s e t h hs => ⟨trivial, h.step (fun k => (hbuf k).1) hs⟩) Link.agrees_init hrun).2
  exact hagrees.delivers hbuf

def sendAndRead : List (LinkEvent Bool) :=
  [.send (.send false (.wrote 10)), .read ⟨.got 4, .got 6, true⟩, .send (.send true .again),
    .send (.writeCb (.wrote 14)), .read ⟨.got 4, .got 14, false⟩, .send (.completeWake false),
    .send (.slotWake true (.wrote 24)), .read ⟨.got 4, .got 4, true⟩, .read ⟨.got 4, .got 20, true⟩]

theorem link_delivers_two :
    (∀ k, 4 ≤ (twoBufs k).length ∧ (twoBufs k).length < 2 ^ 31) ∧
    ∃ s, (link twoBufs).run sendAndRead = some s ∧
      accepted s.reader.offers = [sized (twoBufs false), sized (twoBufs true)] ∧
      ∃ done part, s.Delivers twoBufs done part := by
  have hbuf : ∀ k, 4 ≤ (twoBufs k).length ∧ (twoBufs k).length < 2 ^ 31 := by decide
  obtain ⟨s, hrun, haccepted⟩ := Machine.exists_run_of_any (m := link twoBufs)
    (p := fun s => accepted s.reader.offers = [sized (twoBufs false), sized (twoBufs true)])
    sendAndRead (by decide +kernel)
  exact ⟨hbuf, s, hrun, haccepted, link_delivers hbuf hrun⟩

end YFS.Rpc
