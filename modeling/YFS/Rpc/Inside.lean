import YFS.Library.Machine
import YFS.Rpc.Exact

/-! # Reading inside the message

An `unmarshall` on bytes from the network, and headers, integers and strings extracted from
it in any order. Every byte that is read belongs to the message as long as no length of a
string makes the bounds test of `rawbytes` wrap around.
-/

namespace YFS.Rpc
open YFS.Library

inductive Extraction where
  | reqHeader
  | replyHeader
  | value (t : {t : Ty // t.flat = true})
  deriving DecidableEq, Repr

/-- The `unmarshall` and the strings that have been extracted from it. -/
structure Decoding where
  u : Unmarshall
  strings : List Bytes
  deriving DecidableEq, Repr

def Ty.strings : (t : Ty) → t.Val → List Bytes
  | string, s => [s]
  | _, _ => []

def Decoding.step (s : Decoding) : Extraction → Option Decoding
  | .reqHeader => do
    let (_, u) ← Header.unpackReq s.u
    some { s with u := u }
  | .replyHeader => do
    let (_, u) ← Header.unpackReply s.u
    some { s with u := u }
  | .value t => do
    let (x, u) ← t.val.get s.u
    some ⟨u, if u.ok then t.val.strings x ++ s.strings else s.strings⟩

def decoder (buf : Bytes) : Machine Decoding Extraction where
  init := ⟨Unmarshall.new buf, []⟩
  step := Decoding.step

def Extraction.wraps (u : Unmarshall) : Extraction → Bool
  | .value t => t.val.wraps u
  | _ => false

/-- No byte is read outside the message, every string is a part of it, and no extraction takes the
failure of an earlier one back. -/
def ReadsInside (buf : Bytes) (es : List Extraction) : Prop :=
  ∃ s, (decoder buf).run es = some s ∧ (∀ str ∈ s.strings, str <:+: buf) ∧
    ∀ pre post t, es = pre ++ post → (decoder buf).run pre = some t →
      t.u.ok = false → s.u.ok = false

structure Decoding.Inside (buf : Bytes) (s : Decoding) : Prop where
  buf_eq : s.u.buf = buf
  strings : ∀ str ∈ s.strings, str <:+: buf

theorem Ty.strings_infix {t : Ty} {u u' : Unmarshall} {x : t.Val} (hu : t.get u = some (x, u'))
    (hok : u'.ok = true) {str : Bytes} (hstr : str ∈ t.strings x) : str <:+: u.buf := by
  cases t with
  | string =>
    obtain ⟨-, bs, rfl, hpre, -⟩ := Exact.getString u x u' hu hok
    rw [List.mem_singleton.mp hstr]
    have hsuffix : x <:+: encodeString x := (List.suffix_append ..).isInfix
    exact hsuffix.trans (hpre.isInfix.trans (List.drop_suffix ..).isInfix)
  | _ => cases hstr

namespace Decoding

variable {buf : Bytes} {s t : Decoding} {es : List Extraction}

theorem Inside.moveTo (hs : s.Inside buf) {α : Type} {g : Get α} (hg : Keeps g s.u) :
    ∃ x u', g s.u = some (x, u') ∧ Inside buf { s with u := u' } ∧
      (s.u.ok = false → u'.ok = false) := by
  obtain ⟨x, u', hu', hbuf, hok⟩ := hg
  exact ⟨x, u', hu', ⟨hbuf.trans hs.buf_eq, hs.strings⟩, hok⟩

/-- A step is undefined just when a length wraps. -/
theorem step_cases (hs : s.Inside buf) (hsz : buf.length < 2 ^ 31) (e : Extraction) :
    (e.wraps s.u = true ∧ s.step e = none) ∨
      (e.wraps s.u = false ∧ ∃ t, s.step e = some t ∧ t.Inside buf ∧
        (s.u.ok = false → t.u.ok = false)) := by
  cases e with
  | reqHeader =>
    obtain ⟨x, u', hu', hin, hok⟩ := hs.moveTo (Total.unpackReq s.u)
    exact Or.inr ⟨rfl, _, by simp [step, hu'], hin, hok⟩
  | replyHeader =>
    obtain ⟨x, u', hu', hin, hok⟩ := hs.moveTo (Total.unpackReply s.u)
    exact Or.inr ⟨rfl, _, by simp [step, hu'], hin, hok⟩
  | value t =>
    rcases Ty.get_cases t.property (u := s.u) (by rw [hs.buf_eq]; exact hsz) with
      ⟨hw, hnone⟩ | ⟨hw, hkeeps⟩
    · exact Or.inl ⟨hw, by simp [step, hnone]⟩
    · obtain ⟨x, u', hu', hin, hok⟩ := hs.moveTo hkeeps
      refine Or.inr ⟨hw, ⟨u', if u'.ok then t.val.strings x ++ s.strings else s.strings⟩,
        by simp [step, hu'], ⟨hin.buf_eq, fun str hstr => ?_⟩, hok⟩
      dsimp only at hstr
      split at hstr
      · rename_i hok'
        rcases List.mem_append.mp hstr with hstr | hstr
        · rw [← hs.buf_eq]
          exact Ty.strings_infix hu' hok' hstr
        · exact hs.strings str hstr
      · exact hs.strings str hstr

theorem inside_init (buf : Bytes) : (decoder buf).init.Inside buf := ⟨rfl, by simp [decoder]⟩

theorem step_of_eq_some (hs : s.Inside buf) (hsz : buf.length < 2 ^ 31) {e : Extraction}
    (h : s.step e = some t) :
    e.wraps s.u = false ∧ t.Inside buf ∧ (s.u.ok = false → t.u.ok = false) := by
  rcases step_cases hs hsz e with ⟨-, hnone⟩ | ⟨hw, t', ht', hin, hok⟩
  · rw [h] at hnone
    cases hnone
  · rw [h] at ht'
    cases ht'
    exact ⟨hw, hin, hok⟩

/-- A run that is defined meets no length that wraps. -/
theorem along_of_run (hs : s.Inside buf) (hsz : buf.length < 2 ^ 31)
    (h : (decoder buf).runFrom s es = some t) :
    (decoder buf).Along (fun s e => e.wraps s.u = false) s es ∧ t.Inside buf ∧
      (s.u.ok = false → t.u.ok = false) :=
  Machine.along_of_runFrom (I := fun r => r.Inside buf ∧ (s.u.ok = false → r.u.ok = false))
    (fun r e r' hr hstep => by
      obtain ⟨hw, hin, hok⟩ := step_of_eq_some hr.1 hsz hstep
      exact ⟨hw, hin, hok ∘ hr.2⟩) ⟨hs, id⟩ h

end Decoding

/-- The bytes that are read belong to the message unless the length of a string wraps around. -/
theorem readsInside_iff (buf : Bytes) (hsz : buf.length ≤ MAX_PDU) (es : List Extraction) :
    ReadsInside buf es ↔
      (decoder buf).Along (fun s e => e.wraps s.u = false) (decoder buf).init es := by
  have hmax : MAX_PDU < 2 ^ 31 := by decide
  have hsz' : buf.length < 2 ^ 31 := by omega
  have hinit := Decoding.inside_init buf
  constructor
  · rintro ⟨s, hs, -⟩
    exact (Decoding.along_of_run hinit hsz' hs).1
  · intro h
    obtain ⟨s, hs, hin⟩ := Machine.Along.progress (m := decoder buf) (I := Decoding.Inside buf)
      (fun s e hs hw => by
        rcases Decoding.step_cases hs hsz' e with ⟨hw', -⟩ | ⟨-, t, ht, hin, -⟩
        · rw [hw] at hw'
          cases hw'
        · exact ⟨t, ht, hin⟩) hinit h
    refine ⟨s, hs, hin.strings, ?_⟩
    rintro pre post t rfl ht hok
    have hpre := (Decoding.along_of_run hinit hsz' ht).2.1
    have hpost : (decoder buf).runFrom t post = some s := by
      rw [Machine.runFrom_append] at hs
      change (((decoder buf).run pre).bind fun t => (decoder buf).runFrom t post) = some s at hs
      rwa [ht] at hs
    exact (Decoding.along_of_run hpre hsz' hpost).2.2 hok

def shortMessage : Bytes := List.replicate 24 0 ++ [0, 0, 0, 2, 97, 98]

theorem readsInside_iff_shortMessage :
    shortMessage.length ≤ MAX_PDU ∧
      (ReadsInside shortMessage [.reqHeader, .value ⟨.string, rfl⟩] ↔
        (decoder shortMessage).Along (fun s e => e.wraps s.u = false) (decoder shortMessage).init
          [.reqHeader, .value ⟨.string, rfl⟩]) :=
  ⟨by decide, readsInside_iff shortMessage (by decide) _⟩

def hugeLength : Bytes := List.replicate 24 0 ++ [255, 255, 255, 255]

/-- The bounds test compares `28 + 0xffffffff` modulo `2 ^ 32` with the size of the message. -/
theorem reads_outside :
    hugeLength.length ≤ MAX_PDU ∧
      ¬ ReadsInside hugeLength [.reqHeader, .value ⟨.string, rfl⟩] := by
  refine ⟨by decide, ?_⟩
  rintro ⟨s, hs, -⟩
  have hnone : ((decoder hugeLength).run [.reqHeader, .value ⟨.string, rfl⟩]).isNone = true := by
    decide +kernel
  rw [hs] at hnone
  cases hnone

end YFS.Rpc
