import YFS.Extent.Calls
import YFS.Library.Serial

/-! # The extent server as a file store

What the server is for: a finite map from ids to byte strings, where a byte string is
given by its length and its bytes by position. Ids and write positions are taken as the
natural numbers they are, and nothing is said about attributes.
-/

namespace YFS.Extent
open YFS.Library

abbrev Files := ℕ → Option Bytes

namespace Files

def tabulate (n : ℕ) (byte : ℕ → UInt8) : Bytes := (List.range n).map byte

def byteAt (b : Bytes) (i : ℕ) : UInt8 := b.getD i 0

/-- Overwritten at the offset; a gap behind the end is filled with zeros. -/
def overwritten (b : Bytes) (off : ℕ) (buf : Bytes) : Bytes :=
  tabulate (max b.length (off + buf.length)) fun i =>
    if off ≤ i ∧ i < off + buf.length then byteAt buf (i - off) else byteAt b i

def resized (b : Bytes) (n : ℕ) : Bytes := tabulate n (byteAt b)

def slice (b : Bytes) (askSize off : ℕ) : Bytes := b.extract off (min (off + askSize) b.length)

def init : Files := Function.update (fun _ => none) 1 (some [])

/-- What a call does to the file it names: its status, the bytes it hands back and the file it
leaves. -/
def onFile : Call → Option Bytes → (Status × Bytes) × Option Bytes
  | .put _ buf, _ => ((.OK, []), some buf)
  | .get _, some b => ((.OK, b), some b)
  | .getattr _, some b => ((.OK, []), some b)
  | .remove _, some _ => ((.OK, []), none)
  | .resize _ newSize, some b => ((.OK, []), some (resized b newSize))
  | .getbuf _ askSize off, some b =>
    if off < b.length then ((.OK, slice b askSize off), some b) else ((.IOERR, []), some b)
  | .putbuf _ off buf, some b => ((.OK, []), some (overwritten b off buf))
  | _, none => ((.NOENT, []), none)

def call (f : Files) (c : Call) : (Status × Bytes) × Files :=
  let (r, b) := onFile c (f c.id)
  (r, Function.update f c.id b)

def serve (f : Files) (cs : List Call) : List (Status × Bytes) × Files :=
  serially (fun c f => call f c) cs f

@[simp] theorem length_tabulate (n : ℕ) (byte : ℕ → UInt8) : (tabulate n byte).length = n := by
  simp [tabulate]

theorem byteAt_tabulate {n i : ℕ} (hi : i < n) (byte : ℕ → UInt8) :
    byteAt (tabulate n byte) i = byte i := by
  rw [byteAt, tabulate, List.getD_eq_getElem?_getD, List.getElem?_map, List.getElem?_range hi]
  rfl

theorem eq_of_byteAt {b c : Bytes} (hlen : b.length = c.length)
    (h : ∀ i, i < c.length → byteAt b i = byteAt c i) : b = c := by
  apply List.ext_getElem hlen
  intro i hb hc
  simpa [byteAt, hb, hc] using h i hc

theorem byteAt_append (b c : Bytes) (i : ℕ) :
    byteAt (b ++ c) i = if i < b.length then byteAt b i else byteAt c (i - b.length) := by
  simp only [byteAt, List.getD_eq_getElem?_getD]
  split_ifs with h
  · rw [List.getElem?_append_left h]
  · rw [List.getElem?_append_right (Nat.le_of_not_lt h)]

theorem byteAt_take {b : Bytes} {n i : ℕ} (h : i < n) : byteAt (b.take n) i = byteAt b i := by
  rw [byteAt, byteAt, List.getD_eq_getElem?_getD, List.getElem?_take_of_lt h,
    List.getD_eq_getElem?_getD]

theorem byteAt_drop (b : Bytes) (n i : ℕ) : byteAt (b.drop n) i = byteAt b (n + i) := by
  rw [byteAt, byteAt, List.getD_eq_getElem?_getD, List.getElem?_drop, List.getD_eq_getElem?_getD]

theorem byteAt_of_length_le {b : Bytes} {i : ℕ} (h : b.length ≤ i) : byteAt b i = 0 := by
  rw [byteAt, List.getD_eq_getElem?_getD, List.getElem?_eq_none h]
  rfl

theorem byteAt_replicate (n i : ℕ) : byteAt (List.replicate n 0) i = 0 := by
  simp only [byteAt, List.getD_eq_getElem?_getD, List.getElem?_replicate]
  split_ifs <;> rfl

/-! ## The server's byte strings -/

theorem byteAt_resized {b : Bytes} {n i : ℕ} (hi : i < n) :
    byteAt (Store.resized b n) i = byteAt b i := by
  rw [Store.resized, byteAt_append, List.length_take]
  split_ifs with h
  · exact byteAt_take hi
  · rw [byteAt_replicate, byteAt_of_length_le (by omega)]

theorem resized_eq (b : Bytes) (n : ℕ) : Store.resized b n = resized b n := by
  have hlen : (Store.resized b n).length = (resized b n).length := by
    rw [Store.length_resized, resized, length_tabulate]
  apply eq_of_byteAt hlen
  intro i hi
  rw [resized, length_tabulate] at hi
  rw [byteAt_resized hi, resized, byteAt_tabulate hi]

theorem sliced_eq (b : Bytes) (askSize off : ℕ) :
    Store.sliced b askSize off = if off < b.length then some (slice b askSize off) else none := by
  have hsize : min (off + askSize) b.length - off =
      if b.length - off > askSize then askSize else b.length - off := by
    split_ifs <;> omega
  rw [Store.sliced, slice, List.extract_eq_take_drop, hsize]

/-- Below `2 ^ 32` bytes `putbuf` does not throw and overwrites at the offset. -/
theorem written_eq {off : ℕ} {buf : Bytes} (h : off + buf.length < 2 ^ 32) (b : Bytes) :
    Store.written b off buf = some (overwritten b off buf) := by
  set c := if off + buf.length > b.length then Store.resized b (off + buf.length) else b with hc
  have hlen : c.length = max b.length (off + buf.length) := by
    rw [hc]
    split_ifs with hlt
    · rw [Store.length_resized]
      omega
    · omega
  have hbyte (i : ℕ) (hi : i < c.length) : byteAt c i = byteAt b i := by
    rw [hc] at hi ⊢
    split_ifs at hi ⊢ with hlt
    · rw [Store.length_resized] at hi
      exact byteAt_resized hi
    · rfl
  have hw : Store.written b off buf = some (c.take off ++ buf ++ c.drop (off + buf.length)) := by
    rw [Store.written, Nat.mod_eq_of_lt h]
    exact if_pos (show off ≤ c.length by omega)
  rw [hw]
  congr 1
  have htake : (c.take off).length = off := by
    rw [List.length_take]
    omega
  apply eq_of_byteAt
  · simp only [List.length_append, htake, List.length_drop, overwritten, length_tabulate]
    omega
  · intro i hi
    rw [overwritten, length_tabulate] at hi
    rw [overwritten, byteAt_tabulate hi, byteAt_append, byteAt_append, List.length_append, htake]
    split_ifs with h1 h2 h3
    · omega
    · rw [byteAt_take h2]
      exact hbyte i (by omega)
    · rfl
    · omega
    · omega
    · rw [byteAt_drop, hbyte _ (by omega)]
      congr 1
      omega

end Files

/-! ## Refinement -/

/-- The id has 32 bits, and the end of a write is not cut. -/
def Call.Fits (c : Call) : Prop :=
  c.id < 2 ^ 32 ∧ ∀ id off buf, c = .putbuf id off buf → off + buf.length < 2 ^ 32

def Store.serve (s : Store) : List (ℕ × Call) → Option (List Returned × Store)
  | [] => some ([], s)
  | (now, c) :: cs => do
    let (r, s) ← s.call now c
    let (rs, s) ← Store.serve s cs
    some (r :: rs, s)

/-- On the bytes of its record a call does what the file store does. -/
theorem Call.act_refines (now : ℕ) {c : Call} (hc : c.Fits) (q : Option Record) :
    ∃ r q', c.act now q = some (r, q') ∧
      Files.onFile c (q.map Record.buf) = ((r.status, r.buf), q'.map Record.buf) := by
  cases q with
  | none => cases c <;> exact ⟨_, _, rfl, rfl⟩
  | some p =>
    cases c with
    | resize id newSize =>
      refine ⟨_, _, rfl, ?_⟩
      simp [Files.onFile, Files.resized_eq, Returned.of]
    | getbuf id askSize off =>
      simp only [act, Files.sliced_eq, Files.onFile, Option.map_some]
      split_ifs
      · exact ⟨_, _, rfl, rfl⟩
      · exact ⟨_, _, rfl, rfl⟩
    | putbuf id off buf =>
      simp only [act, Files.written_eq (hc.2 id off buf rfl), Option.map_some]
      exact ⟨_, _, rfl, rfl⟩
    | _ => exact ⟨_, _, rfl, rfl⟩

/-- One call of the server is one call of the file store. -/
theorem Store.call_refines (s : Store) (now : ℕ) {c : Call} (hc : c.Fits) :
    ∃ r t, s.call now c = some (r, t) ∧
      Files.call s.contents c = ((r.status, r.buf), t.contents) := by
  have hkey : key c.id = c.id := Nat.mod_eq_of_lt hc.1
  obtain ⟨r, q, hq, hspec⟩ := Call.act_refines now hc (s.find c.id)
  refine ⟨r, s.set c.id q, by rw [call_eq, hq]; rfl, ?_⟩
  rw [contents_find, hkey] at hspec
  rw [Files.call, hspec, contents_set, hkey]

theorem Store.serve_refines (s : Store) {cs : List (ℕ × Call)} (hc : ∀ c ∈ cs, c.2.Fits) :
    ∃ rs t, s.serve cs = some (rs, t) ∧
      Files.serve s.contents (cs.map Prod.snd) =
        (rs.map fun r => (r.status, r.buf), t.contents) := by
  induction cs generalizing s with
  | nil => exact ⟨[], s, rfl, rfl⟩
  | cons c cs ih =>
    obtain ⟨r, u, hcall, hspec⟩ := s.call_refines c.1 (hc c (by simp))
    obtain ⟨rs, t, hserve, hspecs⟩ := ih u fun d hd => hc d (by simp [hd])
    refine ⟨r :: rs, t, ?_, ?_⟩
    · simp [serve, hcall, hserve]
    · rw [Files.serve] at hspecs ⊢
      simp [serially, hspec, hspecs]

theorem contents_init (start : ℕ) : (Store.init start).contents = Files.init := by
  rw [Store.init, Store.contents_put]
  rfl

/-- The server answers every sequence of calls as the file store does, byte by byte, and a call that
fails changes nothing. -/
theorem serves_files (start : ℕ) {cs : List (ℕ × Call)} (hc : ∀ c ∈ cs, c.2.Fits) :
    (∃ rs t, (Store.init start).serve cs = some (rs, t) ∧
      Files.serve Files.init (cs.map Prod.snd) =
        (rs.map fun r => (r.status, r.buf), t.contents)) ∧
    ∀ s now c r t, Store.call s now c = some (r, t) → r.status ≠ .OK → t = s := by
  refine ⟨?_, fun s now c r t => Store.call_failed⟩
  rw [← contents_init start]
  exact (Store.init start).serve_refines hc

/-- A write behind the end of a new file, and reads inside it, at its end and of a missing file. -/
theorem serves_files_hole :
    (∀ c ∈ [(1, Call.put 2 [7]), (2, .putbuf 2 3 [8]), (3, .getbuf 2 9 1), (4, .getbuf 2 1 4),
      (5, .get 3)], c.2.Fits) ∧
    (∃ rs t, (Store.init 0).serve [(1, .put 2 [7]), (2, .putbuf 2 3 [8]), (3, .getbuf 2 9 1),
        (4, .getbuf 2 1 4), (5, .get 3)] = some (rs, t) ∧
      Files.serve Files.init [.put 2 [7], .putbuf 2 3 [8], .getbuf 2 9 1, .getbuf 2 1 4, .get 3] =
        (rs.map fun r => (r.status, r.buf), t.contents)) := by
  have hc : ∀ c ∈ [(1, Call.put 2 [7]), (2, .putbuf 2 3 [8]), (3, .getbuf 2 9 1),
      (4, .getbuf 2 1 4), (5, .get 3)], c.2.Fits := by
    simp [Call.Fits, Call.id]
  exact ⟨hc, (serves_files 0 hc).1⟩

example : (Files.serve Files.init [.put 2 [7], .putbuf 2 3 [8], .getbuf 2 9 1, .getbuf 2 1 4,
    .get 3]).1 = [(.OK, []), (.OK, []), (.OK, [0, 0, 8]), (.IOERR, []), (.NOENT, [])] := by
  decide

end YFS.Extent
