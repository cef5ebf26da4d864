import YFS.Library.Decimal

/-! # The extent server

`extent_server`: a table from extent ids to byte strings with attributes. The table is a
`std::map<int, store>`, so an id is cut to 32 bits on every access; a key stands below for
the `int` with the same 32 bits. `size_t` has 32 bits. Each operation takes the time that
`time(NULL)` returns during it.
-/

namespace YFS.Extent
open YFS.Library

abbrev Status := ℤ

namespace Status

def OK : Status := 0
def RPCERR : Status := 1
def NOENT : Status := 2
def IOERR : Status := 3

end Status

structure Attr where
  atime : ℕ
  mtime : ℕ
  ctime : ℕ
  size : ℕ
  deriving DecidableEq, Repr

structure Record where
  buf : Bytes
  a : Attr
  deriving DecidableEq, Repr

/-- The `int` an id becomes as a key of `store_table`. -/
def key (id : ℕ) : ℕ := id % 2 ^ 32

abbrev Store := ℕ → Option Record

namespace Store

def find (s : Store) (id : ℕ) : Option Record := s (key id)

def set (s : Store) (id : ℕ) (r : Option Record) : Store := Function.update s (key id) r

def uint (n : ℕ) : ℕ := n % 2 ^ 32

def resized (b : Bytes) (n : ℕ) : Bytes := b.take n ++ List.replicate (n - b.length) 0

def put (s : Store) (now id : ℕ) (buf : Bytes) : Status × Store :=
  (.OK, s.set id (some ⟨buf, uint now, uint now, uint now, uint buf.length⟩))

def get (s : Store) (now id : ℕ) : Status × Bytes × Store :=
  match s.find id with
  | none => (.NOENT, [], s)
  | some r => (.OK, r.buf, s.set id (some { r with a := { r.a with atime := uint now } }))

def getattr (s : Store) (id : ℕ) : Status × Attr :=
  match s.find id with
  | none => (.NOENT, ⟨0, 0, 0, 0⟩)
  | some r => (.OK, r.a)

def remove (s : Store) (id : ℕ) : Status × Store :=
  match s.find id with
  | none => (.NOENT, s)
  | some _ => (.OK, s.set id none)

def resize (s : Store) (now id newSize : ℕ) : Status × Store :=
  match s.find id with
  | none => (.NOENT, s)
  | some r =>
    let a := if r.buf.length > newSize then { r.a with mtime := uint now } else r.a
    (.OK, s.set id (some ⟨resized r.buf newSize, { a with ctime := uint now }⟩))

/-- The bytes `getbuf` reads; `none` behind the end. -/
def sliced (b : Bytes) (askSize off : ℕ) : Option Bytes :=
  let len := b.length
  if off < len then
    let allowsize := if len - off > askSize then askSize else len - off
    some ((b.drop off).take allowsize)
  else none

def getbuf (s : Store) (now id askSize off : ℕ) : Status × Bytes × Store :=
  match s.find id with
  | none => (.NOENT, [], s)
  | some r =>
    match sliced r.buf askSize off with
    | none => (.IOERR, [], s)
    | some buf => (.OK, buf, s.set id (some { r with a := { r.a with atime := uint now } }))

/-- The bytes after `putbuf`; `none` where `replace` throws because the offset is behind the
string. -/
def written (b : Bytes) (off : ℕ) (buf : Bytes) : Option Bytes :=
  let bufEnd := (off + buf.length) % 2 ^ 32
  let b := if bufEnd > b.length then resized b bufEnd else b
  if off ≤ b.length then some (b.take off ++ buf ++ b.drop (off + buf.length)) else none

/-- `putbuf`; `none` where it throws. -/
def putbuf (s : Store) (now id off : ℕ) (buf : Bytes) : Option (Status × Store) :=
  match s.find id with
  | none => some (.NOENT, s)
  | some r =>
    (written r.buf off buf).map fun b =>
      (.OK, s.set id (some ⟨b, { r.a with mtime := uint now, size := uint b.length }⟩))

def init (now : ℕ) : Store := (put (fun _ => none) now 1 []).2

def contents (s : Store) : ℕ → Option Bytes := fun k => (s k).map Record.buf

theorem contents_set (s : Store) (id : ℕ) (r : Option Record) :
    (s.set id r).contents = Function.update s.contents (key id) (r.map Record.buf) := by
  funext k
  by_cases hk : k = key id <;> simp [contents, set, hk]

theorem contents_find (s : Store) (id : ℕ) : (s.find id).map Record.buf = s.contents (key id) :=
  rfl

@[simp] theorem contents_put (s : Store) (now id : ℕ) (buf : Bytes) :
    (s.put now id buf).2.contents = Function.update s.contents (key id) (some buf) :=
  contents_set ..

theorem find_of_contents {s : Store} {id : ℕ} {b : Bytes} (hb : s.contents (key id) = some b) :
    ∃ r, s.find id = some r ∧ r.buf = b :=
  Option.map_eq_some_iff.mp hb

theorem find_of_contents_none {s : Store} {id : ℕ} (hb : s.contents (key id) = none) :
    s.find id = none :=
  Option.map_eq_none_iff.mp hb

theorem contents_set_of_find {s : Store} {id : ℕ} {r : Record} (hr : s.find id = some r)
    (a : Attr) : (s.set id (some { r with a := a })).contents = s.contents := by
  rw [contents_set]
  apply Function.update_eq_self_iff.mpr
  rw [← contents_find, hr]
  rfl

theorem get_of_none {s : Store} {id : ℕ} (hb : s.contents (key id) = none) (now : ℕ) :
    s.get now id = (.NOENT, [], s) := by
  simp only [get, find_of_contents_none hb]

theorem get_of_some {s : Store} {id : ℕ} {b : Bytes} (hb : s.contents (key id) = some b)
    (now : ℕ) : ∃ s', s'.contents = s.contents ∧ s.get now id = (.OK, b, s') := by
  obtain ⟨r, hr, rfl⟩ := find_of_contents hb
  refine ⟨s.set id (some { r with a := { r.a with atime := uint now } }),
    contents_set_of_find hr _, ?_⟩
  simp only [get, hr]

@[simp] theorem contents_remove (s : Store) (id : ℕ) :
    (s.remove id).2.contents = Function.update s.contents (key id) none := by
  rw [remove]
  split
  · rename_i hr
    symm
    apply Function.update_eq_self_iff.mpr
    rw [← contents_find, hr]
    rfl
  · exact contents_set ..

theorem remove_status (s : Store) (id : ℕ) :
    (s.remove id).1 = if s.contents (key id) = none then .NOENT else .OK := by
  rw [remove]
  split
  · rename_i hr
    have : s.contents (key id) = none := Option.map_eq_none_iff.mpr hr
    rw [if_pos this]
  · rename_i r hr
    have : s.contents (key id) ≠ none := by
      rw [← contents_find, hr]
      simp
    rw [if_neg this]

theorem getbuf_of_none {s : Store} {id : ℕ} (hb : s.contents (key id) = none)
    (now askSize off : ℕ) : s.getbuf now id askSize off = (.NOENT, [], s) := by
  simp only [getbuf, find_of_contents_none hb]

theorem putbuf_of_none {s : Store} {id : ℕ} (hb : s.contents (key id) = none) (now off : ℕ)
    (buf : Bytes) : s.putbuf now id off buf = some (.NOENT, s) := by
  simp only [putbuf, find_of_contents_none hb]

theorem getbuf_of_some {s : Store} {id : ℕ} {b : Bytes} (hb : s.contents (key id) = some b)
    (now askSize off : ℕ) :
    ∃ s', s'.contents = s.contents ∧ s.getbuf now id askSize off =
      match sliced b askSize off with
      | none => (.IOERR, [], s')
      | some buf => (.OK, buf, s') := by
  obtain ⟨r, hr, rfl⟩ := find_of_contents hb
  cases hsl : sliced r.buf askSize off with
  | none => exact ⟨s, rfl, by simp only [getbuf, hr, hsl]⟩
  | some buf =>
    refine ⟨s.set id (some { r with a := { r.a with atime := uint now } }),
      contents_set_of_find hr _, ?_⟩
    simp only [getbuf, hr, hsl]

theorem putbuf_of_some {s : Store} {id : ℕ} {b b' : Bytes} {off : ℕ} {buf : Bytes}
    (hb : s.contents (key id) = some b) (hw : written b off buf = some b') (now : ℕ) :
    ∃ s', s'.contents = Function.update s.contents (key id) (some b') ∧
      s.putbuf now id off buf = some (.OK, s') := by
  obtain ⟨r, hr, rfl⟩ := find_of_contents hb
  refine ⟨s.set id (some ⟨b', { r.a with mtime := uint now, size := uint b'.length }⟩),
    contents_set .., ?_⟩
  simp only [putbuf, hr, hw, Option.map_some]

end Store
end YFS.Extent
