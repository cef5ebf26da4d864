import YFS.Extent.Server
import YFS.Library.Machine

/-! # Calls of the extent server

The seven operations as calls of one server, which takes them one after another under
`extent_server_mutex`. Two things are asked of every state it can get into: that the
recorded sizes are the real ones, and that extents with different ids are different.
-/

namespace YFS.Extent
open YFS.Library

inductive Call where
  | put (id : ℕ) (buf : Bytes)
  | get (id : ℕ)
  | getattr (id : ℕ)
  | remove (id : ℕ)
  | resize (id newSize : ℕ)
  | getbuf (id askSize off : ℕ)
  | putbuf (id off : ℕ) (buf : Bytes)
  deriving DecidableEq, Repr

def Call.id : Call → ℕ
  | .put id _ => id
  | .get id => id
  | .getattr id => id
  | .remove id => id
  | .resize id _ => id
  | .getbuf id _ _ => id
  | .putbuf id _ _ => id

/-- What a call hands back: its status, and the bytes or the attributes where it has some. -/
structure Returned where
  status : Status
  buf : Bytes
  a : Attr
  deriving DecidableEq, Repr

def Returned.of (status : Status) : Returned := ⟨status, [], ⟨0, 0, 0, 0⟩⟩

def Store.call (s : Store) (now : ℕ) : Call → Option (Returned × Store)
  | .put id buf => let (st, s) := s.put now id buf; some (.of st, s)
  | .get id => let (st, buf, s) := s.get now id; some ({ Returned.of st with buf := buf }, s)
  | .getattr id => let (st, a) := s.getattr id; some ({ Returned.of st with a := a }, s)
  | .remove id => let (st, s) := s.remove id; some (.of st, s)
  | .resize id newSize => let (st, s) := s.resize now id newSize; some (.of st, s)
  | .getbuf id askSize off =>
    let (st, buf, s) := s.getbuf now id askSize off
    some ({ Returned.of st with buf := buf }, s)
  | .putbuf id off buf => (s.putbuf now id off buf).map fun (st, s) => (.of st, s)

def extentServer (start : ℕ) : Machine Store (ℕ × Call) where
  init := Store.init start
  step s e := (s.call e.1 e.2).map Prod.snd

/-- What a call does to the record of the extent it names. -/
def Call.act (now : ℕ) : Call → Option Record → Option (Returned × Option Record)
  | .put _ buf, _ =>
    some (.of .OK, some ⟨buf, Store.uint now, Store.uint now, Store.uint now, Store.uint buf.length⟩)
  | .get _, some q => some ({ Returned.of .OK with buf := q.buf },
      some { q with a := { q.a with atime := Store.uint now } })
  | .getattr _, some q => some ({ Returned.of .OK with a := q.a }, some q)
  | .remove _, some _ => some (.of .OK, none)
  | .resize _ newSize, some q =>
    let a := if q.buf.length > newSize then { q.a with mtime := Store.uint now } else q.a
    some (.of .OK, some ⟨Store.resized q.buf newSize, { a with ctime := Store.uint now }⟩)
  | .getbuf _ askSize off, some q =>
    match Store.sliced q.buf askSize off with
    | none => some (.of .IOERR, some q)
    | some buf => some ({ Returned.of .OK with buf := buf },
        some { q with a := { q.a with atime := Store.uint now } })
  | .putbuf _ off buf, some q =>
    (Store.written q.buf off buf).map fun b =>
      (.of .OK, some ⟨b, { q.a with mtime := Store.uint now, size := Store.uint b.length }⟩)
  | _, none => some (.of .NOENT, none)

namespace Store

theorem set_find (s : Store) (id : ℕ) : s.set id (s.find id) = s := Function.update_eq_self ..

@[simp] theorem find_set_self (s : Store) (id : ℕ) (q : Option Record) :
    (s.set id q).find id = q := Function.update_self ..

theorem find_set_of_key {i j : ℕ} (h : key i = key j) (s : Store) (q : Option Record) :
    (s.set i q).find j = q := by
  rw [find, ← h]
  exact find_set_self s i q

theorem find_set_of_ne {i j : ℕ} (h : key i ≠ key j) (s : Store) (q : Option Record) :
    (s.set i q).find j = s.find j := Function.update_of_ne (Ne.symm h) ..

/-- A call reads and replaces the record of its own extent and no other. -/
theorem call_eq (s : Store) (now : ℕ) (c : Call) :
    s.call now c = (c.act now (s.find c.id)).map fun p => (p.1, s.set c.id p.2) := by
  have hset := s.set_find c.id
  cases c with
  | put id buf => rfl
  | get id => cases hf : s.find id <;> simp_all [call, get, Call.act, Call.id, Returned.of]
  | getattr id => cases hf : s.find id <;> simp_all [call, getattr, Call.act, Call.id, Returned.of]
  | remove id => cases hf : s.find id <;> simp_all [call, remove, Call.act, Call.id, Returned.of]
  | resize id newSize =>
    cases hf : s.find id <;> simp_all [call, resize, Call.act, Call.id, Returned.of]
  | getbuf id askSize off =>
    cases hf : s.find id with
    | none => simp_all [call, getbuf, Call.act, Call.id, Returned.of]
    | some q =>
      cases hs : sliced q.buf askSize off <;>
        simp_all [call, getbuf, Call.act, Call.id, Returned.of]
  | putbuf id off buf =>
    cases hf : s.find id with
    | none => simp_all [call, putbuf, Call.act, Call.id, Returned.of]
    | some q =>
      cases hs : written q.buf off buf <;>
        simp_all [call, putbuf, Call.act, Call.id, Returned.of]

theorem call_act {s t : Store} {now : ℕ} {c : Call} {r : Returned}
    (h : s.call now c = some (r, t)) :
    ∃ q, c.act now (s.find c.id) = some (r, q) ∧ t = s.set c.id q := by
  rw [call_eq] at h
  obtain ⟨⟨r', q⟩, hq, hp⟩ := Option.map_eq_some_iff.mp h
  cases hp
  exact ⟨q, hq, rfl⟩

end Store

theorem Call.act_failed {now : ℕ} {c : Call} {q q' : Option Record} {r : Returned}
    (h : c.act now q = some (r, q')) (hr : r.status ≠ .OK) : q' = q := by
  cases q with
  | none =>
    cases c with
    | put id buf =>
      cases h
      exact absurd rfl hr
    | _ =>
      cases h
      rfl
  | some p =>
    cases c with
    | getbuf id askSize off =>
      simp only [act] at h
      split at h
      · cases h
        rfl
      · cases h
        exact absurd rfl hr
    | putbuf id off buf =>
      obtain ⟨b, -, hb⟩ := Option.map_eq_some_iff.mp h
      cases hb
      exact absurd rfl hr
    | _ =>
      cases h
      exact absurd rfl hr

theorem Store.call_failed {s t : Store} {now : ℕ} {c : Call} {r : Returned}
    (h : s.call now c = some (r, t)) (hr : r.status ≠ .OK) : t = s := by
  obtain ⟨q, hq, rfl⟩ := call_act h
  rw [Call.act_failed hq hr, set_find]

theorem extentServer_step {start now : ℕ} {c : Call} {s t : Store}
    (h : (extentServer start).step s (now, c) = some t) : ∃ r, s.call now c = some (r, t) := by
  obtain ⟨⟨r, t'⟩, hr, rfl⟩ := Option.map_eq_some_iff.mp h
  exact ⟨r, hr⟩

/-! ## Sizes -/

/-- Every stored extent has as many bytes as its attributes say. -/
def Store.SizesReal (s : Store) : Prop :=
  ∀ id q, s.find id = some q → q.a.size = q.buf.length

/-- `getattr` reports the length of what `get` returns. -/
def Store.SizesReported (s : Store) : Prop :=
  ∀ id now, (s.getattr id).1 = .OK → (s.getattr id).2.size = (s.get now id).2.1.length

def Store.Short (s : Store) : Prop := ∀ id q, s.find id = some q → q.buf.length < 2 ^ 32

/-- An extent is only resized to the length it has. -/
def ResizeKeeps (s : Store) : ℕ × Call → Prop
  | (_, .resize id newSize) => ∀ q, s.find id = some q → newSize = q.buf.length
  | _ => True

theorem Store.SizesReal.reported {s : Store} (h : s.SizesReal) : s.SizesReported := by
  intro id now hok
  cases hf : s.find id with
  | none => simp [getattr, hf, Status.OK, Status.NOENT] at hok
  | some q => simpa [getattr, get, hf] using h id q hf

theorem Store.length_resized (b : Bytes) (n : ℕ) : (resized b n).length = n := by
  simp only [resized, List.length_append, List.length_take, List.length_replicate]
  omega

/-- Every call but `resize` records the length of the bytes it leaves. -/
theorem Call.act_size {now : ℕ} {c : Call} {q : Option Record} {r : Returned} {q' : Record}
    (hq : ∀ p, q = some p → p.a.size = p.buf.length) (hshort : q'.buf.length < 2 ^ 32)
    (hc : ∀ id n p, c = .resize id n → q = some p → n = p.buf.length)
    (h : c.act now q = some (r, some q')) : q'.a.size = q'.buf.length := by
  cases q with
  | none =>
    cases c with
    | put id buf =>
      cases h
      exact Nat.mod_eq_of_lt hshort
    | _ => cases h
  | some p =>
    have hp : p.a.size = p.buf.length := hq p rfl
    cases c with
    | put id buf =>
      cases h
      exact Nat.mod_eq_of_lt hshort
    | get id =>
      cases h
      exact hp
    | getattr id =>
      cases h
      exact hp
    | remove id => cases h
    | resize id n =>
      cases h
      rw [Store.length_resized, hc id n p rfl rfl, ← hp]
      split_ifs <;> rfl
    | getbuf id askSize off =>
      simp only [act] at h
      split at h <;> cases h <;> exact hp
    | putbuf id off buf =>
      obtain ⟨b, -, hb⟩ := Option.map_eq_some_iff.mp h
      cases hb
      exact Nat.mod_eq_of_lt hshort

theorem Store.find_init (start id : ℕ) : (Store.init start).find id =
    if key 1 = key id then some ⟨[], uint start, uint start, uint start, 0⟩ else none := by
  split_ifs with hk
  · exact find_set_of_key hk _ _
  · exact find_set_of_ne hk _ _

theorem sizesReal_init (start : ℕ) : (Store.init start).SizesReal := by
  intro id q hq
  rw [Store.find_init] at hq
  split_ifs at hq
  cases hq
  rfl

theorem sizesReal_step {s t : Store} {now : ℕ} {c : Call} {r : Returned} (hs : s.SizesReal)
    (hshort : t.Short) (hc : ResizeKeeps s (now, c)) (ht : s.call now c = some (r, t)) :
    t.SizesReal := by
  obtain ⟨p, hp, rfl⟩ := Store.call_act ht
  intro id q hq
  by_cases hk : key c.id = key id
  · rw [Store.find_set_of_key hk] at hq
    subst hq
    refine Call.act_size (hs c.id) (hshort c.id q (Store.find_set_self ..)) ?_ hp
    rintro i n p rfl hp
    exact hc p hp
  · rw [Store.find_set_of_ne hk] at hq
    exact hs id q hq

/-- `resize` leaves the recorded size alone, so a new length is not recorded. -/
theorem resizeKeeps_of_sizesReal {s : Store} {start now : ℕ} {c : Call} (hs : s.SizesReal)
    (h : ∀ t, (extentServer start).step s (now, c) = some t → t.SizesReal) :
    ResizeKeeps s (now, c) := by
  cases c with
  | resize id n =>
    intro q hq
    let a := if q.buf.length > n then { q.a with mtime := Store.uint now } else q.a
    have hstep : (extentServer start).step s (now, .resize id n) =
        some (s.set id (some ⟨Store.resized q.buf n, { a with ctime := Store.uint now }⟩)) := by
      simp [extentServer, Store.call, Store.resize, hq, a]
    have hreal : a.size = (Store.resized q.buf n).length :=
      h _ hstep id _ (Store.find_set_self ..)
    have hsize : a.size = q.a.size := by
      dsimp only [a]
      split_ifs <;> rfl
    rw [← hs id q hq, ← hsize, hreal, Store.length_resized]
  | _ => trivial

/-- In exactly those runs in which no existing extent is resized to another length, every state has
the real sizes recorded and reported. -/
theorem sizes_real_iff {start : ℕ} {cs : List (ℕ × Call)}
    (hshort : (extentServer start).Throughout Store.Short (extentServer start).init cs) :
    (extentServer start).Throughout (fun s => s.SizesReal ∧ s.SizesReported)
        (extentServer start).init cs ↔
      (extentServer start).Along ResizeKeeps (extentServer start).init cs := by
  refine Machine.Along.throughout_iff (I := Store.SizesReal) (fun s hs => ⟨hs, hs.reported⟩) ?_ ?_
    (sizesReal_init start) hshort.along_next
  · rintro s ⟨now, c⟩ t hs hv hc ht
    obtain ⟨r, hr⟩ := extentServer_step ht
    exact sizesReal_step hs (hv t ht) hc hr
  · rintro s ⟨now, c⟩ hs - h
    exact resizeKeeps_of_sizesReal hs fun t ht => (h t ht).1

theorem Store.Short.set {s : Store} (hs : s.Short) (id : ℕ) {q : Record}
    (hq : q.buf.length < 2 ^ 32) : (s.set id (some q)).Short := by
  intro j p hp
  by_cases hk : key id = key j
  · rw [find_set_of_key hk] at hp
    cases hp
    exact hq
  · rw [find_set_of_ne hk] at hp
    exact hs j p hp

theorem short_of_resize :
    (extentServer 0).Throughout Store.Short (extentServer 0).init [(5, .resize 1 0)] := by
  have hinit : (extentServer 0).init.Short := by
    intro id q hq
    have hfind : (Store.init 0).find id = some q := hq
    rw [Store.find_init] at hfind
    split_ifs at hfind
    cases hfind
    decide
  refine ⟨hinit, ?_⟩
  rintro _ ⟨⟩
  exact hinit.set 1 (by decide)

/-- A new server whose root extent is resized to the length it has. -/
theorem sizes_real_resized_to_same :
    (extentServer 0).Throughout Store.Short (extentServer 0).init [(5, .resize 1 0)] ∧
    ((extentServer 0).Throughout (fun s => s.SizesReal ∧ s.SizesReported)
        (extentServer 0).init [(5, .resize 1 0)] ↔
      (extentServer 0).Along ResizeKeeps (extentServer 0).init [(5, .resize 1 0)]) :=
  ⟨short_of_resize, sizes_real_iff short_of_resize⟩

/-- Resized to five bytes, the root extent still has the size 0. -/
theorem resize_not_reported :
    ¬ (extentServer 0).Throughout (fun s => s.SizesReal ∧ s.SizesReported)
      (extentServer 0).init [(5, .resize 1 5)] := by
  intro h
  have hreal : (0 : ℕ) = 5 := (h.2 _ rfl).1 1 _ rfl
  cases hreal

/-! ## Aliasing -/

inductive Call.Looks (j : ℕ) : Call → Prop where
  | get : Looks j (.get j)
  | getattr : Looks j (.getattr j)
  | getbuf (askSize off : ℕ) : Looks j (.getbuf j askSize off)

def Store.SameResults (s t : Store) (j : ℕ) : Prop :=
  ∀ now c, Call.Looks j c → (s.call now c).map Prod.fst = (t.call now c).map Prod.fst

theorem Call.Looks.id_eq {j : ℕ} {c : Call} (h : Looks j c) : c.id = j := by
  cases h <;> rfl

theorem Store.sameResults_of_find {s t : Store} {j : ℕ} (h : s.find j = t.find j) :
    s.SameResults t j := by
  intro now c hc
  simp only [call_eq, hc.id_eq, h, Option.map_map]
  rfl

/-- A `put` under one id shows under every id with the same 32 low bits. -/
theorem put_aliases {i j : ℕ} (h : key i = key j) (start : ℕ) :
    ∃ r t, (Store.init start).call 0 (.put i [1]) = some (r, t) ∧
      ¬ (Store.init start).SameResults t j := by
  refine ⟨_, _, rfl, fun hsame => ?_⟩
  have hget := congrArg (Option.map Returned.buf) (hsame 0 (.get j) .get)
  rw [Store.call_eq, Store.call_eq, Call.id, Store.find_set_of_key h, Store.find_init] at hget
  split_ifs at hget <;> simp [Call.act, Returned.of] at hget

/-- Operations on one extent never show in another one exactly when the ids differ in their 32 low
bits, which is what `store_table` keeps of them. -/
theorem extents_apart_iff (i j : ℕ) :
    (∀ start es s, (extentServer start).run es = some s → ∀ now c r t, c.id = i →
      s.call now c = some (r, t) → s.SameResults t j) ↔ key i ≠ key j := by
  constructor
  · intro h hk
    obtain ⟨r, t, ht, hne⟩ := put_aliases hk 0
    exact hne (h 0 [] _ rfl 0 _ r t rfl ht)
  · rintro hk start es s - now c r t rfl ht
    obtain ⟨q, -, rfl⟩ := Store.call_act ht
    exact Store.sameResults_of_find (Store.find_set_of_ne hk s q).symm

/-- Writing extent `2 ^ 32 + 1` on a new server overwrites the root directory. -/
theorem extents_alias :
    2 ^ 32 + 1 ≠ 1 ∧ (extentServer 0).run [] = some (Store.init 0) ∧
    ∃ r t, (Store.init 0).call 0 (.put (2 ^ 32 + 1) [1]) = some (r, t) ∧
      ¬ (Store.init 0).SameResults t 1 :=
  ⟨by decide, rfl, put_aliases (by decide) 0⟩

end YFS.Extent
