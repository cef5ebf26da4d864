import YFS.Fs.Standing

/-! # The sizes of the extents and of the files -/

namespace YFS.Fuse
open YFS.Library YFS.Extent YFS.Fs

/-! ## The recorded sizes

`yfs_client` never calls the server's `resize`, the one operation that leaves the recorded size
alone. -/

/-- The recorded size is the length, as an `unsigned int`. -/
def Sized (s : Store) : Prop := ∀ k r, s k = some r → r.a.size = Store.uint r.buf.length

namespace Sized
variable {s : Store} (h : Sized s)
include h

theorem set (id : ℕ) {v : Option Record}
    (hv : ∀ r, v = some r → r.a.size = Store.uint r.buf.length) : Sized (s.set id v) := by
  intro k r hr
  rw [Store.set] at hr
  by_cases hk : k = key id
  · rw [hk, Function.update_self] at hr
    exact hv r hr
  · rw [Function.update_of_ne hk] at hr
    exact h k r hr

theorem touch {id : ℕ} {r : Record} (hr : s.find id = some r) (now : ℕ) :
    Sized (s.set id (some { r with a := { r.a with atime := now } })) := by
  apply h.set
  intro r' hr'
  cases hr'
  exact h (key id) r hr

theorem put (now id : ℕ) (buf : Bytes) : Sized (s.put now id buf).2 := by
  apply h.set
  intro r hr
  cases hr
  rfl

theorem get (now id : ℕ) : Sized (s.get now id).2.2 := by
  rw [Store.get]
  split
  · exact h
  · rename_i r hr
    exact h.touch hr _

theorem remove (id : ℕ) : Sized (s.remove id).2 := by
  rw [Store.remove]
  split
  · exact h
  · apply h.set
    intro r hr
    cases hr

theorem getbuf (now id askSize off : ℕ) : Sized (s.getbuf now id askSize off).2.2 := by
  rw [Store.getbuf]
  split
  · exact h
  · rename_i r hr
    split
    · exact h
    · exact h.touch hr _

theorem putbuf {now id off : ℕ} {buf : Bytes} {st : Status} {s' : Store}
    (hs : s.putbuf now id off buf = some (st, s')) : Sized s' := by
  rw [Store.putbuf] at hs
  split at hs
  · cases hs
    exact h
  · obtain ⟨b, -, heq⟩ := Option.map_eq_some_iff.mp hs
    cases heq
    apply h.set
    intro r hr
    cases hr
    rfl

omit h in
theorem run (p : Prog) (e : Env) {s : Store} (h : Sized s) : Sized (p.run e s).2 := by
  induction p generalizing e s with
  | done r => exact h
  | throw => exact h
  | acquire lid next ih => exact ih 0 e h
  | release lid next ih => exact ih e h
  | get id next ih =>
    rw [Prog.run]
    split
    · exact ih _ _ _ h
    · exact ih _ _ _ (h.get _ _)
  | put id buf next ih =>
    rw [Prog.run]
    split
    · exact ih _ _ h
    · exact ih _ _ (h.put _ _ _)
  | remove id next ih =>
    rw [Prog.run]
    split
    · exact ih _ _ h
    · exact ih _ _ (h.remove _)
  | getbuf id askSize off next ih =>
    rw [Prog.run]
    split
    · exact ih _ _ _ h
    · exact ih _ _ _ (h.getbuf _ _ _ _)
  | putbuf id off buf next ih =>
    rw [Prog.run]
    split
    · exact ih _ _ h
    · split
      · exact h
      · rename_i st s' hs
        exact ih _ _ (h.putbuf hs)
  | newInum parent isfile next ih =>
    rw [Prog.run]
    split
    · exact h
    · exact ih _ _ h

omit h in
theorem init (start : ℕ) : Sized (Store.init start) := by
  apply put
  intro k r hr
  cases hr

end Sized

/-! ## Files of less than `2 ^ 32` bytes -/

/-- The lengths of the files are `unsigned int`s. -/
def Short (t : Tree) : Prop := ∀ k b, t k = some (.file b) → b.length < 2 ^ 32

namespace Short
variable {t : Tree} (h : Short t)
include h

theorem update (k : ℕ) {v : Option Node} (hv : ∀ b, v = some (.file b) → b.length < 2 ^ 32) :
    Short (Function.update t k v) := by
  intro j b hj
  by_cases hjk : j = k
  · rw [hjk, Function.update_self] at hj
    exact hv b hj
  · rw [Function.update_of_ne hjk] at hj
    exact h j b hj

theorem add (parent : ℕ) (name : Bytes) (isfile' : Bool) (new : Option ℕ) :
    Short (t.add parent name isfile' new).2 := by
  rw [Tree.add]
  split
  · split
    · exact h
    · split
      · exact h
      · apply Short.update
        · apply h.update
          intro b hb
          cases isfile' <;> cases hb
          exact Nat.two_pow_pos 32
        · intro b hb
          cases hb
  · exact h

theorem remove (parent : ℕ) (name : Bytes) : Short (t.remove parent name).2 := by
  rw [Tree.remove]
  split
  · split
    · exact h
    · apply Short.update
      · apply h.update
        intro b hb
        cases hb
      · intro b hb
        cases hb
  · exact h

theorem resize (target : ℕ) {newSize : ℕ} (hn : newSize < 2 ^ 32) :
    Short (t.resize target newSize).2 := by
  rw [Tree.resize]
  split
  · apply h.update
    intro b hb
    cases hb
    rwa [Files.resized, Files.length_tabulate]
  · exact h

theorem write {target offset : ℕ} {buf : Bytes} (ho : offset + buf.length < 2 ^ 32) :
    Short (t.write target buf offset).2 := by
  rw [Tree.write]
  split
  · rename_i b hb
    apply h.update
    intro b' hb'
    cases hb'
    rw [Files.overwritten, Files.length_tabulate]
    exact max_lt (h target b hb) ho
  · exact h

theorem exec {q : Fs.Request} (hq : q.Short)
    (hsize : ∀ target newSize, q.call = .resize target newSize → newSize < 2 ^ 32) :
    Short (t.exec q).2 := by
  obtain ⟨call, rs⟩ := q
  cases call with
  | create parent name => exact h.add _ _ _ _
  | mkadir parent name => exact h.add _ _ _ _
  | remove parent name => exact h.remove _ _
  | lookup parent name => exact h
  | readir parent => exact h
  | resize target newSize => exact h.resize target (hsize target newSize rfl)
  | read target size offset => exact h
  | write target buf offset => exact h.write hq.2

end Short

theorem short_init : Short Tree.init := by
  intro k b hk
  rw [Tree.init] at hk
  by_cases h1 : k = 1
  · rw [h1, Function.update_self] at hk
    cases hk
  · rw [Function.update_of_ne h1] at hk
    cases hk

end YFS.Fuse
