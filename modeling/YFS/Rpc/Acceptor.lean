import YFS.Library.OrderedMap
import YFS.Rpc.References.Model

/-! # The acceptor's connections

`tcpsconn` keeps the connections it has accepted in a map. Before it adds a new one,
`process_accept` goes through the map and lets go of those that are dead and to which nobody else
refers. The loop erases the element its iterator points to and then advances that iterator.
-/

namespace YFS.Rpc
open YFS.Library

/-- `connection::decref`: what is left of the connection, `some none` if it is deleted; `none` if
the `VERIFY` fails. -/
def Conn.decref (k : Conn) : Option (Option Conn) :=
  let k := { k with refno := k.refno - 1 }
  if k.refno < 0 then none else some (if k.refno = 0 ∧ k.dead then none else some k)

/-- The references that jobs and the map of latest connections give back are given back so. -/
theorem Refs.decref_eq {ι κ : Type} [DecidableEq κ] (s : Refs ι κ) (c : κ) :
    s.decref c = (s.conns c).bind fun k => k.decref.map (s.setConn c) := by
  cases hc : s.conns c with
  | none => simp only [Refs.decref, hc, Option.bind_eq_bind, Option.bind_none]
  | some k =>
    simp only [Refs.decref, Conn.decref, hc, Option.bind_eq_bind, Option.bind_some]
    split_ifs <;> rfl

def Conn.Collectable (k : Conn) : Prop := k.dead = true ∧ k.refno = 1

instance (k : Conn) : Decidable k.Collectable := inferInstanceAs (Decidable (_ ∧ _))

abbrev Conns := OrderedMap (Comparator.ofLinearOrder ℕ) Conn

/-- The map `conns_` and whether the thread has ended. `released` is no variable of the code: the
connections on which the loop has called `decref`, in their order. -/
structure Acceptor where
  conns : Conns
  exited : Bool
  released : List (ℕ × Conn)

namespace Acceptor

/-- The loop of `process_accept` with its iterator `i`, where `none` is `end()`. The result is
`none` where the loop uses an iterator whose element is gone, or is out of fuel. -/
def collect : ℕ → Acceptor → Option ℕ → Option Acceptor
  | 0, _, _ => none
  | _ + 1, s, none => some s
  | fuel + 1, s, some i => do
    let k ← s.conns.deref i
    let s ←
      if k.Collectable then do
        let _ ← k.decref
        some { s with conns := s.conns.erase i, released := s.released ++ [(i, k)] }
      else some s
    let i ← s.conns.next i
    collect fuel s i

/-- `tcpsconn::process_accept`. What `accept` returns is the descriptor with the new connection, or
`none` for an error. -/
def processAccept (fuel : ℕ) (s : Acceptor) : Option (ℕ × Conn) → Option Acceptor
  | none => some { s with exited := true }
  | some (s1, ch) => do
    let s ← s.collect fuel s.conns.first
    some { s with conns := s.conns.insert s1 ch }

/-- What the collection is for: the loop ends, having used no iterator to an erased element; the
connections that are dead with a reference count of one have been released, each once; the map
has the others and the new one. -/
def Collects (s : Acceptor) (s1 : ℕ) (ch : Conn) : Prop :=
  ∃ fuel t, s.processAccept fuel (some (s1, ch)) = some t ∧
    t.released = s.released ++ s.conns.val.filter (fun p => decide p.2.Collectable) ∧
    t.conns.val.Perm ((s1, ch) :: s.conns.val.filter fun p => decide (¬ p.2.Collectable))

/-! ## The loop -/

variable {s : Acceptor} {fuel : ℕ}

theorem collect_keep {i : ℕ} {k : Conn} {before after : List (ℕ × Conn)}
    (h : s.conns.val = before ++ (i, k) :: after) (hk : ¬ k.Collectable) :
    s.collect (fuel + 1) (some i) = s.collect fuel (after.head?.map Prod.fst) := by
  rw [collect, OrderedMap.deref_of_eq h]
  simp only [Option.bind_eq_bind, Option.bind_some, if_neg hk, OrderedMap.next_of_eq h]

/-- One round at an element that is erased: the iterator is gone when it is to be advanced. -/
theorem collect_erase {i : ℕ} {k : Conn} {before after : List (ℕ × Conn)}
    (h : s.conns.val = before ++ (i, k) :: after) (hk : k.Collectable) :
    s.collect fuel (some i) = none := by
  cases fuel with
  | zero => rfl
  | succ fuel =>
    have hdecref : k.decref = some none := by simp [Conn.decref, hk.1, hk.2]
    rw [collect, OrderedMap.deref_of_eq h]
    simp only [Option.bind_eq_bind, Option.bind_some, if_pos hk, hdecref, OrderedMap.next_erase,
      Option.bind_none]

theorem collect_of_forall {before after : List (ℕ × Conn)} (h : s.conns.val = before ++ after)
    (hk : ∀ p ∈ after, ¬ p.2.Collectable) :
    s.collect fuel (after.head?.map Prod.fst) = if after.length < fuel then some s else none := by
  induction after generalizing before fuel with
  | nil => cases fuel <;> simp [collect]
  | cons p after ih =>
    obtain ⟨hp, hafter⟩ := List.forall_mem_cons.mp hk
    cases fuel with
    | zero => rfl
    | succ fuel =>
      rw [List.head?_cons, Option.map_some, collect_keep h hp,
        ih (by rw [h, List.append_cons]) hafter]
      simp only [List.length_cons, Nat.add_lt_add_iff_right]

/-- The loop does not get past an element that it collects. -/
theorem collect_of_exists {before after : List (ℕ × Conn)} (h : s.conns.val = before ++ after)
    (hk : ∃ p ∈ after, p.2.Collectable) : s.collect fuel (after.head?.map Prod.fst) = none := by
  induction after generalizing before fuel with
  | nil =>
    obtain ⟨p, hp, -⟩ := hk
    cases hp
  | cons p after ih =>
    by_cases hp : p.2.Collectable
    · exact collect_erase h hp
    · cases fuel with
      | zero => rfl
      | succ fuel =>
        rw [List.head?_cons, Option.map_some, collect_keep h hp]
        refine ih (by rw [h, List.append_cons]) ?_
        obtain ⟨q, hq, hcollect⟩ := hk
        rcases List.mem_cons.mp hq with rfl | hq
        · exact absurd hcollect hp
        · exact ⟨q, hq, hcollect⟩

/-- A descriptor that is new makes one element more; one that is there takes the place of another
connection. -/
theorem insert_perm_iff (m : Conns) (s1 : ℕ) (ch : Conn) :
    (m.insert s1 ch).val.Perm ((s1, ch) :: m.val) ↔ ∀ p ∈ m.val, p.1 ≠ s1 := by
  constructor
  · intro hperm p hp heq
    have hnodup := (hperm.map Prod.fst).nodup_iff.mp (m.insert s1 ch).nodup_keys
    rw [List.map_cons, List.nodup_cons] at hnodup
    have hmem : p.1 ∈ m.val.map Prod.fst := List.mem_map_of_mem hp
    rw [heq] at hmem
    exact hnodup.1 hmem
  · intro hnew
    apply OrderedMap.perm_insertEntry
    intro p hp
    rcases lt_or_gt_of_ne (hnew p hp) with hlt | hgt
    · exact Or.inr (decide_eq_true hlt)
    · exact Or.inl (decide_eq_true hgt)

theorem processAccept_of_forall (hk : ∀ p ∈ s.conns.val, ¬ p.2.Collectable) (s1 : ℕ) (ch : Conn) :
    s.processAccept fuel (some (s1, ch)) =
      if s.conns.val.length < fuel then some { s with conns := s.conns.insert s1 ch } else none := by
  have hloop : s.collect fuel s.conns.first = _ := collect_of_forall (List.nil_append _).symm hk
  rw [processAccept, hloop]
  split <;> rfl

theorem processAccept_of_exists (hk : ∃ p ∈ s.conns.val, p.2.Collectable) (s1 : ℕ) (ch : Conn) :
    s.processAccept fuel (some (s1, ch)) = none := by
  have hloop : s.collect fuel s.conns.first = none :=
    collect_of_exists (List.nil_append _).symm hk
  rw [processAccept, hloop]
  rfl

/-- With nothing to collect it remains to add the new connection. -/
theorem collects_iff_of_forall (hk : ∀ p ∈ s.conns.val, ¬ p.2.Collectable) (s1 : ℕ) (ch : Conn) :
    s.Collects s1 ch ↔ ∀ p ∈ s.conns.val, p.1 ≠ s1 := by
  have hkept : s.conns.val.filter (fun p => decide (¬ p.2.Collectable)) = s.conns.val := by
    rw [List.filter_eq_self]
    exact fun p hp => decide_eq_true (hk p hp)
  have hnone : s.conns.val.filter (fun p => decide p.2.Collectable) = [] := by
    rw [List.filter_eq_nil_iff]
    exact fun p hp => by simpa using hk p hp
  rw [← insert_perm_iff s.conns s1 ch, Collects, hkept, hnone, List.append_nil]
  constructor
  · rintro ⟨fuel, t, ht, -, hperm⟩
    rw [processAccept_of_forall hk] at ht
    split at ht
    · cases ht
      exact hperm
    · cases ht
  · intro hperm
    refine ⟨s.conns.val.length + 1, { s with conns := s.conns.insert s1 ch }, ?_, rfl, hperm⟩
    rw [processAccept_of_forall hk, if_pos (Nat.lt_succ_self _)]

end Acceptor

/-- `process_accept` collects what it should in exactly those states in which there is nothing to
collect (and the new descriptor is not that of a connection in the map, as long as those are
open). -/
theorem collects_iff (s : Acceptor) (s1 : ℕ) (ch : Conn) :
    s.Collects s1 ch ↔
      (∀ p ∈ s.conns.val, ¬ p.2.Collectable) ∧ ∀ p ∈ s.conns.val, p.1 ≠ s1 := by
  by_cases hk : ∀ p ∈ s.conns.val, ¬ p.2.Collectable
  · rw [Acceptor.collects_iff_of_forall hk]
    exact ⟨fun hnew => ⟨hk, hnew⟩, And.right⟩
  · refine ⟨fun hc => ?_, fun h => absurd h.1 hk⟩
    push Not at hk
    obtain ⟨fuel, t, ht, -⟩ := hc
    rw [Acceptor.processAccept_of_exists hk] at ht
    cases ht

/-- One connection, on descriptor 5, is dead and only the map refers to it; a new one is accepted
on descriptor 6. -/
theorem erased_iterator_advanced :
    ¬ Acceptor.Collects ⟨⟨[(5, ⟨true, 1, 0, 0⟩)], by decide⟩, false, []⟩ 6 ⟨false, 1, 1, 0⟩ ∧
    ∀ fuel, Acceptor.processAccept fuel ⟨⟨[(5, ⟨true, 1, 0, 0⟩)], by decide⟩, false, []⟩
      (some (6, ⟨false, 1, 1, 0⟩)) = none := by
  have hk : ∃ p ∈ [(5, (⟨true, 1, 0, 0⟩ : Conn))], p.2.Collectable :=
    ⟨_, List.mem_singleton_self _, rfl, rfl⟩
  refine ⟨?_, fun fuel => Acceptor.processAccept_of_exists hk 6 _⟩
  rintro ⟨fuel, t, ht, -⟩
  rw [Acceptor.processAccept_of_exists hk] at ht
  cases ht

end YFS.Rpc
