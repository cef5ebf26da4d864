import Mathlib.Tactic

/-! # Ordered maps

The comparison of a standard ordered container is a strict weak order. Comparisons lift to
pairs and, lexicographically, to lists. An ordered map is a list of entries whose keys
increase, with `insert` for the assignment `m[k] = x`. An iterator is the key of the element it
points to; it is lost with the element.
-/

namespace YFS.Library

/-- A strict weak order as a comparison function. -/
structure Comparator (α : Type*) where
  lt : α → α → Bool
  asymm : ∀ {a b}, lt a b = true → lt b a = false
  cotrans : ∀ {a c} (b), lt a c = true → lt a b = true ∨ lt b c = true

namespace Comparator

variable {α β : Type*} (c : Comparator α) (d : Comparator β)

theorem trans {x y z : α} (hxy : c.lt x y = true) (hyz : c.lt y z = true) : c.lt x z = true := by
  rcases c.cotrans z hxy with h | h
  · exact h
  · rw [c.asymm hyz] at h
    contradiction

def ofLinearOrder (α : Type*) [LinearOrder α] : Comparator α where
  lt a b := decide (a < b)
  asymm h := by simpa using le_of_lt (of_decide_eq_true h)
  cotrans {a e} b h := by
    have hae : a < e := of_decide_eq_true h
    rcases lt_or_ge a b with hab | hba
    · exact Or.inl (decide_eq_true hab)
    · exact Or.inr (decide_eq_true (lt_of_le_of_lt hba hae))

def comap (f : β → α) : Comparator β where
  lt a b := c.lt (f a) (f b)
  asymm h := c.asymm h
  cotrans b h := c.cotrans (f b) h

def pairLt (p q : α × β) : Bool := c.lt p.1 q.1 || (!c.lt q.1 p.1 && d.lt p.2 q.2)

def prod : Comparator (α × β) where
  lt := pairLt c d
  asymm {p q} h := by
    have h₁ := @asymm _ c p.1 q.1
    have h₂ := @asymm _ d p.2 q.2
    grind [pairLt]
  cotrans {p r} q h := by
    have h₁ := @cotrans _ c
    have h₂ := @cotrans _ d p.2 r.2 q.2
    grind [pairLt]

def listLt : List α → List α → Bool
  | _, [] => false
  | [], _ :: _ => true
  | a :: as, b :: bs => c.lt a b || (!c.lt b a && listLt as bs)

theorem listLt_asymm {as bs : List α} (h : c.listLt as bs = true) : c.listLt bs as = false := by
  induction as generalizing bs with
  | nil => cases bs <;> rfl
  | cons a as ih =>
    cases bs with
    | nil => simp [listLt] at h
    | cons b bs =>
      have hab := @asymm _ c a b
      grind [listLt]

theorem listLt_cotrans {as cs : List α} (bs : List α) (h : c.listLt as cs = true) :
    c.listLt as bs = true ∨ c.listLt bs cs = true := by
  induction as generalizing bs cs with
  | nil =>
    cases bs with
    | nil => exact Or.inr h
    | cons b bs => exact Or.inl rfl
  | cons a as ih =>
    cases cs with
    | nil => simp [listLt] at h
    | cons e cs =>
      cases bs with
      | nil => exact Or.inr rfl
      | cons b bs =>
        have hc := @cotrans _ c
        grind [listLt]

def list : Comparator (List α) where
  lt := c.listLt
  asymm := c.listLt_asymm
  cotrans := c.listLt_cotrans

end Comparator

def OrderedMap {κ : Type*} (c : Comparator κ) (β : Type*) : Type _ :=
  {l : List (κ × β) // l.Pairwise fun p q => c.lt p.1 q.1 = true}

namespace OrderedMap

variable {κ β : Type*} {c : Comparator κ}

/-- The entry goes in front of the first larger key; an equal key keeps its place and takes
the new value. -/
def insertEntry (c : Comparator κ) (k : κ) (x : β) : List (κ × β) → List (κ × β)
  | [] => [(k, x)]
  | (k', x') :: l =>
    if c.lt k k' then (k, x) :: (k', x') :: l
    else if c.lt k' k then (k', x') :: insertEntry c k x l
    else (k', x) :: l

theorem lt_of_mem_insertEntry {k k₀ : κ} {x : β} {l : List (κ × β)} {p : κ × β}
    (hk : c.lt k₀ k = true) (hl : ∀ q ∈ l, c.lt k₀ q.1 = true) (hp : p ∈ insertEntry c k x l) :
    c.lt k₀ p.1 = true := by
  induction l with
  | nil =>
    rw [insertEntry, List.mem_singleton] at hp
    exact hp ▸ hk
  | cons q l ih =>
    rw [insertEntry] at hp
    have hq := hl q List.mem_cons_self
    have hl' := fun r hr => hl r (List.mem_cons_of_mem q hr)
    split at hp <;> grind

theorem pairwise_insertEntry (k : κ) (x : β) {l : List (κ × β)}
    (h : l.Pairwise fun p q => c.lt p.1 q.1 = true) :
    (insertEntry c k x l).Pairwise fun p q => c.lt p.1 q.1 = true := by
  induction l with
  | nil => exact List.pairwise_singleton ..
  | cons q l ih =>
    rw [List.pairwise_cons] at h
    rw [insertEntry]
    split
    · rename_i hk
      refine List.pairwise_cons.mpr ⟨fun p hp => ?_, List.pairwise_cons.mpr h⟩
      rcases List.mem_cons.mp hp with rfl | hp
      · exact hk
      · exact c.trans hk (h.1 p hp)
    · split
      · rename_i hk
        exact List.pairwise_cons.mpr ⟨fun p hp => lt_of_mem_insertEntry hk h.1 hp, ih h.2⟩
      · exact List.pairwise_cons.mpr h

def empty : OrderedMap c β := ⟨[], List.Pairwise.nil⟩

/-- The map with another entry, as by `m[k] = x`. -/
def insert (m : OrderedMap c β) (k : κ) (x : β) : OrderedMap c β :=
  ⟨insertEntry c k x m.val, pairwise_insertEntry k x m.property⟩

theorem insertEntry_of_forall_lt (k : κ) (x : β) {l : List (κ × β)}
    (h : ∀ p ∈ l, c.lt p.1 k = true) : insertEntry c k x l = l ++ [(k, x)] := by
  induction l with
  | nil => rfl
  | cons q l ih =>
    have hq := h q List.mem_cons_self
    rw [insertEntry, if_neg (by simp [c.asymm hq]), if_pos hq,
      ih fun p hp => h p (List.mem_cons_of_mem q hp)]
    rfl

theorem foldl_insertEntry (l l' : List (κ × β))
    (h : (l ++ l').Pairwise fun p q => c.lt p.1 q.1 = true) :
    l'.foldl (fun m p => insertEntry c p.1 p.2 m) l = l ++ l' := by
  induction l' generalizing l with
  | nil => simp
  | cons q l' ih =>
    have hq : ∀ p ∈ l, c.lt p.1 q.1 = true := by
      intro p hp
      exact (List.pairwise_append.mp h).2.2 p hp q List.mem_cons_self
    rw [List.foldl_cons, insertEntry_of_forall_lt q.1 q.2 hq, ih (l ++ [q]) (by simpa using h)]
    simp

/-- A map is rebuilt by inserting its entries in their order. -/
theorem foldl_insert (m : OrderedMap c β) :
    m.val.foldl (fun m p => m.insert p.1 p.2) empty = m := by
  have hval : ∀ (l : List (κ × β)) (m₀ : OrderedMap c β),
      (l.foldl (fun m p => m.insert p.1 p.2) m₀).val =
        l.foldl (fun m p => insertEntry c p.1 p.2 m) m₀.val := by
    intro l
    induction l with
    | nil => exact fun _ => rfl
    | cons q l ih => exact fun m₀ => ih (m₀.insert q.1 q.2)
  apply Subtype.ext
  rw [hval]
  exact foldl_insertEntry [] m.val m.property

theorem perm_insertEntry {k : κ} (x : β) {l : List (κ × β)}
    (h : ∀ p ∈ l, c.lt k p.1 = true ∨ c.lt p.1 k = true) :
    (insertEntry c k x l).Perm ((k, x) :: l) := by
  induction l with
  | nil => exact List.Perm.refl _
  | cons q l ih =>
    obtain ⟨hq, hl⟩ := List.forall_mem_cons.mp h
    rw [insertEntry]
    split
    · exact List.Perm.refl _
    · rename_i hlt
      rw [if_pos (hq.resolve_left hlt)]
      exact ((ih hl).cons q).trans (List.Perm.swap (k, x) q l)

theorem nodup_keys (m : OrderedMap c β) : (m.val.map Prod.fst).Nodup := by
  rw [List.nodup_iff_pairwise_ne, List.pairwise_map]
  apply m.property.imp
  intro p q hlt heq
  rw [heq] at hlt
  exact absurd hlt (by rw [c.asymm hlt]; exact Bool.false_ne_true)

theorem notMem_before {m : OrderedMap c β} {k : κ} {x : β} {l l' : List (κ × β)}
    (h : m.val = l ++ (k, x) :: l') : ∀ p ∈ l, p.1 ≠ k := by
  have hnodup := m.nodup_keys
  rw [h, List.map_append, List.nodup_append'] at hnodup
  intro p hp heq
  exact hnodup.2.2 (List.mem_map_of_mem hp) (heq ▸ List.mem_cons_self)

section Iterators
variable [DecidableEq κ]

def erase (m : OrderedMap c β) (k : κ) : OrderedMap c β :=
  ⟨m.val.filter fun p => decide (p.1 ≠ k), m.property.filter _⟩

/-- `m.begin()`; `none` is `m.end()`. -/
def first (m : OrderedMap c β) : Option κ := m.val.head?.map Prod.fst

/-- `i->second` for the iterator to `k`; `none` if it points to no element. -/
def deref (m : OrderedMap c β) (k : κ) : Option β := m.val.lookup k

def nextKey (k : κ) : List (κ × β) → Option (Option κ)
  | [] => none
  | p :: l => if p.1 = k then some (l.head?.map Prod.fst) else nextKey k l

/-- `++i` for the iterator to `k`; `none` if it points to no element. -/
def next (m : OrderedMap c β) (k : κ) : Option (Option κ) := nextKey k m.val

variable {m : OrderedMap c β} {k : κ} {x : β} {l l' : List (κ × β)}

theorem deref_of_eq (h : m.val = l ++ (k, x) :: l') : m.deref k = some x := by
  have hbefore := notMem_before h
  rw [deref, h]
  clear h
  induction l with
  | nil => simp
  | cons p l ih =>
    obtain ⟨hp, hl⟩ := List.forall_mem_cons.mp hbefore
    have hk : (k == p.1) = false := by simpa using Ne.symm hp
    rw [List.cons_append, List.lookup_cons, hk]
    exact ih hl

theorem next_of_eq (h : m.val = l ++ (k, x) :: l') : m.next k = some (l'.head?.map Prod.fst) := by
  have hbefore := notMem_before h
  rw [next, h]
  clear h
  induction l with
  | nil => simp [nextKey]
  | cons p l ih =>
    obtain ⟨hp, hl⟩ := List.forall_mem_cons.mp hbefore
    rw [List.cons_append, nextKey, if_neg hp]
    exact ih hl

/-- An iterator to an erased element cannot be advanced. -/
theorem next_erase (m : OrderedMap c β) (k : κ) : (m.erase k).next k = none := by
  have hall : ∀ p ∈ (m.erase k).val, p.1 ≠ k := by
    intro p hp
    exact of_decide_eq_true (List.mem_filter.mp hp).2
  rw [next]
  generalize (m.erase k).val = l at hall
  induction l with
  | nil => rfl
  | cons p l ih =>
    obtain ⟨hp, hl⟩ := List.forall_mem_cons.mp hall
    rw [nextKey, if_neg hp]
    exact ih hl

end Iterators

end OrderedMap

end YFS.Library
