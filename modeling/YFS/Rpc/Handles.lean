import YFS.Library.Machine
import YFS.Library.Tally
import YFS.Rpc.Deadline

/-! # The cache of RPC handles

A `handle` points to the `hinfo` of its destination, which holds the `rpcc` that `safebind` has
bound. `get_handle`, `done_handle` and `delete_handle` are each one step under `handle_mutex`.
`safebind` takes the `cl_mutex` of the `hinfo`; while it binds, other threads go on. The mark `del`
is set under either mutex.
-/

namespace YFS.Rpc
open YFS.Library

/-- `binder` stands for `cl_mutex`: the handle through which a `safebind` holds it, with the `rpcc`
it binds. -/
structure Hinfo (δ ι : Type*) where
  cl : Option ℕ
  refcnt : ℤ
  del : Bool
  m : δ
  binder : Option (ι × ℕ)

/-- The objects `hinfo` and `rpcc` have the numbers in which they were made; an `rpcc` that exists
is there with the `hinfo` it was made for. A handle that exists has the pointer `h`, where `none`
is `NULL`. `destroyed` is no variable of the code: the `hinfo`s that have been deleted. -/
structure Handles (δ ι : Type*) where
  infos : ℕ → Option (Hinfo δ ι)
  hmap : δ → Option ℕ
  handles : ι → Option (Option ℕ)
  rpccs : ℕ → Option ℕ
  infosMade : ℕ
  rpccsMade : ℕ
  destroyed : List ℕ

inductive HandleEvent (δ ι : Type*) where
  | construct (k : ι) (m : δ)
  | safebind (k : ι)
  /-- the `bind` of a `safebind` returns -/
  | bound (k : ι) (ret : ℤ)
  | destruct (k : ι)
  | deleteHandle (m : δ)

namespace Handles
variable {δ ι : Type*} [DecidableEq δ] [DecidableEq ι]

def setInfo (s : Handles δ ι) (h : ℕ) (i : Hinfo δ ι) : Handles δ ι :=
  { s with infos := Function.update s.infos h (some i) }

/-- `handle_mgr::get_handle`; `none` if it uses an `hinfo` that has been deleted. -/
def getHandle (s : Handles δ ι) (m : δ) : Option (Option ℕ × Handles δ ι) :=
  match s.hmap m with
  | none =>
    some (some s.infosMade,
      { s.setInfo s.infosMade ⟨none, 1, false, m, none⟩ with
        hmap := Function.update s.hmap m (some s.infosMade)
        infosMade := s.infosMade + 1 })
  | some h => do
    let i ← s.infos h
    if i.del = false then some (some h, s.setInfo h { i with refcnt := int32 (i.refcnt + 1) })
    else some (none, s)

/-- The branch of `delete_handle_wo` that deletes the `hinfo` and its `rpcc`. -/
def delete (s : Handles δ ι) (m : δ) (h : ℕ) (cl : Option ℕ) : Handles δ ι :=
  { s with
    infos := Function.update s.infos h none
    hmap := Function.update s.hmap m none
    rpccs := match cl with
      | some r => Function.update s.rpccs r none
      | none => s.rpccs
    destroyed := s.destroyed ++ [h] }

def deleteHandleWo (s : Handles δ ι) (m : δ) : Option (Handles δ ι) :=
  match s.hmap m with
  | none => some s
  | some h => do
    let i ← s.infos h
    if i.refcnt = 0 then some (s.delete m h i.cl)
    else some (s.setInfo h { i with del := true })

def doneHandle (s : Handles δ ι) (h : ℕ) : Option (Handles δ ι) := do
  let i ← s.infos h
  let i := { i with refcnt := int32 (i.refcnt - 1) }
  if i.refcnt = 0 ∧ i.del = true then (s.setInfo h i).deleteHandleWo i.m else some (s.setInfo h i)

/-- `handle::safebind` up to `bind`, or to its end. It has returned with the pointer that is first,
or else it waits for the mutex or binds. -/
def safebind (s : Handles δ ι) (k : ι) : Option (Option (Option ℕ) × Handles δ ι) :=
  match s.handles k with
  | none => some (none, s)
  | some none => some (some none, s)
  | some (some h) => do
    let i ← s.infos h
    if i.binder.isSome then some (none, s)
    else if i.del then some (some none, s)
    else if i.cl.isSome then some (some i.cl, s)
    else some (none,
      { s.setInfo h { i with binder := some (k, s.rpccsMade) } with
        rpccs := Function.update s.rpccs s.rpccsMade (some h)
        rpccsMade := s.rpccsMade + 1 })

/-- The rest of `handle::safebind`, with what `bind` returns. -/
def bound (s : Handles δ ι) (k : ι) (ret : ℤ) : Option (Option (Option ℕ) × Handles δ ι) :=
  match s.handles k with
  | some (some h) => do
    let i ← s.infos h
    match i.binder with
    | some (k', r) =>
      if k' = k then
        if ret < 0 then
          some (some i.cl,
            { s.setInfo h { i with del := true, binder := none } with
              rpccs := Function.update s.rpccs r none })
        else some (some (some r), s.setInfo h { i with cl := some r, binder := none })
      else some (none, s)
    | none => some (none, s)
  | _ => some (none, s)

/-- `handle::~handle`. A handle in use by a `safebind` must not be destructed. -/
def destruct (s : Handles δ ι) (k : ι) : Option (Handles δ ι) :=
  match s.handles k with
  | none => some s
  | some none => some { s with handles := Function.update s.handles k none }
  | some (some h) => do
    let i ← s.infos h
    if i.binder.map Prod.fst = some k then some s
    else doneHandle { s with handles := Function.update s.handles k none } h

/-- One step, `none` if it uses an `hinfo` that has been deleted; an event that is not possible
changes nothing. -/
def step (s : Handles δ ι) : HandleEvent δ ι → Option (Handles δ ι)
  | .construct k m =>
    match s.handles k with
    | none => do
      let (h, s) ← s.getHandle m
      some { s with handles := Function.update s.handles k (some h) }
    | some _ => some s
  | .safebind k => (s.safebind k).map Prod.snd
  | .bound k ret => (s.bound k ret).map Prod.snd
  | .destruct k => s.destruct k
  | .deleteHandle m => s.deleteHandleWo m

end Handles

def handleMgr (δ ι : Type*) [DecidableEq δ] [DecidableEq ι] :
    Machine (Handles δ ι) (HandleEvent δ ι) where
  init := ⟨fun _ => none, fun _ => none, fun _ => none, fun _ => none, 0, 0, []⟩
  step := Handles.step

namespace Handles
variable {δ ι : Type*}

structure Sound (s : Handles δ ι) : Prop where
  /-- the count is the number of live handles that point there -/
  counted : ∀ h i, s.infos h = some i →
    ∃ T : Finset ι, (∀ k, k ∈ T ↔ s.handles k = some (some h)) ∧ i.refcnt = T.card
  /-- what a live handle points to has not been destroyed -/
  pointed : ∀ k h, s.handles k = some (some h) → ∃ i, s.infos h = some i
  /-- what is marked as deleted and has no live handle is gone -/
  marked : ∀ h i, s.infos h = some i → i.del = true → ∃ k, s.handles k = some (some h)
  /-- the map points to the `hinfo` of the destination -/
  mapped : ∀ m h, s.hmap m = some h → ∃ i, s.infos h = some i ∧ i.m = m
  /-- the `rpcc` that an `hinfo` holds has not been destroyed -/
  bound : ∀ h i r, s.infos h = some i → i.cl = some r → s.rpccs r = some h
  /-- nothing is destroyed twice -/
  once : s.destroyed.Nodup ∧ ∀ h ∈ s.destroyed, s.infos h = none

/-- A step destroys the `hinfo` `h`, with the `rpcc` it holds: no live handle points to it, and it
was marked as deleted or is explicitly deleted. -/
def Destroys (s : Handles δ ι) (e : HandleEvent δ ι) (t : Handles δ ι) (h : ℕ) : Prop :=
  ∃ i, s.infos h = some i ∧ t.infos h = none ∧ t.destroyed = s.destroyed ++ [h] ∧
    (∀ k, t.handles k ≠ some (some h)) ∧ (i.del = true ∨ e = .deleteHandle i.m) ∧
    ∀ r, i.cl = some r → t.rpccs r = none

/-- The step uses no `hinfo` that has been deleted. What it destroys, it may. -/
def Lawful [DecidableEq δ] [DecidableEq ι] (s : Handles δ ι) (e : HandleEvent δ ι) : Prop :=
  ∃ t, s.step e = some t ∧
    (t.destroyed = s.destroyed ∨ ∃ h, s.Destroys e t h) ∧
    ∀ h i, s.infos h = some i → t.infos h = none → s.Destroys e t h

/-- No `hinfo` gets more handles than an `int` can count. -/
def Room (s : Handles δ ι) : HandleEvent δ ι → Prop
  | .construct k m => s.handles k = none → ∀ h ∈ s.hmap m, ∀ i ∈ s.infos h, i.del = false →
      i.refcnt + 1 < 2 ^ 31
  | _ => True

/-! ## The invariant -/

def held (s : Handles δ ι) (k : ι) : Option ℕ := (s.handles k).join

def count (s : Handles δ ι) (h : ℕ) : ℤ := (s.infos h).elim 0 Hinfo.refcnt

end Handles

/-- The `rpcc` that an `hinfo` holds, or that is being bound for it. -/
def Hinfo.Owns {δ ι : Type*} (i : Hinfo δ ι) (r : ℕ) : Prop :=
  i.cl = some r ∨ ∃ k, i.binder = some (k, r)

namespace Handles
variable {δ ι : Type*}

structure InfoOk (s : Handles δ ι) (h : ℕ) (i : Hinfo δ ι) : Prop where
  small : i.refcnt < 2 ^ 31
  found : s.hmap i.m = some h
  marked : i.del = true → 0 < i.refcnt
  owned : ∀ r, i.Owns r → s.rpccs r = some h
  binder : ∀ k r, i.binder = some (k, r) → i.cl = none ∧ s.handles k = some (some h)

structure Inv (s : Handles δ ι) : Prop where
  tally : Tally s.held s.count
  infos : ∀ h i, s.infos h = some i → s.InfoOk h i
  mapped : ∀ m h, s.hmap m = some h → ∃ i, s.infos h = some i ∧ i.m = m
  made : ∀ h, s.infosMade ≤ h → s.infos h = none
  rpccsMade : ∀ r, s.rpccsMade ≤ r → s.rpccs r = none
  destroyed : s.destroyed.Nodup ∧ ∀ h ∈ s.destroyed, s.infos h = none ∧ h < s.infosMade

variable {s t : Handles δ ι} {e : HandleEvent δ ι} {h : ℕ} {i : Hinfo δ ι} {k : ι}

theorem held_eq_some : s.held k = some h ↔ s.handles k = some (some h) := by
  rw [held, Option.join_eq_some_iff]

theorem count_of_some (hi : s.infos h = some i) : s.count h = i.refcnt := by
  rw [count, hi, Option.elim_some]

theorem Inv.counted (hs : s.Inv) (hi : s.infos h = some i) :
    ∃ T : Finset ι, (∀ k, k ∈ T ↔ s.handles k = some (some h)) ∧ i.refcnt = T.card := by
  obtain ⟨T, hT, hcard⟩ := hs.tally.holders h
  rw [count_of_some hi] at hcard
  exact ⟨T, fun k => (hT k).trans held_eq_some, hcard⟩

theorem Inv.refcnt_nonneg (hs : s.Inv) (hi : s.infos h = some i) : 0 ≤ i.refcnt := by
  obtain ⟨T, -, hcard⟩ := hs.counted hi
  rw [hcard]
  exact Int.natCast_nonneg _

theorem Inv.pointed (hs : s.Inv) (hk : s.handles k = some (some h)) :
    ∃ i, s.infos h = some i ∧ 1 ≤ i.refcnt := by
  have hpos := hs.tally.pos (held_eq_some.mpr hk)
  cases hi : s.infos h with
  | none => simp [count, hi] at hpos
  | some i => exact ⟨i, rfl, count_of_some hi ▸ hpos⟩

theorem Inv.unpointed (hs : s.Inv) (hi : s.infos h = some i) (hzero : i.refcnt = 0) (k : ι) :
    s.handles k ≠ some (some h) := by
  intro hk
  obtain ⟨j, hj, hpos⟩ := hs.pointed hk
  rw [hi] at hj
  cases hj
  omega

theorem Inv.sound (hs : s.Inv) : s.Sound where
  counted _ _ hi := hs.counted hi
  pointed k h hk := by
    obtain ⟨i, hi, -⟩ := hs.pointed hk
    exact ⟨i, hi⟩
  marked h i hi hdel := by
    obtain ⟨T, hT, hcard⟩ := hs.counted hi
    have hpos := (hs.infos h i hi).marked hdel
    obtain ⟨k, hk⟩ : T.Nonempty := by
      rw [← Finset.card_pos]
      omega
    exact ⟨k, (hT k).mp hk⟩
  mapped := hs.mapped
  bound h i r hi hr := (hs.infos h i hi).owned r (.inl hr)
  once := ⟨hs.destroyed.1, fun h hh => (hs.destroyed.2 h hh).1⟩

theorem Inv.init [DecidableEq δ] [DecidableEq ι] : (handleMgr δ ι).init.Inv where
  tally := Tally.nobody
  infos := nofun
  mapped := nofun
  made _ _ := rfl
  rpccsMade _ _ := rfl
  destroyed := ⟨List.nodup_nil, nofun⟩

/-! ## What a step can do -/

section Moves
variable [DecidableEq δ] [DecidableEq ι]

/-- One step from a state with the invariant, by what it does. -/
inductive Moves (s : Handles δ ι) : HandleEvent δ ι → Handles δ ι → Prop
  | same (e : HandleEvent δ ι) : Moves s e s
  | first (k : ι) (m : δ) (hk : s.handles k = none) (hm : s.hmap m = none) :
    Moves s (.construct k m)
      { s.setInfo s.infosMade ⟨none, 1, false, m, none⟩ with
        hmap := Function.update s.hmap m (some s.infosMade)
        infosMade := s.infosMade + 1
        handles := Function.update s.handles k (some (some s.infosMade)) }
  | another (k : ι) (m : δ) (h : ℕ) (i : Hinfo δ ι) (hk : s.handles k = none)
      (hi : s.infos h = some i) (hroom : i.refcnt + 1 < 2 ^ 31) :
    Moves s (.construct k m)
      { s.setInfo h { i with refcnt := i.refcnt + 1 } with
        handles := Function.update s.handles k (some (some h)) }
  | null (e : HandleEvent δ ι) (k : ι) (v : Option (Option ℕ)) (hk : s.held k = none)
      (hv : v.join = none) : Moves s e { s with handles := Function.update s.handles k v }
  | begin (k : ι) (h : ℕ) (i : Hinfo δ ι) (hk : s.handles k = some (some h))
      (hi : s.infos h = some i) (hb : i.binder = none) (hcl : i.cl = none) :
    Moves s (.safebind k)
      { s.setInfo h { i with binder := some (k, s.rpccsMade) } with
        rpccs := Function.update s.rpccs s.rpccsMade (some h)
        rpccsMade := s.rpccsMade + 1 }
  | bound (k : ι) (ret : ℤ) (h : ℕ) (i : Hinfo δ ι) (r : ℕ) (hi : s.infos h = some i)
      (hb : i.binder = some (k, r)) :
    Moves s (.bound k ret) (s.setInfo h { i with cl := some r, binder := none })
  | failed (k : ι) (ret : ℤ) (h : ℕ) (i : Hinfo δ ι) (r : ℕ) (hi : s.infos h = some i)
      (hb : i.binder = some (k, r)) :
    Moves s (.bound k ret)
      { s.setInfo h { i with del := true, binder := none } with
        rpccs := Function.update s.rpccs r none }
  | leave (k : ι) (h : ℕ) (i : Hinfo δ ι) (hk : s.handles k = some (some h))
      (hi : s.infos h = some i) (hb : i.binder.map Prod.fst ≠ some k)
      (hstay : i.del = true → i.refcnt ≠ 1) :
    Moves s (.destruct k)
      { s.setInfo h { i with refcnt := i.refcnt - 1 } with
        handles := Function.update s.handles k none }
  | last (k : ι) (h : ℕ) (i : Hinfo δ ι) (hk : s.handles k = some (some h))
      (hi : s.infos h = some i) (hone : i.refcnt = 1) (hdel : i.del = true) :
    Moves s (.destruct k)
      { s.delete i.m h i.cl with handles := Function.update s.handles k none }
  | erase (h : ℕ) (i : Hinfo δ ι) (hi : s.infos h = some i) (hzero : i.refcnt = 0) :
    Moves s (.deleteHandle i.m) (s.delete i.m h i.cl)
  | mark (m : δ) (h : ℕ) (i : Hinfo δ ι) (hi : s.infos h = some i) (hne : i.refcnt ≠ 0) :
    Moves s (.deleteHandle m) (s.setInfo h { i with del := true })

theorem int32_of_lt {x : ℤ} (hlo : 0 ≤ x) (hhi : x < 2 ^ 31) : int32 x = x := by
  rw [int32]
  apply Int.bmod_eq_of_le <;> omega

theorem step_construct_unmarked {m : δ} (hk : s.handles k = none) (hm : s.hmap m = some h)
    (hi : s.infos h = some i) (hdel : i.del = false) :
    s.step (.construct k m) = some
      { s.setInfo h { i with refcnt := int32 (i.refcnt + 1) } with
        handles := Function.update s.handles k (some (some h)) } := by
  simp only [step, getHandle, hk, hm, hi, Option.bind_eq_bind, Option.bind_some, if_pos hdel,
    setInfo]

theorem Inv.step_construct (hs : s.Inv) {m : δ} (he : s.Room (.construct k m)) :
    ∃ t, s.step (.construct k m) = some t ∧ Moves s (.construct k m) t := by
  cases hk : s.handles k with
  | some v =>
    refine ⟨s, ?_, .same _⟩
    simp only [step, hk]
  | none =>
    cases hm : s.hmap m with
    | none =>
      refine ⟨_, ?_, .first k m hk hm⟩
      simp only [step, getHandle, hk, hm, Option.bind_eq_bind, Option.bind_some]
      rfl
    | some h =>
      obtain ⟨i, hi, -⟩ := hs.mapped m h hm
      by_cases hdel : i.del = false
      · have hroom : i.refcnt + 1 < 2 ^ 31 := he hk h hm i hi hdel
        have hnonneg := hs.refcnt_nonneg hi
        rw [step_construct_unmarked hk hm hi hdel, int32_of_lt (by omega) hroom]
        exact ⟨_, rfl, .another k m h i hk hi hroom⟩
      · refine ⟨_, ?_, .null _ k (some none) (by rw [held, hk]; rfl) rfl⟩
        simp only [step, getHandle, hk, hm, hi, Option.bind_eq_bind, Option.bind_some, if_neg hdel]

theorem Inv.step_safebind (hs : s.Inv) (k : ι) :
    ∃ t, s.step (.safebind k) = some t ∧ Moves s (.safebind k) t := by
  simp only [step, safebind]
  rcases hk : s.handles k with _ | _ | h
  · exact ⟨s, rfl, .same _⟩
  · exact ⟨s, rfl, .same _⟩
  · obtain ⟨i, hi, -⟩ := hs.pointed hk
    simp only [hi, Option.bind_eq_bind, Option.bind_some]
    split_ifs with hb hdel hcl
    · exact ⟨s, rfl, .same _⟩
    · exact ⟨s, rfl, .same _⟩
    · exact ⟨s, rfl, .same _⟩
    · exact ⟨_, rfl, .begin k h i hk hi (by simpa using hb) (by simpa using hcl)⟩

theorem Inv.step_bound (hs : s.Inv) (k : ι) (ret : ℤ) :
    ∃ t, s.step (.bound k ret) = some t ∧ Moves s (.bound k ret) t := by
  simp only [step, Handles.bound]
  rcases hk : s.handles k with _ | _ | h
  · exact ⟨s, rfl, .same _⟩
  · exact ⟨s, rfl, .same _⟩
  · obtain ⟨i, hi, -⟩ := hs.pointed hk
    simp only [hi, Option.bind_eq_bind, Option.bind_some]
    cases hb : i.binder with
    | none => exact ⟨s, rfl, .same _⟩
    | some b =>
      obtain ⟨k', r⟩ := b
      dsimp only
      split_ifs with hkk hret
      · subst hkk
        exact ⟨_, rfl, .failed k' ret h i r hi hb⟩
      · subst hkk
        exact ⟨_, rfl, .bound k' ret h i r hi hb⟩
      · exact ⟨s, rfl, .same _⟩

theorem Inv.step_deleteHandle (hs : s.Inv) (m : δ) :
    ∃ t, s.step (.deleteHandle m) = some t ∧ Moves s (.deleteHandle m) t := by
  simp only [step, deleteHandleWo]
  cases hm : s.hmap m with
  | none => exact ⟨s, rfl, .same _⟩
  | some h =>
    obtain ⟨i, hi, rfl⟩ := hs.mapped m h hm
    simp only [hi, Option.bind_eq_bind, Option.bind_some]
    split_ifs with hzero
    · exact ⟨_, rfl, .erase h i hi hzero⟩
    · exact ⟨_, rfl, .mark i.m h i hi hzero⟩

theorem Inv.step_destruct (hs : s.Inv) (k : ι) :
    ∃ t, s.step (.destruct k) = some t ∧ Moves s (.destruct k) t := by
  simp only [step, destruct]
  rcases hk : s.handles k with _ | _ | h
  · exact ⟨s, rfl, .same _⟩
  · exact ⟨_, rfl, .null _ k none (by rw [held, hk]; rfl) rfl⟩
  · obtain ⟨i, hi, hpos⟩ := hs.pointed hk
    have hok := hs.infos h i hi
    have hint : int32 (i.refcnt - 1) = i.refcnt - 1 :=
      int32_of_lt (by omega) (by linarith [hok.small])
    simp only [hi, Option.bind_eq_bind, Option.bind_some]
    split_ifs with hb
    · exact ⟨s, rfl, .same _⟩
    · simp only [doneHandle, hi, Option.bind_eq_bind, Option.bind_some, hint]
      split_ifs with hlast
      · have hone : i.refcnt = 1 := by omega
        refine ⟨{ s.delete i.m h i.cl with handles := Function.update s.handles k none }, ?_,
          .last k h i hk hi hone hlast.2⟩
        simp only [deleteHandleWo, setInfo, hok.found, Function.update_self, hlast.1,
          Option.bind_eq_bind, Option.bind_some, if_true, delete, Function.update_idem]
      · refine ⟨_, rfl, .leave k h i hk hi hb fun hdel hone => hlast ⟨by omega, hdel⟩⟩

theorem Inv.exists_step (hs : s.Inv) (he : s.Room e) :
    ∃ t, s.step e = some t ∧ Moves s e t := by
  cases e with
  | construct k m => exact hs.step_construct he
  | safebind k => exact hs.step_safebind k
  | bound k ret => exact hs.step_bound k ret
  | destruct k => exact hs.step_destruct k
  | deleteHandle m => exact hs.step_deleteHandle m

end Moves

end Handles
end YFS.Rpc
