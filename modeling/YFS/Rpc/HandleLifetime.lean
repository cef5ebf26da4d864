import YFS.Rpc.Handles

/-! # The lifetime of what the handles point to

Every step of the handle cache keeps the invariant: the count of an `hinfo` is the number of the
handles that point to it, and one that is marked as deleted still has a handle. It fails only when
an `int` can no longer hold the count.
-/

namespace YFS.Rpc
open YFS.Library

namespace Handles
variable {δ ι : Type*} {s t : Handles δ ι} {e : HandleEvent δ ι} {h : ℕ} {i : Hinfo δ ι} {k : ι}

/-- What is found under `a'` stays there if something else is found under `a`. -/
theorem update_elsewhere {α β : Type*} [DecidableEq α] {f : α → β} {a a' : α} {b v : β}
    (ha' : f a' = b) (ha : f a ≠ b) : Function.update f a v a' = b := by
  have hne : a' ≠ a := by
    rintro rfl
    exact ha ha'
  rw [Function.update_of_ne hne, ha']

theorem held_of_update [DecidableEq ι] {v : Option (Option ℕ)}
    (ht : t.handles = Function.update s.handles k v) :
    t.held = Function.update s.held k v.join := by
  funext k'
  by_cases hk : k' = k
  · rw [held, ht, hk, Function.update_self, Function.update_self]
  · rw [held, ht, Function.update_of_ne hk, Function.update_of_ne hk, held]

theorem count_of_update {o : Option (Hinfo δ ι)} (ht : t.infos = Function.update s.infos h o) :
    t.count = Function.update s.count h (o.elim 0 Hinfo.refcnt) := by
  funext h'
  by_cases hh : h' = h
  · rw [count, ht, hh, Function.update_self, Function.update_self]
  · rw [count, ht, Function.update_of_ne hh, Function.update_of_ne hh, count]

/-- What is known of an `hinfo` remains if the map, the `rpcc`s and the handles keep what points to
it and what it points to. -/
theorem InfoOk.frame (hok : s.InfoOk h i) (hmap : s.hmap i.m = some h → t.hmap i.m = some h)
    (hrpccs : ∀ r, s.rpccs r = some h → t.rpccs r = some h)
    (hhandles : ∀ k, s.handles k = some (some h) → t.handles k = some (some h)) :
    t.InfoOk h i where
  small := hok.small
  found := hmap hok.found
  marked := hok.marked
  owned r hr := hrpccs r (hok.owned r hr)
  binder k r hb := ⟨(hok.binder k r hb).1, hhandles k (hok.binder k r hb).2⟩

theorem Inv.change (hs : s.Inv) {j : Hinfo δ ι} (hi : s.infos h = some i)
    (hinfos : t.infos = Function.update s.infos h (some j)) (hjm : j.m = i.m)
    (hmap : t.hmap = s.hmap) (hmade : t.infosMade = s.infosMade)
    (hdestroyed : t.destroyed = s.destroyed)
    (htally : Tally t.held (Function.update s.count h j.refcnt)) (hj : t.InfoOk h j)
    (hothers : ∀ h' i', h' ≠ h → s.infos h' = some i' → t.InfoOk h' i')
    (hrpccs : ∀ r, t.rpccsMade ≤ r → t.rpccs r = none) : t.Inv where
  tally := by
    rw [count_of_update hinfos]
    exact htally
  infos h' i' hi' := by
    rw [hinfos] at hi'
    by_cases hh : h' = h
    · subst hh
      rw [Function.update_self] at hi'
      cases hi'
      exact hj
    · rw [Function.update_of_ne hh] at hi'
      exact hothers h' i' hh hi'
  mapped m h' hm := by
    rw [hmap] at hm
    obtain ⟨i', hi', rfl⟩ := hs.mapped m h' hm
    rw [hinfos]
    by_cases hh : h' = h
    · subst hh
      rw [hi] at hi'
      cases hi'
      exact ⟨j, Function.update_self .., hjm⟩
    · exact ⟨i', (Function.update_of_ne hh ..).trans hi', rfl⟩
  made h' hh' := by
    rw [hmade] at hh'
    rw [hinfos]
    exact update_elsewhere (hs.made h' hh') (by rw [hi]; nofun)
  rpccsMade := hrpccs
  destroyed := by
    rw [hdestroyed, hmade]
    refine ⟨hs.destroyed.1, fun h' hh' => ?_⟩
    obtain ⟨hnone, hlt⟩ := hs.destroyed.2 h' hh'
    rw [hinfos]
    exact ⟨update_elsewhere hnone (by rw [hi]; nofun), hlt⟩

theorem delete_rpccs [DecidableEq δ] (s : Handles δ ι) (m : δ) (h : ℕ) (cl : Option ℕ) (r : ℕ) :
    (s.delete m h cl).rpccs r = if cl = some r then none else s.rpccs r := by
  cases cl with
  | none => rfl
  | some r' =>
    change Function.update s.rpccs r' none r = _
    simp only [Function.update_apply, Option.some.injEq, eq_comm]

/-- A step that deletes the `hinfo` `h`, and after which only handles that pointed to it have
changed. -/
theorem Inv.deleted [DecidableEq δ] (hs : s.Inv) (hi : s.infos h = some i)
    (handles : ι → Option (Option ℕ))
    (hhandles : ∀ h' k, h' ≠ h → s.handles k = some (some h') → handles k = some (some h'))
    (htally : Tally (fun k => (handles k).join) (Function.update s.count h 0)) :
    Inv { s.delete i.m h i.cl with handles := handles } where
  tally := by
    rw [count_of_update (s := s) (o := none) (h := h) rfl]
    exact htally
  infos h' i' hi' := by
    change Function.update s.infos h none h' = some i' at hi'
    have hne : h' ≠ h := by
      rintro rfl
      rw [Function.update_self] at hi'
      cases hi'
    rw [Function.update_of_ne hne] at hi'
    have hok := hs.infos h i hi
    have hother : some h ≠ some h' := fun heq => hne (Option.some.inj heq).symm
    refine (hs.infos h' i' hi').frame (fun hm => ?_) (fun r hr => ?_) fun k => hhandles h' k hne
    · exact update_elsewhere hm (by rw [hok.found]; exact hother)
    · change (s.delete i.m h i.cl).rpccs r = some h'
      rw [delete_rpccs, if_neg (fun hcl => hother ?_), hr]
      rw [← hok.owned r (.inl hcl), hr]
  mapped m h' hm := by
    change Function.update s.hmap i.m none m = some h' at hm
    have hne : m ≠ i.m := by
      rintro rfl
      rw [Function.update_self] at hm
      cases hm
    rw [Function.update_of_ne hne] at hm
    obtain ⟨i', hi', rfl⟩ := hs.mapped m h' hm
    refine ⟨i', update_elsewhere hi' fun heq => hne ?_, rfl⟩
    rw [hi, Option.some.injEq] at heq
    rw [heq]
  made h' hh' := by
    change Function.update s.infos h none h' = none
    by_cases hh : h' = h
    · rw [hh, Function.update_self]
    · rw [Function.update_of_ne hh]
      exact hs.made h' hh'
  rpccsMade r hr := by
    have hnone : s.rpccs r = none := hs.rpccsMade r hr
    change (s.delete i.m h i.cl).rpccs r = none
    rw [delete_rpccs, hnone, ite_self]
  destroyed := by
    have hnew : h ∉ s.destroyed := by
      intro hmem
      rw [(hs.destroyed.2 h hmem).1] at hi
      cases hi
    refine ⟨List.nodup_append.mpr ⟨hs.destroyed.1, List.nodup_singleton h, ?_⟩, fun h' hh' => ?_⟩
    · rintro a ha b hb rfl
      exact hnew (List.mem_singleton.mp hb ▸ ha)
    · change Function.update s.infos h none h' = none ∧ h' < s.infosMade
      rcases List.mem_append.mp hh' with hold | hlast
      · have hne : h' ≠ h := fun hh => hnew (hh ▸ hold)
        rw [Function.update_of_ne hne]
        exact hs.destroyed.2 h' hold
      · rw [List.mem_singleton] at hlast
        subst hlast
        refine ⟨Function.update_self .., ?_⟩
        by_contra hge
        rw [hs.made h' (not_lt.mp hge)] at hi
        cases hi

theorem Inv.first [DecidableEq δ] [DecidableEq ι] (hs : s.Inv) {m : δ}
    (hk : s.handles k = none) (hm : s.hmap m = none) :
    Inv { s.setInfo s.infosMade ⟨none, 1, false, m, none⟩ with
      hmap := Function.update s.hmap m (some s.infosMade)
      infosMade := s.infosMade + 1
      handles := Function.update s.handles k (some (some s.infosMade)) } where
  tally := by
    have hcount : s.count s.infosMade = 0 := by
      rw [count, hs.made s.infosMade le_rfl, Option.elim_none]
    rw [held_of_update (s := s) (k := k) rfl, count_of_update (s := s) (h := s.infosMade) rfl]
    have htally := hs.tally.take (i := k) (by rw [held, hk]; rfl) s.infosMade
    rw [hcount] at htally
    exact htally
  infos h' i' hi' := by
    change Function.update s.infos s.infosMade _ h' = some i' at hi'
    by_cases hh : h' = s.infosMade
    · subst hh
      rw [Function.update_self, Option.some.injEq] at hi'
      subst hi'
      exact
        { small := by norm_num
          found := Function.update_self ..
          marked := by simp
          owned := by simp [Hinfo.Owns]
          binder := by simp }
    · rw [Function.update_of_ne hh] at hi'
      exact (hs.infos h' i' hi').frame (fun hm' => update_elsewhere hm' (by simp [hm]))
        (fun _ hr => hr) fun k' hk' => update_elsewhere hk' (by simp [hk])
  mapped m' h' hm' := by
    change Function.update s.hmap m (some s.infosMade) m' = some h' at hm'
    change ∃ i, Function.update s.infos s.infosMade _ h' = some i ∧ i.m = m'
    by_cases hmm : m' = m
    · subst hmm
      rw [Function.update_self, Option.some.injEq] at hm'
      subst hm'
      exact ⟨_, Function.update_self .., rfl⟩
    · rw [Function.update_of_ne hmm] at hm'
      obtain ⟨i', hi', him⟩ := hs.mapped m' h' hm'
      exact ⟨i', update_elsewhere hi' (by simp [hs.made _ le_rfl]), him⟩
  made h' hh' := by
    have hlt : s.infosMade < h' := hh'
    exact (Function.update_of_ne hlt.ne' ..).trans (hs.made h' hlt.le)
  rpccsMade := hs.rpccsMade
  destroyed := by
    refine ⟨hs.destroyed.1, fun h' hh' => ?_⟩
    obtain ⟨hnone, hlt⟩ := hs.destroyed.2 h' hh'
    exact ⟨(Function.update_of_ne hlt.ne ..).trans hnone, Nat.lt_succ_of_lt hlt⟩

theorem pointer_ne {h' : ℕ} (hk : s.handles k = some (some h)) (hne : h' ≠ h) :
    s.handles k ≠ some (some h') := by
  rw [hk]
  rintro ⟨⟩
  exact hne rfl

/-- The tally if neither the handles nor the count of `h` change. -/
theorem Inv.tally_same (hs : s.Inv) (hi : s.infos h = some i) {n : ℤ} (hn : n = i.refcnt) :
    Tally s.held (Function.update s.count h n) := by
  rw [hn, ← count_of_some hi, Function.update_eq_self]
  exact hs.tally

theorem Inv.null [DecidableEq ι] (hs : s.Inv) {v : Option (Option ℕ)} (hk : s.held k = none)
    (hv : v.join = none) : Inv { s with handles := Function.update s.handles k v } where
  tally := by
    rw [held_of_update (s := s) (k := k) rfl, hv, ← hk, Function.update_eq_self]
    exact hs.tally
  infos h i hi := by
    refine (hs.infos h i hi).frame (fun hm => hm) (fun _ hr => hr) fun k' hk' => ?_
    refine update_elsewhere hk' fun hkh => ?_
    rw [← held_eq_some, hk] at hkh
    cases hkh
  mapped := hs.mapped
  made := hs.made
  rpccsMade := hs.rpccsMade
  destroyed := hs.destroyed

theorem Inv.another [DecidableEq ι] (hs : s.Inv) (hk : s.handles k = none)
    (hi : s.infos h = some i) (hroom : i.refcnt + 1 < 2 ^ 31) :
    Inv { s.setInfo h { i with refcnt := i.refcnt + 1 } with
      handles := Function.update s.handles k (some (some h)) } := by
  have hkeep : ∀ h' k', s.handles k' = some (some h') →
      Function.update s.handles k (some (some h)) k' = some (some h') := by
    intro h' k' hk'
    exact update_elsewhere hk' (by rw [hk]; nofun)
  have hok := hs.infos h i hi
  refine hs.change hi rfl rfl rfl rfl rfl ?_ ?_ (fun h' i' _ hi' => ?_) hs.rpccsMade
  · rw [held_of_update (s := s) (k := k) rfl, ← count_of_some hi]
    exact hs.tally.take (by rw [held, hk]; rfl) h
  · exact
      { small := hroom
        found := hok.found
        marked := fun hdel => by linarith [hok.marked hdel]
        owned := hok.owned
        binder := fun k' r hb => ⟨(hok.binder k' r hb).1, hkeep h k' (hok.binder k' r hb).2⟩ }
  · exact (hs.infos h' i' hi').frame (fun hm => hm) (fun _ hr => hr) (hkeep h')

theorem Inv.begin (hs : s.Inv) (hk : s.handles k = some (some h)) (hi : s.infos h = some i)
    (hcl : i.cl = none) :
    Inv { s.setInfo h { i with binder := some (k, s.rpccsMade) } with
      rpccs := Function.update s.rpccs s.rpccsMade (some h)
      rpccsMade := s.rpccsMade + 1 } := by
  have hok := hs.infos h i hi
  refine hs.change hi rfl rfl rfl rfl rfl (hs.tally_same hi rfl) ?_ (fun h' i' _ hi' => ?_)
    fun r hr => ?_
  · refine
      { small := hok.small
        found := hok.found
        marked := hok.marked
        owned := ?_
        binder := ?_ }
    · rintro r (hr | ⟨k', hb⟩)
      · rw [hcl] at hr
        cases hr
      · cases hb
        exact Function.update_self ..
    · intro k' r hb
      cases hb
      exact ⟨hcl, hk⟩
  · refine (hs.infos h' i' hi').frame (fun hm => hm) (fun r hr => ?_) fun _ hk' => hk'
    exact update_elsewhere hr (by rw [hs.rpccsMade _ le_rfl]; nofun)
  · have hlt : s.rpccsMade < r := hr
    exact (Function.update_of_ne hlt.ne' ..).trans (hs.rpccsMade r hlt.le)

theorem Inv.bound {r : ℕ} (hs : s.Inv) (hi : s.infos h = some i)
    (hb : i.binder = some (k, r)) :
    (s.setInfo h { i with cl := some r, binder := none }).Inv := by
  have hok := hs.infos h i hi
  refine hs.change hi rfl rfl rfl rfl rfl (hs.tally_same hi rfl) ?_ (fun h' i' _ hi' => ?_)
    hs.rpccsMade
  · refine
      { small := hok.small
        found := hok.found
        marked := hok.marked
        owned := ?_
        binder := nofun }
    rintro r' (hr | ⟨k', hb'⟩)
    · cases hr
      exact hok.owned r (.inr ⟨k, hb⟩)
    · cases hb'
  · exact (hs.infos h' i' hi').frame (fun hm => hm) (fun _ hr => hr) fun _ hk => hk

theorem Inv.failed {r : ℕ} (hs : s.Inv) (hi : s.infos h = some i)
    (hb : i.binder = some (k, r)) :
    Inv { s.setInfo h { i with del := true, binder := none } with
      rpccs := Function.update s.rpccs r none } := by
  have hok := hs.infos h i hi
  obtain ⟨hcl, hk⟩ := hok.binder k r hb
  refine hs.change hi rfl rfl rfl rfl rfl (hs.tally_same hi rfl) ?_ (fun h' i' hne hi' => ?_)
    fun r' hr' => ?_
  · refine
      { small := hok.small
        found := hok.found
        marked := fun _ => ?_
        owned := ?_
        binder := nofun }
    · obtain ⟨j, hj, hpos⟩ := hs.pointed hk
      rw [hi] at hj
      cases hj
      exact hpos
    · rintro r' (hr | ⟨k', hb'⟩)
      · rw [hcl] at hr
        cases hr
      · cases hb'
  · refine (hs.infos h' i' hi').frame (fun hm => hm) (fun r' hr' => ?_) fun _ hk => hk
    refine update_elsewhere hr' fun heq => hne ?_
    rw [hok.owned r (.inr ⟨k, hb⟩), Option.some.injEq] at heq
    exact heq.symm
  · have hnone : s.rpccs r' = none := hs.rpccsMade r' hr'
    change Function.update s.rpccs r none r' = none
    rw [Function.update_apply, hnone, ite_self]

theorem Inv.leave [DecidableEq ι] (hs : s.Inv) (hk : s.handles k = some (some h))
    (hi : s.infos h = some i) (hb : i.binder.map Prod.fst ≠ some k)
    (hstay : i.del = true → i.refcnt ≠ 1) :
    Inv { s.setInfo h { i with refcnt := i.refcnt - 1 } with
      handles := Function.update s.handles k none } := by
  have hok := hs.infos h i hi
  refine hs.change hi rfl rfl rfl rfl rfl ?_ ?_ (fun h' i' hne hi' => ?_) hs.rpccsMade
  · rw [held_of_update (s := s) (k := k) rfl, ← count_of_some hi]
    exact hs.tally.drop (held_eq_some.mpr hk)
  · refine
      { small := by linarith [hok.small]
        found := hok.found
        marked := fun hdel => ?_
        owned := hok.owned
        binder := fun k' r hb' => ⟨(hok.binder k' r hb').1, ?_⟩ }
    · have hpos : 0 < i.refcnt := hok.marked hdel
      have hne := hstay hdel
      change 0 < i.refcnt - 1
      omega
    · have hb'' : i.binder = some (k', r) := hb'
      refine (Function.update_of_ne (fun hkk => hb ?_) ..).trans (hok.binder k' r hb').2
      rw [hb'', hkk]
      rfl
  · refine (hs.infos h' i' hi').frame (fun hm => hm) (fun _ hr => hr) fun k' hk' => ?_
    exact update_elsewhere hk' (pointer_ne hk hne)

theorem Inv.last [DecidableEq δ] [DecidableEq ι] (hs : s.Inv)
    (hk : s.handles k = some (some h)) (hi : s.infos h = some i) (hone : i.refcnt = 1) :
    Inv { s.delete i.m h i.cl with handles := Function.update s.handles k none } := by
  refine hs.deleted hi _ (fun h' k' hne hk' => ?_) ?_
  · exact update_elsewhere hk' (pointer_ne hk hne)
  · have htally := hs.tally.drop (held_eq_some.mpr hk)
    rw [count_of_some hi, hone, sub_self] at htally
    have hheld := held_of_update (s := s) (k := k) (v := none)
      (t := { s with handles := Function.update s.handles k none }) rfl
    rw [Option.join_none] at hheld
    rw [← hheld] at htally
    exact htally

theorem Inv.erase [DecidableEq δ] (hs : s.Inv) (hi : s.infos h = some i)
    (hzero : i.refcnt = 0) :
    (s.delete i.m h i.cl).Inv :=
  hs.deleted hi s.handles (fun _ _ _ hk => hk) (hs.tally_same hi hzero.symm)

theorem Inv.mark (hs : s.Inv) (hi : s.infos h = some i) (hne : i.refcnt ≠ 0) :
    (s.setInfo h { i with del := true }).Inv := by
  have hok := hs.infos h i hi
  have hnonneg := hs.refcnt_nonneg hi
  refine hs.change hi rfl rfl rfl rfl rfl (hs.tally_same hi rfl) ?_ (fun h' i' _ hi' => ?_)
    hs.rpccsMade
  · exact
      { small := hok.small
        found := hok.found
        marked := fun _ => lt_of_le_of_ne hnonneg hne.symm
        owned := hok.owned
        binder := hok.binder }
  · exact (hs.infos h' i' hi').frame (fun hm => hm) (fun _ hr => hr) fun _ hk => hk

theorem Inv.moves [DecidableEq δ] [DecidableEq ι] (hs : s.Inv) (hm : Moves s e t) : t.Inv := by
  cases hm with
  | same => exact hs
  | first k m hk hm => exact hs.first hk hm
  | another k m h i hk hi hroom => exact hs.another hk hi hroom
  | null _ k v hk hv => exact hs.null hk hv
  | begin k h i hk hi _ hcl => exact hs.begin hk hi hcl
  | bound k ret h i r hi hb => exact hs.bound hi hb
  | failed k ret h i r hi hb => exact hs.failed hi hb
  | leave k h i hk hi hb hstay => exact hs.leave hk hi hb hstay
  | last k h i hk hi hone _ => exact hs.last hk hi hone
  | erase h i hi hzero => exact hs.erase hi hzero
  | mark m h i hi hne => exact hs.mark hi hne

theorem Inv.step [DecidableEq δ] [DecidableEq ι] (hs : s.Inv) (he : s.Room e)
    (hst : s.step e = some t) : t.Inv := by
  obtain ⟨u, hu, hmoves⟩ := hs.exists_step he
  rw [hst] at hu
  cases hu
  exact hs.moves hmoves

/-! ## What is destroyed -/

def KeepsAll (s t : Handles δ ι) : Prop :=
  t.destroyed = s.destroyed ∧ ∀ h, t.infos h = none → s.infos h = none

theorem keepsAll_of_update {o : Hinfo δ ι} (ht : t.infos = Function.update s.infos h (some o))
    (hd : t.destroyed = s.destroyed) : s.KeepsAll t := by
  refine ⟨hd, fun h' hh' => ?_⟩
  have hne : h' ≠ h := by
    rintro rfl
    rw [ht, Function.update_self] at hh'
    cases hh'
  rw [ht, Function.update_of_ne hne] at hh'
  exact hh'

variable [DecidableEq δ]

theorem destroys_delete (hi : s.infos h = some i) {handles : ι → Option (Option ℕ)}
    (hhandles : ∀ k, handles k ≠ some (some h)) (hdel : i.del = true ∨ e = .deleteHandle i.m) :
    s.Destroys e { s.delete i.m h i.cl with handles := handles } h := by
  refine ⟨i, hi, Function.update_self .., rfl, hhandles, hdel, fun r hr => ?_⟩
  change (s.delete i.m h i.cl).rpccs r = none
  rw [delete_rpccs, if_pos hr]

variable [DecidableEq ι]

/-- A step keeps every `hinfo`, or it destroys one and keeps the others. -/
theorem Inv.destroys (hs : s.Inv) (hm : Moves s e t) :
    s.KeepsAll t ∨ ∃ h, s.Destroys e t h ∧ ∀ h', h' ≠ h → t.infos h' = s.infos h' := by
  cases hm with
  | same => exact .inl ⟨rfl, fun _ hh => hh⟩
  | null => exact .inl ⟨rfl, fun _ hh => hh⟩
  | first | another | begin | bound | failed | leave | mark =>
    exact .inl (keepsAll_of_update rfl rfl)
  | last k h i hk hi hone hdel =>
    obtain ⟨T, hT, hcard⟩ := hs.counted hi
    have hcard : T.card = 1 := by omega
    have hgone : ∀ k', Function.update s.handles k none k' ≠ some (some h) := by
      intro k' hk'
      have hne : k' ≠ k := by
        rintro rfl
        rw [Function.update_self] at hk'
        cases hk'
      rw [Function.update_of_ne hne] at hk'
      exact hne (Finset.card_le_one.mp hcard.le k' ((hT k').mpr hk') k ((hT k).mpr hk))
    exact .inr ⟨h, destroys_delete hi hgone (.inl hdel), fun h' hne => Function.update_of_ne hne ..⟩
  | erase h i hi hzero =>
    exact .inr ⟨h, destroys_delete hi (hs.unpointed hi hzero) (.inr rfl),
      fun h' hne => Function.update_of_ne hne ..⟩

theorem Inv.lawful (hs : s.Inv) (he : s.Room e) : s.Lawful e := by
  obtain ⟨t, hst, hmoves⟩ := hs.exists_step he
  refine ⟨t, hst, ?_⟩
  rcases hs.destroys hmoves with ⟨hsame, hkept⟩ | ⟨h, hdestroys, hothers⟩
  · refine ⟨.inl hsame, fun h' i' hi' hnone => ?_⟩
    rw [hkept h' hnone] at hi'
    cases hi'
  · refine ⟨.inr ⟨h, hdestroys⟩, fun h' i' hi' hnone => ?_⟩
    by_cases hne : h' = h
    · exact hne ▸ hdestroys
    · rw [hothers h' hne, hi'] at hnone
      cases hnone

/-- One handle too many is not counted. -/
theorem Inv.room_of_sound (hs : s.Inv) (hsound : ∀ t, s.step e = some t → t.Sound) :
    s.Room e := by
  cases e with
  | safebind | bound | destruct | deleteHandle => trivial
  | construct k m =>
    intro hk h hm i hi hdel
    have hm : s.hmap m = some h := hm
    have hi : s.infos h = some i := hi
    by_contra hfull
    have hsmall := (hs.infos h i hi).small
    have hwraps : int32 (i.refcnt + 1) = -2 ^ 31 := by
      rw [show i.refcnt + 1 = 2 ^ 31 by omega]
      decide
    have hst := step_construct_unmarked hk hm hi hdel
    obtain ⟨T, -, hcard⟩ := (hsound _ hst).counted h _ (Function.update_self ..)
    rw [show ({ i with refcnt := int32 (i.refcnt + 1) } : Hinfo δ ι).refcnt = _ from hwraps]
      at hcard
    omega

end Handles

/-- The handle cache keeps its `hinfo`s as it should just as long as no `hinfo` gets more handles
than an `int` can count. -/
theorem handle_cache_lifetime_iff {δ ι : Type*} [DecidableEq δ] [DecidableEq ι]
    (es : List (HandleEvent δ ι)) :
    (handleMgr δ ι).Throughout Handles.Sound (handleMgr δ ι).init es ∧
        (handleMgr δ ι).Along Handles.Lawful (handleMgr δ ι).init es ↔
      (handleMgr δ ι).Along Handles.Room (handleMgr δ ι).init es := by
  have hany : (handleMgr δ ι).Along (fun _ _ => True) (handleMgr δ ι).init es :=
    Machine.along_of_all (fun _ _ => trivial) _ _
  have hiff : (handleMgr δ ι).Throughout Handles.Sound (handleMgr δ ι).init es ↔
      (handleMgr δ ι).Along Handles.Room (handleMgr δ ι).init es :=
    hany.throughout_iff (I := Handles.Inv) (fun _ hs => hs.sound)
      (fun _ _ _ hs _ he hst => hs.step he hst) (fun _ _ hs _ hsound => hs.room_of_sound hsound)
      .init
  constructor
  · exact fun h => hiff.mp h.1
  · intro hroom
    refine ⟨hiff.mpr hroom, ?_⟩
    exact hroom.imp (I := Handles.Inv) (fun _ _ _ hs he hst => hs.step he hst)
      (fun _ _ hs he => hs.lawful he) .init

/-- A bind fails; the `hinfo` goes with its second handle, and not before. -/
example : ((handleMgr ℕ ℕ).run [.construct 0 7, .construct 1 7, .safebind 0, .bound 0 (-1),
      .destruct 0]).map Handles.destroyed = some [] ∧
    ((handleMgr ℕ ℕ).run [.construct 0 7, .construct 1 7, .safebind 0, .bound 0 (-1), .destruct 0,
      .destruct 1]).map Handles.destroyed = some [0] := by
  decide

def constructions (n : ℕ) : List (HandleEvent String ℕ) :=
  (List.range n).map fun k => .construct k "localhost:5001"

theorem constructions_succ (n : ℕ) :
    constructions (n + 1) = constructions n ++ [.construct n "localhost:5001"] := by
  rw [constructions, List.range_succ, List.map_append]
  rfl

theorem run_constructions (n : ℕ) : ∃ s, (handleMgr String ℕ).run (constructions (n + 1)) = some s ∧
    s.hmap "localhost:5001" = some 0 ∧
    s.infos 0 = some ⟨none, int32 (n + 1), false, "localhost:5001", none⟩ ∧
    (∀ k ≤ n, s.handles k = some (some 0)) ∧ ∀ k, n < k → s.handles k = none := by
  induction n with
  | zero =>
    refine ⟨_, rfl, rfl, rfl, fun k hk => ?_, fun k hk => ?_⟩
    · rw [Nat.le_zero.mp hk]
      rfl
    · exact Function.update_of_ne hk.ne' ..
  | succ n ih =>
    obtain ⟨s, hrun, hm, hi, hmade, hfree⟩ := ih
    have hk : s.handles (n + 1) = none := hfree (n + 1) n.lt_succ_self
    have hcount : int32 (int32 (n + 1) + 1) = int32 ((n + 1 : ℕ) + 1) := by
      rw [int32, int32, Int.bmod_add_bmod, int32, Nat.cast_succ]
    have hst := Handles.step_construct_unmarked hk hm hi rfl
    simp only [hcount] at hst
    rw [constructions_succ, Machine.run_concat hrun]
    refine ⟨_, hst, hm, Function.update_self 0 _ s.infos, fun k hkn => ?_, fun k hkn => ?_⟩
    · rcases Nat.lt_or_eq_of_le hkn with hlt | heq
      · exact (Function.update_of_ne hlt.ne ..).trans (hmade k (Nat.lt_succ_iff.mp hlt))
      · rw [heq]
        exact Function.update_self ..
    · exact (Function.update_of_ne hkn.ne' ..).trans (hfree k (Nat.lt_of_succ_lt hkn))

/-- The count of `2 ^ 31` handles is negative. -/
theorem handle_count_wraps : ∃ s, (handleMgr String ℕ).run (constructions (2 ^ 31)) = some s ∧
    (∀ k < 2 ^ 31, s.handles k = some (some 0)) ∧
    (∃ i, s.infos 0 = some i ∧ i.refcnt = -2 ^ 31) ∧ ¬ s.Sound := by
  obtain ⟨s, hrun, -, hi, hmade, -⟩ := run_constructions (2 ^ 31 - 1)
  have hcount : int32 ((2 ^ 31 - 1 : ℕ) + 1) = -2 ^ 31 := by decide
  rw [hcount] at hi
  refine ⟨s, hrun, fun k hk => hmade k (Nat.le_sub_one_of_lt hk), ⟨_, hi, rfl⟩, fun hsound => ?_⟩
  obtain ⟨T, -, hcard⟩ := hsound.counted 0 _ hi
  have hneg : (-2 ^ 31 : ℤ) = T.card := hcard
  omega

end YFS.Rpc
