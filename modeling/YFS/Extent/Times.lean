import YFS.Extent.Calls

/-! # Modification times

`mtime` and `ctime` are kept by every operation for itself: `put` sets both, `resize` sets
`ctime`, and `mtime` only when it shortens the extent, `putbuf` sets `mtime`. They follow
the modifications as long as an operation that sets one of them finds the other one set to
the same time already. Times are compared as the server records them, as `unsigned int`s.
-/

namespace YFS.Extent
open YFS.Library

def Call.reads : Call → Bool
  | .get _ => true
  | .getattr _ => true
  | .getbuf .. => true
  | _ => false

/-- A call that changes the bytes of an extent sets both times, and one that reads or fails leaves
them. -/
def TimesFollow (s : Store) (e : ℕ × Call) : Prop :=
  ∀ r t, s.call e.1 e.2 = some (r, t) → ∀ id p q, s.find id = some p → t.find id = some q →
    (q.buf ≠ p.buf → q.a.mtime = Store.uint e.1 ∧ q.a.ctime = Store.uint e.1) ∧
    (e.2.reads = true ∨ r.status ≠ .OK → q.a.mtime = p.a.mtime ∧ q.a.ctime = p.a.ctime)

/-- No extent was modified after its attributes were changed. -/
def Store.TimesOrdered (s : Store) : Prop := ∀ id q, s.find id = some q → q.a.mtime ≤ q.a.ctime

def NotBehind (s : Store) (e : ℕ × Call) : Prop :=
  ∀ id q, s.find id = some q → q.a.mtime ≤ Store.uint e.1 ∧ q.a.ctime ≤ Store.uint e.1

/-- `putbuf` finds `ctime`, and a `resize` that extends finds `mtime`, at the time of the call. -/
def Punctual (s : Store) : ℕ × Call → Prop
  | (now, .putbuf id off buf) => ∀ q, s.find id = some q →
      (Store.written q.buf off buf).isSome = true → q.a.ctime = Store.uint now
  | (now, .resize id newSize) => ∀ q, s.find id = some q →
      q.buf.length < newSize → q.a.mtime = Store.uint now
  | _ => True

/-- What a call does to an existing record: nothing to the bytes and the times, or it sets both
times, or it is one of the two calls that set one of them. -/
theorem Call.act_times {now : ℕ} {c : Call} {p q : Record} {r : Returned}
    (h : c.act now (some p) = some (r, some q)) :
    (q.buf = p.buf ∧ q.a.mtime = p.a.mtime ∧ q.a.ctime = p.a.ctime) ∨
    (c.reads = false ∧ r.status = .OK ∧
      ((q.a.mtime = Store.uint now ∧ q.a.ctime = Store.uint now) ∨
      (∃ id n, c = .resize id n ∧ p.buf.length ≤ n ∧ q.buf = Store.resized p.buf n ∧
        q.a.mtime = p.a.mtime ∧ q.a.ctime = Store.uint now) ∨
      (∃ id off buf, c = .putbuf id off buf ∧ Store.written p.buf off buf = some q.buf ∧
        q.a.mtime = Store.uint now ∧ q.a.ctime = p.a.ctime))) := by
  cases c with
  | put id buf =>
    cases h
    exact .inr ⟨rfl, rfl, .inl ⟨rfl, rfl⟩⟩
  | get id =>
    cases h
    exact .inl ⟨rfl, rfl, rfl⟩
  | getattr id =>
    cases h
    exact .inl ⟨rfl, rfl, rfl⟩
  | remove id => cases h
  | resize id n =>
    cases h
    refine .inr ⟨rfl, rfl, ?_⟩
    by_cases hn : p.buf.length > n
    · exact .inl ⟨by rw [if_pos hn], rfl⟩
    · exact .inr (.inl ⟨id, n, rfl, not_lt.mp hn, rfl, by rw [if_neg hn], rfl⟩)
  | getbuf id askSize off =>
    simp only [act] at h
    split at h <;> cases h <;> exact .inl ⟨rfl, rfl, rfl⟩
  | putbuf id off buf =>
    obtain ⟨b, hb, hq⟩ := Option.map_eq_some_iff.mp h
    cases hq
    exact .inr ⟨rfl, rfl, .inr (.inr ⟨id, off, buf, rfl, hb, rfl, rfl⟩)⟩

/-- An extent after a call is the record the call leaves, or it is untouched. -/
theorem Store.find_of_call {s t : Store} {now : ℕ} {c : Call} {r : Returned}
    (h : s.call now c = some (r, t)) {id : ℕ} {q : Record} (hq : t.find id = some q) :
    (s.find id = s.find c.id ∧ c.act now (s.find c.id) = some (r, some q)) ∨
      s.find id = some q := by
  obtain ⟨q', hact, rfl⟩ := call_act h
  by_cases hk : key c.id = key id
  · rw [find_set_of_key hk] at hq
    subst hq
    exact .inl ⟨by rw [find, find, hk], hact⟩
  · rw [find_set_of_ne hk] at hq
    exact .inr hq

/-- A new record carries the time of its call. -/
theorem Call.act_created {now : ℕ} {c : Call} {q : Record} {r : Returned}
    (h : c.act now none = some (r, some q)) :
    q.a.mtime = Store.uint now ∧ q.a.ctime = Store.uint now := by
  cases c with
  | put id buf =>
    cases h
    exact ⟨rfl, rfl⟩
  | _ => cases h

section Step
variable {s : Store} {now : ℕ} {c : Call}

theorem timesOrdered_step (hs : s.TimesOrdered) (hclock : NotBehind s (now, c))
    (hp : Punctual s (now, c)) {r : Returned} {t : Store} (ht : s.call now c = some (r, t)) :
    t.TimesOrdered := by
  intro id q hq
  rcases Store.find_of_call ht hq with ⟨-, hact⟩ | hold
  · cases hf : s.find c.id with
    | none =>
      rw [hf] at hact
      obtain ⟨hm, hc⟩ := Call.act_created hact
      exact (hm.trans hc.symm).le
    | some p =>
      rw [hf] at hact
      rcases Call.act_times hact with ⟨-, hm, hc⟩ | ⟨-, -, ⟨hm, hc⟩ | hset⟩
      · rw [hm, hc]
        exact hs _ p hf
      · exact (hm.trans hc.symm).le
      · rcases hset with ⟨i, n, rfl, -, -, hm, hc⟩ | ⟨i, off, buf, rfl, hw, hm, hc⟩
        · rw [hm, hc]
          exact (hclock _ p hf).1
        · rw [hm, hc, hp p hf (by rw [hw]; rfl)]
  · exact hs id q hold

theorem timesFollow_of_punctual (hp : Punctual s (now, c)) : TimesFollow s (now, c) := by
  intro r t ht id p q hfind hq
  rcases Store.find_of_call ht hq with ⟨hsame, hact⟩ | hold
  · rw [← hsame, hfind] at hact
    rw [hfind] at hsame
    rcases Call.act_times hact with ⟨hb, hm, hc⟩ | ⟨hread, hok, hset⟩
    · exact ⟨fun hne => absurd hb hne, fun _ => ⟨hm, hc⟩⟩
    · refine ⟨fun hne => ?_, fun hkeep => ?_⟩
      · rcases hset with hboth | ⟨i, n, rfl, hle, hb, hm, hc⟩ | ⟨i, off, buf, rfl, hw, hm, hc⟩
        · exact hboth
        · have hlt : p.buf.length < n := by
            refine lt_of_le_of_ne hle fun heq => hne ?_
            rw [hb, ← heq, Store.resized, List.take_length, Nat.sub_self, List.replicate_zero,
              List.append_nil]
          exact ⟨hm.trans (hp p hsame.symm hlt), hc⟩
        · exact ⟨hm, hc.trans (hp p hsame.symm (by rw [hw]; rfl))⟩
      · rcases hkeep with hread' | hfail
        · rw [hread] at hread'
          cases hread'
        · exact absurd hok hfail
  · rw [hold] at hfind
    cases hfind
    exact ⟨fun hne => absurd rfl hne, fun _ => ⟨rfl, rfl⟩⟩

theorem punctual_of_follow (hclock : NotBehind s (now, c)) (hfollow : TimesFollow s (now, c))
    (hordered : ∀ r t, s.call now c = some (r, t) → t.TimesOrdered) : Punctual s (now, c) := by
  cases c with
  | putbuf id off buf =>
    intro q hq hw
    obtain ⟨b, hb⟩ := Option.isSome_iff_exists.mp hw
    have hcall : s.call now (.putbuf id off buf) = some (.of .OK,
        s.set id (some ⟨b, { q.a with mtime := Store.uint now, size := Store.uint b.length }⟩)) := by
      rw [Store.call_eq, Call.id, hq, Call.act, hb]
      rfl
    have hle : Store.uint now ≤ q.a.ctime := hordered _ _ hcall id _ (Store.find_set_self ..)
    exact Nat.le_antisymm (hclock id q hq).2 hle
  | resize id n =>
    intro q hq hlt
    have hcall : s.call now (.resize id n) = some (.of .OK,
        s.set id (some ⟨Store.resized q.buf n, { q.a with ctime := Store.uint now }⟩)) := by
      rw [Store.call_eq, Call.id, hq, Call.act, if_neg hlt.not_gt]
      rfl
    have hne : Store.resized q.buf n ≠ q.buf := by
      intro heq
      have hlen := congrArg List.length heq
      rw [Store.length_resized] at hlen
      exact hlt.ne' hlen
    exact ((hfollow _ _ hcall id q _ hq (Store.find_set_self ..)).1 hne).1
  | _ => trivial

end Step

/-! ## The clock -/

theorem notBehind_init (start : ℕ) {now : ℕ} (h : Store.uint start ≤ Store.uint now) (c : Call) :
    NotBehind (Store.init start) (now, c) := by
  intro id q hq
  rw [Store.find_init] at hq
  split_ifs at hq
  cases hq
  exact ⟨h, h⟩

/-- What a call leaves is not later than the call. -/
theorem notBehind_step {s t : Store} {now : ℕ} {c : Call} {r : Returned}
    (hs : NotBehind s (now, c)) (ht : s.call now c = some (r, t)) : NotBehind t (now, c) := by
  intro id q hq
  rcases Store.find_of_call ht hq with ⟨-, hact⟩ | hold
  · cases hf : s.find c.id with
    | none =>
      rw [hf] at hact
      obtain ⟨hm, hc⟩ := Call.act_created hact
      exact ⟨hm.le, hc.le⟩
    | some p =>
      obtain ⟨hpm, hpc⟩ := hs _ p hf
      rw [hf] at hact
      rcases Call.act_times hact with ⟨-, hm, hc⟩ | ⟨-, -, ⟨hm, hc⟩ | hset⟩
      · exact ⟨hm.le.trans hpm, hc.le.trans hpc⟩
      · exact ⟨hm.le, hc.le⟩
      · rcases hset with ⟨i, n, rfl, -, -, hm, hc⟩ | ⟨i, off, buf, rfl, -, hm, hc⟩
        · exact ⟨hm.le.trans hpm, hc.le⟩
        · exact ⟨hm.le, hc.le.trans hpc⟩
  · exact hs id q hold

/-- Under a clock that does not go back nothing is ever ahead of it. -/
theorem along_notBehind {start : ℕ} {s : Store} {cs : List (ℕ × Call)}
    (hclock : (cs.map Prod.fst).Pairwise fun a b => Store.uint a ≤ Store.uint b)
    (hs : ∀ e ∈ cs, NotBehind s e) : (extentServer start).Along NotBehind s cs := by
  induction cs generalizing s with
  | nil => trivial
  | cons e cs ih =>
    obtain ⟨hle, hclock⟩ := List.pairwise_cons.mp hclock
    refine ⟨hs e List.mem_cons_self, fun t ht => ih hclock fun e' he' => ?_⟩
    obtain ⟨r, hr⟩ := extentServer_step ht
    have hnow := notBehind_step (hs e List.mem_cons_self) hr
    have hlater := hle e'.1 (List.mem_map_of_mem he')
    exact fun id q hq => ⟨(hnow id q hq).1.trans hlater, (hnow id q hq).2.trans hlater⟩

/-- Under a clock that does not go back, the times follow the modifications in exactly those runs in
which `putbuf` and the extending `resize` find the time they do not set up to date. -/
theorem times_follow_iff {start : ℕ} {cs : List (ℕ × Call)}
    (hclock : (start :: cs.map Prod.fst).Pairwise fun a b => Store.uint a ≤ Store.uint b) :
    ((extentServer start).Along TimesFollow (extentServer start).init cs ∧
      (extentServer start).Throughout Store.TimesOrdered (extentServer start).init cs) ↔
    (extentServer start).Along Punctual (extentServer start).init cs := by
  obtain ⟨hstart, hclock⟩ := List.pairwise_cons.mp hclock
  have hbehind : (extentServer start).Along NotBehind (extentServer start).init cs :=
    along_notBehind hclock fun e he =>
      notBehind_init start (hstart e.1 (List.mem_map_of_mem he)) e.2
  have hinit : (extentServer start).init.TimesOrdered := fun id q hq => by
    have hfind : (Store.init start).find id = some q := hq
    rw [Store.find_init] at hfind
    split_ifs at hfind
    cases hfind
    exact le_rfl
  constructor
  · rintro ⟨hfollow, hordered⟩
    refine ((hfollow.and hordered.along_next).and hbehind).imp (I := fun _ => True)
      (fun _ _ _ _ _ _ => trivial) ?_ trivial
    rintro s ⟨now, c⟩ - ⟨⟨hfollow, hordered⟩, hbehind⟩
    refine punctual_of_follow hbehind hfollow fun r t ht => hordered t ?_
    exact Option.map_eq_some_iff.mpr ⟨(r, t), ht, rfl⟩
  · intro hpunctual
    constructor
    · refine hpunctual.imp (I := fun _ => True) (fun _ _ _ _ _ _ => trivial) ?_ trivial
      rintro s ⟨now, c⟩ - hp
      exact timesFollow_of_punctual hp
    · refine (hpunctual.and hbehind).throughout (I := Store.TimesOrdered) (fun _ hs => hs) ?_ hinit
      rintro s ⟨now, c⟩ t hs ⟨hp, hbehind⟩ ht
      obtain ⟨r, hr⟩ := extentServer_step ht
      exact timesOrdered_step hs hbehind hp hr

/-- Written at the time it was made, later cut and extended again in one second. -/
theorem times_follow_cut :
    (0 :: [0, 3, 3]).Pairwise (fun a b => Store.uint a ≤ Store.uint b) ∧
    (((extentServer 0).Along TimesFollow (extentServer 0).init
        [(0, .putbuf 1 0 [7]), (3, .resize 1 0), (3, .resize 1 4)] ∧
      (extentServer 0).Throughout Store.TimesOrdered (extentServer 0).init
        [(0, .putbuf 1 0 [7]), (3, .resize 1 0), (3, .resize 1 4)]) ↔
    (extentServer 0).Along Punctual (extentServer 0).init
      [(0, .putbuf 1 0 [7]), (3, .resize 1 0), (3, .resize 1 4)]) :=
  ⟨by decide, times_follow_iff (by decide)⟩

/-- A second after the start, `putbuf` leaves `ctime` behind `mtime`, and a `resize` that extends
leaves `mtime` as it was. -/
theorem times_left_behind :
    ¬ (extentServer 0).Throughout Store.TimesOrdered (extentServer 0).init
      [(1, .putbuf 1 0 [7])] ∧
    ¬ (extentServer 0).Along TimesFollow (extentServer 0).init [(1, .putbuf 1 0 [7])] ∧
    ¬ (extentServer 0).Along TimesFollow (extentServer 0).init [(1, .resize 1 5)] := by
  refine ⟨fun h => ?_, fun h => ?_, fun h => ?_⟩
  · have hle : (1 : ℕ) ≤ 0 := (h.2 _ rfl) 1 _ rfl
    cases hle
  · have hc : (0 : ℕ) = 1 := ((h.1 _ _ rfl 1 _ _ rfl rfl).1 (by decide)).2
    cases hc
  · have hm : (0 : ℕ) = 1 := ((h.1 _ _ rfl 1 _ _ rfl rfl).1 (by decide)).1
    cases hm

end YFS.Extent
