import YFS.Rpc.Client

/-! # What the client acknowledges

The window of `rpcc` stands for the set of xids reported so far: everything up to
the front, and the entries behind it. The compression loop pops the front while its
iterator stands further back in the same list, so the loop is also given here with
the iterator's position checked at every pop.
-/

namespace YFS.Rpc
open YFS.Library

/-- `while (front() + 1 == *it) pop_front()`, undefined if the entry `it` points to is popped. -/
def popFrontChecked (it : ℕ) : List ℕ → Option (List ℕ)
  | [] => if succXid it = it then none else some []
  | f :: fs => if succXid f = it then popFrontChecked it fs else some (f :: fs)

def compressChecked (pre : List ℕ) : List ℕ → Option (List ℕ)
  | [] => some pre
  | it :: post => do
    let pre ← popFrontChecked it pre
    compressChecked (pre ++ [it]) post

/-- `rpcc::update_xid_rep`, undefined if an iterator to a removed entry or the front of an empty
list is used. -/
def updateXidRepChecked (w : List ℕ) (xid : ℕ) : Option (List ℕ) :=
  match w with
  | [] => none
  | front :: rest =>
    if xid ≤ front then some w
    else match insertXid xid (front :: rest) with
      | [] => none
      | f :: fs => compressChecked [f] fs

theorem popFrontChecked_eq (it : ℕ) (pre : List ℕ) :
    popFrontChecked it pre = some (popFront it pre) := by
  induction pre with
  | nil => exact if_neg (succXid_ne it)
  | cons f fs ih =>
    rw [popFrontChecked, popFront, ih]
    split_ifs <;> rfl

theorem compressChecked_eq (pre post : List ℕ) :
    compressChecked pre post = some (compress pre post) := by
  induction post generalizing pre with
  | nil => rfl
  | cons it post ih =>
    rw [compressChecked, compress, popFrontChecked_eq]
    exact ih _

theorem insertXid_eq_cons (xid : ℕ) (w : List ℕ) : ∃ f fs, insertXid xid w = f :: fs := by
  cases w with
  | nil => exact ⟨_, _, rfl⟩
  | cons y ys =>
    rw [insertXid]
    split_ifs <;> exact ⟨_, _, rfl⟩

/-- No pop reaches the iterator, since no xid is its own successor. -/
theorem updateXidRepChecked_eq {w : List ℕ} (hw : w ≠ []) (xid : ℕ) :
    updateXidRepChecked w xid = some (updateXidRep w xid) := by
  obtain ⟨front, rest, rfl⟩ := List.exists_cons_of_ne_nil hw
  obtain ⟨f, fs, hf⟩ := insertXid_eq_cons xid (front :: rest)
  simp only [updateXidRepChecked, updateXidRep, hf, compressChecked_eq]
  split_ifs <;> rfl

/-! ## Insertion and compression -/

theorem insertXid_perm (xid : ℕ) (w : List ℕ) : (insertXid xid w).Perm (xid :: w) := by
  induction w with
  | nil => rfl
  | cons y ys ih =>
    rw [insertXid]
    split_ifs
    · rfl
    · exact (ih.cons y).trans (.swap xid y ys)

theorem insertXid_sorted {xid : ℕ} {w : List ℕ} (hw : w.Pairwise (· ≤ ·)) :
    (insertXid xid w).Pairwise (· ≤ ·) := by
  induction w with
  | nil => exact List.pairwise_singleton _ _
  | cons y ys ih =>
    obtain ⟨hy, hys⟩ := List.pairwise_cons.mp hw
    rw [insertXid]
    split_ifs with hlt
    · refine List.pairwise_cons.mpr ⟨fun z hz => ?_, hw⟩
      rcases List.mem_cons.mp hz with rfl | hz
      · exact hlt.le
      · exact hlt.le.trans (hy z hz)
    · refine List.pairwise_cons.mpr ⟨fun z hz => ?_, ih hys⟩
      rcases List.mem_cons.mp ((insertXid_perm xid ys).mem_iff.mp hz) with rfl | hz
      · exact Nat.le_of_not_lt hlt
      · exact hy z hz

theorem insertXid_of_lt {xid : ℕ} {f : ℕ} {fs : List ℕ} (h : f < xid) :
    insertXid xid (f :: fs) = f :: insertXid xid fs := by
  rw [insertXid, if_neg (Nat.lt_asymm h)]

/-- `r` is what is left of `l` once the front has been moved as far as the entries allow. -/
structure Compressed (l r : List ℕ) : Prop where
  ne_nil : r ≠ []
  suffix : r <:+ l
  gap : r.headD 0 + 1 ∉ r
  filled : ∀ k, l.headD 0 ≤ k → k ≤ r.headD 0 → k ∈ l

theorem Compressed.headD_le {l r : List ℕ} (hc : Compressed l r) (hs : l.Pairwise (· ≤ ·)) :
    l.headD 0 ≤ r.headD 0 := by
  obtain ⟨g, gs, rfl⟩ := List.exists_cons_of_ne_nil hc.ne_nil
  have hg : g ∈ l := hc.suffix.subset (by simp)
  cases l with
  | nil => cases hg
  | cons f fs =>
    rcases List.mem_cons.mp hg with rfl | hg
    · exact le_rfl
    · exact (List.pairwise_cons.mp hs).1 g hg

/-- An entry that was popped lies at or below the front. -/
theorem Compressed.kept {l r : List ℕ} (hc : Compressed l r) (hs : l.Pairwise (· ≤ ·)) :
    ∀ y ∈ l, y ≤ r.headD 0 ∨ y ∈ r := by
  obtain ⟨pre, rfl⟩ := hc.suffix
  obtain ⟨g, gs, rfl⟩ := List.exists_cons_of_ne_nil hc.ne_nil
  intro y hy
  rcases List.mem_append.mp hy with hy | hy
  · exact .inl ((List.pairwise_append.mp hs).2.2 y hy g (by simp))
  · exact .inr hy

theorem popFront_eq_nil {it : ℕ} {pre : List ℕ} (h : ∀ y ∈ pre, succXid y = it) :
    popFront it pre = [] := by
  induction pre with
  | nil => rfl
  | cons f fs ih =>
    rw [popFront, if_pos (h f (by simp))]
    exact ih fun y hy => h y (List.mem_cons_of_mem f hy)

/-- The loop from a prefix whose front has no successor in it. -/
theorem compress_spec {f : ℕ} {pre post : List ℕ} (hs : (f :: pre ++ post).Pairwise (· ≤ ·))
    (hgap : f + 1 ∉ f :: pre) (hb : ∀ y ∈ f :: pre ++ post, y < 2 ^ 32 - 1) :
    Compressed (f :: pre ++ post) (compress (f :: pre) post) := by
  induction post generalizing f pre with
  | nil =>
    rw [List.append_nil, compress]
    refine ⟨by simp, List.suffix_refl _, hgap, fun k hk hk' => ?_⟩
    obtain rfl : k = f := Nat.le_antisymm hk' hk
    simp
  | cons it post ih =>
    have hfit : ∀ y ∈ f :: pre, f ≤ y ∧ y ≤ it := by
      intro y hy
      refine ⟨?_, (List.pairwise_append.mp hs).2.2 y hy it (by simp)⟩
      rcases List.mem_cons.mp hy with rfl | hy
      · exact le_rfl
      · exact (List.pairwise_cons.mp hs).1 y (by simp [hy])
    have hsucc (y : ℕ) (hy : y ∈ f :: pre) : succXid y = y + 1 :=
      Nat.mod_eq_of_lt (by have := hb y (List.mem_append_left _ hy); omega)
    rw [compress]
    by_cases hit : f + 1 = it
    · have hall : popFront it (f :: pre) = [] := by
        apply popFront_eq_nil
        intro y hy
        obtain ⟨hfy, hyi⟩ := hfit y hy
        have hne : y ≠ f + 1 := fun h => hgap (h ▸ hy)
        rw [hsucc y hy]
        omega
      have hsuf : it :: post <:+ f :: pre ++ it :: post := List.suffix_append _ _
      have h : Compressed ([it] ++ post) (compress [it] post) :=
        ih (hs.sublist hsuf.sublist) (by simp) fun y hy => hb y (hsuf.subset hy)
      rw [hall]
      refine ⟨h.ne_nil, h.suffix.trans hsuf, h.gap, fun k hk hk' => ?_⟩
      rcases Nat.eq_or_lt_of_le hk with rfl | hk
      · simp
      · exact hsuf.subset (h.filled k (by simp at hk ⊢; omega) hk')
    · have hkeep : popFront it (f :: pre) = f :: pre := by
        rw [popFront, hsucc f (by simp), if_neg hit]
      have h : Compressed (f :: (pre ++ [it]) ++ post) (compress (f :: (pre ++ [it])) post) :=
        ih (by simpa using hs) (by simpa [hit] using hgap) (by simpa using hb)
      rw [hkeep]
      simpa using h

/-! ## The window and the reported xids -/

/-- The window `w` stands for the reported xids `R`. -/
structure Acked (R w : List ℕ) : Prop where
  ne_nil : w ≠ []
  sorted : w.Pairwise (· ≤ ·)
  bound : ∀ y ∈ w, y < 2 ^ 32 - 1
  gap : w.headD 0 + 1 ∉ w
  entries : ∀ y ∈ w, 1 ≤ y → y ∈ R
  filled : ∀ k, 1 ≤ k → k ≤ w.headD 0 → k ∈ R
  kept : ∀ y ∈ R, y ≤ w.headD 0 ∨ y ∈ w

theorem acked_nil : Acked [] [0] where
  ne_nil := by simp
  sorted := List.pairwise_singleton _ _
  bound := by simp
  gap := by simp
  entries y hy h1 := by
    rw [List.mem_singleton.mp hy] at h1
    cases h1
  filled k h1 hk := absurd (h1.trans hk) (by simp)
  kept y hy := by cases hy

theorem Acked.update {R w : List ℕ} (h : Acked R w) {x : ℕ} (hx : x < 2 ^ 32 - 1) :
    Acked (x :: R) (updateXidRep w x) := by
  obtain ⟨f, fs, rfl⟩ := List.exists_cons_of_ne_nil h.ne_nil
  by_cases hle : x ≤ f
  · rw [updateXidRep, if_pos hle]
    refine ⟨h.ne_nil, h.sorted, h.bound, h.gap, ?_, ?_, ?_⟩
    · exact fun y hy h1 => List.mem_cons_of_mem x (h.entries y hy h1)
    · exact fun k h1 hk => List.mem_cons_of_mem x (h.filled k h1 hk)
    · intro y hy
      rcases List.mem_cons.mp hy with rfl | hy
      · exact .inl hle
      · exact h.kept y hy
  · have hlt : f < x := Nat.lt_of_not_le hle
    have hperm : ∀ y, y ∈ insertXid x (f :: fs) ↔ y = x ∨ y ∈ f :: fs := fun y =>
      (insertXid_perm x (f :: fs)).mem_iff.trans List.mem_cons
    have hsort : (insertXid x (f :: fs)).Pairwise (· ≤ ·) := insertXid_sorted h.sorted
    have hbound : ∀ y ∈ insertXid x (f :: fs), y < 2 ^ 32 - 1 := by
      intro y hy
      rcases (hperm y).mp hy with rfl | hy
      · exact hx
      · exact h.bound y hy
    have hhead : insertXid x (f :: fs) = f :: insertXid x fs := insertXid_of_lt hlt
    have hupd : updateXidRep (f :: fs) x = compress [f] (insertXid x fs) := by
      rw [updateXidRep, if_neg hle, hhead]
    rw [hhead] at hperm hsort hbound
    have hc : Compressed (f :: insertXid x fs) (updateXidRep (f :: fs) x) := by
      rw [hupd]
      have hgap : f + 1 ∉ [f] := by simp
      exact compress_spec hsort hgap hbound
    have hentry : ∀ y ∈ f :: insertXid x fs, 1 ≤ y → y ∈ x :: R := by
      intro y hy h1
      rcases (hperm y).mp hy with rfl | hy
      · simp
      · exact List.mem_cons_of_mem x (h.entries y hy h1)
    refine ⟨hc.ne_nil, hsort.sublist hc.suffix.sublist, fun y hy => hbound y (hc.suffix.subset hy),
      hc.gap, fun y hy => hentry y (hc.suffix.subset hy), fun k h1 hk => ?_, fun y hy => ?_⟩
    · by_cases hkf : k ≤ f
      · exact List.mem_cons_of_mem x (h.filled k h1 hkf)
      · exact hentry k (hc.filled k (by simp; omega) hk) h1
    · rcases List.mem_cons.mp hy with rfl | hy
      · exact hc.kept hsort _ ((hperm _).mpr (.inl rfl))
      · rcases h.kept y hy with hyf | hy
        · exact .inl (le_trans hyf (hc.headD_le hsort))
        · exact hc.kept hsort y ((hperm y).mpr (.inr hy))

/-- The front is the greatest xid up to which everything has been reported. -/
theorem Acked.isGreatest {R w : List ℕ} (h : Acked R w) :
    IsGreatest {n | ∀ k, 1 ≤ k → k ≤ n → k ∈ R} (w.headD 0) := by
  refine ⟨h.filled, fun n hn => ?_⟩
  by_contra hlt
  rcases h.kept _ (hn (w.headD 0 + 1) (by omega) (by omega)) with hle | hmem
  · omega
  · exact h.gap hmem

def reported (xs : List ℕ) : Option (List ℕ) := xs.foldlM updateXidRepChecked [0]

theorem acked_foldlM {R w xs : List ℕ} (h : Acked R w) (hx : ∀ x ∈ xs, x < 2 ^ 32 - 1) :
    ∃ v, xs.foldlM updateXidRepChecked w = some v ∧ Acked (xs.reverse ++ R) v := by
  induction xs generalizing R w with
  | nil => exact ⟨w, rfl, h⟩
  | cons x xs ih =>
    obtain ⟨v, hv, hav⟩ := ih (h.update (hx x (by simp))) fun y hy => hx y (by simp [hy])
    refine ⟨v, ?_, by simpa using hav⟩
    rw [List.foldlM_cons, updateXidRepChecked_eq h.ne_nil]
    exact hv

/-! ## The client -/

structure ClientState where
  rpcc : Rpcc
  heard : List ℕ

inductive ClientEvent where
  | call (proc : ℕ)
  | reply (xid : ℕ)
  | leave (xid : ℕ)

/-- A reply may come with any xid; only a call that has been made can finish. -/
def clientStep (s : ClientState) : ClientEvent → Option ClientState
  | .call proc => some { s with rpcc := (s.rpcc.call1 proc).2 }
  | .reply xid => some ⟨s.rpcc.gotPdu xid, xid :: s.heard⟩
  | .leave xid => if xid ∈ s.rpcc.calls then some ⟨s.rpcc.leave xid, xid :: s.heard⟩ else none

def client (cltNonce srvNonce : ℕ) : Machine ClientState ClientEvent where
  init := ⟨Rpcc.new cltNonce srvNonce, []⟩
  step := clientStep

/-- The xid an event reports lies below the largest `unsigned int`. -/
def ShortReport : ClientEvent → Prop
  | .call _ => True
  | .reply xid => xid < 2 ^ 32 - 1
  | .leave xid => xid < 2 ^ 32 - 1

/-- The acknowledgement in a new request covers only calls that were heard of. -/
def HeaderCovers (s : ClientState) : ClientEvent → Prop
  | .call proc => ∀ k, 1 ≤ k → k ≤ (s.rpcc.call1 proc).1.xidRep → k ∈ s.heard
  | .reply _ => True
  | .leave _ => True

theorem acked_step {s t : ClientState} {e : ClientEvent} (hs : Acked s.heard s.rpcc.xidRepWindow)
    (he : ShortReport e) (ht : clientStep s e = some t) : Acked t.heard t.rpcc.xidRepWindow := by
  cases e with
  | call proc =>
    cases ht
    exact hs
  | reply xid =>
    cases ht
    exact hs.update he
  | leave xid =>
    rw [clientStep] at ht
    split_ifs at ht
    cases ht
    exact hs.update he

theorem headerCovers_of_acked {s : ClientState} (hs : Acked s.heard s.rpcc.xidRepWindow)
    (e : ClientEvent) : HeaderCovers s e := by
  cases e with
  | call proc => exact hs.filled
  | reply xid => trivial
  | leave xid => trivial

/-- Whatever is reported in whatever order, the loop pops nothing its iterator stands on, the window
stays sorted with the greatest completely reported xid in front, and no request acknowledges a call
that was neither answered nor finished. -/
theorem acknowledged_exact {xs : List ℕ} (hx : ∀ x ∈ xs, x < 2 ^ 32 - 1) (cltNonce srvNonce : ℕ)
    {es : List ClientEvent} (he : ∀ e ∈ es, ShortReport e) :
    (∃ w front, reported xs = some w ∧ w.Pairwise (· ≤ ·) ∧ w.head? = some front ∧
      IsGreatest {n | ∀ k, 1 ≤ k → k ≤ n → k ∈ xs} front) ∧
    (client cltNonce srvNonce).Along HeaderCovers (client cltNonce srvNonce).init es := by
  constructor
  · obtain ⟨w, hw, ha⟩ := acked_foldlM acked_nil hx
    obtain ⟨f, fs, rfl⟩ := List.exists_cons_of_ne_nil ha.ne_nil
    refine ⟨f :: fs, f, hw, ha.sorted, rfl, ?_⟩
    simpa using ha.isGreatest
  · exact (Machine.along_of_forall he).imp (I := fun s => Acked s.heard s.rpcc.xidRepWindow)
      (fun _ _ _ hs he ht => acked_step hs he ht) (fun _ e hs _ => headerCovers_of_acked hs e)
      acked_nil

/-- Reports out of order and repeated, and a client of whose two calls the second is answered. -/
theorem acknowledged_exact_gap :
    (∀ x ∈ [3, 1, 3, 5, 2], x < 2 ^ 32 - 1) ∧
    (∃ w front, reported [3, 1, 3, 5, 2] = some w ∧ w.Pairwise (· ≤ ·) ∧ w.head? = some front ∧
      IsGreatest {n | ∀ k, 1 ≤ k → k ≤ n → k ∈ [3, 1, 3, 5, 2]} front) ∧
    (client 7 3).Along HeaderCovers (client 7 3).init
      [.call 1, .call 1, .reply 2, .leave 2, .call 1] := by
  have hx : ∀ x ∈ [3, 1, 3, 5, 2], x < 2 ^ 32 - 1 := by decide
  have he : ∀ e ∈ [ClientEvent.call 1, .call 1, .reply 2, .leave 2, .call 1], ShortReport e := by
    simp [ShortReport]
  exact ⟨hx, acknowledged_exact hx 7 3 he⟩

example : reported [3, 1, 3, 5, 2] = some [3, 3, 5] := by decide

end YFS.Rpc
