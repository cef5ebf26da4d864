import YFS.Rpc.Callers.Delivery
import YFS.Rpc.Exchange

/-! # Calls that are made one after another

A client that makes its calls one at a time and waits for each reply has at most one call that
is not answered, the last one. As long as its xids arrive at the server in order there is no
gap in its reply window, and the answers of the window are simple.
-/

namespace YFS.Rpc
open YFS.Library

/-! ## Windows without gaps -/

/-- The xids in the window follow one another up to `top`. -/
def Contiguous (w : List Reply) (top : ℕ) : Prop :=
  ∃ f n, w.map Reply.xid = List.range' f (n + 1) ∧ f + n = top

namespace Contiguous
variable {w : List Reply} {top : ℕ}

theorem opened_nil : Contiguous (opened []) 0 := ⟨0, 0, rfl, rfl⟩

theorem le_top (h : Contiguous w top) {e : Reply} (he : e ∈ w) : e.xid ≤ top := by
  obtain ⟨f, n, hw, rfl⟩ := h
  have hmem : e.xid ∈ w.map Reply.xid := List.mem_map_of_mem he
  rw [hw, List.mem_range'_1] at hmem
  omega

theorem ne_nil (h : Contiguous w top) : w ≠ [] := by
  rintro rfl
  obtain ⟨f, n, hw, -⟩ := h
  simp [List.range'_succ] at hw

theorem exists_top (h : Contiguous w top) : ∃ e ∈ w, e.xid = top := by
  obtain ⟨f, n, hw, rfl⟩ := h
  apply List.mem_map.mp
  rw [hw, List.mem_range'_1]
  omega

theorem lastMax (h : Contiguous w top) : LastMax w := by
  intro b hb e he
  obtain ⟨f, n, hw, rfl⟩ := h
  have hlast : (w.map Reply.xid).getLast? = some b.xid := by
    rw [List.getLast?_map, hb]
    rfl
  rw [hw, List.getLast?_range'] at hlast
  simp only [Nat.add_eq_zero_iff, one_ne_zero, and_false, if_false, Option.some.injEq] at hlast
  have hle := le_top ⟨f, n, hw, rfl⟩ he
  omega

theorem concat (h : Contiguous w top) : Contiguous (w ++ [Reply.new (top + 1)]) (top + 1) := by
  obtain ⟨f, n, hw, rfl⟩ := h
  refine ⟨f, n + 1, ?_, by omega⟩
  rw [List.map_append, hw, show n + 1 + 1 = (n + 1) + 1 from rfl, List.range'_concat (n := n + 1)]
  simp [Nat.add_assoc]

theorem tail (h : Contiguous w top) (ht : trims w = true) : Contiguous w.tail top := by
  obtain ⟨f, n, hw, rfl⟩ := h
  match w, ht with
  | e :: a :: r, _ =>
    cases n with
    | zero => simp [List.range'_succ] at hw
    | succ n =>
      refine ⟨f + 1, n, ?_, by omega⟩
      rw [List.range'_succ, List.map_cons] at hw
      exact (List.cons.inj hw).2

theorem moved (h : Contiguous w top) : Contiguous (moved w) top := by
  rw [Rpc.moved]
  split
  · rename_i ht
    exact h.tail ht
  · exact h

theorem addReply (h : Contiguous w top) (x b : ℕ) (sz : ℤ) :
    Contiguous (addReply w x b sz) top := by
  obtain ⟨f, n, hw, htop⟩ := h
  exact ⟨f, n, by rw [addReply_map_xid, hw], htop⟩

theorem opened_addReply (h : Contiguous (opened w) top) (x b : ℕ) (sz : ℤ) :
    Contiguous (opened (Rpc.addReply w x b sz)) top := by
  cases w with
  | nil => exact h
  | cons e w => exact h.addReply x b sz

theorem no_gap (h : Contiguous w top) {pre post : List Reply} {cur next : Reply}
    (hw : w = pre ++ cur :: next :: post) : next.xid = cur.xid + 1 := by
  obtain ⟨f, n, hmap, -⟩ := h
  have hget (i : ℕ) (e : Reply) (hi : w[i]? = some e) : e.xid = f + i := by
    have hx : (w.map Reply.xid)[i]? = some e.xid := by
      rw [List.getElem?_map, hi]
      rfl
    rw [hmap] at hx
    obtain ⟨hlt, hx⟩ := List.getElem?_eq_some_iff.mp hx
    rw [List.getElem_range'] at hx
    omega
  have hcur := hget pre.length cur (by rw [hw]; simp)
  have hnext := hget (pre.length + 1) next (by rw [hw]; simp)
  omega

/-- Everything from the second entry up to the last xid is in the window. -/
theorem fallsThrough_eq (h : Contiguous w top) (x : ℕ) : fallsThrough x w = false := by
  cases w with
  | nil => rfl
  | cons e w =>
    cases w with
    | nil => rfl
    | cons b r =>
      apply Bool.eq_false_of_not_eq_true
      intro hfalls
      simp only [fallsThrough, Bool.and_eq_true, decide_eq_true_eq, List.any_eq_true,
        List.all_eq_true] at hfalls
      obtain ⟨⟨⟨⟨⟨-, -⟩, hb⟩, g, hg, hxg⟩, hne⟩, -⟩ := hfalls
      have hge := h.le_top (List.mem_cons_of_mem _ (List.mem_cons_of_mem _ hg))
      obtain ⟨f, n, hmap, rfl⟩ := h
      cases n with
      | zero => simp [List.range'_succ] at hmap
      | succ n =>
        rw [List.range'_succ, List.range'_succ, List.map_cons, List.map_cons, List.cons.injEq,
          List.cons.injEq] at hmap
        obtain ⟨-, hbx, hr⟩ := hmap
        have hxr : x ∈ r.map Reply.xid := by
          rw [hr, List.mem_range'_1]
          omega
        obtain ⟨e', he', hxe'⟩ := List.mem_map.mp hxr
        exact hne e' he' hxe'

/-- The answer to a request for an xid that is not beyond the next one: the next one is new, an
older one is found or has been forgotten. -/
theorem outcome (h : Contiguous w top) {x : ℕ} {a : Answer} {w' : List Reply}
    (ho : Outcome w x a w') (hx : x ≤ top + 1) :
    (a = ⟨.NEW, none⟩ ∧ x = top + 1 ∧ w' = w ++ [Reply.new x]) ∨
      (x < top ∧ a = ⟨.FORGOTTEN, none⟩ ∨ x ≤ top ∧ ∃ e ∈ w, e.xid = x ∧ a = e.answer) ∧
        (w' = w ∨ w' = Rpc.moved w) := by
  obtain ⟨last, hlast, htop⟩ := h.exists_top
  cases ho with
  | fresh hall =>
    have hlt := hall last hlast
    exact .inl ⟨rfl, by omega, rfl⟩
  | below e r hw hlt =>
    have hle := h.le_top (hw ▸ List.mem_cons_self : e ∈ w)
    exact .inr ⟨.inl ⟨by omega, rfl⟩, .inl rfl⟩
  | dropped e b r hw ht he hlt =>
    have hle := h.le_top (hw ▸ List.mem_cons_of_mem _ List.mem_cons_self : b ∈ w)
    refine .inr ⟨.inl ⟨by omega, rfl⟩, .inr ?_⟩
    rw [Rpc.moved, if_pos ht, hw]
    rfl
  | held e hf hmem hxe =>
    have hmem := mem_of_mem_moved hmem
    exact .inr ⟨.inr ⟨hxe ▸ h.le_top hmem, e, hmem, hxe, rfl⟩, .inr rfl⟩
  | filled pre post cur next hf hw hp hl hr =>
    have hgap := h.moved.no_gap hw
    omega
  | missed hfalls =>
    rw [h.fallsThrough_eq x] at hfalls
    cases hfalls

end Contiguous

/-! ## Replies -/

/-- The PDU is the reply to the run, which has returned `ret`. -/
def Answers (ran : List (Run × BitVec 32 × List Value)) (r : Run) (ret : BitVec 32) (b : Bytes) :
    Prop :=
  ∃ vals, (r, ret, vals) ∈ ran ∧
    IsPdu (.reply (BitVec.ofNat 32 r.header.xid) ret) (encodeAll vals) b ∧ b.length ≤ MAX_PDU

theorem isPdu_sized {h : Header} {payload b : Bytes} (hb : IsPdu h payload b) :
    IsPdu h payload (sized b) ∧ (sized b).length = b.length := by
  obtain ⟨size, pad, rfl, hsize, hpad⟩ := hb.layout
  refine ⟨⟨_, pad, congrArg _ (List.drop_left' hsize), BigEndian.length_toBytes .., hpad⟩, ?_⟩
  apply length_sized
  rw [List.length_append, hsize]
  exact Nat.le_add_right ..

theorem replyBuf_isPdu {mem : ℕ → UInt8} {xid : ℕ} {ret : BitVec 32} {vals : List Value} {b : Bytes}
    (hfit : RPC_HEADER_SZ + (encodeAll vals).length ≤ MAX_PDU)
    (h : replyBuf mem xid ret vals = some b) :
    IsPdu (.reply (BitVec.ofNat 32 xid) ret) (encodeAll vals) b ∧ b.length ≤ MAX_PDU := by
  obtain ⟨m, m', hm, hpack, hpdu, hlen⟩ := isPdu_of_append (Appends.putAll vals)
    (.reply (BitVec.ofNat 32 xid) ret) mem (lt_of_le_of_lt hfit (by decide))
  rw [replyBuf, (run_bind hm).trans hpack, Option.map_some, Option.some.injEq] at h
  subst h
  exact ⟨hpdu, hlen.le.trans hfit⟩

theorem replyHeader_of_isPdu {xid ret : BitVec 32} {payload b : Bytes}
    (h : IsPdu (.reply xid ret) payload b) (hle : b.length ≤ MAX_PDU) :
    replyHeader b = some (xid, ret) := by
  obtain ⟨hun, -, -⟩ := unpackLike_of_isPdu h (lt_of_le_of_lt hle (by decide))
  rw [replyHeader, show Header.unpackReply (Unmarshall.new b) = _ from hun]
  rfl

theorem Answers.mono {ran ran' : List (Run × BitVec 32 × List Value)} {r : Run} {ret : BitVec 32}
    {b : Bytes} (h : Answers ran r ret b) (hsub : ran ⊆ ran') : Answers ran' r ret b := by
  obtain ⟨vals, hmem, hrest⟩ := h
  exact ⟨vals, hsub hmem, hrest⟩

theorem Answers.sized {ran : List (Run × BitVec 32 × List Value)} {r : Run} {ret : BitVec 32}
    {b : Bytes} (h : Answers ran r ret b) : Answers ran r ret (sized b) := by
  obtain ⟨vals, hmem, hpdu, hle⟩ := h
  obtain ⟨hpdu, hlen⟩ := isPdu_sized hpdu
  exact ⟨vals, hmem, hpdu, hlen.le.trans hle⟩

/-! ## A client that makes one call at a time -/

namespace Callers
variable {ι : Type} [DecidableEq ι]

/-- A call begins when no other one is under way, and waits for its reply. The client knows the
server by its nonce, and does not run out of xids. -/
def Steady (cl : Callers ι) (nonce : ℕ) : CallEvent ι → Prop
  | .call1 _ _ => (∀ j, cl.pc j ≠ .waiting) ∧ cl.registered + 2 < 2 ^ 32
  | .leave k => (cl.callers k).done = true
  | .cancel => False
  | .bound n => n = nonce
  | _ => True

structure Sequential (cl : Callers ι) (nonce : ℕ) : Prop where
  inv : cl.Inv
  short : cl.registered + 1 < 2 ^ 32
  bound : cl.srvNonce = 0 ∨ cl.srvNonce = nonce
  request : ∀ k h, (cl.callers k).request = some h →
    (h.srvNonce = 0 ∨ h.srvNonce = nonce) ∧ 1 ≤ h.xid ∧ h.xid ≤ cl.registered
  distinct : ∀ j k h h', (cl.callers j).request = some h → (cl.callers k).request = some h' →
    h.xid = h'.xid → j = k
  idle : ∀ k, cl.pc k = .idle → (cl.callers k).request = none ∧ (cl.callers k).done = false
  waiting : ∀ k, cl.pc k = .waiting → (cl.callers k).done = false → (cl.callers k).xid = cl.registered
  left : ∀ k, cl.pc k = .left → (cl.callers k).done = true
  returned : ∀ k ret h, cl.pc k = .returned ret → (cl.callers k).request = some h →
    (cl.callers k).done = true ∧ (cl.callers k).intret = ret

section Sequential
variable {cl cl' : Callers ι} {nonce : ℕ} {k : ι} (hq : Sequential cl nonce)
include hq

omit [DecidableEq ι] in
/-- A call that has not been answered is the last one. -/
theorem Sequential.xid_eq {h : ReqHeader} (hreq : (cl.callers k).request = some h)
    (hdone : (cl.callers k).done = false) : cl.pc k = .waiting ∧ h.xid = cl.registered := by
  have hwait : cl.pc k = .waiting := by
    cases hpc : cl.pc k with
    | idle =>
      rw [(hq.idle k hpc).1] at hreq
      cases hreq
    | waiting => rfl
    | left =>
      rw [hq.left k hpc] at hdone
      cases hdone
    | returned ret =>
      rw [(hq.returned k ret h hpc hreq).1] at hdone
      cases hdone
  exact ⟨hwait, ((hq.inv.known k).numbered h hreq).1.trans (hq.waiting k hwait hdone)⟩

theorem Sequential.register {proc : ℕ} (hk : cl.pc k = .idle) (hnone : ∀ j, cl.pc j ≠ .waiting)
    (hshort : cl.registered + 2 < 2 ^ 32) : Sequential (cl.register k proc) nonce := by
  have hxid : cl.xid = 1 + cl.registered := by
    rw [hq.inv.xid]
    exact Nat.mod_eq_of_lt (by omega)
  have hother {j : ι} (hj : j ≠ k) : (cl.register k proc).pc j = cl.pc j ∧
      (cl.register k proc).callers j = cl.callers j := register_of_ne hj
  refine ⟨hq.inv.register hk, hshort, hq.bound, fun j h hreq => ?_, fun i j h h' hi hj hx => ?_,
    fun j hj => ?_, fun j hj hdone => ?_, fun j hj => ?_, fun j ret h hj hreq => ?_⟩
  · by_cases hjk : j = k
    · subst hjk
      simp only [Callers.register, Function.update_self, Option.some.injEq] at hreq
      subst hreq
      exact ⟨hq.bound, by dsimp only; omega, by simp only [Callers.register]; omega⟩
    · rw [(hother hjk).2] at hreq
      obtain ⟨hsrv, hmin, hmax⟩ := hq.request j h hreq
      exact ⟨hsrv, hmin, by simp only [Callers.register]; omega⟩
  · have hnew {j : ι} {h : ReqHeader} (hreq : (cl.callers j).request = some h) : h.xid < cl.xid := by
      have hle := (hq.request j h hreq).2.2
      omega
    by_cases hik : i = k <;> by_cases hjk : j = k
    · rw [hik, hjk]
    · subst hik
      rw [(hother hjk).2] at hj
      simp only [Callers.register, Function.update_self, Option.some.injEq] at hi
      subst hi
      exact absurd hx (hnew hj).ne'
    · subst hjk
      rw [(hother hik).2] at hi
      simp only [Callers.register, Function.update_self, Option.some.injEq] at hj
      subst hj
      exact absurd hx (hnew hi).ne
    · rw [(hother hik).2] at hi
      rw [(hother hjk).2] at hj
      exact hq.distinct i j h h' hi hj hx
  · have hjk : j ≠ k := by
      rintro rfl
      simp [Callers.register] at hj
    rw [(hother hjk).1] at hj
    rw [(hother hjk).2]
    exact hq.idle j hj
  · have hjk : j = k := by
      by_contra hjk
      rw [(hother hjk).1] at hj
      exact hnone j hj
    subst hjk
    simp only [Callers.register, Function.update_self]
    omega
  · have hjk : j ≠ k := by
      rintro rfl
      simp [Callers.register] at hj
    rw [(hother hjk).1] at hj
    rw [(hother hjk).2]
    exact hq.left j hj
  · have hjk : j ≠ k := by
      rintro rfl
      simp [Callers.register] at hj
    rw [(hother hjk).1] at hj
    rw [(hother hjk).2] at hreq ⊢
    exact hq.returned j ret h hj hreq

theorem Sequential.setPc {p : CallPc} {calls : AList fun _ : ℕ => ι} {window : List ℕ}
    (hinv : Inv { cl with
      calls := calls
      xidRepWindow := window
      pc := Function.update cl.pc k p })
    (hidle : p ≠ .idle) (hwait : p ≠ .waiting) (hleft : p = .left → (cl.callers k).done = true)
    (hret : ∀ ret h, p = .returned ret → (cl.callers k).request = some h →
      (cl.callers k).done = true ∧ (cl.callers k).intret = ret) :
    Sequential { cl with
      calls := calls
      xidRepWindow := window
      pc := Function.update cl.pc k p } nonce := by
  have hpc {j : ι} {p' : CallPc} (hj : Function.update cl.pc k p j = p') :
      (j = k ∧ p = p') ∨ cl.pc j = p' := by
    by_cases hjk : j = k
    · subst hjk
      exact .inl ⟨rfl, (Function.update_self ..).symm.trans hj⟩
    · exact .inr ((Function.update_of_ne hjk ..).symm.trans hj)
  refine
    { hq with
      inv := hinv
      idle := fun j hj => ?_
      waiting := fun j hj => ?_
      left := fun j hj => ?_
      returned := fun j ret h hj hreq => ?_ }
  · rcases hpc hj with ⟨-, hp⟩ | hj
    · exact absurd hp hidle
    · exact hq.idle j hj
  · rcases hpc hj with ⟨-, hp⟩ | hj
    · exact absurd hp hwait
    · exact hq.waiting j hj
  · rcases hpc hj with ⟨rfl, hp⟩ | hj
    · exact hleft hp
    · exact hq.left j hj
  · rcases hpc hj with ⟨rfl, hp⟩ | hj
    · exact hret ret h hp hreq
    · exact hq.returned j ret h hj hreq

theorem Sequential.complete {ca : Caller} {window : List ℕ} {received : List Bytes}
    {completedBy : ι → Option ℕ} (hk : cl.pc k = .waiting)
    (hreq : ca.request = (cl.callers k).request) (hdone : ca.done = true)
    (hinv : Inv { cl with
      xidRepWindow := window
      received := received
      callers := Function.update cl.callers k ca
      completedBy := completedBy }) :
    Sequential { cl with
      xidRepWindow := window
      received := received
      callers := Function.update cl.callers k ca
      completedBy := completedBy } nonce := by
  have hsame (j : ι) : (Function.update cl.callers k ca j).request = (cl.callers j).request := by
    by_cases hjk : j = k
    · subst hjk
      rw [Function.update_self, hreq]
    · rw [Function.update_of_ne hjk]
  have hother {j : ι} {p : CallPc} (hj : cl.pc j = p) (hp : p ≠ .waiting) :
      Function.update cl.callers k ca j = cl.callers j := by
    apply Function.update_of_ne
    rintro rfl
    exact hp (hj.symm.trans hk)
  refine
    { hq with
      inv := hinv
      request := fun j h hr => ?_
      distinct := fun i j h h' hi hj => ?_
      idle := fun j hj => ?_
      waiting := fun j hj hd => ?_
      left := fun j hj => ?_
      returned := fun j ret h hj hr => ?_ }
  · exact hq.request j h ((hsame j).symm.trans hr)
  · exact hq.distinct i j h h' ((hsame i).symm.trans hi) ((hsame j).symm.trans hj)
  · dsimp only
    rw [hother hj (by simp)]
    exact hq.idle j hj
  · have hjk : j ≠ k := by
      rintro rfl
      simp [hdone] at hd
    simp only [Function.update_of_ne hjk] at hd ⊢
    exact hq.waiting j hj hd
  · dsimp only
    rw [hother hj (by simp)]
    exact hq.left j hj
  · dsimp only at hr ⊢
    rw [hother hj (by simp)] at hr ⊢
    exact hq.returned j ret h hj hr

theorem Sequential.step {e : CallEvent ι} (he : cl.Steady nonce e) (hs : cl.step e = some cl') :
    Sequential cl' nonce := by
  have hinv := hq.inv.step hs
  cases e with
  | call1 k proc =>
    simp only [Callers.step, Option.ite_none_right_eq_some] at hs
    obtain ⟨hk, hs⟩ := hs
    split at hs
    · cases hs
      refine hq.setPc hinv (by simp) (by simp) (by simp) fun ret h _ hreq => ?_
      rw [(hq.idle k hk).1] at hreq
      cases hreq
    · cases hs
      exact hq.register hk he.1 he.2
  | gotPdu b =>
    simp only [Callers.step] at hs
    split at hs
    · cases hs
      exact { hq with inv := hinv }
    · rename_i xid ret hb
      simp only [Callers.accept, Option.some.injEq] at hs
      split at hs
      · subst hs
        exact { hq with inv := hinv }
      · rename_i k hlookup
        split at hs
        · subst hs
          exact { hq with inv := hinv }
        · subst hs
          exact hq.complete (hq.inv.listed _ k hlookup).1 rfl rfl hinv
  | cancel => exact he.elim
  | leave k =>
    simp only [Callers.step, Option.ite_none_right_eq_some, Option.some.injEq] at hs
    obtain ⟨hwait, rfl⟩ := hs
    exact hq.setPc hinv (by simp) (by simp) (fun _ => he) (by simp)
  | ret k =>
    simp only [Callers.step, Option.ite_none_right_eq_some, Option.some.injEq] at hs
    obtain ⟨hleft, rfl⟩ := hs
    refine hq.setPc hinv (by simp) (by simp) (by simp) fun ret h hp _ => ?_
    have hdone := hq.left k hleft
    refine ⟨hdone, ?_⟩
    simpa [Caller.result, hdone] using hp
  | bound n =>
    cases hs
    exact { hq with inv := hinv, bound := .inr he }

end Sequential
end Callers
end YFS.Rpc
