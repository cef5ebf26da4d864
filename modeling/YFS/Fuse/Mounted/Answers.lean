import YFS.Fuse.Mounted.Sizes
import YFS.Fuse.Mounted.Volume

/-! # Handlers on the tree of a store -/

namespace YFS.Fuse
open YFS.Library YFS.Extent YFS.Fs

structure Sound (s : Store) : Prop where
  linked : Linked s.contents
  sized : Sized s
  short : Short (tree s.contents)

theorem Sound.init (start : ℕ) : Sound (Store.init start) where
  linked := linked_init start
  sized := .init start
  short := by
    rw [tree_init]
    exact short_init

section Nodes
variable {s : Store} {ino : ℕ}

theorem find_of_tree_none (hino : ino < 2 ^ 32) (ht : tree s.contents ino = none) :
    s.find ino = none := by
  apply Store.find_of_contents_none
  rw [key, Nat.mod_eq_of_lt hino]
  exact Option.map_eq_none_iff.mp ht

/-- Only the inums with the bit are those of files. -/
theorem not_file_of_isfile (hfile : ¬ isfile ino = true) (b : Bytes) :
    tree s.contents ino ≠ some (.file b) := by
  intro hb
  obtain ⟨text, -, hnode⟩ := Option.map_eq_some_iff.mp hb
  rw [nodeOf, if_neg hfile] at hnode
  cases hnode

end Nodes

namespace Sound
variable {s : Store} (h : Sound s)
include h

/-- An operation that returns on the tree returns the same on the store. -/
theorem perform {q : Fs.Request} {r : Fs.Reply} {t : Tree} (hq : q.Proper) (hs : q.Short)
    (hsize : ∀ target newSize, q.call = .resize target newSize → newSize < 2 ^ 32)
    (hfresh : ∀ n, q.drawn = some n → tree s.contents n = none)
    (hx : (tree s.contents).exec q = (.returned r, t)) (now : ℕ → ℕ) :
    ∃ s', (Op.yfs q.call).perform (Env.reliable now q.random) s = some (⟨r, ⟨0, 0, 0, 0⟩⟩, s') ∧
      Sound s' ∧ tree s'.contents = t := by
  have hout := q.call.prog.outcome_reliable now q.random s
  have hend : (q.call.prog.run (Env.reliable now q.random) s).1 = (q.exec s.contents).1 :=
    congrArg Prod.fst hout
  have hleft : (q.call.prog.run (Env.reliable now q.random) s).2.contents =
      (q.exec s.contents).2 := congrArg Prod.snd hout
  have hexec := h.linked.tree_exec hq hs
  have hshort := h.short.exec hs hsize
  rw [hx] at hexec hshort
  obtain ⟨hret, ht⟩ := Prod.mk.inj hexec
  refine ⟨(q.call.prog.run (Env.reliable now q.random) s).2, ?_, ⟨?_, ?_, ?_⟩, ?_⟩
  · rw [← hret] at hend
    simp only [Op.perform]
    rw [← Prod.eta (q.call.prog.run (Env.reliable now q.random) s), hend]
  · rw [hleft]
    apply h.linked.exec hq
    intro n hn
    rw [key, Nat.mod_eq_of_lt (q.drawn_lt hn)]
    exact .inr (Option.map_eq_none_iff.mp (hfresh n hn))
  · exact h.sized.run _ _
  · rw [hleft, ← ht]
    exact hshort
  · rw [hleft, ht]

theorem find_of_tree {ino : ℕ} {x : Node} (hino : ino < 2 ^ 32)
    (hx : tree s.contents ino = some x) :
    ∃ r, s.find ino = some r ∧ x = nodeOf ino r.buf ∧
      (isfile ino = true → r.a.size = r.buf.length) := by
  obtain ⟨b, hb, rfl⟩ := Option.map_eq_some_iff.mp hx
  have hkey : key ino = ino := Nat.mod_eq_of_lt hino
  rw [← hkey] at hb
  obtain ⟨r, hr, rfl⟩ := Store.find_of_contents hb
  refine ⟨r, hr, rfl, fun hfile => ?_⟩
  rw [hkey] at hb
  have hlt : r.buf.length < 2 ^ 32 := h.short ino r.buf (tree_of_file hfile hb)
  rw [h.sized (key ino) r hr, Store.uint, Nat.mod_eq_of_lt hlt]

end Sound

/-- A handler sends these replies, times aside, and leaves this tree. -/
structure Answers (env : ℕ → Env) (hd : Handler) (i : ℕ) (s : Store)
    (x : List FuseReply × Tree) : Prop where
  replies : (hd.perform env i s).map FuseReply.untimed = x.1
  leaves : tree (hd.left env i s).contents = x.2
  sound : Sound (hd.left env i s)

section Answers
variable {env : ℕ → Env} {i : ℕ} {s : Store} {x : List FuseReply × Tree}

theorem Sound.answers_done (h : Sound s) : Answers env .done i s ([], tree s.contents) :=
  ⟨rfl, rfl, h⟩

theorem Sound.answers (h : Sound s) (r : FuseReply) :
    Answers env (.answer r) i s ([r.untimed], tree s.contents) :=
  ⟨rfl, rfl, h⟩

theorem Answers.call {op : Op} {next : Result → Handler} {r : Result} {s' : Store}
    (hop : op.perform (env i) s = some (r, s')) (h : Answers env (next r) (i + 1) s' x) :
    Answers env (.call op next) i s x := by
  constructor
  · rw [Handler.perform, hop]
    exact h.replies
  · rw [Handler.left, hop]
    exact h.leaves
  · rw [Handler.left, hop]
    exact h.sound

theorem Answers.of_pos {c : Prop} [Decidable c] {hd hd' : Handler} (hc : c)
    (h : Answers env hd i s x) : Answers env (if c then hd else hd') i s x := by
  rw [if_pos hc]
  exact h

theorem Answers.of_neg {c : Prop} [Decidable c] {hd hd' : Handler} (hc : ¬ c)
    (h : Answers env hd' i s x) : Answers env (if c then hd else hd') i s x := by
  rw [if_neg hc]
  exact h

/-- `getattr` of fuse.cc goes on with the attributes of the node, if there is one. -/
theorem Sound.answers_getattr (h : Sound s) {ino : ℕ} (hino : ino < 2 ^ 32)
    {next : ℤ → Stat → Handler}
    (hsome : ∀ st, Volume.stat (tree s.contents) ino = some st.untimed →
      Answers env (next OK st) (i + 1) s x)
    (hnone : Volume.stat (tree s.contents) ino = none →
      Answers env (next IOERR (.zero ino)) (i + 1) s x) :
    Answers env (getattr ino next) i s x := by
  cases ht : tree s.contents ino with
  | none =>
    have hfind : s.find ino = none := find_of_tree_none hino ht
    have hst : Volume.stat (tree s.contents) ino = none := by rw [Volume.stat, ht]
    rw [getattr]
    split
    · apply Answers.call
      · simp only [Op.perform, Store.getattr, hfind]
        rfl
      · exact hnone hst
    · apply Answers.call
      · simp only [Op.perform, Store.getattr, hfind]
        rfl
      · exact hnone hst
  | some x =>
    obtain ⟨r, hr, rfl, hsize⟩ := h.find_of_tree hino ht
    rw [getattr]
    split
    · rename_i hfile
      apply Answers.call
      · simp only [Op.perform, Store.getattr, hr]
        rfl
      · apply hsome
        rw [Volume.stat, ht, nodeOf, if_pos hfile]
        dsimp only
        rw [← hsize hfile]
        rfl
    · rename_i hfile
      apply Answers.call
      · simp only [Op.perform, Store.getattr, hr]
        rfl
      · apply hsome
        rw [Volume.stat, ht, nodeOf, if_neg hfile]
        rfl

theorem Sound.answers_found (h : Sound s) {ino ino' : ℕ} (hino : ino' = ino) (hlt : ino < 2 ^ 32)
    {success : Entry → FuseReply} (hsuccess : ∀ e, (success e).untimed = success e.untimed)
    {next : ℤ → Stat → Handler} (hok : ∀ st, next OK st = .answer (success ⟨ino', 0, st, 0, 0⟩))
    (herr : Volume.stat (tree s.contents) ino = none →
      next IOERR (.zero ino) = .answer (.err ENOENT)) :
    Answers env (getattr ino' next) i s
      ([Volume.found (tree s.contents) success ino], tree s.contents) := by
  subst hino
  apply h.answers_getattr hlt
  · intro st hst
    rw [hok, Volume.found, hst]
    have hans : Answers env (.answer (success ⟨ino', 0, st, 0, 0⟩)) (i + 1) s _ := h.answers _
    rw [hsuccess] at hans
    exact hans
  · intro hst
    rw [herr hst, Volume.found, hst]
    exact h.answers _

end Answers

section Handlers
variable {v : Visit} {s : Store} (h : Sound s)
include h

/-- What an entry of a directory refers to has 32 bits. -/
theorem Sound.child_lt {parent i : ℕ} {es : List (Bytes × ℕ)} {name : Bytes}
    (hp : tree s.contents parent = some (.dir es)) (hi : Tree.child es name = some i) :
    i < 2 ^ 32 := by
  obtain ⟨text, hc, hnode⟩ := Option.map_eq_some_iff.mp hp
  rw [nodeOf] at hnode
  split at hnode
  · cases hnode
  · rename_i hfile
    cases hnode
    obtain ⟨e, he, rfl⟩ := Option.map_eq_some_iff.mp hi
    have hmem : e.2 ∈ refs s.contents parent := by
      rw [refs, if_neg hfile, hc]
      exact List.mem_map_of_mem (List.mem_of_find?_eq_some he)
    exact (h.linked.present parent e.2 hmem).1

/-- A handler calls an operation that returns, and goes on. -/
theorem Sound.answers_yfs {c : Fs.Call} {r : Fs.Reply} {t : Tree} {i : ℕ} {next : Result → Handler}
    {x : List FuseReply × Tree} (hq : Fs.Request.Fit ⟨c, v.random⟩)
    (hsize : ∀ target newSize, c = .resize target newSize → newSize < 2 ^ 32)
    (hfresh : ∀ n, Fs.Request.drawn ⟨c, v.random⟩ = some n → tree s.contents n = none)
    (hx : (tree s.contents).exec ⟨c, v.random⟩ = (.returned r, t))
    (hnext : ∀ s', Sound s' → tree s'.contents = t →
      Answers v.env (next ⟨r, ⟨0, 0, 0, 0⟩⟩) (i + 1) s' x) :
    Answers v.env (.call (.yfs c) next) i s x := by
  obtain ⟨s', hop, hs', ht⟩ := h.perform hq.1 hq.2 hsize hfresh hx (v.now i)
  exact Answers.call hop (hnext s' hs' ht)

/-- A handler calls an operation that draws no inum and gives no file a new size. -/
theorem Sound.answers_plain {c : Fs.Call} {r : Fs.Reply} {t : Tree} {i : ℕ}
    {next : Result → Handler} {x : List FuseReply × Tree} (hq : Fs.Request.Fit ⟨c, v.random⟩)
    (hsize : ∀ target newSize, c ≠ .resize target newSize)
    (hdrawn : Fs.Request.drawn ⟨c, v.random⟩ = none)
    (hx : (tree s.contents).exec ⟨c, v.random⟩ = (.returned r, t))
    (hnext : ∀ s', Sound s' → tree s'.contents = t →
      Answers v.env (next ⟨r, ⟨0, 0, 0, 0⟩⟩) (i + 1) s' x) :
    Answers v.env (.call (.yfs c) next) i s x := by
  apply h.answers_yfs hq _ _ hx hnext
  · intro target newSize hc
    exact absurd hc (hsize target newSize)
  · intro n hn
    rw [hdrawn] at hn
    cases hn

end Handlers

end YFS.Fuse
