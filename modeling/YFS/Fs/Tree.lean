import YFS.Dir.Readers
import YFS.Extent.FileStore
import YFS.Fs.Linked

/-! # The file system as a tree

What the file system is for: inums stand for directories, which are lists of named inums, and
for files, which are byte strings. The operations are stated on these, without texts, keys and
extents. An operation of the client on a linked store does what the operation of the same name
does to the tree that the store holds.
-/

namespace YFS.Fs
open YFS.Library YFS.Extent YFS.Dir

/-- What an inum stands for; the entries of a directory are in the order of their creation. -/
inductive Node where
  | dir (entries : List (Bytes × ℕ))
  | file (data : Bytes)
  deriving DecidableEq, Repr

abbrev Tree := ℕ → Option Node

namespace Tree

def blank (isfile : Bool) : Node := if isfile then .file [] else .dir []

def child (es : List (Bytes × ℕ)) (name : Bytes) : Option ℕ :=
  (es.find? (named name)).map Prod.snd

/-- A new node under a name; `new` is its inum, if one could be drawn. -/
def add (t : Tree) (parent : ℕ) (name : Bytes) (isfile : Bool) (new : Option ℕ) : Ending × Tree :=
  match t parent with
  | some (.dir es) =>
    match child es name with
    | some i => (.returned { Reply.of EXIST with inum := some i }, t)
    | none =>
      match new with
      | none => (.drawing, t)
      | some n => (.returned { Reply.of OK with inum := some n },
          Function.update (Function.update t n (some (blank isfile))) parent
            (some (.dir (es ++ [(name, n)]))))
  | _ => (.returned (Reply.of NOENT), t)

/-- A name goes, and with it the node it stands for, be it a directory with entries of its own. -/
def remove (t : Tree) (parent : ℕ) (name : Bytes) : Ending × Tree :=
  match t parent with
  | some (.dir es) =>
    match child es name with
    | none => (.returned (Reply.of IOERR), t)
    | some i => (.returned (Reply.of OK),
        Function.update (Function.update t i none) parent (some (.dir (es.eraseP (named name)))))
  | _ => (.returned (Reply.of NOENT), t)

def lookup (t : Tree) (parent : ℕ) (name : Bytes) : Ending :=
  match t parent with
  | some (.dir es) =>
    match child es name with
    | none => .returned (Reply.of NOENT)
    | some i => .returned { Reply.of OK with inum := some i }
  | _ => .returned (Reply.of NOENT)

def readir (t : Tree) (parent : ℕ) : Ending :=
  match t parent with
  | some (.dir es) => .returned { Reply.of OK with dirents := es }
  | _ => .returned (Reply.of NOENT)

def resize (t : Tree) (target newSize : ℕ) : Ending × Tree :=
  match t target with
  | some (.file b) => (.returned (Reply.of OK),
      Function.update t target (some (.file (Files.resized b newSize))))
  | _ => (.returned (Reply.of NOENT), t)

/-- Reading at the end of a file or behind it is an error. -/
def read (t : Tree) (target size offset : ℕ) : Ending :=
  match t target with
  | some (.file b) =>
    if offset < b.length then .returned { Reply.of OK with data := Files.slice b size offset }
    else .returned (Reply.of IOERR)
  | _ => .returned (Reply.of NOENT)

def write (t : Tree) (target : ℕ) (buf : Bytes) (offset : ℕ) : Ending × Tree :=
  match t target with
  | some (.file b) => (.returned { Reply.of OK with wrtb := some buf.length },
      Function.update t target (some (.file (Files.overwritten b offset buf))))
  | _ => (.returned (Reply.of NOENT), t)

def exec (q : Request) (t : Tree) : Ending × Tree :=
  match q.call with
  | .create parent name => t.add parent name true q.drawn
  | .mkadir parent name => t.add parent name false q.drawn
  | .remove parent name => t.remove parent name
  | .lookup parent name => (t.lookup parent name, t)
  | .readir parent => (t.readir parent, t)
  | .resize target newSize => t.resize target newSize
  | .read target size offset => (t.read target size offset, t)
  | .write target buf offset => t.write target buf offset

def init : Tree := Function.update (fun _ => none) 1 (some (.dir []))

end Tree

def nodeOf (k : ℕ) (b : Bytes) : Node := if isfile k then .file b else .dir (entries b)

def tree (c : Contents) : Tree := fun k => (c k).map (nodeOf k)

def Request.Short (q : Request) : Prop :=
  match q.call with
  | .create parent _ | .mkadir parent _ | .remove parent _ | .lookup parent _ | .readir parent =>
    parent < 2 ^ 32
  | .resize target _ => target < 2 ^ 32
  | .read target _ offset => target < 2 ^ 32 ∧ offset < 2 ^ 32
  | .write target buf offset => target < 2 ^ 32 ∧ offset + buf.length < 2 ^ 32

instance : (q : Request) → Decidable q.Short
  | ⟨.create _ _, _⟩ | ⟨.mkadir _ _, _⟩ | ⟨.remove _ _, _⟩ | ⟨.lookup _ _, _⟩ | ⟨.readir _, _⟩
  | ⟨.resize _ _, _⟩ => inferInstanceAs (Decidable (_ < _))
  | ⟨.read _ _ _, _⟩ | ⟨.write _ _ _, _⟩ => inferInstanceAs (Decidable (_ ∧ _))

/-! ## The tree of a store -/

theorem tree_init (now : ℕ) : tree (Store.init now).contents = Tree.init := by
  have hinit : (Store.init now).contents = Function.update (fun _ : ℕ => none) 1 (some []) :=
    Store.contents_put ..
  funext k
  rw [tree, hinit, Tree.init]
  by_cases hk : k = 1
  · subst hk
    rfl
  · rw [Function.update_of_ne hk, Function.update_of_ne hk]
    rfl

section Nodes
variable {c : Contents} {k : ℕ} {b : Bytes}

theorem tree_of_none (hc : c k = none) : tree c k = none := by
  rw [tree, hc]
  rfl

theorem tree_of_file (hk : isfile k = true) (hc : c k = some b) : tree c k = some (.file b) := by
  rw [tree, hc, Option.map_some, nodeOf, if_pos hk]

theorem tree_of_dir (hk : isfile k = false) (hc : c k = some b) :
    tree c k = some (.dir (entries b)) := by
  rw [tree, hc, Option.map_some, nodeOf, if_neg (by simp [hk])]

theorem tree_update (c : Contents) (k : ℕ) (v : Option Bytes) :
    tree (Function.update c k v) = Function.update (tree c) k (v.map (nodeOf k)) := by
  funext j
  by_cases hj : j = k
  · subst hj
    rw [tree, Function.update_self, Function.update_self]
  · rw [tree, Function.update_of_ne hj, Function.update_of_ne hj]
    rfl

end Nodes

/-- `dir_find` finds the inum that the name stands for in the tree. -/
theorem dirFind_inum (text name : Bytes) :
    (dirFind text name).map Found.inum = Tree.child (entries text) name :=
  findFrom_inum name 0 (lines text)

theorem child_of_none {text name : Bytes} (h : dirFind text name = none) :
    Tree.child (entries text) name = none := by
  rw [← dirFind_inum, h]
  rfl

theorem child_of_some {text name : Bytes} {f : Found} (h : dirFind text name = some f) :
    Tree.child (entries text) name = some f.inum := by
  rw [← dirFind_inum, h]
  rfl

theorem entries_append_entLine (d : List (Option Entry)) {name : Bytes} {n : ℕ}
    (hname : Clean name) (hn : n < 2 ^ 64) :
    entries (render d ++ entLine name n) = entries (render d) ++ [(name, n)] := by
  have hline : entLine name n = render [some ⟨name, n, hname, hn⟩] :=
    entLine_eq_render ⟨name, n, hname, hn⟩
  rw [hline, ← render_append, entries_render, entries_render, List.reduceOption_append,
    List.map_append]
  rfl

theorem entries_erase {d : List (Option Entry)} {name : Bytes} {f : Found}
    (h : dirFind (render d) name = some f) :
    ∃ buf, erase (render d) f.bufoff f.buflen = some buf ∧
      entries buf = (entries (render d)).eraseP (named name) := by
  obtain ⟨d₁, e, d₂, rfl, hname, hne, rfl⟩ := dirFind_render_first h
  refine ⟨_, erase_render d₁ e d₂, ?_⟩
  have hpass : ∀ ent ∈ d₁.reduceOption.map (fun e => (e.name, e.inum)), ¬ named name ent = true := by
    intro ent hent
    obtain ⟨e', he', rfl⟩ := List.mem_map.mp hent
    simpa [named] using hne e' (List.reduceOption_mem_iff.mp he')
  rw [entries_render, entries_render, List.reduceOption_append, List.reduceOption_append,
    List.reduceOption_cons_of_none, List.reduceOption_cons_of_some, List.map_append,
    List.map_append, List.map_cons, List.eraseP_append_right _ hpass,
    List.eraseP_cons_of_pos (by simp [named, hname])]

theorem isfile_of_newInum {parent : ℕ} {isfile' : Bool} {rs rs' : List Random} {n : ℕ}
    (h : newInum parent isfile' rs = some (n, rs')) : isfile n = isfile' := by
  induction rs with
  | nil => cases h
  | cons r rs ih =>
    have hkind : isfile (if isfile' then r.val ||| 0x80000000 else r.val &&& 0x7fffffff) =
        isfile' := by
      have hset : Nat.testBit 0x80000000 31 = true := by decide
      have hclear : Nat.testBit 0x7fffffff 31 = false := by decide
      cases isfile' with
      | true => simp [isfile, Nat.testBit_or, hset]
      | false => simp [isfile, Nat.testBit_and, hclear]
    rw [newInum] at h
    generalize (if isfile' then r.val ||| 0x80000000 else r.val &&& 0x7fffffff) = k at h hkind
    split at h
    · exact ih h
    · cases h
      exact hkind

/-! ## The operations on the tree of a store -/

theorem Prog.exec_dirAddEntry (parent : ℕ) (name : Bytes) (isfile' : Bool) (rs : List Random)
    (c : Contents) : (dirAddEntry parent name isfile').exec rs c =
      addEffect (Env.reliable (fun _ => 0) rs) c parent name isfile' := by
  rw [Prog.exec_eq_outcome, outcome_dirAddEntry, contents_ofContents]

section Refine
variable {c : Contents} (h : Linked c) {parent : ℕ} {rs : List Random}
include h

theorem tree_add {name : Bytes} {isfile' : Bool} (hp : isfile parent = false)
    (hs : parent < 2 ^ 32) (hname : Clean name) :
    (tree c).add parent name isfile' (drawn parent isfile' rs) =
      (((dirAddEntry parent name isfile').exec rs c).1,
        tree ((dirAddEntry parent name isfile').exec rs c).2) := by
  have hkey : key parent = parent := Nat.mod_eq_of_lt hs
  rw [Prog.exec_dirAddEntry, addEffect, Tree.add]
  dsimp only [Env.reliable]
  rw [hkey]
  cases hc : c parent with
  | none => rw [tree_of_none hc]
  | some text =>
    obtain ⟨d, rfl⟩ := h.layout parent text hp hc
    rw [tree_of_dir hp hc]
    dsimp only
    cases hf : dirFind (render d) name with
    | some f => rw [child_of_some hf]
    | none =>
      rw [child_of_none hf, ← newInum_fst]
      dsimp only
      cases hn : newInum parent isfile' rs with
      | none => rfl
      | some p =>
        obtain ⟨n, rs'⟩ := p
        have hlt := newInum_lt hn
        have hkn : key n = n := Nat.mod_eq_of_lt hlt
        have hblank : nodeOf n [] = Tree.blank isfile' := by
          rw [nodeOf, isfile_of_newInum hn]
          rfl
        have hnew : nodeOf parent (render d ++ entLine name n) =
            .dir (entries (render d) ++ [(name, n)]) := by
          rw [nodeOf, if_neg (by simp [hp]),
            entries_append_entLine d hname (lt_trans hlt (by decide))]
        dsimp only [Option.map_some, putUnless]
        rw [hkey, hkn, tree_update, tree_update, Option.map_some, Option.map_some, hblank, hnew]

theorem tree_remove {name : Bytes} (hp : isfile parent = false) (hs : parent < 2 ^ 32) :
    (tree c).remove parent name =
      (((remove parent name).exec rs c).1, tree ((remove parent name).exec rs c).2) := by
  have hkey : key parent = parent := Nat.mod_eq_of_lt hs
  rw [Prog.exec_eq_outcome, outcome_remove_call, contents_ofContents, removeEffect, Tree.remove]
  dsimp only [Env.reliable]
  rw [hkey]
  cases hc : c parent with
  | none => rw [tree_of_none hc]
  | some text =>
    obtain ⟨d, rfl⟩ := h.layout parent text hp hc
    rw [tree_of_dir hp hc]
    dsimp only
    cases hf : dirFind (render d) name with
    | none => rw [child_of_none hf]
    | some f =>
      have hmem : f.inum ∈ refs c parent := by
        obtain ⟨d₁, e, d₂, rfl, rfl⟩ := dirFind_render_some hf
        rw [refs_render hp hc, List.reduceOption_append, List.reduceOption_cons_of_some]
        simp
      obtain ⟨hlt, hne⟩ := h.present parent f.inum hmem
      have hkf : key f.inum = f.inum := Nat.mod_eq_of_lt hlt
      obtain ⟨buf, hbuf, hent⟩ := entries_erase hf
      have hnode : nodeOf parent buf = .dir ((entries (render d)).eraseP (named name)) := by
        rw [nodeOf, if_neg (by simp [hp]), hent]
      rw [child_of_some hf]
      dsimp only
      rw [hkf, if_neg hne, hbuf]
      dsimp only [putUnless]
      rw [hkey, tree_update, tree_update, Option.map_none, Option.map_some, hnode]

omit h in
theorem tree_lookup {name : Bytes} (hp : isfile parent = false) (hs : parent < 2 ^ 32) :
    ((tree c).lookup parent name, tree c) =
      (((lookup parent name).exec rs c).1, tree ((lookup parent name).exec rs c).2) := by
  have hkey : key parent = parent := Nat.mod_eq_of_lt hs
  rw [Prog.exec_eq_outcome, outcome_lookup, contents_ofContents, lookupEffect, Tree.lookup]
  dsimp only [Env.reliable]
  rw [hkey]
  cases hc : c parent with
  | none => rw [tree_of_none hc]
  | some text =>
    rw [tree_of_dir hp hc]
    dsimp only
    cases hf : dirFind text name with
    | none => rw [child_of_none hf]
    | some f => rw [child_of_some hf]

omit h in
theorem tree_readir (hp : isfile parent = false) (hs : parent < 2 ^ 32) :
    ((tree c).readir parent, tree c) =
      (((readir parent).exec rs c).1, tree ((readir parent).exec rs c).2) := by
  have hkey : key parent = parent := Nat.mod_eq_of_lt hs
  rw [Prog.exec_eq_outcome, outcome_readir, contents_ofContents, readirEffect, Tree.readir]
  dsimp only [Env.reliable]
  rw [hkey]
  cases hc : c parent with
  | none => rw [tree_of_none hc]
  | some text => rw [tree_of_dir hp hc]

end Refine

section Files
variable {c : Contents} {target : ℕ} {rs : List Random} (ht : isfile target = true)
  (hs : target < 2 ^ 32)
include ht hs

theorem tree_resize (newSize : ℕ) :
    (tree c).resize target newSize =
      (((resize target newSize).exec rs c).1, tree ((resize target newSize).exec rs c).2) := by
  have hkey : key target = target := Nat.mod_eq_of_lt hs
  rw [Prog.exec_eq_outcome, outcome_resize, contents_ofContents, resizeEffect, Tree.resize]
  dsimp only [Env.reliable]
  rw [hkey]
  cases hc : c target with
  | none => rw [tree_of_none hc]
  | some b =>
    rw [tree_of_file ht hc]
    dsimp only [putUnless]
    rw [hkey, tree_update, Option.map_some, nodeOf, if_pos ht, Files.resized_eq]

theorem tree_read (size : ℕ) {offset : ℕ} (ho : offset < 2 ^ 32) :
    ((tree c).read target size offset, tree c) =
      (((read target size offset).exec rs c).1, tree ((read target size offset).exec rs c).2) := by
  have hkey : key target = target := Nat.mod_eq_of_lt hs
  rw [Fs.read, Nat.mod_eq_of_lt ho, Prog.exec, Tree.read, hkey]
  cases hc : c target with
  | none =>
    rw [tree_of_none hc]
    rfl
  | some b =>
    rw [tree_of_file ht hc]
    dsimp only
    rw [Files.sliced_eq]
    by_cases hlt : offset < b.length
    · rw [if_pos hlt, if_pos hlt]
      rfl
    · rw [if_neg hlt, if_neg hlt]
      rfl

theorem tree_write {buf : Bytes} {offset : ℕ} (ho : offset + buf.length < 2 ^ 32) :
    (tree c).write target buf offset =
      (((write target buf offset).exec rs c).1, tree ((write target buf offset).exec rs c).2) := by
  have hkey : key target = target := Nat.mod_eq_of_lt hs
  have hoff : offset % 2 ^ 32 = offset := Nat.mod_eq_of_lt (by omega)
  rw [Fs.write, hoff, Prog.exec, if_pos rfl, Prog.exec, Tree.write, hkey]
  cases hc : c target with
  | none =>
    rw [tree_of_none hc]
    rfl
  | some b =>
    rw [tree_of_file ht hc]
    dsimp only
    rw [Files.written_eq ho]
    dsimp only
    rw [if_pos rfl, Prog.exec, Prog.exec, tree_update, Option.map_some, nodeOf, if_pos ht]
    rfl

end Files

/-- On a linked store each operation, run alone, returns what it returns on the tree and leaves
the tree that it leaves there. -/
theorem Linked.tree_exec {c : Contents} (h : Linked c) {q : Request} (hq : q.Proper)
    (hs : q.Short) : (tree c).exec q = ((q.exec c).1, tree (q.exec c).2) := by
  obtain ⟨call, rs⟩ := q
  cases call with
  | create parent name => exact tree_add h hq.1 hs hq.2
  | mkadir parent name => exact tree_add h hq.1 hs hq.2
  | remove parent name => exact tree_remove h hq hs
  | lookup parent name => exact tree_lookup hq hs
  | readir parent => exact tree_readir hq hs
  | resize target newSize => exact tree_resize hq hs newSize
  | read target size offset => exact tree_read hq hs.1 size hs.2
  | write target buf offset => exact tree_write hq hs.1 hs.2

/-! ## No cycles -/

namespace Tree

/-- Nothing is below itself: entries lead to inums of higher rank. -/
def Acyclic (t : Tree) : Prop :=
  ∃ rank : ℕ → ℕ, ∀ k es, t k = some (.dir es) → ∀ e ∈ es, rank k < rank e.2

def Unreferenced (t : Tree) (n : ℕ) : Prop := ∀ k es, t k = some (.dir es) → ∀ e ∈ es, e.2 ≠ n

theorem acyclic_init : init.Acyclic := by
  refine ⟨id, fun k es hk e he => ?_⟩
  by_cases h1 : k = 1
  · rw [init, h1, Function.update_self] at hk
    cases hk
    cases he
  · rw [init, Function.update_of_ne h1] at hk
    cases hk

namespace Acyclic
variable {t : Tree} (h : t.Acyclic)
include h

theorem shrink {t' : Tree} (hsub : ∀ k es, t' k = some (.dir es) → ∀ e ∈ es,
    ∃ es₀, t k = some (.dir es₀) ∧ e ∈ es₀) : t'.Acyclic := by
  obtain ⟨rank, hrank⟩ := h
  refine ⟨rank, fun k es hk e he => ?_⟩
  obtain ⟨es₀, hk₀, he₀⟩ := hsub k es hk e he
  exact hrank k es₀ hk₀ e he₀

/-- A file may change, and a node that no directory is may come or go. -/
theorem update_of_not_dir {k : ℕ} {v : Option Node} (hv : ∀ es, v ≠ some (.dir es)) :
    Acyclic (Function.update t k v) := by
  apply h.shrink
  intro j es hj e he
  by_cases hjk : j = k
  · rw [hjk, Function.update_self] at hj
    exact absurd hj (hv es)
  · rw [Function.update_of_ne hjk] at hj
    exact ⟨es, hj, he⟩

/-- A new entry leads to an inum that was not in use; its rank can be chosen. -/
theorem add {parent : ℕ} {name : Bytes} {isfile' : Bool} {new : Option ℕ}
    (hnew : ∀ n, new = some n →
      (t.add parent name isfile' new).2 = t ∨ t n = none ∧ t.Unreferenced n) :
    (t.add parent name isfile' new).2.Acyclic := by
  rw [Tree.add] at hnew ⊢
  split
  · rename_i es hp
    rw [hp] at hnew
    dsimp only at hnew
    split
    · exact h
    · rename_i hchild
      rw [hchild] at hnew
      dsimp only at hnew
      split
      · exact h
      · rename_i n
        rcases hnew n rfl with heq | ⟨hn, hun⟩
        · dsimp only at heq ⊢
          rw [heq]
          exact h
        · obtain ⟨rank, hrank⟩ := h
          have hpn : parent ≠ n := by
            rintro rfl
            rw [hp] at hn
            cases hn
          refine ⟨Function.update rank n (rank parent + 1), fun k es' hk e he => ?_⟩
          dsimp only at hk
          by_cases hkp : k = parent
          · subst hkp
            rw [Function.update_self] at hk
            cases hk
            rw [Function.update_of_ne hpn]
            rcases List.mem_append.mp he with he | he
            · rw [Function.update_of_ne (hun k es hp e he)]
              exact hrank k es hp e he
            · rw [List.mem_singleton.mp he, Function.update_self]
              exact Nat.lt_succ_self _
          · rw [Function.update_of_ne hkp] at hk
            by_cases hkn : k = n
            · rw [hkn, Function.update_self, Option.some.injEq, blank] at hk
              split at hk <;> cases hk
              cases he
            · rw [Function.update_of_ne hkn] at hk
              rw [Function.update_of_ne hkn, Function.update_of_ne (hun k es' hk e he)]
              exact hrank k es' hk e he
  · exact h

theorem remove {parent : ℕ} {name : Bytes} : (t.remove parent name).2.Acyclic := by
  rw [Tree.remove]
  split
  · rename_i es hp
    split
    · exact h
    · rename_i i hchild
      apply h.shrink
      intro k es' hk e he
      dsimp only at hk
      by_cases hkp : k = parent
      · subst hkp
        rw [Function.update_self] at hk
        cases hk
        exact ⟨es, hp, List.mem_of_mem_eraseP he⟩
      · rw [Function.update_of_ne hkp] at hk
        by_cases hki : k = i
        · rw [hki, Function.update_self] at hk
          cases hk
        · rw [Function.update_of_ne hki] at hk
          exact ⟨es', hk, he⟩
  · exact h

/-- Every request keeps the tree free of cycles, provided that an inum it draws was not in use. -/
theorem exec {q : Request} (hnew : ∀ n, q.drawn = some n →
    (t.exec q).2 = t ∨ t n = none ∧ t.Unreferenced n) : (t.exec q).2.Acyclic := by
  obtain ⟨call, rs⟩ := q
  cases call with
  | create parent name => exact h.add hnew
  | mkadir parent name => exact h.add hnew
  | remove parent name => exact h.remove
  | lookup parent name => exact h
  | readir parent => exact h
  | read target size offset => exact h
  | resize target newSize =>
    simp only [Tree.exec, Tree.resize]
    split
    · exact h.update_of_not_dir (by simp)
    · exact h
  | write target buf offset =>
    simp only [Tree.exec, Tree.write]
    split
    · exact h.update_of_not_dir (by simp)
    · exact h

end Acyclic
end Tree

/-- In a linked store only what is stored is referred to. -/
theorem Linked.unreferenced {c : Contents} (h : Linked c) {n : ℕ} (hn : c n = none) :
    (tree c).Unreferenced n := by
  rintro k es hk e he rfl
  obtain ⟨text, hc, hnode⟩ := Option.map_eq_some_iff.mp hk
  rw [nodeOf] at hnode
  split at hnode
  · cases hnode
  · rename_i hfile
    cases hnode
    have hmem : e.2 ∈ refs c k := by
      rw [refs, if_neg hfile, hc]
      exact List.mem_map_of_mem he
    exact (h.present k e.2 hmem).2 hn

theorem mem_refs {c : Contents} {k n : ℕ} (h : n ∈ refs c k) :
    ∃ es, tree c k = some (.dir es) ∧ ∃ e ∈ es, e.2 = n := by
  rw [refs] at h
  split at h
  · cases h
  · rename_i hk
    cases hc : c k with
    | none =>
      rw [hc] at h
      cases h
    | some text =>
      rw [hc] at h
      obtain ⟨e, he, rfl⟩ := List.mem_map.mp h
      exact ⟨_, tree_of_dir (Bool.not_eq_true _ ▸ hk) hc, e, he, rfl⟩

end YFS.Fs
