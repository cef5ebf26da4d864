import YFS.Fuse.Mounted.Answers

/-! # The handlers that change the tree -/

namespace YFS.Fuse
open YFS.Library YFS.Extent YFS.Fs

variable {v : Visit} {s : Store} (h : Sound s)
include h

theorem Sound.fuseserverUnlink {parent : ℕ} {name : Bytes} (hp : isfile parent = false)
    (hs : parent < 2 ^ 32) :
    Answers v.env (fuseserverUnlink parent name) 0 s
      (Volume.unlink (tree s.contents) parent name) := by
  have hfail (status : ℤ) (hstatus : status ≠ OK)
      (hx : (tree s.contents).remove parent name =
        (.returned (Reply.of status), tree s.contents)) :
      Answers v.env (Fuse.fuseserverUnlink parent name) 0 s ([.err ENOENT], tree s.contents) := by
    refine h.answers_plain ⟨hp, hs⟩ (by simp) rfl hx fun s' hs' ht => ?_
    rw [← ht]
    exact Answers.of_neg hstatus (hs'.answers (.err ENOENT))
  rw [Volume.unlink]
  cases ht : tree s.contents parent with
  | none => exact hfail NOENT (by decide) (by rw [Tree.remove, ht])
  | some x =>
    cases x with
    | file b => exact hfail NOENT (by decide) (by rw [Tree.remove, ht])
    | dir es =>
      dsimp only
      cases hi : Tree.child es name with
      | none => exact hfail IOERR (by decide) (by simp only [Tree.remove, ht, hi])
      | some n =>
        have hx : (tree s.contents).remove parent name =
            (.returned (Reply.of OK), ((tree s.contents).remove parent name).2) := by
          simp only [Tree.remove, ht, hi]
        refine h.answers_plain ⟨hp, hs⟩ (by simp) rfl hx fun s' hs' ht' => ?_
        rw [← ht']
        exact hs'.answers (.err 0)

theorem Sound.fuseserverWrite {ino off : ℕ} {buf : Bytes} (hino : ino < 2 ^ 32)
    (hoff : off + buf.length < 2 ^ 32) :
    Answers v.env (fuseserverWrite v.vars ino buf off) 0 s
      (Volume.write (tree s.contents) ino buf off) := by
  rw [Fuse.fuseserverWrite, Volume.write]
  by_cases hfile : isfile ino = true
  · rw [if_pos hfile, if_pos hfile]
    have hfail (hx : (tree s.contents).write ino buf off =
        (.returned (Reply.of NOENT), tree s.contents)) :
        Answers v.env (.call (.yfs (.write ino buf off)) fun r =>
          if r.status = OK then .answer (.write (r.wrtb.getD v.vars.written))
          else .answer (.err EIO)) 0 s ([.err EIO], tree s.contents) := by
      refine h.answers_plain ⟨hfile, hino, hoff⟩ (by simp) rfl hx fun s' hs' ht => ?_
      rw [← ht]
      exact hs'.answers (.err EIO)
    cases ht : tree s.contents ino with
    | none => exact hfail (by rw [Tree.write, ht])
    | some x =>
      cases x with
      | dir es => exact hfail (by rw [Tree.write, ht])
      | file b =>
        have hx : (tree s.contents).write ino buf off =
            (.returned { Reply.of OK with wrtb := some buf.length },
              ((tree s.contents).write ino buf off).2) := by rw [Tree.write, ht]
        refine h.answers_plain ⟨hfile, hino, hoff⟩ (by simp) rfl hx fun s' hs' ht' => ?_
        rw [← ht']
        exact hs'.answers (.write buf.length)
  · rw [if_neg hfile, if_neg hfile]
    split
    · rename_i b hb
      exact absurd hb (not_file_of_isfile hfile b)
    · exact h.answers (.err EISDIR)

/-- A handler calls `create` or `mkadir` and goes on. -/
theorem Sound.answers_add {c : Fs.Call} {parent n : ℕ} {name : Bytes} {isfile' : Bool}
    (hfit : Fs.Request.Fit ⟨c, v.random⟩)
    (hexec : ∀ t : Tree, t.exec ⟨c, v.random⟩ = t.add parent name isfile' (some n))
    (hn : Fs.Request.drawn ⟨c, v.random⟩ = some n) (hfree : tree s.contents n = none)
    {exist : ℕ → FuseReply} {success : Entry → FuseReply} {next : Result → Handler}
    (hsize : ∀ target newSize, c ≠ .resize target newSize)
    (hnoent : ∀ s', Sound s' →
      Answers v.env (next ⟨Reply.of NOENT, ⟨0, 0, 0, 0⟩⟩) 1 s' ([.err ENOENT], tree s'.contents))
    (hexist : ∀ m s', m < 2 ^ 32 → Sound s' → tree s'.contents = tree s.contents →
      Answers v.env (next ⟨{ Reply.of EXIST with inum := some m }, ⟨0, 0, 0, 0⟩⟩) 1 s'
        ([exist m], tree s'.contents))
    (hok : ∀ s', n < 2 ^ 32 → Sound s' → Volume.stat (tree s'.contents) n ≠ none →
      Answers v.env (next ⟨{ Reply.of OK with inum := some n }, ⟨0, 0, 0, 0⟩⟩) 1 s'
        ([Volume.found (tree s'.contents) success n], tree s'.contents)) :
    Answers v.env (.call (.yfs c) next) 0 s
      (Volume.add (tree s.contents) exist success parent name isfile' (some n)) := by
  have hfresh : ∀ m, Fs.Request.drawn ⟨c, v.random⟩ = some m → tree s.contents m = none := by
    intro m hm
    rw [← Option.some.inj (hn.symm.trans hm)]
    exact hfree
  have hresize : ∀ target newSize, c = .resize target newSize → newSize < 2 ^ 32 :=
    fun target newSize hc => absurd hc (hsize target newSize)
  have hfail (hx : (tree s.contents).add parent name isfile' (some n) =
      (.returned (Reply.of NOENT), tree s.contents)) :
      Answers v.env (.call (.yfs c) next) 0 s ([.err ENOENT], tree s.contents) := by
    refine h.answers_yfs hfit hresize hfresh ((hexec _).trans hx) fun s' hs' ht => ?_
    rw [← ht]
    exact hnoent s' hs'
  rw [Volume.add]
  cases ht : tree s.contents parent with
  | none => exact hfail (by rw [Tree.add, ht])
  | some x =>
    cases x with
    | file b => exact hfail (by rw [Tree.add, ht])
    | dir es =>
      dsimp only
      cases hi : Tree.child es name with
      | some m =>
        have hx : (tree s.contents).add parent name isfile' (some n) =
            (.returned { Reply.of EXIST with inum := some m }, tree s.contents) := by
          simp only [Tree.add, ht, hi]
        refine h.answers_yfs hfit hresize hfresh ((hexec _).trans hx) fun s' hs' ht' => ?_
        have hans := hexist m s' (h.child_lt ht hi) hs' ht'
        rw [ht'] at hans
        exact hans
      | none =>
        have hx : (tree s.contents).add parent name isfile' (some n) =
            (.returned { Reply.of OK with inum := some n },
              ((tree s.contents).add parent name isfile' (some n)).2) := by
          simp only [Tree.add, ht, hi]
        refine h.answers_yfs hfit hresize hfresh ((hexec _).trans hx) fun s' hs' ht' => ?_
        rw [← ht']
        apply hok s' (Fs.Request.drawn_lt _ hn) hs'
        rw [ht']
        simp only [Tree.add, ht, hi, Volume.stat]
        by_cases hnp : n = parent
        · rw [hnp, Function.update_self]
          simp
        · rw [Function.update_of_ne hnp, Function.update_self]
          cases isfile' <;> simp [Tree.blank]

theorem Sound.answers_create {parent n : ℕ} {name : Bytes} (hp : isfile parent = false)
    (hs : parent < 2 ^ 32) (hname : Dir.Clean name) (hn : drawn parent true v.random = some n)
    (hfree : tree s.contents n = none) {success : Entry → FuseReply}
    (hsuccess : ∀ e, (success e).untimed = success e.untimed) :
    Answers v.env (createHelper v.vars parent name fun ret e =>
        if ret = OK then .answer (success e)
        else if ret = EXIST then .answer (.err EEXIST)
        else .answer (.err ENOENT)) 0 s
      (Volume.create (tree s.contents) success parent name (some n)) := by
  have hfit : Fs.Request.Fit ⟨.create parent name, v.random⟩ := ⟨⟨hp, hname⟩, hs⟩
  have hexec (t : Tree) :
      t.exec ⟨.create parent name, v.random⟩ = t.add parent name true (some n) := by
    rw [← hn]
    rfl
  apply h.answers_add hfit hexec hn hfree
  · intro target newSize hc
    cases hc
  · intro s' hs'
    exact Answers.of_neg (by decide) (hs'.answers (.err ENOENT))
  · intro m s' hm hs' ht
    have hino : inoOf m = m := Nat.mod_eq_of_lt hm
    rw [← ht]
    apply Answers.of_pos (.inr rfl)
    exact hs'.answers_found hino hm hsuccess (fun _ => rfl) fun _ => rfl
  · intro s' hlt hs' _
    have hino : inoOf n = n := Nat.mod_eq_of_lt hlt
    apply Answers.of_pos (.inl rfl)
    exact hs'.answers_found hino hlt hsuccess (fun _ => rfl) fun _ => rfl

theorem Sound.fuseserverMkdir {parent n : ℕ} {name : Bytes} (hp : isfile parent = false)
    (hs : parent < 2 ^ 32) (hname : Dir.Clean name) (hn : drawn parent false v.random = some n)
    (hfree : tree s.contents n = none) :
    Answers v.env (fuseserverMkdir v.vars parent name) 0 s
      (Volume.mkdir (tree s.contents) parent name (some n)) := by
  have hfit : Fs.Request.Fit ⟨.mkadir parent name, v.random⟩ := ⟨⟨hp, hname⟩, hs⟩
  have hexec (t : Tree) :
      t.exec ⟨.mkadir parent name, v.random⟩ = t.add parent name false (some n) := by
    rw [← hn]
    rfl
  apply h.answers_add hfit hexec hn hfree
  · intro target newSize hc
    cases hc
  · intro s' hs'
    exact hs'.answers (.err ENOENT)
  · intro m s' hm hs' ht
    exact hs'.answers (.err EEXIST)
  · intro s' hlt hs' hstat
    have hino : inoOf n = n := Nat.mod_eq_of_lt hlt
    apply Answers.of_pos rfl
    exact hs'.answers_found hino hlt (fun _ => rfl) (fun _ => rfl) fun hnone => absurd hnone hstat

theorem Sound.fuseserverSetattr {ino stSize : ℕ} {toSet : BitVec 32} (hino : ino < 2 ^ 32) :
    Answers v.env (fuseserverSetattr ino stSize toSet) 0 s
      (Volume.setattr (tree s.contents) ino stSize toSet) := by
  rw [Fuse.fuseserverSetattr, Volume.setattr]
  by_cases hset : 8#32 &&& toSet = 0#32
  · rw [if_neg (not_not.mpr hset), if_pos hset]
    exact h.answers (.err ENOSYS)
  · rw [if_pos hset, if_neg hset]
    by_cases hfile : isfile ino = true
    · rw [if_pos hfile, if_pos hfile]
      have hsize : ∀ target newSize, Fs.Call.resize ino (Fuse.sizeOf stSize) =
          .resize target newSize → newSize < 2 ^ 32 := by
        intro target newSize hc
        cases hc
        exact Nat.mod_lt _ (Nat.two_pow_pos 32)
      have hdrawn : ∀ n, Fs.Request.drawn ⟨.resize ino (Fuse.sizeOf stSize), v.random⟩ = some n →
          tree s.contents n = none := by
        intro n hn
        cases hn
      -- without a file there is no reply
      have hfail (hx : (tree s.contents).resize ino (Fuse.sizeOf stSize) =
          (.returned (Reply.of NOENT), tree s.contents)) :
          Answers v.env (.call (.yfs (.resize ino (Fuse.sizeOf stSize))) fun r =>
            if r.status = OK then
              getattr ino fun ret st => if ret = OK then .answer (.attr st) else .answer (.err EIO)
            else .done) 0 s ([], tree s.contents) := by
        refine h.answers_yfs ⟨hfile, hino⟩ hsize hdrawn hx fun s' hs' ht => ?_
        rw [← ht]
        exact hs'.answers_done
      cases ht : tree s.contents ino with
      | none => exact hfail (by rw [Tree.resize, ht])
      | some x =>
        cases x with
        | dir es => exact hfail (by rw [Tree.resize, ht])
        | file b =>
          have hx : (tree s.contents).resize ino (Fuse.sizeOf stSize) =
              (.returned (Reply.of OK), ((tree s.contents).resize ino (Fuse.sizeOf stSize)).2) := by
            rw [Tree.resize, ht]
          refine h.answers_yfs ⟨hfile, hino⟩ hsize hdrawn hx fun s' hs' ht' => ?_
          have hstat : Volume.stat (tree s'.contents) ino ≠ none := by
            rw [ht']
            simp only [Tree.resize, ht, Volume.stat, Function.update_self]
            simp
          rw [← ht']
          dsimp only
          apply Answers.of_pos rfl
          apply hs'.answers_getattr hino
          · intro st hst
            rw [Volume.getattr, hst]
            exact hs'.answers (.attr st)
          · intro hst
            exact absurd hst hstat
    · rw [if_neg hfile, if_neg hfile]
      split
      · rename_i b hb
        exact absurd hb (not_file_of_isfile hfile b)
      · exact h.answers (.err EISDIR)

end YFS.Fuse
