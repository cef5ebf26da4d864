import YFS.Fuse.Mounted.Answers

/-! # The handlers that leave the tree as it is -/

namespace YFS.Fuse
open YFS.Library YFS.Extent YFS.Fs

theorem untimed_replyBufLimited (b : Bytes) (off maxsize : ℕ) :
    (replyBufLimited b off maxsize).untimed = replyBufLimited b off maxsize := by
  rw [replyBufLimited]
  split <;> rfl

variable {v : Visit} {s : Store} (h : Sound s)
include h

theorem Sound.fuseserverGetattr {ino : ℕ} (hino : ino < 2 ^ 32) :
    Answers v.env (fuseserverGetattr ino) 0 s
      ([Volume.getattr (tree s.contents) ino], tree s.contents) := by
  apply h.answers_getattr hino
  · intro st hst
    rw [Volume.getattr, hst]
    exact h.answers (.attr st)
  · intro hst
    rw [Volume.getattr, hst]
    exact h.answers (.err ENOENT)

theorem Sound.fuseserverLookup {parent : ℕ} {name : Bytes} (hp : isfile parent = false)
    (hs : parent < 2 ^ 32) :
    Answers v.env (fuseserverLookup v.vars parent name) 0 s
      ([Volume.lookup (tree s.contents) parent name], tree s.contents) := by
  have hfail (hx : (tree s.contents).lookup parent name = .returned (Reply.of NOENT)) :
      Answers v.env (Fuse.fuseserverLookup v.vars parent name) 0 s
        ([.err ENOENT], tree s.contents) := by
    refine h.answers_plain ⟨hp, hs⟩ (by simp) rfl
      (congrArg (·, tree s.contents) hx) fun s' hs' ht => ?_
    rw [← ht]
    exact hs'.answers (.err ENOENT)
  rw [Volume.lookup]
  cases ht : tree s.contents parent with
  | none => exact hfail (by rw [Tree.lookup, ht])
  | some x =>
    cases x with
    | file b => exact hfail (by rw [Tree.lookup, ht])
    | dir es =>
      dsimp only
      cases hi : Tree.child es name with
      | none => exact hfail (by simp only [Tree.lookup, ht, hi])
      | some n =>
        have hn := h.child_lt ht hi
        have hx : (tree s.contents).lookup parent name =
            .returned { Reply.of OK with inum := some n } := by simp only [Tree.lookup, ht, hi]
        refine h.answers_plain ⟨hp, hs⟩ (by simp) rfl (congrArg (·, tree s.contents) hx)
          fun s' hs' ht' => ?_
        rw [← ht']
        have hino : inoOf n = n := Nat.mod_eq_of_lt hn
        apply Answers.of_pos rfl
        exact hs'.answers_found hino hn (fun _ => rfl) (fun _ => rfl) fun _ => rfl

theorem Sound.fuseserverReaddir (lib : Libfuse) {ino size off : ℕ} (hino : ino < 2 ^ 32) :
    Answers v.env (fuseserverReaddir lib ino size off) 0 s
      ([Volume.readdir lib (tree s.contents) ino size off], tree s.contents) := by
  rw [Fuse.fuseserverReaddir, Volume.readdir]
  split
  · exact h.answers (.err ENOTDIR)
  · rename_i hfile
    have hdir : isfile ino = false := by simpa using hfile
    have hfail (hx : (tree s.contents).readir ino = .returned (Reply.of NOENT)) :
        Answers v.env (.call (.yfs (.readir ino)) fun r =>
            .answer (replyBufLimited (if r.status = OK then dirbuf lib r.dirents else []) off size))
          0 s ([replyBufLimited [] off size], tree s.contents) := by
      refine h.answers_plain ⟨hdir, hino⟩ (by simp) rfl (congrArg (·, tree s.contents) hx)
        fun s' hs' ht => ?_
      rw [← ht]
      exact hs'.answers (replyBufLimited [] off size)
    cases ht : tree s.contents ino with
    | none => exact hfail (by rw [Tree.readir, ht])
    | some x =>
      cases x with
      | file b => exact hfail (by rw [Tree.readir, ht])
      | dir es =>
        have hx : (tree s.contents).readir ino = .returned { Reply.of OK with dirents := es } := by
          rw [Tree.readir, ht]
        refine h.answers_plain ⟨hdir, hino⟩ (by simp) rfl (congrArg (·, tree s.contents) hx)
          fun s' hs' ht' => ?_
        rw [← ht']
        have hans : Answers v.env (.answer (replyBufLimited (dirbuf lib es) off size)) 1 s' _ :=
          hs'.answers _
        rw [untimed_replyBufLimited] at hans
        exact hans

theorem Sound.fuseserverRead {ino size off : ℕ} (hino : ino < 2 ^ 32) (hoff : off < 2 ^ 32) :
    Answers v.env (fuseserverRead v.vars ino size off) 0 s
      ([Volume.read v.vars (tree s.contents) ino size off], tree s.contents) := by
  rw [Fuse.fuseserverRead, Volume.read]
  by_cases hfile : isfile ino = true
  · rw [if_pos hfile, if_pos hfile]
    cases ht : tree s.contents ino with
    | none =>
      have hfind : s.find ino = none := find_of_tree_none hino ht
      apply Answers.call
      · simp only [Op.perform, Store.getattr, hfind]
        rfl
      · exact h.answers (.err EIO)
    | some x =>
      obtain ⟨r, hr, rfl, -⟩ := h.find_of_tree hino ht
      rw [nodeOf, if_pos hfile] at ht ⊢
      dsimp only
      apply Answers.call
      · simp only [Op.perform, Store.getattr, hr]
        rfl
      · apply Answers.of_pos rfl
        by_cases hlt : off < r.buf.length
        · rw [if_pos hlt]
          have hx : (tree s.contents).read ino size off =
              .returned { Reply.of OK with data := Files.slice r.buf size off } := by
            simp only [Tree.read, ht, hlt, if_true]
          have hlen : (Files.slice r.buf size off).length ≤ size := by
            rw [Files.slice, List.extract_eq_take_drop, List.length_take]
            omega
          have hbuf := Memory.region_overwrite_of_le v.vars.buf 0 hlen
          rw [Nat.zero_add] at hbuf
          refine h.answers_plain ⟨hfile, hino, hoff⟩ (by simp) rfl
            (congrArg (·, tree s.contents) hx) fun s' hs' ht' => ?_
          rw [← ht', ← hbuf]
          exact hs'.answers (.buf _)
        · rw [if_neg hlt]
          have hx : (tree s.contents).read ino size off = .returned (Reply.of IOERR) := by
            simp only [Tree.read, ht, hlt, if_false]
          refine h.answers_plain ⟨hfile, hino, hoff⟩ (by simp) rfl
            (congrArg (·, tree s.contents) hx) fun s' hs' ht' => ?_
          rw [← ht']
          exact hs'.answers (.err EIO)
  · rw [if_neg hfile, if_neg hfile]
    split
    · rename_i b hb
      exact absurd hb (not_file_of_isfile hfile b)
    · exact h.answers (.err EISDIR)

end YFS.Fuse
