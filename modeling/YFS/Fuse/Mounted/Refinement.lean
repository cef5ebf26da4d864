import YFS.Fuse.Mounted.Queries
import YFS.Fuse.Mounted.Updates

/-! # The mounted file system is a tree -/

namespace YFS.Fuse
open YFS.Library YFS.Extent YFS.Fs

theorem Volume.exists_drawn {t : Tree} {new : Option ℕ}
    (h : new.any (fun n => (t n).isNone) = true) : ∃ n, new = some n ∧ t n = none := by
  cases new with
  | none => cases h
  | some n => exact ⟨n, rfl, Option.isNone_iff_eq_none.mp h⟩

/-- Every handler does to the store what the request does to its tree. -/
theorem Sound.fuseserverOper (lib : Libfuse) {s : Store} (h : Sound s) {v : Visit}
    (hv : Volume.Legal (tree s.contents) v) :
    Answers v.env (fuseserverOper lib v.vars v.req) 0 s
      (Volume.serve lib (tree s.contents) v) := by
  obtain ⟨req, now, random, vars⟩ := v
  cases req with
  | getattr ino => exact h.fuseserverGetattr hv
  | statfs => exact h.answers (.statfs 255 512)
  | readdir ino size off => exact h.fuseserverReaddir lib hv
  | lookup parent name => exact h.fuseserverLookup hv.1 hv.2
  | create parent name mode =>
    obtain ⟨⟨hp, hs, hname⟩, hnew⟩ := hv
    obtain ⟨n, hn, hfree⟩ := Volume.exists_drawn hnew
    simp only [Volume.serve, hn]
    exact h.answers_create hp hs hname hn hfree fun _ => rfl
  | mknod parent name mode rdev =>
    obtain ⟨⟨hp, hs, hname⟩, hnew⟩ := hv
    obtain ⟨n, hn, hfree⟩ := Volume.exists_drawn hnew
    simp only [Volume.serve, hn]
    exact h.answers_create hp hs hname hn hfree fun _ => rfl
  | opened ino => exact h.answers .opened
  | read ino size off => exact h.fuseserverRead hv.1 hv.2
  | write ino buf off => exact h.fuseserverWrite hv.1 hv.2
  | setattr ino stSize toSet => exact h.fuseserverSetattr hv
  | unlink parent name => exact h.fuseserverUnlink hv.1 hv.2
  | mkdir parent name mode =>
    obtain ⟨⟨hp, hs, hname⟩, hnew⟩ := hv
    obtain ⟨n, hn, hfree⟩ := Volume.exists_drawn hnew
    simp only [Volume.serve, hn]
    exact h.fuseserverMkdir hp hs hname hn hfree

theorem Sound.step_mount (lib : Libfuse) (start : ℕ) {m m' : Mount} {v : Visit}
    (h : Sound m.store) (hv : Volume.Legal (tree m.store.contents) v)
    (hstep : (mount lib start).step m v = some m') :
    Sound m'.store ∧ (volume lib).step m.view v = some m'.view := by
  cases hstep
  have hans := h.fuseserverOper lib hv
  refine ⟨hans.sound, ?_⟩
  simp only [volume, Mount.view, List.map_append, List.map_cons, List.map_nil, hans.replies,
    hans.leaves]

/-- What the kernel sees of the mounted file system, from the requests through the handlers, the
client, the directory texts and the extents, is the tree: every sequence of requests gets the
replies, times aside, that it gets from the tree, and leaves a store that holds the tree it
leaves. -/
theorem mounted_is_tree (lib : Libfuse) (start : ℕ) {visits : List Visit}
    (hlegal : (mount lib start).Along (fun m v => Volume.Legal (tree m.store.contents) v)
      (mount lib start).init visits) :
    ∃ m, (mount lib start).run visits = some m ∧ (volume lib).run visits = some m.view := by
  have hinit : Sound (mount lib start).init.store := .init start
  obtain ⟨m, hrun, -⟩ := hlegal.progress (I := fun m => Sound m.store)
    (fun m v h hv => ⟨_, rfl, (h.step_mount lib start hv rfl).1⟩) hinit
  refine ⟨m, hrun, ?_⟩
  have hsim : (volume lib).Along (fun w v => Volume.Legal w.tree v) (mount lib start).init.view
        (visits.filterMap some) ∧
      (volume lib).runFrom (mount lib start).init.view (visits.filterMap some) = some m.view := by
    apply hlegal.simulation Mount.view some (I := fun m => Sound m.store) _ _ nofun hinit hrun
    · intro m v m' h hv hst
      exact (h.step_mount lib start hv hst).1
    · intro m v m' v' h hv hst hshow
      cases hshow
      exact ⟨hv, (h.step_mount lib start hv hst).2⟩
  have hview : (mount lib start).init.view = (volume lib).init :=
    congrArg (fun t => Volume.mk t []) (tree_init start)
  rw [List.filterMap_some, hview] at hsim
  exact hsim.2

def visit (req : Request) : Visit := ⟨req, fun _ _ => 0, [5], zeroed⟩

/-- A file is created, written to behind its end, looked up, read and removed. -/
def createAndWrite : List Visit :=
  [visit (.create 1 [97] 0), visit (.write 0x80000005 [1, 2, 3] 1), visit (.lookup 1 [97]),
    visit (.read 0x80000005 3 1), visit (.unlink 1 [97])]

theorem mounted_is_tree_written :
    ∃ m, (mount hostLibfuse 0).run createAndWrite = some m ∧
      m.view.replies =
        [[.create ⟨0x80000005, 0, ⟨0x80000005, fileMode, 1, 0, 0, 0, 0⟩, 0, 0⟩], [.write 3],
          [.entry ⟨0x80000005, 0, ⟨0x80000005, fileMode, 1, 0, 0, 0, 4⟩, 0, 0⟩], [.buf [1, 2, 3]],
          [.err 0]] := by
  have hlegal : (mount hostLibfuse 0).Along (fun m v => Volume.Legal (tree m.store.contents) v)
      (mount hostLibfuse 0).init createAndWrite := by decide
  obtain ⟨m, hrun, hvolume⟩ := mounted_is_tree hostLibfuse 0 hlegal
  have hreplies := congrArg (Option.map Volume.replies) hvolume
  exact ⟨m, hrun, (Option.some.inj hreplies).symm⟩

end YFS.Fuse
