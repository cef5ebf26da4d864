import YFS.Fuse.Replies

/-! # Reading a directory page by page

`fuseserver_readdir` writes the whole listing into a buffer, entry after entry, each with the
offset behind it, and replies with a part of the buffer. A reader goes on at the offset of the last
whole entry it has got.
-/

namespace YFS.Fuse
open YFS.Library YFS.Fs

section Paging
variable (lib : Libfuse) (u : Uninit)

def entriesAt : ℕ → List (Bytes × ℕ) → List Dirent
  | _, [] => []
  | pos, (name, inum) :: ds =>
    ⟨cstr name, inoOf inum, pos + lib.direntSize (cstr name).length⟩ ::
      entriesAt (pos + lib.direntSize (cstr name).length) ds

def listing (dirents : List (Bytes × ℕ)) (_ : ℕ) (_ : Op) : Result :=
  ⟨{ Reply.of OK with dirents := dirents }, ⟨0, 0, 0, 0⟩⟩

def FuseReply.bytes : FuseReply → Bytes
  | .buf b => b
  | _ => []

def readdirBytes (ino : ℕ) (dirents : List (Bytes × ℕ)) (off size : ℕ) : Bytes :=
  ((fuseserverOper lib u (.readdir ino size off)).run (listing dirents) 0).replies.flatMap
    FuseReply.bytes

variable {lib u}

/-- The loop of `dirbuf_add` writes the entries one behind the other. -/
theorem foldl_dirbufAdd (b : Bytes) (dirents : List (Bytes × ℕ)) :
    dirents.foldl (fun b d => dirbufAdd lib b d.1 (inoOf d.2)) b =
      b ++ lib.dirents.concat (entriesAt lib b.length dirents) := by
  induction dirents generalizing b with
  | nil => simp [entriesAt]
  | cons d ds ih =>
    have hlength : (dirbufAdd lib b d.1 (inoOf d.2)).length =
        b.length + lib.direntSize (cstr d.1).length := by
      rw [dirbufAdd, List.length_append]
      exact congrArg (b.length + ·) (lib.size_dirent _)
    rw [List.foldl_cons, ih, hlength, dirbufAdd, entriesAt, Records.concat_cons, List.append_assoc]

theorem dirbuf_eq_concat (dirents : List (Bytes × ℕ)) :
    dirbuf lib dirents = lib.dirents.concat (entriesAt lib 0 dirents) :=
  foldl_dirbufAdd [] dirents

theorem placed_entriesAt (pos : ℕ) (dirents : List (Bytes × ℕ)) :
    lib.dirents.Placed Dirent.off pos (entriesAt lib pos dirents) := by
  induction dirents generalizing pos with
  | nil => trivial
  | cons d ds ih =>
    refine ⟨?_, ?_⟩
    · rw [lib.size_dirent]
    · rw [lib.size_dirent]
      exact ih _

theorem map_entriesAt (pos : ℕ) (dirents : List (Bytes × ℕ)) :
    (entriesAt lib pos dirents).map (fun e => (e.name, e.ino)) =
      dirents.map fun d => (cstr d.1, inoOf d.2) := by
  induction dirents generalizing pos with
  | nil => rfl
  | cons d ds ih => rw [entriesAt, List.map_cons, List.map_cons, ih]

theorem replyBufLimited_bytes (b : Bytes) (off maxsize : ℕ) :
    replyBufLimited b off maxsize = .buf (Records.page b off maxsize) := by
  unfold replyBufLimited Records.page
  split
  · congr 1
    rw [List.take_eq_take_iff, List.length_drop]
    omega
  · rw [List.drop_of_length_le (by omega), List.take_nil]

theorem readdirBytes_eq_page {ino : ℕ} (hdir : isfile ino = false) (dirents : List (Bytes × ℕ))
    (off size : ℕ) :
    readdirBytes lib u ino dirents off size =
      Records.page (lib.dirents.concat (entriesAt lib 0 dirents)) off size := by
  simp [readdirBytes, fuseserverOper, fuseserverReaddir, hdir, Handler.run, Handler.answer, listing,
    Reply.of, replyBufLimited_bytes, FuseReply.bytes, dirbuf_eq_concat]

end Paging

/-- A reader that starts at offset 0 and goes on at the offset of the last entry of each reply
gets the whole listing, every entry once and in order, and then an empty reply, if every reply has
room for the largest entry. -/
theorem paged_listing_complete (lib : Libfuse) (u : Uninit) {ino : ℕ} (hdir : isfile ino = false)
    (dirents : List (Bytes × ℕ)) (limit : ℕ → ℕ)
    (hfits : ∀ e ∈ entriesAt lib 0 dirents, lib.dirents.Fits e)
    (hlimit : ∀ n, ∀ d ∈ dirents, lib.direntSize (cstr d.1).length ≤ limit n) :
    ∃ n, (∀ m < n, readdirBytes lib u ino dirents
        (lib.dirents.reader Dirent.off (readdirBytes lib u ino dirents) limit m).1 (limit m) ≠ []) ∧
      (lib.dirents.reader Dirent.off (readdirBytes lib u ino dirents) limit n).2.map
        (fun e => (e.name, e.ino)) = dirents.map (fun d => (cstr d.1, inoOf d.2)) ∧
      readdirBytes lib u ino dirents
        (lib.dirents.reader Dirent.off (readdirBytes lib u ino dirents) limit n).1 (limit n) = [] := by
  have hreply : readdirBytes lib u ino dirents =
      Records.page (lib.dirents.concat (entriesAt lib 0 dirents)) := by
    funext off size
    exact readdirBytes_eq_page hdir dirents off size
  have hroom : ∀ n, ∀ e ∈ entriesAt lib 0 dirents, lib.dirents.size e ≤ limit n := by
    intro n e he
    have hmem : (e.name, e.ino) ∈ dirents.map fun d => (cstr d.1, inoOf d.2) := by
      rw [← map_entriesAt 0 dirents]
      exact List.mem_map_of_mem he
    obtain ⟨d, hd, heq⟩ := List.mem_map.mp hmem
    have hname : cstr d.1 = e.name := congrArg Prod.fst heq
    rw [lib.size_dirent, ← hname]
    exact hlimit n d hd
  obtain ⟨n, hbefore, hall, hempty⟩ :=
    Records.reader_complete hfits (placed_entriesAt 0 dirents) hroom
  refine ⟨n, ?_, ?_, ?_⟩
  · rw [hreply]
    exact hbefore
  · rw [hreply, hall, map_entriesAt]
  · rw [hreply]
    exact hempty

/-- Two entries of 32 bytes, and pages of 40 bytes, which hold one entry and a part of the next. -/
theorem paged_listing_complete_cut :
    isfile 1 = false ∧
    (∀ e ∈ entriesAt hostLibfuse 0 [([97], 2 ^ 31), ([98, 99], 5)], hostLibfuse.dirents.Fits e) ∧
    (∀ d ∈ [(([97] : Bytes), 2 ^ 31), ([98, 99], 5)], hostLibfuse.direntSize (cstr d.1).length ≤ 40) ∧
    ∃ n, (∀ m < n, readdirBytes hostLibfuse zeroed 1 [([97], 2 ^ 31), ([98, 99], 5)]
        (hostLibfuse.dirents.reader Dirent.off
          (readdirBytes hostLibfuse zeroed 1 [([97], 2 ^ 31), ([98, 99], 5)]) (fun _ => 40) m).1 40 ≠
            []) ∧
      (hostLibfuse.dirents.reader Dirent.off
        (readdirBytes hostLibfuse zeroed 1 [([97], 2 ^ 31), ([98, 99], 5)]) (fun _ => 40) n).2.map
          (fun e => (e.name, e.ino)) = [([97], 2 ^ 31), ([98, 99], 5)] ∧
      readdirBytes hostLibfuse zeroed 1 [([97], 2 ^ 31), ([98, 99], 5)]
        (hostLibfuse.dirents.reader Dirent.off
          (readdirBytes hostLibfuse zeroed 1 [([97], 2 ^ 31), ([98, 99], 5)]) (fun _ => 40) n).1 40 =
            [] := by
  have hfits : ∀ e ∈ entriesAt hostLibfuse 0 [([97], 2 ^ 31), ([98, 99], 5)],
      HostLayout.Fits e := by
    unfold HostLayout.Fits
    decide
  have hlimit : ∀ d ∈ [(([97] : Bytes), 2 ^ 31), ([98, 99], 5)],
      hostLibfuse.direntSize (cstr d.1).length ≤ 40 := by decide
  exact ⟨by decide, hfits, hlimit,
    paged_listing_complete hostLibfuse zeroed (by decide) _ (fun _ => 40) hfits fun _ => hlimit⟩

end YFS.Fuse
