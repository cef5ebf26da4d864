import YFS.Library.BigEndian
import YFS.Library.Records

/-! # Directory entries of libfuse

What is assumed of `fuse_add_dirent` and of the reader in the kernel, and the layout of a 64-bit
little-endian host, which has these properties.
-/

namespace YFS.Fuse
open YFS.Library

structure Dirent where
  name : List UInt8
  ino : ℕ
  off : ℕ
  deriving DecidableEq, Repr

/-- An entry takes `fuse_dirent_size` bytes, is read as it was written, and is ignored when it is
cut off. -/
structure Libfuse where
  direntSize : ℕ → ℕ
  dirents : Records Dirent UInt8
  size_dirent : ∀ d, dirents.size d = direntSize d.name.length

namespace HostLayout

def word (n x : ℕ) : List UInt8 := (BigEndian.toBytes n (BitVec.ofNat (8 * n) x)).reverse

def ofWord (n : ℕ) (bs : List UInt8) : ℕ := (BigEndian.ofBytes (8 * n) bs.reverse).toNat

@[simp] theorem length_word (n x : ℕ) : (word n x).length = n := by simp [word]

theorem ofWord_word {n x : ℕ} (h : x < 2 ^ (8 * n)) : ofWord n (word n x) = x := by
  rw [ofWord, word, List.reverse_reverse, BigEndian.ofBytes_toBytes _ le_rfl, BitVec.toNat_ofNat,
    Nat.mod_eq_of_lt h]

/-- `FUSE_DIRENT_SIZE`: 24 bytes and the name, rounded up to a multiple of eight. -/
def direntSize (namelen : ℕ) : ℕ := (24 + namelen + 7) / 8 * 8

def header (d : Dirent) : List UInt8 :=
  word 8 d.ino ++ (word 8 d.off ++ (word 4 d.name.length ++ word 4 0))

def encode (d : Dirent) : List UInt8 :=
  header d ++ (d.name ++ List.replicate (direntSize d.name.length - 24 - d.name.length) 0)

def Fits (d : Dirent) : Prop := d.ino < 2 ^ 64 ∧ d.off < 2 ^ 64 ∧ d.name.length < 2 ^ 32

def next (bs : List UInt8) : Option (Dirent × List UInt8) :=
  let namelen := ofWord 4 ((bs.drop 16).take 4)
  if bs.length < 24 then none
  else if bs.length < direntSize namelen then none
  else some (⟨(bs.drop 24).take namelen, ofWord 8 (bs.take 8), ofWord 8 ((bs.drop 8).take 8)⟩,
    bs.drop (direntSize namelen))

@[simp] theorem length_header (d : Dirent) : (header d).length = 24 := by simp [header]

theorem length_encode (d : Dirent) : (encode d).length = direntSize d.name.length := by
  simp only [encode, List.length_append, length_header, List.length_replicate, direntSize]
  omega

/-- A header tells where its entry ends. -/
theorem next_header {d : Dirent} (h : Fits d) (tail : List UInt8) :
    next (header d ++ tail) =
      if (header d ++ tail).length < direntSize d.name.length then none
      else some (⟨tail.take d.name.length, d.ino, d.off⟩,
        (header d ++ tail).drop (direntSize d.name.length)) := by
  obtain ⟨hino, hoff, hname⟩ := h
  have hwords : header d ++ tail =
      word 8 d.ino ++ (word 8 d.off ++ (word 4 d.name.length ++ (word 4 0 ++ tail))) := by
    simp [header]
  have htake1 : (header d ++ tail).take 8 = word 8 d.ino := by
    rw [hwords]
    exact List.take_left' (length_word 8 _)
  have hdrop1 : (header d ++ tail).drop 8 =
      word 8 d.off ++ (word 4 d.name.length ++ (word 4 0 ++ tail)) := by
    rw [hwords]
    exact List.drop_left' (length_word 8 _)
  have htake2 : ((header d ++ tail).drop 8).take 8 = word 8 d.off := by
    rw [hdrop1]
    exact List.take_left' (length_word 8 _)
  have hdrop2 : (header d ++ tail).drop 16 = word 4 d.name.length ++ (word 4 0 ++ tail) := by
    rw [show 16 = 8 + 8 from rfl, ← List.drop_drop, hdrop1]
    exact List.drop_left' (length_word 8 _)
  have htake3 : ((header d ++ tail).drop 16).take 4 = word 4 d.name.length := by
    rw [hdrop2]
    exact List.take_left' (length_word 4 _)
  have hdrop3 : (header d ++ tail).drop 24 = tail := List.drop_left' (length_header d)
  have hlong : ¬ (header d ++ tail).length < 24 := by simp
  simp only [next]
  rw [if_neg hlong, htake1, htake2, htake3, hdrop3, ofWord_word hname, ofWord_word hino,
    ofWord_word hoff]

theorem next_encode (d : Dirent) (rest : List UInt8) (h : Fits d) :
    next (encode d ++ rest) = some (d, rest) := by
  have hlength := length_encode d
  have hsplit : encode d ++ rest =
      header d ++ (d.name ++ (List.replicate (direntSize d.name.length - 24 - d.name.length) 0 ++ rest)) := by
    simp [encode]
  have hlong : ¬ (encode d ++ rest).length < direntSize d.name.length := by
    rw [List.length_append, hlength]
    omega
  rw [hsplit, next_header h, ← hsplit, if_neg hlong, List.take_left' rfl, List.drop_left' hlength]

theorem next_cut (d : Dirent) (part : List UInt8) (h : Fits d) (hpart : part <+: encode d)
    (hne : part ≠ encode d) : next part = none := by
  have hlt : part.length < direntSize d.name.length := by
    rw [← length_encode]
    exact lt_of_le_of_ne hpart.length_le fun heq => hne (hpart.eq_of_length heq)
  by_cases hshort : part.length < 24
  · simp only [next]
    rw [if_pos hshort]
  · have hheader : header d <+: part := by
      refine List.prefix_of_prefix_length_le (List.prefix_append _ _) hpart ?_
      rw [length_header]
      omega
    obtain ⟨tail, rfl⟩ := hheader
    rw [next_header h, if_pos hlt]

end HostLayout

def hostLibfuse : Libfuse where
  direntSize := HostLayout.direntSize
  dirents :=
    { Fits := HostLayout.Fits
      encode := HostLayout.encode
      next := HostLayout.next
      encode_ne := fun d => List.ne_nil_of_length_pos (by simp [HostLayout.encode])
      next_nil := rfl
      next_encode := HostLayout.next_encode
      next_cut := HostLayout.next_cut }
  size_dirent := HostLayout.length_encode

end YFS.Fuse
