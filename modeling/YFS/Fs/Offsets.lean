import YFS.Extent.Calls
import YFS.Fs.Sequential

/-! # File offsets

`yfs_client::write` and `yfs_client::read` take an offset of type `off_t`, which has 64
bits; the extent client takes it as a `size_t` of 32. Both cut the same bits, so what was
written is read back from wherever it went. The bytes it went to are another matter.
-/

namespace YFS.Fs
open YFS.Library YFS.Extent

/-- After a successful write the data is read back, and no byte outside its range has changed. -/
def OffsetKept (s : Store) (target : ℕ) (data : Bytes) (o : ℕ) : Prop :=
  ∀ e r s', (write target data o).run e s = (.returned r, s') → r.status = OK →
    (∀ e' : Env, e'.fault 0 = none →
      ∃ r', ((read target data.length o).run e' s').1 = .returned r' ∧ r'.status = OK ∧
        r'.data = data) ∧
    ∀ b, s.contents (key target) = some b → ∃ b', s'.contents (key target) = some b' ∧
      ∀ i, i < b.length → i < o ∨ o + data.length ≤ i → b'[i]? = b[i]?

/-- The bytes that exist from `off` on are already those of the data. -/
def Overlaid (b : Bytes) (off : ℕ) (data : Bytes) : Prop :=
  ∀ i, i < b.length → off ≤ i → i < off + data.length → b[i]? = data[i - off]?

/-! ## One write -/

theorem getElem?_resized {b : Bytes} {n i : ℕ} (hi : i < b.length) (hn : i < n) :
    (Store.resized b n)[i]? = b[i]? := by
  rw [Store.resized, List.getElem?_append_left (by rw [List.length_take]; omega),
    List.getElem?_take_of_lt hn]

/-- The bytes before the replacement: those of the file, with zeros behind them if it grew. -/
theorem written_some {b b' : Bytes} {off : ℕ} {data : Bytes}
    (h : Store.written b off data = some b') :
    ∃ d : Bytes, off ≤ d.length ∧ (∀ i, i < b.length → d[i]? = b[i]?) ∧
      b' = d.take off ++ data ++ d.drop (off + data.length) := by
  simp only [Store.written] at h
  split_ifs at h with hend hoff hoff <;> cases h
  · refine ⟨_, hoff, fun i hi => getElem?_resized hi ?_, rfl⟩
    omega
  · exact ⟨b, hoff, fun i _ => rfl, rfl⟩

theorem written_isSome {b : Bytes} {off : ℕ} (data : Bytes) (h : off ≤ b.length) :
    ∃ b', Store.written b off data = some b' := by
  refine ⟨_, if_pos ?_⟩
  split_ifs with hend
  · rw [Store.length_resized]
    omega
  · exact h

/-- An empty read finds nothing to hand back, and fails at and behind the end of the file. -/
theorem sliced_zero (b : Bytes) (off : ℕ) :
    Store.sliced b 0 off = if off < b.length then some [] else none := by
  simp only [Store.sliced]
  split_ifs with h h'
  · rfl
  · exact absurd (Nat.sub_pos_of_lt h) h'
  · rfl

/-- An empty write can lengthen a file, but not beyond its offset. -/
theorem written_nil (b : Bytes) {off : ℕ} (hoff : off < 2 ^ 32) :
    ∃ b', Store.written b off [] = some b' ∧ b'.length = max b.length off := by
  simp only [Store.written, List.length_nil, add_zero, Nat.mod_eq_of_lt hoff]
  by_cases hlong : off > b.length
  · rw [if_pos hlong, Store.length_resized, if_pos le_rfl]
    refine ⟨_, rfl, ?_⟩
    simp only [List.append_nil, List.take_append_drop, Store.length_resized]
    omega
  · rw [if_neg hlong, if_pos (by omega)]
    refine ⟨_, rfl, ?_⟩
    simp only [List.append_nil, List.take_append_drop]
    omega

section Written
variable {b b' data : Bytes} {off : ℕ} (h : Store.written b off data = some b')
include h

theorem written_inside {i : ℕ} (hlo : off ≤ i) (hhi : i < off + data.length) :
    b'[i]? = data[i - off]? := by
  obtain ⟨c, hoff, -, rfl⟩ := written_some h
  have htake : (c.take off).length = off := List.length_take_of_le hoff
  rw [List.append_assoc, List.getElem?_append_right (by omega), htake,
    List.getElem?_append_left (by omega)]

theorem written_outside {i : ℕ} (hi : i < b.length) (hout : i < off ∨ off + data.length ≤ i) :
    b'[i]? = b[i]? := by
  obtain ⟨c, hoff, hc, rfl⟩ := written_some h
  have htake : (c.take off).length = off := List.length_take_of_le hoff
  rw [← hc i hi, List.append_assoc]
  rcases hout with hlt | hge
  · rw [List.getElem?_append_left (by omega), List.getElem?_take_of_lt hlt]
  · rw [List.getElem?_append_right (by omega), List.getElem?_append_right (by omega),
      List.getElem?_drop]
    congr 1
    omega

/-- What was written is what is read from the same offset. -/
theorem sliced_written (hdata : data ≠ []) : Store.sliced b' data.length off = some data := by
  obtain ⟨c, hoff, -, rfl⟩ := written_some h
  have htake : (c.take off).length = off := List.length_take_of_le hoff
  have hpos : 0 < data.length := List.length_pos_iff.mpr hdata
  have hlen : off + data.length ≤ (c.take off ++ data ++ c.drop (off + data.length)).length := by
    simp only [List.length_append, htake]
    omega
  rw [Store.sliced]
  dsimp only
  rw [if_pos (by omega)]
  have hallow : (if (c.take off ++ data ++ c.drop (off + data.length)).length - off > data.length
      then data.length else (c.take off ++ data ++ c.drop (off + data.length)).length - off) =
      data.length := by
    split_ifs <;> omega
  rw [hallow, List.append_assoc, List.drop_left' htake, List.take_left' rfl]

/-- The bytes written are read back, except if there are none and the offset is not inside the
file. -/
theorem sliced_written_iff (hoff : off < 2 ^ 32) :
    Store.sliced b' data.length off = some data ↔ (data = [] → off < b.length) := by
  by_cases hdata : data = []
  · subst hdata
    obtain ⟨b'', hw, hlen⟩ := written_nil b hoff
    rw [h] at hw
    cases hw
    rw [List.length_nil, sliced_zero, hlen]
    simp
  · simp [sliced_written h hdata, hdata]

end Written

/-! ## Write and read through the client -/

section Run
variable {s : Store} {target : ℕ} {b : Bytes} (hb : s.contents (key target) = some b)
include hb

theorem run_write {e : Env} (hf : e.fault 0 = none) {o : ℕ} {data b' : Bytes}
    (hw : Store.written b (o % 2 ^ 32) data = some b') :
    ∃ r s', (write target data o).run e s = (.returned r, s') ∧ r.status = OK ∧
      s'.contents (key target) = some b' := by
  obtain ⟨s', hs', hp⟩ := Store.putbuf_of_some hb hw (e.now 0)
  refine ⟨{ Reply.of OK with wrtb := some data.length }, s', ?_, rfl, ?_⟩
  · rw [write, Prog.run, if_pos rfl, Prog.run, hf, hp]
    rfl
  · rw [hs', Function.update_self]

theorem written_of_run {e : Env} {o : ℕ} {data : Bytes} {r : Reply} {s' : Store}
    (h : (write target data o).run e s = (.returned r, s')) (hr : r.status = OK) :
    ∃ b', Store.written b (o % 2 ^ 32) data = some b' ∧ s'.contents (key target) = some b' := by
  cases hf : e.fault 0 with
  | some st =>
    have hst := e.status_ne hf
    rw [write, Prog.run, if_pos rfl, Prog.run, hf] at h
    simp only [if_neg hst, stat2yfs_ext hst] at h
    cases h
    exact absurd hr hst
  | none =>
    cases hw : Store.written b (o % 2 ^ 32) data with
    | none =>
      obtain ⟨q, hq, rfl⟩ := Store.find_of_contents hb
      rw [write, Prog.run, if_pos rfl, Prog.run, hf, Store.putbuf, hq] at h
      simp only [hw, Option.map_none] at h
      cases h
    | some b' =>
      obtain ⟨r', t, hrun, -, ht⟩ := run_write hb hf hw
      rw [h] at hrun
      cases hrun
      exact ⟨b', rfl, ht⟩

theorem run_read {e : Env} (hf : e.fault 0 = none) (size o : ℕ) :
    ∃ r, ((read target size o).run e s).1 = .returned r ∧
      r.data = (Store.sliced b size (o % 2 ^ 32)).getD [] ∧
      (r.status = OK ↔ (Store.sliced b size (o % 2 ^ 32)).isSome) := by
  obtain ⟨s', -, hg⟩ := Store.getbuf_of_some hb (e.now 0) size (o % 2 ^ 32)
  rw [read, Prog.run, hf, hg]
  cases Store.sliced b size (o % 2 ^ 32) with
  | none => exact ⟨Reply.of IOERR, rfl, rfl, by decide⟩
  | some data => exact ⟨{ Reply.of OK with data := data }, rfl, rfl, ⟨fun _ => rfl, fun _ => rfl⟩⟩

/-- An offset survives the way to the server if it has 32 bits, and else only if the bytes at the
cut offset are not there or not changed. Where nothing is written the offset must be inside the
file for the read to succeed. -/
theorem offset_kept_iff (hlen : b.length < 2 ^ 32) (data : Bytes) (o : ℕ) :
    OffsetKept s target data o ↔
      (o < 2 ^ 32 ∨ Overlaid b (o % 2 ^ 32) data) ∧ (data = [] → o % 2 ^ 32 < b.length) := by
  have hoff : o % 2 ^ 32 < 2 ^ 32 := Nat.mod_lt _ (by decide)
  constructor
  · intro h
    constructor
    · by_contra hno
      obtain ⟨hbig, hover⟩ := not_or.mp hno
      apply hover
      intro i hi hlo hhi
      obtain ⟨b', hw⟩ := written_isSome data (hlo.trans hi.le)
      obtain ⟨r, s', hrun, hr, hs'⟩ := run_write hb (e := .reliable id []) rfl hw
      obtain ⟨b'', hb'', hsame⟩ := (h _ r s' hrun hr).2 b hb
      rw [hs'] at hb''
      cases hb''
      rw [← written_inside hw hlo hhi, hsame i hi (.inl (by omega))]
    · rintro rfl
      obtain ⟨b', hw, hlen'⟩ := written_nil b hoff
      obtain ⟨r, s', hrun, hr, hs'⟩ := run_write hb (e := .reliable id []) rfl hw
      obtain ⟨r', hread, hok, -⟩ := (h _ r s' hrun hr).1 (.reliable id []) rfl
      obtain ⟨r'', hread', -, hstatus⟩ :=
        run_read hs' (e := .reliable id []) rfl ([] : Bytes).length o
      rw [hread'] at hread
      cases hread
      have hin := hstatus.mp hok
      rw [List.length_nil, sliced_zero] at hin
      by_contra hout
      rw [if_neg (by omega)] at hin
      cases hin
  · rintro ⟨h, hnil⟩ e r s' hrun hr
    obtain ⟨b', hw, hs'⟩ := written_of_run hb hrun hr
    refine ⟨fun e' hf => ?_, fun c hc => ⟨b', hs', ?_⟩⟩
    · obtain ⟨r', hread, hdata', hok⟩ := run_read hs' hf data.length o
      rw [(sliced_written_iff hw hoff).mpr hnil] at hdata' hok
      exact ⟨r', hread, hok.mpr rfl, hdata'⟩
    · rw [hb] at hc
      cases hc
      intro i hi hout
      by_cases hin : o % 2 ^ 32 ≤ i ∧ i < o % 2 ^ 32 + data.length
      · rcases h with hsmall | hover
        · rw [Nat.mod_eq_of_lt hsmall] at hin
          omega
        · rw [written_inside hw hin.1 hin.2, hover i hi hin.1 hin.2]
      · exact written_outside hw hi (by omega)

end Run

def oneByteFile : Store :=
  after (Store.init 0)
    [(.create 1 [97], .reliable id [2]), (.write 0x80000002 [120] 0, .reliable id [])]

theorem contents_oneByteFile : oneByteFile.contents (key 0x80000002) = some [120] := by
  decide

/-- A write inside the 32 bits, next to the byte that is there. -/
theorem offset_kept_appended :
    oneByteFile.contents (key 0x80000002) = some [120] ∧ ([120] : Bytes).length < 2 ^ 32 ∧
    (OffsetKept oneByteFile 0x80000002 [121] 1 ↔
      (1 < 2 ^ 32 ∨ Overlaid [120] (1 % 2 ^ 32) [121]) ∧
        (([121] : Bytes) = [] → 1 % 2 ^ 32 < ([120] : Bytes).length)) :=
  ⟨contents_oneByteFile, by decide, offset_kept_iff contents_oneByteFile (by decide) [121] 1⟩

/-- A write at offset `2 ^ 32` reports success and replaces the first byte of the file; after an
empty write at the end of the file the empty read there fails. -/
theorem offset_cut : ¬ OffsetKept oneByteFile 0x80000002 [121] (2 ^ 32) ∧
    ¬ OffsetKept oneByteFile 0x80000002 [] 1 := by
  constructor
  · intro h
    have hw : Store.written [120] (2 ^ 32 % 2 ^ 32) [121] = some [121] := by decide
    obtain ⟨r, s', hrun, hr, hs'⟩ := run_write contents_oneByteFile (e := .reliable id []) rfl hw
    obtain ⟨b', hb', hsame⟩ := (h _ r s' hrun hr).2 _ contents_oneByteFile
    rw [hs'] at hb'
    cases hb'
    exact absurd (hsame 0 (by decide) (.inl (by decide))) (by decide)
  · intro h
    have hw : Store.written [120] (1 % 2 ^ 32) [] = some [120] := by decide
    obtain ⟨r, s', hrun, hr, hs'⟩ := run_write contents_oneByteFile (e := .reliable id []) rfl hw
    obtain ⟨r', hread, hok, -⟩ := (h _ r s' hrun hr).1 (.reliable id []) rfl
    obtain ⟨r'', hread', -, hstatus⟩ :=
      run_read hs' (e := .reliable id []) rfl ([] : Bytes).length 1
    rw [hread'] at hread
    cases hread
    exact absurd (hstatus.mp hok) (by decide)

end YFS.Fs
