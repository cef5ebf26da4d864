import YFS.Rpc.Wire

/-! # The round trip through a message

A message is four bytes for its size, the words of the header, padding up to
`RPC_HEADER_SZ`, and the encodings of the values. The header may be packed at any time
between the values, since it goes to a fixed place.
-/

namespace YFS.Rpc
open YFS.Library BigEndian Memory

def Header.bytes (h : Header) : Bytes := h.words.flatMap (toBytes 4)

theorem Header.length_bytes (h : Header) : h.bytes.length = 4 * h.words.length := by
  cases h <;> rfl

theorem Header.length_bytes_le (h : Header) : 4 + h.bytes.length ≤ RPC_HEADER_SZ := by
  cases h <;> simp [length_bytes, words, RPC_HEADER_SZ]

structure IsPdu (h : Header) (payload buf : Bytes) : Prop where
  layout : ∃ size pad, buf = size ++ (h.bytes ++ (pad ++ payload)) ∧ size.length = 4 ∧
    4 + h.bytes.length + pad.length = RPC_HEADER_SZ

theorem IsPdu.exists_header {h : Header} {payload buf : Bytes} (hb : IsPdu h payload buf) :
    ∃ header, buf = header ++ payload ∧ header.length = RPC_HEADER_SZ := by
  obtain ⟨size, pad, rfl, hsize, hpad⟩ := hb.layout
  refine ⟨size ++ (h.bytes ++ pad), by simp only [List.append_assoc], ?_⟩
  simp only [List.length_append]
  omega

theorem pack_header (h : Header) (m : Marshall) (hcapa : RPC_HEADER_SZ ≤ m.capa) :
    ∃ capa, h.pack m = some ((), ⟨overwrite m.buf 4 h.bytes, capa, m.ind⟩) ∧ m.capa ≤ capa := by
  have hle := h.length_bytes_le
  have hsz : RPC_HEADER_SZ = 24 := rfl
  obtain ⟨capa, hm, hcapa', -⟩ := Appends.forM Appends.pack h.words { m with ind := 4 }
    (show 0 < m.capa by omega) (show 4 ≤ m.capa by omega)
    (show 4 + h.bytes.length < 2 ^ 30 by omega)
  refine ⟨capa, ?_, hcapa'⟩
  exact run_bind (f := fun _ => Marshall.seek m.ind) hm

/-- The memory after values, the header and more values have been written, read as a message. -/
theorem region_written (mem : ℕ → UInt8) (h : Header) (a b : Bytes) :
    IsPdu h (a ++ b) (region
      (overwrite (overwrite (overwrite mem RPC_HEADER_SZ a) 4 h.bytes) (RPC_HEADER_SZ + a.length) b)
      0 (RPC_HEADER_SZ + a.length + b.length)) := by
  have hle := h.length_bytes_le
  obtain ⟨n, hn⟩ := Nat.exists_eq_add_of_le hle
  generalize hM : overwrite (overwrite (overwrite mem RPC_HEADER_SZ a) 4 h.bytes)
    (RPC_HEADER_SZ + a.length) b = M
  have hheader : region M 4 h.bytes.length = h.bytes := by
    rw [← hM, region_overwrite_of_disjoint _ _ _ (by omega), region_overwrite_self]
  have hfront : region M RPC_HEADER_SZ a.length = a := by
    rw [← hM, region_overwrite_of_disjoint _ _ _ (by omega),
      region_overwrite_of_disjoint _ _ _ (by omega), region_overwrite_self]
  have hback : region M (RPC_HEADER_SZ + a.length) b.length = b := by
    rw [← hM, region_overwrite_self]
  refine ⟨region M 0 4, region M (4 + h.bytes.length) n, ?_, length_region .., by simp [hn]⟩
  calc region M 0 (RPC_HEADER_SZ + a.length + b.length)
      = region M 0 4 ++ region M 4 h.bytes.length ++ region M (4 + h.bytes.length) n ++
          region M RPC_HEADER_SZ a.length ++ region M (RPC_HEADER_SZ + a.length) b.length := by
        rw [region_add, region_add, hn, region_add, region_add]
        simp only [Nat.zero_add]
    _ = region M 0 4 ++ (h.bytes ++ (region M (4 + h.bytes.length) n ++ (a ++ b))) := by
        rw [hheader, hfront, hback]
        simp only [List.append_assoc]

/-- Whatever is written before and after the header is found behind it in the message. -/
theorem isPdu_of_appends {p q : Put} {a b : Bytes} (hp : Appends p a) (hq : Appends q b)
    (h : Header) (mem : ℕ → UInt8) (hlt : RPC_HEADER_SZ + (a ++ b).length < 2 ^ 30) :
    ∃ m, (do p; h.pack; q : Put) (Marshall.new mem) = some ((), m) ∧ IsPdu h (a ++ b) m.takeBuf ∧
      m.takeBuf.length = RPC_HEADER_SZ + (a ++ b).length := by
  have hsz : RPC_HEADER_SZ ≤ DEFAULT_RPC_SZ := by decide
  have hpos : 0 < RPC_HEADER_SZ := by decide
  rw [List.length_append] at hlt
  obtain ⟨c₁, hm₁, hc₁, hind₁⟩ := hp (Marshall.new mem) (hpos.trans_le hsz) hsz
    (show RPC_HEADER_SZ + a.length < 2 ^ 30 by omega)
  have hc₁' : RPC_HEADER_SZ ≤ c₁ := hsz.trans hc₁
  obtain ⟨c₂, hm₂, hc₂⟩ := pack_header h ⟨overwrite mem RPC_HEADER_SZ a, c₁,
    RPC_HEADER_SZ + a.length⟩ hc₁'
  obtain ⟨c₃, hm₃, -, -⟩ := hq ⟨overwrite (overwrite mem RPC_HEADER_SZ a) 4 h.bytes, c₂,
    RPC_HEADER_SZ + a.length⟩ (hpos.trans_le (hc₁'.trans hc₂)) (hind₁.trans hc₂)
    (show RPC_HEADER_SZ + a.length + b.length < 2 ^ 30 by omega)
  refine ⟨⟨_, c₃, RPC_HEADER_SZ + a.length + b.length⟩, ?_, region_written mem h a b, ?_⟩
  · exact (run_bind hm₁).trans ((run_bind hm₂).trans hm₃)
  · simp [Marshall.takeBuf, Nat.add_assoc]

theorem isPdu_of_append {p : Put} {a : Bytes} (hp : Appends p a) (h : Header) (mem : ℕ → UInt8)
    (hlt : RPC_HEADER_SZ + a.length < 2 ^ 30) :
    ∃ m m', p (Marshall.new mem) = some ((), m) ∧ h.pack m = some ((), m') ∧ IsPdu h a m'.takeBuf ∧
      m'.takeBuf.length = RPC_HEADER_SZ + a.length := by
  obtain ⟨m', hrun, hpdu, hlen⟩ := isPdu_of_appends hp Appends.nil h mem (by simpa using hlt)
  obtain ⟨⟨_, m⟩, hm, hrest⟩ := Option.bind_eq_some_iff.mp hrun
  obtain ⟨⟨_, m''⟩, hpack, hpure⟩ := Option.bind_eq_some_iff.mp hrest
  cases hpure
  rw [List.append_nil] at hpdu hlen
  exact ⟨m, m', hm, hpack, hpdu, hlen⟩

theorem unpackWith_of_yields {α : Type} {words : Get α} {bs : Bytes} {x : α} (h : Yields words bs x)
    {u : Unmarshall} (hu : Unmarshall.Holds { u with ind := 4 } bs) :
    Header.unpackWith words u = some (x, { u with ind := RPC_HEADER_SZ }) :=
  (run_bind (f := fun x => do Unmarshall.seek RPC_HEADER_SZ; pure x) (h _ hu)).trans rfl

theorem unpackLike_of_holds (h : Header) {u : Unmarshall}
    (hu : Unmarshall.Holds { u with ind := 4 } h.bytes) :
    h.unpackLike u = some (h, { u with ind := RPC_HEADER_SZ }) := by
  have hword : ∀ x : BitVec 32, Yields Unmarshall.unpack (toBytes 4 x) x :=
    Yields.word Yields.getUint le_rfl
  cases h with
  | req xid proc cltNonce srvNonce xidRep =>
    refine unpackWith_of_yields ?_ hu
    exact (hword xid).bind <| (hword proc).bind <| (hword cltNonce).bind <| (hword srvNonce).bind
      (hword xidRep).map
  | reply xid ret =>
    refine unpackWith_of_yields ?_ hu
    exact (hword xid).bind (hword ret).map

/-- Unpacking finds the header of a message and leaves the payload to be read. -/
theorem unpackLike_of_isPdu {h : Header} {payload buf : Bytes} (hb : IsPdu h payload buf)
    (hlt : buf.length < 2 ^ 31) :
    h.unpackLike (Unmarshall.new buf) = some (h, ⟨buf, RPC_HEADER_SZ, true⟩) ∧
      Unmarshall.Holds ⟨buf, RPC_HEADER_SZ, true⟩ payload ∧
      buf.length = RPC_HEADER_SZ + payload.length := by
  obtain ⟨size, pad, rfl, hsize, hpad⟩ := hb.layout
  have hpayload : (size ++ (h.bytes ++ (pad ++ payload))).drop RPC_HEADER_SZ = payload := by
    rw [← hpad, ← hsize, Nat.add_assoc, ← List.drop_drop, List.drop_left, ← List.drop_drop,
      List.drop_left, List.drop_left]
  have hlen : (size ++ (h.bytes ++ (pad ++ payload))).length = RPC_HEADER_SZ + payload.length := by
    rw [← hpad, ← hsize]
    simp only [List.length_append]
    omega
  refine ⟨unpackLike_of_holds h ⟨rfl, hlt, ?_, pad ++ payload, ?_⟩, ⟨rfl, hlt, ?_, ?_⟩, hlen⟩
  · rw [← hsize]
    simp [Unmarshall.new]
  · simp [Unmarshall.new, ← hsize]
  · rw [hlen]
    exact Nat.le_add_right ..
  · rw [hpayload]

/-- Whatever is written around the header of a message is read back from it, to the last byte. -/
theorem round_trip (mem : ℕ → UInt8) (h : Header) (front back : List Value)
    (hfit : RPC_HEADER_SZ + (encodeAll (front ++ back)).length ≤ MAX_PDU) :
    ∃ m u, (do putAll front; h.pack; putAll back : Put) (Marshall.new mem) = some ((), m) ∧
      (do let h ← h.unpackLike
          let vs ← getAll ((front ++ back).map Sigma.fst)
          pure (h, vs) : Get (Header × List Value)) (Unmarshall.new m.takeBuf) =
        some ((h, front ++ back), u) ∧ u.okdone = true := by
  have happend : encodeAll (front ++ back) = encodeAll front ++ encodeAll back :=
    List.flatMap_append ..
  have hmax : MAX_PDU < 2 ^ 30 := by decide
  rw [happend] at hfit
  obtain ⟨m, hm, hpdu, hlen⟩ := isPdu_of_appends (Appends.putAll front) (Appends.putAll back) h mem
    (by omega)
  obtain ⟨hheader, hpayload, -⟩ := unpackLike_of_isPdu hpdu (by omega)
  have hvalues := Yields.getAll (front ++ back)
  rw [happend] at hvalues
  refine ⟨m, _, hm, (run_bind hheader).trans (run_bind (hvalues _ hpayload)), ?_⟩
  simp [Unmarshall.okdone, Unmarshall.skip, hlen]

def mixedFront : List Value := [⟨.char, 0xff#8⟩]

def mixedBack : List Value :=
  [⟨.map .string (.vector .ull), (⟨[([97], [0#64]), ([97, 98], [])], by decide⟩ : OrderedMap _ _)⟩]

theorem round_trip_mixed :
    RPC_HEADER_SZ + (encodeAll (mixedFront ++ mixedBack)).length ≤ MAX_PDU ∧
    ∃ m u, (do putAll mixedFront; (Header.reply 1 0xffffffff).pack; putAll mixedBack : Put)
        (Marshall.new fun _ => 0) = some ((), m) ∧
      (do let h ← (Header.reply 1 0xffffffff).unpackLike
          let vs ← getAll ((mixedFront ++ mixedBack).map Sigma.fst)
          pure (h, vs) : Get (Header × List Value)) (Unmarshall.new m.takeBuf) =
        some ((.reply 1 0xffffffff, mixedFront ++ mixedBack), u) ∧ u.okdone = true :=
  ⟨by decide, round_trip (fun _ => 0) (.reply 1 0xffffffff) mixedFront mixedBack (by decide)⟩

end YFS.Rpc
