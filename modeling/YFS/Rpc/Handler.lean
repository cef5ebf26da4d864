import YFS.Rpc.Exact

/-! # Registered methods

`rpcs::reg` wraps a method into a `handler` whose `fn` extracts the arguments, calls the
method if nothing is missing and nothing left over, and marshals the result. The wrappers of
the seven arities differ in the number of arguments only.
-/

namespace YFS.Rpc
open YFS.Library

/-- The parameter types of a method and the type of its result `r`. -/
structure Signature where
  args : List Ty
  res : Ty
  deriving DecidableEq, Repr

/-- A method of an object in `σ`: from the arguments to the returned `int` and `r`. -/
abbrev Method (σ : Type) (sig : Signature) := σ → List Value → σ × BitVec 32 × sig.res.Val

def unmarshalArgsFailure : BitVec 32 := BitVec.ofInt 32 (-2)

/-- What `fn` leaves: the object, the arguments of the calls it has made, the value it returns, and
the reply, unless its size is not an `int`. -/
structure Served (σ : Type) where
  obj : σ
  calls : List (List Value)
  ret : BitVec 32
  reply : Option Marshall

def Signature.fn {σ : Type} (sig : Signature) (meth : Method σ sig) (sob : σ) (args : Unmarshall)
    (ret : Marshall) : Option (Served σ) := do
  let (vs, args) ← getAll sig.args args
  if !args.okdone then some ⟨sob, [], unmarshalArgsFailure, some ret⟩
  else
    let (sob, b, r) := meth sob vs
    some ⟨sob, [vs], b, (sig.res.put r ret).map Prod.snd⟩

def Signature.called {σ : Type} (sig : Signature) (meth : Method σ sig) (sob : σ) (ret : Marshall)
    (vs : List Value) : Served σ :=
  ⟨(meth sob vs).1, [vs], (meth sob vs).2.1, (sig.res.put (meth sob vs).2.2 ret).map Prod.snd⟩

def Served.refused {σ : Type} (sob : σ) (ret : Marshall) : Served σ :=
  ⟨sob, [], unmarshalArgsFailure, some ret⟩

/-- The length of a string that is extracted next is below `2 ^ 31`. -/
def Unmarshall.lengthBelow (u : Unmarshall) : Bool :=
  match u.getUint with
  | some (n, u') => !u'.ok || decide (n.toNat < 2 ^ 31)
  | none => true

def lengthsBelow : List Ty → Unmarshall → Bool
  | [], _ => true
  | t :: ts, u => (t != .string || u.lengthBelow) &&
      match t.get u with
      | some (_, u') => lengthsBelow ts u'
      | none => true

theorem Ty.not_wraps {t : Ty} {u : Unmarshall} (h : (t != .string || u.lengthBelow) = true)
    (hsz : u.buf.length < 2 ^ 31) : t.wraps u = false := by
  cases t with
  | string =>
    obtain ⟨n, u', hu', hbuf, -⟩ := Total.getUint u
    have hlength : u'.ok = false ∨ n.toNat < 2 ^ 31 := by
      simpa [Unmarshall.lengthBelow, hu'] using h
    rw [Ty.wraps, Unmarshall.wraps, hu']
    by_cases hok : u'.ok = true
    · have hle := Unmarshall.ind_le_of_getUint hu' hok
      have hn : n.toNat < 2 ^ 31 := hlength.resolve_left (by simp [hok])
      rw [hbuf] at hle
      have hsum : ¬ 2 ^ 32 ≤ u'.ind + n.toNat := by omega
      simpa [hok] using hsum
    · simp [hok]
  | _ => rfl

theorem keeps_getAll {ts : List Ty} (hts : ∀ t ∈ ts, t.plain = true) {u : Unmarshall}
    (hsz : u.buf.length < 2 ^ 31) (h : lengthsBelow ts u = true) : Keeps (getAll ts) u := by
  induction ts generalizing u with
  | nil => exact Total.pure [] u
  | cons t ts ih =>
    rw [lengthsBelow, Bool.and_eq_true] at h
    have hflat := Ty.flat_of_plain (hts t List.mem_cons_self)
    rcases Ty.get_cases hflat hsz with ⟨hw, -⟩ | ⟨-, x, u', hu', hbuf, hok⟩
    · rw [Ty.not_wraps h.1 hsz] at hw
      cases hw
    · rw [hu'] at h
      obtain ⟨vs, u'', hu'', hbuf', hok'⟩ :=
        ih (fun t' ht' => hts t' (List.mem_cons_of_mem t ht')) (hbuf ▸ hsz) h.2
      exact ⟨⟨t, x⟩ :: vs, u'', (run_bind hu').trans (run_bind hu''), hbuf'.trans hbuf, hok' ∘ hok⟩

/-- The payload is one encoding for each argument. -/
def Signature.Encodes (sig : Signature) (vs : List Value) (payload : Bytes) : Prop :=
  vs.map Sigma.fst = sig.args ∧ payload = encodeAll vs

section
variable {σ : Type} {sig : Signature} {meth : Method σ sig} {sob : σ} {ret : Marshall}
  {header payload : Bytes}

theorem Signature.fn_of_getAll {u u' : Unmarshall} {vs : List Value}
    (h : getAll sig.args u = some (vs, u')) :
    sig.fn meth sob u ret =
      some (if u'.okdone then sig.called meth sob ret vs else .refused sob ret) := by
  rw [fn, h]
  by_cases hdone : u'.okdone = true
  · simp [hdone, called]
  · simp [hdone, Served.refused]

/-- The payload is all that is left of the message. -/
theorem holds_payload (hheader : header.length = RPC_HEADER_SZ)
    (hsz : (header ++ payload).length < 2 ^ 31) :
    Unmarshall.Holds ⟨header ++ payload, RPC_HEADER_SZ, true⟩ payload := by
  refine ⟨rfl, hsz, ?_, [], ?_⟩
  · simp [← hheader]
  · simp [← hheader]

theorem Signature.fn_of_encodes (hheader : header.length = RPC_HEADER_SZ)
    (hsz : (header ++ payload).length < 2 ^ 31) {vs : List Value} (h : sig.Encodes vs payload) :
    sig.fn meth sob ⟨header ++ payload, RPC_HEADER_SZ, true⟩ ret =
      some (sig.called meth sob ret vs) := by
  obtain ⟨hts, rfl⟩ := h
  have hget := Yields.getAll vs _ (holds_payload hheader hsz)
  rw [hts] at hget
  rw [fn_of_getAll hget, if_pos]
  simp [Unmarshall.okdone, Unmarshall.skip, hheader]

theorem Signature.fn_of_surplus (hheader : header.length = RPC_HEADER_SZ) {vs : List Value}
    (hts : vs.map Sigma.fst = sig.args) {extra : Bytes} (hextra : extra ≠ [])
    (hsz : (header ++ (encodeAll vs ++ extra)).length < 2 ^ 31) :
    sig.fn meth sob ⟨header ++ (encodeAll vs ++ extra), RPC_HEADER_SZ, true⟩ ret =
      some (.refused sob ret) := by
  have hget := Yields.getAll vs _ (holds_payload hheader hsz).left
  rw [hts] at hget
  rw [fn_of_getAll hget, if_neg]
  simp [Unmarshall.okdone, Unmarshall.skip, hheader, hextra]

/-- The wrapper finds nothing wrong with encodings alone. -/
theorem Signature.encodes_of_okdone (hplain : ∀ t ∈ sig.args, t.plain = true)
    (hheader : header.length = RPC_HEADER_SZ) {vs : List Value} {u' : Unmarshall}
    (h : getAll sig.args ⟨header ++ payload, RPC_HEADER_SZ, true⟩ = some (vs, u'))
    (hdone : u'.okdone = true) : sig.Encodes vs payload := by
  rw [Unmarshall.okdone, Bool.and_eq_true, beq_iff_eq] at hdone
  obtain ⟨-, bs, ⟨hts, rfl⟩, hpre, rfl⟩ := Exact.getAll hplain _ vs u' h hdone.1
  have hrest : (header ++ payload).drop RPC_HEADER_SZ = payload := by
    rw [← hheader, List.drop_left]
  have hlen : (encodeAll vs).length = payload.length := by
    have hind : RPC_HEADER_SZ + (encodeAll vs).length = (header ++ payload).length := hdone.2
    rw [List.length_append, hheader] at hind
    omega
  change encodeAll vs <+: (header ++ payload).drop RPC_HEADER_SZ at hpre
  rw [hrest] at hpre
  exact ⟨hts, (hpre.eq_of_length hlen).symm⟩

end

/-- A registered method is called once, with the arguments that the payload encodes, or it is not
called at all and the reply stays as it is. -/
theorem handler_runs_exactly {σ : Type} (sig : Signature) (hplain : ∀ t ∈ sig.args, t.plain = true)
    (meth : Method σ sig) (sob : σ) (ret : Marshall) (header payload : Bytes)
    (hheader : header.length = RPC_HEADER_SZ) (hsz : (header ++ payload).length < 2 ^ 31)
    (hlengths : lengthsBelow sig.args ⟨header ++ payload, RPC_HEADER_SZ, true⟩ = true) :
    ∃ o, sig.fn meth sob ⟨header ++ payload, RPC_HEADER_SZ, true⟩ ret = some o ∧
      (o.calls ≠ [] ↔ ∃ vs, sig.Encodes vs payload) ∧
      (∀ vs, sig.Encodes vs payload → o = sig.called meth sob ret vs) ∧
      ((¬ ∃ vs, sig.Encodes vs payload) → o = .refused sob ret) := by
  by_cases hex : ∃ vs, sig.Encodes vs payload
  · obtain ⟨vs, hvs⟩ := hex
    refine ⟨sig.called meth sob ret vs, Signature.fn_of_encodes hheader hsz hvs,
      ⟨fun _ => ⟨vs, hvs⟩, fun _ => List.cons_ne_nil _ _⟩, ?_, fun h => absurd ⟨vs, hvs⟩ h⟩
    intro vs' hvs'
    apply Option.some.inj
    rw [← Signature.fn_of_encodes hheader hsz hvs, Signature.fn_of_encodes hheader hsz hvs']
  · obtain ⟨vs, u', hu', -, -⟩ := keeps_getAll hplain hsz hlengths
    have hdone : u'.okdone ≠ true :=
      fun hdone => hex ⟨vs, Signature.encodes_of_okdone hplain hheader hu' hdone⟩
    refine ⟨.refused sob ret, ?_, ⟨fun h => absurd rfl h, fun h => absurd h hex⟩, ?_, fun _ => rfl⟩
    · rw [Signature.fn_of_getAll hu', if_neg hdone]
    · exact fun vs hvs => absurd ⟨vs, hvs⟩ hex

def echo : Signature := ⟨[.string, .ushort], .int⟩

theorem handler_runs_exactly_echo :
    lengthsBelow echo.args ⟨List.replicate 24 0 ++ [0, 0, 0, 1, 97, 1, 2], 24, true⟩ = true ∧
    ∃ o, echo.fn (fun (n : ℕ) _ => (n + 1, 0, (7#32 : BitVec 32))) 0
        ⟨List.replicate 24 0 ++ [0, 0, 0, 1, 97, 1, 2], 24, true⟩
        (Marshall.new fun _ => 0) = some o ∧
      (o.calls ≠ [] ↔ ∃ vs, echo.Encodes vs [0, 0, 0, 1, 97, 1, 2]) ∧
      (∀ vs, echo.Encodes vs [0, 0, 0, 1, 97, 1, 2] →
        o = echo.called (fun (n : ℕ) _ => (n + 1, 0, (7#32 : BitVec 32))) 0
          (Marshall.new fun _ => 0) vs) ∧
      ((¬ ∃ vs, echo.Encodes vs [0, 0, 0, 1, 97, 1, 2]) →
        o = .refused 0 (Marshall.new fun _ => 0)) :=
  ⟨by decide +kernel, handler_runs_exactly echo (by decide) _ 0 _ (List.replicate 24 0)
    [0, 0, 0, 1, 97, 1, 2] rfl (by decide) (by decide +kernel)⟩

end YFS.Rpc
