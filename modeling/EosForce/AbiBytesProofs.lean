import EosForce.AbiSerializerProofs

/-! # Every decoded value takes a byte

    What an array announces is not bounded by the input, but every element
    that is read takes at least one byte of it: an object without a field is
    refused, and everything else starts with a byte of its own.  The count of
    the elements is carried along with the stream, so that the bound is one
    relation, `Stream.Past`, between the stream before and after. -/

namespace Abi

open ChainTypes

/-- Between the two streams lie the bytes of `k` values more than there are
    array elements. -/
def Stream.Past (k : Nat) (a b : Stream) : Prop :=
  ∃ used gained, a.rest = used ++ b.rest ∧ b.elements = a.elements + gained ∧
    gained + k ≤ used.length

theorem Stream.Past.refl (a : Stream) : a.Past 0 a :=
  ⟨[], 0, rfl, rfl, Nat.le_refl 0⟩

theorem Stream.Past.trans {j k : Nat} {a b c : Stream} (hab : a.Past j b) (hbc : b.Past k c) :
    a.Past (j + k) c := by
  obtain ⟨used, gained, hrest, helements, hle⟩ := hab
  obtain ⟨used', gained', hrest', helements', hle'⟩ := hbc
  refine ⟨used ++ used', gained + gained', ?_, ?_, ?_⟩
  · rw [hrest, hrest', List.append_assoc]
  · rw [helements', helements, Nat.add_assoc]
  · rw [List.length_append]
    omega

theorem Stream.Past.mono {j k : Nat} {a b : Stream} (h : a.Past k b) (hjk : j ≤ k) :
    a.Past j b := by
  obtain ⟨used, gained, hrest, helements, hle⟩ := h
  exact ⟨used, gained, hrest, helements, by omega⟩

/-- An element that has been read is counted. -/
theorem Stream.Past.counted {a b : Stream} (h : a.Past 1 b) :
    a.Past 0 { b with elements := b.elements + 1 } := by
  obtain ⟨used, gained, hrest, helements, hle⟩ := h
  exact ⟨used, gained + 1, hrest, by rw [helements, Nat.add_assoc], hle⟩

/-- The unpacker takes at least one byte for a value. -/
def TakesByte {α : Type} (unpack : List UInt8 → Option (α × List UInt8)) : Prop :=
  ∀ input a rest, unpack input = some (a, rest) → ∃ used, input = used ++ rest ∧ 1 ≤ used.length

theorem unpackGroups_takesByte (k : Nat) : TakesByte (unpackGroups k) := by
  induction k with
  | zero =>
    intro input a rest h
    cases h
  | succ k ih =>
    intro input a rest h
    cases input with
    | nil => cases h
    | cons b input =>
      rw [unpackGroups] at h
      by_cases hb : 128 ≤ b.toNat ∧ 0 < k
      · rw [if_pos hb, Option.map_eq_some_iff] at h
        obtain ⟨p, hp, heq⟩ := h
        obtain ⟨used, hused, _⟩ := ih input p.1 p.2 hp
        have hrest : p.2 = rest := congrArg Prod.snd heq
        exact ⟨b :: used, by rw [hused, hrest, List.cons_append], by simp⟩
      · rw [if_neg hb] at h
        have hrest : input = rest := congrArg Prod.snd (Option.some.inj h)
        exact ⟨[b], by rw [hrest, List.singleton_append], Nat.le_refl 1⟩

theorem unpackUnsignedInt_takesByte : TakesByte unpackUnsignedInt := by
  intro input a rest h
  rw [unpackUnsignedInt, Option.map_eq_some_iff] at h
  obtain ⟨p, hp, heq⟩ := h
  have hrest : p.2 = rest := congrArg Prod.snd heq
  rw [← hrest]
  exact unpackGroups_takesByte 5 input p.1 p.2 hp

theorem unpackChar_takesByte : TakesByte unpackChar := by
  intro input a rest h
  cases input with
  | nil => cases h
  | cons b input =>
    have hrest : input = rest := congrArg Prod.snd (Option.some.inj h)
    exact ⟨[b], by rw [hrest, List.singleton_append], Nat.le_refl 1⟩

variable {stream stream' : Stream}

theorem read_past {α : Type} {unpack : List UInt8 → Option (α × List UInt8)} (hu : TakesByte unpack)
    {a : α} (h : stream.read unpack = some (a, stream')) : stream.Past 1 stream' := by
  rw [Stream.read, Option.map_eq_some_iff] at h
  obtain ⟨p, hp, heq⟩ := h
  obtain ⟨used, hused, hlen⟩ := hu stream.rest p.1 p.2 hp
  have hstream : { stream with rest := p.2 } = stream' := congrArg Prod.snd heq
  rw [← hstream]
  exact ⟨used, 0, hused, rfl, by omega⟩

variable {b : Builtin}

theorem unpackValues_past (hb : TakesByte b.unpack) (size : Nat) :
    ∀ {input rest : List UInt8} {vs : List Variant}, b.unpackValues size input = some (vs, rest) →
      ∃ used, input = used ++ rest ∧ vs.length ≤ used.length := by
  induction size with
  | zero =>
    intro input rest vs h
    obtain ⟨rfl, rfl⟩ := Prod.mk.inj (Option.some.inj h)
    exact ⟨[], rfl, Nat.le_refl 0⟩
  | succ size ih =>
    intro input rest vs h
    obtain ⟨⟨v, rest1⟩, hv, h⟩ := Option.bind_eq_some_iff.mp h
    obtain ⟨⟨ws, rest2⟩, hws, h⟩ := Option.bind_eq_some_iff.mp h
    obtain ⟨rfl, rfl⟩ := Prod.mk.inj (Option.some.inj h)
    obtain ⟨used, rfl, hlen⟩ := hb input v rest1 hv
    obtain ⟨used', rfl, hlen'⟩ := ih hws
    refine ⟨used ++ used', (List.append_assoc used used' rest2).symm, ?_⟩
    rw [List.length_cons, List.length_append]
    omega

theorem unpackVector_past (hb : TakesByte b.unpack) {v : Variant}
    (h : b.unpackVector stream = some (v, stream')) : stream.Past 1 stream' := by
  obtain ⟨⟨size, rest⟩, hsize, h⟩ := Option.bind_eq_some_iff.mp h
  obtain ⟨⟨vs, rest'⟩, hvs, h⟩ := Option.bind_eq_some_iff.mp h
  obtain ⟨-, rfl⟩ := Prod.mk.inj (Option.some.inj h)
  obtain ⟨used, hused, hlen⟩ := unpackUnsignedInt_takesByte stream.rest size rest hsize
  obtain ⟨used', rfl, hlen'⟩ := unpackValues_past hb size hvs
  refine ⟨used ++ used', vs.length, ?_, rfl, ?_⟩
  · rw [hused, List.append_assoc]
  · rw [List.length_append]
    omega

theorem unpackOptional_past (hb : TakesByte b.unpack) {v : Variant}
    (h : b.unpackOptional stream = some (v, stream')) : stream.Past 1 stream' := by
  obtain ⟨⟨flag, next⟩, hflag, h⟩ := Option.bind_eq_some_iff.mp h
  have hnext := read_past unpackChar_takesByte hflag
  dsimp only at h
  split at h
  · obtain ⟨-, rfl⟩ := Prod.mk.inj (Option.some.inj h)
    exact hnext
  · split at h
    · exact (hnext.trans (read_past hb h)).mono (by decide)
    · cases h

theorem unpackFunction_past (hb : TakesByte b.unpack) {array optional : Bool} {v : Variant}
    (h : b.unpackFunction array optional stream = some (v, stream')) : stream.Past 1 stream' := by
  rw [Builtin.unpackFunction] at h
  split at h
  · exact unpackVector_past hb h
  · split at h
    · exact unpackOptional_past hb h
    · exact read_past hb h

namespace Serializer

variable {s : Serializer}

/-- What a reader of values does to the stream. -/
def TakesValue (binaryToVariant : TypeName → Stream → Except FcException (Variant × Stream)) :
    Prop :=
  ∀ type stream v stream', binaryToVariant type stream = .ok (v, stream') → stream.Past 1 stream'

theorem unpackElements_past {element : Stream → Except FcException (Variant × Stream)}
    (he : ∀ stream v stream', element stream = .ok (v, stream') → stream.Past 1 stream')
    (size : Nat) : ∀ {stream stream' : Stream} {vars : List Variant},
      unpackElements element size stream = .ok (vars, stream') → stream.Past 0 stream' := by
  induction size with
  | zero =>
    intro stream stream' vars h
    obtain ⟨-, rfl⟩ := Prod.mk.inj (Except.ok.inj h)
    exact Stream.Past.refl stream
  | succ size ih =>
    intro stream stream' vars h
    obtain ⟨⟨v, next⟩, hv, h⟩ := except_bind_ok h
    obtain ⟨-, h⟩ := eosAssert_bind_ok_iff.mp h
    obtain ⟨⟨ws, last⟩, hws, h⟩ := except_bind_ok h
    obtain ⟨-, rfl⟩ := Prod.mk.inj (Except.ok.inj h)
    exact (he stream v next hv).counted.trans (ih hws)

/-- An object that got a field has taken a byte. -/
def Grown (obj : Object) (stream : Stream) (obj' : Object) (stream' : Stream) : Prop :=
  (obj' = obj ∧ stream' = stream) ∨ stream.Past 1 stream'

theorem Grown.trans {obj obj' obj'' : Object} {stream stream' stream'' : Stream}
    (h : Grown obj stream obj' stream') (h' : Grown obj' stream' obj'' stream'') :
    Grown obj stream obj'' stream'' := by
  rcases h with ⟨rfl, rfl⟩ | hpast
  · exact h'
  · rcases h' with ⟨-, rfl⟩ | hpast'
    · exact .inr hpast
    · exact .inr ((hpast.trans hpast').mono (by decide))

theorem unpackField_grown
    {binaryToVariant : TypeName → Stream → Except FcException (Variant × Stream)}
    (hb : TakesValue binaryToVariant) {c c' : Fields} {field : FieldDef}
    (h : s.unpackField binaryToVariant c field = .ok c') :
    Grown c.obj c.stream c'.obj c'.stream := by
  rw [unpackField] at h
  split at h
  · split at h
    · obtain rfl := Except.ok.inj h
      exact .inl ⟨rfl, rfl⟩
    · split at h <;> cases h
  · obtain ⟨⟨v, stream⟩, hv, h⟩ := except_bind_ok h
    obtain rfl := Except.ok.inj h
    exact .inr (hb _ _ _ _ hv)

theorem unpackFields_grown
    {binaryToVariant : TypeName → Stream → Except FcException (Variant × Stream)}
    (hb : TakesValue binaryToVariant) (fields : List FieldDef) :
    ∀ {c c' : Fields}, fields.foldlM (s.unpackField binaryToVariant) c = .ok c' →
      Grown c.obj c.stream c'.obj c'.stream := by
  induction fields with
  | nil =>
    intro c c' h
    obtain rfl := Except.ok.inj h
    exact .inl ⟨rfl, rfl⟩
  | cons field fields ih =>
    intro c c' h
    rw [List.foldlM_cons] at h
    obtain ⟨next, hnext, h⟩ := except_bind_ok h
    exact (unpackField_grown hb hnext).trans (ih h)

/-- A builtin type of the serializer. -/
def IsBuiltin (s : Serializer) (b : Builtin) : Prop :=
  ∃ type, s.builtInTypes.lookup type = some b

theorem kindOf_builtin {type : TypeName} {array optional : Bool}
    (h : s.kindOf type = .builtin b array optional) : s.IsBuiltin b := by
  rw [kindOf] at h
  split at h
  · next b' hlookup =>
    cases h
    exact ⟨_, hlookup⟩
  · split at h
    · cases h
    · split at h
      · cases h
      · split at h <;> cases h

/-- The two readers, one scope further in. -/
theorem binaryToObjectAt_grown {n : Nat} (hb : TakesValue (s.binaryToVariantAt n))
    (ho : ∀ type stream obj obj' stream',
      s.binaryToObjectAt n type stream obj = .ok (obj', stream') → Grown obj stream obj' stream')
    {type : TypeName} {obj obj' : Object}
    (h : s.binaryToObjectAt (n + 1) type stream obj = .ok (obj', stream')) :
    Grown obj stream obj' stream' := by
  rw [binaryToObjectAt] at h
  split at h
  · cases h
  · obtain ⟨⟨obj1, stream1⟩, hbase, h⟩ := except_bind_ok h
    obtain ⟨c, hc, h⟩ := except_bind_ok h
    obtain ⟨rfl, rfl⟩ := Prod.mk.inj (Except.ok.inj h)
    have hbase' : Grown obj stream obj1 stream1 := by
      split at hbase
      · obtain ⟨rfl, rfl⟩ := Prod.mk.inj (Except.ok.inj hbase)
        exact .inl ⟨rfl, rfl⟩
      · exact ho _ _ _ _ _ hbase
    exact hbase'.trans (unpackFields_grown hb _ hc)

theorem binaryToVariantAt_past
    (hbuiltin : ∀ b, s.IsBuiltin b → TakesByte b.unpack) {n : Nat}
    (hb : TakesValue (s.binaryToVariantAt n))
    (ho : ∀ type stream obj obj' stream',
      s.binaryToObjectAt n type stream obj = .ok (obj', stream') → Grown obj stream obj' stream') :
    TakesValue (s.binaryToVariantAt (n + 1)) := by
  intro type stream v stream' h
  rw [binaryToVariantAt] at h
  cases hkind : s.kindOf type with
  | builtin b array optional =>
    rw [hkind] at h
    exact unpackFunction_past (hbuiltin b (kindOf_builtin hkind)) (orRethrow_ok h)
  | array ftype =>
    rw [hkind] at h
    obtain ⟨⟨size, next⟩, hsize, h⟩ := except_bind_ok h
    obtain ⟨⟨vars, last⟩, hvars, h⟩ := except_bind_ok h
    obtain ⟨-, rfl⟩ := Prod.mk.inj (Except.ok.inj h)
    exact (read_past unpackUnsignedInt_takesByte (orRethrow_ok hsize)).trans
      (unpackElements_past (fun _ _ _ => hb _ _ _ _) size hvars)
  | optional ftype =>
    rw [hkind] at h
    obtain ⟨⟨flag, next⟩, hflag, h⟩ := except_bind_ok h
    have hnext := read_past unpackChar_takesByte (orRethrow_ok hflag)
    dsimp only at h
    split at h
    · obtain ⟨-, rfl⟩ := Prod.mk.inj (Except.ok.inj h)
      exact hnext
    · exact (hnext.trans (hb _ _ _ _ h)).mono (by decide)
  | variant def_ =>
    rw [hkind] at h
    obtain ⟨⟨select, next⟩, hselect, h⟩ := except_bind_ok h
    have hnext := read_past unpackUnsignedInt_takesByte (orRethrow_ok hselect)
    obtain ⟨t, -, h⟩ := except_bind_ok h
    obtain ⟨⟨x, last⟩, hx, h⟩ := except_bind_ok h
    obtain ⟨-, rfl⟩ := Prod.mk.inj (Except.ok.inj h)
    exact (hnext.trans (hb _ _ _ _ hx)).mono (by decide)
  | other rtype =>
    rw [hkind] at h
    obtain ⟨⟨mvo, next⟩, hmvo, h⟩ := except_bind_ok h
    obtain ⟨hne, h⟩ := eosAssert_bind_ok_iff.mp h
    obtain ⟨-, rfl⟩ := Prod.mk.inj (Except.ok.inj h)
    -- An object with a field is not the empty one the reader started from.
    rcases ho _ _ _ _ _ hmvo with ⟨hnil, -⟩ | hpast
    · exact absurd hnil hne
    · exact hpast

/-- Whatever is read at any depth takes a byte, and one more for each array
    element in it. -/
theorem readers_take
    (hbuiltin : ∀ b, s.IsBuiltin b → TakesByte b.unpack) (n : Nat) :
    TakesValue (s.binaryToVariantAt n) ∧ ∀ type stream obj obj' stream',
      s.binaryToObjectAt n type stream obj = .ok (obj', stream') →
        Grown obj stream obj' stream' := by
  induction n with
  | zero =>
    constructor
    · intro type stream v stream' h
      cases h
    · intro type stream obj obj' stream' h
      cases h
  | succ n ih =>
    exact ⟨binaryToVariantAt_past hbuiltin ih.1 ih.2,
      fun _ _ _ _ _ h => binaryToObjectAt_grown ih.1 ih.2 h⟩

/-- The loop over the elements of an array counts every one of them. -/
theorem unpackElements_counted {element : Stream → Except FcException (Variant × Stream)}
    (h : ∀ stream v stream', element stream = .ok (v, stream') → stream.elements ≤ stream'.elements)
    (size : Nat) : ∀ {stream vars stream'},
      unpackElements element size stream = .ok (vars, stream') →
      stream.elements + vars.length ≤ stream'.elements := by
  induction size with
  | zero =>
    intro stream vars stream' hok
    obtain ⟨rfl, rfl⟩ := Prod.mk.inj (Except.ok.inj hok)
    exact Nat.le_refl _
  | succ size ih =>
    intro stream vars stream' hok
    obtain ⟨⟨v, next⟩, hv, hok⟩ := except_bind_ok hok
    obtain ⟨-, hok⟩ := eosAssert_bind_ok_iff.mp hok
    obtain ⟨⟨vs, last⟩, hvs, hok⟩ := except_bind_ok hok
    obtain ⟨rfl, rfl⟩ := Prod.mk.inj (Except.ok.inj hok)
    have hle := h _ _ _ hv
    have hrest := ih hvs
    rw [List.length_cons]
    dsimp only at hrest
    omega

/-- The count that the stream carries is one of the elements themselves: an
    array that is read, at any depth, adds its length to it. -/
theorem array_counted (hbuiltin : ∀ b, s.IsBuiltin b → TakesByte b.unpack) {n : Nat}
    {type ftype : TypeName} (hk : s.kindOf type = .array ftype) {vs : List Variant}
    (h : s.binaryToVariantAt n type stream = .ok (.array vs, stream')) :
    stream.elements + vs.length ≤ stream'.elements := by
  cases n with
  | zero => cases h
  | succ n =>
    rw [binaryToVariantAt, hk] at h
    obtain ⟨⟨size, next⟩, hsize, h⟩ := except_bind_ok h
    obtain ⟨⟨vars, last⟩, hvars, h⟩ := except_bind_ok h
    obtain ⟨hvs, rfl⟩ := Prod.mk.inj (Except.ok.inj h)
    obtain rfl := Variant.array.inj hvs
    obtain ⟨-, gained, -, helements, -⟩ :=
      read_past unpackUnsignedInt_takesByte (orRethrow_ok hsize)
    have hcounted := unpackElements_counted (fun stream v stream' hv => by
      obtain ⟨-, gained, -, helements, -⟩ := (readers_take hbuiltin n).1 _ stream v stream' hv
      omega) size hvars
    omega

/-- Decoding cannot produce more array elements than there are bytes: each
    call that returns has taken a byte of the stream, whatever the type and
    the depth, and a decode that returns has produced at most as many elements
    as it has taken bytes.  It makes no difference whether `set_abi` accepted
    the ABI. -/
theorem elements_le_bytes (s : Serializer)
    (hbuiltin : ∀ b, s.IsBuiltin b → TakesByte b.unpack) :
    (∀ n type stream v stream', s.binaryToVariantAt n type stream = .ok (v, stream') →
      ∃ used, stream.rest = used ++ stream'.rest ∧ 1 ≤ used.length) ∧
    ∀ n type binary v stream, s.binaryToVariantAt n type { rest := binary } = .ok (v, stream) →
      ∃ used, binary = used ++ stream.rest ∧ stream.elements ≤ used.length := by
  constructor
  · intro n type stream v stream' h
    obtain ⟨used, gained, hrest, -, hle⟩ := (readers_take hbuiltin n).1 type stream v stream' h
    exact ⟨used, hrest, by omega⟩
  · intro n type binary v stream h
    obtain ⟨used, gained, hrest, helements, hle⟩ := (readers_take hbuiltin n).1 type _ v stream h
    exact ⟨used, hrest, by rw [helements]; dsimp only; omega⟩

/-- The serializer of `uint8`. -/
def uint8Type : Builtin where
  unpack input := (unpackChar input).map fun p => (.uint64 p.1.toNat, p.2)
  pack
    | .uint64 value => .ok [UInt8.ofNat value]
    | _ => .error ⟨.badCast, "Invalid cast from type '$\x7btype\x7d' to uint64"⟩

theorem uint8Type_takesByte : TakesByte uint8Type.unpack := by
  intro input a rest h
  obtain ⟨p, hp, heq⟩ := Option.map_eq_some_iff.mp h
  have hrest : p.2 = rest := congrArg Prod.snd heq
  rw [← hrest]
  exact unpackChar_takesByte input p.1 p.2 hp

/-- A serializer with one builtin type and no ABI. -/
def bare : Serializer where
  builtInTypes := [("uint8".toList, uint8Type)]
  asBytes _ := .error ⟨.badCast, "Invalid cast from type '$\x7btype\x7d' to string"⟩

theorem bare_takesByte (hb : bare.IsBuiltin b) : TakesByte b.unpack := by
  obtain ⟨type, h⟩ := hb
  obtain rfl : b = uint8Type := by
    have hmem := mem_of_lookup h
    simp only [bare, List.mem_singleton, Prod.mk.injEq] at hmem
    exact hmem.2
  exact uint8Type_takesByte

/-- An array of two optional bytes, the input going on behind it. -/
theorem elements_le_bytes_two :
    ∃ v, bare.binaryToVariantAt 30 "uint8?[]".toList { rest := [2, 1, 7, 1, 8, 9] } =
        .ok (v, ⟨[9], 2⟩) ∧
      ∃ used : List UInt8, [2, 1, 7, 1, 8, 9] = used ++ [9] ∧ 2 ≤ used.length := by
  refine ⟨.array [.uint64 7, .uint64 8], rfl, ?_⟩
  exact (elements_le_bytes bare fun _ h => bare_takesByte h).2 30 "uint8?[]".toList
    [2, 1, 7, 1, 8, 9] (.array [.uint64 7, .uint64 8]) ⟨[9], 2⟩ rfl

end Serializer

end Abi
