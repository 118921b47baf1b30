import EosForce.ChainTypesProofs

/-! # The ABI serializer

    An ABI names types; the serializer turns a variant into bytes of a named
    type and back.  Both directions recurse over typedefs, structs with their
    bases, arrays, optionals and variants, and each call opens a scope.  At
    most `maxRecursionDepth - 1` scopes are open at once, so the recursion is
    on the number of scopes that are left. -/

namespace Abi

open ChainTypes

abbrev TypeName := List Char

abbrev FieldName := List Char

/-- `fc::variant`. -/
inductive Variant where
  | null
  | int64 (value : Int)
  | uint64 (value : Nat)
  | double (bits : Nat)
  | bool (value : Bool)
  | string (value : List Char)
  | array (values : List Variant)
  | object (entries : List (FieldName × Variant))
  | blob (data : List UInt8)

/-- `variant::is_null`. -/
def Variant.isNull : Variant → Bool
  | .null => true
  | _ => false

abbrev Object := List (FieldName × Variant)

/-- What `std::string::c_str` is read as: it ends at the first zero. -/
def cStr (text : List Char) : List Char :=
  text.takeWhile (·.toNat ≠ 0)

/-- `mutable_variant_object::set`.  A key is looked up as a C string. -/
def Object.set (obj : Object) (key : FieldName) (var : Variant) : Object :=
  if obj.any (fun e => e.1 == cStr key) then
    obj.map fun e => if e.1 = cStr key then (e.1, var) else e
  else obj ++ [(key, var)]

/-! ## The binary format of sizes and tags -/

/-- The loop that packs an `fc::unsigned_int`, seven bits a byte; a 32-bit
    value takes five bytes at most. -/
def packGroups : Nat → Nat → List UInt8
  | 0, _ => []
  | k + 1, val =>
    if val / 128 = 0 then [UInt8.ofNat (val % 128)]
    else UInt8.ofNat (val % 128 + 128) :: packGroups k (val / 128)

/-- `fc::raw::pack` of an `fc::unsigned_int`. -/
def packUnsignedInt (value : Nat) : List UInt8 :=
  packGroups 5 (value % 2 ^ 32)

/-- The loop that unpacks an `fc::unsigned_int`.  It ends at a byte without
    the continuation bit, and after the fifth byte in any case. -/
def unpackGroups : Nat → List UInt8 → Option (Nat × List UInt8)
  | 0, _ => none
  | _ + 1, [] => none
  | k + 1, b :: rest =>
    if 128 ≤ b.toNat ∧ 0 < k then
      (unpackGroups k rest).map fun p => (b.toNat % 128 + 128 * p.1, p.2)
    else some (b.toNat % 128, rest)

/-- `fc::raw::unpack` of an `fc::unsigned_int`. -/
def unpackUnsignedInt (input : List UInt8) : Option (Nat × List UInt8) :=
  (unpackGroups 5 input).map fun p => (p.1 % 2 ^ 32, p.2)

/-- `fc::raw::unpack` of a `char`. -/
def unpackChar : List UInt8 → Option (UInt8 × List UInt8)
  | [] => none
  | b :: rest => some (b, rest)

/-- `fc::datastream<const char*>`: the bytes that are left.  `elements` counts
    the array elements read so far; the source keeps no such count. -/
structure Stream where
  rest : List UInt8
  elements : Nat := 0
deriving DecidableEq

/-- Read a value off the stream. -/
def Stream.read {α : Type} (unpack : List UInt8 → Option (α × List UInt8)) (stream : Stream) :
    Option (α × Stream) :=
  (unpack stream.rest).map fun p => (p.1, { stream with rest := p.2 })

/-- `EOS_RETHROW_EXCEPTIONS`. -/
def orRethrow {α : Type} (x : Option α) (t : ExceptionType) (what : String) :
    Except FcException α :=
  match x with
  | some a => .ok a
  | none => .error ⟨t, what⟩

theorem orRethrow_ok {α : Type} {x : Option α} {t : ExceptionType} {what : String} {a : α}
    (h : orRethrow x t what = .ok a) : x = some a := by
  cases x with
  | none => cases h
  | some b => exact congrArg some (Except.ok.inj h)

/-! ## Builtin types -/

/-- The serializer of a builtin type. -/
structure Builtin where
  unpack : List UInt8 → Option (Variant × List UInt8)
  pack : Variant → Except FcException (List UInt8)

/-- The values of an `fc::raw` vector. -/
def Builtin.unpackValues (b : Builtin) : Nat → List UInt8 → Option (List Variant × List UInt8)
  | 0, input => some ([], input)
  | size + 1, input => do
      let (v, rest) ← b.unpack input
      let (vs, rest) ← b.unpackValues size rest
      some (v :: vs, rest)

/-- `variant_from_stream<vector<T>>`. -/
def Builtin.unpackVector (b : Builtin) (stream : Stream) : Option (Variant × Stream) := do
  let (size, rest) ← unpackUnsignedInt stream.rest
  let (vs, rest) ← b.unpackValues size rest
  some (.array vs, ⟨rest, stream.elements + vs.length⟩)

/-- `variant_from_stream<optional<T>>`; the flag is packed as a `bool`. -/
def Builtin.unpackOptional (b : Builtin) (stream : Stream) : Option (Variant × Stream) := do
  let (flag, stream) ← stream.read unpackChar
  if flag = 0 then some (.null, stream)
  else if flag = 1 then stream.read b.unpack
  else none

/-- `unpack_function`. -/
def Builtin.unpackFunction (b : Builtin) (isArray isOptional : Bool) (stream : Stream) :
    Option (Variant × Stream) :=
  if isArray then b.unpackVector stream
  else if isOptional then b.unpackOptional stream
  else stream.read b.unpack

/-- `variant::get_array`. -/
def Variant.getArray : Variant → Except FcException (List Variant)
  | .array vs => .ok vs
  | _ => .error ⟨.badCast, "Invalid cast from $\x7btype\x7d to Array"⟩

/-- `pack_function`. -/
def Builtin.packFunction (b : Builtin) (var : Variant) (isArray isOptional : Bool) :
    Except FcException (List UInt8) :=
  if isArray then do
    let vars ← var.getArray
    let packed ← vars.mapM b.pack
    pure (packUnsignedInt vars.length ++ packed.flatten)
  else if isOptional then
    if var.isNull then pure [0] else (b.pack var).map (1 :: ·)
  else b.pack var

/-! ## Type names -/

variable (type : TypeName)

/-- `ends_with`. -/
def endsWith (suffix : List Char) : Bool :=
  suffix.isSuffixOf type

/-- `abi_serializer::is_array`. -/
def isArray : Bool := endsWith type "[]".toList

/-- `abi_serializer::is_optional`. -/
def isOptional : Bool := endsWith type "?".toList

/-- A field type with a binary extension. -/
def isExtension : Bool := endsWith type "$".toList

/-- `abi_serializer::fundamental_type`. -/
def fundamentalType : TypeName :=
  if isArray type then type.take (type.length - 2)
  else if isOptional type then type.take (type.length - 1)
  else type

/-- `abi_serializer::_remove_bin_extension`. -/
def removeBinExtension : TypeName :=
  if isExtension type then type.take (type.length - 1) else type

/-- `type_def`. -/
structure TypeDef where
  newTypeName : TypeName
  type : TypeName

/-- `field_def`. -/
structure FieldDef where
  name : FieldName
  type : TypeName

/-- `struct_def`; a struct without a base has an empty base name. -/
structure StructDef where
  name : TypeName
  base : TypeName
  fields : List FieldDef

/-- `variant_def`. -/
structure VariantDef where
  name : TypeName
  types : List TypeName

/-- `abi_def`, less the texts of the Ricardian contracts and the keys of the
    tables. -/
structure AbiDef where
  version : List Char
  types : List TypeDef := []
  structs : List StructDef := []
  actions : List (Name × TypeName) := []
  tables : List (Name × TypeName) := []
  errorMessages : List (UInt64 × List Char) := []
  variants : List VariantDef := []

/-- `abi_serializer`.  A map is the list of its entries, ordered by the keys.
    `asBytes` is `variant::as<bytes>`. -/
structure Serializer where
  builtInTypes : List (TypeName × Builtin)
  asBytes : Variant → Except FcException (List UInt8)
  typedefs : List (TypeName × TypeName) := []
  structs : List (TypeName × StructDef) := []
  actions : List (UInt64 × TypeName) := []
  tables : List (UInt64 × TypeName) := []
  errorMessages : List (UInt64 × List Char) := []
  variants : List (TypeName × VariantDef) := []

namespace Serializer

/-- The loop of `resolve_type`, at the target of a typedef. -/
def followTypedefs (s : Serializer) : Nat → TypeName → Option TypeName
  | 0, _ => none
  | i + 1, t =>
    match s.typedefs.lookup t with
    | none => some t
    | some t' => s.followTypedefs i t'

variable (s : Serializer)

/-- `abi_serializer::resolve_type`. -/
def resolveType (type : TypeName) : TypeName :=
  match s.typedefs.lookup type with
  | none => type
  | some t => (s.followTypedefs s.typedefs.length t).getD type

/-- `abi_serializer::max_recursion_depth`. -/
def maxRecursionDepth : Nat := 32

/-- What `enter_scope` throws when no scope is left. -/
def tooDeep : FcException :=
  ⟨.abiRecursionDepth, "recursive definition, max_recursion_depth $\x7br\x7d "⟩

/-- `abi_serializer::_is_type`. -/
def isType (s : Serializer) : Nat → TypeName → Except FcException Bool
  | 0, _ => .error tooDeep
  | n + 1, rtype =>
    let type := fundamentalType rtype
    if (s.builtInTypes.lookup type).isSome then .ok true
    else
      match s.typedefs.lookup type with
      | some t => s.isType n t
      | none => .ok ((s.structs.lookup type).isSome || (s.variants.lookup type).isSome)

/-- What a type name stands for. -/
inductive Kind where
  | builtin (btype : Builtin) (isArray isOptional : Bool)
  | array (ftype : TypeName)
  | optional (ftype : TypeName)
  | variant (v : VariantDef)
  | other (rtype : TypeName)

/-- The tests that both directions make of a type, in their order. -/
def kindOf (type : TypeName) : Kind :=
  let rtype := s.resolveType type
  let ftype := fundamentalType rtype
  match s.builtInTypes.lookup ftype with
  | some btype => .builtin btype (isArray rtype) (isOptional rtype)
  | none =>
    if isArray rtype then .array ftype
    else if isOptional rtype then .optional ftype
    else
      match s.variants.lookup rtype with
      | some v => .variant v
      | none => .other rtype

/-! ## Reading -/

/-- What the loop over the fields of a struct carries. -/
structure Fields where
  obj : Object
  stream : Stream
  encounteredExtension : Bool := false

/-- One field of `_binary_to_variant` for a struct. -/
def unpackField (binaryToVariant : TypeName → Stream → Except FcException (Variant × Stream))
    (c : Fields) (field : FieldDef) : Except FcException Fields :=
  let extension := isExtension field.type
  let encounteredExtension := c.encounteredExtension || extension
  if c.stream.rest = [] then
    if extension then .ok { c with encounteredExtension }
    else if encounteredExtension then
      .error ⟨.abi, "Encountered field '$\x7bf\x7d' without binary extension designation while processing struct '$\x7bp\x7d'"⟩
    else
      .error ⟨.unpack, "Stream unexpectedly ended; unable to unpack field '$\x7bf\x7d' of struct '$\x7bp\x7d'"⟩
  else do
    let (v, stream) ← binaryToVariant
      (s.resolveType (if extension then removeBinExtension field.type else field.type)) c.stream
    pure ⟨c.obj.set field.name v, stream, encounteredExtension⟩

/-- The loop over the elements of an array. -/
def unpackElements (element : Stream → Except FcException (Variant × Stream)) :
    Nat → Stream → Except FcException (List Variant × Stream)
  | 0, stream => .ok ([], stream)
  | size + 1, stream => do
      let (v, stream) ← element stream
      eosAssert (v.isNull = false) .unpack "Invalid packed array '$\x7bp\x7d'"
      let (vars, stream) ← unpackElements element size
        { stream with elements := stream.elements + 1 }
      pure (v :: vars, stream)

mutual

/-- `_binary_to_variant` for the fields of a struct, with `n` scopes left. -/
def binaryToObjectAt (s : Serializer) :
    Nat → TypeName → Stream → Object → Except FcException (Object × Stream)
  | 0, _, _, _ => .error tooDeep
  | n + 1, type, stream, obj =>
    match s.structs.lookup type with
    | none => .error ⟨.invalidTypeInsideAbi, "Unknown type $\x7btype\x7d"⟩
    | some st => do
        let (obj, stream) ← (if st.base = [] then pure (obj, stream)
          else s.binaryToObjectAt n (s.resolveType st.base) stream obj)
        let c ← st.fields.foldlM (s.unpackField (s.binaryToVariantAt n)) { obj, stream }
        pure (c.obj, c.stream)

/-- `_binary_to_variant`, with `n` scopes left. -/
def binaryToVariantAt (s : Serializer) :
    Nat → TypeName → Stream → Except FcException (Variant × Stream)
  | 0, _, _ => .error tooDeep
  | n + 1, type, stream =>
    match s.kindOf type with
    | .builtin btype isArray isOptional =>
      orRethrow (btype.unpackFunction isArray isOptional stream) .unpack
        "Unable to unpack $\x7bclass\x7d type '$\x7btype\x7d' while processing '$\x7bp\x7d'"
    | .array ftype => do
        let (size, stream) ← orRethrow (stream.read unpackUnsignedInt) .unpack
          "Unable to unpack size of array '$\x7bp\x7d'"
        let (vars, stream) ← unpackElements (s.binaryToVariantAt n ftype) size stream
        pure (.array vars, stream)
    | .optional ftype => do
        let (flag, stream) ← orRethrow (stream.read unpackChar) .unpack
          "Unable to unpack presence flag of optional '$\x7bp\x7d'"
        if flag = 0 then pure (.null, stream) else s.binaryToVariantAt n ftype stream
    | .variant v => do
        let (select, stream) ← orRethrow (stream.read unpackUnsignedInt) .unpack
          "Unable to unpack tag of variant '$\x7bp\x7d'"
        let t ← orRethrow v.types[select]? .unpack
          "Unpacked invalid tag ($\x7bselect\x7d) for variant '$\x7bp\x7d'"
        let (x, stream) ← s.binaryToVariantAt n t stream
        pure (.array [.string t, x], stream)
    | .other rtype => do
        let (mvo, stream) ← s.binaryToObjectAt n rtype stream []
        eosAssert (mvo ≠ []) .unpack "Unable to unpack '$\x7bp\x7d' from stream"
        pure (.object mvo, stream)

end

/-- `abi_serializer::binary_to_variant` of a byte string, with what is left of
    it.  The outermost scope is open while the stream is read. -/
def binaryToVariant (type : TypeName) (binary : List UInt8) :
    Except FcException (Variant × Stream) :=
  s.binaryToVariantAt (maxRecursionDepth - 2) type { rest := binary }

/-! ## Writing -/

/-- The loop over the fields of a struct that is given as an object.  `allow`
    is `extensions_allowed`, which holds on for the last field only. -/
def packObjectFields (allow : Bool)
    (variantToBinary : Bool → TypeName → Variant → Except FcException (List UInt8))
    (vo : Object) : List FieldDef → Bool → Except FcException (List UInt8)
  | [], _ => .ok []
  | field :: fields, disallowAdditionalFields =>
    match vo.lookup (cStr field.name) with
    | some x =>
      if disallowAdditionalFields then
        .error ⟨.pack, "Unexpected field '$\x7bf\x7d' found in input object while processing struct '$\x7bp\x7d'"⟩
      else do
        let packed ← variantToBinary (allow && fields.isEmpty) (removeBinExtension field.type) x
        let others ← packObjectFields allow variantToBinary vo fields false
        pure (packed ++ others)
    | none =>
      if isExtension field.type && allow then
        packObjectFields allow variantToBinary vo fields true
      else if disallowAdditionalFields then
        .error ⟨.abi, "Encountered field '$\x7bf\x7d' without binary extension designation while processing struct '$\x7bp\x7d'"⟩
      else
        .error ⟨.pack, "Missing field '$\x7bf\x7d' in input object while processing struct '$\x7bp\x7d'"⟩

/-- The loop over the fields of a struct that is given as an array.  It ends
    at the first extension field without a value. -/
def packArrayFields (allow : Bool)
    (variantToBinary : Bool → TypeName → Variant → Except FcException (List UInt8)) :
    List FieldDef → List Variant → Except FcException (List UInt8)
  | [], _ => .ok []
  | field :: fields, x :: va => do
      let packed ← variantToBinary (allow && fields.isEmpty) (removeBinExtension field.type) x
      let others ← packArrayFields allow variantToBinary fields va
      pure (packed ++ others)
  | field :: _, [] =>
    if isExtension field.type && allow then .ok []
    else
      .error ⟨.pack, "Early end to input array specifying the fields of struct '$\x7bp\x7d'; require input for field '$\x7bf\x7d'"⟩

/-- The value and the type a variant is given as. -/
def variantInput (var : Variant) : Except FcException (TypeName × Variant) :=
  match var with
  | .array [tag, x] =>
    match tag with
    | .string t => .ok (t, x)
    | _ => .error ⟨.pack, "Encountered non-string as first item of input array while processing variant '$\x7bp\x7d'"⟩
  | _ => .error ⟨.pack, "Expected input to be an array of two items while processing variant '$\x7bp\x7d'"⟩

/-- The part of `_variant_to_binary` for a struct. -/
def packStruct (allow : Bool)
    (variantToBinary : Bool → TypeName → Variant → Except FcException (List UInt8)) (st : StructDef)
    (var : Variant) : Except FcException (List UInt8) :=
  match var with
  | .object vo => do
      let base ← (if st.base = [] then pure []
        else variantToBinary false (s.resolveType st.base) var)
      let own ← packObjectFields allow variantToBinary vo st.fields false
      pure (base ++ own)
  | .array va =>
    if st.base = [] then packArrayFields allow variantToBinary st.fields va
    else
      .error ⟨.invalidTypeInsideAbi, "Using input array to specify the fields of the derived struct '$\x7bp\x7d'; input arrays are currently only allowed for structs without a base"⟩
  | _ => .error ⟨.pack, "Unexpected input encountered while processing struct '$\x7bp\x7d'"⟩

/-- `_variant_to_binary`, with `n` scopes left.  `allow` is
    `extensions_allowed`. -/
def variantToBinaryAt (s : Serializer) :
    Nat → Bool → TypeName → Variant → Except FcException (List UInt8)
  | 0, _, _, _ => .error tooDeep
  | n + 1, allow, type, var =>
    match s.kindOf type with
    | .builtin btype isArray isOptional => btype.packFunction var isArray isOptional
    | .array ftype => do
        let vars ← var.getArray
        let packed ← vars.mapM (s.variantToBinaryAt n false ftype)
        pure (packUnsignedInt vars.length ++ packed.flatten)
    | .optional ftype =>
      if var.isNull then pure [0]
      else do
        let packed ← s.variantToBinaryAt n allow ftype var
        pure (1 :: packed)
    | .variant v => do
        let (t, x) ← variantInput var
        let i ← orRethrow (v.types.findIdx? (· = t)) .pack
          "Specified type '$\x7bt\x7d' in input array is not valid within the variant '$\x7bp\x7d'"
        let packed ← s.variantToBinaryAt n allow t x
        pure (packUnsignedInt i ++ packed)
    | .other rtype =>
      match s.structs.lookup rtype with
      | none => .error ⟨.invalidTypeInsideAbi, "Unknown type $\x7btype\x7d"⟩
      | some st => s.packStruct allow (s.variantToBinaryAt n) st var

/-- The size of the buffer of `_variant_to_binary`. -/
def bufferSize : Nat := 1024 * 1024

/-- `abi_serializer::variant_to_binary`.  What is not a type is taken for raw
    bytes, and a write past the end of the buffer throws. -/
def variantToBinary (type : TypeName) (var : Variant) :
    Except FcException (List UInt8) := do
  let known ← s.isType (maxRecursionDepth - 2) type
  if known then do
    let packed ← s.variantToBinaryAt (maxRecursionDepth - 2) true type var
    eosAssert (packed.length ≤ bufferSize) .outOfRange "datastream attempted to write past the end"
    pure packed
  else s.asBytes var

/-! ## Accepting an ABI -/

/-- `m[key] = value` of a `std::map`. -/
def assign {κ α : Type} [LT κ] [DecidableLT κ] [DecidableEq κ] (key : κ) (value : α) :
    List (κ × α) → List (κ × α)
  | [] => [(key, value)]
  | (k, a) :: m =>
    if k = key then (key, value) :: m
    else if key < k then (key, value) :: (k, a) :: m
    else (k, a) :: assign key value m

/-- A type that has been seen leaves the types that have not. -/
theorem unseen_shrinks {seen all : List TypeName} {t : TypeName} (hall : t ∈ all)
    (hseen : t ∉ seen) :
    (all.filter (· ∉ seen ++ [t])).length < (all.filter (· ∉ seen)).length := by
  have hfilter : all.filter (· ∉ seen ++ [t]) = (all.filter (· ∉ seen)).filter (· ≠ t) := by
    rw [List.filter_filter]
    congr 1
    funext u
    simp [and_comm]
  rw [hfilter, List.length_filter_lt_length_iff_exists]
  exact ⟨t, by simp [hall, hseen], by simp⟩

theorem mem_of_lookup {α : Type} {key : TypeName} {a : α} {m : List (TypeName × α)}
    (h : m.lookup key = some a) : (key, a) ∈ m := by
  obtain ⟨l1, l2, rfl, -⟩ := List.lookup_eq_some_iff.mp h
  simp

/-- The `while` loop of `validate` over the typedefs.  Each turn adds a target
    that was not among the types seen, so it ends. -/
def checkTypedef (s : Serializer) (typesSeen : List TypeName) (type : TypeName) :
    Except FcException Unit :=
  match h : s.typedefs.lookup type with
  | none => .ok ()
  | some t =>
    if hs : t ∈ typesSeen then
      .error ⟨.abiCircularDef, "Circular reference in type $\x7btype\x7d"⟩
    else
      have ht : t ∈ s.typedefs.map Prod.snd := List.mem_map_of_mem (mem_of_lookup h)
      have := unseen_shrinks ht hs
      s.checkTypedef (typesSeen ++ [t]) t
termination_by ((s.typedefs.map Prod.snd).filter (· ∉ typesSeen)).length
decreasing_by exact this

/-- The types that typedefs are given for and that have not been seen. -/
def unseen (seen : List TypeName) : Nat :=
  ((s.typedefs.map Prod.fst).filter (· ∉ seen)).length

/-- `abi_serializer::get_struct`. -/
def getStruct (type : TypeName) : Except FcException StructDef :=
  orRethrow (s.structs.lookup (s.resolveType type)) .invalidTypeInsideAbi
    "Unknown struct $\x7btype\x7d"

theorem getStruct_mem {s : Serializer} {type : TypeName} {st : StructDef}
    (h : s.getStruct type = .ok st) : (s.resolveType type, st) ∈ s.structs :=
  mem_of_lookup (orRethrow_ok h)

/-- The `while` loop of `validate` over the bases of a struct. -/
def checkBase (s : Serializer) (typesSeen : List TypeName) (base : TypeName) :
    Except FcException Unit :=
  if base = [] then .ok ()
  else
    match h : s.getStruct base with
    | .error e => .error e
    | .ok st =>
      if hs : st.name ∈ typesSeen then
        .error ⟨.abiCircularDef, "Circular reference in struct $\x7btype\x7d"⟩
      else
        have hst : st.name ∈ s.structs.map fun p => p.2.name :=
          List.mem_map_of_mem (getStruct_mem h)
        have := unseen_shrinks hst hs
        s.checkBase (typesSeen ++ [st.name]) st.base
termination_by ((s.structs.map fun p => p.2.name).filter (· ∉ typesSeen)).length
decreasing_by exact this

/-- The check that a name in the ABI stands for a type. -/
def checkType (type : TypeName) : Except FcException Unit := do
  let known ← s.isType (maxRecursionDepth - 1) type
  eosAssert (known = true) .invalidTypeInsideAbi "$\x7btype\x7d"

/-- `abi_serializer::validate`. -/
def validate : Except FcException Unit := do
  s.typedefs.forM fun t => s.checkTypedef [t.1, t.2] t.2
  s.typedefs.forM fun t => s.checkType t.2
  s.structs.forM fun st => do
    (if st.2.base = [] then pure () else s.checkBase [st.2.name] st.2.base)
    st.2.fields.forM fun field => s.checkType (removeBinExtension field.type)
  s.variants.forM fun v => v.2.types.forM s.checkType
  s.actions.forM fun a => s.checkType a.2
  s.tables.forM fun t => s.checkType t.2

/-- One typedef of `set_abi`. -/
def addTypedef (td : TypeDef) : Except FcException Serializer := do
  let known ← s.isType (maxRecursionDepth - 1) td.newTypeName
  eosAssert (known = false) .duplicateAbiTypeDef "type already exists"
  pure { s with typedefs := assign td.newTypeName td.type s.typedefs }

/-- `abi_serializer::set_abi`. -/
def setAbi (abi : AbiDef) : Except FcException Serializer := do
  eosAssert ("eosio::abi/1.".toList <+: abi.version) .unsupportedAbiVersion
    "ABI has an unsupported version"
  let s ← abi.types.foldlM addTypedef
    { builtInTypes := s.builtInTypes, asBytes := s.asBytes,
      structs := abi.structs.foldl (fun m st => assign st.name st m) [] }
  let s := { s with
    actions := abi.actions.foldl (fun m a => assign a.1.value a.2 m) []
    tables := abi.tables.foldl (fun m t => assign t.1.value t.2 m) []
    errorMessages := abi.errorMessages.foldl (fun m e => assign e.1 e.2 m) []
    variants := abi.variants.foldl (fun m v => assign v.name v m) [] }
  eosAssert (s.typedefs.length = abi.types.length) .duplicateAbiTypeDef
    "duplicate type definition detected"
  eosAssert (s.structs.length = abi.structs.length) .duplicateAbiStructDef
    "duplicate struct definition detected"
  eosAssert (s.actions.length = abi.actions.length) .duplicateAbiActionDef
    "duplicate action definition detected"
  eosAssert (s.tables.length = abi.tables.length) .duplicateAbiTableDef
    "duplicate table definition detected"
  eosAssert (s.errorMessages.length = abi.errorMessages.length) .duplicateAbiErrMsgDef
    "duplicate error message definition detected"
  eosAssert (s.variants.length = abi.variants.length) .duplicateAbiVariantDef
    "duplicate variant definition detected"
  s.validate
  pure s

end Serializer

end Abi
