import EosForce.AbiInputsProofs

/-! # What the ABI serializer writes and reads back

    Writing and reading walk over a type and a value side by side, but they do
    not open the same scopes: for a struct the reader opens two, one for the
    value and one for its fields, where the writer opens one.  A value that
    was written can therefore be too deep to be read. -/

namespace Abi

open ChainTypes List

namespace Serializer

variable {s : Serializer}

/-! ## Reading back, piece by piece -/

/-- The computation throws. -/
def Fails {α : Type} (x : Except FcException α) : Prop :=
  ∃ e, x = .error e

theorem Fails.bind {α β : Type} {x : Except FcException α} {f : α → Except FcException β}
    (h : Fails x) : Fails (x >>= f) := by
  obtain ⟨e, rfl⟩ := h
  exact ⟨e, rfl⟩

/-- A struct value gives a field, and what is passed through is plain. -/
def proper (s : Serializer) : Demand := s.filled.and s.plain

/-- The demand is met by the whole value. -/
def Proper (s : Serializer) (n : Nat) (type : TypeName) (v : Variant) : Prop :=
  s.Throughout s.proper n 0 type v

/-- The value that is read is written in the same way. -/
def ReadsBack (s : Serializer) (n m : Nat) (allow : Bool) (type : TypeName) (v : Variant)
    (b rest : List UInt8) (k : Nat) : Prop :=
  ∃ v' k', s.binaryToVariantAt m type ⟨b ++ rest, k⟩ = .ok (v', ⟨rest, k'⟩) ∧
    s.variantToBinaryAt n allow type v' = .ok b ∧ (v.isNull = false → v'.isNull = false)

/-- The bytes are read back where the value is readable, and nowhere else. -/
def DecidedAt (s : Serializer) (n m : Nat) (allow : Bool) (type : TypeName) (v : Variant)
    (b rest : List UInt8) (k : Nat) : Prop :=
  (s.Readable n m type v → s.ReadsBack n m allow type v b rest k) ∧
  (¬ s.Readable n m type v → Fails (s.binaryToVariantAt m type ⟨b ++ rest, k⟩))

/-- What a writer with `n` scopes writes takes a byte, and is read back where
    it is readable. -/
def Decided (s : Serializer) (n : Nat) : Prop :=
  ∀ (m : Nat) (allow : Bool) (type : TypeName) (v : Variant) (b rest : List UInt8) (k : Nat),
    s.variantToBinaryAt n allow type v = .ok b → b.length < 2 ^ 32 → v.NoNullElement →
    s.Proper n type v → (allow = true → rest = []) →
    1 ≤ b.length ∧ s.DecidedAt n m allow type v b rest k

theorem unpackElements_succ {element : Stream → Except FcException (Variant × Stream)} {size : Nat}
    {stream next : Stream} {v : Variant} (h : element stream = .ok (v, next))
    (hv : v.isNull = false) :
    unpackElements element (size + 1) stream =
      (unpackElements element size { next with elements := next.elements + 1 } >>= fun p =>
        .ok (v :: p.1, p.2)) := by
  rw [unpackElements, h]
  show (eosAssert (v.isNull = false) .unpack _ >>= fun _ => _) = _
  rw [eosAssert, if_pos hv]
  rfl

theorem unpackElements_packed {n m : Nat} (hn : s.Decided n) {ftype : TypeName}
    {rest : List UInt8} (vs : List Variant) : ∀ {packed : List (List UInt8)} {k : Nat},
      vs.mapM (s.variantToBinaryAt n false ftype) = .ok packed →
      packed.flatten.length < 2 ^ 32 → (∀ x ∈ vs, x.isNull = false ∧ x.NoNullElement) →
      (∀ x ∈ vs, s.Proper n ftype x) →
      vs.length ≤ packed.flatten.length ∧
      ((∀ x ∈ vs, s.Readable n m ftype x) → ∃ vs' k', vs'.length = vs.length ∧
        vs'.mapM (s.variantToBinaryAt n false ftype) = .ok packed ∧
        unpackElements (s.binaryToVariantAt m ftype) vs.length ⟨packed.flatten ++ rest, k⟩ =
          .ok (vs', ⟨rest, k'⟩)) ∧
      (¬ (∀ x ∈ vs, s.Readable n m ftype x) →
        Fails (unpackElements (s.binaryToVariantAt m ftype) vs.length
          ⟨packed.flatten ++ rest, k⟩)) := by
  induction vs with
  | nil =>
    intro packed k h _ _ _
    obtain rfl := Except.ok.inj h
    refine ⟨Nat.le_refl 0, fun _ => ⟨[], k, rfl, rfl, rfl⟩, fun hnot => ?_⟩
    exact absurd (forall_mem_nil _) hnot
  | cons x vs ih =>
    intro packed k h hlen hnull hsound
    obtain ⟨p, ps, hp, hps, rfl⟩ := mapM_cons_ok h
    rw [flatten_cons, length_append] at hlen
    rw [forall_mem_cons] at hnull hsound
    obtain ⟨hone, hread, hfail⟩ := hn m false ftype x p (ps.flatten ++ rest) k hp (by omega)
      hnull.1.2 hsound.1 (by simp)
    have hothers : ∀ k, _ := fun k => @ih ps k hps (by omega) hnull.2 hsound.2
    rw [flatten_cons, append_assoc, length_cons, length_append, forall_mem_cons]
    refine ⟨by have := (hothers k).1; omega, ?_, ?_⟩
    · rintro ⟨hx, hvs⟩
      obtain ⟨x', k1, hx', hpx', hnull'⟩ := hread hx
      obtain ⟨vs', k2, hlength, hpvs', hvs'⟩ := (hothers (k1 + 1)).2.1 hvs
      refine ⟨x' :: vs', k2, by rw [length_cons, hlength], ?_, ?_⟩
      · rw [mapM_cons, hpx', hpvs']
        rfl
      · rw [unpackElements_succ hx' (hnull' hnull.1.1), hvs']
        rfl
    · intro hnot
      by_cases hx : s.Readable n m ftype x
      · obtain ⟨x', k1, hx', -, hnull'⟩ := hread hx
        rw [unpackElements_succ hx' (hnull' hnull.1.1)]
        exact Fails.bind ((hothers (k1 + 1)).2.2 fun hall => hnot ⟨hx, hall⟩)
      · exact (hfail hx).bind

/-- The entries of an object that holds the values given for the fields. -/
def entriesOf (ins : List (FieldDef × Option Variant)) : Object :=
  ins.filterMap fun p => p.2.map fun x => (p.1.name, x)

/-- The same field, given or left out in both. -/
def SameInput (p q : FieldDef × Option Variant) : Prop :=
  p.1 = q.1 ∧ p.2.isSome = q.2.isSome

section SameInput

variable {ins ins' : List (FieldDef × Option Variant)} (h : List.Forall₂ SameInput ins ins')

include h

theorem sameInput_fst : ins'.map Prod.fst = ins.map Prod.fst := by
  induction h with
  | nil => rfl
  | cons hpq _ ih => rw [map_cons, map_cons, ih, hpq.1]

theorem sameInput_names : (ins'.map fun p => p.1.name) = ins.map fun p => p.1.name := by
  have hnames := congrArg (map FieldDef.name) (sameInput_fst h)
  rwa [map_map, map_map] at hnames

theorem sameInput_gapFree (hgap : GapFree ins) : GapFree ins' := by
  intro f hf
  induction h with
  | nil => exact absurd hf not_mem_nil
  | @cons p q l l' hpq _ ih =>
    rcases mem_cons.mp hf with rfl | hmem
    · obtain ⟨hfst, hsome⟩ := hpq
      obtain ⟨g, y⟩ := p
      cases y with
      | some _ => cases hsome
      | none =>
        obtain rfl : g = f := hfst
        exact hgap g mem_cons_self
    · exact ih (fun g hg => hgap g (mem_cons_of_mem _ hg)) hmem

theorem sameInput_entries (hsome : ∃ p ∈ ins, p.2.isSome = true) : entriesOf ins' ≠ [] := by
  induction h with
  | nil =>
    obtain ⟨p, hp, -⟩ := hsome
    exact absurd hp not_mem_nil
  | @cons p q l l' hpq _ ih =>
    obtain ⟨g, y⟩ := q
    cases y with
    | some y => exact cons_ne_nil _ _
    | none =>
      obtain ⟨r, hr, hrsome⟩ := hsome
      rcases mem_cons.mp hr with rfl | hmem
      · rw [hpq.2] at hrsome
        cases hrsome
      · exact ih ⟨r, hmem, hrsome⟩

end SameInput

variable {ins : List (FieldDef × Option Variant)}

theorem entriesOf_given {f : FieldDef} {x : Variant} :
    entriesOf ((f, some x) :: ins) = (f.name, x) :: entriesOf ins := rfl

theorem entriesOf_append (ins ins' : List (FieldDef × Option Variant)) :
    entriesOf (ins ++ ins') = entriesOf ins ++ entriesOf ins' :=
  filterMap_append

/-- The entries have the names of the fields, less those left out. -/
theorem entriesOf_names (ins : List (FieldDef × Option Variant)) :
    ((entriesOf ins).map Prod.fst).Sublist (ins.map fun p => p.1.name) := by
  induction ins with
  | nil => exact List.Sublist.slnil
  | cons p ins ih =>
    obtain ⟨f, y⟩ := p
    cases y with
    | none => exact ih.cons f.name
    | some x => exact ih.cons_cons f.name

/-- With distinct names a field finds its own value in the object. -/
theorem entriesOf_lookup (ins : List (FieldDef × Option Variant)) :
    (ins.map fun p => p.1.name).Nodup → ∀ p ∈ ins, (entriesOf ins).lookup p.1.name = p.2 := by
  induction ins with
  | nil => exact fun _ p hp => absurd hp not_mem_nil
  | cons q ins ih =>
    intro hnodup p hp
    obtain ⟨g, y⟩ := q
    rw [map_cons, nodup_cons] at hnodup
    obtain ⟨hfresh, hnodup⟩ := hnodup
    have hnone : (entriesOf ins).lookup g.name = none := by
      rw [lookup_eq_none_iff]
      intro e he
      have hmem := (entriesOf_names ins).subset (mem_map_of_mem he)
      exact bne_iff_ne.mpr fun heq => hfresh (heq ▸ hmem)
    rcases mem_cons.mp hp with rfl | hmem
    · cases y with
      | none => exact hnone
      | some x => rw [entriesOf_given, lookup_cons_self]
    · cases y with
      | none => exact ih hnodup p hmem
      | some x =>
        have hne : p.1.name ≠ g.name := by
          intro heq
          exact hfresh (heq ▸ mem_map_of_mem hmem)
        rw [entriesOf_given, lookup_cons, beq_eq_false_iff_ne.mpr hne]
        exact ih hnodup p hmem

theorem set_fresh {obj : Object} {key : FieldName} (hkey : cStr key = key)
    (hfresh : key ∉ obj.map Prod.fst) (var : Variant) :
    obj.set key var = obj ++ [(key, var)] := by
  rw [Object.set, hkey, if_neg]
  intro hany
  obtain ⟨e, he, heq⟩ := any_eq_true.mp hany
  exact hfresh (beq_iff_eq.mp heq ▸ mem_map_of_mem he)

/-! ## The fields of a struct -/

theorem removeBinExtension_field (type : TypeName) :
    (if isExtension type then removeBinExtension type else type) = removeBinExtension type := by
  by_cases h : isExtension type = true
  · rw [if_pos h]
  · rw [if_neg h, removeBinExtension, if_neg h]

/-- A field is read off what is left of the stream. -/
theorem unpackField_more {m : Nat} {c : Fields} {f : FieldDef} (hmore : c.stream.rest ≠ []) :
    s.unpackField (s.binaryToVariantAt m) c f =
      (s.binaryToVariantAt m (removeBinExtension f.type) c.stream >>= fun p =>
        .ok ⟨c.obj.set f.name p.1, p.2, c.encounteredExtension || isExtension f.type⟩) := by
  rw [unpackField]
  dsimp only
  rw [if_neg hmore, removeBinExtension_field, binaryToVariantAt_resolveType]
  rfl

/-- At the end of the stream the extensions are passed over. -/
theorem unpackFields_end {m : Nat} (fields : List FieldDef) : ∀ {c : Fields}, c.stream.rest = [] →
    ((∀ f ∈ fields, isExtension f.type = true) → ∃ e,
      fields.foldlM (s.unpackField (s.binaryToVariantAt m)) c =
        .ok { c with encounteredExtension := e }) ∧
    (¬ (∀ f ∈ fields, isExtension f.type = true) →
      Fails (fields.foldlM (s.unpackField (s.binaryToVariantAt m)) c)) := by
  induction fields with
  | nil =>
    intro c _
    exact ⟨fun _ => ⟨c.encounteredExtension, rfl⟩, fun hnot => absurd (forall_mem_nil _) hnot⟩
  | cons f fields ih =>
    intro c hend
    rw [foldlM_cons, unpackField, forall_mem_cons]
    dsimp only
    rw [if_pos hend]
    by_cases hf : isExtension f.type = true
    · rw [if_pos hf]
      obtain ⟨hok, hfail⟩ := @ih { c with
        encounteredExtension := c.encounteredExtension || isExtension f.type } hend
      exact ⟨fun hall => hok hall.2, fun hnot => hfail fun hall => hnot ⟨hf, hall⟩⟩
    · rw [if_neg hf]
      refine ⟨fun hall => absurd hall.1 hf, fun _ => Fails.bind ?_⟩
      split
      · exact ⟨_, rfl⟩
      · exact ⟨_, rfl⟩

/-- The fields can be read back: the values that are given can, and those left
    out are extensions. -/
def InputsReadable (s : Serializer) (n m : Nat) (ins : List (FieldDef × Option Variant)) : Prop :=
  GapFree ins ∧ ∀ f x, (f, some x) ∈ ins → s.Readable n m (removeBinExtension f.type) x

theorem inputsReadable_given {n m : Nat} {f : FieldDef} {x : Variant} :
    s.InputsReadable n m ((f, some x) :: ins) ↔
      s.Readable n m (removeBinExtension f.type) x ∧ s.InputsReadable n m ins := by
  constructor
  · rintro ⟨hgap, hread⟩
    exact ⟨hread f x mem_cons_self, fun g hg => hgap g (mem_cons_of_mem _ hg),
      fun g y hg => hread g y (mem_cons_of_mem _ hg)⟩
  · rintro ⟨hx, hgap, hread⟩
    constructor
    · intro g hg
      rcases mem_cons.mp hg with heq | hmem
      · cases (Prod.mk.inj heq).2
      · exact hgap g hmem
    · intro g y hg
      rcases mem_cons.mp hg with heq | hmem
      · obtain ⟨rfl, hy⟩ := Prod.mk.inj heq
        obtain rfl := Option.some.inj hy
        exact hx
      · exact hread g y hmem

theorem sameInput_refl (ins : List (FieldDef × Option Variant)) : List.Forall₂ SameInput ins ins :=
  forall₂_same.mpr fun _ _ => ⟨rfl, rfl⟩

theorem entriesOf_none (h : ∀ p ∈ ins, p.2 = none) : entriesOf ins = [] := by
  rw [entriesOf, filterMap_eq_nil_iff]
  intro p hp
  rw [h p hp]
  rfl

theorem inputsReadable_none {n m : Nat} (h : ∀ p ∈ ins, p.2 = none) :
    s.InputsReadable n m ins ↔ ∀ f ∈ ins.map Prod.fst, isExtension f.type = true := by
  constructor
  · rintro ⟨hgap, -⟩ f hf
    obtain ⟨p, hp, rfl⟩ := mem_map.mp hf
    have hnone := h p hp
    obtain ⟨g, y⟩ := p
    dsimp only at hnone
    subst hnone
    exact hgap g hp
  · intro hall
    refine ⟨fun f hf => hall f (mem_map_of_mem hf), fun f x hf => ?_⟩
    cases h _ hf

/-- What a list of fields was written as is read back, one field after the
    other. -/
theorem unpackFields_packed {n m : Nat} (hn : s.Decided n) {allow : Bool} {b : List UInt8}
    (hp : Packs (s.variantToBinaryAt n) allow ins b) :
    ∀ {rest : List UInt8} {k : Nat} {obj : Object} {e : Bool}, b.length < 2 ^ 32 →
      (∀ f x, (f, some x) ∈ ins → x.NoNullElement ∧ s.Proper n (removeBinExtension f.type) x) →
      (allow = true → rest = []) → (∀ f ∈ ins.map Prod.fst, cStr f.name = f.name) →
      (obj.map Prod.fst ++ ins.map fun p => p.1.name).Nodup →
      (s.InputsReadable n m ins → ∃ ins' k' e', List.Forall₂ SameInput ins ins' ∧
        Packs (s.variantToBinaryAt n) allow ins' b ∧
        (ins.map Prod.fst).foldlM (s.unpackField (s.binaryToVariantAt m)) ⟨obj, ⟨b ++ rest, k⟩, e⟩ =
          .ok ⟨obj ++ entriesOf ins', ⟨rest, k'⟩, e'⟩) ∧
      (¬ s.InputsReadable n m ins → Fails ((ins.map Prod.fst).foldlM
        (s.unpackField (s.binaryToVariantAt m)) ⟨obj, ⟨b ++ rest, k⟩, e⟩)) := by
  induction hp with
  | nil =>
    intro rest k obj e _ _ _ _ _
    constructor
    · intro _
      refine ⟨[], k, e, .nil, .nil, ?_⟩
      show Except.ok _ = _
      rw [entriesOf, filterMap_nil, append_nil]
      rfl
    · intro hnot
      exact absurd ⟨fun f hf => absurd hf not_mem_nil,
        fun f x hf => absurd hf not_mem_nil⟩ hnot
  | @given f x ins packed others hpacked hothers ih =>
    intro rest k obj e hlen hins hallow hkeys hnodup
    rw [length_append] at hlen
    obtain ⟨hxnull, hxsound⟩ := hins f x mem_cons_self
    -- Extensions may be left out inside of the last field only, and then
    -- nothing follows it.
    have hlast : (allow && ins.isEmpty) = true → others ++ rest = [] := by
      intro h
      rw [Bool.and_eq_true, List.isEmpty_iff] at h
      obtain ⟨hyes, rfl⟩ := h
      cases hothers
      exact hallow hyes
    obtain ⟨hone, hread, hfail⟩ := hn m _ _ x packed (others ++ rest) k hpacked (by omega) hxnull
      hxsound hlast
    have hmore : (packed ++ others) ++ rest ≠ [] := by
      rw [append_assoc]
      intro hnil
      rw [(append_eq_nil_iff.mp hnil).1] at hone
      cases hone
    have hfresh : f.name ∉ obj.map Prod.fst := by
      rw [map_cons] at hnodup
      intro hmem
      exact (nodup_append.mp hnodup).2.2 _ hmem _ mem_cons_self rfl
    rw [map_cons, forall_mem_cons] at hkeys
    rw [map_cons, foldlM_cons, unpackField_more hmore, append_assoc]
    have hnext : ∀ (x' : Variant) (k' : Nat), _ := fun x' k' =>
      @ih rest k' (obj ++ [(f.name, x')]) (e || isExtension f.type) (by omega)
        (fun g y hg => hins g y (mem_cons_of_mem _ hg)) hallow hkeys.2 (by
          rw [map_append, map_singleton, append_assoc, singleton_append]
          exact hnodup)
    rw [inputsReadable_given]
    constructor
    · rintro ⟨hx, hothersRead⟩
      obtain ⟨x', k1, hx', hpx', -⟩ := hread hx
      obtain ⟨ins', k2, e', hsame, hpacks, hfold⟩ := (hnext x' k1).1 hothersRead
      refine ⟨(f, some x') :: ins', k2, e', .cons ⟨rfl, rfl⟩ hsame, .given ?_ hpacks, ?_⟩
      · have hempty : ins'.isEmpty = ins.isEmpty := by
          cases hsame <;> rfl
        rw [hempty]
        exact hpx'
      · rw [hx']
        show List.foldlM (s.unpackField (s.binaryToVariantAt m))
          (⟨obj.set f.name x', ⟨others ++ rest, k1⟩, e || isExtension f.type⟩ : Fields) _ = _
        rw [set_fresh hkeys.1 hfresh, hfold, entriesOf_given, append_assoc, singleton_append]
    · intro hnot
      by_cases hx : s.Readable n m (removeBinExtension f.type) x
      · obtain ⟨x', k1, hx', -, -⟩ := hread hx
        rw [hx']
        show Fails (List.foldlM (s.unpackField (s.binaryToVariantAt m))
          (⟨obj.set f.name x', ⟨others ++ rest, k1⟩, e || isExtension f.type⟩ : Fields) _)
        rw [set_fresh hkeys.1 hfresh]
        exact (hnext x' k1).2 fun h => hnot ⟨hx, h⟩
      · exact (hfail hx).bind.bind
  | @omitted f ins hf hyes hnone =>
    intro rest k obj e _ _ hallow _ _
    obtain rfl := hallow hyes
    have hall : ∀ p ∈ (f, none) :: ins, p.2 = none := forall_mem_cons.mpr ⟨rfl, hnone⟩
    obtain ⟨hok, hfail⟩ := @unpackFields_end s m (((f, none) :: ins).map Prod.fst)
      ⟨obj, ⟨[] ++ [], k⟩, e⟩ rfl
    rw [inputsReadable_none hall]
    refine ⟨fun hread => ?_, hfail⟩
    obtain ⟨e', hfold⟩ := hok hread
    refine ⟨(f, none) :: ins, k, e', sameInput_refl _, .omitted hf hyes hnone, ?_⟩
    rw [hfold, entriesOf_none hall, append_nil obj]
    rfl

/-! ## Structs and their bases -/

variable {st : StructDef}

theorem packStruct_ok {allow : Bool}
    {variantToBinary : Bool → TypeName → Variant → Except FcException (List UInt8)} {v : Variant}
    {b : List UInt8} (h : s.packStruct allow variantToBinary st v = .ok b) :
    ∃ base own, b = base ++ own ∧ (st.base = [] → base = []) ∧
      (st.base ≠ [] → (∃ vo, v = .object vo) ∧
        variantToBinary false (s.resolveType st.base) v = .ok base) ∧
      Packs variantToBinary allow (inputs st v) own := by
  cases v with
  | object vo =>
    obtain ⟨base, hbase, h⟩ := except_bind_ok h
    obtain ⟨own, hown, h⟩ := except_bind_ok h
    obtain rfl := Except.ok.inj h
    refine ⟨base, own, rfl, ?_, ?_, ((packObjectFields_iff st.fields).mp hown).1⟩
    · intro hst
      rw [if_pos hst] at hbase
      exact (Except.ok.inj hbase).symm
    · intro hst
      rw [if_neg hst] at hbase
      exact ⟨⟨vo, rfl⟩, hbase⟩
  | array va =>
    rw [packStruct] at h
    by_cases hst : st.base = []
    · rw [if_pos hst] at h
      exact ⟨[], b, rfl, fun _ => rfl, fun hne => absurd hst hne, packArrayFields_packs st.fields h⟩
    · rw [if_neg hst] at h
      cases h
  | _ => cases h

theorem packStruct_object {allow : Bool}
    {variantToBinary : Bool → TypeName → Variant → Except FcException (List UInt8)} {vo : Object}
    {base own : List UInt8} (hnone : st.base = [] → base = []) (hbase : st.base ≠ [] →
      variantToBinary false (s.resolveType st.base) (.object vo) = .ok base)
    (hown : Packs variantToBinary allow (inputs st (.object vo)) own)
    (hgap : GapFree (inputs st (.object vo))) :
    s.packStruct allow variantToBinary st (.object vo) = .ok (base ++ own) := by
  have hfields := (packObjectFields_iff st.fields).mpr ⟨hown, hgap⟩
  rw [packStruct, hfields]
  by_cases hst : st.base = []
  · rw [if_pos hst, hnone hst]
    rfl
  · rw [if_neg hst, hbase hst]
    rfl

theorem variantToBinaryAt_other {n : Nat} {allow : Bool} {type rtype : TypeName} {v : Variant}
    (hk : s.kindOf type = .other rtype) (hst : s.structs.lookup rtype = some st) :
    s.variantToBinaryAt (n + 1) allow type v = s.packStruct allow (s.variantToBinaryAt n) st v := by
  rw [variantToBinaryAt, hk]
  dsimp only
  rw [hst]

variable {type : TypeName}

/-- What is written from an object under the name of a base is a struct. -/
theorem kindOf_base {n : Nat} {allow : Bool} {vo : Object} {b : List UInt8}
    (hbuiltin : ∀ c array optional, s.kindOf type ≠ .builtin c array optional)
    (hoptional : ∀ ftype, s.kindOf type ≠ .optional ftype)
    (h : s.variantToBinaryAt n allow (s.resolveType type) (.object vo) = .ok b) :
    s.kindOf (s.resolveType type) = .other (s.resolveType type) := by
  cases n with
  | zero => cases h
  | succ n =>
    rw [variantToBinaryAt, kindOf_resolveType] at h
    rw [kindOf_resolveType]
    cases hk : s.kindOf type with
    | builtin c array optional => exact absurd hk (hbuiltin c array optional)
    | optional ftype => exact absurd hk (hoptional ftype)
    | array ftype =>
      rw [hk] at h
      cases h
    | variant d =>
      rw [hk] at h
      cases h
    | other rtype => rw [kindOf_other hk]

theorem inputs_agree {vo : Object} (hfst : ins.map Prod.fst = st.fields)
    (hkeys : ∀ f ∈ st.fields, cStr f.name = f.name) (hvo : ∀ p ∈ ins, vo.lookup p.1.name = p.2) :
    inputs st (.object vo) = ins := by
  rw [inputs, ← hfst, map_map]
  have hmap : ins.map ((fun f => (f, vo.lookup (cStr f.name))) ∘ Prod.fst) = ins.map id :=
    map_congr_left fun p hp => by
      show (p.1, vo.lookup (cStr p.1.name)) = p
      rw [hkeys p.1 (hfst ▸ mem_map_of_mem hp), hvo p hp]
  rw [hmap, map_id]

/-- What the fields of a struct were written as is read back where they are
    readable, and nowhere else. -/
def FieldsDecided (s : Serializer) (n : Nat) : Prop :=
  ∀ (m : Nat) (allow : Bool) (type : TypeName) (v : Variant) (b rest : List UInt8) (k : Nat)
    (obj : Object), s.kindOf type = .other type →
    s.variantToBinaryAt n allow type v = .ok b → b.length < 2 ^ 32 → v.NoNullElement →
    s.ThroughoutFields s.proper n 0 type v → (allow = true → rest = []) →
    (obj.map Prod.fst ++ (s.allInputs n type v).map fun p => p.1.name).Nodup →
    (s.ThroughoutFields readable n m type v → ∃ ins k',
      List.Forall₂ SameInput (s.allInputs n type v) ins ∧
      (∀ vo : Object, (∀ p ∈ ins, vo.lookup p.1.name = p.2) →
        s.variantToBinaryAt n allow type (.object vo) = .ok b) ∧
      s.binaryToObjectAt m type ⟨b ++ rest, k⟩ obj = .ok (obj ++ entriesOf ins, ⟨rest, k'⟩)) ∧
    (¬ s.ThroughoutFields readable n m type v →
      Fails (s.binaryToObjectAt m type ⟨b ++ rest, k⟩ obj))

/-- The base of a struct, if it has one, is read back. -/
theorem base_decided {n m : Nat} (ho : s.FieldsDecided n)
    (hplain : s.plain.struct st) {v : Variant} {base rest : List UInt8} {k : Nat}
    {obj : Object} (hnone : st.base = [] → base = [])
    (hbase : st.base ≠ [] → (∃ vo, v = .object vo) ∧
      s.variantToBinaryAt n false (s.resolveType st.base) v = .ok base)
    (hlen : base.length < 2 ^ 32) (hv : v.NoNullElement)
    (hsound : st.base ≠ [] → s.ThroughoutFields s.proper n 0 (s.resolveType st.base) v)
    (hnodup : (obj.map Prod.fst ++ (if st.base = [] then []
      else s.allInputs n (s.resolveType st.base) v).map fun p => p.1.name).Nodup) :
    ((st.base ≠ [] → s.ThroughoutFields readable n m (s.resolveType st.base) v) → ∃ ins k',
      List.Forall₂ SameInput (if st.base = [] then []
        else s.allInputs n (s.resolveType st.base) v) ins ∧
      (∀ vo : Object, (∀ p ∈ ins, vo.lookup p.1.name = p.2) → st.base ≠ [] →
        s.variantToBinaryAt n false (s.resolveType st.base) (.object vo) = .ok base) ∧
      (if st.base = [] then pure (obj, ⟨base ++ rest, k⟩)
        else s.binaryToObjectAt m (s.resolveType st.base) ⟨base ++ rest, k⟩ obj) =
          .ok (obj ++ entriesOf ins, ⟨rest, k'⟩)) ∧
    (¬ (st.base ≠ [] → s.ThroughoutFields readable n m (s.resolveType st.base) v) →
      Fails (if st.base = [] then pure (obj, ⟨base ++ rest, k⟩)
        else s.binaryToObjectAt m (s.resolveType st.base) ⟨base ++ rest, k⟩ obj)) := by
  by_cases hempty : st.base = []
  · rw [if_pos hempty, if_pos hempty, hnone hempty]
    refine ⟨fun _ => ⟨[], k, .nil, fun _ _ hne => absurd hempty hne, ?_⟩, fun hnot => ?_⟩
    · rw [entriesOf, filterMap_nil, append_nil]
      rfl
    · exact absurd (fun hne => absurd hempty hne) hnot
  · rw [if_neg hempty] at hnodup
    rw [if_neg hempty, if_neg hempty]
    obtain ⟨⟨vo, rfl⟩, hpacked⟩ := hbase hempty
    obtain ⟨hbuiltin, hoptional⟩ := hplain.1 hempty
    obtain ⟨hread, hfail⟩ := ho m false (s.resolveType st.base) (.object vo) base rest k obj
      (kindOf_base hbuiltin hoptional hpacked) hpacked hlen hv (hsound hempty)
      (fun hfalse => absurd hfalse Bool.false_ne_true) hnodup
    refine ⟨fun h => ?_, fun hnot => hfail fun h => hnot fun _ => h⟩
    obtain ⟨ins, k', hsame, hback, hok⟩ := hread (h hempty)
    exact ⟨ins, k', hsame, fun vo' hvo' _ => hback vo' hvo', hok⟩

theorem readable_fields {n m : Nat} {v : Variant} (hst : s.structs.lookup type = some st) :
    s.ThroughoutFields readable (n + 1) (m + 1) type v ↔
      (st.base ≠ [] → s.ThroughoutFields readable n m (s.resolveType st.base) v) ∧
        s.InputsReadable n m (inputs st v) := by
  rw [throughoutFields_struct hst]
  exact ⟨fun h => h.2.2, fun h => ⟨Nat.succ_ne_zero m, trivial, h⟩⟩

theorem binaryToObjectAt_struct {m : Nat} (hst : s.structs.lookup type = some st) (stream : Stream)
    (obj : Object) :
    s.binaryToObjectAt (m + 1) type stream obj =
      ((if st.base = [] then pure (obj, stream)
        else s.binaryToObjectAt m (s.resolveType st.base) stream obj) >>= fun p =>
        st.fields.foldlM (s.unpackField (s.binaryToVariantAt m)) ⟨p.1, p.2, false⟩ >>= fun c =>
          .ok (c.obj, c.stream)) := by
  rw [binaryToObjectAt, hst]
  rfl

theorem fieldsDecided_succ {n : Nat} (hn : s.Decided n)
    (ho : s.FieldsDecided n) : s.FieldsDecided (n + 1) := by
  intro m allow type v b rest k obj hk h hlen hv hsound hallow hnodup
  cases hst : s.structs.lookup type with
  | none =>
    rw [variantToBinaryAt, hk] at h
    dsimp only at h
    rw [hst] at h
    cases h
  | some st =>
    rw [variantToBinaryAt_other hk hst] at h
    obtain ⟨base, own, rfl, hnone, hbase, hown⟩ := packStruct_ok h
    rw [length_append] at hlen
    have hall : s.allInputs (n + 1) type v = (if st.base = [] then []
        else s.allInputs n (s.resolveType st.base) v) ++ inputs st v := by
      rw [allInputs, hst]
    rw [hall, map_append, ← append_assoc] at hnodup
    rw [throughoutFields_struct hst] at hsound
    obtain ⟨-, ⟨-, hplain⟩, hfbase, -, hfown⟩ := hsound
    cases m with
    | zero =>
      rw [throughoutFields_struct hst]
      exact ⟨fun h => absurd rfl h.1, fun _ => ⟨tooDeep, rfl⟩⟩
    | succ m =>
      obtain ⟨hbread, hbfail⟩ := @base_decided s st n m ho hplain v base (own ++ rest) k
        obj hnone hbase (by omega) hv hfbase (nodup_append.mp hnodup).1
      rw [readable_fields hst, binaryToObjectAt_struct hst, append_assoc, hall]
      by_cases hb : st.base ≠ [] → s.ThroughoutFields readable n m (s.resolveType st.base) v
      · obtain ⟨ins1, k1, hsame1, hback1, hok1⟩ := hbread hb
        have hnames : ((obj ++ entriesOf ins1).map Prod.fst ++
            (inputs st v).map fun p => p.1.name).Nodup := by
          refine hnodup.sublist (List.Sublist.append_right ?_ _)
          rw [map_append]
          refine List.Sublist.append_left ?_ _
          rw [← sameInput_names hsame1]
          exact entriesOf_names ins1
        obtain ⟨hread, hfail⟩ := @unpackFields_packed s (inputs st v) n m hn allow own hown rest
          k1 (obj ++ entriesOf ins1) false (by omega)
          (fun f x hf => ⟨inputs_noNullElement hv hf, hfown f x hf⟩) hallow
          (by rw [inputs_fst]; exact hplain.2) hnames
        rw [inputs_fst] at hread hfail
        rw [hok1]
        constructor
        · rintro ⟨-, hins⟩
          obtain ⟨ins2, k2, e, hsame2, hpacks2, hok2⟩ := hread hins
          refine ⟨ins1 ++ ins2, k2, rel_append hsame1 hsame2, ?_, ?_⟩
          · intro vo hvo
            have hinputs : inputs st (.object vo) = ins2 :=
              inputs_agree ((sameInput_fst hsame2).trans (inputs_fst st v)) hplain.2
                fun p hp => hvo p (mem_append_right ins1 hp)
            rw [variantToBinaryAt_other hk hst]
            refine packStruct_object hnone
              (hback1 vo fun p hp => hvo p (mem_append_left ins2 hp)) ?_ ?_
            · rw [hinputs]
              exact hpacks2
            · rw [hinputs]
              exact sameInput_gapFree hsame2 hins.1
          · show (st.fields.foldlM (s.unpackField (s.binaryToVariantAt m))
              (⟨obj ++ entriesOf ins1, ⟨own ++ rest, k1⟩, false⟩ : Fields) >>= fun c =>
                .ok (c.obj, c.stream)) = _
            rw [hok2, entriesOf_append, append_assoc]
            rfl
        · intro hnot
          exact (hfail fun h => hnot ⟨hb, h⟩).bind
      · exact ⟨fun h => absurd h.1 hb, fun _ => (hbfail hb).bind⟩

/-! ## One scope further out -/

section Step

variable {n m : Nat} {allow : Bool} {type : TypeName} {v : Variant} {b rest : List UInt8} {k : Nat}

theorem read_packUnsignedInt {value : Nat} (h : value < 2 ^ 32) :
    Stream.read unpackUnsignedInt ⟨packUnsignedInt value ++ rest, k⟩ = some (value, ⟨rest, k⟩) := by
  rw [Stream.read, unpackUnsignedInt_packUnsignedInt h]
  rfl

theorem getArray_ok {vs : List Variant} (h : v.getArray = .ok vs) : v = .array vs := by
  cases v with
  | array ws => rw [Except.ok.inj h]
  | _ => cases h

theorem variantInput_ok {t : TypeName} {x : Variant} (h : variantInput v = .ok (t, x)) :
    v = .array [.string t, x] := by
  rw [variantInput.eq_def] at h
  split at h
  · split at h
    · obtain ⟨rfl, rfl⟩ := Prod.mk.inj (Except.ok.inj h)
      rfl
    · cases h
  · cases h

/-- A field that is given takes a byte. -/
theorem packs_takesByte (hn : s.Decided n) (hp : Packs (s.variantToBinaryAt n) allow ins b)
    (hlen : b.length < 2 ^ 32) (hins : ∀ f x, (f, some x) ∈ ins →
      x.NoNullElement ∧ s.Proper n (removeBinExtension f.type) x)
    (hsome : ∃ p ∈ ins, p.2.isSome = true) : 1 ≤ b.length := by
  obtain ⟨p, hmem, hp'⟩ := hsome
  cases hp with
  | nil => exact absurd hmem not_mem_nil
  | @given f x ins packed others hpacked hothers =>
    rw [length_append] at hlen ⊢
    obtain ⟨hx, hsound⟩ := hins f x mem_cons_self
    have hone := (hn 0 _ _ x packed [] 0 hpacked (by omega) hx hsound fun _ => rfl).1
    omega
  | omitted _ _ hnone =>
    rcases mem_cons.mp hmem with rfl | hmem
    · cases hp'
    · rw [hnone p hmem] at hp'
      cases hp'

/-- A struct with a field that is given takes a byte. -/
def FieldsTake (s : Serializer) (n : Nat) : Prop :=
  ∀ (allow : Bool) (type : TypeName) (v : Variant) (b : List UInt8),
    s.kindOf type = .other type → s.variantToBinaryAt n allow type v = .ok b →
    b.length < 2 ^ 32 → v.NoNullElement → s.ThroughoutFields s.proper n 0 type v →
    (∃ p ∈ s.allInputs n type v, p.2.isSome = true) → 1 ≤ b.length

theorem fieldsTake_succ (hn : s.Decided n) (ho : s.FieldsTake n) :
    s.FieldsTake (n + 1) := by
  intro allow type v b hk h hlen hv hsound hsome
  cases hst : s.structs.lookup type with
  | none =>
    rw [allInputs, hst] at hsome
    obtain ⟨p, hp, -⟩ := hsome
    exact absurd hp not_mem_nil
  | some st =>
    rw [variantToBinaryAt_other hk hst] at h
    obtain ⟨base, own, rfl, hnone, hbase, hown⟩ := packStruct_ok h
    rw [length_append] at hlen ⊢
    rw [throughoutFields_struct hst] at hsound
    obtain ⟨-, ⟨-, hplain⟩, hfbase, -, hfown⟩ := hsound
    rw [allInputs, hst] at hsome
    obtain ⟨p, hp, hp'⟩ := hsome
    rcases mem_append.mp hp with hmem | hmem
    · by_cases hempty : st.base = []
      · rw [if_pos hempty] at hmem
        exact absurd hmem not_mem_nil
      · rw [if_neg hempty] at hmem
        obtain ⟨⟨vo, rfl⟩, hpacked⟩ := hbase hempty
        obtain ⟨hbuiltin, hoptional⟩ := hplain.1 hempty
        have hone := ho false (s.resolveType st.base) (.object vo) base
          (kindOf_base hbuiltin hoptional hpacked) hpacked (by omega) hv (hfbase hempty)
          ⟨p, hmem, hp'⟩
        omega
    · have hone := packs_takesByte hn hown (by omega)
        (fun f x hf => ⟨inputs_noNullElement hv hf, hfown f x hf⟩) ⟨p, hmem, hp'⟩
      omega

/-- Without a scope nothing is read. -/
theorem decidedAt_zero : s.DecidedAt (n + 1) 0 allow type v b rest k := by
  refine ⟨fun h => ?_, fun _ => ⟨tooDeep, rfl⟩⟩
  rw [Readable, Throughout] at h
  exact absurd rfl h.1

variable (h : s.variantToBinaryAt (n + 1) allow type v = .ok b) (hlen : b.length < 2 ^ 32)
  (hv : v.NoNullElement) (hsound : s.Proper (n + 1) type v) (hallow : allow = true → rest = [])

include h hlen

theorem decided_builtin {c : Builtin} {array optional : Bool} (hc : c.Inverse)
    (hk : s.kindOf type = .builtin c array optional) :
    1 ≤ b.length ∧ s.DecidedAt (n + 1) (m + 1) allow type v b rest k := by
  rw [variantToBinaryAt, hk] at h
  obtain ⟨hone, v', hnull, hpack, hunpack⟩ := packFunction_reads hc h hlen
  obtain ⟨k', hread⟩ := hunpack rest k
  refine ⟨hone, fun _ => ⟨v', k', ?_, ?_, hnull⟩, fun hnot => ?_⟩
  · rw [binaryToVariantAt, hk]
    dsimp only
    rw [hread]
    rfl
  · rw [variantToBinaryAt, hk]
    exact hpack
  · exact absurd ((throughout_builtin hk).mpr (Nat.succ_ne_zero m)) hnot

include hv hsound

theorem decided_array (hn : s.Decided n) {ftype : TypeName} (hk : s.kindOf type = .array ftype) :
    1 ≤ b.length ∧ s.DecidedAt (n + 1) (m + 1) allow type v b rest k := by
  rw [variantToBinaryAt, hk] at h
  obtain ⟨vs, hvs, h⟩ := except_bind_ok h
  obtain ⟨packed, hpacked, h⟩ := except_bind_ok h
  obtain rfl := Except.ok.inj h
  obtain rfl := getArray_ok hvs
  rw [length_append] at hlen
  have hsize := packUnsignedInt_length vs.length
  obtain ⟨hcount, hread, hfail⟩ := @unpackElements_packed s n m hn ftype rest vs packed k hpacked
    (by omega) hv.elements ((throughout_array hk).mp hsound).2
  have hstart : s.binaryToVariantAt (m + 1) type
      ⟨packUnsignedInt vs.length ++ packed.flatten ++ rest, k⟩ =
        (unpackElements (s.binaryToVariantAt m ftype) vs.length ⟨packed.flatten ++ rest, k⟩ >>=
          fun p => .ok (.array p.1, p.2)) := by
    rw [binaryToVariantAt, hk]
    dsimp only
    rw [append_assoc, read_packUnsignedInt (by omega)]
    rfl
  have hiff : s.Readable (n + 1) (m + 1) type (.array vs) ↔ ∀ x ∈ vs, s.Readable n m ftype x := by
    rw [Readable, throughout_array hk]
    exact and_iff_right (Nat.succ_ne_zero m)
  refine ⟨by rw [length_append]; omega, ?_, ?_⟩
  · rw [hiff]
    intro hall
    obtain ⟨vs', k', hlength, hback, hok⟩ := hread hall
    refine ⟨.array vs', k', ?_, ?_, fun _ => rfl⟩
    · rw [hstart, hok]
      rfl
    · rw [variantToBinaryAt, hk]
      show (vs'.mapM (s.variantToBinaryAt n false ftype) >>= fun packed =>
        .ok (packUnsignedInt vs'.length ++ packed.flatten)) = _
      rw [hback, hlength]
      rfl
  · rw [hiff, hstart]
    intro hnot
    exact (hfail hnot).bind

include hallow

theorem decided_optional (hn : s.Decided n) {ftype : TypeName}
    (hk : s.kindOf type = .optional ftype) :
    1 ≤ b.length ∧ s.DecidedAt (n + 1) (m + 1) allow type v b rest k := by
  rw [variantToBinaryAt, hk] at h
  dsimp only at h
  have hiff : s.Readable (n + 1) (m + 1) type v ↔ (v.isNull = false → s.Readable n m ftype v) := by
    rw [Readable, throughout_optional hk]
    exact and_iff_right (Nat.succ_ne_zero m)
  rw [DecidedAt, hiff]
  cases hnull : v.isNull with
  | true =>
    rw [hnull, if_pos rfl] at h
    obtain rfl := Except.ok.inj h
    refine ⟨Nat.le_refl 1, fun _ => ⟨.null, k, ?_, ?_, ?_⟩, fun hnot => ?_⟩
    · rw [binaryToVariantAt, hk]
      rfl
    · rw [variantToBinaryAt, hk]
      rfl
    · intro hfull
      exact absurd (hfull.symm.trans hnull) Bool.false_ne_true
    · exact absurd (fun hfalse => absurd hfalse.symm Bool.false_ne_true) hnot
  | false =>
    rw [hnull, if_neg Bool.false_ne_true] at h
    obtain ⟨packed, hpacked, h⟩ := except_bind_ok h
    obtain rfl := Except.ok.inj h
    rw [length_cons] at hlen
    obtain ⟨-, hread, hfail⟩ := hn m allow ftype v packed rest k hpacked (by omega) hv
      (((throughout_optional hk).mp hsound).2 hnull) hallow
    have hstart : s.binaryToVariantAt (m + 1) type ⟨1 :: packed ++ rest, k⟩ =
        s.binaryToVariantAt m ftype ⟨packed ++ rest, k⟩ := by
      rw [binaryToVariantAt, hk]
      rfl
    rw [hstart]
    refine ⟨by simp, fun hall => ?_, fun hnot => hfail fun h => hnot fun _ => h⟩
    obtain ⟨v', k', hok, hback, hnull'⟩ := hread (hall rfl)
    refine ⟨v', k', hstart.trans hok, ?_, hnull'⟩
    rw [variantToBinaryAt, hk]
    dsimp only
    rw [hnull' hnull, if_neg Bool.false_ne_true, hback]
    rfl

theorem decided_variant (hn : s.Decided n) {d : VariantDef} (hk : s.kindOf type = .variant d) :
    1 ≤ b.length ∧ s.DecidedAt (n + 1) (m + 1) allow type v b rest k := by
  rw [variantToBinaryAt, hk] at h
  obtain ⟨⟨t, x⟩, htx, h⟩ := except_bind_ok h
  obtain ⟨i, hi, h⟩ := except_bind_ok h
  obtain ⟨packed, hpacked, h⟩ := except_bind_ok h
  obtain rfl := Except.ok.inj h
  obtain rfl := variantInput_ok htx
  have hfind := orRethrow_ok hi
  obtain ⟨hlt, ht, -⟩ := List.findIdx?_eq_some_iff_getElem.mp hfind
  have hget : d.types[i]? = some t := by
    rw [List.getElem?_eq_getElem hlt]
    exact congrArg some (of_decide_eq_true ht)
  obtain ⟨-, ⟨-, htags⟩, hinner⟩ := (throughout_variant hk).mp hsound
  change d.types.length ≤ 2 ^ 32 at htags
  rw [length_append] at hlen
  have htag := packUnsignedInt_length i
  obtain ⟨-, hread, hfail⟩ := hn m allow t x packed rest k hpacked (by omega)
    (hv.elements x (by simp)).2 (hinner t x rfl) hallow
  have hstart : s.binaryToVariantAt (m + 1) type ⟨packUnsignedInt i ++ packed ++ rest, k⟩ =
      (s.binaryToVariantAt m t ⟨packed ++ rest, k⟩ >>= fun p =>
        .ok (.array [.string t, p.1], p.2)) := by
    rw [binaryToVariantAt, hk]
    dsimp only
    rw [append_assoc, read_packUnsignedInt (by omega)]
    show (orRethrow d.types[i]? .unpack _ >>= fun t => _) = _
    rw [hget]
    rfl
  have hiff : s.Readable (n + 1) (m + 1) type (.array [.string t, x]) ↔ s.Readable n m t x := by
    rw [Readable, throughout_variant hk]
    refine ⟨fun h => h.2.2 t x rfl, fun h => ⟨Nat.succ_ne_zero m, trivial, fun t' x' heq => ?_⟩⟩
    cases heq
    exact h
  refine ⟨by rw [length_append]; omega, ?_, ?_⟩
  · rw [hiff]
    intro hx
    obtain ⟨x', k', hok, hback, -⟩ := hread hx
    refine ⟨.array [.string t, x'], k', ?_, ?_, fun _ => rfl⟩
    · rw [hstart, hok]
      rfl
    · rw [variantToBinaryAt, hk]
      show (orRethrow (d.types.findIdx? (· = t)) .pack _ >>= fun i =>
        s.variantToBinaryAt n allow t x' >>= fun packed => .ok (packUnsignedInt i ++ packed)) = _
      rw [hfind, hback]
      rfl
  · rw [hiff, hstart]
    intro hnot
    exact (hfail hnot).bind

theorem decided_other (hfields : s.FieldsDecided (n + 1))
    (htake : s.FieldsTake (n + 1)) {rtype : TypeName} (hk : s.kindOf type = .other rtype) :
    1 ≤ b.length ∧ s.DecidedAt (n + 1) (m + 1) allow type v b rest k := by
  obtain rfl := kindOf_other hk
  have hk' : s.kindOf (s.resolveType type) = .other (s.resolveType type) := by
    rw [kindOf_resolveType]
    exact hk
  have hwrite : ∀ w, s.variantToBinaryAt (n + 1) allow (s.resolveType type) w =
      s.variantToBinaryAt (n + 1) allow type w := by
    intro w
    rw [variantToBinaryAt, variantToBinaryAt, kindOf_resolveType]
  obtain ⟨-, ⟨hsome, hnames⟩, hfsound⟩ := (throughout_other hk).mp hsound
  rw [← hwrite] at h
  have hnodup : (([] : Object).map Prod.fst ++
      (s.allInputs (n + 1) (s.resolveType type) v).map fun p => p.1.name).Nodup := by
    change ((s.allFields (n + 1) (s.resolveType type)).map FieldDef.name).Nodup at hnames
    rw [← allInputs_fst (n + 1) (s.resolveType type) v, map_map] at hnames
    exact hnames
  obtain ⟨hread, hfail⟩ := hfields m allow (s.resolveType type) v b rest k [] hk' h hlen hv
    hfsound hallow hnodup
  have hstart : s.binaryToVariantAt (m + 1) type ⟨b ++ rest, k⟩ =
      (s.binaryToObjectAt m (s.resolveType type) ⟨b ++ rest, k⟩ [] >>= fun p =>
        eosAssert (p.1 ≠ []) .unpack "Unable to unpack '$\x7bp\x7d' from stream" >>= fun _ =>
          .ok (.object p.1, p.2)) := by
    rw [binaryToVariantAt, hk]
    rfl
  have hiff : s.Readable (n + 1) (m + 1) type v ↔
      s.ThroughoutFields readable (n + 1) m (s.resolveType type) v := by
    rw [Readable, throughout_other hk]
    exact ⟨fun h => h.2.2, fun h => ⟨Nat.succ_ne_zero m, trivial, h⟩⟩
  refine ⟨htake allow _ v b hk' h hlen hv hfsound hsome, ?_, ?_⟩
  · rw [hiff]
    intro hall
    obtain ⟨ins, k', hsame, hback, hok⟩ := hread hall
    rw [nil_append] at hok
    have hne := sameInput_entries hsame hsome
    refine ⟨.object (entriesOf ins), k', ?_, ?_, fun _ => rfl⟩
    · rw [hstart, hok]
      show (eosAssert (entriesOf ins ≠ []) .unpack _ >>= fun _ => _) = _
      rw [eosAssert, if_pos hne]
      rfl
    · rw [← hwrite]
      refine hback _ (entriesOf_lookup ins ?_)
      rw [sameInput_names hsame]
      exact hnodup
  · rw [hiff, hstart]
    intro hnot
    exact (hfail hnot).bind

end Step

/-- With any number of scopes, what is written is read back exactly where it
    is readable. -/
theorem all_decided (hbuiltin : ∀ b, s.IsBuiltin b → b.Inverse) (n : Nat) :
    s.Decided n ∧ s.FieldsDecided n ∧ s.FieldsTake n := by
  induction n with
  | zero =>
    refine ⟨?_, ?_, ?_⟩
    · intro m allow type v b rest k h
      cases h
    · intro m allow type v b rest k obj hk h
      cases h
    · intro allow type v b hk h
      cases h
  | succ n ih =>
    obtain ⟨hn, ho, ht⟩ := ih
    have hfields := fieldsDecided_succ hn ho
    have htake := fieldsTake_succ hn ht
    refine ⟨?_, hfields, htake⟩
    intro m allow type v b rest k h hlen hv hsound hallow
    have hstep : ∀ m, 1 ≤ b.length ∧ s.DecidedAt (n + 1) (m + 1) allow type v b rest k := by
      intro m
      cases hk : s.kindOf type with
      | builtin c array optional =>
        exact decided_builtin h hlen (hbuiltin c (kindOf_builtin hk)) hk
      | array ftype => exact decided_array h hlen hv hsound hn hk
      | optional ftype => exact decided_optional h hlen hv hsound hallow hn hk
      | variant d => exact decided_variant h hlen hv hsound hallow hn hk
      | other rtype => exact decided_other h hlen hv hsound hallow hfields htake hk
    cases m with
    | zero => exact ⟨(hstep 0).1, decidedAt_zero⟩
    | succ m => exact hstep m

theorem uint8Type_inverse : uint8Type.Inverse := by
  intro v packed h
  cases v with
  | uint64 value =>
    obtain rfl := Except.ok.inj h
    refine ⟨Nat.le_refl 1, .uint64 (value % 256), rfl, ?_, ?_⟩
    · show Except.ok [UInt8.ofNat (value % 256)] = _
      congr 2
      apply UInt8.toNat.inj
      rw [UInt8.toNat_ofNat', UInt8.toNat_ofNat']
      omega
    · intro rest
      show some (Variant.uint64 (UInt8.ofNat value).toNat, rest) = _
      rw [UInt8.toNat_ofNat']
  | _ => cases h

/-- A struct with a field for the next of its kind. -/
def node : StructDef where
  name := "node".toList
  base := []
  fields := [⟨"value".toList, "uint8".toList⟩, ⟨"next".toList, "node?".toList⟩]

/-- The ABI of the struct. -/
def listAbi : AbiDef where
  version := "eosio::abi/1.1".toList
  structs := [node]

/-- The serializer once `set_abi` accepted the ABI. -/
def listSerializer : Serializer := { bare with structs := [(node.name, node)] }

/-- A list of nodes. -/
def chain : Nat → Variant
  | 0 => .object [("value".toList, .uint64 0), ("next".toList, .null)]
  | n + 1 => .object [("value".toList, .uint64 7), ("next".toList, chain n)]

theorem listSerializer_inverse {b : Builtin} (hb : listSerializer.IsBuiltin b) : b.Inverse := by
  obtain ⟨type, h⟩ := hb
  obtain rfl : b = uint8Type := by
    have hmem := mem_of_lookup h
    simp only [listSerializer, bare, mem_singleton, Prod.mk.injEq] at hmem
    exact hmem.2
  exact uint8Type_inverse

theorem chain_noNullElement (j : Nat) : (chain j).NoNullElement := by
  have hscalar : ∀ value, (Variant.uint64 value).NoNullElement := by
    intro value
    exact .scalar (by simp) (by simp)
  induction j with
  | zero => exact .object (by simpa using ⟨hscalar 0, .scalar (by simp) (by simp)⟩)
  | succ j ih => exact .object (by simpa using ⟨hscalar 7, ih⟩)

/-- What a demand asks of nodes it asks of a list of them. -/
theorem chain_throughout {q : Demand} (hscope : ∀ m, q.scope m) (hstruct : q.struct node)
    (hobject : ∀ n value next, q.object (n + 1) node.name
      (.object [("value".toList, .uint64 value), ("next".toList, next)])) (j : Nat) :
    ∀ n m, listSerializer.Throughout q n m node.name (chain j) := by
  have hk : listSerializer.kindOf node.name = .other node.name := rfl
  have hst : listSerializer.structs.lookup node.name = some node := rfl
  have hnext : listSerializer.kindOf "node?".toList = .optional node.name := rfl
  have hnode : ∀ value next, (next.isNull = false → ∀ n m,
      listSerializer.Throughout q n m node.name next) → ∀ n m,
      listSerializer.Throughout q n m node.name
        (.object [("value".toList, .uint64 value), ("next".toList, next)]) := by
    intro value next h n m
    have hinputs : inputs node (.object [("value".toList, .uint64 value), ("next".toList, next)]) =
        [(⟨"value".toList, "uint8".toList⟩, some (.uint64 value)),
          (⟨"next".toList, "node?".toList⟩, some next)] := rfl
    cases n with
    | zero => exact trivial
    | succ n =>
      refine (throughout_other hk).mpr ⟨hscope m, hobject n value next,
        (throughoutFields_struct hst).mpr ⟨hscope _, hstruct, fun hne => absurd rfl hne, ?_, ?_⟩⟩
      · intro f hf
        rw [hinputs] at hf
        simp at hf
      · intro f x hf
        rw [hinputs] at hf
        cases n with
        | zero => exact trivial
        | succ n =>
          rcases mem_cons.mp hf with heq | hmem
          · cases heq
            exact (throughout_builtin rfl).mpr (hscope _)
          · cases mem_singleton.mp hmem
            exact (throughout_optional hnext).mpr ⟨hscope _, fun hx => h hx n _⟩
  induction j with
  | zero => exact hnode 0 .null fun hnull => absurd hnull.symm Bool.false_ne_true
  | succ j ih => exact hnode 7 (chain j) fun _ => ih

theorem chain_filled (j n : Nat) : listSerializer.Filled n node.name (chain j) := by
  refine @chain_throughout listSerializer.filled (fun _ => trivial) trivial ?_ j n 0
  intro n value next
  exact ⟨(⟨"value".toList, "uint8".toList⟩, some (.uint64 value)), mem_cons_self, rfl⟩

theorem chain_plain (j n : Nat) : listSerializer.Plain n node.name (chain j) := by
  refine @chain_throughout listSerializer.plain (fun _ => trivial)
    ⟨fun hne => absurd rfl hne, by decide⟩ ?_ j n 0
  intro n value next
  show (node.fields.map FieldDef.name).Nodup
  decide

end Serializer

end Abi
