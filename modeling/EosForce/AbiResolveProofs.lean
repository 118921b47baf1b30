import EosForce.AbiBytesProofs

/-! # What an accepted ABI refers to

    The loop of `resolve_type` is bounded by the number of typedefs, and on a
    cycle it would stop anywhere.  The loops of `validate` go over the typedefs
    and over the bases of every struct and keep the names they have seen, so an
    ABI that is accepted has no cycle of either kind. -/

namespace Abi

open ChainTypes Relation

namespace Serializer

variable (s : Serializer)

/-- A typedef. -/
def Typedef (type target : TypeName) : Prop := s.typedefs.lookup type = some target

/-- The structs that are met from a base on, one the base of the other. -/
def Bases : TypeName → List StructDef → Prop
  | base, [] => base = []
  | base, st :: rest =>
    base ≠ [] ∧ s.structs.lookup (s.resolveType base) = some st ∧ Bases st.base rest

variable {s} {t t' : TypeName} {seen : List TypeName}

theorem followTypedefs_spec (n : Nat) : ∀ {t}, s.followTypedefs n t = some t' →
    ReflTransGen s.Typedef t t' ∧ s.typedefs.lookup t' = none := by
  induction n with
  | zero => exact fun h => nomatch h
  | succ n ih =>
    intro t h
    rw [followTypedefs] at h
    cases hlookup : s.typedefs.lookup t with
    | none =>
      rw [hlookup] at h
      cases h
      exact ⟨.refl, hlookup⟩
    | some u =>
      rw [hlookup] at h
      exact ⟨.head hlookup (ih h).1, (ih h).2⟩

theorem checkTypedef_some (h : s.checkTypedef seen t = .ok ()) {u : TypeName}
    (hu : s.typedefs.lookup t = some u) : u ∉ seen ∧ s.checkTypedef (seen ++ [u]) u = .ok () := by
  rw [checkTypedef] at h
  split at h
  · next hnone => cases hnone.symm.trans hu
  · next v hv =>
    obtain rfl := Option.some.inj (hv.symm.trans hu)
    split at h
    · cases h
    · next hv' => exact ⟨hv', h⟩

theorem mem_keys {u : TypeName} (hu : s.typedefs.lookup t = some u) :
    t ∈ s.typedefs.map Prod.fst :=
  List.mem_map_of_mem (mem_of_lookup hu)

/-- A chain of typedefs that passes the check ends within as many steps as
    there are typedefs left. -/
theorem followTypedefs_isSome (h : s.checkTypedef seen t = .ok ()) :
    ∀ n, (s.typedefs.lookup t ≠ none → s.unseen seen < n) →
      ∃ t', s.followTypedefs (n + 1) t = some t' := by
  fun_induction checkTypedef s seen t with
  | case1 seen t hlookup => exact fun n _ => ⟨t, by rw [followTypedefs, hlookup]⟩
  | case2 => cases h
  | case3 seen t u hlookup hu _ _ ih =>
    intro n hn
    have hn := hn (by simp [hlookup])
    obtain ⟨n, rfl⟩ := Nat.exists_eq_add_of_lt hn
    rw [followTypedefs, hlookup]
    refine ih h _ fun hne => ?_
    obtain ⟨v, hv⟩ := Option.ne_none_iff_exists'.mp hne
    have hshrinks : s.unseen (seen ++ [u]) < s.unseen seen := unseen_shrinks (mem_keys hv) hu
    omega

/-- Where the typedefs pass the check, `resolve_type` follows them to the end. -/
theorem resolveType_spec (h : ∀ t ∈ s.typedefs, s.checkTypedef [t.1, t.2] t.2 = .ok ())
    (type : TypeName) : ReflTransGen s.Typedef type (s.resolveType type) ∧
      s.typedefs.lookup (s.resolveType type) = none := by
  rw [resolveType]
  cases hlookup : s.typedefs.lookup type with
  | none => exact ⟨.refl, hlookup⟩
  | some t =>
    have hcheck := h _ (mem_of_lookup hlookup)
    obtain ⟨n, hn⟩ := Nat.exists_eq_add_of_lt (List.length_pos_of_mem (mem_of_lookup hlookup))
    obtain ⟨t', ht'⟩ := followTypedefs_isSome hcheck n fun hne => by
      obtain ⟨u, hu⟩ := Option.ne_none_iff_exists'.mp hne
      have hdiff : t ∉ [type] := by
        intro hmem
        obtain rfl := List.mem_singleton.mp hmem
        obtain rfl := Option.some.inj (hu.symm.trans hlookup)
        exact (checkTypedef_some hcheck hu).1 List.mem_cons_self
      have hfirst : s.unseen ([] ++ [type]) < s.unseen [] :=
        unseen_shrinks (mem_keys hlookup) List.not_mem_nil
      have hsecond : s.unseen ([type] ++ [t]) < s.unseen [type] :=
        unseen_shrinks (mem_keys hu) hdiff
      have hall : s.unseen [] = s.typedefs.length := by simp [unseen]
      simp only [List.nil_append, List.singleton_append] at hfirst hsecond
      show s.unseen [type, t] < n
      omega
    rw [Nat.zero_add] at hn
    dsimp only
    rw [hn, ht']
    exact ⟨.head hlookup (followTypedefs_spec _ ht').1, (followTypedefs_spec _ ht').2⟩

theorem checkBase_bases {base : TypeName} (h : s.checkBase seen base = .ok ()) :
    ∃ bases, s.Bases base bases := by
  fun_induction checkBase s seen base with
  | case1 => exact ⟨[], rfl⟩
  | case2 => cases h
  | case3 => cases h
  | case4 seen base hne st hst hs hmem hlt ih =>
    obtain ⟨rest, hrest⟩ := ih h
    exact ⟨st :: rest, hne, orRethrow_ok hst, hrest⟩

/-! ## The structs of an ABI -/

/-- An assignment puts an entry beside the others, or it replaces one. -/
theorem assign_perm (key : TypeName) (value : StructDef) (m : List (TypeName × StructDef)) :
    (assign key value m).Perm ((key, value) :: m) ∨ (assign key value m).length = m.length := by
  induction m with
  | nil => exact .inl (.refl _)
  | cons p m ih =>
    rw [assign]
    split
    · exact .inr rfl
    · split
      · exact .inl (.refl _)
      · exact ih.imp (fun h => (h.cons p).trans (.swap _ _ _)) (congrArg Nat.succ)

/-- Where the map gets as many entries as there are structs, it has them all. -/
theorem foldl_assign (l : List StructDef) : ∀ m : List (TypeName × StructDef),
    (l.foldl (fun m st => assign st.name st m) m).Perm (l.map (fun st => (st.name, st)) ++ m) ∨
      (l.foldl (fun m st => assign st.name st m) m).length < l.length + m.length := by
  induction l with
  | nil => exact fun m => .inl (.refl m)
  | cons st l ih =>
    intro m
    rw [List.foldl_cons, List.length_cons]
    have hrest := ih (assign st.name st m)
    rcases assign_perm st.name st m with hst | hst
    · rw [hst.length_eq, List.length_cons] at hrest
      refine hrest.imp (fun h => (h.trans (hst.append_left _)).trans List.perm_middle) ?_
      omega
    · have hle := hrest.imp_left List.Perm.length_eq
      rw [List.length_append, List.length_map] at hle
      omega

theorem addTypedefs_structs (l : List TypeDef) : ∀ {s s' : Serializer},
    l.foldlM addTypedef s = .ok s' → s'.structs = s.structs := by
  induction l with
  | nil =>
    intro s s' h
    rw [Except.ok.inj h]
  | cons td l ih =>
    intro s s' h
    obtain ⟨s₁, hs₁, h⟩ := except_bind_ok h
    obtain ⟨_, -, hs₁⟩ := except_bind_ok hs₁
    obtain ⟨-, hs₁⟩ := eosAssert_bind_ok_iff.mp hs₁
    rw [ih h, ← Except.ok.inj hs₁]

/-- What `set_abi` has checked when it accepts. -/
theorem setAbi_checks {s₀ : Serializer} {abi : AbiDef} (h : s₀.setAbi abi = .ok s) :
    (∀ st ∈ abi.structs, (st.name, st) ∈ s.structs) ∧ s.validate = .ok () := by
  obtain ⟨-, h⟩ := eosAssert_bind_ok_iff.mp h
  obtain ⟨s₁, hs₁, h⟩ := except_bind_ok h
  simp only [eosAssert_bind_ok_iff] at h
  obtain ⟨-, hlength, -, -, -, -, h⟩ := h
  obtain ⟨_, hvalid, h⟩ := except_bind_ok h
  obtain rfl := Except.ok.inj h
  refine ⟨fun st hst => ?_, hvalid⟩
  have hstructs := addTypedefs_structs abi.types hs₁
  dsimp only at hlength hstructs ⊢
  rw [hstructs] at hlength ⊢
  have hperm := (foldl_assign abi.structs []).resolve_right (by simp [hlength])
  exact hperm.mem_iff.mpr (by simp [hst])

/-- **ACCEPTED ABIS RESOLVE**: `resolve_type` follows the typedefs from any name
    to one that is no typedef, and from any struct the bases lead over finitely
    many structs of the ABI to one without a base. -/
theorem setAbi_resolves (s₀ : Serializer) {abi : AbiDef} {s : Serializer}
    (h : s₀.setAbi abi = .ok s) :
    (∀ type, ReflTransGen s.Typedef type (s.resolveType type) ∧
      s.typedefs.lookup (s.resolveType type) = none) ∧
    ∀ st ∈ abi.structs, ∃ bases, s.Bases st.base bases := by
  obtain ⟨hstructs, hvalid⟩ := setAbi_checks h
  obtain ⟨_, htypedefs, hvalid⟩ := except_bind_ok hvalid
  obtain ⟨_, -, hvalid⟩ := except_bind_ok hvalid
  obtain ⟨_, hbases, -⟩ := except_bind_ok hvalid
  refine ⟨resolveType_spec (except_forM_ok htypedefs), fun st hst => ?_⟩
  obtain ⟨_, hbase, -⟩ := except_bind_ok (except_forM_ok hbases _ (hstructs st hst))
  split at hbase
  · next hnone => exact ⟨[], hnone⟩
  · exact checkBase_bases hbase

/-- A struct whose base is named by a typedef. -/
def layered : AbiDef where
  version := "eosio::abi/1.1".toList
  types := [⟨['b'], ['d']⟩]
  structs := [⟨['d'], [], []⟩, ⟨['e'], ['b'], []⟩]

/-- The serializer once `set_abi` accepted the ABI. -/
def layeredSerializer : Serializer := { bare with
  typedefs := [(['b'], ['d'])]
  structs := [(['d'], ⟨['d'], [], []⟩), (['e'], ⟨['e'], ['b'], []⟩)] }

theorem layered_accepted : bare.setAbi layered = .ok layeredSerializer := by
  have hnil : ∀ seen, layeredSerializer.checkBase seen [] = .ok () := by
    intro seen
    rw [checkBase, if_pos rfl]
  have htypedef : layeredSerializer.checkTypedef [['b'], ['d']] ['d'] = .ok () := by
    rw [checkTypedef]
    rfl
  have hbase : layeredSerializer.checkBase [['e']] ['b'] = .ok () := by
    rw [checkBase]
    exact hnil [['e'], ['d']]
  have hvalid : layeredSerializer.validate = .ok () := by
    show (( layeredSerializer.checkTypedef [['b'], ['d']] ['d'] >>= fun _ => .ok ()) >>= fun _ =>
      ((layeredSerializer.checkBase [['e']] ['b'] >>= fun _ => .ok ()) >>= fun _ => .ok ()) >>=
        fun _ => .ok ()) = _
    rw [htypedef, hbase]
    rfl
  refine eosAssert_bind_ok_iff.mpr ⟨by decide, ?_⟩
  show (layeredSerializer.validate >>= fun _ => pure layeredSerializer) = _
  rw [hvalid]
  rfl

theorem setAbi_resolves_layered :
    layeredSerializer.typedefs.lookup (layeredSerializer.resolveType ['b']) = none ∧
      ∃ bases, layeredSerializer.Bases ['b'] bases := by
  obtain ⟨htypes, hbases⟩ := setAbi_resolves bare layered_accepted
  exact ⟨(htypes ['b']).2, hbases ⟨['e'], ['b'], []⟩ (.tail _ (.head _))⟩

end Serializer

end Abi
