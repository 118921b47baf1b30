import EosForce.HeaderStateProofs
import Mathlib.Algebra.BigOperators.Group.List.Basic
import Mathlib.Data.List.Perm.Subperm

/-! # `verify_signee`: the signatures of a block

    A block is signed by one or more keys of its producer's block signing
    authority.  The check recovers a key from every signature, refuses a key
    that comes twice, and asks the authority for two numbers: whether the
    weights of the presented keys reach the threshold, and how many of its own
    keys were presented.  The sum of the weights is a `uint32_t` that saturates
    and that is no longer added to once it has reached the threshold.

    Over an authority with pairwise distinct keys this is the rule on sets:
    all recovered keys are different, all of them belong to the authority, and
    their weights add up to the threshold. -/

namespace BlockSignee

open ChainTypes HeaderState List

/-- The public key a signature of a digest recovers to, and the digest of a
    header state that is signed. -/
structure SigneeEnv (σ : Type) where
  publicKey : σ → Digest → PublicKey
  sigDigest : BlockHeaderState → Digest

variable {σ : Type}

/-! ## The check -/

/-- The `uint32_t` sum while a key of the authority is visited. -/
def addWeight (threshold total weight : Nat) : Nat :=
  if total < threshold then total + min (2 ^ 32 - 1 - total) weight else total

/-- The loop of `keys_satisfy_and_relevant`: the number of relevant keys and
    the total weight. -/
def visitKeys (threshold : Nat) (presented : List PublicKey) :
    List KeyWeight → Nat → Nat → Nat × Nat
  | [], relevant, total => (relevant, total)
  | kw :: keys, relevant, total =>
    if kw.key ∈ presented then
      visitKeys threshold presented keys (relevant + 1) (addWeight threshold total kw.weight)
    else visitKeys threshold presented keys relevant total

/-- `keys_satisfy_and_relevant`. -/
def keysSatisfyAndRelevant (authority : BlockSigningAuthority) (presented : List PublicKey) :
    Bool × Nat :=
  let (relevant, total) := visitKeys authority.threshold presented authority.keys 0 0
  (decide (authority.threshold ≤ total), relevant)

/-- The loop that fills the set of keys with those of the additional
    signatures. -/
def emplaceKeys (keys : List PublicKey) : List PublicKey → Except FcException (List PublicKey)
  | [] => .ok keys
  | k :: ks => do
      eosAssert (k ∉ keys) .wrongSigningKey "block signed by same key twice"
      emplaceKeys (keys ++ [k]) ks

/-- What the authority says to the recovered keys. -/
def checkKeys (authority : BlockSigningAuthority) (keys : List PublicKey) :
    Except FcException Unit := do
  let (isSatisfied, relevantSigCount) := keysSatisfyAndRelevant authority keys
  eosAssert (relevantSigCount = keys.length) .wrongSigningKey "block signed by unexpected key"
  eosAssert (isSatisfied = true) .wrongSigningKey
    "block signatures do not satisfy the block signing authority"

/-- `block_header_state::verify_signee`, for the producer's signature and the
    additional ones. -/
def verifySignee (env : SigneeEnv σ) (s : BlockHeaderState) (producerSignature : σ)
    (additionalSignatures : List σ) : Except FcException Unit := do
  let authority := s.validBlockSigningAuthority
  eosAssert (1 + additionalSignatures.length ≤ authority.keys.length) .wrongSigningKey
    "number of block signatures ($\x7bnum_block_signatures\x7d) exceeds number of keys in block signing authority ($\x7bnum_keys\x7d)"
  let digest := env.sigDigest s
  let keys ← emplaceKeys [env.publicKey producerSignature digest]
    (additionalSignatures.map fun sig => env.publicKey sig digest)
  checkKeys authority keys

/-! ## The loops -/

/-- The set takes all keys exactly when none comes twice. -/
theorem emplaceKeys_ok_iff (ks : List PublicKey) :
    ∀ {keys out : List PublicKey}, keys.Nodup →
      (emplaceKeys keys ks = .ok out ↔ (keys ++ ks).Nodup ∧ out = keys ++ ks) := by
  induction ks with
  | nil =>
    intro keys out hkeys
    rw [emplaceKeys, append_nil]
    constructor
    · intro h
      cases h
      exact ⟨hkeys, rfl⟩
    · rintro ⟨-, rfl⟩
      rfl
  | cons k ks ih =>
    intro keys out hkeys
    rw [emplaceKeys, eosAssert_bind_ok_iff]
    have hsplit : keys ++ k :: ks = keys ++ [k] ++ ks := by
      rw [append_assoc, singleton_append]
    constructor
    · rintro ⟨hk, h⟩
      have hnodup : (keys ++ [k]).Nodup :=
        nodup_append.mpr ⟨hkeys, nodup_singleton k, by
          rintro a ha b hb rfl
          exact hk (mem_singleton.mp hb ▸ ha)⟩
      rw [hsplit]
      exact (ih hnodup).mp h
    · rintro ⟨hnodup, hout⟩
      rw [hsplit] at hnodup hout
      have hfront : (keys ++ [k]).Nodup := (nodup_append.mp hnodup).1
      refine ⟨?_, (ih hfront).mpr ⟨hnodup, hout⟩⟩
      intro hk
      exact (nodup_append.mp hfront).2.2 k hk k (mem_singleton_self k) rfl

/-- The keys of an authority that were presented. -/
def relevantKeys (presented : List PublicKey) (keys : List KeyWeight) : List KeyWeight :=
  keys.filter fun kw => kw.key ∈ presented

/-- Saturating, and not adding any more, does not change whether the threshold
    is reached. -/
theorem le_addWeight_iff {threshold total weight : Nat} (ht : threshold < 2 ^ 32)
    (htotal : total < 2 ^ 32) (rest : Nat) :
    threshold ≤ addWeight threshold total weight + rest ↔ threshold ≤ total + weight + rest := by
  unfold addWeight
  split <;> omega

theorem addWeight_lt (threshold weight : Nat) {total : Nat} (htotal : total < 2 ^ 32) :
    addWeight threshold total weight < 2 ^ 32 := by
  unfold addWeight
  split <;> omega

/-- The loop counts the presented keys of the authority, and its total reaches
    the threshold exactly when their weights do. -/
theorem visitKeys_spec {threshold : Nat} (ht : threshold < 2 ^ 32)
    (presented : List PublicKey) (keys : List KeyWeight) :
    ∀ (relevant total : Nat), total < 2 ^ 32 →
      (visitKeys threshold presented keys relevant total).1 =
          relevant + (relevantKeys presented keys).length ∧
        (threshold ≤ (visitKeys threshold presented keys relevant total).2 ↔
          threshold ≤ total + ((relevantKeys presented keys).map (·.weight)).sum) := by
  induction keys with
  | nil =>
    intro relevant total _
    exact ⟨rfl, Iff.rfl⟩
  | cons kw keys ih =>
    intro relevant total htotal
    by_cases hk : kw.key ∈ presented
    · have hrel : relevantKeys presented (kw :: keys) = kw :: relevantKeys presented keys :=
        filter_cons_of_pos (decide_eq_true hk)
      obtain ⟨hcount, hsum⟩ := ih (relevant + 1) _ (addWeight_lt threshold kw.weight htotal)
      rw [visitKeys, if_pos hk, hrel, length_cons, map_cons, sum_cons, hcount,
        hsum, le_addWeight_iff ht htotal, Nat.add_assoc total]
      exact ⟨by omega, Iff.rfl⟩
    · have hrel : relevantKeys presented (kw :: keys) = relevantKeys presented keys :=
        filter_cons_of_neg (by simpa using hk)
      rw [visitKeys, if_neg hk, hrel]
      exact ih relevant total htotal

/-! ## The rule on sets -/

/-- The weight of a key in an authority, zero for a foreign one. -/
def weightOf (keys : List KeyWeight) (k : PublicKey) : Nat :=
  ((keys.find? fun kw => kw.key = k).map (·.weight)).getD 0

theorem weightOf_mem {keys : List KeyWeight} (hkeys : (keys.map (·.key)).Nodup)
    {kw : KeyWeight} (h : kw ∈ keys) : weightOf keys kw.key = kw.weight := by
  unfold weightOf
  cases hfind : keys.find? (fun x => x.key = kw.key) with
  | none =>
    have := List.find?_eq_none.mp hfind kw h
    simp at this
  | some x =>
    have hid : x.key = kw.key := by simpa using List.find?_some hfind
    rw [inj_on_of_nodup_map hkeys (mem_of_find?_eq_some hfind) h hid]
    rfl

section Sets

variable {keys : List KeyWeight} {presented : List PublicKey}

theorem mem_relevantKeys {kw : KeyWeight} :
    kw ∈ relevantKeys presented keys ↔ kw ∈ keys ∧ kw.key ∈ presented := by
  unfold relevantKeys
  rw [mem_filter, decide_eq_true_eq]

section

variable (hkeys : (keys.map (·.key)).Nodup)
include hkeys

theorem nodup_relevantKeys : ((relevantKeys presented keys).map (·.key)).Nodup :=
  hkeys.sublist (filter_sublist.map _)

/-- No presented key is foreign: then the relevant keys are the presented
    ones. -/
theorem perm_relevantKeys (hpres : presented.Nodup) (hall : ∀ k ∈ presented, k ∈ keys.map (·.key)) :
    ((relevantKeys presented keys).map (·.key)).Perm presented := by
  refine (perm_ext_iff_of_nodup (nodup_relevantKeys hkeys) hpres).mpr ?_
  intro k
  constructor
  · intro hk
    obtain ⟨kw, hkw, rfl⟩ := mem_map.mp hk
    exact (mem_relevantKeys.mp hkw).2
  · intro hk
    obtain ⟨kw, hkw, rfl⟩ := mem_map.mp (hall k hk)
    exact mem_map_of_mem (mem_relevantKeys.mpr ⟨hkw, hk⟩)

/-- **COUNTING FINDS FOREIGN KEYS**: the numbers agree exactly when there are
    none. -/
theorem relevant_count_iff (hpres : presented.Nodup) :
    (relevantKeys presented keys).length = presented.length ↔
      ∀ k ∈ presented, k ∈ keys.map (·.key) := by
  constructor
  · intro hlen k hk
    have hsub : ((relevantKeys presented keys).map (·.key)).Subperm presented :=
      (nodup_relevantKeys hkeys).subperm fun x hx => by
        obtain ⟨kw, hkw, rfl⟩ := mem_map.mp hx
        exact (mem_relevantKeys.mp hkw).2
    have hperm := hsub.perm_of_length_le (by rw [length_map, hlen])
    obtain ⟨kw, hkw, rfl⟩ := mem_map.mp (hperm.mem_iff.mpr hk)
    exact mem_map_of_mem (mem_relevantKeys.mp hkw).1
  · intro hall
    rw [← (perm_relevantKeys hkeys hpres hall).length_eq, length_map]

/-- The weights of the relevant keys are those of the presented ones. -/
theorem sum_relevantKeys (hpres : presented.Nodup) (hall : ∀ k ∈ presented, k ∈ keys.map (·.key)) :
    ((relevantKeys presented keys).map (·.weight)).sum =
      (presented.map (weightOf keys)).sum := by
  rw [← ((perm_relevantKeys hkeys hpres hall).map (weightOf keys)).sum_eq, map_map]
  congr 1
  refine map_congr_left ?_
  intro kw hkw
  exact (weightOf_mem hkeys (mem_relevantKeys.mp hkw).1).symm

end

end Sets

/-- The authority accepts a set of keys by the rule. -/
theorem checkKeys_ok_iff {authority : BlockSigningAuthority} {presented : List PublicKey}
    (hthreshold : authority.threshold < 2 ^ 32) (hkeys : (authority.keys.map (·.key)).Nodup)
    (hpres : presented.Nodup) :
    checkKeys authority presented = .ok () ↔
      (∀ k ∈ presented, k ∈ authority.keys.map (·.key)) ∧
        authority.threshold ≤ (presented.map (weightOf authority.keys)).sum := by
  obtain ⟨hcount, hsum⟩ := visitKeys_spec hthreshold presented authority.keys 0 0 (by decide)
  rw [Nat.zero_add] at hcount hsum
  have hrelevant : (keysSatisfyAndRelevant authority presented).2 =
      (relevantKeys presented authority.keys).length := hcount
  have hsatisfied : (keysSatisfyAndRelevant authority presented).1 = true ↔
      authority.threshold ≤ ((relevantKeys presented authority.keys).map (·.weight)).sum :=
    decide_eq_true_iff.trans hsum
  unfold checkKeys
  rw [eosAssert_bind_ok_iff, eosAssert_ok_iff, hrelevant, hsatisfied,
    relevant_count_iff hkeys hpres]
  refine and_congr_right fun hall => ?_
  rw [sum_relevantKeys hkeys hpres hall]

/-- The keys that a block's signatures recover to. -/
def recovered (env : SigneeEnv σ) (s : BlockHeaderState) (producerSignature : σ)
    (additionalSignatures : List σ) : List PublicKey :=
  (producerSignature :: additionalSignatures).map fun sig => env.publicKey sig (env.sigDigest s)

/-- **BLOCK SIGNATURES**: the check passes exactly when there are no more
    signatures than keys, no key signed twice, every key belongs to the
    authority, and the exact sum of the weights reaches the threshold. -/
theorem verifySignee_ok_iff (env : SigneeEnv σ) (s : BlockHeaderState) (producerSignature : σ)
    (additionalSignatures : List σ)
    (hthreshold : s.validBlockSigningAuthority.threshold < 2 ^ 32)
    (hkeys : (s.validBlockSigningAuthority.keys.map (·.key)).Nodup) :
    verifySignee env s producerSignature additionalSignatures = .ok () ↔
      (producerSignature :: additionalSignatures).length ≤
          s.validBlockSigningAuthority.keys.length ∧
        (recovered env s producerSignature additionalSignatures).Nodup ∧
        (∀ k ∈ recovered env s producerSignature additionalSignatures,
          k ∈ s.validBlockSigningAuthority.keys.map (·.key)) ∧
        s.validBlockSigningAuthority.threshold ≤
          ((recovered env s producerSignature additionalSignatures).map
            (weightOf s.validBlockSigningAuthority.keys)).sum := by
  have hemplace : ∀ {out : List PublicKey},
      emplaceKeys [env.publicKey producerSignature (env.sigDigest s)]
          (additionalSignatures.map fun sig => env.publicKey sig (env.sigDigest s)) = .ok out ↔
        (recovered env s producerSignature additionalSignatures).Nodup ∧
          out = recovered env s producerSignature additionalSignatures :=
    emplaceKeys_ok_iff _ (nodup_singleton _)
  unfold verifySignee
  rw [eosAssert_bind_ok_iff, length_cons, Nat.add_comm 1]
  refine and_congr_right fun _ => ?_
  constructor
  · intro h
    obtain ⟨keys, hout, hcheck⟩ := except_bind_ok h
    obtain ⟨hnodup, rfl⟩ := hemplace.mp hout
    exact ⟨hnodup, (checkKeys_ok_iff hthreshold hkeys hnodup).mp hcheck⟩
  · rintro ⟨hnodup, hrule⟩
    dsimp only
    rw [hemplace.mpr ⟨hnodup, rfl⟩]
    exact (checkKeys_ok_iff hthreshold hkeys hnodup).mpr hrule

/-- Two keys of weight one, both needed. -/
def twoOfTwo : BlockHeaderState :=
  { validBlockSigningAuthority := { threshold := 2, keys := [⟨[1], 1⟩, ⟨[2], 1⟩] } }

/-- A signature that is its key. -/
def plainSignee : SigneeEnv PublicKey := ⟨fun sig _ => sig, fun _ => 0⟩

theorem verifySignee_twoOfTwo :
    verifySignee plainSignee twoOfTwo [1] [[2]] = .ok () ∧
      (recovered plainSignee twoOfTwo [1] [[2]]).Nodup := by
  have h := verifySignee_ok_iff plainSignee twoOfTwo [1] [[2]] (by decide) (by decide)
  exact ⟨h.mpr (by decide), (h.mp (h.mpr (by decide))).2.1⟩

end BlockSignee
