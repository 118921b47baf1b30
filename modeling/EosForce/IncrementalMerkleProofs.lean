import EosForce.ChainTypesProofs
import EosForce.MerkleFrontierProofs

/-! # Merkle roots

    `merkle` computes the root of a list of digests from scratch;
    `incremental_merkle` keeps only the nodes that the next append needs and
    holds the same root after every append.  Each append climbs as many levels
    as the new number of leaves asks for, which the code finds with bit tricks
    on `uint64_t`. -/

namespace IncrementalMerkle

open ChainTypes MerkleFrontier

/-! ## Hashing -/

/-- `make_canonical_left`, which clears a bit of `_hash[0]`. -/
def makeCanonicalLeft (val : Digest) : Digest :=
  val &&& (0xFFFFFFFFFFFFFF7F * 2 ^ 192 + (2 ^ 192 - 1))

/-- `make_canonical_right`, which sets it. -/
def makeCanonicalRight (val : Digest) : Digest :=
  val ||| (0x0000000000000080 * 2 ^ 192)

/-- `digest_type::hash(make_canonical_pair(l, r))`. -/
def hashPair (hash : Digest × Digest → Digest) (l r : Digest) : Digest :=
  hash (makeCanonicalLeft l, makeCanonicalRight r)

variable {hash : Digest × Digest → Digest}

/-! ## `merkle` -/

/-- The loop of `merkle`; `none` stands for a loop that has not come to its
    end. -/
def merkleLoop (hash : Digest × Digest → Digest) : Nat → List Digest → Option Digest
  | 0, _ => none
  | fuel + 1, ids =>
    if 1 < ids.length then merkleLoop hash fuel (level (hashPair hash) ids) else ids.head?

/-- `merkle`. -/
def merkle (hash : Digest × Digest → Digest) (ids : List Digest) : Option Digest :=
  if ids.length = 0 then some 0 else merkleLoop hash ids.length ids

variable {ids : List Digest}

theorem merkleLoop_eq {root : Digest} (h : Collapses (hashPair hash) ids root) :
    ∀ fuel, ids.length ≤ fuel → merkleLoop hash fuel ids = some root := by
  induction h with
  | single =>
    intro fuel hfuel
    cases fuel with
    | zero => cases hfuel
    | succ fuel => rfl
  | @step ids a hlen _ ih =>
    intro fuel hfuel
    cases fuel with
    | zero => omega
    | succ fuel =>
      rw [merkleLoop, if_pos hlen]
      refine ih fuel ?_
      rw [length_level]
      omega

/-- The batch root is what the levels come down to. -/
theorem merkle_eq {root : Digest} (h : Collapses (hashPair hash) ids root) :
    merkle hash ids = some root := by
  have hne : ¬ ids.length = 0 := by
    cases h with
    | single => exact Nat.one_ne_zero
    | step hlen _ => omega
  rw [merkle, if_neg hne]
  exact merkleLoop_eq h ids.length (Nat.le_refl _)

/-! ## The depth of the tree -/

/-- `next_power_of_2`. -/
def nextPowerOf2 (value : UInt64) : UInt64 :=
  let value := value - 1
  let value := value ||| (value >>> 1)
  let value := value ||| (value >>> 2)
  let value := value ||| (value >>> 4)
  let value := value ||| (value >>> 8)
  let value := value ||| (value >>> 16)
  let value := value ||| (value >>> 32)
  value + 1

/-- `clz_power_2`. -/
def clzPower2 (value : UInt64) : Nat :=
  let lz := 64
  let lz := if value ≠ 0 then lz - 1 else lz
  let lz := if value &&& 0x00000000FFFFFFFF ≠ 0 then lz - 32 else lz
  let lz := if value &&& 0x0000FFFF0000FFFF ≠ 0 then lz - 16 else lz
  let lz := if value &&& 0x00FF00FF00FF00FF ≠ 0 then lz - 8 else lz
  let lz := if value &&& 0x0F0F0F0F0F0F0F0F ≠ 0 then lz - 4 else lz
  let lz := if value &&& 0x3333333333333333 ≠ 0 then lz - 2 else lz
  if value &&& 0x5555555555555555 ≠ 0 then lz - 1 else lz

/-- `calcluate_max_depth`. -/
def calcluateMaxDepth (nodeCount : UInt64) : Nat :=
  if nodeCount = 0 then 0 else clzPower2 (nextPowerOf2 nodeCount) + 1

/-- Each bit of `x` is set where one of `w` bits of `u` from there on is. -/
def Smeared (u w x : Nat) : Prop :=
  ∀ i, x.testBit i = true ↔ ∃ d < w, u.testBit (i + d) = true

theorem smeared_one (u : Nat) : Smeared u 1 u := by
  intro i
  constructor
  · intro h
    exact ⟨0, Nat.one_pos, h⟩
  · rintro ⟨d, hd, h⟩
    rwa [Nat.lt_one_iff.mp hd] at h

/-- Shifting by the width doubles it. -/
theorem Smeared.double {u w x : Nat} (h : Smeared u w x) : Smeared u (w + w) (x ||| x >>> w) := by
  intro i
  rw [Nat.testBit_or, Nat.testBit_shiftRight, Bool.or_eq_true, h i, h (w + i)]
  constructor
  · rintro (⟨d, hd, hbit⟩ | ⟨d, hd, hbit⟩)
    · exact ⟨d, by omega, hbit⟩
    · exact ⟨w + d, by omega, by rwa [show i + (w + d) = w + i + d by omega]⟩
  · rintro ⟨d, hd, hbit⟩
    by_cases hw : d < w
    · exact .inl ⟨d, hw, hbit⟩
    · exact .inr ⟨d - w, by omega, by rwa [show w + i + (d - w) = i + d by omega]⟩

/-- A number smeared over all bits is one below a power of two. -/
theorem Smeared.eq {u x : Nat} (h : Smeared u 64 x) (hu : u < 2 ^ 64) :
    x = 2 ^ Nat.clog 2 (u + 1) - 1 := by
  apply Nat.eq_of_testBit_eq
  intro i
  rw [Nat.testBit_two_pow_sub_one, Bool.eq_iff_iff, decide_eq_true_eq, h i,
    Nat.lt_clog_iff_pow_lt Nat.one_lt_two]
  constructor
  · rintro ⟨d, -, hbit⟩
    have hle := Nat.ge_two_pow_of_testBit hbit
    have := Nat.pow_le_pow_right Nat.two_pos (Nat.le_add_right i d)
    omega
  · intro hlt
    obtain ⟨j, hij, hbit⟩ := Nat.exists_ge_and_testBit_of_ge_two_pow (Nat.lt_succ_iff.mp hlt)
    have hj : j < 64 := by
      by_contra hge
      have hle := Nat.ge_two_pow_of_testBit hbit
      have := Nat.pow_le_pow_right Nat.two_pos (Nat.le_of_not_lt hge)
      omega
    exact ⟨j - i, by omega, by rwa [show i + (j - i) = j by omega]⟩

/-- One line of `next_power_of_2`. -/
theorem smeared_step {u w : Nat} {x s : UInt64} (h : Smeared u w x.toNat)
    (hs : s.toNat = w) (hw : w < 64) : Smeared u (w + w) (x ||| (x >>> s)).toNat := by
  rw [UInt64.toNat_or, UInt64.toNat_shiftRight, hs, Nat.mod_eq_of_lt hw]
  exact h.double

/-- **NEXT POWER OF TWO**. -/
theorem toNat_nextPowerOf2 {v : UInt64} (hpos : 0 < v.toNat) (hle : v.toNat ≤ 2 ^ 63) :
    (nextPowerOf2 v).toNat = 2 ^ Nat.clog 2 v.toNat := by
  have hu : (v - 1).toNat = v.toNat - 1 := by
    refine UInt64.toNat_sub_of_le _ _ ?_
    rw [UInt64.le_iff_toNat_le]
    exact hpos
  have h1 := smeared_one (v - 1).toNat
  have h2 := smeared_step (s := 1) h1 rfl (by decide)
  have h3 := smeared_step (s := 2) h2 rfl (by decide)
  have h4 := smeared_step (s := 4) h3 rfl (by decide)
  have h5 := smeared_step (s := 8) h4 rfl (by decide)
  have h6 := smeared_step (s := 16) h5 rfl (by decide)
  have h7 := smeared_step (s := 32) h6 rfl (by decide)
  have hx := h7.eq (UInt64.toNat_lt _)
  rw [hu, Nat.sub_add_cancel hpos] at hx
  have hpow : 2 ^ Nat.clog 2 v.toNat ≤ 2 ^ 63 :=
    Nat.pow_le_pow_right Nat.two_pos (Nat.clog_le_of_le_pow hle)
  have hone := Nat.two_pow_pos (Nat.clog 2 v.toNat)
  unfold nextPowerOf2
  rw [UInt64.toNat_add, hx]
  show (2 ^ Nat.clog 2 v.toNat - 1 + 1) % 2 ^ 64 = _
  omega

theorem clzPower2_two_pow : ∀ k < 64, clzPower2 (UInt64.ofNat (2 ^ k)) = k := by
  decide +kernel

/-- **THE DEPTH** is the binary logarithm, rounded up, and one. -/
theorem calcluateMaxDepth_eq {v : UInt64} (hpos : 0 < v.toNat) (hle : v.toNat ≤ 2 ^ 63) :
    calcluateMaxDepth v = Nat.clog 2 v.toNat + 1 := by
  have hne : ¬ v = 0 := by
    rintro rfl
    exact absurd hpos (by decide)
  have hnext : nextPowerOf2 v = UInt64.ofNat (2 ^ Nat.clog 2 v.toNat) := by
    rw [← toNat_nextPowerOf2 hpos hle, UInt64.ofNat_toNat]
  rw [calcluateMaxDepth, if_neg hne, hnext, clzPower2_two_pow]
  exact Nat.lt_succ_of_le (Nat.clog_le_of_le_pow hle)

/-! ## `incremental_merkle` -/

structure Merkle where
  nodeCount : UInt64 := 0
  activeNodes : List Digest := []
deriving DecidableEq, Repr

/-- The loop of `append`; `none` stands for a read past the end of
    `_active_nodes`. -/
def collapse (hash : Digest × Digest → Digest) :
    Nat → UInt64 → Bool → Digest → List Digest → List Digest → Option (List Digest × Digest)
  | 0, _, _, top, _, updated => some (updated, top)
  | currentDepth + 1, index, isPartial, top, active, updated =>
    if index &&& 1 = 0 then
      collapse hash currentDepth (index >>> 1) true (hashPair hash top top) active
        (if isPartial then updated else updated ++ [top])
    else
      match active with
      | [] => none
      | leftValue :: rest =>
        collapse hash currentDepth (index >>> 1) isPartial (hashPair hash leftValue top) rest
          (if isPartial then updated ++ [leftValue] else updated)

/-- `append`. -/
def append (hash : Digest × Digest → Digest) (m : Merkle) (digest : Digest) : Option Merkle :=
  let maxDepth := calcluateMaxDepth (m.nodeCount + 1)
  (collapse hash (maxDepth - 1) m.nodeCount false digest m.activeNodes []).map fun (updated, top) =>
    { nodeCount := m.nodeCount + 1, activeNodes := updated ++ [top] }

/-- `get_root`; `none` stands for the last element of an empty vector. -/
def getRoot (m : Merkle) : Option Digest :=
  if 0 < m.nodeCount then m.activeNodes.getLast? else some 0

/-- The digests appended one by one. -/
def appendAll (hash : Digest × Digest → Digest) (m : Merkle) (ids : List Digest) : Option Merkle :=
  ids.foldlM (append hash) m

/-- The loop is the climb, with its index in a `uint64_t`. -/
theorem collapse_eq_climb (depth : Nat) :
    ∀ (index : UInt64) (isPartial : Bool) (top : Digest) (active updated : List Digest),
      collapse hash depth index isPartial top active updated =
        climb (hashPair hash) depth index.toNat isPartial top active updated := by
  induction depth with
  | zero =>
    intro index isPartial top active updated
    rfl
  | succ depth ih =>
    intro index isPartial top active updated
    have hbit : index &&& 1 = 0 ↔ index.toNat % 2 = 0 := by
      rw [← UInt64.toNat_inj, UInt64.toNat_and]
      show index.toNat &&& 1 = 0 ↔ _
      rw [Nat.and_one_is_mod]
    have hshift : (index >>> 1).toNat = index.toNat / 2 := by
      rw [UInt64.toNat_shiftRight]
      exact Nat.shiftRight_one _
    rw [collapse.eq_def, climb.eq_def]
    dsimp only
    by_cases heven : index &&& 1 = 0
    · rw [if_pos heven, if_pos (hbit.mp heven), ih, hshift]
    · rw [if_neg heven, if_neg (mt hbit.mpr heven)]
      cases active with
      | nil => rfl
      | cons left rest =>
        dsimp only
        rw [ih, hshift]

/-- The nodes that are kept for a list of leaves: they start with its frontier
    and end with its root. -/
structure Holds (hash : Digest × Digest → Digest) (ids : List Digest) (m : Merkle) : Prop where
  count : m.nodeCount.toNat = ids.length
  frontier : ∃ fs rest, Frontier (hashPair hash) ids fs ∧ m.activeNodes = fs ++ rest
  root : ids ≠ [] → ∃ root, Collapses (hashPair hash) ids root ∧
    m.activeNodes.getLast? = some root

theorem holds_empty (hash : Digest × Digest → Digest) : Holds hash [] {} :=
  ⟨rfl, ⟨[], [], Frontier.nil, rfl⟩, fun h => absurd rfl h⟩

/-- **ONE APPEND** has the nodes it needs and leaves those of the longer
    list. -/
theorem append_holds {m : Merkle} (h : Holds hash ids m) (hlen : ids.length < 2 ^ 63)
    (digest : Digest) : ∃ m', append hash m digest = some m' ∧ Holds hash (ids ++ [digest]) m' := by
  obtain ⟨fs, rest, hfs, hactive⟩ := h.frontier
  obtain ⟨root, more, fs', rest', hclimb, hroot, hfs', hmore⟩ := climb_full hfs digest rest []
  have hcount : (m.nodeCount + 1).toNat = ids.length + 1 := by
    rw [UInt64.toNat_add, h.count]
    show (ids.length + 1) % 2 ^ 64 = _
    omega
  have hdepth : calcluateMaxDepth (m.nodeCount + 1) - 1 = Nat.clog 2 (ids.length + 1) := by
    rw [calcluateMaxDepth_eq (by omega) (by omega), hcount, Nat.add_sub_cancel]
  refine ⟨⟨m.nodeCount + 1, more ++ [root]⟩, ?_, ?_, ⟨fs', rest', hfs', hmore⟩, ?_⟩
  · unfold append
    dsimp only
    rw [hdepth, collapse_eq_climb, h.count, hactive, hclimb]
    rfl
  · rw [hcount, List.length_append, List.length_singleton]
  · intro _
    exact ⟨root, hroot, List.getLast?_concat⟩

/-- **EVERY APPEND**, by induction on the digests still to come. -/
theorem appendAll_holds (todo : List Digest) :
    ∀ {done : List Digest} {m : Merkle}, Holds hash done m → (done ++ todo).length < 2 ^ 63 →
      ∃ m', appendAll hash m todo = some m' ∧ Holds hash (done ++ todo) m' := by
  induction todo with
  | nil =>
    intro done m h _
    rw [List.append_nil]
    exact ⟨m, rfl, h⟩
  | cons digest todo ih =>
    intro done m h hlen
    rw [List.append_cons] at hlen ⊢
    have hdone : done.length < 2 ^ 63 := by
      rw [List.length_append, List.length_append] at hlen
      omega
    obtain ⟨m1, happend, h1⟩ := append_holds h hdone digest
    obtain ⟨m', hrest, h'⟩ := ih h1 hlen
    refine ⟨m', ?_, h'⟩
    rw [appendAll, List.foldlM_cons, happend]
    exact hrest

/-- The root that is held is the batch root. -/
theorem Holds.getRoot_eq {m : Merkle} (h : Holds hash ids m) : getRoot m = merkle hash ids := by
  have hcount : 0 < m.nodeCount ↔ 0 < ids.length := by
    rw [UInt64.lt_iff_toNat_lt, h.count]
    rfl
  unfold getRoot
  by_cases hids : ids = []
  · rw [if_neg (mt hcount.mp (by rw [hids]; exact Nat.lt_irrefl 0)), hids]
    rfl
  · obtain ⟨root, hroot, hlast⟩ := h.root hids
    rw [if_pos (hcount.mpr (List.length_pos_iff.mpr hids)), hlast, merkle_eq hroot]

/-- **INCREMENTAL AND BATCH ROOTS AGREE**: after each of the appends the root is
    that of the digests so far, the count is their number, and no append reads
    past the end of the active nodes. -/
theorem incremental_eq_batch (hash : Digest × Digest → Digest) (ids : List Digest)
    (hlen : ids.length < 2 ^ 63) (k : Nat) (hk : k ≤ ids.length) :
    ∃ m root, appendAll hash {} (ids.take k) = some m ∧ m.nodeCount.toNat = k ∧
      getRoot m = some root ∧ merkle hash (ids.take k) = some root := by
  have htake : (ids.take k).length = k := by
    rw [List.length_take]
    omega
  obtain ⟨m, happend, hm⟩ := appendAll_holds (ids.take k) (holds_empty hash)
    (by rw [List.nil_append, htake]; omega)
  rw [List.nil_append] at hm
  have hroot := hm.getRoot_eq
  by_cases hids : ids.take k = []
  · refine ⟨m, 0, happend, hm.count.trans htake, ?_, ?_⟩
    · rw [hroot, hids]
      rfl
    · rw [hids]
      rfl
  · obtain ⟨root, hcollapses, -⟩ := hm.root hids
    refine ⟨m, root, happend, hm.count.trans htake, ?_, merkle_eq hcollapses⟩
    rw [hroot, merkle_eq hcollapses]

theorem incremental_five :
    ∃ m root, appendAll (fun p => 3 * p.1 + p.2) {} ([1, 2, 3, 4, 5].take 5) = some m ∧
      m.nodeCount.toNat = 5 ∧ getRoot m = some root ∧
      merkle (fun p => 3 * p.1 + p.2) ([1, 2, 3, 4, 5].take 5) = some root :=
  incremental_eq_batch (fun p => 3 * p.1 + p.2) [1, 2, 3, 4, 5] (by decide) 5 (by decide)

end IncrementalMerkle
