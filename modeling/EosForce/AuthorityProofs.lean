import EosForce.TrxTypesProofs
import EosForce.TallyProofs
import Mathlib.Order.FixedPoints
import Mathlib.Order.CompletePartialOrder

/-! # Authorities and the authority checker

    An authority is a threshold and weighted entries: keys, permissions of
    accounts, and waits.  `authority_checker` decides whether a permission is
    satisfied by a set of keys.  It follows references between permissions up
    to a depth, remembers in a cache what it found, and marks the keys it used;
    the marks of an authority that turned out not to be satisfied are taken
    back, what the cache remembers is not. -/

namespace Authority

open ChainTypes TrxTypes

/-! ## Authorities -/

/-- `key_weight`. -/
structure KeyWeight where
  key : PublicKey
  weight : UInt16
deriving DecidableEq, Repr

/-- `permission_level_weight`. -/
structure PermissionLevelWeight where
  permission : PermissionLevel
  weight : UInt16
deriving DecidableEq, Repr

/-- `wait_weight`. -/
structure WaitWeight where
  waitSec : UInt32
  weight : UInt16
deriving DecidableEq, Repr

/-- `authority`. -/
structure Auth where
  threshold : UInt32 := 0
  keys : List KeyWeight := []
  accounts : List PermissionLevelWeight := []
  waits : List WaitWeight := []
deriving DecidableEq, Repr, Inhabited

/-- `operator <` of `permission_level`: by actor, then by permission. -/
def levelLt (a b : PermissionLevel) : Prop :=
  a.actor.value < b.actor.value ∨
    a.actor.value = b.actor.value ∧ a.permission.value < b.permission.value

instance (a b : PermissionLevel) : Decidable (levelLt a b) := by
  unfold levelLt
  infer_instance

theorem levelLt_trans {a b d : PermissionLevel} (h : levelLt a b) (h' : levelLt b d) :
    levelLt a d := by
  simp only [levelLt, UInt64.lt_iff_toNat_lt, ← UInt64.toNat_inj] at h h' ⊢
  omega

theorem levelLt_irrefl (a : PermissionLevel) : ¬ levelLt a a := by
  simp only [levelLt, UInt64.lt_iff_toNat_lt]
  omega

/-- The weights of all entries, in the order in which `validate` adds them. -/
def Auth.weights (auth : Auth) : List Nat :=
  auth.keys.map (·.weight.toNat) ++ auth.accounts.map (·.weight.toNat) ++
    auth.waits.map (·.weight.toNat)

/-- `validate`. -/
def validate (auth : Auth) : Bool :=
  decide (auth.keys.length + auth.accounts.length + auth.waits.length ≤ 2 ^ 16) &&
  decide (auth.threshold ≠ 0) &&
  decide (auth.keys.IsChain fun a b => a.key < b.key) &&
  decide (auth.accounts.IsChain fun a b => levelLt a.permission b.permission) &&
  decide (∀ w ∈ auth.waits.head?, w.waitSec ≠ 0) &&
  decide (auth.waits.IsChain fun a b => a.waitSec < b.waitSec) &&
  decide (auth.threshold.toNat ≤ auth.weights.foldl addU32 0)

/-- The authorities of all permissions. -/
structure AuthorityMap where
  authority : PermissionLevel → Option Auth

/-- Every authority is validated. -/
def AuthorityMap.Valid (store : AuthorityMap) : Prop :=
  ∀ level auth, store.authority level = some auth → validate auth = true

/-- The authorities of all permissions, each of them validated. -/
structure Store extends AuthorityMap where
  valid : toAuthorityMap.Valid

instance : Coe Store AuthorityMap := ⟨Store.toAuthorityMap⟩

/-- `get_permission( level ).auth`; `none` is the `permission_query_exception`,
    which empty names also cause. -/
def AuthorityMap.permissionToAuthority (store : AuthorityMap) (level : PermissionLevel) :
    Option Auth :=
  if level.actor = noName ∨ level.permission = noName then none else store.authority level

/-! ## The order in which entries are visited -/

/-- What `meta_permission_map` holds. -/
inductive Entry where
  | account (e : PermissionLevelWeight)
  | key (e : KeyWeight)
  | wait (e : WaitWeight)
deriving DecidableEq, Repr

def Entry.weight : Entry → Nat
  | .account e => e.weight.toNat
  | .key e => e.weight.toNat
  | .wait e => e.weight.toNat

/-- The priority of `emplace_permission`. -/
def Entry.priority : Entry → Nat
  | .account _ => 1
  | .key _ => 2
  | .wait _ => 3

/-- The order of `meta_permission_key`. -/
def Entry.before (a b : Entry) : Prop :=
  b.weight < a.weight ∨ b.weight = a.weight ∧ b.priority < a.priority

instance (a b : Entry) : Decidable (a.before b) := by
  unfold Entry.before
  infer_instance

/-- `emplace` of a `flat_multimap` under `std::greater`: behind all that come
    before the new entry or are its equals. -/
def emplace (e : Entry) : List Entry → List Entry
  | [] => [e]
  | x :: rest => if e.before x then e :: x :: rest else x :: emplace e rest

/-- The entries in the order in which they are put into the map. -/
def Auth.entries (auth : Auth) : List Entry :=
  auth.accounts.map .account ++ auth.keys.map .key ++ auth.waits.map .wait

/-- The entries in the order in which they are visited. -/
def Auth.metaPermissions (auth : Auth) : List Entry :=
  auth.entries.foldl (fun permissions e => emplace e permissions) []

theorem emplace_perm (e : Entry) (l : List Entry) : (emplace e l).Perm (e :: l) := by
  induction l with
  | nil => exact List.Perm.refl _
  | cons x rest ih =>
    rw [emplace]
    split
    · exact List.Perm.refl _
    · exact (ih.cons x).trans (List.Perm.swap e x rest)

theorem metaPermissions_perm (auth : Auth) : auth.metaPermissions.Perm auth.entries := by
  have hfold : ∀ (es l : List Entry),
      (es.foldl (fun permissions e => emplace e permissions) l).Perm (l ++ es) := by
    intro es
    induction es with
    | nil =>
      intro l
      rw [List.append_nil]
      exact List.Perm.refl l
    | cons e es ih =>
      intro l
      refine (ih (emplace e l)).trans ?_
      refine ((emplace_perm e l).append_right es).trans ?_
      exact (@List.perm_middle _ e l es).symm
  exact hfold auth.entries []

/-! ## The checker -/

/-- `permission_cache_status`. -/
inductive CacheStatus where
  | beingEvaluated
  | permissionUnsatisfied
  | permissionSatisfied
deriving DecidableEq, Repr

abbrev PermissionCache := PermissionLevel → Option CacheStatus

def PermissionCache.assign (cache : PermissionCache) (level : PermissionLevel)
    (status : CacheStatus) : PermissionCache :=
  fun l => if l = level then some status else cache l

/-- `permission_status_in_cache`. -/
def permissionStatusInCache (cache : PermissionCache) (level : PermissionLevel) :
    Option CacheStatus :=
  match cache level with
  | some status => some status
  | none => cache ⟨level.actor, noName⟩

/-- `authority_checker`; `usedKeys` marks the provided keys that were used. -/
structure Checker where
  store : AuthorityMap
  recursionDepthLimit : Nat
  providedKeys : List PublicKey
  providedPermissions : List PermissionLevel
  providedDelay : Int
  usedKeys : PublicKey → Bool := fun _ => false

/-- What an evaluation changes. -/
structure Progress where
  cachedPermissions : PermissionCache
  usedKeys : PublicKey → Bool

variable (c : Checker)

/-- The three call operators of `weight_tally_visitor`, without the sum: does
    the entry count?  `account` is the operator for account entries. -/
def visit (account : PermissionLevel → Progress → Bool × Progress) :
    Entry → Progress → Bool × Progress
  | .wait e, s => (decide ((e.waitSec.toNat : Int) * 1000000 ≤ c.providedDelay), s)
  | .key e, s =>
    if e.key ∈ c.providedKeys then
      (true, { s with usedKeys := fun k => if k = e.key then true else s.usedKeys k })
    else (false, s)
  | .account e, s => account e.permission s

/-- The loop over the entries; `total_weight` is a `uint32_t`. -/
def tallyWeights (visitor : Entry → Progress → Bool × Progress) (threshold : Nat) :
    List Entry → Nat → Progress → Bool × Progress
  | [], _, s => (false, s)
  | e :: es, totalWeight, s =>
    let r := visitor e s
    let totalWeight := if r.1 then addU32 totalWeight e.weight else totalWeight
    if threshold ≤ totalWeight then (true, r.2)
    else tallyWeights visitor threshold es totalWeight r.2

/-- `satisfied( authority, cached_permissions, depth )`; the marks of an
    authority that is not satisfied are taken back. -/
def satisfiedAuthority (account : PermissionLevel → Progress → Bool × Progress) (auth : Auth)
    (s : Progress) : Bool × Progress :=
  let r := tallyWeights (visit c account) auth.threshold.toNat auth.metaPermissions 0 s
  if r.1 then r else (false, { r.2 with usedKeys := s.usedKeys })

/-- The operator for account entries, `depthLeft` levels above the limit. -/
def visitPermission (c : Checker) : Nat → PermissionLevel → Progress → Bool × Progress
  | 0, level, s =>
    (decide (permissionStatusInCache s.cachedPermissions level = some .permissionSatisfied), s)
  | depthLeft + 1, level, s =>
    match permissionStatusInCache s.cachedPermissions level with
    | some status => (decide (status = .permissionSatisfied), s)
    | none =>
      match c.store.permissionToAuthority level with
      | none => (false, s)
      | some auth =>
        let r := satisfiedAuthority c (visitPermission c depthLeft) auth
          { s with cachedPermissions := s.cachedPermissions.assign level .beingEvaluated }
        (r.1, { r.2 with
          cachedPermissions := r.2.cachedPermissions.assign level
            (if r.1 then .permissionSatisfied else .permissionUnsatisfied) })

/-- `initialize_permission_cache`. -/
def Checker.initializePermissionCache : PermissionCache :=
  fun level => if level ∈ c.providedPermissions then some .permissionSatisfied else none

/-- `satisfied( permission )`. -/
def Checker.satisfied (permission : PermissionLevel) : Bool × Checker :=
  let r := visitPermission c c.recursionDepthLimit permission
    ⟨c.initializePermissionCache, c.usedKeys⟩
  (r.1, { c with usedKeys := r.2.usedKeys })

/-- `satisfied( authority )`. -/
def Checker.satisfiedBy (auth : Auth) : Bool × Checker :=
  let r := satisfiedAuthority c (visitPermission c c.recursionDepthLimit) auth
    ⟨c.initializePermissionCache, c.usedKeys⟩
  (r.1, { c with usedKeys := r.2.usedKeys })

/-- The overloads with `override_provided_delay`: the delay is put back. -/
def Checker.withDelay (overrideProvidedDelay : Int) (call : Checker → Bool × Checker) :
    Bool × Checker :=
  let r := call { c with providedDelay := overrideProvidedDelay }
  (r.1, { r.2 with providedDelay := c.providedDelay })

/-- `used_keys`. -/
def Checker.usedKeySet : List PublicKey :=
  c.providedKeys.filter c.usedKeys

/-- `all_keys_used`. -/
def Checker.allKeysUsed : Bool := c.providedKeys.all c.usedKeys

end Authority
