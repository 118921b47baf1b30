import EosForce.AuthorityProofs

/-! # Authority decisions are derivations

    Which permissions a set of keys gives is a least fixed point: a permission
    is derivable if it was provided, or if the entries of its authority that
    are derivable outweigh the threshold.  A checker that says yes is right
    about it, over any references between permissions.  A checker that says no
    is right about it where the references below the permission have no cycle
    and do not exceed the depth limit; otherwise the cache may hold a no that
    was only due to a permission still being evaluated, or to the depth at
    which it was first met. -/

namespace Authority

open ChainTypes TrxTypes Tally Relation

/-! ## Derivable permissions -/

/-- A permission that was provided, by itself or for its whole account. -/
def Provided (permissions : List PermissionLevel) (level : PermissionLevel) : Prop :=
  level ∈ permissions ∨ ⟨level.actor, noName⟩ ∈ permissions

instance (permissions : List PermissionLevel) (level : PermissionLevel) :
    Decidable (Provided permissions level) := by
  unfold Provided
  infer_instance

open Classical in
/-- The weight of an authority's keys, waits and accounts under a set of keys,
    a delay and a set of permissions. -/
noncomputable def weightOf (keys : List PublicKey) (delay : Int) (levels : Set PermissionLevel)
    (auth : Auth) : Nat :=
  ((auth.keys.filter fun e => decide (e.key ∈ keys)).map (·.weight.toNat)).sum +
  ((auth.waits.filter fun e =>
    decide ((e.waitSec.toNat : Int) * 1000000 ≤ delay)).map (·.weight.toNat)).sum +
  ((auth.accounts.filter fun e => decide (e.permission ∈ levels)).map (·.weight.toNat)).sum

/-- The entries that add to that weight. -/
def Counts (keys : List PublicKey) (delay : Int) (levels : Set PermissionLevel) : Entry → Prop
  | .account e => e.permission ∈ levels
  | .key e => e.key ∈ keys
  | .wait e => (e.waitSec.toNat : Int) * 1000000 ≤ delay

open Classical in
theorem gained_entries (keys : List PublicKey) (delay : Int) (levels : Set PermissionLevel)
    (auth : Auth) :
    gained Entry.weight (Counts keys delay levels) auth.entries =
      weightOf keys delay levels auth := by
  have haccounts := gained_map Entry.weight (Counts keys delay levels)
    Entry.account (fun e => e.permission ∈ levels) (fun _ => Iff.rfl) auth.accounts
  have hkeys := gained_map Entry.weight (Counts keys delay levels)
    Entry.key (fun e => e.key ∈ keys) (fun _ => Iff.rfl) auth.keys
  have hwaits := gained_map Entry.weight (Counts keys delay levels)
    Entry.wait (fun e => (e.waitSec.toNat : Int) * 1000000 ≤ delay) (fun _ => Iff.rfl) auth.waits
  rw [Auth.entries, gained_append, gained_append, haccounts, hkeys, hwaits, weightOf]
  have hcomm : ∀ a b c : Nat, a + b + c = b + c + a := by omega
  exact hcomm _ _ _

theorem weightOf_mono {keys keys' : List PublicKey} {delay : Int}
    {levels levels' : Set PermissionLevel} (hkeys : keys ⊆ keys') (hlevels : levels ⊆ levels')
    (auth : Auth) : weightOf keys delay levels auth ≤ weightOf keys' delay levels' auth := by
  rw [← gained_entries, ← gained_entries]
  apply gained_mono
  intro e _ he
  cases e with
  | account e => exact hlevels he
  | key e => exact hkeys he
  | wait e => exact he

/-- One round of derivation. -/
noncomputable def derivation (store : AuthorityMap) (keys : List PublicKey)
    (permissions : List PermissionLevel) (delay : Int) :
    Set PermissionLevel →o Set PermissionLevel where
  toFun levels := { level | Provided permissions level ∨
    ∃ auth, store.permissionToAuthority level = some auth ∧
      auth.threshold.toNat ≤ weightOf keys delay levels auth }
  monotone' := by
    intro levels levels' hsub level hlevel
    rcases hlevel with hprov | ⟨auth, hauth, hweight⟩
    · exact Or.inl hprov
    · exact Or.inr ⟨auth, hauth, hweight.trans (weightOf_mono (List.Subset.refl keys) hsub auth)⟩

/-- The permissions that keys, provided permissions and a delay give. -/
noncomputable def derivable (store : AuthorityMap) (keys : List PublicKey)
    (permissions : List PermissionLevel) (delay : Int) : Set PermissionLevel :=
  OrderHom.lfp (derivation store keys permissions delay)

section Derivable

variable {store : AuthorityMap} {keys keys' : List PublicKey} {permissions : List PermissionLevel}
  {delay : Int} {level : PermissionLevel}

theorem mem_derivable :
    level ∈ derivable store keys permissions delay ↔ Provided permissions level ∨
      ∃ auth, store.permissionToAuthority level = some auth ∧
        auth.threshold.toNat ≤
          weightOf keys delay (derivable store keys permissions delay) auth := by
  have hfix : derivation store keys permissions delay (derivable store keys permissions delay) =
      derivable store keys permissions delay :=
    OrderHom.map_lfp (derivation store keys permissions delay)
  conv_lhs => rw [← hfix]
  rfl

/-- More keys give more permissions. -/
theorem derivable_mono (hkeys : keys ⊆ keys') :
    derivable store keys permissions delay ⊆ derivable store keys' permissions delay := by
  apply OrderHom.lfp_le
  intro level hlevel
  rw [mem_derivable]
  rcases hlevel with hprov | ⟨auth, hauth, hweight⟩
  · exact Or.inl hprov
  · exact Or.inr ⟨auth, hauth, hweight.trans (weightOf_mono hkeys (Set.Subset.refl _) auth)⟩

end Derivable

/-! ## One authority -/

/-- The weights of a validated authority fit `uint32_t`. -/
theorem weights_fit {auth : Auth} (h : validate auth = true) :
    (auth.metaPermissions.map Entry.weight).sum < 2 ^ 32 := by
  have hbound := List.sum_le_card_nsmul (auth.metaPermissions.map Entry.weight) (2 ^ 16 - 1) (by
    intro w hw
    obtain ⟨e, -, rfl⟩ := List.mem_map.mp hw
    cases e with
    | account e => exact Nat.le_pred_of_lt e.weight.toNat_lt
    | key e => exact Nat.le_pred_of_lt e.weight.toNat_lt
    | wait e => exact Nat.le_pred_of_lt e.weight.toNat_lt)
  have hlength : auth.metaPermissions.length ≤ 2 ^ 16 := by
    rw [(metaPermissions_perm auth).length_eq]
    simp only [validate, Bool.and_eq_true, decide_eq_true_eq] at h
    simp only [Auth.entries, List.length_append, List.length_map]
    omega
  rw [List.length_map] at hbound
  change _ ≤ _ * _ at hbound
  omega

theorem threshold_pos {auth : Auth} (h : validate auth = true) : 0 < auth.threshold.toNat := by
  simp only [validate, Bool.and_eq_true, decide_eq_true_eq] at h
  have hne : auth.threshold ≠ 0 := h.1.1.1.1.1.2
  refine Nat.pos_of_ne_zero fun h0 => hne ?_
  exact UInt32.toNat_inj.mp h0

/-- Where the weights fit, the loop is a plain tally. -/
theorem tallyWeights_eq (visitor : Entry → Progress → Bool × Progress) (threshold : Nat) :
    ∀ (es : List Entry) (total : Nat) (s : Progress),
      total + (es.map Entry.weight).sum < 2 ^ 32 →
      tallyWeights visitor threshold es total s =
        tally Entry.weight visitor threshold es total s := by
  intro es
  induction es with
  | nil =>
    intro total s _
    rfl
  | cons e es ih =>
    intro total s hfit
    rw [List.map_cons, List.sum_cons] at hfit
    have hadd : (if (visitor e s).1 then addU32 total e.weight else total) =
        total + added Entry.weight visitor e s := by
      rw [added]
      split
      · exact addU32_of_lt (by omega)
      · rfl
    have hle : added Entry.weight visitor e s ≤ e.weight := by
      rw [added]
      split
      · exact Nat.le_refl _
      · exact Nat.zero_le _
    simp only [tallyWeights, tally, hadd]
    rw [ih _ _ (by omega)]

section OneAuthority

variable (c : Checker) (account : PermissionLevel → Progress → Bool × Progress)
  (levels : Set PermissionLevel) (I : PermissionCache → Prop) (s : Progress) {auth : Auth}

/-- The tally over the entries of an authority. -/
def authorityTally (auth : Auth) : Bool × Progress :=
  tally Entry.weight (visit c account) auth.threshold.toNat auth.metaPermissions 0 s

theorem satisfiedAuthority_eq (hvalid : validate auth = true) :
    satisfiedAuthority c account auth s =
      if (authorityTally c account s auth).1 then authorityTally c account s auth
      else (false, { (authorityTally c account s auth).2 with usedKeys := s.usedKeys }) := by
  have heq := tallyWeights_eq (visit c account) auth.threshold.toNat
    auth.metaPermissions 0 s (by rw [Nat.zero_add]; exact weights_fit hvalid)
  simp only [satisfiedAuthority, heq]
  rfl

/-- What the loop of an authority finds stays; only marks are taken back. -/
theorem satisfiedAuthority_spec (hvalid : validate auth = true) :
    (satisfiedAuthority c account auth s).1 = (authorityTally c account s auth).1 ∧
      (satisfiedAuthority c account auth s).2.cachedPermissions =
        (authorityTally c account s auth).2.cachedPermissions := by
  rw [satisfiedAuthority_eq c account s hvalid]
  split
  · exact ⟨rfl, rfl⟩
  · rename_i hfalse
    exact ⟨(Bool.eq_false_of_not_eq_true hfalse).symm, rfl⟩

theorem mem_accounts {e : PermissionLevelWeight} (h : .account e ∈ auth.metaPermissions) :
    e ∈ auth.accounts := by
  have hmem := (metaPermissions_perm auth).mem_iff.mp h
  simpa [Auth.entries] using hmem

/-- An authority tells whether it has the weight, if its account entries tell
    whether they count. -/
theorem satisfiedAuthority_tells (full : Prop) (hvalid : validate auth = true)
    (haccount : ∀ i e, (full → Met Entry.weight (Counts c.providedKeys c.providedDelay levels)
        auth.threshold.toNat auth.metaPermissions i (.account e)) →
      ∀ s : Progress, I s.cachedPermissions →
      I (account e.permission s).2.cachedPermissions ∧
        Tells full ((account e.permission s).1 = true) (e.permission ∈ levels))
    (hI : I s.cachedPermissions) :
    I (satisfiedAuthority c account auth s).2.cachedPermissions ∧
      Tells full ((satisfiedAuthority c account auth s).1 = true)
        (auth.threshold.toNat ≤ weightOf c.providedKeys c.providedDelay levels auth) := by
  obtain ⟨hres, hcache⟩ := satisfiedAuthority_spec c account s hvalid
  rw [hres, hcache, ← gained_entries, ← gained_perm (metaPermissions_perm auth)]
  refine tally_tells Entry.weight (visit c account) auth.threshold.toNat full
    (Counts c.providedKeys c.providedDelay levels) (fun s => I s.cachedPermissions)
    auth.metaPermissions ?_ auth.metaPermissions 0 0 s rfl hI (Nat.zero_le _)
    (fun _ => Nat.le_refl 0) (threshold_pos hvalid)
  intro i e _ hmet s hs
  cases e with
  | account e => exact haccount i e hmet s hs
  | key e =>
    rw [visit, Counts, Tells]
    split <;> simp_all
  | wait e => exact ⟨hs, of_decide_eq_true, fun _ h => decide_eq_true h⟩

end OneAuthority

/-! ## Yes is right -/

section Sound

variable {c : Checker} {cache : PermissionCache} {level : PermissionLevel}

/-- The permissions that a checker should find. -/
noncomputable abbrev Checker.derivable (c : Checker) : Set PermissionLevel :=
  Authority.derivable c.store c.providedKeys c.providedPermissions c.providedDelay

/-- What a cache says of provided permissions, and that its yes is right. -/
structure CacheSound (c : Checker) (cache : PermissionCache) : Prop where
  provided : ∀ level ∈ c.providedPermissions, cache level = some .permissionSatisfied
  wildcard : ∀ actor, cache ⟨actor, noName⟩ ≠ none → ⟨actor, noName⟩ ∈ c.providedPermissions
  satisfied : ∀ level, cache level = some .permissionSatisfied → level ∈ c.derivable

theorem initial_some {status : CacheStatus} (h : c.initializePermissionCache level = some status) :
    level ∈ c.providedPermissions ∧ status = .permissionSatisfied := by
  rw [Checker.initializePermissionCache] at h
  split at h
  · next hmem => exact ⟨hmem, (Option.some.inj h).symm⟩
  · cases h

theorem cacheSound_initial (c : Checker) : CacheSound c c.initializePermissionCache where
  provided := fun level h => if_pos h
  wildcard := by
    intro actor h
    by_contra hnot
    exact h (if_neg hnot)
  satisfied := fun _ h => mem_derivable.mpr (Or.inl (Or.inl (initial_some h).1))

/-- A permission that the cache does not know was not provided. -/
theorem CacheSound.not_provided (h : CacheSound c cache)
    (hnone : permissionStatusInCache cache level = none) :
    ¬ Provided c.providedPermissions level := by
  rw [permissionStatusInCache] at hnone
  rintro (hmem | hmem)
  · rw [h.provided level hmem] at hnone
    exact nomatch hnone
  · split at hnone
    · exact nomatch hnone
    · rw [h.provided _ hmem] at hnone
      exact nomatch hnone

/-- What a known status is about: the permission itself, or an account that
    was provided. -/
theorem CacheSound.status (h : CacheSound c cache) {status : CacheStatus}
    (hsome : permissionStatusInCache cache level = some status) :
    cache level = some status ∨
      status = .permissionSatisfied ∧ Provided c.providedPermissions level := by
  rw [permissionStatusInCache] at hsome
  split at hsome
  · rename_i hcached
    exact Or.inl (hcached.trans hsome)
  · have hmem := h.wildcard level.actor (by rw [hsome]; exact Option.some_ne_none _)
    rw [h.provided _ hmem] at hsome
    exact Or.inr ⟨(Option.some.inj hsome).symm, Or.inr hmem⟩

theorem permission_named {store : AuthorityMap} {auth : Auth}
    (h : store.permissionToAuthority level = some auth) :
    level.permission ≠ noName ∧ store.authority level = some auth := by
  rw [AuthorityMap.permissionToAuthority] at h
  split at h
  · exact nomatch h
  · rename_i hnamed
    exact ⟨fun he => hnamed (Or.inr he), h⟩

theorem assign_some {l : PermissionLevel} {status found : CacheStatus}
    (h : cache.assign level status l = some found) :
    l = level ∧ status = found ∨ l ≠ level ∧ cache l = some found := by
  rw [PermissionCache.assign] at h
  split at h
  · next he => exact Or.inl ⟨he, Option.some.inj h⟩
  · next he => exact Or.inr ⟨he, h⟩

/-- A status for a permission that is stored and was not known. -/
theorem CacheSound.assign (h : CacheSound c cache) {status : CacheStatus}
    (hprov : ¬ Provided c.providedPermissions level) (hnamed : level.permission ≠ noName)
    (hstatus : status = .permissionSatisfied → level ∈ c.derivable) :
    CacheSound c (cache.assign level status) where
  provided := by
    intro l hl
    have hne : l ≠ level := fun he => hprov (Or.inl (he ▸ hl))
    rw [PermissionCache.assign, if_neg hne]
    exact h.provided l hl
  wildcard := by
    intro actor hsome
    have hne : (⟨actor, noName⟩ : PermissionLevel) ≠ level := fun he => hnamed (he ▸ rfl)
    rw [PermissionCache.assign, if_neg hne] at hsome
    exact h.wildcard actor hsome
  satisfied := by
    intro l hl
    rcases assign_some hl with ⟨rfl, heq⟩ | ⟨-, hl⟩
    · exact hstatus heq
    · exact h.satisfied l hl

theorem visitPermission_sound (c : Checker) (hvalid : c.store.Valid) :
    ∀ (depthLeft : Nat) (level : PermissionLevel) (s : Progress),
      CacheSound c s.cachedPermissions →
      CacheSound c (visitPermission c depthLeft level s).2.cachedPermissions ∧
        ((visitPermission c depthLeft level s).1 = true → level ∈ c.derivable) := by
  have hknown : ∀ (level : PermissionLevel) (s : Progress), CacheSound c s.cachedPermissions →
      permissionStatusInCache s.cachedPermissions level = some .permissionSatisfied →
      level ∈ c.derivable := by
    intro level s hs hstatus
    rcases hs.status hstatus with hcached | ⟨-, hprov⟩
    · exact hs.satisfied level hcached
    · exact mem_derivable.mpr (Or.inl hprov)
  intro depthLeft
  -- on the depth that is left; the cache is sound throughout
  induction depthLeft with
  | zero =>
    intro level s hs
    exact ⟨hs, fun h => hknown level s hs (of_decide_eq_true h)⟩
  | succ depthLeft ih =>
    intro level s hs
    rw [visitPermission]
    split
    · rename_i status hstatus
      exact ⟨hs, fun h => hknown level s hs ((of_decide_eq_true h) ▸ hstatus)⟩
    · rename_i hnone
      split
      · exact ⟨hs, fun h => nomatch h⟩
      · rename_i auth hauth
        obtain ⟨hnamed, hstored⟩ := permission_named hauth
        have hprov := hs.not_provided hnone
        have hstart : CacheSound c (s.cachedPermissions.assign level .beingEvaluated) :=
          hs.assign hprov hnamed fun h => nomatch h
        obtain ⟨hend, hweight⟩ := satisfiedAuthority_tells c (visitPermission c depthLeft)
          c.derivable (CacheSound c)
          { s with cachedPermissions := s.cachedPermissions.assign level .beingEvaluated } False
          (hvalid level auth hstored)
          (fun _ e _ s hs => (ih e.permission s hs).imp_right (⟨·, False.elim⟩)) hstart
        have hyes : _ → level ∈ c.derivable :=
          fun h => mem_derivable.mpr (Or.inr ⟨auth, hauth, hweight.1 h⟩)
        refine ⟨hend.assign hprov hnamed fun h => ?_, hyes⟩
        split at h
        · rename_i hres
          exact hyes hres
        · exact nomatch h

end Sound

/-! ## No is right -/

/-- A permission and one that a checker comes to on its behalf: what counts
    before it does not have the weight. -/
def Checker.Needs (c : Checker) (level other : PermissionLevel) : Prop :=
  ¬ Provided c.providedPermissions level ∧
    ∃ auth, c.store.permissionToAuthority level = some auth ∧ ∃ i e, e.permission = other ∧
      Met Entry.weight (Counts c.providedKeys c.providedDelay c.derivable) auth.threshold.toNat
        auth.metaPermissions i (.account e)

/-- Neither guard of a checker, the depth limit or that against cycles, keeps
    it from a permission that is derivable; `busy` lie on the way already. -/
def Checker.ClearBelow (c : Checker) : Nat → List PermissionLevel → PermissionLevel → Prop
  | 0, busy, level => level ∈ c.derivable → Provided c.providedPermissions level ∧ level ∉ busy
  | depthLeft + 1, busy, level =>
    if level ∈ busy then level ∉ c.derivable
    else ∀ other, c.Needs level other → ClearBelow c depthLeft (level :: busy) other

/-- The same for a whole call. -/
def Checker.Clear (c : Checker) (level : PermissionLevel) : Prop :=
  c.ClearBelow c.recursionDepthLimit [] level

section Exact

variable {c : Checker} {cache : PermissionCache} {level other : PermissionLevel}
  {busy : List PermissionLevel}

/-- A cache that is right in all it says; what is still being evaluated is
    known to the caller. -/
structure CacheExact (c : Checker) (busy : List PermissionLevel) (cache : PermissionCache) :
    Prop where
  sound : CacheSound c cache
  unsatisfied : ∀ level, cache level = some .permissionUnsatisfied → level ∉ c.derivable
  evaluated : ∀ level, cache level = some .beingEvaluated ↔ level ∈ busy

theorem cacheExact_initial (c : Checker) : CacheExact c [] c.initializePermissionCache where
  sound := cacheSound_initial c
  unsatisfied := by
    intro level h
    cases (initial_some h).2
  evaluated := by
    intro level
    refine ⟨fun h => ?_, fun h => nomatch h⟩
    cases (initial_some h).2

/-- A permission that the cache does not know is not being evaluated. -/
theorem CacheExact.not_busy (h : CacheExact c busy cache)
    (hnone : permissionStatusInCache cache level = none) : level ∉ busy := by
  intro hb
  rw [permissionStatusInCache, (h.evaluated level).mpr hb] at hnone
  cases hnone

theorem CacheExact.begin (h : CacheExact c busy cache)
    (hnone : permissionStatusInCache cache level = none) (hnamed : level.permission ≠ noName) :
    CacheExact c (level :: busy) (cache.assign level .beingEvaluated) where
  sound := h.sound.assign (h.sound.not_provided hnone) hnamed fun h => nomatch h
  unsatisfied := by
    intro l hl
    rcases assign_some hl with ⟨-, heq⟩ | ⟨-, hl⟩
    · cases heq
    · exact h.unsatisfied l hl
  evaluated := by
    intro l
    rw [PermissionCache.assign, List.mem_cons, ← h.evaluated]
    split <;> simp_all

theorem CacheExact.finish {satisfied : Bool} (h : CacheExact c (level :: busy) cache)
    (hnew : level ∉ busy) (hprov : ¬ Provided c.providedPermissions level)
    (hnamed : level.permission ≠ noName) (hres : satisfied = true ↔ level ∈ c.derivable) :
    CacheExact c busy (cache.assign level
      (if satisfied then .permissionSatisfied else .permissionUnsatisfied)) where
  sound := by
    refine h.sound.assign hprov hnamed fun hs => hres.mp ?_
    split at hs
    · rename_i ht
      exact ht
    · exact nomatch hs
  unsatisfied := by
    intro l hl
    rcases assign_some hl with ⟨rfl, heq⟩ | ⟨-, hl⟩
    · intro hd
      rw [if_pos (hres.mpr hd)] at heq
      cases heq
    · exact h.unsatisfied l hl
  evaluated := by
    intro l
    rw [PermissionCache.assign]
    split
    · next he =>
      subst he
      refine iff_of_false (fun heq => ?_) hnew
      split at heq <;> cases heq
    · next hne => rw [h.evaluated, List.mem_cons, or_iff_right hne]

/-- A known status is right where no derivable permission is met again. -/
theorem CacheExact.known (h : CacheExact c busy cache) {status : CacheStatus}
    (hsome : permissionStatusInCache cache level = some status)
    (hbusy : level ∈ busy → level ∉ c.derivable) :
    status = .permissionSatisfied ↔ level ∈ c.derivable := by
  rcases h.sound.status hsome with hcached | ⟨rfl, hprov⟩
  · cases status with
    | permissionSatisfied => exact ⟨fun _ => h.sound.satisfied level hcached, fun _ => rfl⟩
    | permissionUnsatisfied =>
      exact ⟨fun h => (nomatch h), fun hd => absurd hd (h.unsatisfied level hcached)⟩
    | beingEvaluated =>
      exact ⟨fun h => (nomatch h), fun hd => absurd hd (hbusy ((h.evaluated level).mp hcached))⟩
  · exact ⟨fun _ => mem_derivable.mpr (Or.inl hprov), fun _ => rfl⟩

/-- A permission that is not provided is derivable by its authority. -/
theorem derivable_by_authority {auth : Auth} (hprov : ¬ Provided c.providedPermissions level)
    (hauth : c.store.permissionToAuthority level = some auth) :
    level ∈ c.derivable ↔
      auth.threshold.toNat ≤ weightOf c.providedKeys c.providedDelay c.derivable auth := by
  rw [Checker.derivable, mem_derivable, hauth]
  constructor
  · rintro (h | ⟨auth', h, hweight⟩)
    · exact absurd h hprov
    · rw [Option.some.inj h]
      exact hweight
  · intro h
    exact Or.inr ⟨auth, rfl, h⟩

theorem not_derivable (hprov : ¬ Provided c.providedPermissions level)
    (hauth : c.store.permissionToAuthority level = none) : level ∉ c.derivable := by
  rw [Checker.derivable, mem_derivable, hauth]
  rintro (h | ⟨auth, h, -⟩)
  · exact hprov h
  · exact nomatch h

theorem visitPermission_exact (c : Checker) (hvalid : c.store.Valid) :
    ∀ (depthLeft : Nat) (level : PermissionLevel) (busy : List PermissionLevel) (s : Progress),
      CacheExact c busy s.cachedPermissions → c.ClearBelow depthLeft busy level →
      CacheExact c busy (visitPermission c depthLeft level s).2.cachedPermissions ∧
        ((visitPermission c depthLeft level s).1 = true ↔ level ∈ c.derivable) := by
  intro depthLeft
  -- on the depth that is left; what is being evaluated lies on the way
  induction depthLeft with
  | zero =>
    intro level busy s hs hclear
    refine ⟨hs, ?_⟩
    show decide (_ = _) = true ↔ _
    rw [decide_eq_true_iff]
    cases hstatus : permissionStatusInCache s.cachedPermissions level with
    | some status =>
      rw [Option.some_inj]
      exact hs.known hstatus fun hb hd => (hclear hd).2 hb
    | none =>
      have hprov := hs.sound.not_provided hstatus
      exact ⟨fun h => (nomatch h), fun h => absurd (hclear h).1 hprov⟩
  | succ depthLeft ih =>
    intro level busy s hs hclear
    rw [visitPermission]
    rw [Checker.ClearBelow] at hclear
    split
    · rename_i status hstatus
      refine ⟨hs, ?_⟩
      rw [decide_eq_true_iff]
      refine hs.known hstatus fun hb => ?_
      rwa [if_pos hb] at hclear
    · rename_i hnone
      have hprov := hs.sound.not_provided hnone
      split
      · rename_i hauth
        exact ⟨hs, fun h => (nomatch h), fun h => absurd h (not_derivable hprov hauth)⟩
      · rename_i auth hauth
        obtain ⟨hnamed, hstored⟩ := permission_named hauth
        have hnew := hs.not_busy hnone
        rw [if_neg hnew] at hclear
        obtain ⟨hend, hweight⟩ := satisfiedAuthority_tells c (visitPermission c depthLeft)
          c.derivable (CacheExact c (level :: busy))
          { s with cachedPermissions := s.cachedPermissions.assign level .beingEvaluated } True
          (hvalid level auth hstored) (by
            intro i e hmet s hs
            have hneeds : c.Needs level e.permission :=
              ⟨hprov, auth, hauth, i, e, rfl, hmet trivial⟩
            exact (ih e.permission _ s hs (hclear _ hneeds)).imp_right
              fun h => ⟨h.mp, fun _ => h.mpr⟩) (hs.begin hnone hnamed)
        have hres := (Iff.intro hweight.1 (hweight.2 trivial)).trans
          (derivable_by_authority hprov hauth).symm
        exact ⟨hend.finish hnew hprov hnamed hres, hres⟩

end Exact

/-! ## References without cycles -/

variable (store : AuthorityMap)

/-- A permission and one that its authority names. -/
def Refers (level other : PermissionLevel) : Prop :=
  ∃ auth, store.permissionToAuthority level = some auth ∧
    ∃ e ∈ auth.accounts, e.permission = other

/-- The references below a permission have no cycle. -/
def AcyclicBelow (level : PermissionLevel) : Prop :=
  ∀ x, ReflTransGen (Refers store) level x → ¬ TransGen (Refers store) x x

/-- No path of references from a permission has more than `n` permissions. -/
def PathsWithin (n : Nat) (level : PermissionLevel) : Prop :=
  ∀ path : List PermissionLevel, (level :: path).IsChain (Refers store) →
    (∀ x ∈ level :: path, store.permissionToAuthority x ≠ none) → (level :: path).length ≤ n

section Acyclic

variable {store : AuthorityMap} {c : Checker} {level other : PermissionLevel} {n : Nat}

theorem PathsWithin.zero (h : PathsWithin store 0 level) :
    store.permissionToAuthority level = none := by
  by_contra hsome
  have hlen := h [] (List.IsChain.singleton level) (by simpa using hsome)
  exact absurd hlen (by simp)

theorem PathsWithin.step (h : PathsWithin store (n + 1) level) (href : Refers store level other) :
    PathsWithin store n other := by
  intro path hchain hstored
  have hlevel : store.permissionToAuthority level ≠ none := by
    obtain ⟨auth, hauth, -⟩ := href
    rw [hauth]
    exact Option.some_ne_none auth
  have hlen := h (other :: path) (List.IsChain.cons_cons href hchain)
    (List.forall_mem_cons.mpr ⟨hlevel, hstored⟩)
  exact Nat.le_of_succ_le_succ hlen

theorem Checker.Needs.refers (h : c.Needs level other) : Refers c.store level other := by
  obtain ⟨-, auth, hauth, i, e, rfl, hget, -⟩ := h
  exact ⟨auth, hauth, e, mem_accounts (List.mem_of_getElem? hget), rfl⟩

/-- Where the references have no cycle and do not exceed the depth limit, no
    guard is in the way. -/
theorem clearBelow_of_acyclic (c : Checker) :
    ∀ (n : Nat) (busy : List PermissionLevel) (level : PermissionLevel),
      (∀ b ∈ busy, TransGen (Refers c.store) b level) → AcyclicBelow c.store level →
      PathsWithin c.store n level → c.ClearBelow n busy level := by
  intro n
  -- what lies on the way is above the level
  induction n with
  | zero =>
    intro busy level hbusy hacyclic hpaths hd
    have hprov := not_imp_comm.mp (not_derivable · hpaths.zero) (not_not.mpr hd)
    exact ⟨hprov, fun hb => hacyclic level .refl (hbusy level hb)⟩
  | succ n ih =>
    intro busy level hbusy hacyclic hpaths
    rw [Checker.ClearBelow, if_neg fun hb => hacyclic level .refl (hbusy level hb)]
    intro other hneeds
    refine ih _ other (List.forall_mem_cons.mpr ⟨.single hneeds.refers, ?_⟩) ?_
      (hpaths.step hneeds.refers)
    · exact fun b hb => (hbusy b hb).tail hneeds.refers
    · exact fun x hx => hacyclic x (hx.head hneeds.refers)

end Acyclic

/-! ## A checker in use -/

/-- A checker before its first call. -/
def fresh (recursionDepthLimit : Nat) (providedKeys : List PublicKey)
    (providedPermissions : List PermissionLevel) (providedDelay : Int) : Checker where
  store := store
  recursionDepthLimit := recursionDepthLimit
  providedKeys := providedKeys
  providedPermissions := providedPermissions
  providedDelay := providedDelay

/-- The overloads of `satisfied`. -/
inductive SatisfiedCall where
  | permission (level : PermissionLevel)
  | permissionDelayed (level : PermissionLevel) (overrideProvidedDelay : Int)
  | authority (auth : Auth)
  | authorityDelayed (auth : Auth) (overrideProvidedDelay : Int)

def SatisfiedCall.perform (c : Checker) : SatisfiedCall → Bool × Checker
  | .permission level => c.satisfied level
  | .permissionDelayed level delay => c.withDelay delay fun c => c.satisfied level
  | .authority auth => c.satisfiedBy auth
  | .authorityDelayed auth delay => c.withDelay delay fun c => c.satisfiedBy auth

/-- The checker after some calls. -/
def afterCalls (c : Checker) (calls : List SatisfiedCall) : Checker :=
  calls.foldl (fun c call => (call.perform c).2) c

/-- A call leaves marks on keys and nothing else. -/
theorem perform_keeps (c : Checker) (call : SatisfiedCall) :
    ∃ used, (call.perform c).2 = { c with usedKeys := used } := by
  cases call with
  | permission | permissionDelayed | authority | authorityDelayed => exact ⟨_, rfl⟩

theorem afterCalls_keeps (calls : List SatisfiedCall) :
    ∀ c : Checker, ∃ used, afterCalls c calls = { c with usedKeys := used } := by
  induction calls with
  | nil =>
    intro c
    exact ⟨c.usedKeys, rfl⟩
  | cons call calls ih =>
    intro c
    obtain ⟨used, hcall⟩ := perform_keeps c call
    obtain ⟨used', hrest⟩ := ih (call.perform c).2
    refine ⟨used', ?_⟩
    show afterCalls (call.perform c).2 calls = _
    rw [hrest, hcall]

theorem satisfied_sound {c : Checker} {level : PermissionLevel}
    (h : (c.satisfied level).1 = true) (hvalid : c.store.Valid) : level ∈ c.derivable :=
  (visitPermission_sound c hvalid _ level _ (cacheSound_initial c)).2 h

theorem satisfied_exact (c : Checker) {level : PermissionLevel} (hclear : c.Clear level)
    (hvalid : c.store.Valid) : (c.satisfied level).1 = true ↔ level ∈ c.derivable :=
  (visitPermission_exact c hvalid _ level [] _ (cacheExact_initial c) hclear).2

/-! ## Stores given by a list -/

/-- The store that holds the permissions of a list. -/
def Store.ofList (permissions : List (PermissionLevel × Auth))
    (h : ∀ p ∈ permissions, validate p.2 = true) : Store where
  authority level := (permissions.find? fun p => decide (p.1 = level)).map (·.2)
  valid := by
    intro level auth hfind
    obtain ⟨p, hp, rfl⟩ := Option.map_eq_some_iff.mp hfind
    exact h p (List.mem_of_find?_eq_some hp)

section Rank

variable {store : AuthorityMap} {rank : PermissionLevel → Nat}

/-- Where references go down, they have no cycle. -/
theorem acyclicBelow_of_rank (h : ∀ a b, Refers store a b → rank b < rank a)
    (level : PermissionLevel) : AcyclicBelow store level := by
  have hdown : ∀ {a b}, TransGen (Refers store) a b → rank b < rank a := by
    intro a b hab
    induction hab with
    | single href => exact h _ _ href
    | tail _ href ih => exact (h _ _ href).trans ih
  intro x _ hcycle
  exact absurd (hdown hcycle) (Nat.lt_irrefl _)

/-- Where references go down, a path has at most as many permissions as there
    are steps down. -/
theorem pathsWithin_of_rank (h : ∀ a b, Refers store a b → rank b < rank a)
    (level : PermissionLevel) : PathsWithin store (rank level + 1) level := by
  intro path hchain hstored
  induction path generalizing level with
  | nil => exact Nat.succ_le_succ (Nat.zero_le _)
  | cons next path ih =>
    obtain ⟨href, hrest⟩ := List.isChain_cons_cons.mp hchain
    have hlen := ih next hrest fun x hx => hstored x (List.mem_cons_of_mem _ hx)
    have hlt := h level next href
    rw [List.length_cons] at hlen ⊢
    rw [List.length_cons]
    omega

theorem refers_ofList (rank : PermissionLevel → Nat)
    {permissions : List (PermissionLevel × Auth)}
    (hvalid : ∀ p ∈ permissions, validate p.2 = true)
    (h : ∀ p ∈ permissions, ∀ e ∈ p.2.accounts, rank e.permission < rank p.1)
    (a b : PermissionLevel) (href : Refers (Store.ofList permissions hvalid) a b) :
    rank b < rank a := by
  obtain ⟨auth, hauth, e, he, rfl⟩ := href
  obtain ⟨p, hp, rfl⟩ := Option.map_eq_some_iff.mp (permission_named hauth).2
  have hkey : p.1 = a := by simpa using List.find?_some hp
  exact hkey ▸ h p (List.mem_of_find?_eq_some hp) e he

end Rank

/-- The active permission of an account. -/
def activeOf (actor : UInt64) : PermissionLevel := ⟨⟨actor⟩, N.active⟩

/-- Accounts counted by their names. -/
def actorRank (level : PermissionLevel) : Nat := level.actor.value.toNat

/-- **AUTHORITY DECISIONS ARE DERIVATIONS**: whatever was asked of a checker
    before, its yes means that the permission is derivable, and a derivable
    permission gets a yes where the references below it have no cycle and no
    path among them exceeds the depth limit. -/
theorem satisfied_iff_derivable (store : Store) (recursionDepthLimit : Nat)
    (providedKeys : List PublicKey) (providedPermissions : List PermissionLevel)
    (providedDelay : Int) (calls : List SatisfiedCall) (level : PermissionLevel) :
    ((((afterCalls (fresh store recursionDepthLimit providedKeys providedPermissions
        providedDelay) calls).satisfied level).1 = true →
      level ∈ derivable store providedKeys providedPermissions providedDelay) ∧
    (AcyclicBelow store level → PathsWithin store recursionDepthLimit level →
      level ∈ derivable store providedKeys providedPermissions providedDelay →
      ((afterCalls (fresh store recursionDepthLimit providedKeys providedPermissions
        providedDelay) calls).satisfied level).1 = true)) := by
  obtain ⟨used, hcalls⟩ := afterCalls_keeps calls
    (fresh store recursionDepthLimit providedKeys providedPermissions providedDelay)
  rw [hcalls]
  constructor
  · intro h
    exact satisfied_sound h store.valid
  · intro hacyclic hpaths h
    exact (satisfied_exact _ (clearBelow_of_acyclic _ _ [] level nofun hacyclic hpaths)
      store.valid).mpr h

/-- The second permission needs the first and a key of its own. -/
def twoSteps : List (PermissionLevel × Auth) :=
  [(activeOf 1, { threshold := 1, keys := [⟨[1], 1⟩] }),
    (activeOf 2, { threshold := 2, keys := [⟨[2], 1⟩], accounts := [⟨activeOf 1, 1⟩] })]

theorem twoSteps_valid : ∀ p ∈ twoSteps, validate p.2 = true := by decide

theorem twoSteps_rank : ∀ p ∈ twoSteps, ∀ e ∈ p.2.accounts,
    actorRank e.permission < actorRank p.1 := by
  decide

theorem satisfied_iff_derivable_two :
    activeOf 2 ∈ derivable (Store.ofList twoSteps twoSteps_valid) [[1], [2]] [] 0 ∧
      ((afterCalls (fresh (Store.ofList twoSteps twoSteps_valid) 3 [[1], [2]] [] 0)
        [.permission (activeOf 1)]).satisfied (activeOf 2)).1 = true := by
  have hyes : ((afterCalls (fresh (Store.ofList twoSteps twoSteps_valid) 3 [[1], [2]] [] 0)
      [.permission (activeOf 1)]).satisfied (activeOf 2)).1 = true := by
    decide +kernel
  have hboth := satisfied_iff_derivable (Store.ofList twoSteps twoSteps_valid) 3 [[1], [2]] [] 0
    [.permission (activeOf 1)] (activeOf 2)
  have hdown := refers_ofList actorRank twoSteps_valid twoSteps_rank
  exact ⟨hboth.1 hyes, hboth.2 (acyclicBelow_of_rank hdown _) (pathsWithin_of_rank hdown _)
    (hboth.1 hyes)⟩

/-- **MORE SIGNATURES KEEP AUTHORITY** where, with them, no guard of the
    checker keeps it from a permission that is derivable. -/
theorem satisfied_mono {store : Store} {recursionDepthLimit : Nat} {keys keys' : List PublicKey}
    (providedPermissions : List PermissionLevel) (providedDelay : Int) {level : PermissionLevel}
    (hkeys : keys ⊆ keys')
    (hclear : (fresh store recursionDepthLimit keys' providedPermissions providedDelay).Clear level)
    (h : ((fresh store recursionDepthLimit keys providedPermissions providedDelay).satisfied
      level).1 = true) :
    ((fresh store recursionDepthLimit keys' providedPermissions providedDelay).satisfied
      level).1 = true := by
  have hderivable := satisfied_sound h store.valid
  exact (satisfied_exact _ hclear store.valid).mpr (derivable_mono hkeys hderivable)

/-- Permission 1 has a key or needs permission 2, which needs permission 1. -/
def ring : List (PermissionLevel × Auth) :=
  [(activeOf 1, { threshold := 1, keys := [⟨[1], 1⟩], accounts := [⟨activeOf 2, 1⟩] }),
    (activeOf 2, { threshold := 1, accounts := [⟨activeOf 1, 1⟩] })]

theorem ring_valid : ∀ p ∈ ring, validate p.2 = true := by decide

theorem satisfied_mono_ring :
    ((fresh (Store.ofList ring ring_valid) 1 [[1], [2]] [] 0).satisfied (activeOf 1)).1 = true := by
  have hyes : ((fresh (Store.ofList ring ring_valid) 1 [[1]] [] 0).satisfied
      (activeOf 1)).1 = true := by
    decide +kernel
  refine satisfied_mono [] 0 (by decide) ?_ hyes
  -- the key comes first and has the weight
  rintro other ⟨-, auth, hauth, i, e, -, hget, hweight⟩
  obtain rfl : ⟨1, [⟨[1], 1⟩], [⟨activeOf 2, 1⟩], []⟩ = auth := Option.some.inj hauth
  match i with
  | 0 => exact nomatch hget
  | 1 =>
    change gained Entry.weight _ [.key ⟨[1], 1⟩] < 1 at hweight
    simp [gained, Counts, Entry.weight, fresh] at hweight
  | i + 2 => exact nomatch hget

/-- Permissions 2 and 5 refer to each other.  Permission 5 is satisfied when
    it is evaluated first, by permission 2 and its key; it is not when it is
    evaluated on behalf of permission 2. -/
def mutually : List (PermissionLevel × Auth) :=
  [(activeOf 1, ⟨6, [], [⟨activeOf 2, 2⟩, ⟨activeOf 3, 1⟩, ⟨activeOf 4, 3⟩], []⟩),
    (activeOf 2, { threshold := 1, keys := [⟨[1], 1⟩], accounts := [⟨activeOf 5, 2⟩] }),
    (activeOf 3, { threshold := 1, accounts := [⟨activeOf 5, 1⟩] }),
    (activeOf 4, { threshold := 2, keys := [⟨[2], 2⟩], accounts := [⟨activeOf 5, 2⟩] }),
    (activeOf 5, { threshold := 1, accounts := [⟨activeOf 2, 1⟩] })]

theorem mutually_valid : ∀ p ∈ mutually, validate p.2 = true := by decide

/-- Permission 2 lies two steps below permission 3 and three below
    permission 4. -/
def deep : List (PermissionLevel × Auth) :=
  [(activeOf 1, { threshold := 3, accounts := [⟨activeOf 3, 2⟩, ⟨activeOf 4, 1⟩] }),
    (activeOf 2, { threshold := 1, keys := [⟨[1], 1⟩] }),
    (activeOf 3, { threshold := 1, keys := [⟨[2], 2⟩], accounts := [⟨activeOf 2, 1⟩] }),
    (activeOf 4, { threshold := 1, accounts := [⟨activeOf 5, 1⟩] }),
    (activeOf 5, { threshold := 1, accounts := [⟨activeOf 2, 1⟩] })]

theorem deep_valid : ∀ p ∈ deep, validate p.2 = true := by decide

/-- **MORE SIGNATURES CAN LOSE AUTHORITY**: one more key spares the evaluation
    of a permission where it would have been satisfied, and where it is met
    next a cycle, or the depth limit, keeps it from being satisfied. -/
theorem second_key_loses_authority :
    (((fresh (Store.ofList mutually mutually_valid) 6 [[1]] [] 0).satisfied (activeOf 1)).1 = true ∧
      ((fresh (Store.ofList mutually mutually_valid) 6 [[1], [2]] [] 0).satisfied
        (activeOf 1)).1 = false) ∧
    (((fresh (Store.ofList deep deep_valid) 3 [[1]] [] 0).satisfied (activeOf 1)).1 = true ∧
      ((fresh (Store.ofList deep deep_valid) 3 [[1], [2]] [] 0).satisfied
        (activeOf 1)).1 = false) := by
  decide +kernel

end Authority
