import EosForce.PermissionForestProofs

/-! # Every account has its owner and active permission

    They come with the account, and no step takes them away: `deleteauth`
    refuses both names, and no other step removes a permission.  The other way
    round, permissions are only made for accounts that are there. -/

namespace PermissionHeld

open ChainTypes TrxTypes Effect Authority RowTable StateTables
  PermissionStore NativeActions NativeFrame PermissionForest

/-- The names of the accounts. -/
def names (s : State) : List Name := s.accounts.rows.map (·.name)

/-- Accounts have the two permissions, and permissions belong to accounts. -/
structure Held (s : State) : Prop where
  owned : ∀ n ∈ names s, Named s n ownerName ∧ Named s n activeName
  accounted : ∀ p ∈ s.permissions.rows, p.owner ≠ noName → p.owner ∈ names s

variable {s s' : State} {ctx : ActionContext} {vm : Vm} {conf : Conf}

theorem held_blank : Held blank where
  owned := fun _ h => (List.not_mem_nil h).elim
  accounted := fun _ h => (List.not_mem_nil h).elim

/-- Permissions may come, and change their authorities. -/
theorem Held.grown (hs : Held s) (hnames : names s' = names s)
    (hold : ∀ owner name, Named s owner name → Named s' owner name)
    (hnew : ∀ p ∈ s'.permissions.rows, p.owner ≠ noName → p.owner ∈ names s) : Held s' where
  owned := by
    intro n hn
    rw [hnames] at hn
    exact ⟨hold _ _ (hs.owned n hn).1, hold _ _ (hs.owned n hn).2⟩
  accounted := by
    intro p hp howner
    rw [hnames]
    exact hnew p hp howner

theorem Held.congr (hs : Held s) (h : SameAuth s s') : Held s' := by
  refine hs.grown h.accounts (fun owner name hn => ?_) fun p hp => ?_
  · rw [Named, h.permissions]
    exact hn
  · exact hs.accounted p (h.permissions ▸ hp)

theorem held_of_sameAuth {α : Type} {x : StateM α} (hx : Keeps SameAuth x) : Preserves Held x :=
  hx.preserves fun _ _ h hs => hs.congr h

/-- A permission changes nothing but its authority. -/
theorem Held.modified (hs : Held s) {n : Nat} {f : PermissionObject → PermissionObject}
    {hf : ∀ p, (f p).id = p.id} (hpermissions : s'.permissions = s.permissions.modify n f hf)
    (hnames : names s' = names s) (howner : ∀ p, (f p).owner = p.owner)
    (hname : ∀ p, (f p).name = p.name) : Held s' := by
  refine hs.grown hnames (fun owner name hn => ?_) fun p hp => ?_
  · rw [Named, hpermissions]
    exact named_modify hn n f hf howner hname
  · rw [hpermissions] at hp
    obtain ⟨q, hq, rfl⟩ := Serial.mem_modify.mp hp
    split
    · rw [howner q]
      exact hs.accounted q hq
    · exact hs.accounted q hq

/-- A permission of an account that is there. -/
theorem Held.added (hs : Held s) {account name : Name} {parent time : Nat} {auth : Auth}
    (haccount : account ∈ names s) : Held (addPermission account name parent auth time s) := by
  refine hs.grown rfl (fun owner name hn => ?_) fun p hp howner => ?_
  · exact hn.added
  · rcases (Serial.mem_push _).mp hp with hp | rfl
    · exact hs.accounted p hp howner
    · exact haccount

theorem mem_names_of_find {a : Name} {account : Account} (h : s.accounts.find a = some account) :
    a ∈ names s := by
  obtain ⟨hmem, hkey⟩ := Table.find_some h
  exact List.mem_map.mpr ⟨account, hmem, hkey⟩

theorem held_updateauth {update : UpdateAuth} : Preserves Held (updateauth ctx update) := by
  intro s u s' h hs
  obtain ⟨-, -, ⟨account, haccount⟩, parent, -, hend⟩ := updateauth_ok h
  rcases hend with ⟨p, r, -, -, -, rfl⟩ | ⟨-, r, -, rfl⟩
  · exact hs.modified rfl rfl (fun _ => rfl) fun _ => rfl
  · exact (hs.added (mem_names_of_find haccount)).congr ⟨⟨rfl, rfl, rfl⟩, rfl⟩

theorem held_deleteauth {remove : DeleteAuth} : Preserves Held (deleteauth ctx remove) := by
  intro s u s' h hs
  obtain ⟨-, hactive, howner, -, p, r, hfind, -, -, rfl⟩ := deleteauth_ok h
  obtain ⟨-, -, hname⟩ := findByOwner_some hfind
  have hstays : ∀ owner name, name ≠ p.name → Named s owner name →
      Named { dropPermission p s with resources := r } owner name := by
    rintro owner name hne ⟨q, hq, hqo, hqn⟩
    refine ⟨q, Serial.mem_erase.mpr ⟨hq, fun hid => hne ?_⟩, hqo, hqn⟩
    have hp := (findByOwner_some hfind).1
    rw [← Table.eq_of_key (t := s.permissions.table) hq hp hid]
    exact hqn.symm
  constructor
  · intro n hn
    obtain ⟨hn1, hn2⟩ := hs.owned n hn
    exact ⟨hstays _ _ (by rw [hname]; exact howner.symm) hn1,
      hstays _ _ (by rw [hname]; exact hactive.symm) hn2⟩
  · intro q hq
    exact hs.accounted q (Serial.mem_erase.mp hq).1

theorem held_manage {action : ManageAction} : Preserves Held (action.apply ctx) := by
  cases action with
  | updateauth update => exact held_updateauth
  | deleteauth remove => exact held_deleteauth
  | linkauth link =>
    intro s u s' h hs
    obtain ⟨-, -, ⟨hfree, r, -, rfl⟩ | ⟨-, rfl⟩⟩ := linkauth_ok h
    · exact ⟨hs.owned, hs.accounted⟩
    · exact ⟨hs.owned, hs.accounted⟩
  | unlinkauth unlink =>
    intro s u s' h hs
    obtain ⟨l, r, -, -, rfl⟩ := unlinkauth_ok h
    exact ⟨hs.owned, hs.accounted⟩

theorem held_replaceAuth {level : PermissionLevel} {auth : Auth} :
    Preserves Held (replaceAuth level auth) := by
  intro s u s' h hs
  obtain ⟨p, -, -, rfl⟩ := replaceAuth_ok h
  exact hs.modified rfl rfl (fun _ => rfl) fun _ => rfl

/-! ## New accounts -/

/-- An account that is not held yet; the others are. -/
structure HeldBut (name : Name) (s : State) : Prop where
  owned : ∀ n ∈ names s, n ≠ name → Named s n ownerName ∧ Named s n activeName
  accounted : ∀ p ∈ s.permissions.rows, p.owner ≠ noName → p.owner ∈ names s
  there : name ∈ names s

theorem createAccount_heldBut {account : Account} {u : Unit}
    (h : createAccount account s = .ok u s')
    (hs : Held s) : HeldBut account.name s' := by
  obtain ⟨hfree, rfl⟩ := createAccount_ok h
  have hnames : names { s with accounts := s.accounts.insert account hfree } =
      names s ++ [account.name] := List.map_append
  constructor
  · intro n hn hne
    rw [hnames, List.mem_append, List.mem_singleton] at hn
    exact hs.owned n (hn.resolve_right hne)
  · intro p hp howner
    rw [hnames]
    exact List.mem_append_left _ (hs.accounted p hp howner)
  · rw [hnames]
    exact List.mem_append_right _ (List.mem_singleton.mpr rfl)

theorem HeldBut.congr {name : Name} (hs : HeldBut name s) (h : SameAuth s s') :
    HeldBut name s' := by
  have hnames : names s' = names s := h.accounts
  constructor
  · intro n hn
    rw [hnames] at hn
    rw [Named, Named, h.permissions]
    exact hs.owned n hn
  · intro p hp
    rw [hnames]
    exact hs.accounted p (h.permissions ▸ hp)
  · rw [hnames]
    exact hs.there

/-- With its two permissions the account is held like the others. -/
theorem HeldBut.completed {name : Name} {owner active : Auth} {time : Nat} {u : Unit}
    (hs : HeldBut name s) (h : createPermissions ctx name owner active time s = .ok u s') :
    Held s' := by
  obtain ⟨t, -, -, rfl⟩ := createPermissions_ok h
  constructor
  · intro n hn
    by_cases hne : n = name
    · subst hne
      have howner : Named (addPermission n ownerName 0 owner t s) n ownerName :=
        ⟨_, (Serial.mem_push _).mpr (.inr rfl), rfl, rfl⟩
      exact ⟨howner.added, _, (Serial.mem_push _).mpr (.inr rfl), rfl, rfl⟩
    · exact (hs.owned n hn hne).imp (fun h => h.added.added) fun h => h.added.added
  · intro p hp howner
    rcases (Serial.mem_push _).mp hp with hp | rfl
    · rcases (Serial.mem_push _).mp hp with hp | rfl
      · exact hs.accounted p hp howner
      · exact hs.there
    · exact hs.there

theorem held_newaccount {create : NewAccount} : Preserves Held (newaccount ctx create) := by
  intro s u s' h hs
  obtain ⟨_, -, h⟩ := reads_checkNewaccount.bind_inv h
  obtain ⟨_, s1, haccount, h⟩ := bind_ok_inv h
  have hs1 := createAccount_heldBut haccount hs
  obtain ⟨_, s2, hrow, h⟩ := bind_ok_inv h
  have hs2 := hs1.congr (auth_walk.sameNative sameNative_memoryInsert _ _ _ hrow)
  obtain ⟨_, -, h⟩ := (reads_validateAuthorityPrecondition _).bind_inv h
  obtain ⟨_, -, h⟩ := (reads_validateAuthorityPrecondition _).bind_inv h
  obtain ⟨_, s3, hpermissions, h⟩ := bind_ok_inv h
  refine (hs2.completed hpermissions).congr ?_
  exact auth_walk.sameNative
    (sameNative_initializeAccount.bind SameNative.trans fun _ => sameNative_addRamUsage) _ _ _ h

theorem held_createNativeAccount {name : Name} {owner active : Auth} {privileged : Bool} :
    Preserves Held (createNativeAccount conf name owner active privileged) := by
  intro s u s' h hs
  obtain ⟨_, s1, haccount, h⟩ := bind_ok_inv h
  obtain ⟨_, s2, hpermissions, h⟩ := bind_ok_inv h
  exact ((createAccount_heldBut haccount hs).completed hpermissions).congr
    (auth_walk.sameNative sameNative_chargeNativeAccount _ _ _ h)

theorem held_createProducerPermissions : Preserves Held (createProducerPermissions conf) := by
  intro s u s' h hs
  rw [createProducerPermissions, get_bind] at h
  obtain ⟨active, hactive, h⟩ := raise_bind_inv h
  obtain ⟨hactor, -, hactive⟩ := getPermission_ok hactive
  obtain ⟨hmem, howner, -⟩ := findByOwner_some hactive
  have haccount : producersAccountName ∈ names s := by
    have haccounted := hs.accounted active hmem (by rw [howner]; exact hactor)
    rw [howner] at haccounted
    exact haccounted
  obtain ⟨major, s1, hmajor, h⟩ := bind_ok_inv h
  obtain ⟨-, -, rfl⟩ := createPermission_ok hmajor
  obtain ⟨minor, s2, hminor, h⟩ := bind_ok_inv h
  obtain ⟨-, -, rfl⟩ := createPermission_ok hminor
  cases h
  exact (hs.added haccount).added haccount

theorem held_walk : Walk fun s s' => Held s → Held s' :=
  auth_walk.invariant fun _ _ h hs => hs.congr h

/-- **STEP**: every step keeps the accounts held. -/
theorem held_perform (step : Step) : Preserves Held (step.perform vm conf) := by
  cases step with
  | reservePermission =>
    intro s u s' h hs
    cases h
    refine hs.grown rfl (fun owner name hn => ?_) fun p hp howner => ?_
    · obtain ⟨p, hp, hrest⟩ := hn
      exact ⟨p, (Serial.mem_push _).mpr (.inl hp), hrest⟩
    · rcases (Serial.mem_push _).mp hp with hp | rfl
      · exact hs.accounted p hp howner
      · exact absurd rfl howner
  | createNativeAccount name owner active privileged => exact held_createNativeAccount
  | createProducerPermissions => exact held_createProducerPermissions
  | checkFuncOpen headNum =>
    exact held_walk.checkFuncOpen (held_of_sameAuth (sameAuth_of_onlyCode onlyCode_loadContracts))
      fun _ _ => held_replaceAuth
  | updateProducersAuthority producers =>
    exact held_walk.updateProducersAuthority fun _ _ => held_replaceAuth
  | newaccount ctx create => exact held_newaccount
  | manage ctx action => exact held_manage
  | _ => exact held_of_sameAuth (sameAuth_perform trivial)

/-- **RUN**: so they are in every state of a chain. -/
theorem held_reachable {allowed : Step → Prop} (h : Reachable vm conf allowed s) : Held s := by
  refine h.invariant (fun s hs => ?_) fun step _ _ => held_perform step
  exact preserves_forM (fun step _ => held_perform step) _ _ _ hs held_blank

end PermissionHeld
