import EosForce.StateTablesProofs

/-! # Permissions and their management

    `authorization_manager` keeps the permissions of accounts, each with its
    parent, and the links from actions to the permissions that they need at
    least.  Four native actions manage them; each has a rule of its own for
    the permission that has to be declared for it. -/

namespace PermissionStore

open ChainTypes TrxTypes Effect Authority RowTable StateTables

abbrev Permissions := Serial PermissionObject.id

def updateauthName : Name := ⟨0xd5526ca8dacb4000⟩
def deleteauthName : Name := ⟨0x4aa2aca8dacb4000⟩
def linkauthName : Name := ⟨0x8ba7036b2d000000⟩
def unlinkauthName : Name := ⟨0xd4e2e9c0dacb4000⟩
def canceldelayName : Name := ⟨0x41a685452a89bc00⟩

/-! ## Queries -/

/-- The lookup in the index `by_owner`. -/
def findByOwner (permissions : Permissions) (owner name : Name) : Option PermissionObject :=
  permissions.rows.find? fun p => decide (p.owner = owner ∧ p.name = name)

/-- What every failed query throws. -/
def queryFailed : FcException :=
  ⟨.permissionQuery, "Failed to retrieve permission: $\x7blevel\x7d"⟩

/-- `find_permission`. -/
def findPermission (permissions : Permissions) (level : PermissionLevel) :
    Except FcException (Option PermissionObject) :=
  if level.actor ≠ noName ∧ level.permission ≠ noName then
    .ok (findByOwner permissions level.actor level.permission)
  else .error queryFailed

/-- `get_permission`. -/
def getPermission (permissions : Permissions) (level : PermissionLevel) :
    Except FcException PermissionObject := do
  match ← findPermission permissions level with
  | some p => pure p
  | none => .error queryFailed

/-! ## `permission_object::satisfies` -/

/-- How the walk of `satisfies` ends: with an answer, at a parent that is not
    there and is dereferenced all the same, or not within the steps given. -/
inductive Walk where
  | answer (b : Bool)
  | lost
  | running
deriving DecidableEq, Repr

/-- The loop of `satisfies`. -/
def walkUp (permissions : Permissions) (id : Nat) : Nat → PermissionObject → Walk
  | 0, _ => .running
  | steps + 1, parent =>
    if id = parent.parent then .answer true
    else if parent.parent = 0 then .answer false
    else
      match permissions.find parent.parent with
      | some p => walkUp permissions id steps p
      | none => .lost

/-- `permission_object::satisfies`, with at most so many steps. -/
def satisfies (permissions : Permissions) (steps : Nat) (p other : PermissionObject) : Walk :=
  if p.owner ≠ other.owner then .answer false
  else if p.id = other.id ∨ p.id = other.parent then .answer true
  else
    match permissions.find other.parent with
    | some parent => walkUp permissions p.id steps parent
    | none => .lost

/-- The answer that the checks get. -/
def satisfied (permissions : Permissions) (p other : PermissionObject) : Prop :=
  satisfies permissions permissions.next p other = .answer true

instance (permissions : Permissions) (p other : PermissionObject) :
    Decidable (satisfied permissions p other) :=
  inferInstanceAs (Decidable (_ = _))

/-! ## Links -/

/-- `lookup_linked_permission`: the link of the action, or the default link of
    the contract. -/
def lookupLinkedPermission (s : State) (account scope actName : Name) : Option Name :=
  match s.links.find (account, scope, actName) with
  | some link => some link.requiredPermission
  | none => (s.links.find (account, scope, noName)).map (·.requiredPermission)

/-- `lookup_minimum_permission`; `none` asks for no permission in particular. -/
def lookupMinimumPermission (s : State) (account scope actName : Name) :
    Except FcException (Option Name) := do
  eosAssert (scope = systemAccountName → actName ≠ updateauthName ∧ actName ≠ deleteauthName ∧
      actName ≠ linkauthName ∧ actName ≠ unlinkauthName ∧ actName ≠ canceldelayName)
    .unlinkableMinPermissionAction
    "cannot call lookup_minimum_permission on native actions that are not allowed to be linked to minimum permissions"
  match lookupLinkedPermission s account scope actName with
  | none => pure (some activeName)
  | some linked => pure (if linked = eosioAnyName then none else some linked)

/-! ## Changes of permissions -/

/-- The type of a key is its first byte. -/
def keyType (key : PublicKey) : Nat := (key.head?.map (·.toNat)).getD 0

def checkKeyTypes (ctx : ActionContext) (auth : Auth) (what : String) : StateM Unit :=
  require (∀ k ∈ auth.keys, keyType k.key < ctx.numSupportedKeyTypes) .unactivatedKeyType what

/-- A permission and its usage object are added. -/
def addPermission (account name : Name) (parent : Nat) (auth : Auth) (time : Nat) (s : State) :
    State :=
  { s with
    usages := s.usages.push (fun id => ⟨id, time⟩) fun _ => rfl
    permissions := s.permissions.push
      (fun id => ⟨id, s.usages.next, parent, account, name, time, auth⟩) fun _ => rfl }

/-- `create_permission`; the number that the permission gets. -/
def createPermission (ctx : ActionContext) (account name : Name) (parent : Nat) (auth : Auth)
    (initialCreationTime : Nat) : StateM Nat := do
  checkKeyTypes ctx auth "Unactivated key type used when creating permission"
  let creationTime := if initialCreationTime = 0 then ctx.pendingBlockTime else initialCreationTime
  let s ← get
  require (findByOwner s.permissions account name = none) .uniqueness
    "could not insert object, most likely a uniqueness constraint was violated"
  set (addPermission account name parent auth creationTime s)
  pure s.permissions.next

/-- A permission gets a new authority. -/
def assignAuth (id : Nat) (auth : Auth) (time : Nat) (s : State) : State :=
  { s with
    permissions := s.permissions.modify id (fun p => { p with auth := auth, lastUpdated := time })
      fun _ => rfl }

/-- `modify_permission`. -/
def modifyPermission (ctx : ActionContext) (permission : PermissionObject) (auth : Auth) :
    StateM Unit := do
  checkKeyTypes ctx auth "Unactivated key type used when modifying permission"
  modify (assignAuth permission.id auth ctx.pendingBlockTime)

/-- A permission and its usage object are removed. -/
def dropPermission (permission : PermissionObject) (s : State) : State :=
  { s with
    usages := s.usages.erase permission.usageId
    permissions := s.permissions.erase permission.id }

/-- `remove_permission`. -/
def removePermission (permission : PermissionObject) : StateM Unit := do
  let s ← get
  require (∀ p ∈ s.permissions.rows, p.parent ≠ permission.id) .actionValidate
    "Cannot remove a permission which has children. Remove the children first."
  let _ ← orThrow (s.usages.find permission.usageId) ⟨.stdException, "object not found"⟩
  modify (dropPermission permission)

/-! ## The native actions -/

/-- `validate_authority_precondition`. -/
def validateAuthorityPrecondition (ctx : ActionContext) (auth : Auth) : StateM Unit := do
  let s ← get
  auth.accounts.forM fun a => do
    require ((s.accounts.find a.permission.actor).isSome = true) .actionValidate
      "account '$\x7baccount\x7d' does not exist"
    -- `get_permission` throws nothing but the exception that is caught here
    whenever (a.permission.permission ≠ ownerName ∧ a.permission.permission ≠ activeName ∧
        a.permission.permission ≠ N.eosioCode)
      (require ((getPermission s.permissions a.permission).isOk = true) .actionValidate
        "permission '$\x7bperm\x7d' does not exist")
  auth.keys.forM fun p => raise (ctx.checkKeyList p.key)

structure UpdateAuth where
  account : Name
  permission : Name
  parent : Name
  auth : Auth

structure DeleteAuth where
  account : Name
  permission : Name

structure LinkAuth where
  account : Name
  code : Name
  type : Name
  requirement : Name

structure UnlinkAuth where
  account : Name
  code : Name
  type : Name

def startsWith (start : String) (n : Name) : Prop := start.toList <+: nameToString n

instance (start : String) (n : Name) : Decidable (startsWith start n) :=
  inferInstanceAs (Decidable (_ <+: _))

/-- What `apply_eosio_updateauth` checks before it looks at the permissions. -/
def checkUpdateauth (ctx : ActionContext) (update : UpdateAuth) : StateM Unit := do
  requireAuthorization ctx update.account
  require (update.permission ≠ noName) .actionValidate "Cannot create authority with empty name"
  require (¬ startsWith "eosio." update.permission) .actionValidate
    "Permission names that start with 'eosio.' are reserved"
  require (¬ startsWith "force." update.permission) .actionValidate
    "Permission names that start with 'force.' are reserved"
  require (update.permission ≠ update.parent) .actionValidate
    "Cannot set an authority as its own parent"
  let _ ← getAccount update.account
  require (validate update.auth = true) .actionValidate "Invalid authority: $\x7bauth\x7d"
  require (update.permission = activeName → update.parent = ownerName) .actionValidate
    "Cannot change active authority's parent from owner"
  require (update.permission = ownerName → update.parent = noName) .actionValidate
    "Cannot change owner authority's parent"
  require (update.permission ≠ ownerName → update.parent ≠ noName) .actionValidate
    "Only owner permission can have empty parent"
  require (∀ w ∈ update.auth.waits.getLast?, w.waitSec.toNat ≤ ctx.maxTransactionDelay)
    .actionValidate
    "Cannot set delay longer than max_transacton_delay, which is $\x7bmax_delay\x7d seconds"
  validateAuthorityPrecondition ctx update.auth

/-- The number of the parent that an action names; 0 for an owner permission. -/
def parentId (permissions : Permissions) (update : UpdateAuth) : Except FcException Nat :=
  if update.permission ≠ ownerName then
    (getPermission permissions ⟨update.account, update.parent⟩).map (·.id)
  else .ok 0

/-- `apply_eosio_updateauth`. -/
def updateauth (ctx : ActionContext) (update : UpdateAuth) : StateM Unit := do
  checkUpdateauth ctx update
  let s ← get
  let permission ← raise (findPermission s.permissions ⟨update.account, update.permission⟩)
  let parent ← raise (parentId s.permissions update)
  match permission with
  | some p => do
      require (parent = p.parent) .actionValidate
        "Changing parent authority is not currently supported"
      modifyPermission ctx p update.auth
      addRamUsage p.owner ((permissionSize + authSize update.auth : Int) -
        (permissionSize + authSize p.auth))
  | none => do
      let _ ← createPermission ctx update.account update.permission parent update.auth 0
      addRamUsage update.account (permissionSize + authSize update.auth)

/-- `apply_eosio_deleteauth`. -/
def deleteauth (ctx : ActionContext) (remove : DeleteAuth) : StateM Unit := do
  requireAuthorization ctx remove.account
  require (remove.permission ≠ activeName) .actionValidate "Cannot delete active authority"
  require (remove.permission ≠ ownerName) .actionValidate "Cannot delete owner authority"
  let s ← get
  require (∀ l ∈ s.links.rows,
      ¬ (l.account = remove.account ∧ l.requiredPermission = remove.permission)) .actionValidate
    "Cannot delete a linked authority. Unlink the authority first. This authority is linked to $\x7bcode\x7d::$\x7btype\x7d."
  let permission ← raise (getPermission s.permissions ⟨remove.account, remove.permission⟩)
  removePermission permission
  addRamUsage remove.account (-(permissionSize + authSize permission.auth))

/-- The permission that a link may name. -/
def linkable (ctx : ActionContext) (s : State) (link : LinkAuth) : Prop :=
  link.requirement = eosioAnyName ∨
    if ctx.onlyLinkToExistingPermission then
      (findByOwner s.permissions link.account link.requirement).isSome = true
    else ∃ p ∈ s.permissions.rows, p.name = link.requirement

instance (ctx : ActionContext) (s : State) (link : LinkAuth) : Decidable (linkable ctx s link) := by
  unfold linkable
  infer_instance

/-- The link is created, or required another permission and is changed. -/
def storeLink (link : LinkAuth) : StateM Unit := do
  let s ← get
  if h : s.links.find (link.account, link.code, link.type) = none then do
    set { s with
      links := s.links.insert ⟨link.account, link.code, link.type, link.requirement⟩ h }
    addRamUsage link.account permissionLinkSize
  else do
    require ((s.links.find (link.account, link.code, link.type)).map (·.requiredPermission) ≠
        some link.requirement) .actionValidate
      "Attempting to update required authority, but new requirement is same as old"
    set { s with
      links := s.links.modify (link.account, link.code, link.type)
        (fun l => { l with requiredPermission := link.requirement }) fun _ => rfl }

/-- `apply_eosio_linkauth`. -/
def linkauth (ctx : ActionContext) (link : LinkAuth) : StateM Unit := do
  require (link.requirement ≠ noName) .actionValidate "Required permission cannot be empty"
  requireAuthorization ctx link.account
  let s ← get
  require ((s.accounts.find link.account).isSome = true) .accountQuery
    "Failed to retrieve account: $\x7baccount\x7d"
  require ((s.accounts.find link.code).isSome = true) .accountQuery
    "Failed to retrieve code for account: $\x7baccount\x7d"
  require (linkable ctx s link) .permissionQuery
    "Failed to retrieve permission: $\x7bpermission\x7d"
  storeLink link

/-- `apply_eosio_unlinkauth`. -/
def unlinkauth (ctx : ActionContext) (unlink : UnlinkAuth) : StateM Unit := do
  requireAuthorization ctx unlink.account
  let s ← get
  let link ← orThrow (s.links.find (unlink.account, unlink.code, unlink.type))
    ⟨.actionValidate, "Attempting to unlink authority, but no link found"⟩
  addRamUsage link.account (-permissionLinkSize)
  modify fun s => { s with links := s.links.erase (unlink.account, unlink.code, unlink.type) }

/-- The four actions. -/
inductive ManageAction where
  | updateauth (update : UpdateAuth)
  | deleteauth (remove : DeleteAuth)
  | linkauth (link : LinkAuth)
  | unlinkauth (unlink : UnlinkAuth)

def ManageAction.account : ManageAction → Name
  | .updateauth update => update.account
  | .deleteauth remove => remove.account
  | .linkauth link => link.account
  | .unlinkauth unlink => unlink.account

def ManageAction.apply (ctx : ActionContext) : ManageAction → StateM Unit
  | .updateauth update => PermissionStore.updateauth ctx update
  | .deleteauth remove => PermissionStore.deleteauth ctx remove
  | .linkauth link => PermissionStore.linkauth ctx link
  | .unlinkauth unlink => PermissionStore.unlinkauth ctx unlink

/-! ## What has to be declared for them -/

/-- The one declared authorization, of the right actor. -/
def soleAuthorization (auths : List PermissionLevel) (account : Name) (one other : String) :
    Except FcException PermissionLevel :=
  match auths with
  | [auth] => do
      eosAssert (auth.actor = account) .irrelevantAuth other
      pure auth
  | _ => .error ⟨.irrelevantAuth, one⟩

/-- The declared permission has to satisfy the permission needed. -/
def checkSatisfies (s : State) (auth : PermissionLevel) (least : PermissionObject)
    (what : String) : Except FcException Unit := do
  let p ← getPermission s.permissions auth
  eosAssert (satisfied s.permissions p least) .irrelevantAuth what

/-- `check_updateauth_authorization`. -/
def checkUpdateauthAuthorization (s : State) (update : UpdateAuth) (auths : List PermissionLevel) :
    Except FcException Unit := do
  let auth ← soleAuthorization auths update.account
    "updateauth action should only have one declared authorization"
    "the owner of the affected permission needs to be the actor of the declared authorization"
  let existing ← findPermission s.permissions ⟨update.account, update.permission⟩
  let least ← match existing with
    | some p => pure p
    | none => getPermission s.permissions ⟨update.account, update.parent⟩
  checkSatisfies s auth least
    "updateauth action declares irrelevant authority '$\x7bauth\x7d'; minimum authority is $\x7bmin\x7d"

/-- `check_deleteauth_authorization`. -/
def checkDeleteauthAuthorization (s : State) (del : DeleteAuth) (auths : List PermissionLevel) :
    Except FcException Unit := do
  let auth ← soleAuthorization auths del.account
    "deleteauth action should only have one declared authorization"
    "the owner of the permission to delete needs to be the actor of the declared authorization"
  let least ← getPermission s.permissions ⟨del.account, del.permission⟩
  checkSatisfies s auth least
    "updateauth action declares irrelevant authority '$\x7bauth\x7d'; minimum authority is $\x7bmin\x7d"

/-- `check_linkauth_authorization`. -/
def checkLinkauthAuthorization (ctx : ActionContext) (s : State) (link : LinkAuth)
    (auths : List PermissionLevel) : Except FcException Unit := do
  let auth ← soleAuthorization auths link.account
    "link action should only have one declared authorization"
    "the owner of the linked permission needs to be the actor of the declared authorization"
  if link.code = systemAccountName ∨ ctx.fixLinkauthRestriction = false then do
    eosAssert (link.type ≠ updateauthName) .actionValidate
      "Cannot link eosio::updateauth to a minimum permission"
    eosAssert (link.type ≠ deleteauthName) .actionValidate
      "Cannot link eosio::deleteauth to a minimum permission"
    eosAssert (link.type ≠ linkauthName) .actionValidate
      "Cannot link eosio::linkauth to a minimum permission"
    eosAssert (link.type ≠ unlinkauthName) .actionValidate
      "Cannot link eosio::unlinkauth to a minimum permission"
    eosAssert (link.type ≠ canceldelayName) .actionValidate
      "Cannot link eosio::canceldelay to a minimum permission"
  match ← lookupMinimumPermission s link.account link.code link.type with
  | none => pure ()
  | some linked => do
      let least ← getPermission s.permissions ⟨link.account, linked⟩
      checkSatisfies s auth least
        "link action declares irrelevant authority '$\x7bauth\x7d'; minimum authority is $\x7bmin\x7d"

/-- `check_unlinkauth_authorization`. -/
def checkUnlinkauthAuthorization (s : State) (unlink : UnlinkAuth) (auths : List PermissionLevel) :
    Except FcException Unit := do
  let auth ← soleAuthorization auths unlink.account
    "unlink action should only have one declared authorization"
    "the owner of the linked permission needs to be the actor of the declared authorization"
  match lookupLinkedPermission s unlink.account unlink.code unlink.type with
  | none => .error ⟨.transaction,
      "cannot unlink non-existent permission link of account '$\x7baccount\x7d' for actions matching '$\x7bcode\x7d::$\x7baction\x7d'"⟩
  | some linked =>
    if linked = eosioAnyName then pure ()
    else do
      let least ← getPermission s.permissions ⟨unlink.account, linked⟩
      checkSatisfies s auth least
        "unlink action declares irrelevant authority '$\x7bauth\x7d'; minimum authority is $\x7bmin\x7d"

/-- The special cases of `check_authorization`. -/
def checkSpecial (ctx : ActionContext) (s : State) (auths : List PermissionLevel) :
    ManageAction → Except FcException Unit
  | .updateauth update => checkUpdateauthAuthorization s update auths
  | .deleteauth remove => checkDeleteauthAuthorization s remove auths
  | .linkauth link => checkLinkauthAuthorization ctx s link auths
  | .unlinkauth unlink => checkUnlinkauthAuthorization s unlink auths

/-- `check_authorization` of one of the actions.  `held` is what the authority
    checker answers for a declared authorization that is not satisfied already,
    and `keysUsed` whether it has used all keys or need not have. -/
def checkAuthorization (ctx : ActionContext) (s : State) (action : ManageAction)
    (auths : List PermissionLevel) (held : PermissionLevel → Bool) (keysUsed : Bool) :
    Except FcException Unit := do
  checkSpecial ctx s auths action
  eosAssert (∀ auth ∈ auths, held auth = true) .unsatisfiedAuthorization
    "transaction declares authority '$\x7bauth\x7d', but does not have signatures for it under a provided delay of $\x7bprovided_delay\x7d ms, provided permissions $\x7bprovided_permissions\x7d, provided keys $\x7bprovided_keys\x7d, and a delay max limit of $\x7bdelay_max_limit_ms\x7d ms"
  eosAssert (keysUsed = true) .txIrrelevantSig
    "transaction bears irrelevant signatures from these keys: $\x7bkeys\x7d"

/-! ## What the queries find -/

variable {permissions : Permissions} {owner name : Name} {p q : PermissionObject}

theorem findByOwner_some (h : findByOwner permissions owner name = some p) :
    p ∈ permissions.rows ∧ p.owner = owner ∧ p.name = name :=
  ⟨List.mem_of_find?_eq_some h, by simpa using List.find?_some h⟩

theorem findByOwner_none (h : findByOwner permissions owner name = none) :
    ∀ p ∈ permissions.rows, ¬ (p.owner = owner ∧ p.name = name) := by
  intro p hp
  simpa using List.find?_eq_none.mp h p hp

theorem findPermission_ok {level : PermissionLevel} {o : Option PermissionObject}
    (h : findPermission permissions level = .ok o) :
    level.actor ≠ noName ∧ level.permission ≠ noName ∧
      findByOwner permissions level.actor level.permission = o := by
  rw [findPermission] at h
  split at h
  · rename_i hnames
    cases h
    exact ⟨hnames.1, hnames.2, rfl⟩
  · cases h

theorem getPermission_ok {level : PermissionLevel} (h : getPermission permissions level = .ok p) :
    level.actor ≠ noName ∧ level.permission ≠ noName ∧
      findByOwner permissions level.actor level.permission = some p := by
  obtain ⟨o, ho, h⟩ := except_bind_ok h
  cases o with
  | none => cases h
  | some q =>
    cases h
    exact findPermission_ok ho

/-! ## What the actions do -/

variable {ctx : ActionContext} {s s' : State} {u : Unit}

theorem reads_validateAuthorityPrecondition (auth : Auth) :
    Reads (validateAuthorityPrecondition ctx auth) := by
  refine reads_get.bind fun s => Reads.bind (reads_forM ?_ _) fun _ => reads_forM ?_ _
  · intro a
    exact reads_require.bind fun _ => reads_require.whenever
  · intro k
    exact reads_raise

theorem reads_checkUpdateauth (update : UpdateAuth) : Reads (checkUpdateauth ctx update) :=
  reads_requireAuthorization.bind fun _ => reads_require.bind fun _ =>
    reads_require.bind fun _ => reads_require.bind fun _ =>
    reads_require.bind fun _ => reads_getAccount.bind fun _ =>
    reads_require.bind fun _ => reads_require.bind fun _ =>
    reads_require.bind fun _ => reads_require.bind fun _ =>
    reads_require.bind fun _ => reads_validateAuthorityPrecondition _

/-- The parent that an update names, by its number. -/
def NamesParent (permissions : Permissions) (update : UpdateAuth) (parent : Nat) : Prop :=
  (update.permission = ownerName ∧ parent = 0) ∨
    (update.permission ≠ ownerName ∧ update.parent ≠ noName ∧
      ∃ q, findByOwner permissions update.account update.parent = some q ∧ q.id = parent)

theorem parentId_ok {update : UpdateAuth} {parent : Nat}
    (h : parentId permissions update = .ok parent) : NamesParent permissions update parent := by
  rw [parentId] at h
  split at h
  · rename_i howner
    cases hget : getPermission permissions ⟨update.account, update.parent⟩ with
    | error e =>
      rw [hget] at h
      cases h
    | ok q =>
      rw [hget] at h
      cases h
      obtain ⟨-, hname, hfind⟩ := getPermission_ok hget
      exact .inr ⟨howner, hname, q, hfind, rfl⟩
  · rename_i howner
    cases h
    exact .inl ⟨not_not.mp howner, rfl⟩

theorem createPermission_ok {account : Name} {parent time n : Nat} {auth : Auth}
    (h : createPermission ctx account name parent auth time s = .ok n s') :
    findByOwner s.permissions account name = none ∧ n = s.permissions.next ∧
      s' = addPermission account name parent auth
        (if time = 0 then ctx.pendingBlockTime else time) s := by
  obtain ⟨-, h⟩ := require_bind_inv h
  rw [get_bind] at h
  obtain ⟨hfree, h⟩ := require_bind_inv h
  cases h
  exact ⟨hfree, rfl, rfl⟩

/-- Only the permissions of an account that is there are updated. -/
theorem checkUpdateauth_account {update : UpdateAuth}
    (h : checkUpdateauth ctx update s = .ok u s') :
    ∃ account, s.accounts.find update.account = some account := by
  obtain ⟨_, -, h⟩ := reads_requireAuthorization.bind_inv h
  obtain ⟨-, h⟩ := require_bind_inv h
  obtain ⟨-, h⟩ := require_bind_inv h
  obtain ⟨-, h⟩ := require_bind_inv h
  obtain ⟨-, h⟩ := require_bind_inv h
  obtain ⟨account, haccount, h⟩ := reads_getAccount.bind_inv h
  exact ⟨account, (getAccount_ok haccount).1⟩

/-- An update changes the authority of the permission, or creates it. -/
theorem updateauth_ok {update : UpdateAuth} (h : updateauth ctx update s = .ok u s') :
    update.account ≠ noName ∧ update.permission ≠ noName ∧
      (∃ account, s.accounts.find update.account = some account) ∧
      ∃ parent, NamesParent s.permissions update parent ∧
        ((∃ p r, findByOwner s.permissions update.account update.permission = some p ∧
            p.parent = parent ∧
            Charged s.resources p.owner ((permissionSize + authSize update.auth : Int) -
              (permissionSize + authSize p.auth)) r ∧
            s' = { assignAuth p.id update.auth ctx.pendingBlockTime s with resources := r }) ∨
          (findByOwner s.permissions update.account update.permission = none ∧
            ∃ r, Charged s.resources update.account (permissionSize + authSize update.auth) r ∧
              s' = { addPermission update.account update.permission parent update.auth
                ctx.pendingBlockTime s with resources := r })) := by
  obtain ⟨_, hcheck, h⟩ := (reads_checkUpdateauth update).bind_inv h
  rw [get_bind] at h
  obtain ⟨existing, hfind, h⟩ := raise_bind_inv h
  obtain ⟨haccount, hname, hfind⟩ := findPermission_ok hfind
  obtain ⟨parent, hparent, h⟩ := raise_bind_inv h
  refine ⟨haccount, hname, checkUpdateauth_account hcheck, parent, parentId_ok hparent, ?_⟩
  cases existing with
  | some p =>
    obtain ⟨hsame, h⟩ := require_bind_inv h
    obtain ⟨_, s1, hmodify, h⟩ := bind_ok_inv h
    obtain ⟨-, hmodify⟩ := require_bind_inv hmodify
    cases hmodify
    obtain ⟨r, hr, rfl⟩ := addRamUsage_ok h
    exact .inl ⟨p, r, hfind, hsame.symm, hr, rfl⟩
  | none =>
    obtain ⟨n, s1, hcreate, h⟩ := bind_ok_inv h
    obtain ⟨-, -, rfl⟩ := createPermission_ok hcreate
    obtain ⟨r, hr, rfl⟩ := addRamUsage_ok h
    exact .inr ⟨hfind, r, hr, rfl⟩

/-- A deletion removes a permission that has no children and no links. -/
theorem deleteauth_ok {remove : DeleteAuth} (h : deleteauth ctx remove s = .ok u s') :
    remove.account ≠ noName ∧ remove.permission ≠ activeName ∧ remove.permission ≠ ownerName ∧
      (∀ l ∈ s.links.rows,
        ¬ (l.account = remove.account ∧ l.requiredPermission = remove.permission)) ∧
      ∃ p r, findByOwner s.permissions remove.account remove.permission = some p ∧
        (∀ q ∈ s.permissions.rows, q.parent ≠ p.id) ∧
        Charged s.resources remove.account (-(permissionSize + authSize p.auth)) r ∧
        s' = { dropPermission p s with resources := r } := by
  obtain ⟨-, h⟩ := require_bind_inv h
  obtain ⟨hactive, h⟩ := require_bind_inv h
  obtain ⟨howner, h⟩ := require_bind_inv h
  rw [get_bind] at h
  obtain ⟨hlinks, h⟩ := require_bind_inv h
  obtain ⟨p, hget, h⟩ := raise_bind_inv h
  obtain ⟨haccount, -, hfind⟩ := getPermission_ok hget
  obtain ⟨_, s1, hremove, h⟩ := bind_ok_inv h
  rw [removePermission, get_bind] at hremove
  obtain ⟨hleaf, hremove⟩ := require_bind_inv hremove
  obtain ⟨_, -, hremove⟩ := orThrow_bind_inv hremove
  cases hremove
  obtain ⟨r, hr, rfl⟩ := addRamUsage_ok h
  exact ⟨haccount, hactive, howner, hlinks, p, r, hfind, hleaf, hr, rfl⟩

/-- The link that an action is about. -/
abbrev LinkAuth.key (link : LinkAuth) : Name × Name × Name := (link.account, link.code, link.type)

abbrev UnlinkAuth.key (unlink : UnlinkAuth) : Name × Name × Name :=
  (unlink.account, unlink.code, unlink.type)

/-- Linking creates the link or changes what it requires. -/
theorem linkauth_ok {link : LinkAuth} (h : linkauth ctx link s = .ok u s') :
    link.requirement ≠ noName ∧ linkable ctx s link ∧
      ((∃ hfree r, Charged s.resources link.account permissionLinkSize r ∧
          s' = { s with
            links := s.links.insert ⟨link.account, link.code, link.type, link.requirement⟩ hfree
            resources := r }) ∨
        ((s.links.find link.key).isSome = true ∧
          s' = { s with
            links := s.links.modify link.key
              (fun l => { l with requiredPermission := link.requirement }) fun _ => rfl })) := by
  obtain ⟨hname, h⟩ := require_bind_inv h
  obtain ⟨-, h⟩ := require_bind_inv h
  rw [get_bind] at h
  obtain ⟨-, h⟩ := require_bind_inv h
  obtain ⟨-, h⟩ := require_bind_inv h
  obtain ⟨hlink, h⟩ := require_bind_inv h
  refine ⟨hname, hlink, ?_⟩
  rw [storeLink, get_bind] at h
  split at h
  · rename_i hfree
    rw [set_bind] at h
    obtain ⟨r, hr, rfl⟩ := addRamUsage_ok h
    exact .inl ⟨hfree, r, hr, rfl⟩
  · rename_i htaken
    obtain ⟨-, h⟩ := require_bind_inv h
    cases h
    exact .inr ⟨Option.isSome_iff_ne_none.mpr htaken, rfl⟩

/-- Unlinking removes the link. -/
theorem unlinkauth_ok {unlink : UnlinkAuth} (h : unlinkauth ctx unlink s = .ok u s') :
    ∃ l r, s.links.find unlink.key = some l ∧
      Charged s.resources unlink.account (-permissionLinkSize) r ∧
      s' = { s with links := s.links.erase unlink.key, resources := r } := by
  obtain ⟨-, h⟩ := require_bind_inv h
  rw [get_bind] at h
  obtain ⟨l, hfind, h⟩ := orThrow_bind_inv h
  obtain ⟨_, s1, husage, h⟩ := bind_ok_inv h
  obtain ⟨r, hr, rfl⟩ := addRamUsage_ok husage
  cases h
  have haccount : l.account = unlink.account :=
    congrArg (fun k : Name × Name × Name => k.1) (Table.find_some hfind).2
  rw [haccount] at hr
  exact ⟨l, r, hfind, hr, rfl⟩

end PermissionStore
