import EosForce.NativeActionsProofs

/-! # What the native steps do, and what they leave alone

    One lemma for each step says what it did if it went through.  The
    operations of contracts, and the native code that stores rows, change
    rows, tables and usages and nothing else.  The rules for permissions, code
    and RAM each rest on a part of the state; what a step does not touch it
    keeps. -/

namespace NativeFrame

open ChainTypes TrxTypes Effect Resource Authority RowTable StateTables ContractTables
  PermissionStore NativeActions

/-- Everything but the rows of contracts, their tables and the usage of
    resources is the same, and no account loses its usage. -/
structure SameNative (s s' : State) : Prop where
  accounts : s'.accounts = s.accounts
  codes : s'.codes = s.codes
  permissions : s'.permissions = s.permissions
  usages : s'.usages = s.usages
  links : s'.links = s.links
  deferred : s'.deferred = s.deferred
  ramCorrections : s'.ramCorrections = s.ramCorrections
  configNums : s'.configNums = s.configNums
  known : ∀ a, (s.resources.usage a).isSome → (s'.resources.usage a).isSome

theorem SameNative.refl (s : State) : SameNative s s :=
  ⟨rfl, rfl, rfl, rfl, rfl, rfl, rfl, rfl, fun _ h => h⟩

theorem SameNative.trans ⦃a b c : State⦄ (h : SameNative a b) (h' : SameNative b c) :
    SameNative a c where
  accounts := h'.accounts.trans h.accounts
  codes := h'.codes.trans h.codes
  permissions := h'.permissions.trans h.permissions
  usages := h'.usages.trans h.usages
  links := h'.links.trans h.links
  deferred := h'.deferred.trans h.deferred
  ramCorrections := h'.ramCorrections.trans h.ramCorrections
  configNums := h'.configNums.trans h.configNums
  known := fun a ha => h'.known a (h.known a ha)

section SameNative

variable {ctx : ActionContext} {a : Name} {delta : Int}

theorem sameNative_addRamUsage : Keeps SameNative (addRamUsage a delta) := by
  intro s u s' h
  obtain ⟨r, hr, rfl⟩ := addRamUsage_ok h
  exact ⟨rfl, rfl, rfl, rfl, rfl, rfl, rfl, rfl, fun b hb => (hr.known b).trans hb⟩

theorem sameNative_updateDbUsage : Keeps SameNative (updateDbUsage ctx a delta) := by
  intro s u s' h
  obtain ⟨r, hr, rfl⟩ := updateDbUsage_ok h
  exact ⟨rfl, rfl, rfl, rfl, rfl, rfl, rfl, rfl, fun b hb => (hr.known b).trans hb⟩

variable {code scope table payer : Name}

theorem sameNative_findOrCreateTable :
    Keeps SameNative (findOrCreateTable ctx code scope table payer) := by
  intro s n s' h
  rcases findOrCreateTable_ok h with ⟨t, -, -, rfl⟩ | ⟨-, r, hr, rfl⟩
  · exact SameNative.refl _
  · exact ⟨rfl, rfl, rfl, rfl, rfl, rfl, rfl, rfl, fun b hb => (hr.known b).trans hb⟩

theorem sameNative_createRow {r : ContractRow} : Keeps SameNative (createRow r) := by
  intro s u s' h
  obtain ⟨hfree, rfl⟩ := createRow_ok h
  exact ⟨rfl, rfl, rfl, rfl, rfl, rfl, rfl, rfl, fun _ hb => hb⟩

theorem sameNative_modifyCount {tId : Nat} {f : Nat → Nat} : Keeps SameNative (modifyCount tId f) :=
  keeps_modify fun _ => ⟨rfl, rfl, rfl, rfl, rfl, rfl, rfl, rfl, fun _ hb => hb⟩

theorem sameNative_storeRow {r : ContractRow} : Keeps SameNative (storeRow ctx r) :=
  sameNative_createRow.bind SameNative.trans fun _ =>
    sameNative_modifyCount.bind SameNative.trans fun _ => sameNative_updateDbUsage

theorem sameNative_removeRow {r : ContractRow} : Keeps SameNative (removeRow ctx r) := by
  intro s u s' h
  obtain ⟨t, -, ⟨-, rfl⟩ | ⟨-, res, hres, rfl⟩⟩ := removeRow_ok h
  · exact ⟨rfl, rfl, rfl, rfl, rfl, rfl, rfl, rfl, fun _ hb => hb⟩
  · exact ⟨rfl, rfl, rfl, rfl, rfl, rfl, rfl, rfl, fun b hb => (hres.known b).trans hb⟩

theorem sameNative_payUpdate {old payer : Name} {oldSize newSize : Int} :
    Keeps SameNative (payUpdate ctx old payer oldSize newSize) := by
  rw [payUpdate]
  split
  · exact sameNative_updateDbUsage.bind SameNative.trans fun _ => sameNative_updateDbUsage
  · exact sameNative_updateDbUsage.whenever SameNative.refl

theorem sameNative_assignRow {key : RowKey} {value : Bytes} {payer : Name} :
    Keeps SameNative (modify (assignRow key value payer) : StateM PUnit) :=
  keeps_modify fun _ => ⟨rfl, rfl, rfl, rfl, rfl, rfl, rfl, rfl, fun _ hb => hb⟩

theorem reads_getRow {key : RowKey} : Reads (getRow key) := reads_get.bind fun _ => reads_orThrow

theorem reads_getTable {tId : Nat} : Reads (getTable tId) := reads_get.bind fun _ => reads_orThrow

/-- The operations of contracts. -/
theorem sameNative_perform (op : Op) : Keeps SameNative (op.perform ctx) := by
  cases op with
  | storeI64 =>
    exact sameNative_findOrCreateTable.bind SameNative.trans fun _ =>
      reads_require.bind_keeps fun _ => sameNative_storeRow
  | updateI64 =>
    exact reads_getRow.bind_keeps fun _ =>
      reads_getTable.bind_keeps fun _ =>
      reads_require.bind_keeps fun _ =>
      sameNative_payUpdate.bind SameNative.trans fun _ => sameNative_assignRow
  | removeI64 =>
    exact reads_getRow.bind_keeps fun _ =>
      reads_getTable.bind_keeps fun _ =>
      reads_require.bind_keeps fun _ =>
      sameNative_updateDbUsage.bind SameNative.trans fun _ => sameNative_removeRow
  | storeSecondary =>
    exact reads_require.bind_keeps fun _ =>
      sameNative_findOrCreateTable.bind SameNative.trans fun _ => sameNative_storeRow
  | updateSecondary =>
    refine reads_getRow.bind_keeps fun _ =>
      reads_getTable.bind_keeps fun _ =>
      reads_require.bind_keeps fun _ => ?_
    refine Keeps.bind SameNative.trans ?_ fun _ => sameNative_assignRow
    exact (sameNative_updateDbUsage.bind SameNative.trans fun _ =>
      sameNative_updateDbUsage).whenever SameNative.refl
  | removeSecondary =>
    exact reads_getRow.bind_keeps fun _ =>
      sameNative_updateDbUsage.bind SameNative.trans fun _ =>
      reads_getTable.bind_keeps fun _ =>
      reads_require.bind_keeps fun _ => sameNative_removeRow

theorem memoryFindOrCreateTable_ok {tId : Nat} {s s' : State}
    (h : memoryFindOrCreateTable code scope table payer s = .ok tId s') :
    (∃ t ∈ s.tables.rows, t.id = tId ∧ findTable s code scope table = some t ∧ s' = s) ∨
      (findTable s code scope table = none ∧ tId = s.tables.next ∧ s' = { s with
        tables := s.tables.push (fun id => ⟨id, code, scope, table, payer, 0⟩) fun _ => rfl }) := by
  rw [memoryFindOrCreateTable, get_bind] at h
  cases hfind : findTable s code scope table with
  | some t =>
    rw [hfind] at h
    cases h
    exact .inl ⟨t, findTable_mem hfind, rfl, rfl, rfl⟩
  | none =>
    rw [hfind] at h
    cases h
    exact .inr ⟨rfl, rfl, rfl⟩

theorem sameNative_memoryFindOrCreateTable :
    Keeps SameNative (memoryFindOrCreateTable code scope table payer) := by
  intro s n s' h
  rcases memoryFindOrCreateTable_ok h with ⟨t, -, -, -, rfl⟩ | ⟨-, -, rfl⟩
  · exact SameNative.refl _
  · exact ⟨rfl, rfl, rfl, rfl, rfl, rfl, rfl, rfl, fun _ hb => hb⟩

theorem sameNative_memoryInsert {id : UInt64} {data : Bytes} :
    Keeps SameNative (memoryInsert code scope table payer id data) :=
  sameNative_memoryFindOrCreateTable.bind SameNative.trans fun _ =>
    reads_require.bind_keeps fun _ =>
    sameNative_createRow.bind SameNative.trans fun _ => sameNative_modifyCount

theorem sameNative_initializeAccount : Keeps SameNative (initializeAccount a) := by
  refine keeps_get_bind fun s u s' h => ?_
  obtain ⟨-, h⟩ := require_bind_inv h
  cases h
  refine ⟨rfl, rfl, rfl, rfl, rfl, rfl, rfl, rfl, fun b hb => ?_⟩
  show (if b = a then some _ else s.resources.usage b).isSome
  split
  · rfl
  · exact hb

/-- The row is there already, or it is inserted. -/
theorem createAccountInMemory_ok {name : Name} {s s' : State} {u : Unit}
    (h : createAccountInMemory name s = .ok u s') :
    s' = s ∨
      (memoryFind s systemAccountName systemAccountName accountsTable name.value = none ∧
        memoryInsert systemAccountName systemAccountName accountsTable name name.value
          (accountInfo name 0) s = .ok u s') := by
  rw [createAccountInMemory, get_bind] at h
  cases hfind : memoryFind s systemAccountName systemAccountName accountsTable name.value with
  | some row =>
    rw [hfind] at h
    exact .inl (require_ok h).2
  | none =>
    rw [hfind] at h
    exact .inr ⟨rfl, h⟩

theorem sameNative_createAccountInMemory {name : Name} :
    Keeps SameNative (createAccountInMemory name) := by
  intro s u s' h
  rcases createAccountInMemory_ok h with rfl | ⟨-, h⟩
  · exact SameNative.refl _
  · exact sameNative_memoryInsert _ _ _ h

end SameNative

/-! ## Accounts and code -/

variable {s s' : State} {u : Unit} {ctx : ActionContext} {vm : Vm} {conf : Conf}

theorem reads_checkNewaccount {create : NewAccount} : Reads (checkNewaccount ctx create) :=
  reads_requireAuthorization.bind fun _ => reads_require.bind fun _ => reads_require.bind fun _ =>
    reads_require.bind fun _ => reads_require.bind fun _ => reads_getAccount.bind fun _ =>
    reads_require.bind fun _ => reads_get.bind fun _ => reads_require.bind fun _ => reads_require

theorem createAccount_ok {account : Account} (h : createAccount account s = .ok u s') :
    ∃ hfree, s' = { s with accounts := s.accounts.insert account hfree } := by
  rw [createAccount, get_bind] at h
  split at h
  · rename_i hfree
    cases h
    exact ⟨hfree, rfl⟩
  · cases h

/-- The code that the account had is given back, if it had any. -/
inductive Released (s : State) (account : Account) (newHash : Digest) : State → Nat → Prop where
  | without : account.codeHash = 0 → Released s account newHash s 0
  | code {old : CodeObject} : account.codeHash ≠ 0 → s.codes.find account.codeKey = some old →
      old.codeHash ≠ newHash →
      Released s account newHash (releaseCode old s) (old.code.length * setcodeRamBytesMultiplier)

theorem releaseOldCode_ok {account : Account} {newHash : Digest} {size : Nat}
    (h : releaseOldCode account newHash s = .ok size s') : Released s account newHash s' size := by
  rw [releaseOldCode] at h
  split at h
  · rename_i hcode
    rw [get_bind] at h
    obtain ⟨old, hfind, h⟩ := orThrow_bind_inv h
    obtain ⟨hother, h⟩ := require_bind_inv h
    cases h
    exact .code hcode hfind hother
  · rename_i hcode
    cases h
    exact .without (not_not.mp hcode)

/-- The new code is acquired, if there is any. -/
def acquireNew (vm : Vm) (code : Bytes) (firstBlockUsed : Nat) (s : State) : State :=
  if 0 < code.length then acquireCode (vm.hashOf code) code firstBlockUsed s else s

theorem setcode_ok {act : SetCode} (h : setcode vm ctx act s = .ok u s') :
    ∃ account released oldSize r, s.accounts.find act.account = some account ∧
      act.vmtype = 0 ∧ act.vmversion = 0 ∧
      Released s account (vm.hashOf act.code) released oldSize ∧
      Charged released.resources act.account
        ((act.code.length * setcodeRamBytesMultiplier : Nat) - oldSize) r ∧
      s' = { assignCode act.account (vm.hashOf act.code) 0 0 ctx.pendingBlockTime
        (acquireNew vm act.code (ctx.headBlockNum + 1) released) with resources := r } := by
  obtain ⟨-, h⟩ := require_bind_inv h
  obtain ⟨htype, h⟩ := require_bind_inv h
  obtain ⟨hversion, h⟩ := require_bind_inv h
  obtain ⟨_, -, h⟩ := reads_raise.whenever.bind_inv h
  obtain ⟨account, haccount, h⟩ := reads_getAccount.bind_inv h
  obtain ⟨-, h⟩ := require_bind_inv h
  obtain ⟨oldSize, released, hreleased, h⟩ := bind_ok_inv h
  have hreleased := releaseOldCode_ok hreleased
  obtain ⟨_, s1, hacquire, h⟩ := bind_ok_inv h
  have hs1 : s1 = acquireNew vm act.code (ctx.headBlockNum + 1) released := by
    rw [acquireNew]
    rcases whenever_ok hacquire with ⟨hpos, hacquire⟩ | ⟨hneg, rfl⟩
    · cases hacquire
      rw [if_pos hpos]
    · rw [if_neg hneg]
  have hresources : s1.resources = released.resources := by
    rw [hs1, acquireNew, acquireCode]
    split
    · split
      · rfl
      · rfl
    · rfl
  rw [modify_bind, htype, hversion] at h
  rcases whenever_ok h with ⟨-, h⟩ | ⟨hsame, rfl⟩
  · obtain ⟨r, hr, rfl⟩ := addRamUsage_ok h
    refine ⟨account, released, oldSize, r, (getAccount_ok haccount).1, htype, hversion, hreleased,
      ?_, ?_⟩
    · rw [← hresources]
      exact hr
    · rw [hs1]
  · refine ⟨account, released, oldSize, released.resources, (getAccount_ok haccount).1, htype,
      hversion, hreleased, ?_, ?_⟩
    · rw [not_not.mp hsame, Int.sub_self]
      exact charged_zero _ _
    · rw [← hresources, ← hs1]
      rfl

theorem setabi_ok {act : SetAbi} (h : setabi ctx act s = .ok u s') :
    ∃ account r, s.accounts.find act.account = some account ∧
      Charged s.resources act.account ((act.abi.length : Int) - account.abi.length) r ∧
      s' = { assignAbi act.account act.abi s with resources := r } := by
  obtain ⟨-, h⟩ := require_bind_inv h
  obtain ⟨account, haccount, h⟩ := reads_getAccount.bind_inv h
  rw [modify_bind] at h
  rcases whenever_ok h with ⟨-, h⟩ | ⟨hsame, rfl⟩
  · obtain ⟨r, hr, rfl⟩ := addRamUsage_ok h
    exact ⟨account, r, (getAccount_ok haccount).1, hr, rfl⟩
  · refine ⟨account, s.resources, (getAccount_ok haccount).1, ?_, rfl⟩
    rw [not_not.mp hsame, Int.sub_self]
    exact charged_zero _ _

/-- Code and ABI are set and ten times their size is charged. -/
theorem initializeContract_ok {contract : Name} {code abi : Bytes} {time : Nat} {privileged : Bool}
    (h : initializeContract vm contract code abi time privileged s = .ok u s') :
    ∃ account r, s.accounts.find contract = some account ∧
      Charged s.resources contract
        ((code.length + abi.length) * setcodeRamBytesMultiplier : Nat) r ∧
      s' = { assignContract contract (vm.sha256 code) abi time privileged
        (acquireCode (vm.sha256 code) code 1 s) with resources := r } := by
  obtain ⟨account, haccount, h⟩ := reads_getAccount.bind_inv h
  rw [modify_bind, modify_bind, get_bind] at h
  obtain ⟨usage, husage, h⟩ := raise_bind_inv h
  have hresources : (acquireCode (vm.sha256 code) code 1 s).resources = s.resources := by
    rw [acquireCode]
    split
    · rfl
    · rfl
  have husage : (acquireCode (vm.sha256 code) code 1 s).resources.usage contract = some usage :=
    getUsage_ok husage
  rw [hresources] at husage
  cases h
  have hcharged := charged_setUsage husage
    (n := usage.ramUsage + (code.length + abi.length) * setcodeRamBytesMultiplier)
    (by push_cast; rfl)
  refine ⟨account, _, (getAccount_ok haccount).1, hcharged, ?_⟩
  rw [← hresources]
  rfl

/-! ## Permissions -/

theorem replaceAuth_ok {level : PermissionLevel} {auth : Auth}
    (h : replaceAuth level auth s = .ok u s') :
    ∃ p, level.actor ≠ noName ∧
      findByOwner s.permissions level.actor level.permission = some p ∧
      s' = exchangeAuth p.id auth s := by
  rw [replaceAuth, get_bind] at h
  obtain ⟨p, hp, h⟩ := raise_bind_inv h
  obtain ⟨hactor, -, hfind⟩ := getPermission_ok hp
  cases h
  exact ⟨p, hactor, hfind, rfl⟩

/-- The owner permission, and the active permission under it. -/
theorem createPermissions_ok {name : Name} {owner active : Auth} {time : Nat}
    (h : createPermissions ctx name owner active time s = .ok u s') :
    ∃ t, findByOwner s.permissions name ownerName = none ∧
      findByOwner (addPermission name ownerName 0 owner t s).permissions name activeName = none ∧
      s' = addPermission name activeName s.permissions.next active t
        (addPermission name ownerName 0 owner t s) := by
  obtain ⟨n, s1, howner, h⟩ := bind_ok_inv h
  obtain ⟨hfree, rfl, rfl⟩ := createPermission_ok howner
  obtain ⟨m, s2, hactive, h⟩ := bind_ok_inv h
  obtain ⟨hfree', -, rfl⟩ := createPermission_ok hactive
  cases h
  exact ⟨_, hfree, hfree', rfl⟩

/-! ## Deferred transactions -/

theorem reads_requirePayer {payer : Name} : Reads (requirePayer ctx payer) := by
  rw [requirePayer]
  split
  · exact reads_require.bind fun _ => reads_require
  · exact reads_requireAuthorization

theorem createDeferred_ok {d : Deferred} (h : createDeferred d s = .ok u s') :
    ∃ hfree, s' = { s with deferred := s.deferred.insert d hfree } := by
  rw [createDeferred, get_bind] at h
  split at h
  · rename_i hfree
    cases h
    exact ⟨hfree, rfl⟩
  · cases h

variable {senderId : Nat}

theorem removeDeferred_ok {sender : Name} (h : removeDeferred sender senderId s = .ok u s') :
    s' = s ∨ ∃ d r, s.deferred.find d.key = some d ∧
      Charged s.resources d.payer (-Deferred.size d) r ∧
      s' = { s with resources := r, deferred := s.deferred.erase d.key } := by
  rw [removeDeferred, get_bind] at h
  cases hfind : s.deferred.find (sender, senderId) with
  | none =>
    rw [hfind] at h
    cases h
    exact .inl rfl
  | some d =>
    rw [hfind] at h
    obtain ⟨_, s1, husage, h⟩ := bind_ok_inv h
    obtain ⟨r, hr, rfl⟩ := addRamUsage_ok husage
    cases h
    exact .inr ⟨d, r, (Table.find_some hfind).2 ▸ hfind, hr, rfl⟩

theorem refundExisting_ok {old : Deferred} (h : refundExisting ctx old s = .ok u s') :
    (∃ r, Charged s.resources old.payer (-Deferred.size old) r ∧ s' = { s with resources := r }) ∨
      s' = addToRamCorrection old.payer (Deferred.size old) s := by
  rw [refundExisting] at h
  split at h
  · exact .inl (addRamUsage_ok h)
  · cases h
    exact .inr rfl

variable {allowed subjective : Bool}

theorem makeRoom_ok (h : makeRoom ctx senderId allowed subjective s = .ok u s') :
    s' = s ∨ ∃ old s1, s.deferred.find old.key = some old ∧
      refundExisting ctx old s = .ok () s1 ∧
      s' = { s1 with deferred := s1.deferred.erase old.key } := by
  rw [makeRoom, get_bind] at h
  cases hfind : s.deferred.find (ctx.receiver, senderId) with
  | none =>
    rw [hfind] at h
    cases h
    exact .inl rfl
  | some old =>
    rw [hfind] at h
    obtain ⟨-, h⟩ := require_bind_inv h
    obtain ⟨-, h⟩ := require_bind_inv h
    obtain ⟨_, s1, hrefund, h⟩ := bind_ok_inv h
    cases h
    exact .inr ⟨old, s1, (Table.find_some hfind).2 ▸ hfind, hrefund, rfl⟩

/-- What goes before the new transaction is stored, and what comes after. -/
theorem scheduleDeferred_ok {payer : Name} {packedTrx : Bytes}
    (h : scheduleDeferred ctx senderId payer packedTrx allowed subjective s = .ok u s') :
    ∃ s1 s2, makeRoom ctx senderId allowed subjective s = .ok () s1 ∧
      createDeferred ⟨ctx.receiver, senderId, payer, packedTrx⟩ s1 = .ok () s2 ∧
      addRamUsage payer (deferredSize + packedTrx.length : Nat) s2 = .ok u s' := by
  obtain ⟨_, -, h⟩ := reads_requirePayer.whenever.bind_inv h
  obtain ⟨_, s1, hroom, h⟩ := bind_ok_inv h
  obtain ⟨_, s2, hcreate, h⟩ := bind_ok_inv h
  obtain ⟨-, h⟩ := require_bind_inv h
  exact ⟨s1, s2, hroom, hcreate, h⟩

/-! ## Steps on permissions -/

/-- Only permissions, their usages, links and RAM usages differ, and no
    account loses its usage. -/
structure OnlyPermissions (s s' : State) : Prop where
  accounts : s'.accounts = s.accounts
  codes : s'.codes = s.codes
  tables : s'.tables = s.tables
  rows : s'.rows = s.rows
  deferred : s'.deferred = s.deferred
  ramCorrections : s'.ramCorrections = s.ramCorrections
  configNums : s'.configNums = s.configNums
  known : ∀ a, (s.resources.usage a).isSome → (s'.resources.usage a).isSome

theorem onlyPermissions_createPermission {account name : Name} {parent time : Nat} {auth : Auth} :
    Keeps OnlyPermissions (createPermission ctx account name parent auth time) := by
  intro s n s' h
  obtain ⟨-, -, rfl⟩ := createPermission_ok h
  exact ⟨rfl, rfl, rfl, rfl, rfl, rfl, rfl, fun _ h => h⟩

theorem onlyPermissions_createPermissions {name : Name} {owner active : Auth} {time : Nat} :
    Keeps OnlyPermissions (createPermissions ctx name owner active time) := by
  intro s u s' h
  obtain ⟨t, -, -, rfl⟩ := createPermissions_ok h
  exact ⟨rfl, rfl, rfl, rfl, rfl, rfl, rfl, fun _ h => h⟩

theorem onlyPermissions_replaceAuth {level : PermissionLevel} {auth : Auth} :
    Keeps OnlyPermissions (replaceAuth level auth) := by
  intro s u s' h
  obtain ⟨p, -, -, rfl⟩ := replaceAuth_ok h
  exact ⟨rfl, rfl, rfl, rfl, rfl, rfl, rfl, fun _ h => h⟩

theorem onlyPermissions_manage {action : ManageAction} :
    Keeps OnlyPermissions (action.apply ctx) := by
  intro s u s' h
  cases action with
  | updateauth update =>
    obtain ⟨-, -, -, parent, -, ⟨p, r, -, -, hr, rfl⟩ | ⟨-, r, hr, rfl⟩⟩ := updateauth_ok h
    · exact ⟨rfl, rfl, rfl, rfl, rfl, rfl, rfl, fun b hb => (hr.known b).trans hb⟩
    · exact ⟨rfl, rfl, rfl, rfl, rfl, rfl, rfl, fun b hb => (hr.known b).trans hb⟩
  | deleteauth remove =>
    obtain ⟨-, -, -, -, p, r, -, -, hr, rfl⟩ := deleteauth_ok h
    exact ⟨rfl, rfl, rfl, rfl, rfl, rfl, rfl, fun b hb => (hr.known b).trans hb⟩
  | linkauth link =>
    obtain ⟨-, -, ⟨hfree, r, hr, rfl⟩ | ⟨-, rfl⟩⟩ := linkauth_ok h
    · exact ⟨rfl, rfl, rfl, rfl, rfl, rfl, rfl, fun b hb => (hr.known b).trans hb⟩
    · exact ⟨rfl, rfl, rfl, rfl, rfl, rfl, rfl, fun _ h => h⟩
  | unlinkauth unlink =>
    obtain ⟨l, r, -, hr, rfl⟩ := unlinkauth_ok h
    exact ⟨rfl, rfl, rfl, rfl, rfl, rfl, rfl, fun b hb => (hr.known b).trans hb⟩

/-! ## Steps on deferred transactions -/

/-- Only deferred transactions, corrections and RAM usages differ, of the same
    accounts. -/
structure OnlyDeferred (s s' : State) : Prop where
  accounts : s'.accounts = s.accounts
  codes : s'.codes = s.codes
  permissions : s'.permissions = s.permissions
  usages : s'.usages = s.usages
  links : s'.links = s.links
  tables : s'.tables = s.tables
  rows : s'.rows = s.rows
  configNums : s'.configNums = s.configNums
  known : ∀ a, (s'.resources.usage a).isSome = (s.resources.usage a).isSome

theorem OnlyDeferred.refl (s : State) : OnlyDeferred s s :=
  ⟨rfl, rfl, rfl, rfl, rfl, rfl, rfl, rfl, fun _ => rfl⟩

theorem OnlyDeferred.trans ⦃a b c : State⦄ (h : OnlyDeferred a b) (h' : OnlyDeferred b c) :
    OnlyDeferred a c where
  accounts := h'.accounts.trans h.accounts
  codes := h'.codes.trans h.codes
  permissions := h'.permissions.trans h.permissions
  usages := h'.usages.trans h.usages
  links := h'.links.trans h.links
  tables := h'.tables.trans h.tables
  rows := h'.rows.trans h.rows
  configNums := h'.configNums.trans h.configNums
  known := fun a => (h'.known a).trans (h.known a)

theorem onlyDeferred_addRamUsage {a : Name} {delta : Int} :
    Keeps OnlyDeferred (addRamUsage a delta) := by
  intro s u s' h
  obtain ⟨r, hr, rfl⟩ := addRamUsage_ok h
  exact ⟨rfl, rfl, rfl, rfl, rfl, rfl, rfl, rfl, hr.known⟩

theorem onlyDeferred_createDeferred {d : Deferred} : Keeps OnlyDeferred (createDeferred d) := by
  intro s u s' h
  obtain ⟨hfree, rfl⟩ := createDeferred_ok h
  exact ⟨rfl, rfl, rfl, rfl, rfl, rfl, rfl, rfl, fun _ => rfl⟩

theorem onlyDeferred_refundExisting {old : Deferred} :
    Keeps OnlyDeferred (refundExisting ctx old) := by
  intro s u s' h
  rcases refundExisting_ok h with ⟨r, hr, rfl⟩ | rfl
  · exact ⟨rfl, rfl, rfl, rfl, rfl, rfl, rfl, rfl, hr.known⟩
  · rw [addToRamCorrection]
    split
    · exact ⟨rfl, rfl, rfl, rfl, rfl, rfl, rfl, rfl, fun _ => rfl⟩
    · exact ⟨rfl, rfl, rfl, rfl, rfl, rfl, rfl, rfl, fun _ => rfl⟩

theorem onlyDeferred_makeRoom : Keeps OnlyDeferred (makeRoom ctx senderId allowed subjective) := by
  intro s u s' h
  rcases makeRoom_ok h with rfl | ⟨old, s1, -, hrefund, rfl⟩
  · exact OnlyDeferred.refl _
  · exact (onlyDeferred_refundExisting _ _ _ hrefund).trans
      ⟨rfl, rfl, rfl, rfl, rfl, rfl, rfl, rfl, fun _ => rfl⟩

theorem onlyDeferred_scheduleDeferred {payer : Name} {packedTrx : Bytes} :
    Keeps OnlyDeferred (scheduleDeferred ctx senderId payer packedTrx allowed subjective) := by
  intro s u s' h
  obtain ⟨s1, s2, hroom, hcreate, hbill⟩ := scheduleDeferred_ok h
  exact (onlyDeferred_makeRoom _ _ _ hroom).trans
    ((onlyDeferred_createDeferred _ _ _ hcreate).trans (onlyDeferred_addRamUsage _ _ _ hbill))

theorem onlyDeferred_delayTransaction {payer : Name} {packedTrx : Bytes} :
    Keeps OnlyDeferred (delayTransaction senderId payer packedTrx) :=
  onlyDeferred_createDeferred.bind OnlyDeferred.trans fun _ => onlyDeferred_addRamUsage

theorem onlyDeferred_removeDeferred {sender : Name} :
    Keeps OnlyDeferred (removeDeferred sender senderId) := by
  intro s u s' h
  rcases removeDeferred_ok h with rfl | ⟨d, r, -, hr, rfl⟩
  · exact OnlyDeferred.refl _
  · exact ⟨rfl, rfl, rfl, rfl, rfl, rfl, rfl, rfl, hr.known⟩

theorem onlyDeferred_activateReplaceDeferred : Keeps OnlyDeferred activateReplaceDeferred := by
  refine keeps_get_bind fun s u s' h => ?_
  refine keeps_forM OnlyDeferred.refl OnlyDeferred.trans (fun c _ => ?_) s u s' h
  exact keeps_get_bind fun t v t' ht => by
    obtain ⟨usage, -, ht⟩ := raise_bind_inv ht
    obtain ⟨_, t1, hcharge, ht⟩ := bind_ok_inv ht
    cases ht
    exact (onlyDeferred_addRamUsage _ _ _ hcharge).trans
      ⟨rfl, rfl, rfl, rfl, rfl, rfl, rfl, rfl, fun _ => rfl⟩

/-! ## Steps on code -/

/-- Only code, what accounts run and RAM usages differ, of the same accounts. -/
structure OnlyCode (s s' : State) : Prop where
  names : s'.accounts.rows.map (·.name) = s.accounts.rows.map (·.name)
  permissions : s'.permissions = s.permissions
  usages : s'.usages = s.usages
  links : s'.links = s.links
  tables : s'.tables = s.tables
  rows : s'.rows = s.rows
  deferred : s'.deferred = s.deferred
  ramCorrections : s'.ramCorrections = s.ramCorrections
  configNums : s'.configNums = s.configNums
  known : ∀ a, (s'.resources.usage a).isSome = (s.resources.usage a).isSome

theorem OnlyCode.refl (s : State) : OnlyCode s s :=
  ⟨rfl, rfl, rfl, rfl, rfl, rfl, rfl, rfl, rfl, fun _ => rfl⟩

theorem OnlyCode.trans ⦃a b c : State⦄ (h : OnlyCode a b) (h' : OnlyCode b c) : OnlyCode a c where
  names := h'.names.trans h.names
  permissions := h'.permissions.trans h.permissions
  usages := h'.usages.trans h.usages
  links := h'.links.trans h.links
  tables := h'.tables.trans h.tables
  rows := h'.rows.trans h.rows
  deferred := h'.deferred.trans h.deferred
  ramCorrections := h'.ramCorrections.trans h.ramCorrections
  configNums := h'.configNums.trans h.configNums
  known := fun a => (h'.known a).trans (h.known a)

theorem onlyCode_acquireCode (hash : Digest) (code : Bytes) (n : Nat) (s : State) :
    OnlyCode s (acquireCode hash code n s) := by
  rw [acquireCode]
  split
  · exact ⟨rfl, rfl, rfl, rfl, rfl, rfl, rfl, rfl, rfl, fun _ => rfl⟩
  · exact ⟨rfl, rfl, rfl, rfl, rfl, rfl, rfl, rfl, rfl, fun _ => rfl⟩

theorem onlyCode_acquireNew (vm : Vm) (code : Bytes) (n : Nat) (s : State) :
    OnlyCode s (acquireNew vm code n s) := by
  rw [acquireNew]
  split
  · exact onlyCode_acquireCode ..
  · exact OnlyCode.refl s

theorem onlyCode_released {account : Account} {hash : Digest} {released : State} {n : Nat}
    (h : Released s account hash released n) : OnlyCode s released := by
  cases h with
  | without _ => exact OnlyCode.refl s
  | code _ _ _ =>
    rw [releaseCode]
    split
    · exact ⟨rfl, rfl, rfl, rfl, rfl, rfl, rfl, rfl, rfl, fun _ => rfl⟩
    · exact ⟨rfl, rfl, rfl, rfl, rfl, rfl, rfl, rfl, rfl, fun _ => rfl⟩

theorem onlyCode_assignCode (account : Name) (hash : Digest) (vmType vmVersion time : Nat)
    (s : State) : OnlyCode s (assignCode account hash vmType vmVersion time s) :=
  ⟨s.accounts.keys_modify account _ (by intro _; rfl), rfl, rfl, rfl, rfl, rfl, rfl, rfl, rfl,
    fun _ => rfl⟩

theorem onlyCode_assignAbi (account : Name) (abi : Bytes) (s : State) :
    OnlyCode s (assignAbi account abi s) :=
  ⟨s.accounts.keys_modify account _ (by intro _; rfl), rfl, rfl, rfl, rfl, rfl, rfl, rfl, rfl,
    fun _ => rfl⟩

theorem onlyCode_assignContract (contract : Name) (hash : Digest) (abi : Bytes) (time : Nat)
    (privileged : Bool) (s : State) :
    OnlyCode s (assignContract contract hash abi time privileged s) :=
  ⟨s.accounts.keys_modify contract _ (by intro _; rfl), rfl, rfl, rfl, rfl, rfl, rfl, rfl, rfl,
    fun _ => rfl⟩

/-- In the end somebody is charged, who had a usage from the start. -/
theorem OnlyCode.charged {t : State} (h : OnlyCode s t) {b : Name} {delta : Int} {r : Resources}
    (hr : Charged s.resources b delta r) : OnlyCode s { t with resources := r } where
  names := h.names
  permissions := h.permissions
  usages := h.usages
  links := h.links
  tables := h.tables
  rows := h.rows
  deferred := h.deferred
  ramCorrections := h.ramCorrections
  configNums := h.configNums
  known := hr.known

theorem onlyCode_setcode {act : SetCode} : Keeps OnlyCode (setcode vm ctx act) := by
  intro s u s' h
  obtain ⟨account, released, oldSize, r, -, -, -, hreleased, hr, rfl⟩ := setcode_ok h
  refine (onlyCode_released hreleased).trans (OnlyCode.charged ?_ hr)
  exact (onlyCode_acquireNew ..).trans (onlyCode_assignCode ..)

theorem onlyCode_setabi {act : SetAbi} : Keeps OnlyCode (setabi ctx act) := by
  intro s u s' h
  obtain ⟨account, r, -, hr, rfl⟩ := setabi_ok h
  exact (onlyCode_assignAbi ..).charged hr

theorem onlyCode_initializeContract {contract : Name} {code abi : Bytes} {time : Nat}
    {privileged : Bool} :
    Keeps OnlyCode (initializeContract vm contract code abi time privileged) := by
  intro s u s' h
  obtain ⟨account, r, -, hr, rfl⟩ := initializeContract_ok h
  exact ((onlyCode_acquireCode ..).trans (onlyCode_assignContract ..)).charged hr

/-! ## Steps made of others -/

theorem reads_verifyAccountRamUsage {name : Name} {limit : Int} :
    Reads (verifyAccountRamUsage name limit) :=
  reads_get.bind fun _ => reads_raise.bind fun _ => reads_raise.bind fun _ => reads_require

/-- What is left of `create_native_account` once account and permissions are there. -/
theorem sameNative_chargeNativeAccount {name : Name} {bytes : Nat} :
    Keeps SameNative (do
      initializeAccount name
      addRamUsage name bytes
      let s ← get
      zoom (·.resources) (fun r s => { s with resources := r })
        (verifyAccountRamUsage name (getAccountRamLimit s name)) : StateM Unit) := by
  refine sameNative_initializeAccount.bind SameNative.trans fun _ => ?_
  refine sameNative_addRamUsage.bind SameNative.trans fun _ => ?_
  refine keeps_get_bind fun s u s' h => ?_
  obtain ⟨r, hr, rfl⟩ := zoom_ok_inv h
  rw [reads_verifyAccountRamUsage _ _ _ hr]
  exact SameNative.refl s

/-- What holds from state to state while only rows, usages and configuration change. -/
structure Walk (R : State → State → Prop) : Prop where
  trans : ∀ ⦃a b c⦄, R a b → R b c → R a c
  native : ∀ ⦃s s'⦄, SameNative s s' → R s s'
  config : ∀ s typ num, R s (setNumConfigOnChain typ num s)

namespace Walk

variable {R : State → State → Prop} {name : Name} {owner active : Auth} {privileged : Bool}
  (w : Walk R)
include w

theorem refl (s : State) : R s s := w.native (.refl s)

theorem sameNative {α : Type} {x : StateM α} (hx : Keeps SameNative x) : Keeps R x :=
  fun s v s' h => w.native (hx s v s' h)

theorem setNumConfig {typ : Name} {num : Int} :
    Keeps R (modify (setNumConfigOnChain typ num) : StateM Unit) :=
  keeps_modify fun s => w.config s typ num

/-- A new account has no code. -/
theorem newaccount {create : NewAccount}
    (haccount : ∀ account : Account, account.codeHash = 0 → Keeps R (createAccount account))
    (hpermissions : ∀ time,
      Keeps R (createPermissions ctx create.name create.owner create.active time)) :
    Keeps R (newaccount ctx create) :=
  reads_checkNewaccount.bind_keeps fun _ => (haccount _ rfl).bind w.trans fun _ =>
    (w.sameNative sameNative_memoryInsert).bind w.trans fun _ =>
    (reads_validateAuthorityPrecondition _).bind_keeps fun _ =>
    (reads_validateAuthorityPrecondition _).bind_keeps fun _ =>
    (hpermissions _).bind w.trans fun _ =>
    w.sameNative (sameNative_initializeAccount.bind SameNative.trans
      fun _ => sameNative_addRamUsage)

/-- Nor has an account of genesis, and the system account has its first ABI. -/
theorem createNativeAccount
    (haccount : ∀ account : Account, account.codeHash = 0 →
      (account.name = systemAccountName → account.abi = conf.eosioAbiBin) →
      Keeps R (createAccount account))
    (hpermissions : ∀ time,
      Keeps R (createPermissions (genesisContext conf) name owner active time)) :
    Keeps R (createNativeAccount conf name owner active privileged) :=
  (haccount _ rfl fun hname => if_pos hname).bind w.trans fun _ =>
    (hpermissions _).bind w.trans fun _ => w.sameNative sameNative_chargeNativeAccount

theorem createProducerPermissions
    (hcreate : ∀ name parent auth time, Keeps R
      (createPermission (genesisContext conf) producersAccountName name parent auth time)) :
    Keeps R (createProducerPermissions conf) :=
  reads_get.bind_keeps fun _ => reads_raise.bind_keeps fun _ =>
    (hcreate _ _ _ _).bind w.trans fun _ => (hcreate _ _ _ _).bind w.trans fun _ =>
    (reads_pure _).keeps w.refl

/-- What comes after the contracts in `check_func_open`. -/
theorem afterContracts {headNum : Nat}
    (hreplace : ∀ level auth, Keeps R (replaceAuth level auth))
    (h : NativeActions.checkFuncOpen vm conf headNum s = .ok u s') :
    ∃ v s1, loadContracts vm conf headNum s = .ok v s1 ∧ R s1 s' := by
  obtain ⟨v, s1, hload, h⟩ := bind_ok_inv h
  have hmemory : ∀ name, Keeps R (createAccountInMemory name) := fun name =>
    w.sameNative sameNative_createAccountInMemory
  have hrest : R s1 s' := (reads_get.bind_keeps fun _ =>
    ((hreplace _ _).whenever w.refl).bind w.trans fun _ =>
    (w.setNumConfig.whenever w.refl).bind w.trans fun _ =>
    ((hmemory _).whenever w.refl).bind w.trans fun _ => (hmemory _).whenever w.refl) _ _ _ h
  exact ⟨v, s1, hload, hrest⟩

theorem checkFuncOpen {headNum : Nat} (hload : Keeps R (loadContracts vm conf headNum))
    (hreplace : ∀ level auth, Keeps R (replaceAuth level auth)) :
    Keeps R (checkFuncOpen vm conf headNum) := by
  intro s u s' h
  obtain ⟨v, s1, hcontracts, hrest⟩ := w.afterContracts hreplace h
  exact w.trans (hload _ _ _ hcontracts) hrest

theorem updateProducersAuthority {producers : List Name}
    (hreplace : ∀ level auth, Keeps R (replaceAuth level auth)) :
    Keeps R (updateProducersAuthority producers) :=
  (hreplace _ _).bind w.trans fun _ => (hreplace _ _).bind w.trans fun _ => hreplace _ _

theorem invariant {I : State → Prop} (hI : ∀ ⦃s s'⦄, R s s' → I s → I s') :
    Walk fun s s' => I s → I s' where
  trans := fun _ _ _ h h' hs => h' (h hs)
  native := fun _ _ h => hI (w.native h)
  config := fun s typ num => hI (w.config s typ num)

end Walk

theorem onlyCode_loadContracts {headNum : Nat} : Keeps OnlyCode (loadContracts vm conf headNum) :=
  reads_get.bind_keeps fun _ =>
    (onlyCode_initializeContract.whenever OnlyCode.refl).bind OnlyCode.trans fun _ =>
    onlyCode_initializeContract.whenever OnlyCode.refl

/-- No contract is set after the third one of genesis. -/
theorem genesisSteps_late {P : Step → Prop}
    (hinsert : ∀ code scope table payer id data, P (.insert code scope table payer id data))
    (haccount : ∀ name owner active privileged,
      P (.createNativeAccount name owner active privileged))
    (hconfig : ∀ typ num, P (.setNumConfig typ num)) (hproducers : P .createProducerPermissions) :
    ∀ step ∈ (genesisSteps conf).drop 8, P step := by
  intro step hstep
  simp only [genesisSteps, List.append_assoc, List.cons_append, List.nil_append,
    List.drop_succ_cons,
    List.drop_zero, List.mem_cons, List.mem_append, List.mem_flatMap, List.mem_map,
    List.not_mem_nil, or_false] at hstep
  rcases hstep with ⟨account, -, hstep⟩ | ⟨producer, -, rfl⟩ | rfl | rfl | rfl | rfl | rfl
  · rcases List.mem_append.mp hstep with hstep | hstep
    · split at hstep
      · cases hstep
      · rw [List.mem_singleton.mp hstep]
        exact hinsert _ _ _ _ _ _
    · simp only [List.mem_cons, List.not_mem_nil, or_false] at hstep
      rcases hstep with rfl | rfl
      · exact hinsert _ _ _ _ _ _
      · exact haccount _ _ _ _
  · exact hinsert _ _ _ _ _ _
  · exact hinsert _ _ _ _ _ _
  · exact hconfig _ _
  · exact haccount _ _ _ _
  · exact haccount _ _ _ _
  · exact hproducers

end NativeFrame
