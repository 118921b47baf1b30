import EosForce.ContractLedgerProofs
import EosForce.DeferredLedgerProofs
import EosForce.CodeCountProofs

/-! # All that is stored for an account, and what was charged for it

    Rows and tables are not the only things that RAM is charged for, and a
    refund for one of the others lowers the same usage.  So the ledger of an
    account has everything in it that is ever refunded: rows, tables,
    permissions, links, code and ABI, deferred transactions and their
    corrections.  What an account has been charged beyond all of that, and
    beyond the overhead that comes with every account, is its margin.

    Most steps leave every margin alone.  It goes down where native code stores
    something and charges nobody: the `accounts` rows, and the authority of the
    system account that the controller replaces.  The overhead of an account can
    carry 2048 bytes of that; with more the account comes to use less than its
    rows are billed, and refunds take what was never charged.

    The permissions of `eosio.prods` are replaced whenever the schedule changes,
    and nobody is charged.  They are not in the ledger; what it is refunded if
    it manages them itself goes off its margin. -/

namespace RamLedger

open ChainTypes TrxTypes Effect Resource Authority RowTable StateTables ContractTables Table
  PermissionStore NativeActions NativeFrame DeferredLedger CodeCount

/-- The usage of an account without the overhead that it was charged when it
    was created. -/
def dues (r : Resources) (a : Name) : Int :=
  ram r a - if (r.usage a).isSome then (overheadPerAccount : Int) else 0

/-- The permissions of the account are charged for. -/
def Pays (a : Name) : Prop := a ≠ producersAccountName

instance (a : Name) : Decidable (Pays a) := inferInstanceAs (Decidable (_ ≠ _))

def permissionShare (a : Name) (p : PermissionObject) : Int :=
  if p.owner = a ∧ Pays a then ((permissionSize + authSize p.auth : Nat) : Int) else 0

/-- The billable sizes of the permissions of an account. -/
def permissionBytes (s : State) (a : Name) : Int := s.permissions.table.total (permissionShare a)

def linkShare (a : Name) (l : PermissionLink) : Int :=
  if l.account = a then (permissionLinkSize : Int) else 0

/-- The billable sizes of the links of an account. -/
def linkBytes (s : State) (a : Name) : Int := s.links.total (linkShare a)

/-- The length of a stored code. -/
def lengthAt (s : State) (k : CodeKey) : Nat := ((s.codes.find k).map (·.code.length)).getD 0

/-- What an account is refunded when its code and its ABI are cleared. -/
def contractShare (s : State) (x : Account) : Int :=
  x.abi.length + (lengthAt s x.codeKey * setcodeRamBytesMultiplier : Nat)

def contractBytes (s : State) (a : Name) : Int :=
  ((s.accounts.find a).map (contractShare s)).getD 0

/-- What is stored for an account, its rows and tables apart. -/
def rest (s : State) (a : Name) : Int :=
  permissionBytes s a + linkBytes s a + contractBytes s a + owed s a + correction s a

/-- What an account was charged beyond its overhead and all that is stored for
    it; negative where something was stored and not charged. -/
def margin (s : State) (a : Name) : Int := dues s.resources a - bytes s a - rest s a

variable {s s' : State} {u : Unit} {a : Name} {ctx : ActionContext} {vm : Vm} {conf : Conf}

theorem dues_charged {r r' : Resources} {b : Name} {delta : Int} (h : Charged r b delta r') :
    dues r' a = dues r a + if b = a then delta else 0 := by
  rw [dues, dues, h.ram, h.known]
  simp only [eq_comm (a := b)]
  omega

/-! ## Parts that are not negative -/

theorem permissionBytes_nonneg : 0 ≤ permissionBytes s a := by
  refine total_nonneg fun p => ?_
  rw [permissionShare]
  split <;> omega

theorem linkBytes_nonneg : 0 ≤ linkBytes s a := by
  refine total_nonneg fun l => ?_
  rw [linkShare]
  split <;> omega

theorem contractBytes_nonneg : 0 ≤ contractBytes s a := by
  rw [contractBytes]
  cases s.accounts.find a with
  | none => exact Int.le_refl _
  | some x =>
    show 0 ≤ contractShare s x
    rw [contractShare]
    omega

theorem rest_nonneg : 0 ≤ rest s a := by
  have hpermissions := permissionBytes_nonneg (s := s) (a := a)
  have hlinks := linkBytes_nonneg (s := s) (a := a)
  have hcontract := contractBytes_nonneg (s := s) (a := a)
  have howed := owed_nonneg (s := s) (a := a)
  rw [rest]
  omega

/-! ## Rows -/

theorem contractBytes_congr (haccounts : s'.accounts = s.accounts) (hcodes : s'.codes = s.codes) :
    contractBytes s' a = contractBytes s a := by
  have hshare : contractShare s' = contractShare s := by
    funext x
    rw [contractShare, contractShare, lengthAt, lengthAt, hcodes]
  rw [contractBytes, contractBytes, haccounts, hshare]

theorem rest_native (h : SameNative s s') : rest s' a = rest s a := by
  rw [rest, rest, permissionBytes, permissionBytes, h.permissions, linkBytes, linkBytes, h.links,
    contractBytes_congr h.accounts h.codes, owed, owed, h.deferred, correction, correction,
    h.ramCorrections]

/-- The operations of contracts charge for what they store. -/
theorem margin_contract {op : Op} (h : op.perform ctx s = .ok u s') : margin s' a = margin s a := by
  have hchange := perform_ok h
  have hslack := hchange.slack a
  rw [slack, slack] at hslack
  rw [margin, margin, dues, dues, rest_native (sameNative_perform op _ _ _ h), hchange.known a]
  omega

/-- What a row that native code inserts would be billed, with its table if that
    is not there yet. -/
def insertSize (s : State) (code scope table : Name) (data : Bytes) : Nat :=
  data.length + RowIndex.keyValue.size +
    if (findTable s code scope table).isNone then tableIdSize else 0

theorem memoryInsert_bytes {code scope table payer : Name} {id : UInt64} {data : Bytes}
    (h : memoryInsert code scope table payer id data s = .ok u s') :
    s'.resources = s.resources ∧ ∀ a, bytes s' a = bytes s a +
      if payer = a then (insertSize s code scope table data : Int) else 0 := by
  obtain ⟨tId, s1, htable, h⟩ := bind_ok_inv h
  obtain ⟨-, h⟩ := require_bind_inv h
  obtain ⟨_, s2, hrow, h⟩ := bind_ok_inv h
  obtain ⟨hfree, rfl⟩ := createRow_ok hrow
  cases h
  have htables : s1.resources = s.resources ∧ s1.rows = s.rows ∧
      ∀ a, tableBytes s1.tables.table a = tableBytes s.tables.table a +
        if payer = a ∧ (findTable s code scope table).isNone then (tableIdSize : Int) else 0 := by
    rcases memoryFindOrCreateTable_ok htable with ⟨t, -, -, hfind, rfl⟩ | ⟨hnone, -, rfl⟩
    · refine ⟨rfl, rfl, fun a => ?_⟩
      simp [hfind]
    · refine ⟨rfl, rfl, fun a => ?_⟩
      rw [tableBytes_push]
      simp [hnone]
  obtain ⟨hresources, hrows, hbytes⟩ := htables
  refine ⟨hresources, fun a => ?_⟩
  show rowBytes (s1.rows.insert _ hfree) a + tableBytes (s1.tables.modify _ _ _).table a = _
  rw [rowBytes_insert, tableBytes_modify, hbytes, hrows, bytes, insertSize]
  · by_cases hpayer : payer = a
    · simp only [hpayer, if_true, true_and]
      rw [size_of_keyValue rfl]
      split_ifs <;> push_cast <;> omega
    · simp [hpayer]
  · exact fun _ => rfl

/-- Native code that inserts a row charges nobody. -/
theorem margin_insert {code scope table payer : Name} {id : UInt64} {data : Bytes}
    (h : memoryInsert code scope table payer id data s = .ok u s') :
    margin s' a = margin s a -
      if payer = a then (insertSize s code scope table data : Int) else 0 := by
  obtain ⟨hresources, hbytes⟩ := memoryInsert_bytes h
  rw [margin, margin, rest_native (sameNative_memoryInsert _ _ _ h), hresources, hbytes]
  omega

/-! ## Permissions -/

theorem permissionBytes_add {account name : Name} {parent time : Nat} {auth : Auth} :
    permissionBytes (addPermission account name parent auth time s) a = permissionBytes s a +
      if account = a ∧ Pays a then ((permissionSize + authSize auth : Nat) : Int) else 0 := by
  obtain ⟨hfree, htable⟩ := Serial.table_push (t := s.permissions)
    (r := fun id => (⟨id, s.usages.next, parent, account, name, time, auth⟩ : PermissionObject))
    (h := fun _ => rfl)
  show (s.permissions.push _ _).table.total _ = _
  rw [htable, total_insert]
  rfl

theorem permissionBytes_modify {q : PermissionObject} {auth : Auth}
    (f : PermissionObject → PermissionObject) (hf : ∀ p, (f p).id = p.id)
    (hq : q ∈ s.permissions.rows) (howner : (f q).owner = q.owner) (hauth : (f q).auth = auth)
    (hpermissions : s'.permissions = s.permissions.modify q.id f hf) :
    permissionBytes s' a = permissionBytes s a +
      if q.owner = a ∧ Pays a then (authSize auth : Int) - authSize q.auth else 0 := by
  have hfind : s.permissions.table.find q.id = some q := Serial.find_of_mem hq
  rw [permissionBytes, hpermissions, Serial.table_modify, total_modify hfind, permissionBytes,
    permissionShare, permissionShare, howner, hauth]
  split_ifs <;> push_cast <;> omega

theorem permissionBytes_drop {q : PermissionObject} (hq : q ∈ s.permissions.rows) :
    permissionBytes (dropPermission q s) a = permissionBytes s a +
      -if q.owner = a ∧ Pays a then ((permissionSize + authSize q.auth : Nat) : Int) else 0 := by
  have hfind : s.permissions.table.find q.id = some q := Serial.find_of_mem hq
  show (s.permissions.table.erase q.id).total _ = _
  rw [total_erase hfind]
  rfl

/-- The margin where permissions, links and usages are all that differs. -/
theorem margin_permissions (h : OnlyPermissions s s') {d p l : Int}
    (hdues : dues s'.resources a = dues s.resources a + d)
    (hpermissions : permissionBytes s' a = permissionBytes s a + p)
    (hlinks : linkBytes s' a = linkBytes s a + l) : margin s' a = margin s a + d - p - l := by
  rw [margin, margin, rest, rest, contractBytes_congr h.accounts h.codes, owed, owed, h.deferred,
    correction, correction, h.ramCorrections, bytes, bytes, h.rows, h.tables]
  omega

/-- What a permission is billed. -/
def sizeAt (s : State) (level : PermissionLevel) : Int :=
  ((findByOwner s.permissions level.actor level.permission).map fun p =>
    ((permissionSize + authSize p.auth : Nat) : Int)).getD 0

/-- By how much the authority of a permission would grow. -/
def growth (s : State) (level : PermissionLevel) (auth : Auth) : Int :=
  (permissionSize + authSize auth : Nat) - sizeAt s level

/-- What an action refunds for permissions that are not in the ledger. -/
def refunded (s : State) : ManageAction → Name → Int
  | .updateauth update, a =>
    if update.account = a ∧ ¬ Pays a then
      -growth s ⟨update.account, update.permission⟩ update.auth else 0
  | .deleteauth remove, a =>
    if remove.account = a ∧ ¬ Pays a then sizeAt s ⟨remove.account, remove.permission⟩ else 0
  | _, _ => 0

theorem margin_updateauth {update : UpdateAuth} (h : updateauth ctx update s = .ok u s') :
    margin s' a = margin s a - refunded s (.updateauth update) a := by
  have honly : OnlyPermissions s s' := @onlyPermissions_manage _ (.updateauth update) _ _ _ h
  obtain ⟨-, -, -, parent, -, ⟨q, r, hfind, -, hr, rfl⟩ | ⟨hnone, r, hr, rfl⟩⟩ := updateauth_ok h
  · obtain ⟨hq, hqo, -⟩ := findByOwner_some hfind
    rw [margin_permissions honly (dues_charged hr) (permissionBytes_modify
      (fun p => { p with auth := update.auth, lastUpdated := ctx.pendingBlockTime }) (fun _ => rfl)
      hq rfl (show _ = update.auth from rfl) rfl) (Int.add_zero _).symm, refunded, growth, sizeAt,
      hfind, hqo, Option.map_some, Option.getD_some]
    split_ifs <;> grind
  · rw [margin_permissions honly (dues_charged hr) permissionBytes_add (Int.add_zero _).symm,
      refunded, growth, sizeAt, hnone, Option.map_none, Option.getD_none]
    split_ifs <;> grind

theorem margin_deleteauth {remove : DeleteAuth} (h : deleteauth ctx remove s = .ok u s') :
    margin s' a = margin s a - refunded s (.deleteauth remove) a := by
  have honly : OnlyPermissions s s' := @onlyPermissions_manage _ (.deleteauth remove) _ _ _ h
  obtain ⟨-, -, -, -, q, r, hfind, -, hr, rfl⟩ := deleteauth_ok h
  obtain ⟨hq, hqo, -⟩ := findByOwner_some hfind
  rw [margin_permissions honly (dues_charged hr) (permissionBytes_drop hq) (Int.add_zero _).symm,
    refunded, sizeAt, hfind, hqo, Option.map_some, Option.getD_some]
  split_ifs <;> grind

theorem margin_linkauth {link : LinkAuth} (h : linkauth ctx link s = .ok u s') :
    margin s' a = margin s a := by
  have honly : OnlyPermissions s s' := @onlyPermissions_manage _ (.linkauth link) _ _ _ h
  obtain ⟨-, -, ⟨hfree, r, hr, rfl⟩ | ⟨hsome, rfl⟩⟩ := linkauth_ok h
  · rw [margin_permissions honly (dues_charged hr) (Int.add_zero _).symm total_insert]
    · simp only [linkShare]
      split_ifs <;> omega
    · exact hfree
  · have hlinks : (s.links.modify link.key
      (fun l => { l with requiredPermission := link.requirement })
        fun _ => rfl).total (linkShare a) = linkBytes s a :=
      total_modify_same fun _ => rfl
    rw [margin_permissions honly (Int.add_zero _).symm (Int.add_zero _).symm
      (hlinks.trans (Int.add_zero _).symm)]
    omega

theorem margin_unlinkauth {unlink : UnlinkAuth} (h : unlinkauth ctx unlink s = .ok u s') :
    margin s' a = margin s a := by
  have honly : OnlyPermissions s s' := @onlyPermissions_manage _ (.unlinkauth unlink) _ _ _ h
  obtain ⟨l, r, hfind, hr, rfl⟩ := unlinkauth_ok h
  have haccount : l.account = unlink.account :=
    congrArg (fun k : Name × Name × Name => k.1) (find_some hfind).2
  rw [margin_permissions honly (dues_charged hr) (Int.add_zero _).symm (total_erase hfind),
    linkShare, haccount]
  split_ifs <;> omega

/-- Managing permissions charges for what is stored. -/
theorem margin_manage {action : ManageAction} (h : action.apply ctx s = .ok u s') :
    margin s' a = margin s a - refunded s action a := by
  cases action with
  | updateauth update => exact margin_updateauth h
  | deleteauth remove => exact margin_deleteauth h
  | linkauth link => exact (margin_linkauth h).trans (Int.sub_zero _).symm
  | unlinkauth unlink => exact (margin_unlinkauth h).trans (Int.sub_zero _).symm

/-- An authority that the controller replaces is not charged for. -/
theorem margin_replaceAuth {level : PermissionLevel} {auth : Auth}
    (h : replaceAuth level auth s = .ok u s') :
    margin s' a = margin s a - if level.actor = a ∧ Pays a then growth s level auth else 0 := by
  have honly := onlyPermissions_replaceAuth _ _ _ h
  obtain ⟨q, -, hfind, rfl⟩ := replaceAuth_ok h
  obtain ⟨hq, hqo, -⟩ := findByOwner_some hfind
  rw [margin_permissions honly (Int.add_zero _).symm (permissionBytes_modify
    (fun p => { p with auth := auth }) (fun _ => rfl) hq rfl (show _ = auth from rfl) rfl)
    (Int.add_zero _).symm, growth, sizeAt, hfind, hqo, Option.map_some, Option.getD_some]
  split_ifs <;> push_cast <;> omega

theorem margin_createPermission {account name : Name} {parent time n : Nat} {auth : Auth}
    (h : createPermission ctx account name parent auth time s = .ok n s') :
    margin s' a = margin s a -
      if account = a ∧ Pays a then ((permissionSize + authSize auth : Nat) : Int) else 0 := by
  have honly := onlyPermissions_createPermission _ _ _ h
  obtain ⟨-, -, rfl⟩ := createPermission_ok h
  rw [margin_permissions honly (Int.add_zero _).symm permissionBytes_add (Int.add_zero _).symm]
  omega

/-! ## Accounts -/

/-- No account refers to code that is not stored. -/
structure Counted (s : State) : Prop where
  sane : Sane s
  covered : ∀ k : CodeKey, k.1 ≠ 0 → 0 ≤ excess s k

theorem Counted.stored (h : Counted s) {x : Account} (hx : x ∈ s.accounts.rows)
    (hcode : x.codeHash ≠ 0) : s.codes.find x.codeKey ≠ none := by
  intro hnone
  have hexcess := h.covered x.codeKey hcode
  have hpos := referrers_pos hx
  rw [excess, count, hnone] at hexcess
  simp only [Option.map_none, Option.getD_none] at hexcess
  omega

variable {k : CodeKey}

/-- There is no code under the zero hash. -/
theorem lengthAt_zero (h : Sane s) (hk : k.1 = 0) : lengthAt s k = 0 := by
  cases hfind : s.codes.find k with
  | none =>
    rw [lengthAt, hfind]
    rfl
  | some o =>
    obtain ⟨hmem, rfl⟩ := find_some hfind
    exact absurd hk (h.hashed o hmem)

variable {account : Account}

/-- A new account has nothing but its ABI. -/
theorem margin_createAccount (hs : Sane s) (hbare : account.codeHash = 0)
    (h : createAccount account s = .ok u s') :
    margin s' a = margin s a - if account.name = a then (account.abi.length : Int) else 0 := by
  obtain ⟨hfree, rfl⟩ := createAccount_ok h
  have hcontract : contractBytes { s with accounts := s.accounts.insert account hfree } a =
      contractBytes s a + if account.name = a then (account.abi.length : Int) else 0 := by
    rw [contractBytes, contractBytes]
    show (((s.accounts.insert account hfree).find a).map (contractShare s)).getD 0 = _
    rw [find_insert]
    by_cases hname : account.name = a
    · subst hname
      rw [if_pos rfl, if_pos rfl, hfree]
      show contractShare s account = 0 + _
      rw [contractShare, lengthAt_zero hs hbare]
      omega
    · rw [if_neg fun h => hname h.symm, if_neg hname, Int.add_zero]
  show dues s.resources a - bytes s a - (permissionBytes s a + linkBytes s a +
    contractBytes { s with accounts := s.accounts.insert account hfree } a + owed s a +
    correction s a) = _
  rw [hcontract, margin, rest]
  omega

/-- The overhead counts from the moment that the account has a usage. -/
theorem margin_initializeAccount {name : Name} (h : initializeAccount name s = .ok u s') :
    margin s' a = margin s a - if name = a then (overheadPerAccount : Int) else 0 := by
  have hnative := sameNative_initializeAccount _ _ _ h
  rw [NativeActions.initializeAccount, get_bind] at h
  obtain ⟨⟨hnone, -⟩, h⟩ := require_bind_inv h
  cases h
  have hdues : dues { setUsage s.resources name {} with
      weights := fun b => if b = name then some {} else s.resources.weights b } a =
      dues s.resources a - if name = a then (overheadPerAccount : Int) else 0 := by
    rw [dues, dues, ram, ram]
    by_cases hname : name = a
    · subst hname
      simp [setUsage, hnone]
    · simp [setUsage, hname, eq_comm (a := a)]
  rw [margin, margin, rest_native hnative]
  show dues _ a - bytes s a - _ = _
  rw [hdues]
  omega

theorem margin_addRamUsage {b : Name} {delta : Int} (h : addRamUsage b delta s = .ok u s') :
    margin s' a = margin s a + if b = a then delta else 0 := by
  have hnative := sameNative_addRamUsage _ _ _ h
  obtain ⟨r, hr, rfl⟩ := addRamUsage_ok h
  rw [margin, margin, rest_native hnative]
  show dues r a - bytes s a - _ = _
  rw [dues_charged hr]
  omega

/-- The permissions and the overhead of a new account are charged. -/
theorem margin_charged {name : Name} {owner active : Auth} {time : Nat} {s1 s2 : State} {v w : Unit}
    (hpermissions : createPermissions ctx name owner active time s = .ok v s1)
    (hfresh : initializeAccount name s1 = .ok w s2)
    (hcharge : addRamUsage name (newAccountBytes owner active : Nat) s2 = .ok u s') :
    margin s a ≤ margin s' a := by
  obtain ⟨n, t, howner, hpermissions⟩ := bind_ok_inv hpermissions
  obtain ⟨m, t', hactive, hpermissions⟩ := bind_ok_inv hpermissions
  cases hpermissions
  rw [margin_addRamUsage hcharge, margin_initializeAccount hfresh,
    margin_createPermission hactive, margin_createPermission howner, newAccountBytes]
  split_ifs <;> grind

/-- An account that an action creates is charged all but its row. -/
theorem margin_newaccount {create : NewAccount} (hs : Sane s)
    (h : newaccount ctx create s = .ok u s') :
    (margin s a - if create.name = a then (insertSize s systemAccountName
      systemAccountName accountsTable (accountInfo create.name 0) : Int) else 0) ≤ margin s' a := by
  obtain ⟨_, -, h⟩ := reads_checkNewaccount.bind_inv h
  obtain ⟨_, s1, haccount, h⟩ := bind_ok_inv h
  obtain ⟨_, s2, hinsert, h⟩ := bind_ok_inv h
  obtain ⟨_, -, h⟩ := (reads_validateAuthorityPrecondition _).bind_inv h
  obtain ⟨_, -, h⟩ := (reads_validateAuthorityPrecondition _).bind_inv h
  obtain ⟨_, s3, hpermissions, h⟩ := bind_ok_inv h
  obtain ⟨_, s4, hfresh, hcharge⟩ := bind_ok_inv h
  have hsize : insertSize s1 systemAccountName systemAccountName accountsTable
      (accountInfo create.name 0) = insertSize s systemAccountName systemAccountName accountsTable
      (accountInfo create.name 0) := by
    obtain ⟨hfree, rfl⟩ := createAccount_ok haccount
    rfl
  refine Int.le_trans ?_ (margin_charged hpermissions hfresh hcharge)
  rw [margin_insert hinsert, hsize, margin_createAccount hs rfl haccount]
  simp

/-! ## Code and ABI -/

/-- The margin where code, what accounts run and usages are all that differs. -/
theorem margin_code (h : OnlyCode s s') :
    margin s' a = margin s a + (dues s'.resources a - dues s.resources a) -
      (contractBytes s' a - contractBytes s a) := by
  have hcorrection : correction s' a = correction s a := by
    rw [correction, correction, h.ramCorrections]
  rw [margin, margin, rest, rest, permissionBytes, permissionBytes, h.permissions, linkBytes,
    linkBytes, h.links, owed, owed, h.deferred, hcorrection, bytes, bytes, h.rows, h.tables]
  omega

theorem contractBytes_some {x : Account} (h : s.accounts.find a = some x) :
    contractBytes s a = contractShare s x := by
  rw [contractBytes, h]
  rfl

theorem margin_setabi {act : SetAbi} (h : setabi ctx act s = .ok u s') :
    margin s' a = margin s a := by
  rw [margin_code (onlyCode_setabi _ _ _ h)]
  obtain ⟨account, r, hfind, hr, rfl⟩ := setabi_ok h
  show margin s a + (dues r a - dues s.resources a) -
    (((Table.find _ a).map (contractShare s)).getD 0 - contractBytes s a) = _
  rw [assignAbi, find_modify, dues_charged hr]
  by_cases ha : act.account = a
  · subst ha
    rw [if_pos rfl, if_pos rfl, hfind, contractBytes_some hfind]
    simp only [Option.map_some, Option.getD_some, contractShare, Account.codeKey]
    omega
  · rw [if_neg (Ne.symm ha), if_neg ha, contractBytes]
    omega

theorem lengthAt_insert {o : CodeObject} (hfree : s.codes.find o.key = none)
    (hs' : s'.codes = s.codes.insert o hfree) :
    lengthAt s' k = if k = o.key then o.code.length else lengthAt s k := by
  rw [lengthAt, hs', find_insert, lengthAt]
  split
  · rfl
  · rfl

/-- A count changes no code. -/
theorem lengthAt_modify {key k : CodeKey} (f : CodeObject → CodeObject)
    (hf : ∀ o, (f o).key = o.key) (hcode : ∀ o, (f o).code = o.code)
    (hs' : s'.codes = s.codes.modify key f hf) : lengthAt s' k = lengthAt s k := by
  rw [lengthAt, hs', find_modify, lengthAt]
  split
  · rename_i hk
    rw [hk, Option.map_map]
    cases s.codes.find key with
    | none => rfl
    | some o => exact congrArg List.length (hcode o)
  · rfl

variable {n : Nat}

variable {hash : Digest}

/-- Code that is stored again keeps its length. -/
theorem lengthAt_acquire {code : Bytes} :
    lengthAt (acquireCode hash code n s) k =
      if k = (hash, 0, 0) ∧ s.codes.find k = none then code.length else lengthAt s k := by
  rw [acquireCode]
  split
  · rename_i hfree
    rw [lengthAt_insert (o := ⟨hash, code, 1, n, 0, 0⟩) hfree rfl]
    show (if k = (hash, 0, 0) then code.length else _) = _
    by_cases hk : k = (hash, 0, 0)
    · rw [if_pos hk, if_pos ⟨hk, hk ▸ hfree⟩]
    · rw [if_neg hk, if_neg fun h => hk h.1]
  · rename_i hfound
    have hnot : ¬ (k = (hash, 0, 0) ∧ s.codes.find k = none) := fun h => hfound (h.1 ▸ h.2)
    rw [if_neg hnot]
    exact lengthAt_modify (fun o => { o with codeRefCount := o.codeRefCount + 1 }) (fun _ => rfl)
      (fun _ => rfl) rfl

/-- Another code is not touched. -/
theorem acquire_find {code : Bytes} (hk : k ≠ (hash, 0, 0)) :
    (acquireCode hash code n s).codes.find k = s.codes.find k := by
  rw [acquireCode]
  split
  · rename_i hfree
    exact (@find_insert _ _ _ s.codes _ ⟨hash, code, 1, n, 0, 0⟩ hfree k).trans (if_neg hk)
  · exact (@find_modify _ _ _ s.codes _ _ (fun o => { o with codeRefCount := o.codeRefCount + 1 })
      (fun _ => rfl) k).trans (if_neg hk)

theorem find_release {old : CodeObject} (hk : k ≠ old.key) :
    (releaseCode old s).codes.find k = s.codes.find k := by
  rw [releaseCode]
  split
  · simp only [find_erase, if_neg hk]
  · exact (@find_modify _ _ _ s.codes _ _ (fun o => { o with codeRefCount := o.codeRefCount - 1 })
      (fun _ => rfl) k).trans (if_neg hk)

theorem lengthAt_release_le {old : CodeObject} : lengthAt (releaseCode old s) k ≤ lengthAt s k := by
  rw [releaseCode]
  split
  · simp only [lengthAt, find_erase]
    split
    · exact Nat.zero_le _
    · exact Nat.le_refl _
  · exact Nat.le_of_eq (lengthAt_modify (fun o => { o with codeRefCount := o.codeRefCount - 1 })
      (fun _ => rfl) (fun _ => rfl) rfl)

/-- The code that is stored under the hash, if any, is as long. -/
def SameLength (vm : Vm) (s : State) (code : Bytes) : Prop :=
  ∀ o, s.codes.find (vm.sha256 code, 0, 0) = some o → o.code.length = code.length

/-- What the account had is what it is refunded for. -/
theorem released_size {released : State} (hs : Sane s) (h : Released s account hash released n) :
    n = lengthAt s account.codeKey * setcodeRamBytesMultiplier := by
  cases h with
  | without hbare => rw [lengthAt_zero hs hbare, Nat.zero_mul]
  | code _ hfind _ =>
    rw [lengthAt, hfind]
    rfl

/-- The release makes nothing longer, and does not touch the new code. -/
theorem released_length {released : State} (h : Released s account hash released n) :
    (∀ k, lengthAt released k ≤ lengthAt s k) ∧
      released.codes.find (hash, 0, 0) = s.codes.find (hash, 0, 0) := by
  cases h with
  | without _ => exact ⟨fun _ => Nat.le_refl _, rfl⟩
  | @code old _ _ hother =>
    refine ⟨fun k => lengthAt_release_le, find_release fun hkey => hother ?_⟩
    exact (congrArg (fun k : CodeKey => k.1) hkey).symm

theorem released_resources {released : State} (h : Released s account hash released n) :
    released.resources = s.resources := by
  cases h with
  | without _ => rfl
  | code _ _ _ =>
    rw [releaseCode]
    split
    · rfl
    · rfl

/-- What accounts other than the one that gets it have does not grow. -/
theorem acquireCode_others (hs : Counted s) {code : Bytes} {t : State} {x : Account}
    (hx : x ∈ s.accounts.rows) (hle : ∀ k, lengthAt t k ≤ lengthAt s k)
    (hfind : t.codes.find (vm.sha256 code, 0, 0) = s.codes.find (vm.sha256 code, 0, 0)) :
    lengthAt (acquireCode (vm.sha256 code) code n t) x.codeKey ≤ lengthAt s x.codeKey := by
  rw [lengthAt_acquire]
  split
  · rename_i hnew
    have hcode : x.codeHash ≠ 0 := by
      rw [show x.codeHash = vm.sha256 code from congrArg (fun k : CodeKey => k.1) hnew.1]
      exact vm.nonzero code
    refine absurd ?_ (hs.stored hx hcode)
    rw [hnew.1, ← hfind, ← hnew.1]
    exact hnew.2
  · exact hle _

/-- The code itself is stored with its length. -/
theorem acquireCode_own {code : Bytes} {t : State} (hlength : SameLength vm s code)
    (hfind : t.codes.find (vm.sha256 code, 0, 0) = s.codes.find (vm.sha256 code, 0, 0)) :
    lengthAt (acquireCode (vm.sha256 code) code n t) (vm.sha256 code, 0, 0) = code.length := by
  rw [lengthAt_acquire]
  split
  · rfl
  · rename_i hfound
    obtain ⟨o, ho⟩ := Option.ne_none_iff_exists'.mp fun hnone => hfound ⟨rfl, hnone⟩
    rw [lengthAt, ho]
    exact hlength o (hfind ▸ ho)

theorem contractBytes_others {t : State}
    (h : ∀ x ∈ s.accounts.rows, lengthAt t x.codeKey ≤ lengthAt s x.codeKey) :
    ((s.accounts.find a).map (contractShare t)).getD 0 ≤ contractBytes s a := by
  rw [contractBytes]
  cases hx : s.accounts.find a with
  | none => exact Int.le_refl _
  | some x =>
    have hmul := Nat.mul_le_mul_right setcodeRamBytesMultiplier (h x (find_some hx).1)
    simp only [Option.map_some, Option.getD_some, contractShare]
    omega

/-- Code that is set is charged, and what it replaces is refunded. -/
theorem margin_setcode {act : SetCode} (hs : Counted s)
    (hlength : 0 < act.code.length → SameLength vm s act.code)
    (h : setcode vm ctx act s = .ok u s') : margin s a ≤ margin s' a := by
  rw [margin_code (onlyCode_setcode _ _ _ h)]
  obtain ⟨account, released, oldSize, r, hfind, -, -, hreleased, hr, rfl⟩ := setcode_ok h
  have hsize := released_size hs.sane hreleased
  obtain ⟨hle, hsame⟩ := released_length hreleased
  obtain ⟨hsane, haccounts, -⟩ := released_ok hs.sane hreleased
  obtain ⟨hsane', haccounts', -⟩ := acquireNew_ok vm act.code (ctx.headBlockNum + 1) hsane
  have hothers : ∀ x ∈ s.accounts.rows, lengthAt (acquireNew vm act.code (ctx.headBlockNum + 1)
      released) x.codeKey ≤ lengthAt s x.codeKey := by
    intro x hx
    rw [acquireNew]
    split
    · rename_i hpos
      rw [Vm.hashOf, if_pos hpos] at hsame ⊢
      exact acquireCode_others hs hx hle hsame
    · exact hle _
  have hown : lengthAt (acquireNew vm act.code (ctx.headBlockNum + 1) released)
      (vm.hashOf act.code, 0, 0) = act.code.length := by
    by_cases hpos : 0 < act.code.length
    · rw [acquireNew, if_pos hpos]
      rw [Vm.hashOf, if_pos hpos] at hsame ⊢
      exact acquireCode_own (hlength hpos) hsame
    · rw [lengthAt_zero hsane' (if_neg hpos)]
      omega
  generalize acquireNew vm act.code (ctx.headBlockNum + 1) released = t at *
  show _ ≤ margin s a + (dues r a - dues s.resources a) -
    (((Table.find (assignCode act.account (vm.hashOf act.code) 0 0 ctx.pendingBlockTime t).accounts
      a).map (contractShare t)).getD 0 - contractBytes s a)
  rw [assignCode, find_modify, dues_charged hr, released_resources hreleased, haccounts', haccounts]
  by_cases ha : act.account = a
  · subst ha
    rw [if_pos rfl, if_pos rfl, hfind, contractBytes_some hfind]
    simp only [Option.map_some, Option.getD_some, contractShare, Account.codeKey, hown] at *
    omega
  · have hle := contractBytes_others (a := a) hothers
    rw [if_neg (Ne.symm ha), if_neg ha]
    omega

variable {privileged : Bool}

/-- A contract that native code sets is charged ten times its ABI, too, and what
    it replaces is not refunded. -/
theorem margin_initializeContract {contract : Name} {code abi : Bytes} {time : Nat} (hs : Counted s)
    (hlength : SameLength vm s code) (hfind : s.accounts.find contract = some account)
    (h : initializeContract vm contract code abi time privileged s = .ok u s') :
    margin s a + (if a = contract ∧ 0 < abi.length then (account.abi.length : Int) else 0) ≤
      margin s' a := by
  rw [margin_code (onlyCode_initializeContract _ _ _ h)]
  obtain ⟨account', r, hfind', hr, rfl⟩ := initializeContract_ok h
  obtain rfl : account' = account := Option.some.inj (hfind'.symm.trans hfind)
  have haccounts := acquireCode_accounts (vm.sha256 code) code 1 s
  have hothers : ∀ x ∈ s.accounts.rows,
      lengthAt (acquireCode (vm.sha256 code) code 1 s) x.codeKey ≤ lengthAt s x.codeKey :=
    fun x hx => acquireCode_others hs hx (fun _ => Nat.le_refl _) rfl
  have hown : lengthAt (acquireCode (vm.sha256 code) code 1 s) (vm.sha256 code, 0, 0) =
      code.length := acquireCode_own hlength rfl
  generalize acquireCode (vm.sha256 code) code 1 s = t at *
  show _ ≤ margin s a + (dues r a - dues s.resources a) -
    (((Table.find (assignContract contract (vm.sha256 code) abi time privileged t).accounts
      a).map (contractShare t)).getD 0 - contractBytes s a)
  rw [assignContract, find_modify, dues_charged hr, haccounts]
  by_cases ha : contract = a
  · subst ha
    rw [if_pos rfl, if_pos rfl, hfind, contractBytes_some hfind]
    simp only [Option.map_some, Option.getD_some, contractShare, Account.codeKey, hown, true_and]
    have hmultiplier : setcodeRamBytesMultiplier = 10 := rfl
    rw [hmultiplier]
    split_ifs <;> push_cast <;> omega
  · have hle := contractBytes_others (a := a) hothers
    rw [if_neg (Ne.symm ha), if_neg ha, if_neg fun h => ha h.1.symm]
    omega

/-! ## Deferred transactions -/

theorem margin_deferred (h : OnlyDeferred s s') :
    margin s' a = margin s a + (ledger s' a - ledger s a) := by
  rw [margin, margin, rest, rest, dues, dues, permissionBytes, permissionBytes, h.permissions,
    linkBytes, linkBytes, h.links, contractBytes_congr h.accounts h.codes, bytes, bytes, h.rows,
      h.tables, h.known, ledger, ledger]
  omega

/-- A correction that exceeds the usage is taken as far as the usage goes. -/
theorem margin_activate (hs : Backed s) (h : activateReplaceDeferred s = .ok u s') :
    margin s a ≤ margin s' a := by
  rw [margin_deferred (onlyDeferred_activateReplaceDeferred _ _ _ h)]
  obtain ⟨t, ht, hempty, hdeferred, hram⟩ := activate_ok hs
  obtain rfl : s' = t := (EStateM.Result.ok.inj (h.symm.trans ht)).2
  have hnone : s'.ramCorrections.find a = none := by
    rw [find_none, hempty]
    exact fun c hc => (List.not_mem_nil hc).elim
  have hzero : correction s' a = 0 := by
    rw [correction, hnone]
    rfl
  rw [ledger, ledger, hram a, owed, owed, hdeferred, hzero]
  push_cast
  omega

/-! ## Counts -/

theorem counted_of_sameExcess {α : Type} {x : StateM α} (hx : Keeps SameExcess x) :
    Preserves Counted x := by
  intro s v s' h hs
  obtain ⟨hsane, hexcess⟩ := hx s v s' h hs.sane
  exact ⟨hsane, fun k hk => hexcess k hk ▸ hs.covered k hk⟩

theorem counted_of_sameCode {α : Type} {x : StateM α} (hx : Keeps SameCode x) :
    Preserves Counted x :=
  counted_of_sameExcess (sameExcess_of_sameCode hx)

theorem counted_initializeContract {contract : Name} {code abi : Bytes} {time : Nat} :
    Preserves Counted (initializeContract vm contract code abi time privileged) := by
  intro s v s' h hs
  obtain ⟨hsane, hexcess⟩ := initializeContract_excess h hs.sane
  refine ⟨hsane, fun k hk => ?_⟩
  rw [hexcess k]
  exact Int.add_nonneg (hs.covered k hk) (runsAt_nonneg s contract k)

theorem leftover_nonneg {headNum : Nat} : 0 ≤ leftover s headNum k := by
  have hsystem := runsAt_nonneg s systemAccountName k
  have hmsig := runsAt_nonneg s msigAccountName k
  rw [leftover]
  split_ifs <;> omega

/-- **STEP**: no account comes to run code that is not stored. -/
theorem counted_perform (step : Step) : Preserves Counted (step.perform vm conf) := by
  cases step with
  | reservePermission => exact counted_of_sameCode (keeps_modify fun _ => ⟨rfl, rfl⟩)
  | createNativeAccount => exact counted_of_sameExcess sameExcess_createNativeAccount
  | insert => exact counted_of_sameCode (code_walk.sameNative sameNative_memoryInsert)
  | initializeContract => exact counted_initializeContract
  | setNumConfig => exact counted_of_sameCode code_walk.setNumConfig
  | createProducerPermissions => exact counted_of_sameCode sameCode_createProducerPermissions
  | checkFuncOpen headNum =>
    intro s v s' h hs
    obtain ⟨hsane, hexcess⟩ := checkFuncOpen_excess h hs.sane
    refine ⟨hsane, fun k hk => ?_⟩
    rw [hexcess k]
    exact Int.add_nonneg (hs.covered k hk) leftover_nonneg
  | _ => exact counted_of_sameExcess (sameExcess_perform trivial fun _ => nofun)

/-! ## The start of a block -/

theorem isFuncHasOpen_congr {headNum d : Nat} {typ : Name} (h : s'.configNums = s.configNums) :
    isFuncHasOpen s' headNum typ d ↔ isFuncHasOpen s headNum typ d := by
  rw [isFuncHasOpen, isFuncHasOpen, getNumConfigOnChain, getNumConfigOnChain, h]

theorem isFuncOpenInCurrBlock_congr {headNum d : Nat} {typ : Name}
    (h : s'.configNums = s.configNums) :
    isFuncOpenInCurrBlock s' headNum typ d ↔ isFuncOpenInCurrBlock s headNum typ d := by
  rw [isFuncOpenInCurrBlock, isFuncOpenInCurrBlock, getNumConfigOnChain, getNumConfigOnChain, h]

/-- The contracts that a block loads are no longer or shorter than what is
    stored under their hashes. -/
def LoadsSameLength (vm : Vm) (conf : Conf) (s : State) (headNum : Nat) : Prop :=
  (isFuncOpenInCurrBlock s headNum FuncTyp.useSystem01 3385100 →
    SameLength vm s conf.system01Code) ∧
  (isFuncOpenInCurrBlock s headNum FuncTyp.useMsig 4356456 → SameLength vm s conf.msigCode ∧
    (vm.sha256 conf.system01Code = vm.sha256 conf.msigCode →
      conf.system01Code.length = conf.msigCode.length))

/-- A code that was stored in between is one of the two. -/
theorem SameLength.acquired {code other : Bytes} (h : SameLength vm s code)
    (hother : vm.sha256 other = vm.sha256 code → other.length = code.length)
    (hs' : s'.codes = (acquireCode (vm.sha256 other) other n s).codes) : SameLength vm s' code := by
  intro o ho
  rw [hs'] at ho
  have hlength : lengthAt (acquireCode (vm.sha256 other) other n s) (vm.sha256 code, 0, 0) =
      o.code.length := by
    rw [lengthAt, ho]
    rfl
  rw [← hlength, lengthAt_acquire]
  split
  · rename_i hnew
    exact hother (congrArg (fun k : CodeKey => k.1) hnew.1).symm
  · rename_i hold
    cases hfind : s.codes.find (vm.sha256 code, 0, 0) with
    | some o' =>
      rw [lengthAt, hfind]
      exact h o' hfind
    | none =>
      -- nothing was stored there before, and nothing is now
      have hkey : (vm.sha256 code, 0, 0) ≠ (vm.sha256 other, 0, 0) := fun hkey => hold ⟨hkey, hfind⟩
      have hzero : (acquireCode (vm.sha256 other) other n s).codes.find (vm.sha256 code, 0, 0) =
          none := by
        rw [acquire_find hkey, hfind]
      cases hzero.symm.trans ho

/-- A contract that a block loads takes from no margin. -/
theorem margin_load {contract : Name} {code abi : Bytes} {time : Nat} (hs : Counted s)
    (hlength : SameLength vm s code)
    (h : initializeContract vm contract code abi time privileged s = .ok u s') :
    margin s a ≤ margin s' a := by
  obtain ⟨account, r, hfind, -, -⟩ := initializeContract_ok h
  refine Int.le_trans ?_ (margin_initializeContract hs hlength hfind h)
  split
  · exact Int.le_add_of_nonneg_right (Int.natCast_nonneg _)
  · exact Int.le_of_eq (Int.add_zero _).symm

theorem margin_loadContracts {headNum : Nat} (hs : Counted s)
    (hlength : LoadsSameLength vm conf s headNum)
    (h : loadContracts vm conf headNum s = .ok u s') :
    OnlyCode s s' ∧ margin s a ≤ margin s' a := by
  rw [loadContracts, get_bind] at h
  obtain ⟨_, s1, hsystem, hmsig⟩ := bind_ok_inv h
  have hfirst : OnlyCode s s1 ∧ Counted s1 ∧ margin s a ≤ margin s1 a ∧
      (isFuncOpenInCurrBlock s headNum FuncTyp.useMsig 4356456 →
        SameLength vm s1 conf.msigCode) := by
    rcases whenever_ok hsystem with ⟨hopen, hsystem⟩ | ⟨-, rfl⟩
    · refine ⟨onlyCode_initializeContract _ _ _ hsystem,
        counted_initializeContract _ _ _ hsystem hs,
        margin_load hs (hlength.1 hopen) hsystem, fun hopen' => ?_⟩
      obtain ⟨account, r, -, -, rfl⟩ := initializeContract_ok hsystem
      exact (hlength.2 hopen').1.acquired (hlength.2 hopen').2 rfl
    · exact ⟨OnlyCode.refl _, hs, Int.le_refl _, fun hopen => (hlength.2 hopen).1⟩
  obtain ⟨hframe, hcounted, hle, hmsigLength⟩ := hfirst
  rcases whenever_ok hmsig with ⟨hopen, hmsig⟩ | ⟨-, rfl⟩
  · exact ⟨hframe.trans (onlyCode_initializeContract _ _ _ hmsig),
      Int.le_trans hle (margin_load hcounted (hmsigLength hopen) hmsig)⟩
  · exact ⟨hframe, hle⟩

variable {code scope table : Name}

theorem insertSize_congr {data : Bytes} (h : s'.tables = s.tables) :
    insertSize s' code scope table data = insertSize s code scope table data := by
  rw [insertSize, insertSize, findTable, findTable, h]

theorem memoryFind_congr {id : UInt64} (htables : s'.tables = s.tables) (hrows : s'.rows = s.rows) :
    memoryFind s' code scope table id = memoryFind s code scope table id := by
  rw [memoryFind, memoryFind, findTable, findTable, htables, hrows]

/-- The row of an account that the block makes if it is not there. -/
theorem margin_createAccountInMemory {name : Name} (h : createAccountInMemory name s = .ok u s') :
    margin s' a = margin s a -
      if memoryFind s systemAccountName systemAccountName accountsTable name.value = none ∧ name = a
        then (insertSize s systemAccountName systemAccountName accountsTable
          (accountInfo name 0) : Int)
        else 0 := by
  rw [createAccountInMemory, get_bind] at h
  cases hfind : memoryFind s systemAccountName systemAccountName accountsTable name.value with
  | some row =>
    rw [hfind] at h
    rw [(require_ok h).2, if_neg fun h => Option.some_ne_none row h.1, Int.sub_zero]
  | none =>
    rw [hfind] at h
    rw [margin_insert h]
    simp

/-- What a row with its table is billed at most. -/
theorem insertSize_le {data : Bytes} :
    insertSize s code scope table data ≤ data.length + RowIndex.keyValue.size + tableIdSize := by
  rw [insertSize]
  split
  · exact Nat.le_refl _
  · omega

/-- What `check_func_open` stores for an account and charges nobody for. -/
def unbilledAtStart (s : State) (headNum : Nat) (a : Name) : Int :=
  (if isFuncOpenInCurrBlock s headNum FuncTyp.useEosioProds 0 ∧ systemAccountName = a then
    growth s ⟨systemAccountName, activeName⟩ (activeAuthority producersAccountName) else 0) +
  (if isFuncHasOpen s headNum FuncTyp.createEosioAccount 5814500 ∧
      memoryFind s systemAccountName systemAccountName accountsTable systemAccountName.value =
        none ∧
      systemAccountName = a then
    (insertSize s systemAccountName systemAccountName accountsTable
      (accountInfo systemAccountName 0) : Int) else 0) +
  (if isFuncOpenInCurrBlock s headNum FuncTyp.createProdsAccount 0 ∧ producersAccountName = a then
    (((accountInfo producersAccountName 0).length + RowIndex.keyValue.size +
      tableIdSize : Nat) : Int)
    else 0)

/-- A step that is taken where a condition holds. -/
theorem margin_whenever {P P' Q : Prop} [Decidable P] [Decidable P'] [Decidable Q]
    {x : StateM Unit} {d : Int} (hP : P ↔ P') (h : whenever P x s = .ok u s')
    (hx : x s = .ok u s' → margin s' a = margin s a - if Q then d else 0) :
    margin s' a = margin s a - if P' ∧ Q then d else 0 := by
  rcases whenever_ok h with ⟨hopen, h⟩ | ⟨hclosed, rfl⟩
  · simp [hx h, hP.mp hopen]
  · simp [hP.not.mp hclosed]

theorem margin_checkFuncOpen {headNum : Nat} (hs : Counted s)
    (hlength : LoadsSameLength vm conf s headNum) (h : checkFuncOpen vm conf headNum s = .ok u s') :
    margin s a - unbilledAtStart s headNum a ≤ margin s' a := by
  obtain ⟨_, s1, hload, h⟩ := bind_ok_inv h
  obtain ⟨hframe, hle⟩ := margin_loadContracts (a := a) hs hlength hload
  rw [get_bind] at h
  obtain ⟨_, s2, hauth, h⟩ := bind_ok_inv h
  obtain ⟨_, s3, hconfig, h⟩ := bind_ok_inv h
  obtain ⟨_, s4, hsystem, hprods⟩ := bind_ok_inv h
  have hkept : margin s3 a = margin s2 a ∧ s3.tables = s2.tables ∧ s3.rows = s2.rows := by
    rcases whenever_ok hconfig with ⟨-, hconfig⟩ | ⟨-, rfl⟩
    · cases hconfig
      exact ⟨rfl, rfl, rfl⟩
    · exact ⟨rfl, rfl, rfl⟩
  have hframe' : s2.tables = s1.tables ∧ s2.rows = s1.rows := by
    rcases whenever_ok hauth with ⟨-, hauth⟩ | ⟨-, rfl⟩
    · have honly := onlyPermissions_replaceAuth _ _ _ hauth
      exact ⟨honly.tables, honly.rows⟩
    · exact ⟨rfl, rfl⟩
  have htables : s3.tables = s.tables := (hkept.2.1.trans hframe'.1).trans hframe.tables
  have hrows : s3.rows = s.rows := (hkept.2.2.trans hframe'.2).trans hframe.rows
  have hauth := margin_whenever (a := a) (isFuncOpenInCurrBlock_congr hframe.configNums) hauth
    margin_replaceAuth
  rw [growth, sizeAt, hframe.permissions, ← sizeAt, ← growth] at hauth
  have hsystem := margin_whenever (a := a) (isFuncHasOpen_congr hframe.configNums) hsystem
    margin_createAccountInMemory
  rw [memoryFind_congr htables hrows, insertSize_congr htables] at hsystem
  have hprods := margin_whenever (a := a) (isFuncOpenInCurrBlock_congr hframe.configNums) hprods
    margin_createAccountInMemory
  have hsize : insertSize s4 systemAccountName systemAccountName accountsTable
      (accountInfo producersAccountName 0) ≤ _ := insertSize_le
  have hpays : systemAccountName = a → Pays a := fun h => h ▸ (by decide)
  rw [unbilledAtStart]
  grind

/-- The authorities of the producers are not in the ledger. -/
theorem margin_updateProducersAuthority {producers : List Name}
    (h : updateProducersAuthority producers s = .ok u s') : margin s' a = margin s a := by
  have hfree : ∀ {level : PermissionLevel} {auth : Auth} {s s' : State} {u : Unit},
      level.actor = producersAccountName → replaceAuth level auth s = .ok u s' →
      margin s' a = margin s a := by
    intro level auth s s' u hactor h
    rw [margin_replaceAuth h, hactor, if_neg fun h => h.2 h.1.symm, Int.sub_zero]
  obtain ⟨_, s1, hactive, h⟩ := bind_ok_inv h
  obtain ⟨_, s2, hmajor, hminor⟩ := bind_ok_inv h
  exact (hfree rfl hminor).trans ((hfree rfl hmajor).trans (hfree rfl hactive))

/-! ## Genesis -/

theorem margin_createNativeAccount {name : Name} {owner active : Auth} (hs : Sane s)
    (h : createNativeAccount conf name owner active privileged s = .ok u s') :
    (margin s a - if name = systemAccountName ∧ name = a then
      (conf.eosioAbiBin.length : Int) else 0) ≤ margin s' a := by
  obtain ⟨_, s1, haccount, h⟩ := bind_ok_inv h
  obtain ⟨_, s2, hpermissions, h⟩ := bind_ok_inv h
  obtain ⟨_, s3, hfresh, h⟩ := bind_ok_inv h
  obtain ⟨_, s4, hcharge, h⟩ := bind_ok_inv h
  rw [get_bind] at h
  obtain ⟨r, hr, rfl⟩ := zoom_ok_inv h
  rw [reads_verifyAccountRamUsage _ _ _ hr]
  have hcharged : margin s1 a ≤ margin s4 a := margin_charged hpermissions hfresh hcharge
  refine Int.le_trans ?_ hcharged
  rw [margin_createAccount hs rfl haccount]
  by_cases hsystem : name = systemAccountName
  · simp [hsystem]
  · simp [hsystem]

theorem margin_createProducerPermissions (h : createProducerPermissions conf s = .ok u s') :
    margin s' a = margin s a := by
  rw [createProducerPermissions, get_bind] at h
  obtain ⟨active, -, h⟩ := raise_bind_inv h
  obtain ⟨major, s1, hmajor, h⟩ := bind_ok_inv h
  obtain ⟨minor, s2, hminor, h⟩ := bind_ok_inv h
  cases h
  rw [margin_createPermission hminor, margin_createPermission hmajor,
    if_neg fun h => h.2 h.1.symm, Int.sub_zero, Int.sub_zero]

/-- The reserved permission belongs to nobody. -/
theorem margin_reservePermission (h : reservePermission s = .ok u s') :
    margin s' a = margin s a - if noName = a then (permissionSize : Int) else 0 := by
  cases h
  have hbytes : (s.permissions.push
    (fun id => ({ id := id } : PermissionObject)) fun _ => rfl).table.total
      (permissionShare a) = permissionBytes s a +
        if noName = a then (permissionSize : Int) else 0 := by
    obtain ⟨hfree, htable⟩ := Serial.table_push (t := s.permissions)
      (r := fun id => ({ id := id } : PermissionObject)) (h := fun _ => rfl)
    have hshare : permissionShare a { id := s.permissions.next } =
        if noName = a then (permissionSize : Int) else 0 := by
      by_cases ha : noName = a
      · subst ha
        rfl
      · rw [permissionShare, if_neg fun h => ha h.1, if_neg ha]
    rw [htable, total_insert, hshare]
    rfl
  show dues s.resources a - bytes s a - (Table.total _ (permissionShare a) + linkBytes s a +
    contractBytes s a + owed s a + correction s a) = _
  rw [hbytes, margin, rest]
  omega

end RamLedger
