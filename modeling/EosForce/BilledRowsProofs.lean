import EosForce.RamLedgerProofs

/-! # Rows are billed as long as the overhead covers what is not

    A run of the chain from genesis: every account uses at least as much RAM as
    its rows and tables are billed, provided that what native code stores for
    it and does not charge fits into the overhead of the account.  Then no
    refund of a row finds less than it takes.

    The condition is about the configuration of genesis and about each step,
    in the state before it.  It fails, for instance, for an account whose row
    in `accounts` is removed by the contract, with a refund, and made again by
    the next block, without a charge. -/

namespace BilledRows

open ChainTypes TrxTypes Effect Resource Authority RowTable StateTables ContractTables List
  PermissionStore NativeActions NativeFrame DeferredLedger CodeCount RamLedger

variable {s s' : State} {u : Unit} {a : Name} {ctx : ActionContext} {vm : Vm} {conf : Conf}

/-! ## What the steps store without a charge -/

/-- What a step stores for an account and charges nobody for, or refunds and
    did not charge. -/
def unbilled (s : State) : Step → Name → Int
  | .newaccount _ create, a =>
    if create.name = a then
      (insertSize s systemAccountName systemAccountName accountsTable
        (accountInfo create.name 0) : Int)
    else 0
  | .checkFuncOpen headNum, a => unbilledAtStart s headNum a
  | .manage _ action, a => refunded s action a
  | _, _ => 0

/-- Code that is set is as long as what is stored under its hash. -/
def NoCollision (vm : Vm) (conf : Conf) (s : State) : Step → Prop
  | .setcode _ act => 0 < act.code.length → SameLength vm s act.code
  | .checkFuncOpen headNum => LoadsSameLength vm conf s headNum
  | _ => True

/-- Where the step stores something for an account without a charge, that fits
    into what is left of the overhead of the account. -/
structure Covered (vm : Vm) (conf : Conf) (s : State) (step : Step) : Prop where
  room : ∀ a, 0 < unbilled s step a → unbilled s step a ≤ margin s a + overheadPerAccount
  codes : NoCollision vm conf s step

/-- **STEP**: no margin goes down by more than what is not charged. -/
theorem margin_perform {step : Step} (hlive : step.Live) (hcounted : Counted s) (hbacked : Backed s)
    (hcodes : NoCollision vm conf s step) (h : step.perform vm conf s = .ok u s') (a : Name) :
    margin s a - unbilled s step a ≤ margin s' a := by
  have hdefers : ∀ step : Step, Defers step → Keeps OnlyDeferred (step.perform vm conf) →
      step.perform vm conf s = .ok u s' → margin s a - 0 ≤ margin s' a := by
    intro step hstep honly h
    rw [margin_deferred (honly _ _ _ h), sameLedger_perform hstep _ _ _ h a]
    omega
  cases step with
  | checkFuncOpen headNum => exact margin_checkFuncOpen hcounted hcodes h
  | updateProducersAuthority producers =>
    exact Int.le_of_eq ((Int.sub_zero _).trans (margin_updateProducersAuthority h).symm)
  | activateReplaceDeferred =>
    exact Int.le_trans (Int.le_of_eq (Int.sub_zero _)) (margin_activate hbacked h)
  | newaccount ctx create => exact margin_newaccount hcounted.sane h
  | setcode ctx act =>
    exact Int.le_trans (Int.le_of_eq (Int.sub_zero _)) (margin_setcode hcounted hcodes h)
  | setabi ctx act => exact Int.le_of_eq ((Int.sub_zero _).trans (margin_setabi h).symm)
  | setconfig ctx typ num =>
    obtain ⟨-, h⟩ := require_bind_inv h
    cases h
    exact Int.le_of_eq (Int.sub_zero _)
  | manage ctx action => exact Int.le_of_eq (margin_manage h).symm
  | contract ctx op => exact Int.le_of_eq ((Int.sub_zero _).trans (margin_contract h).symm)
  | scheduleDeferred ctx senderId payer packedTrx allowed subjective =>
    exact hdefers (.scheduleDeferred ctx senderId payer packedTrx allowed subjective) trivial
      onlyDeferred_scheduleDeferred h
  | delayTransaction senderId payer packedTrx =>
    exact hdefers (.delayTransaction senderId payer packedTrx) trivial
      onlyDeferred_delayTransaction h
  | removeDeferred sender senderId =>
    exact hdefers (.removeDeferred sender senderId) trivial onlyDeferred_removeDeferred h
  | _ => exact absurd hlive id

/-- What holds in every state of a run that is covered. -/
structure Ledgered (s : State) : Prop where
  counted : Counted s
  backed : Backed s
  room : ∀ a, 0 ≤ margin s a + overheadPerAccount

theorem Ledgered.perform {step : Step} (hs : Ledgered s) (hlive : step.Live)
    (hcovered : Covered vm conf s step) (h : step.perform vm conf s = .ok u s') : Ledgered s' where
  counted := counted_perform step s u s' h hs.counted
  backed := backed_perform step s u s' h hs.backed
  room := by
    intro a
    have hbefore := hs.room a
    have hroom := hcovered.room a
    have hmargin := margin_perform hlive hs.counted hs.backed hcovered.codes h a
    omega

/-! ## Rows, and refunds for them -/

/-- Every account uses at least as much as its rows and tables are billed. -/
def Billed (s : State) : Prop :=
  ∀ a, (s.resources.usage a).isSome → bytes s a ≤ ram s.resources a

theorem Ledgered.billed (hs : Ledgered s) : Billed s := by
  intro a hknown
  have hroom := hs.room a
  have hrest := rest_nonneg (s := s) (a := a)
  rw [margin, dues, if_pos hknown] at hroom
  omega

/-- What `add_pending_ram_usage` throws when a refund exceeds the usage. -/
def underflow : FcException := ⟨.transaction, "Ram usage delta would underflow UINT64_MAX"⟩

theorem never_require {σ : Type} {c : Prop} [Decidable c] {e : FcException} {t : ExceptionType}
    {what : String} {s : σ} (hne : t ≠ e.type) : Never e (require c t what) s := by
  intro s' h
  rw [require] at h
  split at h
  · cases h
  · exact hne (congrArg FcException.type (EStateM.Result.error.inj h).1)

theorem never_underflow {r : Resources} {delta : Int}
    (hroom : (r.usage a).isSome → 0 ≤ ram r a + delta) :
    Never underflow (addPendingRamUsage a delta) r := by
  rw [addPendingRamUsage]
  split
  · intro r' h
    cases h
  · intro r' h
    rw [get_bind] at h
    cases husage : r.usage a with
    | none =>
      rw [getUsage, husage] at h
      exact absurd (congrArg FcException.type (EStateM.Result.error.inj h).1) (by decide)
    | some row =>
      have hget : getUsage r a = .ok row := by rw [getUsage, husage]
      have hle := hroom (by rw [husage]; rfl)
      rw [ram, husage] at hle
      simp only [Option.map_some, Option.getD_some] at hle
      rw [raise_bind_ok hget] at h
      have hlow : 0 ≤ delta ∨ (-delta).toNat ≤ row.ramUsage := by omega
      by_cases hhigh : delta ≤ 0 ∨ delta.toNat ≤ uint64Max - row.ramUsage
      · rw [bind_ok (require_pos hhigh _), bind_ok (require_pos hlow _)] at h
        cases h
      · rw [require, if_neg hhigh] at h
        exact absurd (congrArg FcException.what (EStateM.Result.error.inj h).1) (by decide)

theorem updateDbUsage_never {payer : Name} {delta : Int}
    (hroom : (s.resources.usage payer).isSome → 0 ≤ ram s.resources payer + delta) :
    Never underflow (updateDbUsage ctx payer delta) s := by
  refine Never.bind (Never.whenever fun _ => ?_) fun _ s1 h => ?_
  · exact (never_require (by decide)).bind fun _ _ _ => never_require (by decide)
  · have hsame : s1 = s := by
      rcases whenever_ok h with ⟨-, h⟩ | ⟨-, rfl⟩
      · obtain ⟨-, h⟩ := require_bind_inv h
        exact requireAuthorization_ok h
      · rfl
    rw [hsame]
    exact Never.zoom (never_underflow hroom)

/-- A row and a table object are parts of what their payers are billed. -/
theorem parts_le_bytes {k : RowKey} {r : ContractRow} {tId : Nat} {t : TableId}
    (hr : s.rows.find k = some r) (ht : s.tables.find tId = some t) (a : Name) :
    ((if r.payer = a then (r.size : Int) else 0) + if t.payer = a then (tableIdSize : Int) else 0) ≤
      bytes s a := by
  refine Int.add_le_add ?_ ?_
  · refine Table.le_total (w := fun r => if r.payer = a then (r.size : Int) else 0) (fun x _ => ?_)
      (Table.find_some hr).1
    split
    · exact Int.natCast_nonneg _
    · exact Int.le_refl _
  · refine Table.le_total (w := fun t => if t.payer = a then (tableIdSize : Int) else 0)
      (fun x _ => ?_) (Table.find_some (t := s.tables.table) ht).1
    split
    · exact Int.natCast_nonneg _
    · exact Int.le_refl _

theorem row_le_ram (hs : Billed s) {k : RowKey} {r : ContractRow} {t : TableId}
    (hr : s.rows.find k = some r) (ht : s.tables.find r.tId = some t)
    (hknown : (s.resources.usage r.payer).isSome) : (r.size : Int) ≤ ram s.resources r.payer := by
  have hparts := parts_le_bytes hr ht r.payer
  rw [if_pos rfl] at hparts
  have hbilled := hs _ hknown
  split at hparts <;> omega

theorem ram_nonneg {r : Resources} : 0 ≤ ram r a := Int.natCast_nonneg _

/-- The two payments of a change of payer. -/
theorem refund_charge_never {old payer : Name} {oldSize newSize : Nat}
    (hroom : (s.resources.usage old).isSome → (oldSize : Int) ≤ ram s.resources old) :
    Never underflow (do updateDbUsage ctx old (-oldSize); updateDbUsage ctx payer newSize) s := by
  refine Never.bind (updateDbUsage_never fun hknown => ?_) fun _ s1 _ =>
    updateDbUsage_never fun _ => ?_
  · have hle := hroom hknown
    omega
  · have hram := ram_nonneg (r := s1.resources) (a := payer)
    omega

theorem payUpdate_never {old payer : Name} {oldSize newSize : Nat}
    (hroom : (s.resources.usage old).isSome → (oldSize : Int) ≤ ram s.resources old) :
    Never underflow (payUpdate ctx old payer oldSize newSize) s := by
  rw [payUpdate]
  split
  · exact refund_charge_never hroom
  · refine Never.whenever fun _ => updateDbUsage_never fun hknown => ?_
    have hle := hroom hknown
    omega

theorem getRow_never {key : RowKey} : Never underflow (getRow key) s :=
  never_orThrow (by decide)

theorem getTable_never {tId : Nat} : Never underflow (getTable tId) s :=
  never_orThrow (by decide)

/-- No update of a row finds less used than it refunds. -/
theorem dbUpdateI64_never (hs : Billed s) {tId : Nat} {id : UInt64} {payer : Name}
    {buffer : Bytes} : Never underflow (dbUpdateI64 ctx tId id payer buffer) s := by
  refine Never.bind getRow_never fun obj s1 hobj => ?_
  obtain ⟨hfind, hkey, rfl⟩ := getRow_key hobj
  refine Never.bind getTable_never fun tableObj s2 htable => ?_
  obtain ⟨ht, rfl⟩ := getTable_ok htable
  refine Never.bind (never_require (by decide)) fun _ s3 haccess => ?_
  obtain ⟨-, rfl⟩ := require_ok haccess
  have hsize := size_of_keyValue (congrArg Prod.fst hkey)
  refine Never.bind (payUpdate_never fun hknown => ?_) fun _ _ _ => never_modify
  rw [← hsize]
  exact row_le_ram hs hfind ht hknown

/-- After the refund for the row there is enough for its table. -/
theorem removeRow_never (hs : Billed s) {obj : ContractRow} {s1 : State}
    (hfind : s.rows.find obj.key = some obj)
    (hrefund : updateDbUsage ctx obj.payer (-obj.size) s = .ok u s1) :
    Never underflow (removeRow ctx obj) s1 := by
  obtain ⟨r, hr, rfl⟩ := updateDbUsage_ok hrefund
  refine Never.bind never_modify fun _ s2 h2 => Never.bind never_modify fun _ s3 h3 => ?_
  cases h2
  cases h3
  refine Never.bind getTable_never fun t s4 hget => ?_
  obtain ⟨hmodified, rfl⟩ := getTable_ok hget
  have hcounted := (Serial.find_modify (t := s.tables) (k := obj.tId)).symm.trans hmodified
  rw [if_pos rfl] at hcounted
  obtain ⟨t, ht, rfl⟩ := Option.map_eq_some_iff.mp hcounted
  refine Never.whenever fun _ => Never.bind (updateDbUsage_never fun hknown => ?_) fun _ _ _ =>
    never_modify
  show 0 ≤ ram r t.payer + -(tableIdSize : Int)
  have hbilled := hs t.payer ((hr.known t.payer).symm.trans hknown)
  have hparts := parts_le_bytes hfind ht t.payer
  rw [if_pos (c := t.payer = t.payer) rfl] at hparts
  rw [hr.ram]
  simp only [eq_comm (a := t.payer)]
  split_ifs at hparts ⊢ <;> omega

/-- No removal of a row does either. -/
theorem dbRemoveI64_never (hs : Billed s) {tId : Nat} {id : UInt64} :
    Never underflow (dbRemoveI64 ctx tId id) s := by
  refine Never.bind getRow_never fun obj s1 hobj => ?_
  obtain ⟨hfind, hkey, rfl⟩ := getRow_key hobj
  refine Never.bind getTable_never fun tableObj s2 htable => ?_
  obtain ⟨ht, rfl⟩ := getTable_ok htable
  refine Never.bind (never_require (by decide)) fun _ s3 haccess => ?_
  obtain ⟨-, rfl⟩ := require_ok haccess
  have hsize : -((obj.value.length : Int) + RowIndex.keyValue.size) = -(obj.size : Int) := by
    rw [size_of_keyValue (congrArg Prod.fst hkey)]
    omega
  rw [hsize]
  refine Never.bind (updateDbUsage_never fun hknown => ?_) fun _ s4 hrefund =>
    removeRow_never hs hfind hrefund
  have hle := row_le_ram hs hfind ht hknown
  omega

/-! ## Genesis -/

/-- What a step of genesis stores for an account and charges nobody for.  The
    ABI that the system account starts with is replaced by that of its contract. -/
def founding (conf : Conf) : Step → Name → Int
  | .reservePermission, a => if noName = a then (permissionSize : Int) else 0
  | .createNativeAccount name _ _ _, a =>
    if name = systemAccountName ∧ name = a then (conf.eosioAbiBin.length : Int) else 0
  | .insert _ _ _ payer _ data, a =>
    if payer = a then ((data.length + RowIndex.keyValue.size + tableIdSize : Nat) : Int) else 0
  | .initializeContract contract _ abi _, a =>
    if contract = systemAccountName ∧ a = contract ∧ 0 < abi.length then
      -(conf.eosioAbiBin.length : Int)
    else 0
  | _, _ => 0

/-- What some steps of genesis store for an account and charge nobody for. -/
def foundingTotal (conf : Conf) (steps : List Step) (a : Name) : Int :=
  (steps.map fun step => founding conf step a).sum

/-- The contracts of genesis. -/
def contracts (conf : Conf) : List Bytes := [conf.systemCode, conf.tokenCode, conf.lockCode]

/-- What genesis does not charge for fits into the overheads, and contracts with
    one hash have one length. -/
structure Affordable (vm : Vm) (conf : Conf) : Prop where
  room : ∀ a, foundingTotal conf (genesisSteps conf) a ≤ overheadPerAccount
  codes : ∀ code ∈ contracts conf, ∀ other ∈ contracts conf, vm.sha256 other = vm.sha256 code →
    other.length = code.length

/-- The steps of genesis that set no contract. -/
def Plain : Step → Prop
  | .initializeContract .. => False
  | step => ¬ step.Live

theorem codes_plain {step : Step} (hplain : Plain step) :
    Keeps (fun s s' => s'.codes = s.codes) (step.perform vm conf) := by
  have hkept : ∀ {α : Type} {x : StateM α}, Keeps SameCode x →
      Keeps (fun s s' => s'.codes = s.codes) x := fun hx s v s' h => (hx s v s' h).codes
  cases step with
  | reservePermission => exact keeps_modify fun _ => rfl
  | createNativeAccount =>
    refine Walk.createNativeAccount ⟨fun _ _ _ h h' => h'.trans h, fun _ _ h => h.codes,
        fun _ _ _ => rfl⟩ (fun account _ _ s u s' h => ?_)
      fun _ => hkept (sameCode_of_onlyPermissions onlyPermissions_createPermissions)
    obtain ⟨hfree, rfl⟩ := createAccount_ok h
    rfl
  | insert => exact hkept (code_walk.sameNative sameNative_memoryInsert)
  | initializeContract => exact absurd hplain id
  | setNumConfig => exact hkept code_walk.setNumConfig
  | createProducerPermissions => exact hkept sameCode_createProducerPermissions
  | _ => exact absurd trivial hplain

theorem margin_plain {step : Step} (hplain : Plain step) (hs : Counted s)
    (h : step.perform vm conf s = .ok u s') : margin s a - founding conf step a ≤ margin s' a := by
  cases step with
  | reservePermission => exact Int.le_of_eq (margin_reservePermission h).symm
  | createNativeAccount => exact margin_createNativeAccount hs.sane h
  | insert code scope table payer id data =>
    have hsize : insertSize s code scope table data ≤
        data.length + RowIndex.keyValue.size + tableIdSize := insertSize_le
    rw [margin_insert h, founding]
    split <;> omega
  | initializeContract => exact absurd hplain id
  | setNumConfig =>
    cases h
    exact Int.le_of_eq (Int.sub_zero _)
  | createProducerPermissions =>
    exact Int.le_of_eq ((Int.sub_zero _).trans (margin_createProducerPermissions h).symm)
  | _ => exact absurd trivial hplain

/-- The system account has the ABI that it is created with. -/
def StartAbi (conf : Conf) (s : State) : Prop :=
  ∀ x ∈ s.accounts.rows, x.name = systemAccountName → x.abi = conf.eosioAbiBin

theorem startAbi_createNativeAccount {name : Name} {owner active : Auth} {privileged : Bool} :
    Preserves (StartAbi conf) (createNativeAccount conf name owner active privileged) := by
  have hstay : ∀ ⦃s s' : State⦄, s'.accounts = s.accounts → StartAbi conf s → StartAbi conf s' :=
    fun _ _ h hs x hx => hs x (h ▸ hx)
  refine (code_walk.invariant fun s s' h => hstay h.accounts).createNativeAccount
    (fun account _ habi s u s' h hs x hx hname => ?_)
    fun _ s u s' h => hstay (onlyPermissions_createPermissions s u s' h).accounts
  obtain ⟨hfree, rfl⟩ := createAccount_ok h
  rcases mem_append.mp hx with hx | hx
  · exact hs x hx hname
  · rw [mem_singleton.mp hx] at hname ⊢
    exact habi hname

/-- Genesis up to some step. -/
structure Founded (vm : Vm) (conf : Conf) (done : List Step) (s : State) : Prop where
  counted : Counted s
  lengths : ∀ code ∈ contracts conf, SameLength vm s code
  margins : ∀ a, -foundingTotal conf done a ≤ margin s a

theorem foundingTotal_append (conf : Conf) (done : List Step) (step : Step) (a : Name) :
    foundingTotal conf (done ++ [step]) a = foundingTotal conf done a + founding conf step a := by
  rw [foundingTotal, map_append, sum_append, map_singleton, sum_singleton]
  rfl

theorem founded_blank : Founded vm conf [] blank where
  counted :=
    ⟨⟨fun _ ho => (not_mem_nil ho).elim, fun _ ho => (not_mem_nil ho).elim⟩,
      fun _ _ => Int.le_refl _⟩
  lengths := fun _ _ _ ho => (not_mem_nil (Table.find_some ho).1).elim
  margins := fun _ => Int.le_refl _

theorem Founded.plain {done : List Step} {step : Step} (hs : Founded vm conf done s)
    (h : step.perform vm conf s = .ok u s') (hplain : Plain step) :
    Founded vm conf (done ++ [step]) s' where
  counted := counted_perform step _ _ _ h hs.counted
  lengths := by
    intro code hcode o ho
    rw [codes_plain hplain _ _ _ h] at ho
    exact hs.lengths code hcode o ho
  margins := by
    intro a
    have hbefore := hs.margins a
    have hstep := margin_plain (a := a) hplain hs.counted h
    rw [foundingTotal_append]
    omega

theorem Founded.run {done steps : List Step} (hs : Founded vm conf done s)
    (hplain : ∀ step ∈ steps, Plain step)
    (h : (steps.forM fun step => step.perform vm conf) s = .ok u s') :
    Founded vm conf (done ++ steps) s' := by
  induction steps generalizing s done with
  | nil =>
    cases h
    rw [append_nil]
    exact hs
  | cons step steps ih =>
    rw [forall_mem_cons] at hplain
    obtain ⟨_, s1, hstep, h⟩ := bind_ok_inv h
    rw [append_cons]
    exact ih (hs.plain hstep hplain.1) hplain.2 h

/-- A contract of genesis is set; the ABI of the system account is credited. -/
theorem Founded.contract {done : List Step} {contract : Name} {code abi : Bytes}
    {privileged : Bool} (hconf : Affordable vm conf) (hs : Founded vm conf done s)
    (hcode : code ∈ contracts conf) (habi : contract = systemAccountName → StartAbi conf s)
    (h : Step.perform vm conf (.initializeContract contract code abi privileged) s = .ok u s') :
    Founded vm conf (done ++ [.initializeContract contract code abi privileged]) s' := by
  obtain ⟨account, r, hfind, -, hs'⟩ := initializeContract_ok h
  obtain ⟨hmem, hname⟩ := Table.find_some hfind
  refine ⟨counted_initializeContract _ _ _ h hs.counted, fun other hother => ?_, fun a => ?_⟩
  · refine (hs.lengths other hother).acquired (n := 1) (hconf.codes other hother code hcode) ?_
    rw [hs']
    rfl
  · have hbefore := hs.margins a
    have hstep := margin_initializeContract (a := a) hs.counted (hs.lengths code hcode) hfind h
    rw [foundingTotal_append, founding]
    by_cases hsystem : contract = systemAccountName
    · rw [habi hsystem account hmem (hname.trans hsystem)] at hstep
      subst hsystem
      simp only [true_and]
      split_ifs at hstep ⊢ <;> omega
    · rw [if_neg fun h => hsystem h.1]
      split_ifs at hstep <;> omega

theorem genesis_founded (hconf : Affordable vm conf)
    (h : initializeDatabase vm conf blank = .ok () s) : Founded vm conf (genesisSteps conf) s := by
  obtain ⟨_, s1, hreserve, h⟩ := bind_ok_inv h
  have f1 := founded_blank.plain hreserve id
  have a1 : StartAbi conf s1 := by
    cases hreserve
    exact fun x hx => (not_mem_nil hx).elim
  obtain ⟨_, s2, hsystem, h⟩ := bind_ok_inv h
  have f2 := f1.plain hsystem id
  have a2 := startAbi_createNativeAccount _ _ _ hsystem a1
  obtain ⟨_, s3, htoken, h⟩ := bind_ok_inv h
  have f3 := f2.plain htoken id
  have a3 := startAbi_createNativeAccount _ _ _ htoken a2
  obtain ⟨_, s4, hlock, h⟩ := bind_ok_inv h
  have f4 := f3.plain hlock id
  have a4 := startAbi_createNativeAccount _ _ _ hlock a3
  -- only the first of the contracts is that of the system account
  obtain ⟨_, s5, hcode, h⟩ := bind_ok_inv h
  have f5 := f4.contract hconf mem_cons_self (fun _ => a4) hcode
  obtain ⟨_, s6, hcode, h⟩ := bind_ok_inv h
  have f6 := f5.contract hconf (mem_cons_of_mem _ mem_cons_self)
    (fun hname => absurd hname (by decide)) hcode
  obtain ⟨_, s7, hinsert, h⟩ := bind_ok_inv h
  have f7 := f6.plain hinsert id
  obtain ⟨_, s8, hcode, h⟩ := bind_ok_inv h
  have f8 := f7.contract hconf
    (mem_cons_of_mem _ (mem_cons_of_mem _ mem_cons_self))
    (fun hname => absurd hname (by decide)) hcode
  exact f8.run (genesisSteps_late (fun _ _ _ _ _ _ => id) (fun _ _ _ _ => id) (fun _ _ => id) id) h

theorem genesis_ledgered (hconf : Affordable vm conf)
    (h : initializeDatabase vm conf blank = .ok () s) : Ledgered s := by
  have hfounded := genesis_founded hconf h
  have hreachable : Reachable vm conf (fun _ => True) s := .genesis h
  refine ⟨hfounded.counted, backed_reachable hreachable, fun a => ?_⟩
  have hmargin := hfounded.margins a
  have hroom := hconf.room a
  omega

/-! ## Whole runs -/

theorem Ledgered.run {trace : List (State × Step)} (h : Runs vm conf s trace s') (hs : Ledgered s)
    (hcovered : ∀ x ∈ trace, Covered vm conf x.1 x.2) :
    (∀ x ∈ trace, Ledgered x.1) ∧ Ledgered s' := by
  induction h with
  | nil => exact ⟨fun x hx => (not_mem_nil hx).elim, hs⟩
  | cons hlive hstep hruns ih =>
    rw [forall_mem_cons] at hcovered
    obtain ⟨hrest, hend⟩ := ih (hs.perform hlive hcovered.1 hstep) hcovered.2
    rw [forall_mem_cons]
    exact ⟨⟨hs, hrest⟩, hend⟩

/-- Rows are billed, and no update or removal of a row throws for lack of usage. -/
def Refundable (s : State) : Prop :=
  Billed s ∧ ∀ ctx tId id, (∀ payer buffer,
    Never underflow (dbUpdateI64 ctx tId id payer buffer) s) ∧
    Never underflow (dbRemoveI64 ctx tId id) s

theorem Ledgered.refundable (hs : Ledgered s) : Refundable s :=
  ⟨hs.billed, fun _ _ _ => ⟨fun _ _ => dbUpdateI64_never hs.billed, dbRemoveI64_never hs.billed⟩⟩

/-- **EVERY ROW IS BILLED**: on a run from a genesis that is affordable, in which
    every step is covered, every state has its rows billed and its refunds
    covered. -/
theorem rows_billed_of_covered {trace : List (State × Step)} (hconf : Affordable vm conf)
    (hgenesis : initializeDatabase vm conf blank = .ok () s) (h : Runs vm conf s trace s')
    (hcovered : ∀ x ∈ trace, Covered vm conf x.1 x.2) :
    (∀ x ∈ trace, Refundable x.1) ∧ Refundable s' := by
  obtain ⟨hall, hend⟩ := (genesis_ledgered hconf hgenesis).run h hcovered
  exact ⟨fun x hx => (hall x hx).refundable, hend.refundable⟩

/-! ## A row that comes back -/

/-- The steps, with the state before each. -/
def traceOf (vm : Vm) (conf : Conf) : List Step → State → List (State × Step)
  | [], _ => []
  | step :: steps, s => (s, step) :: traceOf vm conf steps (commit (step.perform vm conf) s)

/-- None of the steps throws. -/
def AllComplete (vm : Vm) (conf : Conf) : List Step → State → Prop
  | [], _ => True
  | step :: steps, s =>
    Completes (step.perform vm conf) s ∧ AllComplete vm conf steps (commit (step.perform vm conf) s)

instance decidableAllComplete (vm : Vm) (conf : Conf) :
    (steps : List Step) → (s : State) → Decidable (AllComplete vm conf steps s)
  | [], _ => .isTrue trivial
  | step :: steps, s =>
    have := decidableAllComplete vm conf steps (commit (step.perform vm conf) s)
    inferInstanceAs (Decidable (_ ∧ _))

theorem runs_traceOf {steps : List Step} (hlive : ∀ step ∈ steps, step.Live)
    (h : AllComplete vm conf steps s) :
    Runs vm conf s (traceOf vm conf steps s) (afterSteps vm conf steps s) := by
  induction steps generalizing s with
  | nil => exact .nil s
  | cons step steps ih =>
    rw [forall_mem_cons] at hlive
    exact .cons hlive.1 (completes_iff.mp h.1) (ih hlive.2 h.2)

/-- A block in which the contract of the system removes the row of its account
    from `accounts`.  The next block makes it again, in a new table. -/
def dropping (n : Nat) : List Step :=
  [.checkFuncOpen (5814500 + n),
   .contract (signedBy systemAccountName) (.removeI64 (2 + n) systemAccountName.value)]

/-- Ten such blocks, and the start of another one. -/
def drainSteps : List Step := (List.range 10).flatMap dropping ++ [.checkFuncOpen 5814510]

def drained : State := afterSteps smallVm smallConf drainSteps smallGenesis

/-- The system account uses less than its rows are billed, and the next removal
    of its row throws. -/
theorem returning_row_drains :
    initializeDatabase smallVm smallConf blank = .ok () smallGenesis ∧
      Runs smallVm smallConf smallGenesis (traceOf smallVm smallConf drainSteps smallGenesis)
        drained ∧
      ram drained.resources systemAccountName = 190 ∧ bytes drained systemAccountName = 481 ∧
      ¬ Billed drained ∧
      ¬ Never underflow
        (dbRemoveI64 (signedBy systemAccountName) 12 systemAccountName.value) drained := by
  have hlive : ∀ step ∈ drainSteps, step.Live := by
    intro step hstep
    rcases mem_append.mp hstep with hstep | hstep
    · obtain ⟨n, -, hstep⟩ := mem_flatMap.mp hstep
      simp only [dropping, mem_cons, not_mem_nil, or_false] at hstep
      rcases hstep with rfl | rfl
      · exact trivial
      · exact trivial
    · rw [mem_singleton.mp hstep]
      exact trivial
  have hram : ram drained.resources systemAccountName = 190 := by decide +kernel
  have hbytes : bytes drained systemAccountName = 481 := by decide +kernel
  refine ⟨smallGenesis_ok, runs_traceOf hlive (by decide +kernel), hram, hbytes, ?_,
    by decide +kernel⟩
  intro hbilled
  have hle := hbilled systemAccountName (by decide +kernel)
  rw [hram, hbytes] at hle
  exact absurd hle (by decide)

/-! ## Rows that are billed -/

/-- A new account gets the one row that is not charged for. -/
theorem covered_newaccount {create : NewAccount}
    (hroom : unbilled s (.newaccount ctx create) create.name ≤
      margin s create.name + overheadPerAccount) : Covered vm conf s (.newaccount ctx create) where
  room := by
    intro a hpos
    by_cases hname : create.name = a
    · rw [← hname]
      exact hroom
    · rw [unbilled, if_neg hname] at hpos
      exact absurd hpos (lt_irrefl _)
  codes := trivial

theorem small_affordable : Affordable smallVm smallConf where
  room := by
    intro a
    simp only [foundingTotal, genesisSteps, smallConf, founding, flatMap_nil, map_nil,
      map_cons, append_nil, cons_append, nil_append, sum_cons,
      sum_nil, length_nil, Nat.cast_zero, neg_zero, ite_self, zero_add, add_zero]
    have hreserved : permissionSize ≤ 400 := by decide
    have hstats : (currencyStats 10000000 100000000000 tokenAccountName).length +
        RowIndex.keyValue.size + tableIdSize ≤ 400 := by decide
    have hstatus : (chainStatus chainstatusTable false).length + RowIndex.keyValue.size +
        tableIdSize ≤ 400 := by decide
    have hoverhead : overheadPerAccount = 2048 := rfl
    rw [hoverhead]
    split_ifs <;> omega
  codes := by decide

/-- The schedule changes to twenty producers. -/
def scheduleStep : Step := .updateProducersAuthority ((List.range 20).map fun i => ⟨.ofNat (i + 1)⟩)

/-- The contract of the system stores a row. -/
def storeStep : Step :=
  .contract (signedBy systemAccountName)
    (.storeI64 systemAccountName statTable systemAccountName 7 [1, 2, 3])

def scheduled : State := commit (scheduleStep.perform smallVm smallConf) msigCreated

def rowStored : State := commit (storeStep.perform smallVm smallConf) scheduled

/-- The row is charged for, and its removal is covered. -/
theorem stored_row_billed :
    bytes rowStored systemAccountName = bytes smallGenesis systemAccountName + 227 ∧
      ram rowStored.resources systemAccountName =
        ram smallGenesis.resources systemAccountName + 227 ∧ Refundable rowStored := by
  have hcreate : createMsig.perform smallVm smallConf smallGenesis = .ok () msigCreated :=
    completes_iff.mp (by decide +kernel)
  have hschedule : scheduleStep.perform smallVm smallConf msigCreated = .ok () scheduled :=
    completes_iff.mp (by decide +kernel)
  have hstore : storeStep.perform smallVm smallConf scheduled = .ok () rowStored :=
    completes_iff.mp (by decide +kernel)
  have hroom : unbilled smallGenesis createMsig msigAccountName ≤
      margin smallGenesis msigAccountName + overheadPerAccount := by decide +kernel
  have hbytes : bytes rowStored systemAccountName = bytes smallGenesis systemAccountName + 227 := by
    decide +kernel
  have hram : ram rowStored.resources systemAccountName =
      ram smallGenesis.resources systemAccountName + 227 := by decide +kernel
  have hgenesis := smallGenesis_ok
  refine ⟨hbytes, hram, ?_⟩
  generalize smallGenesis = start at *
  generalize msigCreated = created at *
  generalize scheduled = changed at *
  generalize rowStored = stored at *
  have hruns : Runs smallVm smallConf start
      [(start, createMsig), (created, scheduleStep), (changed, storeStep)] stored :=
    .cons trivial hcreate (.cons trivial hschedule (.cons trivial hstore (.nil _)))
  have hfree : ∀ (s : State) (step : Step), unbilled s step = (fun _ => 0) →
      NoCollision smallVm smallConf s step → Covered smallVm smallConf s step :=
    fun s step h hcodes => ⟨fun a hpos => absurd (h ▸ hpos) (lt_irrefl _), hcodes⟩
  have hcovered : ∀ x ∈ [(start, createMsig), (created, scheduleStep), (changed, storeStep)],
      Covered smallVm smallConf x.1 x.2 := by
    rw [forall_mem_cons, forall_mem_cons, forall_mem_singleton]
    exact ⟨covered_newaccount hroom, hfree _ _ rfl trivial, hfree _ _ rfl trivial⟩
  exact (rows_billed_of_covered small_affordable hgenesis hruns hcovered).2

end BilledRows
