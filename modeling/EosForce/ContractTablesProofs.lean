import EosForce.StateTablesProofs
import EosForce.ApplyContextProofs

/-! # The database of contracts

    Contracts store rows in tables, by a primary key and by secondary keys.
    A table object counts the rows of all indices that are stored under it; it
    is created with the first of them and removed with the last.  Each row and
    each table object is billed to an account.  An iterator is represented by
    the row that it stands for; a row or table that an iterator cache would
    not hand out is one that is not there. -/

namespace ContractTables

open ChainTypes TrxTypes Effect RowTable StateTables

/-! ## The operations -/

/-- `update_db_usage`. -/
def updateDbUsage (ctx : ActionContext) (payer : Name) (delta : Int) : StateM Unit := do
  whenever (0 < delta ∧ ¬ (ctx.privileged = true ∨ payer = ctx.receiver ∨
      ctx.ramRestrictions = true)) do
    require (ctx.ramBillingInNotifyAllowed = true ∨ ctx.receiver = ctx.account)
      .subjectiveBlockProduction "Cannot charge RAM to other accounts during notify."
    requireAuthorization ctx payer
  addRamUsage payer delta

section Views

variable {σ : Type} (env : TrxContext.Env σ) (node : TrxContext.Node) (a : ApplyContext.Apply)

/-- What an `apply_context` shows to these operations. -/
def contextOf : ActionContext where
  receiver := a.receiver
  account := a.act.account
  authorization := a.act.authorization
  privileged := a.privileged
  ramRestrictions := env.features.ramRestrictions
  ramBillingInNotifyAllowed := node.isRamBillingInNotifyAllowed

/-- In a transaction `update_db_usage` makes the same checks before it bills. -/
theorem updateDbUsage_checks (payer : Name) (delta : Int) : ∃ checks : Except FcException Unit,
    updateDbUsage (contextOf env node a) payer delta =
      raise checks >>= (fun _ => addRamUsage payer delta) ∧
    ApplyContext.updateDbUsage env node a payer delta =
      raise checks >>= (fun _ => ApplyContext.addRamUsage a payer delta) := by
  have hany : a.hasAuthorization payer = true ↔ ∃ p ∈ a.act.authorization, p.actor = payer := by
    simp [ApplyContext.Apply.hasAuthorization]
  dsimp only [updateDbUsage, ApplyContext.updateDbUsage, requireAuthorization,
    ApplyContext.requireAuthorization, whenever, require, contextOf]
  by_cases hcheck : 0 < delta ∧
      ¬ (a.privileged = true ∨ payer = a.receiver ∨ env.features.ramRestrictions = true)
  · simp only [if_pos hcheck]
    by_cases hnotify : node.isRamBillingInNotifyAllowed = true ∨ a.receiver = a.act.account
    · simp only [if_pos hnotify]
      by_cases hauth : ∃ p ∈ a.act.authorization, p.actor = payer
      · simp only [if_pos hauth, if_pos (hany.mpr hauth)]
        exact ⟨.ok (), rfl, rfl⟩
      · simp only [if_neg hauth, if_neg (hauth ∘ hany.mp)]
        exact ⟨.error _, rfl, rfl⟩
    · simp only [if_neg hnotify]
      exact ⟨.error _, rfl, rfl⟩
  · simp only [if_neg hcheck]
    exact ⟨.ok (), rfl, rfl⟩

end Views

/-- `find_table`. -/
def findTable (s : State) (code scope table : Name) : Option TableId :=
  s.tables.rows.find? fun t => decide (t.code = code ∧ t.scope = scope ∧ t.table = table)

/-- The creation of a table object; the number it gets. -/
def createTable (code scope table payer : Name) : StateM Nat := do
  let s ← get
  set { s with
    tables := s.tables.push (fun id => ⟨id, code, scope, table, payer, 0⟩) fun _ => rfl }
  pure s.tables.next

/-- `find_or_create_table`. -/
def findOrCreateTable (ctx : ActionContext) (code scope table payer : Name) : StateM Nat := do
  let s ← get
  match findTable s code scope table with
  | some t => pure t.id
  | none => do
      updateDbUsage ctx payer tableIdSize
      createTable code scope table payer

/-- The creation of a row. -/
def createRow (r : ContractRow) : StateM Unit := do
  let s ← get
  if h : s.rows.find r.key = none then set { s with rows := s.rows.insert r h }
  else throw ⟨.uniqueness,
    "could not insert object, most likely a uniqueness constraint was violated"⟩

/-- `++t.count` and `--t.count` of a `uint32_t`. -/
def modifyCount (tId : Nat) (f : Nat → Nat) : StateM Unit :=
  modify fun s => { s with
    tables := s.tables.modify tId (fun t => { t with count := f t.count }) fun _ => rfl }

/-- The row that an iterator stands for. -/
def getRow (key : RowKey) : StateM ContractRow := do
  let s ← get
  orThrow (s.rows.find key) ⟨.tableOperationNotPermitted, "dereference of deleted object"⟩

/-- `get_table` of the iterator cache. -/
def getTable (tId : Nat) : StateM TableId := do
  let s ← get
  orThrow (s.tables.find tId)
    ⟨.tableNotInCache, "an invariant was broken, table should be in cache"⟩

/-- `remove_table`. -/
def removeTable (ctx : ActionContext) (t : TableId) : StateM Unit := do
  updateDbUsage ctx t.payer (-tableIdSize)
  modify fun s => { s with tables := s.tables.erase t.id }

/-- The end of both ways to store: the row is created, counted and billed. -/
def storeRow (ctx : ActionContext) (r : ContractRow) : StateM Unit := do
  createRow r
  modifyCount r.tId fun count => addU32 count 1
  updateDbUsage ctx r.payer r.size

/-- The end of both removals: the row goes, and with the last row the table. -/
def removeRow (ctx : ActionContext) (r : ContractRow) : StateM Unit := do
  modifyCount r.tId fun count => subU32 count 1
  modify fun s => { s with rows := s.rows.erase r.key }
  let t ← getTable r.tId
  whenever (t.count = 0) (removeTable ctx t)

/-- `db_store_i64`. -/
def dbStoreI64 (ctx : ActionContext) (code scope table payer : Name) (id : UInt64)
    (buffer : Bytes) : StateM Unit := do
  let tId ← findOrCreateTable ctx code scope table payer
  require (payer ≠ noName) .invalidTablePayer "must specify a valid account to pay for new record"
  storeRow ctx ⟨.keyValue, tId, id, payer, buffer⟩

/-- New contents and a new payer of a row. -/
def assignRow (key : RowKey) (value : Bytes) (payer : Name) (s : State) : State :=
  { s with
    rows := s.rows.modify key (fun o => { o with value := value, payer := payer }) fun _ => rfl }

/-- The payment of an update: the old payer is refunded and the new one
    charged, or the one payer is charged or refunded the difference. -/
def payUpdate (ctx : ActionContext) (old payer : Name) (oldSize newSize : Int) : StateM Unit :=
  if old ≠ payer then do
    updateDbUsage ctx old (-oldSize)
    updateDbUsage ctx payer newSize
  else whenever (oldSize ≠ newSize) (updateDbUsage ctx old (newSize - oldSize))

/-- `db_update_i64`. -/
def dbUpdateI64 (ctx : ActionContext) (tId : Nat) (id : UInt64) (payer : Name)
    (buffer : Bytes) : StateM Unit := do
  let obj ← getRow (.keyValue, tId, id)
  let tableObj ← getTable obj.tId
  require (tableObj.code = ctx.receiver) .tableAccessViolation "db access violation"
  let oldSize : Int := (obj.value.length + RowIndex.keyValue.size : Nat)
  let newSize : Int := (buffer.length + RowIndex.keyValue.size : Nat)
  let payer := if payer = noName then obj.payer else payer
  payUpdate ctx obj.payer payer oldSize newSize
  modify (assignRow obj.key buffer payer)

/-- `db_remove_i64`. -/
def dbRemoveI64 (ctx : ActionContext) (tId : Nat) (id : UInt64) : StateM Unit := do
  let obj ← getRow (.keyValue, tId, id)
  let tableObj ← getTable obj.tId
  require (tableObj.code = ctx.receiver) .tableAccessViolation "db access violation"
  updateDbUsage ctx obj.payer (-(obj.value.length + RowIndex.keyValue.size))
  removeRow ctx obj

/-- The secondary indices. -/
inductive Secondary where
  | index64
  | index128
  | index256
  | indexDouble
  | indexLongDouble
deriving DecidableEq, Repr

def Secondary.index : Secondary → RowIndex
  | .index64 => .index64
  | .index128 => .index128
  | .index256 => .index256
  | .indexDouble => .indexDouble
  | .indexLongDouble => .indexLongDouble

/-- `generic_index::store`. -/
def genericStore (ctx : ActionContext) (index : Secondary) (scope table payer : Name)
    (id : UInt64) (value : Bytes) : StateM Unit := do
  require (payer ≠ noName) .invalidTablePayer "must specify a valid account to pay for new record"
  let tId ← findOrCreateTable ctx ctx.receiver scope table payer
  storeRow ctx ⟨index.index, tId, id, payer, value⟩

/-- `generic_index::remove`: the payer is refunded before the access check. -/
def genericRemove (ctx : ActionContext) (index : Secondary) (tId : Nat) (id : UInt64) :
    StateM Unit := do
  let obj ← getRow (index.index, tId, id)
  updateDbUsage ctx obj.payer (-index.index.size)
  let tableObj ← getTable obj.tId
  require (tableObj.code = ctx.receiver) .tableAccessViolation "db access violation"
  removeRow ctx obj

/-- `generic_index::update`. -/
def genericUpdate (ctx : ActionContext) (index : Secondary) (tId : Nat) (id : UInt64)
    (payer : Name) (secondary : Bytes) : StateM Unit := do
  let obj ← getRow (index.index, tId, id)
  let tableObj ← getTable obj.tId
  require (tableObj.code = ctx.receiver) .tableAccessViolation "db access violation"
  let payer := if payer = noName then obj.payer else payer
  whenever (obj.payer ≠ payer) do
    updateDbUsage ctx obj.payer (-index.index.size)
    updateDbUsage ctx payer index.index.size
  modify (assignRow obj.key secondary payer)

/-- The operations that change the database. -/
inductive Op where
  | storeI64 (scope table payer : Name) (id : UInt64) (buffer : Bytes)
  | updateI64 (tId : Nat) (id : UInt64) (payer : Name) (buffer : Bytes)
  | removeI64 (tId : Nat) (id : UInt64)
  | storeSecondary (index : Secondary) (scope table payer : Name) (id : UInt64) (value : Bytes)
  | updateSecondary (index : Secondary) (tId : Nat) (id : UInt64) (payer : Name) (value : Bytes)
  | removeSecondary (index : Secondary) (tId : Nat) (id : UInt64)

/-- An operation that the action of a context calls; the code of a table that
    it stores in is its receiver. -/
def Op.perform (ctx : ActionContext) : Op → StateM Unit
  | .storeI64 scope table payer id buffer =>
    dbStoreI64 ctx ctx.receiver scope table payer id buffer
  | .updateI64 tId id payer buffer => dbUpdateI64 ctx tId id payer buffer
  | .removeI64 tId id => dbRemoveI64 ctx tId id
  | .storeSecondary index scope table payer id value =>
    genericStore ctx index scope table payer id value
  | .updateSecondary index tId id payer value => genericUpdate ctx index tId id payer value
  | .removeSecondary index tId id => genericRemove ctx index tId id

/-! ## What the parts do -/

variable {ctx : ActionContext} {s s' : State} {u : Unit}

theorem updateDbUsage_ok {payer : Name} {delta : Int}
    (h : updateDbUsage ctx payer delta s = .ok u s') :
    ∃ r, Charged s.resources payer delta r ∧ s' = { s with resources := r } := by
  obtain ⟨_, s1, hchecks, husage⟩ := bind_ok_inv h
  have hsame : s1 = s := by
    rcases whenever_ok hchecks with ⟨-, hchecks⟩ | ⟨-, rfl⟩
    · obtain ⟨_, s2, hnotify, hauth⟩ := bind_ok_inv hchecks
      rw [requireAuthorization_ok hauth, (require_ok hnotify).2]
    · rfl
  rw [hsame] at husage
  exact addRamUsage_ok husage

/-- With `ram_restrictions` the charge is not checked here. -/
theorem updateDbUsage_free {payer : Name} {delta : Int} (h : ctx.ramRestrictions = true) :
    updateDbUsage ctx payer delta = addRamUsage payer delta := by
  rw [updateDbUsage, whenever, if_neg (by simp [h])]
  rfl

theorem findTable_mem {code scope table : Name} {t : TableId}
    (h : findTable s code scope table = some t) : t ∈ s.tables.rows :=
  List.mem_of_find?_eq_some h

theorem findOrCreateTable_ok {code scope table payer : Name} {tId : Nat}
    (h : findOrCreateTable ctx code scope table payer s = .ok tId s') :
    (∃ t ∈ s.tables.rows, t.id = tId ∧ s' = s) ∨
      (tId = s.tables.next ∧ ∃ r, Charged s.resources payer tableIdSize r ∧
        s' = { s with
          resources := r
          tables := s.tables.push
            (fun id => ⟨id, code, scope, table, payer, 0⟩) fun _ => rfl }) := by
  rw [findOrCreateTable, get_bind] at h
  cases hfind : findTable s code scope table with
  | some t =>
    rw [hfind] at h
    cases h
    exact .inl ⟨t, findTable_mem hfind, rfl, rfl⟩
  | none =>
    rw [hfind] at h
    obtain ⟨_, s1, husage, h⟩ := bind_ok_inv h
    obtain ⟨r, hr, rfl⟩ := updateDbUsage_ok husage
    cases h
    exact .inr ⟨rfl, r, hr, rfl⟩

variable {r : ContractRow}

theorem createRow_ok (h : createRow r s = .ok u s') :
    ∃ hfree, s' = { s with rows := s.rows.insert r hfree } := by
  rw [createRow, get_bind] at h
  split at h
  · rename_i hfree
    cases h
    exact ⟨hfree, rfl⟩
  · cases h

theorem storeRow_ok (h : storeRow ctx r s = .ok u s') :
    ∃ hfree res, Charged s.resources r.payer r.size res ∧
      s' = { s with
        rows := s.rows.insert r hfree
        tables := s.tables.modify r.tId (fun t => { t with count := addU32 t.count 1 }) fun _ => rfl
        resources := res } := by
  obtain ⟨_, s1, hcreate, h⟩ := bind_ok_inv h
  obtain ⟨hfree, rfl⟩ := createRow_ok hcreate
  rw [modifyCount, modify_bind] at h
  obtain ⟨res, hres, rfl⟩ := updateDbUsage_ok h
  exact ⟨hfree, res, hres, rfl⟩

theorem getRow_ok {key : RowKey} (h : getRow key s = .ok r s') :
    s.rows.find key = some r ∧ s' = s := orThrow_ok h

theorem getTable_ok {tId : Nat} {t : TableId} (h : getTable tId s = .ok t s') :
    s.tables.find tId = some t ∧ s' = s := orThrow_ok h

/-- The two ends of a removal. -/
theorem removeRow_ok (h : removeRow ctx r s = .ok u s') :
    ∃ t, s.tables.find r.tId = some t ∧
      ((subU32 t.count 1 ≠ 0 ∧ s' = { s with
          rows := s.rows.erase r.key
          tables := s.tables.modify r.tId (fun t => { t with count := subU32 t.count 1 })
            fun _ => rfl }) ∨
        (subU32 t.count 1 = 0 ∧ ∃ res, Charged s.resources t.payer (-tableIdSize) res ∧
          s' = { s with
          rows := s.rows.erase r.key
          tables := (s.tables.modify r.tId (fun t => { t with count := subU32 t.count 1 })
            fun _ => rfl).erase r.tId
          resources := res })) := by
  rw [removeRow, modifyCount, modify_bind, modify_bind] at h
  obtain ⟨t', s1, ht', h⟩ := bind_ok_inv h
  obtain ⟨hfind, rfl⟩ := getTable_ok ht'
  have hmodified : ∃ t, s.tables.find r.tId = some t ∧
      t' = { t with count := subU32 t.count 1 } := by
    rw [Serial.find, Serial.table_modify, Table.find_modify, if_pos rfl] at hfind
    obtain ⟨t, ht, rfl⟩ := Option.map_eq_some_iff.mp hfind
    exact ⟨t, ht, rfl⟩
  obtain ⟨t, ht, rfl⟩ := hmodified
  have hid : t.id = r.tId := (Table.find_some ht).2
  refine ⟨t, ht, ?_⟩
  rcases whenever_ok h with ⟨hzero, h⟩ | ⟨hpos, rfl⟩
  · obtain ⟨_, s2, husage, h⟩ := bind_ok_inv h
    obtain ⟨res, hres, rfl⟩ := updateDbUsage_ok husage
    cases h
    refine .inr ⟨hzero, res, hres, ?_⟩
    show State.mk .. = _
    rw [hid]
  · exact .inl ⟨hpos, rfl⟩

end ContractTables
