import EosForce.ContractTablesProofs

/-! # The RAM ledger of contract tables

    What an account uses beyond the sizes of the rows and tables that it pays
    for is its slack.  A charge moves the slack of one account up, a new row
    or table moves it down, and each operation of the database pairs the two
    so that the slack of every account stays.  Beside the ledger stands the
    count of rows in each table object, which is exact as long as it does not
    wrap around. -/

namespace ContractTables

open ChainTypes TrxTypes Effect Resource RowTable StateTables Table

/-- The billable sizes of the rows that an account pays for. -/
def rowBytes (rows : Table ContractRow.key) (a : Name) : Int :=
  rows.total fun r => if r.payer = a then (r.size : Int) else 0

/-- The billable sizes of the table objects that an account pays for. -/
def tableBytes (tables : Table TableId.id) (a : Name) : Int :=
  tables.total fun t => if t.payer = a then (tableIdSize : Int) else 0

/-- The billable sizes of the rows and table objects that an account pays for. -/
def bytes (s : State) (a : Name) : Int := rowBytes s.rows a + tableBytes s.tables.table a

/-- What an account uses beyond what it pays for in tables. -/
def slack (s : State) (a : Name) : Int := ram s.resources a - bytes s a

/-- The number of rows under a table, of all indices. -/
def rowsUnder (rows : Table ContractRow.key) (tId : Nat) : Nat :=
  rows.rows.countP fun r => decide (r.tId = tId)

/-- Every table object counts its rows, and stands for at least one. -/
structure TablesOk (s : State) : Prop where
  counted : ∀ t ∈ s.tables.rows, t.count = rowsUnder s.rows t.id
  stands : ∀ tId, (∃ t ∈ s.tables.rows, t.id = tId) ↔ 0 < rowsUnder s.rows tId

/-! ## Sizes and numbers after each part -/

section Parts

variable {rows : Table ContractRow.key} {r : ContractRow} {k : RowKey}
  {f : ContractRow → ContractRow} {hf : ∀ r, (f r).key = r.key} {hfree : rows.find r.key = none}
  {a : Name} {tId : Nat}

theorem rowBytes_insert :
    rowBytes (rows.insert r hfree) a = rowBytes rows a +
      if r.payer = a then (r.size : Int) else 0 :=
  total_insert

theorem rowBytes_erase (h : rows.find k = some r) :
    rowBytes (rows.erase k) a = rowBytes rows a - if r.payer = a then (r.size : Int) else 0 :=
  total_erase h

theorem rowBytes_modify (h : rows.find k = some r) :
    rowBytes (rows.modify k f hf) a = rowBytes rows a -
      (if r.payer = a then (r.size : Int) else 0) +
      if (f r).payer = a then ((f r).size : Int) else 0 :=
  total_modify h

theorem rowsUnder_eq : (rowsUnder rows tId : Int) =
    rows.total fun r => if r.tId = tId then 1 else 0 :=
  (total_indicator fun r : ContractRow => r.tId = tId).symm

theorem rowsUnder_insert :
    rowsUnder (rows.insert r hfree) tId = rowsUnder rows tId + if r.tId = tId then 1 else 0 := by
  have hint : (rowsUnder (rows.insert r hfree) tId : Int) =
      rowsUnder rows tId + if r.tId = tId then 1 else 0 := by
    rw [rowsUnder_eq, rowsUnder_eq, total_insert]
  by_cases hid : r.tId = tId
  · rw [if_pos hid] at hint ⊢
    omega
  · rw [if_neg hid] at hint ⊢
    omega

theorem rowsUnder_erase (h : rows.find k = some r) (tId : Nat) :
    rowsUnder rows tId = rowsUnder (rows.erase k) tId + if r.tId = tId then 1 else 0 := by
  have hint : (rowsUnder (rows.erase k) tId : Int) =
      rowsUnder rows tId - if r.tId = tId then 1 else 0 := by
    rw [rowsUnder_eq, rowsUnder_eq, total_erase h]
  by_cases hid : r.tId = tId
  · rw [if_pos hid] at hint ⊢
    omega
  · rw [if_neg hid] at hint ⊢
    omega

theorem rowsUnder_modify : rowsUnder (rows.modify k f hf) tId = rowsUnder rows tId := by
  have htId : ∀ r, (f r).tId = r.tId := fun r => congrArg (fun k => k.2.1) (hf r)
  have hint : (rowsUnder (rows.modify k f hf) tId : Int) = rowsUnder rows tId := by
    rw [rowsUnder_eq, rowsUnder_eq, total_modify_same fun r => by rw [htId]]
  exact_mod_cast hint

/-- A row is one of the rows of its table. -/
theorem rowsUnder_pos (h : r ∈ rows.rows) : 0 < rowsUnder rows r.tId :=
  List.countP_pos_iff.mpr ⟨r, h, by simp⟩

variable {tables : Serial TableId.id} {t : TableId}

theorem tableBytes_push {t : Nat → TableId} {ht : ∀ n, (t n).id = n} :
    tableBytes (tables.push t ht).table a =
      tableBytes tables.table a + if (t tables.next).payer = a then (tableIdSize : Int) else 0 := by
  obtain ⟨hfree, htable⟩ := Serial.table_push (t := tables) (r := t) (h := ht)
  rw [htable]
  exact total_insert

theorem tableBytes_erase (h : tables.find tId = some t) :
    tableBytes (tables.erase tId).table a =
      tableBytes tables.table a - if t.payer = a then (tableIdSize : Int) else 0 :=
  total_erase h

/-- The count of a table is not part of its size. -/
theorem tableBytes_modify {g : TableId → TableId} {hg : ∀ t, (g t).id = t.id}
    (hpayer : ∀ t, (g t).payer = t.payer) :
    tableBytes (tables.modify tId g hg).table a = tableBytes tables.table a := by
  show (tables.table.modify tId g hg).total _ = _
  rw [total_modify_same fun t => by rw [hpayer]]
  rfl

end Parts

variable {s s' : State} {ctx : ActionContext} {u : Unit}

/-! ## Storing -/

/-- The invariant before the first row of a new table is there. -/
structure TablesOpen (s : State) (opened : Nat) : Prop where
  counted : ∀ t ∈ s.tables.rows, t.count = rowsUnder s.rows t.id
  stands : ∀ tId, (∃ t ∈ s.tables.rows, t.id = tId) ↔ 0 < rowsUnder s.rows tId ∨ tId = opened

theorem TablesOk.opened (h : TablesOk s) {t : TableId} (ht : t ∈ s.tables.rows) :
    TablesOpen s t.id where
  counted := h.counted
  stands := by
    intro tId
    rw [h.stands]
    constructor
    · exact .inl
    · rintro (hpos | rfl)
      · exact hpos
      · exact (h.stands t.id).mp ⟨t, ht, rfl⟩

/-- No row is stored under a number that no table got yet. -/
theorem TablesOk.rowsUnder_next (h : TablesOk s) : rowsUnder s.rows s.tables.next = 0 := by
  by_contra hne
  obtain ⟨t, ht, hid⟩ := (h.stands _).mpr (Nat.pos_of_ne_zero hne)
  have hbelow := s.tables.below t ht
  omega

theorem TablesOk.pushed (h : TablesOk s) (t : Nat → TableId) (ht : ∀ n, (t n).id = n)
    (hcount : (t s.tables.next).count = 0) :
    TablesOpen { s with tables := s.tables.push t ht } s.tables.next where
  counted := by
    intro x hx
    rcases (Serial.mem_push ht).mp hx with hx | rfl
    · exact h.counted x hx
    · rw [hcount, ht]
      exact h.rowsUnder_next.symm
  stands := by
    intro tId
    rw [← h.stands]
    constructor
    · rintro ⟨x, hx, rfl⟩
      rcases (Serial.mem_push ht).mp hx with hx | rfl
      · exact .inl ⟨x, hx, rfl⟩
      · exact .inr (ht _)
    · rintro (⟨x, hx, rfl⟩ | rfl)
      · exact ⟨x, (Serial.mem_push ht).mpr (.inl hx), rfl⟩
      · exact ⟨_, (Serial.mem_push ht).mpr (.inr rfl), ht _⟩

theorem findOrCreateTable_opens {code scope table payer : Name} {tId : Nat}
    (h : findOrCreateTable ctx code scope table payer s = .ok tId s') (hs : TablesOk s) :
    TablesOpen s' tId := by
  rcases findOrCreateTable_ok h with ⟨t, ht, rfl, rfl⟩ | ⟨rfl, r, hr, rfl⟩
  · exact hs.opened ht
  · exact ⟨(hs.pushed _ _ rfl).counted, (hs.pushed _ _ rfl).stands⟩

theorem findOrCreateTable_slack {code scope table payer : Name} {tId : Nat}
    (h : findOrCreateTable ctx code scope table payer s = .ok tId s') (a : Name) :
    slack s' a = slack s a := by
  rcases findOrCreateTable_ok h with ⟨t, ht, rfl, rfl⟩ | ⟨rfl, r, hr, rfl⟩
  · rfl
  · show ram r a - (rowBytes s.rows a + tableBytes (s.tables.push _ _).table a) = slack s a
    rw [hr.ram, tableBytes_push, slack, bytes]
    simp only [eq_comm (a := a)]
    abel

variable {r : ContractRow}

/-- The count of the row's table follows, if it does not wrap around. -/
theorem TablesOpen.stored {hfree : s.rows.find r.key = none} (hs : TablesOpen s r.tId)
    (hsmall : rowsUnder (s.rows.insert r hfree) r.tId < 2 ^ 32) :
    TablesOk { s with
      rows := s.rows.insert r hfree
      tables := s.tables.modify r.tId (fun t => { t with count := addU32 t.count 1 })
        fun _ => rfl } where
  counted := by
    intro t' ht'
    obtain ⟨t, ht, rfl⟩ := Serial.mem_modify.mp ht'
    have hold := hs.counted t ht
    rw [rowsUnder_insert] at hsmall ⊢
    by_cases hid : t.id = r.tId
    · rw [if_pos rfl] at hsmall
      simp only [hid, if_true]
      rw [hold, hid, addU32_of_lt hsmall]
    · simp only [if_neg hid, if_neg (Ne.symm hid)]
      exact hold
  stands := by
    intro tId
    rw [Serial.exists_modify, hs.stands, rowsUnder_insert]
    by_cases hid : r.tId = tId
    · simp [hid]
    · rw [if_neg hid, Nat.add_zero]
      constructor
      · rintro (hpos | rfl)
        · exact hpos
        · exact absurd rfl hid
      · exact .inl

theorem storeRow_counts (h : storeRow ctx r s = .ok u s') (hs : TablesOpen s r.tId)
    (hsmall : rowsUnder s'.rows r.tId < 2 ^ 32) : TablesOk s' := by
  obtain ⟨hfree, res, hres, rfl⟩ := storeRow_ok h
  exact ⟨(hs.stored hsmall).counted, (hs.stored hsmall).stands⟩

theorem storeRow_slack (h : storeRow ctx r s = .ok u s') (a : Name) : slack s' a = slack s a := by
  obtain ⟨hfree, res, hres, rfl⟩ := storeRow_ok h
  show ram res a -
    (rowBytes (s.rows.insert r hfree) a + tableBytes (s.tables.modify _ _ _).table a) =
    slack s a
  rw [hres.ram, rowBytes_insert, tableBytes_modify, slack, bytes]
  · simp only [eq_comm (a := a)]
    abel
  · exact fun _ => rfl

/-! ## Removing -/

theorem subU32_one {n : Nat} (hpos : 0 < n) (h : n < 2 ^ 32) : subU32 n 1 = n - 1 := by
  rw [subU32]
  omega

/-- The count of the row's table follows. -/
theorem TablesOk.removed (hs : TablesOk s) (hr : s.rows.find r.key = some r)
    (hsmall : rowsUnder s.rows r.tId < 2 ^ 32) {t : TableId}
    (ht : t ∈ (s.tables.modify r.tId (fun t => { t with count := subU32 t.count 1 })
      fun _ => rfl).rows) : t.count = rowsUnder (s.rows.erase r.key) t.id := by
  obtain ⟨t, hmem, rfl⟩ := Serial.mem_modify.mp ht
  have hold := hs.counted t hmem
  have herase := rowsUnder_erase hr t.id
  by_cases hid : t.id = r.tId
  · rw [if_pos hid.symm, hid] at herase
    simp only [hid, if_true]
    rw [hold, hid, subU32_one (by omega) hsmall]
    omega
  · rw [if_neg (Ne.symm hid)] at herase
    simp only [if_neg hid]
    omega

theorem removeRow_counts (h : removeRow ctx r s = .ok u s') (hs : TablesOk s)
    (hr : s.rows.find r.key = some r) (hsmall : rowsUnder s.rows r.tId < 2 ^ 32) : TablesOk s' := by
  obtain ⟨t, ht, hend⟩ := removeRow_ok h
  obtain ⟨hmem, hid⟩ := find_some ht
  have hcount := hs.counted t hmem
  have hpos := rowsUnder_pos (find_some hr).1
  have hrows := rowsUnder_erase hr
  have hleft : subU32 t.count 1 = rowsUnder (s.rows.erase r.key) r.tId := by
    have herase := hrows r.tId
    rw [if_pos rfl] at herase
    rw [hcount, hid, subU32_one hpos hsmall]
    omega
  rcases hend with ⟨hne, rfl⟩ | ⟨hzero, res, hres, rfl⟩
  · refine ⟨fun t ht => hs.removed hr hsmall ht, fun tId => ?_⟩
    rw [Serial.exists_modify, hs.stands, hrows tId]
    by_cases htId : r.tId = tId
    · rw [if_pos htId, ← htId, ← hleft]
      omega
    · rw [if_neg htId, Nat.add_zero]
  · refine ⟨fun t ht => hs.removed hr hsmall (Serial.mem_erase.mp ht).1, fun tId => ?_⟩
    have hexists : (∃ x ∈ ((s.tables.modify r.tId (fun t => { t with count := subU32 t.count 1 })
        fun _ => rfl).erase r.tId).rows, x.id = tId) ↔
        (∃ x ∈ s.tables.rows, x.id = tId) ∧ tId ≠ r.tId := by
      rw [Serial.exists_erase, Serial.exists_modify]
    rw [hexists, hs.stands, hrows tId]
    by_cases htId : r.tId = tId
    · rw [← htId, ← hleft, hzero]
      simp
    · rw [if_neg htId, Nat.add_zero]
      exact and_iff_left (Ne.symm htId)

/-- The row goes, and the table is refunded where it goes too, whatever its
    count says. -/
theorem removeRow_slack (h : removeRow ctx r s = .ok u s') (hr : s.rows.find r.key = some r)
    (a : Name) : slack s' a = slack s a + if r.payer = a then (r.size : Int) else 0 := by
  obtain ⟨t, ht, ⟨hne, rfl⟩ | ⟨hzero, res, hres, rfl⟩⟩ := removeRow_ok h
  · show ram s.resources a -
      (rowBytes (s.rows.erase r.key) a + tableBytes (s.tables.modify _ _ _).table a) = _
    rw [rowBytes_erase hr, tableBytes_modify, slack, bytes]
    · abel
    · exact fun _ => rfl
  · have hfind : (s.tables.modify r.tId (fun t => { t with count := subU32 t.count 1 })
        fun _ => rfl).find r.tId = some { t with count := subU32 t.count 1 } := by
      rw [Serial.find, Serial.table_modify, find_modify, if_pos rfl]
      exact congrArg _ ht
    show ram res a - (rowBytes (s.rows.erase r.key) a +
      tableBytes (Serial.erase (Serial.modify _ _ _ _) _).table a) = _
    rw [hres.ram, rowBytes_erase hr, tableBytes_erase hfind, tableBytes_modify, slack, bytes]
    · simp only [eq_comm (a := a)]
      split_ifs <;> omega
    · exact fun _ => rfl

/-! ## The operations -/

/-- The accounts with a usage are the same. -/
def SameKnown (s s' : State) : Prop :=
  ∀ a, (s'.resources.usage a).isSome = (s.resources.usage a).isSome

theorem SameKnown.trans {s1 s2 s3 : State} (h : SameKnown s1 s2) (h' : SameKnown s2 s3) :
    SameKnown s1 s3 := fun a => (h' a).trans (h a)

theorem updateDbUsage_known {payer : Name} {delta : Int}
    (h : updateDbUsage ctx payer delta s = .ok u s') : SameKnown s s' := by
  obtain ⟨r, hr, rfl⟩ := updateDbUsage_ok h
  exact hr.known

theorem updateDbUsage_keeps {payer : Name} {delta : Int}
    (h : updateDbUsage ctx payer delta s = .ok u s') :
    s'.rows = s.rows ∧ s'.tables = s.tables ∧
      ∀ a, slack s' a = slack s a + if a = payer then delta else 0 := by
  obtain ⟨r, hr, rfl⟩ := updateDbUsage_ok h
  refine ⟨rfl, rfl, fun a => ?_⟩
  show ram r a - bytes s a = ram s.resources a - bytes s a + _
  rw [hr.ram]
  abel

/-- The invariant is about rows and tables. -/
theorem TablesOk.congr (hs : TablesOk s) (hrows : s'.rows = s.rows)
    (htables : s'.tables = s.tables) :
    TablesOk s' where
  counted := by
    rw [hrows, htables]
    exact hs.counted
  stands := by
    rw [hrows, htables]
    exact hs.stands

/-- New contents of a row, and a new payer. -/
theorem TablesOk.changed {k : RowKey} {f : ContractRow → ContractRow}
    {hf : ∀ r, (f r).key = r.key} (hs : TablesOk s) :
    TablesOk { s with rows := s.rows.modify k f hf } where
  counted := by
    intro t ht
    rw [rowsUnder_modify]
    exact hs.counted t ht
  stands := by
    intro tId
    rw [rowsUnder_modify]
    exact hs.stands tId

theorem slack_changed {k : RowKey} {f : ContractRow → ContractRow} {hf : ∀ r, (f r).key = r.key}
    (h : s.rows.find k = some r) (a : Name) :
    slack { s with rows := s.rows.modify k f hf } a =
      slack s a + (if r.payer = a then (r.size : Int) else 0) -
        if (f r).payer = a then ((f r).size : Int) else 0 := by
  show ram s.resources a - (rowBytes (s.rows.modify k f hf) a + _) = _
  rw [rowBytes_modify h, slack, bytes]
  abel

theorem size_of_keyValue (h : r.index = .keyValue) :
    r.size = r.value.length + RowIndex.keyValue.size := by
  rw [ContractRow.size, h]

theorem size_of_secondary {index : Secondary} (h : r.index = index.index) :
    r.size = index.index.size := by
  rw [ContractRow.size, h]
  cases index <;> rfl

/-- A row that an iterator stands for is stored under its own key. -/
theorem getRow_key {key : RowKey} (h : getRow key s = .ok r s') :
    s.rows.find r.key = some r ∧ r.key = key ∧ s' = s := by
  obtain ⟨hfind, rfl⟩ := getRow_ok h
  have hkey := (find_some hfind).2
  exact ⟨hkey ▸ hfind, hkey, rfl⟩

/-- The row and the access check that an update or a removal starts with. -/
theorem opened_ok {key : RowKey} {f : ContractRow → StateM Unit}
    (h : (do
      let obj ← getRow key
      let tableObj ← getTable obj.tId
      require (tableObj.code = ctx.receiver) .tableAccessViolation "db access violation"
      f obj) s = .ok u s') :
    ∃ obj, s.rows.find obj.key = some obj ∧ obj.key = key ∧ f obj s = .ok u s' := by
  obtain ⟨obj, s1, hobj, h1⟩ := bind_ok_inv h
  obtain ⟨hfind, hkey, rfl⟩ := getRow_key hobj
  obtain ⟨_, s2, htable, h2⟩ := bind_ok_inv h1
  obtain ⟨-, rfl⟩ := getTable_ok htable
  exact ⟨obj, hfind, hkey, (require_bind_inv h2).2⟩

/-- A payment moves a size from the old payer to the new one. -/
structure Paid (s : State) (old payer : Name) (oldSize newSize : Int) (s' : State) : Prop where
  rows : s'.rows = s.rows
  tables : s'.tables = s.tables
  known : SameKnown s s'
  slack : ∀ a, slack s' a =
    slack s a - (if old = a then oldSize else 0) + if payer = a then newSize else 0

theorem paid_both {old payer : Name} {oldSize newSize : Int} {s1 : State} {v : Unit}
    (hrefund : updateDbUsage ctx old (-oldSize) s = .ok v s1)
    (hcharge : updateDbUsage ctx payer newSize s1 = .ok u s') :
    Paid s old payer oldSize newSize s' := by
  obtain ⟨hrows1, htables1, hslack1⟩ := updateDbUsage_keeps hrefund
  obtain ⟨hrows2, htables2, hslack2⟩ := updateDbUsage_keeps hcharge
  refine ⟨hrows2.trans hrows1, htables2.trans htables1,
    (updateDbUsage_known hrefund).trans (updateDbUsage_known hcharge), fun a => ?_⟩
  rw [hslack2, hslack1]
  simp only [eq_comm (a := a)]
  split_ifs <;> omega

theorem paid_nothing (s : State) (payer : Name) (size : Int) : Paid s payer payer size size s :=
  ⟨rfl, rfl, fun _ => rfl, fun a => by split_ifs <;> omega⟩

theorem payUpdate_ok {old payer : Name} {oldSize newSize : Int}
    (h : payUpdate ctx old payer oldSize newSize s = .ok u s') :
    Paid s old payer oldSize newSize s' := by
  rw [payUpdate] at h
  split at h
  · obtain ⟨_, s1, hrefund, hcharge⟩ := bind_ok_inv h
    exact paid_both hrefund hcharge
  · rename_i hsame
    rw [not_not] at hsame
    subst hsame
    rcases whenever_ok h with ⟨-, hcharge⟩ | ⟨hsize, rfl⟩
    · obtain ⟨hrows, htables, hslack⟩ := updateDbUsage_keeps hcharge
      refine ⟨hrows, htables, updateDbUsage_known hcharge, fun a => ?_⟩
      rw [hslack]
      simp only [eq_comm (a := a)]
      split_ifs <;> omega
    · rw [not_not] at hsize
      subst hsize
      exact paid_nothing _ old oldSize

/-- What an operation does to the rows: it stores one, changes one for which
    its payers have paid, or refunds one and removes it. -/
inductive Change (ctx : ActionContext) (s : State) : State → Prop where
  | stored {code scope table : Name} {r : ContractRow} {s₁ s' : State} :
      findOrCreateTable ctx code scope table r.payer s = .ok r.tId s₁ →
      storeRow ctx r s₁ = .ok () s' → Change ctx s s'
  | updated {obj : ContractRow} {payer : Name} {value : Bytes} {s₁ : State} :
      s.rows.find obj.key = some obj →
      Paid s obj.payer payer obj.size
        (ContractRow.size { obj with value := value, payer := payer }) s₁ →
      Change ctx s (assignRow obj.key value payer s₁)
  | removed {obj : ContractRow} {s₁ s' : State} : s.rows.find obj.key = some obj →
      updateDbUsage ctx obj.payer (-obj.size) s = .ok () s₁ → removeRow ctx obj s₁ = .ok () s' →
      Change ctx s s'

variable {id : UInt64}

theorem dbUpdateI64_ok {tId : Nat} {payer : Name} {buffer : Bytes}
    (h : dbUpdateI64 ctx tId id payer buffer s = .ok u s') : Change ctx s s' := by
  obtain ⟨obj, hfind, hkey, h⟩ := opened_ok h
  obtain ⟨_, s1, hpay, h1⟩ := bind_ok_inv h
  have hindex : obj.index = .keyValue := congrArg Prod.fst hkey
  have hpaid := payUpdate_ok hpay
  rw [← size_of_keyValue hindex] at hpaid
  cases h1
  refine .updated hfind ?_
  rw [size_of_keyValue (r := { obj with value := buffer, payer := _ }) hindex]
  exact hpaid

theorem genericUpdate_ok {index : Secondary} {tId : Nat} {payer : Name} {value : Bytes}
    (h : genericUpdate ctx index tId id payer value s = .ok u s') : Change ctx s s' := by
  obtain ⟨obj, hfind, hkey, h⟩ := opened_ok h
  obtain ⟨_, s1, hpay, h1⟩ := bind_ok_inv h
  have hindex : obj.index = index.index := congrArg Prod.fst hkey
  have hpaid : Paid s obj.payer (if payer = noName then obj.payer else payer) obj.size
      index.index.size s1 := by
    rw [size_of_secondary hindex]
    rcases whenever_ok hpay with ⟨-, hboth⟩ | ⟨hsame, rfl⟩
    · obtain ⟨_, s2, hrefund, hcharge⟩ := bind_ok_inv hboth
      exact paid_both hrefund hcharge
    · rw [← not_not.mp hsame]
      exact paid_nothing _ _ _
  cases h1
  refine .updated hfind ?_
  rw [size_of_secondary (r := { obj with value := value, payer := _ }) hindex]
  exact hpaid

theorem dbStoreI64_ok {code scope table payer : Name} {buffer : Bytes}
    (h : dbStoreI64 ctx code scope table payer id buffer s = .ok u s') : Change ctx s s' := by
  obtain ⟨tId, s1, htable, h1⟩ := bind_ok_inv h
  exact .stored (r := ⟨.keyValue, tId, id, payer, buffer⟩) htable (require_bind_inv h1).2

theorem genericStore_ok {index : Secondary} {scope table payer : Name} {value : Bytes}
    (h : genericStore ctx index scope table payer id value s = .ok u s') : Change ctx s s' := by
  obtain ⟨-, h⟩ := require_bind_inv h
  obtain ⟨tId, s1, htable, h1⟩ := bind_ok_inv h
  exact .stored (r := ⟨index.index, tId, id, payer, value⟩) htable h1

theorem dbRemoveI64_ok {tId : Nat} (h : dbRemoveI64 ctx tId id s = .ok u s') : Change ctx s s' := by
  obtain ⟨obj, hfind, hkey, h⟩ := opened_ok h
  obtain ⟨_, s1, hrefund, h1⟩ := bind_ok_inv h
  have hsize : (obj.size : Int) = obj.value.length + RowIndex.keyValue.size := by
    rw [size_of_keyValue (congrArg Prod.fst hkey)]
    push_cast
    rfl
  rw [← hsize] at hrefund
  exact .removed hfind hrefund h1

theorem genericRemove_ok {index : Secondary} {tId : Nat}
    (h : genericRemove ctx index tId id s = .ok u s') : Change ctx s s' := by
  obtain ⟨obj, s1, hobj, h1⟩ := bind_ok_inv h
  obtain ⟨hfind, hkey, rfl⟩ := getRow_key hobj
  obtain ⟨_, s2, hrefund, h2⟩ := bind_ok_inv h1
  obtain ⟨_, s3, htable, h3⟩ := bind_ok_inv h2
  obtain ⟨-, rfl⟩ := getTable_ok htable
  rw [← size_of_secondary (congrArg Prod.fst hkey)] at hrefund
  exact .removed hfind hrefund (require_bind_inv h3).2

theorem perform_ok {op : Op} (h : op.perform ctx s = .ok u s') : Change ctx s s' := by
  cases op with
  | storeI64 => exact dbStoreI64_ok h
  | updateI64 => exact dbUpdateI64_ok h
  | removeI64 => exact dbRemoveI64_ok h
  | storeSecondary => exact genericStore_ok h
  | updateSecondary => exact genericUpdate_ok h
  | removeSecondary => exact genericRemove_ok h

/-- **STEP**: every charge is for a row or a table that is stored with it. -/
theorem Change.slack (h : Change ctx s s') (a : Name) :
    ContractTables.slack s' a = ContractTables.slack s a := by
  cases h with
  | stored htable hstore =>
    exact (storeRow_slack hstore a).trans (findOrCreateTable_slack htable a)
  | updated hfind hpaid =>
    refine (slack_changed (hpaid.rows ▸ hfind) a).trans ?_
    rw [hpaid.slack]
    abel
  | removed hfind hrefund hremove =>
    obtain ⟨hrows, -, hslack⟩ := updateDbUsage_keeps hrefund
    rw [removeRow_slack hremove (hrows ▸ hfind), hslack]
    simp only [eq_comm (a := a)]
    split_ifs <;> omega

/-- No operation opens or closes an account. -/
theorem Change.known (h : Change ctx s s') : SameKnown s s' := by
  cases h with
  | stored htable hstore =>
    obtain ⟨hfree, res, hres, rfl⟩ := storeRow_ok hstore
    rcases findOrCreateTable_ok htable with ⟨t, -, -, rfl⟩ | ⟨-, r, hr, rfl⟩
    · exact hres.known
    · exact fun a => (hres.known a).trans (hr.known a)
  | updated hfind hpaid => exact hpaid.known
  | removed hfind hrefund hremove =>
    refine (updateDbUsage_known hrefund).trans ?_
    obtain ⟨t, -, ⟨-, rfl⟩ | ⟨-, res, hres, rfl⟩⟩ := removeRow_ok hremove
    · exact fun _ => rfl
    · exact hres.known

/-- No table holds as many rows as its count can not tell from none. -/
def Small (s : State) : Prop := ∀ tId, rowsUnder s.rows tId < 2 ^ 32

theorem Change.counts (h : Change ctx s s') (hs : TablesOk s) (hsmall : Small s)
    (hsmall' : Small s') : TablesOk s' := by
  cases h with
  | stored htable hstore =>
    exact storeRow_counts hstore (findOrCreateTable_opens htable hs) (hsmall' _)
  | updated hfind hpaid => exact (hs.congr hpaid.rows hpaid.tables).changed
  | removed hfind hrefund hremove =>
    obtain ⟨hrows, htables, -⟩ := updateDbUsage_keeps hrefund
    refine removeRow_counts hremove (hs.congr hrows htables) (hrows ▸ hfind) ?_
    rw [hrows]
    exact hsmall _

/-! ## Runs -/

/-- Operations of contract actions, one after another, with `P` of every
    state that they reach. -/
inductive OpRuns (P : State → Prop) : State → List (ActionContext × Op) → State → Prop where
  | nil (s : State) : P s → OpRuns P s [] s
  | cons {s s₁ s' : State} {ctx : ActionContext} {op : Op} {ops : List (ActionContext × Op)} :
      P s → op.perform ctx s = .ok () s₁ → OpRuns P s₁ ops s' → OpRuns P s ((ctx, op) :: ops) s'

variable {P : State → Prop} {ops : List (ActionContext × Op)}

theorem OpRuns.start (h : OpRuns P s ops s') : P s := by
  cases h with
  | nil _ h => exact h
  | cons h _ _ => exact h

/-- Along every sequence of operations the usage of each account follows the
    sizes of what it pays for; and the counts of tables stay exact where no
    table comes to hold too many rows. -/
theorem contract_database_ledger (h : OpRuns P s ops s') :
    (∀ a, ram s'.resources a - ram s.resources a = bytes s' a - bytes s a) ∧
      ((∀ s, P s → Small s) → TablesOk s → TablesOk s') := by
  induction h with
  | nil s _ => exact ⟨fun a => by rw [Int.sub_self, Int.sub_self], fun _ hs => hs⟩
  | cons hp hstep hrest ih =>
    have hchange := perform_ok hstep
    obtain ⟨hlaw, hcounts⟩ := ih
    refine ⟨fun a => ?_, fun hsmall hs => ?_⟩
    · have h1 := hlaw a
      have h2 := hchange.slack a
      simp only [slack] at h2
      omega
    · exact hcounts hsmall (hchange.counts hs (hsmall _ hp) (hsmall _ hrest.start))

/-- A contract account that pays for its own rows, and uses so much RAM. -/
def contractName : Name := ⟨0x3d70000000000000⟩

/-- What the contract's account uses, and nothing else. -/
def usesRam (used : Nat) : Resources where
  usage := fun a => if a = contractName then some { ramUsage := used } else none
  weights := fun _ => none
  virtualNetLimit := 0
  virtualCpuLimit := 0
  maxNet := 0
  maxCpu := 0
  accountNetUsageAverageWindow := 1
  accountCpuUsageAverageWindow := 1

/-- A state with these tables and rows, all of one contract. -/
def contractState (tables : Serial TableId.id) (rows : Table ContractRow.key) (used : Nat) :
    State where
  accounts := Table.empty
  codes := Table.empty
  permissions := Serial.empty
  usages := Serial.empty
  links := Table.empty
  tables := tables
  rows := rows
  deferred := Table.empty
  ramCorrections := Table.empty
  configNums := fun _ => none
  resources := usesRam used

/-- An action of the contract. -/
def contractContext : ActionContext where
  receiver := contractName
  account := contractName
  authorization := []

/-- The table and the first row are billed, the second row shares the table,
    and after the first row is gone the table is still there. -/
def demoOps : List (ActionContext × Op) :=
  [(contractContext, .storeI64 contractName contractName contractName 1 [1, 2]),
   (contractContext, .storeSecondary .index64 contractName contractName contractName 1 [7]),
   (contractContext, .updateI64 0 1 noName [1, 2, 3]),
   (contractContext, .removeI64 0 1)]

theorem small_of_length (h : s.rows.rows.length < 2 ^ 32) : Small s :=
  fun _ => Nat.lt_of_le_of_lt List.countP_le_length h

/-- The state after the first operations of `demoOps`. -/
def demoState (n : Nat) : State :=
  (demoOps.take n).foldl (fun s step => commit (step.2.perform step.1) s)
    (contractState Serial.empty Table.empty 1000)

theorem demoOps_runs : OpRuns Small (demoState 0) demoOps (demoState 4) :=
  .cons (small_of_length (by decide +kernel)) (completes_iff.mp (by decide +kernel))
    (.cons (small_of_length (by decide +kernel)) (completes_iff.mp (by decide +kernel))
      (.cons (small_of_length (by decide +kernel)) (completes_iff.mp (by decide +kernel))
        (.cons (small_of_length (by decide +kernel)) (completes_iff.mp (by decide +kernel))
          (.nil _ (small_of_length (by decide +kernel))))))

theorem contract_database_ledger_demo : TablesOk (demoState 4) ∧
    (rowsUnder (demoState 4).rows 0 = 1 ∧ ram (demoState 4).resources contractName = 1240) ∧
    ∀ a, ram (demoState 4).resources a - ram (demoState 0).resources a =
      bytes (demoState 4) a - bytes (demoState 0) a := by
  have hempty : TablesOk (demoState 0) := by
    constructor
    · intro t ht
      cases ht
    · intro tId
      constructor
      · rintro ⟨t, ht, -⟩
        cases ht
      · intro h
        cases h
  obtain ⟨hlaw, hok⟩ := contract_database_ledger demoOps_runs
  exact ⟨hok (fun _ h => h) hempty, by decide +kernel, hlaw⟩

/-! ## A count that wraps around -/

/-- An empty row with a primary key. -/
def crowdRow (i : Nat) : ContractRow := ⟨.keyValue, 0, UInt64.ofNat i, contractName, []⟩

/-- Rows with the primary keys below `n`. -/
def crowd (n : Nat) : List ContractRow := (List.range n).map crowdRow

theorem ofNat_inj {i j : Nat} (hi : i < 2 ^ 64) (hj : j < 2 ^ 64)
    (h : UInt64.ofNat i = UInt64.ofNat j) : i = j := by
  have hnat := congrArg UInt64.toNat h
  rw [UInt64.toNat_ofNat', UInt64.toNat_ofNat', Nat.mod_eq_of_lt hi, Nat.mod_eq_of_lt hj] at hnat
  exact hnat

theorem crowd_keyed {n : Nat} (hn : n ≤ 2 ^ 32) : ((crowd n).map ContractRow.key).Nodup := by
  rw [crowd, List.map_map]
  refine List.Nodup.map_on ?_ List.nodup_range
  intro i hi j hj hij
  rw [List.mem_range] at hi hj
  exact ofNat_inj (by omega) (by omega) (congrArg (fun k : RowKey => k.2.2) hij)

theorem crowd_count (n tId : Nat) :
    (crowd n).countP (fun r => decide (r.tId = tId)) = if tId = 0 then n else 0 := by
  rw [crowd, List.countP_map]
  by_cases h : tId = 0
  · subst h
    simp [Function.comp_def, crowdRow]
  · have hne : ¬ 0 = tId := fun hz => h hz.symm
    simp [Function.comp_def, crowdRow, h, hne]

/-- The one table with these rows. -/
def crowdedState (n : Nat) (hn : n < 2 ^ 32) : State :=
  contractState ⟨[⟨0, contractName, contractName, contractName, contractName, n⟩],
    1, by simp, by simp⟩
    ⟨crowd n, crowd_keyed (Nat.le_of_lt hn)⟩ (112 * n + 112)

theorem crowded_ok {n : Nat} (hpos : 0 < n) (hn : n < 2 ^ 32) : TablesOk (crowdedState n hn) where
  counted := by
    intro t ht
    obtain rfl := List.mem_singleton.mp ht
    exact (crowd_count n 0).symm
  stands := by
    intro tId
    show _ ↔ 0 < (crowd n).countP _
    rw [crowd_count]
    by_cases h : tId = 0
    · subst h
      simpa [crowdedState, contractState] using hpos
    · have hne : ¬ 0 = tId := fun hz => h hz.symm
      simp [crowdedState, contractState, h, hne]

theorem usesRam_charged (used delta : Nat) (hpos : 0 < delta) (hroom : used + delta ≤ uint64Max) :
    ∃ r, addPendingRamUsage contractName delta (usesRam used) = .ok () r := by
  have husage : raise (getUsage (usesRam used) contractName) (usesRam used) =
      .ok { ramUsage := used } (usesRam used) := rfl
  rw [addPendingRamUsage, if_neg (by omega), get_bind, bind_ok husage,
    bind_ok (require_pos (by simp only; omega) _), bind_ok (require_pos (by omega) _)]
  exact ⟨_, rfl⟩

/-- One more row, with the next primary key. -/
theorem crowded_store {n : Nat} (hn : n < 2 ^ 32) :
    ∃ s', dbStoreI64 contractContext contractName contractName contractName contractName
      (UInt64.ofNat n) [] (crowdedState n hn) = .ok () s' ∧ s'.rows.rows = crowd (n + 1) ∧
      ∃ t ∈ s'.tables.rows, t.id = 0 ∧ t.count = (n + 1) % 2 ^ 32 := by
  have hfree : (crowdedState n hn).rows.find (crowdRow n).key = none := by
    rw [find_none]
    intro r hr hkey
    obtain ⟨i, hi, rfl⟩ := List.mem_map.mp hr
    rw [List.mem_range] at hi
    have hin := ofNat_inj (by omega) (by omega) (congrArg (fun k : RowKey => k.2.2) hkey)
    omega
  have htable : findOrCreateTable contractContext contractName contractName contractName
    contractName
      (crowdedState n hn) = .ok 0 (crowdedState n hn) := rfl
  have hcreate : createRow (crowdRow n) (crowdedState n hn) =
      .ok () { crowdedState n hn with
        rows := (crowdedState n hn).rows.insert (crowdRow n) hfree } := by
    rw [createRow, get_bind, dif_pos hfree]
    rfl
  obtain ⟨res, hres⟩ := usesRam_charged (112 * n + 112) 112 (by omega) (by rw [uint64Max]; omega)
  have hcharge : ∀ s : State, s.resources = usesRam (112 * n + 112) →
      updateDbUsage contractContext contractName 112 s = .ok () { s with resources := res } := by
    intro s hs
    rw [← hs] at hres
    rw [updateDbUsage_free rfl]
    exact zoom_ok hres
  refine ⟨_, (bind_ok htable).trans ((bind_ok (require_pos (by decide) _)).trans
    ((bind_ok hcreate).trans ((modify_bind ..).trans (hcharge _ rfl)))), ?_, ?_⟩
  · show crowd n ++ [crowdRow n] = crowd (n + 1)
    rw [crowd, crowd, List.range_succ, List.map_append, List.map_singleton]
  · exact ⟨_, List.mem_singleton.mpr rfl, rfl, rfl⟩

/-- The table holds `2 ^ 32` rows after a store, and counts none. -/
theorem count_wraps_around : ∃ (s s' : State) (op : Op), TablesOk s ∧
    op.perform contractContext s = .ok () s' ∧ ¬ TablesOk s' := by
  have hn : 2 ^ 32 - 1 < 2 ^ 32 := by omega
  obtain ⟨s', hstore, hrows, t, ht, hid, hcount⟩ := crowded_store hn
  refine ⟨_, s', .storeI64 contractName contractName contractName _ [], crowded_ok (by omega) hn,
    hstore, ?_⟩
  intro hok
  have hexact := hok.counted t ht
  rw [hcount, rowsUnder, hrows, crowd_count, if_pos hid] at hexact
  exact absurd hexact (by decide)

end ContractTables
