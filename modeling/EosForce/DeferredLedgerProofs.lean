import EosForce.NativeFrameProofs

/-! # The RAM of deferred transactions

    A deferred transaction is billed to its payer when it is stored, and the
    bill is given back when it goes.  Before `replace_deferred` is active a
    replaced transaction gives nothing back; a correction is booked for its
    payer, and the activation of the feature settles all of them.  So for each
    account the usage, less what its stored transactions are billed, less its
    correction, is a constant.

    The activation looks up the usage of every account that has a correction.
    It is always there: only an account with a usage can be billed for a
    transaction, and no step takes a usage away. -/

namespace DeferredLedger

open ChainTypes TrxTypes Effect Resource Authority RowTable StateTables List Table
  PermissionStore NativeActions NativeFrame

/-- What an account is billed for a transaction. -/
def share (a : Name) (d : Deferred) : Int := if d.payer = a then Deferred.size d else 0

/-- What the stored transactions of an account are billed. -/
def owed (s : State) (a : Name) : Int := s.deferred.total (share a)

/-- The correction that is recorded for an account. -/
def correction (s : State) (a : Name) : Nat :=
  ((s.ramCorrections.find a).map (·.ramCorrection)).getD 0

/-- The usage of an account without its deferred transactions. -/
def ledger (s : State) (a : Name) : Int := ram s.resources a - owed s a - correction s a

/-- The account has a usage object. -/
def Known (s : State) (a : Name) : Prop := (s.resources.usage a).isSome

variable {s s' : State} {u : Unit} {a : Name} {ctx : ActionContext}

/-! ## One step -/

theorem share_nonneg (d : Deferred) : 0 ≤ share a d := by
  rw [share]
  split
  · exact Int.natCast_nonneg _
  · exact Int.le_refl _

theorem owed_nonneg : 0 ≤ owed s a := total_nonneg share_nonneg

variable {d : Deferred}

/-- The payer's usage goes up by its share. -/
theorem charged_share {r r' : Resources} (hr : Charged r d.payer (Deferred.size d : Nat) r') :
    ram r' a = ram r a + share a d := by
  rw [hr.ram a, share]
  by_cases hpayer : d.payer = a
  · rw [if_pos hpayer, if_pos hpayer.symm]
  · rw [if_neg hpayer, if_neg fun h => hpayer h.symm]

theorem refunded_share {r r' : Resources} (hr : Charged r d.payer (-Deferred.size d) r') :
    ram r' a = ram r a - share a d := by
  rw [hr.ram a, share]
  by_cases hpayer : d.payer = a
  · rw [if_pos hpayer, if_pos hpayer.symm]
    omega
  · rw [if_neg hpayer, if_neg fun h => hpayer h.symm]
    omega

theorem correction_add {b : Name} {n : Nat} :
    correction (addToRamCorrection b n s) a = correction s a + if b = a then n else 0 := by
  rw [addToRamCorrection]
  split
  · rename_i hfree
    simp only [correction, find_insert]
    by_cases hab : b = a
    · subst hab
      rw [if_pos rfl, if_pos rfl, hfree]
      simp
    · rw [if_neg hab, if_neg fun h => hab h.symm]
      rfl
  · rename_i hfree
    obtain ⟨c, hc⟩ := Option.ne_none_iff_exists'.mp hfree
    simp only [correction, find_modify]
    by_cases hab : b = a
    · subst hab
      rw [if_pos rfl, if_pos rfl, hc]
      rfl
    · rw [if_neg hab, if_neg fun h => hab h.symm]
      rfl

theorem addToRamCorrection_deferred {b : Name} {n : Nat} :
    (addToRamCorrection b n s).deferred = s.deferred := by
  rw [addToRamCorrection]
  split
  · rfl
  · rfl

theorem addToRamCorrection_resources {b : Name} {n : Nat} :
    (addToRamCorrection b n s).resources = s.resources := by
  rw [addToRamCorrection]
  split
  · rfl
  · rfl

/-- The account gets a correction, and the others had theirs before. -/
theorem mem_addToRamCorrection {b : Name} {n : Nat} {c : RamCorrection}
    (h : c ∈ (addToRamCorrection b n s).ramCorrections.rows) :
    c.name = b ∨ ∃ c' ∈ s.ramCorrections.rows, c'.name = c.name := by
  rw [addToRamCorrection] at h
  split at h
  · simp only [mem_insert] at h
    rcases h with h | rfl
    · exact .inr ⟨c, h, rfl⟩
    · exact .inl rfl
  · obtain ⟨c', hc', rfl⟩ := mem_map.mp h
    refine .inr ⟨c', hc', ?_⟩
    split
    · rfl
    · rfl

/-- A transaction that is stored and billed. -/
theorem ledger_create (hfree : s.deferred.find d.key = none) {r : Resources}
    (hr : Charged s.resources d.payer (Deferred.size d : Nat) r) :
    ledger { s with deferred := s.deferred.insert d hfree, resources := r } a = ledger s a := by
  have howed : (s.deferred.insert d hfree).total (share a) = owed s a + share a d :=
    total_insert
  show ram r a - (s.deferred.insert d hfree).total (share a) - (correction s a : Int) = _
  rw [howed, charged_share hr, ledger]
  omega

/-- A transaction that is refunded and removed. -/
theorem ledger_remove (h : s.deferred.find d.key = some d) {r : Resources}
    (hr : Charged s.resources d.payer (-Deferred.size d) r) :
    ledger { s with resources := r, deferred := s.deferred.erase d.key } a = ledger s a := by
  have howed : (s.deferred.erase d.key).total (share a) = owed s a - share a d :=
    total_erase h
  show ram r a - (s.deferred.erase d.key).total (share a) - (correction s a : Int) = _
  rw [howed, refunded_share hr, ledger]
  omega

/-- A transaction that is removed while its refund is put off. -/
theorem ledger_put_off (h : s.deferred.find d.key = some d) {t : State}
    (ht : t = addToRamCorrection d.payer (Deferred.size d) s) :
    ledger { t with deferred := t.deferred.erase d.key } a = ledger s a := by
  have howed : (s.deferred.erase d.key).total (share a) = owed s a - share a d :=
    total_erase h
  have hcorrection : (correction t a : Int) = correction s a + share a d := by
    rw [ht, correction_add, share]
    push_cast
    rfl
  have hdeferred : t.deferred = s.deferred := ht ▸ addToRamCorrection_deferred
  have hresources : t.resources = s.resources := ht ▸ addToRamCorrection_resources
  show ram t.resources a - (t.deferred.erase d.key).total (share a) - (correction t a : Int) = _
  rw [hresources, hdeferred, howed, hcorrection, ledger]
  omega

/-- The three steps that store and remove deferred transactions. -/
def Defers : Step → Prop
  | .scheduleDeferred .. => True
  | .delayTransaction .. => True
  | .removeDeferred .. => True
  | _ => False

/-- The ledger of every account is the same. -/
def SameLedger (s s' : State) : Prop := ∀ a, ledger s' a = ledger s a

theorem SameLedger.refl (s : State) : SameLedger s s := fun _ => rfl

theorem SameLedger.trans ⦃s1 s2 s3 : State⦄ (h : SameLedger s1 s2) (h' : SameLedger s2 s3) :
    SameLedger s1 s3 := fun a => (h' a).trans (h a)

theorem sameLedger_makeRoom {senderId : Nat} {allowed subjective : Bool} :
    Keeps SameLedger (makeRoom ctx senderId allowed subjective) := by
  intro s u s' h a
  rcases makeRoom_ok h with rfl | ⟨old, s1, hfind, hrefund, rfl⟩
  · rfl
  · rcases refundExisting_ok hrefund with ⟨r, hr, rfl⟩ | hput
    · exact ledger_remove hfind hr
    · exact ledger_put_off hfind hput

/-- A transaction is stored, and then it is billed. -/
theorem create_and_bill_ok {s1 : State} {v : Unit} (hcreate : createDeferred d s = .ok v s1)
    (hbill : addRamUsage d.payer (Deferred.size d : Nat) s1 = .ok u s') :
    ∃ hfree r, Charged s.resources d.payer (Deferred.size d : Nat) r ∧
      s' = { s with deferred := s.deferred.insert d hfree, resources := r } := by
  obtain ⟨hfree, rfl⟩ := createDeferred_ok hcreate
  obtain ⟨r, hr, rfl⟩ := addRamUsage_ok hbill
  exact ⟨hfree, r, hr, rfl⟩

variable {conf : Conf}

/-- **STEP**: storing, replacing and removing keep every ledger. -/
theorem sameLedger_perform {vm : Vm} {step : Step} (hstep : Defers step) :
    Keeps SameLedger (step.perform vm conf) := by
  intro s u s' h
  cases step with
  | scheduleDeferred ctx senderId payer packedTrx allowed subjective =>
    obtain ⟨s1, s2, hroom, hcreate, hbill⟩ := scheduleDeferred_ok h
    obtain ⟨hfree, r, hr, rfl⟩ := create_and_bill_ok hcreate hbill
    exact (sameLedger_makeRoom _ _ _ hroom).trans fun a => ledger_create hfree hr
  | delayTransaction senderId payer packedTrx =>
    obtain ⟨_, s1, hcreate, hbill⟩ := bind_ok_inv h
    obtain ⟨hfree, r, hr, rfl⟩ := create_and_bill_ok hcreate hbill
    exact fun a => ledger_create hfree hr
  | removeDeferred sender senderId =>
    rcases removeDeferred_ok h with rfl | ⟨d, r, hfind, hr, rfl⟩
    · exact SameLedger.refl _
    · exact fun a => ledger_remove hfind hr
  | _ => exact absurd hstep id

/-! ## Payers have a usage -/

/-- Who pays for a transaction, and who has a correction, has a usage. -/
structure Backed (s : State) : Prop where
  payers : ∀ d ∈ s.deferred.rows, Known s d.payer
  corrected : ∀ c ∈ s.ramCorrections.rows, Known s c.name

/-- The transactions and corrections are the same, and no usage is lost. -/
structure SameDeferred (s s' : State) : Prop where
  deferred : s'.deferred = s.deferred
  ramCorrections : s'.ramCorrections = s.ramCorrections
  known : ∀ a, Known s a → Known s' a

theorem SameDeferred.trans ⦃s1 s2 s3 : State⦄ (h : SameDeferred s1 s2) (h' : SameDeferred s2 s3) :
    SameDeferred s1 s3 where
  deferred := h'.deferred.trans h.deferred
  ramCorrections := h'.ramCorrections.trans h.ramCorrections
  known := fun a ha => h'.known a (h.known a ha)

theorem Backed.congr (hs : Backed s) (h : SameDeferred s s') : Backed s' where
  payers := fun d hd => h.known _ (hs.payers d (h.deferred ▸ hd))
  corrected := fun c hc => h.known _ (hs.corrected c (h.ramCorrections ▸ hc))

theorem backed_of_same {α : Type} {x : StateM α} (hx : Keeps SameDeferred x) : Preserves Backed x :=
  hx.preserves fun _ _ h hs => hs.congr h

theorem same_walk : Walk SameDeferred where
  trans := SameDeferred.trans
  native := fun _ _ h => ⟨h.deferred, h.ramCorrections, h.known⟩
  config := fun _ _ _ => ⟨rfl, rfl, fun _ h => h⟩

/-- Somebody is charged and the transactions and corrections stay. -/
theorem SameDeferred.charged {delta : Int} {r : Resources} (hr : Charged s.resources a delta r)
    (hresources : s'.resources = r) (hd : s'.deferred = s.deferred)
    (hc : s'.ramCorrections = s.ramCorrections) : SameDeferred s s' := by
  refine ⟨hd, hc, fun b hb => ?_⟩
  rw [Known, hresources, hr.known b]
  exact hb

theorem same_createAccount {account : Account} : Keeps SameDeferred (createAccount account) := by
  intro s u s' h
  obtain ⟨hfree, rfl⟩ := createAccount_ok h
  exact ⟨rfl, rfl, fun _ h => h⟩

theorem same_of_onlyPermissions {α : Type} {x : StateM α} (hx : Keeps OnlyPermissions x) :
    Keeps SameDeferred x := by
  intro s v s' h
  have hsame := hx s v s' h
  exact ⟨hsame.deferred, hsame.ramCorrections, hsame.known⟩

theorem same_replaceAuth {level : PermissionLevel} {auth : Auth} :
    Keeps SameDeferred (replaceAuth level auth) :=
  same_of_onlyPermissions onlyPermissions_replaceAuth

theorem same_of_onlyCode {α : Type} {x : StateM α} (hx : Keeps OnlyCode x) :
    Keeps SameDeferred x := by
  intro s v s' h
  have hsame := hx s v s' h
  exact ⟨hsame.deferred, hsame.ramCorrections, fun a ha => (hsame.known a).trans ha⟩

/-! ### The steps that store, remove and settle -/

/-- Only an account with a usage can be charged. -/
theorem addRamUsage_known {delta : Int} (h : addRamUsage a delta s = .ok u s')
    (hdelta : delta ≠ 0) :
    Known s a := by
  obtain ⟨r, hr, -⟩ := zoom_ok_inv h
  rw [addPendingRamUsage, if_neg hdelta, get_bind] at hr
  obtain ⟨row, hrow, -⟩ := raise_bind_inv hr
  rw [Known, getUsage_ok hrow]
  rfl

theorem backed_makeRoom {senderId : Nat} {allowed subjective : Bool} :
    Preserves Backed (makeRoom ctx senderId allowed subjective) := by
  intro s u s' h hs
  rcases makeRoom_ok h with rfl | ⟨old, s1, hfind, hrefund, rfl⟩
  · exact hs
  · rcases refundExisting_ok hrefund with ⟨r, hr, rfl⟩ | rfl
    · have hs1 : Backed { s with resources := r } := hs.congr (.charged hr rfl rfl rfl)
      exact ⟨fun d hd => hs1.payers d (mem_erase.mp hd).1, hs1.corrected⟩
    · refine ⟨fun d hd => ?_, fun c hc => ?_⟩
      · rw [Known, addToRamCorrection_resources]
        exact hs.payers d (addToRamCorrection_deferred ▸ (mem_erase.mp hd).1)
      · rw [Known, addToRamCorrection_resources]
        rcases mem_addToRamCorrection hc with hname | ⟨c', hc', hname⟩
        · exact hname ▸ hs.payers old (find_some hfind).1
        · exact hname ▸ hs.corrected c' hc'

theorem backed_create {s1 : State} {v : Unit} (hs : Backed s)
    (hcreate : createDeferred d s = .ok v s1)
    (hbill : addRamUsage d.payer (Deferred.size d : Nat) s1 = .ok u s') : Backed s' := by
  have hsize : ((Deferred.size d : Nat) : Int) ≠ 0 := by
    rw [Deferred.size, show deferredSize = 272 by decide]
    omega
  have hknown := addRamUsage_known hbill hsize
  obtain ⟨hfree, rfl⟩ := createDeferred_ok hcreate
  refine Backed.congr ?_ (same_walk.sameNative sameNative_addRamUsage _ _ _ hbill)
  refine ⟨fun e he => ?_, hs.corrected⟩
  simp only [mem_insert] at he
  rcases he with he | rfl
  · exact hs.payers e he
  · exact hknown

theorem backed_applyRamCorrection {c : RamCorrection} :
    Preserves Backed (applyRamCorrection c) := by
  intro s u s' h hs
  rw [applyRamCorrection, get_bind] at h
  obtain ⟨usage, -, h⟩ := raise_bind_inv h
  obtain ⟨_, s1, hcharge, h⟩ := bind_ok_inv h
  cases h
  have hs1 : Backed s1 := hs.congr (same_walk.sameNative sameNative_addRamUsage _ _ _ hcharge)
  exact ⟨hs1.payers, fun c hc => hs1.corrected c (mem_erase.mp hc).1⟩

/-- **STEP**: whoever is billed, or is owed a correction, has a usage. -/
theorem backed_perform {vm : Vm} (step : Step) : Preserves Backed (step.perform vm conf) := by
  cases step with
  | reservePermission =>
    exact backed_of_same (keeps_modify fun _ => ⟨rfl, rfl, fun _ h => h⟩)
  | createNativeAccount =>
    exact backed_of_same (same_walk.createNativeAccount (fun _ _ _ => same_createAccount) fun _ =>
      same_of_onlyPermissions onlyPermissions_createPermissions)
  | insert => exact backed_of_same (same_walk.sameNative sameNative_memoryInsert)
  | initializeContract => exact backed_of_same (same_of_onlyCode onlyCode_initializeContract)
  | setNumConfig => exact backed_of_same same_walk.setNumConfig
  | createProducerPermissions =>
    exact backed_of_same (same_walk.createProducerPermissions fun _ _ _ _ =>
      same_of_onlyPermissions onlyPermissions_createPermission)
  | checkFuncOpen =>
    exact backed_of_same (same_walk.checkFuncOpen (same_of_onlyCode onlyCode_loadContracts)
      fun _ _ => same_replaceAuth)
  | updateProducersAuthority =>
    exact backed_of_same (same_walk.updateProducersAuthority fun _ _ => same_replaceAuth)
  | activateReplaceDeferred =>
    exact reads_get.preserves.bind fun _ => preserves_forM fun _ _ => backed_applyRamCorrection
  | newaccount =>
    exact backed_of_same (same_walk.newaccount (fun _ _ => same_createAccount) fun _ =>
      same_of_onlyPermissions onlyPermissions_createPermissions)
  | setcode => exact backed_of_same (same_of_onlyCode onlyCode_setcode)
  | setabi => exact backed_of_same (same_of_onlyCode onlyCode_setabi)
  | setconfig => exact reads_require.preserves.bind fun _ => backed_of_same same_walk.setNumConfig
  | manage => exact backed_of_same (same_of_onlyPermissions onlyPermissions_manage)
  | contract ctx op => exact backed_of_same (same_walk.sameNative (sameNative_perform op))
  | scheduleDeferred =>
    intro s u s' h hs
    obtain ⟨s1, s2, hroom, hcreate, hbill⟩ := scheduleDeferred_ok h
    exact backed_create (backed_makeRoom _ _ _ hroom hs) hcreate hbill
  | delayTransaction =>
    intro s u s' h hs
    obtain ⟨_, s1, hcreate, hbill⟩ := bind_ok_inv h
    exact backed_create hs hcreate hbill
  | removeDeferred =>
    intro s u s' h hs
    rcases removeDeferred_ok h with rfl | ⟨d, r, -, hr, rfl⟩
    · exact hs
    · have hs1 : Backed { s with resources := r } := hs.congr (.charged hr rfl rfl rfl)
      exact ⟨fun e he => hs1.payers e (mem_erase.mp he).1, hs1.corrected⟩

/-- **RUN**: so it is in every state of a chain. -/
theorem backed_reachable {vm : Vm} {allowed : Step → Prop} (h : Reachable vm conf allowed s) :
    Backed s := by
  refine h.invariant (fun s hs => ?_) fun step _ _ => backed_perform step
  have hblank : Backed blank :=
    ⟨fun d hd => (not_mem_nil hd).elim, fun c hc => (not_mem_nil hc).elim⟩
  exact preserves_forM (fun step _ => backed_perform step) _ _ _ hs hblank

/-! ## The activation -/

/-- A refund that the usage covers goes through. -/
theorem addRamUsage_refund {row : ResourceUsage} {n : Nat} (husage : s.resources.usage a = some row)
    (hn : n ≤ row.ramUsage) :
    ∃ r, Charged s.resources a (-(n : Int)) r ∧
      addRamUsage a (-(n : Int)) s = .ok () { s with resources := r } := by
  have hpending : ∃ r, addPendingRamUsage a (-(n : Int)) s.resources = .ok () r := by
    by_cases hzero : (-(n : Int)) = 0
    · rw [addPendingRamUsage, if_pos hzero]
      exact ⟨_, rfl⟩
    · have hrow : getUsage s.resources a = .ok row := by rw [getUsage, husage]
      rw [addPendingRamUsage, if_neg hzero, get_bind, raise_bind_ok hrow]
      rw [bind_ok (require_pos (.inl (by omega)) _), bind_ok (require_pos (.inr (by omega)) _)]
      exact ⟨_, rfl⟩
  obtain ⟨r, hr⟩ := hpending
  exact ⟨r, addPendingRamUsage_ok hr, zoom_ok hr⟩

/-- One correction: the usage goes down by it, but not below zero. -/
theorem applyRamCorrection_eq {c : RamCorrection} (hknown : Known s c.name) :
    ∃ r, applyRamCorrection c s =
        .ok () { s with resources := r, ramCorrections := s.ramCorrections.erase c.name } ∧
      (∀ b, ram r b = if b = c.name then ram s.resources b - min (c.ramCorrection : Int)
        (ram s.resources b) else ram s.resources b) ∧
      ∀ b, Known s b → (r.usage b).isSome := by
  obtain ⟨row, hrow⟩ := Option.isSome_iff_exists.mp hknown
  obtain ⟨r, hr, hcharge⟩ := addRamUsage_refund hrow (Nat.min_le_right c.ramCorrection row.ramUsage)
  refine ⟨r, ?_, ?_, fun b hb => (hr.known b).trans hb⟩
  · have hget : getUsage s.resources c.name = .ok row := by rw [getUsage, hrow]
    rw [applyRamCorrection, get_bind, raise_bind_ok hget, bind_ok hcharge]
    rfl
  · intro b
    rw [hr.ram b]
    by_cases hb : b = c.name
    · have hram : ram s.resources b = row.ramUsage := by
        rw [ram, hb, hrow]
        rfl
      rw [if_pos hb, if_pos hb, hram]
      omega
    · rw [if_neg hb, if_neg hb, Int.add_zero]

/-- All corrections, one after the other.  The induction is on the rows that
    are left: the first one is taken off and the others are untouched. -/
theorem applyAll (rows : List RamCorrection) :
    ∀ s : State, s.ramCorrections.rows = rows → (∀ c ∈ rows, Known s c.name) →
      ∃ s', rows.forM applyRamCorrection s = .ok () s' ∧ s'.ramCorrections.rows = [] ∧
        s'.deferred = s.deferred ∧
        ∀ a, ram s'.resources a = ram s.resources a -
          min (correction s a : Int) (ram s.resources a) := by
  induction rows with
  | nil =>
    intro s hrows _
    refine ⟨s, rfl, hrows, rfl, fun a => ?_⟩
    have hnone : s.ramCorrections.find a = none := by
      rw [find_none, hrows]
      exact fun c hc => (not_mem_nil hc).elim
    have hzero : correction s a = 0 := by rw [correction, hnone]; rfl
    have hram : 0 ≤ ram s.resources a := Int.natCast_nonneg _
    rw [hzero]
    omega
  | cons c rest ih =>
    intro s hrows hknown
    obtain ⟨r, happly, hram, hkept⟩ := applyRamCorrection_eq (hknown c mem_cons_self)
    have hmem : c ∈ s.ramCorrections.rows := hrows ▸ mem_cons_self
    have hfind := find_of_mem hmem
    have herase : (s.ramCorrections.erase c.name).rows = rest := by
      have hkeyed := s.ramCorrections.keyed
      rw [hrows, map_cons, nodup_cons] at hkeyed
      show s.ramCorrections.rows.filter _ = rest
      rw [hrows, filter_cons_of_neg (by simp), filter_eq_self]
      intro c' hc'
      refine decide_eq_true fun heq => hkeyed.1 ?_
      exact mem_map.mpr ⟨c', hc', heq⟩
    obtain ⟨s', hrest, hempty, hdeferred, hfinal⟩ := ih
      { s with resources := r, ramCorrections := s.ramCorrections.erase c.name } herase
      fun c' hc' => hkept _ (hknown c' (mem_cons_of_mem c hc'))
    refine ⟨s', ?_, hempty, hdeferred, fun a => ?_⟩
    · show (applyRamCorrection c >>= fun _ => rest.forM applyRamCorrection) s = _
      rw [bind_ok happly]
      exact hrest
    · have hnonneg : 0 ≤ ram s.resources a := Int.natCast_nonneg _
      rw [hfinal a, hram a]
      simp only [correction, find_erase]
      by_cases ha : a = c.name
      · subst ha
        rw [if_pos rfl, if_pos rfl, hfind]
        simp only [Option.map_none, Option.map_some, Option.getD_none, Option.getD_some]
        omega
      · rw [if_neg ha, if_neg ha]

/-- The activation goes through, and takes from each usage its correction. -/
theorem activate_ok (hs : Backed s) :
    ∃ s', activateReplaceDeferred s = .ok () s' ∧ s'.ramCorrections.rows = [] ∧
      s'.deferred = s.deferred ∧
      ∀ a, ram s'.resources a = ram s.resources a -
        min (correction s a : Int) (ram s.resources a) :=
  applyAll s.ramCorrections.rows s rfl hs.corrected

/-- A ledger that is not negative has room for the correction. -/
theorem correction_le (h : 0 ≤ ledger s a) : (correction s a : Int) ≤ ram s.resources a := by
  have howed := owed_nonneg (s := s) (a := a)
  rw [ledger] at h
  omega

/-! ## Whole runs -/

/-- The state after some steps, of which those that throw are undone. -/
def afterSteps (vm : Vm) (conf : Conf) (steps : List Step) (s : State) : State :=
  steps.foldl (fun s step => commit (step.perform vm conf) s) s

/-- What one step keeps, all of them keep. -/
theorem afterSteps_induction {vm : Vm} {steps : List Step} {I : State → Prop}
    (hstep : ∀ step ∈ steps, Preserves I (step.perform vm conf)) (hs : I s) :
    I (afterSteps vm conf steps s) := by
  induction steps generalizing s with
  | nil => exact hs
  | cons step rest ih =>
    exact ih (fun x hx => hstep x (mem_cons_of_mem step hx)) ((hstep step mem_cons_self).commit hs)

/-- **THE LEDGER**: storing, replacing, cancelling and retiring deferred
    transactions keep the ledger of every account.  The activation after them
    always goes through and leaves no correction, and where the ledger is not
    negative it takes the whole correction from the usage. -/
theorem deferred_ram_ledger {vm : Vm} {conf : Conf} {allowed : Step → Prop} {s₀ : State}
    {steps : List Step} (hstart : Reachable vm conf allowed s₀)
    (hsteps : ∀ step ∈ steps, Defers step) :
    (∀ a, ledger (afterSteps vm conf steps s₀) a = ledger s₀ a) ∧
      ∃ s', activateReplaceDeferred (afterSteps vm conf steps s₀) = .ok () s' ∧
        s'.ramCorrections.rows = [] ∧
        ∀ a, 0 ≤ ledger s₀ a →
          (correction (afterSteps vm conf steps s₀) a : Int) ≤
            ram (afterSteps vm conf steps s₀).resources a ∧
          ram s'.resources a = ram (afterSteps vm conf steps s₀).resources a -
            correction (afterSteps vm conf steps s₀) a ∧
          ledger s' a = ledger s₀ a := by
  have hledger : SameLedger s₀ (afterSteps vm conf steps s₀) := by
    refine afterSteps_induction (fun step hstep => ?_) (SameLedger.refl s₀)
    exact (sameLedger_perform (hsteps step hstep)).preserves fun s s' h hs => hs.trans h
  have hbacked : Backed (afterSteps vm conf steps s₀) :=
    afterSteps_induction (fun step _ => backed_perform step) (backed_reachable hstart)
  generalize afterSteps vm conf steps s₀ = s at hledger hbacked ⊢
  obtain ⟨s', hactivate, hempty, hdeferred, hram⟩ := activate_ok hbacked
  refine ⟨hledger, s', hactivate, hempty, fun a ha => ?_⟩
  have hle : (correction s a : Int) ≤ ram s.resources a := correction_le ((hledger a).symm ▸ ha)
  have hlowered : ram s'.resources a = ram s.resources a - correction s a := by
    rw [hram a, Int.min_eq_left hle]
  refine ⟨hle, hlowered, ?_⟩
  have hnone : s'.ramCorrections.find a = none := by
    rw [find_none, hempty]
    exact fun c hc => (not_mem_nil hc).elim
  have hzero : correction s' a = 0 := by rw [correction, hnone]; rfl
  have howed : owed s' a = owed s a := by rw [owed, owed, hdeferred]
  rw [← hledger a, ledger, ledger, hlowered, howed, hzero]
  push_cast
  omega

/-- The system account defers a transaction and replaces it by a longer one
    while replacing books a correction; another one is delayed and retired. -/
def someSteps : List Step :=
  let ctx : ActionContext :=
    { receiver := systemAccountName
      account := systemAccountName
      authorization := []
      replaceDeferred := false }
  [.scheduleDeferred ctx 7 systemAccountName [1, 2, 3] true false,
   .scheduleDeferred ctx 7 systemAccountName [1, 2, 3, 4, 5] true false,
   .delayTransaction 8 tokenAccountName [9],
   .removeDeferred noName 8]

theorem someSteps_ledger :
    correction (afterSteps smallVm smallConf someSteps smallGenesis) systemAccountName = 275 ∧
      (∃ s', activateReplaceDeferred (afterSteps smallVm smallConf someSteps smallGenesis) =
          .ok () s' ∧ s'.ramCorrections.rows = [] ∧
        ram s'.resources systemAccountName =
          ram (afterSteps smallVm smallConf someSteps smallGenesis).resources systemAccountName -
            275) := by
  have hcorrection :
      correction (afterSteps smallVm smallConf someSteps smallGenesis) systemAccountName = 275 := by
    decide +kernel
  have hstart : Reachable smallVm smallConf (fun _ => True) smallGenesis :=
    .genesis smallGenesis_ok
  have hsteps : ∀ step ∈ someSteps, Defers step := by
    intro step hstep
    simp only [someSteps, mem_cons, not_mem_nil, or_false] at hstep
    rcases hstep with rfl | rfl | rfl | rfl <;> exact trivial
  obtain ⟨-, s', hactivate, hempty, hlowered⟩ := deferred_ram_ledger hstart hsteps
  have hroom : 0 ≤ ledger smallGenesis systemAccountName := by decide +kernel
  refine ⟨hcorrection, s', hactivate, hempty, ?_⟩
  rw [(hlowered systemAccountName hroom).2.1, hcorrection]
  rfl

end DeferredLedger
