import EosForce.NativeFrameProofs

/-! # Reference counts of code

    `setcode` gives back the code that an account had before it counts the new
    one.  `initialize_contract`, with which a system contract is upgraded on the
    chain, only counts the new one.  So what matters is by how much the count
    of a code object exceeds the number of accounts that run it: `setcode`
    keeps that, and an upgrade of an account that has code adds one to it for
    the old code, for good.  At genesis no account has code yet. -/

namespace CodeCount

open ChainTypes TrxTypes Effect Authority RowTable StateTables ContractTables List Table
  PermissionStore NativeActions NativeFrame

/-- How many accounts run a code. -/
def referrers (s : State) (k : CodeKey) : Nat :=
  s.accounts.rows.countP fun a => decide (a.codeKey = k)

/-- The counts are what they stand for. -/
structure Exact (s : State) : Prop where
  counts : ∀ o ∈ s.codes.rows, o.codeRefCount = referrers s o.key
  stored : ∀ a ∈ s.accounts.rows, a.codeHash ≠ 0 → ∃ o ∈ s.codes.rows, o.key = a.codeKey
  used : ∀ o ∈ s.codes.rows, 0 < referrers s o.key

/-- The count of a code; a code that is not stored has none. -/
def count (s : State) (k : CodeKey) : Nat := ((s.codes.find k).map (·.codeRefCount)).getD 0

/-- How much is counted too much. -/
def excess (s : State) (k : CodeKey) : Int := (count s k : Int) - referrers s k

/-- Stored code has a hash, and somebody counted it. -/
structure Sane (s : State) : Prop where
  positive : ∀ o ∈ s.codes.rows, 0 < o.codeRefCount
  hashed : ∀ o ∈ s.codes.rows, o.codeHash ≠ 0

variable {s s' : State} {u : Unit} {k : CodeKey} {ctx : ActionContext} {vm : Vm} {conf : Conf}

theorem count_of_mem {o : CodeObject} (h : o ∈ s.codes.rows) : count s o.key = o.codeRefCount := by
  rw [count, find_of_mem h]
  rfl

theorem referrers_pos {a : Account} (h : a ∈ s.accounts.rows) : 0 < referrers s a.codeKey :=
  countP_pos_iff.mpr ⟨a, h, decide_eq_true rfl⟩

/-- The counts are exact where nothing is counted too much. -/
theorem exact_iff (hs : Sane s) : Exact s ↔ ∀ k : CodeKey, k.1 ≠ 0 → excess s k = 0 := by
  constructor
  · intro h k hk
    cases hfind : s.codes.find k with
    | some o =>
      obtain ⟨hmem, rfl⟩ := find_some hfind
      rw [excess, count_of_mem hmem, h.counts o hmem]
      omega
    | none =>
      have hzero : referrers s k = 0 := by
        rw [referrers, countP_eq_zero]
        intro a ha hkey
        obtain rfl := of_decide_eq_true hkey
        obtain ⟨o, ho, hok⟩ := h.stored a ha hk
        exact find_none.mp hfind o ho hok
      rw [excess, count, hfind, hzero]
      rfl
  · intro h
    have hcounts : ∀ o ∈ s.codes.rows, o.codeRefCount = referrers s o.key := by
      intro o ho
      have hexcess := h o.key (hs.hashed o ho)
      rw [excess, count_of_mem ho] at hexcess
      omega
    refine ⟨hcounts, fun a ha hcode => ?_, fun o ho => hcounts o ho ▸ hs.positive o ho⟩
    have hexcess := h a.codeKey hcode
    have hpos := referrers_pos ha
    cases hfind : s.codes.find a.codeKey with
    | some o => exact ⟨o, (find_some hfind).1, (find_some hfind).2⟩
    | none =>
      rw [excess, count, hfind] at hexcess
      simp only [Option.map_none, Option.getD_none] at hexcess
      omega

/-! ## Who runs what -/

/-- One where an account runs a code. -/
def runs (k : CodeKey) (a : Account) : Int := if a.codeKey = k then 1 else 0

theorem referrers_eq (s : State) (k : CodeKey) :
    (referrers s k : Int) = s.accounts.total (runs k) :=
  (total_indicator (t := s.accounts) fun a => a.codeKey = k).symm

/-- An account without code runs no code. -/
theorem runs_bare {a : Account} (ha : a.codeHash = 0) (hk : k.1 ≠ 0) : runs k a = 0 := by
  refine if_neg fun h => hk ?_
  rw [← h]
  exact ha

variable {account : Account}

theorem referrers_insert (hfree : s.accounts.find account.name = none)
    (hs' : s'.accounts = s.accounts.insert account hfree) :
    (referrers s' k : Int) = referrers s k + runs k account := by
  rw [referrers_eq, referrers_eq, hs', total_insert]

theorem referrers_congr (h : s'.accounts = s.accounts) : referrers s' k = referrers s k := by
  rw [referrers, referrers, h]

/-! ## Counting -/

/-- One for the code itself. -/
def one (key k : CodeKey) : Int := if key = k then 1 else 0

theorem acquireCode_accounts (hash : Digest) (code : Bytes) (n : Nat) (s : State) :
    (acquireCode hash code n s).accounts = s.accounts := by
  rw [acquireCode]
  split
  · rfl
  · rfl

theorem count_insert {o : CodeObject} (hfree : s.codes.find o.key = none)
    (hs' : s'.codes = s.codes.insert o hfree) :
    count s' k = if k = o.key then o.codeRefCount else count s k := by
  rw [count, hs', find_insert, count]
  split
  · rfl
  · rfl

theorem count_modify {o : CodeObject} (f : CodeObject → CodeObject)
    (hf : ∀ o, (f o).key = o.key) (hfind : s.codes.find o.key = some o)
    (hs' : s'.codes = s.codes.modify o.key f hf) :
    count s' k = if k = o.key then (f o).codeRefCount else count s k := by
  rw [count, hs', find_modify, count]
  split
  · rw [hfind]
    rfl
  · rfl

theorem count_acquire (hash : Digest) (code : Bytes) (n : Nat) (s : State) :
    (count (acquireCode hash code n s) k : Int) = count s k + one (hash, 0, 0) k := by
  rw [acquireCode, one]
  split
  · rename_i hfree
    have hkey : CodeObject.key ⟨hash, code, 1, n, 0, 0⟩ = (hash, 0, 0) := rfl
    rw [count_insert (k := k) (o := ⟨hash, code, 1, n, 0, 0⟩) hfree rfl, hkey]
    by_cases hk : (hash, 0, 0) = k
    · subst hk
      rw [if_pos rfl, if_pos rfl, count, hfree]
      rfl
    · rw [if_neg fun h => hk h.symm, if_neg hk]
      omega
  · rename_i hfound
    obtain ⟨o, ho⟩ := Option.ne_none_iff_exists'.mp hfound
    have hkey : o.key = (hash, 0, 0) := (find_some ho).2
    rw [← hkey] at ho ⊢
    rw [count_modify (k := k) (fun o => { o with codeRefCount := o.codeRefCount + 1 })
      (fun _ => rfl) ho rfl]
    by_cases hk : o.key = k
    · subst hk
      rw [if_pos rfl, if_pos rfl, count, ho]
      simp
    · rw [if_neg fun h => hk h.symm, if_neg hk]
      omega

theorem sane_acquire {hash : Digest} (hhash : hash ≠ 0) (code : Bytes) (n : Nat) (hs : Sane s) :
    Sane (acquireCode hash code n s) := by
  rw [acquireCode]
  split
  · refine ⟨forall_mem_append.mpr ⟨hs.positive, ?_⟩, forall_mem_append.mpr ⟨hs.hashed, ?_⟩⟩
    · exact forall_mem_singleton.mpr Nat.one_pos
    · exact forall_mem_singleton.mpr hhash
  · refine ⟨fun o ho => ?_, fun o ho => ?_⟩
    · obtain ⟨o', ho', rfl⟩ := mem_map.mp ho
      split
      · exact Nat.succ_pos _
      · exact hs.positive o' ho'
    · obtain ⟨o', ho', rfl⟩ := mem_map.mp ho
      split
      · exact hs.hashed o' ho'
      · exact hs.hashed o' ho'

theorem releaseCode_accounts (old : CodeObject) (s : State) :
    (releaseCode old s).accounts = s.accounts := by
  rw [releaseCode]
  split
  · rfl
  · rfl

theorem count_release {old : CodeObject} (hs : Sane s) (hold : s.codes.find old.key = some old) :
    (count (releaseCode old s) k : Int) = count s k - one old.key k := by
  have hpos := hs.positive old (find_some hold).1
  rw [releaseCode, one]
  split
  · rename_i hlast
    simp only [count, find_erase]
    by_cases hk : old.key = k
    · subst hk
      rw [if_pos rfl, if_pos rfl, hold]
      simp [hlast]
    · rw [if_neg fun h => hk h.symm, if_neg hk]
      omega
  · rw [count_modify (k := k) (fun o => { o with codeRefCount := o.codeRefCount - 1 })
      (fun _ => rfl) hold rfl]
    by_cases hk : old.key = k
    · subst hk
      rw [if_pos rfl, if_pos rfl, count, hold]
      simp only [Option.map_some, Option.getD_some]
      omega
    · rw [if_neg fun h => hk h.symm, if_neg hk]
      omega

theorem sane_release {old : CodeObject} (hs : Sane s) (hold : s.codes.find old.key = some old) :
    Sane (releaseCode old s) := by
  have hpos := hs.positive old (find_some hold).1
  rw [releaseCode]
  split
  · exact ⟨fun o ho => hs.positive o (mem_erase.mp ho).1,
      fun o ho => hs.hashed o (mem_erase.mp ho).1⟩
  · rename_i hmore
    refine ⟨fun o ho => ?_, fun o ho => ?_⟩
    · obtain ⟨o', ho', rfl⟩ := mem_map.mp ho
      split
      · rename_i hkey
        have heq : o' = old := eq_of_key ho' (find_some hold).1 hkey
        show 0 < o'.codeRefCount - 1
        rw [heq]
        omega
      · exact hs.positive o' ho'
    · obtain ⟨o', ho', rfl⟩ := mem_map.mp ho
      split
      · exact hs.hashed o' ho'
      · exact hs.hashed o' ho'

/-! ## The steps -/

/-- Nothing more or less is counted too much. -/
def SameExcess (s s' : State) : Prop :=
  Sane s → Sane s' ∧ ∀ k : CodeKey, k.1 ≠ 0 → excess s' k = excess s k

theorem SameExcess.refl (s : State) : SameExcess s s := fun hs => ⟨hs, fun _ _ => rfl⟩

theorem SameExcess.trans ⦃a b c : State⦄ (h : SameExcess a b) (h' : SameExcess b c) :
    SameExcess a c := by
  intro ha
  obtain ⟨hb, hab⟩ := h ha
  obtain ⟨hc, hbc⟩ := h' hb
  exact ⟨hc, fun k hk => (hbc k hk).trans (hab k hk)⟩

/-- Accounts run what they ran, and the code objects are the same. -/
structure SameCode (s s' : State) : Prop where
  accounts : s'.accounts = s.accounts
  codes : s'.codes = s.codes

theorem SameCode.trans ⦃a b c : State⦄ (h : SameCode a b) (h' : SameCode b c) : SameCode a c :=
  ⟨h'.accounts.trans h.accounts, h'.codes.trans h.codes⟩

theorem SameCode.sameExcess (h : SameCode s s') : SameExcess s s' := by
  intro hs
  refine ⟨⟨fun o ho => hs.positive o (h.codes ▸ ho), fun o ho => hs.hashed o (h.codes ▸ ho)⟩, ?_⟩
  intro k _
  rw [excess, excess, count, count, referrers, referrers, h.accounts, h.codes]

theorem sameExcess_of_sameCode {α : Type} {x : StateM α} (hx : Keeps SameCode x) :
    Keeps SameExcess x :=
  fun s a s' h => (hx s a s' h).sameExcess

theorem code_walk : Walk SameCode where
  trans := SameCode.trans
  native := fun _ _ h => ⟨h.accounts, h.codes⟩
  config := fun _ _ _ => ⟨rfl, rfl⟩

theorem excess_walk : Walk SameExcess where
  trans := SameExcess.trans
  native := fun _ _ h => (code_walk.native h).sameExcess
  config := fun s typ num => (code_walk.config s typ num).sameExcess

theorem sameCode_of_onlyPermissions {α : Type} {x : StateM α} (hx : Keeps OnlyPermissions x) :
    Keeps SameCode x :=
  fun s a s' h => ⟨(hx s a s' h).accounts, (hx s a s' h).codes⟩

theorem sameCode_of_onlyDeferred {α : Type} {x : StateM α} (hx : Keeps OnlyDeferred x) :
    Keeps SameCode x :=
  fun s a s' h => ⟨(hx s a s' h).accounts, (hx s a s' h).codes⟩

/-- A new account has no code. -/
theorem sameExcess_createAccount (hbare : account.codeHash = 0) :
    Keeps SameExcess (createAccount account) := by
  intro s u s' h hs
  obtain ⟨hfree, rfl⟩ := createAccount_ok h
  refine ⟨⟨hs.positive, hs.hashed⟩, fun k hk => ?_⟩
  have hrefs : (referrers { s with accounts := s.accounts.insert account hfree } k : Int) =
      referrers s k + runs k account := referrers_insert hfree rfl
  rw [runs_bare hbare hk] at hrefs
  show (count s k : Int) - _ = _
  rw [hrefs, excess]
  omega

variable {name : Name}

/-- An account exchanges its code for another. -/
theorem referrers_assigned (account : Account) (hash : Digest) {f : Account → Account} {hf}
    (hfind : s.accounts.find name = some account) (hkey : (f account).codeKey = (hash, 0, 0)) :
    (referrers { s with accounts := s.accounts.modify name f hf } k : Int) =
      referrers s k - runs k account + one (hash, 0, 0) k := by
  have hruns : runs k (f account) = one (hash, 0, 0) k := by
    rw [runs, hkey]
    rfl
  rw [referrers_eq, referrers_eq, total_modify hfind, hruns]

theorem one_zero (hk : k.1 ≠ 0) : one (0, 0, 0) k = 0 := by
  refine if_neg fun h => hk ?_
  rw [← h]

/-- The old code is given back. -/
theorem released_ok {hash : Digest} {released : State} {n : Nat} (hs : Sane s)
    (h : Released s account hash released n) :
    Sane released ∧ released.accounts = s.accounts ∧
      ∀ k : CodeKey, k.1 ≠ 0 → (count released k : Int) = count s k - runs k account := by
  cases h with
  | without hbare =>
    refine ⟨hs, rfl, fun k hk => ?_⟩
    rw [runs_bare hbare hk]
    omega
  | @code old hcode hfind hother =>
    have hkey : old.key = account.codeKey := (find_some hfind).2
    have hold : s.codes.find old.key = some old := hkey ▸ hfind
    refine ⟨sane_release hs hold, releaseCode_accounts old s, fun k _ => ?_⟩
    rw [count_release hs hold, one, runs, hkey]

/-- The new code is counted, if there is any. -/
theorem acquireNew_ok (vm : Vm) (code : Bytes) (n : Nat) (hs : Sane s) :
    Sane (acquireNew vm code n s) ∧ (acquireNew vm code n s).accounts = s.accounts ∧
      ∀ k : CodeKey, k.1 ≠ 0 →
        (count (acquireNew vm code n s) k : Int) = count s k + one (vm.hashOf code, 0, 0) k := by
  rw [acquireNew]
  by_cases hcode : 0 < code.length
  · have hhash : vm.hashOf code ≠ 0 := by
      rw [Vm.hashOf, if_pos hcode]
      exact vm.nonzero code
    rw [if_pos hcode]
    exact ⟨sane_acquire hhash code n hs, acquireCode_accounts .., fun k _ => count_acquire ..⟩
  · rw [if_neg hcode]
    refine ⟨hs, rfl, fun k hk => ?_⟩
    rw [Vm.hashOf, if_neg hcode, one_zero hk]
    omega

theorem sameExcess_setcode {act : SetCode} : Keeps SameExcess (setcode vm ctx act) := by
  intro s u s' h hs
  obtain ⟨account, released, oldSize, r, hfind, -, -, hreleased, -, rfl⟩ := setcode_ok h
  obtain ⟨hsane, haccounts, hcount⟩ := released_ok hs hreleased
  obtain ⟨hsane', haccounts', hcount'⟩ :=
    acquireNew_ok vm act.code (ctx.headBlockNum + 1) hsane
  refine ⟨⟨hsane'.positive, hsane'.hashed⟩, fun k hk => ?_⟩
  show (count (acquireNew vm act.code (ctx.headBlockNum + 1) released) k : Int) -
    referrers (assignCode act.account (vm.hashOf act.code) 0 0 ctx.pendingBlockTime
      (acquireNew vm act.code (ctx.headBlockNum + 1) released)) k = _
  rw [assignCode, referrers_assigned account (vm.hashOf act.code),
    referrers_congr (haccounts'.trans haccounts), hcount' k hk, hcount k hk, excess]
  · omega
  · rw [haccounts', haccounts, hfind]
  · rfl

theorem sameExcess_setabi {act : SetAbi} : Keeps SameExcess (setabi ctx act) := by
  intro s u s' h hs
  obtain ⟨account, r, -, -, rfl⟩ := setabi_ok h
  refine ⟨⟨hs.positive, hs.hashed⟩, fun k _ => ?_⟩
  have hrefs : (referrers (assignAbi act.account act.abi s) k : Int) = referrers s k := by
    rw [referrers_eq, referrers_eq, assignAbi, total_modify_same]
    exact fun _ => rfl
  show (count s k : Int) - referrers (assignAbi act.account act.abi s) k = _
  rw [hrefs, excess]

/-- One where the account runs a code. -/
def runsAt (s : State) (name : Name) (k : CodeKey) : Int :=
  ((s.accounts.find name).map (runs k)).getD 0

theorem runsAt_nonneg (s : State) (name : Name) (k : CodeKey) : 0 ≤ runsAt s name k := by
  rw [runsAt]
  cases s.accounts.find name with
  | none => exact Int.le_refl 0
  | some a =>
    show 0 ≤ runs k a
    rw [runs]
    split
    · exact Int.one_nonneg
    · exact Int.le_refl 0

variable {privileged : Bool}

/-- The other accounts are not touched. -/
theorem initializeContract_others {contract name : Name} {code abi : Bytes} {time : Nat}
    (h : initializeContract vm contract code abi time privileged s = .ok u s')
    (hname : name ≠ contract) : s'.accounts.find name = s.accounts.find name := by
  obtain ⟨account, r, -, -, rfl⟩ := initializeContract_ok h
  show (assignContract contract (vm.sha256 code) abi time privileged
    (acquireCode (vm.sha256 code) code 1 s)).accounts.find name = _
  rw [assignContract, find_modify, if_neg hname, acquireCode_accounts]

/-- A contract is set, and the old code stays counted. -/
theorem initializeContract_excess {contract : Name} {code abi : Bytes} {time : Nat}
    (h : initializeContract vm contract code abi time privileged s = .ok u s') (hs : Sane s) :
    Sane s' ∧ ∀ k : CodeKey, excess s' k = excess s k + runsAt s contract k := by
  obtain ⟨account, r, hfind, -, rfl⟩ := initializeContract_ok h
  have haccounts := acquireCode_accounts (vm.sha256 code) code 1 s
  have hsane := sane_acquire (vm.nonzero code) code 1 hs
  refine ⟨⟨hsane.positive, hsane.hashed⟩, fun k => ?_⟩
  have hold : runsAt s contract k = runs k account := by
    rw [runsAt, hfind]
    rfl
  show (count (acquireCode (vm.sha256 code) code 1 s) k : Int) -
    referrers (assignContract contract (vm.sha256 code) abi time privileged
      (acquireCode (vm.sha256 code) code 1 s)) k = _
  rw [assignContract, referrers_assigned account (vm.sha256 code), referrers_congr haccounts,
    count_acquire, hold, excess]
  · omega
  · rw [haccounts, hfind]
  · rfl

/-- What is counted too much after `check_func_open`. -/
def leftover (s : State) (headNum : Nat) (k : CodeKey) : Int :=
  (if isFuncOpenInCurrBlock s headNum FuncTyp.useSystem01 3385100 then runsAt s systemAccountName k
    else 0) +
  (if isFuncOpenInCurrBlock s headNum FuncTyp.useMsig 4356456 then runsAt s msigAccountName k
    else 0)

theorem loadContracts_excess {headNum : Nat} (h : loadContracts vm conf headNum s = .ok u s')
    (hs : Sane s) : Sane s' ∧ ∀ k : CodeKey, excess s' k = excess s k + leftover s headNum k := by
  rw [loadContracts, get_bind] at h
  obtain ⟨_, s1, hsystem, hmsig⟩ := bind_ok_inv h
  have hfirst : Sane s1 ∧ (∀ k : CodeKey, excess s1 k = excess s k +
      if isFuncOpenInCurrBlock s headNum FuncTyp.useSystem01 3385100 then
        runsAt s systemAccountName k else 0) ∧
      s1.accounts.find msigAccountName = s.accounts.find msigAccountName := by
    rcases whenever_ok hsystem with ⟨hopen, hsystem⟩ | ⟨hopen, rfl⟩
    · obtain ⟨hsane, hexcess⟩ := initializeContract_excess hsystem hs
      refine ⟨hsane, fun k => ?_, initializeContract_others hsystem (by decide)⟩
      rw [hexcess k, if_pos hopen]
    · refine ⟨hs, fun k => ?_, rfl⟩
      rw [if_neg hopen, Int.add_zero]
  obtain ⟨hsane, hexcess, hkept⟩ := hfirst
  rcases whenever_ok hmsig with ⟨hopen, hmsig⟩ | ⟨hopen, rfl⟩
  · obtain ⟨hsane', hexcess'⟩ := initializeContract_excess hmsig hsane
    refine ⟨hsane', fun k => ?_⟩
    have hsame : runsAt s1 msigAccountName k = runsAt s msigAccountName k := by
      rw [runsAt, runsAt, hkept]
    rw [hexcess' k, hexcess k, hsame, leftover, if_pos hopen]
    omega
  · refine ⟨hsane, fun k => ?_⟩
    rw [hexcess k, leftover, if_neg hopen, Int.add_zero]

/-- The rest of `check_func_open` leaves accounts and code alone. -/
theorem checkFuncOpen_excess {headNum : Nat} (h : checkFuncOpen vm conf headNum s = .ok u s')
    (hs : Sane s) : Sane s' ∧ ∀ k : CodeKey, excess s' k = excess s k + leftover s headNum k := by
  obtain ⟨_, s1, hload, hrest⟩ := code_walk.afterContracts
    (fun _ _ => sameCode_of_onlyPermissions onlyPermissions_replaceAuth) h
  obtain ⟨hsane, hexcess⟩ := loadContracts_excess hload hs
  refine ⟨(hrest.sameExcess hsane).1, fun k => ?_⟩
  have hsame : excess s' k = excess s1 k := by
    rw [excess, excess, count, count, referrers, referrers, hrest.accounts, hrest.codes]
  rw [hsame, hexcess k]

/-- The account has no code. -/
def Bare (s : State) (name : Name) : Prop :=
  ∀ a, s.accounts.find name = some a → a.codeHash = 0

/-- The contracts that the step upgrades have no code yet. -/
def UpgradesBare (s : State) : Step → Prop
  | .checkFuncOpen headNum =>
    (isFuncOpenInCurrBlock s headNum FuncTyp.useSystem01 3385100 → Bare s systemAccountName) ∧
      (isFuncOpenInCurrBlock s headNum FuncTyp.useMsig 4356456 → Bare s msigAccountName)
  | _ => True

theorem runsAt_bare (h : Bare s name) (hk : k.1 ≠ 0) : runsAt s name k = 0 := by
  rw [runsAt]
  cases hfind : s.accounts.find name with
  | none => rfl
  | some a => exact runs_bare (h a hfind) hk

/-- An account with code runs something. -/
theorem bare_of_runsAt (h : ∀ k : CodeKey, k.1 ≠ 0 → runsAt s name k = 0) : Bare s name := by
  intro a hfind
  by_contra hcode
  have hzero := h a.codeKey hcode
  rw [runsAt, hfind] at hzero
  simp [runs] at hzero

theorem leftover_eq_zero_iff {headNum : Nat} :
    (∀ k : CodeKey, k.1 ≠ 0 → leftover s headNum k = 0) ↔
      UpgradesBare s (.checkFuncOpen headNum) := by
  constructor
  · intro h
    -- both parts are not negative, so neither hides the other
    have hparts : ∀ k : CodeKey, k.1 ≠ 0 →
        (isFuncOpenInCurrBlock s headNum FuncTyp.useSystem01 3385100 →
          runsAt s systemAccountName k = 0) ∧
        (isFuncOpenInCurrBlock s headNum FuncTyp.useMsig 4356456 →
          runsAt s msigAccountName k = 0) := by
      intro k hk
      have hsum := h k hk
      have hsystem := runsAt_nonneg s systemAccountName k
      have hmsig := runsAt_nonneg s msigAccountName k
      rw [leftover] at hsum
      constructor
      · intro hopen
        rw [if_pos hopen] at hsum
        split at hsum <;> omega
      · intro hopen
        rw [if_pos hopen] at hsum
        split at hsum <;> omega
    exact ⟨fun hopen => bare_of_runsAt fun k hk => (hparts k hk).1 hopen,
      fun hopen => bare_of_runsAt fun k hk => (hparts k hk).2 hopen⟩
  · rintro ⟨hsystem, hmsig⟩ k hk
    have hsystem := fun hopen => runsAt_bare (hsystem hopen) hk
    have hmsig := fun hopen => runsAt_bare (hmsig hopen) hk
    rw [leftover]
    split_ifs <;> simp_all

/-- Account, permissions and usages come without code. -/
theorem sameExcess_createNativeAccount {owner active : Auth} :
    Keeps SameExcess (createNativeAccount conf name owner active privileged) :=
  excess_walk.createNativeAccount (fun _ hbare _ => sameExcess_createAccount hbare) fun _ =>
    sameExcess_of_sameCode (sameCode_of_onlyPermissions onlyPermissions_createPermissions)

theorem sameCode_createProducerPermissions : Keeps SameCode (createProducerPermissions conf) :=
  code_walk.createProducerPermissions fun _ _ _ _ =>
    sameCode_of_onlyPermissions onlyPermissions_createPermission

/-- Every step after genesis but `check_func_open`. -/
theorem sameExcess_perform {step : Step} (hlive : step.Live)
    (hstep : ∀ headNum, step ≠ .checkFuncOpen headNum) :
    Keeps SameExcess (step.perform vm conf) := by
  cases step with
  | checkFuncOpen headNum => exact absurd rfl (hstep headNum)
  | updateProducersAuthority producers =>
    exact excess_walk.updateProducersAuthority fun _ _ =>
      sameExcess_of_sameCode (sameCode_of_onlyPermissions onlyPermissions_replaceAuth)
  | activateReplaceDeferred =>
    exact sameExcess_of_sameCode (sameCode_of_onlyDeferred onlyDeferred_activateReplaceDeferred)
  | newaccount ctx create =>
    exact excess_walk.newaccount (fun _ hbare => sameExcess_createAccount hbare) fun _ =>
      sameExcess_of_sameCode (sameCode_of_onlyPermissions onlyPermissions_createPermissions)
  | setcode ctx act => exact sameExcess_setcode
  | setabi ctx act => exact sameExcess_setabi
  | setconfig ctx typ num =>
    exact reads_require.bind_keeps fun _ => excess_walk.setNumConfig
  | manage ctx action =>
    exact sameExcess_of_sameCode (sameCode_of_onlyPermissions onlyPermissions_manage)
  | contract ctx op =>
    exact excess_walk.sameNative (sameNative_perform op)
  | scheduleDeferred ctx senderId payer packedTrx allowed subjective =>
    exact sameExcess_of_sameCode (sameCode_of_onlyDeferred onlyDeferred_scheduleDeferred)
  | delayTransaction senderId payer packedTrx =>
    exact sameExcess_of_sameCode (sameCode_of_onlyDeferred onlyDeferred_delayTransaction)
  | removeDeferred sender senderId =>
    exact sameExcess_of_sameCode (sameCode_of_onlyDeferred onlyDeferred_removeDeferred)
  | _ => exact absurd hlive id

/-- **STEP**: exact counts stay exact if and only if no contract that has code
    is upgraded. -/
theorem exact_perform_iff {step : Step} (hlive : step.Live)
    (h : step.perform vm conf s = .ok u s') (hs : Sane s) (hexact : Exact s) :
    Sane s' ∧ (Exact s' ↔ UpgradesBare s step) := by
  have hzero := (exact_iff hs).mp hexact
  by_cases hcheck : ∃ headNum, step = .checkFuncOpen headNum
  · obtain ⟨headNum, rfl⟩ := hcheck
    obtain ⟨hsane, hexcess⟩ := checkFuncOpen_excess h hs
    refine ⟨hsane, ?_⟩
    rw [exact_iff hsane, ← leftover_eq_zero_iff]
    refine forall_congr' fun k => imp_congr_right fun hk => ?_
    rw [hexcess k, hzero k hk, Int.zero_add]
  · have hother : ∀ headNum, step ≠ .checkFuncOpen headNum :=
      fun headNum heq => hcheck ⟨headNum, heq⟩
    obtain ⟨hsane, hexcess⟩ := sameExcess_perform hlive hother _ _ _ h hs
    refine ⟨hsane, ?_⟩
    have hbare : UpgradesBare s step := by
      cases step with
      | checkFuncOpen headNum => exact absurd rfl (hother headNum)
      | _ => exact trivial
    refine iff_of_true ((exact_iff hsane).mpr fun k hk => ?_) hbare
    rw [hexcess k hk, hzero k hk]

/-! ## Genesis -/

/-- Only these accounts may have code. -/
def BareBut (names : List Name) (s : State) : Prop :=
  ∀ a ∈ s.accounts.rows, a.name ∉ names → a.codeHash = 0

variable {names : List Name}

theorem BareBut.bare (h : BareBut names s) (hname : name ∉ names) : Bare s name := by
  intro a hfind
  obtain ⟨hmem, hkey⟩ := find_some hfind
  exact h a hmem (hkey ▸ hname)

theorem bareBut_of_sameCode {α : Type} {x : StateM α} (hx : Keeps SameCode x) :
    Preserves (BareBut names) x := by
  intro s v s' h hs a ha
  rw [(hx s v s' h).accounts] at ha
  exact hs a ha

theorem bareBut_createNativeAccount {owner active : Auth} :
    Preserves (BareBut names) (createNativeAccount conf name owner active privileged) := by
  refine (code_walk.invariant fun s s' h hs a ha => hs a (h.accounts ▸ ha)).createNativeAccount
    (fun account hbare _ s u s' h hs a ha hname => ?_)
    fun _ => bareBut_of_sameCode (sameCode_of_onlyPermissions onlyPermissions_createPermissions)
  · obtain ⟨hfree, rfl⟩ := createAccount_ok h
    rcases mem_append.mp ha with ha | ha
    · exact hs a ha hname
    · rw [mem_singleton.mp ha]
      exact hbare

/-- The contract gets its first code. -/
theorem initializeContract_first {contract : Name} {code abi : Bytes} {time : Nat}
    (hcontract : contract ∉ names)
    (h : initializeContract vm contract code abi time privileged s = .ok u s')
    (hbare : BareBut names s) : SameExcess s s' ∧ BareBut (contract :: names) s' := by
  constructor
  · intro hs
    obtain ⟨hsane, hexcess⟩ := initializeContract_excess h hs
    refine ⟨hsane, fun k hk => ?_⟩
    rw [hexcess k, runsAt_bare (hbare.bare hcontract) hk, Int.add_zero]
  · intro a ha hname
    rw [mem_cons, not_or] at hname
    have hfind := initializeContract_others h hname.1
    rw [find_of_mem ha] at hfind
    exact hbare a (find_some hfind.symm).1 hname.2

theorem genesis_exact (h : initializeDatabase vm conf blank = .ok () s) : Sane s ∧ Exact s := by
  have hblank : Sane blank ∧ ∀ k : CodeKey, k.1 ≠ 0 → excess blank k = 0 :=
    ⟨⟨fun o ho => (not_mem_nil ho).elim, fun o ho => (not_mem_nil ho).elim⟩,
      fun _ _ => rfl⟩
  have hnone : BareBut [] blank := fun a ha => (not_mem_nil ha).elim
  obtain ⟨_, s1, hreserve, h⟩ := bind_ok_inv h
  have hkept : Keeps SameCode reservePermission := keeps_modify fun _ => ⟨rfl, rfl⟩
  have e1 := (hkept _ _ _ hreserve).sameExcess
  have b1 := bareBut_of_sameCode hkept _ _ _ hreserve hnone
  obtain ⟨_, s2, hsystem, h⟩ := bind_ok_inv h
  have e2 := e1.trans (sameExcess_createNativeAccount _ _ _ hsystem)
  have b2 := bareBut_createNativeAccount _ _ _ hsystem b1
  obtain ⟨_, s3, htoken, h⟩ := bind_ok_inv h
  have e3 := e2.trans (sameExcess_createNativeAccount _ _ _ htoken)
  have b3 := bareBut_createNativeAccount _ _ _ htoken b2
  obtain ⟨_, s4, hlock, h⟩ := bind_ok_inv h
  have e4 := e3.trans (sameExcess_createNativeAccount _ _ _ hlock)
  have b4 := bareBut_createNativeAccount _ _ _ hlock b3
  -- the three contracts, each on an account without code
  obtain ⟨_, s5, hcode, h⟩ := bind_ok_inv h
  obtain ⟨hstep, b5⟩ := initializeContract_first not_mem_nil hcode b4
  have e5 := e4.trans hstep
  obtain ⟨_, s6, hcode, h⟩ := bind_ok_inv h
  obtain ⟨hstep, b6⟩ := initializeContract_first (by decide) hcode b5
  have e6 := e5.trans hstep
  obtain ⟨_, s7, hinsert, h⟩ := bind_ok_inv h
  have hsame := code_walk.sameNative sameNative_memoryInsert _ _ _ hinsert
  have e7 := e6.trans hsame.sameExcess
  have b7 := bareBut_of_sameCode (code_walk.sameNative sameNative_memoryInsert) _ _ _ hinsert b6
  obtain ⟨_, s8, hcode, h⟩ := bind_ok_inv h
  obtain ⟨hstep, -⟩ := initializeContract_first (by decide) hcode b7
  have e8 := e7.trans hstep
  have hrest : Keeps SameExcess
    (((genesisSteps conf).drop 8).forM fun step => step.perform vm conf) :=
    keeps_forM SameExcess.refl SameExcess.trans (genesisSteps_late
      (fun _ _ _ _ _ _ => excess_walk.sameNative sameNative_memoryInsert)
      (fun _ _ _ _ => sameExcess_createNativeAccount) (fun _ _ => excess_walk.setNumConfig)
      (sameExcess_of_sameCode sameCode_createProducerPermissions))
  obtain ⟨hsane, hexcess⟩ := e8.trans (hrest _ _ _ h) hblank.1
  refine ⟨hsane, (exact_iff hsane).mpr fun k hk => ?_⟩
  rw [hexcess k hk, hblank.2 k hk]

/-! ## Whole runs -/

/-- A run of the chain, with the state before each step.  A step that throws
    is undone and is no part of it. -/
inductive Runs (vm : Vm) (conf : Conf) : State → List (State × Step) → State → Prop where
  | nil (s : State) : Runs vm conf s [] s
  | cons {s s₁ s' : State} {step : Step} {rest : List (State × Step)} : step.Live →
      step.perform vm conf s = .ok () s₁ → Runs vm conf s₁ rest s' →
      Runs vm conf s ((s, step) :: rest) s'

/-- The first state is the first in the list, or the last state. -/
theorem Runs.first {trace : List (State × Step)} (h : Runs vm conf s trace s')
    (hall : ∀ x ∈ trace, Exact x.1) (hend : Exact s') : Exact s := by
  cases h with
  | nil => exact hend
  | cons _ _ _ => exact hall _ mem_cons_self

theorem Runs.exact_iff {trace : List (State × Step)} (h : Runs vm conf s trace s') (hs : Sane s)
    (hexact : Exact s) :
    ((∀ x ∈ trace, Exact x.1) ∧ Exact s') ↔ ∀ x ∈ trace, UpgradesBare x.1 x.2 := by
  induction h with
  | nil s => simpa using hexact
  | @cons s s1 s' step rest hlive hstep hruns ih =>
    obtain ⟨hsane, hiff⟩ := exact_perform_iff hlive hstep hs hexact
    rw [forall_mem_cons, forall_mem_cons, ← hiff]
    constructor
    · rintro ⟨⟨-, hrest⟩, hend⟩
      have hfirst := hruns.first hrest hend
      exact ⟨hfirst, (ih hsane hfirst).mp ⟨hrest, hend⟩⟩
    · rintro ⟨hfirst, hrest⟩
      obtain ⟨hall, hend⟩ := (ih hsane hfirst).mpr hrest
      exact ⟨⟨hexact, hall⟩, hend⟩

/-- **THE COUNTS**: on a run from genesis the counts are exact in every state
    if and only if no step upgrades a contract that has code. -/
theorem code_counts_exact_iff {trace : List (State × Step)}
    (hgenesis : initializeDatabase vm conf blank = .ok () s) (h : Runs vm conf s trace s') :
    ((∀ x ∈ trace, Exact x.1) ∧ Exact s') ↔ ∀ x ∈ trace, UpgradesBare x.1 x.2 :=
  h.exact_iff (genesis_exact hgenesis).1 (genesis_exact hgenesis).2

/-- An action of the system contract that one account signed for. -/
def signedBy (a : Name) : ActionContext where
  receiver := systemAccountName
  account := systemAccountName
  authorization := [⟨a, activeName⟩]

/-- The token account creates `eosio.msig`. -/
def createMsig : Step :=
  .newaccount (signedBy tokenAccountName)
    ⟨tokenAccountName, msigAccountName, keyAuthority [0, 1], keyAuthority [0, 1]⟩

/-- `eosio.msig` takes the code of the system contract. -/
def setMsig : Step := .setcode (signedBy msigAccountName) ⟨msigAccountName, 0, 0, [1]⟩

def msigCreated : State := commit (createMsig.perform smallVm smallConf) smallGenesis

def msigLoaded : State := commit (checkFuncOpen smallVm smallConf 4356456) msigCreated

def msigSet : State := commit (setMsig.perform smallVm smallConf) msigLoaded

theorem msig_bare : Bare msigCreated msigAccountName := by
  intro a ha
  have hcode : ∀ a ∈ msigCreated.accounts.rows, a.name = msigAccountName → a.codeHash = 0 := by
    decide +kernel
  exact hcode a (find_some ha).1 (find_some ha).2

/-- Only `eosio.msig` is loaded, and it has no code. -/
theorem upgradesBare_msig {headNum : Nat}
    (hclosed : ¬ isFuncOpenInCurrBlock s headNum FuncTyp.useSystem01 3385100)
    (hbare : Bare s msigAccountName) : UpgradesBare s (.checkFuncOpen headNum) :=
  ⟨fun hopen => absurd hopen hclosed, fun _ => hbare⟩

/-- The contract of a new account is loaded, and another one is set. -/
theorem msig_counts_exact : msigSet.codes.rows.map (fun o => (o.code, o.codeRefCount)) =
    [([1], 2), ([2], 1), ([3], 1)] ∧ Exact msigSet := by
  have hcreate : createMsig.perform smallVm smallConf smallGenesis = .ok () msigCreated :=
    completes_iff.mp (by decide +kernel)
  have hload : Step.perform smallVm smallConf (.checkFuncOpen 4356456) msigCreated =
      .ok () msigLoaded := completes_iff.mp (by decide +kernel)
  have hset : setMsig.perform smallVm smallConf msigLoaded = .ok () msigSet :=
    completes_iff.mp (by decide +kernel)
  have hclosed : ¬ isFuncOpenInCurrBlock msigCreated 4356456 FuncTyp.useSystem01 3385100 := by
    decide +kernel
  have hbare := upgradesBare_msig hclosed msig_bare
  generalize msigCreated = created at hcreate hload hbare
  have hruns : Runs smallVm smallConf smallGenesis
      [(smallGenesis, createMsig), (created, .checkFuncOpen 4356456), (msigLoaded, setMsig)]
      msigSet :=
    .cons trivial hcreate (.cons trivial hload (.cons trivial hset (.nil _)))
  have hupgrades : ∀ x ∈ [(smallGenesis, createMsig), (created, Step.checkFuncOpen 4356456),
      (msigLoaded, setMsig)], UpgradesBare x.1 x.2 := by
    rw [forall_mem_cons, forall_mem_cons, forall_mem_singleton]
    exact ⟨trivial, hbare, trivial⟩
  exact ⟨by decide +kernel, ((code_counts_exact_iff smallGenesis_ok hruns).mpr hupgrades).2⟩

/-- The state after the system contract is upgraded. -/
def upgraded : State := commit (checkFuncOpen smallVm smallConf 3385100) smallGenesis

/-- The upgrade of the system contract leaves its first code behind, counted
    once and run by nobody. -/
theorem upgrade_keeps_old_code :
    initializeDatabase smallVm smallConf blank = .ok () smallGenesis ∧
      Runs smallVm smallConf smallGenesis [(smallGenesis, .checkFuncOpen 3385100)] upgraded ∧
      (∃ o ∈ upgraded.codes.rows,
        o.code = [1] ∧ o.codeRefCount = 1 ∧ referrers upgraded o.key = 0) ∧
      ¬ Exact upgraded := by
  have hold : ∃ o ∈ upgraded.codes.rows,
      o.code = [1] ∧ o.codeRefCount = 1 ∧ referrers upgraded o.key = 0 := by decide +kernel
  refine ⟨smallGenesis_ok, .cons trivial (completes_iff.mp (by decide +kernel)) (.nil _), hold, ?_⟩
  intro hexact
  obtain ⟨o, ho, -, -, hzero⟩ := hold
  exact Nat.ne_of_gt (hexact.used o ho) hzero

end CodeCount
