import EosForce.ApplyContextProofs
import EosForce.StepRuleProofs

/-! # What code does without scheduling or executing anything

    Most of what a transaction does while it executes is quiet: it reads the
    clock, counts net usage, bills RAM, moves deferred transactions and
    sequence numbers about.  `Quiet` lists these steps; every function that
    neither schedules nor executes an action goes by them alone. -/

namespace QuietStep

open ChainTypes TrxTypes Effect Resource Database FeeRule TrxContext ApplyContext StepRule
open Relation

variable {σ : Type}

/-! ## The steps -/

/-- A context, less what the clock, net usage and RAM checks change. -/
def still (c : Context) : Context := { c with ticks := 0, validateRamUsage := [], netUsage := 0 }

/-- Time passes, net usage is counted, accounts are noted for a RAM check. -/
structure Ticked (c c' : Context) : Prop where
  still : still c' = still c
  noted : c.validateRamUsage ⊆ c'.validateRamUsage

/-- The part of the resource tables that belongs to the block. -/
def blockResources (r : Resources) : Resources :=
  { r with usage := fun _ => none, weights := fun _ => none, pendingWeights := fun _ => none }

/-- What only reads that part of the tables. -/
theorem block_congr {P : Resources → Prop} (hP : ∀ r, P (blockResources r) ↔ P r)
    {r r' : Resources} (hb : blockResources r' = blockResources r) : P r' ↔ P r := by
  rw [← hP r', hb, hP r]

/-- Usage rows stay, and new ones start empty. -/
structure RowsKept (r r' : Resources) : Prop where
  block : blockResources r' = blockResources r
  rows : ∀ a, r'.usage a = r.usage a ∨ r.usage a = none ∧ r'.usage a = some {}

/-- The tables that only contract code writes. -/
structure TablesKept (t t' : Tables σ) : Prop where
  actionFees : t'.actionFees = t.actionFees
  configNums : t'.configNums = t.configNums
  chainStatus : t'.chainStatus = t.chainStatus
  vote4ram : t'.vote4ram = t.vote4ram
  configuration : t'.configuration = t.configuration

/-- The RAM that a generated transaction is billed. -/
def billableSize (env : Env σ) (g : GeneratedTransaction) : Nat :=
  billableSizeOfGenerated + env.packedSize g.trx

/-- The RAM that an account uses. -/
def ramOf (r : Resources) (a : Name) : Nat := ((r.usage a).map (·.ramUsage)).getD 0

/-- Why the RAM of an account changes by `d`: code asked for it, or it is the
    bill or the refund of a deferred transaction.  Only one that is there is
    refunded. -/
inductive RamWhy (env : Env σ) (asked : Name → Int → Prop) (db : Db σ) (account : Name) (d : Int) :
    Prop where
  | asked (h : asked account d)
  | billed (x : GeneratedTransaction) (hpayer : x.payer = account)
      (hd : d = (billableSize env x : Nat))
  | refunded (x : GeneratedTransaction) (hx : x ∈ db.generated) (hpayer : x.payer = account)
      (hd : d = -((billableSize env x : Nat) : Int))

/-- A step that schedules and executes nothing; RAM is changed by `asked`. -/
inductive Quiet (env : Env σ) (asked : Name → Int → Prop) : ExecState σ → ExecState σ → Prop where
  | tick (s : ExecState σ) (c : Context) (h : Ticked s.ctx c) :
      Quiet env asked s { s with ctx := c }
  | ram (s : ExecState σ) (account : Name) (u : ResourceUsage) (n : Nat) (c : Context)
      (hu : s.db.resources.usage account = some u) (hc : Ticked s.ctx c)
      (hwhy : RamWhy env asked s.db account (n - u.ramUsage)) :
      Quiet env asked s ⟨{ s.db with
        resources := setUsage s.db.resources account { u with ramUsage := n } }, c⟩
  | limits (s : ExecState σ) (r : Resources) (h : RowsKept s.db.resources r) :
      Quiet env asked s { s with db := { s.db with resources := r } }
  | keep (s : ExecState σ) (db : Db σ) (h : TablesKept s.db.tables db.tables)
      (hr : db.resources = s.db.resources) (hg : db.generated = s.db.generated) :
      Quiet env asked s { s with db := db }
  | enter (s : ExecState σ) (x : GeneratedTransaction) :
      Quiet env asked s { s with db := { s.db with generated := s.db.generated ++ [x] } }
  | drop (s : ExecState σ) (sender : Name) (senderId : Nat) :
      Quiet env asked s { s with db := removeGenerated s.db sender senderId }

/-- The computation goes by quiet steps. -/
abbrev Quietly (env : Env σ) (asked : Name → Int → Prop) {α : Type} (x : ExecM σ α) : Prop :=
  Moves (Quiet env asked) (fun _ => True) x

variable {env : Env σ} {asked : Name → Int → Prop}

theorem Ticked.refl (c : Context) : Ticked c c := ⟨rfl, fun _ h => h⟩

theorem Ticked.trans {a b c : Context} (h : Ticked a b) (h' : Ticked b c) : Ticked a c :=
  ⟨h'.still.trans h.still, fun _ hx => h'.noted (h.noted hx)⟩

theorem RowsKept.refl (r : Resources) : RowsKept r r := ⟨rfl, fun _ => .inl rfl⟩

theorem TablesKept.refl (t : Tables σ) : TablesKept t t := ⟨rfl, rfl, rfl, rfl, rfl⟩

theorem Quiet.ticked {s s' : ExecState σ} (h : Quiet env asked s s') : Ticked s.ctx s'.ctx := by
  cases h with
  | tick c h => exact h
  | ram account u n c hu hc hwhy => exact hc
  | limits | keep | enter | drop => exact .refl _

/-- What the clock and the counters do not touch after any number of quiet
    steps. -/
theorem ticked_of_quiet {s s' : ExecState σ} (h : ReflTransGen (Quiet env asked) s s') :
    Ticked s.ctx s'.ctx :=
  run_rel (R := fun s s' => Ticked s.ctx s'.ctx) (fun s => .refl s.ctx)
    (fun a b c (hab : Ticked a.ctx b.ctx) (hbc : Quiet env asked b c) => hab.trans hbc.ticked) h

theorem Quietly.ticked_ok {α : Type} {x : ExecM σ α} (h : Quietly env asked x)
    {s s' : ExecState σ} {a : α}
    (hr : x s = .ok a s') : Ticked s.ctx s'.ctx := by
  have hsteps := h s trivial
  rw [hr] at hsteps
  exact ticked_of_quiet hsteps

/-! ## Building blocks -/

theorem final_require {τ : Type} {c : Prop} [Decidable c] {t : ExceptionType} {w : String} (s : τ) :
    final (require c t w s) = s := by
  by_cases hc : c
  · rw [require_pos hc]
    rfl
  · rw [require_neg hc]
    rfl

theorem final_raise {τ α : Type} {x : Except FcException α} (s : τ) : final (raise x s) = s := by
  cases x with
  | ok a => rfl
  | error e => rfl

theorem quietly_require {c : Prop} [Decidable c] {t : ExceptionType} {w : String} :
    Quietly env asked (require c t w : ExecM σ Unit) := .still final_require

theorem quietly_raise {α : Type} {x : Except FcException α} :
    Quietly env asked (raise x : ExecM σ α) := .still final_raise

theorem quietly_tick {f : Context → Context} (h : ∀ c, Ticked c (f c)) :
    Quietly env asked (modifyCtx f : ExecM σ Unit) :=
  .modify fun s _ => .tick s _ (h s.ctx)

theorem quietly_keep {f : Db σ → Db σ} (h : ∀ db, TablesKept db.tables (f db).tables)
    (hr : ∀ db, (f db).resources = db.resources ∧ (f db).generated = db.generated) :
    Quietly env asked (modifyDb f : ExecM σ Unit) :=
  .modify fun s _ => .keep s _ (h s.db) (hr s.db).1 (hr s.db).2

theorem quietly_limits {α : Type} {x : ResourceM α} (h : ∀ r, RowsKept r (final (x r))) :
    Quietly env asked (onResources x : ExecM σ α) :=
  .zoom fun s _ => .limits s _ (h s.db.resources)

theorem getUsage_ok {r : Resources} {a : Name} {u : ResourceUsage}
    (h : getUsage r a = .ok u) : r.usage a = some u := by
  rw [getUsage] at h
  cases hr : r.usage a with
  | none =>
    rw [hr] at h
    cases h
  | some v =>
    rw [hr] at h
    rw [Except.ok.inj h]

theorem rowsKept_initializeAccount (a : Name) (r : Resources) :
    RowsKept r (final (initializeAccount a r)) := by
  rw [initializeAccount, get_bind]
  refine still_bind (final_require r) (.refl r) fun _ hok => ?_
  obtain ⟨⟨_, hnone⟩, _⟩ := require_ok hok
  refine ⟨rfl, ?_⟩
  intro b
  by_cases hb : b = a
  · subst hb
    exact .inr ⟨hnone, if_pos rfl⟩
  · exact .inl (if_neg hb)

theorem rowsKept_setAccountLimits (a : Name) (w : ResourceWeights) (r : Resources) :
    RowsKept r (final (setAccountLimits a w r)) := by
  rw [setAccountLimits, get_bind]
  refine still_bind (final_raise r) (.refl r) fun _ _ => ?_
  exact ⟨rfl, fun _ => .inl rfl⟩

/-- Billing RAM changes one row, and nothing where it throws. -/
theorem addPendingRamUsage_cases (a : Name) (d : Int) (r : Resources) :
    (∃ e, addPendingRamUsage a d r = .error e r) ∨
      d = 0 ∧ addPendingRamUsage a d r = .ok () r ∨
      ∃ u, r.usage a = some u ∧ 0 ≤ u.ramUsage + d ∧ addPendingRamUsage a d r =
        .ok () (setUsage r a { u with ramUsage := (u.ramUsage + d).toNat }) := by
  rw [addPendingRamUsage]
  by_cases hd : d = 0
  · rw [if_pos hd]
    exact .inr (.inl ⟨hd, rfl⟩)
  · rw [if_neg hd, get_bind]
    cases hu : getUsage r a with
    | error e => exact .inl ⟨e, rfl⟩
    | ok u =>
      rw [raise_bind_ok rfl]
      by_cases hover : d ≤ 0 ∨ d.toNat ≤ uint64Max - u.ramUsage
      · rw [bind_ok (require_pos hover r)]
        by_cases hunder : 0 ≤ d ∨ (-d).toNat ≤ u.ramUsage
        · rw [bind_ok (require_pos hunder r)]
          exact .inr (.inr ⟨u, getUsage_ok hu, by omega, rfl⟩)
        · rw [bind_error (require_neg hunder r)]
          exact .inl ⟨_, rfl⟩
      · rw [bind_error (require_neg hover r)]
        exact .inl ⟨_, rfl⟩

/-! ## The parts of the transaction context -/

theorem quietly_checktime : Quietly env asked (checktime : ExecM σ Unit) := by
  refine .get_bind fun s _ => ?_
  refine .chain (quietly_tick fun _ => ⟨rfl, fun _ h => h⟩) fun _ => ?_
  cases s.ctx.transactionTimer with
  | none => exact .pure _
  | some tp =>
    dsimp only
    split
    · exact .throw _
    · exact .pure _

theorem final_checkNetUsage (node : Node) (s : ExecState σ) : final (checkNetUsage node s) = s := by
  rw [checkNetUsage, get_bind]
  split_ifs
  · rfl
  · rfl
  · rfl
  · rfl

theorem quietly_checkNetUsage (node : Node) :
    Quietly env asked (checkNetUsage node : ExecM σ Unit) :=
  .still (final_checkNetUsage node)

theorem quietly_addNetUsage (node : Node) (u : Nat) :
    Quietly env asked (addNetUsage node u : ExecM σ Unit) :=
  .chain (quietly_tick fun _ => ⟨rfl, fun _ h => h⟩) fun _ => quietly_checkNetUsage node

theorem quietly_trxAddRamUsage (a : Name) (d : Int) :
    Moves (Quiet env asked) (fun s => RamWhy env asked s.db a d)
      (TrxContext.addRamUsage a d : ExecM σ Unit) := by
  intro s hwhy
  rw [TrxContext.addRamUsage]
  have hnote : Ticked s.ctx { s.ctx with validateRamUsage := a :: s.ctx.validateRamUsage } :=
    ⟨rfl, fun _ h => List.mem_cons_of_mem _ h⟩
  obtain ⟨e, hr⟩ | ⟨rfl, hr⟩ | ⟨u, hu, hnonneg, hr⟩ := addPendingRamUsage_cases a d s.db.resources
  · have hrun : onResources (addPendingRamUsage a d) s = .error e s := by
      rw [onResources, zoom, hr]
    rw [bind_error hrun]
    exact .refl
  · have hrun : onResources (addPendingRamUsage a 0) s = .ok () s := by
      rw [onResources, zoom, hr]
    rw [bind_ok hrun]
    exact .refl
  · have hrun : onResources (addPendingRamUsage a d) s = .ok () { s with db := { s.db with
        resources := setUsage s.db.resources a
          { u with ramUsage := (u.ramUsage + d).toNat } } } := by
      rw [onResources, zoom, hr]
    have hdelta : (((u.ramUsage + d).toNat : Nat) : Int) - u.ramUsage = d := by omega
    rw [bind_ok hrun]
    by_cases hd : 0 < d
    · rw [whenever, if_pos hd]
      exact .single (.ram s a u _ _ hu hnote (by rwa [hdelta]))
    · rw [whenever, if_neg hd]
      exact .single (.ram s a u _ _ hu (.refl _) (by rwa [hdelta]))

theorem quietly_createGenerated (g : GeneratedTransaction) :
    Quietly env asked (createGenerated g : ExecM σ Unit) :=
  .get_bind fun _ _ => .chain quietly_require fun _ => .modify fun s _ => .enter s g

/-- A transaction that is entered, and billed by what follows. -/
theorem quietly_enterGenerated {α : Type} {g : GeneratedTransaction} {bill : ExecM σ α}
    (hbill : Moves (Quiet env asked)
      (fun s => RamWhy env asked s.db g.payer (billableSize env g : Nat)) bill) :
    Quietly env asked (createGenerated g >>= fun _ => bill) :=
  .chain (quietly_createGenerated g) fun _ s _ => hbill s (.billed g rfl rfl)

theorem quietly_scheduleTransaction (node : Node) :
    Quietly env asked (scheduleTransaction env node) := by
  refine .get_bind fun s _ => ?_
  refine .chain (.whenever fun _ => quietly_addNetUsage node _) fun _ => ?_
  exact quietly_enterGenerated (quietly_trxAddRamUsage _ _)

/-! ## The parts of the apply context -/

section Apply

variable {node : Node} {a : Apply}

variable (account : Name)

theorem quietly_addRamUsage (d : Int) :
    Moves (Quiet env asked) (fun s => RamWhy env asked s.db account d)
      (addRamUsage a account d : ExecM σ Apply) :=
  .chain (quietly_trxAddRamUsage account d) fun _ => .pure _

theorem quietly_updateDbUsage (payer : Name) (d : Int) (h : asked payer d) :
    Quietly env asked (updateDbUsage env node a payer d) := by
  refine .chain (.whenever fun _ => ?_) fun _ s _ => quietly_addRamUsage payer d s (.asked h)
  exact .chain quietly_require fun _ => quietly_require

theorem quietly_checkAuthorization (actions : List Action) (keys : List PublicKey)
    (provided : List PermissionLevel) (delay : Int) (satisfied : List PermissionLevel) :
    Quietly env asked (checkAuthorization env actions keys provided delay satisfied) :=
  .get_bind fun _ _ => .chain (.forM stable_true fun _ _ => quietly_checktime)
    fun _ => quietly_raise

theorem quietly_authorizeSent {selfExempt : Bool} {refusal : FcException} {check : ExecM σ Unit}
    (hcheck : Quietly env asked check) :
    Quietly env asked (authorizeSent node selfExempt refusal check) := by
  refine .chain hcheck.attempt fun r => ?_
  cases r with
  | ok _ => exact .pure _
  | error e =>
    dsimp only
    split
    · exact .throw _
    · split
      · exact .throw _
      · exact .pure _

theorem quietly_authorizeDeferred (payer : Name) (trx : Transaction) :
    Quietly env asked (authorizeDeferred env node a payer trx) := by
  refine .chain (.whenever fun _ => ?_) fun _ =>
    quietly_authorizeSent (quietly_checkAuthorization _ _ _ _ _)
  split
  · exact .chain quietly_require fun _ => quietly_require
  · exact quietly_require

theorem quietly_removeGenerated (sender : Name) (senderId : Nat) :
    Quietly env asked (modifyDb fun db => removeGenerated db sender senderId : ExecM σ Unit) :=
  .modify fun s _ => .drop s sender senderId

variable (senderId : Nat)

/-- A transaction that is replaced is still there when it is refunded. -/
theorem quietly_replaceGenerated (old : GeneratedTransaction) (trx : Transaction)
    (replaceExisting : Bool) :
    Moves (Quiet env asked) (fun s => old ∈ s.db.generated)
      (replaceGenerated env node a old trx replaceExisting) := by
  refine .behind final_require fun _ => .behind final_require fun _ => ?_
  refine .chain ?_ fun _ => .chain (quietly_removeGenerated _ _) fun _ => .pure _
  rw [refundReplaced]
  split
  · exact fun s hs => quietly_addRamUsage _ _ s (.refunded old hs rfl rfl)
  · exact .chain (.modify fun s _ => .keep s _ ⟨rfl, rfl, rfl, rfl, rfl⟩ rfl rfl) fun _ => .pure a

theorem quietly_claimSenderId (trx : Transaction) (replaceExisting : Bool) :
    Quietly env asked (claimSenderId env node a senderId trx replaceExisting) := by
  intro s _
  rw [claimSenderId, get_bind]
  cases hfind : findGenerated s.db a.receiver senderId with
  | none => exact .refl
  | some old =>
    exact quietly_replaceGenerated old trx replaceExisting s (List.mem_of_find?_eq_some hfind)

theorem quietly_scheduleDeferred (payer : Name) (trx : Transaction) (replaceExisting : Bool) :
    Quietly env asked (scheduleDeferredTransaction env node a senderId payer trx
      replaceExisting) := by
  refine .get_bind fun s _ => ?_
  refine .chain quietly_require fun _ => ?_
  refine .chain quietly_raise fun _ => ?_
  refine .chain quietly_raise fun trx => ?_
  refine .chain (quietly_addNetUsage node _) fun _ => ?_
  refine .chain (.whenever fun _ => quietly_authorizeDeferred payer trx) fun _ => ?_
  refine .chain (quietly_claimSenderId senderId trx replaceExisting) fun r => ?_
  exact quietly_enterGenerated (.behind final_require fun _ => quietly_addRamUsage _ _)

theorem quietly_cancelDeferred (sender : Name) :
    Quietly env asked (cancelDeferredTransaction env a senderId sender) := by
  intro s _
  rw [cancelDeferredTransaction, get_bind]
  cases hfind : findGenerated s.db sender senderId with
  | none => exact .refl
  | some g =>
    have hrefund : RamWhy env asked s.db g.payer (-((billableSize env g : Nat) : Int)) :=
      .refunded g (List.mem_of_find?_eq_some hfind) rfl rfl
    exact Moves.chain (quietly_addRamUsage _ _)
      (fun _ => .chain (quietly_removeGenerated _ _) fun _ => .pure _) s hrefund

theorem quietly_checkLists : Quietly env asked (checkLists node a : ExecM σ Unit) :=
  .get_bind fun _ _ => .whenever fun _ => .chain quietly_raise fun _ => quietly_raise

theorem quietly_checkRamDeltas (deltas : List (Name × Int)) :
    ∀ counter, Quietly env asked (checkRamDeltas a counter deltas : ExecM σ Unit) := by
  induction deltas with
  | nil => exact fun _ => .pure ()
  | cons d rest ih =>
    intro counter
    refine .chain (.whenever fun _ => quietly_checktime) fun _ => ?_
    refine .chain (.whenever fun _ => ?_) fun _ => ih _
    exact .chain quietly_require fun _ => quietly_require

/-! ## Fee handlers -/

theorem final_getRow {τ α : Type} (row : Option α) (msg : String) (s : τ) :
    final (getRow row msg s) = s := by
  cases row with
  | none => rfl
  | some a => rfl

theorem tablesKept_onfee (data : FeeParameter) (t : Tables σ) :
    TablesKept t (final (applyEosioOnfee data t)) := by
  rw [applyEosioOnfee, get_bind]
  refine still_bind (final_getRow _ _ t) (.refl t) fun available _ => ?_
  refine still_bind (final_raise t) (.refl t) fun enough _ => ?_
  refine still_bind (final_require t) (.refl t) fun _ _ => ?_
  refine still_bind (final_raise t) (.refl t) fun left _ => ?_
  have hleft : TablesKept t (t.setBalance data.name left) := ⟨rfl, rfl, rfl, rfl, rfl⟩
  rw [set_bind]
  split
  · exact hleft
  · rw [get_bind]
    refine still_bind (final_getRow _ _ _) hleft fun bp _ => ?_
    refine still_bind (final_raise _) hleft fun pool _ => ?_
    exact ⟨rfl, rfl, rfl, rfl, rfl⟩

theorem tablesKept_voteagefee (headBlockNum : Nat) (data : FeeParameter) (t : Tables σ) :
    TablesKept t (final (applyEosioVoteagefee headBlockNum data t)) := by
  rw [applyEosioVoteagefee, get_bind]
  refine still_bind (final_getRow _ _ t) (.refl t) fun available _ => ?_
  refine still_bind (final_getRow _ _ t) (.refl t) fun bp _ => ?_
  refine still_bind (final_getRow _ _ t) (.refl t) fun vote _ => ?_
  refine still_bind (final_require t) (.refl t) fun _ _ => ?_
  exact ⟨rfl, rfl, rfl, rfl, rfl⟩

/-- What `find_apply_handler` finds: a program of the environment, or a fee
    handler, which is for the two fee actions only. -/
theorem findApplyHandler_cases {receiver scope act : Name} {handler : Handler σ}
    (h : findApplyHandler env receiver scope act = some handler) :
    (∃ p, handler = .program p ∧ env.native receiver scope act = some p) ∨
      ∃ apply, handler = .fee apply ∧ ∀ data t, TablesKept t (final (apply data t)) := by
  rw [findApplyHandler] at h
  split at h
  · exact .inr ⟨_, (Option.some.inj h).symm, tablesKept_onfee⟩
  · split at h
    · exact .inr ⟨_, (Option.some.inj h).symm, tablesKept_voteagefee _⟩
    · obtain ⟨p, hp, rfl⟩ := Option.map_eq_some_iff.mp h
      exact .inl ⟨p, rfl, hp⟩

/-- A fee handler goes by quiet steps. -/
theorem quietly_feeHandler {apply : FeeParameter → EStateM FcException (Tables σ) Unit}
    (h : ∀ data t, TablesKept t (final (apply data t))) :
    Quietly env asked (do
      let data ← raise (env.unpackFee a.act.data)
      onTables (apply data)
      pure a : ExecM σ Apply) :=
  .chain quietly_raise fun data => .seq stable_true
    (.zoom fun s _ => .keep s _ (h data s.db.tables) rfl rfl) fun _ => .pure a

/-! ## Sequence numbers -/

theorem final_getAccount (s : ExecState σ) : final (getAccount account s) = s := by
  rw [getAccount, get_bind]
  cases s.db.tables.accounts account with
  | none => rfl
  | some m => rfl

theorem getAccount_ok {account : Name} {m : AccountMetadata} {s s' : ExecState σ}
    (h : getAccount account s = .ok m s') : s' = s := by
  have hfinal := final_getAccount account s
  rw [h] at hfinal
  exact hfinal

theorem quietly_getAccount : Quietly env asked (getAccount account : ExecM σ _) :=
  .still (final_getAccount account)

theorem quietly_nextAuthSequence (seqs : List (Name × Nat)) (auth : PermissionLevel) :
    Quietly env asked (nextAuthSequence seqs auth : ExecM σ (List (Name × Nat))) :=
  .chain (quietly_getAccount _) fun _ => .seq stable_true
    (quietly_keep (fun _ => ⟨rfl, rfl, rfl, rfl, rfl⟩) fun _ => ⟨rfl, rfl⟩) fun _ => .pure _

theorem quietly_nextAuthSequences (auths : List PermissionLevel) :
    Quietly env asked (auths.foldlM nextAuthSequence [] : ExecM σ (List (Name × Nat))) :=
  .foldlM stable_true (J := fun _ => True) (fun seqs _ auth _ => quietly_nextAuthSequence seqs auth)
    (fun _ _ _ _ _ _ _ => trivial) trivial

/-! ## Calls of contract code -/

/-- The calls that neither write tables nor send anything. -/
def IsQuiet : HostCall σ → Prop
  | .write _ => False
  | .requireRecipient _ => False
  | .executeInline _ => False
  | .executeContextFreeInline _ => False
  | _ => True

/-- The change of RAM that a call asks for. -/
def Asks (call : HostCall σ) (account : Name) (d : Int) : Prop :=
  call = .addRamUsage account d ∨ call = .updateDbUsage account d

theorem quietly_hostCall {call : HostCall σ} (h : IsQuiet call)
    (hasked : ∀ account d, Asks call account d → asked account d) :
    Quietly env asked (hostCall env node a call) := by
  cases call with
  | write | requireRecipient | executeInline | executeContextFreeInline => exact h.elim
  | checktime => exact .chain quietly_checktime fun _ => .pure _
  | addRamUsage account d =>
    exact fun s _ => quietly_addRamUsage account d s (.asked (hasked _ _ (.inl rfl)))
  | updateDbUsage payer d => exact quietly_updateDbUsage payer d (hasked _ _ (.inr rfl))
  | validateRamUsage account =>
    exact .chain (quietly_tick fun _ => ⟨rfl, fun _ h => List.mem_cons_of_mem _ h⟩)
      fun _ => .pure _
  | initializeAccount account =>
    exact .chain (quietly_limits (rowsKept_initializeAccount account)) fun _ => .pure _
  | setAccountLimits account w =>
    exact .chain (quietly_limits (rowsKept_setAccountLimits account w)) fun _ => .pure _
  | checkSignatureSize | preactivateFeature => exact .chain quietly_require fun _ => .pure _
  | checkKeyList key =>
    exact .get_bind fun _ _ => .chain quietly_require fun _ => .pure _
  | scheduleDeferred senderId payer trx replace =>
    exact quietly_scheduleDeferred senderId payer trx replace
  | cancelDeferred senderId sender => exact quietly_cancelDeferred senderId sender
  | fail e => exact .throw e

/-- What quiet calls leave alone in the apply context. -/
structure Same (a a' : Apply) : Prop where
  receiver : a'.receiver = a.receiver
  actionOrdinal : a'.actionOrdinal = a.actionOrdinal
  act : a'.act = a.act
  notified : a'.notified = a.notified
  inlineActions : a'.inlineActions = a.inlineActions
  cfaInlineActions : a'.cfaInlineActions = a.cfaInlineActions

theorem Same.refl (a : Apply) : Same a a := ⟨rfl, rfl, rfl, rfl, rfl, rfl⟩

theorem Same.trans {a b c : Apply} (h : Same a b) (h' : Same b c) : Same a c :=
  ⟨h'.receiver.trans h.receiver, h'.actionOrdinal.trans h.actionOrdinal, h'.act.trans h.act,
    h'.notified.trans h.notified, h'.inlineActions.trans h.inlineActions,
    h'.cfaInlineActions.trans h.cfaInlineActions⟩

theorem same_addRamUsage (d : Int) : Returns (Same a) (addRamUsage a account d : ExecM σ Apply) :=
  .seq fun _ => .pure ⟨rfl, rfl, rfl, rfl, rfl, rfl⟩

theorem same_claimSenderId (trx : Transaction) (replaceExisting : Bool) :
    Returns (fun r => Same a r.1) (claimSenderId env node a senderId trx replaceExisting) := by
  refine .seq fun s => ?_
  cases findGenerated s.db a.receiver senderId with
  | none => exact .pure (.refl a)
  | some old =>
    refine .seq fun _ => .seq fun _ => ?_
    refine .bind (Q := Same a) ?_ fun a' h => .seq fun _ => .pure h
    rw [refundReplaced]
    split
    · exact same_addRamUsage _ _
    · exact .seq fun _ => .pure (.refl a)

theorem same_hostCall {call : HostCall σ} (h : IsQuiet call) :
    Returns (Same a) (hostCall env node a call) := by
  cases call with
  | write | requireRecipient | executeInline | executeContextFreeInline => exact h.elim
  | checktime | validateRamUsage | initializeAccount | setAccountLimits | checkSignatureSize
  | preactivateFeature => exact .seq fun _ => .pure (.refl a)
  | addRamUsage account d => exact same_addRamUsage account d
  | updateDbUsage payer d => exact .seq fun _ => same_addRamUsage payer d
  | checkKeyList key => exact .seq fun _ => .seq fun _ => .pure (.refl a)
  | scheduleDeferred senderId payer trx replace =>
    refine .seq fun _ => .seq fun _ => .seq fun _ => .seq fun trx => .seq fun _ =>
      .seq fun _ => ?_
    refine .bind (same_claimSenderId senderId trx replace) fun r hr => ?_
    refine .seq fun _ => .seq fun _ => ?_
    exact (same_addRamUsage _ _).weaken fun _ hb => hr.trans hb
  | cancelDeferred senderId sender =>
    refine .seq fun s => ?_
    cases findGenerated s.db sender senderId with
    | none => exact .pure (.refl a)
    | some g => exact .bind (same_addRamUsage _ _) fun a' h => .seq fun _ => .pure h
  | fail e => exact .throw e

end Apply

end QuietStep
