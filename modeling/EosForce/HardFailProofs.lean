import EosForce.ScheduledPushProofs
import EosForce.FinalBillProofs

/-! # The bill of a hard failure

    A scheduled transaction that fails, and whose sender does not handle it
    either, is billed for the CPU time that its accounts can still pay, and for
    no net usage.  The billing checks the accounts all the same, against what
    they used before.  An account that is over its share already stops it. -/

namespace HardFail

open ChainTypes TrxTypes Effect Resource Database TrxContext ApplyContext Push StepRule
open QuietStep TrxJob Allowance FinalBill ScheduledPush

variable {σ : Type} {env : Env σ} {node : Node} {r r₁ : Resources} {slot : Nat}

/-! ## Usage up to date -/

/-- The account is over one of its shares, with its usage moved on to the time
    slot and nothing added. -/
def Overdrawn (r : Resources) (slot : Nat) (a : Name) : Prop :=
  ∃ w u, Bill r 0 0 slot a w u ∧ ¬ Within r w u

/-- The usage of the accounts was moved on to the time slot. -/
structure Updated (r : Resources) (slot : Nat) (accounts : List Name) (r₁ : Resources) :
    Prop where
  block : blockResources r₁ = blockResources r
  weights : ∀ a, getAccountWeights r₁ a = getAccountWeights r a
  others : ∀ a ∉ accounts, r₁.usage a = r.usage a
  rows : ∀ a ∈ accounts, ∃ u u', getUsage r a = .ok u ∧ billed r u 0 0 slot = .ok u' ∧
    getUsage r₁ a = .ok u'

theorem updateUsage_ok {a : Name} {x : Unit} (h : updateUsage slot a r = .ok x r₁) :
    ∃ u u', getUsage r a = .ok u ∧ billed r u 0 0 slot = .ok u' ∧ r₁ = setUsage r a u' := by
  unfold updateUsage at h
  rw [get_bind] at h
  obtain ⟨u, hu, k1⟩ := raise_bind_inv h
  obtain ⟨u', hu', k2⟩ := raise_bind_inv k1
  cases k2
  exact ⟨u, u', hu, hu', rfl⟩

theorem getUsage_of_usage {a : Name} (h : r₁.usage a = r.usage a) :
    getUsage r₁ a = getUsage r a := by
  rw [getUsage, getUsage, h]

theorem updated_of_ok {accounts : List Name} : ∀ {r : Resources} {x : Unit}, accounts.Nodup →
    updateAccountUsage accounts slot r = .ok x r₁ → Updated r slot accounts r₁ := by
  induction accounts with
  | nil =>
    intro r x _ h
    cases h
    exact ⟨rfl, fun _ => rfl, fun _ _ => rfl, List.forall_mem_nil _⟩
  | cons a rest ih =>
    intro r x hnodup h
    obtain ⟨ha, hrest⟩ := List.nodup_cons.mp hnodup
    obtain ⟨_, r', hfirst, hmore⟩ := bind_ok_inv h
    obtain ⟨u, u', hu, hu', rfl⟩ := updateUsage_ok hfirst
    obtain ⟨hblock, hweights, hothers, hrows⟩ := ih hrest hmore
    have hkept : ∀ b, b ≠ a → (setUsage r a u').usage b = r.usage b := fun b hb => if_neg hb
    refine ⟨hblock, hweights, ?_, ?_⟩
    · intro b hb
      have hba : b ≠ a := fun heq => hb (heq ▸ List.mem_cons_self)
      exact (hothers b fun hmem => hb (List.mem_cons_of_mem _ hmem)).trans (hkept b hba)
    · intro b hb
      obtain rfl | hb := List.mem_cons.mp hb
      · refine ⟨u, u', hu, hu', ?_⟩
        rw [getUsage_of_usage (hothers b ha), getUsage, setUsage]
        dsimp only
        rw [if_pos rfl]
      · have hba : b ≠ a := fun heq => ha (heq ▸ hb)
        obtain ⟨v, v', hv, hv', hrow⟩ := hrows b hb
        exact ⟨v, v', getUsage_of_usage (hkept b hba) ▸ hv, hv', hrow⟩

/-! ## Accumulators with room -/

/-- The stored numbers leave room for any time that `uint32_t` can count. -/
structure Roomy (u : UsageAccumulator) : Prop where
  consumed : u.consumed + 2 ^ 32 ≤ 2 ^ 64
  valueEx : u.valueEx + 2 ^ 52 ≤ 2 ^ 64

theorem decayTo_roomy {u u' : UsageAccumulator} {window : Nat}
    (h : u.decayTo slot window = .ok u') (hroomy : Roomy u) : Roomy u' ∧ u'.lastOrdinal = slot := by
  have hle := decayTo_le h
  have hvalue : u'.valueEx + 2 ^ 52 ≤ 2 ^ 64 := by
    have hv := hroomy.valueEx
    omega
  rcases decayTo_cases h with ⟨hord, rfl⟩ | ⟨hord, -, -, hconsumed⟩
  · exact ⟨hroomy, hord⟩
  · refine ⟨⟨?_, hvalue⟩, hord⟩
    rw [hconsumed]
    unfold integerDivideCeil rateLimitingPrecision
    split
    · omega
    · omega

theorem add_zero_roomy {u u' : UsageAccumulator} {window : Nat}
    (h : u.add 0 slot window = .ok u') (hroomy : Roomy u) : Roomy u' ∧ u'.lastOrdinal = slot := by
  obtain ⟨v, hdecay, rfl⟩ := add_ok_inv h
  obtain ⟨hroomy1, hord⟩ := decayTo_roomy hdecay hroomy
  have hzero : contribution 0 window = 0 := by
    rw [contribution, Nat.zero_mul, integerDivideCeil_zero]
  refine ⟨⟨hroomy1.consumed, ?_⟩, hord⟩
  dsimp only
  rw [hzero]
  exact hroomy1.valueEx

/-- In the same slot an accumulator with room takes what is added. -/
theorem add_of_roomy {u : UsageAccumulator} {units window : Nat} (hord : u.lastOrdinal = slot)
    (hroomy : Roomy u) (hpos : 0 < window) (hunits : units < 2 ^ 32) :
    u.add units slot window = .ok { u with
      valueEx := u.valueEx + contribution units window
      consumed := u.consumed + units } := by
  have hcontrib : contribution units window ≤ _ := contribution_le hpos
  obtain ⟨hconsumed, hvalue⟩ := hroomy
  unfold rateLimitingPrecision at hcontrib
  have h1 : units ≤ uint64Max / rateLimitingPrecision := by
    unfold uint64Max rateLimitingPrecision
    omega
  have h2 : units ≤ uint64Max - u.consumed := by
    unfold uint64Max
    omega
  have h3 : contribution units window ≤ uint64Max := by
    unfold uint64Max
    omega
  have h4 : contribution units window ≤ uint64Max - u.valueEx := by
    unfold uint64Max
    omega
  unfold UsageAccumulator.add UsageAccumulator.decayTo
  rw [eosAssert, if_pos h1, eosAssert, if_pos h2, eosAssert, if_pos h3, eosAssert, if_pos h4,
    if_pos hord]
  rfl

/-! ## The bill -/

theorem within_block {w : ResourceWeights} {u : ResourceUsage}
    (hb : blockResources r₁ = blockResources r) : Within r₁ w u ↔ Within r w u :=
  block_congr (P := (Within · w u))
    (fun _ => ⟨fun h => ⟨h.cpu, h.net⟩, fun h => ⟨h.cpu, h.net⟩⟩) hb

/-- A smaller usage is within the shares, too. -/
theorem within_mono {w : ResourceWeights} {u u' : ResourceUsage} (h : Within r w u)
    (hcpu : u'.cpuUsage.valueEx ≤ u.cpuUsage.valueEx)
    (hnet : u'.netUsage.valueEx ≤ u.netUsage.valueEx) : Within r w u' :=
  ⟨withinShare_mono hcpu h.cpu, withinShare_mono hnet h.net⟩

/-- All usage rows have room. -/
def AllRoomy (r : Resources) : Prop :=
  ∀ a u, r.usage a = some u → Roomy u.cpuUsage ∧ Roomy u.netUsage

/-- The bill of an account that is up to date: what it used, and the CPU time
    on top. -/
theorem bill_updated {accounts : List Name} {a : Name} {w : ResourceWeights} {cpu : Nat}
    (hupd : Updated r slot accounts r₁) (ha : a ∈ accounts) (hroomy : AllRoomy r)
    (hwin : Windows r₁) (hcpu : cpu < 2 ^ 32) (hw : getAccountWeights r₁ a = .ok w) :
    ∃ u u', Bill r 0 0 slot a w u ∧ getUsage r₁ a = .ok u ∧ billed r₁ u cpu 0 slot = .ok u' ∧
      u.cpuUsage.valueEx ≤ u'.cpuUsage.valueEx ∧ u.netUsage.valueEx ≤ u'.netUsage.valueEx := by
  obtain ⟨u0, u, hu0, hu, hrow⟩ := hupd.rows a ha
  obtain ⟨hroomyCpu, hroomyNet⟩ := hroomy a u0 (getUsage_ok hu0)
  have hbill : Bill r 0 0 slot a w u := ⟨hupd.weights a ▸ hw, u0, hu0, hu⟩
  obtain ⟨un, uc, hun, huc, rfl⟩ := billed_ok_iff.mp hu
  obtain ⟨hroomyNet, hordNet⟩ := add_zero_roomy hun hroomyNet
  obtain ⟨hroomyCpu, hordCpu⟩ := add_zero_roomy huc hroomyCpu
  have hnet := add_of_roomy hordNet hroomyNet hwin.netPos (Nat.two_pow_pos 32)
  have hadd := add_of_roomy hordCpu hroomyCpu hwin.cpuPos hcpu
  exact ⟨_, _, hbill, hrow, billed_ok_iff.mpr ⟨_, _, hnet, hadd, rfl⟩, Nat.le_add_right _ _,
    Nat.le_add_right _ _⟩

/-- The virtual limits are at most `maximum_elastic_resource_multiplier` times
    the limits of the block, which `update_elastic_limit` sees to. -/
structure Elastic (r : Resources) : Prop where
  cpu : r.virtualCpuLimit ≤ r.maxCpu * maximumElasticResourceMultiplier
  cpuFits : r.maxCpu * maximumElasticResourceMultiplier < 2 ^ 64
  net : r.virtualNetLimit ≤ r.maxNet * maximumElasticResourceMultiplier
  netFits : r.maxNet * maximumElasticResourceMultiplier < 2 ^ 64

theorem Elastic.of_block (h : Elastic r) (hb : blockResources r₁ = blockResources r) :
    Elastic r₁ :=
  (block_congr (P := Elastic) (fun _ => ⟨fun h => ⟨h.cpu, h.cpuFits, h.net, h.netFits⟩,
    fun h => ⟨h.cpu, h.cpuFits, h.net, h.netFits⟩⟩) hb).mpr h

theorem effectiveLimit_eq {virtualLimit max greylistLimit : Nat}
    (hle : virtualLimit ≤ max * greylistLimit) (hfits : max * greylistLimit < 2 ^ 64) :
    effectiveLimit virtualLimit max greylistLimit = virtualLimit := by
  unfold effectiveLimit
  rw [Nat.mod_eq_of_lt hfits, if_neg (Nat.not_lt.mpr hle)]

/-- With the full elastic limits, bandwidth is counted as usage is checked. -/
theorem Elastic.shares (h : Elastic r) (w : ResourceWeights) :
    Shares r maximumElasticResourceMultiplier w := by
  constructor
  · rw [effectiveLimit_eq h.cpu h.cpuFits, Nat.mul_comm r.virtualCpuLimit]
  · rw [effectiveLimit_eq h.net h.netFits, Nat.mul_comm r.virtualNetLimit]

/-- What a hard failure bills is what the accounts, the transaction and the
    block allow. -/
theorem hardFailCpuTime_ok {c : Context} {b : Billing} {cpuTime cpu : Nat}
    (hexplicit : b.explicitBilledCpuTime = false) (hcapped : Capped r c)
    (h : hardFailCpuTime node c b slot cpuTime r = .ok cpu r₁) :
    Updated r slot c.billToAccounts r₁ ∧ ∃ w,
      maxBandwidthBilledAccountsCanPay node true r₁ c.billToAccounts = .ok w ∧
      (cpu : Int) ≤ w.accountCpuLimit ∧ (cpu : Int) ≤ c.initialObjectiveDurationLimit ∧
      cpu < 2 ^ 32 := by
  unfold hardFailCpuTime at h
  rw [hexplicit, if_neg Bool.false_ne_true] at h
  obtain ⟨_, r', hupd, k1⟩ := bind_ok_inv h
  rw [get_bind] at k1
  obtain ⟨w, hw, k2⟩ := raise_bind_inv k1
  cases k2
  obtain ⟨⟨-, hnonneg⟩, -⟩ := maxBandwidth_covers hw
  have hinitial := hcapped.initial.1
  refine ⟨updated_of_ok hcapped.accounts hupd, w, hw, ?_, ?_, ?_⟩
  · omega
  · omega
  · omega

/-- The context's limit leaves room in the block. -/
theorem room_hardFail {c : Context} {cpu : Nat} (hsound : SoundLimits r) (hcapped : Capped r c)
    (hcpu : (cpu : Int) ≤ c.initialObjectiveDurationLimit) : Room r cpu 0 := by
  have hle := hcpu.trans hcapped.initial.2
  rw [hsound.blockLimits.2] at hle
  have hp := hsound.cpu.rest.1
  have hq := hsound.net.rest.1
  exact ⟨by omega, hq⟩

theorem weights_of_covers {limitOf : Name → Nat} {w : Bandwidth} {a : Name}
    (h : Covers r limitOf w a) : ∃ weights, getAccountWeights r a = .ok weights := by
  obtain ⟨-, available, greylisted, hcpu, -⟩ := h
  unfold getAccountCpuLimit at hcpu
  obtain ⟨_, -, hcpu⟩ := except_bind_ok hcpu
  obtain ⟨weights, hweights, -⟩ := except_bind_ok hcpu
  exact ⟨weights, hweights⟩

/-- **WHEN A HARD FAILURE CAN BE BILLED**: exactly where no billed account is
    over a share before anything is added. -/
theorem addTransactionUsage_hardFail_iff {c : Context} {b : Billing} {cpuTime cpu : Nat}
    (hexplicit : b.explicitBilledCpuTime = false) (hsound : SoundLimits r) (helastic : Elastic r)
    (hroomy : AllRoomy r) (hcapped : Capped r c)
    (hcall : hardFailCpuTime node c b slot cpuTime r = .ok cpu r₁) :
    (∃ r', addTransactionUsage c.billToAccounts cpu 0 slot r₁ = .ok () r') ↔
      ∀ a ∈ c.billToAccounts, ¬ Overdrawn r slot a := by
  obtain ⟨hupd, w, hw, hcpuPaid, hinitial, hcpu⟩ := hardFailCpuTime_ok hexplicit hcapped hcall
  have hblock := hupd.block
  have hwin := (hsound.of_block hblock).windows
  obtain ⟨⟨hnetNonneg, -⟩, hcovers⟩ := maxBandwidth_covers hw
  rw [addTransactionUsage_iff hcapped.accounts
    ((room_hardFail hsound hcapped hinitial).of_block hblock)]
  constructor
  · rintro hall a ha ⟨w0, u0, hbill0, hout⟩
    obtain ⟨w1, u1, hbill1, hin⟩ := hall a ha
    obtain ⟨u, u', hbill, hrow, hbilled, hcpuLe, hnetLe⟩ :=
      bill_updated hupd ha hroomy hwin hcpu hbill1.weights
    obtain ⟨rfl, rfl⟩ := hbill.unique hbill0
    obtain ⟨-, rfl⟩ := hbill1.unique ⟨hbill1.weights, u, hrow, hbilled⟩
    exact hout ((within_block hblock).mp (within_mono hin hcpuLe hnetLe))
  · intro hnone a ha
    obtain ⟨weights, hweights⟩ := weights_of_covers (hcovers a ha)
    obtain ⟨u, u', hbill, hrow, hbilled, -, -⟩ :=
      bill_updated hupd ha hroomy hwin hcpu hweights
    have hin : Within r₁ weights u := by
      by_contra hout
      exact hnone a ha ⟨weights, u, hbill, fun h => hout ((within_block hblock).mpr h)⟩
    refine ⟨weights, u', ⟨hweights, u, hrow, hbilled⟩, ?_⟩
    exact (hcovers a ha).within hwin ((helastic.of_block hblock).shares weights) hweights hrow
      hbilled hcpuPaid hnetNonneg (.inr hin) (.inr hin)

/-! ## RAM does not matter -/

section Ram

variable {p : Name} {u : ResourceUsage} {n : Nat}

theorem getUsage_of_some (h : r.usage p = some u) : getUsage r p = .ok u := by
  rw [getUsage, h]

theorem usage_setUsage (r : Resources) (p : Name) (u : ResourceUsage) :
    (setUsage r p u).usage p = some u := if_pos rfl

/-- A bill with another number in the RAM column. -/
theorem billed_ram {v : ResourceUsage} {m : Nat}
    (h : billed r { u with ramUsage := n } 0 0 slot = .ok v) :
    billed r { u with ramUsage := m } 0 0 slot = .ok { v with ramUsage := m } := by
  obtain ⟨un, uc, hun, huc, rfl⟩ := billed_ok_iff.mp h
  exact billed_ok_iff.mpr ⟨un, uc, hun, huc, rfl⟩

theorem overdrawn_setRam (hu : r.usage p = some u) (n slot : Nat) (a : Name) :
    Overdrawn (setUsage r p { u with ramUsage := n }) slot a ↔ Overdrawn r slot a := by
  by_cases ha : a = p
  · subst ha
    constructor
    · rintro ⟨w, v, ⟨hw, u0, hu0, hb⟩, hout⟩
      rw [getUsage_of_some (usage_setUsage r a _)] at hu0
      cases hu0
      exact ⟨w, _, ⟨hw, u, getUsage_of_some hu, billed_ram (m := u.ramUsage) hb⟩,
        fun h => hout ⟨h.cpu, h.net⟩⟩
    · rintro ⟨w, v, ⟨hw, u0, hu0, hb⟩, hout⟩
      rw [getUsage_of_some hu] at hu0
      cases hu0
      exact ⟨w, _, ⟨hw, _, getUsage_of_some (usage_setUsage r a _),
        billed_ram (n := u.ramUsage) hb⟩, fun h => hout ⟨h.cpu, h.net⟩⟩
  · exact exists₂_congr fun w v => and_congr (bill_setUsage ha) (not_congr within_setUsage)

theorem allRoomy_setRam (hu : r.usage p = some u) (h : AllRoomy r) :
    AllRoomy (setUsage r p { u with ramUsage := n }) := by
  intro a v hv
  by_cases ha : a = p
  · subst ha
    rw [usage_setUsage] at hv
    cases hv
    exact h a u hu
  · have hrow : r.usage a = some v := by
      rw [← hv]
      exact (if_neg ha).symm
    exact h a v hrow

end Ram

/-! ## The push -/

/-- What the exception of a failure has to be for the push to go on with it. -/
def Objective (b : Billing) (err : FcException) : Prop :=
  ¬ (isBadBlock err = true ∨ err.isStd = true) ∧ subjective b err = false

instance (b : Billing) (err : FcException) : Decidable (Objective b err) := by
  unfold Objective
  infer_instance

/-- A scheduled transaction that is due fails for an objective reason, with
    `c` as its context, and so does the handling by its sender if it has one;
    `cpuTime` is what the last failure took. -/
structure FailsHard (env : Env σ) (node : Node) (g : GeneratedTransaction) (b : Billing)
    (errorClock : Clock) (db₁ : Db σ) (c : Context) (err : FcException) (cpuTime : Nat) : Prop where
  due : g.delayUntil ≤ env.pendingBlockTime
  unexpired : ¬ g.expiration < env.pendingBlockTime
  measured : b.explicitBilledCpuTime = false
  failed : ∃ err₀ e,
    runScheduled env (checking node) g ⟨db₁, scheduledContext (checking node) g b⟩ =
      .error err₀ e ∧ Objective b err₀ ∧ c = e.ctx ∧
    (g.sender = noName ∧ err = err₀ ∧ cpuTime = billedAtThrow e ∨
      g.sender ≠ noName ∧ Objective b err ∧ ∃ e', runOnerror env (checking node) g
        ⟨db₁, onerrorContext env g (onerrorBilling b errorClock)
          (scheduledContext (checking node) g b).enforceWhiteblacklist⟩ = .error err e' ∧
        cpuTime = billedAtThrow e')

variable {g : GeneratedTransaction} {b : Billing} {errorClock : Clock} {s : PipeState σ}
  {db₁ : Db σ} {c : Context} {err : FcException} {cpuTime : Nat}

/-- Such a transaction comes to the billing of a hard failure. -/
theorem FailsHard.retire_eq (h : FailsHard env node g b errorClock db₁ c err cpuTime)
    (hremove : removeScheduledTransaction env g s = .ok () { s with db := db₁ }) :
    retire env node g b errorClock s =
      retireFailed env (checking node) g b c err cpuTime { s with db := db₁ } := by
  obtain ⟨hdue, hunexpired, -, err0, e, hrun, ⟨hcaught, hobjective⟩, rfl, hcase⟩ := h
  unfold retire
  rw [bind_ok hremove, bind_ok (require_pos hdue _), if_neg hunexpired, get_bind]
  dsimp only
  rw [← checking, hrun]
  dsimp only
  rw [if_neg hcaught]
  obtain ⟨hsender, rfl, rfl⟩ | ⟨hsender, ⟨hcaught', -⟩, e', honerror, rfl⟩ := hcase
  · rw [if_neg (fun hs => hs.1 hsender)]
  · rw [if_pos ⟨hsender, hobjective⟩]
    have heq := applyOnerror_eq env (checking node) g (onerrorBilling b errorClock)
      (scheduledContext (checking node) g b).enforceWhiteblacklist { s with db := db₁ }
    rw [honerror] at heq
    dsimp only at heq
    rw [if_neg hcaught'] at heq
    exact bind_ok heq

theorem FailsHard.objective (h : FailsHard env node g b errorClock db₁ c err cpuTime) :
    subjective b err = false := by
  obtain ⟨-, -, -, err0, e, -, ⟨-, hobjective⟩, -, ⟨-, rfl, -⟩ | ⟨-, ⟨-, h'⟩, -⟩⟩ := h
  · exact hobjective
  · exact h'

/-- Removing the object changes the resource tables in the RAM of one row. -/
theorem removed_row (hremove : removeScheduledTransaction env g s = .ok () { s with db := db₁ }) :
    ∃ u, s.db.resources.usage g.payer = some u ∧ db₁.resources =
      setUsage s.db.resources g.payer
        { u with ramUsage := u.ramUsage - billableSize env g } := by
  obtain ⟨e, hr⟩ | ⟨db', hremoved, hr⟩ := removeScheduledTransaction_cases env g s
  · rw [hremove] at hr
    cases hr
  · rw [hremove] at hr
    cases hr
    obtain ⟨u, hu, -, hres⟩ := hremoved.refunded
    exact ⟨u, hu, hres⟩

/-- `runScheduled` up to the billing. -/
theorem runScheduled_checks (env : Env σ) (node : Node) (g : GeneratedTransaction) :
    runScheduled env node g =
      (prepareScheduled env node g >>= fun _ => exec env node >>= fun _ =>
        finalizeChecks env node) >>= fun c =>
          onResources (addTransactionUsage c.billToAccounts c.billedCpuTimeUs c.netUsage
            env.pendingSlot) := by
  rw [runScheduled_phases, finalize_eq]
  simp only [bind_assoc]

/-- Work on the resource tables at the end leaves the context alone. -/
theorem ctx_then_onResources {α β : Type} (x : ExecM σ α) (f : α → ResourceM β)
    (s : ExecState σ) : (final ((x >>= fun a => onResources (f a)) s)).ctx = (final (x s)).ctx := by
  cases hx : x s with
  | error e s' =>
    rw [bind_error hx]
    rfl
  | ok a s' =>
    rw [bind_ok hx, onResources, zoom]
    cases f a s'.db.resources with
    | ok b t => rfl
    | error e t => rfl

/-- The limits in the context of a failed transaction. -/
theorem FailsHard.capped (h : FailsHard env node g b errorClock db₁ c err cpuTime)
    (hsound : SoundLimits db₁.resources) : Capped db₁.resources c := by
  obtain ⟨-, -, -, err0, e, hrun, -, rfl, -⟩ := h
  have hstart : CappedState db₁.resources ⟨db₁, scheduledContext (checking node) g b⟩ :=
    cappedState_start hsound rfl rfl
  have hkeeps : KeepsCaps db₁.resources (prepareScheduled env (checking node) g >>= fun _ =>
      exec env (checking node) >>= fun _ => finalizeChecks env (checking node)) :=
    .keep (keepsCaps_prepareScheduled hsound.nonneg g) fun _ =>
      .keep keepsCaps_exec fun _ => keepsCaps_finalizeChecks
  have hend := (KeepsCaps.run hkeeps hstart).ctx
  rw [← ctx_then_onResources, ← runScheduled_checks, hrun] at hend
  exact hend

/-- **THE BILL OF A HARD FAILURE**: a scheduled transaction that fails hard gets
    its `hard_fail` receipt exactly where none of the accounts that it bills is
    over a share already. -/
theorem hard_fail_receipt_iff {cpu : Nat} (hsound : SoundLimits s.db.resources)
    (helastic : Elastic s.db.resources) (hroomy : AllRoomy s.db.resources)
    (hremove : removeScheduledTransaction env g s = .ok () { s with db := db₁ })
    (hfails : FailsHard env node g b errorClock db₁ c err cpuTime)
    (hcall : hardFailCpuTime (checking node) c b env.pendingSlot cpuTime db₁.resources =
      .ok cpu r₁) :
    (∃ trace s', pushScheduledObject env node g b errorClock s = .ok trace s' ∧
        trace.receipt = some (receipt (.id g.trxId) .hardFail cpu 0).header) ↔
      ∀ a ∈ c.billToAccounts, ¬ Overdrawn s.db.resources env.pendingSlot a := by
  obtain ⟨u, hu, hres⟩ := removed_row hremove
  have hsound1 : SoundLimits db₁.resources := hsound.of_block (by rw [hres]; rfl)
  have helastic1 : Elastic db₁.resources := helastic.of_block (by rw [hres]; rfl)
  have hroomy1 : AllRoomy db₁.resources := by
    rw [hres]
    exact allRoomy_setRam hu hroomy
  have hsame : ∀ a, Overdrawn db₁.resources env.pendingSlot a ↔
      Overdrawn s.db.resources env.pendingSlot a := by
    rw [hres]
    exact overdrawn_setRam hu _ _
  have hiff := addTransactionUsage_hardFail_iff hfails.measured hsound1 helastic1 hroomy1
    (hfails.capped hsound1) hcall
  simp only [hsame] at hiff
  rw [← hiff]
  unfold pushScheduledObject
  rw [hfails.retire_eq hremove]
  unfold retireFailed
  rw [hfails.objective, if_neg Bool.false_ne_true,
    bind_ok (onPipeResources_ok (s := ⟨db₁, s.block⟩) hcall)]
  cases hadd : addTransactionUsage c.billToAccounts cpu 0 env.pendingSlot r₁ with
  | ok u r' =>
    rw [bind_ok (onPipeResources_ok (s := ⟨_, s.block⟩) hadd)]
    exact iff_of_true ⟨_, _, rfl, rfl⟩ ⟨r', rfl⟩
  | error e r' =>
    rw [bind_error (onPipeResources_error (s := ⟨_, s.block⟩) hadd)]
    refine iff_of_false ?_ ?_
    · rintro ⟨trace, s', hr, -⟩
      cases hr
    · rintro ⟨r'', hr⟩
      cases hr

/-! ## An account whose net weight was lowered -/

/-- Code that fails whatever it is called for. -/
def failing : Digest → Program Unit :=
  fun _ _ _ => [.fail ⟨.eosioAssertMessage, "assertion failure"⟩]

def failingEnv : Env Unit := SmallChain.env 7 failing

/-- `alice` used net bandwidth in this slot, and has no net weight any more. -/
def lowered : Resources :=
  { SmallChain.resources with
    usage := fun a =>
      if a = SmallChain.alice then
        some { netUsage := ⟨7, 1000000, 1⟩, ramUsage := 1000 }
      else none
    weights := fun _ => some { netWeight := 0, cpuWeight := -1 }
    totalNetWeight := 100 }

def loweredState : PipeState Unit where
  db := { SmallChain.db none 1 false with resources := lowered, generated := [deferred] }
  block := {}

def loweredDb : Db Unit := (final (removeScheduledTransaction failingEnv deferred loweredState)).db

def failedRun : EStateM.Result FcException (ExecState Unit) Unit :=
  runScheduled failingEnv (checking SmallChain.producer) deferred
    ⟨loweredDb, scheduledContext (checking SmallChain.producer) deferred {}⟩

def failedHandler : EStateM.Result FcException (ExecState Unit) Unit :=
  runOnerror failingEnv (checking SmallChain.producer) deferred
    ⟨loweredDb, onerrorContext failingEnv deferred (onerrorBilling {} {})
      (scheduledContext (checking SmallChain.producer) deferred {}).enforceWhiteblacklist⟩

def billedTime : EStateM.Result FcException Resources Nat :=
  hardFailCpuTime (checking SmallChain.producer) (final failedRun).ctx {} failingEnv.pendingSlot
    (billedAtThrow (final failedHandler)) loweredDb.resources

def refusedBill : EStateM.Result FcException Resources Unit :=
  addTransactionUsage (final failedRun).ctx.billToAccounts 100 0 failingEnv.pendingSlot
    (final billedTime)

def loweredPush : EStateM.Result FcException (PipeState Unit) Trace :=
  pushScheduledObject failingEnv SmallChain.producer deferred {} {} loweredState

theorem lowered_fails_hard :
    FailsHard failingEnv SmallChain.producer deferred {} {} loweredDb (final failedRun).ctx
      ⟨.eosioAssertMessage, "assertion failure"⟩ (billedAtThrow (final failedHandler)) := by
  have hrun : failedRun = .error ⟨.eosioAssertMessage, "assertion failure"⟩ (final failedRun) :=
    of_throws (by decide +kernel)
  have hhandler : failedHandler = .error ⟨.eosioAssertMessage, "assertion failure"⟩
      (final failedHandler) := of_throws (by decide +kernel)
  exact ⟨by decide, by decide, rfl, _, _, hrun, by decide, rfl,
    .inr ⟨by decide, by decide, _, hhandler, rfl⟩⟩

/-- The accounts cannot be billed for the hard failure, and the transaction
    stays where it is. -/
theorem lowered_hard_failure_throws :
    FailsHard failingEnv SmallChain.producer deferred {} {} loweredDb (final failedRun).ctx
        ⟨.eosioAssertMessage, "assertion failure"⟩ (billedAtThrow (final failedHandler)) ∧
      yields 100 billedTime = true ∧
      throws ⟨.txNetUsageExceeded, "authorizing account '$\x7bn\x7d' has insufficient net resources for this transaction"⟩
        refusedBill = true ∧
      throws ⟨.txNetUsageExceeded, "authorizing account '$\x7bn\x7d' has insufficient net resources for this transaction"⟩
        loweredPush = true ∧
      deferred ∈ (final loweredPush).db.generated :=
  ⟨lowered_fails_hard, by decide +kernel, by decide +kernel, by decide +kernel, by decide +kernel⟩

theorem lowered_removed :
    removeScheduledTransaction failingEnv deferred loweredState =
      .ok () { loweredState with db := loweredDb } := by
  obtain ⟨e, hr⟩ | ⟨db₁, -, hr⟩ :=
    removeScheduledTransaction_cases failingEnv deferred loweredState
  · have hok : yields () (removeScheduledTransaction failingEnv deferred loweredState) = true := by
      decide +kernel
    rw [hr] at hok
    cases hok
  · rw [loweredDb, hr]
    rfl

theorem lowered_roomy : AllRoomy lowered := by
  intro a u hu
  unfold lowered at hu
  dsimp only at hu
  split at hu
  · cases hu
    exact ⟨⟨by decide, by decide⟩, ⟨by decide, by decide⟩⟩
  · cases hu

theorem hard_fail_receipt_iff_lowered :
    (∃ trace s', loweredPush = .ok trace s' ∧
        trace.receipt = some (receipt (.id deferred.trxId) .hardFail 100 0).header) ↔
      ∀ a ∈ (final failedRun).ctx.billToAccounts,
        ¬ Overdrawn loweredState.db.resources failingEnv.pendingSlot a := by
  have hsound : SoundLimits lowered := ⟨⟨by decide, by decide, by decide, by decide⟩,
    ⟨by decide, by decide, by decide⟩, ⟨by decide, by decide, by decide⟩⟩
  have helastic : Elastic lowered := ⟨by decide, by decide, by decide, by decide⟩
  have hcall : billedTime = .ok 100 (final billedTime) := of_yields (by decide +kernel)
  exact hard_fail_receipt_iff hsound helastic lowered_roomy lowered_removed lowered_fails_hard hcall

end HardFail
