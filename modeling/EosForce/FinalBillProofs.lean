import EosForce.AllowanceProofs

/-! # Billing after the checks

    `finalize` checks the bill of a transaction against the limits of the
    block, of the transaction and of the billed accounts, and then has
    `add_transaction_usage` check it again in other words.  For a transaction
    that uses both resources the second check says nothing new. -/

namespace FinalBill

open ChainTypes TrxTypes Resource Database TrxContext ApplyContext Push StepRule
open QuietStep Allowance

variable {σ : Type} {env : Env σ} {node : Node} {r : Resources}

/-! ## Numbers that fit -/

/-- Limits that fit `int64_t`: of the block, what it has used of them and what
    is left. -/
structure LimitsFit (limit pending : Nat) : Prop where
  whole : limit ≤ int64Max
  used : pending ≤ int64Max
  left : subU64 limit pending ≤ int64Max

/-- The windows are no longer than the precision, and the limits fit. -/
structure SoundLimits (r : Resources) : Prop where
  windows : Windows r
  cpu : LimitsFit r.maxCpu r.pendingCpuUsage
  net : LimitsFit r.maxNet r.pendingNetUsage

/-- A block that has used more than its limit would have a negative rest. -/
theorem LimitsFit.rest {limit pending : Nat} (h : LimitsFit limit pending) :
    pending ≤ limit ∧ subU64 limit pending = limit - pending := by
  obtain ⟨hlimit, hpending, hleft⟩ := h
  unfold int64Max at hlimit hpending hleft
  unfold subU64 at hleft ⊢
  rw [Nat.mod_eq_of_lt (a := pending) (by omega)] at hleft ⊢
  omega

/-- What the weights of the accounts are multiplied with fits 128 bits. -/
def Fits (r : Resources) (accounts : List Name) : Prop :=
  ∀ a ∈ accounts, ∀ w ∈ (getAccountWeights r a).toOption,
    r.virtualCpuLimit * r.accountCpuUsageAverageWindow * w.cpuWeight.toNat < 2 ^ 128 ∧
    r.virtualNetLimit * r.accountNetUsageAverageWindow * w.netWeight.toNat < 2 ^ 128

instance (r : Resources) (accounts : List Name) : Decidable (Fits r accounts) := by
  unfold Fits
  infer_instance

theorem share_le {window virtualLimit max greylistLimit weight : Nat}
    (h : virtualLimit * window * weight < 2 ^ 128) :
    window * effectiveLimit virtualLimit max greylistLimit * weight % 2 ^ 128 ≤
      virtualLimit * window * weight % 2 ^ 128 := by
  rw [Nat.mod_eq_of_lt h, Nat.mul_comm virtualLimit]
  refine (Nat.mod_le _ _).trans (Nat.mul_le_mul_right _ ?_)
  exact Nat.mul_le_mul_left _ (effectiveLimit_le _ _ _)

theorem Fits.shares {accounts : List Name} {a : Name} {w : ResourceWeights}
    (h : Fits r accounts) (ha : a ∈ accounts) (hw : getAccountWeights r a = .ok w)
    (greylistLimit : Nat) : Shares r greylistLimit w := by
  have hfits := h a ha w (by rw [hw]; rfl)
  exact ⟨share_le hfits.1, share_le hfits.2⟩

/-- What is left of the block. -/
theorem SoundLimits.blockLimits (h : SoundLimits r) :
    getBlockNetLimit r = r.maxNet - r.pendingNetUsage ∧
      asInt64 (getBlockCpuLimit r) = ((r.maxCpu - r.pendingCpuUsage : Nat) : Int) := by
  refine ⟨h.net.rest.2, ?_⟩
  rw [getBlockCpuLimit, h.cpu.rest.2, asInt64, if_pos]
  have hfits := h.cpu.whole
  unfold int64Max at hfits
  omega

theorem SoundLimits.nonneg (h : SoundLimits r) : 0 ≤ asInt64 (getBlockCpuLimit r) := by
  rw [h.blockLimits.2]
  exact Int.natCast_nonneg _

theorem SoundLimits.of_block {r' : Resources} (h : SoundLimits r)
    (hb : blockResources r' = blockResources r) : SoundLimits r' := by
  refine (block_congr (P := SoundLimits) (fun _ => ⟨?_, ?_⟩) hb).mpr h
  · rintro ⟨⟨h1, h2, h3, h4⟩, hcpu, hnet⟩
    exact ⟨⟨h1, h2, h3, h4⟩, hcpu, hnet⟩
  · rintro ⟨⟨h1, h2, h3, h4⟩, hcpu, hnet⟩
    exact ⟨⟨h1, h2, h3, h4⟩, hcpu, hnet⟩

/-! ## The law -/

theorem cappedState_start (h : SoundLimits r) {db : Db σ} (hr : db.resources = r) {c : Context}
    (hc : caps c = ([], 0, 0, 0)) : CappedState r ⟨db, c⟩ := by
  have hcapped : Capped r { trx := {}, id := 0 } :=
    ⟨List.nodup_nil, Nat.zero_le _, h.nonneg, le_rfl, h.nonneg⟩
  exact ⟨hcapped.of_caps hc, congrArg blockResources hr⟩

/-- A transaction within the limits of the block leaves room for its bill. -/
theorem room_of_capped {c : Context} {cpu net : Nat} (h : SoundLimits r) (hc : Capped r c)
    (hcpu : (cpu : Int) ≤ c.objectiveDurationLimit) (hnet : net ≤ c.netLimit) : Room r cpu net := by
  obtain ⟨hlimitNet, hlimitCpu⟩ := h.blockLimits
  have hcpu' := hcpu.trans hc.cpu
  have hnet' := hnet.trans hc.net
  rw [hlimitCpu] at hcpu'
  rw [hlimitNet] at hnet'
  have hp := h.cpu.rest.1
  have hq := h.net.rest.1
  exact ⟨by omega, by omega⟩

/-- Where the checks of `finalize` start, the limits are those that setting up
    took from the block. -/
theorem capped_before_finalize {m : TrxMetadata} {b : Billing} {db : Db σ} {s1 s2 : ExecState σ}
    (hsound : SoundLimits db.resources)
    (hprep : prepareTrx env node m ⟨db, startContext node m b⟩ = .ok () s1)
    (hexec : exec env node s1 = .ok () s2) : CappedState db.resources s2 := by
  have hstart : CappedState db.resources ⟨db, startContext node m b⟩ :=
    cappedState_start hsound rfl rfl
  have h1 := KeepsCaps.run_ok hprep (keepsCaps_prepareTrx hsound.nonneg m) hstart
  exact KeepsCaps.run_ok hexec keepsCaps_exec h1

/-- The billing was turned down for what the transaction used. -/
def RefusedForUsage : EStateM.Result FcException Resources Unit → Prop
  | .ok _ _ => False
  | .error e _ =>
    e.type ∈ [ExceptionType.txCpuUsageExceeded, .txNetUsageExceeded, .blockResourceExhausted]

/-- **NOTHING NEW TO CHECK**: a transaction that uses CPU and net and passes
    the checks of `finalize` is not turned down for its usage when it is
    billed. -/
theorem billing_after_checks {m : TrxMetadata} {b : Billing} {db : Db σ} {s₁ s₂ s₃ : ExecState σ}
    {c : Context} (hskip : node.skipTrxChecks = false) (hsound : SoundLimits db.resources)
    (hprep : prepareTrx env node m ⟨db, startContext node m b⟩ = .ok () s₁)
    (hexec : exec env node s₁ = .ok () s₂)
    (hchecks : finalizeChecks env node s₂ = .ok c s₃)
    (hfits : Fits s₃.db.resources c.billToAccounts)
    (hcpu : 0 < c.billedCpuTimeUs) (hnet : 0 < c.netUsage) :
    ¬ RefusedForUsage (addTransactionUsage c.billToAccounts c.billedCpuTimeUs c.netUsage
      env.pendingSlot s₃.db.resources) := by
  have hcapped := capped_before_finalize hsound hprep hexec
  obtain ⟨hres, w, hpay⟩ := finalizeChecks_ok hskip hchecks
  rw [hres] at hfits ⊢
  have hsound2 := hsound.of_block hcapped.block
  have hroom : Room s₂.db.resources c.billedCpuTimeUs c.netUsage :=
    (room_of_capped hsound hcapped.ctx hpay.cpu hpay.net).of_block hcapped.block
  have hnodup : c.billToAccounts.Nodup := hpay.accounts ▸ hcapped.ctx.accounts
  obtain ⟨⟨hnetNonneg, -⟩, hcovers⟩ := maxBandwidth_covers hpay.bandwidth
  have hpaid := hpay.netPaid
  have hwithin : ∀ a ∈ c.billToAccounts, ∀ weights u, Bill s₂.db.resources c.billedCpuTimeUs
      c.netUsage env.pendingSlot a weights u → Within s₂.db.resources weights u := by
    rintro a ha weights u ⟨hweights, u0, husage, hbilled⟩
    exact (hcovers a ha).within hsound2.windows (hfits.shares ha hweights _) hweights husage
      hbilled hpay.cpuPaid (by omega) (.inl hcpu) (.inl hnet)
  cases hadd : addTransactionUsage c.billToAccounts c.billedCpuTimeUs c.netUsage
      env.pendingSlot s₂.db.resources with
  | ok u r' => exact id
  | error e r' =>
    have htype := addTransactionUsage_error hnodup hroom hwithin hadd
    have hdisjoint : ∀ t ∈ unrelated, t ∉ [ExceptionType.txCpuUsageExceeded,
        .txNetUsageExceeded, .blockResourceExhausted] := by decide
    exact hdisjoint e.type htype

/-- A chain on which accounts have a tenth of all weight. -/
def weighted : Db Unit :=
  { SmallChain.db (some 5) 0 false with
    resources :=
      { SmallChain.resources with
        weights := fun _ => some ⟨10, 10⟩
        totalNetWeight := 100
        totalCpuWeight := 100 } }

/-- A transfer, phase by phase. -/
def prepared : EStateM.Result FcException (ExecState Unit) Unit :=
  prepareTrx (SmallChain.env 10 SmallChain.noCode) SmallChain.producer SmallChain.transfer
    ⟨weighted, startContext SmallChain.producer SmallChain.transfer {}⟩

def ran : EStateM.Result FcException (ExecState Unit) Unit :=
  exec (SmallChain.env 10 SmallChain.noCode) SmallChain.producer (final prepared)

def checked : EStateM.Result FcException (ExecState Unit) Context :=
  finalizeChecks (SmallChain.env 10 SmallChain.noCode) SmallChain.producer (final ran)

/-- It uses both resources, and the numbers fit. -/
def usesBoth (c : Context) (s : ExecState Unit) : Bool :=
  decide (0 < c.billedCpuTimeUs ∧ 0 < c.netUsage ∧ Fits s.db.resources c.billToAccounts)

theorem billing_after_checks_transfer :
    ∃ c s₃, prepared = .ok () (final prepared) ∧ ran = .ok () (final ran) ∧
      checked = .ok c s₃ ∧ 0 < c.billedCpuTimeUs ∧ 0 < c.netUsage ∧
      ¬ RefusedForUsage (addTransactionUsage c.billToAccounts c.billedCpuTimeUs c.netUsage
        (SmallChain.env 10 SmallChain.noCode).pendingSlot s₃.db.resources) := by
  have hprep : prepared = .ok () (final prepared) := of_yields (by decide +kernel)
  have hran : ran = .ok () (final ran) := of_yields (by decide +kernel)
  have hchecked : yieldsWith usesBoth checked = true := by decide +kernel
  obtain ⟨c, s₃, hok, huses⟩ := of_yieldsWith hchecked
  obtain ⟨hcpu, hnet, hfits⟩ := of_decide_eq_true huses
  have hsound : SoundLimits weighted.resources :=
    ⟨⟨by decide, by decide, by decide, by decide⟩, ⟨by decide, by decide, by decide⟩,
      ⟨by decide, by decide, by decide⟩⟩
  exact ⟨c, s₃, hprep, hran, hok, hcpu, hnet,
    billing_after_checks rfl hsound hprep hran hok hfits hcpu hnet⟩

end FinalBill
