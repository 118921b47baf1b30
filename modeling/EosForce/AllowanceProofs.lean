import EosForce.TrxJobProofs
import Mathlib.Data.List.Dedup

/-! # What accounts may use

    What an account can still pay is computed before a transaction is billed,
    by dividing what it used so far and rounding up.  The billing adds to the
    moving average, rounding up again, and compares after rounding down.  The
    two agree as long as the averaging window is no longer than the precision
    of the average.  Here are the rounding argument, what it says about one
    account and about a list of them, and the limits that the block sets. -/

namespace Allowance

open ChainTypes TrxTypes Effect Resource Database TrxContext ApplyContext Push StepRule
open QuietStep ExecSteps TrxPhase TrxJob

/-! ## Rounding -/

theorem integerDivideCeil_bounds (num : Nat) {den : Nat} (hden : 0 < den) :
    num ≤ integerDivideCeil num den * den ∧ integerDivideCeil num den * den < num + den := by
  have hdiv := Nat.div_add_mod num den
  have hmod := Nat.mod_lt num hden
  unfold integerDivideCeil
  split
  · rw [Nat.add_mul, Nat.mul_comm (num / den), Nat.one_mul]
    omega
  · rw [Nat.add_zero, Nat.mul_comm]
    omega

theorem integerDivideCeil_zero (den : Nat) : integerDivideCeil 0 den = 0 := by
  unfold integerDivideCeil
  rw [Nat.zero_div, Nat.zero_mod]
  rfl

theorem contribution_le {units window : Nat} (hpos : 0 < window) :
    contribution units window ≤ units * rateLimitingPrecision := by
  have hlt := (integerDivideCeil_bounds (units * rateLimitingPrecision) hpos).2
  rw [contribution]
  by_contra hgt
  have hmul := Nat.mul_le_mul_right window (Nat.lt_of_not_le hgt)
  rw [Nat.succ_mul] at hmul
  have hone := Nat.le_mul_of_pos_right (units * rateLimitingPrecision) hpos
  omega

/-- **ROUNDING CLOSES**: with a window no longer than the precision, what is
    added in units is seen as no more than that many units. -/
theorem usage_add_le {v units window : Nat} (hpos : 0 < window)
    (hle : window ≤ rateLimitingPrecision) :
    (v + contribution units window) * window / rateLimitingPrecision ≤
      integerDivideCeil (v * window) rateLimitingPrecision + units := by
  have hprecision : 0 < rateLimitingPrecision := by decide
  have hadded := (integerDivideCeil_bounds (units * rateLimitingPrecision) hpos).2
  have hused := (integerDivideCeil_bounds (v * window) hprecision).1
  rw [contribution]
  apply Nat.le_of_lt_succ
  rw [Nat.div_lt_iff_lt_mul hprecision]
  calc (v + integerDivideCeil (units * rateLimitingPrecision) window) * window
      = v * window + integerDivideCeil (units * rateLimitingPrecision) window * window :=
        Nat.add_mul _ _ _
    _ < integerDivideCeil (v * window) rateLimitingPrecision * rateLimitingPrecision +
          (units * rateLimitingPrecision + rateLimitingPrecision) := by omega
    _ = (integerDivideCeil (v * window) rateLimitingPrecision + units).succ *
          rateLimitingPrecision := by
        rw [Nat.succ_mul, Nat.add_mul]
        omega

/-! ## One account -/

section Accumulator

variable {u u' : UsageAccumulator} {units ordinal window : Nat}

/-- In a new period the value has lost one part in `window`. -/
theorem decayTo_cases (h : u.decayTo ordinal window = .ok u') :
    (u.lastOrdinal = ordinal ∧ u' = u) ∨
      (u'.lastOrdinal = ordinal ∧ u'.valueEx ≤ u.valueEx ∧
        u'.valueEx * window ≤ u.valueEx * (window - 1) ∧
        u'.consumed = integerDivideCeil u'.valueEx rateLimitingPrecision) := by
  unfold UsageAccumulator.decayTo at h
  split at h
  · cases h
    exact .inl ⟨‹_›, rfl⟩
  · obtain ⟨hlater, h⟩ := eosAssert_bind_ok_iff.mp h
    split at h
    · obtain ⟨_, -, h⟩ := except_bind_ok h
      cases h
      refine .inr ⟨rfl, ?_, ?_, rfl⟩
      · apply Nat.div_le_of_le_mul
        rw [Nat.mul_comm window]
        exact Nat.mul_le_mul_left _ (Nat.sub_le _ _)
      · exact Nat.le_trans (Nat.div_mul_le_self _ _) (Nat.mul_le_mul_left _ (by omega))
    · cases h
      refine .inr ⟨rfl, Nat.zero_le _, ?_, (integerDivideCeil_zero _).symm⟩
      rw [Nat.zero_mul]
      exact Nat.zero_le _

theorem decayTo_le (h : u.decayTo ordinal window = .ok u') : u'.valueEx ≤ u.valueEx := by
  rcases decayTo_cases h with ⟨-, rfl⟩ | ⟨-, hle, -⟩
  · exact Nat.le_refl _
  · exact hle

theorem add_ok_inv (h : u.add units ordinal window = .ok u') :
    ∃ v, u.decayTo ordinal window = .ok v ∧ u' = { v with
      valueEx := v.valueEx + contribution units window, consumed := v.consumed + units } := by
  simp only [UsageAccumulator.add, eosAssert_bind_ok_iff] at h
  obtain ⟨v, hdecay, h⟩ := except_bind_ok h.2.2.2.2
  cases h
  exact ⟨v, hdecay, rfl⟩

theorem add_valueEx (h : u.add units ordinal window = .ok u') :
    ∃ v ≤ u.valueEx, u'.valueEx = v + contribution units window := by
  obtain ⟨v, hdecay, rfl⟩ := add_ok_inv h
  exact ⟨v.valueEx, decayTo_le hdecay, rfl⟩

end Accumulator

/-- The limit that the available bandwidth is counted with: the virtual limit,
    or what the greylist leaves of it. -/
def effectiveLimit (virtualLimit max greylistLimit : Nat) : Nat :=
  if max * greylistLimit % 2 ^ 64 < virtualLimit then max * greylistLimit % 2 ^ 64
  else virtualLimit

theorem effectiveLimit_le (virtualLimit max greylistLimit : Nat) :
    effectiveLimit virtualLimit max greylistLimit ≤ virtualLimit := by
  unfold effectiveLimit
  split
  · exact Nat.le_of_lt ‹_›
  · exact Nat.le_refl _

variable {window virtualLimit max valueEx totalWeight greylistLimit units : Nat} {weight : Int}
  {available : Int} {greylisted : Bool}

/-- What `get_account_cpu_limit` and `get_account_net_limit` answer. -/
theorem accountLimit_cases (h : accountLimit window virtualLimit max valueEx weight totalWeight
      greylistLimit = .ok (available, greylisted)) :
    (weight < 0 ∨ totalWeight = 0) ∧ available = -1 ∨
      (0 ≤ weight ∧ 0 < totalWeight) ∧ available =
        ((window * effectiveLimit virtualLimit max greylistLimit * weight.toNat % 2 ^ 128 /
          totalWeight - integerDivideCeil (valueEx * window) rateLimitingPrecision : Nat) :
          Int) := by
  unfold accountLimit at h
  by_cases hfree : weight < 0 ∨ totalWeight = 0
  · rw [if_pos hfree] at h
    cases h
    exact .inl ⟨hfree, rfl⟩
  · rw [if_neg hfree] at h
    obtain ⟨a, ha, h⟩ := except_bind_ok h
    obtain ⟨_, -, h⟩ := except_bind_ok h
    obtain ⟨_, -, h⟩ := except_bind_ok h
    obtain ⟨_, -, ha⟩ := except_bind_ok ha
    cases ha
    cases h
    refine .inr ⟨by omega, ?_⟩
    rw [effectiveLimit]
    simp only [decide_eq_true_eq]

theorem withinShare_mono {v v' : Nat} (hle : v' ≤ v)
    (h : withinShare v window virtualLimit weight totalWeight) :
    withinShare v' window virtualLimit weight totalWeight := fun hw ht =>
  (Nat.div_le_div_right (Nat.mul_le_mul_right _ hle)).trans (h hw ht)

/-- **WHAT CAN BE PAID CAN BE BILLED**: units that the account can pay keep it
    within its share, unless there are none and it was over its share. -/
theorem withinShare_added (hpos : 0 < window) (hle : window ≤ rateLimitingPrecision)
    (h : accountLimit window virtualLimit max valueEx weight totalWeight greylistLimit =
      .ok (available, greylisted))
    (hcap : window * effectiveLimit virtualLimit max greylistLimit * weight.toNat % 2 ^ 128 ≤
      virtualLimit * window * weight.toNat % 2 ^ 128)
    (hunits : 0 ≤ available → (units : Int) ≤ available)
    (hsome : 0 < units ∨ withinShare valueEx window virtualLimit weight totalWeight) :
    withinShare (valueEx + contribution units window) window virtualLimit weight
      totalWeight := by
  intro hw ht
  obtain ⟨hfree, -⟩ | ⟨-, rfl⟩ := accountLimit_cases h
  · omega
  · have hshare := Nat.div_le_div_right (c := totalWeight) hcap
    have hpay := hunits (Int.natCast_nonneg _)
    have hadd : (valueEx + contribution units window) * window / rateLimitingPrecision ≤ _ :=
      usage_add_le hpos hle
    by_cases hzero : units = 0
    · subst hzero
      rw [contribution, Nat.zero_mul, integerDivideCeil_zero, Nat.add_zero]
      obtain hlt | hwithin := hsome
      · exact absurd hlt (Nat.lt_irrefl 0)
      · exact hwithin hw ht
    · omega

/-! ## What a list of accounts can pay -/

variable {accounts : List Name}

section Bandwidth

variable {r : Resources} {limitOf : Name → Nat}

/-- The bandwidth is no more than what the account has available. -/
structure Covers (r : Resources) (limitOf : Name → Nat) (b : Bandwidth) (a : Name) : Prop where
  net : ∃ available greylisted, getAccountNetLimit r a (limitOf a) = .ok (available, greylisted) ∧
    (0 ≤ available → b.accountNetLimit ≤ available)
  cpu : ∃ available greylisted, getAccountCpuLimit r a (limitOf a) = .ok (available, greylisted) ∧
    (0 ≤ available → b.accountCpuLimit ≤ available)

/-- Less of both. -/
structure Less (b b' : Bandwidth) : Prop where
  net : b'.accountNetLimit ≤ b.accountNetLimit
  cpu : b'.accountCpuLimit ≤ b.accountCpuLimit
  netNonneg : 0 ≤ b.accountNetLimit → 0 ≤ b'.accountNetLimit
  cpuNonneg : 0 ≤ b.accountCpuLimit → 0 ≤ b'.accountCpuLimit

theorem Less.refl (b : Bandwidth) : Less b b := ⟨le_rfl, le_rfl, id, id⟩

theorem Less.trans {a b c : Bandwidth} (h : Less a b) (h' : Less b c) : Less a c :=
  ⟨h'.net.trans h.net, h'.cpu.trans h.cpu, fun ha => h'.netNonneg (h.netNonneg ha),
    fun ha => h'.cpuNonneg (h.cpuNonneg ha)⟩

theorem Covers.less {b b' : Bandwidth} {a : Name} (h : Covers r limitOf b a) (hl : Less b b') :
    Covers r limitOf b' a := by
  obtain ⟨⟨n, gn, hn, hnle⟩, ⟨c, gc, hc, hcle⟩⟩ := h
  exact ⟨⟨n, gn, hn, fun h0 => hl.net.trans (hnle h0)⟩,
    ⟨c, gc, hc, fun h0 => hl.cpu.trans (hcle h0)⟩⟩

theorem bandwidthStep_ok {b b' : Bandwidth} {a : Name}
    (h : bandwidthStep r limitOf b a = .ok b') : Less b b' ∧ Covers r limitOf b' a := by
  unfold bandwidthStep at h
  obtain ⟨⟨n, gn⟩, hn, h⟩ := except_bind_ok h
  obtain ⟨⟨c, gc⟩, hc, h⟩ := except_bind_ok h
  cases h
  -- either limit is lowered to what is available, or left as it is
  refine ⟨⟨?_, ?_, ?_, ?_⟩, ⟨n, gn, hn, ?_⟩, c, gc, hc, ?_⟩ <;> split_ifs <;> grind

theorem bandwidth_covers : ∀ {b b' : Bandwidth},
    accounts.foldlM (bandwidthStep r limitOf) b = .ok b' →
      Less b b' ∧ ∀ a ∈ accounts, Covers r limitOf b' a := by
  induction accounts with
  | nil =>
    intro b b' h
    cases h
    exact ⟨.refl b, List.forall_mem_nil _⟩
  | cons a rest ih =>
    intro b b' h
    rw [List.foldlM_cons] at h
    obtain ⟨b1, hstep, hrest⟩ := except_bind_ok h
    obtain ⟨hless, hcovers⟩ := bandwidthStep_ok hstep
    obtain ⟨hless', hall⟩ := ih hrest
    refine ⟨hless.trans hless', ?_⟩
    intro x hx
    cases hx with
    | head => exact hcovers.less hless'
    | tail _ hx => exact hall x hx

/-- **WHAT ALL CAN PAY** is nonnegative and no more than what each can pay. -/
theorem maxBandwidth_covers {node : Node} {force : Bool} {b : Bandwidth}
    (h : maxBandwidthBilledAccountsCanPay node force r accounts = .ok b) :
    (0 ≤ b.accountNetLimit ∧ 0 ≤ b.accountCpuLimit) ∧
      ∀ a ∈ accounts, Covers r (greylistLimitOf node force) b a := by
  obtain ⟨hless, hall⟩ := bandwidth_covers h
  exact ⟨⟨hless.netNonneg (by decide), hless.cpuNonneg (by decide)⟩, hall⟩

end Bandwidth

/-! ## Billing a list of accounts -/

section Bill

variable {r : Resources} {cpu net slot : Nat} {a : Name}

/-- The usage is within the shares that the weights give. -/
structure Within (r : Resources) (w : ResourceWeights) (u : ResourceUsage) : Prop where
  cpu : withinShare u.cpuUsage.valueEx r.accountCpuUsageAverageWindow r.virtualCpuLimit
    w.cpuWeight r.totalCpuWeight
  net : withinShare u.netUsage.valueEx r.accountNetUsageAverageWindow r.virtualNetLimit
    w.netWeight r.totalNetWeight

/-- The account has rows, and its usage with the bill added is `u`. -/
structure Bill (r : Resources) (cpu net slot : Nat) (a : Name) (w : ResourceWeights)
    (u : ResourceUsage) : Prop where
  weights : getAccountWeights r a = .ok w
  usage : ∃ u₀, getUsage r a = .ok u₀ ∧ billed r u₀ cpu net slot = .ok u

/-- What the accumulators throw. -/
def unfit : List ExceptionType := [.resourceLimit, .rateLimitingStateInconsistent]

/-- What `add_transaction_usage` throws for other reasons than shares. -/
def unrelated : List ExceptionType := .keyNotFound :: unfit

variable {e : FcException}

theorem getUsage_error (h : getUsage r a = .error e) : e.type ∈ unrelated := by
  unfold getUsage at h
  cases hr : r.usage a with
  | none =>
    rw [hr] at h
    cases h
    decide
  | some u =>
    rw [hr] at h
    cases h

theorem getAccountWeights_error (h : getAccountWeights r a = .error e) : e.type ∈ unrelated := by
  unfold getAccountWeights at h
  split at h
  · cases h
  · cases h
  · cases h
    decide

/-- A check of the accumulator that fails, or the rest of the computation. -/
theorem check_error {β : Type} {c : Prop} [Decidable c] {t : ExceptionType} {msg : String}
    {f : Unit → Except FcException β} (ht : t ∈ unfit) (h : eosAssert c t msg >>= f = .error e)
    (hrest : f () = .error e → e.type ∈ unfit) : e.type ∈ unfit := by
  obtain hc | ⟨_, -, h⟩ := except_bind_error h
  · rw [eosAssert_error hc]
    exact ht
  · exact hrest h

theorem decayTo_error {u : UsageAccumulator} {ordinal window : Nat}
    (h : u.decayTo ordinal window = .error e) : e.type ∈ unfit := by
  unfold UsageAccumulator.decayTo at h
  split at h
  · cases h
  · refine check_error (by decide) h fun h => ?_
    split at h
    · refine check_error (by decide) h fun h => ?_
      cases h
    · cases h

theorem add_error {u : UsageAccumulator} {units ordinal window : Nat}
    (h : u.add units ordinal window = .error e) : e.type ∈ unfit := by
  unfold UsageAccumulator.add at h
  refine check_error (by decide) h fun h => ?_
  refine check_error (by decide) h fun h => ?_
  refine check_error (by decide) h fun h => ?_
  refine check_error (by decide) h fun h => ?_
  obtain hdecay | ⟨_, -, h⟩ := except_bind_error h
  · exact decayTo_error hdecay
  · cases h

theorem billed_ok_iff {u v : ResourceUsage} :
    billed r u cpu net slot = .ok v ↔ ∃ un uc,
      u.netUsage.add net slot r.accountNetUsageAverageWindow = .ok un ∧
      u.cpuUsage.add cpu slot r.accountCpuUsageAverageWindow = .ok uc ∧
      { u with netUsage := un, cpuUsage := uc } = v := by
  unfold billed
  constructor
  · intro h
    obtain ⟨un, hun, h⟩ := except_bind_ok h
    obtain ⟨uc, huc, h⟩ := except_bind_ok h
    exact ⟨un, uc, hun, huc, Except.ok.inj h⟩
  · rintro ⟨un, uc, hun, huc, rfl⟩
    rw [hun, huc]
    rfl

theorem billed_error {u : ResourceUsage} (h : billed r u cpu net slot = .error e) :
    e.type ∈ unfit := by
  unfold billed at h
  obtain hnet | ⟨_, -, h⟩ := except_bind_error h
  · exact add_error hnet
  · obtain hcpu | ⟨_, -, h⟩ := except_bind_error h
    · exact add_error hcpu
    · cases h

/-- How the billing of one account can go: something is missing or does not
    fit, or the bill is stored and then checked against the shares. -/
theorem addUsage_cases (r : Resources) (cpu net slot : Nat) (a : Name) :
    (∃ e, addUsage cpu net slot a r = .error e r ∧ e.type ∈ unrelated ∧
        ∀ w u, ¬ Bill r cpu net slot a w u) ∨
      ∃ w u, Bill r cpu net slot a w u ∧
        ((Within r w u ∧ addUsage cpu net slot a r = .ok () (setUsage r a u)) ∨
          (¬ Within r w u ∧ ∃ e r', addUsage cpu net slot a r = .error e r')) := by
  unfold addUsage
  rw [get_bind]
  cases hu : getUsage r a with
  | error e =>
    refine .inl ⟨e, rfl, getUsage_error hu, ?_⟩
    rintro w u ⟨-, u0, hu0, -⟩
    rw [hu] at hu0
    cases hu0
  | ok u0 =>
    rw [raise_bind_ok rfl]
    cases hw : getAccountWeights r a with
    | error e =>
      refine .inl ⟨e, rfl, getAccountWeights_error hw, ?_⟩
      rintro w u ⟨hw', -⟩
      rw [hw] at hw'
      cases hw'
    | ok w =>
      rw [raise_bind_ok rfl]
      cases hb : billed r u0 cpu net slot with
      | error e =>
        refine .inl ⟨e, rfl, List.mem_cons_of_mem _ (billed_error hb), ?_⟩
        rintro w u ⟨-, u1, hu1, hb'⟩
        rw [hu] at hu1
        cases hu1
        rw [hb] at hb'
        cases hb'
      | ok u =>
        rw [raise_bind_ok rfl, set_bind]
        refine .inr ⟨w, u, ⟨hw, u0, hu, hb⟩, ?_⟩
        by_cases hcpu : withinShare u.cpuUsage.valueEx r.accountCpuUsageAverageWindow
            r.virtualCpuLimit w.cpuWeight r.totalCpuWeight
        · rw [bind_ok (require_pos hcpu _)]
          by_cases hnet : withinShare u.netUsage.valueEx r.accountNetUsageAverageWindow
              r.virtualNetLimit w.netWeight r.totalNetWeight
          · exact .inl ⟨⟨hcpu, hnet⟩, require_pos hnet _⟩
          · exact .inr ⟨fun h => hnet h.net, _, _, require_neg hnet _⟩
        · exact .inr ⟨fun h => hcpu h.cpu, _, _, bind_error (require_neg hcpu _)⟩

theorem Bill.unique {w w' : ResourceWeights} {u u' : ResourceUsage}
    (h : Bill r cpu net slot a w u) (h' : Bill r cpu net slot a w' u') : w = w' ∧ u = u' := by
  obtain ⟨hw, u0, hu0, hb⟩ := h
  obtain ⟨hw', u1, hu1, hb'⟩ := h'
  rw [hw] at hw'
  rw [hu0] at hu1
  cases hw'
  cases hu1
  rw [hb] at hb'
  cases hb'
  exact ⟨rfl, rfl⟩

/-- Billing one account leaves the bill of another one as it is. -/
theorem bill_setUsage {x u : ResourceUsage} {w : ResourceWeights} {b : Name} (hne : b ≠ a) :
    Bill (setUsage r a x) cpu net slot b w u ↔ Bill r cpu net slot b w u := by
  have husage : getUsage (setUsage r a x) b = getUsage r b := by
    rw [getUsage, getUsage, setUsage]
    dsimp only
    rw [if_neg hne]
  constructor
  · rintro ⟨hw, u0, hu0, hb⟩
    exact ⟨hw, u0, husage ▸ hu0, hb⟩
  · rintro ⟨hw, u0, hu0, hb⟩
    exact ⟨hw, u0, husage ▸ hu0, hb⟩

theorem within_setUsage {x u : ResourceUsage} {w : ResourceWeights} :
    Within (setUsage r a x) w u ↔ Within r w u :=
  ⟨fun h => ⟨h.cpu, h.net⟩, fun h => ⟨h.cpu, h.net⟩⟩

/-- The averaging windows are positive and no longer than the precision. -/
structure Windows (r : Resources) : Prop where
  cpuPos : 0 < r.accountCpuUsageAverageWindow
  cpuLe : r.accountCpuUsageAverageWindow ≤ rateLimitingPrecision
  netPos : 0 < r.accountNetUsageAverageWindow
  netLe : r.accountNetUsageAverageWindow ≤ rateLimitingPrecision

/-- What a weight buys of the limit that bandwidth is counted with is no more
    than what it buys of the virtual limit. -/
structure Shares (r : Resources) (greylistLimit : Nat) (w : ResourceWeights) : Prop where
  cpu : r.accountCpuUsageAverageWindow * effectiveLimit r.virtualCpuLimit r.maxCpu greylistLimit *
      w.cpuWeight.toNat % 2 ^ 128 ≤
    r.virtualCpuLimit * r.accountCpuUsageAverageWindow * w.cpuWeight.toNat % 2 ^ 128
  net : r.accountNetUsageAverageWindow * effectiveLimit r.virtualNetLimit r.maxNet greylistLimit *
      w.netWeight.toNat % 2 ^ 128 ≤
    r.virtualNetLimit * r.accountNetUsageAverageWindow * w.netWeight.toNat % 2 ^ 128

/-- **THE BILL OF A COVERED ACCOUNT** is within its shares: of a resource that
    is used it has enough, and of one that is not it was not over its share. -/
theorem Covers.within {limitOf : Name → Nat} {b : Bandwidth} {w : ResourceWeights}
    {u0 u : ResourceUsage} (hcovers : Covers r limitOf b a) (hwindows : Windows r)
    (hshares : Shares r (limitOf a) w) (hweights : getAccountWeights r a = .ok w)
    (husage : getUsage r a = .ok u0) (hbilled : billed r u0 cpu net slot = .ok u)
    (hcpu : (cpu : Int) ≤ b.accountCpuLimit) (hnet : (net : Int) ≤ b.accountNetLimit)
    (hcpuSome : 0 < cpu ∨ (Within r w u0)) (hnetSome : 0 < net ∨ Within r w u0) : Within r w u := by
  obtain ⟨⟨n, gn, hn, hnle⟩, ⟨c, gc, hc, hcle⟩⟩ := hcovers
  rw [getAccountNetLimit, husage, hweights] at hn
  rw [getAccountCpuLimit, husage, hweights] at hc
  obtain ⟨un, uc, hun, huc, rfl⟩ := billed_ok_iff.mp hbilled
  obtain ⟨vn, hvn, hvalue⟩ := add_valueEx hun
  obtain ⟨vc, hvc, hvalue'⟩ := add_valueEx huc
  constructor
  · have hin := withinShare_added hwindows.cpuPos hwindows.cpuLe hc hshares.cpu
      (fun h0 => hcpu.trans (hcle h0)) (hcpuSome.imp id (·.cpu))
    exact withinShare_mono (by rw [hvalue']; omega) hin
  · have hin := withinShare_added hwindows.netPos hwindows.netLe hn hshares.net
      (fun h0 => hnet.trans (hnle h0)) (hnetSome.imp id (·.net))
    exact withinShare_mono (by rw [hvalue]; omega) hin

/-- Every account has a bill that is within its shares. -/
def AllWithin (r : Resources) (cpu net slot : Nat) (accounts : List Name) : Prop :=
  ∀ a ∈ accounts, ∃ w u, Bill r cpu net slot a w u ∧ Within r w u

/-- The accounts before the block in `add_transaction_usage`: all are billed
    within their shares, or it throws, over a share or for another reason. -/
theorem addUsages_cases : ∀ {r : Resources}, accounts.Nodup →
    (AllWithin r cpu net slot accounts ∧
        ∃ r', accounts.forM (addUsage cpu net slot) r = .ok () r' ∧
          blockResources r' = blockResources r) ∨
      ∃ a ∈ accounts, ∃ e r', accounts.forM (addUsage cpu net slot) r = .error e r' ∧
        ((e.type ∈ unrelated ∧ ∀ w u, ¬ Bill r cpu net slot a w u) ∨
          ∃ w u, Bill r cpu net slot a w u ∧ ¬ Within r w u) := by
  induction accounts with
  | nil => exact fun {r} _ => .inl ⟨List.forall_mem_nil _, r, rfl, rfl⟩
  | cons a rest ih =>
    intro r hnodup
    obtain ⟨ha, hrest⟩ := List.nodup_cons.mp hnodup
    obtain ⟨e, hr, htype, hnone⟩ | ⟨w, u, hbill, ⟨hin, hr⟩ | ⟨hout, e, r', hr⟩⟩ :=
      addUsage_cases r cpu net slot a
    · exact .inr ⟨a, List.mem_cons_self, e, r, bind_error hr, .inl ⟨htype, hnone⟩⟩
    · have hne : ∀ b ∈ rest, b ≠ a := fun b hb hba => ha (hba ▸ hb)
      obtain ⟨hall, r', hr', hblock⟩ | ⟨b, hb, e, r', hr', hwhy⟩ := ih (r := setUsage r a u) hrest
      · refine .inl ⟨?_, r', (bind_ok hr).trans hr', hblock⟩
        intro b hb
        obtain rfl | hb := List.mem_cons.mp hb
        · exact ⟨w, u, hbill, hin⟩
        · obtain ⟨w', u', hbill', hin'⟩ := hall b hb
          exact ⟨w', u', (bill_setUsage (hne b hb)).mp hbill', within_setUsage.mp hin'⟩
      · refine .inr ⟨b, List.mem_cons_of_mem _ hb, e, r', (bind_ok hr).trans hr', ?_⟩
        obtain ⟨htype, hnone⟩ | ⟨w', u', hbill', hout⟩ := hwhy
        · exact .inl ⟨htype, fun w' u' h => hnone w' u' ((bill_setUsage (hne b hb)).mpr h)⟩
        · exact .inr ⟨w', u', (bill_setUsage (hne b hb)).mp hbill',
            fun h => hout (within_setUsage.mpr h)⟩
    · exact .inr ⟨a, List.mem_cons_self, e, r', bind_error hr, .inr ⟨w, u, hbill, hout⟩⟩

/-- The block has room for the bill. -/
structure Room (r : Resources) (cpu net : Nat) : Prop where
  cpu : r.pendingCpuUsage + cpu ≤ r.maxCpu
  net : r.pendingNetUsage + net ≤ r.maxNet

theorem addBlockUsage_ok (h : Room r cpu net) : ∃ r', addBlockUsage cpu net r = .ok () r' := by
  unfold addBlockUsage
  rw [modify_bind, get_bind]
  have hcpu := (Nat.mod_le (r.pendingCpuUsage + cpu) (2 ^ 64)).trans h.cpu
  have hnet := (Nat.mod_le (r.pendingNetUsage + net) (2 ^ 64)).trans h.net
  exact ⟨_, (bind_ok (require_pos hcpu _)).trans (require_pos hnet _)⟩

theorem Room.of_block {r' : Resources} (h : Room r cpu net)
    (hb : blockResources r' = blockResources r) : Room r' cpu net :=
  (block_congr (P := (Room · cpu net))
    (fun _ => ⟨fun h => ⟨h.cpu, h.net⟩, fun h => ⟨h.cpu, h.net⟩⟩) hb).mpr h

/-- **BILLING**, where the block has room: it goes through exactly where every
    account has a bill within its shares. -/
theorem addTransactionUsage_iff (hnodup : accounts.Nodup) (hroom : Room r cpu net) :
    (∃ r', addTransactionUsage accounts cpu net slot r = .ok () r') ↔
      AllWithin r cpu net slot accounts := by
  unfold addTransactionUsage
  obtain ⟨hall, r', hr, hblock⟩ | ⟨a, ha, e, r', hr, hwhy⟩ := addUsages_cases hnodup
  · obtain ⟨r'', hr'⟩ := addBlockUsage_ok (hroom.of_block hblock)
    exact iff_of_true ⟨r'', (bind_ok hr).trans hr'⟩ hall
  · refine iff_of_false ?_ ?_
    · rintro ⟨r'', hr'⟩
      rw [bind_error hr] at hr'
      cases hr'
    · intro hall
      obtain ⟨w, u, hbill, hin⟩ := hall a ha
      obtain ⟨-, hnone⟩ | ⟨w', u', hbill', hout⟩ := hwhy
      · exact hnone w u hbill
      · obtain ⟨rfl, rfl⟩ := hbill.unique hbill'
        exact hout hin

/-- Where no bill goes over a share, what is thrown has other reasons. -/
theorem addTransactionUsage_error {r' : Resources} (hnodup : accounts.Nodup)
    (hroom : Room r cpu net) (hin : ∀ a ∈ accounts, ∀ w u, Bill r cpu net slot a w u → Within r w u)
    (h : addTransactionUsage accounts cpu net slot r = .error e r') : e.type ∈ unrelated := by
  unfold addTransactionUsage at h
  obtain ⟨-, r1, hr, hblock⟩ | ⟨a, ha, e1, r1, hr, hwhy⟩ := addUsages_cases hnodup
  · obtain ⟨r'', hr'⟩ := addBlockUsage_ok (hroom.of_block hblock)
    rw [bind_ok hr, hr'] at h
    cases h
  · rw [bind_error hr] at h
    cases h
    obtain ⟨htype, -⟩ | ⟨w, u, hbill, hout⟩ := hwhy
    · exact htype
    · exact absurd (hin a ha w u hbill) hout

end Bill

/-! ## The limits of the block -/

section Caps

variable {σ : Type} {r₀ : Resources}

/-- The limits of a transaction are within those of the block, and it bills
    no account twice. -/
structure Capped (r₀ : Resources) (c : Context) : Prop where
  accounts : c.billToAccounts.Nodup
  net : c.netLimit ≤ getBlockNetLimit r₀
  cpu : c.objectiveDurationLimit ≤ asInt64 (getBlockCpuLimit r₀)
  initial : 0 ≤ c.initialObjectiveDurationLimit ∧
    c.initialObjectiveDurationLimit ≤ asInt64 (getBlockCpuLimit r₀)

/-- So it is, while the tables for the block stay as they are. -/
structure CappedState (r₀ : Resources) (s : ExecState σ) : Prop where
  ctx : Capped r₀ s.ctx
  block : blockResources s.db.resources = blockResources r₀

/-- The computation keeps within the limits. -/
abbrev KeepsCaps {α : Type} (r₀ : Resources) (x : ExecM σ α) : Prop :=
  Moves (fun _ => CappedState r₀) (CappedState r₀) x

theorem stable_caps : Stable (fun _ => CappedState (σ := σ) r₀) (CappedState r₀) :=
  fun _ _ h _ => h

theorem KeepsCaps.run {α : Type} {x : ExecM σ α} (h : KeepsCaps r₀ x) {s : ExecState σ}
    (hs : CappedState r₀ s) : CappedState r₀ (final (x s)) :=
  stable_caps.run (h s hs) hs

variable {s s' : ExecState σ}

theorem KeepsCaps.run_ok {α : Type} {x : ExecM σ α} {a : α} (hr : x s = .ok a s')
    (h : KeepsCaps r₀ x) (hs : CappedState r₀ s) : CappedState r₀ s' := by
  have hrun := KeepsCaps.run h hs
  rw [hr] at hrun
  exact hrun

/-- What the limits are in. -/
def caps (c : Context) : List Name × Nat × Int × Int :=
  (c.billToAccounts, c.netLimit, c.objectiveDurationLimit, c.initialObjectiveDurationLimit)

variable {c c' : Context}

theorem Capped.of_caps (h : Capped r₀ c) (heq : caps c' = caps c) : Capped r₀ c' := by
  obtain ⟨haccounts, hnet, hcpu, hinitial⟩ : c'.billToAccounts = c.billToAccounts ∧
      c'.netLimit = c.netLimit ∧ c'.objectiveDurationLimit = c.objectiveDurationLimit ∧
      c'.initialObjectiveDurationLimit = c.initialObjectiveDurationLimit := by
    simpa only [caps, Prod.mk.injEq] using heq
  exact ⟨haccounts ▸ h.accounts, hnet ▸ h.net, hcpu ▸ h.cpu, hinitial ▸ h.initial⟩

theorem keepsCaps_modifyCtx {f : Context → Context} (h : ∀ c, caps (f c) = caps c) :
    KeepsCaps r₀ (modifyCtx f : ExecM σ Unit) :=
  .modify fun s hs => ⟨hs.ctx.of_caps (h s.ctx), hs.block⟩

theorem caps_of_fixed (h : fixed c' = fixed c) : caps c' = caps c := by
  have heq : caps (fixed c') = caps (fixed c) := congrArg caps h
  exact heq

theorem caps_of_still (h : still c' = still c) : caps c' = caps c := by
  have heq : caps (still c') = caps (still c) := congrArg caps h
  exact heq

/-- Steps of an execution leave the limits and the tables for the block
    alone. -/
theorem blockResources_quiet {env : Env σ} {asked : Name → Int → Prop} (h : Quiet env asked s s') :
    blockResources s'.db.resources = blockResources s.db.resources := by
  cases h with
  | tick | ram | enter | drop => rfl
  | limits r h => exact h.block
  | keep db h hr hg => exact congrArg blockResources hr

theorem cappedState_step {env : Env σ} (h : Step env s s') (hs : CappedState r₀ s) :
    CappedState r₀ s' := by
  refine ⟨hs.ctx.of_caps (caps_of_fixed h.grows.fixed), ?_⟩
  cases h with
  | quiet h => exact (blockResources_quiet h).trans hs.block
  | write | schedule | charge | refuse | execute => exact hs.block

theorem keepsCaps_quietly {α : Type} {x : ExecM σ α} (env : Env σ)
    (h : Quietly env (fun _ _ => True) x) : KeepsCaps r₀ x := by
  have hstable : Stable (Quiet env fun _ _ => True) (CappedState (σ := σ) r₀) := fun _ _ hq hs =>
    ⟨hs.ctx.of_caps (caps_of_still hq.ticked.still), (blockResources_quiet hq).trans hs.block⟩
  exact fun s hs => .single (hstable.run (h s trivial) hs)

/-! ## Setting up and settling keep within the limits -/

theorem getBlockLimit_congr {r : Resources} (h : blockResources r = blockResources r₀) :
    getBlockNetLimit r = getBlockNetLimit r₀ ∧ getBlockCpuLimit r = getBlockCpuLimit r₀ := by
  have hnet : getBlockNetLimit (blockResources r) = getBlockNetLimit (blockResources r₀) :=
    congrArg getBlockNetLimit h
  have hcpu : getBlockCpuLimit (blockResources r) = getBlockCpuLimit (blockResources r₀) :=
    congrArg getBlockCpuLimit h
  exact ⟨hnet, hcpu⟩

/-- Limits that only come down from those of the block. -/
structure Lowered (r : Resources) (c : Context) : Prop where
  accounts : c.billToAccounts.Nodup
  net : c.netLimit ≤ getBlockNetLimit r
  cpuNonneg : 0 ≤ c.objectiveDurationLimit
  cpu : c.objectiveDurationLimit ≤ asInt64 (getBlockCpuLimit r)

theorem Lowered.ite {r : Resources} {p : Prop} [Decidable p] (h' : p → Lowered r c')
    (h : Lowered r c) : Lowered r (if p then c' else c) := by
  split
  · exact h' ‹p›
  · exact h

theorem capped_objectiveLimits {cfg : ChainConfig} {r : Resources} {c : Context}
    (hnonneg : 0 ≤ asInt64 (getBlockCpuLimit r)) (h : c.billToAccounts.Nodup) :
    Capped r (objectiveLimits cfg r c) := by
  unfold objectiveLimits
  extract_lets netLimit duration c0 c1 c2 c3 c4
  -- the chain configuration and the transaction each lower a limit or leave it
  have h0 : Lowered r c0 := ⟨h, le_rfl, hnonneg, le_rfl⟩
  have h1 : Lowered r c1 :=
    .ite (fun hle => ⟨h0.accounts, hle.trans h0.net, h0.cpuNonneg, h0.cpu⟩) h0
  have h2 : Lowered r c2 :=
    .ite (fun hle => ⟨h1.accounts, h1.net, Int.natCast_nonneg _, hle.trans h1.cpu⟩) h1
  have h3 : Lowered r c3 :=
    .ite (fun hle => ⟨h2.accounts, hle.2.trans h2.net, h2.cpuNonneg, h2.cpu⟩) h2
  have h4 : Lowered r c4 :=
    .ite (fun hle => ⟨h3.accounts, h3.net, Int.natCast_nonneg _, hle.2.trans h3.cpu⟩) h3
  exact ⟨h4.accounts, h4.net, h4.cpu, h4.cpuNonneg, h4.cpu⟩

theorem nodup_billTo (features : Features) (trx : Transaction) : (billTo features trx).Nodup := by
  unfold billTo
  split
  · exact List.nodup_singleton _
  · exact (List.perm_insertionSort _ _).nodup_iff.mpr (List.nodup_dedup _)

theorem caps_accountLimits (cfg : ChainConfig) (b : Bandwidth) (c : Context) :
    caps (accountLimits cfg b c) = caps c := by
  rw [accountLimits]
  dsimp only
  split_ifs <;> rfl

theorem block_updateUsage (slot : Nat) (a : Name) (r : Resources) :
    blockResources (final (updateUsage slot a r)) = blockResources r := by
  unfold updateUsage
  rw [get_bind]
  refine still_bind (P := fun r' => blockResources r' = blockResources r) (final_raise r) rfl
    fun u _ => ?_
  exact still_bind (P := fun r' => blockResources r' = blockResources r) (final_raise r) rfl
    fun u' _ => rfl

theorem block_updateAccountUsage (accounts : List Name) (slot : Nat) (r : Resources) :
    blockResources (final (updateAccountUsage accounts slot r)) = blockResources r := by
  have hmoves : Moves (fun r r' => blockResources r' = blockResources r) (fun _ => True)
      (updateAccountUsage accounts slot) :=
    .forM stable_true fun a _ => fun r _ => .single (block_updateUsage slot a r)
  exact run_rel (R := fun r r' => blockResources r' = blockResources r) (fun _ => rfl)
    (fun _ _ _ hab hbc => Eq.trans hbc hab) (hmoves r trivial)

variable {env : Env σ} {node : Node}

section

variable (hnonneg : 0 ≤ asInt64 (getBlockCpuLimit r₀))
include hnonneg

theorem keepsCaps_init (initialNetUsage : Nat) : KeepsCaps r₀ (init env node initialNetUsage) := by
  refine .get_bind fun s hs => ?_
  refine .keep (.still final_require) fun _ => ?_
  refine .keep (.modify fun s' hs' => ⟨?_, hs'.block⟩) fun _ => ?_
  · obtain ⟨hnet, hcpu⟩ := getBlockLimit_congr hs.block
    have hcap : Capped s.db.resources
        (objectiveLimits s.db.tables.configuration s.db.resources s'.ctx) :=
      capped_objectiveLimits (by rw [hcpu]; exact hnonneg) hs'.ctx.accounts
    exact ⟨hcap.accounts, hnet ▸ hcap.net, hcpu ▸ hcap.cpu, hcpu ▸ hcap.initial⟩
  refine .keep (.whenever fun _ =>
    .still (final_validateCpuUsageToBill node _ false)) fun _ => ?_
  refine .keep (.modify fun s' hs' => ?_) fun _ => ?_
  · exact ⟨⟨nodup_billTo env.features s.ctx.trx, hs'.ctx.net, hs'.ctx.cpu, hs'.ctx.initial⟩,
      hs'.block⟩
  refine .keep (.zoom fun s' hs' => ⟨hs'.ctx, ?_⟩) fun _ => ?_
  · exact (block_updateAccountUsage _ _ _).trans hs'.block
  refine .get_bind fun s' _ => .keep (.still final_raise) fun b => ?_
  refine .keep (keepsCaps_modifyCtx (caps_accountLimits _ b)) fun _ => ?_
  refine .keep (.whenever fun _ =>
    keepsCaps_quietly env (quietly_addNetUsage node _)) fun _ => ?_
  exact .keep (keepsCaps_quietly env quietly_checktime) fun _ =>
    keepsCaps_modifyCtx fun _ => rfl

theorem keepsCaps_initForInputTrx (unprunableSize prunableSize : Nat) (skipRecording : Bool) :
    KeepsCaps r₀ (initForInputTrx env node unprunableSize prunableSize skipRecording) := by
  refine .get_bind fun s _ => ?_
  refine .keep (.whenever fun _ => .throw _) fun _ => ?_
  refine .keep (keepsCaps_modifyCtx fun _ => rfl) fun _ => ?_
  refine .keep (.whenever fun _ => .keep (.still final_raise) fun _ =>
    .keep (.still final_raise) fun _ => .still final_raise) fun _ => ?_
  refine .keep (keepsCaps_init hnonneg _) fun _ => .whenever fun _ => ?_
  exact .get_bind fun _ _ => .keep (.still final_require) fun _ =>
    .modify fun _ hs => ⟨hs.ctx, hs.block⟩

theorem keepsCaps_initTrx (m : TrxMetadata) : KeepsCaps r₀ (initTrx env node m) := by
  unfold initTrx
  split
  · refine .keep (.get_bind fun s _ => ?_) fun _ => keepsCaps_modifyCtx fun _ => rfl
    refine .keep (.whenever fun _ => .throw _) fun _ => ?_
    exact .keep (keepsCaps_modifyCtx fun _ => rfl) fun _ => keepsCaps_init hnonneg _
  · exact keepsCaps_initForInputTrx hnonneg _ _ _

omit hnonneg in
theorem keepsCaps_makeFeeAct (limit : Asset) : KeepsCaps r₀ (makeFeeAct limit : ExecM σ Unit) := by
  refine .get_bind fun s _ => ?_
  dsimp only
  cases s.ctx.trx.actions with
  | nil => exact .throw _
  | cons act rest =>
    dsimp only
    cases act.authorization with
    | nil => exact .throw _
    | cons p more =>
      exact .keep (keepsCaps_modifyCtx fun _ => rfl) fun _ => .still final_require

omit hnonneg in
theorem keepsCaps_makeLimitByContract (feeExt : Asset) :
    KeepsCaps r₀ (makeLimitByContract feeExt : ExecM σ Unit) := by
  intro s hs
  obtain ⟨hdb, hctx⟩ := makeLimitByContract_unbought feeExt s
  have hcaps : caps (unbought (final (makeLimitByContract feeExt s)).ctx) =
      caps (unbought s.ctx) := congrArg caps hctx
  exact .single ⟨hs.ctx.of_caps hcaps, by rw [hdb]; exact hs.block⟩

theorem keepsCaps_prepareTrx (m : TrxMetadata) : KeepsCaps r₀ (prepareTrx env node m) := by
  refine .keep (keepsCaps_initTrx hnonneg m) fun _ => ?_
  refine .keep (keepsCaps_modifyCtx fun _ => rfl) fun _ => ?_
  refine .keep (.whenever fun _ =>
    keepsCaps_quietly env (quietly_checkAuthorization _ _ _ _ _)) fun _ => .whenever fun _ => ?_
  refine .get_bind fun s _ => ?_
  dsimp only
  split
  · exact .keep (.still final_raise) fun _ => keepsCaps_makeFeeAct _
  · exact .keep (.still final_raise) fun _ => .keep (.still final_raise)
      fun _ => .keep (.still final_require) fun _ =>
        .keep (.still final_raise) fun _ => keepsCaps_makeLimitByContract _

theorem keepsCaps_prepareScheduled (g : GeneratedTransaction) :
    KeepsCaps r₀ (prepareScheduled env node g) := by
  refine .get_bind fun s _ => .keep (.still final_raise) fun _ => ?_
  refine .keep (.get_bind fun s' _ => ?_) fun _ => ?_
  · refine .keep (.whenever fun _ => .throw _) fun _ => ?_
    exact .keep (keepsCaps_modifyCtx fun _ => rfl) fun _ => keepsCaps_init hnonneg _
  refine .keep ?_ fun _ => .get_bind fun _ _ => .whenever fun _ => .still final_raise
  unfold scheduledFee
  split
  · exact .keep (.still final_raise) fun _ => keepsCaps_makeFeeAct _
  · exact keepsCaps_makeLimitByContract _

end

theorem keepsCaps_exec : KeepsCaps r₀ (exec env node) := by
  have hstable : Stable (Step env) (CappedState (σ := σ) r₀) := fun _ _ => cappedState_step
  exact fun s hs => .single (hstable.run (moves_exec s) hs)

/-- `finalize` up to the billing, with the context that is billed. -/
def finalizeChecks (env : Env σ) (node : Node) : ExecM σ Context := do
  let c := (← get).ctx
  require (c.isInitialized = true) .transaction "must first initialize"
  whenever (c.isInput = true) ((c.trx.actions.flatMap (·.authorization)).forM (usePermission env))
  (flatSet c.validateRamUsage).forM fun a => do
    let t := (← get).db.tables
    onResources (verifyAccountRamUsage a (getAccountRamLimit t a))
  let r := (← get).db.resources
  let b ← raise (maxBandwidthBilledAccountsCanPay node false r c.billToAccounts)
  modifyCtx (finalLimits b)
  checkNetUsage node
  let _ ← updateBilledCpuTime
  let c := (← get).ctx
  validateCpuUsageToBill node c.billedCpuTimeUs true
  raise (checkLimitByContract c)
  pure c

theorem finalize_eq (env : Env σ) (node : Node) :
    finalize env node = finalizeChecks env node >>= fun c =>
      onResources (addTransactionUsage c.billToAccounts c.billedCpuTimeUs c.netUsage
        env.pendingSlot) := by
  simp only [finalize, finalizeChecks, bind_assoc, pure_bind]

/-- What the billed accounts can pay lowers the limits at the end. -/
structure Final (b : Bandwidth) (c c' : Context) : Prop where
  accounts : c'.billToAccounts = c.billToAccounts
  net : c'.netLimit ≤ c.netLimit
  netPaid : c'.netLimit ≤ b.accountNetLimit.toNat
  eager : c'.eagerNetLimit = c'.netLimit
  cpu : c'.objectiveDurationLimit ≤ c.objectiveDurationLimit
  cpuPaid : c'.objectiveDurationLimit ≤ b.accountCpuLimit
  initial : c'.initialObjectiveDurationLimit = c.initialObjectiveDurationLimit

theorem final_finalLimits (b : Bandwidth) (c : Context) : Final b c (finalLimits b c) := by
  unfold finalLimits
  extract_lets c0 c1 c2
  have hnet : c1.netLimit ≤ c.netLimit ∧ c1.netLimit ≤ b.accountNetLimit.toNat ∧
      c1.objectiveDurationLimit = c.objectiveDurationLimit ∧
      c1.billToAccounts = c.billToAccounts ∧
      c1.initialObjectiveDurationLimit = c.initialObjectiveDurationLimit := by
    by_cases hle : b.accountNetLimit.toNat ≤ c0.netLimit
    · rw [show c1 = _ from if_pos hle]
      exact ⟨hle, le_rfl, rfl, rfl, rfl⟩
    · rw [show c1 = c0 from if_neg hle]
      exact ⟨le_rfl, Nat.le_of_not_le hle, rfl, rfl, rfl⟩
  obtain ⟨hnet, hnetPaid, hcpu, haccounts, hinitial⟩ := hnet
  by_cases hle : b.accountCpuLimit ≤ c1.objectiveDurationLimit
  · rw [show c2 = _ from if_pos hle]
    exact ⟨haccounts, hnet, hnetPaid, rfl, hcpu ▸ hle, le_rfl, hinitial⟩
  · rw [show c2 = c1 from if_neg hle]
    exact ⟨haccounts, hnet, hnetPaid, rfl, hcpu.le, Int.le_of_lt (Int.not_le.mp hle), hinitial⟩

theorem keepsCaps_finalizeChecks : KeepsCaps r₀ (finalizeChecks env node) := by
  refine .get_bind fun s _ => .keep (.still final_require) fun _ => ?_
  refine .keep (.whenever fun _ => .forM stable_caps fun auth _ =>
    .get_bind fun _ _ => .keep (.still final_raise) fun _ =>
      .modify fun _ hs => ⟨hs.ctx, hs.block⟩) fun _ => ?_
  refine .keep (.forM stable_caps fun a _ => .get_bind fun _ _ =>
    .zoom fun s' hs' => ⟨hs'.ctx, ?_⟩) fun _ => ?_
  · rw [final_verifyAccountRamUsage]
    exact hs'.block
  refine .get_bind fun s' _ => .keep (.still final_raise) fun b => ?_
  refine .keep (.modify fun s'' hs => ⟨?_, hs.block⟩) fun _ => ?_
  · have hf := final_finalLimits b s''.ctx
    exact ⟨hf.accounts ▸ hs.ctx.accounts, hf.net.trans hs.ctx.net, hf.cpu.trans hs.ctx.cpu,
      hf.initial ▸ hs.ctx.initial⟩
  refine .keep (.still (final_checkNetUsage node)) fun _ => ?_
  refine .keep (.get_bind fun s'' _ => ?_) fun _ => .get_bind fun s'' _ => ?_
  · split
    · exact .pure _
    · exact .keep (keepsCaps_modifyCtx fun _ => rfl) fun _ => .pure _
  exact .keep (.still (final_validateCpuUsageToBill node _ true)) fun _ =>
    .keep (.still final_raise) fun _ => .pure _

/-- What the last part of a computation that returned leaves alone. -/
structure Beside (s s' : ExecState σ) : Prop where
  ctx : s'.ctx = s.ctx
  resources : s'.db.resources = s.db.resources

theorem Beside.trans {a b c : ExecState σ} (h : Beside a b) (h' : Beside b c) : Beside a c :=
  ⟨h'.ctx.trans h.ctx, h'.resources.trans h.resources⟩

theorem beside_ok {α : Type} {x : ExecM σ α} (h : Moves Beside (fun _ => True) x) {a : α}
    (hr : x s = .ok a s') : Beside s s' := by
  have hsteps := h s trivial
  rw [hr] at hsteps
  exact run_rel (R := Beside) (fun _ => ⟨rfl, rfl⟩) (fun _ _ _ hab hbc => hab.trans hbc) hsteps

theorem beside_usePermission (auth : PermissionLevel) :
    Moves Beside (fun _ => True) (usePermission env auth) :=
  .get_bind fun _ _ => .chain (.still final_raise) fun _ =>
    .modify fun _ _ => ⟨rfl, rfl⟩

theorem updateBilledCpuTime_ok {n : Nat} (h : updateBilledCpuTime s = .ok n s') :
    ∃ billedUs, s' = { s with ctx := { s.ctx with billedCpuTimeUs := billedUs } } := by
  rw [updateBilledCpuTime, get_bind] at h
  split at h
  · cases h
    exact ⟨s.ctx.billedCpuTimeUs, rfl⟩
  · cases h
    exact ⟨_, rfl⟩

theorem checkNetUsage_ok {u : Unit} (hskip : node.skipTrxChecks = false)
    (h : checkNetUsage node s = .ok u s') : s.ctx.netUsage ≤ s.ctx.eagerNetLimit ∧ s' = s := by
  have hsame := final_checkNetUsage node s
  rw [h] at hsame
  refine ⟨?_, hsame⟩
  rw [checkNetUsage, get_bind] at h
  split at h
  · obtain hs | hle := ‹_ ∨ _›
    · rw [hskip] at hs
      cases hs
    · exact hle
  · split_ifs at h
    · cases h
    · cases h
    · cases h

theorem validateCpuUsageToBill_ok {u : Unit} {billedUs : Nat} {checkMinimum : Bool}
    (hskip : node.skipTrxChecks = false)
    (h : validateCpuUsageToBill node billedUs checkMinimum s = .ok u s') :
    (billedUs : Int) ≤ s.ctx.objectiveDurationLimit ∧ s' = s := by
  have hsame := final_validateCpuUsageToBill node billedUs checkMinimum s
  rw [h] at hsame
  refine ⟨?_, hsame⟩
  rw [validateCpuUsageToBill, get_bind, hskip, if_neg Bool.false_ne_true] at h
  obtain ⟨-, h⟩ := require_bind_inv h
  split_ifs at h
  · exact (require_ok h).1
  · exact (require_ok h).1
  · exact (require_ok h).1

/-- **THE CHECKS** of `finalize`: the bill is within the limits of the
    transaction and within what the billed accounts can pay. -/
structure Payable (node : Node) (r : Resources) (c₀ c : Context) (b : Bandwidth) : Prop where
  bandwidth : maxBandwidthBilledAccountsCanPay node false r c.billToAccounts = .ok b
  accounts : c.billToAccounts = c₀.billToAccounts
  net : c.netUsage ≤ c₀.netLimit
  netPaid : c.netUsage ≤ b.accountNetLimit.toNat
  cpu : (c.billedCpuTimeUs : Int) ≤ c₀.objectiveDurationLimit
  cpuPaid : (c.billedCpuTimeUs : Int) ≤ b.accountCpuLimit

theorem finalizeChecks_ok {c : Context} (hskip : node.skipTrxChecks = false)
    (h : finalizeChecks env node s = .ok c s') :
    s'.db.resources = s.db.resources ∧ ∃ b, Payable node s.db.resources s.ctx c b := by
  unfold finalizeChecks at h
  rw [get_bind] at h
  obtain ⟨-, k1⟩ := require_bind_inv h
  obtain ⟨_, s2, huse, k2⟩ := bind_ok_inv k1
  have h2 : Beside s s2 := beside_ok (.whenever fun _ => .forM stable_true fun auth _ =>
    beside_usePermission auth) huse
  obtain ⟨_, s3, hram, k3⟩ := bind_ok_inv k2
  have h3 : Beside s2 s3 := beside_ok (.forM stable_true fun a _ => .get_bind fun _ _ =>
    .zoom fun s' _ => ⟨rfl, final_verifyAccountRamUsage _ _ _⟩) hram
  obtain ⟨hctx, hres⟩ := h2.trans h3
  rw [get_bind] at k3
  obtain ⟨b, hb, k4⟩ := raise_bind_inv k3
  rw [modifyCtx_bind] at k4
  obtain ⟨_, s5, hnet, k5⟩ := bind_ok_inv k4
  obtain ⟨hnetLe, rfl⟩ := checkNetUsage_ok hskip hnet
  obtain ⟨_, s6, hbilled, k6⟩ := bind_ok_inv k5
  obtain ⟨billedUs, rfl⟩ := updateBilledCpuTime_ok hbilled
  rw [get_bind] at k6
  obtain ⟨_, s7, hcpu, k7⟩ := bind_ok_inv k6
  obtain ⟨hcpuLe, rfl⟩ := validateCpuUsageToBill_ok hskip hcpu
  obtain ⟨_, -, k8⟩ := raise_bind_inv k7
  cases k8
  have hf := final_finalLimits b s.ctx
  dsimp only at hnetLe hcpuLe
  rw [hctx] at hnetLe hcpuLe
  rw [hf.eager] at hnetLe
  rw [hres, ← hf.accounts] at hb
  dsimp only
  rw [hctx]
  exact ⟨hres, b, hb, hf.accounts, hnetLe.trans hf.net, hnetLe.trans hf.netPaid,
    hcpuLe.trans hf.cpu, hcpuLe.trans hf.cpuPaid⟩

end Caps

end Allowance
