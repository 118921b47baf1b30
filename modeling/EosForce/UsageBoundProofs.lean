import EosForce.AllowanceProofs
import Mathlib.Data.List.Induction

/-! # The bound of a moving average

    An accumulator is fed with units, period by period.  Within a period every
    addition is rounded up; from one period to the next the value loses at
    least one part in the length of the window and is rounded down.  If no
    period brings more than `M` units in `k` additions, the value stays below
    the fixed point of these two, and as long as that bound times the window
    fits into `uint64_t` none of the checks of `add` throws. -/

namespace UsageBound

open ChainTypes Resource Allowance

/-- A call of `add`. -/
structure Use where
  units : Nat
  ordinal : Nat

/-- The units of one period. -/
def unitsAt (uses : List Use) (ordinal : Nat) : Nat :=
  ((uses.filter fun x => x.ordinal = ordinal).map (·.units)).sum

/-- The number of additions in one period. -/
def addsAt (uses : List Use) (ordinal : Nat) : Nat :=
  uses.countP fun x => x.ordinal = ordinal ∧ 0 < x.units

/-- Periods do not go back, and each brings at most `M` units in at most `k`
    additions. -/
structure Modest (M k : Nat) (uses : List Use) : Prop where
  ordered : uses.Pairwise fun x y => x.ordinal ≤ y.ordinal
  units : ∀ ordinal, unitsAt uses ordinal ≤ M
  adds : ∀ ordinal, addsAt uses ordinal ≤ k

/-- The accumulator after one call; one that throws has changed nothing. -/
def afterAdd (windowSize : Nat) (u : UsageAccumulator) (x : Use) : UsageAccumulator :=
  match u.add x.units x.ordinal windowSize with
  | .ok u' => u'
  | .error _ => u

/-- A fresh accumulator after some calls. -/
def afterAdds (windowSize : Nat) (uses : List Use) : UsageAccumulator :=
  uses.foldl (afterAdd windowSize) {}

/-! ## Counting -/

section Count

variable {M k : Nat} {done rest : List Use} {x : Use}

theorem unitsAt_snoc (done : List Use) (x : Use) (ordinal : Nat) :
    unitsAt (done ++ [x]) ordinal =
      unitsAt done ordinal + if x.ordinal = ordinal then x.units else 0 := by
  unfold unitsAt
  rw [List.filter_append, List.map_append, List.sum_append]
  congr 1
  by_cases h : x.ordinal = ordinal
  · simp [h]
  · simp [h]

theorem addsAt_snoc (done : List Use) (x : Use) (ordinal : Nat) :
    addsAt (done ++ [x]) ordinal =
      addsAt done ordinal + if x.ordinal = ordinal ∧ 0 < x.units then 1 else 0 := by
  unfold addsAt
  rw [List.countP_append, List.countP_singleton]
  congr 1
  simp only [decide_eq_true_eq]

theorem Modest.front (h : Modest M k (done ++ rest)) : Modest M k done := by
  have hsub : done.Sublist (done ++ rest) := List.sublist_append_left _ _
  refine ⟨h.ordered.sublist hsub, ?_, ?_⟩
  · intro ordinal
    refine Nat.le_trans ?_ (h.units ordinal)
    unfold unitsAt
    rw [List.filter_append, List.map_append, List.sum_append]
    exact Nat.le_add_right _ _
  · intro ordinal
    exact Nat.le_trans hsub.countP_le (h.adds ordinal)

/-- The units of the last call. -/
theorem Modest.units_le (h : Modest M k (done ++ [x])) : x.units ≤ M := by
  have := h.units x.ordinal
  rw [unitsAt_snoc, if_pos rfl] at this
  omega

end Count

/-! ## One call -/

section Call

variable {W M k : Nat} {u u' : UsageAccumulator}

/-- What a call adds, rounded up at most once. -/
theorem contribution_mul_le (units : Nat) (hW : 0 < W) :
    contribution units W * W ≤
      units * rateLimitingPrecision + if 0 < units then W - 1 else 0 := by
  unfold contribution
  by_cases h : 0 < units
  · have := (integerDivideCeil_bounds (units * rateLimitingPrecision) hW).2
    rw [if_pos h]
    omega
  · simp [Nat.eq_zero_of_not_pos h, integerDivideCeil_zero]

/-- The bound of the value. -/
def limit (W M k : Nat) : Nat := M * rateLimitingPrecision + k * W

/-- **THE INVARIANT**: the value is below what the last period started with at
    most, and what that period has brought so far. -/
structure Tracked (W M k : Nat) (done : List Use) (u : UsageAccumulator) : Prop where
  value : u.valueEx * W ≤ limit W M k * (W - 1) +
    unitsAt done u.lastOrdinal * rateLimitingPrecision + addsAt done u.lastOrdinal * (W - 1)
  consumed : u.consumed ≤ limit W M k / rateLimitingPrecision + 1 + unitsAt done u.lastOrdinal
  ordinal : u.lastOrdinal = 0 ∨ ∃ x ∈ done, x.ordinal = u.lastOrdinal

theorem tracked_fresh : Tracked W M k [] {} := by
  refine ⟨?_, Nat.zero_le _, .inl rfl⟩
  rw [Nat.zero_mul]
  exact Nat.zero_le _

variable {done : List Use} {x : Use}

section

variable (h : Tracked W M k done u)
include h

/-- **THE FIXED POINT**: the invariant keeps the value below the bound. -/
theorem Tracked.value_le (hm : Modest M k done) (hW : 0 < W) : u.valueEx ≤ limit W M k := by
  have hunits := Nat.mul_le_mul_right rateLimitingPrecision (hm.units u.lastOrdinal)
  have hadds := Nat.mul_le_mul_right (W - 1) (hm.adds u.lastOrdinal)
  have hk : k * (W - 1) ≤ k * W := Nat.mul_le_mul_left k (Nat.sub_le W 1)
  refine Nat.le_of_mul_le_mul_right ?_ hW
  calc u.valueEx * W
      ≤ limit W M k * (W - 1) + (M * rateLimitingPrecision + k * W) := by
        have := h.value
        omega
    _ = limit W M k * (W - 1 + 1) := (Nat.mul_succ _ _).symm
    _ = limit W M k * W := by rw [Nat.sub_add_cancel hW]

/-- A call that throws only adds to what the period has brought. -/
theorem Tracked.skip (x : Use) : Tracked W M k (done ++ [x]) u := by
  have hunits : unitsAt done u.lastOrdinal ≤ unitsAt (done ++ [x]) u.lastOrdinal := by
    rw [unitsAt_snoc]
    exact Nat.le_add_right _ _
  have hadds : addsAt done u.lastOrdinal ≤ addsAt (done ++ [x]) u.lastOrdinal := by
    rw [addsAt_snoc]
    exact Nat.le_add_right _ _
  refine ⟨?_, ?_, ?_⟩
  · have h1 := Nat.mul_le_mul_right rateLimitingPrecision hunits
    have h2 := Nat.mul_le_mul_right (W - 1) hadds
    have := h.value
    omega
  · have := h.consumed
    omega
  · rcases h.ordinal with hzero | ⟨y, hy, hord⟩
    · exact .inl hzero
    · exact .inr ⟨y, List.mem_append_left _ hy, hord⟩

/-- A call that returns keeps the invariant. -/
theorem Tracked.add (hm : Modest M k done) (hW : 0 < W)
    (hadd : u.add x.units x.ordinal W = .ok u') : Tracked W M k (done ++ [x]) u' := by
  obtain ⟨v, hdecay, rfl⟩ := add_ok_inv hadd
  have hlast : (x : Use) ∈ done ++ [x] := List.mem_append_right _ (List.mem_singleton_self _)
  have hcontrib := contribution_mul_le x.units hW
  have hcount : (if 0 < x.units then W - 1 else 0) = (if 0 < x.units then 1 else 0) * (W - 1) := by
    split
    · rw [Nat.one_mul]
    · rw [Nat.zero_mul]
  rw [hcount] at hcontrib
  suffices hends : v.lastOrdinal = x.ordinal ∧
      (v.valueEx + contribution x.units W) * W ≤ limit W M k * (W - 1) +
        unitsAt (done ++ [x]) v.lastOrdinal * rateLimitingPrecision +
        addsAt (done ++ [x]) v.lastOrdinal * (W - 1) ∧ v.consumed + x.units ≤
        limit W M k / rateLimitingPrecision + 1 + unitsAt (done ++ [x]) v.lastOrdinal from
    ⟨hends.2.1, hends.2.2, .inr ⟨x, hlast, hends.1.symm⟩⟩
  rcases decayTo_cases hdecay with ⟨hord, rfl⟩ | ⟨hord, -, hvalue, hconsumed⟩
  · -- the same period goes on
    have hunits : unitsAt (done ++ [x]) v.lastOrdinal = unitsAt done v.lastOrdinal + x.units := by
      rw [unitsAt_snoc, if_pos hord.symm]
    have hadds : addsAt (done ++ [x]) v.lastOrdinal =
        addsAt done v.lastOrdinal + if 0 < x.units then 1 else 0 := by
      rw [addsAt_snoc]
      simp only [hord, true_and]
    refine ⟨hord, ?_, ?_⟩
    · rw [hunits, hadds, Nat.add_mul, Nat.add_mul, Nat.add_mul]
      have := h.value
      omega
    · rw [hunits]
      have := h.consumed
      omega
  · -- a new period starts from what is left
    have hunits : x.units ≤ unitsAt (done ++ [x]) v.lastOrdinal := by
      rw [unitsAt_snoc, if_pos hord.symm]
      exact Nat.le_add_left _ _
    have hadds : (if 0 < x.units then 1 else 0) ≤ addsAt (done ++ [x]) v.lastOrdinal := by
      rw [addsAt_snoc]
      simp only [hord, true_and]
      exact Nat.le_add_left _ _
    have hstart : v.valueEx * W ≤ limit W M k * (W - 1) :=
      Nat.le_trans hvalue (Nat.mul_le_mul_right _ (h.value_le hm hW))
    refine ⟨hord, ?_, ?_⟩
    · have h1 := Nat.mul_le_mul_right rateLimitingPrecision hunits
      have h2 := Nat.mul_le_mul_right (W - 1) hadds
      rw [Nat.add_mul]
      omega
    · have hle : v.valueEx ≤ limit W M k := by
        refine Nat.le_of_mul_le_mul_right (Nat.le_trans hstart ?_) hW
        exact Nat.mul_le_mul_left _ (Nat.sub_le W 1)
      have hceil : integerDivideCeil v.valueEx rateLimitingPrecision ≤
          limit W M k / rateLimitingPrecision + 1 := by
        have := Nat.div_le_div_right (c := rateLimitingPrecision) hle
        unfold integerDivideCeil
        split <;> omega
      rw [hconsumed]
      omega

/-- **NO CHECK FAILS** while the bound times the window fits. -/
theorem Tracked.add_ok (hm : Modest M k (done ++ [x])) (hW : 2 ≤ W)
    (hfits : limit W M k ≤ (2 ^ 64 - 1) / W) : ∃ u', u.add x.units x.ordinal W = .ok u' := by
  have hW' : 0 < W := by omega
  have hmax : limit W M k * W ≤ 2 ^ 64 - 1 := (Nat.le_div_iff_mul_le hW').mp hfits
  have htwice : limit W M k * 2 ≤ 2 ^ 64 - 1 := Nat.le_trans (Nat.mul_le_mul_left _ hW) hmax
  have hvalue := h.value_le hm.front hW'
  have hunits := hm.units_le
  have hraw : x.units * rateLimitingPrecision ≤ limit W M k :=
    Nat.le_trans (Nat.mul_le_mul_right _ hunits) (Nat.le_add_right _ _)
  have hcontrib : contribution x.units W ≤ limit W M k :=
    Nat.le_trans (contribution_le hW') hraw
  have hconsumed := h.consumed
  have hbrought := hm.front.units u.lastOrdinal
  have hM : M * rateLimitingPrecision ≤ limit W M k := Nat.le_add_right _ _
  have hdecay : ∃ v, u.decayTo x.ordinal W = .ok v := by
    unfold UsageAccumulator.decayTo
    by_cases hord : u.lastOrdinal = x.ordinal
    · exact ⟨u, if_pos hord⟩
    · have hle : u.lastOrdinal ≤ x.ordinal := by
        rcases h.ordinal with hzero | ⟨y, hy, hyord⟩
        · rw [hzero]
          exact Nat.zero_le _
        · rw [← hyord]
          exact (List.pairwise_append.mp hm.ordered).2.2 y hy x (List.mem_singleton_self x)
      have hlater : u.lastOrdinal < x.ordinal := Nat.lt_of_le_of_ne hle hord
      rw [if_neg hord]
      by_cases hin : x.ordinal < u.lastOrdinal + W
      · have hleft : u.valueEx ≤ uint64Max / (W - (x.ordinal - u.lastOrdinal)) := by
          rw [Nat.le_div_iff_mul_le (by omega)]
          exact Nat.le_trans (Nat.mul_le_mul hvalue (Nat.sub_le _ _)) hmax
        rw [if_pos hin]
        exact ⟨_, eosAssert_bind_ok_iff.mpr ⟨hlater, eosAssert_bind_ok_iff.mpr ⟨.inr hleft, rfl⟩⟩⟩
      · rw [if_neg hin]
        exact ⟨_, eosAssert_bind_ok_iff.mpr ⟨hlater, rfl⟩⟩
  obtain ⟨v, hv⟩ := hdecay
  have hfirst : x.units ≤ uint64Max / rateLimitingPrecision := by
    rw [Nat.le_div_iff_mul_le (by decide)]
    unfold uint64Max
    omega
  have hsum : x.units ≤ uint64Max - u.consumed := by
    unfold uint64Max
    unfold rateLimitingPrecision at hconsumed hM
    omega
  have hcast : contribution x.units W ≤ uint64Max := by
    unfold uint64Max
    omega
  have hadded : contribution x.units W ≤ uint64Max - u.valueEx := by
    unfold uint64Max
    omega
  unfold UsageAccumulator.add
  rw [hv]
  exact ⟨_, eosAssert_bind_ok_iff.mpr ⟨hfirst, eosAssert_bind_ok_iff.mpr ⟨hsum,
    eosAssert_bind_ok_iff.mpr ⟨hcast, eosAssert_bind_ok_iff.mpr ⟨hadded, rfl⟩⟩⟩⟩⟩

end

end Call

/-! ## Sequences of calls -/

/-- Every prefix of the calls keeps the invariant. -/
theorem tracked_afterAdds {W M k : Nat} (hW : 0 < W) (done : List Use) :
    Modest M k done → Tracked W M k done (afterAdds W done) := by
  induction done using List.reverseRecOn with
  | nil =>
    intro _
    exact tracked_fresh
  | append_singleton done x ih =>
    intro hm
    have h := ih hm.front
    rw [afterAdds, List.foldl_append]
    show Tracked W M k (done ++ [x]) (afterAdd W (afterAdds W done) x)
    cases hadd : (afterAdds W done).add x.units x.ordinal W with
    | error e =>
      rw [afterAdd, hadd]
      exact h.skip x
    | ok u' =>
      rw [afterAdd, hadd]
      exact h.add hm.front hW hadd

/-- **THE MOVING AVERAGE IS BOUNDED**: after every call of a modest sequence the
    value is at most `M * P + k * W`, and if that fits into `uint64_t` with the
    window as a factor, no call throws. -/
theorem moving_average_bounded {W M k : Nat} {uses : List Use} (hW : 2 ≤ W)
    (hm : Modest M k uses) :
    (∀ done rest, uses = done ++ rest →
        (afterAdds W done).valueEx ≤ M * rateLimitingPrecision + k * W) ∧
      (M * rateLimitingPrecision + k * W ≤ (2 ^ 64 - 1) / W →
        ∀ done x rest, uses = done ++ x :: rest →
          ∃ u', (afterAdds W done).add x.units x.ordinal W = .ok u') := by
  constructor
  · rintro done rest rfl
    exact (tracked_afterAdds (by omega) done hm.front).value_le hm.front (by omega)
  · rintro hfits done x rest rfl
    rw [List.append_cons] at hm
    exact (tracked_afterAdds (by omega) done hm.front.front).add_ok hm.front hW hfits

/-- Two periods of two additions each. -/
def someUses : List Use := [⟨3, 5⟩, ⟨4, 5⟩, ⟨7, 9⟩, ⟨0, 9⟩]

theorem modest_someUses : Modest 7 2 someUses := by
  have hsplit : ∀ ordinal, ordinal = 5 ∨ ordinal = 9 ∨ (¬ 5 = ordinal ∧ ¬ 9 = ordinal) := by
    intro ordinal
    omega
  refine ⟨by simp [someUses], ?_, ?_⟩
  · intro ordinal
    rcases hsplit ordinal with rfl | rfl | ⟨h5, h9⟩
    · decide
    · decide
    · simp [unitsAt, someUses, h5, h9]
  · intro ordinal
    rcases hsplit ordinal with rfl | rfl | ⟨h5, h9⟩
    · decide
    · decide
    · simp [addsAt, someUses, h5, h9]

theorem someUses_bounded : (afterAdds 10 someUses).valueEx ≤ 7 * rateLimitingPrecision + 2 * 10 :=
  (moving_average_bounded (by decide) modest_someUses).1 someUses [] rfl

end UsageBound
