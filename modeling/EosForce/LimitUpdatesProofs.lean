import EosForce.ResourceProofs
import EosForce.RowTableProofs
import Mathlib.Data.List.MinMax

/-! # Staged resource limits

    New limits of an account are not taken at once.  `set_account_limits`
    writes them to a second row of the account, marked as pending;
    `process_account_limit_updates` later folds the pending rows one by one
    into the actual ones and keeps three totals: the sums of the limits over
    all actual rows, where a negative limit means none and counts as zero.

    The totals are the exact sums after any sequence of calls, so the old value
    of a row can always be taken off; adding the new one throws only where the
    exact sum leaves `uint64_t`. -/

namespace LimitUpdates

open ChainTypes TrxTypes Effect Resource RowTable

/-! ## The tables -/

/-- The limits of a `resource_limits_object`. -/
structure Limits where
  netWeight : Int := -1
  cpuWeight : Int := -1
  ramBytes : Int := -1
deriving DecidableEq, Repr

/-- `resource_limits_object`. -/
structure LimitsRow where
  owner : Name
  pending : Bool := false
  values : Limits := {}
deriving DecidableEq, Repr

/-- The key of `by_owner`. -/
def LimitsRow.key (r : LimitsRow) : Bool × Name := (r.pending, r.owner)

/-- The totals of `resource_limits_state_object`. -/
structure Totals where
  totalNetWeight : Nat := 0
  totalCpuWeight : Nat := 0
  totalRamBytes : Nat := 0
deriving DecidableEq, Repr

/-- The tables that limits are kept in; of the usage rows only the owners. -/
structure LimitTables where
  limits : Table LimitsRow.key
  usageOwners : List Name := []
  totals : Totals := {}

abbrev LimitM := EStateM FcException LimitTables

/-! ## The calls -/

/-- `db.create<resource_limits_object>`. -/
def createLimits (r : LimitsRow) : LimitM Unit := do
  let s ← get
  if h : s.limits.find r.key = none then set { s with limits := s.limits.insert r h }
  else throw ⟨.uniqueness,
    "could not insert object, most likely a uniqueness constraint was violated"⟩

/-- `initialize_account`. -/
def initializeAccount (account : Name) : LimitM Unit := do
  createLimits { owner := account }
  let s ← get
  require (account ∉ s.usageOwners) .uniqueness
    "could not insert object, most likely a uniqueness constraint was violated"
  set { s with usageOwners := s.usageOwners ++ [account] }

/-- `find_or_create_pending_limits`. -/
def findOrCreatePendingLimits (account : Name) : LimitM LimitsRow := do
  let s ← get
  match s.limits.find (true, account) with
  | some p => pure p
  | none => do
      let limits ← orThrow (s.limits.find (false, account)) ⟨.keyNotFound, "unknown key"⟩
      createLimits { limits with pending := true }
      pure { limits with pending := true }

/-- The row with other limits. -/
def LimitsRow.withValues (v : Limits) (r : LimitsRow) : LimitsRow := { r with values := v }

theorem LimitsRow.key_withValues (v : Limits) (r : LimitsRow) :
    (LimitsRow.withValues v r).key = r.key := rfl

variable (t : Table LimitsRow.key)

/-- `db.modify` of the limits of a row. -/
def assign (k : Bool × Name) (v : Limits) : Table LimitsRow.key :=
  t.modify k (LimitsRow.withValues v) (LimitsRow.key_withValues v)

/-- `set_account_limits`; the result says whether the RAM limit was lowered. -/
def setAccountLimits (account : Name) (ramBytes netWeight cpuWeight : Int) : LimitM Bool := do
  let limits ← findOrCreatePendingLimits account
  let decreasedLimit := decide (0 ≤ ramBytes ∧
    (limits.values.ramBytes < 0 ∨ ramBytes < limits.values.ramBytes))
  modify fun s => { s with
    limits := assign s.limits (true, account) ⟨netWeight, cpuWeight, ramBytes⟩ }
  pure decreasedLimit

def underflow : FcException :=
  ⟨.rateLimitingStateInconsistent, "underflow when reverting old value to $\x7bwhich\x7d"⟩

def overflow : FcException :=
  ⟨.rateLimitingStateInconsistent, "overflow when applying new value to $\x7bwhich\x7d"⟩

/-- The old value is taken off. -/
def revertValue (total : Nat) (value : Int) : Except FcException Nat :=
  if 0 < value then do
    eosAssert (value.toNat ≤ total) underflow.type underflow.what
    pure (total - value.toNat)
  else pure total

/-- The new value is put on. -/
def applyValue (total : Nat) (pendingValue : Int) : Except FcException Nat :=
  if 0 < pendingValue then do
    eosAssert (pendingValue.toNat ≤ uint64Max - total) overflow.type overflow.what
    pure (total + pendingValue.toNat)
  else pure total

/-- `update_state_and_value`: the new total. -/
def updateTotal (total : Nat) (value pendingValue : Int) : Except FcException Nat := do
  let reverted ← revertValue total value
  applyValue reverted pendingValue

/-- The three totals, in the order of the source. -/
def updateTotals (t : Totals) (old new : Limits) : Except FcException Totals := do
  let ram ← updateTotal t.totalRamBytes old.ramBytes new.ramBytes
  let cpu ← updateTotal t.totalCpuWeight old.cpuWeight new.cpuWeight
  let net ← updateTotal t.totalNetWeight old.netWeight new.netWeight
  pure ⟨net, cpu, ram⟩

/-- `lower_bound( true )` of `by_owner`: the first pending row. -/
def firstPending : Option LimitsRow :=
  (t.rows.filter fun r => r.pending).argmin fun r => r.owner.value.toNat

/-- The rows after a pending row was folded in. -/
def settle (p : LimitsRow) : Table LimitsRow.key :=
  (assign t (false, p.owner) p.values).erase (true, p.owner)

/-- The loop of `process_account_limit_updates`. -/
def foldPending : Nat → LimitM Unit
  | 0 => throw ⟨.undefinedBehaviour, "the loop does not end"⟩
  | fuel + 1 => do
      let s ← get
      match firstPending s.limits with
      | none => pure ()
      | some p => do
          let actual ← orThrow (s.limits.find (false, p.owner)) ⟨.keyNotFound, "unknown key"⟩
          let totals ← raise (updateTotals s.totals actual.values p.values)
          set { s with totals := totals, limits := settle s.limits p }
          foldPending fuel

/-- `process_account_limit_updates`. -/
def processAccountLimitUpdates : LimitM Unit := do
  let s ← get
  foldPending (s.limits.rows.length + 1)

/-! ## Sums over the actual rows -/

/-- The three limits. -/
inductive Field where
  | ramBytes
  | cpuWeight
  | netWeight

def Limits.get (v : Limits) : Field → Int
  | .ramBytes => v.ramBytes
  | .cpuWeight => v.cpuWeight
  | .netWeight => v.netWeight

def Totals.get (t : Totals) : Field → Nat
  | .ramBytes => t.totalRamBytes
  | .cpuWeight => t.totalCpuWeight
  | .netWeight => t.totalNetWeight

/-- What a row counts for: nothing if it is pending or has no limit. -/
def weight (field : Field) (r : LimitsRow) : Int :=
  if r.pending then 0 else max 0 (r.values.get field)

variable {r : LimitsRow}

theorem weight_pending {field : Field} (h : r.pending = true) : weight field r = 0 :=
  if_pos h

theorem weight_actual {field : Field} (h : r.pending = false) :
    weight field r = (r.values.get field).toNat := by
  rw [weight, h]
  show max 0 (r.values.get field) = _
  omega

theorem weight_nonneg (field : Field) (r : LimitsRow) : 0 ≤ weight field r := by
  unfold weight
  split
  · exact Int.le_refl 0
  · exact le_max_left _ _

/-- The exact sum of a limit. -/
def exactSum (field : Field) : Int := t.total (weight field)

theorem find_pending {t : Table LimitsRow.key} {b : Bool} {a : Name} (h : t.find (b, a) = some r) :
    r.pending = b ∧ r.owner = a := by
  have hkey := (Table.find_some h).2
  exact ⟨congrArg Prod.fst hkey, congrArg Prod.snd hkey⟩

theorem find_assign {t : Table LimitsRow.key} {k : Bool × Name} (h : t.find k = some r) (v : Limits)
    (k' : Bool × Name) :
    (assign t k v).find k' = if k' = k then some (r.withValues v) else t.find k' := by
  rw [assign, Table.find_modify, h]
  rfl

theorem total_assign {t : Table LimitsRow.key} {k : Bool × Name} (h : t.find k = some r)
    (v : Limits) (w : LimitsRow → Int) :
    (assign t k v).total w = t.total w - w r + w (r.withValues v) :=
  Table.total_modify h

/-! ## One total -/

theorem revertValue_eq {total : Nat} {value : Int} (h : value.toNat ≤ total) :
    revertValue total value = .ok (total - value.toNat) := by
  unfold revertValue
  split
  · rw [eosAssert, if_pos h]
    rfl
  · rw [Int.toNat_of_nonpos (by omega)]
    rfl

theorem applyValue_eq {total : Nat} {pendingValue : Int} (h : total < 2 ^ 64) :
    applyValue total pendingValue =
      if total + pendingValue.toNat < 2 ^ 64 then .ok (total + pendingValue.toNat)
      else .error overflow := by
  unfold applyValue uint64Max
  by_cases hpos : 0 < pendingValue
  · rw [if_pos hpos]
    by_cases hfit : total + pendingValue.toNat < 2 ^ 64
    · rw [if_pos hfit, eosAssert, if_pos (by omega)]
      rfl
    · rw [if_neg hfit, eosAssert, if_neg (by omega)]
      rfl
  · rw [if_neg hpos, if_pos (by omega), Int.toNat_of_nonpos (by omega)]
    rfl

/-- With the old value in it, a total ends up exact or beyond `uint64_t`. -/
theorem updateTotal_eq {total : Nat} {value : Int} (pendingValue : Int)
    (h : value.toNat ≤ total) (hfits : total < 2 ^ 64) :
    updateTotal total value pendingValue =
      if total - value.toNat + pendingValue.toNat < 2 ^ 64
      then .ok (total - value.toNat + pendingValue.toNat) else .error overflow := by
  unfold updateTotal
  rw [revertValue_eq h]
  exact applyValue_eq (by omega)

/-- The sums that a total is to have. -/
def Moved (t : Totals) (old new : Limits) (field : Field) : Nat :=
  t.get field - (old.get field).toNat + (new.get field).toNat

/-- All three totals end up exact, or one of them would leave `uint64_t`. -/
theorem updateTotals_cases {t : Totals} {old : Limits} (new : Limits)
    (h : ∀ field, (old.get field).toNat ≤ t.get field) (hfits : ∀ field, t.get field < 2 ^ 64) :
    (∃ t', updateTotals t old new = .ok t' ∧
        ∀ field, t'.get field = Moved t old new field ∧ t'.get field < 2 ^ 64) ∨
      (updateTotals t old new = .error overflow ∧
        ∃ field, 2 ^ 64 ≤ Moved t old new field) := by
  have hram := updateTotal_eq new.ramBytes (h .ramBytes) (hfits .ramBytes)
  have hcpu := updateTotal_eq new.cpuWeight (h .cpuWeight) (hfits .cpuWeight)
  have hnet := updateTotal_eq new.netWeight (h .netWeight) (hfits .netWeight)
  change updateTotal t.totalRamBytes old.ramBytes new.ramBytes =
    if Moved t old new .ramBytes < 2 ^ 64 then .ok (Moved t old new .ramBytes) else _ at hram
  change updateTotal t.totalCpuWeight old.cpuWeight new.cpuWeight =
    if Moved t old new .cpuWeight < 2 ^ 64 then .ok (Moved t old new .cpuWeight) else _ at hcpu
  change updateTotal t.totalNetWeight old.netWeight new.netWeight =
    if Moved t old new .netWeight < 2 ^ 64 then .ok (Moved t old new .netWeight) else _ at hnet
  unfold updateTotals
  rw [hram, hcpu, hnet]
  by_cases fram : Moved t old new .ramBytes < 2 ^ 64
  · rw [if_pos fram]
    by_cases fcpu : Moved t old new .cpuWeight < 2 ^ 64
    · rw [if_pos fcpu]
      by_cases fnet : Moved t old new .netWeight < 2 ^ 64
      · rw [if_pos fnet]
        refine .inl ⟨_, rfl, ?_⟩
        intro field
        cases field with
        | ramBytes => exact ⟨rfl, fram⟩
        | cpuWeight => exact ⟨rfl, fcpu⟩
        | netWeight => exact ⟨rfl, fnet⟩
      · rw [if_neg fnet]
        exact .inr ⟨rfl, .netWeight, Nat.le_of_not_lt fnet⟩
    · rw [if_neg fcpu]
      exact .inr ⟨rfl, .cpuWeight, Nat.le_of_not_lt fcpu⟩
  · rw [if_neg fram]
    exact .inr ⟨rfl, .ramBytes, Nat.le_of_not_lt fram⟩

/-! ## The invariant -/

/-- The limits that are on record for an account, pending or actual. -/
def current (a : Name) : Option Limits :=
  ((t.find (true, a)).or (t.find (false, a))).map (·.values)

/-- **THE INVARIANT**: totals are exact and fit, a pending row has an actual
    one, and what is on record is what was set last. -/
structure Staged (last : Name → Option Limits) (s : LimitTables) : Prop where
  totals : ∀ field, (s.totals.get field : Int) = exactSum s.limits field
  fits : ∀ field, s.totals.get field < 2 ^ 64
  actual : ∀ a, s.limits.find (true, a) ≠ none → s.limits.find (false, a) ≠ none
  last : ∀ a, current s.limits a = last a

/-- Nothing is set and nothing counted. -/
def blank : LimitTables := { limits := Table.empty }

theorem staged_blank : Staged (fun _ => none) blank := by
  refine ⟨?_, ?_, fun _ h => absurd rfl h, fun _ => rfl⟩
  · intro field
    cases field <;> rfl
  · intro field
    cases field <;> decide

/-! ## Staging -/

section Stage

variable {last : Name → Option Limits} {s s' : LimitTables} {a : Name}

theorem createLimits_ok (h : createLimits r s = .ok () s') :
    ∃ hfree : s.limits.find r.key = none,
      s' = { s with limits := s.limits.insert r hfree } := by
  unfold createLimits at h
  rw [get_bind] at h
  split at h
  · rename_i hfree
    cases h
    exact ⟨hfree, rfl⟩
  · cases h

theorem initializeAccount_ok (h : initializeAccount a s = .ok () s') :
    ∃ hfree : s.limits.find (LimitsRow.key { owner := a }) = none,
      s' = { s with limits := s.limits.insert { owner := a } hfree,
                    usageOwners := s.usageOwners ++ [a] } := by
  unfold initializeAccount at h
  obtain ⟨_, s1, hcreate, h⟩ := bind_ok_inv h
  obtain ⟨hfree, rfl⟩ := createLimits_ok hcreate
  rw [get_bind] at h
  obtain ⟨-, h⟩ := require_bind_inv h
  cases h
  exact ⟨hfree, rfl⟩

/-- A new account has no limit. -/
theorem Staged.initialized (h : Staged last s) (hrun : initializeAccount a s = .ok () s') :
    Staged (fun b => if b = a then some {} else last b) s' := by
  obtain ⟨hfree, rfl⟩ := initializeAccount_ok hrun
  have hfind : ∀ k, (s.limits.insert { owner := a } hfree).find k =
      if k = (false, a) then some { owner := a } else s.limits.find k :=
    fun _ => Table.find_insert
  refine ⟨?_, h.fits, ?_, ?_⟩
  · intro field
    show (s.totals.get field : Int) = (s.limits.insert { owner := a } hfree).total (weight field)
    have hzero : weight field { owner := a } = 0 := by cases field <;> rfl
    rw [Table.total_insert, hzero, Int.add_zero]
    exact h.totals field
  · intro b hb
    rw [hfind, if_neg (by simp)] at hb
    rw [hfind]
    split
    · simp
    · exact h.actual b hb
  · intro b
    unfold current
    rw [hfind, hfind, if_neg (by simp)]
    by_cases hba : b = a
    · -- without an actual row there was no pending one
      subst hba
      have hnone : s.limits.find (true, b) = none := by
        by_contra hp
        exact h.actual b hp hfree
      rw [if_pos rfl, if_pos rfl, hnone]
      rfl
    · rw [if_neg hba, if_neg (by simpa using hba)]
      exact h.last b

/-- The pending row is found, or made from the actual one. -/
theorem findOrCreatePendingLimits_ok {p : LimitsRow}
    (h : findOrCreatePendingLimits a s = .ok p s') :
    (s.limits.find (true, a) = some p ∧ s' = s) ∨
      ∃ q, s.limits.find (true, a) = none ∧ s.limits.find (false, a) = some q ∧
        ∃ hfree : s.limits.find (LimitsRow.key { q with pending := true }) = none,
          s' = { s with limits := s.limits.insert { q with pending := true } hfree } := by
  unfold findOrCreatePendingLimits at h
  rw [get_bind] at h
  cases hp : s.limits.find (true, a) with
  | some p' =>
    rw [hp] at h
    cases h
    exact .inl ⟨rfl, rfl⟩
  | none =>
    rw [hp] at h
    obtain ⟨q, hq, h⟩ := orThrow_bind_inv h
    obtain ⟨_, s1, hcreate, h⟩ := bind_ok_inv h
    cases h
    exact .inr ⟨q, rfl, hq, createLimits_ok hcreate⟩

/-- A pending row with the limits of the actual one changes nothing. -/
theorem Staged.pending (h : Staged last s) {p : LimitsRow}
    (hrun : findOrCreatePendingLimits a s = .ok p s') :
    Staged last s' ∧ ∃ p', s'.limits.find (true, a) = some p' := by
  rcases findOrCreatePendingLimits_ok hrun with ⟨hp, rfl⟩ | ⟨q, hnone, hq, hfree, rfl⟩
  · exact ⟨h, p, hp⟩
  · have howner := (find_pending hq).2
    have hfind : ∀ k, (s.limits.insert { q with pending := true } hfree).find k =
        if k = (true, a) then some { q with pending := true } else s.limits.find k := by
      intro k
      rw [Table.find_insert, LimitsRow.key, howner]
    refine ⟨⟨?_, h.fits, ?_, ?_⟩, _, by rw [hfind, if_pos rfl]⟩
    · intro field
      show (s.totals.get field : Int) = (s.limits.insert _ hfree).total (weight field)
      rw [Table.total_insert, weight_pending rfl, Int.add_zero]
      exact h.totals field
    · intro b hb
      rw [hfind, if_neg (by simp)]
      by_cases hba : b = a
      · subst hba
        rw [hq]
        simp
      · rw [hfind, if_neg (by simpa using hba)] at hb
        exact h.actual b hb
    · intro b
      rw [← h.last b]
      unfold current
      rw [hfind, hfind, if_neg (show ¬ (false, b) = (true, a) by simp)]
      by_cases hba : b = a
      · subst hba
        rw [if_pos rfl, hnone, hq]
        rfl
      · rw [if_neg (by simpa using hba)]

/-- New limits are on record. -/
theorem Staged.set (h : Staged last s) {ramBytes netWeight cpuWeight : Int} {decreased : Bool}
    (hrun : setAccountLimits a ramBytes netWeight cpuWeight s = .ok decreased s') :
    Staged (fun b => if b = a then some ⟨netWeight, cpuWeight, ramBytes⟩ else last b) s' := by
  unfold setAccountLimits at hrun
  obtain ⟨p, s1, hpending, hrun⟩ := bind_ok_inv hrun
  obtain ⟨h1, p', hp'⟩ := h.pending hpending
  cases hrun
  have hfind := find_assign hp' ⟨netWeight, cpuWeight, ramBytes⟩
  refine ⟨?_, h1.fits, ?_, ?_⟩
  · intro field
    have hw : p'.pending = true := (find_pending hp').1
    show (s1.totals.get field : Int) = (assign s1.limits _ _).total (weight field)
    have hnew : weight field (p'.withValues ⟨netWeight, cpuWeight, ramBytes⟩) = 0 :=
      weight_pending hw
    rw [total_assign hp', weight_pending hw, hnew, Int.sub_zero, Int.add_zero]
    exact h1.totals field
  · intro b hb
    rw [hfind, if_neg (by simp)]
    by_cases hba : b = a
    · subst hba
      exact h1.actual b (by rw [hp']; simp)
    · rw [hfind, if_neg (by simpa using hba)] at hb
      exact h1.actual b hb
  · intro b
    unfold current
    rw [hfind, hfind, if_neg (show ¬ (false, b) = (true, a) by simp)]
    by_cases hba : b = a
    · subst hba
      rw [if_pos rfl, if_pos rfl]
      rfl
    · rw [if_neg (by simpa using hba), if_neg hba]
      exact h1.last b

end Stage

/-! ## Folding in -/

/-- The rows after at most `k` pending rows were folded in. -/
def settled (t : Table LimitsRow.key) : Nat → Table LimitsRow.key
  | 0 => t
  | k + 1 =>
    match firstPending t with
    | none => t
    | some p => settled (settle t p) k

/-- The exact sums stay within `uint64_t` while the pending rows are folded
    in. -/
def Bounded : Prop := ∀ k field, exactSum (settled t k) field < 2 ^ 64

/-- The number of pending rows. -/
def pendingCount : Nat := t.rows.countP fun r => decide (r.pending = true)

section Fold

variable {last : Name → Option Limits} {s s' : LimitTables} {t : Table LimitsRow.key}
  {p q : LimitsRow}

theorem settled_succ (hp : firstPending t = some p) (k : Nat) :
    settled t (k + 1) = settled (settle t p) k := by
  rw [settled, hp]

theorem firstPending_some (hp : firstPending t = some p) : t.find (true, p.owner) = some p := by
  obtain ⟨hmem, hpending⟩ := List.mem_filter.mp (List.argmin_mem hp)
  have hkey : (true, p.owner) = p.key := by
    rw [LimitsRow.key, hpending]
  rw [hkey]
  exact Table.find_of_mem hmem

theorem firstPending_none (h : firstPending t = none) : ∀ r ∈ t.rows, r.pending = false := by
  intro r hr
  have hnil := List.argmin_eq_none.mp h
  cases hp : r.pending with
  | false => rfl
  | true =>
    have hmem : r ∈ t.rows.filter fun r => r.pending := List.mem_filter.mpr ⟨hr, hp⟩
    rw [hnil] at hmem
    exact absurd hmem List.not_mem_nil

theorem find_settle (hq : t.find (false, p.owner) = some q) (k : Bool × Name) :
    (settle t p).find k = if k = (true, p.owner) then none
      else if k = (false, p.owner) then some (q.withValues p.values) else t.find k := by
  rw [settle, Table.find_erase, find_assign hq]

section

variable (hp : t.find (true, p.owner) = some p) (hq : t.find (false, p.owner) = some q)
include hp hq

theorem total_settle (w : LimitsRow → Int) :
    (settle t p).total w = t.total w - w q + w (q.withValues p.values) - w p := by
  have hfind : (assign t (false, p.owner) p.values).find (true, p.owner) = some p := by
    rw [find_assign hq, if_neg (by simp)]
    exact hp
  rw [settle, Table.total_erase hfind, total_assign hq]

/-- One pending row less. -/
theorem pendingCount_settle : pendingCount (settle t p) + 1 = pendingCount t := by
  have hcount := fun t : Table LimitsRow.key =>
    Table.total_indicator (t := t) fun r => r.pending = true
  have hone := total_settle hp hq fun r => if r.pending = true then (1 : Int) else 0
  rw [hcount, hcount] at hone
  rw [if_pos (find_pending hp).1] at hone
  have hsame : (q.withValues p.values).pending = q.pending := rfl
  rw [hsame] at hone
  unfold pendingCount
  omega

/-- The exact sums after one pending row was folded in. -/
theorem exactSum_settle (field : Field) : exactSum (settle t p) field =
      exactSum t field - (q.values.get field).toNat + (p.values.get field).toNat := by
  have hqp : q.pending = false := (find_pending hq).1
  have hnew : weight field (q.withValues p.values) = (p.values.get field).toNat :=
    weight_actual (r := q.withValues p.values) hqp
  unfold exactSum
  rw [total_settle hp hq, weight_actual hqp, hnew, weight_pending (find_pending hp).1, Int.sub_zero]

end

/-- The old value of a row is part of its total: nothing underflows. -/
theorem Staged.old_le (h : Staged last s) (hq : s.limits.find (false, p.owner) = some q)
    (field : Field) : (q.values.get field).toNat ≤ s.totals.get field := by
  have hle : weight field q ≤ s.limits.total (weight field) :=
    Table.le_total (fun r _ => weight_nonneg field r) (Table.find_some hq).1
  rw [weight_actual (find_pending hq).1] at hle
  have := h.totals field
  unfold exactSum at this
  omega

/-- Folding one row in keeps the invariant. -/
theorem Staged.settle (h : Staged last s) (hp : s.limits.find (true, p.owner) = some p)
    (hq : s.limits.find (false, p.owner) = some q) {totals : Totals}
    (htotals : ∀ field, totals.get field = Moved s.totals q.values p.values field ∧
      totals.get field < 2 ^ 64) :
    Staged last { s with totals := totals, limits := LimitUpdates.settle s.limits p } := by
  refine ⟨?_, fun field => (htotals field).2, ?_, ?_⟩
  · intro field
    show (totals.get field : Int) = exactSum (LimitUpdates.settle s.limits p) field
    have hle := h.old_le hq field
    rw [exactSum_settle hp hq, ← h.totals field, (htotals field).1, Moved]
    omega
  · intro b hb
    rw [find_settle hq] at hb ⊢
    rw [if_neg (by simp)]
    split at hb
    · exact absurd rfl hb
    · rw [if_neg (by simp)] at hb
      split
      · simp
      · exact h.actual b hb
  · intro b
    rw [← h.last b]
    unfold current
    rw [find_settle hq, find_settle hq, if_neg (show ¬ (false, b) = (true, p.owner) by simp),
      if_neg (show ¬ (true, b) = (false, p.owner) by simp)]
    by_cases hb : b = p.owner
    · subst hb
      rw [if_pos rfl, if_pos rfl, hp]
      rfl
    · rw [if_neg (by simpa using hb), if_neg (by simpa using hb)]

/-- **THE LOOP** comes to its end with no pending row, or stops where an exact
    sum leaves `uint64_t`. -/
theorem foldPending_cases (fuel : Nat) :
    ∀ {s : LimitTables}, Staged last s → pendingCount s.limits < fuel →
      (∃ s', foldPending fuel s = .ok () s' ∧ Staged last s' ∧
          ∀ r ∈ s'.limits.rows, r.pending = false) ∨
        ((∃ s', foldPending fuel s = .error overflow s') ∧ ¬ Bounded s.limits) := by
  induction fuel with
  | zero =>
    intro s _ hfuel
    exact absurd hfuel (Nat.not_lt_zero _)
  | succ fuel ih =>
    intro s h hfuel
    unfold foldPending
    rw [get_bind]
    cases hfirst : firstPending s.limits with
    | none => exact .inl ⟨s, rfl, h, firstPending_none hfirst⟩
    | some p =>
      have hp := firstPending_some hfirst
      obtain ⟨q, hq⟩ := Option.ne_none_iff_exists'.mp (h.actual p.owner (by rw [hp]; simp))
      dsimp only
      have hget : (orThrow (s.limits.find (false, p.owner)) ⟨.keyNotFound, "unknown key"⟩ :
          LimitM LimitsRow) s = .ok q s := by
        rw [hq]
        rfl
      rw [bind_ok hget]
      rcases updateTotals_cases p.values (h.old_le hq) h.fits with
        ⟨totals, hok, htotals⟩ | ⟨herr, field, hbig⟩
      · have hraise : (raise (updateTotals s.totals q.values p.values) : LimitM Totals) s =
            .ok totals s := by
          rw [hok]
          rfl
        rw [bind_ok hraise, set_bind]
        have hcount := pendingCount_settle hp hq
        rcases ih (h.settle hp hq htotals)
          (by show pendingCount (settle s.limits p) < fuel; omega) with
          hdone | ⟨herr, hnot⟩
        · exact .inl hdone
        · refine .inr ⟨herr, ?_⟩
          intro hbounded
          refine hnot ?_
          intro k field
          have := hbounded (k + 1) field
          rwa [settled_succ hfirst] at this
      · refine .inr ⟨⟨s, ?_⟩, ?_⟩
        · rw [herr]
          rfl
        · intro hbounded
          have hsum := hbounded 1 field
          rw [settled_succ hfirst] at hsum
          change exactSum (settle s.limits p) field < _ at hsum
          have hle := h.old_le hq field
          rw [exactSum_settle hp hq, ← h.totals field] at hsum
          unfold Moved at hbig
          omega

/-- The whole of `process_account_limit_updates`. -/
theorem process_cases (h : Staged last s) :
    (∃ s', processAccountLimitUpdates s = .ok () s' ∧ Staged last s' ∧
        ∀ r ∈ s'.limits.rows, r.pending = false) ∨
      ((∃ s', processAccountLimitUpdates s = .error overflow s') ∧ ¬ Bounded s.limits) := by
  unfold processAccountLimitUpdates
  rw [get_bind]
  exact foldPending_cases _ h (Nat.lt_succ_of_le List.countP_le_length)

end Fold

/-! ## Sequences of calls -/

inductive LimitCall where
  | initializeAccount (account : Name)
  | setAccountLimits (account : Name) (ramBytes netWeight cpuWeight : Int)
  | processAccountLimitUpdates

def perform : LimitCall → LimitM Unit
  | .initializeAccount a => initializeAccount a
  | .setAccountLimits a ramBytes netWeight cpuWeight => do
      let _ ← setAccountLimits a ramBytes netWeight cpuWeight
      pure ()
  | .processAccountLimitUpdates => processAccountLimitUpdates

/-- The limits that a call sets. -/
def record (last : Name → Option Limits) : LimitCall → Name → Option Limits
  | .initializeAccount a => fun b => if b = a then some {} else last b
  | .setAccountLimits a ramBytes netWeight cpuWeight =>
    fun b => if b = a then some ⟨netWeight, cpuWeight, ramBytes⟩ else last b
  | .processAccountLimitUpdates => last

/-- The limits set last, account by account. -/
def lastSet (calls : List LimitCall) : Name → Option Limits := calls.foldl record fun _ => none

/-- **ONE CALL** keeps the invariant. -/
theorem Staged.perform {last : Name → Option Limits} {s s' : LimitTables} (h : Staged last s)
    (call : LimitCall) (hrun : LimitUpdates.perform call s = .ok () s') :
    Staged (record last call) s' := by
  cases call with
  | initializeAccount a => exact h.initialized hrun
  | setAccountLimits a ramBytes netWeight cpuWeight =>
    obtain ⟨_, s1, hset, hrun⟩ := bind_ok_inv hrun
    cases hrun
    exact h.set hset
  | processAccountLimitUpdates =>
    rcases process_cases h with ⟨s1, hok, h1, -⟩ | ⟨⟨s1, herr⟩, -⟩
    · cases hok.symm.trans hrun
      exact h1
    · cases herr.symm.trans hrun

/-- **EVERY SEQUENCE OF CALLS** keeps it. -/
theorem Staged.run (calls : List LimitCall) :
    ∀ {last : Name → Option Limits} {s s' : LimitTables}, Staged last s →
      calls.forM LimitUpdates.perform s = .ok () s' → Staged (calls.foldl record last) s' := by
  induction calls with
  | nil =>
    intro last s s' h hrun
    cases hrun
    exact h
  | cons call calls ih =>
    intro last s s' h hrun
    obtain ⟨_, s1, hcall, hrest⟩ := bind_ok_inv hrun
    exact ih (h.perform call hcall) hrest

/-- **RESOURCE TOTALS**: after any sequence of calls the totals are the exact
    sums; processing can only throw for a sum beyond `uint64_t`, and not at all
    while the exact sums stay below; and when it returns no row is pending and
    every account has the limits set last. -/
theorem totals_are_sums {calls : List LimitCall} {s : LimitTables}
    (h : calls.forM perform blank = .ok () s) :
    (∀ field, (s.totals.get field : Int) = exactSum s.limits field) ∧
      (∀ e s', processAccountLimitUpdates s = .error e s' → e = overflow) ∧
      (Bounded s.limits → ∃ s', processAccountLimitUpdates s = .ok () s') ∧
      ∀ s', processAccountLimitUpdates s = .ok () s' →
        (∀ r ∈ s'.limits.rows, r.pending = false) ∧
          ∀ a, (s'.limits.find (false, a)).map (·.values) = lastSet calls a := by
  have hstaged : Staged (lastSet calls) s := staged_blank.run calls h
  refine ⟨hstaged.totals, ?_, ?_, ?_⟩
  · intro e s' herr
    rcases process_cases hstaged with ⟨s1, hok, -⟩ | ⟨⟨s1, herr'⟩, -⟩
    · cases hok.symm.trans herr
    · cases herr'.symm.trans herr
      rfl
  · intro hbounded
    rcases process_cases hstaged with ⟨s1, hok, -⟩ | ⟨-, hnot⟩
    · exact ⟨s1, hok⟩
    · exact absurd hbounded hnot
  · intro s' hrun
    rcases process_cases hstaged with ⟨s1, hok, hdone, hpending⟩ | ⟨⟨s1, herr⟩, -⟩
    · cases hok.symm.trans hrun
      refine ⟨hpending, ?_⟩
      intro a
      rw [← hdone.last a]
      unfold current
      cases hp : s'.limits.find (true, a) with
      | none => rfl
      | some r =>
        have hfalse := hpending r (Table.find_some hp).1
        rw [(find_pending hp).1] at hfalse
        cases hfalse
    · cases herr.symm.trans hrun

/-- Limits staged for two accounts and processed, then for one of them again. -/
def someCalls : List LimitCall :=
  [.initializeAccount ⟨1⟩, .initializeAccount ⟨2⟩, .setAccountLimits ⟨1⟩ 10 20 30,
    .setAccountLimits ⟨2⟩ (-1) 5 (-1), .processAccountLimitUpdates, .setAccountLimits ⟨1⟩ 7 4 9]

theorem someCalls_totals :
    ∃ s s', someCalls.forM perform blank = .ok () s ∧
      processAccountLimitUpdates s = .ok () s' ∧
      (s.totals.get .netWeight = 25 ∧ s'.totals.get .netWeight = 9) ∧
      (∀ field, (s.totals.get field : Int) = exactSum s.limits field) ∧
      (∀ r ∈ s'.limits.rows, r.pending = false) ∧
      ∀ a, (s'.limits.find (false, a)).map (·.values) = lastSet someCalls a := by
  obtain ⟨s, hrun, s', hlast, hnet⟩ : ∃ s, someCalls.forM perform blank = .ok () s ∧
      ∃ s', processAccountLimitUpdates s = .ok () s' ∧
        (s.totals.get .netWeight = 25 ∧ s'.totals.get .netWeight = 9) :=
    ⟨_, rfl, _, rfl, rfl, rfl⟩
  obtain ⟨hsums, -, -, hdone⟩ := totals_are_sums hrun
  exact ⟨s, s', hrun, hlast, hnet, hsums, hdone s' hlast⟩

end LimitUpdates
