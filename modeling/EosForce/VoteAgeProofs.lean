import EosForce.FeeRuleProofs
import EosForce.StepRuleProofs
import Mathlib.Algebra.BigOperators.Group.Finset.Basic
import Mathlib.Tactic.Ring

/-! # Vote age as a fee

    A vote and the producer voted for both gain age with every block; a row
    stores the age at the height of its last update.  `voteagefee` brings two
    rows up to the head block and takes the same age out of both, so at every
    later height each of them is short of exactly that age, and a producer
    that had at least the age of all its voters together still has. -/

namespace VoteAge

open ChainTypes TrxTypes Effect StepRule Database FeeRule

variable {σ : Type} {H : Nat} {data : FeeParameter} {t : Tables σ}

/-! ## The age at a height -/

/-- The age of a vote at height `h`. -/
def voteAgeAt (v : VoteInfo) (h : Nat) : Int :=
  v.voteage + v.staked.amount / 10000 * ((h : Int) - v.voteageUpdateHeight)

/-- The age of a producer at height `h`. -/
def totalAgeAt (bp : BpInfo) (h : Nat) : Int :=
  bp.totalVoteage + bp.totalStaked * ((h : Int) - bp.voteageUpdateHeight)

/-- The age that a voter has with a producer, none without a row. -/
def ageOf (t : Tables σ) (voter bpname : Name) (h : Nat) : Int :=
  ((t.votes voter bpname).map (voteAgeAt · h)).getD 0

/-- From height `H` on a producer has at least the age of all its voters. -/
def Backed (t : Tables σ) (bpname : Name) (voters : Finset Name) (H : Nat) : Prop :=
  ∀ bp, t.bps bpname = some bp → ∀ h ≥ H, ∑ x ∈ voters, ageOf t x bpname h ≤ totalAgeAt bp h

def FitsI64 (x : Int) : Prop := -2 ^ 63 ≤ x ∧ x < 2 ^ 63

instance (x : Int) : Decidable (FitsI64 x) := by
  unfold FitsI64
  infer_instance

/-- The values that the handler computes are those of the two rows. -/
structure InRange (H : Nat) (vote : VoteInfo) (bp : BpInfo) : Prop where
  head : H < 2 ^ 32
  voteHeight : vote.voteageUpdateHeight ≤ H
  bpHeight : bp.voteageUpdateHeight ≤ H
  age : FitsI64 (voteAgeAt vote H)
  totalAge : FitsI64 (totalAgeAt bp H)
  staked : 0 ≤ vote.staked.amount
  gap : -2 ^ 63 ≤ totalAgeAt bp H - voteAgeAt vote H

/-! ## What the handler does -/

/-- The age that a fee costs. -/
def voteageOf (t : Tables σ) (fee : Asset) : Int :=
  (toI64 (fee.amount * getNumConfigOnChain t Config.votageRatio 10000)).tdiv 10000

/-- A vote that was brought up to height `H` and is short of `v`. -/
def chargedVote (H : Nat) (v : Int) (vote : VoteInfo) : VoteInfo :=
  { vote with voteage := voteAgeAt vote H - v, voteageUpdateHeight := H }

def chargedBp (H : Nat) (v : Int) (bp : BpInfo) : BpInfo :=
  { bp with totalVoteage := totalAgeAt bp H - v, voteageUpdateHeight := H }

theorem voteAgeAt_charged (vote : VoteInfo) (v : Int) (h : Nat) :
    voteAgeAt (chargedVote H v vote) h = voteAgeAt vote h - v := by
  simp only [voteAgeAt, chargedVote]
  ring

theorem totalAgeAt_charged (bp : BpInfo) (v : Int) (h : Nat) :
    totalAgeAt (chargedBp H v bp) h = totalAgeAt bp h - v := by
  simp only [totalAgeAt, chargedBp]
  ring

theorem newestVoteage_eq {vote : VoteInfo} {bp : BpInfo} (h : InRange H vote bp) :
    toI64 (vote.voteage + vote.staked.amount.tdiv 10000 * subU32 H vote.voteageUpdateHeight) =
      voteAgeAt vote H := by
  rw [subU32_of_le h.head h.voteHeight, Int.ofNat_sub h.voteHeight,
    Int.tdiv_eq_ediv_of_nonneg h.staked]
  exact toI64_of_fits h.age.1 h.age.2

theorem newestTotalVoteage_eq {vote : VoteInfo} {bp : BpInfo} (h : InRange H vote bp) :
    toI64 (bp.totalVoteage + bp.totalStaked * subU32 H bp.voteageUpdateHeight) =
      totalAgeAt bp H := by
  rw [subU32_of_le h.head h.bpHeight, Int.ofNat_sub h.bpHeight]
  exact toI64_of_fits h.totalAge.1 h.totalAge.2

/-- The tables after a charge. -/
def charge (H : Nat) (data : FeeParameter) (v : Int) (vote : VoteInfo) (bp : BpInfo)
    (t : Tables σ) : Tables σ :=
  (t.setVote data.name data.producer (chargedVote H v vote)).setBp data.producer (chargedBp H v bp)

theorem getRow_cases {τ α : Type} (row : Option α) (msg : String) (s : τ) :
    (∃ err, getRow row msg s = .error err s) ∨ ∃ a, row = some a ∧ getRow row msg s = .ok a s := by
  cases row with
  | none => exact .inl ⟨_, rfl⟩
  | some a => exact .inr ⟨a, rfl, rfl⟩

/-- The handler throws and leaves the tables alone, or it charges both rows
    with the age that the fee costs. -/
theorem voteagefee_cases
    (hrange : ∀ vote bp, t.votes data.name data.producer = some vote →
      t.bps data.producer = some bp → InRange H vote bp) :
    (∃ err, applyEosioVoteagefee H data t = .error err t) ∨
      ∃ vote bp, t.votes data.name data.producer = some vote ∧ t.bps data.producer = some bp ∧
        0 < voteageOf t data.fee ∧ voteageOf t data.fee ≤ voteAgeAt vote H ∧
        applyEosioVoteagefee H data t =
          .ok () (charge H data (voteageOf t data.fee) vote bp t) := by
  rw [applyEosioVoteagefee, get_bind]
  obtain ⟨err, herr⟩ | ⟨_, _, hok⟩ := getRow_cases (t.balances data.name)
    "account is not found in accounts table" t
  · exact .inl ⟨err, bind_error herr⟩
  rw [bind_ok hok]
  obtain ⟨err, herr⟩ | ⟨bp, hbp, hok⟩ := getRow_cases (t.bps data.producer)
    "bpname is not registered" t
  · exact .inl ⟨err, bind_error herr⟩
  rw [bind_ok hok]
  obtain ⟨err, herr⟩ | ⟨vote, hvote, hok⟩ := getRow_cases (t.votes data.name data.producer)
    "voter have not add votes to the the producer yet" t
  · exact .inl ⟨err, bind_error herr⟩
  rw [bind_ok hok]
  have h := hrange vote bp hvote hbp
  rw [newestVoteage_eq h, newestTotalVoteage_eq h, eosioContractAssert]
  by_cases hv : 0 < voteageOf t data.fee ∧ voteageOf t data.fee ≤ voteAgeAt vote H
  · refine .inr ⟨vote, bp, hvote, hbp, hv.1, hv.2, ?_⟩
    have hage := h.age
    have htotal := h.totalAge
    have hgap := h.gap
    have hleft : toI64 (voteAgeAt vote H - voteageOf t data.fee) =
        voteAgeAt vote H - voteageOf t data.fee :=
      toI64_of_fits (by omega) (by have := hage.2; omega)
    have hleftTotal : toI64 (totalAgeAt bp H - voteageOf t data.fee) =
        totalAgeAt bp H - voteageOf t data.fee :=
      toI64_of_fits (by omega) (by have := htotal.2; omega)
    refine (bind_ok (require_pos hv t)).trans ?_
    rw [charge, chargedVote, chargedBp, ← hleft, ← hleftTotal]
    rfl
  · exact .inl ⟨_, bind_error (require_neg hv t)⟩

/-! ## Ages after a charge -/

section Charge

variable {v : Int} {vote : VoteInfo} {bp : BpInfo}

theorem charge_vote :
    (charge H data v vote bp t).votes data.name data.producer = some (chargedVote H v vote) :=
  if_pos ⟨rfl, rfl⟩

theorem charge_bp : (charge H data v vote bp t).bps data.producer = some (chargedBp H v bp) :=
  if_pos rfl

theorem ageOf_charge_self (hvote : t.votes data.name data.producer = some vote) (h : Nat) :
    ageOf (charge H data v vote bp t) data.name data.producer h =
      ageOf t data.name data.producer h - v := by
  rw [ageOf, ageOf, charge_vote, hvote]
  exact voteAgeAt_charged vote v h

theorem ageOf_charge_other {x : Name} (hne : x ≠ data.name) (h : Nat) :
    ageOf (charge H data v vote bp t) x data.producer h = ageOf t x data.producer h := by
  have hrow : (charge H data v vote bp t).votes x data.producer = t.votes x data.producer :=
    if_neg fun hc => hne hc.1
  rw [ageOf, ageOf, hrow]

/-- The age of all voters together falls by what was charged. -/
theorem sum_charge {voters : Finset Name} (hmem : data.name ∈ voters)
    (hvote : t.votes data.name data.producer = some vote) (h : Nat) :
    ∑ x ∈ voters, ageOf (charge H data v vote bp t) x data.producer h =
      ∑ x ∈ voters, ageOf t x data.producer h - v := by
  have hrest : ∑ x ∈ voters.erase data.name, ageOf (charge H data v vote bp t) x data.producer h =
      ∑ x ∈ voters.erase data.name, ageOf t x data.producer h :=
    Finset.sum_congr rfl fun x hx => ageOf_charge_other (Finset.ne_of_mem_erase hx) h
  rw [← Finset.add_sum_erase _ _ hmem, ← Finset.add_sum_erase _ _ hmem, hrest,
    ageOf_charge_self hvote]
  ring

theorem backed_charge {voters : Finset Name} (hmem : data.name ∈ voters)
    (hvote : t.votes data.name data.producer = some vote)
    (hbp : t.bps data.producer = some bp) (hbacked : Backed t data.producer voters H) :
    Backed (charge H data v vote bp t) data.producer voters H := by
  intro bp' hbp' h hh
  rw [charge_bp] at hbp'
  cases hbp'
  rw [sum_charge hmem hvote, totalAgeAt_charged]
  exact sub_le_sub_right (hbacked bp hbp h hh) v

end Charge

/-- **VOTE AGE IS TAKEN FROM BOTH SIDES**: `voteagefee` throws and changes no
    row, or it takes one positive age, no more than the voter has, out of the
    vote and out of the producer, at every height from the head block on, and
    touches nothing else; a producer that has the age of all its voters keeps
    it. -/
theorem voteagefee_conserves (H : Nat) (data : FeeParameter) (t : Tables σ)
    (hrange : ∀ vote bp, t.votes data.name data.producer = some vote →
      t.bps data.producer = some bp → InRange H vote bp) :
    (∃ err, applyEosioVoteagefee H data t = .error err t) ∨
      ∃ v vote bp vote' bp' t', applyEosioVoteagefee H data t = .ok () t' ∧
        t.votes data.name data.producer = some vote ∧ t.bps data.producer = some bp ∧
        t' = (t.setVote data.name data.producer vote').setBp data.producer bp' ∧
        0 < v ∧ v ≤ voteAgeAt vote H ∧
        (∀ h ≥ H, voteAgeAt vote' h = voteAgeAt vote h - v ∧
          totalAgeAt bp' h = totalAgeAt bp h - v) ∧
        ∀ voters : Finset Name, (∀ x, (t.votes x data.producer).isSome → x ∈ voters) →
          Backed t data.producer voters H → Backed t' data.producer voters H := by
  obtain herr | ⟨vote, bp, hvote, hbp, hpos, hle, hok⟩ := voteagefee_cases hrange
  · exact .inl herr
  · refine .inr ⟨voteageOf t data.fee, vote, bp, _, _, _, hok, hvote, hbp, rfl, hpos, hle, ?_, ?_⟩
    · exact fun h _ => ⟨voteAgeAt_charged vote _ h, totalAgeAt_charged bp _ h⟩
    · intro voters hall
      have hmem : data.name ∈ voters := hall data.name (by rw [hvote]; rfl)
      exact backed_charge hmem hvote hbp

/-! ## Two runs -/

/-- Tables with one voter, whose vote rows are all `vote`, and with every
    producer row `bp`. -/
def rows (vote : VoteInfo) (bp : BpInfo) : Tables Unit where
  accounts _ := none
  actionFees _ _ := none
  configNums _ := none
  chainStatus := none
  balances _ := some Asset.zero
  bps _ := some bp
  votes voter _ := if voter = ⟨1⟩ then some vote else none
  vote4ram _ := none
  configuration := { maxTransactionNetUsage := 0, maxTransactionCpuUsage := 0 }
  rest := ()

def fiveUnits : FeeParameter := ⟨⟨1⟩, ⟨5, coreSymbol⟩, ⟨2⟩⟩

/-- A vote of two units since height 4. -/
def twoUnits : VoteInfo := ⟨⟨20000, coreSymbol⟩, 4, 1⟩

def votedFor : BpInfo := ⟨2, Asset.zero, 1, 4⟩

/-- The producer has just the age of its voter. -/
theorem backed_votedFor : Backed (rows twoUnits votedFor) ⟨2⟩ {⟨1⟩} 10 := by
  intro bp hbp h hh
  obtain rfl : votedFor = bp := Option.some.inj hbp
  rw [Finset.sum_singleton]
  exact le_refl _

theorem voteagefee_conserves_five :
    ∃ v vote' bp' t', applyEosioVoteagefee 10 fiveUnits (rows twoUnits votedFor) = .ok () t' ∧
      t' = ((rows twoUnits votedFor).setVote ⟨1⟩ ⟨2⟩ vote').setBp ⟨2⟩ bp' ∧
      0 < v ∧ v ≤ voteAgeAt twoUnits 10 ∧
      (∀ h ≥ 10, voteAgeAt vote' h = voteAgeAt twoUnits h - v ∧
        totalAgeAt bp' h = totalAgeAt votedFor h - v) ∧
      Backed t' ⟨2⟩ {⟨1⟩} 10 := by
  rcases voteagefee_conserves 10 fiveUnits (rows twoUnits votedFor) (fun vote bp hvote hbp => by
    obtain rfl : twoUnits = vote := Option.some.inj hvote
    obtain rfl : votedFor = bp := Option.some.inj hbp
    exact ⟨by decide, by decide, by decide, by decide, by decide, by decide, by decide⟩)
    with ⟨err, herr⟩ | ⟨v, vote, bp, vote', bp', t', hok, hvote, hbp, ht, hpos, hle, hages, hkeeps⟩
  · cases herr
  · obtain rfl : twoUnits = vote := Option.some.inj hvote
    obtain rfl : votedFor = bp := Option.some.inj hbp
    refine ⟨v, vote', bp', t', hok, ht, hpos, hle, hages, hkeeps {(⟨1⟩ : Name)} ?_ backed_votedFor⟩
    intro x hx
    rw [Finset.mem_singleton]
    by_contra hne
    simp [rows, hne] at hx

/-- A vote whose stake is negative: the code divides it towards zero, so the
    age it computes is not the one that rounds the quotient down. -/
def negative : VoteInfo := ⟨⟨-1, coreSymbol⟩, 9, 10⟩

def afterNegative : Tables Unit :=
  final (applyEosioVoteagefee 10 fiveUnits (rows negative ⟨0, Asset.zero, 100, 9⟩))

/-- The producer loses five and the voter only four. -/
theorem negative_stake_differs :
    applyEosioVoteagefee 10 fiveUnits (rows negative ⟨0, Asset.zero, 100, 9⟩) =
        .ok () afterNegative ∧
      voteAgeAt negative 10 = 9 ∧ totalAgeAt ⟨0, Asset.zero, 100, 9⟩ 10 = 100 ∧
      (afterNegative.votes ⟨1⟩ ⟨2⟩).map (voteAgeAt · 10) = some 5 ∧
      (afterNegative.bps ⟨2⟩).map (totalAgeAt · 10) = some 95 :=
  ⟨rfl, by decide, by decide, by decide, by decide⟩

end VoteAge
