import EosForce.HeaderStateProofs

/-! # Chains of header states

    A chain is what repeated accepted `next` steps build from the genesis
    state.  It is recorded together with what each block said: its number,
    its producer, how many predecessors it confirms, and the size of the
    schedule that was active when it was appended.  The step relation takes a
    guard, so that the same chains serve for runs in which every step meets
    some condition. -/

namespace HeaderChain

open ChainTypes HeaderState

/-- What a block on the chain said. -/
structure Produced where
  blockNum : Nat
  producer : Name
  confirmed : Nat
  scheduleSize : Nat
deriving DecidableEq, Repr

/-- The record of the block that `p` completes on top of `s`. -/
def record (s : BlockHeaderState) (p : PendingBlockHeaderState) : Produced where
  blockNum := p.blockNum
  producer := p.producer
  confirmed := p.confirmed
  scheduleSize := s.activeSchedule.producers.length

/-- Pairwise distinct producers, at most `config::max_producers` of them. -/
structure ScheduleOk (sched : ProducerAuthoritySchedule) : Prop where
  distinct : (sched.producers.map (·.producerName)).Nodup
  bounded : sched.producers.length ≤ maxProducers

/-- A condition on one step: the state before it, the producer of the new
    block and the number of blocks it confirms. -/
abbrev StepGuard := BlockHeaderState → Name → Nat → Prop

/-- The chains of accepted steps, newest record first. -/
inductive Chain (env : HeaderEnv) (guard : StepGuard) :
    List Produced → BlockHeaderState → Prop where
  | genesis (initialTimestamp : Nat) (initialProducerList : List ProducerKey)
      (chainId : Digest)
      (hok : ScheduleOk (LegacySchedule.upgrade ⟨0, initialProducerList⟩)) :
      Chain env guard [] (genesisState env initialTimestamp initialProducerList chainId)
  | step {hist : List Produced} {s s' : BlockHeaderState} {when' confirmed : Nat}
      {p : PendingBlockHeaderState} {h : BlockHeader} :
      Chain env guard hist s →
      confirmed < 2 ^ 16 →
      next s when' confirmed = .ok p →
      guard s p.producer confirmed →
      finishNext env p h = .ok s' →
      ScheduleOk s'.pendingSchedule.schedule →
      Chain env guard (record s p :: hist) s'

variable {s : BlockHeaderState} {env : HeaderEnv}

/-- A chain under a guard is a chain under any weaker one. -/
theorem chain_mono {g g' : StepGuard} (hg : ∀ s n c, g s n c → g' s n c) {hist : List Produced}
    (h : Chain env g hist s) : Chain env g' hist s := by
  induction h with
  | genesis t l c hok => exact Chain.genesis t l c hok
  | step _ hc hn hgd hf hok ih => exact Chain.step ih hc hn (hg _ _ _ hgd) hf hok

/-! ## The counters of missing confirmations

    The array is read from its end: `missing cc j` is the counter of the block
    `j` positions behind the newest one. -/

/-- How many confirmations the block `j` behind the newest still misses. -/
def missing (confirmCount : List Nat) (j : Nat) : Nat :=
  confirmCount.getD (confirmCount.length - 1 - j) 0

/-- The array from its start instead of its end. -/
theorem getD_of_missing {cc : List Nat} {P : Nat → Prop}
    (h : ∀ j < cc.length, P (missing cc j)) (k : Nat) (hk : k < cc.length) : P (cc.getD k 0) := by
  have hj := h (cc.length - 1 - k) (by omega)
  unfold missing at hj
  rwa [show cc.length - 1 - (cc.length - 1 - k) = k by omega] at hj

/-- The grown array starts with the new block's own requirement. -/
theorem missing_grow_zero (cc : List Nat) (n : Nat) :
    missing (growConfirmCount cc n) 0 = n % 2 ^ 8 := by
  unfold missing growConfirmCount
  split <;> simp

/-- The older counters move one position back. -/
theorem missing_grow_succ (cc : List Nat) (n : Nat) {j : Nat}
    (hj : j + 1 < (growConfirmCount cc n).length) :
    j < cc.length ∧ missing (growConfirmCount cc n) (j + 1) = missing cc j := by
  unfold missing growConfirmCount at *
  split
  · rename_i h
    rw [if_pos h] at hj
    simp only [List.length_append, List.length_cons, List.length_nil] at hj ⊢
    refine ⟨by omega, ?_⟩
    rw [List.getD_append _ _ _ _ (by omega)]
    congr 1
    omega
  · rename_i h
    rw [if_neg h] at hj
    simp only [List.length_append, List.length_cons, List.length_nil, List.length_drop] at hj ⊢
    refine ⟨by omega, ?_⟩
    rw [List.getD_append _ _ _ _ (by simp only [List.length_drop]; omega)]
    simp only [List.getD_eq_getElem?_getD, List.getElem?_drop]
    congr 2
    omega

theorem growConfirmCount_length_le (cc : List Nat) (n : Nat) :
    (growConfirmCount cc n).length ≤ cc.length + 1 := by
  unfold growConfirmCount
  split
  · simp
  · simp only [List.length_append, List.length_drop, List.length_cons,
      List.length_nil]
    omega

/-- One counter is decremented, the others stay. -/
theorem getD_decrement {cc : List Nat} {i : Nat} (hi : i < cc.length)
    (hpos : 1 ≤ cc.getD i 0) (hlt : cc.getD i 0 < 2 ^ 8) (k : Nat) :
    (cc.set i ((cc.getD i 0 + (2 ^ 8 - 1)) % 2 ^ 8)).getD k 0 +
      (if k = i then 1 else 0) = cc.getD k 0 := by
  simp only [List.getD_eq_getElem?_getD] at *
  by_cases hk : k = i
  · rw [if_pos hk, hk, List.getElem?_set_self hi, Option.getD_some]
    omega
  · rw [if_neg hk, List.getElem?_set_ne (Ne.symm hk)]
    rfl

/-- What the loop does from index `i` down, in the array's own indices: the
    visited counters lose one, and the first `cut` entries go, where the last
    entry cut off is the one that reached zero. -/
theorem confirmLoop_cut (bn proposed : Nat) :
    ∀ (i b : Nat) (cc : List Nat), i ≤ cc.length →
      (∀ k < i, 1 ≤ cc.getD k 0 ∧ cc.getD k 0 < 2 ^ 8) →
      ∃ cut ≤ i,
        (confirmLoop bn i b cc proposed).1.length + cut = cc.length ∧
        (∀ k, cut ≤ k →
          (confirmLoop bn i b cc proposed).1.getD (k - cut) 0 +
            (if k < i ∧ i ≤ k + b then 1 else 0) = cc.getD k 0 ∧
          (k < i → 1 ≤ (confirmLoop bn i b cc proposed).1.getD (k - cut) 0)) ∧
        (cut = 0 ∧ (confirmLoop bn i b cc proposed).2 = proposed ∨
          0 < cut ∧ i < cut + b ∧ cc.getD (cut - 1) 0 = 1 ∧
          (confirmLoop bn i b cc proposed).2 = subU32 bn (cc.length - cut)) := by
  intro i
  induction i with
  | zero =>
    intro b cc _ _
    exact ⟨0, le_refl 0, rfl, fun k _ => by simp [confirmLoop], .inl ⟨rfl, rfl⟩⟩
  | succ i ih =>
    intro b cc hi hcc
    cases b with
    | zero =>
      refine ⟨0, Nat.zero_le _, rfl, ?_, .inl ⟨rfl, rfl⟩⟩
      intro k _
      rw [if_neg (by omega)]
      exact ⟨rfl, fun hk => (hcc k hk).1⟩
    | succ b =>
      obtain ⟨hpos, hlt⟩ := hcc i (Nat.lt_succ_self i)
      have hget := getD_decrement hi hpos hlt
      have hlen : (cc.set i ((cc.getD i 0 + (2 ^ 8 - 1)) % 2 ^ 8)).length =
          cc.length := List.length_set
      rw [confirmLoop]
      generalize cc.set i ((cc.getD i 0 + (2 ^ 8 - 1)) % 2 ^ 8) = cc' at *
      have hgi := hget i
      rw [if_pos rfl] at hgi
      by_cases hz : cc'.getD i 0 = 0
      · -- the counter at `i` is spent: everything up to it is cut off
        rw [if_pos hz]
        refine ⟨i + 1, le_refl _, ?_, ?_, .inr ⟨by omega, by omega, ?_, ?_⟩⟩
        · rw [List.length_drop]
          omega
        · intro k hk
          have hgk := hget k
          rw [if_neg (by omega)] at hgk
          rw [List.getD_eq_getElem?_getD, List.getElem?_drop,
            Nat.add_sub_cancel' hk, ← List.getD_eq_getElem?_getD,
            if_neg (by omega)]
          exact ⟨hgk, fun h => absurd h (by omega)⟩
        · rw [Nat.add_sub_cancel, ← hgi, hz]
        · rw [hlen, Nat.sub_sub, Nat.add_comm 1 i]
      · -- it is not: the rest is what the loop does from `i` on
        rw [if_neg hz]
        have hrest : ∀ k < i, 1 ≤ cc'.getD k 0 ∧ cc'.getD k 0 < 2 ^ 8 := by
          intro k hk
          have hgk := hget k
          rw [if_neg (by omega)] at hgk
          rw [show cc'.getD k 0 = cc.getD k 0 from hgk]
          exact hcc k (by omega)
        obtain ⟨cut, hcut, hl, hk, hprop⟩ := ih b cc' (by omega) hrest
        refine ⟨cut, by omega, by omega, ?_, ?_⟩
        · intro k hck
          obtain ⟨hka, hkb⟩ := hk k hck
          have hgk := hget k
          rcases Nat.lt_trichotomy k i with h | rfl | h
          · rw [if_neg (by omega)] at hgk
            refine ⟨?_, fun _ => hkb h⟩
            split_ifs at hka ⊢ <;> omega
          · rw [if_neg (by omega)] at hka
            rw [if_pos (by omega)]
            omega
          · rw [if_neg (by omega)] at hgk hka
            rw [if_neg (by omega)]
            omega
        · rcases hprop with ⟨h0, hp⟩ | ⟨h0, hb, hone, hp⟩
          · exact .inl ⟨h0, hp⟩
          · have hgz := hget (cut - 1)
            rw [if_neg (by omega)] at hgz
            refine .inr ⟨h0, by omega, by omega, ?_⟩
            rw [hp, hlen]

/-- The effect of a whole pass over the counters of `cc` by a block with
    `confirmed` predecessors, read from the newest entry. -/
structure Counted (bn confirmed proposed : Nat) (cc cc' : List Nat)
    (proposed' : Nat) : Prop where
  /-- Each block that stays tracked lost one if the range reaches it. -/
  counters : ∀ j < cc'.length,
    missing cc' j + (if j ≤ confirmed then 1 else 0) = missing cc j ∧
      1 ≤ missing cc' j
  /-- A block is proposed only when its last confirmation came in. -/
  proposes : proposed' = proposed ∧ cc'.length = cc.length ∨
    cc'.length < cc.length ∧ cc'.length ≤ confirmed ∧
      missing cc cc'.length = 1 ∧ proposed' = subU32 bn cc'.length

theorem confirmLoop_counted {bn confirmed proposed : Nat} {cc cc' : List Nat}
    {proposed' : Nat}
    (hcc : ∀ j < cc.length, 1 ≤ missing cc j ∧ missing cc j < 2 ^ 8)
    (hrun : (cc', proposed') = confirmLoop bn cc.length (confirmed + 1) cc proposed) :
    Counted bn confirmed proposed cc cc' proposed' := by
  have hidx : ∀ k < cc.length, 1 ≤ cc.getD k 0 ∧ cc.getD k 0 < 2 ^ 8 :=
    getD_of_missing (P := fun n => 1 ≤ n ∧ n < 2 ^ 8) hcc
  obtain ⟨cut, hcut, hl, hk, hprop⟩ :=
    confirmLoop_cut bn proposed cc.length (confirmed + 1) cc (le_refl _) hidx
  rw [← hrun] at hl hk hprop
  dsimp only at hl hk hprop
  refine ⟨?_, ?_⟩
  · intro j hj
    obtain ⟨hka, hkb⟩ := hk (cc.length - 1 - j) (by omega)
    rw [show cc.length - 1 - j - cut = cc'.length - 1 - j by omega] at hka hkb
    refine ⟨?_, hkb (by omega)⟩
    unfold missing
    rw [← hka]
    congr 1
    exact if_congr (by omega) rfl rfl
  · rcases hprop with ⟨h0, hp⟩ | ⟨h0, hb, hone, hp⟩
    · exact .inl ⟨hp, by omega⟩
    · refine .inr ⟨by omega, by omega, ?_, ?_⟩
      · unfold missing
        rw [show cc.length - 1 - cc'.length = cut - 1 by omega]
        exact hone
      · rw [hp, show cc.length - cut = cc'.length by omega]

/-! ## What an accepted step does -/

/-- A scheduled producer is in the active schedule. -/
theorem getScheduledProducer_mem {slot : Nat} {a : ProducerAuthority}
    (h : getScheduledProducer s slot = some a) : a ∈ s.activeSchedule.producers :=
  List.mem_of_getElem? h

variable {p : PendingBlockHeaderState}

/-- **STEP INVERSION**: an accepted `next` chose a scheduled producer, passed
    the double-confirm check and returned `nextState`. -/
theorem next_ok {when' c : Nat} (h : next s when' c = .ok p) :
    ∃ (a : ProducerAuthority) (slot : Nat),
      a ∈ s.activeSchedule.producers ∧
      checkDoubleConfirm s a.producerName c = .ok () ∧
      p = nextState s a slot c := by
  unfold next at h
  obtain ⟨slot, -, h⟩ := except_bind_ok h
  cases hp : getScheduledProducer s slot with
  | none =>
    rw [hp] at h
    exact nomatch h
  | some a =>
    rw [hp] at h
    obtain ⟨u, hcheck, h⟩ := except_bind_ok h
    refine ⟨a, slot, getScheduledProducer_mem hp, hcheck, ?_⟩
    exact (Except.ok.inj h).symm

/-- What a passed double-confirm check says, where its subtraction stays in
    `uint32_t`. -/
theorem checkDoubleConfirm_ok {n : Name} {c last : Nat} (h : checkDoubleConfirm s n c = .ok ())
    (hl : s.producerToLastProduced.lookup n = some last) (hnum : s.blockNum + 1 < 2 ^ 32)
    (hc : c ≤ s.blockNum + 1) : last + c < s.blockNum + 1 := by
  unfold checkDoubleConfirm at h
  rw [hl] at h
  have hlt := eosAssert_ok h
  rw [addU32_of_lt hnum, subU32_of_le hnum hc] at hlt
  omega

/-- The header names the producer that `next` scheduled, and the state that it
    completes keeps the common part of the pending state; its pending schedule
    follows from the schedule in the header. -/
theorem finishNext_ok {h : BlockHeader} {s' : BlockHeaderState} (hf : finishNext env p h = .ok s') :
    h.producer = p.producer ∧
      ∃ ns activated, extractNewSchedule env p h h.headerExtensions = .ok ns ∧
        s' = { p.toBlockHeaderStateCommon with
          id := env.id h
          header := h
          pendingSchedule := nextPendingSchedule p ns
          activatedProtocolFeatures := activated } := by
  simp only [finishNext, eosAssert_bind_ok_iff] at hf
  obtain ⟨-, -, -, hproducer, -, hf⟩ := hf
  obtain ⟨exts, hexts, hf⟩ := except_bind_ok hf
  obtain ⟨_, -, hexts⟩ := except_bind_ok hexts
  obtain rfl := Except.ok.inj hexts
  obtain ⟨ns, hns, hf⟩ := except_bind_ok hf
  obtain ⟨activated, -, hf⟩ := except_bind_ok hf
  exact ⟨hproducer, ns, activated, hns, (Except.ok.inj hf).symm⟩

/-- What a promotion does to schedules and maps. -/
structure Promoted (s s' : BlockHeaderState) (a : ProducerAuthority) : Prop where
  pending : s.pendingSchedule.schedule.producers ≠ []
  reached : s.pendingSchedule.scheduleLibNum ≤ s'.dposIrreversibleBlocknum
  active : s'.activeSchedule = s.pendingSchedule.schedule
  lastProduced : s'.producerToLastProduced =
    (rebuildMap s.producerToLastProduced s.pendingSchedule.schedule.producers
      a.producerName s'.blockNum s'.dposIrreversibleBlocknum).insert
        a.producerName s'.blockNum
  impliedIrb : s'.producerToLastImpliedIrb =
    rebuildMap s.producerToLastImpliedIrb s.pendingSchedule.schedule.producers
      a.producerName s.dposProposedIrreversibleBlocknum s'.dposIrreversibleBlocknum
  emptied : s'.pendingSchedule.schedule.producers = []

/-- What a step without promotion does to them. -/
structure Kept (s s' : BlockHeaderState) (a : ProducerAuthority) : Prop where
  waiting : s.pendingSchedule.schedule.producers ≠ [] →
    s'.dposIrreversibleBlocknum < s.pendingSchedule.scheduleLibNum
  active : s'.activeSchedule = s.activeSchedule
  lastProduced : s'.producerToLastProduced =
    s.producerToLastProduced.insert a.producerName s'.blockNum
  impliedIrb : s'.producerToLastImpliedIrb =
    s.producerToLastImpliedIrb.insert a.producerName
      s.dposProposedIrreversibleBlocknum
  pending : s'.pendingSchedule = s.pendingSchedule ∨
    s'.pendingSchedule.scheduleLibNum = s'.blockNum

/-- **WHAT A BLOCK DOES** to the header state it extends: `a` produces it and
    it confirms `c` predecessors. -/
structure Extended (s s' : BlockHeaderState) (a : ProducerAuthority) (c : Nat) :
    Prop where
  scheduled : a ∈ s.activeSchedule.producers
  checked : checkDoubleConfirm s a.producerName c = .ok ()
  num : s'.blockNum = addU32 s.blockNum 1
  counts : (s'.confirmCount, s'.dposProposedIrreversibleBlocknum) =
    confirmLoop s'.blockNum
      (growConfirmCount s.confirmCount
        (requiredConfs s.activeSchedule.producers.length)).length (c + 1)
      (growConfirmCount s.confirmCount (requiredConfs s.activeSchedule.producers.length))
      s.dposProposedIrreversibleBlocknum
  lib : s'.dposIrreversibleBlocknum = calcDposLastIrreversible s a.producerName
  schedules : Promoted s s' a ∨ Kept s s' a

/-- The producer's entry is the number of its block. -/
theorem Extended.lookup_own {s s' : BlockHeaderState} {a : ProducerAuthority} {c : Nat}
    (h : Extended s s' a c) :
    s'.producerToLastProduced.lookup a.producerName = some s'.blockNum := by
  rcases h.schedules with hp | hk
  · rw [hp.lastProduced, AList.lookup_insert]
  · rw [hk.lastProduced, AList.lookup_insert]

/-- A state that completes an accepted `next` is such an extension. -/
theorem extended_of_next {s s' : BlockHeaderState} {when' c : Nat}
    {ns : Option (ProducerAuthoritySchedule × Digest)} (hn : next s when' c = .ok p)
    (hcommon : s'.toBlockHeaderStateCommon = p.toBlockHeaderStateCommon)
    (hpend : s'.pendingSchedule = nextPendingSchedule p ns)
    (hprom : p.wasPendingPromoted = true → ns = none) :
    ∃ a, Extended s s' a c ∧ p.producer = a.producerName ∧
      record s p = ⟨s'.blockNum, a.producerName, c,
        s.activeSchedule.producers.length⟩ := by
  obtain ⟨a, slot, ha, hcheck, rfl⟩ := next_ok hn
  have hnum := congrArg (·.blockNum) hcommon
  have hlib := congrArg (·.dposIrreversibleBlocknum) hcommon
  have hact := congrArg (·.activeSchedule) hcommon
  have hlast := congrArg (·.producerToLastProduced) hcommon
  have hirb := congrArg (·.producerToLastImpliedIrb) hcommon
  have hcc := congrArg (·.confirmCount) hcommon
  have hprop := congrArg (·.dposProposedIrreversibleBlocknum) hcommon
  simp only [nextState] at hnum hlib hact hlast hirb hcc hprop
  refine ⟨a, ⟨ha, hcheck, hnum, ?_, hlib, ?_⟩, rfl, ?_⟩
  · rw [hcc, hprop, hnum]
  · simp only [nextState] at hprom
    by_cases hp : s.pendingSchedule.schedule.producers.length ≠ 0 ∧
        calcDposLastIrreversible s a.producerName ≥ s.pendingSchedule.scheduleLibNum
    · left
      rw [decide_eq_true hp] at hact hlast hirb hprom
      rw [if_pos rfl] at hact hlast hirb
      refine ⟨?_, by rw [hlib]; exact hp.2, hact, ?_, ?_, ?_⟩
      · intro he
        rw [he] at hp
        exact hp.1 rfl
      · rw [hlast, hnum, hlib]
      · rw [hirb, hlib]
      · rw [hpend, hprom rfl]
        exact nextPendingSchedule_promoted (decide_eq_true hp)
    · right
      rw [decide_eq_false hp] at hact hlast hirb
      rw [if_neg Bool.false_ne_true] at hact hlast hirb
      refine ⟨?_, hact, by rw [hlast, hnum], hirb, ?_⟩
      · intro hne
        rw [hlib]
        by_contra hle
        exact hp ⟨fun h0 => hne (List.length_eq_zero_iff.mp h0), not_lt.mp hle⟩
      · rw [hpend, hnum]
        cases ns with
        | none => exact .inl (nextPendingSchedule_kept (decide_eq_false hp))
        | some x => exact .inr rfl
  · rw [hnum]
    rfl

/-- Every accepted step is such an extension. -/
theorem extended_of_step {s s' : BlockHeaderState} {when' c : Nat} {h : BlockHeader}
    (hn : next s when' c = .ok p) (hf : finishNext env p h = .ok s') :
    ∃ a, Extended s s' a c ∧ p.producer = a.producerName ∧
      record s p = ⟨s'.blockNum, a.producerName, c,
        s.activeSchedule.producers.length⟩ := by
  obtain ⟨-, ns, activated, hns, rfl⟩ := finishNext_ok hf
  exact extended_of_next hn rfl rfl (extractNewSchedule_promoted hns)

/-- The pending state by itself, as a state without a header. -/
def unsigned (p : PendingBlockHeaderState) : BlockHeaderState :=
  { p.toBlockHeaderStateCommon with pendingSchedule := nextPendingSchedule p none }

theorem extended_unsigned {when' c : Nat} (hn : next s when' c = .ok p) :
    ∃ a, Extended s (unsigned p) a c ∧ p.producer = a.producerName ∧
      record s p = ⟨p.blockNum, a.producerName, c,
        s.activeSchedule.producers.length⟩ :=
  @extended_of_next _ s (unsigned p) _ _ none hn rfl rfl fun _ => rfl

/-- **CHAIN INDUCTION**: what genesis has and every extension keeps holds of
    every chain. -/
theorem chain_induction {guard : StepGuard} {I : List Produced → BlockHeaderState → Prop}
    (hgenesis : ∀ t l c, ScheduleOk (LegacySchedule.upgrade ⟨0, l⟩) →
      I [] (genesisState env t l c))
    (hstep : ∀ hist s s' a c, I hist s → guard s a.producerName c →
      Extended s s' a c → ScheduleOk s'.pendingSchedule.schedule →
      I (⟨s'.blockNum, a.producerName, c,
        s.activeSchedule.producers.length⟩ :: hist) s') {hist : List Produced}
    (h : Chain env guard hist s) : I hist s := by
  induction h with
  | genesis t l c hok => exact hgenesis t l c hok
  | step _ _ hn hg hf hok ih =>
    obtain ⟨a, hext, hprod, hrec⟩ := extended_of_step hn hf
    rw [hprod] at hg
    rw [hrec]
    exact hstep _ _ _ a _ ih hg hext hok

/-! ## Chains by production

    A node that makes its own headers builds a chain; this is how concrete
    chains are given. -/

/-- What the producer of a block chooses. -/
structure BlockChoice where
  when' : Nat
  confirmed : Nat
  newProducers : Option ProducerAuthoritySchedule := none

variable (env : HeaderEnv) (guard : StepGuard) [∀ s n c, Decidable (guard s n c)]

instance (sched : ProducerAuthoritySchedule) : Decidable (ScheduleOk sched) :=
  decidable_of_iff
    ((sched.producers.map (·.producerName)).Nodup ∧
      sched.producers.length ≤ maxProducers)
    ⟨fun h => ⟨h.1, h.2⟩, fun h => ⟨h.1, h.2⟩⟩

/-- One block is started, given a header and finished. -/
def produceBlock (at' : List Produced × BlockHeaderState) (b : BlockChoice) :
    Option (List Produced × BlockHeaderState) := do
  let p ← (next at'.2 b.when' b.confirmed).toOption
  let h ← (makeBlockHeader env p 0 0 b.newProducers []).toOption
  let s' ← (finishNext env p h).toOption
  if b.confirmed < 2 ^ 16 ∧ guard at'.2 p.producer b.confirmed ∧
      ScheduleOk s'.pendingSchedule.schedule then
    some (record at'.2 p :: at'.1, s')
  else none

def produceBlocks (at' : List Produced × BlockHeaderState) (bs : List BlockChoice) :
    Option (List Produced × BlockHeaderState) :=
  bs.foldlM (produceBlock env guard) at'

omit [∀ s n c, Decidable (guard s n c)] in
theorem toOption_some {ε α : Type} {x : Except ε α} {a : α}
    (h : x.toOption = some a) : x = .ok a := by
  cases x with
  | error e => exact nomatch h
  | ok b => rw [Option.some.inj h]

variable {env guard}

/-- A produced block extends the chain. -/
theorem chain_of_produceBlock {at' r : List Produced × BlockHeaderState}
    {b : BlockChoice} (hc : Chain env guard at'.1 at'.2)
    (h : produceBlock env guard at' b = some r) : Chain env guard r.1 r.2 := by
  obtain ⟨p, hp, h⟩ := Option.bind_eq_some_iff.mp h
  obtain ⟨hd, -, h⟩ := Option.bind_eq_some_iff.mp h
  obtain ⟨s', hs, h⟩ := Option.bind_eq_some_iff.mp h
  split at h
  · rename_i hok
    rw [← Option.some.inj h]
    exact Chain.step hc hok.1 (toOption_some hp) hok.2.1 (toOption_some hs) hok.2.2
  · exact nomatch h

/-- So does a whole run of them. -/
theorem chain_of_produceBlocks (bs : List BlockChoice) :
    ∀ {at' r : List Produced × BlockHeaderState}, Chain env guard at'.1 at'.2 →
      produceBlocks env guard at' bs = some r → Chain env guard r.1 r.2 := by
  induction bs with
  | nil =>
    intro at' r hc h
    rw [← Option.some.inj h]
    exact hc
  | cons b rest ih =>
    intro at' r hc h
    obtain ⟨mid, hmid, h⟩ := Option.bind_eq_some_iff.mp h
    exact ih (chain_of_produceBlock hc hmid) h

/-- An environment without protocol features; a block is its timestamp. -/
def plainEnv : HeaderEnv where
  wtmsigDigest := none
  validator _ _ _ := .ok ()
  legacyHash _ := 0
  scheduleHash _ := 0
  id h := h.timestamp

end HeaderChain
