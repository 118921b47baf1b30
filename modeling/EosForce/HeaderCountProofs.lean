import EosForce.HeaderLibProofs

/-! # The array of missing confirmations

    `confirm_count` holds one counter for each of the most recent blocks that
    are not proposed as irreversible yet.  Its length follows from two numbers
    of the header state: the block number, and the proposed block behind which
    everything has been cut off.  The loop of `next` is run here a second time
    in a form that stops where it would leave the array or take one from a
    counter at zero; on every state of a chain the two agree.

    All of this is about block numbers that fit their `uint32_t`.  One block
    more and the proposed block stands above the number of the block that
    proposes it (`proposed_passes_wrapped_number`). -/

namespace HeaderCount

open ChainTypes HeaderState HeaderChain HeaderQuorum HeaderLib

/-- Chains of accepted steps, newest record first, over schedules of at most
    `config::max_producers` producers. -/
inductive Headers (env : HeaderEnv) (guard : StepGuard) :
    List Produced → BlockHeaderState → Prop where
  | genesis (initialTimestamp : Nat) (initialProducerList : List ProducerKey)
      (chainId : Digest) (hsize : initialProducerList.length ≤ maxProducers) :
      Headers env guard [] (genesisState env initialTimestamp initialProducerList chainId)
  | step {hist : List Produced} {s s' : BlockHeaderState} {when' confirmed : Nat}
      {p : PendingBlockHeaderState} {h : BlockHeader} :
      Headers env guard hist s →
      next s when' confirmed = .ok p →
      guard s p.producer confirmed →
      finishNext env p h = .ok s' →
      s'.pendingSchedule.schedule.producers.length ≤ maxProducers →
      Headers env guard (record s p :: hist) s'

/-! ## The loop with its bounds checked -/

/-- The loop of `next`, stopped where it would read outside the array or
    decrement a counter below zero. -/
def confirmLoopChecked (blockNum : Nat) :
    Nat → Nat → List Nat → Nat → Option (List Nat × Nat)
  | 0, _, confirmCount, proposed => some (confirmCount, proposed)
  | _ + 1, 0, confirmCount, proposed => some (confirmCount, proposed)
  | i + 1, blocksToConfirm + 1, confirmCount, proposed =>
    match confirmCount[i]? with
    | none => none
    | some 0 => none
    | some (n + 1) =>
      if n = 0 then
        some ((confirmCount.set i n).drop (i + 1), subU32 blockNum (confirmCount.length - 1 - i))
      else confirmLoopChecked blockNum i blocksToConfirm (confirmCount.set i n) proposed

/-- On counters between one and the largest `uint8_t` the checks never stop
    the loop. -/
theorem confirmLoopChecked_eq (bn proposed : Nat) :
    ∀ (i b : Nat) (cc : List Nat), i ≤ cc.length →
      (∀ k < i, 1 ≤ cc.getD k 0 ∧ cc.getD k 0 < 2 ^ 8) →
      confirmLoopChecked bn i b cc proposed = some (confirmLoop bn i b cc proposed) := by
  intro i
  induction i with
  | zero =>
    intro b cc _ _
    rfl
  | succ i ih =>
    intro b cc hi hcc
    cases b with
    | zero => rfl
    | succ b =>
      obtain ⟨hpos, hlt⟩ := hcc i (Nat.lt_succ_self i)
      obtain ⟨n, hn⟩ : ∃ n, cc[i]? = some (n + 1) := by
        rw [List.getD_eq_getElem?_getD, List.getElem?_eq_getElem hi, Option.getD_some] at hpos
        exact ⟨cc[i] - 1, by rw [List.getElem?_eq_getElem hi]; congr 1; omega⟩
      have hget : cc.getD i 0 = n + 1 := by
        rw [List.getD_eq_getElem?_getD, hn, Option.getD_some]
      have hdec : (cc.getD i 0 + (2 ^ 8 - 1)) % 2 ^ 8 = n := by
        rw [hget] at hlt ⊢
        omega
      have hset : (cc.set i n).getD i 0 = n := by
        rw [List.getD_eq_getElem?_getD, List.getElem?_set_self hi, Option.getD_some]
      rw [confirmLoopChecked, confirmLoop, hn]
      dsimp only
      rw [hdec, hset, List.length_set]
      by_cases hz : n = 0
      · rw [if_pos hz, if_pos hz]
      · rw [if_neg hz, if_neg hz]
        refine ih b (cc.set i n) (by rw [List.length_set]; omega) ?_
        intro k hk
        rw [List.getD_eq_getElem?_getD, List.getElem?_set_ne (by omega),
          ← List.getD_eq_getElem?_getD]
        exact hcc k (by omega)

/-! ## The length of the array -/

/-- **THE ARRAY**: what `confirm_count` holds in a state of a chain. -/
structure Sized (s : BlockHeaderState) : Prop where
  num : 1 ≤ s.blockNum
  proposed : s.dposProposedIrreversibleBlocknum ≤ s.blockNum
  length : s.confirmCount.length = min maximumTrackedDposConfirmations
    (s.blockNum - max 1 s.dposProposedIrreversibleBlocknum)

theorem growConfirmCount_length (cc : List Nat) (n : Nat) :
    (growConfirmCount cc n).length =
      if cc.length < maximumTrackedDposConfirmations then cc.length + 1
      else cc.length - 1 + 1 := by
  unfold growConfirmCount
  split
  · rw [List.length_append, List.length_singleton]
  · rw [List.length_append, List.length_drop, List.length_singleton]

section Step

variable {hist : List Produced} {s s' : BlockHeaderState} {a : ProducerAuthority} {c : Nat}

/-- The proposed block moves forward, and the array keeps its length. -/
theorem sized_step (h : Sized s) (ht : Counting hist s) (hnum : s.blockNum + 1 < 2 ^ 32)
    (he : Extended s s' a c) :
    s.dposProposedIrreversibleBlocknum ≤ s'.dposProposedIrreversibleBlocknum ∧ Sized s' := by
  obtain ⟨hpos, hprop, hlen⟩ := h
  have hgrow : (grown s).length = _ := growConfirmCount_length _ _
  have hmax : maximumTrackedDposConfirmations = 1024 := rfl
  have hnew := he.num
  rw [addU32_of_lt hnum] at hnew
  rcases (ht.counted he).proposes with ⟨hsame, hl⟩ | ⟨hl, -, -, hcut⟩
  · -- nothing was cut: the array grew by one, or stays at its limit
    rw [hsame]
    refine ⟨le_refl _, by omega, by omega, ?_⟩
    rw [hsame, hl, hgrow, hlen, hnew, hmax]
    split <;> omega
  · -- the entry cut off last belongs to the block that is now proposed
    have hshort : (grown s).length ≤ s.blockNum + 1 - max 1 s.dposProposedIrreversibleBlocknum
        ∧ (grown s).length ≤ 1024 := by
      rw [hgrow, hlen, hmax]
      split <;> omega
    rw [subU32_of_le (by omega) (by omega)] at hcut
    refine ⟨by omega, by omega, by omega, ?_⟩
    rw [hmax]
    omega

end Step

/-- The invariants of every chain whose block numbers fit. -/
theorem headers_invariants {env : HeaderEnv} {hist : List Produced} {s : BlockHeaderState}
    (h : Headers env Fits hist s) : Counting hist s ∧ Sized s := by
  induction h with
  | genesis t l c hsize =>
    refine ⟨counting_genesis env t l c ?_, le_refl 1, Nat.zero_le 1, rfl⟩
    rw [LegacySchedule.upgrade, List.length_map]
    exact hsize
  | step _ hn hg hf hsize ih =>
    obtain ⟨ht, hs⟩ := ih
    obtain ⟨a, hext, hprod, hrec⟩ := extended_of_step hn hf
    rw [hrec]
    exact ⟨counting_step ht hg hext hsize, (sized_step hs ht hg hext).2⟩

/-- The entry of the block `j` behind the newest is the requirement of that
    block, at least one of it still missing. -/
def Stands (hist : List Produced) (s : BlockHeaderState) : Prop :=
  ∀ j < s.confirmCount.length, ∃ r ∈ hist, r.blockNum + j = s.blockNum ∧
    1 ≤ missing s.confirmCount j ∧
    missing s.confirmCount j + confs hist r.blockNum = requiredConfs r.scheduleSize

theorem stands_of_counting {hist : List Produced} {s : BlockHeaderState} (h : Counting hist s) :
    Stands hist s := by
  intro j hj
  obtain ⟨r, hr, hpos, hsum⟩ := h.counters j hj
  refine ⟨r, List.mem_of_getElem? hr, ?_, hpos, hsum⟩
  rw [h.numbers j r hr, h.num]

/-- **CONFIRM COUNTS**: in every state of a chain whose block numbers fit
    `uint32_t`, the array has the length that block number and proposed block
    give and its entries stand for the last blocks, each missing something;
    whatever a next block confirms, the loop stays inside the array and above
    zero; and the proposed block neither falls nor passes the block number. -/
theorem confirm_counts {env : HeaderEnv} {hist : List Produced} {s : BlockHeaderState}
    (h : Headers env Fits hist s) :
    (∀ n ∈ s.confirmCount, 1 ≤ n) ∧
    s.confirmCount.length = min maximumTrackedDposConfirmations
      (s.blockNum - max 1 s.dposProposedIrreversibleBlocknum) ∧
    Stands hist s ∧
    s.dposProposedIrreversibleBlocknum ≤ s.blockNum ∧
    (∀ confirmed, (confirmLoopChecked (addU32 s.blockNum 1) (grown s).length (confirmed + 1)
      (grown s) s.dposProposedIrreversibleBlocknum).isSome = true) ∧
    ∀ when' confirmed p, next s when' confirmed = .ok p → Fits s p.producer confirmed →
      s.dposProposedIrreversibleBlocknum ≤ p.dposProposedIrreversibleBlocknum ∧
      p.dposProposedIrreversibleBlocknum ≤ p.blockNum := by
  obtain ⟨hc, hs⟩ := headers_invariants h
  refine ⟨?_, hs.length, stands_of_counting hc, hs.proposed, ?_, ?_⟩
  · intro n hn
    obtain ⟨k, hk, rfl⟩ := List.mem_iff_getElem.mp hn
    have hpos := getD_of_missing (P := (1 ≤ ·))
      (fun j hj => (hc.counters j hj).elim fun _ hr => hr.2.1) k hk
    rwa [List.getD_eq_getElem?_getD, List.getElem?_eq_getElem hk, Option.getD_some] at hpos
  · intro confirmed
    rw [confirmLoopChecked_eq _ _ _ _ _ (le_refl _)
      (getD_of_missing (P := fun n => 1 ≤ n ∧ n < 2 ^ 8) hc.grown_bounds)]
    rfl
  · intro when' confirmed p hnext hfits
    obtain ⟨a, hext, -, -⟩ := extended_unsigned hnext
    obtain ⟨hmono, hsized⟩ := sized_step hs hc hfits hext
    exact ⟨hmono, hsized.proposed⟩

/-! ## Two producers in turn

    With two producers a block needs two confirmations.  As long as each block
    confirms only itself, every counter stays at one and nothing is proposed,
    for as many blocks as there are slots. -/

/-- The producer of a slot. -/
def turn (slot : Nat) : ProducerAuthority :=
  ⟨if slot % 2 = 0 then producerA else producerB, ⟨1, [⟨[], 1⟩]⟩⟩

def twoKeys : List ProducerKey := [⟨producerA, []⟩, ⟨producerB, []⟩]

/-- The state after `n` blocks, one for each slot. -/
structure Idle (n : Nat) (s : BlockHeaderState) : Prop where
  num : s.blockNum = n + 1
  time : s.header.timestamp = n
  counts : s.confirmCount = List.replicate (min n 1024) 1
  proposed : s.dposProposedIrreversibleBlocknum = 0
  active : s.activeSchedule.producers = [turn 0, turn 1]
  pending : s.pendingSchedule.schedule.producers = [] ∨
    s.pendingSchedule.schedule.producers = [turn 0, turn 1]
  implied : ImpliedBelow s
  last : ∀ q v, s.producerToLastProduced.lookup q = some v → v ≤ n + 1
  rested : ∀ v, s.producerToLastProduced.lookup (turn (n + 1)).producerName = some v → v ≤ n

theorem idle_genesis (chainId : Digest) : Idle 0 (genesisState plainEnv 0 twoKeys chainId) :=
  ⟨rfl, rfl, rfl, rfl, rfl, .inr rfl, fun _ _ h => (nomatch h), fun _ _ h => (nomatch h),
    fun _ h => (nomatch h)⟩

theorem turn_ne (slot : Nat) : (turn (slot + 1)).producerName ≠ (turn slot).producerName := by
  unfold turn
  rcases Nat.mod_two_eq_zero_or_one slot with h | h
  · rw [if_neg (by omega), if_pos h]
    decide
  · rw [if_pos (by omega), if_neg (by omega)]
    decide

variable (p : PendingBlockHeaderState)

/-- The header of a block without a new schedule. -/
def plainHeader : BlockHeader where
  timestamp := p.timestamp
  producer := p.producer
  confirmed := p.confirmed
  previous := p.previous
  scheduleVersion := p.activeScheduleVersion

/-- The state that this header completes. -/
def plainState : BlockHeaderState :=
  { p.toBlockHeaderStateCommon with
    id := plainEnv.id (plainHeader p)
    header := plainHeader p
    pendingSchedule := nextPendingSchedule p none
    activatedProtocolFeatures := p.prevActivatedProtocolFeatures }

theorem finishNext_plain : finishNext plainEnv p (plainHeader p) = .ok (plainState p) := by
  simp only [finishNext, plainHeader, eosAssert, if_pos]
  rfl

/-- The counters that the next block starts from. -/
theorem Idle.grown_eq {n : Nat} {s : BlockHeaderState} (h : Idle n s) :
    grown s = List.replicate (min n 1023) 1 ++ [2] := by
  rw [grown, h.counts, h.active, growConfirmCount, List.length_replicate]
  split
  · rename_i hlt
    rw [show min n 1024 = min n 1023 by unfold maximumTrackedDposConfirmations at hlt; omega]
    rfl
  · rename_i hge
    rw [List.drop_replicate,
      show min n 1024 - 1 = min n 1023 by unfold maximumTrackedDposConfirmations at hge; omega]
    rfl

/-- The loop's first round takes the newest counter from two to one. -/
theorem confirmLoop_own (bn m b : Nat) :
    confirmLoop bn (m + 1) (b + 1) (List.replicate m 1 ++ [2]) 0 =
      confirmLoop bn m b (List.replicate (m + 1) 1) 0 := by
  have hget : (List.replicate m 1 ++ [2]).getD m 0 = 2 := by simp
  have hset : (List.replicate m 1 ++ [2]).set m 1 = List.replicate (m + 1) 1 := by
    rw [List.set_append_right _ _ (by simp), List.length_replicate, Nat.sub_self,
      List.replicate_succ']
    rfl
  rw [confirmLoop, hget, show (2 + (2 ^ 8 - 1)) % 2 ^ 8 = 1 from rfl, hset, if_neg (by simp)]

/-- The second round spends the counter of the block before. -/
theorem confirmLoop_spent (bn m : Nat) :
    confirmLoop bn (m + 1) 1 (List.replicate (m + 2) 1) 0 = ([1], subU32 bn 1) := by
  have hget : (List.replicate (m + 2) 1).getD m 0 = 1 := by simp
  have hset : (List.replicate (m + 2) 1).set m 0 = List.replicate m 1 ++ [0, 1] := by
    rw [List.replicate_add, List.set_append_right _ _ (by simp), List.length_replicate,
      Nat.sub_self]
    rfl
  have hdrop : (List.replicate m 1 ++ [0, 1]).drop (m + 1) = [1] := by
    rw [List.drop_append, List.length_replicate, Nat.add_sub_cancel_left,
      List.drop_eq_nil_of_le (by simp)]
    rfl
  rw [confirmLoop, hget, show (1 + (2 ^ 8 - 1)) % 2 ^ 8 = 0 from rfl, hset, if_pos (by simp),
    hdrop, List.length_append, List.length_replicate,
    show m + [0, 1].length - 1 - m = 1 by simp]

section Turns

variable {n : Nat} {s : BlockHeaderState}

/-- The producer of the next slot may produce a block that reaches back over
    what others produced since its last one. -/
theorem Idle.next_eq (h : Idle n s) {c : Nat} (hfree : ∀ v ≤ n, v < subU32 (addU32 (n + 1) 1) c) :
    next s (n + 1) c = .ok (nextState s (turn (n + 1)) (n + 1) c) := by
  have hslot : nextSlot s (n + 1) = .ok (n + 1) := by
    rw [nextSlot, if_pos (Nat.succ_ne_zero n), h.time, eosAssert, if_pos (Nat.lt_succ_self n)]
    rfl
  have hturn : getScheduledProducer s (n + 1) = some (turn (n + 1)) := by
    rw [getScheduledProducer, h.active]
    rcases Nat.mod_two_eq_zero_or_one (n + 1) with hm | hm
    · simp [producerRepetitions, hm, turn]
    · simp [producerRepetitions, hm, turn]
  have hcheck : checkDoubleConfirm s (turn (n + 1)).producerName c = .ok () := by
    unfold checkDoubleConfirm
    cases hl : s.producerToLastProduced.lookup (turn (n + 1)).producerName with
    | none => rfl
    | some v =>
      simp only [h.num, eosAssert, if_pos (hfree v (h.rested v hl))]
  simp only [next, hslot, hturn, hcheck, bind, Except.bind, pure, Except.pure]

/-- The entry of the new block's producer is its number, the others stay. -/
theorem Idle.last_step (h : Idle n s) {s' : BlockHeaderState} {a : ProducerAuthority} {c : Nat}
    (he : Extended s s' a c) {q : Name} {v : Nat} (hq : q ≠ a.producerName)
    (hv : s'.producerToLastProduced.lookup q = some v) : v ≤ n + 1 := by
  rcases he.schedules with hp | hk
  · rw [hp.lastProduced, AList.lookup_insert_ne hq, rebuildMap_lookup] at hv
    split at hv
    · cases hold : s.producerToLastProduced.lookup q with
      | some w =>
        rw [hold] at hv
        rw [← Option.some.inj hv]
        exact h.last q w hold
      | none =>
        -- a newcomer is seeded with the LIB, and nothing was ever proposed
        have hlib := h.implied.calc_le a.producerName
        rw [h.proposed] at hlib
        rw [hold, Option.getD_none, he.lib] at hv
        have := Option.some.inj hv
        omega
    · exact nomatch hv
  · rw [hk.lastProduced, AList.lookup_insert_ne hq] at hv
    exact h.last q v hv

theorem Idle.pending_step (h : Idle n s) {p : PendingBlockHeaderState}
    (hp : p.prevPendingSchedule = s.pendingSchedule) :
    (plainState p).pendingSchedule.schedule.producers = [] ∨
      (plainState p).pendingSchedule.schedule.producers = [turn 0, turn 1] := by
  show (nextPendingSchedule p none).schedule.producers = [] ∨ _
  cases hw : p.wasPendingPromoted with
  | true => exact .inl (nextPendingSchedule_promoted hw)
  | false =>
    show _ ∨ (nextPendingSchedule p none).schedule.producers = _
    rw [nextPendingSchedule_kept hw, hp]
    exact h.pending

theorem Idle.active_step (h : Idle n s) {s' : BlockHeaderState} {a : ProducerAuthority} {c : Nat}
    (he : Extended s s' a c) : s'.activeSchedule.producers = [turn 0, turn 1] := by
  rcases he.schedules with hp | hk
  · rw [hp.active]
    exact h.pending.resolve_left hp.pending
  · rw [hk.active]
    exact h.active

/-- **ONE IDLE BLOCK**: a block that confirms only itself. -/
theorem idle_step (h : Idle n s) (hfits : n + 2 < 2 ^ 32) :
    next s (n + 1) 0 = .ok (nextState s (turn (n + 1)) (n + 1) 0) ∧
      Idle (n + 1) (plainState (nextState s (turn (n + 1)) (n + 1) 0)) := by
  have hnext := h.next_eq (c := 0) (by
    intro v hv
    rw [addU32_of_lt (by omega), subU32_of_le (by omega) (by omega)]
    omega)
  obtain ⟨a, he, hprod, -⟩ := extended_of_step hnext (finishNext_plain _)
  have hname : a.producerName = (turn (n + 1)).producerName := hprod.symm
  have hnum := he.num
  rw [h.num, addU32_of_lt (by omega)] at hnum
  have hcounts : (_, _) = confirmLoop _ (grown s).length (0 + 1) (grown s) _ := he.counts
  rw [h.grown_eq, List.length_append, List.length_replicate, List.length_singleton,
    h.proposed, confirmLoop_own] at hcounts
  have hloop : confirmLoop (plainState (nextState s (turn (n + 1)) (n + 1) 0)).blockNum
      (min n 1023) 0 (List.replicate (min n 1023 + 1) 1) 0 =
      (List.replicate (min n 1023 + 1) 1, 0) := by
    cases min n 1023 with
    | zero => rfl
    | succ m => rfl
  rw [hloop] at hcounts
  obtain ⟨hcc, hproposed⟩ := Prod.mk.inj hcounts
  refine ⟨hnext, hnum, rfl, ?_, hproposed, h.active_step he, h.pending_step rfl, ?_, ?_, ?_⟩
  · rw [show min (n + 1) 1024 = min n 1023 + 1 by omega]
    exact hcc
  · intro q v hv
    have hzero := h.implied.step he q v hv
    rw [h.proposed] at hzero
    omega
  · intro q v hv
    by_cases hq : q = a.producerName
    · rw [hq, he.lookup_own] at hv
      have := Option.some.inj hv
      omega
    · have := h.last_step he hq hv
      omega
  · intro v hv
    refine h.last_step he ?_ hv
    rw [hname]
    exact turn_ne (n + 1)

/-- Idle blocks for as long as the block numbers fit. -/
theorem headers_idle (guard : StepGuard)
    (hguard : ∀ s q c, s.blockNum + 1 < 2 ^ 32 → guard s q c) :
    ∀ n, n + 1 < 2 ^ 32 → ∃ hist s, Headers plainEnv guard hist s ∧ Idle n s := by
  intro n
  induction n with
  | zero =>
    intro _
    exact ⟨[], _, .genesis 0 twoKeys 0 (by decide), idle_genesis 0⟩
  | succ n ih =>
    intro hfits
    obtain ⟨hist, s, hheaders, hidle⟩ := ih (by omega)
    obtain ⟨hnext, hidle'⟩ := idle_step hidle hfits
    refine ⟨_, _, hheaders.step hnext (hguard _ _ _ ?_) (finishNext_plain _) ?_, hidle'⟩
    · rw [hidle.num]
      omega
    · rcases hidle'.pending with hp | hp
      · rw [hp]
        decide
      · rw [hp]
        decide

/-- Two blocks of the chain, each one confirmation short. -/
theorem confirm_counts_two :
    ∃ hist s, Headers plainEnv Fits hist s ∧ s.confirmCount = [1, 1] ∧
      s.confirmCount.length = min maximumTrackedDposConfirmations
        (s.blockNum - max 1 s.dposProposedIrreversibleBlocknum) := by
  obtain ⟨hist, s, hheaders, hidle⟩ := headers_idle Fits (fun _ _ _ h => h) 2 (by omega)
  exact ⟨hist, s, hheaders, hidle.counts, (confirm_counts hheaders).2.1⟩

/-- Block `2 ^ 32` gets number zero.  It confirms its predecessor, whose number
    is the largest `uint32_t`: the proposed block is above the block number. -/
theorem proposed_passes_wrapped_number :
    ∃ hist s, Headers plainEnv (fun _ _ _ => True) hist s ∧
      s.header.timestamp < 2 ^ 32 ∧ s.blockNum = 0 ∧
      s.dposProposedIrreversibleBlocknum = 2 ^ 32 - 1 ∧ s.confirmCount.length = 1 := by
  obtain ⟨hist, s, hheaders, hidle⟩ :=
    headers_idle (fun _ _ _ => True) (fun _ _ _ _ => trivial) (2 ^ 32 - 2) (by omega)
  have hnext := hidle.next_eq (c := 1) (by
    intro v hv
    rw [show addU32 (2 ^ 32 - 2 + 1) 1 = 0 from rfl, show subU32 0 1 = 2 ^ 32 - 1 from rfl]
    omega)
  obtain ⟨a, he, hprod, -⟩ := extended_of_step hnext (finishNext_plain _)
  have hnum := he.num
  rw [hidle.num] at hnum
  have hcounts : (_, _) = confirmLoop _ (grown s).length (1 + 1) (grown s) _ := he.counts
  rw [hidle.grown_eq, List.length_append, List.length_replicate, List.length_singleton,
    hidle.proposed, show min (2 ^ 32 - 2) 1023 = 1022 + 1 from rfl, confirmLoop_own,
    confirmLoop_spent, hnum] at hcounts
  obtain ⟨hcc, hproposed⟩ := Prod.mk.inj hcounts
  refine ⟨_, _, hheaders.step hnext trivial (finishNext_plain _) ?_, ?_, hnum, hproposed, ?_⟩
  · rcases hidle.pending_step (p := nextState s (turn (2 ^ 32 - 2 + 1)) (2 ^ 32 - 2 + 1) 1) rfl
      with hp | hp
    · rw [hp]
      decide
    · rw [hp]
      decide
  · show 2 ^ 32 - 2 + 1 < 2 ^ 32
    omega
  · exact congrArg List.length hcc

end Turns

end HeaderCount
