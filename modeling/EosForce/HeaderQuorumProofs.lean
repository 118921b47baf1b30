import EosForce.HeaderChainProofs

/-! # The quorum behind a proposed irreversible block

    A block is proposed as irreversible when its counter of missing
    confirmations reaches zero.  Over a chain the counter of block `m` is the
    requirement of its schedule less the number of blocks whose confirmed
    range contains `m` (`Tracked`).  For that number to count *producers*, one
    producer must not cover a block twice; this is what the
    `producer_double_confirm` check is for (`Disjoint`).

    The check is made in wrapping arithmetic: a producer that claims to
    confirm more blocks than the chain has slips through it
    (`quorum_of_one_producer`).  On chains whose steps do not wrap the check
    is sound (`proposed_has_quorum`). -/

namespace HeaderQuorum

open ChainTypes HeaderState HeaderChain

/-- Block `m` is in the confirmed range of `r`. -/
def Covers (r : Produced) (m : Nat) : Prop :=
  r.blockNum ≤ m + r.confirmed ∧ m ≤ r.blockNum

instance (r : Produced) (m : Nat) : Decidable (Covers r m) :=
  inferInstanceAs (Decidable (_ ∧ _))

/-- How many blocks of the chain cover `m`. -/
def confs (hist : List Produced) (m : Nat) : Nat :=
  hist.countP fun r => Covers r m

/-- **THE QUORUM**: `⌊2n/3⌋ + 1` different producers confirmed block `b`,
    `n` being the size of the schedule that was active when it was appended. -/
def QuorumConfirmed (hist : List Produced) (b : Nat) : Prop :=
  ∃ rb ∈ hist, rb.blockNum = b ∧
    ∃ ps : List Name, ps.Nodup ∧ 2 * rb.scheduleSize / 3 + 1 ≤ ps.length ∧
      ∀ q ∈ ps, ∃ r ∈ hist, r.producer = q ∧ Covers r b

/-- The step does not leave `uint32_t`: the new block's number fits, and where
    the producer's last block is known it does not claim to confirm more
    blocks than there are. -/
def NoWrap : StepGuard := fun s producer confirmed =>
  s.blockNum + 1 < 2 ^ 32 ∧
    (s.producerToLastProduced.lookup producer = none ∨ confirmed ≤ s.blockNum + 1)

instance (s : BlockHeaderState) (n : Name) (c : Nat) : Decidable (NoWrap s n c) :=
  inferInstanceAs (Decidable (_ ∧ _))

/-! ## The counters count covering blocks -/

/-- Block numbers descend by one along the history, and each tracked counter
    is the requirement of its block less the blocks that cover it. -/
structure Counting (hist : List Produced) (s : BlockHeaderState) : Prop where
  num : s.blockNum = hist.length + 1
  numbers : ∀ (j : Nat) (r : Produced), hist[j]? = some r →
    r.blockNum + j = hist.length + 1
  counters : ∀ j < s.confirmCount.length, ∃ r, hist[j]? = some r ∧
    1 ≤ missing s.confirmCount j ∧
    missing s.confirmCount j + confs hist r.blockNum = requiredConfs r.scheduleSize
  sizes : ∀ r ∈ hist, r.scheduleSize ≤ maxProducers
  active : s.activeSchedule.producers.length ≤ maxProducers
  pending : s.pendingSchedule.schedule.producers.length ≤ maxProducers

variable {hist : List Produced}

theorem Counting.num_le {s : BlockHeaderState} (h : Counting hist s) {r : Produced}
    (hr : r ∈ hist) : r.blockNum ≤ s.blockNum := by
  obtain ⟨j, hj⟩ := List.mem_iff_getElem?.mp hr
  have := h.numbers j r hj
  have := h.num
  omega

/-- The requirement of a legal schedule fits the `uint8_t` counters. -/
theorem requiredConfs_lt {n : Nat} (h : n ≤ maxProducers) : requiredConfs n < 2 ^ 8 := by
  unfold requiredConfs maxProducers at *
  omega

theorem confs_cons (r : Produced) (hist : List Produced) (m : Nat) :
    confs (r :: hist) m = confs hist m + if Covers r m then 1 else 0 := by
  unfold confs
  rw [List.countP_cons]
  simp

/-- Nothing covers a block that is not yet there. -/
theorem confs_eq_zero {m : Nat} (h : ∀ r ∈ hist, r.blockNum < m) : confs hist m = 0 := by
  refine List.countP_eq_zero.mpr ?_
  intro r hr hc
  have hle := (of_decide_eq_true hc).2
  have := h r hr
  omega

section Step

variable {hist : List Produced} {s s' : BlockHeaderState} {a : ProducerAuthority}
  {c : Nat}

/-- The record of the block that `a` produced. -/
abbrev newRecord (s s' : BlockHeaderState) (a : ProducerAuthority) (c : Nat) : Produced :=
  ⟨s'.blockNum, a.producerName, c, s.activeSchedule.producers.length⟩

/-- The counters that the loop starts from. -/
abbrev grown (s : BlockHeaderState) : List Nat :=
  growConfirmCount s.confirmCount (requiredConfs s.activeSchedule.producers.length)

section

variable (h : Counting hist s) (hnum : s.blockNum + 1 < 2 ^ 32) (he : Extended s s' a c)
include h hnum he

theorem Counting.num_succ : s'.blockNum = hist.length + 2 := by
  rw [he.num, addU32_of_lt hnum, h.num]

theorem Counting.numbers_step (j : Nat) (r : Produced)
    (hr : (newRecord s s' a c :: hist)[j]? = some r) : r.blockNum + j = hist.length + 2 := by
  cases j with
  | zero =>
    rw [← Option.some.inj hr]
    exact h.num_succ hnum he
  | succ j =>
    have := h.numbers j r hr
    omega

/-- The counters before the loop are still those of the blocks without the new
    one. -/
theorem Counting.grown_counters {j : Nat} (hj : j < (grown s).length) :
    ∃ r, (newRecord s s' a c :: hist)[j]? = some r ∧ 1 ≤ missing (grown s) j ∧
      missing (grown s) j + confs hist r.blockNum = requiredConfs r.scheduleSize := by
  cases j with
  | zero =>
    refine ⟨newRecord s s' a c, rfl, ?_⟩
    have hzero : confs hist s'.blockNum = 0 := by
      refine confs_eq_zero ?_
      intro r hr
      have := h.num_le hr
      rw [he.num, addU32_of_lt hnum]
      omega
    rw [missing_grow_zero, Nat.mod_eq_of_lt (requiredConfs_lt h.active), hzero]
    exact ⟨Nat.le_add_left 1 _, rfl⟩
  | succ j =>
    obtain ⟨hj', hmiss⟩ := missing_grow_succ _ _ hj
    rw [hmiss]
    exact h.counters j hj'

omit hnum he in
/-- Before the loop every counter is at least one, and fits its `uint8_t`. -/
theorem Counting.grown_bounds :
    ∀ j < (grown s).length, 1 ≤ missing (grown s) j ∧ missing (grown s) j < 2 ^ 8 := by
  intro j hj
  cases j with
  | zero =>
    have hfits := requiredConfs_lt h.active
    rw [missing_grow_zero, Nat.mod_eq_of_lt hfits]
    exact ⟨Nat.le_add_left 1 _, hfits⟩
  | succ j =>
    obtain ⟨hj', hmiss⟩ := missing_grow_succ _ _ hj
    obtain ⟨r, hr, hpos, hsum⟩ := h.counters j hj'
    have hfits := requiredConfs_lt (h.sizes r (List.mem_of_getElem? hr))
    rw [hmiss]
    exact ⟨hpos, by omega⟩

omit hnum in
/-- The loop's effect, from the counters that the invariant describes. -/
theorem Counting.counted : Counted s'.blockNum c s.dposProposedIrreversibleBlocknum (grown s)
      s'.confirmCount s'.dposProposedIrreversibleBlocknum :=
  confirmLoop_counted h.grown_bounds he.counts

/-- The new block covers the block `j` behind it exactly when `j ≤ c`. -/
theorem Counting.covers_new_iff {j : Nat} {r : Produced}
    (hr : (newRecord s s' a c :: hist)[j]? = some r) :
    Covers (newRecord s s' a c) r.blockNum ↔ j ≤ c := by
  have hn := h.num_succ hnum he
  have hj := h.numbers_step hnum he j r hr
  unfold Covers
  dsimp only
  omega

theorem counting_step (hsize : s'.pendingSchedule.schedule.producers.length ≤ maxProducers) :
    Counting (newRecord s s' a c :: hist) s' := by
  refine ⟨h.num_succ hnum he, h.numbers_step hnum he, ?_, ?_, ?_, hsize⟩
  · intro j hj
    have hcounted := h.counted he
    obtain ⟨hmiss, hpos⟩ := hcounted.counters j hj
    have hgrown : j < (grown s).length := by
      rcases hcounted.proposes with ⟨-, hl⟩ | ⟨hl, -⟩ <;> omega
    obtain ⟨r, hr, -, hsum⟩ := h.grown_counters hnum he hgrown
    refine ⟨r, hr, hpos, ?_⟩
    rw [confs_cons, if_congr (h.covers_new_iff hnum he hr) rfl rfl]
    omega
  · exact List.forall_mem_cons.mpr ⟨h.active, h.sizes⟩
  · rcases he.schedules with hp | hk
    · rw [hp.active]
      exact h.pending
    · rw [hk.active]
      exact h.active

end

end Step

theorem counting_genesis (env : HeaderEnv) (t : Nat) (l : List ProducerKey)
    (chainId : Digest)
    (hsize : (LegacySchedule.upgrade ⟨0, l⟩).producers.length ≤ maxProducers) :
    Counting [] (genesisState env t l chainId) :=
  ⟨rfl, fun _ _ h => (nomatch h), fun _ h => (nomatch h), fun _ h => (nomatch h), hsize, hsize⟩

/-- The counters count, and no schedule has a producer twice. -/
structure Tracked (hist : List Produced) (s : BlockHeaderState) : Prop
    extends Counting hist s where
  activeOk : ScheduleOk s.activeSchedule
  pendingOk : ScheduleOk s.pendingSchedule.schedule

theorem tracked_step {s s' : BlockHeaderState} {a : ProducerAuthority} {c : Nat}
    (h : Tracked hist s) (hnum : s.blockNum + 1 < 2 ^ 32) (he : Extended s s' a c)
    (hok : ScheduleOk s'.pendingSchedule.schedule) : Tracked (newRecord s s' a c :: hist) s' := by
  refine ⟨counting_step h.toCounting hnum he hok.bounded, ?_, hok⟩
  rcases he.schedules with hp | hk
  · rw [hp.active]
    exact h.pendingOk
  · rw [hk.active]
    exact h.activeOk

theorem tracked_genesis (env : HeaderEnv) (t : Nat) (l : List ProducerKey)
    (chainId : Digest) (hok : ScheduleOk (LegacySchedule.upgrade ⟨0, l⟩)) :
    Tracked [] (genesisState env t l chainId) :=
  ⟨counting_genesis env t l chainId hok.bounded, hok, hok⟩

/-! ## No producer covers a block twice -/

/-- What the map of last produced blocks knows of the history. -/
structure OneEach (hist : List Produced) (s : BlockHeaderState) : Prop where
  /-- A known producer produced nothing after its entry. -/
  known : ∀ r ∈ hist, ∀ v, s.producerToLastProduced.lookup r.producer = some v →
    r.blockNum ≤ v
  /-- A producer that dropped out did so before the pending schedule came in,
      so the seed it would get on its return is not too low. -/
  forgotten : s.pendingSchedule.schedule.producers ≠ [] → ∀ r ∈ hist,
    s.producerToLastProduced.lookup r.producer = none →
    r.blockNum ≤ s.pendingSchedule.scheduleLibNum
  /-- From the first block on every active producer is known. -/
  active : hist ≠ [] → ∀ q ∈ s.activeSchedule.producers,
    s.producerToLastProduced.lookup q.producerName ≠ none
  /-- The genesis schedule is also pending, so the first block promotes it. -/
  fresh : hist = [] → s.pendingSchedule.schedule = s.activeSchedule ∧
    s.pendingSchedule.scheduleLibNum = 0
  disjoint : hist.Pairwise fun newer older =>
    newer.producer = older.producer → older.blockNum + newer.confirmed < newer.blockNum

section Step

variable {hist : List Produced} {s s' : BlockHeaderState} {a : ProducerAuthority}
  {c : Nat}

section

variable (h : OneEach hist s) (he : Extended s s' a c)
include h he

/-- The first block cannot leave the genesis schedule pending. -/
theorem OneEach.not_kept_fresh (hk : Kept s s' a) : hist ≠ [] := by
  intro hnil
  obtain ⟨hsched, hlib⟩ := h.fresh hnil
  have hne : s.pendingSchedule.schedule.producers ≠ [] := by
    rw [hsched]
    exact List.ne_nil_of_mem he.scheduled
  have := hk.waiting hne
  omega

omit he in
theorem OneEach.known_step (hle : ∀ r ∈ hist, r.blockNum ≤ s'.blockNum) (he : Extended s s' a c) :
    ∀ r ∈ newRecord s s' a c :: hist, ∀ v,
      s'.producerToLastProduced.lookup r.producer = some v → r.blockNum ≤ v := by
  intro r hr v hv
  have hrle : r.blockNum ≤ s'.blockNum := by
    rcases List.mem_cons.mp hr with rfl | hmem
    · exact le_refl _
    · exact hle r hmem
  by_cases hown : r.producer = a.producerName
  · -- the entry of the block's own producer is its number
    rw [hown, he.lookup_own] at hv
    rw [← Option.some.inj hv]
    exact hrle
  · have hmem : r ∈ hist := (List.mem_cons.mp hr).resolve_left fun h => hown (h ▸ rfl)
    rcases he.schedules with hp | hk
    · rw [hp.lastProduced, AList.lookup_insert_ne hown, rebuildMap_lookup] at hv
      split at hv
      · cases hold : s.producerToLastProduced.lookup r.producer with
        | some w =>
          rw [hold] at hv
          rw [← Option.some.inj hv]
          exact h.known r hmem w hold
        | none =>
          rw [hold] at hv
          rw [← Option.some.inj hv]
          exact le_trans (h.forgotten hp.pending r hmem hold) hp.reached
      · exact nomatch hv
    · rw [hk.lastProduced, AList.lookup_insert_ne hown] at hv
      exact h.known r hmem v hv

omit he in
theorem OneEach.forgotten_step (hle : ∀ r ∈ hist, r.blockNum ≤ s'.blockNum) (he : Extended s s' a c)
    (hne : s'.pendingSchedule.schedule.producers ≠ []) : ∀ r ∈ newRecord s s' a c :: hist,
      s'.producerToLastProduced.lookup r.producer = none →
      r.blockNum ≤ s'.pendingSchedule.scheduleLibNum := by
  intro r hr hnone
  rcases he.schedules with hp | hk
  · exact absurd hp.emptied hne
  · rw [hk.lastProduced] at hnone
    by_cases hown : r.producer = a.producerName
    · rw [hown, AList.lookup_insert] at hnone
      exact nomatch hnone
    · rw [AList.lookup_insert_ne hown] at hnone
      rcases List.mem_cons.mp hr with rfl | hmem
      · exact absurd rfl hown
      · rcases hk.pending with hsame | hnew
        · rw [hsame] at hne ⊢
          exact h.forgotten hne r hmem hnone
        · rw [hnew]
          exact hle r hmem

theorem OneEach.active_step : ∀ q ∈ s'.activeSchedule.producers,
      s'.producerToLastProduced.lookup q.producerName ≠ none := by
  intro q hq
  by_cases hown : q.producerName = a.producerName
  · rw [hown, he.lookup_own]
    exact Option.some_ne_none _
  · rcases he.schedules with hp | hk
    · rw [hp.active] at hq
      rw [hp.lastProduced, AList.lookup_insert_ne hown, rebuildMap_lookup,
        if_pos (List.mem_map_of_mem hq)]
      exact Option.some_ne_none _
    · rw [hk.active] at hq
      rw [hk.lastProduced, AList.lookup_insert_ne hown]
      exact h.active (h.not_kept_fresh he hk) q hq

omit he in
/-- **THE CHECK AT WORK**: a step that does not wrap does not reach back to a
    block of its own producer. -/
theorem OneEach.disjoint_new (hw : NoWrap s a.producerName c) (he : Extended s s' a c)
    {r : Produced} (hr : r ∈ hist) (hown : r.producer = a.producerName) :
    r.blockNum + c < s'.blockNum := by
  obtain ⟨hnum, hrange⟩ := hw
  have hsome := h.active (List.ne_nil_of_mem hr) a he.scheduled
  obtain ⟨v, hv⟩ := Option.ne_none_iff_exists'.mp hsome
  have hc := hrange.resolve_left hsome
  have hlast := checkDoubleConfirm_ok he.checked hv hnum hc
  have hknown := h.known r hr v (hown ▸ hv)
  rw [he.num, addU32_of_lt hnum]
  omega

omit he in
theorem oneEach_step (ht : Tracked hist s) (hw : NoWrap s a.producerName c)
    (he : Extended s s' a c) :
    OneEach (newRecord s s' a c :: hist) s' := by
  have hle : ∀ r ∈ hist, r.blockNum ≤ s'.blockNum := by
    intro r hr
    have := ht.num_le hr
    rw [he.num, addU32_of_lt hw.1]
    omega
  refine ⟨h.known_step hle he, h.forgotten_step hle he, fun _ => h.active_step he,
    fun hnil => (nomatch hnil), List.pairwise_cons.mpr ⟨?_, h.disjoint⟩⟩
  intro r hr hown
  exact h.disjoint_new hw he hr hown.symm

end

end Step

theorem oneEach_genesis (env : HeaderEnv) (t : Nat) (l : List ProducerKey)
    (chainId : Digest) : OneEach [] (genesisState env t l chainId) :=
  ⟨fun _ h => (nomatch h), fun _ _ h => (nomatch h), fun h => absurd rfl h,
    fun _ => ⟨rfl, rfl⟩, List.Pairwise.nil⟩

/-- Both invariants hold along every chain that does not wrap. -/
theorem chain_invariants {env : HeaderEnv} {s : BlockHeaderState} (h : Chain env NoWrap hist s) :
    Tracked hist s ∧ OneEach hist s := by
  refine chain_induction (I := fun hist s => Tracked hist s ∧ OneEach hist s) ?_ ?_ h
  · intro t l c hok
    exact ⟨tracked_genesis env t l c hok, oneEach_genesis env t l c⟩
  · rintro hist s s' a c ⟨ht, ho⟩ hw he hok
    exact ⟨tracked_step ht hw.1 he hok, oneEach_step ho ht hw he⟩

/-! ## The quorum -/

/-- Disjoint ranges turn a count of covering blocks into a set of producers. -/
theorem quorum_of_confs (hd : hist.Pairwise fun newer older => newer.producer = older.producer →
      older.blockNum + newer.confirmed < newer.blockNum) {rb : Produced} (hrb : rb ∈ hist)
    (hconfs : requiredConfs rb.scheduleSize ≤ confs hist rb.blockNum) :
    QuorumConfirmed hist rb.blockNum := by
  refine ⟨rb, hrb, rfl, (hist.filter fun r => Covers r rb.blockNum).map (·.producer), ?_, ?_, ?_⟩
  · refine List.pairwise_map.mpr ?_
    refine (List.pairwise_filter.mpr ?_)
    refine hd.imp ?_
    intro newer older hno hn ho heq
    have hfar := hno heq
    have hnear := (of_decide_eq_true hn).1
    have hle := (of_decide_eq_true ho).2
    omega
  · rw [List.length_map, ← List.countP_eq_length_filter, Nat.mul_comm]
    exact hconfs
  · intro q hq
    obtain ⟨r, hr, rfl⟩ := List.mem_map.mp hq
    obtain ⟨hmem, hcov⟩ := List.mem_filter.mp hr
    exact ⟨r, hmem, rfl, of_decide_eq_true hcov⟩

/-- **PROPOSED BLOCKS HAVE A QUORUM**: on a chain whose steps do not wrap,
    a step that sets the proposed irreversible block has `⌊2n/3⌋ + 1`
    different producers behind it. -/
theorem proposed_has_quorum {env : HeaderEnv} {hist : List Produced}
    {s : BlockHeaderState} {when' confirmed : Nat} {p : PendingBlockHeaderState}
    (hchain : Chain env NoWrap hist s) (hnext : next s when' confirmed = .ok p)
    (hw : NoWrap s p.producer confirmed)
    (hset : p.dposProposedIrreversibleBlocknum ≠ s.dposProposedIrreversibleBlocknum) :
    QuorumConfirmed (record s p :: hist) p.dposProposedIrreversibleBlocknum := by
  obtain ⟨ht, ho⟩ := chain_invariants hchain
  obtain ⟨a, he, hprod, hrec⟩ := extended_unsigned hnext
  rw [hprod] at hw
  rw [hrec]
  have hcounted := ht.counted he
  rcases hcounted.proposes with ⟨hsame, -⟩ | ⟨hlt, hreach, hone, hprop⟩
  · exact absurd hsame hset
  · -- the block `z` behind the new one got its last confirmation from it
    generalize (unsigned p).confirmCount.length = z at *
    obtain ⟨rb, hrb, -, hsum⟩ := ht.grown_counters hw.1 he hlt
    have hnum := ht.numbers_step hw.1 he z rb hrb
    have hb : rb.blockNum = p.dposProposedIrreversibleBlocknum := by
      have hn : p.blockNum = hist.length + 2 := ht.num_succ hw.1 he
      have hwrap : p.blockNum < 2 ^ 32 := by
        have := ht.num
        have := hw.1
        omega
      have hsub : p.dposProposedIrreversibleBlocknum = subU32 p.blockNum z := hprop
      rw [hsub, subU32_of_le hwrap (by omega)]
      omega
    rw [← hb]
    refine quorum_of_confs (oneEach_step ho ht hw he).disjoint (List.mem_of_getElem? hrb) ?_
    rw [confs_cons, if_pos ((ht.covers_new_iff hw.1 he hrb).mpr hreach)]
    omega

/-! ## Two chains -/

def producerA : Name := ⟨1⟩
def producerB : Name := ⟨2⟩
def producerC : Name := ⟨3⟩
def producerD : Name := ⟨4⟩

/-- The genesis state of a chain of four producers. -/
def fourProducers : BlockHeaderState :=
  genesisState plainEnv 0 [⟨producerA, []⟩, ⟨producerB, []⟩, ⟨producerC, []⟩, ⟨producerD, []⟩] 0

theorem chain_fourProducers (guard : StepGuard) : Chain plainEnv guard [] fourProducers :=
  Chain.genesis _ _ _ (by decide)

/-- The producers of a quorum are among those of the chain. -/
theorem QuorumConfirmed.length_le {b : Nat} (h : QuorumConfirmed hist b) {names : List Name}
    (hnames : ∀ r ∈ hist, r.producer ∈ names) :
    ∃ rb ∈ hist, rb.blockNum = b ∧ 2 * rb.scheduleSize / 3 + 1 ≤ names.length := by
  obtain ⟨rb, hrb, hb, ps, hnodup, hlen, hps⟩ := h
  refine ⟨rb, hrb, hb, le_trans hlen (List.subperm_of_subset hnodup ?_).length_le⟩
  intro q hq
  obtain ⟨r, hr, rfl, -⟩ := hps q hq
  exact hnames r hr

/-- Three blocks of one producer of four: each of the later two claims ten
    confirmed predecessors, which wraps the check, and the third is taken for
    the third confirmation of block 2. -/
theorem quorum_of_one_producer :
    ∃ hist s p, Chain plainEnv (fun _ _ _ => True) hist s ∧
      next s 12 10 = .ok p ∧
      p.dposProposedIrreversibleBlocknum ≠ s.dposProposedIrreversibleBlocknum ∧
      ¬ QuorumConfirmed (record s p :: hist) p.dposProposedIrreversibleBlocknum := by
  obtain ⟨r, hr, hrec⟩ : ∃ r, produceBlocks plainEnv (fun _ _ _ => True)
      ([], fourProducers) [⟨4, 10, none⟩, ⟨8, 10, none⟩] = some r ∧
      ∃ p, next r.2 12 10 = .ok p ∧ p.dposProposedIrreversibleBlocknum = 2 ∧
        r.2.dposProposedIrreversibleBlocknum = 0 ∧
        record r.2 p :: r.1 =
          [⟨4, producerA, 10, 4⟩, ⟨3, producerA, 10, 4⟩, ⟨2, producerA, 10, 4⟩] :=
    ⟨_, rfl, _, rfl, rfl, rfl, rfl⟩
  obtain ⟨p, hp, hprop, hzero, hhist⟩ := hrec
  refine ⟨r.1, r.2, p, chain_of_produceBlocks _ (chain_fourProducers _) hr, hp, ?_, ?_⟩
  · rw [hprop, hzero]
    decide
  · rw [hprop, hhist]
    intro hq
    obtain ⟨rb, hrb, -, hlen⟩ := hq.length_le
      (show ∀ r : Produced, r ∈ _ → r.producer ∈ [producerA] by decide)
    revert rb
    decide

/-- Three producers of four, each confirming what it has not confirmed yet:
    the third block completes the quorum of block 2. -/
theorem proposed_has_quorum_three :
    ∃ hist s p, Chain plainEnv NoWrap hist s ∧ next s 6 2 = .ok p ∧
      p.dposProposedIrreversibleBlocknum = 2 ∧
      QuorumConfirmed (record s p :: hist) p.dposProposedIrreversibleBlocknum := by
  obtain ⟨r, hr, p, hp, hprop, hzero, hw⟩ : ∃ r, produceBlocks plainEnv NoWrap
      ([], fourProducers) [⟨4, 0, none⟩, ⟨5, 1, none⟩] = some r ∧
      ∃ p, next r.2 6 2 = .ok p ∧ p.dposProposedIrreversibleBlocknum = 2 ∧
        r.2.dposProposedIrreversibleBlocknum = 0 ∧ NoWrap r.2 p.producer 2 :=
    ⟨_, rfl, _, rfl, rfl, rfl, by decide⟩
  have hchain := chain_of_produceBlocks _ (chain_fourProducers NoWrap) hr
  refine ⟨r.1, r.2, p, hchain, hp, hprop, proposed_has_quorum hchain hp hw ?_⟩
  rw [hprop, hzero]
  decide

end HeaderQuorum
