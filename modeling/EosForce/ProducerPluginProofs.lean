import EosForce.HeaderQuorumProofs
import Mathlib.Order.Bounds.Defs

/-! # The watermarks of a producing node

    A node that produces for several accounts remembers for each of them the
    highest block number and the latest slot that it has seen in a header of
    that account, its own blocks included.  `start_block` refuses to produce
    below this watermark and confirms only the blocks above it.  The node
    takes one block at a time from `start_block` to the commit, which reports
    the header; headers of other nodes may come in at any time, on any fork. -/

namespace ProducerPlugin

open ChainTypes HeaderState HeaderChain HeaderQuorum

/-- `producer_watermark`: a block number and a slot. -/
structure Watermark where
  blockNum : Nat
  timestamp : Nat
deriving DecidableEq, Repr

/-- The part of `producer_plugin_impl` that decides about production, with the
    block it is producing.  `produced` records the blocks that were committed,
    the newest first. -/
structure Plugin where
  producers : List Name
  watermarks : Name → Option Watermark := fun _ => none
  pending : Option Produced := none
  pendingTimestamp : Nat := 0
  produced : List Produced := []

variable (s : Plugin)

/-- `consider_new_watermark`. -/
def considerNewWatermark (producer : Name) (blockNum timestamp : Nat) : Plugin :=
  match s.watermarks producer with
  | some w =>
    { s with watermarks := fun p =>
        if p = producer then some ⟨max w.blockNum blockNum, max w.timestamp timestamp⟩
        else s.watermarks p }
  | none =>
    if producer ∈ s.producers then
      { s with watermarks := fun p =>
          if p = producer then some ⟨blockNum, timestamp⟩ else s.watermarks p }
    else s

inductive PendingBlockMode where
  | producing
  | speculating
deriving DecidableEq, Repr

/-- What else `start_block` looks at before it produces. -/
structure Conditions where
  productionEnabled : Bool := true
  numRelevantSignatures : Nat := 1
  pauseProduction : Bool := false
  irreversibleBlockTooOld : Bool := false

/-- Whether the watermark excludes the producer at this point. -/
def excluded (w : Option Watermark) (headNum blockTime : Nat) : Bool :=
  match w with
  | some w => decide (headNum < w.blockNum) || decide (blockTime ≤ w.timestamp)
  | none => false

/-- The mode that `start_block` settles on. -/
def pendingBlockMode (c : Conditions) (scheduled : Name) (headNum blockTime : Nat) :
    PendingBlockMode :=
  if c.productionEnabled = false then .speculating
  else if scheduled ∉ s.producers then .speculating
  else if c.numRelevantSignatures = 0 then .speculating
  else if c.pauseProduction then .speculating
  else if c.irreversibleBlockTooOld then .speculating
  else if excluded (s.watermarks scheduled) headNum blockTime then .speculating
  else .producing

/-- `blocks_to_confirm`. -/
def blocksToConfirm (mode : PendingBlockMode) (w : Option Watermark) (hbs : BlockHeaderState) :
    Nat :=
  match mode with
  | .speculating => 0
  | .producing =>
    let above :=
      match w with
      | some w =>
        if w.blockNum < hbs.blockNum then min (2 ^ 16 - 1) (subU32 hbs.blockNum w.blockNum)
        else 0
      | none => 0
    -- can not confirm irreversible blocks
    min above (subU32 hbs.blockNum hbs.dposIrreversibleBlocknum)

/-- `calculate_pending_block_time`, in slots: the one after the present and
    after the head's. -/
def calculatePendingBlockTime (now : Nat) (hbs : BlockHeaderState) : Nat :=
  max now hbs.header.timestamp + 1

/-- `start_block` on the head `hbs`.  Only a block in production is kept as
    pending: a speculative one is never committed. -/
def startBlock (c : Conditions) (now : Nat) (hbs : BlockHeaderState) : Plugin :=
  let blockTime := calculatePendingBlockTime now hbs
  match getScheduledProducer hbs blockTime with
  | none => s
  | some scheduled =>
    let mode := pendingBlockMode s c scheduled.producerName hbs.blockNum blockTime
    let confirm := blocksToConfirm mode (s.watermarks scheduled.producerName) hbs
    match next hbs blockTime confirm with
    | .error _ => { s with pending := none }
    | .ok p =>
      if mode = .producing ∧ p.validBlockSigningAuthority = scheduled.authority then
        { s with pending := some (record hbs p), pendingTimestamp := p.timestamp }
      else { s with pending := none }

/-- `produce_block`: the pending block is signed and committed, and the
    controller reports its header. -/
def produceBlock : Plugin :=
  match s.pending with
  | none => s
  | some b =>
    considerNewWatermark { s with pending := none, produced := b :: s.produced }
      b.producer b.blockNum s.pendingTimestamp

/-- `on_block_header`. -/
def onBlockHeader (h : BlockHeaderState) : Plugin :=
  considerNewWatermark s h.header.producer h.blockNum h.header.timestamp

/-! ## Runs -/

inductive Event where
  | header (h : BlockHeaderState)
  | start (c : Conditions) (now : Nat) (hbs : BlockHeaderState)
  | abort
  | produce

def Plugin.step : Event → Plugin
  | .header h => onBlockHeader s h
  | .start c now hbs => startBlock s c now hbs
  | .abort => { s with pending := none }
  | .produce => produceBlock s

/-- A run of the plugin from its start. -/
def runOf (producers : List Name) (events : List Event) : Plugin :=
  events.foldl Plugin.step { producers := producers }

/-- No block has a number that both confirm. -/
def Apart (a b : Produced) : Prop := ∀ m, ¬ (Covers a m ∧ Covers b m)

/-- The number of a block on this head fits `uint32_t`. -/
def Event.Fits : Event → Prop
  | .start _ _ hbs => hbs.blockNum + 1 < 2 ^ 32
  | _ => True

/-! ## Watermarks only rise -/

section Watermarks

variable {s : Plugin} {q : Name}

theorem considerNewWatermark_rest (s : Plugin) (q : Name) (n t : Nat) :
    (considerNewWatermark s q n t).producers = s.producers ∧
    (considerNewWatermark s q n t).pending = s.pending ∧
    (considerNewWatermark s q n t).produced = s.produced := by
  unfold considerNewWatermark
  split
  · exact ⟨rfl, rfl, rfl⟩
  · split
    · exact ⟨rfl, rfl, rfl⟩
    · exact ⟨rfl, rfl, rfl⟩

/-- What a watermark says is not taken back. -/
theorem considerNewWatermark_mono {w : Watermark} (h : s.watermarks q = some w) (p : Name)
    (n t : Nat) : ∃ w', (considerNewWatermark s p n t).watermarks q = some w' ∧
      w.blockNum ≤ w'.blockNum := by
  unfold considerNewWatermark
  cases hp : s.watermarks p with
  | some v =>
    by_cases hq : q = p
    · subst hq
      rw [h] at hp
      cases hp
      exact ⟨_, if_pos rfl, le_max_left _ _⟩
    · exact ⟨w, (if_neg hq).trans h, le_refl _⟩
  | none =>
    have hq : q ≠ p := by
      rintro rfl
      rw [h] at hp
      exact nomatch hp
    dsimp only
    split
    · exact ⟨w, (if_neg hq).trans h, le_refl _⟩
    · exact ⟨w, h, le_refl _⟩

/-- A header of one of the node's producers leaves a watermark at its number. -/
theorem considerNewWatermark_own (hq : q ∈ s.producers) (n t : Nat) :
    ∃ w, (considerNewWatermark s q n t).watermarks q = some w ∧ n ≤ w.blockNum := by
  unfold considerNewWatermark
  cases hp : s.watermarks q with
  | some v => exact ⟨_, if_pos rfl, le_max_right _ _⟩
  | none =>
    dsimp only
    rw [if_pos hq]
    exact ⟨_, if_pos rfl, le_refl _⟩

end Watermarks

/-! ## The invariant -/

/-- Every produced block is at or below its producer's watermark; the block in
    production and every produced block confirm nothing at or below earlier
    blocks of the same producer. -/
structure Careful (s : Plugin) : Prop where
  marked : ∀ r ∈ s.produced, ∃ w, s.watermarks r.producer = some w ∧ r.blockNum ≤ w.blockNum
  own : ∀ b, s.pending = some b → b.producer ∈ s.producers
  above : ∀ b, s.pending = some b → ∀ r ∈ s.produced, r.producer = b.producer →
    r.blockNum + b.confirmed < b.blockNum
  apart : s.produced.Pairwise fun newer older => newer.producer = older.producer →
    older.blockNum + newer.confirmed < newer.blockNum

theorem careful_consider {s : Plugin} (h : Careful s) (q : Name) (n t : Nat) :
    Careful (considerNewWatermark s q n t) := by
  obtain ⟨hprod, hpend, hlist⟩ := considerNewWatermark_rest s q n t
  refine ⟨?_, ?_, ?_, ?_⟩
  · rw [hlist]
    intro r hr
    obtain ⟨w, hw, hle⟩ := h.marked r hr
    obtain ⟨w', hw', hle'⟩ := considerNewWatermark_mono hw q n t
    exact ⟨w', hw', le_trans hle hle'⟩
  · rw [hpend, hprod]
    exact h.own
  · rw [hpend, hlist]
    exact h.above
  · rw [hlist]
    exact h.apart

/-- Without a pending block there is less to keep. -/
theorem Careful.aborted {s : Plugin} (h : Careful s) : Careful { s with pending := none } :=
  ⟨h.marked, fun _ hb => (nomatch hb), fun _ hb => (nomatch hb), h.apart⟩

/-- In production the scheduled producer is the node's and not excluded. -/
theorem pendingBlockMode_producing {s : Plugin} {c : Conditions} {q : Name} {n t : Nat}
    (h : pendingBlockMode s c q n t = .producing) :
    q ∈ s.producers ∧ ∀ w, s.watermarks q = some w → w.blockNum ≤ n := by
  unfold pendingBlockMode at h
  split at h
  · cases h
  split at h
  · cases h
  rename_i hq
  split at h
  · cases h
  split at h
  · cases h
  split at h
  · cases h
  split at h
  · cases h
  rename_i hexcluded
  refine ⟨not_not.mp hq, ?_⟩
  intro w hw
  rw [hw] at hexcluded
  simp only [excluded, Bool.or_eq_true, decide_eq_true_eq, not_or] at hexcluded
  omega

/-- The confirmed blocks are above the watermark. -/
theorem blocksToConfirm_above {hbs : BlockHeaderState} {w : Watermark}
    (hfits : hbs.blockNum + 1 < 2 ^ 32) (hw : w.blockNum ≤ hbs.blockNum) :
    w.blockNum + blocksToConfirm .producing (some w) hbs < hbs.blockNum + 1 := by
  unfold blocksToConfirm
  dsimp only
  split
  · rw [subU32_of_le (by omega) hw]
    omega
  · omega

/-- The block that `next` starts in a given slot is that of the slot's
    producer. -/
theorem next_scheduled {hbs : BlockHeaderState} {slot c : Nat} {p : PendingBlockHeaderState}
    {a : ProducerAuthority} (hslot : slot ≠ 0) (ha : getScheduledProducer hbs slot = some a)
    (h : next hbs slot c = .ok p) : p = nextState hbs a slot c := by
  unfold next at h
  obtain ⟨slot', hnext, h⟩ := except_bind_ok h
  have hsame : slot' = slot := by
    rw [nextSlot, if_pos hslot] at hnext
    obtain ⟨_, -, hnext⟩ := except_bind_ok hnext
    exact (Except.ok.inj hnext).symm
  rw [hsame, ha] at h
  obtain ⟨_, -, h⟩ := except_bind_ok h
  exact (Except.ok.inj h).symm

/-- **STARTING A BLOCK** keeps clear of everything produced before. -/
theorem careful_startBlock {s : Plugin} (h : Careful s) (c : Conditions) (now : Nat)
    {hbs : BlockHeaderState} (hfits : hbs.blockNum + 1 < 2 ^ 32) :
    Careful (startBlock s c now hbs) := by
  unfold startBlock
  dsimp only
  cases ha : getScheduledProducer hbs (calculatePendingBlockTime now hbs) with
  | none => exact h
  | some a =>
    dsimp only
    generalize hmode : pendingBlockMode s c a.producerName hbs.blockNum
      (calculatePendingBlockTime now hbs) = mode
    cases hnext : next hbs (calculatePendingBlockTime now hbs)
        (blocksToConfirm mode (s.watermarks a.producerName) hbs) with
    | error e => exact h.aborted
    | ok p =>
      dsimp only
      split
      · rename_i hproducing
        obtain ⟨rfl, -⟩ := hproducing
        obtain ⟨hown, hbelow⟩ := pendingBlockMode_producing hmode
        have hp := next_scheduled (Nat.succ_ne_zero _) ha hnext
        have hrec : record hbs p = ⟨hbs.blockNum + 1, a.producerName,
            blocksToConfirm .producing (s.watermarks a.producerName) hbs,
            hbs.activeSchedule.producers.length⟩ := by
          rw [hp]
          show (⟨addU32 hbs.blockNum 1, _, _, _⟩ : Produced) = _
          rw [addU32_of_lt hfits]
          rfl
        refine ⟨h.marked, ?_, ?_, h.apart⟩
        · rintro b ⟨⟩
          rw [hrec]
          exact hown
        · rintro b ⟨⟩ r hr hsame
          rw [hrec] at hsame ⊢
          obtain ⟨w, hw, hle⟩ := h.marked r hr
          rw [hsame] at hw
          have habove := blocksToConfirm_above hfits (hbelow w hw)
          rw [hw]
          dsimp only
          omega
      · exact h.aborted

/-- **PRODUCING A BLOCK** reports it before the next one is started. -/
theorem careful_produceBlock {s : Plugin} (h : Careful s) : Careful (produceBlock s) := by
  unfold produceBlock
  cases hb : s.pending with
  | none => exact h
  | some b =>
    dsimp only
    have hown : b.producer ∈ s.producers := h.own b hb
    obtain ⟨hprod, hpend, hlist⟩ := considerNewWatermark_rest
      { s with pending := none, produced := b :: s.produced } b.producer b.blockNum
      s.pendingTimestamp
    refine ⟨?_, ?_, ?_, ?_⟩
    · rw [hlist]
      intro r hr
      rcases List.mem_cons.mp hr with rfl | hold
      · exact considerNewWatermark_own (s := { s with pending := none, produced := _ }) hown _ _
      · obtain ⟨w, hw, hle⟩ := h.marked r hold
        obtain ⟨w', hw', hle'⟩ := considerNewWatermark_mono
          (s := { s with pending := none, produced := b :: s.produced }) hw
          b.producer b.blockNum s.pendingTimestamp
        exact ⟨w', hw', le_trans hle hle'⟩
    · rw [hpend]
      exact fun _ hn => (nomatch hn)
    · rw [hpend]
      exact fun _ hn => (nomatch hn)
    · rw [hlist]
      refine List.pairwise_cons.mpr ⟨?_, h.apart⟩
      intro r hr hsame
      exact h.above b hb r hr hsame.symm

theorem careful_step {s : Plugin} (h : Careful s) {e : Event} (hfits : e.Fits) :
    Careful (s.step e) := by
  cases e with
  | header hd => exact careful_consider h _ _ _
  | start c now hbs => exact careful_startBlock h c now hfits
  | abort => exact h.aborted
  | produce => exact careful_produceBlock h

theorem careful_run (producers : List Name) (events : List Event)
    (hfits : ∀ e ∈ events, e.Fits) : Careful (runOf producers events) := by
  -- the invariant is carried along the list from any careful state
  suffices hrun : ∀ s, Careful s → Careful (events.foldl Plugin.step s) by
    exact hrun _ ⟨fun _ hr => (nomatch hr), fun _ hb => (nomatch hb), fun _ hb => (nomatch hb),
      List.Pairwise.nil⟩
  induction events with
  | nil => exact fun _ h => h
  | cons e rest ih =>
    intro s h
    exact ih (fun e' he' => hfits e' (List.mem_cons_of_mem _ he')) _
      (careful_step h (hfits e List.mem_cons_self))

/-- **NO DOUBLE CONFIRMATION**: in every run on heads whose successors have a
    number, any two blocks that the node produces for one producer confirm
    disjoint ranges, whatever the forks. -/
theorem produced_ranges_apart (producers : List Name) (events : List Event)
    (hfits : ∀ e ∈ events, e.Fits) :
    (runOf producers events).produced.Pairwise fun a b => a.producer = b.producer → Apart a b := by
  refine (careful_run producers events hfits).apart.imp ?_
  intro newer older hfar hsame m ⟨hnew, hold⟩
  have hgap := hfar hsame
  unfold Covers at hnew hold
  omega

/-! ## Two runs -/

/-- A head with a single scheduled producer. -/
def headOf (producer : Name) (blockNum lib timestamp : Nat) : BlockHeaderState where
  blockNum := blockNum
  dposIrreversibleBlocknum := lib
  activeSchedule := ⟨1, [⟨producer, {}⟩]⟩
  header := { timestamp := timestamp }

/-- Blocks 6 and 10 on different forks: the second confirms back to block 7,
    the first block above its producer's watermark. -/
def twoForks : List Event :=
  [.start {} 5 (headOf producerA 5 0 4), .produce, .start {} 9 (headOf producerA 9 0 8), .produce]

theorem produced_ranges_apart_forks :
    (runOf [producerA] twoForks).produced = [⟨10, producerA, 3, 1⟩, ⟨6, producerA, 0, 1⟩] ∧
    (runOf [producerA] twoForks).produced.Pairwise
      fun a b => a.producer = b.producer → Apart a b := by
  refine ⟨by decide, produced_ranges_apart [producerA] twoForks ?_⟩
  intro e he
  simp only [twoForks, List.mem_cons, List.not_mem_nil, or_false] at he
  rcases he with rfl | rfl | rfl | rfl
  · exact (by decide : 5 + 1 < 2 ^ 32)
  · trivial
  · exact (by decide : 9 + 1 < 2 ^ 32)
  · trivial

/-- **COUNTEREXAMPLE**: on two heads with the last block number a node
    produces block zero twice, since the watermark of the first one does not
    exclude the second. -/
theorem wrapped_block_produced_twice :
    ∃ events a b, (runOf [producerA] events).produced = [a, b] ∧
      a.producer = b.producer ∧ ¬ Apart a b := by
  refine ⟨[.start {} 5 (headOf producerA (2 ^ 32 - 1) (2 ^ 32 - 1) 4), .produce,
    .start {} 9 (headOf producerA (2 ^ 32 - 1) (2 ^ 32 - 1) 8), .produce],
    ⟨0, producerA, 0, 1⟩, ⟨0, producerA, 0, 1⟩, by decide, rfl, ?_⟩
  intro hapart
  exact hapart 0 ⟨by decide, by decide⟩

/-! ## The next slot of a producer -/

/-- `block_timestamp::to_time_point`, in microseconds. -/
def toTimePoint (slot : Nat) : Nat := (slot * 3000 + 946684800000) * 1000

variable (hbs : BlockHeaderState) (isBuildingBlock : Bool) (producer : Name) (currentSlot : Nat)

/-- `minimum_offset`, where `blockNum` is the number of the head. -/
def minimumOffset (watermark : Option Watermark) (blockNum : Nat) : Nat :=
  match watermark with
  | none => 1
  | some w =>
    let blockNum := if isBuildingBlock then addU32 blockNum 1 else blockNum
    let offset := if blockNum < w.blockNum then addU32 (subU32 w.blockNum blockNum) 1 else 1
    if currentSlot < w.timestamp then max offset (addU32 (subU32 w.timestamp currentSlot) 1)
    else offset

/-- `calculate_next_block_time`, where `hbs` is the head. -/
def calculateNextBlockTime : Option Nat :=
  let size := hbs.activeSchedule.producers.length
  match hbs.activeSchedule.producers.findIdx? (·.producerName = producer) with
  | none => none
  | some producerIndex =>
    let minimumSlot := addU32 currentSlot
      (minimumOffset isBuildingBlock currentSlot (s.watermarks producer) hbs.blockNum)
    let minimumIndex := minimumSlot % (size * producerRepetitions) / producerRepetitions
    if producerIndex = minimumIndex then some (toTimePoint minimumSlot)
    else
      -- a difference of two `size_t`
      let distance := (producerIndex + 2 ^ 64 - minimumIndex) % 2 ^ 64
      let distance := if producerIndex < distance then (distance + size) % 2 ^ 64 else distance
      let firstSlot := subU32 minimumSlot (minimumSlot % producerRepetitions)
      some (toTimePoint (addU32 firstSlot (distance * producerRepetitions)))

/-- The first slot behind the current one, by as many as the watermark is ahead
    in blocks, and behind the slot of the watermark. -/
def firstOpen (watermark : Option Watermark) (blockNum : Nat) : Nat :=
  match watermark with
  | none => currentSlot + 1
  | some w => max (currentSlot + (w.blockNum -
      if isBuildingBlock then addU32 blockNum 1 else blockNum)) w.timestamp + 1

/-- The slots of a producer that its watermark leaves open. -/
def openSlots : Set Nat :=
  {t | firstOpen isBuildingBlock currentSlot (s.watermarks producer) hbs.blockNum ≤ t ∧
    ∃ a, getScheduledProducer hbs t = some a ∧ a.producerName = producer}

variable {s hbs isBuildingBlock producer currentSlot}

theorem addU32_minimumOffset {watermark : Option Watermark} {blockNum : Nat}
    (h : firstOpen isBuildingBlock currentSlot watermark blockNum < 2 ^ 32) :
    addU32 currentSlot (minimumOffset isBuildingBlock currentSlot watermark blockNum) =
      firstOpen isBuildingBlock currentSlot watermark blockNum := by
  cases watermark with
  | none => exact addU32_of_lt h
  | some w =>
    unfold firstOpen minimumOffset at *
    generalize (if isBuildingBlock then addU32 blockNum 1 else blockNum) = num at *
    unfold addU32 subU32
    grind

/-- The next number from `m` on with the remainder `i`. -/
theorem isLeast_mod {m n i : Nat} (hi : i < n) : IsLeast {t | m ≤ t ∧ t % n = i}
    (m + if m % n ≤ i then i - m % n else i + n - m % n) := by
  have hm := Nat.div_add_mod m n
  have hr := Nat.mod_lt m (Nat.zero_lt_of_lt hi)
  constructor
  · refine ⟨Nat.le_add_right _ _, ?_⟩
    split
    · rw [show m + (i - m % n) = i + n * (m / n) by omega, Nat.add_mul_mod_self_left,
        Nat.mod_eq_of_lt hi]
    · rw [show m + (i + n - m % n) = i + n * (m / n + 1) by rw [Nat.mul_succ]; omega,
        Nat.add_mul_mod_self_left, Nat.mod_eq_of_lt hi]
  · rintro t ⟨hle, rfl⟩
    have ht := Nat.div_add_mod t n
    rcases Nat.eq_or_lt_of_le (Nat.div_le_div_right (c := n) hle) with heq | hlt
    · rw [heq] at hm
      split <;> omega
    · have hnext := Nat.mul_le_mul_left n hlt
      rw [Nat.mul_succ] at hnext
      split <;> omega

section

variable (hnodup : (hbs.activeSchedule.producers.map (·.producerName)).Nodup)
include hnodup

theorem scheduled_iff {i : Nat}
    (hi : hbs.activeSchedule.producers.findIdx? (·.producerName = producer) = some i) (t : Nat) :
    (∃ a, getScheduledProducer hbs t = some a ∧ a.producerName = producer) ↔
      t % hbs.activeSchedule.producers.length = i := by
  obtain ⟨hlt, hname, -⟩ := List.findIdx?_eq_some_iff_getElem.mp hi
  have hi : (hbs.activeSchedule.producers.map (·.producerName))[i]? = some producer := by
    rw [List.getElem?_map, List.getElem?_eq_getElem hlt]
    exact congrArg some (of_decide_eq_true hname)
  have hin : t % hbs.activeSchedule.producers.length <
      (hbs.activeSchedule.producers.map (·.producerName)).length := by
    rw [List.length_map]
    exact Nat.mod_lt t (Nat.zero_lt_of_lt hlt)
  rw [← List.getElem?_inj hin hnodup, hi, List.getElem?_map,
    Option.map_eq_some_iff, getScheduledProducer]
  simp only [producerRepetitions, Nat.mul_one, Nat.div_one]

/-- **NEXT SLOT**: the time of the first open slot of the producer, in a schedule
    that lists no producer twice. -/
theorem calculateNextBlockTime_least
    (hmem : ∃ a ∈ hbs.activeSchedule.producers, a.producerName = producer) :
    ∃ t, IsLeast (openSlots s hbs isBuildingBlock producer currentSlot) t ∧ (t < 2 ^ 32 →
      calculateNextBlockTime s hbs isBuildingBlock producer currentSlot =
        some (toTimePoint t)) := by
  cases hfind : hbs.activeSchedule.producers.findIdx? (·.producerName = producer) with
  | none =>
    obtain ⟨a, ha, hname⟩ := hmem
    have := List.findIdx?_eq_none_iff.mp hfind a ha
    exact absurd hname (of_decide_eq_false this)
  | some i =>
    have hlt := (List.findIdx?_eq_some_iff_getElem.mp hfind).1
    simp only [openSlots, scheduled_iff hnodup hfind]
    refine ⟨_, isLeast_mod hlt, fun ht => ?_⟩
    rw [calculateNextBlockTime, hfind]
    dsimp only
    rw [addU32_minimumOffset (Nat.lt_of_le_of_lt (Nat.le_add_right _ _) ht)]
    simp only [producerRepetitions, Nat.mul_one, Nat.div_one, Nat.mod_one]
    generalize firstOpen isBuildingBlock currentSlot (s.watermarks producer) hbs.blockNum = m at *
    have hle := Nat.mod_le m hbs.activeSchedule.producers.length
    have hr := Nat.mod_lt m (Nat.zero_lt_of_lt hlt)
    generalize m % hbs.activeSchedule.producers.length = r at *
    rw [subU32_of_le (by omega) (Nat.zero_le m), Nat.sub_zero]
    by_cases hri : r ≤ i
    · rw [if_pos hri] at ht ⊢
      have hdistance : (i + 2 ^ 64 - r) % 2 ^ 64 = i - r := by omega
      rw [hdistance, if_neg (by omega : ¬ i < i - r), addU32_of_lt ht]
      split
      · next heq => rw [heq, Nat.sub_self, Nat.add_zero]
      · rfl
    · -- the difference has wrapped around
      rw [if_neg hri] at ht ⊢
      have hdistance : (i + 2 ^ 64 - r) % 2 ^ 64 = i + 2 ^ 64 - r := by omega
      have hwrap : (i + 2 ^ 64 - r + hbs.activeSchedule.producers.length) % 2 ^ 64 =
          i + hbs.activeSchedule.producers.length - r := by omega
      rw [if_neg (by omega), hdistance, if_pos (by omega), hwrap, addU32_of_lt ht]

end

/-- A head with this schedule, and a node with this watermark. -/
def headWith (names : List Name) : BlockHeaderState where
  activeSchedule := ⟨1, names.map (⟨·, {}⟩)⟩

def marked (w : Option Watermark) : Plugin where
  producers := []
  watermarks _ := w

theorem calculateNextBlockTime_least_two :
    ∃ t, IsLeast (openSlots (marked (some ⟨3, 9⟩)) (headWith [producerA, producerB]) true
      producerB 4) t ∧ (t < 2 ^ 32 → calculateNextBlockTime (marked (some ⟨3, 9⟩))
        (headWith [producerA, producerB]) true producerB 4 = some (toTimePoint t)) :=
  calculateNextBlockTime_least (by decide) (by decide)

/-- **COUNTEREXAMPLE**: the second of two places in the schedule comes first, in
    slot 2, but the function looks for the first place. -/
theorem calculateNextBlockTime_listed_twice :
    IsLeast (openSlots (marked none) (headWith [producerA, producerB, producerA]) false
      producerA 1) 2 ∧
    calculateNextBlockTime (marked none) (headWith [producerA, producerB, producerA]) false
      producerA 1 = some (toTimePoint 3) :=
  ⟨⟨⟨Nat.le_refl 2, _, rfl, rfl⟩, fun _ ht => ht.1⟩, rfl⟩

end ProducerPlugin
