import EosForce.HeaderQuorumProofs
import Mathlib.Order.Bounds.Defs

/-! # Does irreversibility go back?

    `calc_dpos_last_irreversible` takes the entry a third of the way up the
    producers' last implied irreversible blocks.  It falls below the current
    LIB exactly when more than that third of the entries lie below it
    (`Steady` says they do not).  An ordinary step always leaves a steady
    state, since the LIB it writes is the order statistic of the very map it
    leaves behind.  A promotion replaces the map: a producer of the new
    schedule that is already known keeps its old entry, however far behind it
    is, while a newcomer is seeded with the LIB.  A schedule of laggards
    therefore takes the LIB back (`lib_falls_after_promotion`). -/

namespace HeaderLib

open ChainTypes OrderStat HeaderState HeaderChain HeaderQuorum

/-- Entries below `v` of producers other than `skip`. -/
def staleEntries (m : ProducerMap) (skip : Name) (v : Nat) : Nat :=
  m.entries.countP fun e => e.1 ≠ skip ∧ e.2 < v

/-- At most the tolerated third of the other producers' entries is below the
    LIB. -/
def FewStale (s : BlockHeaderState) (producer : Name) : Prop :=
  staleEntries s.producerToLastImpliedIrb producer s.dposIrreversibleBlocknum ≤
    (s.producerToLastImpliedIrb.entries.length - 1) / 3

/-- Block numbers stay in `uint32_t`. -/
def Fits : StepGuard := fun s _ _ => s.blockNum + 1 < 2 ^ 32

/-- The condition of `next` for a promotion. -/
def Promotes (s : BlockHeaderState) (producer : Name) : Prop :=
  s.pendingSchedule.schedule.producers ≠ [] ∧
    s.pendingSchedule.scheduleLibNum ≤ calcDposLastIrreversible s producer

/-- Producers of the pending schedule that would carry over an entry below the
    LIB of the promoting block. -/
def carriedStale (s : BlockHeaderState) (producer : Name) : Nat :=
  s.pendingSchedule.schedule.producers.countP fun q =>
    q.producerName ≠ producer ∧
      (s.producerToLastImpliedIrb.lookup q.producerName).any
        (· < calcDposLastIrreversible s producer)

/-- A step that does not promote a schedule of laggards. -/
def PromotesCurrent : StepGuard := fun s producer _ =>
  s.blockNum + 1 < 2 ^ 32 ∧ (Promotes s producer → carriedStale s producer ≤
    (s.pendingSchedule.schedule.producers.length - 1) / 3)

instance (s : BlockHeaderState) (n : Name) (c : Nat) :
    Decidable (PromotesCurrent s n c) :=
  inferInstanceAs (Decidable (_ ∧ (_ ∧ _ → _)))

instance (s : BlockHeaderState) (n : Name) (c : Nat) : Decidable (Fits s n c) :=
  inferInstanceAs (Decidable (_ < _))

/-! ## The order statistic -/

/-- The numbers that `calc_dpos_last_irreversible` sorts. -/
def blocknums (s : BlockHeaderState) (producer : Name) : List Nat :=
  s.producerToLastImpliedIrb.entries.map fun i =>
    if i.1 = producer then s.dposProposedIrreversibleBlocknum else i.2

theorem calc_eq (s : BlockHeaderState) (producer : Name) :
    calcDposLastIrreversible s producer =
      if (blocknums s producer).length = 0 then 0
      else nthElement (blocknums s producer) (((blocknums s producer).length - 1) / 3) 0 :=
  rfl

/-- Up to the proposed block, the numbers below a threshold are the stale
    entries. -/
theorem countP_blocknums (s : BlockHeaderState) (producer : Name) {v : Nat}
    (hv : v ≤ s.dposProposedIrreversibleBlocknum) :
    (blocknums s producer).countP (fun x => decide (x < v)) =
      staleEntries s.producerToLastImpliedIrb producer v := by
  unfold blocknums staleEntries
  rw [List.countP_map]
  refine List.countP_congr ?_
  intro e _
  simp only [Function.comp_apply, decide_eq_true_eq]
  by_cases he : e.1 = producer
  · rw [if_pos he]
    exact iff_of_false (by omega) fun h => h.1 he
  · rw [if_neg he]
    exact (and_iff_right he).symm

theorem le_calc_iff_countP (s : BlockHeaderState) (producer : Name)
    (hne : s.producerToLastImpliedIrb.entries ≠ []) (v : Nat) :
    v ≤ calcDposLastIrreversible s producer ↔
      (blocknums s producer).countP (fun x => decide (x < v)) ≤
        (s.producerToLastImpliedIrb.entries.length - 1) / 3 := by
  have hlen : (blocknums s producer).length = s.producerToLastImpliedIrb.entries.length :=
    List.length_map _
  have hpos := List.length_pos_iff.mpr hne
  rw [calc_eq, if_neg (by omega), le_nthElement_iff (by omega), hlen]

/-- **THE LIB REACHES A THRESHOLD** exactly when few entries are below it. -/
theorem le_calc_iff (s : BlockHeaderState) (producer : Name) {v : Nat}
    (hv : v ≤ s.dposProposedIrreversibleBlocknum)
    (hne : s.producerToLastImpliedIrb.entries ≠ []) :
    v ≤ calcDposLastIrreversible s producer ↔
      staleEntries s.producerToLastImpliedIrb producer v ≤
        (s.producerToLastImpliedIrb.entries.length - 1) / 3 := by
  rw [le_calc_iff_countP s producer hne, countP_blocknums s producer hv]

/-- How many producers imply block `v` or a later one, the next producer
    implying the proposed block. -/
def implying (s : BlockHeaderState) (producer : Name) (v : Nat) : Nat :=
  s.producerToLastImpliedIrb.entries.countP fun e =>
    v ≤ if e.1 = producer then s.dposProposedIrreversibleBlocknum else e.2

/-- **THE ORDER STATISTIC**: the largest block that more than two thirds of the
    producers imply. -/
theorem calcDposLastIrreversible_greatest (s : BlockHeaderState) (producer : Name)
    (hne : s.producerToLastImpliedIrb.entries ≠ []) :
    IsGreatest {v | 2 * s.producerToLastImpliedIrb.entries.length / 3 + 1 ≤
      implying s producer v} (calcDposLastIrreversible s producer) := by
  have hiff : ∀ v, v ≤ calcDposLastIrreversible s producer ↔
      2 * s.producerToLastImpliedIrb.entries.length / 3 + 1 ≤ implying s producer v := by
    intro v
    have hcount : implying s producer v = (blocknums s producer).countP (fun x => v ≤ x) := by
      rw [blocknums, List.countP_map]
      rfl
    -- the numbers below `v` and the others make up the list
    have hsplit := @List.length_eq_countP_add_countP _ (fun x => decide (x < v))
      (blocknums s producer)
    simp only [decide_eq_true_eq, not_lt, blocknums, List.length_map] at hsplit
    have hpos := List.length_pos_iff.mpr hne
    rw [le_calc_iff_countP s producer hne, hcount, blocknums]
    omega
  exact ⟨(hiff _).mp (le_refl _), fun v hv => (hiff v).mpr hv⟩

/-- `A` has implied block 7 and `B` block 4, and block 9 is proposed. -/
def oneBehind : BlockHeaderState where
  dposProposedIrreversibleBlocknum := 9
  producerToLastImpliedIrb := (∅ : ProducerMap).insert producerB 4 |>.insert producerA 7

theorem calcDposLastIrreversible_greatest_two :
    IsGreatest {v | 2 ≤ implying oneBehind producerA v} 4 :=
  calcDposLastIrreversible_greatest oneBehind producerA (by decide)

/-! ## Numbers stay below the proposed block -/

/-- LIB and implied blocks do not pass the proposed block, and the tracked
    counters are those of the blocks after it. -/
structure Bounded (s : BlockHeaderState) : Prop where
  lib : s.dposIrreversibleBlocknum ≤ s.dposProposedIrreversibleBlocknum
  implied : ∀ q v, s.producerToLastImpliedIrb.lookup q = some v →
    v ≤ s.dposProposedIrreversibleBlocknum
  tracked : s.dposProposedIrreversibleBlocknum + s.confirmCount.length ≤ s.blockNum
  fresh : s.producerToLastImpliedIrb.entries = [] → s.dposIrreversibleBlocknum = 0

/-- The implied blocks do not pass the proposed one. -/
def ImpliedBelow (s : BlockHeaderState) : Prop :=
  ∀ q v, s.producerToLastImpliedIrb.lookup q = some v → v ≤ s.dposProposedIrreversibleBlocknum

variable {s : BlockHeaderState}

theorem ImpliedBelow.calc_le (h : ImpliedBelow s) (producer : Name) :
    calcDposLastIrreversible s producer ≤ s.dposProposedIrreversibleBlocknum := by
  rw [calc_eq]
  split
  · exact Nat.zero_le _
  · rename_i hpos
    obtain ⟨e, he, heq⟩ := List.mem_map.mp
      (nthElement_mem (show ((blocknums s producer).length - 1) / 3 <
        (blocknums s producer).length by omega) 0)
    rw [← heq]
    split
    · exact le_refl _
    · exact h e.1 e.2 (AList.mem_lookup_iff.mpr he)

theorem Bounded.below (h : Bounded s) : ImpliedBelow s := h.implied

section Step

variable {hist : List Produced} {s s' : BlockHeaderState} {a : ProducerAuthority}
  {c : Nat}

/-- The proposed block only moves forward. -/
theorem Bounded.proposed_mono (h : Bounded s) (ht : Tracked hist s)
    (hnum : s.blockNum + 1 < 2 ^ 32) (he : Extended s s' a c) :
    s.dposProposedIrreversibleBlocknum ≤ s'.dposProposedIrreversibleBlocknum ∧
      s'.dposProposedIrreversibleBlocknum + s'.confirmCount.length ≤ s'.blockNum := by
  have htracked := h.tracked
  have hgrow : (grown s).length ≤ s.confirmCount.length + 1 :=
    growConfirmCount_length_le _ _
  have hnew := he.num
  rw [addU32_of_lt hnum] at hnew
  rcases (ht.counted he).proposes with ⟨hsame, hl⟩ | ⟨hl, -, -, hprop⟩
  · omega
  · rw [subU32_of_le (by omega) (by omega)] at hprop
    omega

/-- The maps that a step leaves hold no number past the old proposed block. -/
theorem ImpliedBelow.step (h : ImpliedBelow s) (he : Extended s s' a c) (q : Name)
    (v : Nat) (hv : s'.producerToLastImpliedIrb.lookup q = some v) :
    v ≤ s.dposProposedIrreversibleBlocknum := by
  rcases he.schedules with hp | hk
  · rw [hp.impliedIrb, rebuildMap_lookup] at hv
    split at hv
    · rw [← Option.some.inj hv]
      split
      · exact le_refl _
      · cases hold : s.producerToLastImpliedIrb.lookup q with
        | some w => exact h q w hold
        | none =>
          rw [Option.getD_none, he.lib]
          exact h.calc_le _
    · exact nomatch hv
  · rw [hk.impliedIrb] at hv
    by_cases hq : q = a.producerName
    · rw [hq, AList.lookup_insert] at hv
      exact le_of_eq (Option.some.inj hv).symm
    · rw [AList.lookup_insert_ne hq] at hv
      exact h q v hv

/-- After any step the map has entries. -/
theorem impliedIrb_ne_nil (he : Extended s s' a c) : s'.producerToLastImpliedIrb.entries ≠ [] := by
  -- a map without entries answers no lookup
  suffices hsome : ∃ q, s'.producerToLastImpliedIrb.lookup q ≠ none by
    intro hnil
    obtain ⟨q, hq⟩ := hsome
    refine hq (AList.lookup_eq_none.mpr ?_)
    rw [AList.mem_keys, AList.keys, hnil]
    exact List.not_mem_nil
  rcases he.schedules with hp | hk
  · obtain ⟨q, hq⟩ := List.exists_mem_of_ne_nil _ hp.pending
    refine ⟨q.producerName, ?_⟩
    rw [hp.impliedIrb, rebuildMap_lookup, if_pos (List.mem_map_of_mem hq)]
    exact Option.some_ne_none _
  · refine ⟨a.producerName, ?_⟩
    rw [hk.impliedIrb, AList.lookup_insert]
    exact Option.some_ne_none _

theorem bounded_step (h : Bounded s) (ht : Tracked hist s)
    (hnum : s.blockNum + 1 < 2 ^ 32) (he : Extended s s' a c) : Bounded s' := by
  obtain ⟨hmono, htracked⟩ := h.proposed_mono ht hnum he
  refine ⟨?_, ?_, htracked, fun hnil => absurd hnil (impliedIrb_ne_nil he)⟩
  · rw [he.lib]
    exact le_trans (h.below.calc_le _) hmono
  · intro q v hv
    exact le_trans (h.below.step he q v hv) hmono

/-! ## What a step leaves behind -/

/-- At most the tolerated third of all entries is below the LIB. -/
def Steady (s : BlockHeaderState) : Prop :=
  s.producerToLastImpliedIrb.entries.countP
      (fun e => decide (e.2 < s.dposIrreversibleBlocknum)) ≤
    (s.producerToLastImpliedIrb.entries.length - 1) / 3

/-- A steady state tolerates every next producer. -/
theorem Steady.fewStale (h : Steady s) (producer : Name) : FewStale s producer := by
  refine le_trans (List.countP_mono_left ?_) h
  intro e _ he
  exact decide_eq_true (of_decide_eq_true he).2

theorem entries_insert_length_le (m : ProducerMap) (q : Name) (v : Nat) :
    m.entries.length ≤ (m.insert q v).entries.length := by
  have hkeys : (m.insert q v).keys.length = (m.keys.erase q).length + 1 := by
    rw [AList.keys_insert, List.length_cons]
  have herase := List.le_length_erase (a := q) (l := m.keys)
  simp only [AList.keys, List.keys, List.length_map] at hkeys herase
  omega

/-- Overwriting one entry by a current one leaves the stale entries of the
    others. -/
theorem countP_insert_le (m : ProducerMap) (q : Name) {x v : Nat} (hx : v ≤ x) :
    (m.insert q x).entries.countP (fun e => decide (e.2 < v)) ≤
      staleEntries m q v := by
  rw [AList.entries_insert, List.countP_cons, if_neg (by simpa using hx)]
  have hsub := List.kerase_sublist q m.entries
  refine le_trans (List.countP_mono_left ?_) hsub.countP_le
  intro e he hlt
  refine decide_eq_true ⟨?_, of_decide_eq_true hlt⟩
  intro heq
  have hkey := List.mem_keys_of_mem he
  rw [heq] at hkey
  exact List.notMem_keys_kerase q m.nodupKeys hkey

/-- **ORDINARY STEPS ARE STEADY**: the LIB is the statistic of the map that
    the step leaves. -/
theorem steady_of_kept (h : Bounded s) (he : Extended s s' a c) (hk : Kept s s' a) : Steady s' := by
  have hle := h.below.calc_le a.producerName
  rw [← he.lib] at hle
  have hcount := countP_insert_le s.producerToLastImpliedIrb a.producerName hle
  have hlen := entries_insert_length_le s.producerToLastImpliedIrb a.producerName
    s.dposProposedIrreversibleBlocknum
  unfold Steady
  rw [hk.impliedIrb]
  refine le_trans hcount ?_
  by_cases hnil : s.producerToLastImpliedIrb.entries = []
  · unfold staleEntries
    rw [hnil]
    exact Nat.zero_le _
  · have := (le_calc_iff s a.producerName hle hnil).mp (le_of_eq he.lib)
    omega

/-- With distinct producers the rebuilt map lists one entry for each. -/
theorem rebuildMap_entries (old : ProducerMap) (producer : Name) (own seed : Nat)
    {producers : List ProducerAuthority}
    (hd : (producers.map (·.producerName)).Nodup) :
    (rebuildMap old producers producer own seed).entries.Perm
      (producers.map fun q => ⟨q.producerName,
        if q.producerName = producer then own
        else (old.lookup q.producerName).getD seed⟩) := by
  -- the fold adds the entries of fresh keys to those of the map it starts from
  suffices h : ∀ m : ProducerMap, (∀ q ∈ producers, q.producerName ∉ m) →
      (producers.foldl (fun m pro => m.insert pro.producerName
        (if pro.producerName = producer then own
         else (old.lookup pro.producerName).getD seed)) m).entries.Perm
      ((producers.map fun q => ⟨q.producerName,
        if q.producerName = producer then own
        else (old.lookup q.producerName).getD seed⟩) ++ m.entries) by
    have hempty := h ∅ (fun q _ => AList.notMem_empty _)
    rwa [AList.empty_entries, List.append_nil] at hempty
  induction producers with
  | nil => intro m _; exact List.Perm.refl _
  | cons pro rest ih =>
    intro m hm
    obtain ⟨hpro, hrest⟩ := List.nodup_cons.mp hd
    rw [List.foldl_cons, List.map_cons, List.cons_append]
    refine (ih hrest _ ?_).trans ?_
    · intro q hq hmem
      rcases (AList.mem_insert _).mp hmem with heq | hold
      · exact hpro (List.mem_map.mpr ⟨q, hq, heq⟩)
      · exact hm q (List.mem_cons_of_mem _ hq) hold
    · rw [AList.entries_insert_of_notMem (hm pro List.mem_cons_self)]
      exact List.perm_middle

/-- A promotion is steady when it carries over few stale entries. -/
theorem steady_of_promoted (h : Bounded s) (ht : Tracked hist s)
    (he : Extended s s' a c) (hp : Promoted s s' a)
    (hfew : carriedStale s a.producerName ≤
      (s.pendingSchedule.schedule.producers.length - 1) / 3) : Steady s' := by
  have hle := h.below.calc_le a.producerName
  rw [← he.lib] at hle
  have hperm := rebuildMap_entries s.producerToLastImpliedIrb a.producerName
    s.dposProposedIrreversibleBlocknum s'.dposIrreversibleBlocknum ht.pendingOk.distinct
  rw [← hp.impliedIrb] at hperm
  unfold Steady
  rw [hperm.countP_eq, hperm.length_eq, List.length_map, List.countP_map]
  refine le_trans (List.countP_mono_left ?_) hfew
  intro q _ hq
  simp only [Function.comp_apply, decide_eq_true_eq] at hq ⊢
  rw [← he.lib]
  split at hq
  · omega
  · rename_i hne
    refine ⟨hne, ?_⟩
    cases hold : s.producerToLastImpliedIrb.lookup q.producerName with
    | some v =>
      rw [hold] at hq
      simpa using hq
    | none =>
      -- a newcomer is seeded with the LIB itself
      rw [hold] at hq
      exact absurd hq (lt_irrefl _)

end Step

theorem bounded_genesis (env : HeaderEnv) (t : Nat) (l : List ProducerKey)
    (chainId : Digest) : Bounded (genesisState env t l chainId) :=
  ⟨le_refl _, fun _ _ h => (nomatch h), Nat.zero_le _, fun _ => rfl⟩

/-- The bounds hold along every chain. -/
theorem chain_bounded {env : HeaderEnv} {hist : List Produced} (h : Chain env Fits hist s) :
    Tracked hist s ∧ Bounded s := by
  refine chain_induction (I := fun hist s => Tracked hist s ∧ Bounded s) ?_ ?_ h
  · intro t l c hok
    exact ⟨tracked_genesis env t l c hok, bounded_genesis env t l c⟩
  · rintro hist s s' a c ⟨ht, hb⟩ hnum he hok
    exact ⟨tracked_step ht hnum he hok, bounded_step hb ht hnum he⟩

/-- Every state of a chain that promotes no laggards is steady. -/
theorem chain_steady {env : HeaderEnv} {hist : List Produced}
    (h : Chain env PromotesCurrent hist s) : (Tracked hist s ∧ Bounded s) ∧ Steady s := by
  refine chain_induction (I := fun hist s => (Tracked hist s ∧ Bounded s) ∧ Steady s) ?_ ?_ h
  · intro t l c hok
    exact ⟨⟨tracked_genesis env t l c hok, bounded_genesis env t l c⟩, Nat.zero_le _⟩
  · rintro hist s s' a c ⟨⟨ht, hb⟩, -⟩ ⟨hnum, hcur⟩ he hok
    refine ⟨⟨tracked_step ht hnum he hok, bounded_step hb ht hnum he⟩, ?_⟩
    rcases he.schedules with hp | hk
    · exact steady_of_promoted hb ht he hp (hcur ⟨hp.pending, he.lib ▸ hp.reached⟩)
    · exact steady_of_kept hb he hk

/-- **WHEN THE LIB DOES NOT FALL**: the next block keeps the LIB exactly when
    at most a third of the other producers' entries is below it, and on a
    chain that promotes no schedule of laggards this is always so. -/
theorem lib_keeps_iff {env : HeaderEnv} {hist : List Produced}
    {s : BlockHeaderState} {when' confirmed : Nat} {p : PendingBlockHeaderState}
    (hchain : Chain env Fits hist s) (hnext : next s when' confirmed = .ok p) :
    (s.dposIrreversibleBlocknum ≤ p.dposIrreversibleBlocknum ↔ FewStale s p.producer) ∧
    (Chain env PromotesCurrent hist s →
      s.dposIrreversibleBlocknum ≤ p.dposIrreversibleBlocknum) := by
  obtain ⟨-, hb⟩ := chain_bounded hchain
  obtain ⟨a, he, hprod, -⟩ := extended_unsigned hnext
  have hlib : p.dposIrreversibleBlocknum = calcDposLastIrreversible s p.producer := by
    rw [hprod]
    exact he.lib
  have hiff : s.dposIrreversibleBlocknum ≤ p.dposIrreversibleBlocknum ↔ FewStale s p.producer := by
    rw [hlib]
    by_cases hnil : s.producerToLastImpliedIrb.entries = []
    · unfold FewStale staleEntries
      rw [hb.fresh hnil, hnil]
      simp
    · exact le_calc_iff s p.producer hb.lib hnil
  exact ⟨hiff, fun hc => hiff.mpr ((chain_steady hc).2.fewStale p.producer)⟩

/-! ## Two promotions -/

/-- A schedule with one key for each producer. -/
def plainSchedule (version : Nat) (names : List Name) : ProducerAuthoritySchedule :=
  ⟨version, names.map fun n => ⟨n, ⟨1, [⟨[], 1⟩]⟩⟩⟩

def producerE : Name := ⟨5⟩

/-- `A`, `B` and `C` produce in turn, each block confirming the two before it;
    block 5 proposes `next` as the following schedule, and block 10 promotes
    it. -/
def threeOfFour (next : List Name) : List BlockChoice :=
  [⟨4, 2, none⟩, ⟨5, 2, none⟩, ⟨6, 2, none⟩, ⟨8, 2, some (plainSchedule 1 next)⟩,
    ⟨9, 2, none⟩, ⟨10, 2, none⟩, ⟨12, 2, none⟩, ⟨13, 2, none⟩, ⟨14, 2, none⟩]

/-- `D` has never produced; promoted together with the newcomer `E` it keeps
    its implied block 0, and the first block of `E` takes the LIB from 5 back
    to 0. -/
theorem lib_falls_after_promotion :
    ∃ hist s p, Chain plainEnv Fits hist s ∧ next s 15 0 = .ok p ∧
      s.dposIrreversibleBlocknum = 5 ∧ p.dposIrreversibleBlocknum = 0 := by
  obtain ⟨r, hr, p, hp, hs, hfall⟩ : ∃ r, produceBlocks plainEnv Fits
      ([], fourProducers) (threeOfFour [producerD, producerE]) = some r ∧
      ∃ p, next r.2 15 0 = .ok p ∧ r.2.dposIrreversibleBlocknum = 5 ∧
        p.dposIrreversibleBlocknum = 0 :=
    ⟨_, rfl, _, rfl, rfl, rfl⟩
  exact ⟨r.1, r.2, p, chain_of_produceBlocks _ (chain_fourProducers _) hr, hp, hs, hfall⟩

/-- The same chain with `A` in the place of `D` keeps its LIB. -/
theorem lib_keeps_iff_promotion :
    ∃ hist s p, Chain plainEnv PromotesCurrent hist s ∧ next s 15 0 = .ok p ∧
      s.dposIrreversibleBlocknum = 5 ∧ 5 ≤ p.dposIrreversibleBlocknum := by
  obtain ⟨r, hr, p, hp, hs⟩ : ∃ r, produceBlocks plainEnv PromotesCurrent
      ([], fourProducers) (threeOfFour [producerA, producerE]) = some r ∧
      ∃ p, next r.2 15 0 = .ok p ∧ r.2.dposIrreversibleBlocknum = 5 :=
    ⟨_, rfl, _, rfl, rfl⟩
  have hchain := chain_of_produceBlocks _ (chain_fourProducers PromotesCurrent) hr
  have hfits := chain_mono (fun _ _ _ h => h.1) hchain
  refine ⟨r.1, r.2, p, hchain, hp, hs, ?_⟩
  rw [← hs]
  exact (lib_keeps_iff hfits hp).2 hchain

end HeaderLib
