import EosForce.HeaderChainProofs

/-! # Producer schedules over a run

    A schedule is proposed by a transaction, becomes pending once the block of
    the proposal is irreversible, and active once the block that made it
    pending is.  The proposal is in the global properties, which `undo` takes
    back; the pending and the active schedule are in the header states; in
    between, the block under construction has its own view of both.

    The invariant is one equation: the version of a proposal follows that of
    the pending schedule, or of the active one where none is pending.  Every
    step keeps it, and the assertions on versions are consequences. -/

namespace ScheduleRun

open ChainTypes HeaderState HeaderChain List

/-! ## The state -/

/-- `global_property_object`, as far as schedules go. -/
structure GlobalProperties where
  proposedScheduleBlockNum : Option Nat := none
  proposedSchedule : ProducerAuthoritySchedule := {}
deriving DecidableEq

/-- `block_stage_type`.  A block under construction has the undo sessions of
    its transactions open, each with the properties to return to. -/
inductive Stage where
  | building (pbhs : PendingBlockHeaderState)
      (newPendingProducerSchedule : Option ProducerAuthoritySchedule)
      (sessions : List GlobalProperties)
  | assembled (pbhs : PendingBlockHeaderState)
      (newProducerAuthorityCache : Option ProducerAuthoritySchedule) (header : BlockHeader)
  | completed (blockState : BlockHeaderState)

/-- The controller: the head with the properties that its block left, the
    blocks below it with theirs, and the pending block. -/
structure ScheduleChain where
  head : BlockHeaderState
  atHead : GlobalProperties
  below : List (BlockHeaderState × GlobalProperties)
  gpo : GlobalProperties
  pending : Option Stage

/-- `active_producers`. -/
def activeProducers (c : ScheduleChain) : ProducerAuthoritySchedule :=
  match c.pending with
  | none => c.head.activeSchedule
  | some (.building p _ _) => p.activeSchedule
  | some (.assembled p _ _) => p.activeSchedule
  | some (.completed s) => s.activeSchedule

/-- `pending_producers`.  The source does not answer for an assembled block
    without a new schedule, where it reads the stage as a building one. -/
def pendingProducers (c : ScheduleChain) : ProducerAuthoritySchedule :=
  match c.pending with
  | none => c.head.pendingSchedule.schedule
  | some (.building p new _) => new.getD p.prevPendingSchedule.schedule
  | some (.assembled p new _) => new.getD p.prevPendingSchedule.schedule
  | some (.completed s) => s.pendingSchedule.schedule

/-! ## The functions -/

/-- The part of `start_block` that makes a proposed schedule pending. -/
def promoteProposed (gpo : GlobalProperties) (p : PendingBlockHeaderState) :
    Except FcException (Option ProducerAuthoritySchedule × GlobalProperties) :=
  match gpo.proposedScheduleBlockNum with
  | none => pure (none, gpo)
  | some n =>
    if n ≤ p.dposIrreversibleBlocknum ∧
        p.prevPendingSchedule.schedule.producers.length = 0 then do
      eosAssert (gpo.proposedSchedule.version = addU32 p.activeScheduleVersion 1)
        .producerSchedule "wrong producer schedule version specified"
      pure (some gpo.proposedSchedule, {})
    else pure (none, gpo)

/-- `start_block`; a speculative block is left alone outside speculative
    mode. -/
def startBlock (modifiesState : Bool) (when' confirmBlockCount : Nat) (c : ScheduleChain) :
    Except FcException ScheduleChain := do
  eosAssert (c.pending.isNone = true) .blockValidate "pending block already exists"
  let p ← next c.head when' confirmBlockCount
  if modifiesState then do
    let (new, gpo) ← promoteProposed c.gpo p
    pure { c with gpo := gpo, pending := some (.building p new []) }
  else pure { c with pending := some (.building p none []) }

/-- The schedule that a proposal is to replace. -/
def replaced (c : ScheduleChain) : ProducerAuthoritySchedule :=
  if (pendingProducers c).producers.length = 0 then activeProducers c else pendingProducers c

/-- The three reasons to refuse a proposal. -/
def refusesProposal (disallowEmpty : Bool) (producers : List ProducerAuthority)
    (c : ScheduleChain) : Bool :=
  (producers.length = 0 ∧ disallowEmpty = true) ∨
    (c.gpo.proposedScheduleBlockNum.isSome = true ∧
      (c.gpo.proposedScheduleBlockNum ≠ some (addU32 c.head.blockNum 1) ∨
        producers = c.gpo.proposedSchedule.producers)) ∨
    producers = (replaced c).producers

/-- `set_proposed_producers`, with what it returns. -/
def setProposedProducers (disallowEmpty : Bool) (producers : List ProducerAuthority)
    (c : ScheduleChain) : Int × ScheduleChain :=
  if refusesProposal disallowEmpty producers c then (-1, c)
  else
    let sch : ProducerAuthoritySchedule := ⟨addU32 (replaced c).version 1, producers⟩
    (sch.version, { c with gpo := ⟨some (addU32 c.head.blockNum 1), sch⟩ })

/-- A chain that starts from genesis. -/
def genesisChain (env : HeaderEnv) (initialTimestamp : Nat)
    (initialProducerList : List ProducerKey) (chainId : Digest) : ScheduleChain where
  head := genesisState env initialTimestamp initialProducerList chainId
  atHead := {}
  below := []
  gpo := {}
  pending := none

/-- **ONE STEP** of the controller, as far as schedules go. -/
inductive Step (env : HeaderEnv) : ScheduleChain → ScheduleChain → Prop where
  | start {c c' : ScheduleChain} (modifiesState : Bool) (when' confirmBlockCount : Nat) :
      startBlock modifiesState when' confirmBlockCount c = .ok c' → Step env c c'
  | propose {c : ScheduleChain} {p new ss} (disallowEmpty : Bool)
      (producers : List ProducerAuthority) : c.pending = some (.building p new ss) →
      Step env c (setProposedProducers disallowEmpty producers c).2
  | openSession {c : ScheduleChain} {p new ss} : c.pending = some (.building p new ss) →
      Step env c { c with pending := some (.building p new (c.gpo :: ss)) }
  | undoSession {c : ScheduleChain} {p new g ss} : c.pending = some (.building p new (g :: ss)) →
      Step env c { c with gpo := g, pending := some (.building p new ss) }
  | squashSession {c : ScheduleChain} {p new g ss} : c.pending = some (.building p new (g :: ss)) →
      Step env c { c with pending := some (.building p new ss) }
  | assemble {c : ScheduleChain} {p new ss h} (transactionMroot actionMroot : Digest)
      (activations : List Digest) : c.pending = some (.building p new ss) →
      makeBlockHeader env p transactionMroot actionMroot new activations = .ok h →
      Step env c { c with pending := some (.assembled p new h) }
  | complete {c : ScheduleChain} {p new h s} : c.pending = some (.assembled p new h) →
      finishNext env p h = .ok s → Step env c { c with pending := some (.completed s) }
  | commit {c : ScheduleChain} {s} : c.pending = some (.completed s) →
      Step env c { head := s, atHead := c.gpo, below := (c.head, c.atHead) :: c.below,
                   gpo := c.gpo, pending := none }
  | abort {c : ScheduleChain} : Step env c { c with gpo := c.atHead, pending := none }
  | pop {c : ScheduleChain} {s g rest} : c.pending = none → c.below = (s, g) :: rest →
      Step env c { head := s, atHead := g, below := rest, gpo := g, pending := none }

/-! ## Versions -/

/-- The version that comes after the pending schedule, or after the active one
    where none is pending. -/
def versionAfter (pending active : ProducerAuthoritySchedule) : Nat :=
  addU32 (if pending.producers = [] then active.version else pending.version) 1

/-- **THE INVARIANT**: a proposal has the version that comes next. -/
def Coherent (g : GlobalProperties) (pending active : ProducerAuthoritySchedule) : Prop :=
  g.proposedScheduleBlockNum.isSome = true →
    g.proposedSchedule.version = versionAfter pending active

theorem coherent_none (pending active : ProducerAuthoritySchedule) :
    Coherent {} pending active := by
  intro h
  cases h

/-- What goes into a block: the header state of `next` on the head, and a new
    schedule only where none is pending, with the version after the active
    one. -/
structure Built (head : BlockHeaderState) (p : PendingBlockHeaderState)
    (new : Option ProducerAuthoritySchedule) : Prop where
  next : ∃ a slot n, p = nextState head a slot n
  room : ∀ sch, new = some sch → head.pendingSchedule.schedule.producers = []
  version : ∀ sch, new = some sch → sch.version = addU32 head.activeSchedule.version 1

section Built

variable {head : BlockHeaderState} {p : PendingBlockHeaderState}
  {new : Option ProducerAuthoritySchedule}

section

variable (h : Built head p new)
include h

theorem Built.prevPending : p.prevPendingSchedule = head.pendingSchedule := by
  obtain ⟨a, slot, n, rfl⟩ := h.next
  rfl

/-- A promotion makes the pending schedule active. -/
theorem Built.promoted (hp : p.wasPendingPromoted = true) :
    head.pendingSchedule.schedule.producers ≠ [] ∧
      p.activeSchedule = head.pendingSchedule.schedule := by
  obtain ⟨a, slot, n, rfl⟩ := h.next
  have hcond := of_decide_eq_true hp
  refine ⟨fun hnil => hcond.1 (by rw [hnil]; rfl), ?_⟩
  exact if_pos hp

theorem Built.kept (hp : p.wasPendingPromoted = false) :
    p.activeSchedule = head.activeSchedule := by
  obtain ⟨a, slot, n, rfl⟩ := h.next
  exact if_neg (Bool.eq_false_iff.mp hp)

/-- Without a pending schedule nothing is promoted. -/
theorem Built.not_promoted (hnil : head.pendingSchedule.schedule.producers = []) :
    p.wasPendingPromoted = false := by
  cases hp : p.wasPendingPromoted with
  | false => rfl
  | true => exact absurd hnil (h.promoted hp).1

/-- Promoting a schedule does not change what version comes next. -/
theorem Built.versionAfter_eq : versionAfter p.prevPendingSchedule.schedule p.activeSchedule =
      versionAfter head.pendingSchedule.schedule head.activeSchedule := by
  rw [h.prevPending]
  unfold versionAfter
  by_cases hnil : head.pendingSchedule.schedule.producers = []
  · rw [if_pos hnil, if_pos hnil, h.kept (h.not_promoted hnil)]
  · rw [if_neg hnil, if_neg hnil]

end

end Built

/-! ## The header of a local block -/

section Header

variable {env : HeaderEnv} {head : BlockHeaderState} {p : PendingBlockHeaderState}
  {new : Option ProducerAuthoritySchedule} {tm am : Digest} {acts : List Digest}
  {h : BlockHeader}

/-- The checks of a new schedule pass. -/
theorem Built.checkNewSchedule_eq {sch : ProducerAuthoritySchedule}
    (hb : Built head p (some sch)) : checkNewSchedule p sch.version = .ok () := by
  have hnil := hb.room sch rfl
  have hprom := hb.not_promoted hnil
  have hversion : sch.version = addU32 p.activeSchedule.version 1 := by
    rw [hb.kept hprom]
    exact hb.version sch rfl
  have hprev : p.prevPendingSchedule.schedule.producers = [] := by
    rw [hb.prevPending]
    exact hnil
  unfold checkNewSchedule eosAssert
  rw [if_pos hprom, if_pos hversion, if_pos hprev]
  rfl

/-- The extension of activated features. -/
def features (acts : List Digest) : List HeaderExtension :=
  if 0 < acts.length then [.protocolFeatureActivation acts] else []

theorem scheduleChange_features (acts : List Digest) (rest : List HeaderExtension) :
    scheduleChange (features acts ++ rest) = scheduleChange rest := by
  unfold features
  split
  · rfl
  · rfl

theorem length_mapM_ok {α β : Type} {f : α → Except FcException β} (l : List α) :
    ∀ {m : List β}, l.mapM f = .ok m → m.length = l.length := by
  induction l with
  | nil =>
    intro m hm
    cases hm
    rfl
  | cons a rest ih =>
    intro m hm
    rw [mapM_cons] at hm
    obtain ⟨b, -, hm⟩ := except_bind_ok hm
    obtain ⟨bs, hbs, hm⟩ := except_bind_ok hm
    cases hm
    rw [length_cons, length_cons, ih hbs]

/-- The schedule that comes out of the header is the one that went in, up to
    the conversion of legacy schedules. -/
inductive Carries : Option (ProducerAuthoritySchedule × Digest) →
    Option ProducerAuthoritySchedule → Prop where
  | none : Carries none none
  | some {sch sch' : ProducerAuthoritySchedule} {hash : Digest} :
      sch'.version = sch.version → (sch'.producers = [] ↔ sch.producers = []) →
      Carries (some (sch', hash)) (some sch)

/-- What a header says about schedules. -/
def Extracts (env : HeaderEnv) (p : PendingBlockHeaderState) (h : BlockHeader)
    (new : Option ProducerAuthoritySchedule) : Prop :=
  h.scheduleVersion = p.activeScheduleVersion ∧
    ∃ ns, extractNewSchedule env p h h.headerExtensions = .ok ns ∧ Carries ns new

theorem extract_none (hnew : h.newProducers = none)
    (hexts : scheduleChange h.headerExtensions = none) :
    extractNewSchedule env p h h.headerExtensions = .ok none := by
  unfold extractNewSchedule headerSchedule
  rw [hnew, hexts]
  rfl

theorem extract_extension {sch : ProducerAuthoritySchedule}
    (hcheck : checkNewSchedule p sch.version = .ok ())
    (hw : wtmsigActivated env p.prevActivatedProtocolFeatures = true)
    (hnew : h.newProducers = none) (hexts : scheduleChange h.headerExtensions = some sch) :
    extractNewSchedule env p h h.headerExtensions = .ok (some (sch, env.scheduleHash sch)) := by
  unfold extractNewSchedule headerSchedule
  rw [hnew, hexts]
  dsimp only [pure_bind]
  rw [hcheck, eosAssert, if_pos hw]
  rfl

theorem extract_legacy {o : LegacySchedule}
    (hcheck : checkNewSchedule p o.version = .ok ())
    (hw : wtmsigActivated env p.prevActivatedProtocolFeatures = false)
    (hnew : h.newProducers = some o) (hexts : scheduleChange h.headerExtensions = none) :
    extractNewSchedule env p h h.headerExtensions = .ok (some (o.upgrade, env.legacyHash o)) := by
  unfold extractNewSchedule headerSchedule
  rw [hnew, hexts]
  dsimp only
  rw [hcheck, eosAssert, if_pos hw]
  rfl

/-- **LOCAL HEADERS PASS**: the assertions on schedules hold for a header that
    the node made itself. -/
theorem Built.extract_made (hb : Built head p new)
    (hmade : makeBlockHeader env p tm am new acts = .ok h) : Extracts env p h new := by
  have hchange := scheduleChange_features acts []
  rw [append_nil] at hchange
  cases new with
  | none =>
    cases hmade
    exact ⟨rfl, none, extract_none rfl hchange, .none⟩
  | some sch =>
    have hcheck := hb.checkNewSchedule_eq
    unfold makeBlockHeader at hmade
    cases hw : wtmsigActivated env p.prevActivatedProtocolFeatures with
    | true =>
      rw [hw] at hmade
      cases hmade
      refine ⟨rfl, _, extract_extension hcheck hw rfl ?_, .some rfl Iff.rfl⟩
      exact scheduleChange_features acts [.producerScheduleChange sch]
    | false =>
      rw [hw] at hmade
      obtain ⟨keys, hkeys, hmade⟩ := except_bind_ok hmade
      cases hmade
      refine ⟨rfl, _, extract_legacy (o := ⟨sch.version, keys⟩) hcheck hw rfl hchange, .some rfl ?_⟩
      have hlen := length_mapM_ok _ hkeys
      rw [← length_eq_zero_iff, ← length_eq_zero_iff, ← hlen]
      show (keys.map _).length = 0 ↔ _
      rw [length_map]

/-- A pending schedule has the version after the active one. -/
def PendingNext (s : BlockHeaderState) : Prop :=
  s.pendingSchedule.schedule.producers ≠ [] →
    s.pendingSchedule.schedule.version = addU32 s.activeSchedule.version 1

/-- The schedules of the completed block are those that the pending block
    showed, less a promoted one. -/
theorem Built.versionAfter_completed {s : BlockHeaderState} (hb : Built head p new)
    (hx : Extracts env p h new) (hf : finishNext env p h = .ok s) :
    versionAfter s.pendingSchedule.schedule s.activeSchedule =
      versionAfter (new.getD p.prevPendingSchedule.schedule) p.activeSchedule := by
  obtain ⟨-, ns, hns, hcarries⟩ := hx
  obtain ⟨-, ns', activated, hns', rfl⟩ := finishNext_ok hf
  cases hns.symm.trans hns'
  dsimp only
  cases hcarries with
  | none =>
    cases hprom : p.wasPendingPromoted with
    | false =>
      rw [nextPendingSchedule_kept hprom]
      rfl
    | true =>
      -- the promoted schedule is the active one now
      obtain ⟨hne, hactive⟩ := hb.promoted hprom
      unfold versionAfter
      rw [if_pos (nextPendingSchedule_promoted hprom), Option.getD_none, hb.prevPending,
        if_neg hne, hactive]
  | some hversion hnil =>
    unfold versionAfter nextPendingSchedule
    simp only [Option.getD_some, hversion, hnil]

theorem Built.pendingNext_completed {s : BlockHeaderState} (hb : Built head p new)
    (hx : Extracts env p h new) (hf : finishNext env p h = .ok s)
    (hhead : PendingNext head ∨ head.pendingSchedule.schedule.producers = [] ∨
      p.wasPendingPromoted = true) : PendingNext s := by
  obtain ⟨-, ns, hns, hcarries⟩ := hx
  obtain ⟨-, ns', activated, hns', rfl⟩ := finishNext_ok hf
  cases hns.symm.trans hns'
  unfold PendingNext
  dsimp only
  cases hcarries with
  | none =>
    cases hprom : p.wasPendingPromoted with
    | true =>
      intro hne
      exact absurd (nextPendingSchedule_promoted hprom) hne
    | false =>
      rw [nextPendingSchedule_kept hprom, hb.prevPending, hb.kept hprom]
      rcases hhead with hhead | hnil | hp
      · exact hhead
      · exact fun hne => absurd hnil hne
      · rw [hprom] at hp
        cases hp
  | @some sch sch' hash hversion hnil =>
    intro _
    rw [hb.kept (hb.not_promoted (hb.room sch rfl)), ← hb.version sch rfl]
    exact hversion

end Header

/-! ## Runs -/

section Run

variable {env : HeaderEnv} {initialTimestamp : Nat} {initialProducerList : List ProducerKey}
  {chainId : Digest}

/-- The schedule of genesis is promoted by the first block. -/
theorem genesis_promotes {a : ProducerAuthority} {slot n : Nat}
    (hne : (genesisState env initialTimestamp initialProducerList
      chainId).pendingSchedule.schedule.producers ≠ []) :
    (nextState (genesisState env initialTimestamp initialProducerList chainId) a slot
      n).wasPendingPromoted = true := by
  refine decide_eq_true ⟨?_, Nat.zero_le _⟩
  exact fun hlen => hne (length_eq_zero_iff.mp hlen)

/-- What a block leaves behind. -/
structure BlockOk (genesis s : BlockHeaderState) (g : GlobalProperties) : Prop where
  coherent : Coherent g s.pendingSchedule.schedule s.activeSchedule
  pending : s = genesis ∨ PendingNext s

/-- What holds of the pending block. -/
def StageOk (env : HeaderEnv) (genesis head : BlockHeaderState) (gpo : GlobalProperties) :
    Stage → Prop
  | .building p new ss => Built head p new ∧ ∀ g ∈ gpo :: ss,
      Coherent g (new.getD p.prevPendingSchedule.schedule) p.activeSchedule
  | .assembled p new h => Built head p new ∧ Extracts env p h new ∧
      Coherent gpo (new.getD p.prevPendingSchedule.schedule) p.activeSchedule
  | .completed s => BlockOk genesis s gpo

/-- **COHERENT CHAINS**. -/
structure Inv (env : HeaderEnv) (genesis : BlockHeaderState) (c : ScheduleChain) : Prop where
  head : BlockOk genesis c.head c.atHead
  below : ∀ x ∈ c.below, BlockOk genesis x.1 x.2
  idle : c.pending = none → c.gpo = c.atHead
  stage : ∀ st, c.pending = some st → StageOk env genesis c.head c.gpo st

variable {genesis : BlockHeaderState} {c c' : ScheduleChain}

/-- The invariant, in terms of what the controller reports. -/
theorem Inv.coherent (h : Inv env genesis c) :
    Coherent c.gpo (pendingProducers c) (activeProducers c) := by
  unfold pendingProducers activeProducers
  cases hp : c.pending with
  | none =>
    rw [h.idle hp]
    exact h.head.coherent
  | some st =>
    have hst := h.stage st hp
    cases st with
    | building p new ss => exact hst.2 _ mem_cons_self
    | assembled p new hd => exact hst.2.2
    | completed s => exact hst.coherent

variable {p : PendingBlockHeaderState}

variable {head : BlockHeaderState}

theorem coherent_next {g : GlobalProperties} (hb : Built head p none)
    (hg : Coherent g head.pendingSchedule.schedule head.activeSchedule) :
    Coherent g p.prevPendingSchedule.schedule p.activeSchedule := by
  intro hsome
  rw [hb.versionAfter_eq]
  exact hg hsome

/-- The promotion in `start_block`. -/
theorem promoteProposed_ok {g : GlobalProperties} (hb : Built head p none)
    (hg : Coherent g head.pendingSchedule.schedule head.activeSchedule) :
    ∃ new g', promoteProposed g p = .ok (new, g') ∧ Built head p new ∧
      Coherent g' (new.getD p.prevPendingSchedule.schedule) p.activeSchedule := by
  unfold promoteProposed
  cases hnum : g.proposedScheduleBlockNum with
  | none => exact ⟨none, g, rfl, hb, coherent_next hb hg⟩
  | some n =>
    dsimp only
    by_cases hcond : n ≤ p.dposIrreversibleBlocknum ∧
        p.prevPendingSchedule.schedule.producers.length = 0
    · rw [if_pos hcond]
      have hnil : head.pendingSchedule.schedule.producers = [] := by
        rw [← hb.prevPending]
        exact length_eq_zero_iff.mp hcond.2
      have hversion : g.proposedSchedule.version = addU32 head.activeSchedule.version 1 := by
        rw [hg (by rw [hnum]; rfl), versionAfter, if_pos hnil]
      have hactive : p.activeScheduleVersion = head.activeSchedule.version := by
        obtain ⟨a, slot, n, rfl⟩ := hb.next
        rfl
      refine ⟨some g.proposedSchedule, {}, ?_, ⟨hb.next, ?_, ?_⟩, coherent_none _ _⟩
      · rw [eosAssert, hactive, if_pos hversion]
        rfl
      · exact fun _ _ => hnil
      · rintro _ ⟨⟩
        exact hversion
    · rw [if_neg hcond]
      exact ⟨none, g, rfl, hb, coherent_next hb hg⟩

theorem built_of_next {when' n : Nat} (h : next head when' n = .ok p) : Built head p none := by
  obtain ⟨a, slot, -, -, hp⟩ := next_ok h
  exact ⟨⟨a, slot, n, hp⟩, fun _ hsch => (by cases hsch), fun _ hsch => (by cases hsch)⟩

/-- Another stage on the same head. -/
theorem Inv.staged (h : Inv env genesis c) {g : GlobalProperties} {st : Stage}
    (hst : StageOk env genesis c.head g st) :
    Inv env genesis { c with gpo := g, pending := some st } := by
  refine ⟨h.head, h.below, fun hn => (by cases hn), ?_⟩
  rintro _ ⟨⟩
  exact hst

theorem inv_start {modifiesState : Bool} {when' n : Nat} (h : Inv env genesis c)
    (hs : startBlock modifiesState when' n c = .ok c') : Inv env genesis c' := by
  obtain ⟨_, hnone, hs⟩ := except_bind_ok hs
  have hpend : c.pending = none := Option.isNone_iff_eq_none.mp (eosAssert_ok hnone)
  obtain ⟨p, hnext, hs⟩ := except_bind_ok hs
  have hb := built_of_next hnext
  have hg := h.head.coherent
  rw [← h.idle hpend] at hg
  cases modifiesState with
  | true =>
    obtain ⟨new, g, hprom, hbuilt, hcoh⟩ := promoteProposed_ok hb hg
    obtain ⟨r, hr, hs⟩ := except_bind_ok hs
    cases hprom.symm.trans hr
    cases hs
    exact h.staged ⟨hbuilt, by simpa using hcoh⟩
  | false =>
    cases hs
    exact h.staged ⟨hb, by simpa using coherent_next hb hg⟩

/-- Proposing sets the version that comes next, or nothing. -/
theorem coherent_propose (disallowEmpty : Bool) (producers : List ProducerAuthority)
    (h : Coherent c.gpo (pendingProducers c) (activeProducers c)) :
    ∃ g, (setProposedProducers disallowEmpty producers c).2 = { c with gpo := g } ∧
      Coherent g (pendingProducers c) (activeProducers c) := by
  unfold setProposedProducers
  cases refusesProposal disallowEmpty producers c with
  | true => exact ⟨c.gpo, rfl, h⟩
  | false =>
    refine ⟨_, rfl, fun _ => ?_⟩
    show addU32 (replaced c).version 1 = _
    unfold versionAfter replaced
    by_cases hnil : (pendingProducers c).producers = []
    · rw [if_pos hnil, if_pos (length_eq_zero_iff.mpr hnil)]
    · rw [if_neg hnil, if_neg (fun hlen => hnil (length_eq_zero_iff.mp hlen))]

/-- **THE STEP LEMMA**. -/
theorem inv_step (h : Inv env (genesisState env initialTimestamp initialProducerList chainId) c)
    (hstep : Step env c c') :
    Inv env (genesisState env initialTimestamp initialProducerList chainId) c' := by
  cases hstep with
  | start modifiesState when' n hs => exact inv_start h hs
  | @propose p new ss disallowEmpty producers hp =>
    obtain ⟨g, heq, hg⟩ := coherent_propose disallowEmpty producers h.coherent
    obtain ⟨hb, hall⟩ := h.stage _ hp
    have hg' : Coherent g (new.getD p.prevPendingSchedule.schedule) p.activeSchedule := by
      rw [pendingProducers, activeProducers, hp] at hg
      exact hg
    rw [heq]
    refine ⟨h.head, h.below, fun hn => ?_, ?_⟩
    · rw [show c.pending = none from hn] at hp
      cases hp
    · intro st hst
      cases hp.symm.trans hst
      exact ⟨hb, forall_mem_cons.mpr ⟨hg', fun g hgm =>
        hall g (mem_cons_of_mem _ hgm)⟩⟩
  | @openSession p new ss hp =>
    obtain ⟨hb, hall⟩ := h.stage _ hp
    exact h.staged ⟨hb, forall_mem_cons.mpr ⟨hall _ mem_cons_self, hall⟩⟩
  | @undoSession p new g ss hp =>
    obtain ⟨hb, hall⟩ := h.stage _ hp
    exact h.staged ⟨hb, fun g hgm => hall g (mem_cons_of_mem _ hgm)⟩
  | @squashSession p new g ss hp =>
    obtain ⟨hb, hall⟩ := h.stage _ hp
    refine h.staged ⟨hb, forall_mem_cons.mpr ⟨hall _ mem_cons_self, ?_⟩⟩
    exact fun x hx => hall x (mem_cons_of_mem _ (mem_cons_of_mem _ hx))
  | @assemble p new ss hd tm am acts hp hmade =>
    obtain ⟨hb, hall⟩ := h.stage _ hp
    exact h.staged ⟨hb, hb.extract_made hmade, hall _ mem_cons_self⟩
  | @complete p new hd s hp hf =>
    obtain ⟨hb, hx, hcoh⟩ := h.stage _ hp
    refine h.staged ⟨?_, .inr (hb.pendingNext_completed hx hf ?_)⟩
    · intro hsome
      rw [hb.versionAfter_completed hx hf]
      exact hcoh hsome
    · rcases h.head.pending with hgen | hnext
      · right
        by_cases hnil : c.head.pendingSchedule.schedule.producers = []
        · exact .inl hnil
        · obtain ⟨a, slot, n, rfl⟩ := hb.next
          rw [hgen] at hnil ⊢
          exact .inr (genesis_promotes hnil)
      · exact .inl hnext
  | @commit s hp =>
    refine ⟨h.stage _ hp, ?_, fun _ => rfl, fun st hst => (by cases hst)⟩
    exact forall_mem_cons.mpr ⟨h.head, h.below⟩
  | abort => exact ⟨h.head, h.below, fun _ => rfl, fun st hst => (by cases hst)⟩
  | @pop s g rest hp hbelow =>
    have hall := h.below
    rw [hbelow] at hall
    refine ⟨hall _ mem_cons_self, ?_, fun _ => rfl, fun st hst => (by cases hst)⟩
    exact fun x hx => hall x (mem_cons_of_mem _ hx)

theorem inv_genesis :
    Inv env (genesisState env initialTimestamp initialProducerList chainId)
      (genesisChain env initialTimestamp initialProducerList chainId) :=
  ⟨⟨coherent_none _ _, .inl rfl⟩, fun _ hx => (nomatch hx), fun _ => rfl,
    fun st hst => (by cases hst)⟩

theorem inv_run (hrun : Relation.ReflTransGen (Step env)
      (genesisChain env initialTimestamp initialProducerList chainId) c) :
    Inv env (genesisState env initialTimestamp initialProducerList chainId) c := by
  induction hrun with
  | refl => exact inv_genesis
  | tail _ hstep ih => exact inv_step ih hstep

/-- **SCHEDULE VERSIONS** in every state of every run from genesis: a proposal
    follows the pending or else the active schedule; the version assertion of
    `start_block` holds; so do those of `_finish_next` on schedules, for every
    header that the node makes of the block it builds; and a promotion raises
    the active version by one, except in the first block, which keeps the
    version of genesis, zero. -/
theorem schedule_versions (hrun : Relation.ReflTransGen (Step env)
      (genesisChain env initialTimestamp initialProducerList chainId) c) :
    Coherent c.gpo (pendingProducers c) (activeProducers c) ∧
      (∀ when' n p, c.pending = none → next c.head when' n = .ok p →
        ∃ r, promoteProposed c.gpo p = .ok r) ∧
      (∀ p new ss, c.pending = some (.building p new ss) → ∀ tm am acts h,
        makeBlockHeader env p tm am new acts = .ok h →
        h.scheduleVersion = p.activeScheduleVersion ∧
          ∃ r, extractNewSchedule env p h h.headerExtensions = .ok r) ∧
      (∀ when' n p, next c.head when' n = .ok p →
        (p.wasPendingPromoted = true →
          c.head ≠ genesisState env initialTimestamp initialProducerList chainId →
          p.activeSchedule.version = addU32 c.head.activeSchedule.version 1) ∧
        (c.head = genesisState env initialTimestamp initialProducerList chainId →
          p.activeSchedule.version = 0) ∧
        (p.wasPendingPromoted = false → p.activeSchedule = c.head.activeSchedule)) := by
  have h := inv_run hrun
  refine ⟨h.coherent, ?_, ?_, ?_⟩
  · intro when' n p hpend hnext
    have hg := h.head.coherent
    rw [← h.idle hpend] at hg
    obtain ⟨new, g, hprom, -⟩ := promoteProposed_ok (built_of_next hnext) hg
    exact ⟨_, hprom⟩
  · intro p new ss hpend tm am acts hd hmade
    obtain ⟨hversion, ns, hns, -⟩ := (h.stage _ hpend).1.extract_made hmade
    exact ⟨hversion, ns, hns⟩
  · intro when' n p hnext
    have hb := built_of_next hnext
    refine ⟨?_, ?_, hb.kept⟩
    · intro hprom hgen
      obtain ⟨hne, hactive⟩ := hb.promoted hprom
      rw [hactive]
      exact (h.head.pending.resolve_left hgen) hne
    · intro hgen
      cases hprom : p.wasPendingPromoted with
      | true =>
        rw [(hb.promoted hprom).2, hgen]
        rfl
      | false =>
        rw [hb.kept hprom, hgen]
        rfl

end Run

/-! ## The first block -/

def soleProducer : List ProducerKey := [⟨⟨1⟩, [7]⟩]

/-- The first block promotes the schedule of genesis, whose version is that of
    the active schedule already. -/
theorem genesis_version_stays :
    ∃ p, next (genesisChain plainEnv 0 soleProducer 0).head 1 0 = .ok p ∧
      p.wasPendingPromoted = true ∧
      p.activeSchedule.version =
        (genesisChain plainEnv 0 soleProducer 0).head.activeSchedule.version :=
  ⟨_, rfl, rfl, rfl⟩

/-- A proposal in the first block. -/
theorem schedule_versions_proposal :
    ∃ c, Relation.ReflTransGen (Step plainEnv) (genesisChain plainEnv 0 soleProducer 0) c ∧
      c.gpo.proposedSchedule.version = 1 ∧
      Coherent c.gpo (pendingProducers c) (activeProducers c) := by
  have hrun : Relation.ReflTransGen (Step plainEnv)
      (genesisChain plainEnv 0 soleProducer 0) _ :=
    .tail (.tail .refl (.start true 1 0 rfl)) (.propose true [⟨⟨2⟩, ⟨1, [⟨[8], 1⟩]⟩⟩] rfl)
  exact ⟨_, hrun, rfl, (schedule_versions hrun).1⟩

end ScheduleRun
