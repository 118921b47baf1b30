import EosForce.BlockLogProofs

/-! # Committing the pending block

    `commit_block` updates one store after the other: the fork database, the
    controller's head, the reversible blocks, the block log, and last the undo
    session of the pending block.  When something throws in between, the
    handler aborts the pending block, which undoes the session; the head is not
    put back.

    So a commit that throws is undone exactly when it had not yet taken over
    another head from the fork database (`commit_atomic_iff`). -/

namespace CommitBlock

open ChainTypes Effect StepRule ForkDatabase ForkSwitch ForkOrder BlockLogs

/-! ## The pending block -/

/-- `block_stage_type`. -/
inductive Stage (τ : Type) where
  | building
  | assembled
  | completed (bsp : BlockState τ)

/-- `pending_state`: the stage, and whether it holds an undo session. -/
structure Pending (τ : Type) where
  stage : Stage τ
  session : Bool

/-- The node, the revision of its state database, and the pending block. -/
structure ChainState (τ σ : Type) where
  node : Node τ σ
  revision : Nat
  pending : Option (Pending τ)

/-- What can fail while a block is committed. -/
structure Surroundings (τ : Type) extends Outside τ where
  acceptedBlockHeader : Option FcException
  reversibleCreate : Option FcException
  acceptedBlock : Option FcException

variable {τ σ α : Type}

/-- The controller's head. -/
abbrev ChainState.head (c : ChainState τ σ) : BlockState τ := c.node.ctl.head

abbrev ChainM (τ σ : Type) := EStateM Fault (ChainState τ σ)

def onNode (x : NodeM τ σ α) : ChainM τ σ α :=
  zoom (·.node) (fun n c => { c with node := n }) x

/-- `pending.reset()`: an open session is undone, which takes the database back
    by one revision. -/
def resetPending (c : ChainState τ σ) : ChainState τ σ :=
  match c.pending with
  | some ⟨_, true⟩ =>
    match c.node.ctl.undo with
    | [] => { c with pending := none }
    | u :: us =>
      { node := { c.node with ctl := { c.node.ctl with db := u, undo := us } }
        revision := c.revision - 1
        pending := none }
  | _ => { c with pending := none }

/-- `abort_block`. -/
def abortBlock : ChainM τ σ Unit := modify resetPending

variable (env : ControllerEnv τ σ) (out : Surroundings τ) (replaying : Bool)

/-- `apply_block` while a block is pending: `start_block` refuses. -/
def busy : ControllerEnv τ σ :=
  { env with applyBlock := (fun _ _ _ _ _ =>
      .error ⟨.blockValidate, "pending block already exists"⟩) }

/-- The new block goes into the fork database, whose head is taken over; the
    pointers `bsp` and `head` are compared by id and number. -/
def adopt (bsp : BlockState τ) : ChainM τ σ Unit := do
  onNode (onCtl (onForkDb (add bsp false)))
  onNode (onCtl (onForkDb (markValid bsp)))
  onNode (emit out.acceptedBlockHeader)
  onNode (onCtl do
    let c ← get
    setHead c.forkDb.head)
  let c ← get
  ensure (bsp.id = c.head.id ∧ bsp.blockNum = c.head.blockNum) .forkDatabase
    "committed block did not become the new head in fork database"

/-- The reversible block, the signal and the log. -/
def announce (addToForkDb : Bool) : ChainM τ σ Unit := do
  whenever (replaying = false ∧ env.readMode ≠ .irreversible) (onNode (emit out.reversibleCreate))
  onNode (emit out.acceptedBlock)
  whenever (addToForkDb = true) (onNode (logIrreversible (busy env) out.toOutside false))

/-- The `try` block of `commit_block`. -/
def commitBody (addToForkDb : Bool) : ChainM τ σ Unit := do
  let c ← get
  match (c.pending.map Pending.stage : Option (Stage τ)) with
  | some (.completed bsp) => do
      whenever (addToForkDb = true) (adopt out bsp)
      announce env out replaying addToForkDb
  | _ => throw (.exc ⟨.blockValidate, "cannot call commit_block until pending block is completed"⟩)

/-- `commit_block`. -/
def commitBlock (addToForkDb : Bool) : ChainM τ σ Unit := do
  match ← attempt fcException (commitBody env out replaying addToForkDb) with
  | .error e => do
      abortBlock
      throw (.exc e)
  | .ok _ => modify fun c => { c with pending := none }

/-! ## The head during the log -/

section Log

variable {env} {io : Outside τ} {light : Bool}

theorem ensure_still {ρ : Type} {p : Prop} [Decidable p] {t : ExceptionType} {w : String}
    (s : ρ) : final (ensure p t w s) = s := by
  by_cases hp : p
  · rw [ensure_pos hp]
    rfl
  · rw [ensure_neg hp]
    rfl

theorem checkLog_still (c c' : Controller τ σ) : final (checkLog c c') = c' := by
  unfold checkLog
  cases c.blog.head with
  | none => exact still_bind (P := (· = c')) (ensure_still c') rfl fun _ _ => rfl
  | some hd => exact still_bind (P := (· = c')) (ensure_still c') rfl fun _ _ => rfl

/-- The controller's head stays. -/
def SameHead (s s' : Node τ σ) : Prop := s'.ctl.head = s.ctl.head

theorem moves_onForkDb (x : ForkM τ α) :
    Moves (SameHead (τ := τ) (σ := σ)) (fun _ => True) (onCtl (onForkDb x)) := by
  refine Moves.zoom fun s _ => ?_
  show (final (onForkDb x s.ctl)).head = _
  rw [onForkDb]
  cases x s.ctl.forkDb with
  | ok a f => rfl
  | error e f => rfl

theorem moves_append (b : BlockState τ) :
    Moves (SameHead (τ := τ) (σ := σ)) (fun _ => True) (append io b) := by
  have hrecord : Moves (SameHead (τ := τ) (σ := σ)) (fun _ => True) (record b) :=
    Moves.modify fun _ _ => rfl
  refine Moves.get_bind fun s _ => Moves.chain ?_ fun _ => ?_
  · exact Moves.still fun s' => ensure_still s'
  · cases io.append b with
    | written => exact hrecord
    | refused e => exact Moves.throw _
    | unflushed e => exact hrecord.chain fun _ => Moves.throw _

theorem moves_emit (r : Option FcException) :
    Moves (SameHead (τ := τ) (σ := σ)) (fun _ => True) (emit r) := by
  cases r with
  | none => exact Moves.pure _
  | some e => exact Moves.throw _

/-- No block is applied while one is pending. -/
theorem moves_applyIrreversible (b : BlockState τ) :
    Moves (SameHead (τ := τ) (σ := σ)) (fun _ => True)
      (onCtl (applyIrreversible (busy env) light b)) := by
  refine Moves.zoom fun s _ => ?_
  show (final (applyIrreversible (busy env) light b s.ctl)).head = _
  by_cases hmode : (busy env).readMode = .irreversible
  · rw [applyIrreversible, if_pos hmode]
    rfl
  · rw [applyIrreversible, if_neg hmode]
    rfl

theorem moves_logBlocks (branch : List (BlockState τ)) :
    ∀ rootId, Moves (SameHead (τ := τ) (σ := σ)) (fun _ => True)
      (logBlocks (busy env) io light rootId branch) := by
  induction branch with
  | nil => exact fun _ => Moves.pure _
  | cons b rest ih =>
    intro rootId
    refine Moves.chain (Moves.attempt ?_) fun r => ?_
    · exact (moves_applyIrreversible b).chain fun _ => moves_emit _
    · cases r with
      | error e => exact Moves.pure _
      | ok _ =>
        refine Moves.chain (Moves.zoom fun _ _ => rfl) fun _ => ?_
        refine Moves.chain (moves_append b).attempt fun r => ?_
        cases r with
        | error e => exact Moves.pure _
        | ok _ => exact ih b.id

/-- **THE LOG LEAVES THE HEAD** of a node with a pending block. -/
theorem head_logIrreversible (s : Node τ σ) :
    (final (logIrreversible (busy env) io light s)).ctl.head = s.ctl.head := by
  have hmoves : Moves (SameHead (τ := τ) (σ := σ)) (fun _ => True)
      (logIrreversible (busy env) io light) := by
    refine Moves.get_bind fun s _ => Moves.chain ?_ fun libNum => ?_
    · refine Moves.zoom fun s' _ => ?_
      show (final (checkLog s.ctl s'.ctl)).head = _
      rw [checkLog_still]
    · dsimp only
      split
      · exact Moves.pure _
      · cases fetchBranch s.ctl.forkDb _ _ with
        | none => exact Moves.throw _
        | some branch =>
          refine (moves_logBlocks _ _).chain fun r => ?_
          refine (Moves.whenever fun _ => moves_onForkDb _).chain fun _ => ?_
          exact moves_emit _
  exact run_rel (R := SameHead) (fun _ => rfl) (fun _ _ _ h h' => h'.trans h) (hmoves s trivial)

end Log

/-! ## Failing commits -/

/-- A pending block as `start_block` leaves it: with a session the database is
    one revision ahead of the head, and a completed block is the next one. -/
structure Prepared (c : ChainState τ σ) (p : Pending τ) : Prop where
  pending : c.pending = some p
  revision : c.revision = c.head.blockNum + if p.session then 1 else 0
  undo : p.session = true → c.node.ctl.undo ≠ []
  next : ∀ bsp, p.stage = .completed bsp → bsp.blockNum = c.head.blockNum + 1

/-- The block gets into the fork database: its parent is there, it is not, and
    no handler of `accepted_block_header` throws. -/
structure Enters (out : Surroundings τ) (f : ForkDb τ) (bsp : BlockState τ) : Prop where
  parent : (getBlockHeader f bsp.prev).isSome = true
  fresh : getBlock f bsp.id = none
  silent : out.acceptedBlockHeader = none

/-- **THE BRANCH THAT GOES WRONG**: the completed block enters the fork
    database, and it is preferred to the best block there, the first one if
    that is validated and the head otherwise, or that best block is not the
    controller's head. -/
def TakesHead (out : Surroundings τ) (p : Pending τ) (c : ChainState τ σ) : Prop :=
  ∃ bsp, p.stage = .completed bsp ∧ Enters out c.node.ctl.forkDb bsp ∧
    (firstPreferred bsp (reheaded c.node.ctl.forkDb).head = true ∨
      (reheaded c.node.ctl.forkDb).head ≠ c.head)

/-- What an abort needs: everything but the fork database is as it was. -/
structure Untouched (c c' : ChainState τ σ) : Prop where
  head : c'.head = c.head
  revision : c'.revision = c.revision
  pending : c'.pending = c.pending
  undo : c'.node.ctl.undo = c.node.ctl.undo

/-- The head and the revision of the database are those from before the block. -/
def Undone (c c' : ChainState τ σ) : Prop :=
  c'.head = c.head ∧ c'.head.blockNum = c'.revision

section Fail

variable {env out replaying} {c c' : ChainState τ σ} {p : Pending τ}

theorem head_resetPending (c : ChainState τ σ) : (resetPending c).head = c.head := by
  unfold resetPending
  split
  · split
    · rfl
    · rfl
  · rfl

/-- Aborting an untouched block undoes it. -/
theorem Untouched.undone (h : Untouched c c') (hp : Prepared c p) : Undone c (resetPending c') := by
  refine ⟨(head_resetPending c').trans h.head, ?_⟩
  rw [head_resetPending, h.head]
  have hpend := h.pending.trans hp.pending
  have hrev := h.revision.trans hp.revision
  obtain ⟨stage, session⟩ := p
  unfold resetPending
  rw [hpend]
  cases session with
  | false => exact hrev.symm
  | true =>
    have hundo := hp.undo rfl
    rw [← h.undo] at hundo
    dsimp only
    cases hu : c'.node.ctl.undo with
    | nil => exact absurd hu hundo
    | cons u us =>
      show _ = c'.revision - 1
      rw [hrev]
      rfl

theorem onNode_ok {x : NodeM τ σ α} {a : α} {s : Node τ σ} (h : x c.node = .ok a s) :
    onNode x c = .ok a { c with node := s } := by
  rw [onNode, zoom, h]

theorem onNode_error {x : NodeM τ σ α} {e : Fault} {s : Node τ σ}
    (h : x c.node = .error e s) : onNode x c = .error e { c with node := s } := by
  rw [onNode, zoom, h]

theorem Untouched.refl (c : ChainState τ σ) : Untouched c c := ⟨rfl, rfl, rfl, rfl⟩

/-- The chain with another fork database. -/
def withFork (c : ChainState τ σ) (f : ForkDb τ) : ChainState τ σ :=
  { c with node := { c.node with ctl := { c.node.ctl with forkDb := f } } }

/-- The chain after it took over the head of `f`. -/
def taken (c : ChainState τ σ) (f : ForkDb τ) : ChainState τ σ :=
  { c with node := { c.node with ctl := { c.node.ctl with forkDb := f, head := f.head } } }

theorem untouched_withFork (c : ChainState τ σ) (f : ForkDb τ) : Untouched c (withFork c f) :=
  ⟨rfl, rfl, rfl, rfl⟩

theorem forkDb_ok {x : ForkM τ α} {a : α} {f : ForkDb τ} (h : x c.node.ctl.forkDb = .ok a f) :
    onNode (onCtl (onForkDb x)) c = .ok a (withFork c f) :=
  onNode_ok (onCtl_ok (ForkRevert.onForkDb_ok h))

theorem forkDb_error {x : ForkM τ α} {e : Fault} {f : ForkDb τ}
    (h : x c.node.ctl.forkDb = .error e f) :
    onNode (onCtl (onForkDb x)) c = .error e (withFork c f) :=
  onNode_error (onCtl_error (ForkRevert.onForkDb_error h))

theorem add_ok {f g : ForkDb τ} {bsp : BlockState τ} {u : Unit}
    (h : add bsp false f = .ok u g) :
    (getBlockHeader f bsp.prev).isSome = true ∧ getBlock f bsp.id = none := by
  unfold add addState at h
  rw [get_bind] at h
  cases hp : getBlockHeader f bsp.prev with
  | none =>
    rw [hp] at h
    cases h
  | some p =>
    rw [hp] at h
    cases hb : getBlock f bsp.id with
    | none => exact ⟨rfl, rfl⟩
    | some b =>
      rw [hb] at h
      cases h

/-- The fork database with the block added and marked. -/
def entered (f : ForkDb τ) (bsp : BlockState τ) : ForkDb τ :=
  marked (insertedAs f bsp false) bsp.id

/-- A block that enters the fork database is added and marked. -/
theorem Enters.marks {f : ForkDb τ} {bsp : BlockState τ} (h : Enters out f bsp) :
    add bsp false f = .ok () (insertedAs f bsp false) ∧
      (insertedAs f bsp false).validated bsp.id = false ∧
      bsp ∈ (insertedAs f bsp false).index ∧
      markValid bsp (insertedAs f bsp false) = .ok () (entered f bsp) ∧
      (entered f bsp).head =
        if firstPreferred bsp (reheaded f).head then bsp else (reheaded f).head := by
  have hfresh : ∀ b ∈ f.index, b.id ≠ bsp.id := fun b hb => by
    simpa using List.find?_eq_none.mp h.fresh b hb
  obtain ⟨p, hp⟩ := Option.isSome_iff_exists.mp h.parent
  have hflag : (insertedAs f bsp false).validated bsp.id = false := by
    rw [insertedAs_false hfresh]
    exact if_pos rfl
  have hmem : bsp ∈ (insertedAs f bsp false).index := by
    rw [insertedAs_false hfresh]
    exact List.mem_append_right _ (List.mem_singleton_self bsp)
  refine ⟨?_, hflag, hmem, ?_, head_marked_insertedAs hfresh⟩
  · unfold add addState
    rw [get_bind, hp, h.fresh]
    rfl
  · unfold markValid
    rw [get_bind, if_neg (by rw [hflag]; exact Bool.false_ne_true)]
    cases hget : getBlock (insertedAs f bsp false) bsp.id with
    | none => simpa using List.find?_eq_none.mp hget bsp hmem
    | some b => rfl

/-- **ADOPTING A BLOCK** throws before the head is touched, or takes over the
    fork database's head. -/
theorem adopt_cases (out : Surroundings τ) (bsp : BlockState τ) (c : ChainState τ σ) :
    (∃ e c1, adopt out bsp c = .error e c1 ∧ Untouched c c1 ∧
        ¬ Enters out c.node.ctl.forkDb bsp) ∨
      Enters out c.node.ctl.forkDb bsp ∧
        ((bsp.id = (entered c.node.ctl.forkDb bsp).head.id ∧
              bsp.blockNum = (entered c.node.ctl.forkDb bsp).head.blockNum) ∧
            adopt out bsp c = .ok () (taken c (entered c.node.ctl.forkDb bsp)) ∨
          bsp ≠ (entered c.node.ctl.forkDb bsp).head ∧
            ∃ e, adopt out bsp c = .error e (taken c (entered c.node.ctl.forkDb bsp))) := by
  by_cases henter : Enters out c.node.ctl.forkDb bsp
  · obtain ⟨hadd, -, -, hmark, -⟩ := henter.marks
    refine .inr ⟨henter, ?_⟩
    unfold adopt
    rw [bind_ok (forkDb_ok hadd), 
      bind_ok (forkDb_ok (c := withFork c (insertedAs c.node.ctl.forkDb bsp false)) hmark),
      henter.silent]
    by_cases heq : bsp.id = (entered c.node.ctl.forkDb bsp).head.id ∧
        bsp.blockNum = (entered c.node.ctl.forkDb bsp).head.blockNum
    · exact .inl ⟨heq, ensure_pos heq _ _ (taken c _)⟩
    · exact .inr ⟨fun h => heq (h ▸ ⟨rfl, rfl⟩), _, ensure_neg heq _ _ (taken c _)⟩
  · refine .inl ?_
    unfold adopt
    cases hadd : add bsp false c.node.ctl.forkDb with
    | error e f =>
      exact ⟨e, _, bind_error (forkDb_error hadd), untouched_withFork c f, henter⟩
    | ok u f1 =>
      rw [bind_ok (forkDb_ok hadd)]
      cases hmark : markValid bsp f1 with
      | error e f =>
        exact ⟨e, _, bind_error (forkDb_error (c := withFork c f1) hmark),
          untouched_withFork c f, henter⟩
      | ok u f2 =>
        rw [bind_ok (forkDb_ok (c := withFork c f1) hmark)]
        cases hsig : out.acceptedBlockHeader with
        | some e => exact ⟨.exc e, _, rfl, untouched_withFork c f2, henter⟩
        | none =>
          -- a block that was added is new and has its parent there
          exact absurd ⟨(add_ok hadd).1, (add_ok hadd).2, hsig⟩ henter

theorem emit_still (r : Option FcException) (c : ChainState τ σ) :
    final (onNode (emit r) c) = c := by
  cases r with
  | none => rfl
  | some e => rfl

theorem head_onNode {x : NodeM τ σ α}
    (h : (final (x c.node)).ctl.head = c.node.ctl.head) : (final (onNode x c)).head = c.head := by
  rw [onNode, zoom]
  cases hr : x c.node with
  | ok a s =>
    rw [hr] at h
    exact h
  | error e s =>
    rw [hr] at h
    exact h

theorem reversible_still (c : ChainState τ σ) :
    final (whenever (replaying = false ∧ env.readMode ≠ .irreversible)
      (onNode (emit out.reversibleCreate)) c) = c := by
  unfold whenever
  split
  · exact emit_still _ c
  · rfl

/-- Neither the signal nor the log touches the head. -/
theorem head_announce (addToForkDb : Bool) (c : ChainState τ σ) :
    (final (announce env out replaying addToForkDb c)).head = c.head := by
  refine still_bind (P := (·.head = c.head)) (reversible_still c) rfl fun _ _ => ?_
  refine still_bind (P := (·.head = c.head)) (emit_still _ c) rfl fun _ _ => ?_
  unfold whenever
  split
  · exact head_onNode (head_logIrreversible c.node)
  · rfl

/-- Without the fork database a commit changes nothing before it throws. -/
theorem announce_still (c : ChainState τ σ) : final (announce env out replaying false c) = c := by
  refine still_bind (P := (· = c)) (reversible_still c) rfl fun _ _ => ?_
  exact still_bind (P := (· = c)) (emit_still _ c) rfl fun _ _ => rfl

/-- A commit that throws was aborted where its body threw. -/
theorem commitBlock_threw {addToForkDb : Bool} {e : FcException}
    (h : commitBlock env out replaying addToForkDb c = .error (.exc e) c') :
    ∃ c1, commitBody env out replaying addToForkDb c = .error (.exc e) c1 ∧
      c' = resetPending c1 := by
  unfold commitBlock at h
  cases hbody : commitBody env out replaying addToForkDb c with
  | ok u c1 =>
    rw [bind_ok (attempt_ok hbody)] at h
    cases h
  | error f c1 =>
    cases hf : fcException f with
    | none =>
      rw [bind_error (attempt_missed hbody hf)] at h
      cases h
      cases hf
    | some e1 =>
      rw [bind_ok (attempt_caught hbody hf)] at h
      cases h
      cases f with
      | exc e2 =>
        cases hf
        exact ⟨c1, rfl, rfl⟩
      | emptyBack => cases hf
      | noUndoState => cases hf
      | diverges => cases hf

/-- The state in which a computation threw. -/
theorem final_of_error {x : ChainM τ σ α} {f : Fault} (h : x c = .error f c') :
    final (x c) = c' := by
  rw [h]
  rfl

/-- Adopting a block and throwing: undone unless another head was taken over. -/
theorem adopt_undone_iff {bsp : BlockState τ} {f : Fault} (hp : Prepared c p)
    (hstage : p.stage = .completed bsp)
    (h : (adopt out bsp >>= fun _ => announce env out replaying true) c = .error f c') :
    Undone c (resetPending c') ↔ ¬ TakesHead out p c := by
  have hne : bsp ≠ c.head := fun heq => by
    have := hp.next bsp hstage
    rw [← heq] at this
    omega
  rcases adopt_cases out bsp c with ⟨e, c1, hadopt, hsame, hnot⟩ | ⟨henter, hadopt⟩
  · -- nothing but the fork database was touched
    rw [bind_error hadopt] at h
    cases h
    refine iff_of_true (hsame.undone hp) ?_
    rintro ⟨b, hb, henter, -⟩
    rw [hstage] at hb
    cases hb
    exact hnot henter
  · -- the head is the fork database's from here on
    have hf2 := henter.marks.2.2.2.2
    have hhead : c'.head = (entered c.node.ctl.forkDb bsp).head := by
      rcases hadopt with ⟨-, hok⟩ | ⟨-, e, herr⟩
      · rw [bind_ok hok] at h
        rw [← final_of_error h, head_announce]
        rfl
      · rw [bind_error herr] at h
        cases h
        rfl
    have htakes : TakesHead out p c ↔ (entered c.node.ctl.forkDb bsp).head ≠ c.head := by
      rw [hf2]
      constructor
      · rintro ⟨b, hb, -, hcase⟩
        rw [hstage] at hb
        cases hb
        split
        · exact hne
        · exact hcase.resolve_left (by assumption)
      · intro hother
        refine ⟨bsp, hstage, henter, ?_⟩
        split at hother
        · exact .inl (by assumption)
        · exact .inr hother
    rw [htakes, not_not]
    constructor
    · rintro ⟨hback, -⟩
      rw [head_resetPending, hhead] at hback
      exact hback
    · intro hsame
      rcases hadopt with ⟨⟨hid, hnum⟩, -⟩ | ⟨-, e, herr⟩
      · -- the new block is not the old head
        have := hp.next bsp hstage
        rw [hsame] at hnum
        omega
      · rw [bind_error herr] at h
        cases h
        exact Untouched.undone (c := c) ⟨hsame, rfl, rfl, rfl⟩ hp

/-- **ATOMIC COMMITS**: a commit that throws leaves head and database as they
    were before the block exactly if it does not put the block into the fork
    database, or does not take over another head from it. -/
theorem commit_atomic_iff {addToForkDb : Bool} {e : FcException} (hp : Prepared c p)
    (h : commitBlock env out replaying addToForkDb c = .error (.exc e) c') :
    Undone c c' ↔ (addToForkDb = true → ¬ TakesHead out p c) := by
  obtain ⟨c1, hbody, rfl⟩ := commitBlock_threw h
  unfold commitBody at hbody
  rw [get_bind, hp.pending] at hbody
  have hstill : c1 = c → Undone c (resetPending c1) := by
    rintro rfl
    exact (Untouched.refl c1).undone hp
  -- a block that is not completed does not get into the fork database
  have hearly : (∀ bsp, p.stage ≠ .completed bsp) → ¬ TakesHead out p c := by
    rintro hne ⟨bsp, hb, -⟩
    exact hne bsp hb
  obtain ⟨stage, session⟩ := p
  cases stage with
  | building =>
    cases hbody
    exact iff_of_true (hstill rfl) fun _ => hearly fun _ hb => by cases hb
  | assembled =>
    cases hbody
    exact iff_of_true (hstill rfl) fun _ => hearly fun _ hb => by cases hb
  | completed bsp =>
    cases addToForkDb with
    | false =>
      have hrest : announce env out replaying false c = .error (.exc e) c1 := hbody
      have hc1 : c1 = c := by rw [← final_of_error hrest, announce_still]
      exact iff_of_true (hstill hc1) fun hadd => by cases hadd
    | true =>
      rw [adopt_undone_iff hp rfl hbody]
      exact ⟨fun hnot _ => hnot, fun hnot => hnot rfl⟩

end Fail

/-! ## Commits and the block log -/

section Runs

variable {env out replaying} {c : ChainState τ σ} {bsp : BlockState τ} {s₀ : Node τ σ}

/-- The block continues the fork database of a node that applies what it
    receives: it is new, and its parent is validated. -/
structure Continues (env : ControllerEnv τ σ) (f : ForkDb τ) (bsp : BlockState τ) : Prop where
  mode : env.readMode ≠ .irreversible
  root : f.root.id ≠ bsp.id
  number : ∀ p, getBlockHeader f bsp.prev = some p → bsp.blockNum = p.blockNum + 1
  parent : ∀ p ∈ f.index, p.id = bsp.prev → f.validated p.id = true

/-- A block enters the fork database between two calls of `log_irreversible`. -/
theorem Enters.between (h : Enters out c.node.ctl.forkDb bsp)
    (hc : Continues env c.node.ctl.forkDb bsp) :
    Between env c.node (taken c (entered c.node.ctl.forkDb bsp)).node := by
  have hfresh : ∀ b ∈ c.node.ctl.forkDb.index, b.id ≠ bsp.id := fun b hb => by
    simpa using List.find?_eq_none.mp h.fresh b hb
  have hheld : ∀ b, ForkTree.Holds c.node.ctl.forkDb b → b.id ≠ bsp.id := by
    intro b hb
    rcases hb.cases with rfl | hmem
    · exact hc.root
    · exact hfresh b hmem
  obtain ⟨-, hflag, hmem, -, -⟩ := h.marks
  obtain ⟨p, hp⟩ := Option.isSome_iff_exists.mp h.parent
  refine ⟨rfl, rfl, ?_, fun hready => ?_⟩
  · show (entered c.node.ctl.forkDb bsp).root = _
    rcases ForkRevert.marked_cases (insertedAs c.node.ctl.forkDb bsp false) bsp.id with
      heq | ⟨_, -, heq⟩
    · rw [entered, heq, insertedAs_false hfresh]
      rfl
    · rw [entered, heq, insertedAs_false hfresh]
      rfl
  · have hnew := (hready.inserted hp (hc.number p hp) hheld).mark hc.mode hmem ?_
    · rw [ForkRevert.mark, if_neg (by rw [hflag]; exact Bool.false_ne_true)] at hnew
      exact hnew
    · rw [insertedAs_false hfresh]
      intro q hq hid
      obtain ⟨hpid, -⟩ := ForkTree.getBlockHeader_some hp
      have hne : q.id ≠ bsp.id := by
        rw [hid, ← hpid]
        exact hheld p (ForkTree.holds_of_getBlockHeader hp)
      refine (if_neg hne).trans (hc.parent q ?_ hid)
      exact (List.mem_append.mp hq).resolve_right fun h => hne (List.mem_singleton.mp h ▸ rfl)

theorem between_resetPending (c : ChainState τ σ) : Between env c.node (resetPending c).node := by
  unfold resetPending
  split
  · split
    · exact ⟨rfl, rfl, rfl, id⟩
    · exact ⟨rfl, rfl, rfl, id⟩
  · exact ⟨rfl, rfl, rfl, id⟩

theorem runs_announce (happend : ∀ b e, out.append b ≠ .refused e)
    (hmode : env.readMode ≠ .irreversible)
    (h : LogRuns (busy env) (Guard (busy env)) s₀ c.node) :
    LogRuns (busy env) (Guard (busy env)) s₀ (final (announce env out replaying true c)).node := by
  have hguard : Guard (busy env) out.toOutside c.node :=
    ⟨fun b _ e => happend b e, fun hirr => absurd hirr hmode, fun hirr => absurd hirr hmode⟩
  refine still_bind (P := (LogRuns (busy env) (Guard (busy env)) s₀ ·.node)) (reversible_still c) h
    fun _ _ => ?_
  refine still_bind (P := (LogRuns (busy env) (Guard (busy env)) s₀ ·.node)) (emit_still _ c) h
    fun _ _ => ?_
  have hlog := LogRuns.log out.toOutside false h hguard
  rw [whenever, if_pos rfl, onNode, zoom]
  cases hr : logIrreversible (busy env) out.toOutside false c.node with
  | ok u s =>
    rw [hr] at hlog
    exact hlog
  | error e s =>
    rw [hr] at hlog
    exact hlog

/-- **A COMMIT** is a run of the log: the block enters the fork database, then
    `log_irreversible` is called, and whatever throws, the node is left as such a
    run leaves it. -/
theorem commit_runs (hstage : c.pending.map Pending.stage = some (.completed bsp))
    (henter : Enters out c.node.ctl.forkDb bsp) (hc : Continues env c.node.ctl.forkDb bsp)
    (happend : ∀ b e, out.append b ≠ .refused e)
    (h : LogRuns (busy env) (Guard (busy env)) s₀ c.node) :
    LogRuns (busy env) (Guard (busy env)) s₀
      (final (commitBlock env out replaying true c)).node := by
  have hbusy : Continues (busy env) _ bsp := ⟨hc.mode, hc.root, hc.number, hc.parent⟩
  have hadopted := LogRuns.other h (henter.between hbusy)
  have hbody : LogRuns (busy env) (Guard (busy env)) s₀
      (final (commitBody env out replaying true c)).node := by
    unfold commitBody
    rw [get_bind, hstage]
    show LogRuns _ _ _
      (final ((adopt out bsp >>= fun _ => announce env out replaying true) c)).node
    rcases adopt_cases out bsp c with ⟨_, _, _, _, hnot⟩ | ⟨-, ⟨-, hok⟩ | ⟨-, e, herr⟩⟩
    · exact absurd henter hnot
    · rw [bind_ok hok]
      exact runs_announce happend hc.mode hadopted
    · rw [bind_error herr]
      exact hadopted
  unfold commitBlock
  cases hr : commitBody env out replaying true c with
  | ok u c1 =>
    rw [hr] at hbody
    rw [bind_ok (attempt_ok hr)]
    exact hbody
  | error f c1 =>
    rw [hr] at hbody
    cases hf : fcException f with
    | none =>
      rw [bind_error (attempt_missed hr hf)]
      exact hbody
    | some e =>
      rw [bind_ok (attempt_caught hr hf)]
      exact hbody.other (between_resetPending c1)

end Runs

/-! ## A commit that throws late -/

/-- Block 3 is completed on block 2, and makes it irreversible. -/
def completing : ChainState Unit (List BlockId) where
  node :=
    { ctl :=
        { forkDb := ForkRevert.plainFork [libBlock 2 1 2 1] [2] (libBlock 2 1 2 1)
          head := libBlock 2 1 2 1
          db := [3, 2]
          undo := [[2], []]
          blog := ⟨some (1, 1), 1⟩ }
      entries := [ForkRevert.plainBlock 1 0 1] }
  revision := 3
  pending := some ⟨.completed (libBlock 3 2 3 2), true⟩

theorem prepared_completing : Prepared completing ⟨.completed (libBlock 3 2 3 2), true⟩ := by
  refine ⟨rfl, rfl, fun _ h => (by cases h), ?_⟩
  intro bsp h
  cases h
  rfl

/-- The disk is full, or a handler of a signal throws. -/
def failing (append : Append) (header accepted : Option FcException) : Surroundings Unit where
  append _ := append
  irreversibleBlock _ := none
  acceptedBlockHeader := header
  reversibleCreate := none
  acceptedBlock := accepted

def diskFull : FcException := ⟨.blockLogAppendFail, "disk full"⟩

/-- What a commit of the completed block leaves. -/
def afterCommit (out : Surroundings Unit) : ChainState Unit (List BlockId) :=
  final (commitBlock (ForkRevert.recordingEnv []) out false true completing)

/-- The append to the log throws: block 3 stays the head, while the database is
    back at block 2. -/
theorem head_stays_after_abort :
    Prepared completing ⟨.completed (libBlock 3 2 3 2), true⟩ ∧
      (afterCommit (failing (.refused diskFull) none none)).head.id = 3 ∧
      (afterCommit (failing (.refused diskFull) none none)).revision = 2 ∧
      (afterCommit (failing (.refused diskFull) none none)).node.ctl.db = [2] ∧
      ¬ Undone completing (afterCommit (failing (.refused diskFull) none none)) := by
  have hhead : (afterCommit (failing (.refused diskFull) none none)).head.id = 3 := by
    decide +kernel
  refine ⟨prepared_completing, hhead, by decide +kernel, by decide +kernel, ?_⟩
  rintro ⟨heq, -⟩
  rw [heq] at hhead
  cases hhead

/-- A handler of `accepted_block_header` throws: the commit is undone. -/
theorem commit_atomic_iff_header :
    Undone completing (afterCommit (failing .written (some diskFull) none)) := by
  refine (commit_atomic_iff prepared_completing (of_throws (e := Fault.exc diskFull)
    (by decide +kernel))).mpr ?_
  rintro - ⟨_, -, henter, -⟩
  cases henter.silent

end CommitBlock
