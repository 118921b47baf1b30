import EosForce.ForkTreeProofs

/-! # Pushing blocks and switching forks

    The block-level part of `controller_impl`: popping and applying blocks,
    `maybe_switch_forks`, `log_irreversible` and `push_block`.  Applying a
    block is a parameter; what is kept of the state database is its current
    value and the stack of values that `undo` returns to.  The reversible
    block database, signals and the forked-branch callback are left out. -/

namespace ForkSwitch

open ChainTypes HeaderState Effect ForkDatabase

/-! ## The controller -/

/-- The head of the block log, by id and number. -/
structure BlockLog where
  head : Option (BlockId × Nat)
  firstBlockNum : Nat

structure Controller (τ σ : Type) where
  forkDb : ForkDb τ
  head : BlockState τ
  db : σ
  undo : List σ
  blog : BlockLog

/-- What block processing takes from the rest of the node.  `applyBlock` gets
    the light-validation flag, the block status, the head and the state to
    apply the block on. -/
structure ControllerEnv (τ σ : Type) where
  header : HeaderEnv
  readMode : ReadMode
  trustedProducers : List Name
  applyBlock : Bool → BlockStatus → BlockState τ → σ → BlockState τ →
    Except FcException σ
  transactionMroot : τ → Digest
  checkSignee : BlockHeaderState → SignedBlock τ → Except FcException Unit

variable {τ σ : Type}

abbrev ControlM (τ σ : Type) := EStateM Fault (Controller τ σ)

/-- A call into the fork database. -/
def onForkDb {α : Type} (x : ForkM τ α) : ControlM τ σ α := fun c =>
  match x c.forkDb with
  | .ok a f => .ok a { c with forkDb := f }
  | .error e f => .error e { c with forkDb := f }

def setHead (b : BlockState τ) : ControlM τ σ Unit := modify fun c => { c with head := b }

/-- `catch ( const fc::exception& )`. -/
def fcException : Fault → Option FcException
  | .exc e => some e
  | _ => none

/-- `throw` of an `fc::exception`. -/
def throwFc {α : Type} (e : FcException) : ControlM τ σ α := throw (.exc e)

def liftFc {α : Type} (x : Except FcException α) : ControlM τ σ α :=
  match x with
  | .ok a => pure a
  | .error e => throwFc e

variable (env : ControllerEnv τ σ)

/-- `apply_block`: a block that applies leaves an undo state behind, one that
    throws has its session undone. -/
def applyBlock (light : Bool) (s : BlockStatus) (b : BlockState τ) : ControlM τ σ Unit :=
  fun c =>
    match env.applyBlock light s c.head c.db b with
    | .ok db => .ok () { c with db := db, undo := c.db :: c.undo }
    | .error e => .error (.exc e) c

/-- `db.undo`. -/
def undoDb : ControlM τ σ Unit := fun c =>
  match c.undo with
  | [] => .error .noUndoState c
  | u :: us => .ok () { c with db := u, undo := us }

/-- The block that `pop_block` goes back to. -/
def poppedTo (f : ForkDb τ) (head : BlockState τ) : Option (BlockState τ) :=
  match getBlock f head.prev with
  | some p => some p
  | none => if f.root.id = head.prev then some f.root else none

/-- `pop_block`. -/
def popBlock : ControlM τ σ Unit := do
  let c ← get
  match poppedTo c.forkDb c.head with
  | none => throwFc ⟨.blockValidate, "attempt to pop beyond last irreversible block"⟩
  | some prev => do
      ensure (env.readMode = .speculative → c.head.block.isSome = true) .blockValidate
        "attempting to pop a block that was sparsely loaded from a snapshot"
      setHead prev
      undoDb

/-! ## `log_irreversible` -/

/-- `db.commit`: undo states of blocks up to `blockNum` go. -/
def commitDb (blockNum : Nat) : ControlM τ σ Unit :=
  modify fun c => { c with undo := c.undo.take (c.head.blockNum - blockNum) }

/-- The next number that the log takes. -/
def BlockLog.next (log : BlockLog) : Nat := (log.head.map (·.2 + 1)).getD log.firstBlockNum

/-- `blog.append`, which writes blocks without a gap. -/
def appendLog (b : BlockState τ) : ControlM τ σ Unit := do
  let c ← get
  ensure (b.blockNum = c.blog.next)
    .blockLogAppendFail "Append to index file occuring at wrong position."
  modify fun c => { c with blog := { c.blog with head := some (b.id, b.blockNum) } }

/-- In irreversible mode a block is applied only when it becomes
    irreversible. -/
def applyIrreversible (light : Bool) (b : BlockState τ) : ControlM τ σ Unit := do
  if env.readMode = .irreversible then do
    applyBlock env light .complete b
    setHead b
    onForkDb (markValid b)

/-- The loop over the branch; it returns the new root and what was thrown. -/
def logBlocks (light : Bool) :
    BlockId → List (BlockState τ) → ControlM τ σ (BlockId × Option FcException)
  | rootId, [] => pure (rootId, none)
  | rootId, b :: rest => do
      match ← attempt fcException (applyIrreversible env light b) with
      | .error e => pure (rootId, some e)
      | .ok _ => do
          commitDb b.blockNum
          match ← attempt fcException (appendLog b) with
          | .error e => pure (b.id, some e)
          | .ok _ => logBlocks light b.id rest

/-- `lib_num` and the check of the log against the root. -/
def checkLog (c : Controller τ σ) : ControlM τ σ Nat :=
  match c.blog.head with
  | some (id, num) => do
      ensure (c.forkDb.root.id = id) .forkDatabase
        "fork database root does not match block log head"
      pure num
  | none => do
      let libNum := subU32 c.blog.firstBlockNum 1
      ensure (c.forkDb.root.blockNum = libNum) .forkDatabase
        "empty block log expects the first appended block to build off a block that is not the fork database root"
      pure libNum

/-- `log_irreversible`. -/
def logIrreversible (light : Bool) : ControlM τ σ Unit := do
  let c ← get
  let libNum ← checkLog c
  let forkHead := if env.readMode = .irreversible then pendingHead c.forkDb else c.forkDb.head
  if forkHead.dposIrreversibleBlocknum ≤ libNum then pure ()
  else
    match fetchBranch c.forkDb forkHead.id forkHead.dposIrreversibleBlocknum with
    | none => throw .diverges
    | some branch => do
        let (rootId, thrown) ← logBlocks env light c.forkDb.root.id branch.reverse
        if rootId ≠ c.forkDb.root.id then onForkDb (advanceRoot rootId)
        match thrown with
        | some e => throwFc e
        | none => pure ()

/-! ## `maybe_switch_forks` -/

/-- The `try` block of either branch: the block is applied, marked and made
    the head. -/
def advanceTo (light : Bool) (s : BlockStatus) (b : BlockState τ) : ControlM τ σ Unit := do
  applyBlock env light s b
  onForkDb (markValid b)
  setHead b

/-- `branch.back()`. -/
def back (branch : List (BlockState τ)) : ControlM τ σ (BlockState τ) :=
  match branch.getLast? with
  | some b => pure b
  | none => throw .emptyBack

def popAll : List (BlockState τ) → ControlM τ σ Unit
  | [] => pure ()
  | _ :: rest => do
      popBlock env
      popAll rest

/-- Blocks of the old branch go back on, oldest first. -/
def reapply (light : Bool) : List (BlockState τ) → ControlM τ σ Unit
  | [] => pure ()
  | b :: rest => do
      applyBlock env light .validated b
      setHead b
      reapply light rest

/-- The handler: the failing block goes, the applied blocks are popped and the
    old branch comes back. -/
def revertSwitch (light : Bool) (failing : BlockState τ)
    (applied second : List (BlockState τ)) (e : FcException) : ControlM τ σ Unit := do
  onForkDb (remove failing.id)
  popAll env applied
  let last ← back second
  let c ← get
  ensure (c.head.id = last.prev) .forkDatabase
    "loss of sync between fork_db and chainbase during fork switch reversal"
  reapply env light second.reverse
  throwFc e

/-- The loop over the new branch, oldest first; `applied` is newest first. -/
def switchLoop (light : Bool) (second : List (BlockState τ)) :
    List (BlockState τ) → List (BlockState τ) → ControlM τ σ Unit
  | _, [] => pure ()
  | applied, b :: rest => do
      let c ← get
      let s : BlockStatus := if c.forkDb.validated b.id then .validated else .complete
      match ← attempt fcException (advanceTo env light s b) with
      | .ok _ => switchLoop light second (b :: applied) rest
      | .error e => revertSwitch env light b applied second e

/-- Going back to the fork point. -/
def popOldBranch (second : List (BlockState τ)) : ControlM τ σ Unit := do
  if 0 < second.length then do
    popAll env second
    let last ← back second
    let c ← get
    ensure (c.head.id = last.prev) .forkDatabase
      "loss of sync between fork_db and chainbase during fork switch"

/-- `maybe_switch_forks`. -/
def maybeSwitchForks (newHead : BlockState τ) (s : BlockStatus) (light : Bool) :
    ControlM τ σ Unit := do
  let c ← get
  if newHead.prev = c.head.id then do
    match ← attempt fcException (advanceTo env light s newHead) with
    | .ok _ => logIrreversible env light
    | .error e => do
        onForkDb (remove newHead.id)
        throwFc e
  else if newHead.id ≠ c.head.id then do
    let (first, second) ← liftFault (fetchBranchFrom c.forkDb newHead.id c.head.id)
    popOldBranch env second
    switchLoop env light second [] first.reverse
    logIrreversible env light
  else pure ()

/-! ## `push_block` -/

/-- `create_block_state_future`. -/
def createBlockState (b : SignedBlock τ) : ControlM τ σ (BlockState τ) := do
  let c ← get
  ensure ((getBlock c.forkDb (env.header.id b.header)).isNone = true) .forkDatabase
    "we already know about this block: $\x7bid\x7d"
  match getBlockHeader c.forkDb b.header.previous with
  | none => throwFc ⟨.unlinkableBlock, "unlinkable block $\x7bid\x7d"⟩
  | some prev => do
      ensure (b.header.transactionMroot = env.transactionMroot b.transactions)
        .blockValidate "invalid block transaction merkle root $\x7bb\x7d != $\x7bc\x7d"
      let bhs ← liftFc (nextHeader env.header prev.toBlockHeaderState b.header)
      liftFc (env.checkSignee bhs b)
      pure { bhs with block := some b }

/-- `push_block`, on a block whose state is built right before. -/
def pushBlock (b : SignedBlock τ) : ControlM τ σ Unit := do
  let bsp ← createBlockState env b
  onForkDb (add bsp false)
  let light := env.trustedProducers.contains b.header.producer
  let c ← get
  if env.readMode ≠ .irreversible then
    maybeSwitchForks env (pendingHead c.forkDb) .complete light
  else logIrreversible env light

end ForkSwitch
