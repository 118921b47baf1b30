import Mathlib.Data.List.MinMax
import Mathlib.Data.Prod.Lex
import EosForce.EffectProofs
import EosForce.HeaderStateProofs
import EosForce.WorklistProofs

/-! # `fork_database`

    The fork database holds the block states that descend from its root.  Of
    the multi-index container the model keeps the set of elements, in order of
    insertion; of the ordered index `by_lib_block_num` the code only ever reads
    a first element, the least one by `byLibKey`.  The
    `validated` flags belong to the shared block state objects, so they are
    kept by block id. -/

namespace ForkDatabase

open ChainTypes HeaderState

/-! ## Data -/

/-- `signed_block`: the header and the transactions. -/
structure SignedBlock (τ : Type) where
  header : BlockHeader
  transactions : τ

/-- `block_state`, less the cached transaction metadata. -/
structure BlockState (τ : Type) extends BlockHeaderState where
  block : Option (SignedBlock τ) := none

variable {τ : Type}

/-- `block_header_state::prev`. -/
def BlockState.prev (b : BlockState τ) : BlockId := b.header.previous

structure ForkDb (τ : Type) where
  index : List (BlockState τ)
  validated : BlockId → Bool
  root : BlockState τ
  head : BlockState τ

/-- How a call ends that does not return: a thrown exception, a read of the
    last element of an empty vector, an undo without an undo state, or a loop
    that does not come to an end. -/
inductive Fault where
  | exc (e : FcException)
  | emptyBack
  | noUndoState
  | diverges
deriving DecidableEq, Repr

/-- `EOS_ASSERT` in stateful code. -/
def ensure {σ : Type} (c : Prop) [Decidable c] (t : ExceptionType) (what : String) :
    EStateM Fault σ Unit :=
  if c then pure () else throw (.exc ⟨t, what⟩)

theorem ensure_pos {σ : Type} {c : Prop} [Decidable c] (h : c) (t : ExceptionType)
    (what : String) (s : σ) : ensure c t what s = .ok () s := by
  rw [ensure, if_pos h]
  rfl

theorem ensure_neg {σ : Type} {c : Prop} [Decidable c] (h : ¬ c) (t : ExceptionType)
    (what : String) (s : σ) : ensure c t what s = .error (.exc ⟨t, what⟩) s := by
  rw [ensure, if_neg h]
  rfl

/-! ## Lookups and order -/

variable (f : ForkDb τ) (id : BlockId)

/-- `get_block`. -/
def getBlock : Option (BlockState τ) :=
  f.index.find? fun b => b.id = id

/-- `get_block_header`; also the `(id == root->id) ? root : get_block(id)` of
    `fetch_branch_from`. -/
def getBlockHeader : Option (BlockState τ) :=
  if f.root.id = id then some f.root else getBlock f id

/-- `first_preferred`, which compares ties. -/
def firstPreferred (lhs rhs : BlockState τ) : Bool :=
  toLex (rhs.dposIrreversibleBlocknum, rhs.blockNum) <
    toLex (lhs.dposIrreversibleBlocknum, lhs.blockNum)

/-- The composite key of `by_lib_block_num`: three parts descend, the id
    ascends. -/
abbrev ByLibKey := Boolᵒᵈ ×ₗ ℕᵒᵈ ×ₗ ℕᵒᵈ ×ₗ ℕ

def byLibKey (valid : BlockId → Bool) (b : BlockState τ) : ByLibKey :=
  toLex (OrderDual.toDual (valid b.id),
    toLex (OrderDual.toDual b.dposIrreversibleBlocknum,
      toLex (OrderDual.toDual b.blockNum, b.id)))

/-- `index.get<by_lib_block_num>().begin()`. -/
def byLibFirst : Option (BlockState τ) :=
  f.index.argmin (byLibKey f.validated)

/-- `pending_head`; `lower_bound( false )` is the first unvalidated element. -/
def pendingHead : BlockState τ :=
  match (f.index.filter fun b => !f.validated b.id).argmin (byLibKey f.validated) with
  | some b => if firstPreferred b f.head then b else f.head
  | none => f.head

/-! ## Changes -/

abbrev ForkM (τ : Type) := EStateM Fault (ForkDb τ)

def setValidated (v : Bool) : ForkDb τ :=
  { f with validated := fun i => if i = id then v else f.validated i }

variable (n : BlockState τ)

/-- The database with a new block state.  A state that was validated before it
    was removed still carries the flag. -/
def extended (v : Bool) : ForkDb τ :=
  setValidated { f with index := f.index ++ [n] } n.id v

/-- The first element becomes the head if it is validated. -/
def reheaded : ForkDb τ :=
  match byLibFirst f with
  | some candidate => if f.validated candidate.id then { f with head := candidate } else f
  | none => f

/-- The database after the insertion of a block state with the flag `v`. -/
def insertedAs (v : Bool) : ForkDb τ := reheaded (extended f n v)

/-- `fork_database::add` of a block state with the flag `v`. -/
def addState (v ignoreDuplicate : Bool) : ForkM τ Unit := do
  let f ← get
  match getBlockHeader f n.prev with
  | none => throw (.exc ⟨.unlinkableBlock, "unlinkable block"⟩)
  | some _ =>
    match getBlock f n.id with
    | some _ =>
      if ignoreDuplicate then pure ()
      else throw (.exc ⟨.forkDatabase, "duplicate block added"⟩)
    | none => set (insertedAs f n v)

/-- `fork_database::add` of a new block state. -/
def add (ignoreDuplicate : Bool) : ForkM τ Unit := addState n false ignoreDuplicate

/-- The database after a block of it was marked: the first element becomes the
    head if it is preferred. -/
def marked : ForkDb τ :=
  let g := setValidated f id true
  match byLibFirst g with
  | some candidate => if firstPreferred candidate g.head then { g with head := candidate } else g
  | none => g

/-- `mark_valid`. -/
def markValid (h : BlockState τ) : ForkM τ Unit := do
  let f ← get
  if f.validated h.id then pure ()
  else
    match getBlock f h.id with
    | none => throw (.exc ⟨.forkDatabase, "block state not in fork database; cannot mark as valid"⟩)
    | some _ => set (marked f h.id)

/-- The ids of the blocks that `by_prev` lists for `id`. -/
def children : List BlockId :=
  (f.index.filter fun b => b.prev = id).map (·.id)

/-- `remove`: the queue of the block and its descendants is built first, then
    erased. -/
def remove (id : BlockId) : ForkM τ Unit := do
  let f ← get
  match Worklist.collect (children f) f.head.id (f.index.length + 1) [] [id] with
  | .outOfFuel => throw .diverges
  | .stopped => throw (.exc ⟨.forkDatabase,
      "removing the block and its descendants would remove the current head block"⟩)
  | .collected queue => set { f with index := f.index.filter fun b => b.id ∉ queue }

/-- `reset`: the root is a block state of its own, with the header part only. -/
def reset (rootBhs : BlockHeaderState) : ForkM τ Unit := do
  let f ← get
  let root : BlockState τ := { rootBhs with block := none }
  set (setValidated ⟨[], f.validated, root, root⟩ root.id true)

/-- `rollback_head_to_root`. -/
def rollbackHeadToRoot : ForkM τ Unit :=
  modify fun f => { f with
    validated := fun i => f.validated i && !decide (i ∈ f.index.map (·.id))
    head := f.root }

/-! ## Branches -/

/-- The walk of `fetch_branch` from `id` towards the root. -/
def walk (f : ForkDb τ) : Nat → BlockId → Option (List (BlockState τ))
  | 0, _ => none
  | fuel + 1, id =>
    match getBlock f id with
    | none => some []
    | some b => (walk f fuel b.prev).map (b :: ·)

/-- A number of steps that no walk in a tree exceeds. -/
def walkBound : Nat :=
  ((getBlockHeader f id).map (·.blockNum)).getD 0 + 1

/-- `fetch_branch`. -/
def fetchBranch (h : BlockId) (trimAfterBlockNum : Nat) : Option (List (BlockState τ)) :=
  (walk f (walkBound f h) h).map (·.filter fun s => s.blockNum ≤ trimAfterBlockNum)

/-- One of the two loops of `fetch_branch_from` that level the branches. -/
def descendTo (f : ForkDb τ) (num : Nat) :
    Nat → BlockState τ → List (BlockState τ) →
      Except Fault (BlockState τ × List (BlockState τ))
  | fuel, b, branch =>
    if num < b.blockNum then
      match fuel with
      | 0 => .error .diverges
      | fuel + 1 =>
        match getBlockHeader f b.prev with
        | none => .error (.exc ⟨.forkDbBlockNotFound, "block $\x7bid\x7d does not exist"⟩)
        | some p => descendTo f num fuel p (branch ++ [b])
    else .ok (b, branch)

/-- Its last loop, down to a common parent. -/
def descendBoth (f : ForkDb τ) :
    Nat → BlockState τ → BlockState τ → List (BlockState τ) → List (BlockState τ) →
      Except Fault (List (BlockState τ) × List (BlockState τ))
  | fuel, x, y, first, second =>
    if x.prev = y.prev then .ok (first ++ [x], second ++ [y])
    else
      match fuel with
      | 0 => .error .diverges
      | fuel + 1 =>
        match getBlock f x.prev, getBlock f y.prev with
        | some x', some y' => descendBoth f fuel x' y' (first ++ [x]) (second ++ [y])
        | _, _ => .error (.exc ⟨.forkDbBlockNotFound, "block $\x7bid\x7d does not exist"⟩)

/-- `fetch_branch_from`. -/
def fetchBranchFrom (first second : BlockId) :
    Except Fault (List (BlockState τ) × List (BlockState τ)) :=
  match getBlockHeader f first, getBlockHeader f second with
  | some x, some y => do
      let (x', firstBranch) ← descendTo f y.blockNum x.blockNum x []
      let (y', secondBranch) ← descendTo f x'.blockNum y.blockNum y []
      if x'.id = y'.id then pure (firstBranch, secondBranch)
      else descendBoth f x'.blockNum x' y' firstBranch secondBranch
  | _, _ => .error (.exc ⟨.forkDbBlockNotFound, "block $\x7bid\x7d does not exist"⟩)

/-- The ids that `advance_root` walks over below the new root. -/
def idsBelow (f : ForkDb τ) : Nat → BlockState τ → Except Fault (List BlockId)
  | 0, _ => .error .diverges
  | fuel + 1, b =>
    match getBlock f b.prev with
    | none =>
      if b.prev = f.root.id then .ok [b.prev]
      else .error (.exc ⟨.forkDatabase,
        "invariant violation: orphaned branch was present in forked database"⟩)
    | some p => (idsBelow f fuel p).map (b.prev :: ·)

/-- Lift a pure computation into stateful code. -/
def liftFault {σ α : Type} (x : Except Fault α) : EStateM Fault σ α :=
  match x with
  | .ok a => pure a
  | .error e => throw e

/-- `advance_root`. -/
def advanceRoot : ForkM τ Unit := do
  let f ← get
  match getBlock f id with
  | none => throw (.exc ⟨.forkDatabase,
      "cannot advance root to a block that does not exist in the fork database"⟩)
  | some newRoot => do
      ensure (f.validated newRoot.id = true) .forkDatabase
        "cannot advance root to a block that has not yet been validated"
      let blocksToRemove ← liftFault (idsBelow f newRoot.blockNum newRoot)
      set { f with index := f.index.filter fun b => b.id ≠ id }
      blocksToRemove.forM remove
      modify fun f => { f with root := newRoot }

end ForkDatabase
