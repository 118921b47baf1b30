import EosForce.ForkSwitchProofs

/-! # A fork switch that fails

    When a block of the new branch does not apply, `maybe_switch_forks`
    removes it with its descendants, pops what it applied of the new branch
    and puts the old branch back.  The old branch is empty when the old head
    is an ancestor of the new one; unless it is the parent, the handler then
    reads `branches.second.back()` of an empty vector.  And `remove` refuses
    when the fork database's own head is in the subtree to be removed.  These
    two are the only ways in which the old chain is not restored
    (`maybeSwitchForks_restores_iff`). -/

namespace ForkRevert

open ChainTypes Effect ForkDatabase ForkTree ForkSwitch List

variable {τ σ : Type} {env : ControllerEnv τ σ} {f : ForkDb τ}

/-! ## What the parts do to the fork database -/

/-- `mark_valid` on a block of the index. -/
def mark (f : ForkDb τ) (b : BlockState τ) : ForkDb τ :=
  if f.validated b.id then f else marked f b.id

/-- Blocks marked one after the other, the last of the list first. -/
def markAll (f : ForkDb τ) (applied : List (BlockState τ)) : ForkDb τ :=
  applied.foldr (fun b f => mark f b) f

theorem marked_cases (f : ForkDb τ) (id : BlockId) :
    marked f id = setValidated f id true ∨
      ∃ c ∈ f.index, marked f id = { setValidated f id true with head := c } := by
  unfold marked
  dsimp only
  cases hc : byLibFirst (setValidated f id true) with
  | none => exact .inl rfl
  | some c =>
    by_cases hp : firstPreferred c (setValidated f id true).head = true
    · right
      refine ⟨c, argmin_mem hc, ?_⟩
      simp only [hp, if_true]
    · left
      simp only [hp, Bool.false_eq_true, if_false]

/-- Marking changes flags and perhaps the head. -/
theorem mark_cases (f : ForkDb τ) (b : BlockState τ) :
    (mark f b).index = f.index ∧ (mark f b).root = f.root ∧
      ((mark f b).head = f.head ∨ (mark f b).head ∈ f.index) ∧
      ∀ i, i ≠ b.id → (mark f b).validated i = f.validated i := by
  unfold mark
  split
  · exact ⟨rfl, rfl, .inl rfl, fun _ _ => rfl⟩
  · rcases marked_cases f b.id with h | ⟨c, hc, h⟩
    · rw [h]
      exact ⟨rfl, rfl, .inl rfl, fun i hi => if_neg hi⟩
    · rw [h]
      exact ⟨rfl, rfl, .inr hc, fun i hi => if_neg hi⟩

theorem markAll_cases (f : ForkDb τ) (l : List (BlockState τ)) :
    (markAll f l).index = f.index ∧ (markAll f l).root = f.root ∧
      ((markAll f l).head = f.head ∨ (markAll f l).head ∈ f.index) ∧
      ∀ i, (∀ b ∈ l, i ≠ b.id) → (markAll f l).validated i = f.validated i := by
  induction l with
  | nil => exact ⟨rfl, rfl, .inl rfl, fun _ _ => rfl⟩
  | cons b l ih =>
    obtain ⟨hi, hr, hh, hv⟩ := ih
    obtain ⟨hi', hr', hh', hv'⟩ := mark_cases (markAll f l) b
    refine ⟨hi'.trans hi, hr'.trans hr, ?_, ?_⟩
    · rcases hh' with hh' | hh'
      · show (mark (markAll f l) b).head = f.head ∨ (mark (markAll f l) b).head ∈ f.index
        rw [hh']
        exact hh
      · exact .inr (hi ▸ hh')
    · intro i hne
      show (mark (markAll f l) b).validated i = f.validated i
      rw [hv' i (hne b mem_cons_self)]
      exact hv i fun c hc => hne c (mem_cons_of_mem _ hc)

/-- What only depends on root and index. -/
theorem getBlockHeader_congr {g : ForkDb τ} (hi : g.index = f.index)
    (hr : g.root = f.root) : getBlockHeader g = getBlockHeader f := by
  funext id
  unfold getBlockHeader getBlock
  rw [hi, hr]

theorem under_congr {g : ForkDb τ} (hi : g.index = f.index) : Under g = Under f := by
  have hc : children g = children f := by
    funext id
    unfold children
    rw [hi]
  show Worklist.Reach (children g) = _
  rw [hc]

theorem tree_congr {g : ForkDb τ} (ht : Tree f) (hi : g.index = f.index)
    (hr : g.root = f.root) (hh : Holds g g.head) : Tree g := by
  have hcongr := getBlockHeader_congr hi hr
  refine ⟨?_, ?_, ?_, hh⟩
  · rw [hi]
    exact ht.ids
  · rw [hi, hr]
    exact ht.root
  · rw [hi, hcongr]
    exact ht.parent

theorem tree_markAll (ht : Tree f) (l : List (BlockState τ)) : Tree (markAll f l) := by
  obtain ⟨hi, hr, hh, -⟩ := markAll_cases f l
  refine tree_congr ht hi hr ?_
  unfold Holds
  rw [getBlockHeader_congr hi hr]
  rcases hh with hh | hh
  · rw [hh]
    exact ht.head
  · exact ht.holds_mem hh

/-- Outside the subtree lookups are unchanged. -/
theorem holds_prune (ht : Tree f) {id : BlockId} {p : BlockState τ} (hp : Holds f p)
    (hnot : ¬ Under f id p.id) : Holds (prune f id) p := by
  classical
  unfold Holds getBlockHeader
  rcases hp.cases with rfl | hmem
  · exact if_pos rfl
  · rw [show (prune f id).root = f.root from rfl,
      if_neg (fun h => ht.root p hmem h.symm)]
    exact find_of_mem (ht.ids.sublist (filter_sublist.map _)) (mem_prune.mpr ⟨hmem, hnot⟩)

/-- A pruned tree is a tree, if the head stays. -/
theorem tree_prune (ht : Tree f) {id : BlockId} (hhead : ¬ Under f id f.head.id) :
    Tree (prune f id) := by
  classical
  refine ⟨?_, ?_, ?_, holds_prune ht ht.head hhead⟩
  · exact ht.ids.sublist (filter_sublist.map _)
  · intro b hb
    exact ht.root b (mem_prune.mp hb).1
  · intro b hb
    obtain ⟨hmem, hnot⟩ := mem_prune.mp hb
    obtain ⟨p, hp, hnum⟩ := ht.parent b hmem
    obtain ⟨hid, -⟩ := getBlockHeader_some hp
    refine ⟨p, ?_, hnum⟩
    rw [← hid]
    refine holds_prune ht (holds_of_getBlockHeader hp) ?_
    intro hunder
    exact hnot (hunder.tail (mem_children.mpr ⟨b, hmem, hid.symm, rfl⟩))

/-! ## Applying and popping -/

/-- `l`, newest first, applies on `base` from the state `db₀`; it ends at
    `head` with `db` and has left the undo states `us`. -/
inductive Applies (env : ControllerEnv τ σ) (light : Bool)
    (status : BlockState τ → BlockStatus) (base : BlockState τ) (db₀ : σ) :
    List (BlockState τ) → BlockState τ → σ → List σ → Prop where
  | nil : Applies env light status base db₀ [] base db₀ []
  | cons {l : List (BlockState τ)} {h b : BlockState τ} {db db' : σ} {us : List σ} :
      Applies env light status base db₀ l h db us →
      env.applyBlock light (status b) h db b = .ok db' →
      Applies env light status base db₀ (b :: l) b db' (db :: us)

variable {c : Controller τ σ} {l : List (BlockState τ)} {h : BlockState τ} {us : List σ}
    {b : BlockState τ} {s : BlockStatus} {e : FcException} {db : σ}

section Parts

variable {light : Bool} {status : BlockState τ → BlockStatus} {base : BlockState τ}
  {db₀ : σ}

theorem onForkDb_ok {α : Type} {x : ForkM τ α} {a : α} {g : ForkDb τ} (h : x c.forkDb = .ok a g) :
    onForkDb x c = .ok a { c with forkDb := g } := by
  rw [onForkDb, h]

theorem onForkDb_error {α : Type} {x : ForkM τ α} {e : Fault} {g : ForkDb τ}
    (h : x c.forkDb = .error e g) : onForkDb x c = .error e { c with forkDb := g } := by
  rw [onForkDb, h]

theorem applyBlock_ok (h : env.applyBlock light s c.head c.db b = .ok db) :
    applyBlock env light s b c = .ok () { c with db := db, undo := c.db :: c.undo } := by
  rw [applyBlock, h]

theorem applyBlock_error (h : env.applyBlock light s c.head c.db b = .error e) :
    applyBlock env light s b c = .error (.exc e) c := by
  rw [applyBlock, h]

/-- The parent that `pop_block` finds is the one in the tree. -/
theorem poppedTo_eq (ht : Tree f) {b p : BlockState τ}
    (hp : getBlockHeader f b.prev = some p) : poppedTo f b = some p := by
  unfold poppedTo
  obtain ⟨hid, hcases⟩ := getBlockHeader_some hp
  rcases hcases with rfl | hmem
  · cases hget : getBlock f b.prev with
    | none => exact if_pos hid
    | some c =>
      obtain ⟨hc, hcid⟩ := getBlock_some hget
      exact absurd (hcid.trans hid.symm) (ht.root c hc)
  · rw [← hid, ht.getBlock_mem hmem]

/-- The blocks of the index come with their contents. -/
def Complete (f : ForkDb τ) : Prop := ∀ b ∈ f.index, b.block.isSome = true

theorem popBlock_eq (ht : Tree c.forkDb) (hcomp : Complete c.forkDb) {p : BlockState τ}
    (hb : c.head ∈ c.forkDb.index) (hp : getBlockHeader c.forkDb c.head.prev = some p) {u : σ}
    (hu : c.undo = u :: us) :
    popBlock env c = .ok () { c with head := p, db := u, undo := us } := by
  unfold popBlock
  simp only [get_bind, poppedTo_eq ht hp]
  rw [bind_ok (ensure_pos (fun _ => hcomp _ hb) _ _ c)]
  rw [bind_ok (show setHead p c = .ok () { c with head := p } from rfl)]
  show undoDb { c with head := p } = _
  rw [undoDb]
  simp only [hu]

theorem Applies.of_nil (happ : Applies env light status base db₀ [] h db us) :
    h = base ∧ db = db₀ := by
  cases happ
  exact ⟨rfl, rfl⟩

/-- A branch that applies ends at its newest block. -/
theorem Applies.end_id {index : List (BlockState τ)} {i : BlockId}
    (happ : Applies env light status base db₀ l h db us) (hpath : Lineage index base.id i l) :
    i = h.id := by
  cases happ with
  | nil => exact hpath.eq_of_nil
  | cons _ _ => exact hpath.tail.2.1

theorem Applies.end_holds {f : ForkDb τ} (ht : Tree f) {i : BlockId}
    (happ : Applies env light status base db₀ l h db us) (hpath : Lineage f.index base.id i l)
    (hbase : Holds f base) : Holds f h := by
  cases happ with
  | nil => exact hbase
  | cons _ _ => exact ht.holds_mem hpath.tail.1

/-- Popping what was applied goes back to where it started. -/
theorem popAll_eq (happ : Applies env light status base db₀ l h db us) :
    ∀ {c : Controller τ σ} {rest : List σ}, Tree c.forkDb → Complete c.forkDb →
      Lineage c.forkDb.index base.id h.id l → Holds c.forkDb base →
      c.head = h → c.db = db → c.undo = us ++ rest →
      popAll env l c = .ok () { c with head := base, db := db₀, undo := rest } := by
  induction happ with
  | nil =>
    intro c rest ht hcomp hpath hbase hhead hdb hundo
    cases c
    simp only [nil_append] at hundo
    subst hhead hdb hundo
    rfl
  | @cons l h b db db' us happ happly ih =>
    intro c rest ht hcomp hpath hbase hhead hdb hundo
    generalize hid : b.id = i at hpath
    cases hpath with
    | cons hmem hl =>
      obtain ⟨p, hp, -⟩ := ht.parent b hmem
      -- the parent of `b` is where the rest of the list ends
      have hph : p = h := (holds_of_getBlockHeader hp).eq_of_id
        (happ.end_holds ht hl hbase) ((getBlockHeader_some hp).1.trans (happ.end_id hl))
      subst hhead
      have hpop : popBlock env c = .ok () { c with head := p, db := db, undo := us ++ rest } :=
        popBlock_eq ht hcomp hmem hp hundo
      rw [popAll, bind_ok hpop]
      refine @ih { c with head := p, db := db, undo := us ++ rest } rest
        ht hcomp ?_ hbase hph rfl rfl
      rw [← hph, (getBlockHeader_some hp).1]
      exact hl

/-- Putting a branch back on ends where it ended. -/
theorem reapply_eq (happ : Applies env light (fun _ => .validated) base db₀ l h db us) :
    ∀ (more : List (BlockState τ)) (c : Controller τ σ), c.head = base → c.db = db₀ →
      reapply env light (l.reverse ++ more) c =
        reapply env light more { c with head := h, db := db, undo := us ++ c.undo } := by
  induction happ with
  | nil =>
    intro more c hhead hdb
    cases c
    subst hhead hdb
    rfl
  | @cons l h b db db' us happ happly ih =>
    intro more c hhead hdb
    rw [reverse_cons, append_assoc, ih _ c hhead hdb]
    rw [singleton_append, reapply, bind_ok (applyBlock_ok happly)]
    rfl

end Parts

/-! ## The loop over the new branch -/

/-- The status that the loop applies a block of the new branch with. -/
def loopStatus (f : ForkDb τ) (b : BlockState τ) : BlockStatus :=
  if f.validated b.id then .validated else .complete

theorem markValid_eq (ht : Tree f) (hb : b ∈ f.index) : markValid b f = .ok () (mark f b) := by
  unfold markValid mark
  rw [get_bind, ht.getBlock_mem hb]
  by_cases hv : f.validated b.id = true
  · rw [if_pos hv, if_pos hv]
    rfl
  · rw [if_neg hv, if_neg hv]
    rfl

section Loop

variable {light : Bool} {base : BlockState τ} {db₀ : σ}

/-- A block that applies becomes the head. -/
theorem advanceTo_ok (ht : Tree c.forkDb) (hb : b ∈ c.forkDb.index)
    (happ : env.applyBlock light s c.head c.db b = .ok db) :
    advanceTo env light s b c =
      .ok () { c with forkDb := mark c.forkDb b, head := b, db := db,
                      undo := c.db :: c.undo } := by
  have hmark : onForkDb (markValid b) { c with db := db, undo := c.db :: c.undo } =
      .ok () { c with forkDb := mark c.forkDb b, db := db, undo := c.db :: c.undo } :=
    onForkDb_ok (markValid_eq ht hb)
  rw [advanceTo, bind_ok (applyBlock_ok happ), bind_ok hmark]
  rfl

/-- One that throws changes nothing. -/
theorem advanceTo_error (happ : env.applyBlock light s c.head c.db b = .error e) :
    advanceTo env light s b c = .error (.exc e) c := by
  rw [advanceTo, bind_error (applyBlock_error happ)]

/-- Blocks that apply move the loop on. -/
theorem switchLoop_run {f : ForkDb τ} (ht : Tree f) (second : List (BlockState τ))
    (happ : Applies env light (loopStatus f) base db₀ l h db us) :
    ∀ (more : List (BlockState τ)) (c : Controller τ σ), c.forkDb = f → c.head = base →
      c.db = db₀ → (∃ i, Lineage f.index base.id i l) →
      switchLoop env light second [] (l.reverse ++ more) c =
        switchLoop env light second l more
          { c with forkDb := markAll f l, head := h, db := db, undo := us ++ c.undo } := by
  induction happ with
  | nil =>
    intro more c hf hhead hdb _
    cases c
    subst hf hhead hdb
    rfl
  | @cons l h b db db' us happ happly ih =>
    rintro more c hf hhead hdb ⟨i, hpath⟩
    obtain ⟨hb, hi, hl⟩ := hpath.tail
    rw [hi] at hpath
    rw [reverse_cons, append_assoc, ih _ c hf hhead hdb ⟨_, hl⟩]
    rw [singleton_append, switchLoop, get_bind]
    obtain ⟨hidx, -, -, hval⟩ := markAll_cases f l
    have hstatus : (if (markAll f l).validated b.id = true then BlockStatus.validated
        else .complete) = loopStatus f b := by
      rw [hval b.id (hpath.ids_ne ht.ranked), loopStatus]
    have hstep : advanceTo env light (loopStatus f b) b
        { c with forkDb := markAll f l, head := h, db := db, undo := us ++ c.undo } =
        .ok () { c with forkDb := markAll f (b :: l), head := b, db := db',
                        undo := db :: us ++ c.undo } :=
      advanceTo_ok (tree_markAll ht l) (hidx.symm ▸ hb) happly
    dsimp only
    rw [hstatus, bind_ok (attempt_ok hstep)]

end Loop

/-! ## The switch -/

/-- The status that `maybe_switch_forks` applies a block of the new branch
    with. -/
def switchStatus (c : Controller τ σ) (newHead : BlockState τ) (s : BlockStatus)
    (b : BlockState τ) : BlockStatus :=
  if newHead.prev = c.head.id then s else loopStatus c.forkDb b

/-- A switch from the head of `c` to `newHead` in which the block `failing` of
    the new branch throws: the blocks before it apply, and the old branch can
    be put back on to the very states the undo stack holds. -/
structure FailedSwitch (env : ControllerEnv τ σ) (light : Bool) (s : BlockStatus)
    (c : Controller τ σ) (newHead : BlockState τ) where
  base : BlockState τ
  db₀ : σ
  second : List (BlockState τ)
  oldUndo : List σ
  rest : List σ
  later : List (BlockState τ)
  failing : BlockState τ
  applied : List (BlockState τ)
  lastHead : BlockState τ
  lastDb : σ
  newUndo : List σ
  thrown : FcException
  branches : Branches c.forkDb newHead c.head base (later ++ failing :: applied) second
  oldApplies : Applies env light (fun _ => .validated) base db₀ second c.head c.db oldUndo
  undo : c.undo = oldUndo ++ rest
  newApplies : Applies env light (switchStatus c newHead s) base db₀ applied
    lastHead lastDb newUndo
  fails : env.applyBlock light (switchStatus c newHead s failing) lastHead lastDb failing =
    .error thrown

/-- The old chain is back, and of the fork database exactly the subtree of
    `failing` is gone. -/
def Restored (c : Controller τ σ) (failing : BlockState τ) (e : FcException)
    (out : EStateM.Result Fault (Controller τ σ) Unit) : Prop :=
  ∃ c', out = .error (.exc e) c' ∧ c'.head = c.head ∧ c'.db = c.db ∧ c'.undo = c.undo ∧
    ∀ x, x ∈ c'.forkDb.index ↔ x ∈ c.forkDb.index ∧ ¬ Under c.forkDb failing.id x.id

section OldBranch

variable {light : Bool} {c : Controller τ σ} {newHead base : BlockState τ} {db₀ : σ}
  {first second : List (BlockState τ)} {oldUndo rest : List σ}
  (ht : Tree c.forkDb) (hcomp : Complete c.forkDb)
  (hb : Branches c.forkDb newHead c.head base first second)
  (happ : Applies env light (fun _ => .validated) base db₀ second c.head c.db oldUndo)
  (hundo : c.undo = oldUndo ++ rest)
include ht hcomp hb happ hundo

/-- The old branch is popped down to the fork point. -/
theorem popOldBranch_eq :
    popOldBranch env second c = .ok () { c with head := base, db := db₀, undo := rest } := by
  have hpops := popAll_eq happ ht hcomp hb.pathSecond hb.holds rfl rfl hundo
  unfold popOldBranch
  cases hlast : second.getLast? with
  | none =>
    have hnil := List.getLast?_eq_none_iff.mp hlast
    rw [hnil] at hpops ⊢
    exact hpops
  | some last =>
    have hpos : 0 < second.length := by
      refine length_pos_iff.mpr ?_
      intro hnil
      rw [hnil] at hlast
      exact nomatch hlast
    rw [if_pos hpos, bind_ok hpops]
    have hback : back second { c with head := base, db := db₀, undo := rest } =
        .ok last { c with head := base, db := db₀, undo := rest } := by
      rw [back, hlast]
      rfl
    rw [bind_ok hback, get_bind]
    exact ensure_pos (hb.pathSecond.getLast_prev hlast).symm _ _ _

/-- The function up to the loop over the new branch. -/
theorem maybeSwitchForks_branches (hhead : Holds c.forkDb c.head) (hnew : Holds c.forkDb newHead)
    (hne : newHead.id ≠ c.head.id) (hdirect : newHead.prev ≠ c.head.id) :
    maybeSwitchForks env newHead s light c =
      (do
        switchLoop env light second [] first.reverse
        logIrreversible env light : ControlM τ σ Unit)
        { c with head := base, db := db₀, undo := rest } := by
  obtain ⟨base', first', second', hfetch, hbranches⟩ := fetchBranchFrom_eq ht hnew hhead
  obtain ⟨-, hfirst, hsecond⟩ := hb.unique ht hbranches
  rw [← hfirst, ← hsecond] at hfetch
  have hlift : (liftFault (fetchBranchFrom c.forkDb newHead.id c.head.id) :
      ControlM τ σ _) c = .ok (first, second) c := by
    rw [hfetch]
    rfl
  unfold maybeSwitchForks
  rw [get_bind, if_neg hdirect, if_pos hne, bind_ok hlift]
  show (popOldBranch env second >>= fun _ => _) c = _
  rw [bind_ok (popOldBranch_eq ht hcomp hb happ hundo)]

end OldBranch

section Switch

variable {light : Bool} {s : BlockStatus} {c : Controller τ σ} {newHead : BlockState τ}

section

variable (w : FailedSwitch env light s c newHead)
include w

/-- The failing block is in the index, on a path to the fork point. -/
theorem FailedSwitch.path :
    Lineage c.forkDb.index w.base.id w.failing.id (w.failing :: w.applied) :=
  w.branches.pathFirst.suffix

omit w in
/-- A subtree that holds the fork database's head is not removed. -/
theorem revertSwitch_stopped {applied second : List (BlockState τ)} {failing : BlockState τ}
    (hr : Ranked c.forkDb.index) (hhead : Under c.forkDb failing.id c.forkDb.head.id) :
    revertSwitch env light failing applied second e c =
      .error (.exc ⟨.forkDatabase,
        "removing the block and its descendants would remove the current head block"⟩) c := by
  rw [revertSwitch, bind_error (onForkDb_error (remove_stopped hr hhead))]

/-- The controller when the failing block throws. -/
def FailedSwitch.atFailure (w : FailedSwitch env light s c newHead) : Controller τ σ :=
  { c with forkDb := markAll c.forkDb w.applied, head := w.lastHead, db := w.lastDb,
           undo := w.newUndo ++ w.rest }

theorem FailedSwitch.under_eq : Under w.atFailure.forkDb = Under c.forkDb :=
  under_congr (markAll_cases c.forkDb w.applied).1

/-- The loop runs up to the failing block and into the handler. -/
theorem FailedSwitch.switchLoop_eq (ht : Tree c.forkDb) (hdirect : newHead.prev ≠ c.head.id) :
    switchLoop env light w.second [] (w.later ++ w.failing :: w.applied).reverse
        { c with head := w.base, db := w.db₀, undo := w.rest } =
      revertSwitch env light w.failing w.applied w.second w.thrown w.atFailure := by
  have hstatus : switchStatus c newHead s = loopStatus c.forkDb := by
    funext b
    exact if_neg hdirect
  have happ := w.newApplies
  have hfails := w.fails
  rw [hstatus] at happ hfails
  obtain ⟨hb, -, hl⟩ := w.path.tail
  have hrun := switchLoop_run ht w.second happ (w.failing :: w.later.reverse)
    { c with head := w.base, db := w.db₀, undo := w.rest } rfl rfl rfl ⟨_, hl⟩
  have hrev : (w.later ++ w.failing :: w.applied).reverse =
      w.applied.reverse ++ w.failing :: w.later.reverse := by simp
  rw [hrev, hrun, switchLoop, get_bind]
  obtain ⟨-, -, -, hval⟩ := markAll_cases c.forkDb w.applied
  have hst : (if (markAll c.forkDb w.applied).validated w.failing.id = true
      then BlockStatus.validated else .complete) = loopStatus c.forkDb w.failing := by
    rw [hval _ (w.path.ids_ne ht.ranked), loopStatus]
  have hstep : advanceTo env light (loopStatus c.forkDb w.failing) w.failing w.atFailure =
      .error (.exc w.thrown) w.atFailure := advanceTo_error hfails
  dsimp only
  rw [hst]
  exact bind_ok (attempt_caught hstep (show fcException (.exc w.thrown) = some w.thrown from rfl))

/-- The controller at the fork point, without the failing block. -/
noncomputable def FailedSwitch.unwound (w : FailedSwitch env light s c newHead) :
    Controller τ σ :=
  { c with forkDb := prune w.atFailure.forkDb w.failing.id, head := w.base,
           db := w.db₀, undo := w.rest }

section Handler

variable (ht : Tree c.forkDb) (hcomp : Complete c.forkDb)
  (hhead : ¬ Under c.forkDb w.failing.id w.atFailure.forkDb.head.id)
include ht hcomp hhead

/-- The handler removes the block and pops the new branch. -/
theorem FailedSwitch.revertSwitch_eq :
    revertSwitch env light w.failing w.applied w.second w.thrown w.atFailure =
      (do
        let last ← back w.second
        let c ← get
        ensure (c.head.id = last.prev) .forkDatabase
          "loss of sync between fork_db and chainbase during fork switch reversal"
        reapply env light w.second.reverse
        throwFc w.thrown : ControlM τ σ Unit) w.unwound := by
  have htm : Tree w.atFailure.forkDb := tree_markAll ht w.applied
  obtain ⟨hidx, hroot, -, -⟩ := markAll_cases c.forkDb w.applied
  rw [← w.under_eq] at hhead
  have hremove := onForkDb_ok (c := w.atFailure) (remove_eq htm.ranked hhead)
  rw [revertSwitch, bind_ok hremove]
  -- the blocks that were applied, and the fork point, are not in the subtree
  obtain ⟨hbase, happlied⟩ := w.path.not_under ht.ranked
  obtain ⟨hb, -, hl⟩ := w.path.tail
  have hholds : Holds (prune w.atFailure.forkDb w.failing.id) w.base := by
    refine holds_prune htm ?_ ?_
    · unfold Holds
      rw [show getBlockHeader w.atFailure.forkDb = getBlockHeader c.forkDb from
        getBlockHeader_congr hidx hroot]
      exact w.branches.holds
    · rw [w.under_eq]
      exact hbase
  have hpath : Lineage (prune w.atFailure.forkDb w.failing.id).index w.base.id
      w.failing.prev w.applied := by
    refine hl.mono ?_
    intro x hx
    refine mem_prune.mpr ⟨?_, ?_⟩
    · exact hidx.symm ▸ hl.mem x hx
    · rw [w.under_eq]
      exact happlied x hx
  have hend := w.newApplies.end_id hl
  rw [hend] at hpath
  have hcomp' : Complete (prune w.atFailure.forkDb w.failing.id) := by
    intro b hb
    exact hcomp b (hidx ▸ (mem_prune.mp hb).1)
  exact bind_ok (popAll_eq w.newApplies
    (c := { w.atFailure with forkDb := prune w.atFailure.forkDb w.failing.id })
    (tree_prune htm hhead) hcomp' hpath hholds rfl rfl rfl)

/-- With an old branch to go back to, the handler restores it. -/
theorem FailedSwitch.revert_ok (hsecond : w.second ≠ []) :
    revertSwitch env light w.failing w.applied w.second w.thrown w.atFailure =
      .error (.exc w.thrown)
        { c with forkDb := prune w.atFailure.forkDb w.failing.id } := by
  rw [w.revertSwitch_eq ht hcomp hhead]
  obtain ⟨last, hlast⟩ : ∃ last, w.second.getLast? = some last :=
    ⟨_, List.getLast?_eq_some_getLast hsecond⟩
  have hback : back w.second w.unwound = .ok last w.unwound := by
    rw [back, hlast]
    rfl
  have hensure : w.unwound.head.id = last.prev :=
    (w.branches.pathSecond.getLast_prev hlast).symm
  have hreapply := reapply_eq w.oldApplies [] w.unwound rfl rfl
  rw [append_nil] at hreapply
  rw [bind_ok hback, get_bind, bind_ok (ensure_pos hensure _ _ _), bind_ok hreapply]
  show EStateM.Result.error _ _ = _
  congr 1
  show Controller.mk _ _ _ (w.oldUndo ++ w.rest) _ = _
  rw [← w.undo]
  rfl

/-- Without one it reads the last element of an empty branch. -/
theorem FailedSwitch.revert_empty (hsecond : w.second = []) :
    revertSwitch env light w.failing w.applied w.second w.thrown w.atFailure =
      .error .emptyBack w.unwound := by
  rw [w.revertSwitch_eq ht hcomp hhead, hsecond]
  rfl

end Handler

/-- The whole function, up to the handler. -/
theorem FailedSwitch.maybeSwitchForks_eq (ht : Tree c.forkDb) (hcomp : Complete c.forkDb)
    (hhead : Holds c.forkDb c.head) (hnew : Holds c.forkDb newHead) (hne : newHead.id ≠ c.head.id)
    (hdirect : newHead.prev ≠ c.head.id) {e : Fault} {c' : Controller τ σ}
    (hrevert : revertSwitch env light w.failing w.applied w.second w.thrown w.atFailure =
      .error e c') : maybeSwitchForks env newHead s light c = .error e c' := by
  rw [maybeSwitchForks_branches ht hcomp w.branches w.oldApplies w.undo hhead hnew hne hdirect]
  refine bind_error ?_
  rw [w.switchLoop_eq ht hdirect]
  exact hrevert

omit w in
/-- A new head on top of the old one is a branch by itself. -/
theorem branches_direct (hhead : Holds c.forkDb c.head)
    (hmem : newHead ∈ c.forkDb.index) (hdirect : newHead.prev = c.head.id) :
    Branches c.forkDb newHead c.head c.head [newHead] [] := by
  refine ⟨hhead, Lineage.cons hmem ?_, Lineage.refl, fun _ _ _ hb => (nomatch hb)⟩
  rw [hdirect]
  exact Lineage.refl

theorem FailedSwitch.direct (ht : Tree c.forkDb) (hhead : Holds c.forkDb c.head)
    (hnew : Holds c.forkDb newHead) (hdirect : newHead.prev = c.head.id) :
    w.failing = newHead ∧ w.applied = [] ∧
      env.applyBlock light s c.head c.db newHead = .error w.thrown := by
  have hmem : newHead ∈ c.forkDb.index := by
    -- the new branch is not empty, so `newHead` is not the root
    have hfirst := w.branches.pathFirst
    cases hl : w.later ++ w.failing :: w.applied with
    | nil => exact absurd hl (by simp)
    | cons x l =>
      rw [hl] at hfirst
      obtain ⟨hx, hid, -⟩ := hfirst.tail
      rw [hnew.eq_of_id (ht.holds_mem hx) hid]
      exact hx
  obtain ⟨-, hl, hsecond⟩ := w.branches.unique ht (branches_direct hhead hmem hdirect)
  cases hlater : w.later with
  | nil =>
    rw [hlater, nil_append] at hl
    obtain ⟨hfailing, happlied⟩ := List.cons.inj hl
    have hold := w.oldApplies
    have hnewApplies := w.newApplies
    have hfails := w.fails
    rw [hsecond] at hold
    rw [happlied] at hnewApplies
    obtain ⟨hb0, hdb0⟩ := hold.of_nil
    obtain ⟨hb1, hdb1⟩ := hnewApplies.of_nil
    rw [switchStatus, if_pos hdirect, hb1, hdb1, ← hb0, ← hdb0, hfailing] at hfails
    exact ⟨hfailing, happlied, hfails⟩
  | cons x l =>
    rw [hlater] at hl
    exact absurd (List.cons.inj hl).2 (by simp)

end

/-- A new head on top of the old one that does not apply is only removed. -/
theorem maybeSwitchForks_direct (hdirect : newHead.prev = c.head.id)
    (hfails : env.applyBlock light s c.head c.db newHead = .error e) :
    maybeSwitchForks env newHead s light c =
      (do onForkDb (remove newHead.id); throwFc e : ControlM τ σ Unit) c := by
  unfold maybeSwitchForks
  rw [get_bind, if_pos hdirect]
  exact bind_ok (attempt_caught (advanceTo_error hfails)
    (show fcException (.exc e) = some e from rfl))

/-- Nothing is restored while the failing block is still there. -/
theorem not_restored_of_mem {failing : BlockState τ} {fault : Fault} {c' : Controller τ σ}
    (hmem : failing ∈ c'.forkDb.index) : ¬ Restored c failing e (.error fault c') := by
  rintro ⟨c'', heq, -, -, -, hgone⟩
  injection heq with _ hc
  rw [← hc] at hgone
  exact ((hgone _).mp hmem).2 Relation.ReflTransGen.refl

/-- **WHEN A FAILED SWITCH RESTORES THE OLD CHAIN**: exactly when the old head
    is the parent of the new one or no ancestor of it, and the fork database's
    head, after the blocks before the failing one were marked, is not in the
    failing block's subtree. -/
theorem maybeSwitchForks_restores_iff (w : FailedSwitch env light s c newHead)
    (ht : Tree c.forkDb) (hcomp : Complete c.forkDb) (hhead : Holds c.forkDb c.head)
    (hnew : Holds c.forkDb newHead) (hne : newHead.id ≠ c.head.id) :
    Restored c w.failing w.thrown (maybeSwitchForks env newHead s light c) ↔
      (newHead.prev = c.head.id ∨ ¬ Under c.forkDb c.head.id newHead.id) ∧
      ¬ Under c.forkDb w.failing.id (markAll c.forkDb w.applied).head.id := by
  have hfailing : w.failing ∈ c.forkDb.index := w.path.tail.1
  have hidx : w.atFailure.forkDb.index = c.forkDb.index :=
    (markAll_cases c.forkDb w.applied).1
  by_cases hdirect : newHead.prev = c.head.id
  · obtain ⟨hf, happ, hfails⟩ := w.direct ht hhead hnew hdirect
    rw [happ, maybeSwitchForks_direct hdirect hfails]
    rw [hf] at hfailing ⊢
    show _ ↔ _ ∧ ¬ Under c.forkDb newHead.id c.forkDb.head.id
    by_cases hstop : Under c.forkDb newHead.id c.forkDb.head.id
    · rw [bind_error (onForkDb_error (remove_stopped ht.ranked hstop))]
      exact iff_of_false (not_restored_of_mem hfailing) fun hcond => hcond.2 hstop
    · rw [bind_ok (onForkDb_ok (remove_eq ht.ranked hstop))]
      refine ⟨fun _ => ⟨.inl hdirect, hstop⟩, fun _ => ?_⟩
      exact ⟨_, rfl, rfl, rfl, rfl, fun x => mem_prune⟩
  · by_cases hstop : Under c.forkDb w.failing.id w.atFailure.forkDb.head.id
    · -- the removal is refused
      have hrank : Ranked w.atFailure.forkDb.index := hidx ▸ ht.ranked
      have hrevert : revertSwitch env light w.failing w.applied w.second w.thrown w.atFailure = _ :=
        revertSwitch_stopped hrank (w.under_eq.symm ▸ hstop)
      rw [w.maybeSwitchForks_eq ht hcomp hhead hnew hne hdirect hrevert]
      exact iff_of_false (not_restored_of_mem (hidx.symm ▸ hfailing)) fun hcond => hcond.2 hstop
    · by_cases hsecond : w.second = []
      · -- there is no old branch to go back to
        have hrevert := w.revert_empty ht hcomp hstop hsecond
        rw [w.maybeSwitchForks_eq ht hcomp hhead hnew hne hdirect hrevert]
        constructor
        · rintro ⟨c', heq, -⟩
          injection heq with h
          exact nomatch h
        · rintro ⟨hor, -⟩
          have hunder := (w.branches.second_nil_iff ht hhead).mp hsecond
          exact absurd hunder (hor.resolve_left hdirect)
      · have hrevert := w.revert_ok ht hcomp hstop hsecond
        rw [w.maybeSwitchForks_eq ht hcomp hhead hnew hne hdirect hrevert]
        constructor
        · intro _
          refine ⟨.inr ?_, hstop⟩
          intro hunder
          exact hsecond ((w.branches.second_nil_iff ht hhead).mpr hunder)
        · intro _
          refine ⟨_, rfl, rfl, rfl, rfl, ?_⟩
          intro x
          show x ∈ (prune w.atFailure.forkDb w.failing.id).index ↔ _
          rw [mem_prune, hidx, w.under_eq]

end Switch

/-! ## Two switches -/

/-- A block state with the fields that the fork database looks at. -/
def plainBlock (id previous : BlockId) (num : Nat) : BlockState Unit where
  id := id
  blockNum := num
  header := { previous := previous }
  block := some ⟨{ previous := previous }, ()⟩

/-- Applying a block records its id; the listed ones throw. -/
def recordingEnv (bad : List BlockId) : ControllerEnv Unit (List BlockId) where
  header := ⟨none, fun _ _ _ => .ok (), fun _ => 0, fun _ => 0, fun h => h.timestamp⟩
  readMode := .speculative
  trustedProducers := []
  applyBlock _ _ _ db b :=
    if b.id ∈ bad then .error ⟨.blockValidate, "bad block"⟩ else .ok (b.id :: db)
  transactionMroot _ := 0
  checkSignee _ _ := .ok ()

/-- A fork database on the root 1 in which only the root and the listed blocks
    are validated. -/
def plainFork (index : List (BlockState Unit)) (valid : List BlockId)
    (head : BlockState Unit) : ForkDb Unit where
  index := index
  validated i := decide (i ∈ 1 :: valid)
  root := plainBlock 1 0 1
  head := head

/-- The database that a node in irreversible mode leaves: two unvalidated
    blocks on the root, which is the head. -/
def waiting : Controller Unit (List BlockId) where
  forkDb := plainFork [plainBlock 2 1 2, plainBlock 3 2 3] [] (plainBlock 1 0 1)
  head := plainBlock 1 0 1
  db := []
  undo := []
  blog := ⟨none, 2⟩

theorem tree_waiting : Tree waiting.forkDb := by
  refine ⟨by decide, by decide, forall_mem_cons.mpr ⟨?_, forall_mem_singleton.mpr ?_⟩, rfl⟩
  · exact ⟨plainBlock 1 0 1, rfl, rfl⟩
  · exact ⟨plainBlock 2 1 2, rfl, rfl⟩

/-- The switch to block 3, which throws. -/
def waitingSwitch : FailedSwitch (recordingEnv [3]) false .complete waiting (plainBlock 3 2 3) where
  base := plainBlock 1 0 1
  db₀ := []
  second := []
  oldUndo := []
  rest := []
  later := []
  failing := plainBlock 3 2 3
  applied := [plainBlock 2 1 2]
  lastHead := plainBlock 2 1 2
  lastDb := [2]
  newUndo := [[]]
  thrown := ⟨.blockValidate, "bad block"⟩
  branches := by
    refine ⟨rfl, ?_, Lineage.refl, fun _ _ _ h => (nomatch h)⟩
    exact Lineage.cons (b := plainBlock 3 2 3) (by simp [waiting, plainFork])
      (Lineage.cons (b := plainBlock 2 1 2) (by simp [waiting, plainFork]) Lineage.refl)
  oldApplies := Applies.nil
  undo := rfl
  newApplies := Applies.cons Applies.nil rfl
  fails := rfl

/-- **COUNTEREXAMPLE**: the old head is the root, two blocks below the new
    head.  Block 3 throws, and the handler reads the last element of the empty
    old branch. -/
theorem switch_reads_empty_branch :
    ∃ c', Tree waiting.forkDb ∧ Complete waiting.forkDb ∧
      Holds waiting.forkDb waiting.head ∧ Holds waiting.forkDb (plainBlock 3 2 3) ∧
      waitingSwitch.failing.id = 3 ∧
      maybeSwitchForks (recordingEnv [3]) (plainBlock 3 2 3) .complete false waiting =
        .error .emptyBack c' := by
  refine ⟨_, tree_waiting, ?_, rfl, rfl, rfl, rfl⟩
  intro b hb
  rcases mem_cons.mp hb with rfl | hb
  · rfl
  · rw [mem_singleton.mp hb]
    rfl

/-- Two branches of which the shorter, block 2, is the head. -/
def forked : Controller Unit (List BlockId) where
  forkDb := plainFork [plainBlock 2 1 2, plainBlock 3 1 2, plainBlock 4 3 3] [2] (plainBlock 2 1 2)
  head := plainBlock 2 1 2
  db := [2]
  undo := [[]]
  blog := ⟨none, 2⟩

theorem forked_index {b : BlockState Unit} (hb : b ∈ forked.forkDb.index) :
    b = plainBlock 2 1 2 ∨ b = plainBlock 3 1 2 ∨ b = plainBlock 4 3 3 := by
  simpa [forked, plainFork] using hb

theorem tree_forked : Tree forked.forkDb := by
  refine ⟨by decide, by decide, ?_, rfl⟩
  intro b hb
  rcases forked_index hb with rfl | rfl | rfl
  · exact ⟨plainBlock 1 0 1, rfl, rfl⟩
  · exact ⟨plainBlock 1 0 1, rfl, rfl⟩
  · exact ⟨plainBlock 3 1 2, rfl, rfl⟩

/-- The switch to the longer branch, whose block 4 throws. -/
def forkedSwitch : FailedSwitch (recordingEnv [4]) false .complete forked (plainBlock 4 3 3) where
  base := plainBlock 1 0 1
  db₀ := []
  second := [plainBlock 2 1 2]
  oldUndo := [[]]
  rest := []
  later := []
  failing := plainBlock 4 3 3
  applied := [plainBlock 3 1 2]
  lastHead := plainBlock 3 1 2
  lastDb := [3]
  newUndo := [[]]
  thrown := ⟨.blockValidate, "bad block"⟩
  branches := by
    refine ⟨rfl, ?_, ?_, ?_⟩
    · exact Lineage.cons (b := plainBlock 4 3 3) (by simp [forked, plainFork])
        (Lineage.cons (b := plainBlock 3 1 2) (by simp [forked, plainFork]) Lineage.refl)
    · exact Lineage.cons (b := plainBlock 2 1 2) (by simp [forked, plainFork]) Lineage.refl
    · intro a b ha hb
      rw [← Option.some.inj ha, ← Option.some.inj hb]
      decide
  oldApplies := Applies.cons Applies.nil rfl
  undo := rfl
  newApplies := Applies.cons Applies.nil rfl
  fails := rfl

/-- Block 3 applies, block 4 throws, and block 2 is the head again. -/
theorem forked_restored :
    Restored forked (plainBlock 4 3 3) ⟨.blockValidate, "bad block"⟩
      (maybeSwitchForks (recordingEnv [4]) (plainBlock 4 3 3) .complete false forked) := by
  have hcomp : Complete forked.forkDb := by
    intro b hb
    rcases forked_index hb with rfl | rfl | rfl <;> rfl
  refine (maybeSwitchForks_restores_iff forkedSwitch tree_forked hcomp rfl rfl
    (by decide)).mpr ⟨.inr ?_, ?_⟩
  · intro hunder
    exact absurd ((forkedSwitch.branches.second_nil_iff tree_forked rfl).mpr hunder)
      (cons_ne_nil _ _)
  · exact tree_forked.not_under_of_num_lt (a := plainBlock 4 3 3) (y := plainBlock 2 1 2)
      rfl rfl (by decide)

end ForkRevert
