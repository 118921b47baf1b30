import Mathlib.Data.List.Chain
import EosForce.ForkOrderProofs
import EosForce.ForkRootProofs
import EosForce.StepRuleProofs

/-! # The block log

    `log_irreversible` with the failures of the world around it: the append to
    the block log can throw before or after the log has taken the block, a
    handler of the `irreversible_block` signal can throw, and in irreversible
    mode so can the application of a block.

    The new root is noted before the append.  When the append throws before
    the log has the block, the handler advances the root past the end of the
    log (`root_passes_log`).  In irreversible mode a LIB that falls along the
    branch leaves the fork database's head behind, and the root cannot follow
    the log (`root_stays_behind`).  Otherwise root and log end at the same
    block after every call, whether it returns or throws. -/

namespace BlockLogs

open ChainTypes Effect StepRule ForkDatabase ForkTree ForkSwitch
open ForkRevert ForkRoot ForkOrder List

/-! ## The log and its surroundings -/

/-- How `blog.append` ends on a block at the right position: it is written, or
    it throws before the log has its new head, or in the flush after that. -/
inductive Append where
  | written
  | refused (e : FcException)
  | unflushed (e : FcException)

/-- What can fail during one call. -/
structure Outside (τ : Type) where
  append : BlockState τ → Append
  irreversibleBlock : BlockState τ → Option FcException

/-- The controller and the blocks in its log. -/
structure Node (τ σ : Type) where
  ctl : Controller τ σ
  entries : List (BlockState τ)

variable {τ σ α : Type}

abbrev NodeM (τ σ : Type) := EStateM Fault (Node τ σ)

/-- Code that does not touch the log's blocks. -/
def onCtl (x : ControlM τ σ α) : NodeM τ σ α :=
  zoom (·.ctl) (fun c s => { s with ctl := c }) x

/-- `head = b`, with the block in the file. -/
def record (b : BlockState τ) : NodeM τ σ Unit :=
  modify fun s =>
    { ctl := { s.ctl with blog := { s.ctl.blog with head := some (b.id, b.blockNum) } }
      entries := s.entries ++ [b] }

/-- `block_log::append`. -/
def append (io : Outside τ) (b : BlockState τ) : NodeM τ σ Unit := do
  let s ← get
  ensure (b.blockNum = s.ctl.blog.next)
    .blockLogAppendFail "Append to index file occuring at wrong position."
  match io.append b with
  | .written => record b
  | .refused e => throw (.exc e)
  | .unflushed e => do
      record b
      throw (.exc e)

/-- `emit`, of a signal whose handlers end with `r`. -/
def emit (r : Option FcException) : NodeM τ σ Unit :=
  match r with
  | none => pure ()
  | some e => throw (.exc e)

variable (env : ControllerEnv τ σ) (io : Outside τ)

/-- What comes before the new root is noted. -/
def beforeNoted (light : Bool) (b : BlockState τ) : NodeM τ σ Unit := do
  onCtl (applyIrreversible env light b)
  emit (io.irreversibleBlock b)

/-- The loop over the branch; it returns the new root and what was thrown. -/
def logBlocks (light : Bool) :
    BlockId → List (BlockState τ) → NodeM τ σ (BlockId × Option FcException)
  | rootId, [] => pure (rootId, none)
  | rootId, b :: rest => do
      match ← attempt fcException (beforeNoted env io light b) with
      | .error e => pure (rootId, some e)
      | .ok _ => do
          onCtl (commitDb b.blockNum)
          match ← attempt fcException (append io b) with
          | .error e => pure (b.id, some e)
          | .ok _ => logBlocks light b.id rest

/-- The block whose LIB counts. -/
def forkHead (f : ForkDb τ) : BlockState τ :=
  if env.readMode = .irreversible then pendingHead f else f.head

/-- `log_irreversible`. -/
def logIrreversible (light : Bool) : NodeM τ σ Unit := do
  let s ← get
  let libNum ← onCtl (checkLog s.ctl)
  let head := forkHead env s.ctl.forkDb
  if head.dposIrreversibleBlocknum ≤ libNum then pure ()
  else
    match fetchBranch s.ctl.forkDb head.id head.dposIrreversibleBlocknum with
    | none => throw .diverges
    | some branch => do
        let r ← logBlocks env io light s.ctl.forkDb.root.id branch.reverse
        whenever (r.1 ≠ s.ctl.forkDb.root.id) (onCtl (onForkDb (advanceRoot r.1)))
        emit r.2

variable {env io} {light : Bool}

/-! ## Without failures -/

/-- All appends end in the same way, and no handler throws. -/
def allAppends (r : Append) : Outside τ := ⟨fun _ => r, fun _ => none⟩

theorem shows_onCtl {α : Type} (x : ControlM τ σ α) : Shows Node.ctl (onCtl x) x :=
  Shows.zoom (fun _ _ => rfl) x

theorem shows_append (b : BlockState τ) :
    Shows Node.ctl (append (allAppends .written) b : NodeM τ σ Unit) (appendLog b) := by
  intro s
  by_cases hnum : b.blockNum = s.ctl.blog.next
  · rw [append, appendLog, get_bind, get_bind, bind_ok (ensure_pos hnum _ _ _),
      bind_ok (ensure_pos hnum _ _ _)]
    rfl
  · rw [append, appendLog, get_bind, get_bind, bind_error (ensure_neg hnum _ _ _),
      bind_error (ensure_neg hnum _ _ _)]

theorem shows_logBlocks (branch : List (BlockState τ)) : ∀ rootId,
    Shows Node.ctl (logBlocks env (allAppends .written) light rootId branch)
      (ForkSwitch.logBlocks env light rootId branch) := by
  induction branch with
  | nil => exact fun _ => .pure _
  | cons b rest ih =>
    intro rootId
    have hbefore : beforeNoted env (allAppends .written) light b =
        onCtl (applyIrreversible env light b) := bind_pure _
    rw [logBlocks, hbefore]
    refine ((shows_onCtl _).attempt _).bind fun r => ?_
    cases r with
    | error e => exact .pure _
    | ok _ =>
      refine (shows_onCtl _).bind fun _ => ((shows_append b).attempt _).bind fun r => ?_
      cases r with
      | error e => exact .pure _
      | ok _ => exact ih b.id

/-- **WITHOUT FAILURES** around it, `log_irreversible` does to the controller
    what `maybe_switch_forks` and `push_block` are proved about. -/
theorem shows_logIrreversible : Shows Node.ctl (logIrreversible env (allAppends .written) light)
    (ForkSwitch.logIrreversible env light) := by
  refine Shows.get_bind fun s => (shows_onCtl _).bind fun libNum => ?_
  dsimp only
  rw [← forkHead]
  split
  · exact .pure _
  · cases fetchBranch _ _ _ with
    | none => exact .throw _
    | some branch =>
      refine (shows_logBlocks _ _).bind fun r => ?_
      obtain ⟨rootId, thrown⟩ := r
      dsimp only [whenever]
      cases thrown with
      | none =>
        split
        · exact (shows_onCtl _).bind fun _ => .pure _
        · exact .pure _
      | some e =>
        split
        · exact (shows_onCtl _).bind fun _ => .throw _
        · exact .throw _

/-! ## The branch that is logged -/

/-- `b` is the block after `a`. -/
def Follows (a b : BlockState τ) : Prop := b.prev = a.id ∧ b.blockNum = a.blockNum + 1

variable {l : List (BlockState τ)}

/-- A path from the root, oldest first, is linked. -/
theorem chain_of_lineage {f : ForkDb τ} (ht : Tree f) {i : BlockId}
    (h : Lineage f.index f.root.id i l) : (f.root :: l.reverse).IsChain Follows := by
  induction h with
  | refl => exact isChain_singleton _
  | @cons b l hb hl ih =>
    obtain ⟨p, hp, hnum⟩ := ht.parent b hb
    rw [reverse_cons, ← cons_append, isChain_append]
    refine ⟨ih, isChain_singleton _, ?_⟩
    intro x hx y hy
    obtain rfl : b = y := by simpa using hy
    -- the block below `b` on the path is its parent
    have hxp : x.id = b.prev ∧ Holds f x := by
      cases l with
      | nil =>
        obtain rfl : f.root = x := by simpa using hx
        exact ⟨hl.eq_of_nil.symm, holds_root⟩
      | cons d l =>
        obtain ⟨hd, hid, -⟩ := hl.tail
        obtain rfl : d = x := by simpa [List.getLast?_cons] using hx
        exact ⟨hid.symm, ht.holds_mem hd⟩
    have hpx := (holds_of_getBlockHeader hp).eq_of_id hxp.2
      ((getBlockHeader_some hp).1.trans hxp.1.symm)
    rw [hpx] at hnum
    exact ⟨hxp.1.symm, hnum⟩

/-- The blocks of a path up to a number, oldest first. -/
def upTo (n : Nat) (l : List (BlockState τ)) : List (BlockState τ) :=
  (l.filter fun b => b.blockNum ≤ n).reverse

variable {b : BlockState τ}

section Branch

variable {f : ForkDb τ} {h : BlockState τ} {l : List (BlockState τ)} {n : Nat}

/-- What is logged is a path itself. -/
theorem lineage_filter (ht : Tree f) (hh : Holds f h)
    (hl : Lineage f.index f.root.id h.id l) :
    ∃ i, Lineage f.index f.root.id i (l.filter fun b => b.blockNum ≤ n) := by
  rcases filter_path ht n hl hh with hnil | ⟨u, r, v, huv, hfilter⟩
  · rw [hnil]
    exact ⟨_, Lineage.refl⟩
  · rw [hfilter]
    rw [huv] at hl
    exact ⟨_, hl.suffix⟩

theorem chain_upTo (ht : Tree f) (hh : Holds f h)
    (hl : Lineage f.index f.root.id h.id l) : (f.root :: upTo n l).IsChain Follows := by
  obtain ⟨i, hi⟩ := lineage_filter ht hh hl (n := n)
  exact chain_of_lineage ht hi

theorem mem_upTo (hl : Lineage f.index f.root.id h.id l) (hb : b ∈ upTo n l) : b ∈ f.index :=
  hl.mem b (mem_of_mem_filter (mem_reverse.mp hb))

/-- Nothing is up to the number of the root. -/
theorem upTo_eq_nil (ht : Tree f) (hl : Lineage f.index f.root.id h.id l)
    (hn : n ≤ f.root.blockNum) : upTo n l = [] := by
  rw [upTo, reverse_eq_nil_iff, filter_eq_nil_iff]
  intro b hb
  have hbm := hl.mem b hb
  obtain ⟨p, hp, hnum⟩ := ht.parent b hbm
  have := ht.root_num_le (holds_of_getBlockHeader hp)
  rw [decide_eq_true_eq]
  omega

end Branch

/-! ## What the loop does -/

/-- The log ends at `r`. -/
structure EndsAt (log : BlockLog) (r : BlockState τ) : Prop where
  head : ∀ id num, log.head = some (id, num) → id = r.id ∧ num = r.blockNum
  empty : log.head = none → log.firstBlockNum = r.blockNum + 1 ∧ r.blockNum + 1 < 2 ^ 32

theorem EndsAt.next {log : BlockLog} {r : BlockState τ} (h : EndsAt log r) :
    log.next = r.blockNum + 1 := by
  unfold BlockLog.next
  cases hh : log.head with
  | some hd =>
    obtain ⟨id, num⟩ := hd
    rw [← (h.head id num hh).2]
    rfl
  | none => exact (h.empty hh).1

theorem endsAt_recorded (log : BlockLog) (b : BlockState τ) :
    EndsAt { log with head := some (b.id, b.blockNum) } b := by
  refine ⟨?_, fun h => by cases h⟩
  intro id num h
  cases h
  exact ⟨rfl, rfl⟩

variable (s : Node τ σ)

/-- The log's head is its last block. -/
def Recorded : Prop :=
  s.ctl.blog.head = s.entries.getLast?.map fun b => (b.id, b.blockNum)

/-- The node after the append of `b`. -/
def recorded (b : BlockState τ) : Node τ σ where
  ctl := { s.ctl with blog := { s.ctl.blog with head := some (b.id, b.blockNum) } }
  entries := s.entries ++ [b]

theorem recorded_recorded (b : BlockState τ) : Recorded (recorded s b) := by
  show some (b.id, b.blockNum) = (s.entries ++ [b]).getLast?.map _
  rw [List.getLast?_append]
  rfl

/-- **APPENDING**: the block is taken, or the append was refused. -/
theorem append_cases {s : Node τ σ} (hnum : b.blockNum = s.ctl.blog.next) :
    append io b s = .ok () (recorded s b) ∨
      (∃ e, append io b s = .error (.exc e) (recorded s b)) ∨
      ∃ e, io.append b = .refused e ∧ append io b s = .error (.exc e) s := by
  unfold append
  rw [get_bind, bind_ok (ensure_pos hnum _ _ _)]
  cases io.append b with
  | written => exact .inl rfl
  | refused e => exact .inr (.inr ⟨e, rfl, rfl⟩)
  | unflushed e => exact .inr (.inl ⟨e, rfl⟩)

theorem onCtl_ok {x : ControlM τ σ α} {s : Node τ σ} {a : α} {c : Controller τ σ}
    (h : x s.ctl = .ok a c) : onCtl x s = .ok a { s with ctl := c } := by
  rw [onCtl, zoom, h]

theorem onCtl_error {x : ControlM τ σ α} {s : Node τ σ} {e : Fault} {c : Controller τ σ}
    (h : x s.ctl = .error e c) : onCtl x s = .error e { s with ctl := c } := by
  rw [onCtl, zoom, h]

/-- An append that returns has the block in the log. -/
theorem append_ok {s s' : Node τ σ} {u : Unit} (h : append io b s = .ok u s') :
    s' = recorded s b := by
  by_cases hn : b.blockNum = s.ctl.blog.next
  · rcases @append_cases _ _ io b s hn with happ | ⟨e, happ⟩ | ⟨e, -, happ⟩
    · exact (EStateM.Result.ok.inj (h.symm.trans happ)).2
    · cases h.symm.trans happ
    · cases h.symm.trans happ
  · rw [append, get_bind, bind_error (ensure_neg hn _ _ _)] at h
    cases h

theorem emit_ok {r : Option FcException} {s s' : Node τ σ} {u : Unit}
    (h : emit r s = .ok u s') : s' = s := by
  cases r with
  | none =>
    cases h
    rfl
  | some e => cases h

/-- A loop that meets no exception has logged the whole branch. -/
theorem logBlocks_returned (branch : List (BlockState τ)) :
    ∀ {rootId i : BlockId} {s s' : Node τ σ},
      logBlocks env io light rootId branch s = .ok (i, none) s' →
      s'.entries = s.entries ++ branch := by
  induction branch with
  | nil =>
    intro rootId i s s' h
    cases h
    rw [append_nil]
  | cons b rest ih =>
    intro rootId i s s' h
    obtain ⟨r, s1, hbefore, h⟩ := bind_ok_inv h
    cases r with
    | error e => cases h
    | ok _ =>
      -- neither part before the append touches the log
      obtain ⟨_, s0, happly, hemit⟩ := bind_ok_inv (attempt_ok_inv hbefore)
      obtain ⟨c, -, rfl⟩ := zoom_ok_inv happly
      obtain rfl := emit_ok hemit
      obtain ⟨_, s2, hcommit, h⟩ := bind_ok_inv h
      obtain ⟨c2, -, rfl⟩ := zoom_ok_inv hcommit
      obtain ⟨r, s3, happend, h⟩ := bind_ok_inv h
      cases r with
      | error e => cases h
      | ok _ =>
        obtain rfl := append_ok (attempt_ok_inv happend)
        rw [ih h]
        exact append_assoc _ _ _

theorem caught {x : NodeM τ σ α} {s s' : Node τ σ} {e : FcException}
    (h : x s = .error (.exc e) s') : attempt fcException x s = .ok (.error e) s' :=
  attempt_caught h rfl

/-- Where the loop stands after `r`: the fork database satisfies `F r`, and
    the log ends at `r`. -/
structure At (F : BlockState τ → ForkDb τ → Prop) (r : BlockState τ) (s : Node τ σ) :
    Prop where
  fork : F r s.ctl.forkDb
  ends : EndsAt s.ctl.blog r
  recorded : Recorded s

/-- What applying the next block does to the controller: it throws and changes
    nothing, or leads on from `a` to `b`. -/
inductive Steps (env : ControllerEnv τ σ) (light : Bool) (F : BlockState τ → ForkDb τ → Prop)
    (b : BlockState τ) (c : Controller τ σ) : Prop where
  | throws {e : FcException} : applyIrreversible env light b c = .error (.exc e) c →
      Steps env light F b c
  | applies {c' : Controller τ σ} : applyIrreversible env light b c = .ok () c' →
      c'.blog = c.blog → F b c'.forkDb → (env.readMode ≠ .irreversible → c' = c) →
      Steps env light F b c

/-- **THE LOOP** ends with the log at the block that is to be the root. -/
theorem logBlocks_run {F : BlockState τ → ForkDb τ → Prop}
    {R : BlockState τ → BlockState τ → Prop} (hR : ∀ {a b}, R a b → Follows a b)
    (hF : ∀ {a b}, R a b → ∀ c : Controller τ σ, F a c.forkDb → Steps env light F b c)
    (hsig : env.readMode = .irreversible → ∀ b, io.irreversibleBlock b = none)
    (branch : List (BlockState τ)) :
    ∀ {r : BlockState τ} {s : Node τ σ}, (r :: branch).IsChain R →
      (∀ b ∈ branch, ∀ e, io.append b ≠ .refused e) → At F r s →
      ∃ r' thrown s', logBlocks env io light r.id branch s = .ok (r'.id, thrown) s' ∧
        (r' = r ∨ r' ∈ branch) ∧ At F r' s' := by
  induction branch with
  | nil => exact fun {r s} _ _ hat => ⟨r, none, s, rfl, .inl rfl, hat⟩
  | cons b rest ih =>
    intro r s hchain hio hat
    obtain ⟨hrb, hrest⟩ := isChain_cons_cons.mp hchain
    have hstops : ∀ e, beforeNoted env io light b s = .error (.exc e) s →
        logBlocks env io light r.id (b :: rest) s = .ok (r.id, some e) s := by
      intro e hbefore
      rw [logBlocks, bind_ok (caught hbefore)]
      rfl
    cases hF hrb s.ctl hat.fork with
    | @throws e hthrow =>
      exact ⟨r, some e, s, hstops e (bind_error (onCtl_error hthrow)), .inl rfl, hat⟩
    | @applies c' happly hblog hfork hsame =>
      have hbefore : beforeNoted env io light b s =
          emit (io.irreversibleBlock b) { s with ctl := c' } := bind_ok (onCtl_ok happly)
      cases hemit : io.irreversibleBlock b with
      | some e =>
        -- a signal handler that throws does so outside irreversible mode
        have hmode : env.readMode ≠ .irreversible := by
          intro hirr
          rw [hsig hirr b] at hemit
          cases hemit
        obtain rfl := hsame hmode
        rw [hemit] at hbefore
        exact ⟨r, some e, s, hstops e hbefore, .inl rfl, hat⟩
      | none =>
        rw [hemit] at hbefore
        rw [logBlocks, bind_ok (attempt_ok hbefore)]
        dsimp only
        have hcommit : onCtl (commitDb b.blockNum) { s with ctl := c' } = .ok ()
            { s with ctl := { c' with
                undo := c'.undo.take (c'.head.blockNum - b.blockNum) } } := rfl
        rw [bind_ok hcommit]
        generalize hs2 : Node.mk _ s.entries = s2
        have hblog2 : s2.ctl.blog = s.ctl.blog := by
          rw [← hs2]
          exact hblog
        have hfork2 : F b s2.ctl.forkDb := by
          rw [← hs2]
          exact hfork
        have hnum : b.blockNum = s2.ctl.blog.next := by
          rw [hblog2, hat.ends.next, (hR hrb).2]
        have hat2 : At F b (recorded s2 b) :=
          ⟨hfork2, endsAt_recorded _ b, recorded_recorded s2 b⟩
        rcases @append_cases _ _ io b s2 hnum with happ | ⟨e, happ⟩ | ⟨e, href, -⟩
        · rw [bind_ok (attempt_ok happ)]
          obtain ⟨r', thrown, s', heq, hr', hat'⟩ := ih hrest
            (fun x hx => hio x (mem_cons_of_mem _ hx)) hat2
          exact ⟨r', thrown, s', heq, .inr (mem_cons.mpr hr'), hat'⟩
        · rw [bind_ok (caught happ)]
          exact ⟨b, some e, _, rfl, .inr mem_cons_self, hat2⟩
        · exact absurd href (hio b mem_cons_self e)

/-! ## The fork database under the loop -/

/-- What the fork database is like between calls: its head and the ancestors
    of validated blocks are validated; in irreversible mode the head is the
    root and nothing else is validated. -/
structure ForkReady (env : ControllerEnv τ σ) (f : ForkDb τ) : Prop extends Rooted f where
  closed : ∀ b ∈ f.index, f.validated b.id = true →
    ∀ p ∈ f.index, p.id = b.prev → f.validated p.id = true
  waiting : env.readMode = .irreversible →
    f.head = f.root ∧ ∀ b ∈ f.index, f.validated b.id = false

/-- The branch of a validated block is validated. -/
theorem ForkReady.branch_valid {f : ForkDb τ} (h : ForkReady env f) {i : BlockId}
    (hl : Lineage f.index f.root.id i l) (hi : i = f.root.id ∨ f.validated i = true) :
    ∀ b ∈ l, f.validated b.id = true := by
  induction hl with
  | refl => exact fun b hb => nomatch hb
  | @cons b l hb hl ih =>
    have hbv := hi.resolve_left (h.toTree.root b hb)
    refine forall_mem_cons.mpr ⟨hbv, ih ?_⟩
    cases l with
    | nil => exact .inl hl.eq_of_nil
    | cons p l =>
      obtain ⟨hp, hid, -⟩ := hl.tail
      rw [hid]
      exact .inr (h.closed b hb hbv p hp hid.symm)

/-- The fork database with the blocks of `l` flagged and head `r`. -/
def flagged (f : ForkDb τ) (l : List (BlockState τ)) (r : BlockState τ) : ForkDb τ :=
  { validate f l with head := r }

/-- The path to `r`, with no later LIB or number on it. -/
structure PathTo (f : ForkDb τ) (r : BlockState τ) (l : List (BlockState τ)) : Prop where
  holds : Holds f r
  path : Lineage f.index f.root.id r.id l
  below : ∀ y ∈ l, y.dposIrreversibleBlocknum ≤ r.dposIrreversibleBlocknum ∧
    y.blockNum ≤ r.blockNum

/-- The fork database after `r` was logged: in irreversible mode the blocks up
    to `r` are marked and `r` is the head. -/
def Reached (env : ControllerEnv τ σ) (f : ForkDb τ) (r : BlockState τ) (g : ForkDb τ) : Prop :=
  env.readMode ≠ .irreversible ∧ g = f ∨
    env.readMode = .irreversible ∧ ∃ l, PathTo f r l ∧ g = flagged f l r

/-- The next block on the branch; in irreversible mode its LIB must not fall. -/
def NextOn (env : ControllerEnv τ σ) (f : ForkDb τ) (a b : BlockState τ) : Prop :=
  Follows a b ∧ b ∈ f.index ∧
    (env.readMode = .irreversible → a.dposIrreversibleBlocknum ≤ b.dposIrreversibleBlocknum)

section Fork

variable {f g : ForkDb τ} {r : BlockState τ}

theorem chain_nextOn (branch : List (BlockState τ)) :
    ∀ {r : BlockState τ}, (r :: branch).IsChain Follows → (∀ b ∈ branch, b ∈ f.index) →
      (env.readMode = .irreversible → (r :: branch).IsChain
        fun a b => a.dposIrreversibleBlocknum ≤ b.dposIrreversibleBlocknum) →
      (r :: branch).IsChain (NextOn env f) := by
  induction branch with
  | nil => exact fun _ _ _ => isChain_singleton _
  | cons b rest ih =>
    intro r hchain hmem hlibs
    obtain ⟨hrb, hrest⟩ := isChain_cons_cons.mp hchain
    refine isChain_cons_cons.mpr ⟨⟨hrb, hmem b mem_cons_self, ?_⟩, ?_⟩
    · exact fun hmode => (isChain_cons_cons.mp (hlibs hmode)).1
    · exact ih hrest (fun x hx => hmem x (mem_cons_of_mem _ hx))
        fun hmode => (isChain_cons_cons.mp (hlibs hmode)).2

theorem flagged_root (hhead : f.head = f.root) : flagged f [] f.root = f := by
  rw [← hhead]
  rfl

theorem reached_root (h : ForkReady env f) : Reached env f f.root f := by
  by_cases hmode : env.readMode = .irreversible
  · refine .inr ⟨hmode, [], ⟨holds_root, Lineage.refl, fun y hy => (nomatch hy)⟩, ?_⟩
    exact (flagged_root (h.waiting hmode).1).symm
  · exact .inl ⟨hmode, rfl⟩

/-- At the root nothing has changed yet. -/
theorem Reached.eq_of_root (h : ForkReady env f) (hg : Reached env f f.root g) : g = f := by
  rcases hg with ⟨-, rfl⟩ | ⟨hmode, l, hl, rfl⟩
  · rfl
  · obtain rfl := Lineage.unique h.toTree.ranked hl.path Lineage.refl
    exact flagged_root (h.waiting hmode).1

theorem PathTo.tree (ht : Tree f) (hl : PathTo f r l) : Tree (flagged f l r) :=
  tree_congr ht rfl rfl hl.holds

theorem PathTo.cons (ht : Tree f) (hl : PathTo f r l) (hmode : env.readMode = .irreversible)
    (hb : NextOn env f r b) : PathTo f b (b :: l) := by
  obtain ⟨⟨hprev, hnum⟩, hbm, hlib⟩ := hb
  have := hlib hmode
  refine ⟨ht.holds_mem hbm, Lineage.cons hbm (hprev ▸ hl.path), ?_⟩
  refine forall_mem_cons.mpr ⟨⟨Nat.le_refl _, Nat.le_refl _⟩, ?_⟩
  intro y hy
  have := hl.below y hy
  omega

/-- The next block of the branch becomes the head when it is marked. -/
theorem PathTo.mark_eq (h : ForkReady env f) (hmode : env.readMode = .irreversible)
    (hl : PathTo f r l) (hb : NextOn env f r b) :
    mark (flagged f l r) b = flagged f (b :: l) b := by
  have hbl := hl.cons h.toTree hmode hb
  obtain ⟨⟨-, hnum⟩, hbm, hlib⟩ := hb
  have hlib := hlib hmode
  have hvalid : ∀ i, (flagged f l r).validated i =
      (decide (i ∈ l.map (·.id)) || f.validated i) := fun _ => rfl
  have hfresh : (flagged f l r).validated b.id = false := by
    have hnot : b.id ∉ l.map (·.id) := by
      intro hmem
      obtain ⟨y, hy, hid⟩ := mem_map.mp hmem
      exact hbl.path.ids_ne h.toTree.ranked y hy hid.symm
    rw [hvalid, decide_eq_false hnot, (h.waiting hmode).2 b hbm]
    rfl
  rw [mark_over (f := flagged f l r) h.toTree.ids hbm hfresh]
  · show _ = { validate f (b :: l) with head := b }
    rw [← setValidated_validate]
    rfl
  · rw [firstPreferred_iff]
    show r.dposIrreversibleBlocknum < _ ∨ r.dposIrreversibleBlocknum = _ ∧ r.blockNum < _
    omega
  · intro x hx hxv
    -- the validated blocks are those below `b`
    have hxl : x ∈ l := by
      rw [hvalid, (h.waiting hmode).2 x hx, Bool.or_false, decide_eq_true_eq] at hxv
      obtain ⟨y, hy, hid⟩ := mem_map.mp hxv
      rwa [← h.toTree.ranked.eq_of_id (hl.path.mem y hy) hx hid]
    have := hl.below x hxl
    rw [firstPreferred_iff]
    omega

/-- The step of the loop. -/
theorem reached_steps (h : ForkReady env f) {a b : BlockState τ} (hab : NextOn env f a b)
    (c : Controller τ σ) (hc : Reached env f a c.forkDb) : Steps env light (Reached env f) b c := by
  rcases hc with ⟨hmode, hg⟩ | ⟨hmode, l, hl, hg⟩
  · have hskip : applyIrreversible env light b c = .ok () c := by
      rw [applyIrreversible, if_neg hmode]
      rfl
    exact .applies hskip rfl (.inl ⟨hmode, hg⟩) fun _ => rfl
  · cases happ : env.applyBlock light .complete c.head c.db b with
    | error e =>
      have hthrow : applyIrreversible env light b c = .error (.exc e) c := by
        rw [applyIrreversible, if_pos hmode]
        exact bind_error (applyBlock_error happ)
      exact .throws hthrow
    | ok db =>
      have hmark : markValid b c.forkDb = .ok () (flagged f (b :: l) b) := by
        rw [hg, markValid_eq (hl.tree h.toTree) hab.2.1, hl.mark_eq h hmode hab]
      have happly : applyIrreversible env light b c = .ok ()
          { c with forkDb := flagged f (b :: l) b, head := b, db := db,
                   undo := c.db :: c.undo } := by
        rw [applyIrreversible, if_pos hmode, bind_ok (applyBlock_ok happ)]
        exact onForkDb_ok hmark
      exact .applies happly rfl (.inr ⟨hmode, b :: l, hl.cons h.toTree hmode hab, rfl⟩)
        fun hne => absurd hmode hne

/-- The root follows: afterwards the database is ready again. -/
theorem Reached.advance (h : ForkReady env f) (hg : Reached env f r g) (hr : r ∈ f.index)
    (hon : env.readMode ≠ .irreversible →
      ∃ u v, Lineage f.index f.root.id f.head.id (u ++ r :: v)) :
    ∃ g', advanceRoot r.id g = .ok () g' ∧ g'.root = r ∧ ForkReady env g' := by
  rcases hg with ⟨hmode, rfl⟩ | ⟨hmode, l, hl, rfl⟩
  · obtain ⟨u, v, huv⟩ := hon hmode
    have hunder : Under g r.id g.head.id := under_iff_path.mpr ⟨u, huv.upper⟩
    have hvalid := h.branch_valid huv (h.headValid.imp_left fun heq => by rw [heq])
    obtain ⟨idx, hadv, hsub, hmem⟩ := advanceRoot_eq h.toTree hr
      (hvalid r (mem_append_right _ mem_cons_self)) hunder
    refine ⟨_, hadv, rfl, ⟨tree_advanced h.toTree hr hunder hsub hmem, ?_⟩, ?_,
      fun hirr => absurd hirr hmode⟩
    · cases u with
      | nil =>
        have hhead := huv.tail.2.1
        exact .inl (h.toTree.head.eq_of_id (h.toTree.holds_mem hr) hhead)
      | cons x u =>
        rw [show g.head.id = x.id from huv.tail.2.1]
        exact .inr (hvalid x mem_cons_self)
    · intro b hb hbv p hp hid
      exact h.closed b (hsub.subset hb) hbv p (hsub.subset hp) hid
  · have htree := hl.tree h.toTree
    obtain ⟨y, l', rfl⟩ : ∃ y l', l = y :: l' := by
      cases l with
      | nil => exact absurd hl.path.eq_of_nil (h.toTree.root r hr)
      | cons y l' => exact ⟨y, l', rfl⟩
    obtain ⟨hy, hid, -⟩ := hl.path.tail
    obtain rfl := h.toTree.ranked.eq_of_id hr hy hid
    have hvalid : (flagged f (r :: l') r).validated r.id = true := by
      show (decide (r.id ∈ (r :: l').map (·.id)) || f.validated r.id) = true
      rw [decide_eq_true (mem_map_of_mem mem_cons_self)]
      rfl
    have hunder : Under (flagged f (r :: l') r) r.id (flagged f (r :: l') r).head.id :=
      Relation.ReflTransGen.refl
    obtain ⟨idx, hadv, hsub, hmem⟩ := advanceRoot_eq htree hr hvalid hunder
    have hfresh : ∀ x ∈ idx, (flagged f (r :: l') r).validated x.id = false := by
      intro x hx
      obtain ⟨hxm, hxu, hxne⟩ := (hmem x).mp hx
      -- what is above `r` was not marked on the way to it
      have hnot : x.id ∉ (r :: l').map (·.id) := by
        intro hmem'
        obtain ⟨z, hz, hzid⟩ := mem_map.mp hmem'
        rcases mem_cons.mp hz with rfl | hz
        · exact hxne hzid.symm
        · refine (hl.path.not_under h.toTree.ranked).2 z hz ?_
          rw [hzid]
          exact hxu
      show (decide (x.id ∈ (r :: l').map (·.id)) || f.validated x.id) = false
      rw [decide_eq_false hnot, (h.waiting hmode).2 x hxm]
      rfl
    refine ⟨_, hadv, rfl, ⟨tree_advanced htree hr hunder hsub hmem, .inl rfl⟩, ?_,
      fun _ => ⟨rfl, hfresh⟩⟩
    intro b hb hbv
    rw [hfresh b hb] at hbv
    cases hbv

end Fork

/-! ## `log_irreversible` -/

/-- Between calls the log ends at the root. -/
structure Ready (env : ControllerEnv τ σ) (s : Node τ σ) : Prop where
  fork : ForkReady env s.ctl.forkDb
  ends : EndsAt s.ctl.blog s.ctl.forkDb.root
  recorded : Recorded s

/-- The blocks that a call is to log. -/
def toLog (env : ControllerEnv τ σ) (f : ForkDb τ) : List (BlockState τ) :=
  ((fetchBranch f (forkHead env f).id (forkHead env f).dposIrreversibleBlocknum).getD []).reverse

/-- **THE CONDITION** under which a call keeps log and root together: no append
    of a block of the branch throws before the log has taken the block; and in
    irreversible mode no signal handler throws and the LIB does not fall along
    the branch. -/
structure Guard (env : ControllerEnv τ σ) (io : Outside τ) (s : Node τ σ) : Prop where
  append : ∀ b ∈ toLog env s.ctl.forkDb, ∀ e, io.append b ≠ .refused e
  signals : env.readMode = .irreversible → ∀ b, io.irreversibleBlock b = none
  libs : env.readMode = .irreversible → (s.ctl.forkDb.root :: toLog env s.ctl.forkDb).IsChain
    fun a b => a.dposIrreversibleBlocknum ≤ b.dposIrreversibleBlocknum

section Call

variable {s : Node τ σ}

theorem holds_forkHead {f : ForkDb τ} (ht : Tree f) : Holds f (forkHead env f) := by
  unfold forkHead
  by_cases hmode : env.readMode = .irreversible
  · rw [if_pos hmode]
    unfold pendingHead
    cases hx : (f.index.filter fun b => !f.validated b.id).argmin (byLibKey f.validated) with
    | none => exact ht.head
    | some x =>
      dsimp only
      cases firstPreferred x f.head with
      | true => exact ht.holds_mem (mem_of_mem_filter (argmin_mem hx))
      | false => exact ht.head
  · rw [if_neg hmode]
    exact ht.head

/-- The branch to log, as a path. -/
theorem Ready.toLog_eq (h : Ready env s) :
    ∃ l, Lineage s.ctl.forkDb.index s.ctl.forkDb.root.id (forkHead env s.ctl.forkDb).id l ∧
      toLog env s.ctl.forkDb = upTo (forkHead env s.ctl.forkDb).dposIrreversibleBlocknum l ∧
      (s.ctl.forkDb.root :: toLog env s.ctl.forkDb).IsChain Follows := by
  have hh : Holds s.ctl.forkDb (forkHead env s.ctl.forkDb) := holds_forkHead h.fork.toTree
  obtain ⟨l, hl⟩ := h.fork.toTree.path _ _ (Nat.le_refl _) hh
  have heq : toLog env s.ctl.forkDb =
      upTo (forkHead env s.ctl.forkDb).dposIrreversibleBlocknum l := by
    rw [toLog, fetchBranch_eq h.fork.toTree hh hl]
    rfl
  refine ⟨l, hl, heq, ?_⟩
  rw [heq]
  exact chain_upTo h.fork.toTree hh hl

/-- **ONE CALL**: nothing is due, or the loop runs over the branch and the root
    follows it. -/
theorem Ready.logIrreversible_eq (h : Ready env s) (io : Outside τ) (light : Bool) :
    (toLog env s.ctl.forkDb = [] ∧ logIrreversible env io light s = .ok () s) ∨
      logIrreversible env io light s =
        (logBlocks env io light s.ctl.forkDb.root.id (toLog env s.ctl.forkDb) >>= fun r => do
          whenever (r.1 ≠ s.ctl.forkDb.root.id) (onCtl (onForkDb (advanceRoot r.1)))
          emit r.2) s := by
  obtain ⟨l, hl, hlog, -⟩ := h.toLog_eq
  have hh : Holds s.ctl.forkDb (forkHead env s.ctl.forkDb) := holds_forkHead h.fork.toTree
  have hcheck := (LogAtRoot.mk (c := s.ctl) h.ends.head h.ends.empty).checkLog_eq.1
  have hcheck' : onCtl (checkLog s.ctl) s = .ok s.ctl.forkDb.root.blockNum s :=
    onCtl_ok hcheck
  unfold logIrreversible
  rw [get_bind, bind_ok hcheck']
  by_cases hlib : (forkHead env s.ctl.forkDb).dposIrreversibleBlocknum ≤ s.ctl.forkDb.root.blockNum
  · rw [if_pos hlib]
    left
    rw [hlog]
    exact ⟨upTo_eq_nil h.fork.toTree hl hlib, rfl⟩
  · rw [if_neg hlib, fetchBranch_eq h.fork.toTree hh hl]
    right
    rw [hlog]
    rfl

/-- A call that returns has logged exactly the branch. -/
theorem Ready.logged (h : Ready env s) {s' : Node τ σ} {u : Unit}
    (hret : logIrreversible env io light s = .ok u s') :
    s'.entries = s.entries ++ toLog env s.ctl.forkDb := by
  rcases h.logIrreversible_eq io light with ⟨hnil, heq⟩ | heq
  · rw [heq] at hret
    cases hret
    rw [hnil, append_nil]
  · rw [heq] at hret
    obtain ⟨r, s1, hloop, hrest⟩ := bind_ok_inv hret
    obtain ⟨_, s2, hadv, hemit⟩ := bind_ok_inv hrest
    obtain ⟨rootId, thrown⟩ := r
    cases thrown with
    | some e => cases hemit
    | none =>
      obtain rfl := emit_ok hemit
      rw [← logBlocks_returned _ hloop]
      unfold whenever at hadv
      split at hadv
      · obtain ⟨c, -, rfl⟩ := zoom_ok_inv hadv
        rfl
      · cases hadv
        rfl

/-- **A GUARDED CALL** leaves the node ready, however it ends. -/
theorem Ready.guarded (h : Ready env s) (hg : Guard env io s) :
    Ready env (final (logIrreversible env io light s)) := by
  obtain ⟨l, hl, hlog, hchain⟩ := h.toLog_eq
  rcases h.logIrreversible_eq io light with ⟨-, heq⟩ | heq
  · rw [heq]
    exact h
  · have hmem : ∀ b ∈ toLog env s.ctl.forkDb, b ∈ s.ctl.forkDb.index := by
      intro b hb
      rw [hlog] at hb
      exact mem_upTo hl hb
    have hnext := chain_nextOn _ hchain hmem hg.libs
    have hsteps : ∀ {a b}, NextOn env s.ctl.forkDb a b → ∀ c : Controller τ σ,
        Reached env s.ctl.forkDb a c.forkDb → Steps env light (Reached env s.ctl.forkDb) b c :=
      fun hab => reached_steps h.fork hab
    obtain ⟨r, thrown, s', hloop, hr, hat⟩ := logBlocks_run (fun hab => hab.1) hsteps
      hg.signals _ hnext hg.append ⟨reached_root h.fork, h.ends, h.recorded⟩
    rw [heq, bind_ok hloop]
    dsimp only
    -- whether the signal of the end is an exception does not change the state
    have hemit : ∀ s : Node τ σ, final (emit thrown s) = s := by
      intro s
      cases thrown with
      | none => rfl
      | some e => rfl
    rcases hr with rfl | hr
    · have heq := hat.fork.eq_of_root h.fork
      rw [whenever, if_neg (fun hne => hne rfl)]
      show Ready env (final (emit thrown s'))
      rw [hemit]
      exact ⟨by rw [heq]; exact h.fork, by rw [heq]; exact hat.ends, hat.recorded⟩
    · have hrm := hmem r hr
      have hon : env.readMode ≠ .irreversible → ∃ u v,
          Lineage s.ctl.forkDb.index s.ctl.forkDb.root.id s.ctl.forkDb.head.id (u ++ r :: v) := by
        intro hmode
        rw [hlog] at hr
        obtain ⟨u, v, rfl⟩ :=
          append_of_mem (mem_of_mem_filter (mem_reverse.mp hr))
        rw [forkHead, if_neg hmode] at hl
        exact ⟨u, v, hl⟩
      obtain ⟨g, hadv, hroot, hready⟩ := hat.fork.advance h.fork hrm hon
      rw [whenever, if_pos (h.fork.toTree.root r hrm), bind_ok (onCtl_ok (onForkDb_ok hadv)), hemit]
      refine ⟨hready, ?_, hat.recorded⟩
      show EndsAt s'.ctl.blog g.root
      rw [hroot]
      exact hat.ends

end Call

/-! ## Runs -/

/-- What the rest of the controller does between calls: it leaves log and root
    alone, and the fork database ready. -/
structure Between (env : ControllerEnv τ σ) (s s' : Node τ σ) : Prop where
  entries : s'.entries = s.entries
  blog : s'.ctl.blog = s.ctl.blog
  root : s'.ctl.forkDb.root = s.ctl.forkDb.root
  fork : ForkReady env s.ctl.forkDb → ForkReady env s'.ctl.forkDb

/-- Calls of `log_irreversible` with other work in between. -/
inductive LogRuns (env : ControllerEnv τ σ) (guard : Outside τ → Node τ σ → Prop)
    (s₀ : Node τ σ) : Node τ σ → Prop where
  | start : LogRuns env guard s₀ s₀
  | other {s s' : Node τ σ} : LogRuns env guard s₀ s → Between env s s' → LogRuns env guard s₀ s'
  | log {s : Node τ σ} (io : Outside τ) (light : Bool) : LogRuns env guard s₀ s → guard io s →
      LogRuns env guard s₀ (final (logIrreversible env io light s))

section Operations

variable {f : ForkDb τ}

/-- `add` of a new block on one of the database. -/
theorem ForkReady.inserted (h : ForkReady env f) {p n : BlockState τ}
    (hp : getBlockHeader f n.prev = some p) (hnum : n.blockNum = p.blockNum + 1)
    (hfresh : ∀ b, Holds f b → b.id ≠ n.id) : ForkReady env (insertedAs f n false) := by
  have ht := tree_added h.toTree hp hnum hfresh
  have hflag : ∀ b, Holds f b → (added f n).validated b.id = f.validated b.id :=
    fun b hb => if_neg (hfresh b hb)
  have hcases : ∀ b ∈ (added f n).index, (added f n).validated b.id = true →
      b ∈ f.index ∧ f.validated b.id = true := by
    intro b hb hbv
    rcases mem_append.mp hb with hb | hb
    · exact ⟨hb, by rw [← hflag b (h.toTree.holds_mem hb), hbv]⟩
    · rw [mem_singleton.mp hb, show (added f n).validated n.id = false from if_pos rfl] at hbv
      cases hbv
  have hready : ForkReady env (added f n) := by
    refine ⟨⟨ht, ?_⟩, ?_, ?_⟩
    · exact h.headValid.imp_right fun hv => (hflag _ h.toTree.head).trans hv
    · intro b hb hbv q hq hid
      obtain ⟨hbm, hbv⟩ := hcases b hb hbv
      rcases mem_append.mp hq with hqm | hqm
      · rw [hflag q (h.toTree.holds_mem hqm)]
        exact h.closed b hbm hbv q hqm hid
      · -- the new block is nobody's parent
        obtain ⟨x, hx, -⟩ := h.toTree.parent b hbm
        obtain ⟨hxid, -⟩ := getBlockHeader_some hx
        rw [mem_singleton.mp hqm, ← hxid] at hid
        exact absurd hid.symm (hfresh x (holds_of_getBlockHeader hx))
    · intro hmode
      refine ⟨(h.waiting hmode).1, ?_⟩
      intro b hb
      cases hbv : (added f n).validated b.id with
      | false => rfl
      | true =>
        obtain ⟨hbm, hbv⟩ := hcases b hb hbv
        rw [(h.waiting hmode).2 b hbm] at hbv
        cases hbv
  rw [insertedAs, reheaded]
  cases hx : byLibFirst (added f n) with
  | none => exact hready
  | some x =>
    dsimp only
    cases hv : (added f n).validated x.id with
    | false => exact hready
    | true =>
      have hxm : x ∈ (added f n).index := argmin_mem hx
      refine ⟨⟨tree_congr ht rfl rfl (ht.holds_mem hxm), .inr hv⟩, hready.closed, ?_⟩
      intro hmode
      rw [(hready.waiting hmode).2 x hxm] at hv
      cases hv

/-- `mark_valid` of a block whose parent is validated, outside irreversible
    mode. -/
theorem ForkReady.mark (h : ForkReady env f) (hmode : env.readMode ≠ .irreversible)
    (hb : b ∈ f.index) (hparent : ∀ p ∈ f.index, p.id = b.prev → f.validated p.id = true) :
    ForkReady env (mark f b) := by
  unfold ForkRevert.mark
  by_cases hv : f.validated b.id = true
  · rw [if_pos hv]
    exact h
  · rw [if_neg hv]
    have hready : ForkReady env (setValidated f b.id true) := by
      refine ⟨⟨tree_congr h.toTree rfl rfl h.head, h.headValid.imp_right validated_setValidated⟩,
        ?_, fun hirr => absurd hirr hmode⟩
      intro x hx hxv p hp hid
      by_cases hxb : x.id = b.id
      · obtain rfl := h.toTree.ranked.eq_of_id hx hb hxb
        exact validated_setValidated (hparent p hp hid)
      · have hxf : f.validated x.id = true := by
          rw [← hxv]
          exact (if_neg hxb).symm
        exact validated_setValidated (h.closed x hx hxf p hp hid)
    obtain ⟨x, hxm, hx, hxv, -⟩ := byLibFirst_setValidated hb
    rw [marked, hx]
    dsimp only
    cases firstPreferred x (setValidated f b.id true).head with
    | false => exact hready
    | true =>
      exact ⟨⟨tree_congr h.toTree rfl rfl (h.toTree.holds_mem hxm), .inr hxv⟩, hready.closed,
        fun hirr => absurd hirr hmode⟩

end Operations

theorem Ready.between {s s' : Node τ σ} (h : Ready env s) (hb : Between env s s') :
    Ready env s' := by
  refine ⟨hb.fork h.fork, ?_, ?_⟩
  · rw [hb.blog, hb.root]
    exact h.ends
  · unfold Recorded
    rw [hb.blog, hb.entries]
    exact h.recorded

theorem Ready.run {s0 s : Node τ σ} (h0 : Ready env s0) (hrun : LogRuns env (Guard env) s0 s) :
    Ready env s := by
  induction hrun with
  | start => exact h0
  | other _ hb ih => exact ih.between hb
  | log io light _ hg ih => exact ih.guarded hg

/-- The root has the id of the log's last block. -/
def RootLogged : Prop :=
  ∀ b, s.entries.getLast? = some b → s.ctl.forkDb.root.id = b.id

theorem Ready.rootLogged {s : Node τ σ} (h : Ready env s) : RootLogged s := by
  intro b hb
  have hhead := h.recorded
  unfold Recorded at hhead
  rw [hb] at hhead
  exact (h.ends.head _ _ hhead).1.symm

/-- **LOGGED ONCE AND IN ORDER**: after any run of guarded calls, a call that
    returns has extended the log by the blocks of the fork head's branch above
    the root and up to its LIB, each linked to the one before; and a guarded
    call leaves the root at the last block of the log, whether it returns or
    throws. -/
theorem log_follows_root {s₀ s : Node τ σ} (h₀ : Ready env s₀)
    (hrun : LogRuns env (Guard env) s₀ s) (io : Outside τ) (light : Bool) :
    (∀ s', logIrreversible env io light s = .ok () s' →
      ∃ l, Lineage s.ctl.forkDb.index s.ctl.forkDb.root.id (forkHead env s.ctl.forkDb).id l ∧
        s'.entries =
          s.entries ++ upTo (forkHead env s.ctl.forkDb).dposIrreversibleBlocknum l ∧
        (s.ctl.forkDb.root ::
          upTo (forkHead env s.ctl.forkDb).dposIrreversibleBlocknum l).IsChain Follows) ∧
      RootLogged s ∧
      (Guard env io s → RootLogged (final (logIrreversible env io light s))) := by
  have h := h₀.run hrun
  obtain ⟨l, hl, hlog, hchain⟩ := h.toLog_eq
  rw [hlog] at hchain
  refine ⟨?_, h.rootLogged, fun hg => (h.guarded hg).rootLogged⟩
  intro s' hret
  refine ⟨l, hl, ?_, hchain⟩
  rw [h.logged hret, hlog]

/-! ## Three calls -/

/-- A block state with a LIB. -/
def libBlock (id previous : BlockId) (num lib : Nat) : BlockState Unit :=
  { plainBlock id previous num with dposIrreversibleBlocknum := lib }

/-- Block 3 makes block 2 irreversible; the log ends at the root. -/
def due : Node Unit (List BlockId) where
  ctl :=
    { forkDb := plainFork [libBlock 2 1 2 1, libBlock 3 2 3 2] [2, 3] (libBlock 3 2 3 2)
      head := libBlock 3 2 3 2
      db := [3, 2]
      undo := [[2], []]
      blog := ⟨some (1, 1), 1⟩ }
  entries := [plainBlock 1 0 1]

theorem tree_due : Tree due.ctl.forkDb := by
  refine ⟨by decide, by decide, forall_mem_cons.mpr ⟨?_, forall_mem_singleton.mpr ?_⟩, rfl⟩
  · exact ⟨plainBlock 1 0 1, rfl, rfl⟩
  · exact ⟨libBlock 2 1 2 1, rfl, rfl⟩

theorem ready_due : Ready (recordingEnv []) due := by
  have hvalid : ∀ b ∈ due.ctl.forkDb.index, due.ctl.forkDb.validated b.id = true :=
    forall_mem_cons.mpr ⟨rfl, forall_mem_singleton.mpr rfl⟩
  exact ⟨⟨⟨tree_due, .inr rfl⟩, fun _ _ _ p hp _ => hvalid p hp, fun h => by cases h⟩,
    endsAt_recorded due.ctl.blog due.ctl.forkDb.root, rfl⟩

theorem log_follows_root_due :
    RootLogged (final (logIrreversible (recordingEnv []) (allAppends .written) false due)) :=
  (log_follows_root ready_due .start (allAppends .written) false).2.2
    ⟨fun b _ e h => (by cases h), fun h => (by cases h), fun h => (by cases h)⟩

/-- The ids of the root and of the log's last block tell whether they are the
    same. -/
theorem not_rootLogged {s : Node τ σ} {i : BlockId}
    (hlast : s.entries.getLast?.map (·.id) = some i) (hroot : s.ctl.forkDb.root.id ≠ i) :
    ¬ RootLogged s := by
  intro h
  obtain ⟨b, hb, rfl⟩ := Option.map_eq_some_iff.mp hlast
  exact hroot (h b hb)

/-- An append that throws before the log has the block: the root has moved to
    block 2, the log ends at block 1. -/
theorem root_passes_log :
    Ready (recordingEnv []) due ∧
      ¬ RootLogged (final (logIrreversible (recordingEnv [])
        (allAppends (.refused ⟨.blockLogAppendFail, "disk full"⟩)) false due)) :=
  ⟨ready_due, not_rootLogged (i := 1) (by decide +kernel) (by decide +kernel)⟩

/-- In irreversible mode: block 5 makes block 4 irreversible, whose own LIB is
    below that of the root. -/
def fallen : Node Unit (List BlockId) where
  ctl :=
    { forkDb :=
        { index := [libBlock 4 3 4 1, libBlock 5 4 5 4]
          validated := fun i => decide (i = 3)
          root := libBlock 3 2 3 2
          head := libBlock 3 2 3 2 }
      head := libBlock 3 2 3 2
      db := []
      undo := []
      blog := ⟨some (3, 3), 1⟩ }
  entries := [plainBlock 1 0 1, libBlock 2 1 2 1, libBlock 3 2 3 2]

/-- The marked block does not become the head, so the root cannot advance past
    the old one; the log has. -/
theorem root_stays_behind :
    ¬ RootLogged (final (logIrreversible { recordingEnv [] with readMode := .irreversible }
      (allAppends .written) false fallen)) :=
  not_rootLogged (i := 4) (by decide +kernel) (by decide +kernel)

end BlockLogs
