import EosForce.ForkOrderProofs
import EosForce.ForkRootProofs
import EosForce.HeaderQuorumProofs

/-! # The controller's head and the fork database's head

    `push_block` sets the controller's head by itself; the fork database moves
    its own head in `add` and `mark_valid`.  A validated block that ties with
    the head and has a smaller id, as a failed switch can leave one behind,
    makes the next `add` move the fork database's head alone
    (`heads_part_after_tie`).

    While no push meets such a tie, and no block takes the LIB back, the two
    heads are the same after every push, whether it returns or throws
    (`heads_in_step`). -/

namespace ForkHead

open ChainTypes HeaderState HeaderChain Effect ForkDatabase ForkTree ForkSwitch
open ForkRevert ForkRoot ForkOrder List

variable {τ σ : Type} {f : ForkDb τ} {num : BlockId → Nat}

/-! ## The fork database -/

/-- **SOUND DATABASES**: a tree of complete blocks whose ids encode their
    numbers (`num_from_id`), in which validated blocks have validated parents
    and the LIB does not fall from a parent to its child. -/
structure SoundDb (num : BlockId → Nat) (f : ForkDb τ) : Prop where
  tree : Tree f
  complete : Complete f
  numbered : ∀ b, Holds f b → num b.id = b.blockNum
  rootPrev : f.root.prev ≠ f.root.id
  headValid : f.validated f.head.id = true
  closed : ∀ b ∈ f.index, f.validated b.id = true →
    ∀ p, getBlockHeader f b.prev = some p → f.validated p.id = true
  libs : ∀ b ∈ f.index, ∀ p, getBlockHeader f b.prev = some p →
    p.dposIrreversibleBlocknum ≤ b.dposIrreversibleBlocknum

variable {l : List (BlockState τ)}

/-- The ancestors of a validated block are validated. -/
theorem SoundDb.path_valid (h : SoundDb num f) {a i : BlockId} (hl : Lineage f.index a i l)
    (hi : f.validated i = true) : f.validated a = true ∧ ∀ b ∈ l, f.validated b.id = true := by
  induction hl with
  | refl => exact ⟨hi, fun b hb => (nomatch hb)⟩
  | @cons b l hb hl ih =>
    obtain ⟨p, hp, -⟩ := h.tree.parent b hb
    have hprev := h.closed b hb hi p hp
    rw [(getBlockHeader_some hp).1] at hprev
    obtain ⟨ha, hrest⟩ := ih hprev
    exact ⟨ha, forall_mem_cons.mpr ⟨hi, hrest⟩⟩

/-- The LIB does not fall along a branch. -/
theorem SoundDb.lib_le (h : SoundDb num f) {a y : BlockState τ} (hl : Lineage f.index a.id y.id l)
    (ha : Holds f a) (hy : Holds f y) :
    a.dposIrreversibleBlocknum ≤ y.dposIrreversibleBlocknum := by
  induction l generalizing y with
  | nil =>
    rw [hy.eq_of_id ha hl.eq_of_nil]
  | cons b l ih =>
    obtain ⟨hb, hid, hl'⟩ := hl.tail
    obtain ⟨p, hp, -⟩ := h.tree.parent b hb
    rw [← (getBlockHeader_some hp).1] at hl'
    rw [hy.eq_of_id (h.tree.holds_mem hb) hid]
    exact le_trans (ih hl' (holds_of_getBlockHeader hp)) (h.libs b hb p hp)

/-- Lookups in a part of a tree. -/
theorem getBlockHeader_sub {g : ForkDb τ} (ht : Tree f)
    (hsub : ∀ b ∈ g.index, b ∈ f.index) (hroot : Holds f g.root) {id : BlockId}
    {p : BlockState τ} (h : getBlockHeader g id = some p) : getBlockHeader f id = some p := by
  obtain ⟨hid, hp⟩ := getBlockHeader_some h
  rw [← hid]
  rcases hp with rfl | hp
  · exact hroot
  · exact ht.holds_mem (hsub p hp)

/-- A part of a sound database that is a tree is sound. -/
theorem SoundDb.sub (h : SoundDb num f) {g : ForkDb τ} (ht : Tree g)
    (hsub : ∀ b ∈ g.index, b ∈ f.index) (hroot : Holds f g.root)
    (hprev : g.root.prev ≠ g.root.id) (hv : g.validated = f.validated)
    (hh : g.head = f.head) : SoundDb num g := by
  have hget : ∀ {id p}, getBlockHeader g id = some p → getBlockHeader f id = some p :=
    fun hp => getBlockHeader_sub h.tree hsub hroot hp
  refine ⟨ht, ?_, ?_, hprev, ?_, ?_, ?_⟩
  · exact fun b hb => h.complete b (hsub b hb)
  · exact fun b hb => h.numbered b (hget hb)
  · rw [hv, hh]
    exact h.headValid
  · rw [hv]
    exact fun b hb hbv p hp => h.closed b (hsub b hb) hbv p (hget hp)
  · exact fun b hb p hp => h.libs b (hsub b hb) p (hget hp)

theorem SoundDb.prune (h : SoundDb num f) {id : BlockId} (hhead : ¬ Under f id f.head.id) :
    SoundDb num (prune f id) :=
  h.sub (tree_prune h.tree hhead) (fun _ hb => (mem_prune.mp hb).1) holds_root h.rootPrev rfl rfl

/-- Flagging a branch whose fork point is validated. -/
theorem SoundDb.validate (h : SoundDb num f) {a i : BlockId} (hl : Lineage f.index a i l)
    (ha : f.validated a = true) : SoundDb num (validate f l) := by
  refine ⟨tree_congr h.tree rfl rfl h.tree.head, h.complete, h.numbered, h.rootPrev, ?_, ?_, h.libs⟩
  · show (_ || f.validated f.head.id) = true
    rw [h.headValid, Bool.or_true]
  · intro b hb hbv p hp
    show (decide (p.id ∈ l.map (·.id)) || f.validated p.id) = true
    rcases Bool.or_eq_true_iff.mp hbv with hbl | hbv
    · -- the parent is the next block of the branch or the fork point
      obtain ⟨x, hx, hid⟩ := mem_map.mp (of_decide_eq_true hbl)
      obtain ⟨u, v, rfl⟩ := append_of_mem hx
      obtain ⟨hxm, -, hv⟩ := hl.suffix.tail
      have hxb := h.tree.ranked.eq_of_id hxm hb hid
      rw [hxb, ← (getBlockHeader_some hp).1] at hv
      cases v with
      | nil => rw [hv.eq_of_nil, ha, Bool.or_true]
      | cons y v =>
        rw [hv.tail.2.1]
        simp
    · rw [h.closed b hb hbv p hp, Bool.or_true]

theorem SoundDb.withHead (h : SoundDb num f) {n : BlockState τ} (hn : n ∈ f.index)
    (hv : f.validated n.id = true) : SoundDb num { f with head := n } :=
  ⟨tree_congr h.tree rfl rfl (h.tree.holds_mem hn), h.complete, h.numbered, h.rootPrev,
    hv, h.closed, h.libs⟩

/-! ## Adding a block state -/

/-- A block state that is new to the database and extends `p`. -/
structure Extends (num : BlockId → Nat) (f : ForkDb τ) (p n : BlockState τ) : Prop where
  parent : getBlockHeader f n.prev = some p
  fresh : getBlock f n.id = none
  blockNum : n.blockNum = p.blockNum + 1
  numbered : num n.id = n.blockNum
  lib : p.dposIrreversibleBlocknum ≤ n.dposIrreversibleBlocknum
  block : n.block.isSome = true

section Extends

variable {p n : BlockState τ}

theorem Extends.ne_of_mem (hx : Extends num f p n) {b : BlockState τ}
    (hb : b ∈ f.index) : b.id ≠ n.id := by
  have hnone := hx.fresh
  rw [getBlock, List.find?_eq_none] at hnone
  simpa using hnone b hb

/-- Numbers keep the new id apart from the root's. -/
theorem Extends.ne_of_holds (h : SoundDb num f) (hx : Extends num f p n) {b : BlockState τ}
    (hb : Holds f b) : b.id ≠ n.id := by
  rcases hb.cases with rfl | hmem
  · intro heq
    have hroot := h.numbered _ holds_root
    rw [heq, hx.numbered, hx.blockNum] at hroot
    have := h.tree.root_num_le (holds_of_getBlockHeader hx.parent)
    omega
  · exact hx.ne_of_mem hmem

/-- The parents of a database's blocks are not new. -/
theorem Extends.getBlockHeader_prev (h : SoundDb num f) (hx : Extends num f p n)
    {b q : BlockState τ} (hb : b ∈ (added f n).index)
    (hq : getBlockHeader f b.prev = some q ∨ getBlockHeader (added f n) b.prev = some q) :
    getBlockHeader (added f n) b.prev = some q ∧ getBlockHeader f b.prev = some q := by
  obtain ⟨p', hp'⟩ : ∃ p', getBlockHeader f b.prev = some p' := by
    rcases mem_append.mp hb with hb | hb
    · obtain ⟨p', hp', -⟩ := h.tree.parent b hb
      exact ⟨p', hp'⟩
    · rw [mem_singleton.mp hb]
      exact ⟨p, hx.parent⟩
  have hne : n.id ≠ b.prev := by
    rw [← (getBlockHeader_some hp').1]
    exact Ne.symm (hx.ne_of_holds h (holds_of_getBlockHeader hp'))
  have heq := getBlockHeader_added (f := f) hne
  rw [heq] at hq ⊢
  exact ⟨hq.elim id id, hq.elim id id⟩

/-- **ADDING KEEPS A DATABASE SOUND**. -/
theorem SoundDb.added (h : SoundDb num f) (hx : Extends num f p n) : SoundDb num (added f n) := by
  have hcases : ∀ b ∈ (ForkOrder.added f n).index, b ∈ f.index ∨ b = n := by
    intro b hb
    exact (mem_append.mp hb).imp_right mem_singleton.mp
  have hflag : ∀ {b}, Holds f b → (ForkOrder.added f n).validated b.id = f.validated b.id :=
    fun hb => if_neg (hx.ne_of_holds h hb)
  refine ⟨tree_added h.tree hx.parent hx.blockNum fun b hb => hx.ne_of_holds h hb,
    ?_, ?_, h.rootPrev, ?_, ?_, ?_⟩
  · intro b hb
    rcases hcases b hb with hm | rfl
    · exact h.complete b hm
    · exact hx.block
  · intro b hb
    rcases hb.cases with rfl | hm
    · exact h.numbered _ holds_root
    · rcases hcases b hm with hm | rfl
      · exact h.numbered b (h.tree.holds_mem hm)
      · exact hx.numbered
  · exact (hflag h.tree.head).trans h.headValid
  · intro b hb hbv q hq
    have hqf := (hx.getBlockHeader_prev h hb (.inr hq)).2
    rw [hflag (holds_of_getBlockHeader hqf)]
    rcases hcases b hb with hm | rfl
    · rw [hflag (h.tree.holds_mem hm)] at hbv
      exact h.closed b hm hbv q hqf
    · rw [show (ForkOrder.added f b).validated b.id = false from if_pos rfl] at hbv
      exact nomatch hbv
  · intro b hb q hq
    have hqf := (hx.getBlockHeader_prev h hb (.inr hq)).2
    rcases hcases b hb with hm | rfl
    · exact h.libs b hm q hqf
    · rw [hx.parent] at hqf
      rw [← Option.some.inj hqf]
      exact hx.lib

end Extends

/-! ## Branches applied in pieces -/

section Applying

variable {env : ControllerEnv τ σ} {light : Bool} {status : BlockState τ → BlockStatus}
  {base mid h : BlockState τ} {db₀ db₁ db : σ} {l m : List (BlockState τ)} {us us' : List σ}

theorem applies_append (hm : Applies env light status base db₀ m mid db₁ us')
    (hl : Applies env light status mid db₁ l h db us) :
    Applies env light status base db₀ (l ++ m) h db (us ++ us') := by
  induction hl with
  | nil => exact hm
  | cons _ happ ih => exact Applies.cons ih happ

theorem applies_split (hlm : Applies env light status base db₀ (l ++ m) h db us) :
    ∃ mid db₁ us1 us2, Applies env light status base db₀ m mid db₁ us2 ∧
      Applies env light status mid db₁ l h db us1 ∧ us = us1 ++ us2 ∧
      us1.length = l.length := by
  induction l generalizing h db us with
  | nil => exact ⟨h, db, [], us, hlm, Applies.nil, rfl, rfl⟩
  | cons b l ih =>
    cases hlm with
    | cons hrest happ =>
      obtain ⟨mid, db₁, us1, us2, hm, hl, rfl, hlen⟩ := ih hrest
      exact ⟨mid, db₁, _ :: us1, us2, hm, Applies.cons hl happ, rfl,
        congrArg Nat.succ hlen⟩

/-- A block that was applied once applies again from the same state with the
    same result, also when it is known to be valid. -/
def Replayable (env : ControllerEnv τ σ) : Prop :=
  ∀ light s h db b db', env.applyBlock light s h db b = .ok db' →
    ∀ light', env.applyBlock light' .validated h db b = .ok db'

theorem applies_replay (hr : Replayable env) (light' : Bool)
    (hl : Applies env light status base db₀ l h db us) :
    Applies env light' (fun _ => .validated) base db₀ l h db us := by
  induction hl with
  | nil => exact Applies.nil
  | cons _ happ ih => exact Applies.cons ih (hr _ _ _ _ _ _ happ light')

/-- A branch applies, or some block of it throws. -/
theorem applies_or_fails (env : ControllerEnv τ σ) (light : Bool)
    (status : BlockState τ → BlockStatus) (base : BlockState τ) (db₀ : σ)
    (l : List (BlockState τ)) :
    (∃ h db us, Applies env light status base db₀ l h db us) ∨
    ∃ later failing applied h db us e, l = later ++ failing :: applied ∧
      Applies env light status base db₀ applied h db us ∧
      env.applyBlock light (status failing) h db failing = .error e := by
  induction l with
  | nil => exact .inl ⟨base, db₀, [], Applies.nil⟩
  | cons b l ih =>
    rcases ih with ⟨h, db, us, hl⟩ | ⟨later, failing, applied, h, db, us, e, rfl, hl, he⟩
    · cases happ : env.applyBlock light (status b) h db b with
      | ok db' => exact .inl ⟨b, db', db :: us, Applies.cons hl happ⟩
      | error e => exact .inr ⟨[], b, l, h, db, us, e, rfl, hl, happ⟩
    · exact .inr ⟨b :: later, failing, applied, h, db, us, e, rfl, hl, he⟩

end Applying

/-! ## The invariant -/

/-- The blocks from the root to the head are applied, on the states that the
    undo stack holds. -/
def HeadApplied (env : ControllerEnv τ σ) (c : Controller τ σ) : Prop :=
  ∃ l db₀, Lineage c.forkDb.index c.forkDb.root.id c.head.id l ∧
    Applies env false (fun _ => .validated) c.forkDb.root db₀ l c.head c.db c.undo

/-- **THE HEADS ARE IN STEP**: both heads are the same block, in a sound
    database whose log ends at the root. -/
structure InStep (env : ControllerEnv τ σ) (num : BlockId → Nat) (c : Controller τ σ) :
    Prop where
  heads : c.head = c.forkDb.head
  sound : SoundDb num c.forkDb
  applied : HeadApplied env c
  log : LogAtRoot c

/-- How a push ends: it returns or throws, and leaves the heads in step with
    no unvalidated block preferred to them. -/
def Stepped (env : ControllerEnv τ σ) (num : BlockId → Nat)
    (out : EStateM.Result Fault (Controller τ σ) Unit) : Prop :=
  ∃ c', (out = .ok () c' ∨ ∃ e, out = .error (.exc e) c') ∧ InStep env num c' ∧
    Settled c'.forkDb

section Step

variable {env : ControllerEnv τ σ} {light : Bool} {c : Controller τ σ} {n base : BlockState τ}
  {first second : List (BlockState τ)}

section

variable (h : InStep env num c)
include h

theorem InStep.holds_head : Holds c.forkDb c.head := by
  rw [h.heads]
  exact h.sound.tree.head

theorem InStep.head_valid : c.forkDb.validated c.head.id = true := by
  rw [h.heads]
  exact h.sound.headValid

/-- The root moves up the head's branch. -/
theorem InStep.rootMoves {c' : Controller τ σ} (hs : Settled c.forkDb)
    (hl : Lineage c.forkDb.index c.forkDb.root.id c.head.id l) (hmove : RootMoves c l c') :
    InStep env num c' ∧ Settled c'.forkDb := by
  cases hmove with
  | stays => exact ⟨h, hs⟩
  | @moves u v r idx huv hsub hmem =>
    have ht := h.sound.tree
    obtain ⟨l', db₀, hl', happ⟩ := h.applied
    rw [Lineage.unique ht.ranked hl' hl, huv] at happ
    rw [huv] at hl
    have hr : r ∈ c.forkDb.index := hl.suffix.tail.1
    have hhead : Under c.forkDb r.id c.forkDb.head.id := by
      rw [← h.heads]
      exact under_iff_path.mpr ⟨u, hl.upper⟩
    have htree := tree_advanced ht hr hhead hsub hmem
    refine ⟨⟨h.heads, h.sound.sub htree (fun b hb => hsub.subset hb) (ht.holds_mem hr)
      ?_ rfl rfl, ?_, ?_⟩, fun b hb => hs b (hsub.subset hb)⟩
    · -- a parent has a lower number
      intro heq
      obtain ⟨p, hp, hnum⟩ := ht.parent r hr
      have hpr := (holds_of_getBlockHeader hp).eq_of_id (ht.holds_mem hr)
        ((getBlockHeader_some hp).1.trans heq)
      rw [hpr] at hnum
      omega
    · -- the undo states of the blocks above the new root stay
      obtain ⟨mid, db₁, us1, us2, hlow, hup, hundo, hlen⟩ := applies_split happ
      cases hlow with
      | cons hlow' hrapp =>
        refine ⟨u, db₁, hl.upper.mono ?_, ?_⟩
        · intro x hx
          obtain ⟨u1, u2, hu⟩ := append_of_mem hx
          have hxm := hl.mem x (mem_append_left _ hx)
          have hpath := hl.upper
          rw [hu] at hpath
          refine (hmem x).mpr ⟨hxm, under_iff_path.mpr ⟨_, hpath.suffix⟩, ?_⟩
          intro heq
          have hnum := hpath.suffix.blockNum_eq ht (ht.holds_mem hr) (ht.holds_mem hxm)
          rw [ht.ranked.eq_of_id hxm hr heq, length_cons] at hnum
          omega
        · show Applies env false _ r db₁ u c.head c.db (c.undo.take u.length)
          rw [hundo, ← hlen, take_left]
          exact hup
    · refine ⟨?_, fun hnone => (nomatch hnone)⟩
      rintro id num ⟨⟩
      exact ⟨rfl, rfl⟩

/-- `log_irreversible` keeps the heads in step. -/
theorem InStep.stepped_log (hmode : env.readMode ≠ .irreversible) (hs : Settled c.forkDb) :
    Stepped env num (logIrreversible env light c) := by
  obtain ⟨l, db₀, hl, -⟩ := h.applied
  obtain ⟨-, hvalid⟩ := h.sound.path_valid hl h.head_valid
  obtain ⟨c', hok, hmove⟩ :
      ∃ c', logIrreversible env light c = .ok () c' ∧ RootMoves c l c' :=
    logIrreversible_ok hmode h.sound.tree h.log h.heads hl hvalid
  exact ⟨c', .inl hok, h.rootMoves hs hl hmove⟩

/-- What lies below and above a fork point. -/
theorem InStep.forkPoint (hb : Branches c.forkDb n c.head base first second) :
    ∃ m dbr db₀ us rest, Lineage c.forkDb.index c.forkDb.root.id base.id m ∧
      Applies env false (fun _ => .validated) c.forkDb.root dbr m base db₀ rest ∧
      Applies env false (fun _ => .validated) base db₀ second c.head c.db us ∧
      c.undo = us ++ rest := by
  have ht := h.sound.tree
  obtain ⟨l, dbr, hl, happ⟩ := h.applied
  obtain ⟨m, hm⟩ := ht.path base.blockNum base (Nat.le_refl _) hb.holds
  rw [Lineage.unique ht.ranked hl (hb.pathSecond.append hm)] at happ
  obtain ⟨mid, db₀, us, rest, hlow, hup, hundo, -⟩ := applies_split happ
  have hmid : mid = base := (hlow.end_holds ht hm holds_root).eq_of_id hb.holds
    (hlow.end_id hm).symm
  subst hmid
  exact ⟨m, dbr, db₀, us, rest, hm, hlow, hup, hundo⟩

/-! ## Switching to the best block -/

/-- The head is no other block to switch to. -/
theorem InStep.maybeSwitchForks_head :
    maybeSwitchForks env c.forkDb.head .complete light c = .ok () c := by
  have hne : c.forkDb.head.prev ≠ c.head.id := by
    rw [h.heads]
    rcases h.sound.tree.head.cases with hroot | hmem
    · rw [hroot]
      exact h.sound.rootPrev
    · intro heq
      obtain ⟨p, hp, hnum⟩ := h.sound.tree.parent _ hmem
      have hph := (holds_of_getBlockHeader hp).eq_of_id h.sound.tree.head
        ((getBlockHeader_some hp).1.trans heq)
      rw [hph] at hnum
      omega
  unfold maybeSwitchForks
  rw [get_bind, if_neg hne, if_neg (by rw [h.heads]; exact fun hne => hne rfl)]
  rfl

variable (hn : n ∈ c.forkDb.index) (hv : c.forkDb.validated n.id = false)
include hn hv

/-- A new branch leads to the unvalidated best block. -/
theorem InStep.first_eq (hb : Branches c.forkDb n c.head base first second) :
    ∃ l, first = n :: l ∧ ∀ b ∈ l, b ∈ c.forkDb.index ∧ b.id ≠ n.id := by
  have ht := h.sound.tree
  have hpath := hb.pathFirst
  cases first with
  | nil =>
    have hbase := (h.sound.path_valid hb.pathSecond h.head_valid).1
    rw [← hpath.eq_of_nil, hv] at hbase
    exact nomatch hbase
  | cons b l =>
    obtain ⟨hbm, hid, hl⟩ := hpath.tail
    have hbn := ht.ranked.eq_of_id hbm hn hid.symm
    subst hbn
    refine ⟨l, rfl, fun x hx => ⟨hl.mem x hx, ?_⟩⟩
    exact Ne.symm (hpath.ids_ne ht.ranked x hx)

variable (hbest : Best c.forkDb n)
include hbest

/-- The new branch up to a block that throws: that block is removed and the
    old head stays. -/
theorem InStep.reverted {later applied : List (BlockState τ)} {failing : BlockState τ}
    (hb : Branches c.forkDb n c.head base (later ++ failing :: applied) second) :
    ¬ Under c.forkDb failing.id (markAll c.forkDb applied).head.id ∧
      InStep env num
        { c with forkDb := prune (markAll c.forkDb applied) failing.id } ∧
      Settled (prune (markAll c.forkDb applied) failing.id) := by
  have ht := h.sound.tree
  obtain ⟨l, hfirst, hl⟩ := h.first_eq hn hv hb
  have happlied : ∀ b ∈ applied, b ∈ c.forkDb.index ∧ b.id ≠ n.id := by
    intro b hbm
    refine hl b ?_
    cases later with
    | nil =>
      rw [← (List.cons.inj hfirst).2]
      exact hbm
    | cons y later =>
      rw [← (List.cons.inj hfirst).2]
      exact mem_append_right _ (mem_cons_of_mem _ hbm)
  have hnot := hb.not_under_second ht
  have hnot' : ¬ Under c.forkDb failing.id c.forkDb.head.id := by
    rw [← h.heads]
    exact hnot
  have hbase := (h.sound.path_valid hb.pathSecond h.head_valid).1
  have hsound := h.sound.validate hb.pathFirst.suffix.tail.2.2 hbase
  rw [markAll_of_ne hbest hv happlied]
  refine ⟨hnot', ⟨h.heads, hsound.prune hnot', ?_, ⟨h.log.head, h.log.empty⟩⟩, ?_⟩
  · obtain ⟨l', db₀, hl', happ⟩ := h.applied
    refine ⟨l', db₀, hl'.mono ?_, happ⟩
    intro x hx
    refine mem_prune.mpr ⟨hl'.mem x hx, ?_⟩
    intro hunder
    -- the head would be in the subtree as well
    obtain ⟨u, v, rfl⟩ := append_of_mem hx
    exact hnot (Relation.ReflTransGen.trans hunder (under_iff_path.mpr ⟨u, hl'.upper⟩))
  · intro b hbm _
    obtain ⟨hbi, hbu⟩ := mem_prune.mp hbm
    refine hbest b hbi ?_
    intro hid
    rw [hid] at hbu
    exact hbu (under_iff_path.mpr ⟨later, hb.pathFirst.upper⟩)

/-- The old head is no ancestor of the best block but its parent. -/
theorem InStep.second_ne_nil (hdirect : n.prev ≠ c.head.id)
    (hb : Branches c.forkDb n c.head base first second) : second ≠ [] := by
  have ht := h.sound.tree
  rintro rfl
  obtain ⟨l, rfl, hl⟩ := h.first_eq hn hv hb
  have hbase : c.head.id = base.id := hb.pathSecond.eq_of_nil
  have hpath := hb.pathFirst.tail.2.2
  rw [← hbase] at hpath
  cases l with
  | nil => exact hdirect hpath.eq_of_nil
  | cons q l =>
    -- the parent is above the head with a higher number and no lower LIB
    obtain ⟨hqm, hqne⟩ := hl q mem_cons_self
    have hqid := hpath.tail.2.1
    rw [hqid] at hpath
    have hnum := hpath.blockNum_eq ht h.holds_head (ht.holds_mem hqm)
    have hlib := h.sound.lib_le hpath h.holds_head (ht.holds_mem hqm)
    have hnot := hbest q hqm hqne
    rw [length_cons] at hnum
    rw [← h.heads, Bool.eq_false_iff, ne_eq, firstPreferred_iff] at hnot
    omega

variable (hr : Replayable env) (hpref : firstPreferred n c.forkDb.head = true)
include hr hpref

/-- The new branch applied as a whole: its last block becomes both heads. -/
theorem InStep.switched (hb : Branches c.forkDb n c.head base first second)
    {status : BlockState τ → BlockStatus} {m : List (BlockState τ)} {dbr db₀ db : σ}
    {x : BlockState τ} {us rest : List σ}
    (hm : Lineage c.forkDb.index c.forkDb.root.id base.id m)
    (hlow : Applies env false (fun _ => .validated) c.forkDb.root dbr m base db₀ rest)
    (happ : Applies env light status base db₀ first x db us) :
    InStep env num { c with forkDb := markAll c.forkDb first, head := x, db := db,
                            undo := us ++ rest } ∧
      Settled (markAll c.forkDb first) := by
  have ht := h.sound.tree
  obtain ⟨l, rfl, hl⟩ := h.first_eq hn hv hb
  have hx : x = n := by
    cases happ
    rfl
  subst hx
  have hbase := (h.sound.path_valid hb.pathSecond h.head_valid).1
  have hsound := h.sound.validate hb.pathFirst hbase
  have hxv : (validate c.forkDb (x :: l)).validated x.id = true := by
    simp [validate]
  rw [markAll_best ht.ids hbest hn hv hpref hl]
  refine ⟨⟨rfl, hsound.withHead hn hxv, ?_, ⟨h.log.head, h.log.empty⟩⟩, ?_⟩
  · refine ⟨(x :: l) ++ m, dbr, hb.pathFirst.append hm, ?_⟩
    exact applies_append hlow (applies_replay hr false happ)
  · intro b hbm _
    show firstPreferred b x = false
    by_cases hid : b.id = x.id
    · rw [ht.ranked.eq_of_id hbm hn hid]
      exact firstPreferred_irrefl x
    · exact firstPreferred_asymm (firstPreferred_of_not hpref (hbest b hbm hid))

variable (hmode : env.readMode ≠ .irreversible)
include hmode

/-- The best block is a child of the head. -/
theorem InStep.stepped_direct (hdirect : n.prev = c.head.id) :
    Stepped env num (maybeSwitchForks env n .complete light c) := by
  have ht := h.sound.tree
  have hb := branches_direct h.holds_head hn hdirect
  cases happ : env.applyBlock light .complete c.head c.db n with
  | ok db =>
    obtain ⟨m, dbr, db₀, us, rest, hm, hlow, hup, hundo⟩ := h.forkPoint hb
    cases hup
    have hone : Applies env light (fun _ => .complete) c.head c.db [n] n db [c.db] :=
      Applies.cons Applies.nil happ
    obtain ⟨hin, hset⟩ := h.switched hn hv hbest hr hpref hb hm hlow hone
    unfold maybeSwitchForks
    rw [get_bind, if_pos hdirect, bind_ok (attempt_ok (advanceTo_ok ht hn happ)), hundo]
    exact hin.stepped_log hmode hset
  | error e =>
    obtain ⟨hnot, hin, hset⟩ := h.reverted hn hv hbest
      (show Branches c.forkDb n c.head c.head ([] ++ n :: []) [] from hb)
    rw [maybeSwitchForks_direct hdirect happ, bind_ok (onForkDb_ok (remove_eq ht.ranked hnot))]
    exact ⟨_, .inr ⟨e, rfl⟩, hin, hset⟩

/-- The best block is on another branch. -/
theorem InStep.stepped_switch (hdirect : n.prev ≠ c.head.id) :
    Stepped env num (maybeSwitchForks env n .complete light c) := by
  have ht := h.sound.tree
  have hcomp := h.sound.complete
  have hnew := ht.holds_mem hn
  have hne : n.id ≠ c.head.id := by
    intro heq
    have hvalid := h.head_valid
    rw [← heq, hv] at hvalid
    exact nomatch hvalid
  obtain ⟨base, first, second, -, hb⟩ := fetchBranchFrom_eq ht hnew h.holds_head
  obtain ⟨m, dbr, db₀, us, rest, hm, hlow, hup, hundo⟩ := h.forkPoint hb
  have hold := applies_replay hr light hup
  rcases applies_or_fails env light (loopStatus c.forkDb) base db₀ first with
    ⟨x, db, us', happ⟩ | ⟨later, failing, applied, x, db, us', e, rfl, happ, hfails⟩
  · obtain ⟨hin, hset⟩ := h.switched hn hv hbest hr hpref hb hm hlow happ
    have hloop := switchLoop_run ht second happ []
      { c with head := base, db := db₀, undo := rest } rfl rfl rfl ⟨_, hb.pathFirst⟩
    rw [append_nil] at hloop
    rw [maybeSwitchForks_branches ht hcomp hb hold hundo h.holds_head hnew hne hdirect,
      bind_ok hloop]
    exact hin.stepped_log hmode hset
  · have hstatus : switchStatus c n .complete = loopStatus c.forkDb := by
      funext b
      exact if_neg hdirect
    let w : FailedSwitch env light .complete c n :=
      { base := base, db₀ := db₀, second := second, oldUndo := us, rest := rest,
        later := later, failing := failing, applied := applied, lastHead := x,
        lastDb := db, newUndo := us', thrown := e, branches := hb, oldApplies := hold,
        undo := hundo, newApplies := hstatus.symm ▸ happ, fails := hstatus.symm ▸ hfails }
    obtain ⟨hnot, hin, hset⟩ := h.reverted hn hv hbest hb
    have hsecond := h.second_ne_nil hn hv hbest hdirect hb
    rw [w.maybeSwitchForks_eq ht hcomp h.holds_head hnew hne hdirect
      (w.revert_ok ht hcomp hnot hsecond)]
    exact ⟨_, .inr ⟨e, rfl⟩, hin, hset⟩

end

end Step

/-! ## Pushing blocks -/

section Push

variable {env : ControllerEnv τ σ} {c : Controller τ σ} {b : SignedBlock τ}

/-- `create_block_state_future` throws, or completes a header state on a known
    parent. -/
theorem createBlockState_cases (env : ControllerEnv τ σ) (b : SignedBlock τ)
    (c : Controller τ σ) :
    (∃ e, createBlockState env b c = .error (.exc e) c) ∨
    ∃ p bhs, createBlockState env b c = .ok { bhs with block := some b } c ∧
      getBlock c.forkDb (env.header.id b.header) = none ∧
      getBlockHeader c.forkDb b.header.previous = some p ∧
      nextHeader env.header p.toBlockHeaderState b.header = .ok bhs := by
  unfold createBlockState
  rw [get_bind]
  by_cases hnew : (getBlock c.forkDb (env.header.id b.header)).isNone = true
  · rw [bind_ok (ensure_pos hnew _ _ c)]
    cases hp : getBlockHeader c.forkDb b.header.previous with
    | none => exact .inl ⟨_, rfl⟩
    | some p =>
      dsimp only
      by_cases hroot : b.header.transactionMroot = env.transactionMroot b.transactions
      · rw [bind_ok (ensure_pos hroot _ _ c)]
        cases hnext : nextHeader env.header p.toBlockHeaderState b.header with
        | error e => exact .inl ⟨e, rfl⟩
        | ok bhs =>
          rw [bind_ok (show liftFc (.ok bhs) c = .ok bhs c from rfl)]
          cases hsig : env.checkSignee bhs b with
          | error e => exact .inl ⟨e, rfl⟩
          | ok _ => exact .inr ⟨p, bhs, rfl, Option.isNone_iff_eq_none.mp hnew, rfl, hnext⟩
      · exact .inl ⟨_, bind_error (ensure_neg hroot _ _ c)⟩
  · exact .inl ⟨_, bind_error (ensure_neg hnew _ _ c)⟩

/-- What a push must find for the heads to stay in step: no validated block is
    before the fork database's head, and the block does not take the LIB of
    its parent back. -/
structure Guard (c : Controller τ σ) (b : SignedBlock τ) : Prop where
  untied : Untied c.forkDb
  lib : ∀ p, getBlockHeader c.forkDb b.header.previous = some p →
    p.dposIrreversibleBlocknum ≤
      calcDposLastIrreversible p.toBlockHeaderState b.header.producer
  blockNum : ∀ p, getBlockHeader c.forkDb b.header.previous = some p →
    p.blockNum + 1 < 2 ^ 32

instance (c : Controller τ σ) (b : SignedBlock τ) : Decidable (Guard c b) :=
  decidable_of_iff ((∀ x ∈ byLibFirst c.forkDb, c.forkDb.validated x.id = true →
      x.id = c.forkDb.head.id) ∧
    ∀ p ∈ getBlockHeader c.forkDb b.header.previous, p.dposIrreversibleBlocknum ≤
      calcDposLastIrreversible p.toBlockHeaderState b.header.producer ∧ p.blockNum + 1 < 2 ^ 32)
    ⟨fun h => ⟨h.1, fun p hp => (h.2 p hp).1, fun p hp => (h.2 p hp).2⟩,
      fun h => ⟨h.untied, fun p hp => ⟨h.lib p hp, h.blockNum p hp⟩⟩⟩

/-- The block ids of a chain encode block numbers: `block_header::id` writes
    the number after the one in `previous`. -/
def IdsNumbered (env : ControllerEnv τ σ) (num : BlockId → Nat) : Prop :=
  ∀ h, num (env.header.id h) = addU32 (num h.previous) 1

/-- The state of a pushed block extends its parent. -/
theorem extends_of_next (hid : IdsNumbered env num) (hs : SoundDb num c.forkDb)
    (hg : Guard c b) {p : BlockState τ} {bhs : BlockHeaderState}
    (hnone : getBlock c.forkDb (env.header.id b.header) = none)
    (hp : getBlockHeader c.forkDb b.header.previous = some p)
    (hnext : nextHeader env.header p.toBlockHeaderState b.header = .ok bhs) :
    Extends num c.forkDb p { bhs with block := some b } := by
  obtain ⟨pend, hpend, hfinish⟩ := except_bind_ok hnext
  obtain ⟨hproducer, _, _, -, hbhs⟩ := finishNext_ok hfinish
  have hbid := congrArg BlockHeaderState.id hbhs
  have hheader := congrArg BlockHeaderState.header hbhs
  obtain ⟨a, hext, hname, -⟩ := extended_of_step hpend hfinish
  have hnum : bhs.blockNum = p.blockNum + 1 := by
    rw [hext.num, addU32_of_lt (hg.blockNum p hp)]
  refine ⟨?_, ?_, hnum, ?_, ?_, rfl⟩
  · show getBlockHeader c.forkDb bhs.header.previous = some p
    rw [hheader]
    exact hp
  · show getBlock c.forkDb bhs.id = none
    rw [hbid]
    exact hnone
  · show num bhs.id = bhs.blockNum
    have hprev := hs.numbered p (holds_of_getBlockHeader hp)
    rw [hbid, hid, ← (getBlockHeader_some hp).1, hprev, hext.num]
  · show p.dposIrreversibleBlocknum ≤ bhs.dposIrreversibleBlocknum
    rw [hext.lib, ← hname, ← hproducer]
    exact hg.lib p hp

/-- **ONE PUSH** keeps the heads in step, whether it returns or throws. -/
theorem pushBlock_stepped (hmode : env.readMode ≠ .irreversible) (hr : Replayable env)
    (hid : IdsNumbered env num) (h : InStep env num c) (hs : Settled c.forkDb)
    (hg : Guard c b) : Stepped env num (pushBlock env b c) := by
  unfold pushBlock
  rcases createBlockState_cases env b c with ⟨e, he⟩ | ⟨p, bhs, hok, hnone, hp, hnext⟩
  · rw [bind_error he]
    exact ⟨c, .inr ⟨e, rfl⟩, h, hs⟩
  · have hx := extends_of_next hid h.sound hg hnone hp hnext
    generalize hn : ({ bhs with block := some b } : BlockState τ) = n at hok hx
    have hadd : add n false c.forkDb = .ok () (added c.forkDb n) := by
      unfold add addState
      rw [get_bind, hx.parent, hx.fresh, ← inserted_eq h.sound.tree hg.untied
        fun _ hb => hx.ne_of_mem hb]
      rfl
    have hbest := best_added h.sound.tree hg.untied hs n
    have hsound := h.sound.added hx
    have hmem : n ∈ (added c.forkDb n).index := mem_append_right _ (by simp)
    have hflag : (added c.forkDb n).validated n.id = false := if_pos rfl
    have hin : InStep env num { c with forkDb := added c.forkDb n } := by
      obtain ⟨l, db₀, hl, happ⟩ := h.applied
      refine ⟨h.heads, hsound, ⟨l, db₀, hl.mono ?_, happ⟩, ⟨h.log.head, h.log.empty⟩⟩
      exact fun x hx => mem_append_left _ (hl.mem x hx)
    rw [bind_ok hok, bind_ok (onForkDb_ok hadd), get_bind, if_pos hmode]
    show Stepped env num (maybeSwitchForks env (pendingHead (added c.forkDb n)) _ _ _)
    rw [pendingHead_eq hsound.tree.ids hbest hmem hflag]
    by_cases hpref : firstPreferred n (added c.forkDb n).head = true
    · rw [if_pos hpref]
      by_cases hdirect : n.prev = c.head.id
      · exact hin.stepped_direct hmem hflag hbest hr hpref hmode hdirect
      · exact hin.stepped_switch hmem hflag hbest hr hpref hmode hdirect
    · rw [if_neg hpref]
      refine ⟨_, .inl hin.maybeSwitchForks_head, hin, ?_⟩
      intro x hxm _
      by_cases hxn : x.id = n.id
      · rw [hsound.tree.ranked.eq_of_id hxm hmem hxn]
        exact Bool.eq_false_iff.mpr hpref
      · exact hbest x hxm hxn

/-- The controller after a push that returned or threw. -/
def afterPush (env : ControllerEnv τ σ) (c : Controller τ σ) (b : SignedBlock τ) : Controller τ σ :=
  match pushBlock env b c with
  | .ok _ c' => c'
  | .error _ c' => c'

/-- Runs of `push_block` calls that all meet a condition. -/
inductive Pushes (env : ControllerEnv τ σ) (guard : Controller τ σ → SignedBlock τ → Prop)
    (c₀ : Controller τ σ) : Controller τ σ → Prop where
  | start : Pushes env guard c₀ c₀
  | push {c : Controller τ σ} (b : SignedBlock τ) :
      Pushes env guard c₀ c → guard c b → Pushes env guard c₀ (afterPush env c b)

theorem Stepped.afterPush (h : Stepped env num (pushBlock env b c)) :
    InStep env num (afterPush env c b) ∧ Settled (afterPush env c b).forkDb := by
  obtain ⟨c', hout, hin⟩ := h
  unfold ForkHead.afterPush
  rcases hout with hout | ⟨e, hout⟩
  · rw [hout]
    exact hin
  · rw [hout]
    exact hin

/-- **HEADS IN STEP**: in every run of pushes that meet no tie and no falling
    LIB the controller's head is the fork database's head. -/
theorem heads_in_step {c₀ : Controller τ σ} (hmode : env.readMode ≠ .irreversible)
    (hr : Replayable env) (hid : IdsNumbered env num) (h₀ : InStep env num c₀)
    (hs₀ : Settled c₀.forkDb) (hrun : Pushes env Guard c₀ c) : c.head = c.forkDb.head := by
  have hinv : InStep env num c ∧ Settled c.forkDb := by
    induction hrun with
    | start => exact ⟨h₀, hs₀⟩
    | push b _ hg ih =>
      exact (pushBlock_stepped hmode hr hid ih.1 ih.2 hg).afterPush
  exact hinv.1.heads

end Push

/-! ## Two runs from genesis -/

/-- A block id is the block's number, followed by three digits of its
    timestamp. -/
def numberedHeader : HeaderEnv :=
  { plainEnv with
    id := fun h => (h.previous / 1000 + 1) * 1000 + h.timestamp % 1000 }

def numFromId (id : BlockId) : Nat := id / 1000 % 2 ^ 32

variable (bad : List BlockId)

/-- Applying a block records its id; the listed ones throw. -/
def numberedEnv : ControllerEnv Unit (List BlockId) :=
  { recordingEnv bad with header := numberedHeader }

theorem idsNumbered_numberedEnv : IdsNumbered (numberedEnv bad) numFromId := by
  intro h
  show ((h.previous / 1000 + 1) * 1000 + h.timestamp % 1000) / 1000 % 2 ^ 32 =
    (h.previous / 1000 % 2 ^ 32 + 1) % 2 ^ 32
  omega

theorem replayable_numberedEnv : Replayable (numberedEnv bad) :=
  fun _ _ _ _ _ _ happ _ => happ

/-- The genesis block of a chain of four producers. -/
def genesisBlock : BlockState Unit :=
  { genesisState numberedHeader 0 [⟨HeaderQuorum.producerA, []⟩, ⟨HeaderQuorum.producerB, []⟩,
      ⟨HeaderQuorum.producerC, []⟩, ⟨HeaderQuorum.producerD, []⟩] 0 with
    block := some ⟨{}, ()⟩ }

def atGenesis : Controller Unit (List BlockId) where
  forkDb := { index := [], validated := fun i => decide (i = 1000), root := genesisBlock,
              head := genesisBlock }
  head := genesisBlock
  db := []
  undo := []
  blog := ⟨some (1000, 1), 1⟩

theorem inStep_atGenesis :
    InStep (numberedEnv bad) numFromId atGenesis ∧ Settled atGenesis.forkDb := by
  refine ⟨⟨rfl, ⟨⟨nodup_nil, ?_, ?_, rfl⟩, ?_, ?_, by decide, rfl, ?_, ?_⟩,
    ⟨[], [], Lineage.refl, Applies.nil⟩, ⟨?_, fun h => (nomatch h)⟩⟩, ?_⟩
  · exact fun b hb => (nomatch hb)
  · exact fun b hb => (nomatch hb)
  · exact fun b hb => (nomatch hb)
  · intro b hb
    rcases hb.cases with rfl | hb
    · rfl
    · exact nomatch hb
  · exact fun b hb => (nomatch hb)
  · exact fun b hb => (nomatch hb)
  · rintro id num ⟨⟩
    exact ⟨rfl, rfl⟩
  · exact fun b hb => (nomatch hb)

/-- A block of the first producer. -/
def blockOn (previous : BlockId) (timestamp : Nat) : SignedBlock Unit :=
  ⟨{ timestamp := timestamp, producer := HeaderQuorum.producerA, confirmed := 0,
     previous := previous }, ()⟩

/-- **COUNTEREXAMPLE**: block 2008 is the head and 2004 its unvalidated rival.
    A child of 2004 makes the node switch and throws, which leaves 2004
    validated; then a child of 2008 throws, after `add` has made 2004 the fork
    database's head. -/
theorem heads_part_after_tie :
    ∃ c, InStep (numberedEnv [3012, 3016]) numFromId atGenesis ∧
      Settled atGenesis.forkDb ∧
      Pushes (numberedEnv [3012, 3016]) (fun _ _ => True) atGenesis c ∧
      c.head.id = 2008 ∧ c.forkDb.head.id = 2004 := by
  obtain ⟨hin, hset⟩ := inStep_atGenesis [3012, 3016]
  have hrun : Pushes (numberedEnv [3012, 3016]) (fun _ _ => True) atGenesis _ :=
    Pushes.push (blockOn 2008 16) (Pushes.push (blockOn 2004 12)
      (Pushes.push (blockOn 1000 4) (Pushes.push (blockOn 1000 8) Pushes.start
        trivial) trivial) trivial) trivial
  exact ⟨_, hin, hset, hrun, by decide +kernel, by decide +kernel⟩

/-- A rival of the head, a child of the rival that fails in the switch to it,
    and another child that the node does switch to. -/
theorem heads_in_step_failed_switch :
    ∃ c, Pushes (numberedEnv [3012]) Guard atGenesis c ∧ c.head.id = 3016 ∧
      c.head.header.previous = 2008 ∧ c.head = c.forkDb.head := by
  have hrun : Pushes (numberedEnv [3012]) Guard atGenesis _ :=
    Pushes.push (blockOn 2008 16) (Pushes.push (blockOn 2008 12)
      (Pushes.push (blockOn 1000 8) (Pushes.push (blockOn 1000 4) Pushes.start
        (by decide +kernel)) (by decide +kernel)) (by decide +kernel)) (by decide +kernel)
  obtain ⟨hin, hset⟩ := inStep_atGenesis [3012]
  exact ⟨_, hrun, by decide +kernel, by decide +kernel,
    heads_in_step (by decide) (replayable_numberedEnv _) (idsNumbered_numberedEnv _) hin hset hrun⟩

end ForkHead
