import EosForce.ForkEditProofs

/-! # Runs of calls to the fork database

    Every operation of `fork_database` is a call here, and a run is any
    sequence of calls that return.  Each operation moves the head by a rule of
    its own: `add` and `mark_valid` look at the first element of the ordered
    index, `remove` refuses to take the head away, `rollback_head_to_root` and
    `reset` fall back to the root.  What they agree on is that the head is the
    root or a validated block that no validated block is preferred to. -/

namespace ForkCalls

open ChainTypes HeaderState Effect ForkDatabase ForkTree ForkRevert ForkRoot ForkOrder ForkEdit

variable {τ : Type}

/-- The calls that change a fork database: the edits, and the two that fall
    back to a root. -/
inductive DbCall (τ : Type) where
  | reset (rootBhs : BlockHeaderState)
  | edit (e : Edit τ)
  | rollbackHeadToRoot

def DbCall.perform : DbCall τ → ForkM τ Unit
  | .reset rootBhs => ForkDatabase.reset rootBhs
  | .edit e => e.run
  | .rollbackHeadToRoot => ForkDatabase.rollbackHeadToRoot

/-- What a caller owes: ids identify blocks, so a block's number follows from
    its id; a block is built on its predecessor; and the root is advanced
    along the branch of the head. -/
def DbCall.Owed (num : BlockId → Nat) (f : ForkDb τ) : DbCall τ → Prop
  | .reset rootBhs => rootBhs.blockNum = num rootBhs.id
  | .edit (.add n _ _) => n.blockNum = num n.id ∧
      ∀ p, getBlockHeader f n.prev = some p → n.blockNum = p.blockNum + 1
  | .edit (.advanceRoot id) => Under f id f.head.id
  | _ => True

/-- **RUNS**: a database that was reset, and calls that return. -/
inductive Calls (num : BlockId → Nat) : ForkDb τ → Prop where
  | reset {f₀ f : ForkDb τ} {rootBhs : BlockHeaderState} :
      rootBhs.blockNum = num rootBhs.id → ForkDatabase.reset rootBhs f₀ = .ok () f →
      Calls num f
  | call {f g : ForkDb τ} {c : DbCall τ} :
      Calls num f → c.Owed num f → c.perform f = .ok () g → Calls num g

/-! ## The invariant -/

/-- The invariants, with numbers that follow from the ids. -/
structure Headed (num : BlockId → Nat) (f : ForkDb τ) : Prop extends Consistent f where
  numbered : ∀ b, Holds f b → b.blockNum = num b.id

variable {num : BlockId → Nat} {f g : ForkDb τ}

/-- A head that is not the root is in the index. -/
theorem Headed.head_cases (h : Headed num f) :
    f.head = f.root ∨ f.head ∈ f.index ∧ f.validated f.head.id = true := by
  rcases h.head.cases with hroot | hmem
  · exact .inl hroot
  · exact h.headValid.imp_right fun hv => ⟨hmem, hv⟩

/-- A database with no more blocks, the same flags on them and the same head. -/
theorem Headed.sub (h : Headed num f) (ht : Tree g)
    (hholds : ∀ b, Holds g b → Holds f b) (hsub : ∀ b ∈ g.index, b ∈ f.index)
    (hv : g.validated = f.validated) (hhead : g.head = f.head)
    (hstays : g.head = g.root ∨ g.validated g.head.id = true) : Headed num g := by
  refine ⟨⟨⟨ht, hstays⟩, ?_⟩, fun b hb => h.numbered b (hholds b hb)⟩
  intro b hb hvb
  rw [hv] at hvb
  rw [hhead]
  exact h.best b (hsub b hb) hvb

theorem headed_reset {f0 : ForkDb τ} {rootBhs : BlockHeaderState}
    (hnum : rootBhs.blockNum = num rootBhs.id)
    (h : ForkDatabase.reset rootBhs f0 = .ok () f) : Headed num f := by
  cases h
  refine ⟨⟨⟨⟨List.nodup_nil, nofun, nofun, holds_root⟩, .inl rfl⟩, nofun⟩, ?_⟩
  intro b hb
  rcases hb.cases with rfl | hmem
  · exact hnum
  · exact nomatch hmem

/-- No validated element is preferred to a first element that is validated. -/
theorem preferred_first {c : BlockState τ} (hc : byLibFirst f = some c) :
    ∀ b ∈ f.index, f.validated b.id = true → firstPreferred b c = false :=
  fun _ hb hv => (byLibFirst_of_valid hc hb hv).2

/-- What is not preferred to `c` is not preferred to what `c` is not preferred
    to. -/
theorem not_preferred_trans {a c h : BlockState τ} (hac : firstPreferred a c = false)
    (hch : firstPreferred c h = false) : firstPreferred a h = false := by
  cases ha : firstPreferred a h with
  | false => rfl
  | true =>
    rw [firstPreferred_of_not ha hch] at hac
    exact nomatch hac

/-! ## Each call -/

section

variable (h : Headed num f)
include h

/-- A block that links to the tree has an id that the tree does not hold yet,
    or it is a duplicate in the index. -/
theorem Headed.fresh {n p : BlockState τ} (hn : n.blockNum = num n.id)
    (hp : getBlockHeader f n.prev = some p) (hlink : n.blockNum = p.blockNum + 1)
    (hnew : getBlock f n.id = none) : ∀ b, Holds f b → b.id ≠ n.id := by
  intro b hb hid
  rcases hb.cases with rfl | hmem
  · -- the root is below every block that could carry `n`
    have hroot := h.numbered _ hb
    have hle := h.toTree.root_num_le (holds_of_getBlockHeader hp)
    rw [hid, ← hn] at hroot
    omega
  · rw [← hid, h.toTree.getBlock_mem hmem] at hnew
    exact nomatch hnew

theorem headed_insertedAs {n p : BlockState τ} (v : Bool) (hn : n.blockNum = num n.id)
    (hp : getBlockHeader f n.prev = some p) (hlink : n.blockNum = p.blockNum + 1)
    (hnew : getBlock f n.id = none) : Headed num (insertedAs f n v) := by
  have hfresh := h.fresh hn hp hlink hnew
  have hadded := tree_added h.toTree hp hlink hfresh
  have hcases := insertedAs_head (v := v) hnew
  obtain ⟨head, heq⟩ := insertedAs_eq (f := f) (n := n) (v := v)
  rw [heq] at hcases ⊢
  have hnum : ∀ b, Holds (extended f n v) b → b.blockNum = num b.id := by
    intro b hb
    rcases hb.cases with hroot | hmem
    · rw [hroot]
      exact h.numbered _ holds_root
    · rcases List.mem_append.mp hmem with hmem | hmem
      · exact h.numbered b (h.holds_mem hmem)
      · rw [List.mem_singleton.mp hmem]
        exact hn
  rcases hcases with ⟨x, hx, hfirst, rfl⟩ | ⟨hnone, rfl⟩
  · obtain ⟨hxm, hxv⟩ := (rated_iff hnew).mp hx
    refine ⟨⟨⟨tree_congr hadded rfl rfl (hadded.holds_mem hxm), .inr hxv⟩, ?_⟩, hnum⟩
    intro b hb hvb
    exact (hfirst b ((rated_iff hnew).mpr ⟨hb, hvb⟩)).not_preferred
  · refine ⟨⟨⟨tree_congr hadded rfl rfl hadded.head, ?_⟩, ?_⟩, hnum⟩
    · -- a validated head would be in the index still
      exact .inl (h.head_cases.resolve_right fun hmem => hnone f.head (.inl hmem))
    · intro b hb hvb
      exact absurd ((rated_iff hnew).mpr ⟨hb, hvb⟩) (hnone b)

theorem headed_add {n : BlockState τ} {v ignoreDuplicate : Bool} (hn : n.blockNum = num n.id)
    (hlink : ∀ p, getBlockHeader f n.prev = some p → n.blockNum = p.blockNum + 1)
    (hrun : addState n v ignoreDuplicate f = .ok () g) : Headed num g := by
  rw [addState, get_bind] at hrun
  cases hp : getBlockHeader f n.prev with
  | none =>
    rw [hp] at hrun
    cases hrun
  | some p =>
    rw [hp] at hrun
    cases hdup : getBlock f n.id with
    | some b =>
      rw [hdup] at hrun
      dsimp only at hrun
      split at hrun
      · cases hrun
        exact h
      · cases hrun
    | none =>
      rw [hdup] at hrun
      cases hrun
      exact headed_insertedAs h v hn hp (hlink p hp) hdup

theorem headed_marked {b : BlockState τ} (hb : b ∈ f.index) : Headed num (marked f b.id) := by
  obtain ⟨c, hcm, hc, hcv, -⟩ := byLibFirst_setValidated hb
  unfold marked
  dsimp only
  rw [hc]
  by_cases hpref : firstPreferred c (setValidated f b.id true).head = true
  · simp only [hpref, if_true]
    exact ⟨⟨⟨tree_congr h.toTree rfl rfl (h.holds_mem hcm), .inr hcv⟩, preferred_first hc⟩,
      h.numbered⟩
  · simp only [hpref, Bool.false_eq_true, if_false]
    refine ⟨⟨⟨tree_congr h.toTree rfl rfl h.head, ?_⟩, fun x hx hvx => ?_⟩, h.numbered⟩
    · exact h.headValid.imp_right validated_setValidated
    · exact not_preferred_trans (preferred_first hc x hx hvx) (by simpa using hpref)

theorem headed_markValid {b : BlockState τ} (hrun : ForkDatabase.markValid b f = .ok () g) :
    Headed num g := by
  rw [ForkDatabase.markValid, get_bind] at hrun
  split at hrun
  · cases hrun
    exact h
  · cases hget : getBlock f b.id with
    | none =>
      rw [hget] at hrun
      cases hrun
    | some c =>
      rw [hget] at hrun
      cases hrun
      obtain ⟨hc, hid⟩ := getBlock_some hget
      rw [← hid]
      exact headed_marked h hc

theorem headed_remove {id : BlockId} (hrun : ForkDatabase.remove id f = .ok () g) :
    Headed num g := by
  by_cases hu : Under f id f.head.id
  · rw [remove_stopped h.toTree.ranked hu] at hrun
    cases hrun
  · rw [remove_eq h.toTree.ranked hu] at hrun
    cases hrun
    refine h.sub (tree_prune h.toTree hu) ?_ (fun b hb => (mem_prune.mp hb).1) rfl rfl ?_
    · intro b hb
      rcases hb.cases with hroot | hmem
      · rw [hroot]
        exact holds_root
      · exact h.toTree.holds_mem (mem_prune.mp hmem).1
    · exact h.headValid

theorem headed_rollback (hrun : ForkDatabase.rollbackHeadToRoot f = .ok () g) : Headed num g := by
  cases hrun
  refine ⟨⟨⟨tree_congr h.toTree rfl rfl holds_root, .inl rfl⟩, fun b hb hv => ?_⟩, h.numbered⟩
  have hmem : b.id ∈ f.index.map (·.id) := List.mem_map_of_mem hb
  have hflag : (f.validated b.id && !decide (b.id ∈ f.index.map (·.id))) = true := hv
  rw [decide_eq_true hmem, Bool.not_true, Bool.and_false] at hflag
  exact nomatch hflag

theorem headed_advanceRoot {id : BlockId} (hu : Under f id f.head.id)
    (hrun : ForkDatabase.advanceRoot id f = .ok () g) : Headed num g := by
  cases hget : getBlock f id with
  | none =>
    rw [ForkDatabase.advanceRoot, get_bind, hget] at hrun
    cases hrun
  | some r =>
    obtain ⟨hr, rfl⟩ := getBlock_some hget
    by_cases hv : f.validated r.id = true
    · obtain ⟨idx, heq, hsub, hmem⟩ := advanceRoot_eq h.toTree hr hv hu
      rw [heq] at hrun
      cases hrun
      refine h.sub (tree_advanced h.toTree hr hu hsub hmem) ?_ (fun b hb => hsub.subset hb)
        rfl rfl ?_
      · intro b hb
        rcases hb.cases with hroot | hb'
        · rw [hroot]
          exact h.toTree.holds_mem hr
        · exact h.toTree.holds_mem (hsub.subset hb')
      · refine h.headValid.imp_left fun hroot => ?_
        -- the old root does not descend from the new one
        rw [hroot] at hu
        obtain ⟨p, hp, hnum⟩ := h.parent r hr
        have hle := h.root_num_le (holds_of_getBlockHeader hp)
        exact absurd hu (h.not_under_of_num_lt (h.holds_mem hr) holds_root (by omega))
    · rw [ForkDatabase.advanceRoot, get_bind, hget] at hrun
      dsimp only at hrun
      rw [bind_error (ensure_neg hv _ _ f)] at hrun
      cases hrun

/-! ## Runs -/

theorem headed_call {c : DbCall τ} (ho : c.Owed num f) (hrun : c.perform f = .ok () g) :
    Headed num g := by
  cases c with
  | reset rootBhs => exact headed_reset ho hrun
  | edit e =>
    cases e with
    | add n v ignoreDuplicate => exact headed_add h ho.1 ho.2 hrun
    | markValid b => exact headed_markValid h hrun
    | remove id => exact headed_remove h hrun
    | advanceRoot id => exact headed_advanceRoot h ho hrun
  | rollbackHeadToRoot => exact headed_rollback h hrun

end

theorem headed_run (h : Calls num f) : Headed num f := by
  induction h with
  | reset hnum hrun => exact headed_reset hnum hrun
  | call _ ho hrun ih => exact headed_call ih ho hrun

/-- No block of the index is preferred to the pending head. -/
theorem pendingHead_preferred
    (hpref : ∀ b ∈ f.index, f.validated b.id = true → firstPreferred b f.head = false) :
    ∀ b ∈ f.index, firstPreferred b (pendingHead f) = false := by
  intro b hb
  unfold pendingHead
  cases hx : (f.index.filter fun b => !f.validated b.id).argmin (byLibKey f.validated) with
  | none =>
    -- everything is validated
    have hnone := List.argmin_eq_none.mp hx
    refine hpref b hb ?_
    by_contra hv
    have hmem : b ∈ f.index.filter fun b => !f.validated b.id :=
      List.mem_filter.mpr ⟨hb, by simpa using hv⟩
    rw [hnone] at hmem
    exact nomatch hmem
  | some x =>
    obtain ⟨-, hxv⟩ := List.mem_filter.mp (List.argmin_mem hx)
    have hxv' : f.validated x.id = false := by simpa using hxv
    have hunvalidated : f.validated b.id = false → firstPreferred b x = false := by
      intro hv
      have hmem : b ∈ f.index.filter fun b => !f.validated b.id :=
        List.mem_filter.mpr ⟨hb, by rw [hv]; rfl⟩
      exact firstPreferred_of_byLibKey (List.le_of_mem_argmin hmem hx) (hxv'.trans hv.symm)
    dsimp only
    cases hp : firstPreferred x f.head with
    | true =>
      rw [if_pos rfl]
      cases hv : f.validated b.id with
      | false => exact hunvalidated hv
      | true => exact not_preferred_trans (hpref b hb hv) (firstPreferred_asymm hp)
    | false =>
      rw [if_neg Bool.false_ne_true]
      cases hv : f.validated b.id with
      | false => exact not_preferred_trans (hunvalidated hv) hp
      | true => exact hpref b hb hv

/-- **TREE AND HEAD**: after every run of calls ids are unique, every block
    hangs on the root or on another block with a number one lower, the head is
    the root or validated and no validated block is preferred to it, and no
    block at all to the pending head. -/
theorem fork_database_invariant (h : Calls num f) :
    (f.index.map (·.id)).Nodup ∧
    (∀ b ∈ f.index, ∃ p, (p = f.root ∨ p ∈ f.index) ∧ p.id = b.prev ∧
      b.blockNum = p.blockNum + 1) ∧
    (f.head = f.root ∨ f.head ∈ f.index ∧ f.validated f.head.id = true) ∧
    (∀ b ∈ f.index, f.validated b.id = true → firstPreferred b f.head = false) ∧
    ∀ b ∈ f.index, firstPreferred b (pendingHead f) = false := by
  have hh := headed_run h
  refine ⟨hh.toTree.ids, ?_, hh.head_cases, hh.best, pendingHead_preferred hh.best⟩
  intro b hb
  obtain ⟨p, hp, hnum⟩ := hh.toTree.parent b hb
  obtain ⟨hid, hholds⟩ := getBlockHeader_some hp
  exact ⟨p, hholds, hid, hnum⟩

/-- Block 2 on a root with number 1, marked as valid. -/
theorem fork_database_invariant_marked :
    ∃ f : ForkDb Unit, Calls (fun id => id) f ∧ f.head.id = 2 ∧
      (f.head = f.root ∨ f.head ∈ f.index ∧ f.validated f.head.id = true) := by
  have hroot : ForkDatabase.reset (plainBlock 1 0 1).toBlockHeaderState
      (plainFork [] [] (plainBlock 1 0 1)) = .ok () _ := rfl
  have hreset : Calls (fun id => id) _ := Calls.reset rfl hroot
  have hadded := Calls.call (c := .edit (.add (plainBlock 2 1 2) false false)) hreset
    ⟨rfl, fun p hp => by cases hp; rfl⟩ rfl
  have hmarked := Calls.call (c := .edit (.markValid (plainBlock 2 1 2))) hadded trivial rfl
  exact ⟨_, hmarked, rfl, (fork_database_invariant hmarked).2.2.1⟩

/-! ## Two databases -/

/-- **AGREEMENT**: a database that has validated all that another one has, by
    whatever calls, has a head that the other's is not preferred to, unless a
    LIB fell below that of their root. -/
theorem head_not_behind (hf : Calls num f) (hg : Calls num g) (hroot : f.root = g.root)
    (hmore : ∀ b ∈ f.index, f.validated b.id = true → b ∈ g.index ∧ g.validated b.id = true)
    (hlib : ∀ b ∈ g.index, g.root.dposIrreversibleBlocknum ≤ b.dposIrreversibleBlocknum) :
    firstPreferred f.head g.head = false := by
  have hgh := headed_run hg
  rcases (headed_run hf).head_cases with heq | ⟨hmem, hv⟩
  · have hnum := hgh.toTree.root_num_le hgh.toTree.head
    rw [heq, hroot, ← Bool.not_eq_true, firstPreferred_iff]
    rcases hgh.head_cases with heq | ⟨hmem, -⟩
    · rw [heq]
      omega
    · have hle := hlib _ hmem
      omega
  · obtain ⟨hmem, hv⟩ := hmore _ hmem hv
    exact hgh.best _ hmem hv

/-- Two blocks on the root, validated in one order and in the other: the heads
    differ, and tie. -/
theorem head_not_behind_twins : ∃ f g : ForkDb Unit, f.head.id = 2 ∧ g.head.id = 3 ∧
    f.index.length = 2 ∧ (∀ b ∈ f.index, f.validated b.id = true) ∧
    firstPreferred f.head g.head = false := by
  have hreset : Calls (fun id => min id 2) _ := Calls.reset rfl
    (show ForkDatabase.reset (plainBlock 1 0 1).toBlockHeaderState
      (plainFork [] [] (plainBlock 1 0 1)) = .ok () _ from rfl)
  have hf1 := Calls.call (c := .edit (.add (plainBlock 2 1 2) false false)) hreset
    ⟨rfl, fun p hp => by cases hp; rfl⟩ rfl
  have hf2 := Calls.call (c := .edit (.markValid (plainBlock 2 1 2))) hf1 trivial rfl
  have hf3 := Calls.call (c := .edit (.add (plainBlock 3 1 2) false false)) hf2
    ⟨rfl, fun p hp => by cases hp; rfl⟩ rfl
  have hf := Calls.call (c := .edit (.markValid (plainBlock 3 1 2))) hf3 trivial rfl
  have hg1 := Calls.call (c := .edit (.add (plainBlock 3 1 2) false false)) hreset
    ⟨rfl, fun p hp => by cases hp; rfl⟩ rfl
  have hg2 := Calls.call (c := .edit (.markValid (plainBlock 3 1 2))) hg1 trivial rfl
  have hg3 := Calls.call (c := .edit (.add (plainBlock 2 1 2) false false)) hg2
    ⟨rfl, fun p hp => by cases hp; rfl⟩ rfl
  have hg := Calls.call (c := .edit (.markValid (plainBlock 2 1 2))) hg3 trivial rfl
  refine ⟨_, _, rfl, rfl, rfl, ?_, head_not_behind hf hg rfl ?_ ?_⟩
  · exact List.forall_mem_cons.mpr ⟨rfl, List.forall_mem_singleton.mpr rfl⟩
  · exact List.forall_mem_cons.mpr ⟨fun _ => ⟨List.mem_cons_of_mem _ List.mem_cons_self, rfl⟩,
      List.forall_mem_singleton.mpr fun _ => ⟨List.mem_cons_self, rfl⟩⟩
  · exact List.forall_mem_cons.mpr ⟨Nat.le_refl _, List.forall_mem_singleton.mpr (Nat.le_refl _)⟩

end ForkCalls
