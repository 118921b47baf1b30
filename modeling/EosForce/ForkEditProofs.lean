import EosForce.ForkOrderProofs
import EosForce.ForkRootProofs

/-! # Calls to the fork database

    The four calls that change a fork database, from any database that is a
    tree: what a call that throws leaves behind, where a call that returns may
    move the head, what `advance_root` keeps, and which fork point
    `fetch_branch_from` finds.

    `remove` and `mark_valid` check before they change anything, and so does
    `add`.  `advance_root` takes the new root out of the index before it knows
    that the removals go through.  `mark_valid` compares before it moves the
    head; `add` takes the first validated element of `by_lib_block_num`, where
    equally preferred blocks are ordered by their ids. -/

namespace ForkEdit

open ChainTypes Effect ForkDatabase ForkTree ForkRoot ForkOrder List
open ForkRevert (plainBlock)

variable {τ : Type} {f g : ForkDb τ}

/-- A call that changes the database.  The block state handed to `add` brings
    its own flag. -/
inductive Edit (τ : Type) where
  | add (n : BlockState τ) (valid ignoreDuplicate : Bool)
  | markValid (h : BlockState τ)
  | remove (id : BlockId)
  | advanceRoot (id : BlockId)

def Edit.run : Edit τ → ForkM τ Unit
  | .add n valid ignoreDuplicate => addState n valid ignoreDuplicate
  | .markValid h => ForkDatabase.markValid h
  | .remove id => ForkDatabase.remove id
  | .advanceRoot id => ForkDatabase.advanceRoot id

/-! ## How each call ends -/

/-- `add` throws before the insertion; it returns with the database as it was,
    for a duplicate, or with the new block. -/
theorem addState_cases (n : BlockState τ) (v ignoreDuplicate : Bool) :
    (∃ fault, addState n v ignoreDuplicate f = .error fault f) ∨
      (getBlock f n.id ≠ none ∧ addState n v ignoreDuplicate f = .ok () f) ∨
      (getBlock f n.id = none ∧
        addState n v ignoreDuplicate f = .ok () (insertedAs f n v)) := by
  unfold addState
  rw [get_bind]
  cases getBlockHeader f n.prev with
  | none => exact .inl ⟨_, rfl⟩
  | some p =>
    dsimp only
    cases getBlock f n.id with
    | none => exact .inr (.inr ⟨rfl, rfl⟩)
    | some b =>
      dsimp only
      cases ignoreDuplicate with
      | true => exact .inr (.inl ⟨nofun, rfl⟩)
      | false => exact .inl ⟨_, rfl⟩

theorem markValid_cases (h : BlockState τ) :
    (∃ fault, markValid h f = .error fault f) ∨ markValid h f = .ok () f ∨
      markValid h f = .ok () (marked f h.id) := by
  unfold markValid
  rw [get_bind]
  by_cases hv : f.validated h.id = true
  · rw [if_pos hv]
    exact .inr (.inl rfl)
  · rw [if_neg hv]
    cases getBlock f h.id with
    | none => exact .inl ⟨_, rfl⟩
    | some b => exact .inr (.inr rfl)

theorem remove_cases (id : BlockId) :
    (∃ fault, remove id f = .error fault f) ∨
      ∃ idx, remove id f = .ok () { f with index := idx } := by
  unfold remove
  rw [get_bind]
  cases Worklist.collect (children f) f.head.id (f.index.length + 1) [] [id] with
  | outOfFuel => exact .inl ⟨_, rfl⟩
  | stopped => exact .inl ⟨_, rfl⟩
  | collected queue => exact .inr ⟨_, rfl⟩

/-- The new root is a validated block of the index that the head does not
    descend from. -/
def StrayRoot (f : ForkDb τ) (e : Edit τ) : Prop :=
  ∃ r ∈ f.index, e = .advanceRoot r.id ∧ f.validated r.id = true ∧
    ¬ Under f r.id f.head.id

/-- With a stray root the removals stop at the head, and the new root is gone
    from the index. -/
theorem advanceRoot_stray (ht : Tree f) {r : BlockState τ} (hr : r ∈ f.index)
    (hvalid : f.validated r.id = true) (hhead : ¬ Under f r.id f.head.id) :
    ∃ fault g, advanceRoot r.id f = .error fault g ∧ r ∉ g.index := by
  obtain ⟨l, -, hsteps⟩ := advanceRoot_steps ht hr hvalid
  have hrank : Ranked (f.index.filter fun b => b.id ≠ r.id) :=
    ht.ranked.sublist filter_sublist
  obtain ⟨fault, g, heq, hsub⟩ := forM_remove_stopped (l.map (·.id) ++ [f.root.id])
    (g := { f with index := f.index.filter fun b => b.id ≠ r.id }) hrank
    ⟨f.root.id, mem_append_right _ (mem_singleton_self _), under_around ht hr ht.head hhead⟩
  refine ⟨fault, g, ?_, ?_⟩
  · rw [hsteps]
    exact bind_error heq
  · intro hmem
    have := (mem_filter.mp (hsub.subset hmem)).2
    simp at this

/-- Any other call of `advance_root` checks first. -/
theorem advanceRoot_cases (ht : Tree f) (id : BlockId) (h : ¬ StrayRoot f (.advanceRoot id)) :
    (∃ fault, advanceRoot id f = .error fault f) ∨
      ∃ idx r, advanceRoot id f = .ok () { f with index := idx, root := r } := by
  cases hget : getBlock f id with
  | none =>
    unfold advanceRoot
    rw [get_bind, hget]
    exact .inl ⟨_, rfl⟩
  | some r =>
    obtain ⟨hr, rfl⟩ := getBlock_some hget
    by_cases hvalid : f.validated r.id = true
    · have hhead : Under f r.id f.head.id := by
        by_contra hstray
        exact h ⟨r, hr, rfl, hvalid, hstray⟩
      obtain ⟨idx, heq, -⟩ := advanceRoot_eq ht hr hvalid hhead
      exact .inr ⟨idx, r, heq⟩
    · unfold advanceRoot
      rw [get_bind, hget]
      exact .inl ⟨_, bind_error (ensure_neg hvalid _ _ f)⟩

/-! ## Calls that throw -/

/-- The blocks of the index, their flags, the root and the head are the same. -/
structure Unchanged (f g : ForkDb τ) : Prop where
  index : ∀ b, b ∈ g.index ↔ b ∈ f.index
  validated : g.validated = f.validated
  root : g.root = f.root
  head : g.head = f.head

theorem Unchanged.refl : Unchanged f f := ⟨fun _ => Iff.rfl, rfl, rfl, rfl⟩

/-- A call that throws in the state it started from changed nothing. -/
theorem unchanged_of_error {x : ForkM τ Unit}
    (h : (∃ fault, x f = .error fault f) ∨ ∃ g, x f = .ok () g) :
    ∀ fault g, x f = .error fault g → Unchanged f g := by
  intro fault g herr
  rcases h with ⟨fault', h⟩ | ⟨g', h⟩
  · rw [h] at herr
    cases herr
    exact Unchanged.refl
  · rw [h] at herr
    cases herr

/-- **CALLS THAT THROW CHANGE NOTHING**, unless the root is to be advanced to
    a validated block beside the head's branch. -/
theorem error_unchanged_iff (ht : Tree f) (e : Edit τ) :
    (∀ fault g, e.run f = .error fault g → Unchanged f g) ↔ ¬ StrayRoot f e := by
  constructor
  · rintro h ⟨r, hr, rfl, hvalid, hhead⟩
    obtain ⟨fault, g, heq, hgone⟩ := advanceRoot_stray ht hr hvalid hhead
    exact hgone (((h fault g heq).index r).mpr hr)
  · intro h
    apply unchanged_of_error
    cases e with
    | add n v ignoreDuplicate =>
      rcases addState_cases (f := f) n v ignoreDuplicate with herr | ⟨-, hok⟩ | ⟨-, hok⟩
      · exact .inl herr
      · exact .inr ⟨_, hok⟩
      · exact .inr ⟨_, hok⟩
    | markValid b =>
      rcases markValid_cases (f := f) b with herr | hok | hok
      · exact .inl herr
      · exact .inr ⟨_, hok⟩
      · exact .inr ⟨_, hok⟩
    | remove id =>
      rcases remove_cases (f := f) id with herr | ⟨idx, hok⟩
      · exact .inl herr
      · exact .inr ⟨_, hok⟩
    | advanceRoot id =>
      rcases advanceRoot_cases ht id h with herr | ⟨idx, r, hok⟩
      · exact .inl herr
      · exact .inr ⟨_, hok⟩

/-- Two validated blocks on the root; the head is the one with the higher id. -/
def twins : ForkDb Unit where
  index := [plainBlock 2 1 2, plainBlock 3 1 2]
  validated := fun _ => true
  root := plainBlock 1 0 1
  head := plainBlock 3 1 2

theorem tree_twins : Tree twins := by
  refine ⟨by decide, by decide, ?_, rfl⟩
  exact forall_mem_cons.mpr ⟨⟨plainBlock 1 0 1, rfl, rfl⟩,
    forall_mem_singleton.mpr ⟨plainBlock 1 0 1, rfl, rfl⟩⟩

/-- **COUNTEREXAMPLE**: advancing the root to block 2 throws when it comes to
    remove the old root, which the head 3 descends from; block 2 is gone. -/
theorem advance_to_twin_loses_block :
    ∃ fault g, Tree twins ∧ (Edit.advanceRoot 2).run twins = .error fault g ∧
      plainBlock 2 1 2 ∈ twins.index ∧ g.index.map (·.id) = [3] :=
  ⟨_, _, tree_twins, rfl, mem_cons_self, rfl⟩

/-- An unlinkable block is refused. -/
theorem add_unlinked_unchanged :
    ∃ fault g, (Edit.add (plainBlock 9 8 3) false false).run twins = .error fault g ∧
      Unchanged twins g := by
  have hstray : ¬ StrayRoot twins (.add (plainBlock 9 8 3) false false) := by
    rintro ⟨r, -, hr, -⟩
    cases hr
  exact ⟨_, _, rfl, (error_unchanged_iff tree_twins _).mpr hstray _ _ rfl⟩

/-! ## Where the head moves -/

/-- **THE INVARIANTS** of a fork database: besides the tree, the head is the
    root or validated, and no validated block is preferred to it. -/
structure Consistent (f : ForkDb τ) : Prop extends Rooted f where
  best : ∀ b ∈ f.index, f.validated b.id = true → firstPreferred b f.head = false

/-- Validated, in the index or as the block that is added. -/
def Rated (f : ForkDb τ) (n : BlockState τ) (v : Bool) (b : BlockState τ) : Prop :=
  (b ∈ f.index ∧ f.validated b.id = true) ∨ (b = n ∧ v = true)

/-- The order of `by_lib_block_num` among validated blocks. -/
def Before (a b : BlockState τ) : Prop :=
  firstPreferred a b = true ∨ firstPreferred b a = false ∧ a.id ≤ b.id

theorem byLibKey_le_iff_before {v : BlockId → Bool} {a b : BlockState τ}
    (h : v a.id = v b.id) : byLibKey v a ≤ byLibKey v b ↔ Before a b := by
  rw [byLibKey_le_iff, h, Before, Bool.eq_false_iff, ne_eq, firstPreferred_iff,
    firstPreferred_iff]
  constructor
  · rintro (hlt | ⟨-, hlib | ⟨hlib, hnum | ⟨hnum, hid⟩⟩⟩)
    · exact absurd hlt (lt_irrefl _)
    · exact .inl (.inl hlib)
    · exact .inl (.inr ⟨hlib, hnum⟩)
    · exact .inr ⟨by omega, hid⟩
  · rintro ((hlib | ⟨hlib, hnum⟩) | ⟨hnot, hid⟩)
    · exact .inr ⟨rfl, .inl hlib⟩
    · exact .inr ⟨rfl, .inr ⟨hlib, .inl hnum⟩⟩
    · rcases Nat.lt_trichotomy b.dposIrreversibleBlocknum a.dposIrreversibleBlocknum with
        hlib | hlib | hlib
      · exact .inr ⟨rfl, .inl hlib⟩
      · have hnum : b.blockNum < a.blockNum ∨ b.blockNum = a.blockNum := by omega
        exact .inr ⟨rfl, .inr ⟨hlib, hnum.imp_right fun h => ⟨h, hid⟩⟩⟩
      · exact absurd (.inl hlib) hnot

/-- The head comes first among the validated blocks. -/
def Leads (f : ForkDb τ) (n : BlockState τ) (v : Bool) : Prop :=
  ∀ b, Rated f n v b → b.id ≠ f.head.id → ∃ x, Rated f n v x ∧ x.id = f.head.id ∧ Before x b

/-- The new block was there before, or is validated and preferred to the head,
    or the head comes first. -/
def Steady (f : ForkDb τ) : Edit τ → Prop
  | .add n v _ =>
    getBlock f n.id ≠ none ∨ (v = true ∧ firstPreferred n f.head = true) ∨ Leads f n v
  | _ => True

section Insert

variable {n : BlockState τ} {v : Bool}

/-- Whatever becomes of the head, the rest is that database. -/
theorem insertedAs_eq : ∃ head, insertedAs f n v = { extended f n v with head := head } := by
  rw [insertedAs, reheaded]
  cases byLibFirst (extended f n v) with
  | none => exact ⟨f.head, rfl⟩
  | some x =>
    dsimp only
    split
    · exact ⟨x, rfl⟩
    · exact ⟨f.head, rfl⟩

/-- The rated blocks are the validated ones of the larger index. -/
theorem rated_iff (hfresh : getBlock f n.id = none) {b : BlockState τ} :
    Rated f n v b ↔ b ∈ (extended f n v).index ∧ (extended f n v).validated b.id = true := by
  have hne : ∀ b ∈ f.index, b.id ≠ n.id := fun b hb => by
    simpa using List.find?_eq_none.mp hfresh b hb
  have hflag : (extended f n v).validated n.id = v := if_pos rfl
  constructor
  · rintro (⟨hb, hv⟩ | ⟨rfl, hv⟩)
    · refine ⟨mem_append_left _ hb, ?_⟩
      rw [← hv]
      exact if_neg (hne b hb)
    · exact ⟨mem_append_right _ (mem_singleton_self _), hflag.trans hv⟩
  · rintro ⟨hb, hv⟩
    rcases mem_append.mp hb with hb | hb
    · refine .inl ⟨hb, ?_⟩
      rw [← hv]
      exact (if_neg (hne b hb)).symm
    · rw [mem_singleton.mp hb] at hv ⊢
      exact .inr ⟨rfl, hflag.symm.trans hv⟩

/-- The head after an insertion: the first of the rated blocks, if there is
    one. -/
theorem insertedAs_head (hfresh : getBlock f n.id = none) :
    (∃ x, Rated f n v x ∧ (∀ b, Rated f n v b → Before x b) ∧
        (insertedAs f n v).head = x) ∨
      ((∀ b, ¬ Rated f n v b) ∧ (insertedAs f n v).head = f.head) := by
  obtain ⟨x, hx⟩ := exists_byLibFirst (f := extended f n v)
    (mem_append_right f.index (mem_singleton_self n))
  rw [insertedAs, reheaded, hx]
  dsimp only
  by_cases hv : (extended f n v).validated x.id = true
  · rw [if_pos hv]
    refine .inl ⟨x, (rated_iff hfresh).mpr ⟨argmin_mem hx, hv⟩, ?_, rfl⟩
    intro b hb
    obtain ⟨hbm, hbv⟩ := (rated_iff hfresh).mp hb
    exact (byLibKey_le_iff_before (hv.trans hbv.symm)).mp (le_of_mem_argmin hbm hx)
  · rw [if_neg hv]
    refine .inr ⟨?_, rfl⟩
    intro b hb
    obtain ⟨hbm, hbv⟩ := (rated_iff hfresh).mp hb
    exact hv (byLibFirst_of_valid hx hbm hbv).1

theorem Before.not_preferred {a b : BlockState τ} (h : Before a b) :
    firstPreferred b a = false := by
  rcases h with h | h
  · exact firstPreferred_asymm h
  · exact h.1

theorem Before.antisymm {a b : BlockState τ} (hab : Before a b) (hba : Before b a) :
    a.id = b.id := by
  have hna := hab.not_preferred
  have hnb := hba.not_preferred
  rcases hab with hp | ⟨-, hle⟩
  · rw [hp] at hnb
    cases hnb
  · rcases hba with hp | ⟨-, hge⟩
    · rw [hp] at hna
      cases hna
    · exact le_antisymm hle hge

/-- A rated block that is preferred to the head is the new one. -/
theorem Consistent.new_of_preferred (hc : Consistent f) {x : BlockState τ}
    (hx : Rated f n v x) (hp : firstPreferred x f.head = true) : x = n ∧ v = true := by
  rcases hx with ⟨hm, hv⟩ | hnew
  · rw [hc.best x hm hv] at hp
    cases hp
  · exact hnew

theorem insertedAs_head_iff (hc : Consistent f) (hfresh : getBlock f n.id = none) :
    ((insertedAs f n v).head.id ≠ f.head.id →
        firstPreferred (insertedAs f n v).head f.head = true) ↔
      (v = true ∧ firstPreferred n f.head = true) ∨ Leads f n v := by
  rcases insertedAs_head (v := v) hfresh with ⟨x, hx, hfirst, heq⟩ | ⟨hnone, heq⟩
  · rw [heq]
    constructor
    · intro h
      by_cases hid : x.id = f.head.id
      · exact .inr fun b hb _ => ⟨x, hx, hid, hfirst b hb⟩
      · obtain ⟨rfl, hv⟩ := hc.new_of_preferred hx (h hid)
        exact .inl ⟨hv, h hid⟩
    · rintro (⟨hv, hp⟩ | hleads) hid
      · -- what comes before the preferred new block is preferred as well
        have hxn := (hfirst n (.inr ⟨rfl, hv⟩)).not_preferred
        cases hxp : firstPreferred x f.head with
        | true => rfl
        | false =>
          rw [firstPreferred_of_not hp hxp] at hxn
          cases hxn
      · obtain ⟨y, hy, hyid, hyx⟩ := hleads x hx hid
        exact absurd ((hfirst y hy).antisymm hyx) (by rwa [hyid])
  · rw [heq]
    constructor
    · intro _
      exact .inr fun b hb => absurd hb (hnone b)
    · intro _ hid
      exact absurd rfl hid

end Insert

/-- Marking compares before it moves the head. -/
theorem marked_head (id : BlockId) :
    (marked f id).head = f.head ∨ firstPreferred (marked f id).head f.head = true := by
  unfold marked
  cases hx : byLibFirst (setValidated f id true) with
  | none =>
    simp only [hx]
    exact .inl rfl
  | some x =>
    simp only [hx]
    split
    · rename_i hp
      exact .inr hp
    · exact .inl rfl

/-- **THE HEAD MOVES UP** with every call that returns, but for an `add` that
    finds a validated block before the head. -/
theorem head_moves_up_iff (hc : Consistent f) (e : Edit τ) (h : e.run f = .ok () g) :
    (g.head.id ≠ f.head.id → firstPreferred g.head f.head = true) ↔ Steady f e := by
  have hsame : ∀ {g : ForkDb τ}, g.head = f.head →
      (g.head.id ≠ f.head.id → firstPreferred g.head f.head = true) := by
    intro g hg hid
    rw [hg] at hid
    exact absurd rfl hid
  cases e with
  | add n v ignoreDuplicate =>
    rcases addState_cases (f := f) n v ignoreDuplicate with
      ⟨fault, herr⟩ | ⟨hdup, hok⟩ | ⟨hfresh, hok⟩
    · cases h.symm.trans herr
    · cases h.symm.trans hok
      exact iff_of_true (hsame rfl) (.inl hdup)
    · cases h.symm.trans hok
      rw [insertedAs_head_iff hc hfresh, Steady, hfresh]
      simp only [ne_eq, not_true_eq_false, false_or]
  | markValid b =>
    rcases markValid_cases (f := f) b with ⟨fault, herr⟩ | hok | hok
    · cases h.symm.trans herr
    · cases h.symm.trans hok
      exact iff_of_true (hsame rfl) trivial
    · cases h.symm.trans hok
      refine iff_of_true ?_ trivial
      rcases marked_head (f := f) b.id with heq | hp
      · exact hsame heq
      · exact fun _ => hp
  | remove id =>
    rcases remove_cases (f := f) id with ⟨fault, herr⟩ | ⟨idx, hok⟩
    · cases h.symm.trans herr
    · cases h.symm.trans hok
      exact iff_of_true (hsame rfl) trivial
  | advanceRoot id =>
    by_cases hstray : StrayRoot f (.advanceRoot id)
    · obtain ⟨r, hr, hid, hvalid, hhead⟩ := hstray
      cases hid
      obtain ⟨fault, g', herr, -⟩ := advanceRoot_stray hc.toTree hr hvalid hhead
      cases h.symm.trans herr
    · rcases advanceRoot_cases hc.toTree id hstray with ⟨fault, herr⟩ | ⟨idx, r, hok⟩
      · cases h.symm.trans herr
      · cases h.symm.trans hok
        exact iff_of_true (hsame rfl) trivial

theorem consistent_twins : Consistent twins :=
  ⟨⟨tree_twins, .inr rfl⟩, by decide⟩

/-- **COUNTEREXAMPLE**: a new block on the head moves the head to its twin,
    which has the same numbers and the smaller id. -/
theorem add_moves_head_to_twin :
    ∃ g, Consistent twins ∧ (Edit.add (plainBlock 4 3 3) false false).run twins = .ok () g ∧
      twins.head.id = 3 ∧ g.head.id = 2 ∧ firstPreferred g.head twins.head = false :=
  ⟨_, consistent_twins, rfl, rfl, rfl, rfl⟩

/-- A validated block on the head becomes the head. -/
theorem add_moves_head_up :
    ∃ g, (Edit.add (plainBlock 4 3 3) true false).run twins = .ok () g ∧ g.head.id = 4 ∧
      (g.head.id ≠ twins.head.id → firstPreferred g.head twins.head = true) :=
  ⟨_, rfl, rfl, (head_moves_up_iff consistent_twins (.add (plainBlock 4 3 3) true false)
    rfl).mpr (.inr (.inl ⟨rfl, rfl⟩))⟩

/-! ## What `advance_root` keeps -/

/-- **THE LIVE SUBTREE**: advancing the root to a block above the head keeps
    exactly the blocks below the new root. -/
theorem advanceRoot_keeps_subtree (ht : Tree f) {r : BlockState τ} (hr : r ∈ f.index)
    (hvalid : f.validated r.id = true) (hhead : Under f r.id f.head.id) :
    ∃ g, advanceRoot r.id f = .ok () g ∧ Tree g ∧ g.root = r ∧ g.head = f.head ∧
      g.validated = f.validated ∧
      ∀ x, x ∈ g.index ↔ x ∈ f.index ∧ Under f r.id x.id ∧ x.id ≠ r.id := by
  obtain ⟨idx, heq, hsub, hmem⟩ := advanceRoot_eq ht hr hvalid hhead
  exact ⟨_, heq, tree_advanced ht hr hhead hsub hmem, rfl, rfl, rfl, hmem⟩

/-- A chain of two blocks with a stray block beside it. -/
def spur : ForkDb Unit where
  index := [plainBlock 2 1 2, plainBlock 3 1 2, plainBlock 4 2 3]
  validated := fun _ => true
  root := plainBlock 1 0 1
  head := plainBlock 4 2 3

theorem tree_spur : Tree spur := by
  refine ⟨by decide, by decide, ?_, rfl⟩
  exact forall_mem_cons.mpr ⟨⟨plainBlock 1 0 1, rfl, rfl⟩, forall_mem_cons.mpr
    ⟨⟨plainBlock 1 0 1, rfl, rfl⟩, forall_mem_singleton.mpr ⟨plainBlock 2 1 2, rfl, rfl⟩⟩⟩

theorem advance_spur :
    ∃ g, advanceRoot 2 spur = .ok () g ∧ Tree g ∧ g.root = plainBlock 2 1 2 ∧
      g.head = spur.head ∧ g.validated = spur.validated ∧
      ∀ x, x ∈ g.index ↔ x ∈ spur.index ∧ Under spur 2 x.id ∧ x.id ≠ 2 := by
  have hhead : Under spur 2 4 :=
    Relation.ReflTransGen.single (mem_children.mpr
      ⟨plainBlock 4 2 3, mem_cons_of_mem _ (mem_cons_of_mem _ mem_cons_self),
        rfl, rfl⟩)
  exact advanceRoot_keeps_subtree (r := plainBlock 2 1 2) tree_spur mem_cons_self rfl hhead

/-! ## The fork point -/

/-- `c` is an ancestor of both, or one of them, and every other common
    ancestor is above it. -/
structure NearestCommon (f : ForkDb τ) (c i j : BlockId) : Prop where
  first : Under f c i
  second : Under f c j
  nearest : ∀ d, Under f d i → Under f d j → Under f d c

/-- What something in the tree descends from is in the tree. -/
theorem holds_of_under (ht : Tree f) {d : BlockId} {x : BlockState τ} (hx : Holds f x)
    (h : Under f d x.id) : ∃ b, Holds f b ∧ b.id = d := by
  obtain ⟨l, hl⟩ := under_iff_path.mp h
  cases hlast : l.getLast? with
  | none =>
    rw [List.getLast?_eq_none_iff.mp hlast] at hl
    exact ⟨x, hx, hl.eq_of_nil⟩
  | some b =>
    have hb := hl.mem b (mem_of_getLast? hlast)
    obtain ⟨p, hp, -⟩ := ht.parent b hb
    exact ⟨p, holds_of_getBlockHeader hp, (getBlockHeader_some hp).1.trans (hl.getLast_prev hlast)⟩

/-- Where two branches part is the nearest common ancestor. -/
theorem nearestCommon_of_branches (ht : Tree f) {x y base : BlockState τ}
    {first second : List (BlockState τ)} (hx : Holds f x)
    (h : Branches f x y base first second) : NearestCommon f base.id x.id y.id := by
  refine ⟨under_iff_path.mpr ⟨_, h.pathFirst⟩, under_iff_path.mpr ⟨_, h.pathSecond⟩, ?_⟩
  intro d hdx hdy
  obtain ⟨b, hb, rfl⟩ := holds_of_under ht hx hdx
  obtain ⟨l, hl⟩ := under_iff_path.mp hdx
  obtain ⟨m, hm⟩ := under_iff_path.mp hdy
  obtain ⟨p, hp⟩ := ht.path base.blockNum base (Nat.le_refl _) h.holds
  obtain ⟨q, hq⟩ := ht.path b.blockNum b (Nat.le_refl _) hb
  have hfirst := Lineage.unique ht.ranked (h.pathFirst.append hp) (hl.append hq)
  have hsecond := Lineage.unique ht.ranked (h.pathSecond.append hp) (hm.append hq)
  rcases append_eq_append_iff.mp hfirst with ⟨u, -, hu⟩ | ⟨u, hlu, hu⟩
  · -- the path to `base` passes `b`
    rw [hu] at hp
    cases q with
    | nil =>
      rw [hq.eq_of_nil]
      exact under_iff_path.mpr ⟨_, hp⟩
    | cons c q =>
      rw [hq.tail.2.1]
      exact under_iff_path.mpr ⟨u, hp.upper⟩
  · -- below `base` the branches have nothing in common
    rw [hu, ← append_assoc] at hsecond
    rw [hlu, append_cancel_right hsecond] at h
    rw [h.tail_nil, nil_append] at hu
    rw [hu] at hq
    rw [hq.end_eq hp]

/-- **THE FORK POINT**: for any two blocks of the tree `fetch_branch_from`
    returns the two branches down to their nearest common ancestor. -/
theorem fetchBranchFrom_nearest (ht : Tree f) {i j : BlockId} {x y : BlockState τ}
    (hi : getBlockHeader f i = some x) (hj : getBlockHeader f j = some y) :
    ∃ base first second, fetchBranchFrom f i j = .ok (first, second) ∧ Holds f base ∧
      NearestCommon f base.id i j ∧ Lineage f.index base.id i first ∧
      Lineage f.index base.id j second := by
  have hx := holds_of_getBlockHeader hi
  have hy := holds_of_getBlockHeader hj
  obtain ⟨base, first, second, heq, hb⟩ := fetchBranchFrom_eq ht hx hy
  have hnear := nearestCommon_of_branches ht hx hb
  have hfirst := hb.pathFirst
  have hsecond := hb.pathSecond
  rw [(getBlockHeader_some hi).1] at heq hnear hfirst
  rw [(getBlockHeader_some hj).1] at heq hnear hsecond
  exact ⟨base, first, second, heq, hb.holds, hnear, hfirst, hsecond⟩

theorem fetch_spur_branches :
    ∃ base first second, fetchBranchFrom spur 4 3 = .ok (first, second) ∧ Holds spur base ∧
      NearestCommon spur base.id 4 3 ∧ Lineage spur.index base.id 4 first ∧
      Lineage spur.index base.id 3 second :=
  fetchBranchFrom_nearest (x := plainBlock 4 2 3) (y := plainBlock 3 1 2) tree_spur rfl rfl

end ForkEdit
