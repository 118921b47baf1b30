import EosForce.ForkDbProofs

/-! # The tree in the fork database

    Every block of the index descends from the root, and its number is one
    more than its parent's.  This is what makes the loops of the fork database
    end where they should: `remove` erases exactly a subtree, and
    `fetch_branch_from` returns the two branches from a fork point. -/

namespace ForkTree

open ChainTypes ForkDatabase Worklist List

variable {τ : Type}

/-! ## Paths -/

/-- The blocks from `id` down to, and without, `base`. -/
inductive Lineage (index : List (BlockState τ)) (base : BlockId) :
    BlockId → List (BlockState τ) → Prop where
  | refl : Lineage index base base []
  | cons {b : BlockState τ} {l : List (BlockState τ)} :
      b ∈ index → Lineage index base b.prev l → Lineage index base b.id (b :: l)

/-- `y` is `a` or a descendant of it. -/
abbrev Under (f : ForkDb τ) (a y : BlockId) : Prop := Reach (children f) a y

variable {f : ForkDb τ} {index : List (BlockState τ)}

theorem mem_children {id c : BlockId} :
    c ∈ children f id ↔ ∃ b ∈ f.index, b.prev = id ∧ b.id = c := by
  unfold children
  simp only [mem_map, mem_filter, decide_eq_true_eq, and_assoc]

variable {a y : BlockId}

/-- A descendant is one that a path leads down from. -/
theorem under_iff_path : Under f a y ↔ ∃ l, Lineage f.index a y l := by
  constructor
  · intro h
    induction h with
    | refl => exact ⟨[], Lineage.refl⟩
    | tail _ hc ih =>
      obtain ⟨l, hl⟩ := ih
      obtain ⟨b, hb, rfl, rfl⟩ := mem_children.mp hc
      exact ⟨b :: l, Lineage.cons hb hl⟩
  · rintro ⟨l, hl⟩
    induction hl with
    | refl => exact Relation.ReflTransGen.refl
    | cons hb _ ih => exact ih.tail (mem_children.mpr ⟨_, hb, rfl, rfl⟩)

theorem Lineage.append {a b c : BlockId} {l m : List (BlockState τ)}
    (hl : Lineage index b c l) (hm : Lineage index a b m) : Lineage index a c (l ++ m) := by
  induction hl with
  | refl => exact hm
  | cons hb _ ih => exact Lineage.cons hb ih

variable {l : List (BlockState τ)}

theorem Lineage.mem (h : Lineage index a y l) : ∀ b ∈ l, b ∈ index := by
  induction h with
  | refl => exact forall_mem_nil _
  | cons hb _ ih => exact forall_mem_cons.mpr ⟨hb, ih⟩

theorem Lineage.mono {index' : List (BlockState τ)} (h : Lineage index a y l)
    (hsub : ∀ b ∈ l, b ∈ index') : Lineage index' a y l := by
  induction h with
  | refl => exact Lineage.refl
  | cons _ _ ih =>
    exact Lineage.cons (hsub _ mem_cons_self) (ih fun b hb => hsub b (mem_cons_of_mem _ hb))

theorem Lineage.eq_of_nil (h : Lineage index a y []) : y = a := by
  cases h
  rfl

variable {b : BlockState τ}

theorem Lineage.tail (h : Lineage index a y (b :: l)) :
    b ∈ index ∧ y = b.id ∧ Lineage index a b.prev l := by
  cases h with
  | cons hb hl => exact ⟨hb, rfl, hl⟩

/-- The lower part of a path is a path. -/
theorem Lineage.suffix {l m : List (BlockState τ)} (h : Lineage index a y (l ++ b :: m)) :
    Lineage index a b.id (b :: m) := by
  induction l generalizing y with
  | nil =>
    obtain ⟨hb, -, hm⟩ := h.tail
    exact Lineage.cons hb hm
  | cons c l ih => exact ih h.tail.2.2

/-- So is its upper part. -/
theorem Lineage.upper {l m : List (BlockState τ)} (h : Lineage index a y (l ++ b :: m)) :
    Lineage index b.id y l := by
  induction l generalizing y with
  | nil =>
    rw [h.tail.2.1]
    exact Lineage.refl
  | cons c l ih =>
    obtain ⟨hc, hid, hl⟩ := h.tail
    rw [hid]
    exact Lineage.cons hc (ih hl)

/-- A path says where it ends. -/
theorem Lineage.end_eq {a y z : BlockId} (hy : Lineage index a y l) (hz : Lineage index a z l) :
    y = z := by
  cases l with
  | nil => rw [hy.eq_of_nil, hz.eq_of_nil]
  | cons b l => rw [hy.tail.2.1, hz.tail.2.1]

/-- The last block of a path is a child of its base. -/
theorem Lineage.getLast_prev (h : Lineage index a y l) (hb : l.getLast? = some b) : b.prev = a := by
  induction h with
  | refl => exact nomatch hb
  | @cons c m hc hm ih =>
    cases m with
    | nil =>
      rw [List.getLast?_singleton] at hb
      rw [← Option.some.inj hb]
      exact hm.eq_of_nil
    | cons d m => exact ih (by rwa [List.getLast?_cons_cons] at hb)

/-! ## Well-founded indices -/

/-- Ids are unique and parents rank below their children. -/
structure Ranked (index : List (BlockState τ)) : Prop where
  ids : (index.map (·.id)).Nodup
  rank : ∃ rank : BlockId → Nat, ∀ b ∈ index, rank b.prev < rank b.id

theorem Ranked.sublist {index' : List (BlockState τ)} (h : Ranked index)
    (hs : index'.Sublist index) : Ranked index' := by
  obtain ⟨rank, hrank⟩ := h.rank
  exact ⟨h.ids.sublist (hs.map _), rank, fun b hb => hrank b (hs.subset hb)⟩

theorem Ranked.eq_of_id (h : Ranked index) {a b : BlockState τ} (ha : a ∈ index)
    (hb : b ∈ index) (hid : a.id = b.id) : a = b :=
  inj_on_of_nodup_map h.ids ha hb hid

theorem Lineage.rank_le {rank : BlockId → Nat} (hrank : ∀ b ∈ index, rank b.prev < rank b.id)
    (h : Lineage index a y l) : rank a + l.length ≤ rank y := by
  induction h with
  | refl => exact Nat.le_refl _
  | cons hb _ ih =>
    have := hrank _ hb
    rw [length_cons]
    omega

theorem Lineage.rank_mem {rank : BlockId → Nat} (hrank : ∀ b ∈ index, rank b.prev < rank b.id)
    (h : Lineage index a y l) {x : BlockState τ} (hx : x ∈ l) : rank x.id ≤ rank y := by
  induction h with
  | refl => exact nomatch hx
  | cons hb _ ih =>
    rcases mem_cons.mp hx with rfl | hx
    · exact Nat.le_refl _
    · have := ih hx
      have := hrank _ hb
      omega

/-- A block is not among its own ancestors. -/
theorem Lineage.ids_ne (hr : Ranked index) {a : BlockId} (h : Lineage index a b.id (b :: l)) :
    ∀ x ∈ l, b.id ≠ x.id := by
  intro x hx heq
  obtain ⟨rank, hrank⟩ := hr.rank
  obtain ⟨hb, -, hl⟩ := h.tail
  have := hl.rank_mem hrank hx
  have := hrank b hb
  rw [heq] at this
  omega

/-- A block has one path down to a base. -/
theorem Lineage.unique (hr : Ranked index) {l m : List (BlockState τ)} (hl : Lineage index a y l)
    (hm : Lineage index a y m) : l = m := by
  obtain ⟨rank, hrank⟩ := hr.rank
  induction hl generalizing m with
  | refl =>
    cases hm with
    | refl => rfl
    | cons hb hm' =>
      have := hm'.rank_le hrank
      have := hrank _ hb
      omega
  | @cons b l hb hl ih =>
    generalize hy : b.id = y at hm
    cases hm with
    | refl =>
      have := hl.rank_le hrank
      have := hrank _ hb
      rw [hy] at this
      omega
    | cons hc hm' =>
      have heq := hr.eq_of_id hb hc hy
      subst heq
      rw [ih hm']

/-- Nothing below a block is above it. -/
theorem Lineage.not_under (hr : Ranked f.index) {a : BlockId}
    (h : Lineage f.index a b.id (b :: l)) : ¬ Under f b.id a ∧ ∀ x ∈ l, ¬ Under f b.id x.id := by
  obtain ⟨rank, hrank⟩ := hr.rank
  obtain ⟨hb, -, hl⟩ := h.tail
  have hlt := hrank b hb
  constructor
  · intro hu
    obtain ⟨m, hm⟩ := under_iff_path.mp hu
    have := hm.rank_le hrank
    have := hl.rank_le hrank
    omega
  · intro x hx hu
    obtain ⟨m, hm⟩ := under_iff_path.mp hu
    have := hm.rank_le hrank
    have := hl.rank_mem hrank hx
    omega

/-! ## Removing a subtree -/

theorem Ranked.forest (hr : Ranked f.index) (id : BlockId) :
    Forest (children f) (f.index.map (·.id)) id := by
  refine ⟨?_, ?_, ?_, ?_⟩
  · intro x
    exact hr.ids.sublist (filter_sublist.map _)
  · intro x y c hx hy
    obtain ⟨b, hb, rfl, hbc⟩ := mem_children.mp hx
    obtain ⟨b', hb', rfl, hbc'⟩ := mem_children.mp hy
    rw [hr.eq_of_id hb hb' (hbc.trans hbc'.symm)]
  · intro x c hc
    obtain ⟨b, hb, -, rfl⟩ := mem_children.mp hc
    exact mem_map_of_mem hb
  · intro x hx hc
    obtain ⟨b, hb, rfl, rfl⟩ := mem_children.mp hc
    obtain ⟨l, hl⟩ := under_iff_path.mp hx
    obtain ⟨rank, hrank⟩ := hr.rank
    have := hl.rank_le hrank
    have := hrank b hb
    omega

open Classical in
/-- The database without a block and its descendants. -/
noncomputable def prune (f : ForkDb τ) (id : BlockId) : ForkDb τ :=
  { f with index := f.index.filter fun b => ¬ Under f id b.id }

variable {id : BlockId}

theorem mem_prune : b ∈ (prune f id).index ↔ b ∈ f.index ∧ ¬ Under f id b.id := by
  classical
  simp only [prune, mem_filter, decide_eq_true_eq]

/-- **REMOVE ERASES A SUBTREE**, where the head is not in it. -/
theorem remove_eq (hr : Ranked f.index) (hhead : ¬ Under f id f.head.id) :
    remove id f = .ok () (prune f id) := by
  classical
  obtain ⟨out, hout, hmem⟩ := collect_eq (hr.forest id) hhead
  rw [length_map] at hout
  rw [remove, Effect.get_bind, hout]
  show EStateM.Result.ok () _ = _
  unfold prune
  congr 2
  refine filter_congr ?_
  intro b _
  simp only [hmem]

/-- With the head in the subtree it throws and erases nothing. -/
theorem remove_stopped (hr : Ranked f.index) (hhead : Under f id f.head.id) :
    remove id f = .error (.exc ⟨.forkDatabase,
      "removing the block and its descendants would remove the current head block"⟩) f := by
  have hout := collect_stopped (hr.forest id) hhead
  rw [length_map] at hout
  rw [remove, Effect.get_bind, hout]
  rfl

/-! ## The tree invariant -/

/-- `b` is the root or in the index. -/
def Holds (f : ForkDb τ) (b : BlockState τ) : Prop := getBlockHeader f b.id = some b

/-- **THE TREE INVARIANT** of a fork database. -/
structure Tree (f : ForkDb τ) : Prop where
  ids : (f.index.map (·.id)).Nodup
  root : ∀ b ∈ f.index, b.id ≠ f.root.id
  parent : ∀ b ∈ f.index, ∃ p, getBlockHeader f b.prev = some p ∧
    b.blockNum = p.blockNum + 1
  head : Holds f f.head

/-- A tree whose head is the root or validated. -/
structure Rooted (f : ForkDb τ) : Prop extends Tree f where
  headValid : f.head = f.root ∨ f.validated f.head.id = true

theorem getBlock_some (h : getBlock f id = some b) : b ∈ f.index ∧ b.id = id :=
  ⟨mem_of_find?_eq_some h, by simpa using List.find?_some h⟩

theorem getBlockHeader_some (h : getBlockHeader f id = some b) :
    b.id = id ∧ (b = f.root ∨ b ∈ f.index) := by
  unfold getBlockHeader at h
  split at h
  · rename_i hroot
    rw [← Option.some.inj h]
    exact ⟨hroot, .inl rfl⟩
  · obtain ⟨hb, hid⟩ := getBlock_some h
    exact ⟨hid, .inr hb⟩

theorem holds_of_getBlockHeader (h : getBlockHeader f id = some b) : Holds f b := by
  unfold Holds
  rw [(getBlockHeader_some h).1]
  exact h

theorem holds_root : Holds f f.root := by
  unfold Holds getBlockHeader
  rw [if_pos rfl]

/-- Unique ids make lookups find what is there. -/
theorem find_of_mem (hids : (index.map (·.id)).Nodup) (hb : b ∈ index) :
    index.find? (fun c => c.id = b.id) = some b := by
  cases hfind : index.find? (fun c => c.id = b.id) with
  | none =>
    have := List.find?_eq_none.mp hfind b hb
    simp at this
  | some c =>
    have hid : c.id = b.id := by simpa using List.find?_some hfind
    rw [inj_on_of_nodup_map hids (mem_of_find?_eq_some hfind) hb hid]

section

variable (ht : Tree f)
include ht

theorem Tree.getBlock_mem (hb : b ∈ f.index) : getBlock f b.id = some b :=
  find_of_mem ht.ids hb

theorem Tree.holds_mem (hb : b ∈ f.index) : Holds f b := by
  unfold Holds getBlockHeader
  rw [if_neg (fun h => ht.root b hb h.symm)]
  exact ht.getBlock_mem hb

omit ht in
theorem Holds.cases (h : Holds f b) : b = f.root ∨ b ∈ f.index :=
  (getBlockHeader_some h).2

omit ht in
theorem Holds.eq_of_id {a b : BlockState τ} (ha : Holds f a) (hb : Holds f b)
    (hid : a.id = b.id) : a = b := by
  unfold Holds at ha hb
  rw [hid, hb] at ha
  exact (Option.some.inj ha).symm

theorem Tree.ranked : Ranked f.index := by
  refine ⟨ht.ids, fun id => ((getBlockHeader f id).map (·.blockNum)).getD 0, ?_⟩
  intro b hb
  obtain ⟨p, hp, hnum⟩ := ht.parent b hb
  have hb' : getBlockHeader f b.id = some b := ht.holds_mem hb
  simp only [hp, hb', Option.map_some, Option.getD_some]
  omega

/-- The number of a block counts the path to it. -/
theorem Lineage.blockNum_eq {a y : BlockState τ} (h : Lineage f.index a.id y.id l) (ha : Holds f a)
    (hy : Holds f y) : y.blockNum = a.blockNum + l.length := by
  induction l generalizing y with
  | nil =>
    rw [hy.eq_of_id ha h.eq_of_nil]
    rfl
  | cons b l ih =>
    generalize hid : y.id = i at h
    cases h with
    | cons hb hl =>
      have hyb := hy.eq_of_id (ht.holds_mem hb) hid
      obtain ⟨p, hp, hnum⟩ := ht.parent b hb
      have hpid := (getBlockHeader_some hp).1
      rw [← hpid] at hl
      rw [hyb, hnum, ih hl (holds_of_getBlockHeader hp), length_cons]
      omega

/-- Everything in the tree has a path to the root. -/
theorem Tree.path : ∀ (n : Nat) (b : BlockState τ), b.blockNum ≤ n → Holds f b →
      ∃ l, Lineage f.index f.root.id b.id l := by
  intro n
  induction n with
  | zero =>
    intro b hn hb
    rcases hb.cases with rfl | hmem
    · exact ⟨[], Lineage.refl⟩
    · obtain ⟨p, -, hnum⟩ := ht.parent b hmem
      omega
  | succ n ih =>
    intro b hn hb
    rcases hb.cases with rfl | hmem
    · exact ⟨[], Lineage.refl⟩
    · obtain ⟨p, hp, hnum⟩ := ht.parent b hmem
      obtain ⟨l, hl⟩ := ih p (by omega) (holds_of_getBlockHeader hp)
      rw [(getBlockHeader_some hp).1] at hl
      exact ⟨b :: l, Lineage.cons hmem hl⟩

theorem Tree.root_num_le (hb : Holds f b) : f.root.blockNum ≤ b.blockNum := by
  obtain ⟨l, hl⟩ := ht.path b.blockNum b (Nat.le_refl _) hb
  rw [hl.blockNum_eq ht holds_root hb]
  exact Nat.le_add_right _ _

/-- Descendants do not have lower numbers. -/
theorem Tree.not_under_of_num_lt {a y : BlockState τ} (ha : Holds f a) (hy : Holds f y)
    (hlt : y.blockNum < a.blockNum) : ¬ Under f a.id y.id := by
  intro hu
  obtain ⟨l, hl⟩ := under_iff_path.mp hu
  have := hl.blockNum_eq ht ha hy
  omega

theorem Tree.mem_of_num_lt {b c : BlockState τ} (hb : Holds f b) (hc : Holds f c)
    (hlt : c.blockNum < b.blockNum) : b ∈ f.index := by
  rcases hb.cases with rfl | hmem
  · have := ht.root_num_le hc
    omega
  · exact hmem

/-! ## The two branches from a fork point -/

/-- The levelling loop stops at the wanted height. -/
theorem descendTo_eq {target : BlockState τ} (htarget : Holds f target) :
    ∀ (fuel : Nat) (b : BlockState τ) (acc : List (BlockState τ)), Holds f b →
      b.blockNum ≤ fuel + target.blockNum →
      ∃ b' l, descendTo f target.blockNum fuel b acc = .ok (b', acc ++ l) ∧
        Holds f b' ∧ Lineage f.index b'.id b.id l ∧
        b'.blockNum = min b.blockNum target.blockNum := by
  intro fuel
  induction fuel with
  | zero =>
    intro b acc hb hfuel
    refine ⟨b, [], ?_, hb, Lineage.refl, by omega⟩
    rw [descendTo, if_neg (by omega), append_nil]
  | succ fuel ih =>
    intro b acc hb hfuel
    by_cases hlt : target.blockNum < b.blockNum
    · have hmem := ht.mem_of_num_lt hb htarget hlt
      obtain ⟨p, hp, hnum⟩ := ht.parent b hmem
      obtain ⟨b', l, heq, hb', hl, hmin⟩ :=
        ih p (acc ++ [b]) (holds_of_getBlockHeader hp) (by omega)
      rw [(getBlockHeader_some hp).1] at hl
      refine ⟨b', b :: l, ?_, hb', Lineage.cons hmem hl, by omega⟩
      rw [descendTo, if_pos hlt]
      simp only [hp, heq, append_assoc, singleton_append]
    · refine ⟨b, [], ?_, hb, Lineage.refl, by omega⟩
      rw [descendTo, if_neg hlt, append_nil]

/-- Of two blocks of one height neither is the root. -/
theorem mem_of_level {x y : BlockState τ} (hx : Holds f x) (hy : Holds f y)
    (hnum : x.blockNum = y.blockNum) (hne : x.id ≠ y.id) : x ∈ f.index := by
  rcases hx.cases with rfl | hmem
  · rcases hy.cases with rfl | hmem
    · exact absurd rfl hne
    · obtain ⟨p, hp, hpn⟩ := ht.parent y hmem
      have := ht.root_num_le (holds_of_getBlockHeader hp)
      omega
  · exact hmem

/-- The last loop stops at the first common parent. -/
theorem descendBoth_eq : ∀ (fuel : Nat) (x y : BlockState τ) (first second : List (BlockState τ)),
      Holds f x → Holds f y → x.blockNum = y.blockNum → x.id ≠ y.id →
      x.blockNum ≤ fuel →
      ∃ base l m, descendBoth f fuel x y first second = .ok (first ++ l, second ++ m) ∧
        Holds f base ∧ Lineage f.index base.id x.id l ∧ Lineage f.index base.id y.id m ∧
        ∃ a b, l.getLast? = some a ∧ m.getLast? = some b ∧ a.id ≠ b.id := by
  intro fuel
  induction fuel with
  | zero =>
    intro x y first second hx hy hnum hne hfuel
    -- at height zero there is only the root
    obtain ⟨p, -, hp⟩ := ht.parent x (mem_of_level ht hx hy hnum hne)
    omega
  | succ fuel ih =>
    intro x y first second hx hy hnum hne hfuel
    have hxm := mem_of_level ht hx hy hnum hne
    have hym := mem_of_level ht hy hx hnum.symm hne.symm
    obtain ⟨px, hpx, hnx⟩ := ht.parent x hxm
    obtain ⟨py, hpy, hny⟩ := ht.parent y hym
    have hpxid := (getBlockHeader_some hpx).1
    have hpyid := (getBlockHeader_some hpy).1
    rw [descendBoth]
    by_cases hprev : x.prev = y.prev
    · rw [if_pos hprev]
      refine ⟨px, [x], [y], rfl, holds_of_getBlockHeader hpx, ?_, ?_, x, y, rfl, rfl, hne⟩
      · refine Lineage.cons hxm ?_
        rw [hpxid]
        exact Lineage.refl
      · refine Lineage.cons hym ?_
        rw [hpxid, hprev]
        exact Lineage.refl
    · rw [if_neg hprev]
      have hpne : px.id ≠ py.id := by rwa [hpxid, hpyid]
      have hpx' := holds_of_getBlockHeader hpx
      have hpy' := holds_of_getBlockHeader hpy
      have hgx := ht.getBlock_mem (mem_of_level ht hpx' hpy' (by omega) hpne)
      have hgy := ht.getBlock_mem (mem_of_level ht hpy' hpx' (by omega) hpne.symm)
      rw [hpxid] at hgx
      rw [hpyid] at hgy
      obtain ⟨base, l, m, heq, hbase, hl, hm, a, b, ha, hb, hab⟩ :=
        ih px py (first ++ [x]) (second ++ [y]) hpx' hpy' (by omega) hpne (by omega)
      rw [hpxid] at hl
      rw [hpyid] at hm
      refine ⟨base, x :: l, y :: m, ?_, hbase, Lineage.cons hxm hl, Lineage.cons hym hm,
        a, b, ?_, ?_, hab⟩
      · simp only [hgx, hgy, heq, append_assoc, singleton_append]
      · cases l with
        | nil => exact nomatch ha
        | cons u l => rwa [List.getLast?_cons_cons]
      · cases m with
        | nil => exact nomatch hb
        | cons u m => rwa [List.getLast?_cons_cons]

/-- Two branches that part at `base`. -/
structure Branches (f : ForkDb τ) (x y base : BlockState τ)
    (first second : List (BlockState τ)) : Prop where
  holds : Holds f base
  pathFirst : Lineage f.index base.id x.id first
  pathSecond : Lineage f.index base.id y.id second
  parts : ∀ a b, first.getLast? = some a → second.getLast? = some b → a.id ≠ b.id

/-- **FORK POINT**: in a tree `fetch_branch_from` finds the two branches. -/
theorem fetchBranchFrom_eq {x y : BlockState τ} (hx : Holds f x) (hy : Holds f y) :
    ∃ base first second, fetchBranchFrom f x.id y.id = .ok (first, second) ∧
      Branches f x y base first second := by
  unfold fetchBranchFrom
  rw [show getBlockHeader f x.id = some x from hx,
    show getBlockHeader f y.id = some y from hy]
  obtain ⟨x', l, hl, hx', hlpath, hxnum⟩ :=
    descendTo_eq ht hy x.blockNum x [] hx (by omega)
  obtain ⟨y', m, hm, hy', hmpath, hynum⟩ :=
    descendTo_eq ht hx' y.blockNum y [] hy (by omega)
  simp only [hl, hm, nil_append, bind, Except.bind]
  by_cases hid : x'.id = y'.id
  · rw [if_pos hid]
    refine ⟨x', l, m, rfl, hx', hlpath, ?_, ?_⟩
    · rw [hid]
      exact hmpath
    · -- one of the two loops did nothing, so one branch is empty
      intro a b ha hb
      have hlx := hlpath.blockNum_eq ht hx' hx
      have hmy := hmpath.blockNum_eq ht hy' hy
      have hla : l ≠ [] := by
        intro hnil
        rw [hnil] at ha
        exact nomatch ha
      have hmb : m ≠ [] := by
        intro hnil
        rw [hnil] at hb
        exact nomatch hb
      have := length_pos_iff.mpr hla
      have := length_pos_iff.mpr hmb
      omega
  · rw [if_neg hid]
    obtain ⟨base, l', m', heq, hbase, hl', hm', a, b, ha, hb, hab⟩ :=
      descendBoth_eq ht x'.blockNum x' y' l m hx' hy' (by omega) hid (Nat.le_refl _)
    refine ⟨base, l ++ l', m ++ m', heq, hbase, hlpath.append hl', hmpath.append hm', ?_⟩
    intro a' b' ha' hb'
    rw [List.getLast?_append, ha] at ha'
    rw [List.getLast?_append, hb] at hb'
    rw [← Option.some.inj ha', ← Option.some.inj hb']
    exact hab

omit ht in
/-- The branches have no common lower part, which would end both in the same
    block. -/
theorem Branches.tail_nil {x y base : BlockState τ} {l m q : List (BlockState τ)}
    (h : Branches f x y base (l ++ q) (m ++ q)) : q = [] := by
  cases hq : q.getLast? with
  | none => exact List.getLast?_eq_none_iff.mp hq
  | some a =>
    refine absurd rfl (h.parts a a ?_ ?_)
    · rw [List.getLast?_append, hq]
      rfl
    · rw [List.getLast?_append, hq]
      rfl

/-- Fork point and branches are determined by the two ends. -/
theorem Branches.unique {x y base base' : BlockState τ} {l m l' m' : List (BlockState τ)}
    (h : Branches f x y base l m) (h' : Branches f x y base' l' m') :
    base = base' ∧ l = l' ∧ m = m' := by
  obtain ⟨p, hp⟩ := ht.path base.blockNum base (Nat.le_refl _) h.holds
  obtain ⟨p', hp'⟩ := ht.path base'.blockNum base' (Nat.le_refl _) h'.holds
  have hfirst := Lineage.unique ht.ranked (h.pathFirst.append hp) (h'.pathFirst.append hp')
  have hsecond := Lineage.unique ht.ranked (h.pathSecond.append hp) (h'.pathSecond.append hp')
  have hsame : l = l' ∧ m = m' ∧ p = p' := by
    rcases append_eq_append_iff.mp hfirst with ⟨q, hl, hq⟩ | ⟨q, hl, hq⟩
    · rw [hq, ← append_assoc] at hsecond
      have hm := append_cancel_right hsecond
      have hnil : q = [] := by
        rw [hl, ← hm] at h'
        exact h'.tail_nil
      rw [hnil, append_nil] at hl hm
      rw [hnil, nil_append] at hq
      exact ⟨hl.symm, hm, hq⟩
    · rw [hq, ← append_assoc] at hsecond
      have hm := append_cancel_right hsecond
      have hnil : q = [] := by
        rw [hl, hm] at h
        exact h.tail_nil
      rw [hnil, append_nil] at hl hm
      rw [hnil, nil_append] at hq
      exact ⟨hl, hm, hq.symm⟩
  obtain ⟨hl, hm, hpp⟩ := hsame
  rw [← hpp] at hp'
  exact ⟨h.holds.eq_of_id h'.holds (hp.end_eq hp'), hl, hm⟩

/-- The old branch is empty exactly when the old head is an ancestor. -/
theorem Branches.second_nil_iff {x y base : BlockState τ} {l m : List (BlockState τ)}
    (h : Branches f x y base l m) (hy : Holds f y) : m = [] ↔ Under f y.id x.id := by
  constructor
  · intro hm
    have hp := h.pathSecond
    rw [hm] at hp
    rw [hp.eq_of_nil]
    exact under_iff_path.mpr ⟨l, h.pathFirst⟩
  · intro hu
    obtain ⟨d, hd⟩ := under_iff_path.mp hu
    have hb : Branches f x y y d [] := ⟨hy, hd, Lineage.refl, fun _ _ _ hb => (nomatch hb)⟩
    exact (h.unique ht hb).2.2

/-- No block of the first branch is above the end of the second. -/
theorem Branches.not_under_second {x y base b : BlockState τ} {u v m : List (BlockState τ)}
    (h : Branches f x y base (u ++ b :: v) m) : ¬ Under f b.id y.id := by
  intro hu
  obtain ⟨l, hl⟩ := under_iff_path.mp hu
  have hm := Lineage.unique ht.ranked h.pathSecond (hl.append h.pathFirst.suffix)
  -- both branches would end in the same block
  obtain ⟨last, hlast⟩ : ∃ last, (b :: v).getLast? = some last :=
    ⟨_, List.getLast?_eq_some_getLast (cons_ne_nil _ _)⟩
  refine h.parts last last ?_ ?_ rfl
  · rw [List.getLast?_append, hlast]
    rfl
  · rw [hm, List.getLast?_append, hlast]
    rfl

end

end ForkTree
