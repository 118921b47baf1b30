import EosForce.ForkRevertProofs

/-! # Advancing the root

    `log_irreversible` appends the part of the head's branch that has become
    irreversible to the block log and makes its last block the new root.
    `advance_root` takes the new root out of the index and removes everything
    that hangs on the blocks before it; what stays is exactly what descends
    from the new root. -/

namespace ForkRoot

open ChainTypes Effect ForkDatabase ForkTree ForkSwitch ForkRevert List

variable {τ σ : Type} {f : ForkDb τ}

/-! ## Removing several subtrees -/

theorem under_mono {g : ForkDb τ} (hsub : ∀ b ∈ g.index, b ∈ f.index) {a y : BlockId}
    (h : Under g a y) : Under f a y := by
  obtain ⟨l, hl⟩ := under_iff_path.mp h
  exact under_iff_path.mpr ⟨l, hl.mono fun b hb => hsub b (hl.mem b hb)⟩

/-- Ancestors of what is outside a subtree are outside it. -/
theorem under_prune_iff {i j y : BlockId} (hy : ¬ Under f i y) :
    Under (prune f i) j y ↔ Under f j y := by
  constructor
  · exact under_mono fun b hb => (mem_prune.mp hb).1
  · intro h
    obtain ⟨l, hl⟩ := under_iff_path.mp h
    refine under_iff_path.mpr ⟨l, hl.mono ?_⟩
    intro b hb
    refine mem_prune.mpr ⟨hl.mem b hb, ?_⟩
    intro hib
    -- the rest of the path leads from `b` on to `y`
    obtain ⟨u, v, rfl⟩ := append_of_mem hb
    exact hy (hib.trans (under_iff_path.mpr ⟨u, hl.upper⟩))

/-- One subtree after the other is removed. -/
theorem forM_remove_eq (ids : List BlockId) :
    ∀ {g : ForkDb τ}, Ranked g.index → (∀ i ∈ ids, ¬ Under g i g.head.id) →
      ∃ idx, ids.forM remove g = .ok ⟨⟩ { g with index := idx } ∧
        idx.Sublist g.index ∧
        ∀ x, x ∈ idx ↔ x ∈ g.index ∧ ∀ i ∈ ids, ¬ Under g i x.id := by
  induction ids with
  | nil =>
    intro g _ _
    exact ⟨g.index, rfl, List.Sublist.refl _, by simp⟩
  | cons i ids ih =>
    intro g hr hhead
    have hi := hhead i mem_cons_self
    have hsub : (prune g i).index.Sublist g.index := filter_sublist
    obtain ⟨idx, heq, hsl, hmem⟩ := ih (hr.sublist hsub) (by
      intro j hj hu
      exact hhead j (mem_cons_of_mem _ hj) (under_mono hsub.subset hu))
    refine ⟨idx, ?_, hsl.trans hsub, ?_⟩
    · show (remove i >>= fun _ => ids.forM remove) g = _
      rw [bind_ok (remove_eq hr hi), heq]
      rfl
    · intro x
      rw [hmem x, mem_prune, forall_mem_cons, and_assoc]
      refine and_congr_right fun _ => and_congr_right fun hx => ?_
      refine forall₂_congr fun j _ => ?_
      rw [under_prune_iff hx]

/-- A subtree with the head in it stops the removals; what went before stays
    removed. -/
theorem forM_remove_stopped (ids : List BlockId) :
    ∀ {g : ForkDb τ}, Ranked g.index → (∃ i ∈ ids, Under g i g.head.id) →
      ∃ fault g', ids.forM remove g = .error fault g' ∧ g'.index.Sublist g.index := by
  induction ids with
  | nil =>
    rintro g - ⟨i, hi, -⟩
    exact absurd hi not_mem_nil
  | cons i ids ih =>
    rintro g hr ⟨j, hj, hju⟩
    by_cases hi : Under g i g.head.id
    · exact ⟨_, g, bind_error (remove_stopped hr hi), List.Sublist.refl _⟩
    · have hsub : (prune g i).index.Sublist g.index := filter_sublist
      have hjids : j ∈ ids := (mem_cons.mp hj).resolve_left fun h => hi (h ▸ hju)
      obtain ⟨fault, g', heq, hsl⟩ :=
        ih (hr.sublist hsub) ⟨j, hjids, (under_prune_iff hi).mpr hju⟩
      refine ⟨fault, g', ?_, hsl.trans hsub⟩
      show (remove i >>= fun _ => ids.forM remove) g = _
      rw [bind_ok (remove_eq hr hi), heq]

/-- What is not above `y` can be taken out without cutting `y` off. -/
theorem under_around (ht : Tree f) {r y : BlockState τ} (hr : r ∈ f.index) (hy : Holds f y)
    (hry : ¬ Under f r.id y.id) :
    Under { f with index := f.index.filter fun b => b.id ≠ r.id } f.root.id y.id := by
  obtain ⟨l, hl⟩ := ht.path y.blockNum y (Nat.le_refl _) hy
  refine under_iff_path.mpr ⟨l, hl.mono ?_⟩
  intro b hb
  refine mem_filter.mpr ⟨hl.mem b hb, decide_eq_true ?_⟩
  intro hbr
  rw [ht.ranked.eq_of_id (hl.mem b hb) hr hbr] at hb
  obtain ⟨u, v, rfl⟩ := append_of_mem hb
  exact hry (under_iff_path.mpr ⟨u, hl.upper⟩)

/-! ## `advance_root` -/

/-- The walk below a block collects its ancestors and the root. -/
theorem idsBelow_eq (ht : Tree f) :
    ∀ (l : List (BlockState τ)) (r : BlockState τ) (fuel : Nat),
      Lineage f.index f.root.id r.prev l → l.length < fuel →
      idsBelow f fuel r = .ok (l.map (·.id) ++ [f.root.id]) := by
  intro l
  induction l with
  | nil =>
    intro r fuel hp hfuel
    obtain ⟨k, rfl⟩ := Nat.exists_eq_add_of_lt hfuel
    have hroot := hp.eq_of_nil
    cases hget : getBlock f r.prev with
    | none =>
      rw [idsBelow, hget]
      show (if r.prev = f.root.id then _ else _) = _
      rw [if_pos hroot, hroot]
      rfl
    | some c =>
      obtain ⟨hc, hid⟩ := getBlock_some hget
      exact absurd (hid.trans hroot) (ht.root c hc)
  | cons p l ih =>
    intro r fuel hp hfuel
    obtain ⟨hpm, hpid, hpl⟩ := hp.tail
    rw [length_cons] at hfuel
    obtain ⟨k, rfl⟩ := Nat.exists_eq_add_of_lt hfuel
    have hget := ht.getBlock_mem hpm
    rw [← hpid] at hget
    rw [idsBelow, hget]
    show (idsBelow f _ p).map (r.prev :: ·) = _
    rw [ih p _ hpl (by omega), hpid]
    rfl

/-- What is left to do once the new root is out of the index: the removals. -/
theorem advanceRoot_steps (ht : Tree f) {r : BlockState τ} (hr : r ∈ f.index)
    (hvalid : f.validated r.id = true) :
    ∃ l, Lineage f.index f.root.id r.prev l ∧
      advanceRoot r.id f = ((l.map (·.id) ++ [f.root.id]).forM remove >>= fun _ =>
        modify fun g => { g with root := r })
          { f with index := f.index.filter fun b => b.id ≠ r.id } := by
  obtain ⟨p, hp⟩ := ht.path r.blockNum r (Nat.le_refl _) (ht.holds_mem hr)
  have hnum := hp.blockNum_eq ht holds_root (ht.holds_mem hr)
  cases p with
  | nil => exact absurd hp.eq_of_nil (ht.root r hr)
  | cons r' l =>
    obtain ⟨hr', hid, hl⟩ := hp.tail
    rw [← ht.ranked.eq_of_id hr hr' hid] at hl
    rw [length_cons] at hnum
    refine ⟨l, hl, ?_⟩
    unfold advanceRoot
    rw [get_bind, ht.getBlock_mem hr]
    dsimp only
    rw [bind_ok (ensure_pos hvalid _ _ f), idsBelow_eq ht l r r.blockNum hl (by omega)]
    have hlift : (liftFault (.ok (l.map (·.id) ++ [f.root.id])) : ForkM τ _) f =
        .ok (l.map (·.id) ++ [f.root.id]) f := rfl
    rw [bind_ok hlift, set_bind]

/-- **ADVANCE ROOT** keeps what descends from the new root. -/
theorem advanceRoot_eq (ht : Tree f) {r : BlockState τ} (hr : r ∈ f.index)
    (hvalid : f.validated r.id = true) (hhead : Under f r.id f.head.id) :
    ∃ idx, advanceRoot r.id f = .ok () { f with index := idx, root := r } ∧
      idx.Sublist f.index ∧
      ∀ x, x ∈ idx ↔ x ∈ f.index ∧ Under f r.id x.id ∧ x.id ≠ r.id := by
  obtain ⟨l, hl, hsteps⟩ := advanceRoot_steps ht hr hvalid
  -- no way leads past `r` once `r` is out of the index
  have hcut : ∀ y, Under f r.id y → ∀ i ∈ l.map (·.id) ++ [f.root.id],
      ¬ Under { f with index := f.index.filter fun b => b.id ≠ r.id } i y := by
    intro y hy i hi hu
    obtain ⟨m, hm⟩ := under_iff_path.mp hy
    obtain ⟨q, hq⟩ := under_iff_path.mp hu
    have hqf : Lineage f.index i y q :=
      hq.mono fun b hb => (mem_filter.mp (hq.mem b hb)).1
    have hri : ∃ l', Lineage f.index i r.id (r :: l') := by
      rcases mem_append.mp hi with hi | hi
      · obtain ⟨x, hx, rfl⟩ := mem_map.mp hi
        obtain ⟨u, v, rfl⟩ := append_of_mem hx
        exact ⟨u, Lineage.cons hr hl.upper⟩
      · rw [mem_singleton.mp hi]
        exact ⟨l, Lineage.cons hr hl⟩
    obtain ⟨l', hl'⟩ := hri
    have hsame := Lineage.unique ht.ranked hqf (hm.append hl')
    have hrq : r ∈ q := by
      rw [hsame]
      exact mem_append_right _ mem_cons_self
    have := (mem_filter.mp (hq.mem r hrq)).2
    simp at this
  have hrank : Ranked (f.index.filter fun b => b.id ≠ r.id) :=
    ht.ranked.sublist filter_sublist
  obtain ⟨idx, heq, hsl, hmem⟩ := forM_remove_eq (l.map (·.id) ++ [f.root.id])
    (g := { f with index := f.index.filter fun b => b.id ≠ r.id }) hrank
    (hcut _ hhead)
  refine ⟨idx, ?_, hsl.trans filter_sublist, ?_⟩
  · rw [hsteps, bind_ok heq]
    rfl
  · intro x
    rw [hmem x, mem_filter, decide_eq_true_eq, and_assoc]
    refine and_congr_right fun hx => ?_
    constructor
    · rintro ⟨hne, hall⟩
      refine ⟨?_, hne⟩
      by_contra hrx
      -- a way from the root around `r` would have removed `x`
      exact hall f.root.id (mem_append_right _ (mem_singleton_self _))
        (under_around ht hr (ht.holds_mem hx) hrx)
    · rintro ⟨hu, hne⟩
      exact ⟨hne, hcut _ hu⟩

section Advanced

variable {r : BlockState τ} {idx : List (BlockState τ)}

/-- What the new database holds. -/
theorem holds_advanced (ht : Tree f) (hr : r ∈ f.index) (hsub : idx.Sublist f.index)
    (hmem : ∀ x, x ∈ idx ↔ x ∈ f.index ∧ Under f r.id x.id ∧ x.id ≠ r.id)
    {y : BlockState τ} (hy : Holds f y) (hu : Under f r.id y.id) :
    Holds { f with index := idx, root := r } y := by
  unfold Holds getBlockHeader
  by_cases hid : r.id = y.id
  · rw [if_pos hid, (ht.holds_mem hr).eq_of_id hy hid]
  · rw [if_neg hid]
    refine find_of_mem (ht.ids.sublist (hsub.map _)) ((hmem y).mpr ⟨?_, hu, Ne.symm hid⟩)
    rcases hy.cases with rfl | hmem'
    · -- the old root is above the new one
      refine absurd hu (ht.not_under_of_num_lt (ht.holds_mem hr) holds_root ?_)
      obtain ⟨p, hp, hnum⟩ := ht.parent r hr
      have := ht.root_num_le (holds_of_getBlockHeader hp)
      omega
    · exact hmem'

theorem tree_advanced (ht : Tree f) (hr : r ∈ f.index) (hhead : Under f r.id f.head.id)
    (hsub : idx.Sublist f.index)
    (hmem : ∀ x, x ∈ idx ↔ x ∈ f.index ∧ Under f r.id x.id ∧ x.id ≠ r.id) :
    Tree { f with index := idx, root := r } := by
  refine ⟨ht.ids.sublist (hsub.map _), fun b hb => ((hmem b).mp hb).2.2, ?_,
    holds_advanced ht hr hsub hmem ht.head hhead⟩
  intro b hb
  obtain ⟨hbm, hu, hne⟩ := (hmem b).mp hb
  obtain ⟨p, hp, hnum⟩ := ht.parent b hbm
  obtain ⟨hpid, -⟩ := getBlockHeader_some hp
  refine ⟨p, ?_, hnum⟩
  rw [← hpid]
  refine holds_advanced ht hr hsub hmem (holds_of_getBlockHeader hp) ?_
  obtain ⟨m, hm⟩ := under_iff_path.mp hu
  cases m with
  | nil => exact absurd hm.eq_of_nil hne
  | cons c m =>
    obtain ⟨hc, hid, hm'⟩ := hm.tail
    rw [hpid, ht.ranked.eq_of_id hbm hc hid]
    exact under_iff_path.mpr ⟨m, hm'⟩

end Advanced

/-! ## `log_irreversible` -/

section Log

variable {env : ControllerEnv τ σ} {light : Bool}

theorem walk_eq (ht : Tree f) {y : BlockId} {l : List (BlockState τ)}
    (h : Lineage f.index f.root.id y l) :
    ∀ {fuel : Nat}, l.length < fuel → walk f fuel y = some l := by
  induction h with
  | refl =>
    intro fuel hfuel
    obtain ⟨k, rfl⟩ := Nat.exists_eq_add_of_lt hfuel
    cases hget : getBlock f f.root.id with
    | none => rw [walk, hget]
    | some c =>
      obtain ⟨hc, hid⟩ := getBlock_some hget
      exact absurd hid (ht.root c hc)
  | @cons b l hb _ ih =>
    intro fuel hfuel
    rw [length_cons] at hfuel
    obtain ⟨k, rfl⟩ := Nat.exists_eq_add_of_lt hfuel
    rw [walk, ht.getBlock_mem hb]
    show (walk f _ b.prev).map (b :: ·) = _
    rw [ih (by omega)]
    rfl

theorem fetchBranch_eq {h : BlockState τ} {l : List (BlockState τ)} {n : Nat} (ht : Tree f)
    (hh : Holds f h) (hl : Lineage f.index f.root.id h.id l) :
    fetchBranch f h.id n = some (l.filter fun b => b.blockNum ≤ n) := by
  have hnum := hl.blockNum_eq ht holds_root hh
  have hbound : l.length < walkBound f h.id := by
    unfold walkBound
    rw [show getBlockHeader f h.id = some h from hh]
    simp only [Option.map_some, Option.getD_some]
    omega
  rw [fetchBranch, walk_eq ht hl hbound]
  rfl

/-- Cutting a branch at a number leaves its lower part. -/
theorem filter_path (ht : Tree f) {y : BlockState τ} {l : List (BlockState τ)} (n : Nat)
    (h : Lineage f.index f.root.id y.id l) (hy : Holds f y) :
    (l.filter fun s => s.blockNum ≤ n) = [] ∨
      ∃ u r v, l = u ++ r :: v ∧ (l.filter fun s => s.blockNum ≤ n) = r :: v := by
  induction l generalizing y with
  | nil => exact .inl rfl
  | cons b l ih =>
    obtain ⟨hb, hid, hl⟩ := h.tail
    obtain ⟨p, hp, -⟩ := ht.parent b hb
    have hp' := holds_of_getBlockHeader hp
    rw [← (getBlockHeader_some hp).1] at hl
    by_cases hn : b.blockNum ≤ n
    · -- from here on everything is below the limit
      refine .inr ⟨[], b, l, rfl, ?_⟩
      refine filter_eq_self.mpr ?_
      intro x hx
      obtain ⟨u, v, huv⟩ := append_of_mem hx
      rw [huv] at h
      have hxm : x ∈ f.index := h.suffix.tail.1
      have hyb := hy.eq_of_id (ht.holds_mem hb) hid
      have := h.upper.blockNum_eq ht (ht.holds_mem hxm) hy
      rw [hyb] at this
      exact decide_eq_true (by omega)
    · rw [filter_cons_of_neg (by simpa using hn)]
      rcases ih hl hp' with hnil | ⟨u, r, v, huv, hf⟩
      · exact .inl hnil
      · exact .inr ⟨b :: u, r, v, by rw [huv, cons_append], hf⟩

/-- The controller after the blocks `m`, newest first, were logged. -/
def logged (c : Controller τ σ) : List (BlockState τ) → Controller τ σ
  | [] => c
  | b :: _ =>
    { c with
      undo := c.undo.take (c.head.blockNum - b.blockNum)
      blog := { c.blog with head := some (b.id, b.blockNum) } }

theorem appendLog_ok {c : Controller τ σ} {b : BlockState τ}
    (h : b.blockNum = c.blog.next) :
    appendLog b c = .ok () { c with blog := { c.blog with head := some (b.id, b.blockNum) } } := by
  unfold appendLog
  rw [get_bind, bind_ok (ensure_pos h _ _ c)]
  rfl

theorem logBlocks_eq (hmode : env.readMode ≠ .irreversible) (ht : Tree f) {i : BlockId}
    {m : List (BlockState τ)} (h : Lineage f.index f.root.id i m) :
    ∀ (rootId : BlockId) (more : List (BlockState τ)) (c : Controller τ σ),
      c.blog.next = f.root.blockNum + 1 →
      logBlocks env light rootId (m.reverse ++ more) c =
        logBlocks env light ((m.head?.map (·.id)).getD rootId) more (logged c m) := by
  induction h with
  | refl => intro rootId more c _; rfl
  | @cons b m hb hm ih =>
    intro rootId more c hnext
    rw [reverse_cons, append_assoc, ih rootId _ c hnext, singleton_append, logBlocks]
    have hbnum := (Lineage.cons hb hm).blockNum_eq ht holds_root (ht.holds_mem hb)
    rw [length_cons] at hbnum
    have hskip : applyIrreversible env light b (logged c m) = .ok () (logged c m) := by
      rw [applyIrreversible, if_neg hmode]
      rfl
    -- the block before `b` on the branch was logged last
    have hprev : (logged c m).blog.next = b.blockNum ∧
        (logged c m).undo.take (c.head.blockNum - b.blockNum) =
          c.undo.take (c.head.blockNum - b.blockNum) ∧
        (logged c m).head = c.head := by
      cases m with
      | nil =>
        rw [hbnum]
        exact ⟨hnext, rfl, rfl⟩
      | cons d m =>
        obtain ⟨hd, -, hm'⟩ := hm.tail
        have hdnum := (Lineage.cons hd hm').blockNum_eq ht holds_root (ht.holds_mem hd)
        rw [length_cons] at hdnum hbnum
        refine ⟨?_, ?_, rfl⟩
        · show d.blockNum + 1 = _
          omega
        · show (c.undo.take (c.head.blockNum - d.blockNum)).take _ = _
          rw [take_take]
          congr 1
          omega
    obtain ⟨hlog, hundo, hhead⟩ := hprev
    have hcommit : commitDb b.blockNum (logged c m) =
        .ok () { logged c m with undo := c.undo.take (c.head.blockNum - b.blockNum) } := by
      show EStateM.Result.ok () { logged c m with
        undo := (logged c m).undo.take ((logged c m).head.blockNum - b.blockNum) } = _
      rw [hhead, hundo]
    have happend : appendLog b
        { logged c m with undo := c.undo.take (c.head.blockNum - b.blockNum) } =
        .ok () (logged c (b :: m)) := by
      refine (appendLog_ok (c := { logged c m with
        undo := c.undo.take (c.head.blockNum - b.blockNum) }) hlog.symm).trans ?_
      cases m with
      | nil => rfl
      | cons d m => rfl
    rw [bind_ok (attempt_ok hskip)]
    dsimp only
    rw [bind_ok hcommit, bind_ok (attempt_ok happend)]
    rfl

/-- The block log ends at the root. -/
structure LogAtRoot (c : Controller τ σ) : Prop where
  head : ∀ id num, c.blog.head = some (id, num) →
    id = c.forkDb.root.id ∧ num = c.forkDb.root.blockNum
  empty : c.blog.head = none → c.blog.firstBlockNum = c.forkDb.root.blockNum + 1 ∧
    c.forkDb.root.blockNum + 1 < 2 ^ 32

theorem LogAtRoot.checkLog_eq {c : Controller τ σ} (h : LogAtRoot c) :
    checkLog c c = .ok c.forkDb.root.blockNum c ∧ c.blog.next = c.forkDb.root.blockNum + 1 := by
  unfold checkLog BlockLog.next
  cases hh : c.blog.head with
  | some hd =>
    obtain ⟨id, num⟩ := hd
    obtain ⟨hid, hnum⟩ := h.head id num hh
    refine ⟨?_, by rw [← hnum]; rfl⟩
    dsimp only
    rw [bind_ok (ensure_pos hid.symm _ _ c), hnum]
    rfl
  | none =>
    obtain ⟨hfirst, hlt⟩ := h.empty hh
    have hsub : subU32 c.blog.firstBlockNum 1 = c.forkDb.root.blockNum := by
      rw [hfirst, subU32_of_le hlt (by omega)]
      omega
    refine ⟨?_, hfirst⟩
    dsimp only
    rw [hsub, bind_ok (ensure_pos rfl _ _ c)]
    rfl

/-- What `log_irreversible` changes: nothing, or the root moves up the head's
    branch to `r`, with log and undo states following. -/
inductive RootMoves (c : Controller τ σ) (l : List (BlockState τ)) :
    Controller τ σ → Prop where
  | stays : RootMoves c l c
  | moves {u v : List (BlockState τ)} {r : BlockState τ} {idx : List (BlockState τ)} :
      l = u ++ r :: v →
      idx.Sublist c.forkDb.index →
      (∀ x, x ∈ idx ↔ x ∈ c.forkDb.index ∧ Under c.forkDb r.id x.id ∧ x.id ≠ r.id) →
      RootMoves c l
        { c with forkDb := { c.forkDb with index := idx, root := r }
                 undo := c.undo.take u.length
                 blog := { c.blog with head := some (r.id, r.blockNum) } }

/-- **LOG IRREVERSIBLE** returns, whatever the LIB of the head. -/
theorem logIrreversible_ok {c : Controller τ σ} (hmode : env.readMode ≠ .irreversible)
    (ht : Tree c.forkDb) (hlog : LogAtRoot c) (hhead : c.head = c.forkDb.head)
    {l : List (BlockState τ)} (hl : Lineage c.forkDb.index c.forkDb.root.id c.head.id l)
    (hvalid : ∀ b ∈ l, c.forkDb.validated b.id = true) :
    ∃ c', logIrreversible env light c = .ok () c' ∧ RootMoves c l c' := by
  obtain ⟨hcheck, hnext⟩ := hlog.checkLog_eq
  have hholds : Holds c.forkDb c.head := by
    rw [hhead]
    exact ht.head
  unfold logIrreversible
  rw [get_bind, bind_ok hcheck, if_neg hmode, ← hhead]
  by_cases hlib : c.head.dposIrreversibleBlocknum ≤ c.forkDb.root.blockNum
  · rw [if_pos hlib]
    exact ⟨c, rfl, RootMoves.stays⟩
  · rw [if_neg hlib]
    have hnum := hl.blockNum_eq ht holds_root hholds
    rw [fetchBranch_eq ht hholds hl]
    dsimp only
    rcases filter_path ht c.head.dposIrreversibleBlocknum hl hholds with
      hnil | ⟨u, r, v, huv, hfilter⟩
    · rw [hnil]
      refine ⟨c, ?_, RootMoves.stays⟩
      rw [reverse_nil, bind_ok (show logBlocks env light c.forkDb.root.id [] c =
        .ok (c.forkDb.root.id, none) c from rfl)]
      simp only [ne_eq, not_true_eq_false, if_false]
      rfl
    · rw [hfilter]
      rw [huv] at hl hnum
      have hsuffix := hl.suffix
      have hr : r ∈ c.forkDb.index := hsuffix.tail.1
      have hblocks : logBlocks env light c.forkDb.root.id ((r :: v).reverse ++ []) c = _ :=
        logBlocks_eq hmode ht hsuffix _ [] c hnext
      rw [append_nil] at hblocks
      have hblocks' : logBlocks env light c.forkDb.root.id (r :: v).reverse c =
          .ok (r.id, none) (logged c (r :: v)) := hblocks
      have hunder : Under c.forkDb r.id c.forkDb.head.id := by
        rw [← hhead]
        exact under_iff_path.mpr ⟨u, hl.upper⟩
      have hrvalid : c.forkDb.validated r.id = true :=
        hvalid r (huv ▸ mem_append_right _ mem_cons_self)
      obtain ⟨idx, hadv, hsub, hmem⟩ := advanceRoot_eq ht hr hrvalid hunder
      have hupper := hl.upper.blockNum_eq ht (ht.holds_mem hr) hholds
      have hundo : c.head.blockNum - r.blockNum = u.length := by omega
      have hon : onForkDb (advanceRoot r.id) (logged c (r :: v)) = .ok ()
          { logged c (r :: v) with forkDb := { c.forkDb with index := idx, root := r } } :=
        onForkDb_ok (c := logged c (r :: v)) hadv
      refine ⟨_, ?_, RootMoves.moves huv hsub hmem⟩
      rw [bind_ok hblocks']
      dsimp only
      rw [if_pos (ht.root r hr), bind_ok hon]
      show EStateM.Result.ok () _ = _
      congr 1
      show Controller.mk _ _ _ (c.undo.take (c.head.blockNum - r.blockNum)) _ = _
      rw [hundo]
      rfl

end Log

end ForkRoot
