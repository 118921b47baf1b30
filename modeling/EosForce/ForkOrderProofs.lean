import EosForce.ForkRevertProofs

/-! # The head of the fork database

    The fork database recomputes its head in `add` and `mark_valid`, with
    different rules for ties: `mark_valid` moves it to a strictly preferred
    block, `add` to the first element of the index, which among equally
    preferred blocks is the one with the smaller id.

    While the first element is the head or unvalidated (`Untied`), `add` does
    not move the head.  And while at most one block is preferred to the head
    (`Best`), marking other blocks does not, and marking that one makes it the
    head. -/

namespace ForkOrder

open ChainTypes ForkDatabase ForkTree ForkRevert List

variable {τ : Type} {f : ForkDb τ}

/-! ## The order of blocks -/

variable {a b : BlockState τ}

theorem firstPreferred_iff :
    firstPreferred a b = true ↔
      b.dposIrreversibleBlocknum < a.dposIrreversibleBlocknum ∨
        b.dposIrreversibleBlocknum = a.dposIrreversibleBlocknum ∧
          b.blockNum < a.blockNum := by
  simp [firstPreferred, Prod.Lex.toLex_lt_toLex]

theorem firstPreferred_irrefl (a : BlockState τ) : firstPreferred a a = false := by
  rw [Bool.eq_false_iff, ne_eq, firstPreferred_iff]
  omega

/-- What is preferred to `h` is preferred to whatever is not. -/
theorem firstPreferred_of_not {n b h : BlockState τ} (hn : firstPreferred n h = true)
    (hb : firstPreferred b h = false) : firstPreferred n b = true := by
  rw [Bool.eq_false_iff, ne_eq, firstPreferred_iff] at hb
  rw [firstPreferred_iff] at hn ⊢
  omega

/-- A preferred block is not preferred to. -/
theorem firstPreferred_asymm (h : firstPreferred a b = true) : firstPreferred b a = false := by
  rw [Bool.eq_false_iff, ne_eq, firstPreferred_iff]
  rw [firstPreferred_iff] at h
  omega

theorem byLibKey_le_iff {v : BlockId → Bool} :
    byLibKey v a ≤ byLibKey v b ↔
      v b.id < v a.id ∨ v b.id = v a.id ∧
        (b.dposIrreversibleBlocknum < a.dposIrreversibleBlocknum ∨
          b.dposIrreversibleBlocknum = a.dposIrreversibleBlocknum ∧
            (b.blockNum < a.blockNum ∨ b.blockNum = a.blockNum ∧ a.id ≤ b.id)) := by
  simp [byLibKey, Prod.Lex.toLex_le_toLex, eq_comm]

/-- Of two blocks with the same flag the later one is not preferred. -/
theorem firstPreferred_of_byLibKey {v : BlockId → Bool} (hle : byLibKey v a ≤ byLibKey v b)
    (hv : v a.id = v b.id) : firstPreferred b a = false := by
  rw [byLibKey_le_iff, hv] at hle
  have hrest := (hle.resolve_left (lt_irrefl _)).2
  rw [Bool.eq_false_iff, ne_eq, firstPreferred_iff]
  omega

/-- The first element is validated if any is, and then no other validated one
    is preferred to it. -/
theorem byLibFirst_of_valid {x b : BlockState τ} (hx : byLibFirst f = some x)
    (hb : b ∈ f.index) (hv : f.validated b.id = true) :
    f.validated x.id = true ∧ firstPreferred b x = false := by
  have hle : byLibKey f.validated x ≤ byLibKey f.validated b :=
    le_of_mem_argmin hb hx
  have hvx : f.validated x.id = true := by
    rw [byLibKey_le_iff, hv] at hle
    cases hvx : f.validated x.id with
    | false =>
      rw [hvx] at hle
      rcases hle with hlt | ⟨heq, -⟩
      · exact absurd hlt (by decide)
      · exact nomatch heq
    | true => rfl
  exact ⟨hvx, firstPreferred_of_byLibKey hle (hvx.trans hv.symm)⟩

theorem exists_byLibFirst {b : BlockState τ} (hb : b ∈ f.index) : ∃ x, byLibFirst f = some x := by
  cases hx : byLibFirst f with
  | none =>
    rw [byLibFirst, argmin_eq_none] at hx
    rw [hx] at hb
    exact nomatch hb
  | some x => exact ⟨x, rfl⟩

/-! ## Marking blocks -/

/-- At most `n` is preferred to the head. -/
def Best (f : ForkDb τ) (n : BlockState τ) : Prop :=
  ∀ b ∈ f.index, b.id ≠ n.id → firstPreferred b f.head = false

/-- The database with the blocks of `l` flagged and the same head. -/
def validate (f : ForkDb τ) (l : List (BlockState τ)) : ForkDb τ :=
  { f with validated := fun i => decide (i ∈ l.map (·.id)) || f.validated i }

theorem setValidated_validate (l : List (BlockState τ)) (b : BlockState τ) :
    setValidated (validate f l) b.id true = validate f (b :: l) := by
  unfold setValidated validate
  congr 1
  funext i
  by_cases hi : i = b.id <;> simp [hi]

theorem setValidated_of_valid {id : BlockId} (h : f.validated id = true) :
    setValidated f id true = f := by
  unfold setValidated
  have hv : (fun i => if i = id then true else f.validated i) = f.validated := by
    funext i
    by_cases hi : i = id
    · rw [if_pos hi, hi, h]
    · rw [if_neg hi]
  rw [hv]

/-- A mark is taken from no block. -/
theorem validated_setValidated {i j : BlockId} (h : f.validated i = true) :
    (setValidated f j true).validated i = true := by
  show (if i = j then true else f.validated i) = true
  rw [h, ite_self]

/-- The first element once a block is marked. -/
theorem byLibFirst_setValidated {b : BlockState τ} (hb : b ∈ f.index) :
    ∃ x ∈ f.index, byLibFirst (setValidated f b.id true) = some x ∧
      (setValidated f b.id true).validated x.id = true ∧ firstPreferred b x = false := by
  have hmem : b ∈ (setValidated f b.id true).index := hb
  obtain ⟨x, hx⟩ := exists_byLibFirst hmem
  exact ⟨x, argmin_mem hx, hx, byLibFirst_of_valid hx hmem (if_pos rfl)⟩

/-- Marking another block than the best one leaves the head alone. -/
theorem mark_of_ne {n b : BlockState τ} (hbest : Best f n)
    (hn : f.validated n.id = false) (hb : b ∈ f.index) (hne : b.id ≠ n.id) :
    mark f b = setValidated f b.id true := by
  unfold mark
  by_cases hv : f.validated b.id = true
  · rw [if_pos hv, setValidated_of_valid hv]
  · rw [if_neg hv, marked]
    obtain ⟨x, hxm, hx, hxv, -⟩ := byLibFirst_setValidated hb
    -- the candidate is validated, `n` is not
    have hxn : x.id ≠ n.id := by
      intro heq
      rw [heq] at hxv
      have hnv : (setValidated f b.id true).validated n.id = f.validated n.id :=
        if_neg (Ne.symm hne)
      rw [hnv, hn] at hxv
      exact nomatch hxv
    have hnot : firstPreferred x (setValidated f b.id true).head = false :=
      hbest x hxm hxn
    rw [hx]
    simp [hnot]

variable {n : BlockState τ}

/-- Marking a block that is preferred to the head and to every validated block
    makes it the head. -/
theorem mark_over (hids : (f.index.map (·.id)).Nodup) (hn : n ∈ f.index)
    (hv : f.validated n.id = false) (hpref : firstPreferred n f.head = true)
    (hover : ∀ x ∈ f.index, f.validated x.id = true → firstPreferred n x = true) :
    mark f n = { setValidated f n.id true with head := n } := by
  unfold mark
  rw [if_neg (by rw [hv]; exact Bool.false_ne_true), marked]
  obtain ⟨x, hxm, hx, hxv, hxn⟩ := byLibFirst_setValidated hn
  have hid : x.id = n.id := by
    by_contra hne
    have hxf : f.validated x.id = true := by
      rw [← hxv]
      exact (if_neg hne).symm
    rw [hover x hxm hxf] at hxn
    exact nomatch hxn
  have hxeq : x = n := inj_on_of_nodup_map hids hxm hn hid
  have hp : firstPreferred n (setValidated f n.id true).head = true := hpref
  rw [hx, hxeq]
  simp only [hp, if_true]

/-- Marking the best block makes it the head. -/
theorem mark_best (hids : (f.index.map (·.id)).Nodup) (hbest : Best f n) (hn : n ∈ f.index)
    (hv : f.validated n.id = false) (hpref : firstPreferred n f.head = true) :
    mark f n = { setValidated f n.id true with head := n } := by
  refine mark_over hids hn hv hpref ?_
  intro x hxm hxv
  refine firstPreferred_of_not hpref (hbest x hxm ?_)
  intro hid
  rw [hid, hv] at hxv
  exact nomatch hxv

theorem validate_of_ne {l : List (BlockState τ)} (hv : f.validated n.id = false)
    (hl : ∀ b ∈ l, b ∈ f.index ∧ b.id ≠ n.id) : (validate f l).validated n.id = false := by
  have hnl : n.id ∉ l.map (·.id) := by
    intro hmem
    obtain ⟨x, hx, hid⟩ := mem_map.mp hmem
    exact (hl x hx).2 hid
  show (decide (n.id ∈ l.map (·.id)) || f.validated n.id) = false
  rw [hv, decide_eq_false hnl]
  rfl

/-- So does marking a whole branch that does not contain the best block. -/
theorem markAll_of_ne {l : List (BlockState τ)} (hbest : Best f n) (hn : f.validated n.id = false)
    (hl : ∀ b ∈ l, b ∈ f.index ∧ b.id ≠ n.id) : markAll f l = validate f l := by
  induction l with
  | nil => simp [markAll, validate]
  | cons b l ih =>
    obtain ⟨⟨hb, hne⟩, hl⟩ := forall_mem_cons.mp hl
    show mark (markAll f l) b = _
    rw [ih hl, ← setValidated_validate]
    exact mark_of_ne (n := n) hbest (validate_of_ne hn hl) hb hne

/-- A branch up to the best block makes it the head. -/
theorem markAll_best {l : List (BlockState τ)} (hids : (f.index.map (·.id)).Nodup)
    (hbest : Best f n) (hn : n ∈ f.index) (hv : f.validated n.id = false)
    (hpref : firstPreferred n f.head = true) (hl : ∀ b ∈ l, b ∈ f.index ∧ b.id ≠ n.id) :
    markAll f (n :: l) = { validate f (n :: l) with head := n } := by
  show mark (markAll f l) n = _
  rw [markAll_of_ne hbest hv hl, mark_best (f := validate f l) hids hbest hn
    (validate_of_ne hv hl) hpref, setValidated_validate]

/-! ## Adding a block -/

/-- No validated block is before the head. -/
def Untied (f : ForkDb τ) : Prop :=
  ∀ x, byLibFirst f = some x → f.validated x.id = true → x.id = f.head.id

/-- No unvalidated block is preferred to the head. -/
def Settled (f : ForkDb τ) : Prop :=
  ∀ b ∈ f.index, f.validated b.id = false → firstPreferred b f.head = false

/-- The database with a new, unvalidated block and the same head. -/
abbrev added (f : ForkDb τ) (n : BlockState τ) : ForkDb τ := extended f n false

theorem getBlockHeader_added {id : BlockId} (hne : n.id ≠ id) :
    getBlockHeader (added f n) id = getBlockHeader f id := by
  show (if f.root.id = id then _ else List.find? _ (f.index ++ [n])) = _
  rw [List.find?_append, List.find?_cons_of_neg (by simpa using hne), List.find?_nil,
    Option.or_none]
  rfl

/-- A new block on a block of the tree. -/
theorem tree_added (ht : Tree f) {p n : BlockState τ}
    (hp : getBlockHeader f n.prev = some p) (hnum : n.blockNum = p.blockNum + 1)
    (hfresh : ∀ b, Holds f b → b.id ≠ n.id) : Tree (added f n) := by
  have hkeep : ∀ {id q}, getBlockHeader f id = some q → getBlockHeader (added f n) id = some q := by
    intro id q hq
    rw [getBlockHeader_added, hq]
    rw [← (getBlockHeader_some hq).1]
    exact Ne.symm (hfresh q (holds_of_getBlockHeader hq))
  refine ⟨?_, ?_, ?_, hkeep ht.head⟩
  · show ((f.index ++ [n]).map (·.id)).Nodup
    rw [map_append, nodup_append]
    refine ⟨ht.ids, nodup_singleton _, ?_⟩
    intro i hi j hj
    obtain ⟨b, hb, rfl⟩ := mem_map.mp hi
    rw [mem_singleton.mp hj]
    exact hfresh b (ht.holds_mem hb)
  · exact forall_mem_append.mpr ⟨ht.root, forall_mem_singleton.mpr (hfresh _ holds_root).symm⟩
  · refine forall_mem_append.mpr ⟨fun b hb => ?_, forall_mem_singleton.mpr ⟨p, hkeep hp, hnum⟩⟩
    obtain ⟨q, hq, hnum'⟩ := ht.parent b hb
    exact ⟨q, hkeep hq, hnum'⟩

theorem byLibKey_congr {v w : BlockId → Bool} {b : BlockState τ} (h : v b.id = w b.id) :
    byLibKey v b = byLibKey w b := by
  unfold byLibKey
  rw [h]

/-- In an untied database the first element is the head if it is validated. -/
theorem Untied.eq_head (ht : Tree f) (hu : Untied f) {x : BlockState τ}
    (hx : byLibFirst f = some x) (hv : f.validated x.id = true) : x = f.head :=
  (ht.holds_mem (argmin_mem hx)).eq_of_id ht.head (hu x hx hv)

theorem argmin_congr {α β : Type} [LinearOrder β] {k k' : α → β} {l : List α}
    (h : ∀ a ∈ l, k a = k' a) : l.argmin k = l.argmin k' := by
  induction l with
  | nil => rfl
  | cons a l ih =>
    rw [argmin_cons, argmin_cons, ih fun x hx => h x (mem_cons_of_mem a hx)]
    cases hx : l.argmin k' with
    | none => rfl
    | some c =>
      dsimp only
      rw [h a mem_cons_self, h c (mem_cons_of_mem a (argmin_mem hx))]

/-- The first element of an index with a new block. -/
theorem byLibFirst_extended (hfresh : ∀ b ∈ f.index, b.id ≠ n.id) (v : Bool) :
    byLibFirst (extended f n v) = (byLibFirst f).elim (some n) fun c =>
      if byLibKey (fun _ => v) n < byLibKey f.validated c then some n else some c := by
  have hold : ∀ b ∈ f.index, byLibKey (extended f n v).validated b = byLibKey f.validated b :=
    fun b hb => byLibKey_congr (if_neg (hfresh b hb))
  have hnew : byLibKey (extended f n v).validated n = byLibKey (fun _ => v) n :=
    byLibKey_congr (if_pos rfl)
  rw [byLibFirst, show (extended f n v).index = f.index ++ [n] from rfl, argmin_concat,
    argmin_congr hold, ← byLibFirst]
  cases hx : byLibFirst f with
  | none => rfl
  | some c =>
    dsimp only [Option.elim]
    rw [hnew, hold c (argmin_mem hx)]

/-- Whatever is not validated comes after a validated block. -/
theorem not_byLibKey_lt {v w : BlockId → Bool} (ha : v a.id = false) (hb : w b.id = true) :
    ¬ byLibKey v a < byLibKey w b := by
  simp [byLibKey, Prod.Lex.toLex_lt_toLex, ha, hb]

/-- **ADD AND THE HEAD**: a new block does not count, it only makes the first
    element of the index the head if it was not yet. -/
theorem insertedAs_false (hfresh : ∀ b ∈ f.index, b.id ≠ n.id) :
    insertedAs f n false = { added f n with head := (reheaded f).head } := by
  rw [insertedAs, reheaded, byLibFirst_extended hfresh, reheaded]
  have hflag : (extended f n false).validated n.id = false := if_pos rfl
  cases hx : byLibFirst f with
  | none =>
    simp only [Option.elim, hflag, Bool.false_eq_true, if_false]
    rfl
  | some c =>
    have hc : (extended f n false).validated c.id = f.validated c.id :=
      if_neg (hfresh c (argmin_mem hx))
    cases hv : f.validated c.id with
    | true => simp [not_byLibKey_lt (v := fun _ => false) (a := n) rfl hv, hc, hv]
    | false =>
      dsimp only [Option.elim]
      by_cases hlt : byLibKey (fun _ => false) n < byLibKey f.validated c
      · simp only [if_pos hlt, hflag, hv, Bool.false_eq_true, if_false]
        rfl
      · simp only [if_neg hlt, hc, hv, Bool.false_eq_true, if_false]
        rfl

/-- **ADD KEEPS THE HEAD** of an untied database. -/
theorem inserted_eq (ht : Tree f) (hu : Untied f) (hfresh : ∀ b ∈ f.index, b.id ≠ n.id) :
    insertedAs f n false = added f n := by
  have hhead : (reheaded f).head = f.head := by
    rw [reheaded]
    cases hx : byLibFirst f with
    | none => rfl
    | some x =>
      dsimp only
      split
      · rename_i hv
        exact hu.eq_head ht hx hv
      · rfl
  rw [insertedAs_false hfresh, hhead]
  rfl

/-- **ADD AND MARK**: a new block that is marked becomes the head if it is
    preferred to the one that `add` leaves. -/
theorem head_marked_insertedAs (hfresh : ∀ b ∈ f.index, b.id ≠ n.id) :
    (marked (insertedAs f n false) n.id).head =
      if firstPreferred n (reheaded f).head then n else (reheaded f).head := by
  have hflags : setValidated (insertedAs f n false) n.id true =
      { extended f n true with head := (reheaded f).head } := by
    rw [insertedAs_false hfresh, added, extended, extended, setValidated, setValidated,
      setValidated]
    congr 1
    funext i
    by_cases hi : i = n.id <;> simp [hi]
  have hfirst : byLibFirst { extended f n true with head := (reheaded f).head } =
      byLibFirst (extended f n true) := rfl
  rw [marked, hflags, hfirst, byLibFirst_extended hfresh]
  cases hx : byLibFirst f with
  | none =>
    dsimp only [Option.elim]
    split <;> rfl
  | some c =>
    dsimp only [Option.elim]
    by_cases hlt : byLibKey (fun _ => true) n < byLibKey f.validated c
    · rw [if_pos hlt]
      dsimp only
      split <;> rfl
    · -- the first element stays first; it is the head, and the new block is
      -- not preferred to it
      rw [if_neg hlt]
      have hv : f.validated c.id = true := by
        by_contra hv
        exact hlt (by simp [byLibKey, Prod.Lex.toLex_lt_toLex, hv])
      have hc : (reheaded f).head = c := by simp [reheaded, hx, hv]
      have hnot : firstPreferred n c = false := by
        refine firstPreferred_of_byLibKey (v := fun _ => true) ?_ rfl
        rw [byLibKey_congr (w := f.validated) hv.symm]
        exact not_lt.mp hlt
      simp only [hc, hnot, firstPreferred_irrefl, Bool.false_eq_true, if_false]

/-- Then only the new block can be preferred to the head. -/
theorem best_added (ht : Tree f) (hu : Untied f) (hs : Settled f) (n : BlockState τ) :
    Best (added f n) n := by
  intro b hb hne
  have hbm : b ∈ f.index := by
    rcases mem_append.mp hb with hmem | hmem
    · exact hmem
    · exact absurd (congrArg (·.id) (mem_singleton.mp hmem)) hne
  show firstPreferred b f.head = false
  cases hv : f.validated b.id with
  | false => exact hs b hbm hv
  | true =>
    obtain ⟨y, hy⟩ := exists_byLibFirst hbm
    obtain ⟨hyv, hyb⟩ := byLibFirst_of_valid hy hbm hv
    rw [← hu.eq_head ht hy hyv]
    exact hyb

/-- `pending_head` returns the best block if it is preferred to the head. -/
theorem pendingHead_eq (hids : (f.index.map (·.id)).Nodup) (hbest : Best f n) (hn : n ∈ f.index)
    (hv : f.validated n.id = false) :
    pendingHead f = if firstPreferred n f.head then n else f.head := by
  unfold pendingHead
  have hnf : n ∈ f.index.filter fun b => !f.validated b.id :=
    mem_filter.mpr ⟨hn, by rw [hv]; rfl⟩
  cases hx : (f.index.filter fun b => !f.validated b.id).argmin (byLibKey f.validated) with
  | none =>
    rw [argmin_eq_none.mp hx] at hnf
    exact nomatch hnf
  | some x =>
    obtain ⟨hxm, hxv⟩ := mem_filter.mp (argmin_mem hx)
    have hxv' : f.validated x.id = false := by simpa using hxv
    dsimp only
    by_cases hid : x.id = n.id
    · rw [inj_on_of_nodup_map hids hxm hn hid]
    · have hle := le_of_mem_argmin hnf hx
      have hnx := firstPreferred_of_byLibKey hle (hxv'.trans hv.symm)
      have hxh := hbest x hxm hid
      have hnh : firstPreferred n f.head = false := by
        cases hp : firstPreferred n f.head with
        | false => rfl
        | true =>
          rw [firstPreferred_of_not hp hxh] at hnx
          exact nomatch hnx
      rw [hxh, hnh]
      rfl

end ForkOrder
