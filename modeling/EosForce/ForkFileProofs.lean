import EosForce.ForkEditProofs

/-! # The file of the fork database

    `close` writes the root's header state, the number of blocks, the block
    states and the id of the head; `open` resets the database to that root and
    adds the blocks one by one, each with its checks.  A block can only be
    added after its parent.  The writer merges the validated and the
    unvalidated blocks, each in ascending order of the last irreversible and
    the own block number, so parents come first as long as the irreversible
    numbers do not decrease along the branches.

    The encoding itself is a parameter: symbols of any kind, and for every
    type that is written a reader that undoes its writer. -/

namespace ForkFile

open ChainTypes HeaderState Effect ForkDatabase ForkTree ForkOrder ForkEdit List
open ForkRevert (plainBlock)

/-! ## The encoding -/

/-- `fc::raw::pack` and `fc::raw::unpack` of one type; the reader hands on
    what is left of the stream. -/
structure Codec (β α : Type) where
  pack : α → List β
  unpack : List β → Except FcException (α × List β)
  unpack_pack : ∀ a rest, unpack (pack a ++ rest) = .ok (a, rest)

/-- The types that the file is made of.  A block state is packed with its
    flag. -/
structure Codecs (β τ : Type) where
  word : Codec β UInt32
  unsignedInt : Codec β UInt32
  headerState : Codec β BlockHeaderState
  blockState : Codec β (BlockState τ × Bool)
  blockId : Codec β BlockId

variable {β τ : Type}

def magicNumber : UInt32 := 0x30510FDB
def minSupportedVersion : UInt32 := 1
def maxSupportedVersion : UInt32 := 1

/-! ## `close` -/

/-- The elements in the order of `by_lib_block_num`. -/
def byLib (f : ForkDb τ) : List (BlockState τ) :=
  f.index.insertionSort fun a b => byLibKey f.validated a ≤ byLibKey f.validated b

/-- The validated elements from the last one back. -/
def validatedBack (f : ForkDb τ) : List (BlockState τ) :=
  ((byLib f).filter fun b => f.validated b.id).reverse

/-- The elements from `rbegin()` back to `lower_bound( false )`. -/
def unvalidatedBack (f : ForkDb τ) : List (BlockState τ) :=
  ((byLib f).filter fun b => !f.validated b.id).reverse

/-- The order of the blocks in the file: the loop takes the unvalidated block
    if the validated one is preferred to it. -/
def written (f : ForkDb τ) : List (BlockState τ) :=
  (validatedBack f).merge (unvalidatedBack f) fun v u => !firstPreferred v u

variable (c : Codecs β τ)

/-- The file that `close` writes; the number of blocks is a `uint32_t`. -/
def closeFile (f : ForkDb τ) : List β :=
  c.word.pack magicNumber ++ (c.word.pack maxSupportedVersion ++
    (c.headerState.pack f.root.toBlockHeaderState ++
      (c.unsignedInt.pack (UInt32.ofNat f.index.length) ++
        ((written f).flatMap (fun b => c.blockState.pack (b, f.validated b.id)) ++
          c.blockId.pack f.head.id))))

/-- `close`: the file, and the database with an empty index. -/
def close (f : ForkDb τ) : List β × ForkDb τ :=
  (closeFile c f, { f with index := [] })

/-! ## `open` -/

/-- `fc::raw::unpack` of one value. -/
def unpack {α : Type} (c : Codec β α) (input : List β) : ForkM τ (α × List β) :=
  liftFault ((c.unpack input).mapError Fault.exc)

/-- The type of the protocol feature validator. -/
abbrev Validator := Nat → List Digest → List Digest → Except FcException Unit

/-- The check of `add` with `validate` set. -/
def checkActivation (validator : Validator) (n prev : BlockState τ)
    (exts : List HeaderExtension) : Except FcException Unit :=
  match featureActivation exts with
  | none => .ok ()
  | some fs =>
    (validator n.header.timestamp prev.activatedProtocolFeatures fs).mapError fun _ =>
      ⟨.forkDatabase, "serialized fork database is incompatible with configured protocol features"⟩

/-- `fork_database_impl::add` with `validate` set. -/
def addChecked (validator : Validator) (n : BlockState τ) (v : Bool)
    (exts : List HeaderExtension) : ForkM τ Unit := do
  let f ← get
  match getBlockHeader f n.prev with
  | none => throw (.exc ⟨.unlinkableBlock, "unlinkable block"⟩)
  | some prev => do
      liftFault ((checkActivation validator n prev exts).mapError Fault.exc)
      addState n v false

/-- One turn of the loop of `open`; it reads through the block pointer. -/
def readBlock (validator : Validator) (input : List β) :
    ForkM τ (List β) := do
  let (s, rest) ← unpack c.blockState input
  match s.1.block with
  | none => throw (.exc ⟨.undefinedBehaviour, "null block"⟩)
  | some block => do
      let exts ← liftFault ((validateAndExtractHeaderExtensions block.header).mapError Fault.exc)
      addChecked validator s.1 s.2 exts
      pure rest

def readBlocks (c : Codecs β τ) (validator : Validator) : Nat → List β → ForkM τ (List β)
  | 0, input => pure input
  | n + 1, input => do
      let rest ← readBlock c validator input
      readBlocks c validator n rest

/-- The head is looked up by its id. -/
def findHead (headId : BlockId) : ForkM τ Unit := do
  let f ← get
  if f.root.id = headId then set { f with head := f.root }
  else
    match getBlock f headId with
    | none => throw (.exc ⟨.forkDatabase,
        "could not find head while reconstructing fork database from file; '$\x7bfilename\x7d' is likely corrupted"⟩)
    | some b => set { f with head := b }

/-- With no validated block the head has to be the root. -/
def headIsRoot (f : ForkDb τ) : ForkM τ Unit :=
  ensure (f.head.id = f.root.id) .forkDatabase
    "head not set to root despite no better option available; '$\x7bfilename\x7d' is likely corrupted"

/-- The last checks of `open`. -/
def checkHead : ForkM τ Unit := do
  let f ← get
  match byLibFirst f with
  | none => headIsRoot f
  | some candidate =>
    if f.validated candidate.id then
      ensure (firstPreferred candidate f.head = false) .forkDatabase
        "head not set to best available option available; '$\x7bfilename\x7d' is likely corrupted"
    else headIsRoot f

/-- `open` on a file that exists. -/
def openFile (validator : Validator) (input : List β) : ForkM τ Unit := do
  let (totem, input) ← unpack c.word input
  ensure (totem = magicNumber) .forkDatabase
    "Fork database file '$\x7bfilename\x7d' has unexpected magic number: $\x7bactual_totem\x7d. Expected $\x7bexpected_totem\x7d"
  let (version, input) ← unpack c.word input
  ensure (minSupportedVersion ≤ version ∧ version ≤ maxSupportedVersion) .forkDatabase
    "Unsupported version of fork database file '$\x7bfilename\x7d'. Fork database version is $\x7bversion\x7d while code supports version(s) [$\x7bmin\x7d,$\x7bmax\x7d]"
  let (bhs, input) ← unpack c.headerState input
  reset bhs
  let (size, input) ← unpack c.unsignedInt input
  let input ← readBlocks c validator size.toNat input
  let (headId, _) ← unpack c.blockId input
  findHead headId
  checkHead

/-! ## The order of the file -/

variable {f g : ForkDb τ}

/-- Along the file the numbers do not descend. -/
def Ascending (l : List (BlockState τ)) : Prop :=
  l.Pairwise fun a b => (!firstPreferred a b) = true

/-- Blocks with one flag, read backwards, ascend. -/
theorem ascending_back {p : BlockState τ → Bool}
    (hp : ∀ a b, p a = true → p b = true → f.validated a.id = f.validated b.id) :
    Ascending ((byLib f).filter p).reverse := by
  unfold Ascending
  rw [pairwise_reverse]
  have hsorted : (byLib f).Pairwise fun a b =>
      byLibKey f.validated a ≤ byLibKey f.validated b := by
    have : Std.Total fun a b : BlockState τ =>
        byLibKey f.validated a ≤ byLibKey f.validated b := ⟨fun a b => le_total _ _⟩
    have : IsTrans (BlockState τ) fun a b =>
        byLibKey f.validated a ≤ byLibKey f.validated b := ⟨fun a b c => le_trans⟩
    exact pairwise_insertionSort _ _
  rw [pairwise_filter]
  refine hsorted.imp ?_
  intro a b hle ha hb
  rw [firstPreferred_of_byLibKey hle (hp a b ha hb)]
  rfl

/-- **THE FILE ASCENDS**. -/
theorem ascending_written (f : ForkDb τ) : Ascending (written f) := by
  refine pairwise_merge ?_ ?_ _ _ (ascending_back ?_) (ascending_back ?_)
  · intro a b c hab hbc
    rw [Bool.not_eq_true', Bool.eq_false_iff, ne_eq, firstPreferred_iff] at hab hbc ⊢
    omega
  · intro a b
    cases hab : firstPreferred a b with
    | false => rfl
    | true =>
      rw [firstPreferred_asymm hab]
      rfl
  · intro a b ha hb
    rw [ha, hb]
  · intro a b ha hb
    rw [Bool.not_eq_true'] at ha hb
    rw [ha, hb]

theorem perm_written (f : ForkDb τ) : (written f).Perm f.index := by
  have hsplit : (validatedBack f ++ unvalidatedBack f).Perm (byLib f) :=
    ((reverse_perm _).append (reverse_perm _)).trans
      (filter_append_perm (fun b : BlockState τ => f.validated b.id) (byLib f))
  exact (merge_perm_append _).trans (hsplit.trans (perm_insertionSort _ _))

/-- The irreversible number does not decrease from a block to its child. -/
def LibGrows (f : ForkDb τ) : Prop :=
  ∀ b ∈ f.index, ∀ p, getBlockHeader f b.prev = some p →
    p.dposIrreversibleBlocknum ≤ b.dposIrreversibleBlocknum

/-- **PARENTS FIRST**: what a block of the file builds on is the root or
    stands before it. -/
theorem parent_written (ht : Tree f) (hlib : LibGrows f) {done todo : List (BlockState τ)}
    {b : BlockState τ} (h : written f = done ++ b :: todo) :
    b.prev = f.root.id ∨ ∃ p ∈ done, p.id = b.prev := by
  have hmem : ∀ x, x ∈ f.index ↔ x ∈ done ++ b :: todo := by
    intro x
    rw [← h]
    exact (perm_written f).mem_iff.symm
  have hb : b ∈ f.index := (hmem b).mpr (mem_append_right _ mem_cons_self)
  obtain ⟨p, hp, hnum⟩ := ht.parent b hb
  have hle := hlib b hb p hp
  obtain ⟨hid, rfl | hpm⟩ := getBlockHeader_some hp
  · exact .inl hid.symm
  · refine .inr ⟨p, ?_, hid⟩
    have hbp : firstPreferred b p = true := by
      rw [firstPreferred_iff]
      omega
    rcases mem_append.mp ((hmem p).mp hpm) with hd | ht'
    · exact hd
    · rcases mem_cons.mp ht' with rfl | htodo
      · rw [firstPreferred_irrefl] at hbp
        cases hbp
      · -- the parent would stand after the block that is preferred to it
        have hasc := ascending_written f
        rw [Ascending, h, pairwise_append] at hasc
        have := (pairwise_cons.mp hasc.2.1).1 p htodo
        rw [hbp] at this
        cases this

/-! ## Reading the blocks -/

theorem unpack_bind {α γ : Type} (c : Codec β α) (a : α) (rest : List β) (f : ForkDb τ)
    (k : α × List β → ForkM τ γ) : (unpack c (c.pack a ++ rest) >>= k) f = k (a, rest) f := by
  have h : unpack c (c.pack a ++ rest) f = .ok (a, rest) f := by
    unfold unpack
    rw [c.unpack_pack]
    rfl
  exact bind_ok h

/-- Every block of the index has its signed block, with well-formed header
    extensions. -/
def Complete (f : ForkDb τ) : Prop :=
  ∀ b ∈ f.index, ∃ block exts, b.block = some block ∧
    validateAndExtractHeaderExtensions block.header = .ok exts

/-- The validator accepts every activation. -/
def Accepting (validator : Validator) : Prop :=
  ∀ timestamp current new, validator timestamp current new = .ok ()

/-- The database while its file is read: the blocks so far, with the flags of
    the file. -/
structure Reading (f : ForkDb τ) (done : List (BlockState τ)) (g : ForkDb τ) : Prop where
  index : g.index = done
  root : g.root.toBlockHeaderState = f.root.toBlockHeaderState
  flags : ∀ b ∈ done, g.validated b.id = f.validated b.id

section Read

variable {c : Codecs β τ} {validator : Validator} {done : List (BlockState τ)}
  {b : BlockState τ} {rest : List β}

theorem checkActivation_ok (hacc : Accepting validator) (n prev : BlockState τ)
    (exts : List HeaderExtension) : checkActivation validator n prev exts = .ok () := by
  unfold checkActivation
  cases featureActivation exts with
  | none => rfl
  | some fs =>
    dsimp only
    rw [hacc]
    rfl

/-- A new block on a known one is added. -/
theorem addChecked_eq (hacc : Accepting validator) {prev : BlockState τ} {v : Bool}
    (hprev : getBlockHeader g b.prev = some prev) (hnone : getBlock g b.id = none)
    (exts : List HeaderExtension) :
    addChecked validator b v exts g = .ok () (insertedAs g b v) := by
  have hadd : addState b v false g = .ok () (insertedAs g b v) := by
    unfold addState
    rw [get_bind, hprev]
    dsimp only
    rw [hnone]
    rfl
  unfold addChecked
  rw [get_bind, hprev]
  dsimp only
  rw [checkActivation_ok hacc]
  exact hadd

/-- The parent of the next block is there. -/
theorem Reading.getBlockHeader_prev (hg : Reading f done g)
    (hparent : b.prev = f.root.id ∨ ∃ p ∈ done, p.id = b.prev) :
    ∃ prev, getBlockHeader g b.prev = some prev := by
  unfold getBlockHeader
  by_cases hr : g.root.id = b.prev
  · exact ⟨g.root, if_pos hr⟩
  · rw [if_neg hr]
    rcases hparent with hroot | ⟨p, hp, hid⟩
    · refine absurd ?_ hr
      rw [hroot, hg.root]
    · rw [← hg.index] at hp
      exact Option.isSome_iff_exists.mp (List.find?_isSome.mpr ⟨p, hp, by simpa using hid⟩)

/-- The next block with its flag. -/
theorem Reading.inserted (hg : Reading f done g) (hfresh : ∀ x ∈ done, x.id ≠ b.id) :
    Reading f (done ++ [b]) (insertedAs g b (f.validated b.id)) := by
  obtain ⟨head, hins⟩ := insertedAs_eq (f := g) (n := b) (v := f.validated b.id)
  rw [hins]
  refine ⟨?_, hg.root, ?_⟩
  · show g.index ++ [b] = done ++ [b]
    rw [hg.index]
  · intro x hx
    show (if x.id = b.id then f.validated b.id else g.validated x.id) = f.validated x.id
    rcases mem_append.mp hx with hx | hx
    · rw [if_neg (hfresh x hx)]
      exact hg.flags x hx
    · rw [mem_singleton.mp hx, if_pos rfl]

/-- One block is read and added. -/
theorem readBlock_eq (hacc : Accepting validator) (hg : Reading f done g)
    {block : SignedBlock τ} {exts : List HeaderExtension} (hblock : b.block = some block)
    (hexts : validateAndExtractHeaderExtensions block.header = .ok exts)
    (hparent : b.prev = f.root.id ∨ ∃ p ∈ done, p.id = b.prev)
    (hfresh : ∀ x ∈ done, x.id ≠ b.id) :
    readBlock c validator (c.blockState.pack (b, f.validated b.id) ++ rest) g =
      .ok rest (insertedAs g b (f.validated b.id)) := by
  obtain ⟨prev, hprev⟩ := hg.getBlockHeader_prev hparent
  have hnone : getBlock g b.id = none := by
    refine List.find?_eq_none.mpr ?_
    intro x hx
    rw [hg.index] at hx
    simpa using hfresh x hx
  unfold readBlock
  rw [unpack_bind]
  dsimp only
  rw [hblock]
  dsimp only
  rw [hexts]
  have hlift : (liftFault (Except.mapError Fault.exc (.ok exts)) : ForkM τ _) g = .ok exts g := rfl
  rw [bind_ok hlift, bind_ok (addChecked_eq hacc hprev hnone exts)]
  rfl

/-- **THE WHOLE LOOP**: the blocks of the file are all added.  The induction is
    on what is still to be read. -/
theorem readBlocks_eq (rest : List β) (hacc : Accepting validator) (ht : Tree f)
    (hlib : LibGrows f) (hcomplete : Complete f) :
    ∀ (todo done : List (BlockState τ)) (g : ForkDb τ), written f = done ++ todo →
      Reading f done g →
      ∃ g', readBlocks c validator todo.length
          (todo.flatMap (fun b => c.blockState.pack (b, f.validated b.id)) ++ rest) g =
          .ok rest g' ∧ Reading f (written f) g' := by
  intro todo
  induction todo with
  | nil =>
    intro done g hw hg
    rw [append_nil] at hw
    rw [hw]
    exact ⟨g, rfl, hg⟩
  | cons b todo ih =>
    intro done g hw hg
    have hb : b ∈ f.index := by
      rw [← (perm_written f).mem_iff, hw]
      exact mem_append_right _ mem_cons_self
    obtain ⟨block, exts, hblock, hexts⟩ := hcomplete b hb
    have hfresh : ∀ x ∈ done, x.id ≠ b.id := by
      have hnodup := ((perm_written f).map (·.id)).nodup_iff.mpr ht.ids
      rw [hw, map_append, nodup_append] at hnodup
      intro x hx
      exact hnodup.2.2 x.id (mem_map_of_mem hx) b.id (mem_map_of_mem mem_cons_self)
    obtain ⟨g', hreads, hg'⟩ := ih (done ++ [b]) _ (by rw [hw, append_assoc]; rfl)
      (hg.inserted hfresh)
    refine ⟨g', ?_, hg'⟩
    rw [flatMap_cons, append_assoc, length_cons, readBlocks,
      bind_ok (readBlock_eq hacc hg hblock hexts (parent_written ht hlib hw) hfresh), hreads]

end Read

/-! ## The round trip -/

/-- The same database: the root as a block header state, the same blocks with
    the same flags, the same head. -/
structure Restored (f g : ForkDb τ) : Prop where
  root : g.root.toBlockHeaderState = f.root.toBlockHeaderState
  index : g.index.Perm f.index
  flags : ∀ b ∈ f.index, g.validated b.id = f.validated b.id
  head : (f.head = f.root ∧ g.head = g.root) ∨ (f.head ∈ f.index ∧ g.head = f.head)

theorem findHead_eq (hc : Consistent f) (hg : Reading f (written f) g) :
    ∃ head, findHead f.head.id g = .ok () { g with head := head } ∧
      Restored f { g with head := head } := by
  have hperm : g.index.Perm f.index := by
    rw [hg.index]
    exact perm_written f
  have hflags : ∀ b ∈ f.index, g.validated b.id = f.validated b.id := by
    intro b hb
    exact hg.flags b ((perm_written f).mem_iff.mpr hb)
  have hid : g.root.id = f.root.id := by rw [hg.root]
  unfold findHead
  rw [get_bind]
  rcases hc.head.cases with hroot | hmem
  · rw [if_pos (by rw [hid, hroot])]
    exact ⟨g.root, rfl, hg.root, hperm, hflags, .inl ⟨hroot, rfl⟩⟩
  · have hne : ¬ g.root.id = f.head.id := by
      rw [hid]
      exact Ne.symm (hc.root _ hmem)
    have hget : getBlock g f.head.id = some f.head :=
      find_of_mem ((hperm.map (·.id)).nodup_iff.mpr hc.ids) (hperm.mem_iff.mpr hmem)
    rw [if_neg hne, hget]
    exact ⟨f.head, rfl, hg.root, hperm, hflags, .inr ⟨hmem, rfl⟩⟩

/-- The head of the file passes the last checks. -/
theorem checkHead_ok (hc : Consistent f) (hr : Restored f g) : checkHead g = .ok () g := by
  have hid : ¬ (∃ b ∈ f.index, f.validated b.id = true) → g.head.id = g.root.id := by
    intro hnone
    rcases hr.head with ⟨-, hroot⟩ | ⟨hmem, -⟩
    · rw [hroot]
    · rcases hc.headValid with hroot | hvalid
      · rw [hroot] at hmem
        exact absurd rfl (hc.root _ hmem)
      · exact absurd ⟨_, hmem, hvalid⟩ hnone
  unfold checkHead
  rw [get_bind]
  cases hx : byLibFirst g with
  | none =>
    dsimp only
    refine ensure_pos (hid ?_) _ _ g
    rintro ⟨b, hb, -⟩
    obtain ⟨x, hx'⟩ := exists_byLibFirst (hr.index.mem_iff.mpr hb)
    rw [hx] at hx'
    cases hx'
  | some x =>
    dsimp only
    have hxm : x ∈ f.index := hr.index.mem_iff.mp (argmin_mem hx)
    by_cases hv : g.validated x.id = true
    · rw [if_pos hv]
      refine ensure_pos ?_ _ _ g
      rw [hr.flags x hxm] at hv
      have hbest := hc.best x hxm hv
      rcases hr.head with ⟨hfroot, hroot⟩ | ⟨-, hsame⟩
      · rw [hfroot] at hbest
        rw [hroot]
        unfold firstPreferred at hbest ⊢
        rw [hr.root]
        exact hbest
      · rw [hsame]
        exact hbest
    · rw [if_neg hv]
      refine ensure_pos (hid ?_) _ _ g
      rintro ⟨b, hb, hbv⟩
      refine hv (byLibFirst_of_valid hx (hr.index.mem_iff.mpr hb) ?_).1
      rw [hr.flags b hb]
      exact hbv

/-- The database that `reset` leaves. -/
def fresh (f before : ForkDb τ) : ForkDb τ :=
  setValidated ⟨[], before.validated, { f.root.toBlockHeaderState with block := none },
    { f.root.toBlockHeaderState with block := none }⟩ f.root.id true

/-- `open` gets through the front part of a file of `close`; the number of
    blocks has gone through a `uint32_t`. -/
theorem openFile_close (validator : Validator) (f before : ForkDb τ) :
    openFile c validator (close c f).1 before =
      (readBlocks c validator (f.index.length % 2 ^ 32)
        ((written f).flatMap (fun b => c.blockState.pack (b, f.validated b.id)) ++
          c.blockId.pack f.head.id) >>= fun input =>
        unpack c.blockId input >>= fun p => findHead p.1 >>= fun _ => checkHead)
          (fresh f before) := by
  show openFile c validator (closeFile c f) before = _
  unfold openFile closeFile
  rw [unpack_bind]
  dsimp only
  rw [bind_ok (ensure_pos rfl _ _ _), unpack_bind]
  dsimp only
  rw [bind_ok (ensure_pos (by decide) _ _ _), unpack_bind]
  dsimp only
  have hreset : (reset f.root.toBlockHeaderState : ForkM τ Unit) before =
      .ok () (fresh f before) := rfl
  rw [bind_ok hreset, unpack_bind]
  dsimp only
  rw [UInt32.toNat_ofNat']

/-- **CLOSE AND OPEN** restore the database, for fewer than `2 ^ 32` blocks. -/
theorem open_close_restores (c : Codecs β τ) {validator : Validator} (hc : Consistent f)
    (hcomplete : Complete f) (hlib : LibGrows f) (hacc : Accepting validator)
    (hlen : f.index.length < 2 ^ 32) (before : ForkDb τ) :
    ∃ g, openFile c validator (close c f).1 before = .ok () g ∧ Restored f g := by
  have hstart : Reading f [] (fresh f before) :=
    ⟨rfl, rfl, fun b hb => absurd hb not_mem_nil⟩
  obtain ⟨g1, hreads, hg1⟩ := readBlocks_eq (c := c) (c.blockId.pack f.head.id)
    hacc hc.toTree hlib hcomplete (written f) [] _ rfl hstart
  obtain ⟨head, hfind, hrestored⟩ := findHead_eq hc hg1
  refine ⟨_, ?_, hrestored⟩
  rw [openFile_close, Nat.mod_eq_of_lt hlen, ← (perm_written f).length_eq, bind_ok hreads]
  have hhead := unpack_bind c.blockId f.head.id [] g1 fun p =>
    (findHead p.1 >>= fun _ => checkHead : ForkM τ Unit)
  rw [append_nil] at hhead
  refine hhead.trans ?_
  dsimp only
  rw [bind_ok hfind]
  exact checkHead_ok hc hrestored

/-! ## Too many blocks -/

/-- Symbols that are whole values. -/
inductive Token (τ : Type) where
  | word (a : UInt32)
  | unsignedInt (a : UInt32)
  | headerState (a : BlockHeaderState)
  | blockState (a : BlockState τ × Bool)
  | blockId (a : BlockId)

/-- Reading past the end of a `datastream`. -/
def pastEnd : FcException := ⟨.stdException, "datastream attempted to read past the end"⟩

/-- Every value is one symbol. -/
def tokenCodec {α : Type} (inj : α → Token τ) (proj : Token τ → Option α)
    (h : ∀ a, proj (inj a) = some a) : Codec (Token τ) α where
  pack a := [inj a]
  unpack
    | [] => .error pastEnd
    | t :: rest => (proj t).elim (.error pastEnd) fun a => .ok (a, rest)
  unpack_pack a rest := by
    show (proj (inj a)).elim (Except.error pastEnd) (fun a => Except.ok (a, rest)) = _
    rw [h]
    rfl

def tokens (τ : Type) : Codecs (Token τ) τ where
  word := tokenCodec .word (fun | .word a => some a | _ => none) fun _ => rfl
  unsignedInt := tokenCodec .unsignedInt (fun | .unsignedInt a => some a | _ => none) fun _ => rfl
  headerState := tokenCodec .headerState (fun | .headerState a => some a | _ => none) fun _ => rfl
  blockState := tokenCodec .blockState (fun | .blockState a => some a | _ => none) fun _ => rfl
  blockId := tokenCodec .blockId (fun | .blockId a => some a | _ => none) fun _ => rfl

/-- The `i`th of many blocks on block 1. -/
def sibling (i : Nat) : BlockState Unit := plainBlock (i + 2) 1 2

/-- Block 1, with the header part only. -/
def bareRoot : BlockState Unit := { plainBlock 1 0 1 with block := none }

/-- The root with `n` unvalidated blocks on it. -/
def wide (n : Nat) : ForkDb Unit where
  index := (List.range n).map sibling
  validated := fun i => decide (i = 1)
  root := bareRoot
  head := bareRoot

theorem mem_wide {n : Nat} {b : BlockState Unit} (hb : b ∈ (wide n).index) :
    ∃ i, b = sibling i := by
  obtain ⟨i, -, rfl⟩ := mem_map.mp hb
  exact ⟨i, rfl⟩

theorem consistent_wide (n : Nat) : Consistent (wide n) := by
  refine ⟨⟨⟨?_, ?_, ?_, rfl⟩, .inl rfl⟩, ?_⟩
  · show (((List.range n).map sibling).map (·.id)).Nodup
    rw [map_map]
    refine nodup_range.map ?_
    intro i j hij
    exact Nat.add_right_cancel hij
  · intro b hb
    obtain ⟨i, rfl⟩ := mem_wide hb
    show i + 2 ≠ 1
    omega
  · intro b hb
    obtain ⟨i, rfl⟩ := mem_wide hb
    exact ⟨bareRoot, rfl, rfl⟩
  · intro b hb hv
    obtain ⟨i, rfl⟩ := mem_wide hb
    have hid : i + 2 = 1 := of_decide_eq_true hv
    omega

theorem complete_wide (n : Nat) : Complete (wide n) := by
  intro b hb
  obtain ⟨i, rfl⟩ := mem_wide hb
  exact ⟨_, _, rfl, rfl⟩

theorem libGrows_wide (n : Nat) : LibGrows (wide n) := by
  intro b hb p hp
  obtain ⟨i, rfl⟩ := mem_wide hb
  cases hp
  exact Nat.le_refl _

theorem unpack_state {α : Type} {c : Codec β α} {input : List β} {p : α × List β}
    (h : unpack c input f = .ok p g) : g = f := by
  unfold unpack at h
  cases hx : (c.unpack input).mapError Fault.exc with
  | error e =>
    rw [hx] at h
    cases h
  | ok q =>
    rw [hx] at h
    cases h
    rfl

theorem findHead_index {headId : BlockId} (h : findHead headId f = .ok () g) :
    g.index = f.index := by
  unfold findHead at h
  rw [get_bind] at h
  split at h
  · cases h
    rfl
  · cases hget : getBlock f headId with
    | none =>
      rw [hget] at h
      cases h
    | some b =>
      rw [hget] at h
      cases h
      rfl

theorem ensure_ok {p : Prop} [Decidable p] {t : ExceptionType} {what : String}
    (h : ensure p t what f = .ok () g) : g = f := by
  unfold ensure at h
  split at h
  · cases h
    rfl
  · cases h

theorem checkHead_state (h : checkHead f = .ok () g) : g = f := by
  unfold checkHead at h
  rw [get_bind] at h
  cases hx : byLibFirst f with
  | none =>
    rw [hx] at h
    exact ensure_ok h
  | some x =>
    rw [hx] at h
    dsimp only at h
    split at h
    · exact ensure_ok h
    · exact ensure_ok h

/-- Where the number of blocks goes through the `uint32_t` as zero, no block is
    read back. -/
theorem open_wide_index (c : Codecs β Unit) {validator : Validator} {n : Nat}
    (hn : n % 2 ^ 32 = 0) {before g : ForkDb Unit}
    (h : openFile c validator (close c (wide n)).1 before = .ok () g) : g.index = [] := by
  have hlen : (wide n).index.length = n := by
    show ((List.range n).map sibling).length = n
    rw [length_map, length_range]
  rw [openFile_close, hlen, hn] at h
  obtain ⟨input, s1, hread, h⟩ := bind_ok_inv h
  cases hread
  obtain ⟨p, s2, hunpack, h⟩ := bind_ok_inv h
  obtain ⟨_, s3, hfind, h⟩ := bind_ok_inv h
  rw [checkHead_state h, findHead_index hfind, unpack_state hunpack]
  rfl

theorem not_restored_wide (c : Codecs β Unit) {validator : Validator} {n : Nat}
    (hn : n % 2 ^ 32 = 0) (hpos : 0 < n) {before g : ForkDb Unit}
    (h : openFile c validator (close c (wide n)).1 before = .ok () g) : ¬ Restored (wide n) g := by
  intro hr
  have hperm := hr.index
  rw [open_wide_index c hn h] at hperm
  have hmem : sibling 0 ∈ (wide n).index := mem_map_of_mem (mem_range.mpr hpos)
  exact absurd (hperm.mem_iff.mpr hmem) not_mem_nil

/-- **COUNTEREXAMPLE**: the root with `2 ^ 32` blocks on it; the file says that
    there are none. -/
theorem open_close_loses_blocks :
    ∃ n, n = 2 ^ 32 ∧ Consistent (wide n) ∧ Complete (wide n) ∧ LibGrows (wide n) ∧
      ∀ g, openFile (tokens Unit) (fun _ _ _ => .ok ()) (close (tokens Unit) (wide n)).1
        (wide n) = .ok () g → ¬ Restored (wide n) g := by
  refine ⟨_, rfl, consistent_wide _, complete_wide _, libGrows_wide _, ?_⟩
  intro g h
  exact not_restored_wide (tokens Unit) (Nat.mod_self _) (Nat.two_pow_pos 32) h

theorem open_close_three :
    ∃ g, openFile (tokens Unit) (fun _ _ _ => .ok ()) (close (tokens Unit) (wide 3)).1
        (wide 0) = .ok () g ∧ Restored (wide 3) g :=
  open_close_restores (tokens Unit) (consistent_wide 3) (complete_wide 3) (libGrows_wide 3)
    (fun _ _ _ => rfl) (by decide) (wide 0)

end ForkFile
