import EosForce.ChainTypesProofs
import Mathlib.Data.List.DropRight

/-! # The protocol feature manager

    The manager keeps the activated features in a vector and, beside it, a
    table of the builtin features through which a linked list runs from the
    latest activation to the first.  `popped_blocks_to` unwinds the two on
    their own.  What it leaves is the manager on which only the activations
    that were not popped have been made.

    The sentinel `not_active` is also a block number.  A feature activated at
    that block counts as inactive, can be activated a second time, and then
    cuts the list behind it off. -/

namespace FeatureManager

open ChainTypes List

/-- `builtin_protocol_feature_entry::no_previous`. -/
def noPrevious : Nat := 2 ^ 64 - 1

/-- `builtin_protocol_feature_entry::not_active`. -/
def notActive : Nat := 2 ^ 32 - 1

/-- `builtin_protocol_feature_entry`. -/
structure BuiltinEntry where
  previous : Nat := noPrevious
  activationBlockNum : Nat := notActive
deriving DecidableEq, Repr

/-- `protocol_feature_entry`; the feature is named by its digest. -/
structure Entry where
  digest : Digest
  activationBlockNum : Nat
deriving DecidableEq, Repr

/-- `protocol_feature_manager`, less its set of features. -/
structure Manager where
  activatedProtocolFeatures : List Entry := []
  builtinProtocolFeatures : List BuiltinEntry
  headOfBuiltinActivationList : Nat := noPrevious
  initialized : Bool := true
deriving DecidableEq, Repr

/-- The manager that `init` leaves for a chain without activations, with `n`
    builtin features. -/
def fresh (n : Nat) : Manager where
  builtinProtocolFeatures := List.replicate n {}

/-- The manager once a feature is activated. -/
def Manager.activated (m : Manager) (a : Entry) (indx : Nat) : Manager :=
  { m with
    activatedProtocolFeatures := m.activatedProtocolFeatures ++ [a]
    builtinProtocolFeatures := m.builtinProtocolFeatures.set indx
      ⟨m.headOfBuiltinActivationList, a.activationBlockNum⟩
    headOfBuiltinActivationList := indx }

/-- The last activation is not after the one that is made. -/
def Manager.notAfter (m : Manager) (currentBlockNum : Nat) : Prop :=
  ∀ last ∈ m.activatedProtocolFeatures.getLast?, last.activationBlockNum ≤ currentBlockNum

instance (m : Manager) (n : Nat) : Decidable (m.notAfter n) := by
  unfold Manager.notAfter
  infer_instance

/-- `activate_feature`, where `find` is the set of features: which digests it
    knows, and which builtin feature each of them is. -/
def activateFeature (find : Digest → Option (Option UInt32)) (m : Manager) (a : Entry) :
    Except FcException Manager := do
  eosAssert (m.initialized = true) .protocolFeature
    "protocol_feature_manager is not yet initialized"
  match find a.digest with
  | none => .error ⟨.protocolFeature, "unrecognized protocol feature digest: $\x7bdigest\x7d"⟩
  | some builtinFeature => do
      eosAssert (m.notAfter a.activationBlockNum) .protocolFeature
        "last protocol feature activation block num is $\x7blast_activation_block_num\x7d yet attempting to activate protocol feature with a current block num of $\x7bcurrent_block_num\x7dprotocol features is $\x7blast_activation_block_num\x7d"
      match builtinFeature with
      | none => .error ⟨.protocolFeature,
          "invariant failure: encountered non-builtin protocol feature which is not yet supported"⟩
      | some indx =>
        match m.builtinProtocolFeatures[indx.toNat]? with
        | none => .error ⟨.protocolFeature,
            "invariant failure while trying to activate feature with digest '$\x7bdigest\x7d': unsupported builtin_protocol_feature_t $\x7bcodename\x7d"⟩
        | some e => do
            eosAssert (e.activationBlockNum = notActive) .protocolFeature
              "cannot activate already activated builtin feature with digest: $\x7bdigest\x7d"
            pure (m.activated a indx.toNat)

/-- The first loop of `popped_blocks_to`, over the table and the head of the
    list.  An index outside of the table or a list without an end would be
    `none`. -/
def popBuiltin (blockNum : Nat) : Nat → List BuiltinEntry → Nat → Option (List BuiltinEntry × Nat)
  | 0, _, _ => none
  | fuel + 1, l, head =>
    if head = noPrevious then some (l, head)
    else
      match l[head]? with
      | none => none
      | some e =>
        if e.activationBlockNum ≤ blockNum then some (l, head)
        else popBuiltin blockNum fuel (l.set head {}) e.previous

/-- The second loop of `popped_blocks_to`. -/
def popActivated (blockNum : Nat) (l : List Entry) : List Entry :=
  l.rdropWhile fun e => decide (blockNum < e.activationBlockNum)

/-- `popped_blocks_to`.  The first loop visits an entry at most twice: the
    second time its link is gone. -/
def poppedBlocksTo (m : Manager) (blockNum : Nat) : Except FcException Manager := do
  eosAssert (m.initialized = true) .protocolFeature
    "protocol_feature_manager is not yet initialized"
  match popBuiltin blockNum (m.builtinProtocolFeatures.length + 2) m.builtinProtocolFeatures
      m.headOfBuiltinActivationList with
  | none => .error ⟨.undefinedBehaviour, ""⟩
  | some (l, head) =>
    pure { m with
      activatedProtocolFeatures := popActivated blockNum m.activatedProtocolFeatures
      builtinProtocolFeatures := l
      headOfBuiltinActivationList := head }

/-! ## Replaying activations -/

section Replay

variable (find : Digest → Option (Option UInt32))

/-- The activations made one after the other, all of them accepted. -/
def replay (m : Manager) (acts : List Entry) : Except FcException Manager :=
  acts.foldlM (activateFeature find) m

variable {find} {m m' : Manager} {a : Entry} {acts : List Entry} {n : Nat}

/-- What an accepted activation found and did. -/
theorem activateFeature_ok (h : activateFeature find m a = .ok m') :
    m.initialized = true ∧ m.notAfter a.activationBlockNum ∧
      ∃ indx : UInt32, ∃ e, m.builtinProtocolFeatures[indx.toNat]? = some e ∧
        e.activationBlockNum = notActive ∧ m' = m.activated a indx.toNat := by
  rw [activateFeature, eosAssert_bind_ok_iff] at h
  obtain ⟨hinit, h⟩ := h
  split at h
  · cases h
  rw [eosAssert_bind_ok_iff] at h
  obtain ⟨hlast, h⟩ := h
  split at h
  · cases h
  rename_i indx _
  split at h
  · cases h
  rename_i e he
  rw [eosAssert_bind_ok_iff] at h
  obtain ⟨hidle, h⟩ := h
  cases h
  exact ⟨hinit, hlast, indx, e, he, hidle, rfl⟩

theorem replay_concat (h : replay find m (acts ++ [a]) = .ok m') :
    ∃ m1, replay find m acts = .ok m1 ∧ activateFeature find m1 a = .ok m' := by
  rw [replay, foldlM_append] at h
  obtain ⟨m1, h1, h⟩ := except_bind_ok h
  rw [foldlM_cons] at h
  obtain ⟨m2, h2, h⟩ := except_bind_ok h
  cases h
  exact ⟨m1, h1, h2⟩

theorem replay_snoc {m1 : Manager} (h : replay find m acts = .ok m1)
    (ha : activateFeature find m1 a = .ok m') : replay find m (acts ++ [a]) = .ok m' := by
  rw [replay, foldlM_append, show acts.foldlM (activateFeature find) m = .ok m1 from h]
  show (activateFeature find m1 a >>= fun m2 => pure m2) = _
  rw [ha]
  rfl

/-- The number of active entries of the table. -/
def active (l : List BuiltinEntry) : Nat := l.countP fun e => e.activationBlockNum ≠ notActive

/-- What holds of the manager after the activations `acts`. -/
structure Threaded (n : Nat) (acts : List Entry) (m : Manager) : Prop where
  initialized : m.initialized = true
  activated : m.activatedProtocolFeatures = acts
  length : m.builtinProtocolFeatures.length = n
  /-- an entry that is not active is as it was in the beginning -/
  idle : ∀ e ∈ m.builtinProtocolFeatures, e.activationBlockNum = notActive → e = {}
  count : active m.builtinProtocolFeatures = acts.length
  sorted : acts.Pairwise fun a b => a.activationBlockNum ≤ b.activationBlockNum

theorem Threaded.fresh (n : Nat) : Threaded n [] (fresh n) where
  initialized := rfl
  activated := rfl
  length := length_replicate
  idle e he _ := eq_of_mem_replicate he
  count := by
    rw [active, FeatureManager.fresh, countP_replicate]
    rfl
  sorted := .nil

theorem le_of_notAfter {k : Nat}
    (hsorted : acts.Pairwise fun a b => a.activationBlockNum ≤ b.activationBlockNum)
    (hlast : ∀ last ∈ acts.getLast?, last.activationBlockNum ≤ k) :
    ∀ a ∈ acts, a.activationBlockNum ≤ k := by
  induction acts using List.reverseRecOn with
  | nil => simp
  | append_singleton l last _ =>
    have hk : last.activationBlockNum ≤ k := hlast last (by simp)
    obtain ⟨_, _, hle⟩ := pairwise_append.mp hsorted
    intro a ha
    obtain ha | ha := mem_append.mp ha
    · exact (hle a ha last (mem_singleton_self _)).trans hk
    · rw [mem_singleton.mp ha]
      exact hk

theorem active_set {l : List BuiltinEntry} {i : Nat} {e e' : BuiltinEntry} (he : l[i]? = some e)
    (hidle : e.activationBlockNum = notActive) (hact : e'.activationBlockNum ≠ notActive) :
    active (l.set i e') = active l + 1 := by
  obtain ⟨hlt, rfl⟩ := List.getElem?_eq_some_iff.mp he
  rw [active, countP_set hlt]
  simp [active, hidle, hact]

theorem Threaded.activate (h : Threaded n acts m) (hne : a.activationBlockNum ≠ notActive)
    (hok : activateFeature find m a = .ok m') : Threaded n (acts ++ [a]) m' := by
  obtain ⟨hinit, hlast, indx, e, he, hidle, rfl⟩ := activateFeature_ok hok
  refine ⟨hinit, ?_, ?_, ?_, ?_, ?_⟩
  · exact congrArg (· ++ [a]) h.activated
  · exact length_set.trans h.length
  · intro x hx hx'
    obtain hmem | rfl := mem_or_eq_of_mem_set hx
    · exact h.idle x hmem hx'
    · exact absurd hx' hne
  · rw [length_append, ← h.count]
    exact active_set he hidle hne
  · rw [Manager.notAfter, h.activated] at hlast
    refine pairwise_append.mpr ⟨h.sorted, pairwise_singleton _ _, fun x hx y hy => ?_⟩
    rw [mem_singleton.mp hy]
    exact le_of_notAfter h.sorted hlast x hx

theorem threaded_replay (hne : ∀ a ∈ acts, a.activationBlockNum ≠ notActive)
    (h : replay find (fresh n) acts = .ok m) : Threaded n acts m := by
  induction acts using List.reverseRecOn generalizing m with
  | nil =>
    cases h
    exact .fresh n
  | append_singleton l a ih =>
    obtain ⟨m1, h1, ha⟩ := replay_concat h
    exact (ih (fun x hx => hne x (mem_append_left _ hx)) h1).activate (hne a (by simp)) ha

/-! ## Popping -/

/-- The activations that stay when the blocks above `blockNum` are popped. -/
def upTo (blockNum : Nat) (acts : List Entry) : List Entry :=
  acts.filter fun a => a.activationBlockNum ≤ blockNum

theorem upTo_concat_of_lt {b : Nat} (h : b < a.activationBlockNum) :
    upTo b (acts ++ [a]) = upTo b acts := by
  simp [upTo, Nat.not_le.mpr h]

theorem upTo_concat_of_le {b : Nat} (h : a.activationBlockNum ≤ b)
    (hsorted : (acts ++ [a]).Pairwise fun a b => a.activationBlockNum ≤ b.activationBlockNum) :
    upTo b (acts ++ [a]) = acts ++ [a] := by
  refine filter_eq_self.mpr fun x hx => decide_eq_true ?_
  exact le_of_notAfter hsorted (by simp [h]) x hx

/-- The second loop. -/
theorem popActivated_eq (b : Nat)
    (hsorted : acts.Pairwise fun a b => a.activationBlockNum ≤ b.activationBlockNum) :
    popActivated b acts = upTo b acts := by
  induction acts using List.reverseRecOn with
  | nil => rfl
  | append_singleton l a ih =>
    by_cases hle : a.activationBlockNum ≤ b
    · rw [upTo_concat_of_le hle hsorted]
      exact rdropWhile_concat_neg _ _ _ (by simpa using hle)
    · have hlt : b < a.activationBlockNum := Nat.not_le.mp hle
      rw [upTo_concat_of_lt hlt, ← ih (pairwise_append.mp hsorted).1]
      exact rdropWhile_concat_pos _ _ _ (decide_eq_true hlt)

/-- The table after an activation with the new entry cleared is the table
    before it. -/
theorem set_activated {indx : Nat} {e : BuiltinEntry} (h : Threaded n acts m)
    (he : m.builtinProtocolFeatures[indx]? = some e) (hidle : e.activationBlockNum = notActive) :
    (m.activated a indx).builtinProtocolFeatures.set indx {} = m.builtinProtocolFeatures := by
  obtain ⟨hlt, hget⟩ := List.getElem?_eq_some_iff.mp he
  obtain rfl : e = {} := h.idle e (hget ▸ getElem_mem hlt) hidle
  rw [Manager.activated, set_set, ← hget, set_getElem_self]

/-- The first loop: it undoes one activation after the other until it meets
    one that stays. -/
theorem popBuiltin_replay (b fuel : Nat)
    (hne : ∀ a ∈ acts, a.activationBlockNum ≠ notActive)
    (h : replay find (fresh n) acts = .ok m) (hfuel : acts.length < fuel) :
    ∃ m', replay find (fresh n) (upTo b acts) = .ok m' ∧
      popBuiltin b fuel m.builtinProtocolFeatures m.headOfBuiltinActivationList =
        some (m'.builtinProtocolFeatures, m'.headOfBuiltinActivationList) := by
  induction acts using List.reverseRecOn generalizing m fuel with
  | nil =>
    cases h
    obtain ⟨fuel, rfl⟩ := Nat.exists_eq_add_one.mpr hfuel
    exact ⟨fresh n, rfl, if_pos rfl⟩
  | append_singleton l a ih =>
    have hthreaded := threaded_replay hne h
    obtain ⟨m1, h1, ha⟩ := replay_concat h
    have hne1 : ∀ a ∈ l, a.activationBlockNum ≠ notActive :=
      fun x hx => hne x (mem_append_left _ hx)
    obtain ⟨_, _, indx, e, he, hidle, rfl⟩ := activateFeature_ok ha
    obtain ⟨fuel, rfl⟩ := Nat.exists_eq_add_one.mpr (Nat.zero_lt_of_lt hfuel)
    -- the head of the list is the entry of the last activation
    have hhead : indx.toNat ≠ noPrevious := by
      have := indx.toNat_lt
      rw [noPrevious]
      omega
    have hget : (m1.activated a indx.toNat).builtinProtocolFeatures[indx.toNat]? =
        some ⟨m1.headOfBuiltinActivationList, a.activationBlockNum⟩ :=
      List.getElem?_set_self (List.getElem?_eq_some_iff.mp he).1
    have hloop : popBuiltin b (fuel + 1) (m1.activated a indx.toNat).builtinProtocolFeatures
        indx.toNat = if a.activationBlockNum ≤ b then
          some ((m1.activated a indx.toNat).builtinProtocolFeatures, indx.toNat)
        else popBuiltin b fuel m1.builtinProtocolFeatures m1.headOfBuiltinActivationList := by
      rw [popBuiltin, if_neg hhead, hget]
      dsimp only
      rw [set_activated (threaded_replay hne1 h1) he hidle]
    by_cases hle : a.activationBlockNum ≤ b
    · rw [upTo_concat_of_le hle hthreaded.sorted]
      exact ⟨_, h, hloop.trans (if_pos hle)⟩
    · rw [upTo_concat_of_lt (Nat.not_le.mp hle)]
      obtain ⟨m', hm', hpop⟩ := ih fuel hne1 h1 (by simpa using hfuel)
      exact ⟨m', hm', (hloop.trans (if_neg hle)).trans hpop⟩

/-- `popped_blocks_to` succeeds and leaves the manager on which only the
    activations that stay were made. -/
theorem poppedBlocksTo_replay (b : Nat) (hne : ∀ a ∈ acts, a.activationBlockNum ≠ notActive)
    (h : replay find (fresh n) acts = .ok m) :
    ∃ m', poppedBlocksTo m b = .ok m' ∧ replay find (fresh n) (upTo b acts) = .ok m' := by
  have hm := threaded_replay hne h
  have hcount : acts.length ≤ n := by
    rw [← hm.count, ← hm.length]
    exact countP_le_length
  obtain ⟨m', hm', hpop⟩ := popBuiltin_replay b (n + 2) hne h (by omega)
  have hthreaded : Threaded n (upTo b acts) m' :=
    threaded_replay (fun a ha => hne a (mem_of_mem_filter ha)) hm'
  refine ⟨m', ?_, hm'⟩
  have hinit : m.initialized = m'.initialized :=
    hm.initialized.trans hthreaded.initialized.symm
  rw [poppedBlocksTo, eosAssert_bind_ok_iff, hm.length, hpop, hm.activated,
    popActivated_eq b hm.sorted, ← hthreaded.activated, hinit]
  exact ⟨hthreaded.initialized, rfl⟩

/-! ## Runs -/

/-- A call on the manager. -/
inductive ManagerCall where
  | activateFeature (a : Entry)
  | poppedBlocksTo (blockNum : Nat)
deriving DecidableEq, Repr

/-- A call, with the list of the activations that were accepted and are not
    popped.  An activation that is refused changes nothing. -/
def call (find : Digest → Option (Option UInt32)) (s : Manager × List Entry) :
    ManagerCall → Except FcException (Manager × List Entry)
  | .activateFeature a =>
    match activateFeature find s.1 a with
    | .ok m => .ok (m, s.2 ++ [a])
    | .error _ => .ok s
  | .poppedBlocksTo b => do
      let m ← poppedBlocksTo s.1 b
      pure (m, upTo b s.2)

/-- The call does not activate a feature at the block number that stands for
    "not active". -/
def ManagerCall.Regular : ManagerCall → Prop
  | .activateFeature a => a.activationBlockNum ≠ notActive
  | .poppedBlocksTo _ => True

/-- The manager is what replaying the activations `s.2` makes of a fresh one. -/
structure AsReplayed (find : Digest → Option (Option UInt32)) (n : Nat)
    (s : Manager × List Entry) : Prop where
  regular : ∀ a ∈ s.2, a.activationBlockNum ≠ notActive
  replayed : replay find (fresh n) s.2 = .ok s.1

theorem AsReplayed.call {s : Manager × List Entry} (h : AsReplayed find n s) {c : ManagerCall}
    (hc : c.Regular) : ∃ s', FeatureManager.call find s c = .ok s' ∧ AsReplayed find n s' := by
  cases c with
  | activateFeature a =>
    cases hact : FeatureManager.activateFeature find s.1 a with
    | error e => exact ⟨s, by rw [FeatureManager.call, hact], h⟩
    | ok m =>
      refine ⟨(m, s.2 ++ [a]), by rw [FeatureManager.call, hact], ?_, replay_snoc h.replayed hact⟩
      exact forall_mem_append.mpr ⟨h.regular, forall_mem_singleton.mpr hc⟩
  | poppedBlocksTo b =>
    obtain ⟨m', hpop, hm'⟩ := poppedBlocksTo_replay b h.regular h.replayed
    refine ⟨(m', upTo b s.2), ?_, fun a ha => h.regular a (mem_of_mem_filter ha), hm'⟩
    rw [FeatureManager.call, hpop]
    rfl

theorem AsReplayed.run {s : Manager × List Entry} (h : AsReplayed find n s)
    {calls : List ManagerCall} (hcalls : ∀ c ∈ calls, c.Regular) :
    ∃ s', calls.foldlM (FeatureManager.call find) s = .ok s' ∧ AsReplayed find n s' := by
  induction calls generalizing s with
  | nil => exact ⟨s, rfl, h⟩
  | cons c rest ih =>
    obtain ⟨s1, hcall, h1⟩ := h.call (hcalls c mem_cons_self)
    obtain ⟨s', hrest, h'⟩ := ih h1 fun x hx => hcalls x (mem_cons_of_mem _ hx)
    refine ⟨s', ?_, h'⟩
    rw [foldlM_cons, hcall]
    exact hrest

end Replay

/-- **POPPED ACTIVATIONS LEAVE NO TRACE**: after any sequence of activations
    and pops in which nothing is activated at block `not_active`, no
    assertion of `popped_blocks_to` has failed, and the manager (vector, table,
    list and all answers of `is_builtin_activated`) is the one on which only
    the activations that were not popped have been made. -/
theorem popped_as_never_made (find : Digest → Option (Option UInt32)) (n : Nat)
    (calls : List ManagerCall) (hcalls : ∀ c ∈ calls, c.Regular) :
    ∃ m kept, calls.foldlM (call find) (fresh n, []) = .ok (m, kept) ∧
      replay find (fresh n) kept = .ok m := by
  have hstart : AsReplayed find n (fresh n, []) := ⟨by simp, rfl⟩
  obtain ⟨s, hrun, hs⟩ := hstart.run hcalls
  exact ⟨s.1, s.2, hrun, hs.replayed⟩

/-! ## Two features -/

/-- Two recognised digests, for the builtin features 0 and 1. -/
def twoFeatures (d : Digest) : Option (Option UInt32) :=
  if d = 100 then some (some 0) else if d = 101 then some (some 1) else none

/-- Both are activated, the second is popped and activated again. -/
def regularCalls : List ManagerCall :=
  [.activateFeature ⟨100, 5⟩, .activateFeature ⟨101, 7⟩, .poppedBlocksTo 6,
    .activateFeature ⟨101, 9⟩]

theorem popped_as_never_made_twice :
    ∃ m kept, regularCalls.foldlM (call twoFeatures) (fresh 2, []) = .ok (m, kept) ∧
      replay twoFeatures (fresh 2) kept = .ok m := by
  refine popped_as_never_made twoFeatures 2 regularCalls fun c hc => ?_
  simp only [regularCalls, mem_cons, not_mem_nil, or_false] at hc
  obtain rfl | rfl | rfl | rfl := hc
  · exact (by decide : (5 : Nat) ≠ notActive)
  · exact (by decide : (7 : Nat) ≠ notActive)
  · trivial
  · exact (by decide : (9 : Nat) ≠ notActive)

/-- The first feature is activated twice at the last block number, which the
    manager takes for "not active". -/
def sentinelCalls : List ManagerCall :=
  [.activateFeature ⟨101, 5⟩, .activateFeature ⟨100, notActive⟩,
    .activateFeature ⟨100, notActive⟩, .poppedBlocksTo 10]

/-- The second activation of one feature is accepted and makes its entry its
    own predecessor; the pop then ends with an empty list, though the
    activation of the other feature stays. -/
theorem sentinel_cuts_list :
    (∃ m, sentinelCalls.foldlM (call twoFeatures) (fresh 2, []) = .ok (m, [⟨101, 5⟩]) ∧
      m.headOfBuiltinActivationList = noPrevious) ∧
    ∃ m, replay twoFeatures (fresh 2) [⟨101, 5⟩] = .ok m ∧ m.headOfBuiltinActivationList = 1 :=
  ⟨⟨_, by rfl, by rfl⟩, ⟨_, by rfl, by rfl⟩⟩

end FeatureManager
