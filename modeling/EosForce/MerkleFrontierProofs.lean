import Mathlib.Data.Nat.Log

/-! # Merkle trees over a growing list

    A merkle tree is built from its leaves level by level: neighbours are
    combined, and a last element without a neighbour is combined with itself.
    To append a leaf it is enough to keep the *frontier*, the roots of the
    complete subtrees to the left of the next leaf, one for each set bit of the
    number of leaves.  The append climbs from the new leaf to the root; at each
    level the bit of the leaf's index says whether the node is a right child,
    whose left sibling is the next element of the frontier, or a left child,
    whose right sibling is not there yet and is taken to be the node itself.

    Everything here is over an arbitrary type with an arbitrary way to combine
    two nodes. -/

namespace MerkleFrontier

open List

variable {α : Type} {node : α → α → α}

/-! ## Levels -/

/-- Combine neighbours; an odd last element is dropped. -/
def pairs (node : α → α → α) : List α → List α
  | [] => []
  | [_] => []
  | a :: b :: rest => node a b :: pairs node rest

/-- An odd last element is doubled. -/
def evened (xs : List α) : List α :=
  if xs.length % 2 = 1 then xs ++ xs.getLast?.toList else xs

/-- The next level of the tree. -/
def level (node : α → α → α) (xs : List α) : List α := pairs node (evened xs)

/-- Level by level the list comes down to one element. -/
inductive Collapses (node : α → α → α) : List α → α → Prop where
  | single {a : α} : Collapses node [a] a
  | step {xs : List α} {a : α} :
      1 < xs.length → Collapses node (level node xs) a → Collapses node xs a

theorem pairs_append (xs ys : List α) (h : xs.length % 2 = 0) :
    pairs node (xs ++ ys) = pairs node xs ++ pairs node ys := by
  induction xs using pairs.induct with
  | case1 => rfl
  | case2 a =>
    rw [length_singleton] at h
    cases h
  | case3 a b rest ih =>
    rw [length_cons, length_cons] at h
    rw [cons_append, cons_append, pairs, pairs, ih (by omega), cons_append]

theorem length_pairs (xs : List α) : (pairs node xs).length = xs.length / 2 := by
  induction xs using pairs.induct with
  | case1 => simp [pairs]
  | case2 a => simp [pairs]
  | case3 a b rest ih =>
    rw [pairs, length_cons, length_cons, length_cons, ih]
    omega

/-- A new element on an even list is alone on its side. -/
theorem level_snoc_even {xs : List α} (h : xs.length % 2 = 0) (x : α) :
    level node (xs ++ [x]) = pairs node xs ++ [node x x] := by
  have hodd : (xs ++ [x]).length % 2 = 1 := by
    rw [length_append, length_singleton]
    omega
  rw [level, evened, if_pos hodd, List.getLast?_append, append_assoc, pairs_append xs _ h]
  rfl

/-- On an odd list it is the right child of a pair. -/
theorem level_snoc_odd {ys : List α} (h : ys.length % 2 = 0) (l x : α) :
    level node (ys ++ [l] ++ [x]) = pairs node ys ++ [node l x] := by
  have heven : ¬ (ys ++ [l] ++ [x]).length % 2 = 1 := by
    rw [length_append, length_append, length_singleton, length_singleton]
    omega
  rw [level, evened, if_neg heven, append_assoc, pairs_append ys _ h]
  rfl

/-- A level has about half as many elements. -/
theorem length_level (xs : List α) : (level node xs).length = (xs.length + 1) / 2 := by
  rw [level, length_pairs, evened]
  split
  · rename_i hodd
    have hne : xs ≠ [] := by
      rintro rfl
      cases hodd
    rw [List.getLast?_eq_some_getLast hne, length_append]
    show (xs.length + 1) / 2 = _
    rfl
  · omega

/-! ## The frontier -/

/-- `fs` lists the roots of the complete subtrees of `xs`, smallest first. -/
inductive Frontier (node : α → α → α) : List α → List α → Prop where
  | nil : Frontier node [] []
  | even {xs fs : List α} :
      xs.length % 2 = 0 → Frontier node (pairs node xs) fs → Frontier node xs fs
  | odd {ys fs : List α} {l : α} :
      ys.length % 2 = 0 → Frontier node (pairs node ys) fs → Frontier node (ys ++ [l]) (l :: fs)

/-- The climb from a new leaf with the given index: the nodes that the next
    append needs, after those collected so far, and the root.  `none` stands
    for a frontier that is too short. -/
def climb (node : α → α → α) :
    Nat → Nat → Bool → α → List α → List α → Option (List α × α)
  | 0, _, _, top, _, updated => some (updated, top)
  | depth + 1, index, isPartial, top, active, updated =>
    if index % 2 = 0 then
      climb node depth (index / 2) true (node top top) active
        (if isPartial then updated else updated ++ [top])
    else
      match active with
      | [] => none
      | left :: rest =>
        climb node depth (index / 2) isPartial (node left top) rest
          (if isPartial then updated ++ [left] else updated)

/-- One level less for half as many leaves. -/
theorem clog_half {n : Nat} (h : 0 < n) : Nat.clog 2 (n + 1) = Nat.clog 2 (n / 2 + 1) + 1 := by
  rw [Nat.clog_of_two_le (by omega) (by omega)]
  congr 2
  omega

section Climb

variable {xs fs : List α}

/-- The first step of the climb from a left child. -/
theorem climb_left {isPartial : Bool} {top : α} {active updated : List α} (hne : xs ≠ [])
    (h : xs.length % 2 = 0) :
    climb node (Nat.clog 2 (xs.length + 1)) xs.length isPartial top active updated =
      climb node (Nat.clog 2 ((pairs node xs).length + 1)) (pairs node xs).length true
        (node top top) active (if isPartial then updated else updated ++ [top]) := by
  rw [length_pairs, clog_half (length_pos_iff.mpr hne), climb.eq_def]
  exact if_pos h

/-- The first step from a right child. -/
theorem climb_right {isPartial : Bool} {top left : α} {active updated : List α}
    (h : xs.length % 2 = 0) :
    climb node (Nat.clog 2 ((xs ++ [left]).length + 1)) (xs ++ [left]).length isPartial top
        (left :: active) updated =
      climb node (Nat.clog 2 ((pairs node xs).length + 1)) (pairs node xs).length isPartial
        (node left top) active (if isPartial then updated ++ [left] else updated) := by
  have hhalf : xs.length / 2 = (xs.length + 1) / 2 := by omega
  rw [length_pairs, hhalf, length_append, length_singleton, clog_half (Nat.succ_pos _),
    climb.eq_def]
  exact if_neg (by omega)

theorem Collapses.left {t root : α} (hne : xs ≠ []) (hlen : xs.length % 2 = 0)
    (h : Collapses node (pairs node xs ++ [node t t]) root) : Collapses node (xs ++ [t]) root := by
  refine .step ?_ (by rwa [level_snoc_even hlen])
  rw [length_append]
  exact Nat.lt_add_of_pos_left (length_pos_iff.mpr hne)

theorem Collapses.right {l t root : α} (hlen : xs.length % 2 = 0)
    (h : Collapses node (pairs node xs ++ [node l t]) root) :
    Collapses node (xs ++ [l] ++ [t]) root :=
  .step (by simp) (by rwa [level_snoc_odd hlen])

/-- From a node that is only partly there the climb copies the frontier.  The
    induction follows the levels. -/
theorem climb_partial (h : Frontier node xs fs) :
    ∀ (t : α) (rest updated : List α), ∃ root,
      climb node (Nat.clog 2 (xs.length + 1)) xs.length true t (fs ++ rest) updated =
          some (updated ++ fs, root) ∧
        Collapses node (xs ++ [t]) root := by
  induction h with
  | nil =>
    intro t rest updated
    refine ⟨t, ?_, Collapses.single⟩
    rw [append_nil]
    rfl
  | @even xs fs hlen _ ih =>
    intro t rest updated
    cases xs with
    | nil => exact ih t rest updated
    | cons a xs =>
      obtain ⟨root, hclimb, hroot⟩ := ih (node t t) rest updated
      exact ⟨root, (climb_left (cons_ne_nil a xs) hlen).trans hclimb,
        hroot.left (cons_ne_nil a xs) hlen⟩
  | @odd ys fs l hlen _ ih =>
    intro t rest updated
    obtain ⟨root, hclimb, hroot⟩ := ih (node l t) rest (updated ++ [l])
    refine ⟨root, ?_, hroot.right hlen⟩
    rw [cons_append, climb_right hlen, append_cons updated l fs]
    exact hclimb

/-- **ONE MORE LEAF**: with the frontier of the list the climb finds the root
    of the longer list, and what it collects starts with the new frontier. -/
theorem climb_full (h : Frontier node xs fs) :
    ∀ (x : α) (rest updated : List α), ∃ root more fs' rest',
      climb node (Nat.clog 2 (xs.length + 1)) xs.length false x (fs ++ rest) updated =
          some (updated ++ more, root) ∧
        Collapses node (xs ++ [x]) root ∧ Frontier node (xs ++ [x]) fs' ∧
        more ++ [root] = fs' ++ rest' := by
  induction h with
  | nil =>
    intro x rest updated
    refine ⟨x, [], [x], [], ?_, Collapses.single, ?_, rfl⟩
    · rw [append_nil]
      rfl
    · rw [nil_append]
      exact @Frontier.odd _ _ [] [] x rfl Frontier.nil
  | @even xs fs hlen hfs ih =>
    intro x rest updated
    cases xs with
    | nil => exact ih x rest updated
    | cons a xs =>
      -- the new leaf is a left child: from here on nodes are only partly there
      obtain ⟨root, hclimb, hroot⟩ := climb_partial hfs (node x x) rest (updated ++ [x])
      refine ⟨root, x :: fs, x :: fs, [root], ?_, hroot.left (cons_ne_nil a xs) hlen,
        Frontier.odd hlen hfs, rfl⟩
      rw [climb_left (cons_ne_nil a xs) hlen, append_cons updated x fs]
      exact hclimb
  | @odd ys fs l hlen _ ih =>
    intro x rest updated
    obtain ⟨root, more, fs', rest', hclimb, hroot, hfs', hmore⟩ := ih (node l x) rest updated
    refine ⟨root, more, fs', rest', (climb_right hlen).trans hclimb, hroot.right hlen,
      Frontier.even ?_ ?_, hmore⟩
    · simp only [length_append, length_singleton]
      omega
    · rw [append_assoc, pairs_append ys _ hlen]
      exact hfs'

end Climb

end MerkleFrontier
