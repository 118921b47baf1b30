import EosForce.TrxContextProofs

/-! # `check_actor_list`

    The actors of a transaction are checked against a whitelist or, without
    one, against a blacklist.  All three are `flat_set`s, and both loops walk
    over two of them at once: `lower_bound` jumps ahead in the list for one
    actor after the other and never goes back.  What they decide is
    membership, as `TrxContext.checkActorList` states it. -/

namespace ActorList

open ChainTypes List

def Ascending (l : List Name) : Prop := l.Pairwise (·.value < ·.value)

/-- `flat_set<account_name>`. -/
structure FlatSet where
  elements : List Name
  sorted : Ascending elements

def FlatSet.first (s : FlatSet) (h : s.elements ≠ []) : UInt64 := (s.elements.head h).value

def FlatSet.last (s : FlatSet) (h : s.elements ≠ []) : UInt64 := (s.elements.getLast h).value

/-- `std::lower_bound`: what is left of a range from the first element on that
    is not below the actor. -/
def lowerBound (range : List Name) (actor : Name) : List Name :=
  range.dropWhile (·.value < actor.value)

/-- The loop over the actors against a whitelist. -/
def isSubset : List Name → List Name → Bool
  | [], _ => true
  | actor :: actors, range =>
    match lowerBound range actor with
    | [] => false
    | found :: rest => if found ≠ actor then false else isSubset actors rest

/-- The loop over the actors against a blacklist. -/
def intersects : List Name → List Name → Bool
  | [], _ => false
  | actor :: actors, range =>
    match lowerBound range actor with
    | [] => false
    | found :: rest => if found = actor then true else intersects actors (found :: rest)

/-- `check_actor_list`, each loop behind a quick check of the extents. -/
def checkActorList (whitelist blacklist actors : FlatSet) : Except FcException Unit :=
  if ha : actors.elements = [] then .ok ()
  else if hw : whitelist.elements ≠ [] then
    eosAssert (whitelist.first hw ≤ actors.first ha ∧ actors.last ha ≤ whitelist.last hw ∧
        isSubset actors.elements whitelist.elements = true) .actorWhitelist
      "authorizing actor(s) in transaction are not on the actor whitelist: $\x7bactors\x7d"
  else if hb : blacklist.elements ≠ [] then
    eosAssert (¬ (actors.first ha ≤ blacklist.last hb ∧ blacklist.first hb ≤ actors.last ha ∧
        intersects actors.elements blacklist.elements = true)) .actorBlacklist
      "authorizing actor(s) in transaction are on the actor blacklist: $\x7bactors\x7d"
  else .ok ()

/-! ## The loops decide membership -/

variable {actor x : Name} {actors range : List Name}

/-- What the jump leaves out is below the actor. -/
theorem mem_lowerBound (h : actor.value ≤ x.value) : x ∈ lowerBound range actor ↔ x ∈ range := by
  rw [lowerBound]
  induction range with
  | nil => rfl
  | cons y range ih =>
    rw [dropWhile_cons]
    split
    · grind
    · rfl

/-- The jump stops at the actor if the range has it. -/
theorem head_lowerBound (h : Ascending range) :
    (lowerBound range actor).head? = some actor ↔ actor ∈ range := by
  rw [lowerBound]
  induction range with
  | nil => simp
  | cons y range ih =>
    obtain ⟨hy, hrange⟩ := pairwise_cons.mp h
    have ih := ih hrange
    rw [dropWhile_cons]
    split
    · grind
    · grind

/-- **ONE JUMP**: it says whether the range has the actor, and loses none of
    the actors to come. -/
theorem lowerBound_spec (hactors : Ascending (actor :: actors)) (hrange : Ascending range) :
    Ascending (lowerBound range actor) ∧
      ((lowerBound range actor).head? = some actor ↔ actor ∈ range) ∧
      ∀ a ∈ actors, (a ∈ lowerBound range actor ↔ a ∈ range) :=
  ⟨hrange.sublist (dropWhile_sublist _), head_lowerBound hrange, fun a ha =>
    mem_lowerBound (UInt64.le_of_lt ((pairwise_cons.mp hactors).1 a ha))⟩

theorem isSubset_iff (hactors : Ascending actors) (hrange : Ascending range) :
    isSubset actors range = true ↔ ∀ a ∈ actors, a ∈ range := by
  induction actors generalizing range with
  | nil => simp [isSubset]
  | cons actor actors ih =>
    obtain ⟨hsorted, hhead, hmem⟩ := lowerBound_spec hactors hrange
    obtain ⟨hfirst, hactors⟩ := pairwise_cons.mp hactors
    rw [isSubset]
    cases hjump : lowerBound range actor with
    | nil => grind
    | cons found rest =>
      rw [hjump] at hsorted hhead hmem
      have hrest := ih hactors (pairwise_cons.mp hsorted).2
      grind

theorem intersects_iff (hactors : Ascending actors) (hrange : Ascending range) :
    intersects actors range = true ↔ ∃ a ∈ actors, a ∈ range := by
  induction actors generalizing range with
  | nil => simp [intersects]
  | cons actor actors ih =>
    obtain ⟨hsorted, hhead, hmem⟩ := lowerBound_spec hactors hrange
    rw [intersects]
    cases hjump : lowerBound range actor with
    | nil => grind
    | cons found rest =>
      rw [hjump] at hsorted hhead hmem
      have hrest := ih (pairwise_cons.mp hactors).2 hsorted
      grind

/-! ## The check -/

theorem FlatSet.within {s : FlatSet} (hne : s.elements ≠ []) (hx : x ∈ s.elements) :
    s.first hne ≤ x.value ∧ x.value ≤ s.last hne :=
  have h := s.sorted.imp UInt64.le_of_lt
  ⟨h.rel_head_of_rel_head_head hx (UInt64.le_refl _),
    h.rel_getLast_of_rel_getLast_getLast hx (UInt64.le_refl _)⟩

section Check

variable {whitelist blacklist actors : FlatSet}

theorem whitelisted_iff (ha : actors.elements ≠ []) (hw : whitelist.elements ≠ []) :
    (whitelist.first hw ≤ actors.first ha ∧ actors.last ha ≤ whitelist.last hw ∧
      isSubset actors.elements whitelist.elements = true) ↔
    ∀ a ∈ actors.elements, a ∈ whitelist.elements := by
  rw [isSubset_iff actors.sorted whitelist.sorted]
  refine ⟨fun h => h.2.2, fun h => ⟨?_, ?_, h⟩⟩
  · exact (FlatSet.within hw (h _ (head_mem ha))).1
  · exact (FlatSet.within hw (h _ (getLast_mem ha))).2

theorem blacklisted_iff (ha : actors.elements ≠ []) (hb : blacklist.elements ≠ []) :
    (actors.first ha ≤ blacklist.last hb ∧ blacklist.first hb ≤ actors.last ha ∧
      intersects actors.elements blacklist.elements = true) ↔
    ∃ a ∈ actors.elements, a ∈ blacklist.elements := by
  rw [intersects_iff actors.sorted blacklist.sorted]
  refine ⟨fun h => h.2.2, fun ⟨a, hactor, hlisted⟩ => ?_⟩
  have hactors := FlatSet.within ha hactor
  have hblack := FlatSet.within hb hlisted
  exact ⟨UInt64.le_trans hactors.1 hblack.2, UInt64.le_trans hblack.1 hactors.2, a, hactor, hlisted⟩

/-- The loops decide what the pipeline's check asks. -/
theorem checkActorList_eq {node : TrxContext.Node} (hw : node.actorWhitelist = whitelist.elements)
    (hb : node.actorBlacklist = blacklist.elements) :
    checkActorList whitelist blacklist actors =
      TrxContext.checkActorList node actors.elements := by
  rw [checkActorList, TrxContext.checkActorList, hw, hb]
  by_cases ha : actors.elements = []
  · rw [dif_pos ha, if_pos ha]
  rw [dif_neg ha, if_neg ha]
  by_cases hw : whitelist.elements = []
  · by_cases hb : blacklist.elements = []
    · simp [hw, hb, eosAssert]
    · simp [hw, hb, eosAssert, blacklisted_iff ha hb]
  · simp [hw, eosAssert, whitelisted_iff ha hw]

end Check

/-- **WHEN IT THROWS.** -/
theorem checkActorList_throws_iff (whitelist blacklist actors : FlatSet) :
    (∃ e, checkActorList whitelist blacklist actors = .error e) ↔
      (whitelist.elements ≠ [] ∧ ∃ a ∈ actors.elements, a ∉ whitelist.elements) ∨
      (whitelist.elements = [] ∧ ∃ a ∈ actors.elements, a ∈ blacklist.elements) := by
  rw [checkActorList]
  by_cases ha : actors.elements = []
  · simp [ha]
  rw [dif_neg ha]
  by_cases hw : whitelist.elements = []
  · by_cases hb : blacklist.elements = []
    · simp [hw, hb]
    · rw [dif_neg (not_not.mpr hw), dif_pos hb, eosAssert_throws_iff, blacklisted_iff ha hb]
      simp [hw]
  · rw [dif_pos hw, eosAssert_throws_iff, whitelisted_iff ha hw]
    simp [hw]

end ActorList
