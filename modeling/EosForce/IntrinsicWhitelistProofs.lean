import EosForce.ChainTypesProofs
import Mathlib.Data.List.Induction
import Mathlib.Data.List.Sort

/-! # The whitelist of intrinsics

    The names of the intrinsics that contracts may use are kept in a flat
    multimap from hashes to names.  Names may share a hash: a name is looked
    up among the entries of its hash, which stand side by side. -/

namespace IntrinsicWhitelist

open ChainTypes List

/-- `std::string`, by its bytes. -/
abbrev IntrinsicName := List UInt8

abbrev Entry := UInt64 × IntrinsicName

/-- `whitelisted_intrinsics_type`: the entries, ordered by their keys. -/
structure Whitelist where
  entries : List Entry
  sorted : entries.Pairwise fun a b => a.1 ≤ b.1

/-- `std::set<std::string>`: its elements, in their order. -/
structure NameSet where
  elements : List IntrinsicName
  sorted : elements.Pairwise (· < ·)

/-- `emplace`: an entry goes behind those with the same key. -/
def emplaceEntry (e : Entry) (l : List Entry) : List Entry :=
  l.orderedInsert (fun a b => a.1 < b.1) e

theorem emplaceEntry_sorted (e : Entry) {l : List Entry} (h : l.Pairwise fun a b => a.1 ≤ b.1) :
    (emplaceEntry e l).Pairwise fun a b => a.1 ≤ b.1 := by
  induction l with
  | nil => exact pairwise_singleton _ _
  | cons x l ih =>
    obtain ⟨hx, hl⟩ := pairwise_cons.mp h
    rw [emplaceEntry, orderedInsert_cons]
    split
    · next hlt =>
      have hle := UInt64.le_of_lt hlt
      exact pairwise_cons.mpr
        ⟨forall_mem_cons.mpr ⟨hle, fun y hy => UInt64.le_trans hle (hx y hy)⟩, h⟩
    · next hge =>
      refine pairwise_cons.mpr ⟨fun y hy => ?_, ih hl⟩
      rcases (mem_orderedInsert _).mp hy with rfl | hy
      · exact UInt64.not_lt.mp hge
      · exact hx y hy

/-- `lower_bound`: the first entry whose key is not below the hash. -/
def lowerBound (h : UInt64) : List Entry → Nat
  | [] => 0
  | e :: l => if e.1 < h then lowerBound h l + 1 else 0

/-- `find_intrinsic_helper`: the entry at which it stops with `true`, from the
    one at `itr` on. -/
def findIntrinsicHelper (h : UInt64) (name : IntrinsicName) : List Entry → Nat → Option Nat
  | [], _ => none
  | e :: l, itr =>
    if e.1 = h then if e.2 = name then some itr else findIntrinsicHelper h name l (itr + 1)
    else none

variable (hash : IntrinsicName → UInt64)

namespace Whitelist

variable (w : Whitelist) (name : IntrinsicName)

/-- A whitelist without names. -/
def empty : Whitelist := ⟨[], .nil⟩

/-- The name under its hash. -/
def emplace : Whitelist :=
  ⟨emplaceEntry (hash name, name) w.entries, emplaceEntry_sorted _ w.sorted⟩

/-- `erase` of the entry at an iterator. -/
def erase (itr : Nat) : Whitelist :=
  ⟨w.entries.eraseIdx itr, w.sorted.sublist (eraseIdx_sublist ..)⟩

/-- The search in `find_intrinsic` and `is_intrinsic_whitelisted`. -/
def search (h : UInt64) : Option Nat :=
  let itr := lowerBound h w.entries
  findIntrinsicHelper h name (w.entries.drop itr) itr

/-- `find_intrinsic`; the end is the number of entries. -/
def findIntrinsic (h : UInt64) : Nat := (w.search name h).getD w.entries.length

/-- `is_intrinsic_whitelisted`. -/
def isIntrinsicWhitelisted : Bool := (w.search name (hash name)).isSome

/-- `add_intrinsic_to_whitelist`. -/
def addIntrinsicToWhitelist : Except FcException Whitelist := do
  eosAssert (w.findIntrinsic name (hash name) = w.entries.length) .database
    "cannot add intrinsic '$\x7bname\x7d' since it already exists in the whitelist"
  pure (w.emplace hash name)

/-- `remove_intrinsic_from_whitelist`. -/
def removeIntrinsicFromWhitelist : Except FcException Whitelist := do
  let itr := w.findIntrinsic name (hash name)
  eosAssert (itr ≠ w.entries.length) .database
    "cannot remove intrinsic '$\x7bname\x7d' since it does not exist in the whitelist"
  pure (w.erase itr)

end Whitelist

/-- `reset_intrinsic_whitelist`. -/
def resetIntrinsicWhitelist (s : NameSet) : Whitelist :=
  s.elements.foldl (Whitelist.emplace hash) .empty

/-! ## The entries of one hash -/

section Find

variable {w : Whitelist} {name : IntrinsicName} {h : UInt64} {l : List Entry}

/-- From an entry that is not below the hash on, the walk meets the entry of
    the name if there is one. -/
theorem findIntrinsicHelper_eq (hl : l.Pairwise fun a b => a.1 ≤ b.1) : ∀ itr,
    (∀ e ∈ l, h ≤ e.1) →
      findIntrinsicHelper h name l itr = (l.idxOf? (h, name)).map (· + itr) := by
  induction l with
  | nil => exact fun _ _ => rfl
  | cons e l ih =>
    intro itr hle
    obtain ⟨he, hl⟩ := pairwise_cons.mp hl
    by_cases hkey : e.1 = h
    · rw [findIntrinsicHelper, if_pos hkey, ih hl (itr + 1) (forall_mem_cons.mp hle).2, idxOf?_cons]
      by_cases hname : e.2 = name
      · simp [← hkey, ← hname]
      · have hne : e ≠ (h, name) := fun heq => hname (congrArg Prod.snd heq)
        simp [hname, hne, Function.comp_def, Nat.add_assoc, Nat.add_comm 1]
    · -- the entries that follow have keys above the hash
      have hnot : (h, name) ∉ e :: l := by
        intro hmem
        rcases mem_cons.mp hmem with rfl | hmem
        · exact hkey rfl
        · exact hkey (UInt64.le_antisymm (he _ hmem) (hle e mem_cons_self))
      rw [findIntrinsicHelper, if_neg hkey, idxOf?_eq_none_iff.mpr hnot]
      rfl

theorem search_eq (hl : l.Pairwise fun a b => a.1 ≤ b.1) : ∀ itr,
    findIntrinsicHelper h name (l.drop (lowerBound h l)) (itr + lowerBound h l) =
      (l.idxOf? (h, name)).map (· + itr) := by
  induction l with
  | nil => exact fun _ => rfl
  | cons e l ih =>
    intro itr
    rw [lowerBound]
    split
    · next hlt =>
      have hne : e ≠ (h, name) := fun heq => by simp [heq] at hlt
      rw [drop_succ_cons, ← Nat.add_assoc, Nat.add_right_comm, ih (pairwise_cons.mp hl).2]
      simp [idxOf?_cons, hne, Function.comp_def, Nat.add_assoc, Nat.add_comm 1]
    · next hge =>
      have hle := UInt64.not_lt.mp hge
      exact findIntrinsicHelper_eq hl itr (forall_mem_cons.mpr
        ⟨hle, fun x hx => UInt64.le_trans hle ((pairwise_cons.mp hl).1 x hx)⟩)

theorem Whitelist.search_eq : w.search name h = w.entries.idxOf? (h, name) := by
  rw [search]
  simpa using @IntrinsicWhitelist.search_eq name h _ w.sorted 0

theorem Whitelist.findIntrinsic_eq : w.findIntrinsic name h = w.entries.idxOf (h, name) := by
  rw [findIntrinsic, search_eq, idxOf_eq_getD_idxOf?]

end Find

/-! ## The set of names -/

/-- The entries are those of a set of names under their hashes, each once. -/
structure Whitelist.Holds (w : Whitelist) (names : Set IntrinsicName) : Prop where
  mem : ∀ e, e ∈ w.entries ↔ e.1 = hash e.2 ∧ e.2 ∈ names
  nodup : w.entries.Nodup

section Holds

variable {hash} {w : Whitelist} {name : IntrinsicName} {names : Set IntrinsicName}

theorem Whitelist.holds_empty : Whitelist.empty.Holds hash ∅ :=
  ⟨by simp [Whitelist.empty], nodup_nil⟩

namespace Whitelist.Holds

theorem mem_iff (h : w.Holds hash names) : (hash name, name) ∈ w.entries ↔ name ∈ names := by
  simp [h.mem]

theorem found_iff (h : w.Holds hash names) :
    w.findIntrinsic name (hash name) = w.entries.length ↔ name ∉ names := by
  rw [findIntrinsic_eq, idxOf_eq_length_iff, h.mem_iff]

theorem emplace (h : w.Holds hash names) (hnew : name ∉ names) :
    (w.emplace hash name).Holds hash (insert name names) := by
  have hperm := perm_orderedInsert (fun a b => a.1 < b.1) (hash name, name) w.entries
  refine ⟨fun e => ?_, hperm.nodup_iff.mpr (nodup_cons.mpr ⟨h.mem_iff.not.mpr hnew, h.nodup⟩)⟩
  refine (hperm.mem_iff.trans mem_cons).trans ?_
  rw [h.mem, Prod.ext_iff, Set.mem_insert_iff]
  grind

theorem erase (h : w.Holds hash names) :
    (w.erase (w.findIntrinsic name (hash name))).Holds hash (names \ {name}) := by
  have herase : (w.erase (w.findIntrinsic name (hash name))).entries =
      w.entries.erase (hash name, name) := by
    rw [Whitelist.erase, findIntrinsic_eq, erase_eq_eraseIdx_of_idxOf rfl]
  refine ⟨fun e => ?_, herase ▸ h.nodup.erase _⟩
  rw [herase, h.nodup.mem_erase_iff, h.mem, Set.mem_sdiff, Set.mem_singleton_iff, ne_eq,
    Prod.ext_iff]
  grind

theorem reset {l : List IntrinsicName} (hl : l.Nodup) :
    (l.foldl (Whitelist.emplace hash) .empty).Holds hash { name | name ∈ l } := by
  induction l using List.reverseRecOn with
  | nil => simpa using holds_empty
  | append_singleton l name ih =>
    obtain ⟨hl, -, hnew⟩ := nodup_append.mp hl
    have hset : { other | other ∈ l ++ [name] } = insert name { other | other ∈ l } := by
      ext other
      simp [or_comm]
    rw [foldl_append, hset]
    exact (ih hl).emplace fun hmem => hnew name hmem name mem_cons_self rfl

end Whitelist.Holds

end Holds

/-! ## Runs of calls -/

/-- The calls that change the whitelist. -/
inductive WhitelistCall where
  | add (name : IntrinsicName)
  | remove (name : IntrinsicName)
  | reset (s : NameSet)

def WhitelistCall.perform (w : Whitelist) : WhitelistCall → Except FcException Whitelist
  | .add name => w.addIntrinsicToWhitelist hash name
  | .remove name => w.removeIntrinsicFromWhitelist hash name
  | .reset s => .ok (resetIntrinsicWhitelist hash s)

/-- The same call on a set of strings. -/
def WhitelistCall.onSet (names : Set IntrinsicName) : WhitelistCall → Set IntrinsicName
  | .add name => insert name names
  | .remove name => names \ {name}
  | .reset s => { name | name ∈ s.elements }

section Run

variable {hash} {w w' : Whitelist} {names : Set IntrinsicName}

theorem Whitelist.Holds.perform {call : WhitelistCall} (h : w.Holds hash names)
    (hcall : call.perform hash w = .ok w') : w'.Holds hash (call.onSet names) := by
  cases call with
  | add name =>
    obtain ⟨hend, hw⟩ := eosAssert_bind_ok_iff.mp hcall
    obtain rfl := Except.ok.inj hw
    exact h.emplace (h.found_iff.mp hend)
  | remove name =>
    obtain ⟨-, hw⟩ := eosAssert_bind_ok_iff.mp hcall
    obtain rfl := Except.ok.inj hw
    exact h.erase
  | reset s =>
    obtain rfl := Except.ok.inj hcall
    refine .reset (s.sorted.imp ?_)
    rintro a _ hlt rfl
    exact List.lt_irrefl a hlt

theorem Whitelist.Holds.run (calls : List WhitelistCall) :
    ∀ {w : Whitelist} {names : Set IntrinsicName}, w.Holds hash names →
    calls.foldlM (WhitelistCall.perform hash) w = .ok w' →
    w'.Holds hash (calls.foldl WhitelistCall.onSet names) := by
  induction calls with
  | nil =>
    intro w names h hrun
    obtain rfl := Except.ok.inj hrun
    exact h
  | cons call calls ih =>
    intro w names h hrun
    obtain ⟨w1, hcall, hrun⟩ := except_bind_ok hrun
    exact ih (h.perform hcall) hrun

end Run

/-- **THE WHITELIST IS A SET**: for any hash function, after any calls that
    return, the whitelist has the names that the same calls leave in a set of
    strings; `add` throws exactly for these, `remove` exactly for the others. -/
theorem whitelist_is_set (calls : List WhitelistCall) {w : Whitelist}
    (h : calls.foldlM (WhitelistCall.perform hash) .empty = .ok w) (name : IntrinsicName) :
    (w.isIntrinsicWhitelisted hash name = true ↔ name ∈ calls.foldl WhitelistCall.onSet ∅) ∧
      ((∃ e, w.addIntrinsicToWhitelist hash name = .error e) ↔
        name ∈ calls.foldl WhitelistCall.onSet ∅) ∧
      ((∃ e, w.removeIntrinsicFromWhitelist hash name = .error e) ↔
        name ∉ calls.foldl WhitelistCall.onSet ∅) := by
  have hholds := Whitelist.Holds.run calls Whitelist.holds_empty h
  refine ⟨?_, ?_, ?_⟩
  · rw [Whitelist.isIntrinsicWhitelisted, Whitelist.search_eq, ← hholds.mem_iff]
    simp
  · exact eosAssert_bind_throws_iff.trans (hholds.found_iff.not.trans not_not)
  · exact eosAssert_bind_throws_iff.trans (not_not.trans hholds.found_iff)

/-- Two names with one hash: the first is removed, the second stays. -/
theorem whitelist_is_set_collision : ∃ w,
    [WhitelistCall.add [1], .add [2], .remove [1]].foldlM
        (WhitelistCall.perform fun _ => 0) .empty = .ok w ∧
      w.isIntrinsicWhitelisted (fun _ => 0) [2] = true :=
  ⟨_, rfl, (whitelist_is_set (fun _ => 0) [.add [1], .add [2], .remove [1]] rfl [2]).1.mpr
    (by simp [WhitelistCall.onSet])⟩

end IntrinsicWhitelist
