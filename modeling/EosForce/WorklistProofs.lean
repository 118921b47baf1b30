import Mathlib.Data.List.Nodup
import Mathlib.Data.List.Perm.Subperm

/-! # Collecting a subtree with a queue

    A queue starts with one element; each element in turn appends its
    children, and the search stops short when it meets a forbidden element.
    Over a forest with finitely many elements the queue holds, in the end,
    exactly what is reachable, and a fuel of one more than the number of
    elements suffices. -/

namespace Worklist

open List

variable {α : Type}

/-- How a search ends. -/
inductive Outcome (α : Type) where
  | collected (queue : List α)
  | stopped
  | outOfFuel

/-- The queue is `done ++ todo`; `done` has been worked off. -/
def collect [DecidableEq α] (children : α → List α) (stop : α) :
    Nat → List α → List α → Outcome α
  | _, done, [] => .collected done
  | 0, _, _ :: _ => .outOfFuel
  | fuel + 1, done, x :: todo =>
    if x = stop then .stopped
    else collect children stop fuel (done ++ [x]) (todo ++ children x)

/-- `y` is in the subtree of `x`. -/
abbrev Reach (children : α → List α) : α → α → Prop :=
  Relation.ReflTransGen fun x y => y ∈ children x

/-- Every element has one parent, and the start is nobody's child. -/
structure Forest (children : α → List α) (elems : List α) (start : α) : Prop where
  nodup : ∀ x, (children x).Nodup
  parent : ∀ x y c, c ∈ children x → c ∈ children y → x = y
  bounded : ∀ x, ∀ c ∈ children x, c ∈ elems
  start : ∀ x, Reach children start x → start ∉ children x

/-- What the queue satisfies at every turn. -/
structure Progress (children : α → List α) (elems : List α) (start stop : α)
    (done todo : List α) : Prop where
  nodup : (done ++ todo).Nodup
  elems : ∀ y ∈ done ++ todo, y = start ∨ y ∈ elems
  reach : ∀ y ∈ done ++ todo, Reach children start y
  parents : ∀ x c, Reach children start x → c ∈ children x → c ∈ done ++ todo → x ∈ done
  closed : ∀ x ∈ done, ∀ c ∈ children x, c ∈ done ++ todo
  start : start ∈ done ++ todo
  passed : stop ∉ done

variable {children : α → List α} {elems : List α} {start stop : α}

theorem progress_start (hf : Forest children elems start) :
    Progress children elems start stop [] [start] := by
  refine ⟨nodup_singleton _, ?_, ?_, ?_, fun _ h => absurd h not_mem_nil,
    mem_singleton_self _, not_mem_nil⟩
  · intro y hy
    exact .inl (mem_singleton.mp hy)
  · intro y hy
    rw [mem_singleton.mp hy]
  · intro x c hx hc hmem
    rw [mem_singleton.mp hmem] at hc
    exact absurd hc (hf.start x hx)

/-- One element is worked off. -/
theorem progress_step (hf : Forest children elems start) {done todo : List α} {x : α}
    (h : Progress children elems start stop done (x :: todo)) (hx : x ≠ stop) :
    Progress children elems start stop (done ++ [x]) (todo ++ children x) := by
  have hqueue : done ++ [x] ++ (todo ++ children x) = done ++ x :: todo ++ children x := by simp
  have hmemx : x ∈ done ++ x :: todo := mem_append_right _ mem_cons_self
  have hnew : x ∉ done := by
    intro hd
    exact (nodup_append.mp h.nodup).2.2 x hd x mem_cons_self rfl
  refine ⟨?_, ?_, ?_, ?_, ?_, ?_, ?_⟩
  · rw [hqueue]
    refine List.Nodup.append h.nodup (hf.nodup x) ?_
    -- a child of `x` already in the queue would have had `x` worked off
    intro c hold hc
    exact hnew (h.parents x c (h.reach x hmemx) hc hold)
  · rw [hqueue]
    exact forall_mem_append.mpr ⟨h.elems, fun y hy => .inr (hf.bounded x y hy)⟩
  · rw [hqueue]
    exact forall_mem_append.mpr ⟨h.reach, fun y hy => (h.reach x hmemx).tail hy⟩
  · intro z c hz hc hmem
    rw [hqueue] at hmem
    rcases mem_append.mp hmem with hmem | hmem
    · exact mem_append_left _ (h.parents z c hz hc hmem)
    · rw [hf.parent z x c hc hmem]
      exact mem_append_right _ (mem_singleton_self _)
  · intro z hz c hc
    rw [hqueue]
    rcases mem_append.mp hz with hz | hz
    · exact mem_append_left _ (h.closed z hz c hc)
    · rw [mem_singleton.mp hz] at hc
      exact mem_append_right _ hc
  · rw [hqueue]
    exact mem_append_left _ h.start
  · intro hs
    rcases mem_append.mp hs with hs | hs
    · exact h.passed hs
    · exact hx (mem_singleton.mp hs).symm

/-- Fuel cannot run out while there is something to do. -/
theorem Progress.length_le {done todo : List α}
    (h : Progress children elems start stop done todo) :
    done.length + todo.length ≤ elems.length + 1 := by
  have hsub : (done ++ todo).Subperm (start :: elems) := by
    refine subperm_of_subset h.nodup ?_
    intro y hy
    rcases h.elems y hy with rfl | hy
    · exact mem_cons_self
    · exact mem_cons_of_mem _ hy
  have hlen := hsub.length_le
  rwa [length_append, length_cons] at hlen

/-- An empty queue has worked off everything reachable. -/
theorem Progress.mem_iff {done : List α}
    (h : Progress children elems start stop done []) (y : α) :
    y ∈ done ↔ Reach children start y := by
  have hnil : done ++ [] = done := append_nil _
  constructor
  · intro hy
    exact h.reach y (hnil.symm ▸ hy)
  · intro hy
    induction hy with
    | refl => exact hnil ▸ h.start
    | tail _ hc ih => exact hnil ▸ h.closed _ ih _ hc

section Run

variable [DecidableEq α]

theorem collect_cases (hf : Forest children elems start) :
    ∀ (fuel : Nat) (done todo : List α),
      Progress children elems start stop done todo →
      elems.length + 1 ≤ fuel + done.length →
      (∃ out, collect children stop fuel done todo = .collected out ∧
        (∀ y, y ∈ out ↔ Reach children start y) ∧ stop ∉ out) ∨
      (collect children stop fuel done todo = .stopped ∧ Reach children start stop) := by
  intro fuel
  induction fuel with
  | zero =>
    intro done todo h hfuel
    have hlen := h.length_le
    cases todo with
    | nil =>
      refine .inl ⟨done, ?_, h.mem_iff, h.passed⟩
      rw [collect]
    | cons x todo =>
      rw [length_cons] at hlen
      omega
  | succ fuel ih =>
    intro done todo h hfuel
    cases todo with
    | nil =>
      refine .inl ⟨done, ?_, h.mem_iff, h.passed⟩
      rw [collect]
    | cons x todo =>
      rw [collect]
      by_cases hx : x = stop
      · rw [if_pos hx]
        refine .inr ⟨rfl, ?_⟩
        rw [← hx]
        exact h.reach x (mem_append_right _ mem_cons_self)
      · rw [if_neg hx]
        refine ih _ _ (progress_step hf h hx) ?_
        rw [length_append, length_singleton]
        omega

/-- **SUBTREE COLLECTED**: without the forbidden element in it, the subtree is
    what the search returns. -/
theorem collect_eq (hf : Forest children elems start)
    (hstop : ¬ Reach children start stop) :
    ∃ out, collect children stop (elems.length + 1) [] [start] = .collected out ∧
      ∀ y, y ∈ out ↔ Reach children start y := by
  rcases collect_cases hf (elems.length + 1) [] [start] (progress_start hf)
    (Nat.le_refl _) with ⟨out, hout, hmem, -⟩ | ⟨-, hreach⟩
  · exact ⟨out, hout, hmem⟩
  · exact absurd hreach hstop

/-- With the forbidden element in it the search stops. -/
theorem collect_stopped (hf : Forest children elems start)
    (hstop : Reach children start stop) :
    collect children stop (elems.length + 1) [] [start] = .stopped := by
  rcases collect_cases hf (elems.length + 1) [] [start] (progress_start hf)
    (Nat.le_refl _) with ⟨out, -, hmem, hnot⟩ | ⟨h, -⟩
  · exact absurd ((hmem stop).mpr hstop) hnot
  · exact h

end Run

end Worklist
