import Mathlib.Logic.Function.Iterate

/-! # Chains of parents

    Nodes are numbers, `up` gives the parent of a node, and a parent has a
    smaller number than its child; the root is its own parent.  What stands
    above a node is what following `up` comes to.  A walk that follows `up`
    needs no more steps than the number it starts at, and it decides what
    stands above. -/

namespace ParentChain

/-- Parents have smaller numbers, down to 0. -/
structure Rooted (up : Nat → Nat) : Prop where
  root : up 0 = 0
  down : ∀ n, n ≠ 0 → up n < n

/-- `a` is `n` or one of its ancestors. -/
def Above (up : Nat → Nat) (a n : Nat) : Prop := ∃ k, up^[k] n = a

variable {up : Nat → Nat} {a b n : Nat}

theorem Above.refl (up : Nat → Nat) (n : Nat) : Above up n n := ⟨0, rfl⟩

theorem Above.of_up (h : Above up a (up n)) : Above up a n := by
  obtain ⟨k, hk⟩ := h
  exact ⟨k + 1, hk⟩

theorem above_iff : Above up a n ↔ a = n ∨ Above up a (up n) := by
  constructor
  · rintro ⟨k, hk⟩
    cases k with
    | zero => exact .inl hk.symm
    | succ k => exact .inr ⟨k, hk⟩
  · rintro (rfl | h)
    · exact Above.refl up a
    · exact h.of_up

theorem Rooted.le (hup : Rooted up) (n : Nat) : up n ≤ n := by
  by_cases hn : n = 0
  · rw [hn]
    exact Nat.le_of_eq hup.root
  · exact Nat.le_of_lt (hup.down n hn)

theorem Rooted.above_le (hup : Rooted up) (h : Above up a n) : a ≤ n := by
  obtain ⟨k, rfl⟩ := h
  induction k generalizing n with
  | zero => exact Nat.le_refl n
  | succ k ih => exact Nat.le_trans ih (hup.le n)

theorem Rooted.above_zero (hup : Rooted up) : Above up a 0 ↔ a = 0 := by
  constructor
  · intro h
    exact Nat.le_zero.mp (hup.above_le h)
  · rintro rfl
    exact Above.refl up 0

/-- Only the parents of what stands above a node matter. -/
theorem above_congr {up' : Nat → Nat} (h : ∀ m, Above up m n → up' m = up m) :
    Above up' a n ↔ Above up a n := by
  have hiter : ∀ k, up'^[k] n = up^[k] n := by
    intro k
    induction k with
    | zero => rfl
    | succ k ih =>
      rw [Function.iterate_succ_apply', Function.iterate_succ_apply', ih]
      exact h _ ⟨k, rfl⟩
  constructor
  · rintro ⟨k, hk⟩
    exact ⟨k, (hiter k).symm.trans hk⟩
  · rintro ⟨k, hk⟩
    exact ⟨k, (hiter k).trans hk⟩

end ParentChain
