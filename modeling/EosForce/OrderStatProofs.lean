import Mathlib.Data.List.GetD
import Mathlib.Data.List.Sort

/-! # Order statistics of a list

    `std::nth_element` leaves at position `k` the element that a full
    ascending sort puts there.  What is needed of it is one equivalence: the
    element at position `k` reaches a threshold exactly when at most `k`
    elements of the list stay below it. -/

namespace OrderStat

variable {α : Type} [LinearOrder α]

/-- The element that an ascending sort of `l` has at position `k`. -/
def nthElement (l : List α) (k : Nat) (dflt : α) : α :=
  (l.insertionSort (· ≤ ·)).getD k dflt

/-- In an ascending list the elements below a threshold come first. -/
theorem le_getD_iff_of_sorted {v dflt : α} :
    ∀ {l : List α}, l.Pairwise (· ≤ ·) → ∀ {k : Nat}, k < l.length →
      (v ≤ l.getD k dflt ↔ l.countP (fun x => decide (x < v)) ≤ k) := by
  intro l
  induction l with
  | nil => intro _ k hk; exact nomatch hk
  | cons x rest ih =>
    intro hs k hk
    obtain ⟨hx, hrest⟩ := List.pairwise_cons.mp hs
    rw [List.countP_cons]
    by_cases hxv : x < v
    · -- `x` itself stays below the threshold: shift to the tail
      rw [if_pos (decide_eq_true hxv)]
      cases k with
      | zero =>
        constructor
        · intro h
          exact absurd hxv (not_lt.mpr h)
        · intro h
          omega
      | succ k =>
        have hk' : k < rest.length := Nat.lt_of_succ_lt_succ hk
        rw [List.getD_cons_succ, ih hrest hk']
        omega
    · -- everything from `x` on reaches the threshold
      have hvx : v ≤ x := not_lt.mp hxv
      have hzero : rest.countP (fun y => decide (y < v)) = 0 := by
        refine List.countP_eq_zero.mpr ?_
        intro y hy hlt
        exact absurd (of_decide_eq_true hlt) (not_lt.mpr (le_trans hvx (hx y hy)))
      rw [if_neg (by simpa using hvx), hzero]
      refine ⟨fun _ => Nat.zero_le _, fun _ => ?_⟩
      cases k with
      | zero => exact hvx
      | succ k =>
        have hk' : k < rest.length := Nat.lt_of_succ_lt_succ hk
        rw [List.getD_cons_succ, List.getD_eq_getElem rest dflt hk']
        exact le_trans hvx (hx _ (List.getElem_mem hk'))

/-- **THRESHOLD FORM**: the element at position `k` reaches `v` exactly when
    at most `k` elements stay below `v`. -/
theorem le_nthElement_iff {l : List α} {k : Nat} (hk : k < l.length)
    (v dflt : α) : v ≤ nthElement l k dflt ↔ l.countP (fun x => decide (x < v)) ≤ k := by
  have hp := List.perm_insertionSort (· ≤ ·) l
  have hk' : k < (l.insertionSort (· ≤ ·)).length := by
    rw [hp.length_eq]
    exact hk
  rw [← hp.countP_eq]
  exact le_getD_iff_of_sorted (List.pairwise_insertionSort (· ≤ ·) l) hk'

/-- The statistic is an element of the list. -/
theorem nthElement_mem {l : List α} {k : Nat} (hk : k < l.length) (dflt : α) :
    nthElement l k dflt ∈ l := by
  have hp := List.perm_insertionSort (· ≤ ·) l
  have hk' : k < (l.insertionSort (· ≤ ·)).length := by
    rw [hp.length_eq]
    exact hk
  refine hp.mem_iff.mp ?_
  show (l.insertionSort (· ≤ ·)).getD k dflt ∈ _
  rw [List.getD_eq_getElem _ dflt hk']
  exact List.getElem_mem hk'

end OrderStat
