import Mathlib.Algebra.Order.BigOperators.Group.List
import Mathlib.Algebra.Order.Ring.Nat

/-! # Weighted tallies with an early exit

    A tally visits entries in turn.  A visit may change a state and says
    whether its entry counts; the weights of those that count are added up,
    and the tally ends as soon as they reach a threshold.  The rules here say
    what the outcome of a tally tells about the entries, from what a single
    visit tells about its entry, for any invariant of the state. -/

namespace Tally

open List

variable {ε σ : Type}

/-- What a visit adds to the total. -/
def added (weight : ε → Nat) (visit : ε → σ → Bool × σ) (e : ε) (s : σ) : Nat :=
  if (visit e s).1 then weight e else 0

/-- Add up the weights of the entries that count, up to a threshold. -/
def tally (weight : ε → Nat) (visit : ε → σ → Bool × σ) (threshold : Nat) :
    List ε → Nat → σ → Bool × σ
  | [], _, s => (false, s)
  | e :: es, total, s =>
    if threshold ≤ total + added weight visit e s then (true, (visit e s).2)
    else tally weight visit threshold es (total + added weight visit e s) (visit e s).2

open Classical in
/-- The weights of the entries with a property. -/
noncomputable def gained (weight : ε → Nat) (counts : ε → Prop) (es : List ε) : Nat :=
  (es.map fun e => if counts e then weight e else 0).sum

variable {weight : ε → Nat} {visit : ε → σ → Bool × σ} {threshold : Nat}

variable {es : List ε}

theorem tally_reached {e : ε} {total : Nat} {s : σ}
    (h : threshold ≤ total + added weight visit e s) :
    tally weight visit threshold (e :: es) total s = (true, (visit e s).2) :=
  if_pos h

theorem tally_short {e : ε} {total : Nat} {s : σ}
    (h : ¬ threshold ≤ total + added weight visit e s) :
    tally weight visit threshold (e :: es) total s =
      tally weight visit threshold es (total + added weight visit e s) (visit e s).2 :=
  if_neg h

section Gained

variable {counts counts' : ε → Prop}

@[simp] theorem gained_nil : gained weight counts [] = 0 := rfl

open Classical in
theorem gained_cons (e : ε) (es : List ε) :
    gained weight counts (e :: es) = (if counts e then weight e else 0) + gained weight counts es :=
  sum_cons

theorem gained_append (es es' : List ε) :
    gained weight counts (es ++ es') = gained weight counts es + gained weight counts es' := by
  simp [gained]

theorem gained_perm {es es' : List ε} (h : es.Perm es') :
    gained weight counts es = gained weight counts es' :=
  (h.map _).sum_eq

theorem gained_take_le (i : Nat) : gained weight counts (es.take i) ≤ gained weight counts es := by
  conv_rhs => rw [← take_append_drop i es, gained_append]
  exact Nat.le_add_right _ _

theorem gained_mono (h : ∀ e ∈ es, counts e → counts' e) :
    gained weight counts es ≤ gained weight counts' es := by
  refine sum_le_sum fun e he => ?_
  by_cases hc : counts e
  · rw [if_pos hc, if_pos (h e he hc)]
  · rw [if_neg hc]
    exact Nat.zero_le _

/-- An entry that a tally comes to: those before it do not reach the
    threshold. -/
def Met (weight : ε → Nat) (counts : ε → Prop) (threshold : Nat) (es : List ε) (i : Nat) (e : ε) :
    Prop :=
  es[i]? = some e ∧ gained weight counts (es.take i) < threshold

/-- The entries with the property can be picked out first. -/
theorem gained_map {β : Type} (weight : ε → Nat) (counts : ε → Prop) (f : β → ε) (p : β → Prop)
    [DecidablePred p]
    (h : ∀ b, counts (f b) ↔ p b) (l : List β) :
    gained weight counts (l.map f) =
      ((l.filter fun b => decide (p b)).map fun b => weight (f b)).sum := by
  induction l with
  | nil => rfl
  | cons b l ih =>
    by_cases hb : p b
    · simp [gained_cons, ih, h, hb]
    · simp [gained_cons, ih, h, hb]

end Gained

/-! ## What an outcome tells -/

/-- A yes is right; so is a no, if the answers are full. -/
def Tells (full answer fact : Prop) : Prop := (answer → fact) ∧ (full → fact → answer)

variable (weight visit threshold)

/-- Where the visits tell which entries have a property, the tally tells
    whether the weights of such entries reach the threshold. -/
theorem tally_tells (full : Prop) (counts : ε → Prop) (I : σ → Prop) (all : List ε)
    (hvisit : ∀ i e, all[i]? = some e → (full → Met weight counts threshold all i e) →
      ∀ s, I s → I (visit e s).2 ∧ Tells full ((visit e s).1 = true) (counts e)) :
    ∀ (es : List ε) (i total : Nat) (s : σ), all.drop i = es → I s →
      total ≤ gained weight counts (all.take i) →
      (full → gained weight counts (all.take i) ≤ total) → total < threshold →
      I (tally weight visit threshold es total s).2 ∧
        Tells full ((tally weight visit threshold es total s).1 = true)
          (threshold ≤ gained weight counts all) := by
  intro es
  -- on the entries that are left, which stand behind position `i`
  induction es with
  | nil =>
    intro i total s hdrop hs hle hfull hlt
    rw [take_of_length_le (drop_eq_nil_iff.mp hdrop)] at hle hfull
    refine ⟨hs, fun h => (nomatch h), fun hf h => ?_⟩
    have := hfull hf
    omega
  | cons e es ih =>
    intro i total s hdrop hs hle hfull hlt
    classical
    have hget : all[i]? = some e := by rw [← head?_drop, hdrop, head?_cons]
    have htake : gained weight counts (all.take (i + 1)) =
        gained weight counts (all.take i) + if counts e then weight e else 0 := by
      rw [take_add_one, hget, gained_append]
      simp [gained]
    obtain ⟨hs', hyes, hno⟩ := hvisit i e hget
      (fun hf => ⟨hget, (hfull hf).trans_lt hlt⟩) s hs
    have hadded : added weight visit e s ≤ if counts e then weight e else 0 := by
      rw [added]
      split
      · next hv => exact Nat.le_of_eq (if_pos (hyes hv)).symm
      · exact Nat.zero_le _
    have hcounted : full → (if counts e then weight e else 0) ≤ added weight visit e s := by
      intro hf
      split
      · next hc => exact Nat.le_of_eq (if_pos (hno hf hc)).symm
      · exact Nat.zero_le _
    by_cases hreached : threshold ≤ total + added weight visit e s
    · rw [tally_reached hreached]
      have hpart : gained weight counts (all.take (i + 1)) ≤ gained weight counts all :=
        gained_take_le (i + 1)
      exact ⟨hs', fun _ => by omega, fun _ _ => rfl⟩
    · rw [tally_short hreached]
      refine ih (i + 1) _ _ ?_ hs' (by omega) ?_ (Nat.lt_of_not_le hreached)
      · rw [← drop_drop, hdrop, drop_one, tail_cons]
      · intro hf
        have := hfull hf
        have := hcounted hf
        omega

end Tally
