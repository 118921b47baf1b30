import EosForce.EffectProofs
import Mathlib.Logic.Relation

/-! # Computations that move by steps

    What a computation does to its state is often best said as a list of
    steps that it is made of.  `Moves M I x` says that from a state with `I`
    the computation `x` goes only by steps of `M`, whether it returns or
    throws.  The rules here derive that for a program from its parts; a
    property that every step keeps then holds at the end of every run. -/

namespace StepRule

open Effect Relation

variable {ε σ α β : Type}

/-- The state that a computation ends in, however it ends. -/
def final : EStateM.Result ε σ α → σ
  | .ok _ s => s
  | .error _ s => s

/-- From states with `I`, the computation goes by steps of `M`. -/
def Moves (M : σ → σ → Prop) (I : σ → Prop) (x : EStateM ε σ α) : Prop :=
  ∀ s, I s → ReflTransGen M s (final (x s))

/-- Steps keep `I`. -/
def Stable (M : σ → σ → Prop) (I : σ → Prop) : Prop :=
  ∀ ⦃s s'⦄, M s s' → I s → I s'

variable {M : σ → σ → Prop} {I : σ → Prop}

theorem stable_true : Stable M fun _ => True := fun _ _ _ _ => trivial

/-- **WHOLE RUNS**: what every step keeps holds after any number of steps. -/
theorem Stable.run (hI : Stable M I) {s s' : σ} (h : ReflTransGen M s s') (hs : I s) : I s' := by
  induction h with
  | refl => exact hs
  | tail _ hstep ih => exact hI hstep ih

/-- What a relation that steps respect says between the ends of a run. -/
theorem run_rel {R : σ → σ → Prop} (hrefl : ∀ s, R s s)
    (hstep : ∀ ⦃a b c⦄, R a b → M b c → R a c) {s s' : σ} (h : ReflTransGen M s s') : R s s' := by
  induction h with
  | refl => exact hrefl s
  | tail _ hlast ih => exact hstep ih hlast

variable {x : EStateM ε σ α} {f : α → EStateM ε σ β}

/-- A first part that leaves the state alone. -/
theorem still_bind {P : σ → Prop} {s : σ} (hx : final (x s) = s) (hs : P s)
    (hf : ∀ a, x s = .ok a s → P (final (f a s))) : P (final ((x >>= f) s)) := by
  cases hr : x s with
  | ok a s' =>
    rw [hr] at hx
    obtain rfl : s' = s := hx
    rw [bind_ok hr]
    exact hf a hr
  | error e s' =>
    rw [hr] at hx
    obtain rfl : s' = s := hx
    rw [bind_error hr]
    exact hs

/-! ## Rules -/

/-- A computation that leaves the state alone. -/
theorem Moves.still (h : ∀ s, final (x s) = s) : Moves M I x := by
  intro s _
  rw [h s]

theorem Moves.pure (a : α) : Moves M I (pure a : EStateM ε σ α) := .still fun _ => rfl

theorem Moves.throw (e : ε) : Moves M I (throw e : EStateM ε σ α) := .still fun _ => rfl

/-- More steps allowed, fewer states to start from. -/
theorem Moves.mono {N : σ → σ → Prop} {J : σ → Prop} (hx : Moves M I x)
    (hM : ∀ s s', M s s' → N s s') (hI : ∀ s, J s → I s) : Moves N J x :=
  fun s hs => ReflTransGen.mono hM _ _ (hx s (hI s hs))

/-- A single step. -/
theorem Moves.modify {f : σ → σ} (h : ∀ s, I s → M s (f s)) :
    Moves M I (modify f : EStateM ε σ PUnit) :=
  fun s hs => .single (h s hs)

theorem Moves.bind (hI : Stable M I) (hx : Moves M I x)
    (hf : ∀ s a s', I s → x s = .ok a s' → Moves M I (f a)) : Moves M I (x >>= f) := by
  intro s hs
  have hsteps := hx s hs
  cases hr : x s with
  | ok a s' =>
    rw [hr] at hsteps
    rw [bind_ok hr]
    exact hsteps.trans (hf s a s' hs hr s' (hI.run hsteps hs))
  | error e s' =>
    rw [hr] at hsteps
    rw [bind_error hr]
    exact hsteps

/-- The common case of `Moves.bind`: the continuation moves whatever it gets. -/
theorem Moves.seq (hI : Stable M I) (hx : Moves M I x) (hf : ∀ a, Moves M I (f a)) :
    Moves M I (x >>= f) :=
  hx.bind hI fun _ a _ _ _ => hf a

/-- Without an invariant for what follows. -/
theorem Moves.chain (hx : Moves M I x) (hf : ∀ a, Moves M (fun _ => True) (f a)) :
    Moves M I (x >>= f) := by
  intro s hs
  have hsteps := hx s hs
  cases hr : x s with
  | ok a s' =>
    rw [hr] at hsteps
    rw [bind_ok hr]
    exact hsteps.trans (hf a s' trivial)
  | error e s' =>
    rw [hr] at hsteps
    rw [bind_error hr]
    exact hsteps

/-- Behind a part that leaves the state alone. -/
theorem Moves.behind (hx : ∀ s, final (x s) = s) (hf : ∀ a, Moves M I (f a)) :
    Moves M I (x >>= f) :=
  fun s hs => still_bind (P := ReflTransGen M s) (hx s) .refl fun a _ => hf a s hs

/-- Where all that is asked of steps is that they keep `I`. -/
theorem Moves.keep (hx : Moves (fun _ => I) I x) (hf : ∀ a, Moves (fun _ => I) I (f a)) :
    Moves (fun _ => I) I (x >>= f) := hx.seq (fun _ _ h _ => h) hf

/-- Reading the state first. -/
theorem Moves.get_bind {f : σ → EStateM ε σ β} (hf : ∀ s, I s → Moves M I (f s)) :
    Moves M I (get >>= f) :=
  fun s hs => hf s hs s hs

theorem Moves.whenever {c : Prop} [Decidable c] {x : EStateM ε σ Unit}
    (hx : c → Moves M I x) : Moves M I (whenever c x) := by
  by_cases hc : c
  · rw [Effect.whenever, if_pos hc]
    exact hx hc
  · rw [Effect.whenever, if_neg hc]
    exact .pure ()

theorem Moves.forM {f : α → EStateM ε σ PUnit} (hI : Stable M I) {l : List α}
    (hf : ∀ a ∈ l, Moves M I (f a)) : Moves M I (l.forM f) := by
  induction l with
  | nil => exact .pure _
  | cons a rest ih =>
    exact (hf a (List.mem_cons_self)).seq hI fun _ =>
      ih fun b hb => hf b (List.mem_cons_of_mem a hb)

/-- A fold whose accumulator keeps `J`. -/
theorem Moves.foldlM {f : β → α → EStateM ε σ β} (hI : Stable M I) {J : β → Prop} {l : List α}
    (hf : ∀ b, J b → ∀ a ∈ l, Moves M I (f b a))
    (hJ : ∀ b a s b' s', J b → f b a s = .ok b' s' → J b') {b : β} (hb : J b) :
    Moves M I (l.foldlM f b) := by
  induction l generalizing b with
  | nil => exact .pure _
  | cons a rest ih =>
    rw [List.foldlM_cons]
    exact (hf b hb a (List.mem_cons_self)).bind hI fun s b' s' _ hr =>
      ih (fun b hb a ha => hf b hb a (List.mem_cons_of_mem _ ha)) (hJ b a s b' s' hb hr)

theorem Moves.attempt {ρ : Type} {select : ε → Option ρ} (hx : Moves M I x) :
    Moves M I (attempt select x) := by
  intro s hs
  have hsteps := hx s hs
  rw [Effect.attempt]
  cases hr : x s with
  | ok a s' =>
    rw [hr] at hsteps
    exact hsteps
  | error e s' =>
    rw [hr] at hsteps
    dsimp only
    cases select e with
    | none => exact hsteps
    | some r => exact hsteps

theorem Moves.mapError {f : ε → ε} (hx : Moves M I x) : Moves M I (mapError f x) := by
  intro s hs
  have hsteps := hx s hs
  rw [Effect.mapError]
  cases hr : x s with
  | ok a s' =>
    rw [hr] at hsteps
    exact hsteps
  | error e s' =>
    rw [hr] at hsteps
    exact hsteps

/-- A computation on a part of the state, as one step. -/
theorem Moves.zoom {τ : Type} {part : σ → τ} {put : τ → σ → σ} {x : EStateM ε τ α}
    (h : ∀ s, I s → M s (put (final (x (part s))) s)) : Moves M I (zoom part put x) := by
  intro s hs
  have hstep := h s hs
  rw [Effect.zoom]
  cases hr : x (part s) with
  | ok a t =>
    rw [hr] at hstep
    exact .single hstep
  | error e t =>
    rw [hr] at hstep
    exact .single hstep

/-! ## Values -/

/-- The computation returned `a`. -/
def yields [DecidableEq α] (a : α) : EStateM.Result ε σ α → Bool
  | .ok b _ => decide (b = a)
  | .error _ _ => false

theorem of_yields [DecidableEq α] {a : α} {r : EStateM.Result ε σ α} (h : yields a r = true) :
    r = .ok a (final r) := by
  cases r with
  | ok b s =>
    rw [of_decide_eq_true h]
    rfl
  | error e s => cases h

/-- The computation returned, and `p` holds of its value and state. -/
def yieldsWith (p : α → σ → Bool) : EStateM.Result ε σ α → Bool
  | .ok a s => p a s
  | .error _ _ => false

theorem of_yieldsWith {p : α → σ → Bool} {r : EStateM.Result ε σ α}
    (h : yieldsWith p r = true) : ∃ a s, r = .ok a s ∧ p a s = true := by
  cases r with
  | ok a s => exact ⟨a, s, rfl, h⟩
  | error e s => cases h

/-- The computation threw `e`. -/
def throws [DecidableEq ε] (e : ε) : EStateM.Result ε σ α → Bool
  | .ok _ _ => false
  | .error e' _ => decide (e' = e)

theorem of_throws [DecidableEq ε] {e : ε} {r : EStateM.Result ε σ α} (h : throws e r = true) :
    r = .error e (final r) := by
  cases r with
  | ok a s => cases h
  | error e' s =>
    rw [show e' = e from of_decide_eq_true h]
    rfl

/-- Whatever the computation returns has `P`. -/
def Returns (P : α → Prop) (x : EStateM ε σ α) : Prop :=
  ∀ s a s', x s = .ok a s' → P a

theorem Returns.weaken {P Q : α → Prop} (hx : Returns P x) (h : ∀ a, P a → Q a) : Returns Q x :=
  fun s a s' hr => h a (hx s a s' hr)

theorem Returns.pure {P : α → Prop} {a : α} (h : P a) : Returns P (pure a : EStateM ε σ α) := by
  intro s b s' hr
  cases hr
  exact h

theorem Returns.throw {P : α → Prop} (e : ε) : Returns P (throw e : EStateM ε σ α) :=
  fun _ _ _ hr => nomatch hr

theorem Returns.bind {Q : α → Prop} {P : β → Prop} (hx : Returns Q x)
    (hf : ∀ a, Q a → Returns P (f a)) : Returns P (x >>= f) := by
  intro s b s' hr
  cases hxs : x s with
  | error e s1 =>
    rw [bind_error hxs] at hr
    exact nomatch hr
  | ok a s1 =>
    rw [bind_ok hxs] at hr
    exact hf a (hx s a s1 hxs) s1 b s' hr

/-- The common case of `Returns.bind`: nothing is known of the first value. -/
theorem Returns.seq {P : β → Prop} (hf : ∀ a, Returns P (f a)) : Returns P (x >>= f) :=
  Returns.bind (fun _ _ _ _ => trivial) fun a (_ : True) => hf a

theorem Returns.mapError {P : α → Prop} {f : ε → ε} (hx : Returns P x) :
    Returns P (mapError f x) := by
  intro s a s' hr
  rw [Effect.mapError] at hr
  cases hxs : x s with
  | error e s1 =>
    rw [hxs] at hr
    cases hr
  | ok b s1 =>
    rw [hxs] at hr
    cases hr
    exact hx s a s' hxs

/-- What every round of a fold keeps, its result has. -/
theorem foldlM_returns {J : β → Prop} {f : β → α → EStateM ε σ β} {l : List α}
    (hJ : ∀ b a s b' s', J b → f b a s = .ok b' s' → J b') {b : β} (hb : J b) :
    Returns J (l.foldlM f b) := by
  induction l generalizing b with
  | nil => exact .pure hb
  | cons a rest ih =>
    rw [List.foldlM_cons]
    exact .bind (fun s b' s' hr => hJ b a s b' s' hb hr) fun b' hb' => ih hb'

end StepRule
