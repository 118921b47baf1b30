import Mathlib.Init

/-! # Computations that throw and keep their state

    The controller is stateful code that throws: what a function changed
    before it threw stays changed until somebody undoes it.  Core's `EStateM`
    has exactly this meaning.  The lemmas here step such a computation from a
    known state. -/

namespace Effect

variable {ε σ α β : Type}

variable {x : EStateM ε σ α} {f : α → EStateM ε σ β} {s s' : σ}

/-- A step that returns hands its value and state on. -/
theorem bind_ok {a : α} (h : x s = .ok a s') : (x >>= f) s = f a s' := by
  show EStateM.bind x f s = _
  rw [EStateM.bind, h]

variable {e : ε}

/-- A step that throws ends the computation. -/
theorem bind_error (h : x s = .error e s') : (x >>= f) s = .error e s' := by
  show EStateM.bind x f s = _
  rw [EStateM.bind, h]

/-- What a computation that returns went through. -/
theorem bind_ok_inv {b : β} (h : (x >>= f) s = .ok b s') :
    ∃ a s1, x s = .ok a s1 ∧ f a s1 = .ok b s' := by
  cases hx : x s with
  | error e s1 =>
    rw [bind_error hx] at h
    exact nomatch h
  | ok a s1 =>
    rw [bind_ok hx] at h
    exact ⟨a, s1, rfl, h⟩

theorem get_bind (f : σ → EStateM ε σ β) (s : σ) : (get >>= f) s = f s s := rfl

theorem set_bind (s' : σ) (f : PUnit → EStateM ε σ β) (s : σ) :
    (set s' >>= f) s = f ⟨⟩ s' := rfl

theorem modify_bind (g : σ → σ) (f : PUnit → EStateM ε σ β) (s : σ) :
    (modify g >>= f) s = f ⟨⟩ (g s) := rfl

/-- Run `x` where `c` holds. -/
def whenever (c : Prop) [Decidable c] (x : EStateM ε σ Unit) : EStateM ε σ Unit :=
  if c then x else pure ()

/-- The value that is there, or the exception. -/
def orThrow (o : Option α) (e : ε) : EStateM ε σ α :=
  match o with
  | some a => pure a
  | none => throw e

theorem orThrow_ok {o : Option α} {a : α} (h : orThrow o e s = .ok a s') : o = some a ∧ s' = s := by
  cases o with
  | none => cases h
  | some b =>
    cases h
    exact ⟨rfl, rfl⟩

theorem whenever_congr {c d : Prop} [Decidable c] [Decidable d] (h : c ↔ d)
    {x : EStateM ε σ Unit} : whenever c x = whenever d x := by
  by_cases hc : c
  · rw [whenever, whenever, if_pos hc, if_pos (h.mp hc)]
  · rw [whenever, whenever, if_neg hc, if_neg fun hd => hc (h.mpr hd)]

/-- What ran where `c` holds. -/
theorem whenever_ok {c : Prop} [Decidable c] {x : EStateM ε σ Unit} {u : Unit}
    (h : whenever c x s = .ok u s') : (c ∧ x s = .ok u s') ∨ (¬ c ∧ s' = s) := by
  rw [whenever] at h
  split at h
  · rename_i hc
    exact .inl ⟨hc, h⟩
  · rename_i hc
    cases h
    exact .inr ⟨hc, rfl⟩

/-- A computation on a part of the state. -/
def zoom {τ : Type} (part : σ → τ) (put : τ → σ → σ) (x : EStateM ε τ α) : EStateM ε σ α :=
  fun s =>
    match x (part s) with
    | .ok a t => .ok a (put t s)
    | .error e t => .error e (put t s)

/-- Run `x` and change what it throws. -/
def mapError (f : ε → ε) (x : EStateM ε σ α) : EStateM ε σ α := fun s =>
  match x s with
  | .ok a s' => .ok a s'
  | .error e s' => .error (f e) s'

theorem mapError_ok {f : ε → ε} {a : α} (h : mapError f x s = .ok a s') : x s = .ok a s' := by
  rw [mapError] at h
  cases hx : x s with
  | error e s1 =>
    rw [hx] at h
    cases h
  | ok b s1 =>
    rw [hx] at h
    exact h

/-- Run `x`; what it throws and `select` recognises is handed over as a value,
    with the state as it was at the throw. -/
def attempt {ρ : Type} (select : ε → Option ρ) (x : EStateM ε σ α) :
    EStateM ε σ (Except ρ α) := fun s =>
  match x s with
  | .ok a s' => .ok (.ok a) s'
  | .error e s' =>
    match select e with
    | some r => .ok (.error r) s'
    | none => .error e s'

variable {ρ : Type} {select : ε → Option ρ}

theorem attempt_ok {a : α} (h : x s = .ok a s') : attempt select x s = .ok (.ok a) s' := by
  rw [attempt, h]

theorem attempt_caught {r : ρ} (h : x s = .error e s') (hr : select e = some r) :
    attempt select x s = .ok (.error r) s' := by
  simp only [attempt, h, hr]

theorem attempt_missed (h : x s = .error e s') (hr : select e = none) :
    attempt select x s = .error e s' := by
  simp only [attempt, h, hr]

/-- What was not thrown came from a computation that returned. -/
theorem attempt_ok_inv {a : α} (h : attempt select x s = .ok (.ok a) s') : x s = .ok a s' := by
  rw [attempt] at h
  cases hx : x s with
  | ok b s1 =>
    rw [hx] at h
    cases h
    rfl
  | error e s1 =>
    rw [hx] at h
    dsimp only at h
    cases hr : select e with
    | none =>
      rw [hr] at h
      cases h
    | some r =>
      rw [hr] at h
      cases h

variable {τ : Type} {part : σ → τ} {put : τ → σ → σ} {y : EStateM ε τ α} {t : τ}

theorem zoom_ok {a : α} (h : y (part s) = .ok a t) : zoom part put y s = .ok a (put t s) := by
  rw [zoom, h]

theorem zoom_error (h : y (part s) = .error e t) : zoom part put y s = .error e (put t s) := by
  rw [zoom, h]

/-- What a computation on a part returns leaves the rest alone. -/
theorem zoom_ok_inv {a : α} (h : zoom part put y s = .ok a s') :
    ∃ t, y (part s) = .ok a t ∧ s' = put t s := by
  rw [zoom] at h
  cases hx : y (part s) with
  | ok b t =>
    rw [hx] at h
    cases h
    exact ⟨t, rfl, rfl⟩
  | error e t =>
    rw [hx] at h
    cases h

/-! ## Computations that only look -/

/-- A computation that leaves the state alone when it returns. -/
def Reads (x : EStateM ε σ α) : Prop := ∀ s a s', x s = .ok a s' → s' = s

theorem reads_pure (a : α) : Reads (pure a : EStateM ε σ α) := by
  intro s b s' h
  cases h
  rfl

theorem reads_get : Reads (get : EStateM ε σ σ) := by
  intro s b s' h
  cases h
  rfl

theorem reads_orThrow {o : Option α} : Reads (orThrow o e : EStateM ε σ α) :=
  fun _ _ _ h => (orThrow_ok h).2

theorem Reads.bind (hx : Reads x) (hf : ∀ a, Reads (f a)) : Reads (x >>= f) := by
  intro s b s' h
  obtain ⟨a, s1, h1, h2⟩ := bind_ok_inv h
  rw [hf a s1 b s' h2, hx s a s1 h1]

/-- What comes after a computation that only looks starts where it started. -/
theorem Reads.bind_inv {b : β} (hx : Reads x) (h : (x >>= f) s = .ok b s') :
    ∃ a, x s = .ok a s ∧ f a s = .ok b s' := by
  obtain ⟨a, s1, h1, h2⟩ := bind_ok_inv h
  obtain rfl := hx s a s1 h1
  exact ⟨a, h1, h2⟩

theorem orThrow_bind_inv {o : Option α} {b : β} (h : (orThrow o e >>= f) s = .ok b s') :
    ∃ a, o = some a ∧ f a s = .ok b s' := by
  obtain ⟨a, ha, h⟩ := reads_orThrow.bind_inv h
  exact ⟨a, (orThrow_ok ha).1, h⟩

theorem Reads.whenever {x : EStateM ε σ Unit} (hx : Reads x) {c : Prop} [Decidable c] :
    Reads (whenever c x) := by
  intro s u s' h
  rcases whenever_ok h with ⟨-, h⟩ | ⟨-, rfl⟩
  · exact hx s u s' h
  · rfl

theorem reads_forM {f : α → EStateM ε σ PUnit} (hf : ∀ a, Reads (f a)) (l : List α) :
    Reads (l.forM f) := by
  induction l with
  | nil => exact reads_pure PUnit.unit
  | cons a l ih => exact (hf a).bind fun _ => ih

/-! ## What a computation keeps -/

/-- Where the computation returns stands in `R` to where it started. -/
def Keeps (R : σ → σ → Prop) (x : EStateM ε σ α) : Prop := ∀ s a s', x s = .ok a s' → R s s'

section Keeps

variable {R : σ → σ → Prop}

theorem Reads.keeps (hrefl : ∀ s, R s s) (hx : Reads x) : Keeps R x := by
  intro s a s' h
  rw [hx s a s' h]
  exact hrefl s

theorem Keeps.bind (htrans : ∀ ⦃a b c⦄, R a b → R b c → R a c) (hx : Keeps R x)
    (hf : ∀ a, Keeps R (f a)) : Keeps R (x >>= f) := by
  intro s b s' h
  obtain ⟨a, s1, h1, h2⟩ := bind_ok_inv h
  exact htrans (hx s a s1 h1) (hf a s1 b s' h2)

/-- What only looks first changes nothing about it. -/
theorem Reads.bind_keeps (hx : Reads x) (hf : ∀ a, Keeps R (f a)) : Keeps R (x >>= f) := by
  intro s b s' h
  obtain ⟨a, -, h⟩ := hx.bind_inv h
  exact hf a s b s' h

theorem Keeps.whenever (hrefl : ∀ s, R s s) {x : EStateM ε σ Unit} (hx : Keeps R x) {c : Prop}
    [Decidable c] : Keeps R (whenever c x) := by
  intro s u s' h
  rcases whenever_ok h with ⟨-, h⟩ | ⟨-, rfl⟩
  · exact hx s u s' h
  · exact hrefl _

theorem keeps_modify {f : σ → σ} (h : ∀ s, R s (f s)) : Keeps R (modify f : EStateM ε σ PUnit) := by
  intro s u s' hs
  cases hs
  exact h s

/-- The state is read and written back changed. -/
theorem keeps_get_bind {f : σ → EStateM ε σ α} (h : ∀ s a s', f s s = .ok a s' → R s s') :
    Keeps R (get >>= f) :=
  fun s a s' hs => h s a s' hs

theorem keeps_forM (hrefl : ∀ s, R s s) (htrans : ∀ ⦃a b c⦄, R a b → R b c → R a c)
    {f : α → EStateM ε σ PUnit} {l : List α} (hf : ∀ a ∈ l, Keeps R (f a)) :
    Keeps R (l.forM f) := by
  induction l with
  | nil => exact (reads_pure PUnit.unit).keeps hrefl
  | cons a l ih =>
    exact (hf a List.mem_cons_self).bind htrans fun _ =>
      ih fun b hb => hf b (List.mem_cons_of_mem a hb)

/-- What a computation leaves when its changes are undone where it throws. -/
def commit (x : EStateM ε σ α) (s : σ) : σ :=
  match x s with
  | .ok _ s' => s'
  | .error _ _ => s

theorem Keeps.commit (hrefl : ∀ s, R s s) (hx : Keeps R x) (s : σ) : R s (commit x s) := by
  rw [Effect.commit]
  cases h : x s with
  | ok a s' => exact hx s a s' h
  | error e s' => exact hrefl s

/-- An invariant that the computation keeps. -/
def Preserves (I : σ → Prop) (x : EStateM ε σ α) : Prop := Keeps (fun s s' => I s → I s') x

end Keeps

section Preserves

variable {I : σ → Prop}

theorem Reads.preserves (hx : Reads x) : Preserves I x :=
  hx.keeps fun _ h => h

theorem Keeps.preserves {R : σ → σ → Prop} (hx : Keeps R x) (hR : ∀ ⦃s s'⦄, R s s' → I s → I s') :
    Preserves I x :=
  fun s a s' h => hR (hx s a s' h)

theorem Preserves.bind (hx : Preserves I x) (hf : ∀ a, Preserves I (f a)) : Preserves I (x >>= f) :=
  Keeps.bind (fun _ _ _ h1 h2 h => h2 (h1 h)) hx hf

theorem preserves_forM {f : α → EStateM ε σ PUnit} {l : List α} (hf : ∀ a ∈ l, Preserves I (f a)) :
    Preserves I (l.forM f) :=
  keeps_forM (fun _ h => h) (fun _ _ _ h1 h2 h => h2 (h1 h)) hf

theorem Preserves.commit (hx : Preserves I x) {s : σ} (hs : I s) : I (Effect.commit x s) :=
  Keeps.commit (fun _ h => h) hx s hs

end Preserves

/-! ## Completion -/

/-- The computation does not throw. -/
def Completes (x : EStateM ε σ α) (s : σ) : Prop :=
  match x s with
  | .ok _ _ => True
  | .error _ _ => False

instance (x : EStateM ε σ α) (s : σ) : Decidable (Completes x s) :=
  match hx : x s with
  | .ok _ _ => isTrue (by rw [Completes, hx]; trivial)
  | .error _ _ => isFalse (by rw [Completes, hx]; exact id)

theorem completes_iff {x : EStateM ε σ Unit} {s : σ} :
    Completes x s ↔ x s = .ok () (commit x s) := by
  rw [Completes, commit]
  cases x s with
  | ok u s' => simp
  | error e s' => simp

/-! ## Exceptions that do not occur -/

/-- From this state the computation does not end with this exception. -/
def Never (e : ε) (x : EStateM ε σ α) (s : σ) : Prop := ∀ s', x s ≠ .error e s'

instance [DecidableEq ε] (e : ε) (x : EStateM ε σ α) (s : σ) : Decidable (Never e x s) :=
  match hx : x s with
  | .ok _ _ => isTrue fun s' h => by
      rw [hx] at h
      cases h
  | .error e' s' =>
    if he : e' = e then isFalse fun h => h s' (he ▸ hx)
    else isTrue fun s'' h => by
      rw [hx] at h
      exact he (EStateM.Result.error.inj h).1

theorem Never.bind {s : σ} (hx : Never e x s) (hf : ∀ a s1, x s = .ok a s1 → Never e (f a) s1) :
    Never e (x >>= f) s := by
  intro s' h
  cases hxs : x s with
  | ok a s1 =>
    rw [bind_ok hxs] at h
    exact hf a s1 hxs s' h
  | error e' s1 =>
    rw [bind_error hxs] at h
    obtain ⟨rfl, rfl⟩ := EStateM.Result.error.inj h
    exact hx _ hxs

theorem Never.whenever {c : Prop} [Decidable c] {x : EStateM ε σ Unit} {s : σ}
    (hx : c → Never e x s) : Never e (whenever c x) s := by
  rw [Effect.whenever]
  split
  · rename_i hc
    exact hx hc
  · exact fun s' h => nomatch h

theorem never_orThrow {e e' : ε} {o : Option α} {s : σ} (hne : e' ≠ e) :
    Never e (orThrow o e') s := by
  intro s' h
  cases o with
  | some a => cases h
  | none => exact hne (EStateM.Result.error.inj h).1



theorem never_modify {f : σ → σ} {s : σ} :
    Never e (modify f : EStateM ε σ PUnit) s := fun _ h => nomatch h

theorem Never.zoom {s : σ} (hx : Never e y (part s)) : Never e (zoom part put y) s := by
  intro s' h
  cases hxs : y (part s) with
  | ok a t =>
    rw [zoom_ok hxs] at h
    cases h
  | error e' t =>
    rw [zoom_error hxs] at h
    obtain ⟨rfl, -⟩ := EStateM.Result.error.inj h
    exact hx t hxs

/-! ## Seeing a part of the state -/

/-- Seen through `part`, the computation runs as another one does. -/
def Shows {ε σ τ α : Type} (part : σ → τ) (x : EStateM ε σ α) (y : EStateM ε τ α) : Prop :=
  ∀ s, match x s with
    | .ok a s' => y (part s) = .ok a (part s')
    | .error e s' => y (part s) = .error e (part s')

section Shows

variable {ε σ τ α β ρ : Type} {part : σ → τ} {x : EStateM ε σ α} {y : EStateM ε τ α}
  {f : α → EStateM ε σ β} {g : α → EStateM ε τ β}

theorem Shows.pure (a : α) : Shows part (pure a : EStateM ε σ α) (pure a) := fun _ => rfl

theorem Shows.throw (e : ε) : Shows part (throw e : EStateM ε σ α) (throw e) := fun _ => rfl

theorem Shows.bind (h : Shows part x y) (hf : ∀ a, Shows part (f a) (g a)) :
    Shows part (x >>= f) (y >>= g) := by
  intro s
  have hx := h s
  cases hrun : x s with
  | ok a s' =>
    rw [hrun] at hx
    rw [bind_ok hrun, bind_ok hx]
    exact hf a s'
  | error e s' =>
    rw [hrun] at hx
    rw [bind_error hrun, bind_error hx]

/-- Both read their own state. -/
theorem Shows.get_bind {f : σ → EStateM ε σ β} {g : τ → EStateM ε τ β}
    (h : ∀ s, Shows part (f s) (g (part s))) : Shows part (get >>= f) (get >>= g) :=
  fun s => h s s

theorem Shows.attempt (select : ε → Option ρ) (h : Shows part x y) :
    Shows part (attempt select x) (attempt select y) := by
  intro s
  have hx := h s
  cases hrun : x s with
  | ok a s' =>
    rw [hrun] at hx
    rw [attempt_ok hrun, attempt_ok hx]
  | error e s' =>
    rw [hrun] at hx
    cases hr : select e with
    | none => rw [attempt_missed hrun hr, attempt_missed hx hr]
    | some r => rw [attempt_caught hrun hr, attempt_caught hx hr]

theorem Shows.zoom {put : τ → σ → σ} (hput : ∀ t s, part (put t s) = t) (y : EStateM ε τ α) :
    Shows part (zoom part put y) y := by
  intro s
  cases hrun : y (part s) with
  | ok a t =>
    rw [zoom_ok hrun]
    exact congrArg _ (hput t s).symm
  | error e t =>
    rw [zoom_error hrun]
    exact congrArg _ (hput t s).symm

end Shows

end Effect
