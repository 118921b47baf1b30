import EosForce.TrxPhaseProofs

/-! # All or nothing

    What a push leaves behind when it fails.  Once the fee is out of the way a
    failed push leaves the database and the lists of the pending block as they
    were; but as long as `onfee_action` is not open the fee is a transaction
    of its own, and what that one leaves behind stays. -/

namespace AtomicPush

open ChainTypes TrxTypes Effect Database TrxContext Push StepRule
open QuietStep TrxPhase

variable {σ : Type} {env : Env σ} {node : Node} {m : TrxMetadata} {b : Billing}
  {s s' : PipeState σ}

/-- The push threw, or its trace carries an exception. -/
def Failed : EStateM.Result FcException (PipeState σ) Trace → Prop
  | .ok trace _ => trace.except ≠ none
  | .error _ _ => True

instance (r : EStateM.Result FcException (PipeState σ) Trace) : Decidable (Failed r) :=
  match r with
  | .ok trace _ => inferInstanceAs (Decidable (trace.except ≠ none))
  | .error _ _ => isTrue trivial

/-! ## The checks on entry -/

/-- A push that passes the checks on entry and pays its fee goes on with its
    body. -/
theorem pushWith_ok {payFee : PipeM σ Unit} {u v : Unit} (hdeadline : b.deadline ≠ 0)
    (hcheck : checkAction s.db.tables m.trx.actions = .ok u) (hfee : payFee s = .ok v s') :
    pushWith env node payFee m b s = pushBody env node m b s' := by
  rw [pushWith, bind_ok (require_pos hdeadline s), get_bind, raise_bind_ok hcheck, bind_ok hfee]

theorem pushWith_fee_error {payFee : PipeM σ Unit} {u : Unit} {e : FcException}
    (hdeadline : b.deadline ≠ 0) (hcheck : checkAction s.db.tables m.trx.actions = .ok u)
    (hfee : payFee s = .error e s') : pushWith env node payFee m b s = .error e s' := by
  rw [pushWith, bind_ok (require_pos hdeadline s), get_bind, raise_bind_ok hcheck, bind_error hfee]

/-- A push that the checks on entry refuse. -/
theorem pushWith_refused {payFee : PipeM σ Unit}
    (h : b.deadline = 0 ∨ ∃ e, checkAction s.db.tables m.trx.actions = .error e) :
    final (pushWith env node payFee m b s) = s ∧ Failed (pushWith env node payFee m b s) := by
  rw [pushWith]
  by_cases hdeadline : b.deadline ≠ 0
  · obtain hzero | ⟨e, he⟩ := h
    · exact absurd hzero hdeadline
    · rw [bind_ok (require_pos hdeadline s), get_bind, he]
      exact ⟨rfl, trivial⟩
  · rw [bind_error (require_neg hdeadline s)]
    exact ⟨rfl, trivial⟩

theorem payFee_open {feeClock : Clock} (hopen : onfeeOpen env s.db.tables) :
    payFee env node m feeClock s = .ok () s := by
  rw [payFee, get_bind, if_pos hopen]
  rfl

theorem pushTransaction_input (hinput : m.implicit = false) (feeClock : Clock) :
    pushTransaction env node m b feeClock =
      pushWith env node (payFee env node m feeClock) m b := by
  rw [pushTransaction, hinput]
  rfl

/-! ## The part after the fee -/

/-- The body kept what the transaction did. -/
structure Kept (env : Env σ) (node : Node) (m : TrxMetadata) (b : Billing) (s : PipeState σ)
    (except : Option FcException) (s' : PipeState σ) : Prop where
  speculative : ¬ discards node
  run : ∃ e, runTrx env node m ⟨s.db, startContext node m b⟩ = .ok except e ∧
    s'.block.actions = s.block.actions ++ e.ctx.executed

section Sessions

variable (hsessions : node.skipDbSessions = false)
include hsessions

theorem undone_of_sessions (before after : Db σ) : undone node before after = before := by
  rw [undone, hsessions]
  rfl

theorem final_pushBody_error {err : FcException} {e : ExecState σ}
    (hrun : runTrx env node m ⟨s.db, startContext node m b⟩ = .error err e) :
    final (pushBody env node m b s) = s ∧ Failed (pushBody env node m b s) := by
  rw [pushBody, get_bind, hrun]
  dsimp only
  rw [undone_of_sessions hsessions]
  split
  · exact ⟨rfl, trivial⟩
  · exact ⟨rfl, Option.some_ne_none err⟩

variable (env m b s) in
/-- The body of a push leaves nothing behind, or it kept what the transaction
    did. -/
theorem pushBody_cases :
    (final (pushBody env node m b s) = s ∧ (discards node ∨ Failed (pushBody env node m b s))) ∨
      ∃ trace s', pushBody env node m b s = .ok trace s' ∧
        Kept env node m b s trace.except s' := by
  cases hrun : runTrx env node m ⟨s.db, startContext node m b⟩ with
  | error err e =>
    obtain ⟨hsame, hfail⟩ := final_pushBody_error hsessions hrun
    exact .inl ⟨hsame, .inr hfail⟩
  | ok except e =>
    rw [pushBody, get_bind, hrun]
    dsimp only
    by_cases hd : discards node
    · rw [if_pos hd, undone_of_sessions hsessions]
      exact .inl ⟨rfl, .inl hd⟩
    · rw [if_neg hd]
      by_cases himp : m.implicit = false
      · rw [whenever, if_pos himp]
        exact .inr ⟨_, _, rfl, hd, e, hrun, rfl⟩
      · rw [whenever, if_neg himp]
        exact .inr ⟨_, _, rfl, hd, e, hrun, rfl⟩

/-- A body that fails leaves nothing behind if `onfee_action` is open. -/
theorem pushBody_failed (hopen : onfeeOpen env s.db.tables)
    (hfail : Failed (pushBody env node m b s)) :
    final (pushBody env node m b s) = s := by
  obtain ⟨hsame, _⟩ | ⟨trace, s', hr, hkept⟩ := pushBody_cases env m b s hsessions
  · exact hsame
  · obtain ⟨e, hrun, _⟩ := hkept.run
    rw [hr] at hfail
    exact absurd (runTrx_open hopen hrun) hfail

end Sessions

/-! ## The whole push -/

/-- A transfer that states half the fee it has to pay, pushed before
    `onfee_action` is open. -/
def underpaid : TrxMetadata :=
  { SmallChain.transfer with trx := { SmallChain.transfer.trx with fee := ⟨50, coreSymbol⟩ } }

def underpaidStart : PipeState Unit := ⟨SmallChain.db none 0 false, {}⟩

def underpaidPush : EStateM.Result FcException (PipeState Unit) Trace :=
  pushTransaction (SmallChain.env 10 SmallChain.noCode) SmallChain.producer underpaid {} {}
    underpaidStart

end AtomicPush
