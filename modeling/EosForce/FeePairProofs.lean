import EosForce.TrxJobProofs

/-! # Every action has its fee action before it

    Where fees are due, actions are scheduled in pairs: a fee action and the
    action it pays for.  Scheduling appends to one list of traces, while
    execution runs through queues of ordinals, depth first.  This file follows
    the pairs from the queues into the list of executed actions, together with
    the sum of their fees. -/

namespace FeePair

open ChainTypes TrxTypes Effect Database TrxContext ApplyContext Push StepRule
open QuietStep ExecSteps TrxPhase TrxJob Relation List

variable {σ : Type}

/-! ## Pairs -/

/-- The origins of actions that are charged. -/
def charged : List Origin := [.transaction, .contextFree, .inlined, .contextFreeInline]

/-- `f` is a fee action over `fee` that was made for `t`. -/
structure FeeFor (env : Env σ) (payer : Name) (fee : Asset) (f t : ActionTrace) : Prop where
  origin : f.origin = .feeAction fee
  receiver : f.receiver = N.eosio
  act : ∃ name bp, (name = N.onfee ∨ name = N.voteagefee) ∧
    f.act = ⟨N.eosio, name, [⟨payer, N.active⟩], env.packFee ⟨payer, fee, bp⟩⟩
  required : t.required = .ok fee
  charged : t.origin ∈ charged

/-- A queue of ordinals: pairs of a fee action and its action, with the sum
    of the fees. -/
inductive Queue (env : Env σ) (payer : Name) (traces : List ActionTrace) :
    List Nat → Int → Prop where
  | nil : Queue env payer traces [] 0
  | pair {o : Nat} {f t : ActionTrace} {fee : Asset} {q : List Nat} {n : Int}
      (hf : traces[o]? = some f) (ht : traces[o + 1]? = some t) (h : FeeFor env payer fee f t)
      (hq : Queue env payer traces q n) :
      Queue env payer traces ((o + 1) :: (o + 2) :: q) (fee.amount + n)

/-- Executed actions: pairs of a fee action and its action, each followed by
    notifications, with the sum of the fees. -/
inductive Paired (env : Env σ) (payer : Name) : List Executed → Int → Prop where
  | nil : Paired env payer [] 0
  | pair {f t : Executed} {fee : Asset} {l : List Executed} {n : Int}
      (h : FeeFor env payer fee f.trace t.trace) (hl : Paired env payer l n) :
      Paired env payer (f :: t :: l) (fee.amount + n)
  | notified {e : Executed} {l : List Executed} {n : Int}
      (h : e.trace.origin = .notification) (hl : Paired env payer l n) :
      Paired env payer (e :: l) n

variable {env : Env σ} {node : Node} {payer : Name}

theorem getElem?_mono {α : Type} {l l' : List α} {i : Nat} {a : α} (h : l <+: l')
    (hi : l[i]? = some a) : l'[i]? = some a := by
  obtain ⟨more, rfl⟩ := h
  rw [List.getElem?_append_left (List.getElem?_eq_some_iff.mp hi).1]
  exact hi

theorem Queue.mono {traces traces' : List ActionTrace} {q : List Nat} {n : Int}
    (hpre : traces <+: traces') (h : Queue env payer traces q n) : Queue env payer traces' q n := by
  induction h with
  | nil => exact .nil
  | pair hf ht h _ ih => exact .pair (getElem?_mono hpre hf) (getElem?_mono hpre ht) h ih

theorem Queue.append {traces : List ActionTrace} {q q' : List Nat} {n n' : Int}
    (h : Queue env payer traces q n) (h' : Queue env payer traces q' n') :
    Queue env payer traces (q ++ q') (n + n') := by
  induction h with
  | nil => rwa [nil_append, Int.zero_add]
  | pair hf ht h _ ih =>
    rw [Int.add_assoc]
    exact .pair hf ht h ih

theorem Paired.append {l l' : List Executed} {n n' : Int} (h : Paired env payer l n)
    (h' : Paired env payer l' n') : Paired env payer (l ++ l') (n + n') := by
  induction h with
  | nil => rwa [nil_append, Int.zero_add]
  | pair h _ ih =>
    rw [Int.add_assoc]
    exact .pair h ih
  | notified h _ ih => exact .notified h ih

theorem Paired.of_notified {l : List Executed} (h : ∀ e ∈ l, e.trace.origin = .notification) :
    Paired env payer l 0 := by
  induction l with
  | nil => exact .nil
  | cons e rest ih =>
    exact .notified (h e mem_cons_self) (ih fun x hx => h x (mem_cons_of_mem e hx))

/-! ## What happens between two states -/

/-- The fee limit is met. -/
def Within (s : ExecState σ) : Prop :=
  s.ctx.maxFeeToPay ≠ Asset.zero → s.ctx.feeCosted.le s.ctx.maxFeeToPay = .ok true

/-- `added` is executed, and fees over `n` are charged. -/
structure Ran (s s' : ExecState σ) (added : List Executed) (n : Int) : Prop where
  executed : s'.ctx.executed = s.ctx.executed ++ added
  traces : s.ctx.actionTraces <+: s'.ctx.actionTraces
  feePayer : s'.ctx.feePayer = s.ctx.feePayer
  feeCosted : s'.ctx.feeCosted.amount = s.ctx.feeCosted.amount + n
  within : Within s → Within s'

theorem Ran.refl (s : ExecState σ) : Ran s s [] 0 :=
  ⟨(append_nil _).symm, prefix_refl _, rfl, (Int.add_zero _).symm, id⟩

theorem Ran.trans {a b c : ExecState σ} {l l' : List Executed} {n n' : Int}
    (h : Ran a b l n) (h' : Ran b c l' n') : Ran a c (l ++ l') (n + n') where
  executed := by rw [h'.executed, h.executed, append_assoc]
  traces := h.traces.trans h'.traces
  feePayer := h'.feePayer.trans h.feePayer
  feeCosted := by rw [h'.feeCosted, h.feeCosted, Int.add_assoc]
  within hw := h'.within (h.within hw)

theorem Ran.of_ticked {s s' : ExecState σ} (h : Ticked s.ctx s'.ctx) : Ran s s' [] 0 := by
  have hexec := congrArg Context.executed h.still
  have htraces := congrArg Context.actionTraces h.still
  have hpayer := congrArg Context.feePayer h.still
  have hcost := congrArg Context.feeCosted h.still
  have hmax := congrArg Context.maxFeeToPay h.still
  refine ⟨?_, ⟨[], ?_⟩, hpayer, ?_, fun hw => ?_⟩
  · rw [append_nil]
    exact hexec
  · rw [append_nil]
    exact htraces.symm
  · rw [Int.add_zero]
    exact congrArg Asset.amount hcost
  · rw [Within, show s'.ctx.maxFeeToPay = s.ctx.maxFeeToPay from hmax,
      show s'.ctx.feeCosted = s.ctx.feeCosted from hcost]
    exact hw

theorem ran_of_quietly (env : Env σ) {α : Type} {x : ExecM σ α} {s s' : ExecState σ} {a : α}
    (h : Quietly env (fun _ _ => True) x) (hr : x s = .ok a s') : Ran s s' [] 0 :=
  .of_ticked (h.ticked_ok hr)

/-! ## Scheduling -/

theorem mkFeeAction_ok {t : Tables σ} {c : Context} {fee : Asset} {feeAct : Action}
    (h : mkFeeAction env t c fee = .ok feeAct) :
    ∃ name bp, (name = N.onfee ∨ name = N.voteagefee) ∧
      feeAct = ⟨N.eosio, name, [⟨c.feePayer, N.active⟩], env.packFee ⟨c.feePayer, fee, bp⟩⟩ := by
  rw [mkFeeAction] at h
  obtain ⟨bpName, _, h1⟩ := except_bind_ok h
  refine ⟨_, _, ?_, (Except.ok.inj h1).symm⟩
  cases bpName with
  | none => exact .inl rfl
  | some bp => exact .inr rfl

/-- `Asset.add` that goes through adds the amounts. -/
theorem add_amount {a b c : Asset} (h : a.add b = .ok c) : c.amount = a.amount + b.amount := by
  rw [Asset.add] at h
  obtain ⟨_, _, h1⟩ := except_bind_ok h
  rw [← Except.ok.inj h1]

/-- A charged action is a pair at the end of the traces. -/
theorem scheduleCharged_ok {act : Action} {contextFree : Bool} {creator : Nat} {origin : Origin}
    {s s' : ExecState σ} {ords : List Nat} (hpayer : s.ctx.feePayer = payer)
    (hneed : payer ≠ noName) (ho : origin ∈ charged)
    (h : scheduleCharged env act contextFree creator origin s = .ok ords s') :
    ∃ n, ords = [s.ctx.actionTraces.length + 1, s.ctx.actionTraces.length + 2] ∧
      s'.ctx.actionTraces.length = s.ctx.actionTraces.length + 2 ∧
      Queue env payer s'.ctx.actionTraces ords n ∧ Ran s s' [] n ∧ Within s' := by
  obtain ⟨hfree, _⟩ | ⟨fee, feeAct, c, hc, hr⟩ | ⟨e, c, _, hr⟩ :=
    scheduleCharged_eq env act contextFree creator origin s
  · rw [Context.isNeedFeeAction, hpayer] at hfree
    exact absurd hneed hfree
  · rw [hr] at h
    cases h
    have htraces := hc.booked.traces
    have hexec := hc.booked.executed
    have hcpayer : c.feePayer = s.ctx.feePayer := hc.booked.feePayer
    have hmax : c.maxFeeToPay = s.ctx.maxFeeToPay := hc.booked.maxFeeToPay
    have hwithin : c.maxFeeToPay ≠ Asset.zero → c.feeCosted.le c.maxFeeToPay = .ok true := by
      rw [hmax]
      exact hc.within
    have hfor : FeeFor env payer fee (traceOf s feeAct N.eosio false 0 (.feeAction fee))
        (traceOf s act act.account contextFree creator origin) := by
      refine ⟨rfl, rfl, ?_, hc.required, ho⟩
      rw [← hpayer]
      exact mkFeeAction_ok hc.made
    have hlist : (c.actionTraces ++ [traceOf s feeAct N.eosio false 0 (.feeAction fee)]) ++
        [traceOf s act act.account contextFree creator origin] = s.ctx.actionTraces ++
        [traceOf s feeAct N.eosio false 0 (.feeAction fee),
          traceOf s act act.account contextFree creator origin] := by
      rw [htraces, append_assoc]
      rfl
    refine ⟨fee.amount + 0, rfl, ?_, ?_, ⟨?_, ?_, hcpayer, ?_, fun _ => hwithin⟩, hwithin⟩
    · show ((c.actionTraces ++ _) ++ _).length = _
      rw [hlist, length_append]
      rfl
    · show Queue env payer ((c.actionTraces ++ _) ++ _) _ _
      rw [hlist]
      refine .pair ?_ ?_ hfor .nil
      · rw [List.getElem?_append_right (Nat.le_refl _), Nat.sub_self]
        rfl
      · rw [List.getElem?_append_right (Nat.le_add_right _ 1), Nat.add_sub_cancel_left]
        rfl
    · rw [append_nil]
      exact hexec
    · show _ <+: (c.actionTraces ++ _) ++ _
      rw [hlist]
      exact prefix_append _ _
    · rw [Int.add_zero]
      exact add_amount hc.costed
  · rw [hr] at h
    cases h

/-! ## Calls -/

/-- The ordinal of a notification. -/
def Notice (traces : List ActionTrace) (o : Nat) : Prop :=
  ∃ t, traces[o - 1]? = some t ∧ t.origin = .notification

/-- From `a` to `b` the queues get more pairs and the notified more accounts,
    while `added` is executed. -/
structure Sends (env : Env σ) (payer : Name) (a : Apply) (s : ExecState σ) (b : Apply)
    (s' : ExecState σ) (added : List Executed) : Prop where
  queues : ∃ q n r m, Ran s s' added (n + m) ∧
    b.cfaInlineActions = a.cfaInlineActions ++ q ∧ Queue env payer s'.ctx.actionTraces q n ∧
    b.inlineActions = a.inlineActions ++ r ∧ Queue env payer s'.ctx.actionTraces r m
  notified : ∃ l, b.notified = a.notified ++ l ∧ ∀ x ∈ l, Notice s'.ctx.actionTraces x.2

variable {a b c : Apply} {s s' s'' : ExecState σ}

theorem Notice.mono {traces traces' : List ActionTrace} {o : Nat} (hpre : traces <+: traces')
    (h : Notice traces o) : Notice traces' o := by
  obtain ⟨t, ht, ho⟩ := h
  exact ⟨t, getElem?_mono hpre ht, ho⟩

theorem Sends.ran {added : List Executed} (h : Sends env payer a s b s' added) :
    ∃ n, Ran s s' added n := by
  obtain ⟨_, n, _, m, hran, _⟩ := h.queues
  exact ⟨n + m, hran⟩

theorem Sends.trans {l l' : List Executed} (h : Sends env payer a s b s' l)
    (h' : Sends env payer b s' c s'' l') : Sends env payer a s c s'' (l ++ l') := by
  obtain ⟨q, n, r, m, hran, hcfa, hq, hinl, hr⟩ := h.queues
  obtain ⟨q', n', r', m', hran', hcfa', hq', hinl', hr'⟩ := h'.queues
  obtain ⟨x, hx, hnote⟩ := h.notified
  obtain ⟨y, hy, hnote'⟩ := h'.notified
  have hpre := hran'.traces
  constructor
  · refine ⟨q ++ q', n + n', r ++ r', m + m', ?_, ?_, (hq.mono hpre).append hq', ?_,
      (hr.mono hpre).append hr'⟩
    · have hboth := hran.trans hran'
      rwa [show n + m + (n' + m') = n + n' + (m + m') by omega] at hboth
    · rw [hcfa', hcfa, append_assoc]
    · rw [hinl', hinl, append_assoc]
  · refine ⟨x ++ y, ?_, fun z hz => ?_⟩
    · rw [hy, hx, append_assoc]
    · obtain hz | hz := mem_append.mp hz
      · exact (hnote z hz).mono hpre
      · exact hnote' z hz

/-- Nothing is sent. -/
theorem Sends.of_ran {l : List Executed} (h : Ran s s' l 0)
    (hcfa : b.cfaInlineActions = a.cfaInlineActions) (hinl : b.inlineActions = a.inlineActions)
    (hnote : b.notified = a.notified) : Sends env payer a s b s' l := by
  constructor
  · refine ⟨[], 0, [], 0, h, ?_, .nil, ?_, .nil⟩
    · rw [hcfa, append_nil]
    · rw [hinl, append_nil]
  · exact ⟨[], by rw [hnote, append_nil], forall_mem_nil _⟩

theorem Sends.refl : Sends env payer a s a s [] := .of_ran (.refl s) rfl rfl rfl

theorem sends_requireRecipient {recipient : Name}
    (h : requireRecipient a recipient s = .ok b s') : Sends env payer a s b s' [] := by
  rw [requireRecipient] at h
  split at h
  · cases h
    exact .refl
  · rw [bind_ok (scheduleAction_eq _ _ _ _ _ _)] at h
    cases h
    constructor
    · refine ⟨[], 0, [], 0, ⟨?_, prefix_append _ _, rfl, ?_, id⟩, ?_, .nil, ?_, .nil⟩
      · exact (append_nil _).symm
      · exact (Int.add_zero _).symm
      · exact (append_nil _).symm
      · exact (append_nil _).symm
    · refine ⟨_, rfl, fun x hx => ?_⟩
      rw [mem_singleton.mp hx]
      refine ⟨traceOf s a.act recipient false a.actionOrdinal .notification, ?_, rfl⟩
      show (s.ctx.actionTraces ++ [_])[s.ctx.actionTraces.length + 1 - 1]? = _
      rw [Nat.add_sub_cancel]
      exact List.getElem?_concat_length

/-- Quiet code that hands an apply context on. -/
theorem sends_of_quietly {x : ExecM σ Apply} (hx : Quietly env (fun _ _ => True) x)
    (hsame : Returns (Same a) x)
    (h : x s = .ok b s') : Sends env payer a s b s' [] := by
  have hb := hsame s b s' h
  exact .of_ran (ran_of_quietly env hx h) hb.cfaInlineActions hb.inlineActions hb.notified

variable (hneed : payer ≠ noName)
include hneed

section

variable (hpayer : s.ctx.feePayer = payer)
include hpayer

theorem sends_executeInline {x : Action} (h : executeInline env node a x s = .ok b s') :
    Sends env payer a s b s' [] := by
  rw [executeInline, get_bind] at h
  obtain ⟨-, h⟩ := require_bind_inv h
  obtain ⟨-, h⟩ := require_bind_inv h
  obtain ⟨_, -, h⟩ := raise_bind_inv h
  obtain ⟨_, s1, h1, h⟩ := bind_ok_inv h
  obtain ⟨_, s2, h2, h⟩ := bind_ok_inv h
  have hran := (ran_of_quietly env (.whenever fun _ => quietly_raise) h1).trans
    (ran_of_quietly env (.whenever fun _ => quietly_authorizeSent
      (quietly_checkAuthorization _ _ _ _ _)) h2)
  obtain ⟨ords, s3, h3, h⟩ := bind_ok_inv h
  obtain ⟨n, -, -, hq, hlast, -⟩ := scheduleCharged_ok (hran.feePayer.trans hpayer) hneed
    (mem_of_elem_eq_true rfl) h3
  cases h
  exact ⟨⟨[], 0, ords, n, hran.trans hlast, (append_nil _).symm, .nil, rfl, hq⟩,
    [], (append_nil _).symm, forall_mem_nil _⟩

theorem sends_executeContextFreeInline {x : Action}
    (h : executeContextFreeInline env a x s = .ok b s') : Sends env payer a s b s' [] := by
  rw [executeContextFreeInline, get_bind] at h
  obtain ⟨-, h⟩ := require_bind_inv h
  obtain ⟨-, h⟩ := require_bind_inv h
  obtain ⟨ords, s1, h1, h⟩ := bind_ok_inv h
  obtain ⟨n, -, -, hq, hran, -⟩ :=
    scheduleCharged_ok hpayer hneed (mem_of_elem_eq_true rfl) h1
  cases h
  refine ⟨⟨ords, n, [], 0, ?_, rfl, hq, (append_nil _).symm, .nil⟩,
    [], (append_nil _).symm, forall_mem_nil _⟩
  rwa [Int.add_zero]

/-- Every call sends pairs. -/
theorem sends_hostCall {call : HostCall σ} (h : hostCall env node a call s = .ok b s') :
    Sends env payer a s b s' [] := by
  by_cases hquiet : IsQuiet call
  · exact sends_of_quietly (quietly_hostCall hquiet fun _ _ _ => trivial) (same_hostCall hquiet) h
  · cases call with
    | write f =>
      cases h
      exact .of_ran (.of_ticked (.refl _)) rfl rfl rfl
    | requireRecipient recipient => exact sends_requireRecipient h
    | executeInline x => exact sends_executeInline hneed hpayer h
    | executeContextFreeInline x => exact sends_executeContextFreeInline hneed hpayer h
    | _ => exact absurd trivial hquiet

omit hpayer in
theorem sends_calls {calls : List (HostCall σ)} : ∀ {a : Apply} {s : ExecState σ},
    s.ctx.feePayer = payer → calls.foldlM (hostCall env node) a s = .ok b s' →
      Sends env payer a s b s' [] := by
  induction calls with
  | nil =>
    intro a s _ h
    cases h
    exact .refl
  | cons call rest ih =>
    intro a s hpayer h
    rw [foldlM_cons] at h
    obtain ⟨a1, s1, h1, h2⟩ := bind_ok_inv h
    have hfirst : Sends env payer a s a1 s1 [] := sends_hostCall hneed hpayer h1
    obtain ⟨_, hran⟩ := hfirst.ran
    exact hfirst.trans (ih (hran.feePayer.trans hpayer) h2)

/-! ## Code -/

theorem sends_runProgram {p : Program σ} (h : runProgram env node a p s = .ok b s') :
    Sends env payer a s b s' [] := by
  rw [runProgram, get_bind] at h
  exact sends_calls hneed hpayer h

theorem sends_runNative (h : runNative env node a s = .ok b s') : Sends env payer a s b s' [] := by
  rw [runNative] at h
  cases hfind : findApplyHandler env a.receiver a.act.account a.act.name with
  | none =>
    rw [hfind] at h
    cases h
    exact .refl
  | some handler =>
    rw [hfind] at h
    obtain ⟨_, s1, h1, h2⟩ := bind_ok_inv h
    have hlists : Ran s s1 [] 0 := ran_of_quietly env quietly_checkLists h1
    have hpayer1 := hlists.feePayer.trans hpayer
    refine Sends.trans (.of_ran hlists rfl rfl rfl) ?_
    obtain ⟨p, rfl, _⟩ | ⟨apply, rfl, hkept⟩ := findApplyHandler_cases hfind
    · exact sends_runProgram hneed hpayer1 h2
    · exact sends_of_quietly (quietly_feeHandler hkept)
        (.seq fun _ => .seq fun _ => .pure (.refl a)) h2

theorem sends_runWasm (h : runWasm env node a s = .ok b s') : Sends env payer a s b s' [] := by
  rw [runWasm] at h
  obtain ⟨m, s1, h1, h2⟩ := bind_ok_inv h
  rw [getAccount_ok h1] at h2
  split at h2
  · obtain ⟨_, s2, h3, h4⟩ := bind_ok_inv h2
    have hlists : Ran s s2 [] 0 := ran_of_quietly env quietly_checkLists h3
    exact Sends.trans (.of_ran hlists rfl rfl rfl)
      (sends_runProgram hneed (hlists.feePayer.trans hpayer) h4)
  · cases h2
    exact .refl

omit hneed hpayer in
theorem runCode_ok (h : runCode env node a s = .ok b s') : ∃ privileged a1 s1 s2,
    runNative env node { a with privileged := privileged } s = .ok a1 s1 ∧
      runWasm env node a1 s1 = .ok b s2 ∧ Ran s2 s' [] 0 := by
  rw [runCode] at h
  obtain ⟨m, s0, h0, h⟩ := bind_ok_inv (mapError_ok h)
  rw [getAccount_ok h0] at h
  obtain ⟨a1, s1, hnative, h⟩ := bind_ok_inv h
  obtain ⟨a2, s2, hwasm, h⟩ := bind_ok_inv h
  obtain ⟨_, s3, hdeltas, h⟩ := bind_ok_inv h
  cases h
  exact ⟨m.privileged, a1, s1, s2, hnative, hwasm,
    ran_of_quietly env (.whenever fun _ => quietly_checkRamDeltas _ _) hdeltas⟩

theorem sends_runCode (h : runCode env node a s = .ok b s') : Sends env payer a s b s' [] := by
  obtain ⟨_, a1, s1, s2, hnative, hwasm, hdeltas⟩ := runCode_ok h
  have hnative := sends_runNative hneed hpayer hnative
  obtain ⟨_, hran⟩ := hnative.ran
  have hwasm : Sends env payer a1 s1 b s2 [] :=
    sends_runWasm hneed (hran.feePayer.trans hpayer) hwasm
  have hboth := (hnative.trans hwasm).trans (.of_ran hdeltas rfl rfl rfl)
  exact ⟨hboth.queues, hboth.notified⟩

variable {u : Unit}

omit hneed in
omit hpayer in
theorem ran_recordReceipt {t : ActionTrace} (ht : s.ctx.actionTraces[a.actionOrdinal - 1]? = some t)
    (h : recordReceipt env a s = .ok u s') : ∃ e, e.trace = t ∧ Ran s s' [e] 0 := by
  obtain ⟨e, _, hget, hctx⟩ := recordReceipt_ok h
  refine ⟨e, ?_, ?_⟩
  · rw [hget] at ht
    exact Option.some.inj ht
  · constructor
    · rw [hctx]
    · exact ⟨[], by rw [append_nil, hctx]⟩
    · rw [hctx]
    · rw [hctx, Int.add_zero]
    · intro hw
      rw [Within, hctx]
      exact hw

/-- One receiver of an action: its receipt is all that is executed. -/
theorem sends_execOne {t : ActionTrace} (ht : s.ctx.actionTraces[a.actionOrdinal - 1]? = some t)
    (h : execOne env node a s = .ok b s') : ∃ e, e.trace = t ∧ Sends env payer a s b s' [e] := by
  rw [execOne] at h
  obtain ⟨a1, s1, hcode, h1⟩ := bind_ok_inv h
  have hsends := sends_runCode hneed hpayer hcode
  obtain ⟨_, hran⟩ := hsends.ran
  obtain ⟨_, s2, hrec, h2⟩ := bind_ok_inv h1
  have ht1 : s1.ctx.actionTraces[a1.actionOrdinal - 1]? = some t := by
    rw [(held_runCode s a1 s1 hcode).actionOrdinal]
    exact getElem?_mono hran.traces ht
  obtain ⟨e, he, hlast⟩ := ran_recordReceipt ht1 hrec
  cases h2
  exact ⟨e, he, hsends.trans (.of_ran hlast rfl rfl rfl)⟩

end

/-- The accounts notified: nothing but notifications is executed. -/
theorem sends_execNotified (n : Nat) : ∀ {i : Nat} {a : Apply} {s : ExecState σ},
    s.ctx.feePayer = payer →
    (∀ j x, i ≤ j → a.notified[j]? = some x → Notice s.ctx.actionTraces x.2) →
    execNotified env node n i a s = .ok b s' →
      ∃ l, (∀ e ∈ l, e.trace.origin = .notification) ∧ Sends env payer a s b s' l := by
  induction n with
  | zero =>
    intro i a s _ _ h
    cases h
    exact ⟨[], forall_mem_nil _, .refl⟩
  | succ n ih =>
    intro i a s hpayer hnote h
    rw [execNotified] at h
    cases hi : a.notified[i]? with
    | none =>
      rw [hi] at h
      cases h
      exact ⟨[], forall_mem_nil _, .refl⟩
    | some next =>
      rw [hi] at h
      obtain ⟨a1, s1, hone, hrest⟩ := bind_ok_inv h
      obtain ⟨t, ht, ho⟩ := hnote i next (Nat.le_refl i) hi
      obtain ⟨e, he, hsends⟩ := sends_execOne hneed hpayer ht hone
      have hfirst : Sends env payer a s a1 s1 [e] := ⟨hsends.queues, hsends.notified⟩
      obtain ⟨_, hran⟩ := hfirst.ran
      obtain ⟨more, hmore, hnew⟩ := hfirst.notified
      have hnote1 : ∀ j x, i + 1 ≤ j → a1.notified[j]? = some x →
          Notice s1.ctx.actionTraces x.2 := by
        intro j x hj hx
        rw [hmore] at hx
        by_cases hlt : j < a.notified.length
        · rw [List.getElem?_append_left hlt] at hx
          exact (hnote j x (Nat.le_of_succ_le hj) hx).mono hran.traces
        · rw [List.getElem?_append_right (Nat.not_lt.mp hlt)] at hx
          exact hnew x (mem_of_getElem? hx)
      obtain ⟨l, hl, hothers⟩ := ih (hran.feePayer.trans hpayer) hnote1 hrest
      exact ⟨e :: l, forall_mem_cons.mpr ⟨he ▸ ho, hl⟩, hfirst.trans hothers⟩

/-! ## Fee actions send nothing -/

omit hneed

theorem findApplyHandler_fee (env : Env σ) (h : a.act.isFee) (hr : a.receiver = N.eosio) :
    ∃ apply, findApplyHandler env a.receiver a.act.account a.act.name = some (.fee apply) := by
  obtain ⟨hacc, hname⟩ := h
  rw [findApplyHandler]
  by_cases honfee : a.receiver = N.eosio ∧ a.act.account = N.eosio ∧ a.act.name = N.onfee
  · rw [if_pos honfee]
    exact ⟨_, rfl⟩
  · rw [if_neg honfee]
    obtain hname | hname := hname
    · exact absurd ⟨hr, hacc, hname⟩ honfee
    · rw [if_pos ⟨hr, hacc, hname⟩]
      exact ⟨_, rfl⟩

theorem runNative_fee (env : Env σ) (node : Node) (h : a.act.isFee) (hr : a.receiver = N.eosio) :
    Quietly env (fun _ _ => True) (runNative env node a) ∧
      Returns (· = a) (runNative env node a) := by
  rw [runNative]
  obtain ⟨apply, hfind⟩ := findApplyHandler_fee env h hr
  obtain ⟨p, hp, _⟩ | ⟨apply', happly, hkept⟩ := findApplyHandler_cases hfind
  · cases hp
  · cases happly
    rw [hfind]
    constructor
    · exact .chain quietly_checkLists fun _ => quietly_feeHandler hkept
    · exact .seq fun _ => .seq fun _ => .seq fun _ => .pure rfl

theorem runWasm_fee (env : Env σ) (node : Node) (h : a.act.isFee) :
    Quietly env (fun _ _ => True) (runWasm env node a) ∧ Returns (· = a) (runWasm env node a) := by
  rw [runWasm]
  have hnot : ∀ codeHash, ¬ runsCode env.features a codeHash := fun _ hruns => hruns.1 h
  constructor
  · refine .chain (quietly_getAccount _) fun m => ?_
    rw [if_neg (hnot m.codeHash)]
    exact .pure a
  · refine .seq fun m => ?_
    rw [if_neg (hnot m.codeHash)]
    exact .pure rfl

theorem runCode_fee (h : a.act.isFee) (hr : a.receiver = N.eosio)
    (hrun : runCode env node a s = .ok b s') : Ran s s' [] 0 ∧ Same a b := by
  obtain ⟨privileged, a1, s1, s2, h1, h2, hdeltas⟩ := runCode_ok hrun
  have hnative := runNative_fee env node (a := { a with privileged := privileged }) h hr
  obtain rfl := hnative.2 _ _ _ h1
  have hwasm := runWasm_fee env node (a := { a with privileged := privileged }) h
  obtain rfl := hwasm.2 _ _ _ h2
  exact ⟨((ran_of_quietly env hnative.1 h1).trans (ran_of_quietly env hwasm.1 h2)).trans hdeltas,
    rfl, rfl, rfl, rfl, rfl, rfl⟩

theorem FeeFor.isFee {fee : Asset} {f t : ActionTrace} (h : FeeFor env payer fee f t) :
    f.act.isFee := by
  obtain ⟨name, bp, hname, hact⟩ := h.act
  rw [hact]
  exact ⟨rfl, hname⟩

/-- A fee action is executed with its receipt and nothing else. -/
theorem ran_execWith_fee {deeper : Nat → ExecM σ Unit} {depth o : Nat} {f t : ActionTrace}
    {fee : Asset} (hf : s.ctx.actionTraces[o]? = some f) (hfor : FeeFor env payer fee f t)
    (h : execWith env node deeper depth (o + 1) s = .ok u s') :
    ∃ e, e.trace = f ∧ Ran s s' [e] 0 := by
  rw [execWith] at h
  obtain ⟨f', s1, h1, k1⟩ := bind_ok_inv h
  obtain ⟨rfl, hget, _⟩ := getActionTrace_ok h1
  obtain rfl : f' = f := by
    rw [Nat.add_sub_cancel, hf] at hget
    exact (Option.some.inj hget).symm
  obtain ⟨b, s2, hone, k2⟩ := bind_ok_inv k1
  rw [execOne] at hone
  obtain ⟨c, s3, hcode, k3⟩ := bind_ok_inv hone
  obtain ⟨hran, hsame⟩ := runCode_fee (by exact hfor.isFee) (by exact hfor.receiver) hcode
  obtain ⟨_, s4, hrec, k4⟩ := bind_ok_inv k3
  have ht : s3.ctx.actionTraces[c.actionOrdinal - 1]? = some f' := by
    rw [hsame.actionOrdinal]
    exact getElem?_mono hran.traces hf
  obtain ⟨e, he, hlast⟩ := ran_recordReceipt ht hrec
  cases k4
  -- the first receiver is the only one notified, and both queues are empty
  have hnote : ({ c with accountRamDeltas := [] } : Apply).notified[1]? = none := by
    show c.notified[1]? = none
    rw [hsame.notified]
    rfl
  have hcfa : c.cfaInlineActions = [] := hsame.cfaInlineActions
  have hinl : c.inlineActions = [] := hsame.inlineActions
  rw [bind_ok (execNotified_none hnote _ s2), get_bind] at k2
  obtain ⟨-, k5⟩ := require_bind_inv k2
  rw [hcfa, hinl] at k5
  cases k5
  exact ⟨e, he, hran.trans hlast⟩

/-! ## Queues -/

/-- How actions are executed one level deeper: a fee action alone, any other
    action with pairs after it. -/
structure Pays (env : Env σ) (payer : Name) (x : Nat → ExecM σ Unit) : Prop where
  fee : ∀ {s s' : ExecState σ} {o : Nat} {f t : ActionTrace} {fee : Asset} {u : Unit},
    s.ctx.actionTraces[o]? = some f → FeeFor env payer fee f t → x (o + 1) s = .ok u s' →
      ∃ e, e.trace = f ∧ Ran s s' [e] 0
  action : ∀ {s s' : ExecState σ} {o : Nat} {t : ActionTrace} {u : Unit},
    s.ctx.feePayer = payer → s.ctx.actionTraces[o]? = some t → x (o + 1) s = .ok u s' →
      ∃ e l n, e.trace = t ∧ Paired env payer l n ∧ Ran s s' (e :: l) n

/-- **A QUEUE IS EXECUTED IN PAIRS**: its own fees were charged before, those
    of what it sends on the way. -/
theorem ran_queue {x : Nat → ExecM σ Unit} (hx : Pays env payer x) {traces : List ActionTrace}
    {q : List Nat} {n : Int} (hq : Queue env payer traces q n) :
    ∀ {s : ExecState σ}, traces <+: s.ctx.actionTraces → s.ctx.feePayer = payer →
      q.forM x s = .ok u s' → ∃ l m, Paired env payer l m ∧ Ran s s' l (m - n) := by
  induction hq with
  | nil =>
    intro s _ _ h
    cases h
    exact ⟨[], 0, .nil, .refl _⟩
  | @pair o f t fee q n hf ht hfor _ ih =>
    intro s hpre hpayer h
    obtain ⟨_, s1, h1, k1⟩ := bind_ok_inv h
    obtain ⟨e, he, hran1⟩ := hx.fee (getElem?_mono hpre hf) hfor h1
    have hpre1 := hpre.trans hran1.traces
    have hpayer1 := hran1.feePayer.trans hpayer
    obtain ⟨_, s2, h2, k2⟩ := bind_ok_inv k1
    obtain ⟨e', l, k, he', hpaired, hran2⟩ := hx.action hpayer1 (getElem?_mono hpre1 ht) h2
    obtain ⟨l', m, hpaired', hran3⟩ := ih (hpre1.trans hran2.traces)
      (hran2.feePayer.trans hpayer1) k2
    have hfor' : FeeFor env payer fee e.trace e'.trace := by
      rw [he, he']
      exact hfor
    refine ⟨e :: e' :: (l ++ l'), fee.amount + (k + m), .pair hfor' (hpaired.append hpaired'), ?_⟩
    have hran := (hran1.trans hran2).trans hran3
    rwa [show (0 + k + (m - n) : Int) = fee.amount + (k + m) - (fee.amount + n) by omega] at hran

theorem ran_execWith {deeper : Nat → ExecM σ Unit} {depth o : Nat} {t : ActionTrace}
    (hneed : payer ≠ noName)
    (hdeeper : ∀ cfg : ChainConfig, depth < cfg.maxInlineActionDepth.toNat → Pays env payer deeper)
    (hpayer : s.ctx.feePayer = payer) (ht : s.ctx.actionTraces[o]? = some t)
    (h : execWith env node deeper depth (o + 1) s = .ok u s') :
    ∃ e l n, e.trace = t ∧ Paired env payer l n ∧ Ran s s' (e :: l) n := by
  rw [execWith] at h
  obtain ⟨t', s1, h1, k1⟩ := bind_ok_inv h
  obtain ⟨rfl, hget, _⟩ := getActionTrace_ok h1
  obtain rfl : t' = t := by
    rw [Nat.add_sub_cancel, ht] at hget
    exact (Option.some.inj hget).symm
  obtain ⟨a1, s2, hone, k2⟩ := bind_ok_inv k1
  obtain ⟨e, he, hsends1⟩ := sends_execOne hneed hpayer (by exact ht) hone
  obtain ⟨_, hran1⟩ := hsends1.ran
  have hpayer2 := hran1.feePayer.trans hpayer
  obtain ⟨new, hnew, hnotes⟩ := hsends1.notified
  obtain ⟨a2, s3, hnot, k3⟩ := bind_ok_inv k2
  have hnote : ∀ j x, 1 ≤ j → a1.notified[j]? = some x → Notice s2.ctx.actionTraces x.2 := by
    intro j x hj hx
    rw [hnew, List.getElem?_append_right hj] at hx
    exact hnotes x (mem_of_getElem? hx)
  obtain ⟨l0, hl0, hsends2⟩ := sends_execNotified hneed (2 ^ 64) hpayer2 hnote hnot
  obtain ⟨q, n, r, m, hran, hcfa, hq, hinl, hr⟩ := (hsends1.trans hsends2).queues
  rw [get_bind] at k3
  obtain ⟨hdepth, k4⟩ := require_bind_inv k3
  rw [nil_append] at hcfa hinl
  rw [hcfa, hinl] at k4 hdepth
  have hnoted : Paired env payer l0 0 := .of_notified hl0
  by_cases hempty : q ++ r = []
  · -- nothing was sent, so nothing follows
    obtain ⟨rfl, rfl⟩ := append_eq_nil_iff.mp hempty
    cases hq
    cases hr
    cases k4
    exact ⟨e, l0, 0, he, hnoted, hran⟩
  · have hx : Pays env payer deeper := hdeeper _ (hdepth hempty)
    have hpayer4 := hran.feePayer.trans hpayer
    obtain ⟨_, s5, hc, hi⟩ := bind_ok_inv k4
    obtain ⟨l1, m1, hp1, hr1⟩ := ran_queue hx hq (prefix_refl _) hpayer4 hc
    obtain ⟨l2, m2, hp2, hr2⟩ := ran_queue hx hr hr1.traces (hr1.feePayer.trans hpayer4) hi
    refine ⟨e, l0 ++ (l1 ++ l2), m1 + m2, he, ?_, ?_⟩
    · have hpaired := hnoted.append (hp1.append hp2)
      rwa [Int.zero_add] at hpaired
    · have hall := (hran.trans hr1).trans hr2
      rwa [show n + m + (m1 - n) + (m2 - m) = m1 + m2 by omega, append_assoc, append_assoc] at hall

/-- Every level of the execution pays. -/
theorem pays_executeAction (hneed : payer ≠ noName) (n : Nat) :
    Pays env payer (executeAction env node n) := by
  induction n with
  | zero =>
    refine ⟨fun hf hfor h => ran_execWith_fee hf hfor h, fun hpayer ht h =>
      ran_execWith hneed (fun cfg hdepth => ?_) hpayer ht h⟩
    have hlt : cfg.maxInlineActionDepth.toNat < 2 ^ 16 := cfg.maxInlineActionDepth.toNat_lt
    rw [maxDepth] at hdepth
    omega
  | succ n ih =>
    exact ⟨fun hf hfor h => ran_execWith_fee hf hfor h, fun hpayer ht h =>
      ran_execWith hneed (fun _ _ => ih) hpayer ht h⟩

/-! ## The whole execution -/

/-- Original actions: a queue of all ordinals that they add. -/
theorem ran_scheduleOriginals {contextFree : Bool} {acts : List Action} (hneed : payer ≠ noName) :
    ∀ {s : ExecState σ}, s.ctx.feePayer = payer →
      acts.forM (scheduleOriginal env contextFree) s = .ok u s' →
      ∃ n, Ran s s' [] n ∧ (acts ≠ [] → Within s') ∧
        Queue env payer s'.ctx.actionTraces (List.range' (s.ctx.actionTraces.length + 1)
          (s'.ctx.actionTraces.length - s.ctx.actionTraces.length)) n := by
  induction acts with
  | nil =>
    intro s _ h
    cases h
    refine ⟨0, .refl _, fun hne => absurd rfl hne, ?_⟩
    rw [Nat.sub_self]
    exact .nil
  | cons act rest ih =>
    intro s hpayer h
    obtain ⟨_, s1, hone, hrest⟩ := bind_ok_inv h
    rw [scheduleOriginal] at hone
    obtain ⟨ords, s2, hcharged, k⟩ := bind_ok_inv hone
    cases k
    have ho : (if contextFree then Origin.contextFree else .transaction) ∈ charged := by
      cases contextFree with
      | true => exact mem_of_elem_eq_true rfl
      | false => exact mem_of_elem_eq_true rfl
    obtain ⟨n, rfl, hlen, hq, hran, hwithin⟩ := scheduleCharged_ok hpayer hneed ho hcharged
    obtain ⟨m, hran', _, hq'⟩ := ih (hran.feePayer.trans hpayer) hrest
    refine ⟨n + m, hran.trans hran', fun _ => hran'.within hwithin, ?_⟩
    have hle := hran'.traces.length_le
    have hboth := (hq.mono hran'.traces).append hq'
    rw [hlen] at hboth hle
    rw [show s'.ctx.actionTraces.length - s.ctx.actionTraces.length =
      s'.ctx.actionTraces.length - (s.ctx.actionTraces.length + 2) + 1 + 1 by omega,
      List.range'_succ, List.range'_succ]
    exact hboth

theorem ran_whenever {contextFree : Bool} {acts : List Action} {c : Prop} [Decidable c]
    (hneed : payer ≠ noName) (hpayer : s.ctx.feePayer = payer)
    (h : whenever c (acts.forM (scheduleOriginal env contextFree)) s = .ok u s') :
    ∃ n, Ran s s' [] n ∧ (c → acts ≠ [] → Within s') ∧
      Queue env payer s'.ctx.actionTraces (List.range' (s.ctx.actionTraces.length + 1)
        (s'.ctx.actionTraces.length - s.ctx.actionTraces.length)) n := by
  rcases whenever_ok h with ⟨-, h⟩ | ⟨hnot, rfl⟩
  · obtain ⟨n, hran, hwithin, hq⟩ := ran_scheduleOriginals hneed hpayer h
    exact ⟨n, hran, fun _ => hwithin, hq⟩
  · refine ⟨0, .refl _, fun hc => absurd hc hnot, ?_⟩
    rw [Nat.sub_self]
    exact .nil

/-- **PAIRS ALL THE WAY**: an execution that returns has executed pairs of a
    fee action and its action, and counted the sum of the fees. -/
theorem paired_exec (hneed : payer ≠ noName) (hpayer : s.ctx.feePayer = payer)
    (htraces : s.ctx.actionTraces = []) (hexecuted : s.ctx.executed = [])
    (hcosted : s.ctx.feeCosted = Asset.zero) (h : exec env node s = .ok u s') :
    Paired env payer s'.ctx.executed s'.ctx.feeCosted.amount ∧
      (Within s ∨ s.ctx.delay = 0 ∧ s.ctx.trx.actions ≠ [] → Within s') := by
  rw [exec, get_bind] at h
  obtain ⟨-, k1⟩ := require_bind_inv h
  obtain ⟨_, s2, hcfa, k2⟩ := bind_ok_inv k1
  obtain ⟨n1, hran1, -, hq1⟩ := ran_whenever hneed hpayer hcfa
  rw [htraces, length_nil, Nat.zero_add, Nat.sub_zero] at hq1
  have hpayer2 := hran1.feePayer.trans hpayer
  obtain ⟨_, s3, horig, k3⟩ := bind_ok_inv k2
  obtain ⟨n2, hran2, hwithin, hq2⟩ := ran_whenever hneed hpayer2 horig
  have hran3 := hran1.trans hran2
  rw [get_bind] at k3
  -- all ordinals so far are one queue
  have hle := hran2.traces.length_le
  have hq : Queue env payer s3.ctx.actionTraces
      (List.range' 1 s3.ctx.actionTraces.length) (n1 + n2) := by
    have hboth := (hq1.mono hran2.traces).append hq2
    rwa [Nat.add_comm _ 1, List.range'_append_1, Nat.add_sub_cancel' hle] at hboth
  obtain ⟨_, s4, hloop, k4⟩ := bind_ok_inv k3
  obtain ⟨l, m, hpaired, hran4⟩ := ran_queue (pays_executeAction hneed maxDepth) hq
    (prefix_refl _) (hran3.feePayer.trans hpayer) hloop
  have hran5 : Ran s4 s' [] 0 :=
    ran_of_quietly env (.whenever fun _ => quietly_scheduleTransaction node) k4
  have hall := (hran3.trans hran4).trans hran5
  constructor
  · have hamount := hall.feeCosted
    rw [hcosted] at hamount
    rw [hall.executed, hexecuted, hamount]
    rw [show Asset.zero.amount + (n1 + n2 + (m - (n1 + n2)) + 0) = m by
      show (0 : Int) + _ = m
      omega]
    simpa using hpaired
  · rintro (hw | ⟨hdelay, hacts⟩)
    · exact hall.within hw
    · exact hran5.within (hran4.within (hwithin hdelay hacts))

/-! ## Transactions -/

/-- No contract sends one of the two fee actions by itself. -/
def NamesNoFee (env : Env σ) : Prop :=
  ∀ act x, Sent env act (.executeInline x) ∨ Sent env act (.executeContextFreeInline x) → ¬ x.isFee

/-- A fee action comes from the fee machinery, is a notification, or stands
    in the transaction itself. -/
def FeeOrigin (trx : Transaction) (t : ActionTrace) : Prop :=
  t.act.isFee → (∃ fee, t.origin = .feeAction fee) ∨ t.origin = .notification ∨
    t.act ∈ trx.actions ∨ t.act ∈ trx.contextFreeActions

variable {trx : Transaction}

theorem feeOrigin_exec (hnames : NamesNoFee env) (htrx : s.ctx.trx = trx)
    (htraces : s.ctx.actionTraces = []) (hexecuted : s.ctx.executed = [])
    (h : exec env node s = .ok u s') : ∀ e ∈ s'.ctx.executed, FeeOrigin trx e.trace := by
  have hstable : Stable (Step env) fun s' =>
      Executing s.ctx s' ∧ AllTraces (FeeOrigin trx) s' := by
    refine stable_allTraces (stable_executing s.ctx) ?_ ?_
    · intro s1 t hs _ hsched hfee
      have hexecuting := congrArg Context.trx hs
      have htrx1 : s1.ctx.trx = trx := Eq.trans hexecuting htrx
      cases hsched with
      | notification horigin _ => exact .inr (.inl horigin)
      | inlined _ _ hsent _ _ _ => exact absurd hfee (hnames _ _ (.inl hsent))
      | contextFreeInline _ _ hsent _ _ => exact absurd hfee (hnames _ _ (.inr hsent))
      | original horigin _ _ =>
        rw [Due, Due, htrx1] at horigin
        obtain ⟨_, _, hmem⟩ | ⟨_, _, hmem⟩ := horigin
        · exact .inr (.inr (.inl hmem))
        · exact .inr (.inr (.inr hmem))
    · intro s act feeAct fee c _ _ _
      exact .inl ⟨fee, rfl⟩
  have hsteps : ReflTransGen (Step env) s (final (exec env node s)) := moves_exec s
  rw [h] at hsteps
  refine (hstable.run hsteps ⟨rfl, ?_, ?_⟩).2.executed
  · rw [htraces]
    exact forall_mem_nil _
  · rw [hexecuted]
    exact forall_mem_nil _

/-- A transaction for which `make_fee_act` was called and that ran to its
    end. -/
inductive ChargedRun (env : Env σ) (node : Node) : Transaction → ExecState σ → Prop where
  | input {m : TrxMetadata} {b : Billing} {db : Db σ} {e : ExecState σ}
      (hinput : m.implicit = false) (hopen : onfeeOpen env db.tables)
      (h : runTrx env node m ⟨db, startContext node m b⟩ = .ok none e) :
      ChargedRun env node m.trx e
  | scheduled {g : GeneratedTransaction} {b : Billing} {db : Db σ} {e : ExecState σ}
      (hopen : onfeeOpen env db.tables)
      (h : runScheduled env node g ⟨db, scheduledContext node g b⟩ = .ok () e) :
      ChargedRun env node g.trx e

/-- A run that is about to be executed with fees due. -/
structure Starts (env : Env σ) (trx : Transaction) (s : ExecState σ) : Prop where
  payer : trx.firstActor = some s.ctx.feePayer
  need : s.ctx.isNeedFeeAction
  limit : ∃ limit, getFromExtensions env.unpackAsset trx feeLimitExtension = .ok limit ∧
    s.ctx.maxFeeToPay = limit.getD Asset.zero
  feeCosted : s.ctx.feeCosted = Asset.zero
  executed : s.ctx.executed = []
  traces : s.ctx.actionTraces = []
  trx : s.ctx.trx = trx
  within : Within s ∨ s.ctx.delay = 0 ∧ s.ctx.trx.actions ≠ []

theorem Starts.of_due {limit : Option Asset} {a : ExecState σ}
    (h : FeesDue (limit.getD Asset.zero) a s) (htrx : a.ctx.trx = trx)
    (hlimit : getFromExtensions env.unpackAsset trx feeLimitExtension = .ok limit)
    (hexecuted : a.ctx.executed = []) (htraces : a.ctx.actionTraces = [])
    (hwithin : Within s ∨ s.ctx.delay = 0 ∧ s.ctx.trx.actions ≠ []) : Starts env trx s where
  payer := htrx ▸ h.payer
  need := h.need
  limit := ⟨limit, hlimit, h.maxFeeToPay⟩
  feeCosted := h.feeCosted
  executed := h.executed.trans hexecuted
  traces := h.traces.trans htraces
  trx := h.trx.trans htrx
  within := hwithin

theorem firstActor_actions {p : Name} (h : trx.firstActor = some p) : trx.actions ≠ [] := by
  intro hnil
  rw [Transaction.firstActor, hnil] at h
  cases h

/-- What `push_scheduled_transaction` sets up where `onfee_action` is open. -/
theorem runScheduled_starts {g : GeneratedTransaction} {b : Billing} {db : Db σ}
    (hopen : onfeeOpen env db.tables)
    (h : runScheduled env node g ⟨db, scheduledContext node g b⟩ = .ok u s') :
    ∃ s1 s2, Starts env g.trx s1 ∧ exec env node s1 = .ok () s2 ∧
      finalize env node s2 = .ok u s' := by
  rw [runScheduled_phases] at h
  obtain ⟨_, s1, hprep, k1⟩ := bind_ok_inv h
  obtain ⟨_, ⟨_, limit, hlimit, hdue⟩ | ⟨hclosed, _⟩⟩ := prepareScheduled_ok hprep
  · obtain ⟨_, s2, hexec, hfin⟩ := bind_ok_inv k1
    refine ⟨s1, s2, .of_due hdue rfl hlimit rfl rfl (.inr ⟨hdue.delay, ?_⟩), hexec, hfin⟩
    · rw [hdue.trx]
      exact firstActor_actions hdue.payer
  · exact absurd hopen hclosed

theorem runTrx_starts {m : TrxMetadata} {b : Billing} {db : Db σ} (hinput : m.implicit = false)
    (hopen : onfeeOpen env db.tables)
    (h : runTrx env node m ⟨db, startContext node m b⟩ = .ok none s') :
    ∃ s1 s2, Starts env m.trx s1 ∧ exec env node s1 = .ok () s2 ∧
      finalize env node s2 = .ok () s' := by
  obtain ⟨s1, s2, hprep, hexec, hfin⟩ := runTrx_none h
  refine ⟨s1, s2, ?_, hexec, hfin⟩
  obtain ⟨_, _, ⟨limit, hlimit, hdue⟩, hext⟩ | ⟨himp | hclosed, _⟩ := prepareTrx_ok env node hprep
  · -- without extensions there is no limit
    have hnone : limit = none := by
      rw [getFromExtensions, Transaction.extension, hext] at hlimit
      exact (Except.ok.inj hlimit).symm
    refine .of_due hdue rfl hlimit rfl rfl (.inl fun hne => absurd ?_ hne)
    rw [hdue.maxFeeToPay, hnone]
    rfl
  · rw [hinput] at himp
    cases himp
  · exact absurd hopen hclosed

theorem chargedRun_starts {e : ExecState σ} (h : ChargedRun env node trx e) :
    ∃ s1 s2 : ExecState σ, Starts env trx s1 ∧ exec env node s1 = .ok () s2 ∧ Aside s2 e := by
  cases h with
  | input hinput hopen h =>
    obtain ⟨s1, s2, hs, hexec, hfin⟩ := runTrx_starts hinput hopen h
    exact ⟨s1, s2, hs, hexec, (sets_finalize env node).aside_ok hfin⟩
  | scheduled hopen h =>
    obtain ⟨s1, s2, hs, hexec, hfin⟩ := runScheduled_starts hopen h
    exact ⟨s1, s2, hs, hexec, (sets_finalize env node).aside_ok hfin⟩

theorem le_amount {a b : Asset} (h : a.le b = .ok true) : a.amount ≤ b.amount := by
  rw [Asset.le] at h
  split at h
  · rename_i heq
    rw [heq]
  · rw [Asset.lt] at h
    obtain ⟨_, _, h1⟩ := except_bind_ok h
    exact le_of_lt (of_decide_eq_true (Except.ok.inj h1))

theorem chargedRun_paired {e : ExecState σ} (h : ChargedRun env node trx e) :
    ∃ payer, trx.firstActor = some payer ∧
      Paired env payer e.ctx.executed e.ctx.feeCosted.amount := by
  obtain ⟨s1, s2, hs, hexec, haside⟩ := chargedRun_starts h
  obtain ⟨hpaired, _⟩ := paired_exec hs.need rfl hs.traces hs.executed hs.feeCosted hexec
  refine ⟨s1.ctx.feePayer, hs.payer, ?_⟩
  rw [haside.executed, haside.feeCosted]
  exact hpaired

/-- **FEES ARE PAIRED AND ADD UP**: every action of a charged run that is not
    a notification follows its own fee action, `fee_costed` is the sum of the
    fees, and a limit was kept. -/
theorem fees_paired {trx : Transaction} {e : ExecState σ} (h : ChargedRun env node trx e) :
    ∃ payer limit, trx.firstActor = some payer ∧
      getFromExtensions env.unpackAsset trx feeLimitExtension = .ok limit ∧
      e.ctx.maxFeeToPay = limit.getD Asset.zero ∧
      Paired env payer e.ctx.executed e.ctx.feeCosted.amount ∧
      (e.ctx.maxFeeToPay ≠ Asset.zero → e.ctx.feeCosted.amount ≤ e.ctx.maxFeeToPay.amount) ∧
      (NamesNoFee env → ∀ x ∈ e.ctx.executed, FeeOrigin trx x.trace) := by
  obtain ⟨s1, s2, hs, hexec, haside⟩ := chargedRun_starts h
  obtain ⟨hpaired, hwithin⟩ := paired_exec hs.need rfl hs.traces hs.executed hs.feeCosted hexec
  obtain ⟨limit, hlimit, hmax⟩ := hs.limit
  have hsteps : ReflTransGen (Step env) s1 (final (exec env node s1)) := moves_exec s1
  rw [hexec] at hsteps
  have hkept := congrArg Context.maxFeeToPay (grows_of_steps hsteps).fixed
  rw [haside.executed, haside.feeCosted, haside.maxFeeToPay]
  exact ⟨s1.ctx.feePayer, limit, hs.payer, hlimit, Eq.trans hkept hmax, hpaired,
    fun hne => le_amount (hwithin hs.within hne),
    fun hnames => feeOrigin_exec hnames hs.trx hs.traces hs.executed hexec⟩

/-- A transfer with another one among its context-free actions, pushed where
    `onfee_action` is open. -/
def transfers : TrxMetadata :=
  { SmallChain.transfer with
    trx :=
      { SmallChain.transfer.trx with
        contextFreeActions := [{ SmallChain.pay with authorization := [] }] } }

def transferRun : EStateM.Result FcException (ExecState Unit) (Option FcException) :=
  runTrx (SmallChain.env 10 SmallChain.noCode) SmallChain.producer transfers
    ⟨SmallChain.db (some 5) 0 false, startContext SmallChain.producer transfers {}⟩

theorem fees_paired_transfer :
    (final transferRun).ctx.executed.length = 4 ∧
    ∃ payer limit, transfers.trx.firstActor = some payer ∧
      getFromExtensions (SmallChain.env 10 SmallChain.noCode).unpackAsset transfers.trx
        feeLimitExtension = .ok limit ∧
      (final transferRun).ctx.maxFeeToPay = limit.getD Asset.zero ∧
      Paired (SmallChain.env 10 SmallChain.noCode) payer (final transferRun).ctx.executed
        (final transferRun).ctx.feeCosted.amount ∧
      ((final transferRun).ctx.maxFeeToPay ≠ Asset.zero →
        (final transferRun).ctx.feeCosted.amount ≤ (final transferRun).ctx.maxFeeToPay.amount) ∧
      (NamesNoFee (SmallChain.env 10 SmallChain.noCode) →
        ∀ x ∈ (final transferRun).ctx.executed, FeeOrigin transfers.trx x.trace) :=
  ⟨by decide +kernel, fees_paired (.input rfl (by decide) (of_yields (by decide +kernel)))⟩

end FeePair
