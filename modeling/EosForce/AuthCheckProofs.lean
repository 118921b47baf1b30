import EosForce.AuthorityExactProofs
import EosForce.PermissionRightsProofs

/-! # The authorizations of a transaction

    `check_authorization` goes over the actions of a transaction twice.  The
    first pass asks of every declared authorization whether it may be declared
    for its action at all, and collects it in a map with the least delay under
    which it was declared.  The second pass puts the entries of the map to one
    authority checker, whose marks on keys go from entry to entry.

    The answers do not depend on the marks, so what the second pass says of an
    entry is what a checker of its own would say. -/

namespace AuthCheck

open ChainTypes TrxTypes Authority StateTables PermissionStore NativeActions PermissionRights
open List

/-! ## The chain that the check reads -/

/-- `canceldelay`. -/
structure CancelDelay where
  cancelingAuth : PermissionLevel
  trxId : Digest

/-- `generated_transaction_object`, as far as `canceldelay` reads it. -/
structure Delayed where
  sender : Name
  actions : Except FcException (List Action)
  delayUntil : Int
  published : Int

/-- What the check reads besides its arguments. -/
structure ChainView where
  ctx : ActionContext
  state : State
  maxTransactionDelay : Nat
  maxAuthorityDepth : Nat
  updateauth : Bytes → Except FcException UpdateAuth
  deleteauth : Bytes → Except FcException DeleteAuth
  linkauth : Bytes → Except FcException LinkAuth
  unlinkauth : Bytes → Except FcException UnlinkAuth
  canceldelay : Bytes → Except FcException CancelDelay
  /-- the index `by_trx_id` of the generated transactions -/
  generated : Digest → Option Delayed

/-- The authorities as `get_permission( p ).auth` reads them. -/
def ChainView.authorities (c : ChainView) : AuthorityMap where
  authority level := (findByOwner c.state.permissions level.actor level.permission).map (·.auth)

/-- `fc::microseconds::maximum()`. -/
def maximumDelay : Int := 2 ^ 63 - 1

/-- `effective_provided_delay`. -/
def ChainView.effectiveProvidedDelay (c : ChainView) (providedDelay : Int) : Int :=
  if (c.maxTransactionDelay : Int) * 1000000 ≤ providedDelay then maximumDelay else providedDelay

/-! ## The first pass -/

/-- `check_canceldelay_authorization`. -/
def checkCanceldelayAuthorization (c : ChainView) (cancel : CancelDelay)
    (auths : List PermissionLevel) : Except FcException Int :=
  match auths with
  | [auth] => do
      let least ← getPermission c.state.permissions cancel.cancelingAuth
      checkSatisfies c.state auth least
        "canceldelay action declares irrelevant authority '$\x7bauth\x7d'; specified authority to satisfy is $\x7bmin\x7d"
      match c.generated cancel.trxId with
      | none => .error ⟨.txNotFound,
          "cannot cancel trx_id=$\x7btid\x7d, there is no deferred transaction with that transaction id"⟩
      | some g => do
          eosAssert (g.sender = noName) .txNotFound
            "cannot cancel trx_id=$\x7btid\x7d, there is no deferred transaction with that transaction id"
          let actions ← g.actions
          eosAssert (∃ act ∈ actions, cancel.cancelingAuth ∈ act.authorization) .actionValidate
            "canceling_auth in canceldelay action was not found as authorization in the original delayed transaction"
          pure (g.delayUntil - g.published)
  | _ => .error ⟨.irrelevantAuth, "canceldelay action should only have one declared authorization"⟩

/-- The special cases: whether the action is one, and the delay under which its
    authorization is declared. -/
def checkSpecialCase (c : ChainView) (act : Action) (delay : Int) :
    Except FcException (Bool × Int) :=
  if act.account = systemAccountName then
    if act.name = updateauthName then do
      let update ← c.updateauth act.data
      checkUpdateauthAuthorization c.state update act.authorization
      pure (true, delay)
    else if act.name = deleteauthName then do
      let del ← c.deleteauth act.data
      checkDeleteauthAuthorization c.state del act.authorization
      pure (true, delay)
    else if act.name = linkauthName then do
      let link ← c.linkauth act.data
      checkLinkauthAuthorization c.ctx c.state link act.authorization
      pure (true, delay)
    else if act.name = unlinkauthName then do
      let unlink ← c.unlinkauth act.data
      checkUnlinkauthAuthorization c.state unlink act.authorization
      pure (true, delay)
    else if act.name = canceldelayName then do
      let cancel ← c.canceldelay act.data
      let d ← checkCanceldelayAuthorization c cancel act.authorization
      pure (true, max delay d)
    else pure (false, delay)
  else pure (false, delay)

/-- `permissions_to_satisfy`, in ascending order. -/
abbrev ToSatisfy := List (PermissionLevel × Int)

/-- An authorization is put into the map, or its delay is lowered. -/
def note (auth : PermissionLevel) (delay : Int) : ToSatisfy → ToSatisfy
  | [] => [(auth, delay)]
  | (a, d) :: rest =>
    if auth = a then (a, if delay < d then delay else d) :: rest
    else if levelLt auth a then (auth, delay) :: (a, d) :: rest
    else (a, d) :: note auth delay rest

/-- One declared authorization of an action. -/
def declare (c : ChainView) (satisfiedAuthorizations : List PermissionLevel) (act : Action)
    (special : Bool × Int) (m : ToSatisfy) (auth : PermissionLevel) :
    Except FcException ToSatisfy := do
  if special.1 then pure () else checkOrdinary c.state auth act.account act.name
  pure (if auth ∈ satisfiedAuthorizations then m else note auth special.2 m)

/-- One action. -/
def checkAction (c : ChainView) (satisfiedAuthorizations : List PermissionLevel) (delay : Int)
    (m : ToSatisfy) (act : Action) : Except FcException ToSatisfy := do
  let special ← checkSpecialCase c act delay
  act.authorization.foldlM (declare c satisfiedAuthorizations act special) m

/-! ## The second pass -/

/-- The entries of the map are put to the checker. -/
def checkEntries : Checker → ToSatisfy → Except FcException Checker
  | checker, [] => .ok checker
  | checker, (auth, delay) :: rest => do
      let r := checker.withDelay delay fun ch => ch.satisfied auth
      eosAssert (r.1 = true) .unsatisfiedAuthorization
        "transaction declares authority '$\x7bauth\x7d', but does not have signatures for it under a provided delay of $\x7bprovided_delay\x7d ms, provided permissions $\x7bprovided_permissions\x7d, provided keys $\x7bprovided_keys\x7d, and a delay max limit of $\x7bdelay_max_limit_ms\x7d ms"
      checkEntries r.2 rest

/-- `check_authorization`.  The calls of `checktime` are left out: one that
    throws ends the check, one that does not changes nothing. -/
def checkAuthorization (c : ChainView) (actions : List Action) (providedKeys : List PublicKey)
    (providedPermissions : List PermissionLevel) (providedDelay : Int) (allowUnusedKeys : Bool)
    (satisfiedAuthorizations : List PermissionLevel) : Except FcException Unit := do
  let delay := c.effectiveProvidedDelay providedDelay
  let permissionsToSatisfy ← actions.foldlM (checkAction c satisfiedAuthorizations delay) []
  let checker ← checkEntries
    (fresh c.authorities c.maxAuthorityDepth providedKeys providedPermissions delay)
    permissionsToSatisfy
  eosAssert (allowUnusedKeys = true ∨ checker.allKeysUsed = true) .txIrrelevantSig
    "transaction bears irrelevant signatures from these keys: $\x7bkeys\x7d"

/-! ## What the first pass asks for -/

/-- The action is the native action of that name. -/
def IsNative (act : Action) (name : Name) : Prop :=
  act.account = systemAccountName ∧ act.name = name

instance (act : Action) (name : Name) : Decidable (IsNative act name) := by
  unfold IsNative
  infer_instance

/-- The permission of `account` that is named, if one is. -/
def Named (s : State) (account : Name) (m : Option Name) (least : Option PermissionObject) : Prop :=
  match m with
  | none => least = none
  | some name => ∃ p, getPermission s.permissions ⟨account, name⟩ = .ok p ∧ least = some p

/-- The permission that has to be satisfied at least by an authorization that
    is declared for an action; `none` asks for no permission in particular. -/
inductive Needs (c : ChainView) (act : Action) (auth : PermissionLevel) :
    Option PermissionObject → Prop where
  | minimum {m : Option Name} {least : Option PermissionObject}
      (hm : lookupMinimumPermission c.state auth.actor act.account act.name = .ok m)
      (hleast : Named c.state auth.actor m least) : Needs c act auth least
  | updateauth {update : UpdateAuth} {least : PermissionObject}
      (hact : IsNative act updateauthName) (hdata : c.updateauth act.data = .ok update)
      (hsole : act.authorization = [auth])
      (hleast : findByOwner c.state.permissions update.account update.permission = some least ∨
        findByOwner c.state.permissions update.account update.permission = none ∧
          findByOwner c.state.permissions update.account update.parent = some least) :
      Needs c act auth (some least)
  | deleteauth {del : DeleteAuth} {least : PermissionObject}
      (hact : IsNative act deleteauthName) (hdata : c.deleteauth act.data = .ok del)
      (hsole : act.authorization = [auth])
      (hleast : findByOwner c.state.permissions del.account del.permission = some least) :
      Needs c act auth (some least)
  | linkauth {link : LinkAuth} {m : Option Name} {least : Option PermissionObject}
      (hact : IsNative act linkauthName) (hdata : c.linkauth act.data = .ok link)
      (hsole : act.authorization = [auth])
      (hm : lookupMinimumPermission c.state link.account link.code link.type = .ok m)
      (hleast : Named c.state link.account m least) : Needs c act auth least
  | unlinkauth {unlink : UnlinkAuth} {linked : Name} {least : Option PermissionObject}
      (hact : IsNative act unlinkauthName) (hdata : c.unlinkauth act.data = .ok unlink)
      (hsole : act.authorization = [auth])
      (hlinked : lookupLinkedPermission c.state unlink.account unlink.code unlink.type =
        some linked)
      (hleast : Named c.state unlink.account (PermissionRights.minimum (some linked)) least) :
      Needs c act auth least
  | canceldelay {cancel : CancelDelay} {g : Delayed} {least : PermissionObject}
      (hact : IsNative act canceldelayName) (hdata : c.canceldelay act.data = .ok cancel)
      (hsole : act.authorization = [auth]) (hdelayed : c.generated cancel.trxId = some g)
      (hleast : getPermission c.state.permissions cancel.cancelingAuth = .ok least) :
      Needs c act auth (some least)

/-- The declared permission satisfies the permission needed. -/
def Meets (s : State) (auth : PermissionLevel) (least : Option PermissionObject) : Prop :=
  ∀ p, least = some p → Covers s auth p

/-- The delayed transaction that a `canceldelay` action names. -/
def ChainView.canceled (c : ChainView) (act : Action) : Option Delayed :=
  if IsNative act canceldelayName then
    match c.canceldelay act.data with
    | .ok cancel => c.generated cancel.trxId
    | .error _ => none
  else none

/-- The delay under which the authorizations of an action are declared: what
    is provided, and for `canceldelay` at least the delay that is cancelled. -/
def ChainView.delayOf (c : ChainView) (delay : Int) (act : Action) : Int :=
  match c.canceled act with
  | some g => max delay (g.delayUntil - g.published)
  | none => delay

variable {c : ChainView} {act : Action} {delay : Int} {auth : PermissionLevel}

theorem delayOf_other (h : ¬ IsNative act canceldelayName) : c.delayOf delay act = delay := by
  rw [ChainView.delayOf, ChainView.canceled, if_neg h]

theorem delayOf_named {name : Name} (hname : act.name = name) (hne : name ≠ canceldelayName) :
    c.delayOf delay act = delay :=
  delayOf_other fun hn => hne (hname.symm.trans hn.2)

theorem delayOf_canceldelay {cancel : CancelDelay} {g : Delayed}
    (hact : IsNative act canceldelayName) (hdata : c.canceldelay act.data = .ok cancel)
    (hg : c.generated cancel.trxId = some g) :
    c.delayOf delay act = max delay (g.delayUntil - g.published) := by
  have hcanceled : c.canceled act = some g := by
    rw [ChainView.canceled, if_pos hact, hdata]
    exact hg
  rw [ChainView.delayOf, hcanceled]

theorem meets_some {s : State} {p : PermissionObject} (h : Covers s auth p) :
    Meets s auth (some p) := by
  intro q hq
  cases hq
  exact h

theorem named_of_least {s : State} {account : Name} {m : Option Name}
    (h : ∀ linked, m = some linked →
      ∃ least, getPermission s.permissions ⟨account, linked⟩ = .ok least ∧ Covers s auth least) :
    ∃ least, Named s account m least ∧ Meets s auth least := by
  cases m with
  | none =>
    refine ⟨none, rfl, fun p hp => ?_⟩
    cases hp
  | some name =>
    obtain ⟨least, hleast, hcovers⟩ := h name rfl
    exact ⟨some least, ⟨least, hleast, rfl⟩, meets_some hcovers⟩

theorem sole_of_check {auths : List PermissionLevel} {account : Name} {one other : String}
    {f : PermissionLevel → Except FcException Unit}
    (h : (soleAuthorization auths account one other >>= f) = .ok ()) : ∃ auth, auths = [auth] := by
  obtain ⟨auth, hauth, -⟩ := except_bind_ok h
  exact ⟨auth, soleAuthorization_ok hauth⟩

theorem sole_needs {least : Option PermissionObject} (hsole : act.authorization = [auth])
    (hneeds : Needs c act auth least) (hmeets : Meets c.state auth least) :
    ∀ a ∈ act.authorization, ∃ least, Needs c act a least ∧ Meets c.state a least := by
  intro a ha
  rw [hsole, mem_singleton] at ha
  subst ha
  exact ⟨least, hneeds, hmeets⟩

/-- The check of `canceldelay`. -/
theorem canceldelay_checked {cancel : CancelDelay} {auths : List PermissionLevel} {d : Int}
    (h : checkCanceldelayAuthorization c cancel auths = .ok d) :
    ∃ auth least g, auths = [auth] ∧
      getPermission c.state.permissions cancel.cancelingAuth = .ok least ∧
      Covers c.state auth least ∧ c.generated cancel.trxId = some g ∧
      d = g.delayUntil - g.published := by
  rcases auths with _ | ⟨auth, _ | ⟨b, rest⟩⟩
  · cases h
  · obtain ⟨least, hleast, h⟩ := except_bind_ok h
    obtain ⟨_, hsat, h⟩ := except_bind_ok h
    cases hg : c.generated cancel.trxId with
    | none =>
      rw [hg] at h
      cases h
    | some g =>
      rw [hg] at h
      obtain ⟨-, h⟩ := eosAssert_bind_ok_iff.mp h
      obtain ⟨_, -, h⟩ := except_bind_ok h
      obtain ⟨-, h⟩ := eosAssert_bind_ok_iff.mp h
      cases h
      exact ⟨auth, least, g, rfl, hleast, checkSatisfies_ok hsat, rfl, rfl⟩
  · cases h

/-- What the special cases leave to be checked, and the delay that they find. -/
theorem specialCase_ok {special : Bool × Int} (h : checkSpecialCase c act delay = .ok special) :
    special.2 = c.delayOf delay act ∧
      (special.1 = true → ∀ auth ∈ act.authorization,
        ∃ least, Needs c act auth least ∧ Meets c.state auth least) := by
  rw [checkSpecialCase] at h
  split at h
  rotate_left
  · rename_i hsystem
    cases h
    exact ⟨(delayOf_other fun hn => hsystem hn.1).symm, fun hf => nomatch hf⟩
  rename_i hsystem
  split at h
  · rename_i hname
    obtain ⟨update, hdata, h⟩ := except_bind_ok h
    obtain ⟨u, hcheck, h⟩ := except_bind_ok h
    cases h
    obtain ⟨auth, hsole⟩ := sole_of_check hcheck
    obtain ⟨least, hcovers, hleast⟩ := updateauth_checked (hsole ▸ hcheck)
    exact ⟨(delayOf_named hname (by decide)).symm, fun _ => sole_needs hsole
      (.updateauth ⟨hsystem, hname⟩ hdata hsole hleast) (meets_some hcovers)⟩
  split at h
  · rename_i hname
    obtain ⟨del, hdata, h⟩ := except_bind_ok h
    obtain ⟨u, hcheck, h⟩ := except_bind_ok h
    cases h
    obtain ⟨auth, hsole⟩ := sole_of_check hcheck
    obtain ⟨least, hcovers, hleast⟩ := deleteauth_checked (hsole ▸ hcheck)
    exact ⟨(delayOf_named hname (by decide)).symm, fun _ => sole_needs hsole
      (.deleteauth ⟨hsystem, hname⟩ hdata hsole hleast) (meets_some hcovers)⟩
  split at h
  · rename_i hname
    obtain ⟨link, hdata, h⟩ := except_bind_ok h
    obtain ⟨u, hcheck, h⟩ := except_bind_ok h
    cases h
    obtain ⟨auth, hsole⟩ := sole_of_check hcheck
    obtain ⟨m, hm, hleast⟩ := linkauth_least (hsole ▸ hcheck)
    obtain ⟨least, hnamed, hmeets⟩ := named_of_least hleast
    exact ⟨(delayOf_named hname (by decide)).symm, fun _ => sole_needs hsole
      (.linkauth ⟨hsystem, hname⟩ hdata hsole hm hnamed) hmeets⟩
  split at h
  · rename_i hname
    obtain ⟨unlink, hdata, h⟩ := except_bind_ok h
    obtain ⟨u, hcheck, h⟩ := except_bind_ok h
    cases h
    obtain ⟨auth, hsole⟩ := sole_of_check hcheck
    obtain ⟨linked, hlinked, hleast⟩ := unlinkauth_least (hsole ▸ hcheck)
    obtain ⟨least, hnamed, hmeets⟩ := named_of_least hleast
    exact ⟨(delayOf_named hname (by decide)).symm, fun _ => sole_needs hsole
      (.unlinkauth ⟨hsystem, hname⟩ hdata hsole hlinked hnamed) hmeets⟩
  split at h
  · rename_i hname
    obtain ⟨cancel, hdata, h⟩ := except_bind_ok h
    obtain ⟨d, hcheck, h⟩ := except_bind_ok h
    cases h
    obtain ⟨auth, least, g, hsole, hleast, hcovers, hg, rfl⟩ := canceldelay_checked hcheck
    exact ⟨(delayOf_canceldelay ⟨hsystem, hname⟩ hdata hg).symm, fun _ => sole_needs hsole
      (.canceldelay ⟨hsystem, hname⟩ hdata hsole hg hleast) (meets_some hcovers)⟩
  · rename_i hname
    cases h
    exact ⟨(delayOf_other fun hn => hname hn.2).symm, fun hf => nomatch hf⟩

/-- The check of an action that is no special case. -/
theorem ordinary_needs (h : checkOrdinary c.state auth act.account act.name = .ok ()) :
    ∃ least, Needs c act auth least ∧ Meets c.state auth least := by
  obtain ⟨m, hm, h⟩ := except_bind_ok h
  obtain ⟨least, hnamed, hmeets⟩ : ∃ least, Named c.state auth.actor m least ∧
      Meets c.state auth least := by
    refine named_of_least fun linked hlinked => ?_
    subst hlinked
    obtain ⟨least, hleast, h⟩ := except_bind_ok h
    exact ⟨least, hleast, checkSatisfies_ok h⟩
  exact ⟨least, .minimum hm hnamed, hmeets⟩

/-! ## The map -/

theorem levelLt_total {a b : PermissionLevel} (hne : a ≠ b) (h : ¬ levelLt a b) : levelLt b a := by
  obtain ⟨⟨x⟩, ⟨y⟩⟩ := a
  obtain ⟨⟨x'⟩, ⟨y'⟩⟩ := b
  rw [levelLt, not_or] at h
  by_cases hx : x = x'
  · subst hx
    obtain hy | hy := UInt64.lt_or_lt_of_ne fun hy : y = y' => hne (hy ▸ rfl)
    · exact absurd ⟨rfl, hy⟩ h.2
    · exact .inr ⟨rfl, hy⟩
  · exact .inl ((UInt64.lt_or_lt_of_ne hx).resolve_left h.1)

/-- The keys of the map ascend. -/
def Ascending (m : ToSatisfy) : Prop := m.Pairwise fun x y => levelLt x.1 y.1

section Map

variable {m : ToSatisfy} {x : PermissionLevel} {d : Int}

/-- What is smaller than the first key is no key. -/
theorem not_mem_of_lt (hm : Ascending ((x, d) :: m)) (h : levelLt auth x) (e : Int) :
    (auth, e) ∉ (x, d) :: m := by
  intro hmem
  obtain heq | hmem := mem_cons.mp hmem
  · rw [show auth = x from congrArg Prod.fst heq] at h
    exact levelLt_irrefl x h
  · have hlt : levelLt x auth := (pairwise_cons.mp hm).1 _ hmem
    exact levelLt_irrefl x (levelLt_trans hlt h)

/-- What is in the map afterwards was there before, or is the authorization
    with the lesser delay. -/
theorem mem_note (hm : Ascending m) (h : (x, d) ∈ note auth delay m) :
    x ≠ auth ∧ (x, d) ∈ m ∨
      x = auth ∧ ((∃ d0, (auth, d0) ∈ m ∧ d = min delay d0) ∨
        (∀ d0, (auth, d0) ∉ m) ∧ d = delay) := by
  induction m with
  | nil =>
    obtain ⟨rfl, rfl⟩ := Prod.mk.inj (mem_singleton.mp h)
    exact .inr ⟨rfl, .inr ⟨fun _ => not_mem_nil, rfl⟩⟩
  | cons hd rest ih =>
    obtain ⟨a, d1⟩ := hd
    have hrest := (pairwise_cons.mp hm).1
    rw [note] at h
    split at h
    · rename_i heq
      subst heq
      obtain hhead | htail := mem_cons.mp h
      · obtain ⟨rfl, rfl⟩ := Prod.mk.inj hhead
        refine .inr ⟨rfl, .inl ⟨d1, mem_cons_self, ?_⟩⟩
        rw [min_def]
        split <;> split <;> omega
      · refine .inl ⟨fun hx => ?_, mem_cons_of_mem _ htail⟩
        have hlt : levelLt auth x := hrest (x, d) htail
        rw [hx] at hlt
        exact levelLt_irrefl auth hlt
    · rename_i hne
      split at h
      · rename_i hlt
        obtain hhead | htail := mem_cons.mp h
        · obtain ⟨rfl, rfl⟩ := Prod.mk.inj hhead
          exact .inr ⟨rfl, .inr ⟨not_mem_of_lt hm hlt, rfl⟩⟩
        · refine .inl ⟨?_, htail⟩
          rintro rfl
          exact not_mem_of_lt hm hlt _ htail
      · obtain hhead | htail := mem_cons.mp h
        · obtain ⟨rfl, rfl⟩ := Prod.mk.inj hhead
          exact .inl ⟨fun he => hne he.symm, mem_cons_self⟩
        · obtain ⟨hx, hmem⟩ | ⟨rfl, ⟨d0, hmem, hd⟩ | ⟨hno, hd⟩⟩ :=
            ih (pairwise_cons.mp hm).2 htail
          · exact .inl ⟨hx, mem_cons_of_mem _ hmem⟩
          · exact .inr ⟨rfl, .inl ⟨d0, mem_cons_of_mem _ hmem, hd⟩⟩
          · refine .inr ⟨rfl, .inr ⟨fun d0 hmem => ?_, hd⟩⟩
            obtain heq | hmem := mem_cons.mp hmem
            · exact hne (congrArg Prod.fst heq)
            · exact hno d0 hmem

theorem ascending_note (hm : Ascending m) : Ascending (note auth delay m) := by
  induction m with
  | nil => exact pairwise_singleton _ _
  | cons hd rest ih =>
    obtain ⟨a, d1⟩ := hd
    obtain ⟨hhead, hrest⟩ := pairwise_cons.mp hm
    rw [note]
    split
    · exact pairwise_cons.mpr ⟨hhead, hrest⟩
    · rename_i hne
      split
      · rename_i hlt
        refine pairwise_cons.mpr ⟨fun y hy => ?_, hm⟩
        obtain rfl | hy := mem_cons.mp hy
        · exact hlt
        · exact levelLt_trans hlt (hhead y hy)
      · rename_i hlt
        refine pairwise_cons.mpr ⟨fun y hy => ?_, ih hrest⟩
        obtain ⟨-, hmem⟩ | ⟨heq, -⟩ := mem_note hrest hy
        · exact hhead y hmem
        · rw [heq]
          exact levelLt_total hne hlt

/-- No authorization gets lost. -/
theorem exists_note (h : x = auth ∨ ∃ d, (x, d) ∈ m) : ∃ d, (x, d) ∈ note auth delay m := by
  induction m with
  | nil =>
    obtain rfl | ⟨d, hd⟩ := h
    · exact ⟨delay, mem_singleton_self _⟩
    · cases hd
  | cons hd rest ih =>
    obtain ⟨a, d1⟩ := hd
    rw [note]
    split
    · rename_i heq
      subst heq
      obtain rfl | ⟨d, hd⟩ := h
      · exact ⟨_, mem_cons_self⟩
      · obtain hhead | htail := mem_cons.mp hd
        · obtain ⟨rfl, rfl⟩ := Prod.mk.inj hhead
          exact ⟨_, mem_cons_self⟩
        · exact ⟨d, mem_cons_of_mem _ htail⟩
    · split
      · obtain rfl | ⟨d, hd⟩ := h
        · exact ⟨delay, mem_cons_self⟩
        · exact ⟨d, mem_cons_of_mem _ hd⟩
      · have hrest : x = a ∨ (x = auth ∨ ∃ d, (x, d) ∈ rest) := by
          obtain hx | ⟨d, hd⟩ := h
          · exact .inr (.inl hx)
          · obtain hhead | htail := mem_cons.mp hd
            · exact .inl (congrArg Prod.fst hhead)
            · exact .inr (.inr ⟨d, htail⟩)
        obtain rfl | hrest := hrest
        · exact ⟨d1, mem_cons_self⟩
        · obtain ⟨d, hd⟩ := ih hrest
          exact ⟨d, mem_cons_of_mem _ hd⟩

end Map

/-- The map holds the least delay of each authorization declared so far. -/
structure Gathered (decls : ToSatisfy) (m : ToSatisfy) : Prop where
  ascending : Ascending m
  least : ∀ a d, (a, d) ∈ m → IsLeast { e | (a, e) ∈ decls } d
  complete : ∀ a e, (a, e) ∈ decls → ∃ d, (a, d) ∈ m

theorem Gathered.nil : Gathered [] [] where
  ascending := .nil
  least _ _ h := nomatch h
  complete _ _ h := nomatch h

theorem Gathered.note {decls m : ToSatisfy} (h : Gathered decls m) :
    Gathered (decls ++ [(auth, delay)]) (note auth delay m) where
  ascending := ascending_note h.ascending
  least := by
    intro a d hmem
    have hset : ∀ e, (a, e) ∈ decls ++ [(auth, delay)] ↔ (a, e) ∈ decls ∨ a = auth ∧ e = delay := by
      simp
    obtain ⟨hne, hold⟩ | ⟨rfl, ⟨d0, hold, rfl⟩ | ⟨hno, rfl⟩⟩ := mem_note h.ascending hmem
    · -- another authorization
      obtain ⟨hin, hleast⟩ := h.least a d hold
      refine ⟨(hset d).mpr (.inl hin), fun e he => ?_⟩
      obtain he | ⟨rfl, -⟩ := (hset e).mp he
      · exact hleast he
      · exact absurd rfl hne
    · -- it was declared before
      obtain ⟨hin, hleast⟩ := h.least a d0 hold
      refine ⟨(hset _).mpr ?_, fun e he => ?_⟩
      · obtain hle | hle := le_total delay d0
        · exact .inr ⟨rfl, min_eq_left hle⟩
        · rw [min_eq_right hle]
          exact .inl hin
      · obtain he | ⟨-, rfl⟩ := (hset e).mp he
        · exact (min_le_right _ _).trans (hleast he)
        · exact min_le_left _ _
    · -- it is declared for the first time
      refine ⟨(hset _).mpr (.inr ⟨rfl, rfl⟩), fun e he => ?_⟩
      obtain he | ⟨-, rfl⟩ := (hset e).mp he
      · obtain ⟨d0, hd0⟩ := h.complete a e he
        exact absurd hd0 (hno d0)
      · exact le_refl _
  complete := by
    intro a e hmem
    refine exists_note ?_
    obtain hmem | hmem := mem_append.mp hmem
    · exact .inr (h.complete a e hmem)
    · exact .inl (congrArg Prod.fst (mem_singleton.mp hmem))

/-! ## The whole first pass -/

section FirstPass

variable {satisfiedAuthorizations : List PermissionLevel}

/-- The declarations of an action that go into the map. -/
def declarations (c : ChainView) (satisfiedAuthorizations : List PermissionLevel) (delay : Int)
    (act : Action) : ToSatisfy :=
  (act.authorization.filter (· ∉ satisfiedAuthorizations)).map fun auth =>
    (auth, c.delayOf delay act)

theorem declare_ok {special : Bool × Int} {m m' : ToSatisfy}
    (h : declare c satisfiedAuthorizations act special m auth = .ok m') :
    (special.1 = false → checkOrdinary c.state auth act.account act.name = .ok ()) ∧
      m' = if auth ∈ satisfiedAuthorizations then m else AuthCheck.note auth special.2 m := by
  rw [declare] at h
  split at h
  · rename_i hs
    cases h
    exact ⟨fun hf => absurd hf (by rw [hs]; decide), rfl⟩
  · obtain ⟨_, hcheck, h⟩ := except_bind_ok h
    cases h
    exact ⟨fun _ => hcheck, rfl⟩

variable {decls m m' : ToSatisfy}

theorem declare_all {special : Bool × Int} {auths : List PermissionLevel} (hm : Gathered decls m)
    (h : auths.foldlM (declare c satisfiedAuthorizations act special) m = .ok m') :
    (special.1 = false → ∀ auth ∈ auths,
        checkOrdinary c.state auth act.account act.name = .ok ()) ∧
      Gathered (decls ++ (auths.filter (· ∉ satisfiedAuthorizations)).map
        fun auth => (auth, special.2)) m' := by
  induction auths generalizing decls m with
  | nil =>
    cases h
    refine ⟨fun _ _ ha => absurd ha not_mem_nil, ?_⟩
    simpa using hm
  | cons a rest ih =>
    rw [foldlM_cons] at h
    obtain ⟨m1, hdecl, hrest⟩ := except_bind_ok h
    obtain ⟨hcheck, rfl⟩ := declare_ok hdecl
    by_cases hsat : a ∈ satisfiedAuthorizations
    · rw [if_pos hsat] at hrest
      obtain ⟨hchecks, hgathered⟩ := ih hm hrest
      refine ⟨fun hs => forall_mem_cons.mpr ⟨hcheck hs, hchecks hs⟩, ?_⟩
      simpa [hsat] using hgathered
    · rw [if_neg hsat] at hrest
      obtain ⟨hchecks, hgathered⟩ := ih hm.note hrest
      refine ⟨fun hs => forall_mem_cons.mpr ⟨hcheck hs, hchecks hs⟩, ?_⟩
      simpa [hsat] using hgathered

theorem checkAction_ok (hm : Gathered decls m)
    (h : checkAction c satisfiedAuthorizations delay m act = .ok m') :
    ((∃ special, checkSpecialCase c act delay = .ok special) ∧
      ∀ auth ∈ act.authorization, ∃ least, Needs c act auth least ∧ Meets c.state auth least) ∧
      Gathered (decls ++ declarations c satisfiedAuthorizations delay act) m' := by
  rw [checkAction] at h
  obtain ⟨special, hspecial, h⟩ := except_bind_ok h
  obtain ⟨hdelay, hneeds⟩ := specialCase_ok hspecial
  obtain ⟨hchecks, hgathered⟩ := declare_all hm h
  rw [hdelay] at hgathered
  refine ⟨⟨⟨special, hspecial⟩, fun auth hauth => ?_⟩, hgathered⟩
  cases hs : special.1 with
  | true => exact hneeds hs auth hauth
  | false => exact ordinary_needs (hchecks hs auth hauth)

theorem firstPass_ok {actions : List Action} (hm : Gathered decls m)
    (h : actions.foldlM (checkAction c satisfiedAuthorizations delay) m = .ok m') :
    (∀ act ∈ actions, (∃ special, checkSpecialCase c act delay = .ok special) ∧
      ∀ auth ∈ act.authorization, ∃ least, Needs c act auth least ∧ Meets c.state auth least) ∧
      Gathered (decls ++ actions.flatMap (declarations c satisfiedAuthorizations delay)) m' := by
  induction actions generalizing decls m with
  | nil =>
    cases h
    refine ⟨fun _ ha => absurd ha not_mem_nil, ?_⟩
    simpa using hm
  | cons act rest ih =>
    rw [foldlM_cons] at h
    obtain ⟨m1, hact, hrest⟩ := except_bind_ok h
    obtain ⟨hneeds, hgathered⟩ := checkAction_ok hm hact
    obtain ⟨hall, hend⟩ := ih hgathered hrest
    refine ⟨forall_mem_cons.mpr ⟨hneeds, hall⟩, ?_⟩
    rw [flatMap_cons, ← append_assoc]
    exact hend

/-- The delays under which an authorization is declared. -/
def delaysOf (c : ChainView) (delay : Int) (actions : List Action) (auth : PermissionLevel) :
    Set Int :=
  { e | ∃ act ∈ actions, auth ∈ act.authorization ∧ e = c.delayOf delay act }

theorem mem_declared {actions : List Action} {e : Int} :
    (auth, e) ∈ actions.flatMap (declarations c satisfiedAuthorizations delay) ↔
      auth ∉ satisfiedAuthorizations ∧ e ∈ delaysOf c delay actions auth := by
  constructor
  · intro h
    obtain ⟨act, hact, h⟩ := mem_flatMap.mp h
    obtain ⟨a, ha, heq⟩ := mem_map.mp h
    obtain ⟨rfl, rfl⟩ := Prod.mk.inj heq
    obtain ⟨ha, hsat⟩ := mem_filter.mp ha
    exact ⟨of_decide_eq_true hsat, act, hact, ha, rfl⟩
  · rintro ⟨hsat, act, hact, hauth, rfl⟩
    refine mem_flatMap.mpr ⟨act, hact, mem_map.mpr ⟨auth, ?_, rfl⟩⟩
    exact mem_filter.mpr ⟨hauth, decide_eq_true hsat⟩

end FirstPass

/-! ## Management actions -/

/-- The action, decoded, is one that manages permissions. -/
inductive Manages (c : ChainView) (act : Action) : ManageAction → Prop where
  | updateauth {update : UpdateAuth} (hact : IsNative act updateauthName)
      (hdata : c.updateauth act.data = .ok update) : Manages c act (.updateauth update)
  | deleteauth {remove : DeleteAuth} (hact : IsNative act deleteauthName)
      (hdata : c.deleteauth act.data = .ok remove) : Manages c act (.deleteauth remove)
  | linkauth {link : LinkAuth} (hact : IsNative act linkauthName)
      (hdata : c.linkauth act.data = .ok link) : Manages c act (.linkauth link)
  | unlinkauth {unlink : UnlinkAuth} (hact : IsNative act unlinkauthName)
      (hdata : c.unlinkauth act.data = .ok unlink) : Manages c act (.unlinkauth unlink)

theorem specialCase_manages {action : ManageAction} (h : Manages c act action) :
    checkSpecialCase c act delay =
      checkSpecial c.ctx c.state act.authorization action >>= fun _ => pure (true, delay) := by
  cases h with
  | updateauth hact hdata =>
    rw [checkSpecialCase, if_pos hact.1, if_pos hact.2, hdata]
    rfl
  | deleteauth hact hdata =>
    rw [checkSpecialCase, if_pos hact.1, hact.2, if_neg (by decide), if_pos rfl, hdata]
    rfl
  | linkauth hact hdata =>
    rw [checkSpecialCase, if_pos hact.1, hact.2, if_neg (by decide), if_neg (by decide),
      if_pos rfl, hdata]
    rfl
  | unlinkauth hact hdata =>
    rw [checkSpecialCase, if_pos hact.1, hact.2, if_neg (by decide), if_neg (by decide),
      if_neg (by decide), if_pos rfl, hdata]
    rfl

/-- A management action of a transaction that `check_authorization` accepts
    passes the check that the permission store was proved with. -/
theorem checkAuthorization_manages {actions : List Action} {keys : List PublicKey}
    {permissions satisfiedAuthorizations : List PermissionLevel} {providedDelay : Int}
    {allowUnusedKeys : Bool} (h : checkAuthorization c actions keys permissions providedDelay
      allowUnusedKeys satisfiedAuthorizations = .ok ()) (hact : act ∈ actions)
    {action : ManageAction} (hm : Manages c act action) {held : PermissionLevel → Bool}
    (hheld : ∀ auth ∈ act.authorization, held auth = true) :
    PermissionStore.checkAuthorization c.ctx c.state action act.authorization held true =
      .ok () := by
  obtain ⟨m, hfirst, -⟩ := except_bind_ok h
  obtain ⟨⟨special, hspecial⟩, -⟩ := (firstPass_ok .nil hfirst).1 act hact
  rw [specialCase_manages hm] at hspecial
  obtain ⟨_, hcheck, -⟩ := except_bind_ok hspecial
  rw [PermissionStore.checkAuthorization, hcheck]
  exact eosAssert_bind_ok_iff.mpr ⟨hheld, eosAssert_ok_iff.mpr rfl⟩

/-! ## The marks of a checker -/

section Marks

variable {ch : Checker} {u : PublicKey → Bool} {s t : Progress}

/-- The first run is as far as the second, with more keys marked. -/
structure MarksMore (u : PublicKey → Bool) (s t : Progress) : Prop where
  cache : s.cachedPermissions = t.cachedPermissions
  used : ∀ k, s.usedKeys k = (u k || t.usedKeys k)

/-- The same answer, and the same marks in addition. -/
def Alongside (u : PublicKey → Bool) (r r' : Bool × Progress) : Prop :=
  r.1 = r'.1 ∧ MarksMore u r.2 r'.2

theorem MarksMore.visit {account : PermissionLevel → Progress → Bool × Progress}
    (haccount : ∀ p s t, MarksMore u s t → Alongside u (account p s) (account p t))
    (h : MarksMore u s t) (e : Authority.Entry) :
    Alongside u (Authority.visit ch account e s) (Authority.visit ch account e t) := by
  cases e with
  | wait e => exact ⟨rfl, h⟩
  | account e => exact haccount e.permission s t h
  | key e =>
    rw [Authority.visit, Authority.visit]
    split
    · refine ⟨rfl, h.cache, fun k => ?_⟩
      dsimp only
      split
      · rw [Bool.or_true]
      · exact h.used k
    · exact ⟨rfl, h⟩

theorem MarksMore.tallyWeights {visitor : Authority.Entry → Progress → Bool × Progress}
    (hvisit : ∀ e s t, MarksMore u s t → Alongside u (visitor e s) (visitor e t)) (threshold : Nat)
    (es : List Authority.Entry) (total : Nat) (h : MarksMore u s t) :
    Alongside u (Authority.tallyWeights visitor threshold es total s)
      (Authority.tallyWeights visitor threshold es total t) := by
  induction es generalizing total s t with
  | nil => exact ⟨rfl, h⟩
  | cons e es ih =>
    obtain ⟨hsame, hnext⟩ := hvisit e s t h
    rw [Authority.tallyWeights, Authority.tallyWeights, hsame]
    generalize (if (visitor e t).1 = true then addU32 total e.weight else total) = total'
    split
    · exact ⟨rfl, hnext⟩
    · exact ih _ hnext

theorem MarksMore.satisfiedAuthority {account : PermissionLevel → Progress → Bool × Progress}
    (haccount : ∀ p s t, MarksMore u s t → Alongside u (account p s) (account p t)) (auth : Auth)
    (h : MarksMore u s t) :
    Alongside u (Authority.satisfiedAuthority ch account auth s)
      (Authority.satisfiedAuthority ch account auth t) := by
  obtain ⟨hsame, hend⟩ := MarksMore.tallyWeights (fun e s t h => MarksMore.visit haccount h e)
    auth.threshold.toNat auth.metaPermissions 0 h
  rw [Authority.satisfiedAuthority, Authority.satisfiedAuthority]
  dsimp only
  rw [hsame]
  split
  · exact ⟨hsame, hend⟩
  · -- the marks are taken back to those at the start
    exact ⟨rfl, hend.cache, h.used⟩

/-- Marks make no difference to what is found. -/
theorem MarksMore.visitPermission (ch : Checker) (depthLeft : Nat) (level : PermissionLevel)
    (h : MarksMore u s t) :
    Alongside u (Authority.visitPermission ch depthLeft level s)
      (Authority.visitPermission ch depthLeft level t) := by
  induction depthLeft generalizing level s t with
  | zero =>
    rw [Authority.visitPermission, Authority.visitPermission, h.cache]
    exact ⟨rfl, h⟩
  | succ depthLeft ih =>
    rw [Authority.visitPermission, Authority.visitPermission, h.cache]
    split
    · exact ⟨rfl, h⟩
    · split
      · exact ⟨rfl, h⟩
      · rename_i auth _
        obtain ⟨hsame, hend⟩ := MarksMore.satisfiedAuthority (fun p s t h => ih p h) auth
          (⟨rfl, h.used⟩ : MarksMore u
            { s with cachedPermissions := t.cachedPermissions.assign level .beingEvaluated }
            { t with cachedPermissions := t.cachedPermissions.assign level .beingEvaluated })
        refine ⟨hsame, ?_, hend.used⟩
        dsimp only
        rw [hsame, hend.cache]

/-- The marks that a checker starts with are not read. -/
theorem visitPermission_usedKeys (ch : Checker) (v : PublicKey → Bool) (depthLeft : Nat) :
    Authority.visitPermission { ch with usedKeys := v } depthLeft =
      Authority.visitPermission ch depthLeft := by
  induction depthLeft with
  | zero => rfl
  | succ depthLeft ih =>
    funext level s
    rw [Authority.visitPermission, Authority.visitPermission, ih]
    rfl

/-- The checker without marks, with another delay. -/
def unmarked (ch : Checker) (delay : Int) : Checker :=
  { ch with providedDelay := delay, usedKeys := fun _ => false }

/-- A call answers what a checker without marks would, and adds its marks. -/
theorem withDelay_satisfied (ch : Checker) (delay : Int) (auth : PermissionLevel) :
    (ch.withDelay delay fun ch => ch.satisfied auth).1 =
        ((unmarked ch delay).satisfied auth).1 ∧
      ∀ k, (ch.withDelay delay fun ch => ch.satisfied auth).2.usedKeys k =
        (ch.usedKeys k || ((unmarked ch delay).satisfied auth).2.usedKeys k) := by
  have hstart : MarksMore ch.usedKeys ⟨ch.initializePermissionCache, ch.usedKeys⟩
      ⟨ch.initializePermissionCache, fun _ => false⟩ := by
    refine ⟨rfl, fun k => ?_⟩
    rw [Bool.or_false]
  obtain ⟨hsame, hend⟩ := MarksMore.visitPermission { ch with providedDelay := delay }
    ch.recursionDepthLimit auth hstart
  have hrun := congrFun (congrFun (visitPermission_usedKeys { ch with providedDelay := delay }
    (fun _ => false) ch.recursionDepthLimit) auth) ⟨ch.initializePermissionCache, fun _ => false⟩
  rw [← hrun] at hsame hend
  exact ⟨hsame, hend.used⟩

/-- What the second pass establishes. -/
theorem checkEntries_ok {m : ToSatisfy} {ch' : Checker} (h : checkEntries ch m = .ok ch') :
    (∀ a d, (a, d) ∈ m → ((unmarked ch d).satisfied a).1 = true) ∧
      ch'.providedKeys = ch.providedKeys ∧
      ∀ k, ch'.usedKeys k = true → ch.usedKeys k = true ∨
        ∃ a d, (a, d) ∈ m ∧ ((unmarked ch d).satisfied a).2.usedKeys k = true := by
  induction m generalizing ch with
  | nil =>
    cases h
    exact ⟨fun _ _ hmem => absurd hmem not_mem_nil, rfl, fun k hk => .inl hk⟩
  | cons hd rest ih =>
    obtain ⟨a, d⟩ := hd
    obtain ⟨hyes, h⟩ := eosAssert_bind_ok_iff.mp h
    obtain ⟨hanswers, hkeys, hmarks⟩ := ih h
    obtain ⟨hsame, hused⟩ := withDelay_satisfied ch d a
    refine ⟨fun x e hmem => ?_, hkeys, fun k hk => ?_⟩
    · obtain heq | hmem := mem_cons.mp hmem
      · obtain ⟨rfl, rfl⟩ := Prod.mk.inj heq
        exact hsame.symm.trans hyes
      · exact hanswers x e hmem
    · obtain hold | ⟨x, e, hmem, hx⟩ := hmarks k hk
      · rw [hused k, Bool.or_eq_true] at hold
        obtain hold | hnew := hold
        · exact .inl hold
        · exact .inr ⟨a, d, mem_cons_self, hnew⟩
      · exact .inr ⟨x, e, mem_cons_of_mem _ hmem, hx⟩

end Marks

/-! ## The check -/

/-- What an accepted check has established about an authorization that is
    declared for an action: it satisfies what the action needs, and unless it
    counts as satisfied already, a checker with the provided keys and
    permissions and the least delay under which it is declared says yes. -/
structure Checked (c : ChainView) (actions : List Action) (keys : List PublicKey)
    (permissions : List PermissionLevel) (providedDelay : Int)
    (satisfiedAuthorizations : List PermissionLevel) (act : Action) (auth : PermissionLevel) :
    Prop where
  needs : ∃ least, Needs c act auth least ∧ Meets c.state auth least
  held : auth ∉ satisfiedAuthorizations → ∃ d,
    IsLeast (delaysOf c (c.effectiveProvidedDelay providedDelay) actions auth) d ∧
      ((fresh c.authorities c.maxAuthorityDepth keys permissions d).satisfied auth).1 = true

/-- The key is marked when one of the declared authorizations is evaluated. -/
def UsedFor (c : ChainView) (actions : List Action) (keys : List PublicKey)
    (permissions : List PermissionLevel) (providedDelay : Int)
    (satisfiedAuthorizations : List PermissionLevel) (key : PublicKey) : Prop :=
  ∃ act ∈ actions, ∃ auth ∈ act.authorization, auth ∉ satisfiedAuthorizations ∧ ∃ d,
    IsLeast (delaysOf c (c.effectiveProvidedDelay providedDelay) actions auth) d ∧
      ((fresh c.authorities c.maxAuthorityDepth keys permissions d).satisfied auth).2.usedKeys
        key = true

/-- **EVERY DECLARED AUTHORITY IS CHECKED**: where `check_authorization`
    accepts, every declared authorization satisfies the minimum permission of
    its action and is held with the least delay under which it is declared,
    and every provided key was used for one of them. -/
theorem checkAuthorization_checked (c : ChainView) (actions : List Action) (keys : List PublicKey)
    (permissions : List PermissionLevel) (providedDelay : Int)
    (satisfiedAuthorizations : List PermissionLevel)
    (h : checkAuthorization c actions keys permissions providedDelay false
      satisfiedAuthorizations = .ok ()) :
    (∀ act ∈ actions, ∀ auth ∈ act.authorization,
        Checked c actions keys permissions providedDelay satisfiedAuthorizations act auth) ∧
      ∀ key ∈ keys, UsedFor c actions keys permissions providedDelay satisfiedAuthorizations
        key := by
  obtain ⟨m, hfirst, h⟩ := except_bind_ok h
  obtain ⟨ch', hsecond, h⟩ := except_bind_ok h
  obtain ⟨hneeds, hgathered⟩ := firstPass_ok .nil hfirst
  obtain ⟨hanswers, hkeys, hmarks⟩ := checkEntries_ok hsecond
  rw [nil_append] at hgathered
  -- an entry of the map, in terms of the actions
  have hentry : ∀ a d, (a, d) ∈ m → a ∉ satisfiedAuthorizations ∧
      IsLeast (delaysOf c (c.effectiveProvidedDelay providedDelay) actions a) d := by
    intro a d hmem
    obtain ⟨hin, hleast⟩ := hgathered.least a d hmem
    obtain ⟨hsat, hdelay⟩ := mem_declared.mp hin
    exact ⟨hsat, hdelay, fun e he => hleast (mem_declared.mpr ⟨hsat, he⟩)⟩
  constructor
  · intro act hact auth hauth
    refine ⟨(hneeds act hact).2 auth hauth, fun hsat => ?_⟩
    obtain ⟨d, hd⟩ := hgathered.complete auth _ (mem_declared.mpr ⟨hsat, act, hact, hauth, rfl⟩)
    exact ⟨d, (hentry auth d hd).2, hanswers auth d hd⟩
  · intro key hkey
    obtain hfalse | hused := eosAssert_ok h
    · cases hfalse
    · have hmark : ch'.usedKeys key = true := all_eq_true.mp hused key (hkeys ▸ hkey)
      obtain hold | ⟨a, d, hmem, hmark⟩ := hmarks key hmark
      · cases hold
      · obtain ⟨hsat, hleast⟩ := hentry a d hmem
        obtain ⟨act, hact, hauth, -⟩ := hleast.1
        exact ⟨act, hact, a, hauth, hsat, d, hleast, hmark⟩

/-! ## One signature -/

/-- An action of the token account that declares its active permission. -/
def ownAction : Action := ⟨tokenAccountName, ⟨7⟩, [activeLevel], []⟩

/-- The chain after genesis with one delayed transaction; the data of an action
    to be decoded makes a new permission or cancels that transaction. -/
def smallChain : ChainView where
  ctx := activeContext
  state := smallGenesis
  maxTransactionDelay := 3600
  maxAuthorityDepth := 6
  updateauth _ := .ok ⟨tokenAccountName, ⟨42⟩, activeName, keyAuthority [0, 2]⟩
  deleteauth _ := .error queryFailed
  linkauth _ := .error queryFailed
  unlinkauth _ := .error queryFailed
  canceldelay _ := .ok ⟨activeLevel, 5⟩
  generated trxId := if trxId = 5 then some ⟨noName, .ok [ownAction], 7000000, 0⟩ else none

/-- The active permission declared under the delay of the transaction that is
    cancelled, for a new permission, and without a delay. -/
def ownActions : List Action :=
  [⟨systemAccountName, canceldelayName, [activeLevel], []⟩,
    ⟨systemAccountName, updateauthName, [activeLevel], []⟩, ownAction]

theorem checkAuthorization_checked_own :
    (∀ act ∈ ownActions, ∀ auth ∈ act.authorization,
        Checked smallChain ownActions [[0, 1]] [] 0 [] act auth) ∧
      ∀ key ∈ [[0, 1]], UsedFor smallChain ownActions [[0, 1]] [] 0 [] key :=
  checkAuthorization_checked smallChain ownActions [[0, 1]] [] 0 [] (by decide +kernel)

end AuthCheck
