import EosForce.PermissionHeldProofs

/-! # What a permission can do to the permissions of its account

    Permission management is meant to stay below the permission that signs for
    it: nothing outside its subtree changes, and it gains no right to an action
    that it did not have.  Each of the four actions has a check of its own for
    that.

    The checks of a transaction are all made before its first action is
    applied.  An action may therefore meet another state than the one it was
    checked in, and there is one way in which this matters: the check of
    `updateauth` asks for the permission itself where that exists, and for the
    parent only where it does not.  A permission that is deleted and made again
    in the same transaction gets any parent.  Everything else is safe even with
    checks that are out of date, because what was outside the subtree then is
    outside now. -/

namespace PermissionRights

open ChainTypes TrxTypes Effect Authority RowTable StateTables Serial
  PermissionStore NativeActions NativeFrame PermissionForest PermissionHeld ParentChain

/-- The check that `check_authorization` makes for an action that is none of
    the special ones. -/
def checkOrdinary (s : State) (auth : PermissionLevel) (code type : Name) :
    Except FcException Unit := do
  match ← lookupMinimumPermission s auth.actor code type with
  | none => pure ()
  | some linked => do
      let least ← getPermission s.permissions ⟨auth.actor, linked⟩
      checkSatisfies s auth least
        "action declares irrelevant authority '$\x7bauth\x7d'; minimum authority is $\x7bmin\x7d"

/-- The declared permission is enough for an action. -/
def Grants (s : State) (level : PermissionLevel) (code type : Name) : Prop :=
  checkOrdinary s level code type = .ok ()

/-- A permission of the same account that is not in the subtree of `p`. -/
def Outside (s : State) (p q : PermissionObject) : Prop :=
  q ∈ s.permissions.rows ∧ q.owner = p.owner ∧ ¬ satisfied s.permissions p q

/-- Nothing outside the subtree of the permission has changed, and it has no
    right that it did not have. -/
structure Safe (s₀ : State) (p : PermissionObject) (level : PermissionLevel) (s : State) :
    Prop where
  outside : ∀ q, Outside s p q ↔ Outside s₀ p q
  rights : ∀ code type, Grants s level code type → Grants s₀ level code type

/-- A permission that the action makes gets a parent in the subtree. -/
def CreatesInside (s : State) (p : PermissionObject) : ManageAction → Prop
  | .updateauth update =>
    findByOwner s.permissions update.account update.permission = none →
      ∃ parent, findByOwner s.permissions update.account update.parent = some parent ∧
        satisfied s.permissions p parent
  | _ => True

/-- Transactions that declare one permission and manage the permissions of its
    account.  The third state is the one in which the present transaction was
    checked, the last one is the present one; the list has the state before
    each action. -/
inductive Managed (level : PermissionLevel) :
    State → List (State × ManageAction) → State → State → Prop where
  | start (s : State) : Managed level s [] s s
  | transaction {s₀ base s : State} {trace : List (State × ManageAction)} :
      Managed level s₀ trace base s → Managed level s₀ trace s s
  | action {s₀ base s s' : State} {trace : List (State × ManageAction)} {ctx : ActionContext}
      {action : ManageAction} {held : PermissionLevel → Bool} {keysUsed : Bool} :
      Managed level s₀ trace base s → ctx.onlyLinkToExistingPermission = true →
      ctx.authorization = [level] → action.account = level.actor →
      checkAuthorization ctx base action ctx.authorization held keysUsed = .ok () →
      action.apply ctx s = .ok () s' → Managed level s₀ (trace ++ [(s, action)]) base s'

/-! ## What the checks say -/

variable {s s' base s₀ : State} {level auth : PermissionLevel} {p q : PermissionObject}
  {u : Unit} {ctx : ActionContext} {code type : Name}

theorem checkSatisfies_ok {what : String} (h : checkSatisfies s auth q what = .ok u) :
    ∃ r, getPermission s.permissions auth = .ok r ∧ satisfied s.permissions r q := by
  obtain ⟨r, hr, h⟩ := except_bind_ok h
  exact ⟨r, hr, eosAssert_ok h⟩

variable {account : Name}

theorem soleAuthorization_ok {auths : List PermissionLevel} {one other : String}
    (h : soleAuthorization auths account one other = .ok auth) : auths = [auth] := by
  rcases auths with _ | ⟨a, _ | ⟨b, rest⟩⟩
  · cases h
  · obtain ⟨_, -, h⟩ := except_bind_ok h
    cases h
    rfl
  · cases h

/-- The declared permission satisfies `q`. -/
def Covers (s : State) (level : PermissionLevel) (q : PermissionObject) : Prop :=
  ∃ r, getPermission s.permissions level = .ok r ∧ satisfied s.permissions r q

theorem updateauth_checked {update : UpdateAuth}
    (h : checkUpdateauthAuthorization s update [level] = .ok u) :
    ∃ least, Covers s level least ∧
      (findByOwner s.permissions update.account update.permission = some least ∨
        (findByOwner s.permissions update.account update.permission = none ∧
          findByOwner s.permissions update.account update.parent = some least)) := by
  obtain ⟨auth, hauth, h⟩ := except_bind_ok h
  obtain rfl : level = auth := List.singleton_injective (soleAuthorization_ok hauth)
  obtain ⟨existing, hfind, h⟩ := except_bind_ok h
  obtain ⟨-, -, hfind⟩ := findPermission_ok hfind
  cases existing with
  | some r => exact ⟨r, checkSatisfies_ok h, .inl hfind⟩
  | none =>
    obtain ⟨least, hleast, h⟩ := except_bind_ok h
    exact ⟨least, checkSatisfies_ok h, .inr ⟨hfind, (getPermission_ok hleast).2.2⟩⟩

theorem deleteauth_checked {remove : DeleteAuth}
    (h : checkDeleteauthAuthorization s remove [level] = .ok u) :
    ∃ least, Covers s level least ∧
      findByOwner s.permissions remove.account remove.permission = some least := by
  obtain ⟨auth, hauth, h⟩ := except_bind_ok h
  obtain rfl : level = auth := List.singleton_injective (soleAuthorization_ok hauth)
  obtain ⟨least, hleast, h⟩ := except_bind_ok h
  exact ⟨least, checkSatisfies_ok h, (getPermission_ok hleast).2.2⟩

/-! ### Actions and their minimum permissions -/

/-- Not one of the actions that cannot be linked. -/
def Ordinary (code type : Name) : Prop :=
  code = systemAccountName → type ≠ updateauthName ∧ type ≠ deleteauthName ∧
    type ≠ linkauthName ∧ type ≠ unlinkauthName ∧ type ≠ canceldelayName

/-- The minimum permission for what is linked. -/
def minimum : Option Name → Option Name
  | none => some activeName
  | some linked => if linked = eosioAnyName then none else some linked

theorem lookupMinimum_eq (h : Ordinary code type) :
    lookupMinimumPermission s account code type =
      .ok (minimum (lookupLinkedPermission s account code type)) := by
  refine eosAssert_bind_ok_iff.mpr ⟨h, ?_⟩
  cases lookupLinkedPermission s account code type with
  | none => rfl
  | some linked => rfl

theorem ordinary_of_lookup {m : Option Name}
    (h : lookupMinimumPermission s account code type = .ok m) : Ordinary code type :=
  (eosAssert_bind_ok_iff.mp h).1

theorem grants_iff (h : Ordinary code type) :
    Grants s level code type ↔
      ∀ m, minimum (lookupLinkedPermission s level.actor code type) = some m →
        ∃ least, getPermission s.permissions ⟨level.actor, m⟩ = .ok least ∧
          Covers s level least := by
  rw [Grants, checkOrdinary, lookupMinimum_eq h]
  cases minimum (lookupLinkedPermission s level.actor code type) with
  | none =>
    refine iff_of_true rfl fun m hm => ?_
    cases hm
  | some m =>
    constructor
    · intro hcheck m' hm'
      cases hm'
      obtain ⟨_, hm, hcheck⟩ := except_bind_ok hcheck
      cases hm
      obtain ⟨least, hleast, hcheck⟩ := except_bind_ok hcheck
      exact ⟨least, hleast, checkSatisfies_ok hcheck⟩
    · intro hall
      obtain ⟨least, hleast, r, hr, hsat⟩ := hall m rfl
      show (getPermission s.permissions ⟨level.actor, m⟩ >>= fun least =>
        checkSatisfies s level least _) = _
      rw [hleast]
      show (getPermission s.permissions level >>= fun p => eosAssert _ _ _) = _
      rw [hr]
      exact eosAssert_ok_iff.mpr hsat

theorem ordinary_of_grants (h : Grants s level code type) : Ordinary code type := by
  obtain ⟨m, hm, -⟩ := except_bind_ok h
  exact ordinary_of_lookup hm

/-- The check of `linkauth` finds the minimum permission of the action. -/
theorem linkauth_least {link : LinkAuth}
    (h : checkLinkauthAuthorization ctx s link [level] = .ok u) :
    ∃ m, lookupMinimumPermission s link.account link.code link.type = .ok m ∧
      ∀ linked, m = some linked →
        ∃ least, getPermission s.permissions ⟨link.account, linked⟩ = .ok least ∧
          Covers s level least := by
  obtain ⟨auth, hauth, h⟩ := except_bind_ok h
  obtain rfl : level = auth := List.singleton_injective (soleAuthorization_ok hauth)
  split at h
  case' isTrue =>
    simp only [eosAssert_bind_ok_iff] at h
    replace h := h.2.2.2.2.2
  -- with and without the five asserts the rest is the same
  all_goals
    obtain ⟨m, hm, h⟩ := except_bind_ok h
    refine ⟨m, hm, ?_⟩
    rintro linked rfl
    obtain ⟨least, hleast, h⟩ := except_bind_ok h
    exact ⟨least, hleast, checkSatisfies_ok h⟩

/-- A link is only changed by who could send the action. -/
theorem linkauth_checked {link : LinkAuth} (haccount : link.account = level.actor)
    (h : checkLinkauthAuthorization ctx s link [level] = .ok u) :
    Grants s level link.code link.type := by
  obtain ⟨m, hm, hleast⟩ := linkauth_least h
  have hordinary := ordinary_of_lookup hm
  rw [lookupMinimum_eq hordinary] at hm
  rw [grants_iff hordinary, ← haccount]
  intro m' hm'
  exact hleast m' ((Except.ok.inj hm).symm.trans hm')

/-- The check of `unlinkauth` finds the permission that is linked. -/
theorem unlinkauth_least {unlink : UnlinkAuth}
    (h : checkUnlinkauthAuthorization s unlink [level] = .ok u) :
    ∃ linked, lookupLinkedPermission s unlink.account unlink.code unlink.type = some linked ∧
      ∀ m, minimum (some linked) = some m →
        ∃ least, getPermission s.permissions ⟨unlink.account, m⟩ = .ok least ∧
          Covers s level least := by
  obtain ⟨auth, hauth, h⟩ := except_bind_ok h
  obtain rfl : level = auth := List.singleton_injective (soleAuthorization_ok hauth)
  cases hlinked : lookupLinkedPermission s unlink.account unlink.code unlink.type with
  | none =>
    rw [hlinked] at h
    cases h
  | some linked =>
    rw [hlinked] at h
    refine ⟨linked, rfl, fun m hm => ?_⟩
    rw [minimum] at hm
    split at hm
    · cases hm
    · rename_i hany
      cases hm
      obtain ⟨least, hleast, h⟩ := except_bind_ok ((if_neg hany).symm.trans h)
      exact ⟨least, hleast, checkSatisfies_ok h⟩

theorem unlinkauth_checked {unlink : UnlinkAuth} (haccount : unlink.account = level.actor)
    (h : checkUnlinkauthAuthorization s unlink [level] = .ok u)
    (hordinary : Ordinary unlink.code unlink.type) : Grants s level unlink.code unlink.type := by
  obtain ⟨linked, hlinked, hleast⟩ := unlinkauth_least h
  rw [grants_iff hordinary, ← haccount, hlinked]
  exact hleast

/-! ## Subtrees -/

/-- Everything on the way up from a permission is there. -/
theorem above_mem (hs : Sound True s) {a : Nat} (hq : q ∈ s.permissions.rows)
    (h : Above (parentOf s.permissions) a q.id) : ∃ r ∈ s.permissions.rows, r.id = a := by
  obtain ⟨k, hk⟩ := h
  induction k generalizing q with
  | zero => exact ⟨q, hq, hk⟩
  | succ k ih =>
    obtain ⟨r, hr, hid, -⟩ := hs.forest.parent_mem hq
    refine ih hr ?_
    rw [hid, ← parentOf_mem hq]
    exact hk

theorem findByOwner_of_mem (hs : Sound True s) (hq : q ∈ s.permissions.rows) :
    findByOwner s.permissions q.owner q.name = some q := by
  cases hfind : findByOwner s.permissions q.owner q.name with
  | none => exact absurd ⟨rfl, rfl⟩ (findByOwner_none hfind q hq)
  | some r =>
    obtain ⟨hr, howner, hname⟩ := findByOwner_some hfind
    rw [hs.forest.unique r hr q hq howner hname]

/-- `satisfies` looks at nothing but the owner and the number of the first. -/
theorem satisfied_congr (hs : Sound True s) {p' : PermissionObject} (hq : q ∈ s.permissions.rows)
    (howner : p'.owner = p.owner) (hid : p'.id = p.id) :
    satisfied s.permissions p' q ↔ satisfied s.permissions p q := by
  rw [satisfied_iff hs.forest hq, satisfied_iff hs.forest hq, howner, hid]

/-- Rows that come and go are in the subtree, and the others have the same
    ancestors. -/
theorem outside_iff_of (hs : Sound True s) (hs' : Sound True s')
    (hgone : ∀ q ∈ s.permissions.rows, q ∉ s'.permissions.rows →
      Above (parentOf s.permissions) p.id q.id)
    (hnew : ∀ q ∈ s'.permissions.rows, q ∉ s.permissions.rows →
      Above (parentOf s'.permissions) p.id q.id)
    (hchain : ∀ q ∈ s.permissions.rows, q ∈ s'.permissions.rows →
      (Above (parentOf s'.permissions) p.id q.id ↔ Above (parentOf s.permissions) p.id q.id)) :
    ∀ q, Outside s' p q ↔ Outside s p q := by
  intro q
  constructor
  · rintro ⟨hq', howner, hout⟩
    rw [satisfied_iff hs'.forest hq'] at hout
    have hq : q ∈ s.permissions.rows := by
      by_contra hq
      exact hout ⟨howner.symm, hnew q hq' hq⟩
    refine ⟨hq, howner, ?_⟩
    rw [satisfied_iff hs.forest hq, ← hchain q hq hq']
    exact hout
  · rintro ⟨hq, howner, hout⟩
    rw [satisfied_iff hs.forest hq] at hout
    have hq' : q ∈ s'.permissions.rows := by
      by_contra hq'
      exact hout ⟨howner.symm, hgone q hq hq'⟩
    refine ⟨hq', howner, ?_⟩
    rw [satisfied_iff hs'.forest hq', hchain q hq hq']
    exact hout

theorem outside_same (h : s'.permissions = s.permissions) :
    ∀ q, Outside s' p q ↔ Outside s p q := by
  intro q
  rw [Outside, Outside, h]

/-- Another authority for a permission in the subtree. -/
theorem outside_assigned (hs : Sound True s) (hs' : Sound True s') {n : Nat}
    {f : PermissionObject → PermissionObject} {hf : ∀ p, (f p).id = p.id}
    (hpermissions : s'.permissions = s.permissions.modify n f hf)
    (hparent : ∀ p, (f p).parent = p.parent) (hin : Above (parentOf s.permissions) p.id n) :
    ∀ q, Outside s' p q ↔ Outside s p q := by
  have hup : parentOf s'.permissions = parentOf s.permissions := by
    funext m
    rw [parentOf, parentOf, hpermissions, find_modify]
    by_cases hm : m = n
    · rw [if_pos hm, hm, Option.map_map]
      cases s.permissions.find n with
      | none => rfl
      | some r => exact hparent r
    · rw [if_neg hm]
  refine outside_iff_of hs hs' (fun q hq hgone => ?_)
    (fun q hq' hnew => ?_) fun q _ _ => by rw [hup]
  · by_cases hid : q.id = n
    · rw [hid]
      exact hin
    · refine absurd ?_ hgone
      rw [hpermissions]
      exact mem_modify.mpr ⟨q, hq, if_neg hid⟩
  · rw [hpermissions] at hq'
    obtain ⟨r, hr, hrq⟩ := mem_modify.mp hq'
    by_cases hid : r.id = n
    · rw [if_pos hid] at hrq
      rw [← hrq, hf r, hid, hup]
      exact hin
    · rw [if_neg hid] at hrq
      exact absurd (hrq ▸ hr) hnew

/-- What is added is the only row without a place before. -/
theorem parentOf_added {account name : Name} {parent time : Nat} {auth : Auth} {m : Nat} :
    parentOf (addPermission account name parent auth time s).permissions m =
      if m = s.permissions.next then parent else parentOf s.permissions m := by
  show ((Serial.find (s.permissions.push _ _) m).map (·.parent)).getD 0 = _
  rw [find_push]
  split
  · rfl
  · rfl

/-- The new row has the next number. -/
theorem mem_added {account name : Name} {parent time : Nat} {auth : Auth} :
    ∃ q ∈ (addPermission account name parent auth time s).permissions.rows,
      q.id = s.permissions.next ∧ q.owner = account :=
  ⟨_, (mem_push _).mpr (.inr rfl), rfl, rfl⟩

/-- The way up from a row of before does not meet the new row. -/
theorem above_added (hs : Sound True s) {account name : Name} {parent time a : Nat} {auth : Auth}
    (hq : q ∈ s.permissions.rows) :
    Above (parentOf (addPermission account name parent auth time s).permissions) a q.id ↔
      Above (parentOf s.permissions) a q.id := by
  refine above_congr fun m hm => ?_
  have hle := hs.forest.chain.above_le hm
  have hlt := s.permissions.below q hq
  rw [parentOf_added, if_neg (by omega)]

/-- A new permission is in the subtree where its parent is. -/
theorem above_new (hs : Sound True s) {account name : Name} {time a : Nat} {auth : Auth}
    {parent : PermissionObject} (hparent : parent ∈ s.permissions.rows)
    (ha : a < s.permissions.next) :
    Above (parentOf (addPermission account name parent.id auth time s).permissions) a
        s.permissions.next ↔ Above (parentOf s.permissions) a parent.id := by
  rw [above_iff, parentOf_added, if_pos rfl, above_added hs hparent]
  exact or_iff_right (Nat.ne_of_lt ha)

/-- No way up from another row meets a row without children. -/
theorem above_dropped (hs : Sound True s) {r : PermissionObject} {a : Nat}
    (hleaf : ∀ x ∈ s.permissions.rows, x.parent ≠ r.id) (hq : q ∈ s.permissions.rows)
    (hne : q.id ≠ r.id) :
    Above (parentOf (dropPermission r s).permissions) a q.id ↔
      Above (parentOf s.permissions) a q.id := by
  refine above_congr fun m hm => ?_
  have hother : m ≠ r.id := by
    rintro rfl
    obtain ⟨k, hk⟩ := hm
    clear a
    induction k generalizing q with
    | zero => exact hne hk
    | succ k ih =>
      obtain ⟨x, hx, hid, -⟩ := hs.forest.parent_mem hq
      refine ih hx (hid ▸ hleaf q hq) ?_
      rw [hid, ← parentOf_mem hq]
      exact hk
  show ((Serial.find (s.permissions.erase r.id) m).map (·.parent)).getD 0 = _
  rw [find_erase, if_neg hother]
  rfl

/-! ## What no action undoes -/

/-- Numbers are not used again, and a permission keeps its owner and name. -/
structure Grown (s s' : State) : Prop where
  next : s.permissions.next ≤ s'.permissions.next
  old : ∀ q ∈ s'.permissions.rows, q.id < s.permissions.next →
    ∃ r ∈ s.permissions.rows, r.id = q.id ∧ r.owner = q.owner ∧ r.name = q.name

theorem Grown.of_same (h : s'.permissions = s.permissions) : Grown s s' where
  next := by rw [h]
  old := fun q hq _ => ⟨q, h ▸ hq, rfl, rfl, rfl⟩

theorem Grown.trans {a b c : State} (h : Grown a b) (h' : Grown b c) : Grown a c where
  next := Nat.le_trans h.next h'.next
  old := by
    intro q hq hlt
    obtain ⟨r, hr, hid, howner, hname⟩ := h'.old q hq (Nat.lt_of_lt_of_le hlt h.next)
    obtain ⟨x, hx, hid', howner', hname'⟩ := h.old r hr (hid ▸ hlt)
    exact ⟨x, hx, hid'.trans hid, howner'.trans howner, hname'.trans hname⟩

variable {action : ManageAction}

theorem linkauth_permissions {link : LinkAuth} (h : linkauth ctx link s = .ok u s') :
    s'.permissions = s.permissions := by
  obtain ⟨-, -, ⟨hfree, r, -, rfl⟩ | ⟨-, rfl⟩⟩ := linkauth_ok h
  · rfl
  · rfl

theorem unlinkauth_permissions {unlink : UnlinkAuth} (h : unlinkauth ctx unlink s = .ok u s') :
    s'.permissions = s.permissions := by
  obtain ⟨l, r, -, -, rfl⟩ := unlinkauth_ok h
  rfl

theorem grown_manage : Keeps Grown (action.apply ctx) := by
  intro s u s' h
  cases action with
  | updateauth update =>
    obtain ⟨-, -, -, parent, -, ⟨p, r, -, -, -, rfl⟩ | ⟨-, r, -, rfl⟩⟩ := updateauth_ok h
    · refine ⟨Nat.le_refl _, fun q hq _ => ?_⟩
      obtain ⟨x, hx, rfl⟩ := mem_modify.mp hq
      refine ⟨x, hx, ?_⟩
      split
      · exact ⟨rfl, rfl, rfl⟩
      · exact ⟨rfl, rfl, rfl⟩
    · refine ⟨Nat.le_succ _, fun q hq hlt => ?_⟩
      rcases (mem_push _).mp hq with hq | rfl
      · exact ⟨q, hq, rfl, rfl, rfl⟩
      · exact absurd hlt (Nat.lt_irrefl _)
  | deleteauth remove =>
    obtain ⟨-, -, -, -, p, r, -, -, -, rfl⟩ := deleteauth_ok h
    exact ⟨Nat.le_refl _, fun q hq _ => ⟨q, (mem_erase.mp hq).1, rfl, rfl, rfl⟩⟩
  | linkauth link => exact Grown.of_same (linkauth_permissions h)
  | unlinkauth unlink => exact Grown.of_same (unlinkauth_permissions h)

/-- What holds along every run, whatever is created where. -/
structure Ongoing (s₀ : State) (p : PermissionObject) (s : State) : Prop where
  sound : Sound True s
  held : Held s
  account : p.owner ∈ names s
  grown : Grown s₀ s

theorem Ongoing.manage (h : Ongoing s₀ p s) (hctx : ctx.onlyLinkToExistingPermission = true)
    (happly : action.apply ctx s = .ok u s') : Ongoing s₀ p s' where
  sound := sound_manage (fun _ => hctx) s u s' happly h.sound
  held := held_manage s u s' happly h.held
  account := by
    rw [names, (onlyPermissions_manage s u s' happly).accounts]
    exact h.account
  grown := h.grown.trans (grown_manage s u s' happly)

/-- The permission with which it all began is among the numbers in use. -/
theorem Ongoing.lt_next (h : Ongoing s₀ p s) (hp : p ∈ s₀.permissions.rows) :
    p.id < s.permissions.next :=
  Nat.lt_of_lt_of_le (s₀.permissions.below p hp) h.grown.next

/-- What has its number still has its owner and name. -/
theorem Ongoing.same_name (h : Ongoing s₀ p s) (hp : p ∈ s₀.permissions.rows)
    (hq : q ∈ s.permissions.rows) (hid : q.id = p.id) : q.owner = p.owner ∧ q.name = p.name := by
  obtain ⟨r, hr, hrid, howner, hname⟩ := h.grown.old q hq (hid ▸ s₀.permissions.below p hp)
  have heq : r = p := Table.eq_of_key (t := s₀.permissions.table) hr hp (hrid.trans hid)
  rw [← howner, ← hname, heq]
  exact ⟨rfl, rfl⟩

/-- Nothing outside the subtree has changed so far. -/
structure Kept (s₀ : State) (p : PermissionObject) (s : State) : Prop extends Ongoing s₀ p s where
  outside : ∀ q, Outside s p q ↔ Outside s₀ p q

/-- Links have nothing to do with it. -/
theorem Kept.relinked (h : Kept s₀ p s) (hctx : ctx.onlyLinkToExistingPermission = true)
    (happly : action.apply ctx s = .ok u s') (hsame : s'.permissions = s.permissions) :
    Kept s₀ p s' :=
  ⟨h.toOngoing.manage hctx happly, fun x => (outside_same hsame x).trans (h.outside x)⟩

section Kept

variable (hs₀ : Sound True s₀) (hp : p ∈ s₀.permissions.rows)
include hs₀ hp

/-- The name of the permission has not gone to another one. -/
theorem Kept.same_id (h : Kept s₀ p s) (hq : q ∈ s.permissions.rows) (howner : q.owner = p.owner)
    (hname : q.name = p.name) : q.id = p.id := by
  by_cases hsat : satisfied s.permissions p q
  · obtain ⟨-, habove⟩ := (satisfied_iff h.sound.forest hq).mp hsat
    obtain ⟨r, hr, hid⟩ := above_mem h.sound hq habove
    obtain ⟨hro, hrn⟩ := h.same_name hp hr hid
    rw [← hid, h.sound.forest.unique q hq r hr (howner.trans hro.symm) (hname.trans hrn.symm)]
  · obtain ⟨hq0, -, -⟩ := (h.outside q).mp ⟨hq, howner, hsat⟩
    rw [hs₀.forest.unique q hq0 p hp howner hname]

variable (hlevel : getPermission s₀.permissions level = .ok p)
include hlevel

/-- The declared permission covers what is below the first one. -/
theorem Kept.covers_iff (h : Kept s₀ p s) (hq : q ∈ s.permissions.rows) :
    Covers s level q ↔ satisfied s.permissions p q := by
  obtain ⟨hactor, hpermission, hfind⟩ := getPermission_ok hlevel
  obtain ⟨-, hpo, hpn⟩ := findByOwner_some hfind
  constructor
  · rintro ⟨r, hr, hsat⟩
    obtain ⟨hr, hro, hrn⟩ := findByOwner_some (getPermission_ok hr).2.2
    have hid := h.same_id hs₀ hp hr (hro.trans hpo.symm) (hrn.trans hpn.symm)
    exact (satisfied_congr h.sound hq (hro.trans hpo.symm) hid).mp hsat
  · intro hsat
    obtain ⟨-, habove⟩ := (satisfied_iff h.sound.forest hq).mp hsat
    obtain ⟨r, hr, hid⟩ := above_mem h.sound hq habove
    obtain ⟨hro, hrn⟩ := h.same_name hp hr hid
    refine ⟨r, ?_, (satisfied_congr h.sound hq hro hid).mpr hsat⟩
    have hget := findByOwner_of_mem h.sound hr
    rw [hro, hrn, hpo, hpn] at hget
    rw [getPermission, findPermission, if_pos ⟨hactor, hpermission⟩, hget]
    rfl

variable (hb : Kept s₀ p base) (h : Kept s₀ p s)
include hb h

/-- What was covered when the transaction was checked, or was not there, is
    in the subtree now: outside it is nothing that has changed since. -/
theorem Kept.below {name : Name} (hfind : findByOwner s.permissions level.actor name = some q)
    (hchecked : ∀ r, findByOwner base.permissions level.actor name = some r → Covers base level r) :
    Above (parentOf s.permissions) p.id q.id := by
  obtain ⟨-, hpo, -⟩ := findByOwner_some (getPermission_ok hlevel).2.2
  obtain ⟨hq, hqo, rfl⟩ := findByOwner_some hfind
  refine ((satisfied_iff h.sound.forest hq).mp ?_).2
  by_contra hsat
  have hout := (hb.outside q).mpr ((h.outside q).mp ⟨hq, hqo.trans hpo.symm, hsat⟩)
  have hcovers := hchecked q (hqo ▸ findByOwner_of_mem hb.sound hout.1)
  exact hout.2.2 ((hb.covers_iff hs₀ hp hlevel hout.1).mp hcovers)

variable (hctx : ctx.onlyLinkToExistingPermission = true)
include hctx

theorem Kept.updateauth {update : UpdateAuth} (haccount : update.account = level.actor)
    (hcheck : checkUpdateauthAuthorization base update [level] = .ok ())
    (hinside : CreatesInside s p (.updateauth update))
    (happly : (ManageAction.updateauth update).apply ctx s = .ok u s') : Kept s₀ p s' := by
  have hlater := h.toOngoing.manage hctx happly
  refine ⟨hlater, fun x => Iff.trans ?_ (h.outside x)⟩
  obtain ⟨-, hpo, -⟩ := findByOwner_some (getPermission_ok hlevel).2.2
  obtain ⟨least, hcovers, hleast⟩ := updateauth_checked hcheck
  obtain ⟨-, -, -, parent, hparent, ⟨q, r, hfind, -, -, rfl⟩ | ⟨hfree, r, -, rfl⟩⟩ :=
    updateauth_ok happly
  · refine outside_assigned h.sound hlater.sound rfl (fun _ => rfl)
      (Kept.below hs₀ hp hlevel hb h (haccount ▸ hfind) fun found hfound => ?_) x
    rw [← haccount] at hfound
    rcases hleast with hsome | ⟨hnone, -⟩
    · rw [Option.some.inj (hfound.symm.trans hsome)]
      exact hcovers
    · cases hfound.symm.trans hnone
  · rcases hparent with ⟨hname, -⟩ | ⟨-, -, q, hq, rfl⟩
    · -- the account has its owner permission already
      obtain ⟨y, hy, hyo, hyn⟩ := (h.held.owned _ h.account).1
      refine absurd ⟨?_, hyn.trans hname.symm⟩ (findByOwner_none hfree y hy)
      exact hyo.trans (hpo.trans haccount.symm)
    · obtain ⟨q', hq', hsat⟩ := hinside hfree
      obtain rfl : q = q' := Option.some.inj (hq.symm.trans hq')
      have hqmem := (findByOwner_some hq).1
      obtain ⟨-, habove⟩ := (satisfied_iff h.sound.forest hqmem).mp hsat
      refine outside_iff_of h.sound hlater.sound (fun y hy hgone => ?_) (fun y hy hnew => ?_)
        (fun y hy _ => above_added h.sound hy) x
      · exact absurd ((mem_push _).mpr (.inl hy)) hgone
      · rcases (mem_push _).mp hy with hy | rfl
        · exact absurd hy hnew
        · exact (above_new h.sound hqmem (h.lt_next hp)).mpr habove

theorem Kept.deleteauth {remove : DeleteAuth} (haccount : remove.account = level.actor)
    (hcheck : checkDeleteauthAuthorization base remove [level] = .ok ())
    (happly : (ManageAction.deleteauth remove).apply ctx s = .ok u s') : Kept s₀ p s' := by
  have hlater := h.toOngoing.manage hctx happly
  refine ⟨hlater, fun x => Iff.trans ?_ (h.outside x)⟩
  obtain ⟨least, hcovers, hleast⟩ := deleteauth_checked hcheck
  obtain ⟨-, -, -, -, q, r, hfind, hleaf, -, rfl⟩ := deleteauth_ok happly
  have habove := Kept.below hs₀ hp hlevel hb h (haccount ▸ hfind) fun found hfound => by
    rw [← haccount] at hfound
    rw [Option.some.inj (hfound.symm.trans hleast)]
    exact hcovers
  refine outside_iff_of h.sound hlater.sound (fun y hy hgone => ?_) (fun y hy hnew => ?_)
    (fun y hy hstays => above_dropped h.sound hleaf hy (mem_erase.mp hstays).2) x
  · by_cases hid : y.id = q.id
    · rw [hid]
      exact habove
    · exact absurd (mem_erase.mpr ⟨hy, hid⟩) hgone
  · exact absurd (mem_erase.mp hy).1 hnew

theorem Kept.manage (haccount : action.account = level.actor)
    (hcheck : checkSpecial ctx base [level] action = .ok ()) (hinside : CreatesInside s p action)
    (happly : action.apply ctx s = .ok u s') : Kept s₀ p s' := by
  cases action with
  | updateauth update =>
    exact Kept.updateauth hs₀ hp hlevel hb h hctx haccount hcheck hinside happly
  | deleteauth remove => exact Kept.deleteauth hs₀ hp hlevel hb h hctx haccount hcheck happly
  | linkauth link => exact h.relinked hctx happly (linkauth_permissions happly)
  | unlinkauth unlink => exact h.relinked hctx happly (unlinkauth_permissions happly)

end Kept

/-! ## Links -/

/-- Since the transaction was checked, nothing has been linked that the declared
    permission had no right to. -/
def Since (level : PermissionLevel) (base s : State) : Prop :=
  ∀ code type, Ordinary code type → ¬ Grants base level code type →
    s.links.find (level.actor, code, type) = base.links.find (level.actor, code, type)

theorem find_modified (links : Table PermissionLink.key) {k k' : Name × Name × Name}
    (f : PermissionLink → PermissionLink) (hf : ∀ l, (f l).key = l.key) (hne : k' ≠ k) :
    (links.modify k f hf).find k' = links.find k' := by
  rw [Table.find_modify, if_neg hne]

theorem since_manage (h : Since level base s) (haccount : action.account = level.actor)
    (hcheck : checkSpecial ctx base [level] action = .ok ())
    (happly : action.apply ctx s = .ok u s') : Since level base s' := by
  intro code type hordinary hgrants
  refine Eq.trans ?_ (h code type hordinary hgrants)
  have hother : ∀ k : Name × Name × Name,
      (Ordinary k.2.1 k.2.2 → Grants base level k.2.1 k.2.2) → (level.actor, code, type) ≠ k := by
    rintro k hk rfl
    exact hgrants (hk hordinary)
  cases action with
  | updateauth update =>
    obtain ⟨-, -, -, parent, -, ⟨q, r, -, -, -, rfl⟩ | ⟨-, r, -, rfl⟩⟩ := updateauth_ok happly
    · rfl
    · rfl
  | deleteauth remove =>
    obtain ⟨-, -, -, -, q, r, -, -, -, rfl⟩ := deleteauth_ok happly
    rfl
  | linkauth link =>
    have hne := hother link.key fun _ => linkauth_checked haccount hcheck
    obtain ⟨-, -, ⟨hfree, r, -, rfl⟩ | ⟨-, rfl⟩⟩ := linkauth_ok happly
    · show (s.links.insert _ hfree).find _ = _
      rw [Table.find_insert]
      exact if_neg hne
    · exact find_modified s.links (fun l => { l with requiredPermission := link.requirement })
        (fun _ => rfl) hne
  | unlinkauth unlink =>
    have hne := hother unlink.key (unlinkauth_checked haccount hcheck)
    obtain ⟨l, r, -, -, rfl⟩ := unlinkauth_ok happly
    show (s.links.erase _).find _ = _
    rw [Table.find_erase, if_neg hne]

/-- The default link of a contract is an ordinary one. -/
theorem ordinary_default (code : Name) : Ordinary code noName := by
  intro _
  decide

/-- Where an action has no link of its own, the right to it is the right to the
    default. -/
theorem lookupLinked_default (h : s.links.find (account, code, type) = none) :
    lookupLinkedPermission s account code type = lookupLinkedPermission s account code noName := by
  rw [lookupLinkedPermission, lookupLinkedPermission, h]
  cases s.links.find (account, code, noName) with
  | none => rfl
  | some l => rfl

theorem lookupLinked_since (h : Since level base s) (hordinary : Ordinary code type)
    (hgrants : ¬ Grants base level code type) :
    lookupLinkedPermission s level.actor code type =
      lookupLinkedPermission base level.actor code type := by
  have hown := h code type hordinary hgrants
  cases hfind : base.links.find (level.actor, code, type) with
  | some l => rw [lookupLinkedPermission, lookupLinkedPermission, hown, hfind]
  | none =>
    have hdefault : ¬ Grants base level code noName := by
      rw [grants_iff hordinary, lookupLinked_default hfind] at hgrants
      rw [grants_iff (ordinary_default code)]
      exact hgrants
    rw [lookupLinked_default hfind, lookupLinked_default (hown.trans hfind),
      lookupLinkedPermission, lookupLinkedPermission,
        h code noName (ordinary_default code) hdefault]

/-- Links lead to permissions that are there, and so does the default. -/
theorem minimum_named (h : Ongoing s₀ p s) {m : Name}
    (hm : minimum (lookupLinkedPermission s p.owner code type) = some m) : Named s p.owner m := by
  have hfound : ∀ name l, s.links.find (p.owner, code, name) = some l →
      minimum (some l.requiredPermission) = some m → Named s p.owner m := by
    intro name l hl hm
    obtain ⟨hmem, hkey⟩ := Table.find_some hl
    rw [minimum] at hm
    split at hm
    · cases hm
    · rename_i hany
      cases hm
      rw [← show l.account = p.owner from congrArg (fun k : Name × Name × Name => k.1) hkey]
      exact (h.sound.links trivial l hmem).resolve_left hany
  rw [lookupLinkedPermission] at hm
  cases hown : s.links.find (p.owner, code, type) with
  | some l =>
    rw [hown] at hm
    exact hfound type l hown hm
  | none =>
    rw [hown] at hm
    cases hdefault : s.links.find (p.owner, code, noName) with
    | some l =>
      rw [hdefault] at hm
      exact hfound noName l hdefault hm
    | none =>
      rw [hdefault] at hm
      cases hm
      exact (h.held.owned _ h.account).2

/-- A right that the declared permission has was there when the transaction was
    checked. -/
theorem grants_since (hs₀ : Sound True s₀) (hlevel : getPermission s₀.permissions level = .ok p)
    (hb : Kept s₀ p base) (h : Kept s₀ p s) (hsince : Since level base s)
    (hgrants : Grants s level code type) : Grants base level code type := by
  by_contra hnot
  obtain ⟨hactor, -, hfind⟩ := getPermission_ok hlevel
  obtain ⟨hp, hpo, -⟩ := findByOwner_some hfind
  have hordinary := ordinary_of_grants hgrants
  have hsame := lookupLinked_since hsince hordinary hnot
  rw [grants_iff hordinary, hsame] at hgrants
  refine hnot ((grants_iff hordinary).mpr fun m hm => ?_)
  obtain ⟨least, hleast, hcovers⟩ := hgrants m hm
  obtain ⟨-, hmne, hfound⟩ := getPermission_ok hleast
  obtain ⟨hmem, hlo, hln⟩ := findByOwner_some hfound
  obtain ⟨q, hq, hqo, hqn⟩ := minimum_named hb.toOngoing (hpo ▸ hm)
  have hqfind := findByOwner_of_mem hb.sound hq
  rw [hqo, hqn, hpo] at hqfind
  refine ⟨q, ?_, (hb.covers_iff hs₀ hp hlevel hq).mpr ?_⟩
  · rw [getPermission, findPermission, if_pos ⟨hactor, hmne⟩, hqfind]
    rfl
  · by_contra hsat
    obtain ⟨hqs, -, hnsat⟩ := (h.outside q).mpr ((hb.outside q).mp ⟨hq, hqo, hsat⟩)
    have heq : q = least :=
      h.sound.forest.unique q hqs least hmem (hqo.trans (hpo.trans hlo.symm)) (hqn.trans hln.symm)
    rw [heq] at hnsat
    exact hnsat ((h.covers_iff hs₀ hp hlevel hmem).mp hcovers)

/-! ## Whole runs -/

theorem checkAuthorization_special {held : PermissionLevel → Bool} {keysUsed : Bool}
    {auths : List PermissionLevel}
    (h : checkAuthorization ctx s action auths held keysUsed = .ok ()) :
    checkSpecial ctx s auths action = .ok () := by
  obtain ⟨_, hspecial, -⟩ := except_bind_ok h
  exact hspecial

variable {trace : List (State × ManageAction)}

theorem ongoing_run (hstart : Ongoing s₀ p s₀) (h : Managed level s₀ trace base s) :
    Ongoing s₀ p s := by
  induction h with
  | start => exact hstart
  | transaction _ ih => exact ih
  | action _ hctx _ _ _ happly ih => exact ih.manage hctx happly

/-- What carries the induction: nothing outside has changed until the check and
    until now, and the links only as the check allows. -/
structure Progress (s₀ : State) (p : PermissionObject) (level : PermissionLevel) (base s : State) :
    Prop where
  checked : Kept s₀ p base
  now : Kept s₀ p s
  since : Since level base s
  rights : ∀ code type, Grants base level code type → Grants s₀ level code type

theorem Progress.safe (h : Progress s₀ p level base s) (hs₀ : Sound True s₀)
    (hlevel : getPermission s₀.permissions level = .ok p) : Safe s₀ p level s where
  outside := h.now.outside
  rights := by
    intro code type hgrants
    exact h.rights code type (grants_since hs₀ hlevel h.checked h.now h.since hgrants)

/-- A permission that is made outside the subtree is one more there. -/
theorem inside_of_safe (h : Ongoing s₀ p s) (hp : p ∈ s₀.permissions.rows)
    (haccount : action.account = p.owner) (hctx : ctx.onlyLinkToExistingPermission = true)
    (happly : action.apply ctx s = .ok u s') (hsafe : Safe s₀ p level s') :
    CreatesInside s p action := by
  have hlater := h.manage hctx happly
  cases action with
  | updateauth update =>
    intro hfree
    obtain ⟨-, -, -, parent, hparent, ⟨q, r, hfind, -⟩ | ⟨-, r, -, rfl⟩⟩ := updateauth_ok happly
    · cases hfree.symm.trans hfind
    rcases hparent with ⟨hname, -⟩ | ⟨-, -, q, hq, rfl⟩
    · -- the account has its owner permission already
      obtain ⟨y, hy, hyo, hyn⟩ := (h.held.owned _ h.account).1
      exact absurd ⟨hyo.trans haccount.symm, hyn.trans hname.symm⟩ (findByOwner_none hfree y hy)
    · refine ⟨q, hq, ?_⟩
      obtain ⟨hqmem, hqo, -⟩ := findByOwner_some hq
      by_contra hsat
      rw [satisfied_iff h.sound.forest hqmem] at hsat
      obtain ⟨y, hy, hid, howner⟩ := @mem_added s update.account update.permission q.id
        ctx.pendingBlockTime update.auth
      refine absurd h.grown.next (Nat.not_le.mpr ?_)
      rw [← hid]
      refine s₀.permissions.below y ((hsafe.outside y).mp
        ⟨hy, howner.trans haccount, fun hsat' => ?_⟩).1
      obtain ⟨-, habove⟩ := (satisfied_iff hlater.sound.forest hy).mp hsat'
      rw [hid] at habove
      exact hsat ⟨haccount.symm.trans hqo.symm,
        (above_new h.sound hqmem (h.lt_next hp)).mp habove⟩
  | _ => exact trivial

section Run

variable (hstart : Ongoing s₀ p s₀) (hlevel : getPermission s₀.permissions level = .ok p)
include hstart hlevel

/-- **RUN**: as long as no permission is made outside the subtree, all is safe. -/
theorem progress_run (h : Managed level s₀ trace base s)
    (hinside : ∀ x ∈ trace, Kept s₀ p x.1 → CreatesInside x.1 p x.2) :
    (∀ x ∈ trace, Safe s₀ p level x.1) ∧ Progress s₀ p level base s := by
  obtain ⟨hp, -, -⟩ := findByOwner_some (getPermission_ok hlevel).2.2
  induction h with
  | start =>
    have hkept : Kept s₀ p s₀ := ⟨hstart, fun _ => Iff.rfl⟩
    refine ⟨fun x hx => (List.not_mem_nil hx).elim, hkept, hkept, ?_, fun _ _ hgrants => hgrants⟩
    exact fun _ _ _ _ => rfl
  | transaction _ ih =>
    obtain ⟨hsafe, hnow⟩ := ih hinside
    refine ⟨hsafe, hnow.now, hnow.now, fun _ _ _ _ => rfl, ?_⟩
    exact (hnow.safe hstart.sound hlevel).rights
  | action hrun hctx hauth haccount hcheck happly ih =>
    obtain ⟨hsafe, hnow⟩ := ih fun x hx => hinside x (List.mem_append_left _ hx)
    rw [hauth] at hcheck
    have hspecial := checkAuthorization_special hcheck
    have hlast := hinside _ (List.mem_append_right _ (List.mem_singleton.mpr rfl)) hnow.now
    refine ⟨List.forall_mem_append.mpr ⟨hsafe, ?_⟩, hnow.checked, ?_, ?_, hnow.rights⟩
    · exact List.forall_mem_singleton.mpr (hnow.safe hstart.sound hlevel)
    · exact Kept.manage hstart.sound hp hlevel hnow.checked hnow.now hctx haccount hspecial hlast
        happly
    · exact since_manage hnow.since haccount hspecial happly

theorem inside_run (h : Managed level s₀ trace base s)
    (hsafe : ∀ x ∈ trace, Safe s₀ p level x.1) (hlast : Safe s₀ p level s) :
    ∀ x ∈ trace, CreatesInside x.1 p x.2 := by
  obtain ⟨hp, hpo, -⟩ := findByOwner_some (getPermission_ok hlevel).2.2
  induction h with
  | start => exact fun x hx => (List.not_mem_nil hx).elim
  | transaction _ ih => exact ih hsafe hlast
  | action hrun hctx _ haccount _ happly ih =>
    rw [List.forall_mem_append, List.forall_mem_singleton] at hsafe ⊢
    refine ⟨ih hsafe.1 hsafe.2, ?_⟩
    exact inside_of_safe (ongoing_run hstart hrun) hp (haccount.trans hpo.symm) hctx happly hlast

end Run

variable {vm : Vm} {conf : Conf} {allowed : Step → Prop}

theorem ongoing_start (h : Reachable vm conf allowed s₀)
    (hallowed : ∀ step, allowed step → Strict step)
    (hlevel : getPermission s₀.permissions level = .ok p) : Ongoing s₀ p s₀ := by
  obtain ⟨hactor, -, hfind⟩ := getPermission_ok hlevel
  obtain ⟨hp, hpo, -⟩ := findByOwner_some hfind
  have hheld := held_reachable h
  refine ⟨sound_of_reachable True (fun _ => hallowed) h, hheld, ?_, Grown.of_same rfl⟩
  exact hheld.accounted p hp (hpo ▸ hactor)

/-- **NO ESCALATION**, exactly where no permission is made outside the subtree.
    With the declared permission alone, nothing outside its subtree changes in
    any state of a run and no right is gained, if and only if every permission
    that is made gets a parent in the subtree. -/
theorem no_escalation_iff (h : Reachable vm conf allowed s₀)
    (hallowed : ∀ step, allowed step → Strict step)
    (hlevel : getPermission s₀.permissions level = .ok p)
    (hrun : Managed level s₀ trace base s) :
    ((∀ x ∈ trace, Safe s₀ p level x.1) ∧ Safe s₀ p level s) ↔
      ∀ x ∈ trace, CreatesInside x.1 p x.2 := by
  have hstart := ongoing_start h hallowed hlevel
  constructor
  · rintro ⟨hsafe, hlast⟩
    exact inside_run hstart hlevel hrun hsafe hlast
  · intro hinside
    obtain ⟨hsafe, hprogress⟩ := progress_run hstart hlevel hrun fun x hx _ => hinside x hx
    exact ⟨hsafe, hprogress.safe hstart.sound hlevel⟩

/-- A check that is not out of date asks for the parent. -/
theorem inside_of_checked (hs₀ : Sound True s₀)
    (hlevel : getPermission s₀.permissions level = .ok p) (h : Kept s₀ p s)
    (hcheck : checkSpecial ctx s [level] action = .ok ()) : CreatesInside s p action := by
  obtain ⟨hp, -, -⟩ := findByOwner_some (getPermission_ok hlevel).2.2
  cases action with
  | updateauth update =>
    intro hfree
    obtain ⟨least, hcovers, hsome | ⟨-, hleast⟩⟩ := updateauth_checked hcheck
    · cases hfree.symm.trans hsome
    · refine ⟨least, hleast, ?_⟩
      exact (h.covers_iff hs₀ hp hlevel (findByOwner_some hleast).1).mp hcovers
  | _ => exact trivial

/-- Where every action would also pass the check in the state that it is applied
    in, as in transactions of one action, there is no escalation. -/
theorem no_escalation_of_checked_now (h : Reachable vm conf allowed s₀)
    (hallowed : ∀ step, allowed step → Strict step)
    (hlevel : getPermission s₀.permissions level = .ok p)
    (hrun : Managed level s₀ trace base s)
    (hnow : ∀ x ∈ trace, ∃ ctx, checkSpecial ctx x.1 [level] x.2 = .ok ()) :
    (∀ x ∈ trace, Safe s₀ p level x.1) ∧ Safe s₀ p level s := by
  have hstart := ongoing_start h hallowed hlevel
  obtain ⟨hsafe, hprogress⟩ := progress_run hstart hlevel hrun fun x hx hkept => by
    obtain ⟨ctx, hcheck⟩ := hnow x hx
    exact inside_of_checked hstart.sound hlevel hkept hcheck
  exact ⟨hsafe, hprogress.safe hstart.sound hlevel⟩

/-! ## A permission that is made again -/

/-- The token account acts with its active permission. -/
def activeLevel : PermissionLevel := ⟨tokenAccountName, activeName⟩

def activeContext : ActionContext where
  receiver := systemAccountName
  account := systemAccountName
  authorization := [activeLevel]

/-- A permission of the token account under the given one. -/
def makeSpare (parent : Name) : ManageAction :=
  .updateauth ⟨tokenAccountName, ⟨42⟩, parent, keyAuthority [0, 2]⟩

def removeSpare : ManageAction := .deleteauth ⟨tokenAccountName, ⟨42⟩⟩

/-- Genesis, and the spare permission under the active one. -/
def withSpare : State :=
  commit (Step.perform smallVm smallConf (.manage activeContext (makeSpare activeName)))
    smallGenesis

def withoutSpare : State := commit (removeSpare.apply activeContext) withSpare

def spareAgain (parent : Name) : State :=
  commit ((makeSpare parent).apply activeContext) withoutSpare

theorem withSpare_reachable : Reachable smallVm smallConf Strict withSpare := by
  have hgenesis : Reachable smallVm smallConf Strict smallGenesis := .genesis smallGenesis_ok
  have hstrict : Strict (.manage activeContext (makeSpare activeName)) := rfl
  exact .step hgenesis trivial hstrict

/-- One more action of the active permission, checked at the start of its
    transaction. -/
theorem active_managed {s₀ base s s' : State} {trace : List (State × ManageAction)}
    {action : ManageAction} (h : Managed activeLevel s₀ trace base s)
    (haccount : action.account = tokenAccountName)
    (hcheck : checkAuthorization activeContext base action [activeLevel] (fun _ => true) true =
      .ok ()) (happ : action.apply activeContext s = .ok () s') :
    Managed activeLevel s₀ (trace ++ [(s, action)]) base s' :=
  .action h rfl rfl haccount hcheck happ

theorem removeSpare_ok : removeSpare.apply activeContext withSpare = .ok () withoutSpare :=
  completes_iff.mp (by decide +kernel)

theorem removeSpare_checked : checkAuthorization activeContext withSpare removeSpare [activeLevel]
    (fun _ => true) true = .ok () := by decide +kernel

theorem removeSpare_managed :
    Managed activeLevel withSpare [(withSpare, removeSpare)] withSpare withoutSpare :=
  active_managed (.start withSpare) rfl removeSpare_checked removeSpare_ok

/-- The active permission of the token account. -/
def activeOf (s : State) : PermissionObject :=
  (findByOwner s.permissions tokenAccountName activeName).getD { id := 0 }

theorem activeOf_ok (h : (findByOwner s.permissions tokenAccountName activeName).isSome = true) :
    getPermission s.permissions activeLevel = .ok (activeOf s) := by
  obtain ⟨q, hq⟩ := Option.isSome_iff_exists.mp h
  have hnames : activeLevel.actor ≠ noName ∧ activeLevel.permission ≠ noName := by decide
  have hfind : findByOwner s.permissions activeLevel.actor activeLevel.permission = some q := hq
  rw [getPermission, findPermission, if_pos hnames, hfind, activeOf, hq]
  rfl

/-- **FAILS**: the active permission deletes a permission below it and makes it
    again under `owner`, outside its own subtree.  The check of the second action
    asked for the permission that the first one deletes. -/
theorem spare_escapes :
    Reachable smallVm smallConf Strict withSpare ∧
      getPermission withSpare.permissions activeLevel = .ok (activeOf withSpare) ∧
      Managed activeLevel withSpare
        [(withSpare, removeSpare), (withoutSpare, makeSpare ownerName)] withSpare
        (spareAgain ownerName) ∧
      ¬ Safe withSpare (activeOf withSpare) activeLevel (spareAgain ownerName) := by
  have hlevel := activeOf_ok (s := withSpare) (by decide +kernel)
  refine ⟨withSpare_reachable, hlevel, active_managed removeSpare_managed rfl (by decide +kernel)
    (completes_iff.mp (by decide +kernel)), fun hsafe => ?_⟩
  have hescaped : ∃ q ∈ (spareAgain ownerName).permissions.rows,
      q.owner = (activeOf withSpare).owner ∧ q.name = ⟨42⟩ ∧
        ¬ satisfied (spareAgain ownerName).permissions (activeOf withSpare) q := by decide +kernel
  have hbefore : ∀ q ∈ withSpare.permissions.rows, q.owner = (activeOf withSpare).owner →
      q.name = ⟨42⟩ → satisfied withSpare.permissions (activeOf withSpare) q := by decide +kernel
  obtain ⟨q, hq, howner, hname, hsat⟩ := hescaped
  obtain ⟨hq0, -, hsat0⟩ := (hsafe.outside q).mp ⟨hq, howner, hsat⟩
  exact hsat0 (hbefore q hq0 howner hname)

/-- Made again under the active permission, it stays in the subtree. -/
theorem spare_stays : Safe withSpare (activeOf withSpare) activeLevel (spareAgain activeName) := by
  have hlevel := activeOf_ok (s := withSpare) (by decide +kernel)
  have hrun : Managed activeLevel withSpare _ withSpare (spareAgain activeName) :=
    active_managed removeSpare_managed rfl (by decide +kernel)
      (completes_iff.mp (by decide +kernel))
  have hparent : ∃ parent, findByOwner withoutSpare.permissions tokenAccountName activeName =
      some parent ∧ satisfied withoutSpare.permissions (activeOf withSpare) parent :=
    ⟨activeOf withoutSpare, by decide +kernel, by decide +kernel⟩
  have hinside : ∀ x ∈ [(withSpare, removeSpare), (withoutSpare, makeSpare activeName)],
      CreatesInside x.1 (activeOf withSpare) x.2 := by
    rw [List.forall_mem_cons, List.forall_mem_singleton]
    exact ⟨trivial, fun _ => hparent⟩
  exact ((no_escalation_iff withSpare_reachable (fun _ h => h) hlevel hrun).mpr hinside).2

/-- The two actions in transactions of their own, so that the second one is
    checked without the permission. -/
theorem removal_stays :
    (∀ x ∈ [(withSpare, removeSpare), (withoutSpare, makeSpare activeName)],
      Safe withSpare (activeOf withSpare) activeLevel x.1) ∧
      Safe withSpare (activeOf withSpare) activeLevel (spareAgain activeName) := by
  have hmake : checkAuthorization activeContext withoutSpare (makeSpare activeName) [activeLevel]
      (fun _ => true) true = .ok () := by decide +kernel
  have hrun : Managed activeLevel withSpare _ withoutSpare (spareAgain activeName) :=
    active_managed removeSpare_managed.transaction rfl hmake
      (completes_iff.mp (by decide +kernel))
  have hnow : ∀ x ∈ [(withSpare, removeSpare), (withoutSpare, makeSpare activeName)],
      ∃ ctx, checkSpecial ctx x.1 [activeLevel] x.2 = .ok () := by
    rw [List.forall_mem_cons, List.forall_mem_singleton]
    exact ⟨⟨activeContext, by decide +kernel⟩, ⟨activeContext, by decide +kernel⟩⟩
  exact no_escalation_of_checked_now withSpare_reachable (fun _ h => h)
    (activeOf_ok (by decide +kernel)) hrun hnow

end PermissionRights
