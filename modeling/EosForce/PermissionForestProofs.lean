import EosForce.NativeFrameProofs
import EosForce.ParentChainProofs

/-! # The permissions of an account are a tree

    Every permission other than the reserved one has a parent with a smaller
    number and the same owner, up to the owner permission.  `satisfies`
    follows parents without a bound and dereferences what it finds without a
    check; in a forest it always comes to an answer, and the answer is whether
    the one permission stands above the other. -/

namespace PermissionForest

open ChainTypes TrxTypes Effect Authority RowTable StateTables Serial
  PermissionStore NativeActions NativeFrame ParentChain

/-! ## Forests -/

/-- The number of the parent of a permission. -/
def parentOf (permissions : Permissions) (n : Nat) : Nat :=
  ((permissions.find n).map (·.parent)).getD 0

/-- The permissions are a forest, and each has a usage object of its own; the
    reserved permission names the usage object of the first owner permission. -/
structure Forest (permissions : Permissions) (usages : Serial PermissionUsage.id) : Prop where
  reserved : permissions.find 0 = some { id := 0 }
  unique : ∀ p ∈ permissions.rows, ∀ q ∈ permissions.rows, p.owner = q.owner → p.name = q.name →
    p = q
  named : ∀ p ∈ permissions.rows, p.id ≠ 0 → p.name ≠ noName
  rooted : ∀ p ∈ permissions.rows, p.id ≠ 0 → (p.name = ownerName ↔ p.parent = 0)
  parents : ∀ p ∈ permissions.rows, p.parent ≠ 0 →
    ∃ q ∈ permissions.rows, q.id = p.parent ∧ q.id < p.id ∧ q.owner = p.owner
  used : ∀ p ∈ permissions.rows, ∃ usage ∈ usages.rows, usage.id = p.usageId
  ownUsage : ∀ p ∈ permissions.rows, ∀ q ∈ permissions.rows, p.id ≠ 0 → q.id ≠ 0 →
    p.usageId = q.usageId → p = q
  firstUsage : ∃ p ∈ permissions.rows, p.id ≠ 0 ∧ p.usageId = 0 ∧ p.name = ownerName

variable {permissions : Permissions} {usages : Serial PermissionUsage.id} {p q : PermissionObject}

theorem parentOf_mem (h : p ∈ permissions.rows) : parentOf permissions p.id = p.parent := by
  have hfind : permissions.find p.id = some p := Table.find_of_mem (t := permissions.table) h
  rw [parentOf, hfind]
  rfl

section

variable (h : Forest permissions usages)
include h

theorem Forest.zero_mem : ({ id := 0 } : PermissionObject) ∈ permissions.rows :=
  (Table.find_some h.reserved).1

theorem Forest.eq_zero (hp : p ∈ permissions.rows) (hid : p.id = 0) : p = { id := 0 } :=
  Table.eq_of_key (t := permissions.table) hp h.zero_mem hid

/-- Parents have smaller numbers. -/
theorem Forest.chain : Rooted (parentOf permissions) where
  root := parentOf_mem h.zero_mem
  down := by
    intro n hn
    rw [parentOf]
    cases hfind : permissions.find n with
    | none => exact Nat.pos_of_ne_zero hn
    | some p =>
      obtain ⟨hp, hid⟩ := Table.find_some hfind
      show p.parent < n
      by_cases hparent : p.parent = 0
      · rw [hparent]
        exact Nat.pos_of_ne_zero hn
      · obtain ⟨q, -, hq, hlt, -⟩ := h.parents p hp hparent
        omega

/-- The parent of a permission is there. -/
theorem Forest.parent_mem (hp : p ∈ permissions.rows) :
    ∃ q ∈ permissions.rows, q.id = p.parent ∧ permissions.find p.parent = some q := by
  by_cases hparent : p.parent = 0
  · rw [hparent]
    exact ⟨_, h.zero_mem, rfl, h.reserved⟩
  · obtain ⟨q, hq, hid, -⟩ := h.parents p hp hparent
    exact ⟨q, hq, hid, hid ▸ Table.find_of_mem (t := permissions.table) hq⟩

/-! ## `satisfies` decides what stands above -/

/-- The loop: `n` more than the number of the permission it is at is enough. -/
theorem walkUp_answers (a : Nat) :
    ∀ (steps : Nat) (p : PermissionObject), p ∈ permissions.rows → p.id < steps →
      ∃ b, walkUp permissions a steps p = .answer b ∧
        (b = true ↔ Above (parentOf permissions) a p.parent) := by
  intro steps
  induction steps with
  | zero =>
    intro p _ hlt
    exact absurd hlt (Nat.not_lt_zero _)
  | succ steps ih =>
    intro p hp hlt
    rw [walkUp]
    by_cases hself : a = p.parent
    · rw [if_pos hself, hself]
      exact ⟨true, rfl, by simpa using Above.refl _ _⟩
    · rw [if_neg hself]
      by_cases hroot : p.parent = 0
      · rw [if_pos hroot]
        refine ⟨false, rfl, ?_⟩
        rw [hroot, h.chain.above_zero]
        simpa using fun hz => hself (hz.trans hroot.symm)
      · rw [if_neg hroot]
        obtain ⟨q, hq, hid, hfind⟩ := h.parent_mem hp
        have hsmaller : q.id < steps := by
          obtain ⟨q', -, hq', hlt', -⟩ := h.parents p hp hroot
          omega
        obtain ⟨b, hb, hiff⟩ := ih q hq hsmaller
        rw [hfind]
        refine ⟨b, hb, hiff.trans ?_⟩
        rw [above_iff (n := p.parent), ← hid, parentOf_mem hq, hid]
        exact (or_iff_right hself).symm

/-- **SATISFIES**: with steps enough for any permission there is an answer, and
    it is whether the owners are the same and the first stands above. -/
theorem satisfies_answers (hq : q ∈ permissions.rows) {steps : Nat}
    (hsteps : permissions.next ≤ steps) : ∃ b, satisfies permissions steps p q = .answer b ∧
      (b = true ↔ p.owner = q.owner ∧ Above (parentOf permissions) p.id q.id) := by
  rw [satisfies]
  by_cases howner : p.owner = q.owner
  · rw [if_neg (not_not.mpr howner)]
    have hstep : Above (parentOf permissions) p.id q.id ↔
        p.id = q.id ∨ p.id = q.parent ∨ Above (parentOf permissions) p.id
          (parentOf permissions q.parent) := by
      rw [above_iff, parentOf_mem hq, above_iff (n := q.parent)]
    by_cases hnear : p.id = q.id ∨ p.id = q.parent
    · rw [if_pos hnear]
      refine ⟨true, rfl, ?_⟩
      rw [hstep]
      rcases hnear with heq | heq
      · simp [howner, heq]
      · simp [howner, heq]
    · rw [if_neg hnear]
      obtain ⟨r, hr, hid, hfind⟩ := h.parent_mem hq
      rw [hfind]
      have hbelow := permissions.below r hr
      obtain ⟨b, hb, hiff⟩ := walkUp_answers h p.id steps r hr (by omega)
      refine ⟨b, hb, hiff.trans ?_⟩
      rw [hstep, ← hid, parentOf_mem hr]
      rw [← hid] at hnear
      rw [not_or] at hnear
      simp [howner, hnear]
  · rw [if_pos howner]
    exact ⟨false, rfl, by simp [howner]⟩

theorem satisfied_iff (hq : q ∈ permissions.rows) :
    satisfied permissions p q ↔ p.owner = q.owner ∧ Above (parentOf permissions) p.id q.id := by
  obtain ⟨b, hb, hiff⟩ := satisfies_answers h hq (Nat.le_refl _)
  rw [satisfied, hb, ← hiff]
  simp

/-! ## The chain of a permission -/

/-- What stands above a permission, the reserved one apart, has its owner. -/
theorem Forest.above_owner (hp : p ∈ permissions.rows) (hq : q ∈ permissions.rows) (hid : q.id ≠ 0)
    (habove : Above (parentOf permissions) q.id p.id) : q.owner = p.owner := by
  obtain ⟨k, hk⟩ := habove
  induction k generalizing p with
  | zero =>
    have heq : p = q := Table.eq_of_key (t := permissions.table) hp hq hk
    rw [heq]
  | succ k ih =>
    have hk' : (parentOf permissions)^[k] p.parent = q.id := by
      rw [← parentOf_mem hp]
      exact hk
    by_cases hparent : p.parent = 0
    · have hzero : Above (parentOf permissions) q.id 0 := ⟨k, hparent ▸ hk'⟩
      exact absurd (h.chain.above_zero.mp hzero) hid
    · obtain ⟨r, hr, hrid, -, howner⟩ := h.parents p hp hparent
      rw [← howner]
      exact ih hr (hrid.symm ▸ hk')

/-- Every chain ends at the owner permission of the account. -/
theorem Forest.chain_ends :
    ∀ (n : Nat) (p : PermissionObject), p ∈ permissions.rows → p.id = n → p.id ≠ 0 →
      ∃ root ∈ permissions.rows, root.owner = p.owner ∧ root.name = ownerName ∧ root.parent = 0 ∧
        Above (parentOf permissions) root.id p.id := by
  intro n
  induction n using Nat.strong_induction_on with
  | _ n ih =>
    intro p hp hn hid
    by_cases hparent : p.parent = 0
    · exact ⟨p, hp, rfl, (h.rooted p hp hid).mpr hparent, hparent, Above.refl _ _⟩
    · obtain ⟨q, hq, hqid, hlt, howner⟩ := h.parents p hp hparent
      obtain ⟨root, hroot, hrowner, hname, hzero, habove⟩ :=
        ih q.id (hn ▸ hlt) q hq rfl (hqid.symm ▸ hparent)
      refine ⟨root, hroot, hrowner.trans howner, hname, hzero, Above.of_up ?_⟩
      rw [parentOf_mem hp, ← hqid]
      exact habove

/-! ## Changes that keep a forest -/

/-- Another authority, or another time. -/
theorem Forest.modified {n : Nat} {f : PermissionObject → PermissionObject}
    (hf : ∀ p, (f p).id = p.id) (hn : n ≠ 0) (husage : ∀ p, (f p).usageId = p.usageId)
    (hparent : ∀ p, (f p).parent = p.parent) (howner : ∀ p, (f p).owner = p.owner)
    (hname : ∀ p, (f p).name = p.name) : Forest (permissions.modify n f hf) usages := by
  have hall : ∀ {x}, x ∈ (permissions.modify n f hf).rows → ∃ y ∈ permissions.rows,
      x = (if y.id = n then f y else y) ∧ x.id = y.id ∧ x.usageId = y.usageId ∧
      x.parent = y.parent ∧ x.owner = y.owner ∧ x.name = y.name := by
    intro x hx
    obtain ⟨y, hy, rfl⟩ := mem_modify.mp hx
    refine ⟨y, hy, rfl, ?_⟩
    split
    · exact ⟨hf y, husage y, hparent y, howner y, hname y⟩
    · exact ⟨rfl, rfl, rfl, rfl, rfl⟩
  have hback : ∀ {y}, y ∈ permissions.rows → ∃ x ∈ (permissions.modify n f hf).rows,
      x.id = y.id ∧ x.owner = y.owner ∧ x.name = y.name ∧ x.usageId = y.usageId := by
    intro y hy
    refine ⟨_, mem_modify.mpr ⟨y, hy, rfl⟩, ?_⟩
    split
    · exact ⟨hf y, howner y, hname y, husage y⟩
    · exact ⟨rfl, rfl, rfl, rfl⟩
  constructor
  · show (permissions.table.modify n f hf).find 0 = _
    rw [Table.find_modify, if_neg (Ne.symm hn)]
    exact h.reserved
  · intro p hp q hq hown hnam
    obtain ⟨p', hp', rfl, -, -, -, hpo, hpn⟩ := hall hp
    obtain ⟨q', hq', rfl, -, -, -, hqo, hqn⟩ := hall hq
    rw [h.unique p' hp' q' hq' (hpo ▸ hqo ▸ hown) (hpn ▸ hqn ▸ hnam)]
  · intro p hp hid
    obtain ⟨p', hp', -, hpid, -, -, -, hpn⟩ := hall hp
    rw [hpn]
    exact h.named p' hp' (hpid ▸ hid)
  · intro p hp hid
    obtain ⟨p', hp', -, hpid, -, hpp, -, hpn⟩ := hall hp
    rw [hpn, hpp]
    exact h.rooted p' hp' (hpid ▸ hid)
  · intro p hp hpar
    obtain ⟨p', hp', -, hpid, -, hpp, hpo, -⟩ := hall hp
    obtain ⟨q', hq', hqid, hlt, hqo⟩ := h.parents p' hp' (hpp ▸ hpar)
    obtain ⟨q, hq, hid, ho, -, -⟩ := hback hq'
    exact ⟨q, hq, by rw [hid, hqid, hpp], by rw [hid, hpid]; exact hlt, by rw [ho, hqo, hpo]⟩
  · intro p hp
    obtain ⟨p', hp', -, -, hpu, -⟩ := hall hp
    rw [hpu]
    exact h.used p' hp'
  · intro p hp q hq hpid hqid hsame
    obtain ⟨p', hp', rfl, hpid', hpu, -⟩ := hall hp
    obtain ⟨q', hq', rfl, hqid', hqu, -⟩ := hall hq
    rw [h.ownUsage p' hp' q' hq' (hpid' ▸ hpid) (hqid' ▸ hqid) (hpu ▸ hqu ▸ hsame)]
  · obtain ⟨p', hp', hid, husg, hnam⟩ := h.firstUsage
    obtain ⟨p, hp, hpid, -, hpn, hpu⟩ := hback hp'
    exact ⟨p, hp, hpid ▸ hid, hpu.trans husg, hpn.trans hnam⟩

theorem Forest.next_ne_zero : permissions.next ≠ 0 :=
  Nat.ne_of_gt (Nat.lt_of_le_of_lt (Nat.zero_le _) (permissions.below _ h.zero_mem))

/-- A new permission under one that the account has, or a new owner permission. -/
theorem Forest.added {account name : Name} {parent time : Nat} {auth : Auth}
    (hfree : findByOwner permissions account name = none) (hnamed : name ≠ noName)
    (hroot : name = ownerName ↔ parent = 0)
    (hparent : parent ≠ 0 → ∃ q ∈ permissions.rows, q.id = parent ∧ q.owner = account) : Forest
      (permissions.push (fun id => ⟨id, usages.next, parent, account, name, time, auth⟩)
        fun _ => rfl)
      (usages.push (fun id => ⟨id, time⟩) fun _ => rfl) := by
  have hold : ∀ p ∈ permissions.rows, p.usageId ≠ usages.next := by
    intro p hp
    obtain ⟨usage, husage, hid⟩ := h.used p hp
    have hbelow := usages.below usage husage
    omega
  constructor
  · rw [find_push, if_neg h.next_ne_zero.symm]
    exact h.reserved
  · intro p hp q hq hown hnam
    rcases (mem_push _).mp hp with hp | rfl
    · rcases (mem_push _).mp hq with hq | rfl
      · exact h.unique p hp q hq hown hnam
      · exact absurd ⟨hown, hnam⟩ (findByOwner_none hfree p hp)
    · rcases (mem_push _).mp hq with hq | rfl
      · exact absurd ⟨hown.symm, hnam.symm⟩ (findByOwner_none hfree q hq)
      · rfl
  · intro p hp hid
    rcases (mem_push _).mp hp with hp | rfl
    · exact h.named p hp hid
    · exact hnamed
  · intro p hp hid
    rcases (mem_push _).mp hp with hp | rfl
    · exact h.rooted p hp hid
    · exact hroot
  · intro p hp hpar
    rcases (mem_push _).mp hp with hp | rfl
    · obtain ⟨q, hq, hrest⟩ := h.parents p hp hpar
      exact ⟨q, (mem_push _).mpr (.inl hq), hrest⟩
    · obtain ⟨q, hq, hid, hown⟩ := hparent hpar
      exact ⟨q, (mem_push _).mpr (.inl hq), hid, permissions.below q hq, hown⟩
  · intro p hp
    rcases (mem_push _).mp hp with hp | rfl
    · obtain ⟨usage, husage, hid⟩ := h.used p hp
      exact ⟨usage, (mem_push _).mpr (.inl husage), hid⟩
    · exact ⟨_, (mem_push _).mpr (.inr rfl), rfl⟩
  · intro p hp q hq hpid hqid hsame
    rcases (mem_push _).mp hp with hp | rfl
    · rcases (mem_push _).mp hq with hq | rfl
      · exact h.ownUsage p hp q hq hpid hqid hsame
      · exact absurd hsame (hold p hp)
    · rcases (mem_push _).mp hq with hq | rfl
      · exact absurd hsame.symm (hold q hq)
      · rfl
  · obtain ⟨p, hp, hfirst⟩ := h.firstUsage
    exact ⟨p, (mem_push _).mpr (.inl hp), hfirst⟩

/-- A permission without children goes, and its usage object with it. -/
theorem Forest.dropped (hp : p ∈ permissions.rows) (hid : p.id ≠ 0) (hname : p.name ≠ ownerName)
    (hleaf : ∀ q ∈ permissions.rows, q.parent ≠ p.id) :
    Forest (permissions.erase p.id) (usages.erase p.usageId) := by
  -- the reserved permission names a usage object that is not this one's
  have hother : ∀ q ∈ permissions.rows, q.id ≠ p.id → q.usageId ≠ p.usageId := by
    intro q hq hne hsame
    by_cases hzero : q.id = 0
    · obtain ⟨r, hr, hrid, hru, hrn⟩ := h.firstUsage
      rw [h.eq_zero hq hzero] at hsame
      have heq : r = p := h.ownUsage r hr p hp hrid hid (hru.trans hsame)
      exact hname (heq ▸ hrn)
    · exact hne (congrArg _ (h.ownUsage q hq p hp hzero hid hsame))
  constructor
  · rw [find_erase, if_neg (Ne.symm hid)]
    exact h.reserved
  · intro a ha b hb
    exact h.unique a (mem_erase.mp ha).1 b (mem_erase.mp hb).1
  · intro a ha
    exact h.named a (mem_erase.mp ha).1
  · intro a ha
    exact h.rooted a (mem_erase.mp ha).1
  · intro a ha hpar
    obtain ⟨ha, -⟩ := mem_erase.mp ha
    obtain ⟨q, hq, hqid, hrest⟩ := h.parents a ha hpar
    exact ⟨q, mem_erase.mpr ⟨hq, hqid ▸ hleaf a ha⟩, hqid, hrest⟩
  · intro a ha
    obtain ⟨ha, hne⟩ := mem_erase.mp ha
    obtain ⟨usage, husage, huid⟩ := h.used a ha
    exact ⟨usage, mem_erase.mpr ⟨husage, huid ▸ hother a ha hne⟩, huid⟩
  · intro a ha b hb
    exact h.ownUsage a (mem_erase.mp ha).1 b (mem_erase.mp hb).1
  · obtain ⟨r, hr, hrid, hru, hrn⟩ := h.firstUsage
    refine ⟨r, mem_erase.mpr ⟨hr, ?_⟩, hrid, hru, hrn⟩
    intro heq
    exact hname (Table.eq_of_key (t := permissions.table) hr hp heq ▸ hrn)

end

/-! ## The steps -/

/-- The tables of permissions and links are the same. -/
structure SamePermissions (s s' : State) : Prop where
  permissions : s'.permissions = s.permissions
  usages : s'.usages = s.usages
  links : s'.links = s.links

/-- So are the names of the accounts. -/
structure SameAuth (s s' : State) : Prop extends SamePermissions s s' where
  accounts : s'.accounts.rows.map (·.name) = s.accounts.rows.map (·.name)

theorem SameAuth.trans ⦃a b c : State⦄ (h : SameAuth a b) (h' : SameAuth b c) : SameAuth a c where
  permissions := h'.permissions.trans h.permissions
  usages := h'.usages.trans h.usages
  links := h'.links.trans h.links
  accounts := h'.accounts.trans h.accounts

theorem auth_walk : Walk SameAuth where
  trans := SameAuth.trans
  native := fun _ _ h => ⟨⟨h.permissions, h.usages, h.links⟩, by rw [h.accounts]⟩
  config := fun _ _ _ => ⟨⟨rfl, rfl, rfl⟩, rfl⟩

theorem samePermissions_createAccount {account : Account} :
    Keeps SamePermissions (createAccount account) := by
  intro s u s' h
  obtain ⟨hfree, rfl⟩ := createAccount_ok h
  exact ⟨rfl, rfl, rfl⟩

theorem sameAuth_of_onlyCode {α : Type} {x : StateM α} (hx : Keeps OnlyCode x) :
    Keeps SameAuth x := by
  intro s a s' h
  have hsame := hx s a s' h
  exact ⟨⟨hsame.permissions, hsame.usages, hsame.links⟩, hsame.names⟩

variable {ctx : ActionContext}

theorem sameAuth_of_onlyDeferred {α : Type} {x : StateM α} (hx : Keeps OnlyDeferred x) :
    Keeps SameAuth x := by
  intro s a s' h
  have hsame := hx s a s' h
  exact ⟨⟨hsame.permissions, hsame.usages, hsame.links⟩, by rw [hsame.accounts]⟩

/-! ## Forest and links along the steps -/

/-- The account has a permission of that name. -/
def Named (s : State) (owner name : Name) : Prop :=
  ∃ p ∈ s.permissions.rows, p.owner = owner ∧ p.name = name

/-- Links go to permissions that the account has, or to `eosio.any`. -/
def LinksOk (s : State) : Prop :=
  ∀ l ∈ s.links.rows, l.requiredPermission = eosioAnyName ∨ Named s l.account l.requiredPermission

/-- What every state has; of links only where they have always been checked. -/
structure Sound (strict : Prop) (s : State) : Prop where
  forest : Forest s.permissions s.usages
  links : strict → LinksOk s

variable {strict : Prop} {s s' : State}

theorem Sound.congr (hs : Sound strict s) (h : SamePermissions s s') : Sound strict s' where
  forest := by
    rw [h.permissions, h.usages]
    exact hs.forest
  links := by
    intro hstrict l hl
    rw [h.links] at hl
    rw [Named, h.permissions]
    exact hs.links hstrict l hl

theorem sound_of_sameAuth {α : Type} {x : StateM α} (hx : Keeps SameAuth x) :
    Preserves (Sound strict) x :=
  hx.preserves fun _ _ h hs => hs.congr h.toSamePermissions

theorem sound_createAccount {account : Account} :
    Preserves (Sound strict) (createAccount account) :=
  samePermissions_createAccount.preserves fun _ _ h hs => hs.congr h

/-- Links do not see authorities. -/
theorem LinksOk.mono (hs : LinksOk s) (hlinks : s'.links = s.links)
    (hnamed : ∀ owner name, Named s owner name → Named s' owner name) : LinksOk s' := by
  intro l hl
  rw [hlinks] at hl
  rcases hs l hl with hany | hname
  · exact .inl hany
  · exact .inr (hnamed _ _ hname)

theorem named_modify {permissions : Permissions} {owner name : Name}
    (h : ∃ p ∈ permissions.rows, p.owner = owner ∧ p.name = name) (n : Nat)
    (f : PermissionObject → PermissionObject) (hf : ∀ p, (f p).id = p.id)
    (howner : ∀ p, (f p).owner = p.owner) (hname : ∀ p, (f p).name = p.name) :
    ∃ p ∈ (permissions.modify n f hf).rows, p.owner = owner ∧ p.name = name := by
  obtain ⟨p, hp, ho, hn⟩ := h
  refine ⟨_, mem_modify.mpr ⟨p, hp, rfl⟩, ?_⟩
  split
  · exact ⟨(howner p).trans ho, (hname p).trans hn⟩
  · exact ⟨ho, hn⟩

theorem Named.added {owner name account : Name} (h : Named s owner name) {added : Name}
    {parent time : Nat} {auth : Auth} :
    Named (addPermission account added parent auth time s) owner name := by
  obtain ⟨p, hp, hrest⟩ := h
  exact ⟨p, (mem_push _).mpr (.inl hp), hrest⟩

theorem Sound.assigned (hs : Sound strict s) {n : Nat} (hn : n ≠ 0) (auth : Auth) (time : Nat) :
    Sound strict (assignAuth n auth time s) where
  forest := hs.forest.modified _ hn (fun _ => rfl) (fun _ => rfl) (fun _ => rfl) fun _ => rfl
  links := fun hstrict => (hs.links hstrict).mono rfl fun _ _ h =>
    named_modify h n _ _ (fun _ => rfl) fun _ => rfl

theorem Sound.exchanged (hs : Sound strict s) {n : Nat} (hn : n ≠ 0) (auth : Auth) :
    Sound strict (exchangeAuth n auth s) where
  forest := hs.forest.modified _ hn (fun _ => rfl) (fun _ => rfl) (fun _ => rfl) fun _ => rfl
  links := fun hstrict => (hs.links hstrict).mono rfl fun _ _ h =>
    named_modify h n _ _ (fun _ => rfl) fun _ => rfl

theorem Sound.added (hs : Sound strict s) {account name : Name} {parent time : Nat} {auth : Auth}
    (hfree : findByOwner s.permissions account name = none) (hnamed : name ≠ noName)
    (hroot : name = ownerName ↔ parent = 0)
    (hparent : parent ≠ 0 → ∃ q ∈ s.permissions.rows, q.id = parent ∧ q.owner = account) :
    Sound strict (addPermission account name parent auth time s) where
  forest := hs.forest.added hfree hnamed hroot hparent
  links := fun hstrict => (hs.links hstrict).mono rfl fun _ _ h => h.added

/-- A permission with a nonempty owner is not the reserved one. -/
theorem Sound.id_ne_zero (hs : Sound strict s) {p : PermissionObject}
    (hp : p ∈ s.permissions.rows) (howner : p.owner ≠ noName) : p.id ≠ 0 := by
  intro hid
  rw [hs.forest.eq_zero hp hid] at howner
  exact howner rfl

theorem sound_updateauth {update : UpdateAuth} :
    Preserves (Sound strict) (updateauth ctx update) := by
  intro s u s' h hs
  obtain ⟨haccount, hname, -, parent, hparent, hend⟩ := updateauth_ok h
  rcases hend with ⟨p, r, hfind, -, -, rfl⟩ | ⟨hfree, r, -, rfl⟩
  · obtain ⟨hp, howner, -⟩ := findByOwner_some hfind
    exact (hs.assigned (hs.id_ne_zero hp (howner ▸ haccount)) _ _).congr ⟨rfl, rfl, rfl⟩
  · refine Sound.congr (hs.added hfree hname ?_ ?_) ⟨rfl, rfl, rfl⟩
    · rcases hparent with ⟨howner, hzero⟩ | ⟨howner, -, q, hq, hid⟩
      · simp [howner, hzero]
      · obtain ⟨hq, hqo, -⟩ := findByOwner_some hq
        have hne := hs.id_ne_zero hq (hqo ▸ haccount)
        simp [howner, ← hid, hne]
    · intro hne
      rcases hparent with ⟨-, hzero⟩ | ⟨-, -, q, hq, hid⟩
      · exact absurd hzero hne
      · obtain ⟨hq, hqo, -⟩ := findByOwner_some hq
        exact ⟨q, hq, hid, hqo⟩

theorem sound_deleteauth {remove : DeleteAuth} :
    Preserves (Sound strict) (deleteauth ctx remove) := by
  intro s u s' h hs
  obtain ⟨haccount, -, howner, hlinks, p, r, hfind, hleaf, -, rfl⟩ := deleteauth_ok h
  obtain ⟨hp, hpo, hpn⟩ := findByOwner_some hfind
  refine Sound.congr (s := dropPermission p s) ⟨?_, ?_⟩ ⟨rfl, rfl, rfl⟩
  · exact hs.forest.dropped hp (hs.id_ne_zero hp (hpo ▸ haccount)) (hpn ▸ howner) hleaf
  · intro hstrict l hl
    rcases hs.links hstrict l hl with hany | ⟨q, hq, hqo, hqn⟩
    · exact .inl hany
    · refine .inr ⟨q, mem_erase.mpr ⟨hq, ?_⟩, hqo, hqn⟩
      intro hid
      have heq : q = p := Table.eq_of_key (t := s.permissions.table) hq hp hid
      rw [heq] at hqo hqn
      exact hlinks l hl ⟨hqo.symm.trans hpo, hqn.symm.trans hpn⟩

theorem sound_linkauth {link : LinkAuth} (hctx : strict → ctx.onlyLinkToExistingPermission = true) :
    Preserves (Sound strict) (linkauth ctx link) := by
  intro s u s' h hs
  obtain ⟨-, hlinkable, hend⟩ := linkauth_ok h
  have htarget : strict →
      link.requirement = eosioAnyName ∨ Named s link.account link.requirement := by
    intro hstrict
    rcases hlinkable with hany | hexists
    · exact .inl hany
    · rw [if_pos (hctx hstrict)] at hexists
      obtain ⟨p, hp⟩ := Option.isSome_iff_exists.mp hexists
      obtain ⟨hmem, hrest⟩ := findByOwner_some hp
      exact .inr ⟨p, hmem, hrest⟩
  rcases hend with ⟨hfree, r, -, rfl⟩ | ⟨-, rfl⟩
  · refine ⟨hs.forest, fun hstrict l hl => ?_⟩
    simp only [Table.mem_insert] at hl
    rcases hl with hl | rfl
    · exact hs.links hstrict l hl
    · exact htarget hstrict
  · refine ⟨hs.forest, fun hstrict l hl => ?_⟩
    obtain ⟨l', hl', rfl⟩ := List.mem_map.mp hl
    split
    · rename_i hkey
      have haccount : l'.account = link.account := congrArg (fun k : Name × Name × Name => k.1) hkey
      show link.requirement = eosioAnyName ∨ Named s l'.account link.requirement
      rw [haccount]
      exact htarget hstrict
    · exact hs.links hstrict l' hl'

theorem sound_unlinkauth {unlink : UnlinkAuth} :
    Preserves (Sound strict) (unlinkauth ctx unlink) := by
  intro s u s' h hs
  obtain ⟨l, r, -, -, rfl⟩ := unlinkauth_ok h
  exact ⟨hs.forest, fun hstrict l hl => hs.links hstrict l (Table.mem_erase.mp hl).1⟩

theorem sound_replaceAuth {level : PermissionLevel} {auth : Auth} :
    Preserves (Sound strict) (replaceAuth level auth) := by
  intro s u s' h hs
  obtain ⟨p, hactor, hfind, rfl⟩ := replaceAuth_ok h
  obtain ⟨hp, howner, -⟩ := findByOwner_some hfind
  exact hs.exchanged (hs.id_ne_zero hp (howner ▸ hactor)) auth

theorem sound_createPermissions {name : Name} {owner active : Auth} {time : Nat} :
    Preserves (Sound strict) (createPermissions ctx name owner active time) := by
  intro s u s' h hs
  obtain ⟨t, hfree, hfree', rfl⟩ := createPermissions_ok h
  have howner : Sound strict (addPermission name ownerName 0 owner t s) :=
    hs.added hfree (by decide) (by simp) (by simp)
  refine howner.added hfree' (by decide) ?_ ?_
  · simp [hs.forest.next_ne_zero, show activeName ≠ ownerName by decide]
  · intro _
    exact ⟨_, (mem_push _).mpr (.inr rfl), rfl, rfl⟩

theorem sound_walk : Walk fun s s' => Sound strict s → Sound strict s' :=
  auth_walk.invariant fun _ _ h hs => hs.congr h.toSamePermissions

theorem sound_newaccount {create : NewAccount} : Preserves (Sound strict) (newaccount ctx create) :=
  sound_walk.newaccount (fun _ _ => sound_createAccount) fun _ => sound_createPermissions

variable {conf : Conf}

theorem sound_createNativeAccount {name : Name} {owner active : Auth} {privileged : Bool} :
    Preserves (Sound strict) (createNativeAccount conf name owner active privileged) :=
  sound_walk.createNativeAccount (fun _ _ _ => sound_createAccount) fun _ => sound_createPermissions

theorem sound_manage {action : ManageAction}
    (hctx : strict → ctx.onlyLinkToExistingPermission = true) :
    Preserves (Sound strict) (action.apply ctx) := by
  cases action with
  | updateauth update => exact sound_updateauth
  | deleteauth remove => exact sound_deleteauth
  | linkauth link => exact sound_linkauth hctx
  | unlinkauth unlink => exact sound_unlinkauth

/-- `prod.major` under `active`, and `prod.minor` under `prod.major`. -/
theorem sound_createProducerPermissions :
    Preserves (Sound strict) (createProducerPermissions conf) := by
  intro s u s' h hs
  rw [createProducerPermissions, get_bind] at h
  obtain ⟨active, hactive, h⟩ := raise_bind_inv h
  obtain ⟨-, -, hactive⟩ := getPermission_ok hactive
  obtain ⟨hmem, howner, -⟩ := findByOwner_some hactive
  have hid : active.id ≠ 0 := hs.id_ne_zero hmem (howner ▸ by decide)
  obtain ⟨major, s1, hmajor, h⟩ := bind_ok_inv h
  obtain ⟨hfree, rfl, rfl⟩ := createPermission_ok hmajor
  obtain ⟨minor, s2, hminor, h⟩ := bind_ok_inv h
  obtain ⟨hfree', -, rfl⟩ := createPermission_ok hminor
  cases h
  refine Sound.added (hs.added hfree (by decide) ?_ ?_) hfree' (by decide) ?_ ?_
  · simp [hid, show majorityProducersPermissionName ≠ ownerName by decide]
  · intro _
    exact ⟨active, hmem, rfl, howner⟩
  · simp [hs.forest.next_ne_zero, show minorityProducersPermissionName ≠ ownerName by decide]
  · intro _
    exact ⟨_, (mem_push _).mpr (.inr rfl), rfl, rfl⟩

/-- The steps that leave permissions, links and the names of accounts alone. -/
def SparesAuth : Step → Prop
  | .reservePermission | .createNativeAccount .. | .createProducerPermissions | .checkFuncOpen _
  | .updateProducersAuthority _ | .newaccount .. | .manage .. => False
  | _ => True

theorem sameAuth_perform {vm : Vm} {step : Step} (hstep : SparesAuth step) :
    Keeps SameAuth (step.perform vm conf) := by
  cases step with
  | insert => exact auth_walk.sameNative sameNative_memoryInsert
  | initializeContract => exact sameAuth_of_onlyCode onlyCode_initializeContract
  | setNumConfig => exact auth_walk.setNumConfig
  | activateReplaceDeferred => exact sameAuth_of_onlyDeferred onlyDeferred_activateReplaceDeferred
  | setcode => exact sameAuth_of_onlyCode onlyCode_setcode
  | setabi => exact sameAuth_of_onlyCode onlyCode_setabi
  | setconfig => exact reads_require.bind_keeps fun _ => auth_walk.setNumConfig
  | contract ctx op => exact auth_walk.sameNative (sameNative_perform op)
  | scheduleDeferred => exact sameAuth_of_onlyDeferred onlyDeferred_scheduleDeferred
  | delayTransaction => exact sameAuth_of_onlyDeferred onlyDeferred_delayTransaction
  | removeDeferred => exact sameAuth_of_onlyDeferred onlyDeferred_removeDeferred
  | _ => exact absurd hstep id

/-- With `strict`, links are only made to permissions that are there. -/
def Strict : Step → Prop
  | .manage ctx _ => ctx.onlyLinkToExistingPermission = true
  | _ => True

/-- **STEP**: every step but the reservation of permission 0 keeps the forest. -/
theorem sound_perform {vm : Vm} (step : Step) (hstep : step ≠ .reservePermission)
    (hstrict : strict → Strict step) : Preserves (Sound strict) (step.perform vm conf) := by
  cases step with
  | reservePermission => exact absurd rfl hstep
  | createNativeAccount name owner active privileged => exact sound_createNativeAccount
  | createProducerPermissions => exact sound_createProducerPermissions
  | checkFuncOpen headNum =>
    exact sound_walk.checkFuncOpen (sound_of_sameAuth (sameAuth_of_onlyCode onlyCode_loadContracts))
      fun _ _ => sound_replaceAuth
  | updateProducersAuthority producers =>
    exact sound_walk.updateProducersAuthority fun _ _ => sound_replaceAuth
  | newaccount ctx create => exact sound_newaccount
  | manage ctx action => exact sound_manage hstrict
  | _ => exact sound_of_sameAuth (sameAuth_perform trivial)

/-! ## Genesis -/

/-- The reserved permission, and the two permissions of one account. -/
theorem forest_of_first (account : Name) (owner active : Auth) (time : Nat)
    (hrows : ∀ p, p ∈ permissions.rows ↔ p = { id := 0 } ∨
      p = ⟨1, 0, 0, account, ownerName, time, owner⟩ ∨
      p = ⟨2, 1, 1, account, activeName, time, active⟩)
    (husages : ∀ usage, usage ∈ usages.rows ↔ usage = ⟨0, time⟩ ∨ usage = ⟨1, time⟩) :
    Forest permissions usages := by
  have howner : ownerName ≠ noName := by decide
  have hactive : activeName ≠ noName := by decide
  have hother : activeName ≠ ownerName := by decide
  constructor
  · exact find_of_mem (x := { id := 0 }) ((hrows _).mpr (.inl rfl))
  · simp only [hrows]
    rintro p (rfl | rfl | rfl) q (rfl | rfl | rfl) _ hname
    · rfl
    · exact absurd hname.symm howner
    · exact absurd hname.symm hactive
    · exact absurd hname howner
    · rfl
    · exact absurd hname.symm hother
    · exact absurd hname hactive
    · exact absurd hname hother
    · rfl
  · simp [hrows, howner, hactive]
  · simp [hrows, hother]
  · simp [hrows]
  · simp [hrows, husages]
  · simp [hrows]
  · simp [hrows]

/-- With the permissions of the system account there is a forest for the first
    time. -/
theorem sound_first {owner active : Auth} {privileged : Bool} {reserved : State} {u : Unit}
    (hpermissions : reserved.permissions = Serial.empty.push (fun id => { id := id }) fun _ => rfl)
    (husages : reserved.usages = Serial.empty) (hlinks : reserved.links = Table.empty)
    (h : createNativeAccount conf systemAccountName owner active privileged reserved = .ok u s) :
    Sound strict s := by
  obtain ⟨_, s1, haccount, h⟩ := bind_ok_inv h
  obtain ⟨hp, hu, hl⟩ := samePermissions_createAccount _ _ _ haccount
  obtain ⟨_, s2, hcreate, h⟩ := bind_ok_inv h
  obtain ⟨t, -, -, rfl⟩ := createPermissions_ok hcreate
  refine Sound.congr ⟨?_, ?_⟩ (auth_walk.sameNative
    sameNative_chargeNativeAccount _ _ _ h).toSamePermissions
  · refine forest_of_first systemAccountName owner active t ?_ ?_
    · intro p
      simp [addPermission, hp, hu, hpermissions, husages, Serial.push, Serial.empty]
    · intro usage
      simp [addPermission, hu, husages, Serial.push, Serial.empty]
  · intro _ l hmem
    rw [addPermission, addPermission, hl, hlinks] at hmem
    exact absurd hmem (List.not_mem_nil)

/-- The steps of genesis after the first two. -/
theorem genesisSteps_rest (conf : Conf) :
    ∀ step ∈ (genesisSteps conf).drop 2, step ≠ .reservePermission ∧ Strict step := by
  intro step hstep
  rw [show (genesisSteps conf).drop 2 = ((genesisSteps conf).drop 2).take 6 ++
    (genesisSteps conf).drop 8 from rfl, List.mem_append] at hstep
  rcases hstep with hstep | hstep
  · simp only [genesisSteps, List.cons_append, List.drop_succ_cons, List.drop_zero,
      List.take_succ_cons, List.take_zero, List.mem_cons, List.not_mem_nil, or_false] at hstep
    rcases hstep with rfl | rfl | rfl | rfl | rfl | rfl <;> exact ⟨by simp, trivial⟩
  · exact genesisSteps_late (P := fun step => step ≠ .reservePermission ∧ Strict step)
      (fun _ _ _ _ _ _ => ⟨by simp, trivial⟩) (fun _ _ _ _ => ⟨by simp, trivial⟩)
      (fun _ _ => ⟨by simp, trivial⟩) ⟨by simp, trivial⟩ step hstep

theorem sound_genesis {vm : Vm} (h : initializeDatabase vm conf blank = .ok () s) :
    Sound strict s := by
  obtain ⟨_, s1, hreserve, h⟩ := bind_ok_inv h
  cases hreserve
  obtain ⟨_, s2, hsystem, h⟩ := bind_ok_inv h
  have hfirst : Sound strict s2 := sound_first rfl rfl rfl hsystem
  have hrest : Preserves (Sound strict)
      (((genesisSteps conf).drop 2).forM fun step => step.perform vm conf) :=
    preserves_forM fun step hstep =>
      sound_perform step (genesisSteps_rest conf step hstep).1 fun _ =>
        (genesisSteps_rest conf step hstep).2
  exact hrest _ _ _ h hfirst

/-- **RUN**: every state of a chain has a forest. -/
theorem sound_of_reachable (strict : Prop) {vm : Vm} {allowed : Step → Prop}
    (hallowed : strict → ∀ step, allowed step → Strict step) (h : Reachable vm conf allowed s) :
    Sound strict s := by
  refine h.invariant (fun s hs => sound_genesis hs) fun step hlive hstep => ?_
  refine sound_perform step ?_ fun hstrict => hallowed hstrict step hstep
  rintro rfl
  exact hlive

end PermissionForest
