import EosForce.PermissionForestProofs

/-! # Permissions in a snapshot

    A snapshot has the permissions in the order of their numbers, without the
    numbers: a parent is written as its name.  The reader numbers the rows
    from 0 and looks a parent up among the rows that it has read so far.  In a
    forest every parent stands before its children, so the reader finds them,
    and what it builds is the forest that was written with its numbers closed
    up. -/

namespace PermissionSnapshot

open ChainTypes TrxTypes Effect Authority RowTable StateTables List Serial
  PermissionStore NativeActions NativeFrame ParentChain PermissionForest

/-! ## Writing and reading -/

/-- `snapshot_permission_object`. -/
structure SnapshotPermission where
  parent : Name
  owner : Name
  name : Name
  lastUpdated : Nat
  lastUsed : Nat
  auth : Auth
deriving DecidableEq, Repr

/-- The two tables that the section of the permissions stands for. -/
structure Store where
  permissions : Permissions
  usages : Serial PermissionUsage.id

/-- `db.get`. -/
def fetch {α : Type} : Option α → Except FcException α
  | some a => .ok a
  | none => .error ⟨.keyNotFound, "unknown key"⟩

/-- `to_snapshot_row`. -/
def toSnapshotRow (t : Store) (value : PermissionObject) :
    Except FcException SnapshotPermission := do
  let parent ← fetch (t.permissions.find value.parent)
  let usage ← fetch (t.usages.find value.usageId)
  pure
    { parent := parent.name
      owner := value.owner
      name := value.name
      lastUpdated := value.lastUpdated
      lastUsed := usage.lastUsed
      auth := value.auth }

/-- `add_to_snapshot`, the section of the permissions. -/
def addToSnapshot (t : Store) : Except FcException (List SnapshotPermission) :=
  t.permissions.rows.mapM (toSnapshotRow t)

/-- What has to be in the row of the reserved permission. -/
def checkReserved (row : SnapshotPermission) : Except FcException Unit := do
  eosAssert (row.parent = noName) .snapshot "Unexpected parent name on reserved permission 0"
  eosAssert (row.name = noName) .snapshot "Unexpected permission name on reserved permission 0"
  eosAssert (row.owner = noName) .snapshot "Unexpected owner name on reserved permission 0"
  eosAssert (row.auth.accounts.length = 0) .snapshot
    "Unexpected auth accounts on reserved permission 0"
  eosAssert (row.auth.keys.length = 0) .snapshot "Unexpected auth keys on reserved permission 0"
  eosAssert (row.auth.waits.length = 0) .snapshot "Unexpected auth waits on reserved permission 0"
  eosAssert (row.auth.threshold = 0) .snapshot "Unexpected auth threshold on reserved permission 0"
  eosAssert (row.lastUpdated = 0) .snapshot "Unexpected auth last updated on reserved permission 0"

/-- The parent that a row names. -/
def resolveParent (t : Store) (row : SnapshotPermission) : Except FcException Nat :=
  if row.parent = noName then pure 0
  else do
    let parent ← fetch (findByOwner t.permissions row.owner row.parent)
    eosAssert (parent.id ≠ 0) .snapshot "Unexpected mapping to reserved permission 0"
    pure parent.id

/-- The permission is entered in the index. -/
def enter (t : Store) (row : SnapshotPermission) (parent usageId : Nat) :
    Except FcException Store := do
  eosAssert (findByOwner t.permissions row.owner row.name = none) .uniqueness
    "could not insert object, most likely a uniqueness constraint was violated"
  pure
    { t with
      permissions := t.permissions.push
        (fun id => ⟨id, usageId, parent, row.owner, row.name, row.lastUpdated, row.auth⟩)
        fun _ => rfl }

/-- `from_snapshot_row`, in the `create` that calls it. -/
def fromSnapshotRow (t : Store) (row : SnapshotPermission) : Except FcException Store :=
  if t.permissions.next = 0 then do
    checkReserved row
    enter t row 0 0
  else do
    let parent ← resolveParent t row
    enter { t with usages := t.usages.push (fun id => ⟨id, row.lastUsed⟩) fun _ => rfl } row parent
      t.usages.next

/-- `read_from_snapshot`, the section of the permissions, into an empty
    database. -/
def readFromSnapshot (rows : List SnapshotPermission) : Except FcException Store :=
  rows.foldlM fromSnapshotRow ⟨Serial.empty, Serial.empty⟩

/-! ## What is written -/

variable (permissions : Permissions)

/-- The name of the parent. -/
def parentName (p : PermissionObject) : Name :=
  ((permissions.find p.parent).map (·.name)).getD noName

/-- The row of a permission whose parent and usage object are there. -/
def rowOf (t : Store) (p : PermissionObject) : SnapshotPermission where
  parent := parentName t.permissions p
  owner := p.owner
  name := p.name
  lastUpdated := p.lastUpdated
  lastUsed := ((t.usages.find p.usageId).map (·.lastUsed)).getD 0
  auth := p.auth

variable {t u : Store} {p q : PermissionObject}

theorem parentName_of_find {permissions : Permissions} (h : permissions.find p.parent = some q) :
    parentName permissions p = q.name := by
  rw [parentName, h]
  rfl

theorem mapM_ok {α β : Type} {f : α → Except FcException β} {g : α → β} {l : List α}
    (h : ∀ a ∈ l, f a = .ok (g a)) : l.mapM f = .ok (l.map g) := by
  induction l with
  | nil => rfl
  | cons a l ih =>
    rw [mapM_cons, h a mem_cons_self, ih fun b hb => h b (mem_cons_of_mem a hb)]
    rfl

section

variable (h : Forest t.permissions t.usages)
include h

theorem toSnapshotRow_forest (hp : p ∈ t.permissions.rows) :
    toSnapshotRow t p = .ok (rowOf t p) := by
  obtain ⟨q, -, -, hfind⟩ := h.parent_mem hp
  obtain ⟨usage, husage, hid⟩ := h.used p hp
  have hfind' : t.usages.find p.usageId = some usage := hid ▸ find_of_mem husage
  rw [toSnapshotRow, rowOf, hfind, hfind', parentName_of_find hfind]
  rfl

/-- **WRITTEN**: every permission of a forest has a row. -/
theorem addToSnapshot_forest : addToSnapshot t = .ok (t.permissions.rows.map (rowOf t)) :=
  mapM_ok fun _ hp => toSnapshotRow_forest h hp

/-! ## What is read -/

/-- The permission with its numbers closed up. -/
def renumber (p : PermissionObject) : PermissionObject :=
  { p with
    id := permissions.rank p.id
    usageId := permissions.rank p.id - 1
    parent := permissions.rank p.parent }

/-- The reader has built this much of `t`. -/
structure Loaded (t : Store) (done : List PermissionObject) (u : Store) : Prop where
  rows : u.permissions.rows = done.map (renumber t.permissions)
  next : u.permissions.next = done.length
  usages : u.usages.next = done.length - 1

/-- The first row is the reserved permission. -/
theorem first_reserved {post : List PermissionObject} (hrows : t.permissions.rows = p :: post) :
    p = { id := 0 } := by
  have hp : p ∈ t.permissions.rows := hrows ▸ mem_cons_self
  refine h.eq_zero hp ?_
  have hzero := h.zero_mem
  rw [hrows] at hzero
  rcases mem_cons.mp hzero with heq | hpost
  · rw [← heq]
  · have hsplit : t.permissions.rows = [] ++ p :: post := hrows
    have hlt := (sorted_split hsplit).2 _ hpost
    exact absurd hlt (Nat.not_lt_zero _)

theorem checkReserved_first : checkReserved (rowOf t { id := 0 }) = .ok () := by
  have hparent : (rowOf t { id := 0 }).parent = noName :=
    parentName_of_find (p := { id := 0 }) (q := { id := 0 }) h.reserved
  rw [checkReserved, hparent]
  rfl

variable {pre post : List PermissionObject}

section

variable (hrows : t.permissions.rows = pre ++ p :: post) (hloaded : Loaded t pre u)
include hrows hloaded

/-- No row that was read has the owner and name of a later one. -/
theorem fresh_of_loaded : findByOwner u.permissions p.owner p.name = none := by
  rw [findByOwner, List.find?_eq_none, hloaded.rows]
  intro x hx hsame
  obtain ⟨y, hy, rfl⟩ := mem_map.mp hx
  obtain ⟨howner, hname⟩ := of_decide_eq_true hsame
  have hy' : y ∈ t.permissions.rows := hrows ▸ mem_append_left _ hy
  have hp : p ∈ t.permissions.rows := hrows ▸ mem_append_right _ mem_cons_self
  have heq : y = p := h.unique y hy' p hp howner hname
  have hlt := (sorted_split hrows).1 y hy
  rw [heq] at hlt
  exact absurd hlt (Nat.lt_irrefl _)

/-- The parent of a row stands before it, and the reader finds it by name. -/
theorem resolveParent_loaded : resolveParent u (rowOf t p) = .ok (t.permissions.rank p.parent) := by
  have hp : p ∈ t.permissions.rows := hrows ▸ mem_append_right _ mem_cons_self
  by_cases hparent : p.parent = 0
  · have hname : (rowOf t p).parent = noName :=
      parentName_of_find (q := { id := 0 }) (hparent ▸ h.reserved)
    rw [resolveParent, if_pos hname, hparent, rank_zero]
    rfl
  · obtain ⟨q, hq, hid, hlt, howner⟩ := h.parents p hp hparent
    have hqid : q.id ≠ 0 := hid.symm ▸ hparent
    have hname : (rowOf t p).parent = q.name :=
      parentName_of_find (hid ▸ find_of_mem hq)
    -- the parent was read before
    have hpre : q ∈ pre := by
      rw [hrows] at hq
      rcases mem_append.mp hq with hq | hq
      · exact hq
      · rcases mem_cons.mp hq with rfl | hq
        · exact absurd hlt (Nat.lt_irrefl _)
        · exact absurd ((sorted_split hrows).2 q hq) (Nat.lt_asymm hlt)
    have hfind : findByOwner u.permissions p.owner q.name = some (renumber t.permissions q) := by
      have hsome : (findByOwner u.permissions p.owner q.name).isSome := by
        rw [findByOwner, List.find?_isSome, hloaded.rows]
        exact ⟨_, mem_map_of_mem hpre, decide_eq_true ⟨howner, rfl⟩⟩
      obtain ⟨x, hx⟩ := Option.isSome_iff_exists.mp hsome
      obtain ⟨hmem, hxo, hxn⟩ := findByOwner_some hx
      rw [hloaded.rows] at hmem
      obtain ⟨y, hy, rfl⟩ := mem_map.mp hmem
      have hy' : y ∈ t.permissions.rows := hrows ▸ mem_append_left _ hy
      rw [hx, h.unique y hy' q hq (hxo.trans howner.symm) hxn]
    have hrank : t.permissions.rank q.id ≠ 0 := by
      have hzero := rank_lt h.zero_mem (Nat.pos_of_ne_zero hqid)
      exact Nat.ne_of_gt (Nat.lt_of_le_of_lt (Nat.zero_le _) hzero)
    rw [resolveParent, hname, if_neg (h.named q hq hqid)]
    show (do
      let parent ← fetch (findByOwner u.permissions p.owner q.name)
      eosAssert (parent.id ≠ 0) .snapshot "Unexpected mapping to reserved permission 0"
      pure parent.id : Except FcException Nat) = _
    rw [hfind, ← hid]
    show (do
      eosAssert (t.permissions.rank q.id ≠ 0) .snapshot
        "Unexpected mapping to reserved permission 0"
      pure (t.permissions.rank q.id) : Except FcException Nat) = _
    rw [eosAssert_ok_iff.mpr hrank]
    rfl

/-- The row is entered behind those that were read. -/
theorem enter_loaded (usages : Serial PermissionUsage.id) (hnext : usages.next = pre.length) :
    ∃ v, enter { u with usages := usages } (rowOf t p) (t.permissions.rank p.parent)
      (pre.length - 1) = .ok v ∧ Loaded t (pre ++ [p]) v := by
  have hfresh : findByOwner u.permissions (rowOf t p).owner (rowOf t p).name = none :=
    fresh_of_loaded h hrows hloaded
  rw [enter, eosAssert_ok_iff.mpr hfresh]
  refine ⟨_, rfl, ?_, ?_, ?_⟩
  · show u.permissions.rows ++ [_] = _
    rw [hloaded.rows, map_append, map_singleton, renumber, rank_split hrows, hloaded.next]
    rfl
  · show u.permissions.next + 1 = _
    rw [hloaded.next, length_append]
    rfl
  · show usages.next = _
    rw [hnext, length_append]
    rfl

/-- One row more. -/
theorem fromSnapshotRow_loaded :
    ∃ v, fromSnapshotRow u (rowOf t p) = .ok v ∧ Loaded t (pre ++ [p]) v := by
  rw [fromSnapshotRow]
  by_cases hfirst : u.permissions.next = 0
  · have hpre : pre = [] := length_eq_zero_iff.mp (hloaded.next ▸ hfirst)
    subst hpre
    have hp := first_reserved h hrows
    obtain ⟨v, hv, hdone⟩ := enter_loaded h hrows hloaded u.usages hloaded.usages
    refine ⟨v, ?_, hdone⟩
    rw [hp] at hv ⊢
    rw [if_pos hfirst, checkReserved_first h]
    rw [rank_zero] at hv
    exact hv
  · have hpre : pre.length ≠ 0 := hloaded.next ▸ hfirst
    obtain ⟨v, hv, hdone⟩ := enter_loaded h hrows hloaded
      (u.usages.push (fun id => ⟨id, (rowOf t p).lastUsed⟩) fun _ => rfl) (by
        show u.usages.next + 1 = _
        rw [hloaded.usages]
        omega)
    refine ⟨v, ?_, hdone⟩
    rw [if_neg hfirst, resolveParent_loaded h hrows hloaded, hloaded.usages]
    exact hv

end

/-- The rows that are left, by induction on them. -/
theorem foldlM_loaded :
    ∀ (post pre : List PermissionObject) (u : Store), t.permissions.rows = pre ++ post →
      Loaded t pre u → ∃ v, (post.map (rowOf t)).foldlM fromSnapshotRow u = .ok v ∧
        Loaded t t.permissions.rows v := by
  intro post
  induction post with
  | nil =>
    intro pre u hrows hloaded
    rw [append_nil] at hrows
    exact ⟨u, rfl, hrows ▸ hloaded⟩
  | cons p post ih =>
    intro pre u hrows hloaded
    obtain ⟨v, hv, hdone⟩ := fromSnapshotRow_loaded h hrows hloaded
    obtain ⟨w, hw, hall⟩ := ih (pre ++ [p]) v (by rw [hrows, append_assoc]; rfl) hdone
    refine ⟨w, ?_, hall⟩
    rw [map_cons, foldlM_cons, hv]
    exact hw

/-- **READ**: the reader builds the renumbered forest. -/
theorem readFromSnapshot_forest : ∃ u, readFromSnapshot (t.permissions.rows.map (rowOf t)) = .ok u ∧
      Loaded t t.permissions.rows u :=
  foldlM_loaded h t.permissions.rows [] _ rfl ⟨rfl, rfl, rfl⟩

/-! ## The same forest -/

section

variable (hloaded : Loaded t t.permissions.rows u)
include hloaded

omit h in
theorem find_loaded (hp : p ∈ t.permissions.rows) :
    u.permissions.find (t.permissions.rank p.id) = some (renumber t.permissions p) :=
  find_of_mem (x := renumber t.permissions p) (hloaded.rows ▸ mem_map_of_mem hp)

/-- The walk from a permission is the same after renumbering. -/
theorem walkUp_loaded (hp : p ∈ t.permissions.rows) :
    ∀ (steps : Nat) (q : PermissionObject), q ∈ t.permissions.rows →
      walkUp u.permissions (t.permissions.rank p.id) steps (renumber t.permissions q) =
        walkUp t.permissions p.id steps q := by
  intro steps
  induction steps with
  | zero =>
    intro q _
    rfl
  | succ steps ih =>
    intro q hq
    obtain ⟨r, hr, hid, hfind⟩ := h.parent_mem hq
    have hself : t.permissions.rank p.id = t.permissions.rank q.parent ↔ p.id = q.parent := by
      rw [← hid]
      exact rank_inj hp hr
    have hroot : t.permissions.rank q.parent = 0 ↔ q.parent = 0 := by
      rw [← hid, ← rank_inj hr h.zero_mem]
      show _ ↔ _ = t.permissions.rank 0
      rw [rank_zero]
    have hnext : u.permissions.find (t.permissions.rank q.parent) =
        some (renumber t.permissions r) := hid ▸ find_loaded hloaded hr
    have hnumber : (renumber t.permissions q).parent = t.permissions.rank q.parent := rfl
    rw [walkUp, walkUp, hfind, hnumber, hnext]
    simp only [hself, hroot, ih r hr]

/-- `satisfies` is the same after renumbering, whatever the steps. -/
theorem satisfies_loaded (hp : p ∈ t.permissions.rows) (hq : q ∈ t.permissions.rows) (steps : Nat) :
    satisfies u.permissions steps (renumber t.permissions p) (renumber t.permissions q) =
      satisfies t.permissions steps p q := by
  obtain ⟨r, hr, hid, hfind⟩ := h.parent_mem hq
  have hself := rank_inj (t := t.permissions) hp hq
  have hparent : t.permissions.rank p.id = t.permissions.rank q.parent ↔ p.id = q.parent := by
    rw [← hid]
    exact rank_inj hp hr
  have hnext : u.permissions.find (t.permissions.rank q.parent) =
      some (renumber t.permissions r) := hid ▸ find_loaded hloaded hr
  have howner : ∀ x, (renumber t.permissions x).owner = x.owner := fun _ => rfl
  have hid : ∀ x, (renumber t.permissions x).id = t.permissions.rank x.id := fun _ => rfl
  have hnumber : (renumber t.permissions q).parent = t.permissions.rank q.parent := rfl
  rw [satisfies, satisfies, hfind, hnumber, hnext]
  simp only [howner, hid, hself, hparent, walkUp_loaded h hloaded hp steps r hr]

/-- Owner, name, parent name and authority of a permission. -/
def view (p : PermissionObject) : Name × Name × Name × Auth :=
  (p.owner, p.name, parentName permissions p, p.auth)

theorem view_loaded (hp : p ∈ t.permissions.rows) :
    view u.permissions (renumber t.permissions p) = view t.permissions p := by
  obtain ⟨r, hr, hid, hfind⟩ := h.parent_mem hp
  have hnext : u.permissions.find (renumber t.permissions p).parent =
      some (renumber t.permissions r) := by
    show u.permissions.find (t.permissions.rank p.parent) = _
    rw [← hid]
    exact find_loaded hloaded hr
  rw [view, view, parentName_of_find hnext, parentName_of_find hfind]
  rfl

/-- The same forest: the same views in the same order, and the same answers of
    `satisfies` for permissions of the same owner and name. -/
structure SameForest (permissions permissions' : Permissions) : Prop where
  views : permissions'.rows.map (view permissions') = permissions.rows.map (view permissions)
  answers : ∀ p ∈ permissions.rows, ∀ q ∈ permissions.rows,
    ∀ p' ∈ permissions'.rows, ∀ q' ∈ permissions'.rows,
    p'.owner = p.owner → p'.name = p.name → q'.owner = q.owner → q'.name = q.name →
    ∀ steps, satisfies permissions' steps p' q' = satisfies permissions steps p q

theorem sameForest_of_loaded : SameForest t.permissions u.permissions where
  views := by
    rw [hloaded.rows, map_map]
    exact map_congr_left fun p hp => view_loaded h hloaded hp
  answers := by
    intro p hp q hq p' hp' q' hq' hpo hpn hqo hqn steps
    rw [hloaded.rows] at hp' hq'
    obtain ⟨x, hx, rfl⟩ := mem_map.mp hp'
    obtain ⟨y, hy, rfl⟩ := mem_map.mp hq'
    rw [← h.unique x hx p hp hpo hpn, ← h.unique y hy q hq hqo hqn]
    exact satisfies_loaded h hloaded hx hy steps

end

/-- **ROUND TRIP**: what is written of a forest can be read, and is the same
    forest. -/
theorem snapshot_round_trip : ∃ rows u, addToSnapshot t = .ok rows ∧ readFromSnapshot rows = .ok u ∧
      SameForest t.permissions u.permissions := by
  obtain ⟨u, hread, hloaded⟩ := readFromSnapshot_forest h
  exact ⟨_, u, addToSnapshot_forest h, hread, sameForest_of_loaded h hloaded⟩

end

/-! ## The permission store of a chain -/

/-- The tables of the permissions in the database. -/
def storeOf (s : State) : Store := ⟨s.permissions, s.usages⟩

/-- **FOREST**: in every state of a chain the parents of a permission (the
    reserved one apart) have its owner and smaller numbers, up to the owner
    permission; `satisfies` comes to an answer, which is whether the one is the
    other or one of its ancestors; where links were checked throughout they go
    to permissions that are there; and a snapshot gives the same forest. -/
theorem permission_store_is_forest {vm : Vm} {conf : Conf} {allowed : Step → Prop} {s : State}
    (h : Reachable vm conf allowed s) :
    (∀ p ∈ s.permissions.rows, p.id ≠ 0 →
      (p.parent ≠ 0 → ∃ q ∈ s.permissions.rows, q.id = p.parent ∧ q.id < p.id ∧
        q.owner = p.owner) ∧
      (∀ q ∈ s.permissions.rows, q.id ≠ 0 → Above (parentOf s.permissions) q.id p.id →
        q.owner = p.owner) ∧
      ∃ root ∈ s.permissions.rows, root.owner = p.owner ∧ root.name = ownerName ∧
        root.parent = 0 ∧ Above (parentOf s.permissions) root.id p.id) ∧
    (∀ p ∈ s.permissions.rows, ∀ q ∈ s.permissions.rows, ∀ steps, s.permissions.next ≤ steps →
      ∃ b, satisfies s.permissions steps p q = .answer b ∧
        (b = true ↔ p.owner = q.owner ∧ Above (parentOf s.permissions) p.id q.id)) ∧
    ((∀ step, allowed step → Strict step) → LinksOk s) ∧
    ∃ rows u, addToSnapshot (storeOf s) = .ok rows ∧ readFromSnapshot rows = .ok u ∧
      SameForest s.permissions u.permissions := by
  have hforest : Forest s.permissions s.usages :=
    (sound_of_reachable False (fun hfalse => hfalse.elim) h).forest
  refine ⟨fun p hp hid => ⟨hforest.parents p hp, fun q hq hqid habove => ?_, ?_⟩, ?_, ?_, ?_⟩
  · exact hforest.above_owner hp hq hqid habove
  · exact hforest.chain_ends p.id p hp rfl hid
  · intro p hp q hq steps hsteps
    exact satisfies_answers hforest hq hsteps
  · intro hallowed
    exact (sound_of_reachable True (fun _ => hallowed) h).links trivial
  · exact snapshot_round_trip (t := storeOf s) hforest

/-- The system account makes a permission under its active one and links
    `setconfig` to it. -/
def smallContext : ActionContext where
  receiver := systemAccountName
  account := systemAccountName
  authorization := [⟨systemAccountName, activeName⟩]
  pendingBlockTime := 2
  numSupportedKeyTypes := 2
  onlyLinkToExistingPermission := true

def smallUpdate : Step :=
  .manage smallContext (.updateauth ⟨systemAccountName, ⟨42⟩, activeName, keyAuthority [0, 2]⟩)

def smallLink : Step :=
  .manage smallContext (.linkauth ⟨systemAccountName, systemAccountName, ⟨43⟩, ⟨42⟩⟩)

def smallState : State :=
  commit (smallLink.perform smallVm smallConf)
    (commit (smallUpdate.perform smallVm smallConf) smallGenesis)

theorem smallState_reachable : Reachable smallVm smallConf Strict smallState := by
  have hgenesis : Reachable smallVm smallConf Strict smallGenesis := .genesis smallGenesis_ok
  have hupdate : smallUpdate.Live ∧ Strict smallUpdate := ⟨trivial, rfl⟩
  have hlink : smallLink.Live ∧ Strict smallLink := ⟨trivial, rfl⟩
  exact .step (.step hgenesis hupdate.1 hupdate.2) hlink.1 hlink.2

theorem permission_store_is_forest_small :
    smallState.links.rows = [⟨systemAccountName, systemAccountName, ⟨43⟩, ⟨42⟩⟩] ∧
      LinksOk smallState :=
  ⟨by decide +kernel, (permission_store_is_forest smallState_reachable).2.2.1 fun _ h => h⟩

end PermissionSnapshot
