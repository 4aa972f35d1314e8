import AiMemory.Db.Chain
import AiMemory.Db.Pending

/-!
# Enforcement

`enforce_governance` decides an action by the policy of its namespace. The policy may come from an ancestor; the owner
that a store under the level `owner` is compared with is always looked up at the namespace itself. So under an
inherited policy nobody is the owner (`inherited_owner_iff`).
-/

namespace AiMemory

open Relational

inductive GovernanceDecision where
  | allow
  | deny (reason : String)
  | pending (pendingId : String)
  deriving DecidableEq

def GovernancePolicy.levelFor (policy : GovernancePolicy) : GovernedAction → GovernanceLevel
  | .store => policy.write
  | .delete => policy.delete
  | .promote => policy.promote

namespace Db

def evaluateLevel (db : Db) (level : GovernanceLevel) (agentId : String) (memoryOwner namespaceOwner : Option String) :
    GovernanceDecision :=
  match level with
  | .any => .allow
  | .registered =>
    if db.isRegisteredAgent agentId then .allow
    else .deny s!"governance: caller '{agentId}' is not a registered agent"
  | .owner =>
    match memoryOwner.or namespaceOwner with
    | some o =>
      if o = agentId then .allow else .deny s!"governance: caller '{agentId}' is not the owner ('{o}')"
    | none => .deny "governance: owner-level action has no resolvable owner"
  | .approve => .pending ""

def ownerOf (mem : Memory) : Option String := (mem.metadata.get "agent_id").bind Json.asStr

def namespaceOwner (db : Db) (ns : String) : Option String := do
  let standardId ← db.getNamespaceStandard ns
  let mem ← db.get standardId
  ownerOf mem.toMemory

def enforceGovernance (db : Db) (mode : PermissionsMode) (action : GovernedAction) (ns agentId : String)
    (memoryId memoryOwner : Option String) (payload : Json) (newId now : String) :
    Except String (Db × GovernanceDecision) :=
  if mode = .off then .ok (db, .allow)
  else
    match db.resolveGovernancePolicy ns with
    | none => .ok (db, .allow)
    | some policy =>
      let nsOwner := if action = .store then db.namespaceOwner ns else none
      let decision := db.evaluateLevel (policy.levelFor action) agentId memoryOwner nsOwner
      if mode = .advisory then .ok (db, .allow)
      else
        match decision with
        | .pending _ =>
          match db.queuePendingAction action ns memoryId agentId payload newId now with
          | .ok (db, pendingId) => .ok (db, .pending pendingId)
          | .error error => .error error
        | decision => .ok (db, decision)

theorem queuePendingAction_eq_ok {db db' : Db} {action : GovernedAction} {ns requestedBy newId now id : String}
    {memoryId : Option String} {payload : Json}
    (h : db.queuePendingAction action ns memoryId requestedBy payload newId now = .ok (db', id)) :
    id = newId ∧ ∃ (row : PendingRow) (t : Table fun r : PendingRow => r.id), row.id = newId ∧
      row.actionType = action.asStr ∧ row.ns = ns ∧ row.payload = payload ∧ row.status = "pending" ∧
      db.pending.insertNew? row = some t ∧ db' = { db with pending := t } := by
  unfold queuePendingAction at h
  simp only at h
  split at h
  · rename_i t ht
    cases h
    exact ⟨rfl, _, t, rfl, rfl, rfl, rfl, rfl, ht, rfl⟩
  · cases h

/-- What the gate does: it answers and writes nothing, or it queues the action under the fresh id. -/
theorem enforceGovernance_cases {db db' : Db} {mode : PermissionsMode} {action : GovernedAction}
    {ns agentId newId now : String} {memoryId memoryOwner : Option String} {payload : Json} {d : GovernanceDecision}
    (h : db.enforceGovernance mode action ns agentId memoryId memoryOwner payload newId now = .ok (db', d)) :
    (db' = db ∧ ∀ id, d ≠ .pending id) ∨
    (d = .pending newId ∧ db.queuePendingAction action ns memoryId agentId payload newId now = .ok (db', newId)) := by
  unfold enforceGovernance at h
  by_cases hoff : mode = .off
  · rw [if_pos hoff] at h
    cases h
    exact Or.inl ⟨rfl, nofun⟩
  rw [if_neg hoff] at h
  cases hpolicy : db.resolveGovernancePolicy ns with
  | none =>
    rw [hpolicy] at h
    cases h
    exact Or.inl ⟨rfl, nofun⟩
  | some policy =>
    rw [hpolicy] at h
    simp only at h
    by_cases hadvisory : mode = .advisory
    · rw [if_pos hadvisory] at h
      cases h
      exact Or.inl ⟨rfl, nofun⟩
    rw [if_neg hadvisory] at h
    generalize db.evaluateLevel (policy.levelFor action) agentId memoryOwner _ = decision at h
    cases decision with
    | allow =>
      cases h
      exact Or.inl ⟨rfl, nofun⟩
    | deny reason =>
      cases h
      exact Or.inl ⟨rfl, nofun⟩
    | pending id =>
      cases hqueue : db.queuePendingAction action ns memoryId agentId payload newId now with
      | error e => rw [hqueue] at h; cases h
      | ok res =>
        rw [hqueue] at h
        cases h
        obtain rfl := (queuePendingAction_eq_ok hqueue).1
        exact Or.inr ⟨rfl, rfl⟩

/-- The policy of a namespace comes from the standard memory of a level. -/
structure Governs (db : Db) (ns level : String) (s : Memory) (policy : GovernancePolicy) : Prop where
  nearest : ∃ levels before after, Levels db ns levels ∧ levels = before ++ level :: after ∧
    ∀ nearer ∈ before, db.readNamespacePolicy nearer = none
  standard : db.getNamespaceStandard level = some s.id
  stored : (db.get s.id).map (fun row => row.toMemory) = some s
  policy : GovernancePolicy.fromMetadata s.metadata = some policy

section Owner

variable {db : Db} {ns level agentId newId now : String} {s : Memory} {policy : GovernancePolicy} {payload : Json}
  {memoryId : Option String}

theorem Governs.resolve (h : Governs db ns level s policy) : db.resolveGovernancePolicy ns = some policy := by
  obtain ⟨levels, before, after, hlevels, hsplit, hnearer⟩ := h.nearest
  have hread : db.readNamespacePolicy level = some policy := by
    obtain ⟨row, hrow, heq⟩ := Option.map_eq_some_iff.mp h.stored
    rw [readNamespacePolicy, h.standard]
    simp only [bind, Option.bind_some, hrow]
    rw [← h.policy, ← heq]
  refine List.findSome?_eq_some_iff.mpr ⟨before, level, after, ?_, hread, hnearer⟩
  rw [← levels_iff.mp hlevels, hsplit]

/-- A store under the level `owner` is decided by the owner of the namespace itself. -/
theorem enforce_store_owner (hpolicy : db.resolveGovernancePolicy ns = some policy) (hwrite : policy.write = .owner) :
    db.enforceGovernance .enforce .store ns agentId memoryId none payload newId now =
      .ok (db, db.evaluateLevel .owner agentId none (db.namespaceOwner ns)) := by
  unfold enforceGovernance
  rw [if_neg (by decide), hpolicy]
  simp only [GovernancePolicy.levelFor, hwrite, if_true]
  rw [if_neg (by decide), evaluateLevel, Option.none_or]
  cases db.namespaceOwner ns with
  | none => rfl
  | some o =>
    simp only
    split_ifs <;> rfl

theorem namespaceOwner_eq_none (h : db.getNamespaceStandard ns = none) : db.namespaceOwner ns = none := by
  rw [namespaceOwner, h]
  rfl

end Owner

/-- The owner of `s` is allowed to store, every other agent is denied. -/
def OwnerStores (db : Db) (ns : String) (s : Memory) (memoryId : Option String) (payload : Json) (newId now : String) :
    Prop :=
  ∀ agentId, ∃ decision,
    db.enforceGovernance .enforce .store ns agentId memoryId none payload newId now = .ok (db, decision) ∧
      (ownerOf s = some agentId → decision = .allow) ∧
      (ownerOf s ≠ some agentId → ∃ reason, decision = .deny reason)

/-- Under a policy that an ancestor's standard has, with `write` the owner's, the owner stores and no other agent does
exactly if the standard names no owner. -/
theorem inherited_owner_iff (db : Db) (ns level : String) (s : Memory) (policy : GovernancePolicy)
    (memoryId : Option String) (payload : Json) (newId now : String) (hgov : Governs db ns level s policy)
    (hwrite : policy.write = .owner) (hleaf : db.getNamespaceStandard ns = none) :
    OwnerStores db ns s memoryId payload newId now ↔ ownerOf s = none := by
  have hdeny : ∀ agentId, db.enforceGovernance .enforce .store ns agentId memoryId none payload newId now =
      .ok (db, .deny "governance: owner-level action has no resolvable owner") := by
    intro agentId
    rw [enforce_store_owner hgov.resolve hwrite, namespaceOwner_eq_none hleaf]
    rfl
  constructor
  · intro h
    by_contra howner
    obtain ⟨agentId, hagent⟩ := Option.ne_none_iff_exists'.mp howner
    obtain ⟨decision, hdec, hallow, -⟩ := h agentId
    rw [hdeny, hallow hagent] at hdec
    cases hdec
  · intro hnone agentId
    refine ⟨_, hdeny agentId, fun hagent => ?_, fun _ => ⟨_, rfl⟩⟩
    rw [hnone] at hagent
    cases hagent

/-- The standard of `team`, which names `owner`, lets the owner write. -/
def owned (owner : Option String) : Memory :=
  standardMemory "s1" "team" (.obj ((owner.map fun o => [("agent_id", Json.str o)]).getD [] ++
    [("governance", .obj [("write", .str "owner")])]))

def ownedTeam (owner : Option String) : Db :=
  { Db.empty with
    memories := ⟨⟨[(owned owner).toRow], List.nodup_singleton _⟩, List.nodup_singleton _⟩
    namespaceMeta := ⟨[⟨"team", "s1", none, "2026-01-01T09:00:00+00:00"⟩], by decide⟩ }

theorem governs_team (owner : Option String) (h : GovernancePolicy.fromMetadata (owned owner).metadata =
    some ⟨.owner, .any, .owner, .human, true⟩) :
    Governs (ownedTeam owner) "team/a" "team" (owned owner) ⟨.owner, .any, .owner, .human, true⟩ where
  nearest := by
    refine ⟨["team/a", "team", "*"], ["team/a"], ["*"], levels_iff.mpr rfl, rfl, ?_⟩
    intro nearer hn
    rw [List.mem_singleton.mp hn]
    rfl
  standard := rfl
  stored := rfl
  policy := h

/-- Where the standard of `team` names nobody, nobody stores in `team/a`. -/
theorem nobody_stores : OwnerStores (ownedTeam none) "team/a" (owned none) none .null "p1" "2026-01-02T00:00:00+00:00" :=
  (inherited_owner_iff _ _ _ _ _ _ _ _ _ (governs_team none (by decide)) rfl rfl).mpr rfl

/-- `alice` owns the standard of `team`, and may not store in `team/a`. -/
theorem owner_locked_out :
    Governs (ownedTeam (some "alice")) "team/a" "team" (owned (some "alice")) ⟨.owner, .any, .owner, .human, true⟩ ∧
      (ownedTeam (some "alice")).getNamespaceStandard "team/a" = none ∧ ownerOf (owned (some "alice")) = some "alice" ∧
      ((ownedTeam (some "alice")).enforceGovernance .enforce .store "team/a" "alice" none none .null "p1"
        "2026-01-02T00:00:00+00:00").map (·.2) = .ok (.deny "governance: owner-level action has no resolvable owner") ∧
      ¬OwnerStores (ownedTeam (some "alice")) "team/a" (owned (some "alice")) none .null "p1"
        "2026-01-02T00:00:00+00:00" := by
  have hgov := governs_team (some "alice") (by decide)
  have hcode : ((ownedTeam (some "alice")).enforceGovernance .enforce .store "team/a" "alice" none none .null "p1"
      "2026-01-02T00:00:00+00:00").map (·.2) = .ok (.deny "governance: owner-level action has no resolvable owner") := rfl
  refine ⟨hgov, rfl, rfl, hcode, fun h => ?_⟩
  obtain ⟨decision, hdec, hallow, -⟩ := h "alice"
  rw [hdec, hallow rfl] at hcode
  cases hcode

end Db

end AiMemory
