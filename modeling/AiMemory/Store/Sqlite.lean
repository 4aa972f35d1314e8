import AiMemory.Db.Instants

/-!
# The storage trait

`StoreError`, `UpdatePatch` and `Filter` of `store/mod.rs`, and the adapter of `store/sqlite.rs`, which passes each call
on to `db.rs`.
-/

namespace AiMemory

open Relational

/-- `StoreError`, as far as the methods modelled here raise it. -/
inductive StoreError where
  | notFound (id : String)
  | backendUnavailable (name detail : String)
  | integrityFailed (detail : String)
  | backend (e : String)
  deriving DecidableEq

def StoreError.toText : StoreError → String
  | notFound id => s!"memory not found: {id}"
  | backendUnavailable name detail => s!"backend unavailable: {name}: {detail}"
  | integrityFailed detail => s!"integrity check failed: {detail}"
  | backend e => s!"underlying backend error: {e}"

structure UpdatePatch where
  title : Option String := none
  content : Option String := none
  tier : Option Tier := none
  ns : Option String := none
  tags : Option (List String) := none
  priority : Option ℤ := none
  confidence : Option ℚ := none
  metadata : Option Json := none

/-- What the adapter passes to `db::update`. -/
def UpdatePatch.toUpdate (patch : UpdatePatch) : UpdateMemory where
  title := patch.title
  content := patch.content
  tier := patch.tier
  ns := patch.ns
  tags := patch.tags
  priority := patch.priority
  confidence := patch.confidence
  metadata := patch.metadata

structure Filter where
  ns : Option String := none
  tier : Option Tier := none
  tagsAny : List String := []
  agentId : Option String := none
  since : Option ℤ := none
  until' : Option ℤ := none
  limit : ℕ := 0

def settled {ε σ : Type} (s : σ) : Except ε σ → σ
  | .ok s' => s'
  | .error _ => s

theorem settled_eq {ε σ : Type} {s : σ} {x : Except ε σ} (h : ∀ s', x ≠ .ok s') : settled s x = s := by
  cases x with
  | error e => rfl
  | ok s' => exact absurd rfl (h s')

theorem settled_map {ε σ τ : Type} {s : σ} {x : Except ε (σ × τ)} (h : ∀ s' a, x ≠ .ok (s', a)) :
    settled s (x.map Prod.fst) = s := by
  cases x with
  | error e => rfl
  | ok res => exact absurd rfl (h res.1 res.2)

namespace Validate

def ifSome {α : Type} (check : α → Except String Unit) : Option α → Except String Unit
  | some a => check a
  | none => pure ()

def validateExpiresAtFormat (rfc3339 : Rfc3339) (ts : String) : Except String Unit :=
  bailIf (!rfc3339 ts) s!"expires_at is not valid RFC3339: '{ts}'"

def validateUpdate (rfc3339 : Rfc3339) (update : UpdateMemory) : Except String Unit := do
  ifSome validateTitle update.title
  ifSome validateContent update.content
  ifSome validateNamespace update.ns
  ifSome validateTags update.tags
  ifSome validatePriority update.priority
  ifSome validateConfidence update.confidence
  ifSome (validateExpiresAtFormat rfc3339) update.expiresAt
  ifSome validateMetadata update.metadata

end Validate

def Chrono.rfc3339 (c : Chrono) : Rfc3339 := fun s => (c.parseFromRfc3339 s).isSome

/-! ## `SqliteStore` -/

namespace SqliteStore

def store (db : Db) (memory : Memory) : Except StoreError (Db × String) := (db.insert memory).mapError .backend

/-- `update`, at the time `now`. -/
def update (db : Db) (id : String) (patch : UpdatePatch) (now : String) : Except StoreError Db :=
  match db.update id patch.toUpdate now with
  | .ok (db', found, _) => if found then .ok db' else .error (.notFound id)
  | .error e => .error (.backend e)

/-- `list`, at the time `now`. -/
def list (c : Chrono) (db : Db) (filter : Filter) (now : String) : Except StoreError (List Memory) :=
  .ok (db.list
    { ns := filter.ns
      tier := filter.tier
      limit := if filter.limit = 0 then 100 else filter.limit
      offset := 0
      minPriority := none
      since := filter.since.map c.toRfc3339
      until' := filter.until'.map c.toRfc3339
      tagsFilter := filter.tagsAny.head?
      agentId := filter.agentId } now)

/-! ## What a store can do -/

variable {db : Db} {memory : Memory}

theorem store_of_stored {stored : MemoryRow} (hs : db.getKey memory.key = some stored) : store db memory =
    .ok (db.updateRow stored.id (upsertRow · memory) (fun _ => rfl) (fun _ => rfl), stored.id) := by
  unfold store Db.insert Db.insertOnConflict
  rw [hs]
  rfl

theorem store_of_free (hs : db.getKey memory.key = none) (hget : db.get memory.id = none) :
    ∃ t, db.memories.insertNew? memory.toRow = some t ∧
      store db memory = .ok ({ db with memories := t }, memory.id) := by
  have hroom : (db.memories.insertNew? memory.toRow).isSome := Indexed.insertNew?_isSome.mpr ⟨hget, hs⟩
  obtain ⟨t, ht⟩ := Option.isSome_iff_exists.mp hroom
  refine ⟨t, ht, ?_⟩
  unfold store Db.insert Db.insertOnConflict
  simp only [hs, ht]
  rfl

theorem store_of_taken (hs : db.getKey memory.key = none) (hget : db.get memory.id ≠ none) :
    ∃ e, store db memory = .error e := by
  obtain ⟨e, he⟩ : ∃ e, db.insert memory = .error e := Db.insertOnConflict_error_iff.mpr ⟨hs, hget⟩
  unfold store
  rw [he]
  exact ⟨_, rfl⟩

end SqliteStore

end AiMemory
