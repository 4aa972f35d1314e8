import AiMemory.Db.Consolidate
import AiMemory.Db.Inserts

/-!
# Entities and their aliases

`entity_register` and `entity_get_by_alias` of `db.rs`. An entity is a memory whose metadata has `kind = "entity"`; its aliases are in
`entity_aliases`. A registration is several statements without a transaction, between which other connections run.

The stores of other memories replace the metadata of the row of their title, and with it the mark of an entity. As long as no store
does that to an entity (`Spares`), what was registered stays resolvable (`entities_resolve`).
-/

namespace AiMemory

open Relational Machine

/-- A row of `entity_aliases`. -/
structure AliasRow where
  entityId : String
  aliasText : String
  createdAt : String
  deriving DecidableEq

def AliasRow.key (r : AliasRow) : String × String := (r.entityId, r.aliasText)

namespace Entities

/-- The tables that entities are in. -/
structure Registry where
  db : Db
  aliases : Table AliasRow.key

def entityKind : String := "entity"

def entityTag : String := "entity"

/-- `COALESCE(json_extract(metadata, '$.kind'), '') = 'entity'`. -/
def isEntity (metadata : Json) : Bool := metadata.extract "kind" = some (.str entityKind)

/-- `str::trim`. -/
def trimmed (s : String) : String := String.ofList (Validate.trim s)

/-! ## Registration -/

/-- The arguments of `entity_register`. -/
structure Call where
  canonicalName : String
  ns : String
  aliases : List String
  extraMetadata : Json
  agentId : Option String
  deriving DecidableEq

def Call.key (call : Call) : String × String := (call.canonicalName, call.ns)

def Call.metadata (call : Call) : Json :=
  let fields := match call.extraMetadata with
    | .obj fields => fields
    | _ => []
  let fields := Json.setField "kind" (.str entityKind) fields
  .obj (match call.agentId with
    | some a => if Json.getField "agent_id" fields = none then Json.setField "agent_id" (.str a) fields else fields
    | none => fields)

def Call.memory (call : Call) (id now : String) : Memory where
  id
  tier := .long
  ns := call.ns
  title := call.canonicalName
  content := call.canonicalName
  tags := [entityTag]
  priority := 7
  confidence := 1
  source := "api"
  accessCount := 0
  createdAt := now
  updatedAt := now
  lastAccessedAt := none
  expiresAt := none
  metadata := call.metadata

/-- The first `SELECT`: the entity of the name. -/
def findEntity (db : Db) (call : Call) : Option String :=
  ((db.getKey call.key).filter fun r => isEntity r.metadata).map fun r => r.id

def findCollision (db : Db) (call : Call) : Option String :=
  ((db.getKey call.key).filter fun r => !isEntity r.metadata).map fun r => r.id

/-- `INSERT OR IGNORE INTO entity_aliases`. -/
def Registry.addAlias (reg : Registry) (entityId aliasText createdAt : String) : Registry :=
  { reg with aliases := (reg.aliases.insertNew? ⟨entityId, aliasText, createdAt⟩).getD reg.aliases }

def Registry.listEntityAliases (reg : Registry) (entityId : String) : List String :=
  ((reg.aliases.rows.filter fun r => r.entityId = entityId).mergeSort fun a b =>
    a.createdAt < b.createdAt ∨ a.createdAt = b.createdAt ∧ a.aliasText ≤ b.aliasText).map fun r => r.aliasText

structure EntityRegistration where
  entityId : String
  canonicalName : String
  ns : String
  aliases : List String
  created : Bool
  deriving DecidableEq

/-- Where a registration stands between two of its statements. -/
inductive Progress where
  | called
  | unclaimed
  | free
  | held (entityId : String) (created : Bool) (rest : List String) (now : String)
  | returned (registration : EntityRegistration)
  | failed (error : String)
  deriving DecidableEq

/-- What a statement draws: a fresh id, and the clock for the memory and for the aliases. -/
structure Draw where
  newId : String
  now : String
  aliasNow : String

/-- The next statement of `entity_register`. -/
def advance (call : Call) (d : Draw) (reg : Registry) : Progress → Registry × Progress
  | .called =>
    match findEntity reg.db call with
    | some id => (reg, .held id false call.aliases d.aliasNow)
    | none => (reg, .unclaimed)
  | .unclaimed =>
    match findCollision reg.db call with
    | some _ =>
      let name := call.canonicalName
      let ns := call.ns
      (reg, .failed s!"entity_register: title '{name}' in namespace '{ns}' is already used by a non-entity memory")
    | none => (reg, .free)
  | .free =>
    match reg.db.insert (call.memory d.newId d.now) with
    | .error _ => (reg, .failed "insert entity memory")
    | .ok (db, id) => ({ reg with db }, .held id true call.aliases d.aliasNow)
  | .held id created (given :: rest) now =>
    (if trimmed given = "" then reg else reg.addAlias id (trimmed given) now, .held id created rest now)
  | .held id created [] _ =>
    (reg, .returned ⟨id, call.canonicalName, call.ns, reg.listEntityAliases id, created⟩)
  | p => (reg, p)

/-- `entity_register`, with nothing in between its statements. -/
def register (call : Call) (d : Draw) (reg : Registry) : Registry × Progress :=
  (fun s : Registry × Progress => advance call d s.1 s.2)^[call.aliases.length + 4] (reg, .called)

/-! ## Resolution -/

structure EntityRecord where
  entityId : String
  canonicalName : String
  ns : String
  aliases : List String

def entityGetByAlias (reg : Registry) (aliasText : String) (ns : Option String) : Option EntityRecord :=
  if trimmed aliasText = "" then none
  else
    let claims := reg.aliases.rows.filter fun a => a.aliasText = trimmed aliasText
    let entities := (claims.filterMap fun a => reg.db.get a.entityId).filter fun m => ns.all (m.ns = ·) && isEntity m.metadata
    (entities.mergeSort fun a b => b.createdAt ≤ a.createdAt).head?.map fun m =>
      ⟨m.id, m.title, m.ns, reg.listEntityAliases m.id⟩

/-! ## Runs -/

/-- The tables, and the registrations with where they stand. -/
structure World where
  reg : Registry
  calls : List (Call × Progress)

inductive Event where
  | call (call : Call)
  | advance (k : ℕ) (d : Draw)
  | insert (mem : Memory)
  | insertIfNewer (mem : Memory)
  | consolidate (ids : List String) (title summary ns : String) (tier : Tier) (source agent newId now : String)

def step (w : World) : Event → World
  | .call call => { w with calls := w.calls ++ [(call, .called)] }
  | .advance k d =>
    match w.calls[k]? with
    | none => w
    | some (call, p) =>
      let (reg, p) := advance call d w.reg p
      { reg, calls := w.calls.set k (call, p) }
  | .insert mem => { w with reg := { w.reg with db := settled w.reg.db ((w.reg.db.insert mem).map Prod.fst) } }
  | .insertIfNewer mem => { w with reg := { w.reg with db := settled w.reg.db ((w.reg.db.insertIfNewer mem).map Prod.fst) } }
  | .consolidate ids title summary ns tier source agent newId now =>
    let result := w.reg.db.consolidate ids title summary ns tier source agent newId now
    { w with reg := { w.reg with db := settled w.reg.db (result.map Prod.fst) } }

def Progress.entity : Progress → Option String
  | held id .. => some id
  | returned registration => some registration.entityId
  | _ => none

/-- The ids of the entities registered so far. -/
def World.entities (w : World) : List String := w.calls.filterMap fun x => x.2.entity

/-- A store that replaces the metadata of a registered entity marks it as an entity again, and no registered entity is merged into
another memory. -/
def Spares (w : World) : Event → Prop
  | .insert mem => ∀ r ∈ w.reg.db.getKey mem.key, r.id ∈ w.entities → isEntity mem.metadata
  | .insertIfNewer mem => ∀ r ∈ w.reg.db.getKey mem.key, r.id ∈ w.entities → Supersedes r mem → isEntity mem.metadata
  | .consolidate ids .. => ∀ id ∈ ids, id ∉ w.entities
  | _ => True

instance (w : World) (e : Event) : Decidable (Spares w e) :=
  match e with
  | .insert _ => inferInstanceAs (Decidable (∀ r ∈ _, _ → _))
  | .insertIfNewer _ => inferInstanceAs (Decidable (∀ r ∈ _, _ → _ → _))
  | .consolidate .. => inferInstanceAs (Decidable (∀ id ∈ _, _))
  | .call _ => isTrue trivial
  | .advance .. => isTrue trivial

/-- What was registered is found: each alias resolves to an entity of the namespace that claims it, the name is registered again
under the same id, and a namespace has one entity of a name. -/
structure Resolvable (w : World) : Prop where
  resolves : ∀ call reg, (call, Progress.returned reg) ∈ w.calls → ∀ a ∈ call.aliases, trimmed a ≠ "" →
    ∃ entity r, entityGetByAlias w.reg a (some call.ns) = some entity ∧ entity.ns = call.ns ∧ trimmed a ∈ entity.aliases ∧
      w.reg.db.get entity.entityId = some r ∧ isEntity r.metadata
  same : ∀ call reg, (call, Progress.returned reg) ∈ w.calls → ∀ call' d, call'.key = call.key →
    ∃ reg', (register call' d w.reg).2 = .returned reg' ∧ reg'.entityId = reg.entityId ∧ reg'.created = false
  unique : ∀ r ∈ w.reg.db.memories, ∀ r' ∈ w.reg.db.memories, isEntity r.metadata → isEntity r'.metadata →
    r.ns = r'.ns → r.title = r'.title → r = r'

/-! ## What a run keeps -/

/-- The row of an entity, under its name. -/
def Marked (db : Db) (key : String × String) (id : String) : Prop := ∃ r, db.get id = some r ∧ r.key = key ∧ isEntity r.metadata

/-- An entity claims an alias. -/
def Claims (reg : Registry) (id a : String) : Prop := ∃ row ∈ reg.aliases, row.key = (id, trimmed a)

/-- What a registration has done so far is in the tables. -/
def Done (reg : Registry) (call : Call) : Progress → Prop
  | .held id _ rest _ => Marked reg.db call.key id ∧
    ∃ done, call.aliases = done ++ rest ∧ ∀ a ∈ done, trimmed a ≠ "" → Claims reg id a
  | .returned registration => Marked reg.db call.key registration.entityId ∧
    ∀ a ∈ call.aliases, trimmed a ≠ "" → Claims reg registration.entityId a
  | _ => True

def Inv (w : World) : Prop := ∀ x ∈ w.calls, Done w.reg x.1 x.2

section Steps

variable {db db' : Db} {reg reg' : Registry} {call : Call} {d : Draw} {p : Progress} {mem : Memory} {id id' a : String}
  {key : String × String} {r : MemoryRow}

theorem isEntity_keepAgentId (stored metadata : Json) : isEntity (keepAgentId stored metadata) = isEntity metadata := by
  unfold keepAgentId
  split
  · unfold isEntity Json.extract
    rw [Json.get_set_of_ne (by decide)]
  · rfl

theorem isEntity_obj {fields : List (String × Json)} :
    isEntity (.obj fields) ↔ (Json.getField "kind" fields).bind Json.throughSql = some (.str entityKind) := decide_eq_true_iff

theorem isEntity_metadata (call : Call) : isEntity call.metadata := by
  have hkind : ∀ fields, isEntity (.obj (Json.setField "kind" (.str entityKind) fields)) := fun fields => by
    rw [isEntity_obj, Json.getField_setField]
    rfl
  unfold Call.metadata
  simp only
  split
  · split_ifs
    · rw [isEntity_obj, Json.getField_setField_of_ne (by decide), ← isEntity_obj]
      exact hkind _
    · exact hkind _
  · exact hkind _

theorem Marked.insertOnConflict {merge : MemoryRow → MemoryRow} {hid : ∀ r, (merge r).id = r.id}
    {hkey : ∀ r, (merge r).key = r.key} (h : db.insertOnConflict mem merge hid hkey = .ok (db', id'))
    (hmerge : ∀ r ∈ db.getKey mem.key, r.id = id → isEntity r.metadata → isEntity (merge r).metadata) (hm : Marked db key id) :
    Marked db' key id := by
  obtain ⟨r, hr, hk, hent⟩ := hm
  refine ⟨_, Db.get_insertOnConflict_of_some h hr, ?_⟩
  split_ifs with hsame
  · obtain ⟨hmem, hrid⟩ := Db.get_eq_some.mp hr
    exact ⟨(hkey r).trans hk, hmerge r (Db.getKey_eq_some.mpr ⟨hmem, hsame⟩) hrid hent⟩
  · exact ⟨hk, hent⟩

theorem Marked.insert (h : db.insert mem = .ok (db', id'))
    (hmem : ∀ r ∈ db.getKey mem.key, r.id = id → isEntity mem.metadata) (hm : Marked db key id) : Marked db' key id :=
  hm.insertOnConflict h fun r hr hrid _ => (isEntity_keepAgentId _ _).trans (hmem r hr hrid)

theorem Marked.insertIfNewer (h : db.insertIfNewer mem = .ok (db', id'))
    (hmem : ∀ r ∈ db.getKey mem.key, r.id = id → Supersedes r mem → isEntity mem.metadata) (hm : Marked db key id) :
    Marked db' key id := by
  refine hm.insertOnConflict h fun r hr hrid hent => (isEntity_keepAgentId _ _).trans ?_
  split_ifs with hsup
  · exact hmem r hr hrid hsup
  · exact hent

theorem Marked.consolidate {ids : List String} {title summary ns source agent newId now : String} {tier : Tier}
    (h : db.consolidate ids title summary ns tier source agent newId now = .ok (db', id')) (hids : id ∉ ids)
    (hm : Marked db key id) : Marked db' key id := by
  obtain ⟨r, hr, hrest⟩ := hm
  cases Db.consolidate_id h
  obtain ⟨c, t, ht, rfl⟩ := Db.consolidate_cases h
  refine ⟨r, ?_, hrest⟩
  rw [Db.get_foldl_remove Db.get_delete, if_neg hids]
  show t.find id = some r
  rw [Relational.Indexed.find_insertNew? ht, show db.memories.find id = some r from hr]
  rfl

theorem marked_registered (h : db.insert (call.memory d.newId d.now) = .ok (db', id)) : Marked db' call.key id := by
  obtain ⟨r, hr⟩ := Db.get_insertOnConflict_self h
  have hk : r.key = call.key := Db.key_insertOnConflict_self h hr
  refine ⟨r, hr, hk, ?_⟩
  have hstored := Db.getKey_insertOnConflict h
  have hlive : db'.getKey call.key = some r := Db.getKey_eq_some.mpr ⟨(Db.get_eq_some.mp hr).1, hk⟩
  cases Option.some.inj (hlive.symm.trans hstored)
  cases db.getKey (call.memory d.newId d.now).key with
  | none => exact isEntity_metadata call
  | some stored => exact (isEntity_keepAgentId _ _).trans (isEntity_metadata call)

theorem mem_aliases_addAlias (reg : Registry) (id a now : String) {row : AliasRow} (h : row ∈ reg.aliases) :
    row ∈ (reg.addAlias id a now).aliases := by
  unfold Registry.addAlias
  cases ht : reg.aliases.insertNew? ⟨id, a, now⟩ with
  | none => exact h
  | some t => exact (Table.mem_insertNew? ht).mpr (Or.inl h)

theorem claims_addAlias (reg : Registry) (id a now : String) : Claims (reg.addAlias id (trimmed a) now) id a := by
  unfold Claims Registry.addAlias
  cases ht : reg.aliases.insertNew? ⟨id, trimmed a, now⟩ with
  | none =>
    obtain ⟨row, hrow⟩ := Option.isSome_iff_exists.mp (Table.insertNew?_eq_none.mp ht)
    exact ⟨row, Table.find_mem hrow, Table.find_key hrow⟩
  | some t => exact ⟨_, (Table.mem_insertNew? ht).mpr (Or.inr rfl), rfl⟩

theorem Claims.mono (h : ∀ row ∈ reg.aliases, row ∈ reg'.aliases) (hc : Claims reg id a) : Claims reg' id a := by
  obtain ⟨row, hrow, hkey⟩ := hc
  exact ⟨row, h row hrow, hkey⟩

theorem Done.mono (hdb : ∀ id, p.entity = some id → Marked reg.db call.key id → Marked reg'.db call.key id)
    (hal : ∀ row ∈ reg.aliases, row ∈ reg'.aliases) (h : Done reg call p) : Done reg' call p := by
  cases p with
  | held id created rest now =>
    obtain ⟨hm, done, hsplit, hclaims⟩ := h
    exact ⟨hdb id rfl hm, done, hsplit, fun a ha hne => (hclaims a ha hne).mono hal⟩
  | returned registration => exact ⟨hdb _ rfl h.1, fun a ha hne => (h.2 a ha hne).mono hal⟩
  | called => trivial
  | unclaimed => trivial
  | free => trivial
  | failed => trivial

theorem findEntity_eq_some : findEntity db call = some id ↔ Marked db call.key id := by
  unfold findEntity
  rw [Option.map_eq_some_iff]
  constructor
  · rintro ⟨r, hr, rfl⟩
    obtain ⟨hkey, hent⟩ := Option.filter_eq_some_iff.mp hr
    obtain ⟨hmem, hk⟩ := Db.getKey_eq_some.mp hkey
    exact ⟨r, Db.get_of_mem hmem, hk, hent⟩
  · rintro ⟨r, hr, hk, hent⟩
    obtain ⟨hmem, hrid⟩ := Db.get_eq_some.mp hr
    exact ⟨r, Option.filter_eq_some_iff.mpr ⟨Db.getKey_eq_some.mpr ⟨hmem, hk⟩, hent⟩, hrid⟩

/-- A statement of a registration: what it says of itself holds, and what others say still does. -/
theorem advance_keeps (d : Draw) (h : Done reg call p) : Done (advance call d reg p).1 call (advance call d reg p).2 ∧
    (∀ key id, Marked reg.db key id → Marked (advance call d reg p).1.db key id) ∧
    ∀ row ∈ reg.aliases, row ∈ (advance call d reg p).1.aliases := by
  cases p with
  | called =>
    rw [advance]
    cases hf : findEntity reg.db call with
    | none => exact ⟨trivial, fun _ _ hm => hm, fun _ hrow => hrow⟩
    | some id => exact ⟨⟨findEntity_eq_some.mp hf, [], rfl, nofun⟩, fun _ _ hm => hm, fun _ hrow => hrow⟩
  | unclaimed =>
    rw [advance]
    cases findCollision reg.db call with
    | none => exact ⟨trivial, fun _ _ hm => hm, fun _ hrow => hrow⟩
    | some id => exact ⟨trivial, fun _ _ hm => hm, fun _ hrow => hrow⟩
  | free =>
    rw [advance]
    cases hi : reg.db.insert (call.memory d.newId d.now) with
    | error e => exact ⟨trivial, fun _ _ hm => hm, fun _ hrow => hrow⟩
    | ok res =>
      refine ⟨⟨marked_registered hi, [], rfl, nofun⟩, fun key id hm => ?_, fun _ hrow => hrow⟩
      exact hm.insert hi fun _ _ _ => isEntity_metadata call
  | held id created rest now =>
    obtain ⟨hm, done, hsplit, hclaims⟩ := h
    cases rest with
    | nil =>
      rw [List.append_nil] at hsplit
      exact ⟨⟨hm, hsplit ▸ hclaims⟩, fun _ _ hm => hm, fun _ hrow => hrow⟩
    | cons given rest =>
      have hsplit' : call.aliases = (done ++ [given]) ++ rest := hsplit.trans (List.append_cons done given rest)
      rw [advance]
      split_ifs with hblank
      · refine ⟨⟨hm, done ++ [given], hsplit', fun a ha hne => ?_⟩, fun _ _ hm => hm, fun _ hrow => hrow⟩
        rcases List.mem_append.mp ha with hdone | hlast
        · exact hclaims a hdone hne
        · cases List.mem_singleton.mp hlast
          exact absurd hblank hne
      · have hal : ∀ row ∈ reg.aliases, row ∈ (reg.addAlias id (trimmed given) now).aliases :=
          fun row hrow => mem_aliases_addAlias reg id (trimmed given) now hrow
        refine ⟨⟨hm, done ++ [given], hsplit', fun a ha hne => ?_⟩, fun _ _ hm => hm, hal⟩
        rcases List.mem_append.mp ha with hdone | hlast
        · exact (hclaims a hdone hne).mono hal
        · cases List.mem_singleton.mp hlast
          exact claims_addAlias reg id given now
  | returned registration => exact ⟨h, fun _ _ hm => hm, fun _ hrow => hrow⟩
  | failed error => exact ⟨trivial, fun _ _ hm => hm, fun _ hrow => hrow⟩

end Steps

/-! ## Runs -/

section Runs

variable {w : World} {reg : Registry} {call : Call} {a : String} {registration : EntityRegistration}

variable {id : String}

theorem entity_mem {p : Progress} (h : (call, p) ∈ w.calls) (hp : p.entity = some id) : id ∈ w.entities :=
  List.mem_filterMap.mpr ⟨(call, p), h, hp⟩

theorem inv_of_marked {reg' : Registry} (hinv : Inv w) (hal : reg'.aliases = w.reg.aliases)
    (h : ∀ key, ∀ id ∈ w.entities, Marked w.reg.db key id → Marked reg'.db key id) : Inv { w with reg := reg' } :=
  fun x hx => (hinv x hx).mono (fun id hid => h _ id (entity_mem hx hid)) fun _ hrow => hal ▸ hrow

theorem marked_settled {db : Db} {result : Except String (Db × String)} {key : String × String}
    (h : ∀ db' id', result = .ok (db', id') → Marked db key id → Marked db' key id) (hm : Marked db key id) :
    Marked (settled db (result.map Prod.fst)) key id := by
  cases result with
  | error e => exact hm
  | ok res => exact h res.1 res.2 rfl hm

theorem step_inv (e : Event) (hinv : Inv w) (hspares : Spares w e) : Inv (step w e) := by
  cases e with
  | call call =>
    intro x hx
    rcases List.mem_append.mp hx with hold | hnew
    · exact hinv x hold
    · cases List.mem_singleton.mp hnew
      trivial
  | advance k d =>
    rw [step]
    cases hk : w.calls[k]? with
    | none => exact hinv
    | some x =>
      obtain ⟨call, p⟩ := x
      obtain ⟨hself, hmarked, hal⟩ := advance_keeps d (hinv (call, p) (List.mem_of_getElem? hk))
      intro x hx
      rcases List.mem_or_eq_of_mem_set hx with hold | rfl
      · exact (hinv x hold).mono (fun id _ => hmarked x.1.key id) hal
      · exact hself
  | insert mem =>
    exact inv_of_marked hinv rfl fun key id hid => marked_settled fun db' id' h hm =>
      hm.insert h fun r hr hrid => hspares r hr (hrid ▸ hid)
  | insertIfNewer mem =>
    exact inv_of_marked hinv rfl fun key id hid => marked_settled fun db' id' h hm =>
      hm.insertIfNewer h fun r hr hrid => hspares r hr (hrid ▸ hid)
  | consolidate ids title summary ns tier source agent newId now =>
    exact inv_of_marked hinv rfl fun key id hid => marked_settled fun db' id' h hm =>
      hm.consolidate h fun hmem => hspares id hmem hid

theorem mem_listEntityAliases {row : AliasRow} (h : row ∈ reg.aliases) : row.aliasText ∈ reg.listEntityAliases row.entityId :=
  List.mem_map_of_mem (List.mem_mergeSort.mpr (List.mem_filter.mpr ⟨h, decide_eq_true rfl⟩))

/-- An alias that a live entity claims resolves to an entity that claims it. -/
theorem resolves_of_claims (hm : Marked reg.db call.key id) (hclaims : Claims reg id a) (hne : trimmed a ≠ "") :
    ∃ entity r, entityGetByAlias reg a (some call.ns) = some entity ∧ entity.ns = call.ns ∧ trimmed a ∈ entity.aliases ∧
      reg.db.get entity.entityId = some r ∧ isEntity r.metadata := by
  obtain ⟨r, hr, hk, hent⟩ := hm
  obtain ⟨row, hrow, hkey⟩ := hclaims
  obtain ⟨rfl, halias⟩ := Prod.mk.inj hkey
  unfold entityGetByAlias
  rw [if_neg hne]
  set claims := reg.aliases.rows.filter fun x => x.aliasText = trimmed a with hclaims
  set entities := (claims.filterMap fun x => reg.db.get x.entityId).filter fun m =>
    (some call.ns).all (m.ns = ·) && isEntity m.metadata with hentities
  have hmem : r ∈ entities := by
    refine List.mem_filter.mpr ⟨List.mem_filterMap.mpr ⟨row, List.mem_filter.mpr ⟨hrow, decide_eq_true halias⟩, hr⟩, ?_⟩
    rw [Option.all_some, Bool.and_eq_true, decide_eq_true_eq]
    exact ⟨congrArg Prod.snd hk, hent⟩
  cases hhead : (entities.mergeSort fun x y => y.createdAt ≤ x.createdAt).head? with
  | none =>
    have hsorted : r ∈ entities.mergeSort fun x y => y.createdAt ≤ x.createdAt := List.mem_mergeSort.mpr hmem
    rw [List.head?_eq_none_iff.mp hhead] at hsorted
    cases hsorted
  | some m =>
    obtain ⟨hm, hok⟩ := List.mem_filter.mp (List.mem_mergeSort.mp (List.mem_of_mem_head? hhead))
    obtain ⟨row', hrow', hget⟩ := List.mem_filterMap.mp hm
    obtain ⟨hin, halias'⟩ := List.mem_filter.mp hrow'
    have hid : m.id = row'.entityId := (Db.get_eq_some.mp hget).2
    rw [Option.all_some, Bool.and_eq_true, decide_eq_true_eq] at hok
    let toRecord (m : MemoryRow) : EntityRecord := ⟨m.id, m.title, m.ns, reg.listEntityAliases m.id⟩
    refine ⟨toRecord m, m, congrArg (Option.map toRecord) hhead, hok.1, ?_, ?_, hok.2⟩
    · show trimmed a ∈ reg.listEntityAliases m.id
      rw [hid, ← of_decide_eq_true halias']
      exact mem_listEntityAliases hin
    · show reg.db.get m.id = some m
      rw [hid, hget]

theorem iterate_held (call : Call) (d : Draw) (reg : Registry) (id : String) (created : Bool) (rest : List String) (now : String) :
    ∃ reg' registration, (fun s : Registry × Progress => advance call d s.1 s.2)^[rest.length + 1] (reg, .held id created rest now) =
      (reg', .returned registration) ∧ registration.entityId = id ∧ registration.created = created := by
  induction rest generalizing reg with
  | nil => exact ⟨reg, _, rfl, rfl, rfl⟩
  | cons given rest ih =>
    exact ih _

theorem register_of_marked (hm : Marked reg.db call.key id) (d : Draw) :
    ∃ registration, (register call d reg).2 = .returned registration ∧ registration.entityId = id ∧ registration.created = false := by
  obtain ⟨reg', registration, hrun, hid, hcreated⟩ := iterate_held call d reg id false call.aliases d.aliasNow
  refine ⟨registration, ?_, hid, hcreated⟩
  have hfirst : advance call d reg .called = (reg, .held id false call.aliases d.aliasNow) := by
    rw [advance, findEntity_eq_some.mpr hm]
  unfold register
  rw [show call.aliases.length + 4 = 2 + (call.aliases.length + 1) + 1 by omega, Function.iterate_succ_apply, hfirst,
    Function.iterate_add_apply, hrun]
  rfl

theorem resolvable_of_inv (hinv : Inv w) : Resolvable w where
  resolves := fun call registration hcall a ha hne =>
    have hdone : Done w.reg call (.returned registration) := hinv _ hcall
    resolves_of_claims hdone.1 (hdone.2 a ha hne) hne
  same := fun call registration hcall _ d hkey =>
    have hdone : Done w.reg call (.returned registration) := hinv _ hcall
    register_of_marked (hkey ▸ hdone.1) d
  unique := fun _ hr _ hr' _ _ hns htitle => Indexed.eq_of_uk hr hr' (Prod.ext htitle hns)

end Runs

/-- What was registered stays resolvable in a run whose stores leave entities marked. -/
theorem entities_resolve {reg : Registry} {events : List Event} (h : Meets step Spares ⟨reg, []⟩ events) :
    ∀ t ∈ states step ⟨reg, []⟩ events, Resolvable t :=
  have hstart : Inv ⟨reg, []⟩ := nofun
  fun t ht => resolvable_of_inv (forall_states_of_meets (fun _ e hinv hs => step_inv e hinv hs) hstart h t ht)

def acme : Call := ⟨"Acme", "crm", [" acme corp "], .null, some "alice"⟩

def acmeRegistered : List Event :=
  [.call acme, .advance 0 ⟨"", "", "1"⟩, .advance 0 ⟨"", "", "1"⟩, .advance 0 ⟨"e", "1", "1"⟩, .advance 0 ⟨"", "", "1"⟩,
    .advance 0 ⟨"", "", "1"⟩]

def acmeNote : Memory := { acme.memory "n" "2" with content := "Acme called", metadata := .obj [] }

theorem acme_resolves :
    Resolvable ((acmeRegistered ++ [Event.insertIfNewer { acmeNote with updatedAt := "0" }]).foldl step ⟨⟨.empty, Table.empty⟩, []⟩) :=
  entities_resolve (by decide) _ foldl_mem_states

/-- A note stored under the name of an entity takes its mark away. -/
theorem note_unmarks : ¬∀ t ∈ states step ⟨⟨.empty, Table.empty⟩, []⟩ (acmeRegistered ++ [.insert acmeNote]), Resolvable t := by
  intro h
  obtain ⟨entity, r, hres, -⟩ := (h _ foldl_mem_states).resolves acme ⟨"e", "Acme", "crm", ["acme corp"], true⟩
    (by decide +kernel) " acme corp " (by decide) (by decide +kernel)
  have hnone : (entityGetByAlias ((acmeRegistered ++ [Event.insert acmeNote]).foldl step ⟨⟨.empty, Table.empty⟩, []⟩).reg " acme corp "
      (some acme.ns)).isNone := by decide +kernel
  rw [hres] at hnone
  cases hnone

end Entities

end AiMemory
