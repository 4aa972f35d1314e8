import AiMemory.Cli.Merge
import AiMemory.Db.Inserts
import AiMemory.Lib.Parallel

/-!
# `ai-memory export` and `ai-memory import`

`export` prints the memories that have not expired and the links between them as one JSON value. `import` stores the
memories with `insert` and files the links with `create_link`, which stamps them itself. On the way each float is printed and
parsed, and the parser of `serde_json` does not find every float again. So a database comes back from its export when its links
are as `create_link` stamps them and its floats are read back, and only then (`reproduces_iff`).

The metadata of a row is the text of its column: it is parsed whenever a memory is read.
-/

namespace AiMemory

open Relational Cli Validate

namespace Json

mutual

/-- Every float of a value as `g` has it. -/
def mapFloats (g : String → String) : Json → Json
  | .float r => .float (g r)
  | .arr items => .arr (mapFloatsItems g items)
  | .obj fields => .obj (mapFloatsFields g fields)
  | j => j

def mapFloatsItems (g : String → String) : List Json → List Json
  | [] => []
  | j :: js => mapFloats g j :: mapFloatsItems g js

def mapFloatsFields (g : String → String) : List (String × Json) → List (String × Json)
  | [] => []
  | (k, j) :: fs => (k, mapFloats g j) :: mapFloatsFields g fs

end

end Json

namespace Io

/-! ## The wire format -/

/-- How `serde_json` writes an `f64` and reads it back, and what it prints for what it has read from a text. -/
structure Float64 where
  toValue : ℚ → Json
  fromValue : Json → Option ℚ
  reread : String → String

/-- A field that is skipped when it is `None`. -/
def optional (k : String) (v : Option Json) : List (String × Json) := (v.map fun j => (k, j)).toList

def text (j : Json) (k : String) : Option String := (j.get k).bind Json.asStr

/-- An `Option<String>`, which may be missing or `null`. -/
def optText (j : Json) (k : String) : Option (Option String) :=
  match j.get k with
  | none => some none
  | some .null => some none
  | some v => v.asStr.map some

def integer (j : Json) (k : String) : Option ℤ :=
  match j.get k with
  | some (.int n) => some n
  | _ => none

/-- A `Vec`, whose elements are read one by one. -/
def items {α : Type} (read : Json → Option α) : Json → Option (List α)
  | .arr vs => vs.mapM read
  | _ => none

/-- A `u8`. -/
def byte : Json → Option UInt8
  | .int n => if 0 ≤ n ∧ n < 256 then some (UInt8.ofNat n.toNat) else none
  | _ => none

/-- An `Option<Vec<u8>>`, which may be missing or `null`. -/
def optBytes (j : Json) (k : String) : Option (Option (List UInt8)) :=
  match j.get k with
  | none => some none
  | some .null => some none
  | some v => (items byte v).map some

section Wire

variable (f : Float64)

def memoryToValue (m : Memory) : Json :=
  .obj ([("access_count", .int m.accessCount), ("confidence", f.toValue m.confidence), ("content", .str m.content),
      ("created_at", .str m.createdAt)] ++
    optional "expires_at" (m.expiresAt.map .str) ++
    [("id", .str m.id)] ++
    optional "last_accessed_at" (m.lastAccessedAt.map .str) ++
    [("metadata", m.metadata), ("namespace", .str m.ns), ("priority", .int m.priority), ("source", .str m.source),
      ("tags", .arr (m.tags.map .str)), ("tier", .str m.tier.asStr), ("title", .str m.title),
      ("updated_at", .str m.updatedAt)])

def read (m : Memory) : Memory := { m with metadata := m.metadata.mapFloats f.reread }

/-- A memory from JSON; `metadata` may be missing. -/
def memoryFromValue (j : Json) : Option Memory := do
  let id ← text j "id"
  let tier ← (text j "tier").bind Tier.fromStr
  let ns ← text j "namespace"
  let title ← text j "title"
  let content ← text j "content"
  let tags ← (j.get "tags").bind (items Json.asStr)
  let priority ← integer j "priority"
  let confidence ← (j.get "confidence").bind f.fromValue
  let source ← text j "source"
  let accessCount ← integer j "access_count"
  let createdAt ← text j "created_at"
  let updatedAt ← text j "updated_at"
  let lastAccessedAt ← optText j "last_accessed_at"
  let expiresAt ← optText j "expires_at"
  return {
    id, tier, ns, title, content, tags, priority, confidence, source, accessCount, createdAt, updatedAt, lastAccessedAt
    expiresAt
    metadata := ((j.get "metadata").map (Json.mapFloats f.reread)).getD (.obj []) }

end Wire

def linkToValue (l : MemoryLink) : Json :=
  .obj ([("created_at", .str l.createdAt)] ++
    optional "observed_by" (l.observedBy.map .str) ++
    [("relation", .str l.relation)] ++
    optional "signature" (l.signature.map fun bytes => .arr (bytes.map fun b => .int b.toNat)) ++
    [("source_id", .str l.sourceId), ("target_id", .str l.targetId)] ++
    optional "valid_from" (l.validFrom.map .str) ++
    optional "valid_until" (l.validUntil.map .str))

def linkFromValue (j : Json) : Option MemoryLink := do
  let sourceId ← text j "source_id"
  let targetId ← text j "target_id"
  let relation ← text j "relation"
  let createdAt ← text j "created_at"
  let signature ← optBytes j "signature"
  let observedBy ← optText j "observed_by"
  let validFrom ← optText j "valid_from"
  let validUntil ← optText j "valid_until"
  return { sourceId, targetId, relation, createdAt, signature, observedBy, validFrom, validUntil }

/-! ## What is written is read back -/

section RoundTrip

variable {f : Float64}

theorem items_map {α : Type} {read : Json → Option α} {write : α → Json} {l : List α}
    (h : ∀ x ∈ l, read (write x) = some x) : items read (.arr (l.map write)) = some l := by
  show (l.map write).mapM read = some l
  induction l with
  | nil => rfl
  | cons x l ih =>
    rw [List.map_cons, List.mapM_cons, h x List.mem_cons_self, ih fun y hy => h y (List.mem_cons_of_mem _ hy)]
    rfl

theorem byte_toNat (b : UInt8) : byte (.int b.toNat) = some b := by
  have hlt : b.toNat < 256 := b.toNat_lt
  show (if 0 ≤ (b.toNat : ℤ) ∧ (b.toNat : ℤ) < 256 then some (UInt8.ofNat (b.toNat : ℤ).toNat) else none) = some b
  rw [if_pos ⟨by omega, by omega⟩, Int.toNat_natCast, UInt8.ofNat_toNat]

theorem fromStr_asStr (t : Tier) : Tier.fromStr t.asStr = some t := by
  cases t <;> rfl

/-- What is read of what is written of a memory: all but its floats as they were. -/
def passed (f : Float64) (m : Memory) : Option Memory :=
  (f.fromValue (f.toValue m.confidence)).map fun confidence => { read f m with confidence }

theorem memoryFromValue_toValue (m : Memory) : memoryFromValue f (memoryToValue f m) = passed f m := by
  have htags : items Json.asStr (.arr (m.tags.map .str)) = some m.tags := items_map fun _ _ => rfl
  obtain ⟨id, tier, ns, title, content, tags, priority, confidence, source, accessCount, createdAt, updatedAt,
    lastAccessedAt, expiresAt, metadata⟩ := m
  cases hconfidence : f.fromValue (f.toValue confidence) <;> cases lastAccessedAt <;> cases expiresAt <;>
    simp [memoryFromValue, memoryToValue, passed, read, text, optText, integer, optional, Json.get, Json.getField, Json.asStr,
      fromStr_asStr, hconfidence, htags] at *

theorem passed_eq_some {m p : Memory} (h : passed f m = some p) :
    f.fromValue (f.toValue m.confidence) = some p.confidence ∧ p = { read f m with confidence := p.confidence } := by
  obtain ⟨c, hc, rfl⟩ := Option.map_eq_some_iff.mp h
  exact ⟨hc, rfl⟩

theorem linkFromValue_toValue (l : MemoryLink) : linkFromValue (linkToValue l) = some l := by
  have hbytes : ∀ bytes : List UInt8, items byte (.arr (bytes.map fun b => .int b.toNat)) = some bytes :=
    fun bytes => items_map fun b _ => byte_toNat b
  obtain ⟨sourceId, targetId, relation, createdAt, signature, observedBy, validFrom, validUntil⟩ := l
  cases signature <;> cases observedBy <;> cases validFrom <;> cases validUntil <;>
    simp [linkFromValue, linkToValue, text, optText, optBytes, optional, Json.get, Json.getField, Json.asStr, hbytes]

end RoundTrip

/-! ## The commands -/

structure ImportArgs where
  trustSource : Bool := false

/-- What `import` prints. -/
structure ImportReport where
  imported : ℕ := 0
  restamped : ℕ := 0
  errors : List String := []
  deriving DecidableEq

section Commands

variable (f : Float64) (rfc3339 : Rfc3339)

/-- `export`: the clock is read for the memories, for the links, and for the export itself. -/
def exportJson (now linksNow exportedAt : String) (db : Db) : Json :=
  let memories := (db.exportAll now).map (read f)
  .obj [("count", .int memories.length), ("exported_at", .str exportedAt),
    ("links", .arr ((db.exportLinks linksNow).map linkToValue)), ("memories", .arr (memories.map (memoryToValue f)))]

/-- A memory as it is stored, and whether the caller's id replaces another one. -/
def ImportArgs.owned (args : ImportArgs) (callerId : String) (mem : Memory) : Memory × Bool :=
  if args.trustSource then (mem, false)
  else (restampAgentId mem callerId, ((mem.metadata.get "agent_id").bind Json.asStr).any (· ≠ callerId))

def importMemory (args : ImportArgs) (callerId : String) (s : Db × ImportReport) (mem : Memory) : Db × ImportReport :=
  let id := mem.id
  let (mem, restamped) := args.owned callerId mem
  let report := if restamped then { s.2 with restamped := s.2.restamped + 1 } else s.2
  match validateMemory rfc3339 mem with
  | .error e => (s.1, { report with errors := report.errors ++ [s!"{id}: {e}"] })
  | .ok () =>
    match s.1.insert mem with
    | .ok (db, _) => (db, { report with imported := report.imported + 1 })
    | .error e => (s.1, { report with errors := report.errors ++ [s!"{id}: {e}"] })

/-- The links of an import; `create_link` reads the clock for each. -/
def importLinks (now : ℕ → String) (links : List MemoryLink) (db : Db) : Db :=
  links.zipIdx.foldl (fun db l => importLink (now l.2) db l.1) db

/-- `import_from_str`: nothing is imported if the memories do not parse; links that do not parse are none. -/
def importFromStr (args : ImportArgs) (callerId : String) (now : ℕ → String) (data : Json) (db : Db) :
    Option (Db × ImportReport) := do
  let memories ← items (memoryFromValue f) ((data.get "memories").getD .null)
  let links := (items linkFromValue ((data.get "links").getD .null)).getD []
  let (db, report) := memories.foldl (importMemory rfc3339 args callerId) (db, {})
  return (importLinks now links db, report)

end Commands

/-! ## What an import stores -/

section Import

variable {f : Float64} {rfc3339 : Rfc3339} {args : ImportArgs} {now : ℕ → String} {db : Db}

/-- A trusted memory that validates, under an id and a title and namespace that are free, is stored as it is. -/
theorem importMemory_of_free {m : Memory} (callerId : String) (report : ImportReport) (htrust : args.trustSource = true)
    (hvalid : m.Valid rfc3339) (hid : db.get m.id = none) (hkey : db.getKey m.key = none) :
    ∃ t report', importMemory rfc3339 args callerId (db, report) m = ({ db with memories := t }, report') ∧
      t.rows = db.memories.rows ++ [m.toRow] := by
  have howned : args.owned callerId m = (m, false) := if_pos htrust
  have hv : validateMemory rfc3339 m = .ok () := hvalid
  unfold importMemory
  simp only [howned, hv]
  cases hi : db.insert m with
  | error e => exact absurd hid (Db.insertOnConflict_error_iff.mp ⟨e, hi⟩).2
  | ok res =>
    obtain ⟨db', id⟩ := res
    rcases Db.insertOnConflict_cases hi with ⟨stored, hs, -⟩ | ⟨-, -, -, t, ht, rfl⟩
    · rw [hkey] at hs
      cases hs
    · exact ⟨t, _, rfl, Indexed.insertNew?_rows ht⟩

theorem importMemory_of_invalid {m : Memory} (callerId : String) (s : Db × ImportReport) (htrust : args.trustSource = true)
    (hvalid : ¬m.Valid rfc3339) : ∃ report', importMemory rfc3339 args callerId s m = (s.1, report') := by
  have howned : args.owned callerId m = (m, false) := if_pos htrust
  unfold importMemory
  simp only [howned]
  cases hv : validateMemory rfc3339 m with
  | ok u => exact absurd hv hvalid
  | error e => exact ⟨_, rfl⟩

/-- The memories of an import that validate are appended one by one, if their ids, titles and namespaces are new. -/
theorem foldl_importMemory (rfc3339 : Rfc3339) (db : Db) (callerId : String) (htrust : args.trustSource = true) {mems : List Memory}
    (hids : ((db.live ++ mems).map fun m => m.id).Nodup) (hkeys : ((db.live ++ mems).map fun m => m.key).Nodup)
    (report : ImportReport) :
    ∃ t report', mems.foldl (importMemory rfc3339 args callerId) (db, report) = ({ db with memories := t }, report') ∧
      t.rows = db.memories.rows ++ (mems.filter fun m => m.Valid rfc3339).map Memory.toRow := by
  induction mems generalizing db report with
  | nil => exact ⟨db.memories, report, rfl, (List.append_nil _).symm⟩
  | cons m mems ih =>
    by_cases hvalid : m.Valid rfc3339
    · have hfresh : ∀ {α : Type} (k : Memory → α), ((db.live ++ m :: mems).map k).Nodup → ∀ x ∈ db.live, k x ≠ k m := by
        intro α k hn x hx e
        rw [List.map_append] at hn
        exact List.disjoint_of_nodup_append hn (List.mem_map_of_mem hx) (e ▸ List.mem_map_of_mem List.mem_cons_self)
      have hid : db.get m.id = none := Indexed.find_eq_none.mpr fun r hr =>
        hfresh (fun m => m.id) hids r.toMemory (List.mem_map_of_mem hr)
      have hkey : db.getKey m.key = none := Indexed.findBy_eq_none.mpr fun r hr =>
        hfresh Memory.key hkeys r.toMemory (List.mem_map_of_mem hr)
      obtain ⟨t, report', h, ht⟩ := importMemory_of_free callerId report htrust hvalid hid hkey
      have hlive : ({ db with memories := t } : Db).live ++ mems = db.live ++ m :: mems := by
        unfold Db.live
        rw [ht, List.map_append, List.append_assoc]
        rfl
      obtain ⟨t', report'', h', ht'⟩ := ih { db with memories := t } (hlive ▸ hids) (hlive ▸ hkeys) report'
      refine ⟨t', report'', by rw [List.foldl_cons, h, h'], ?_⟩
      have hkept : (m :: mems).filter (fun m => m.Valid rfc3339) = m :: mems.filter fun m => m.Valid rfc3339 :=
        List.filter_cons_of_pos (decide_eq_true hvalid)
      rw [ht', ht, List.append_assoc, hkept]
      rfl
    · obtain ⟨report', h⟩ := importMemory_of_invalid callerId (db, report) htrust hvalid
      have hsub : (db.live ++ mems).Sublist (db.live ++ m :: mems) := (List.sublist_cons_self m mems).append_left db.live
      obtain ⟨t', report'', h', ht'⟩ := ih db (hids.sublist (hsub.map _)) (hkeys.sublist (hsub.map _)) report'
      refine ⟨t', report'', by rw [List.foldl_cons, h, h'], ?_⟩
      rw [ht', List.filter_cons_of_neg (by simpa using hvalid)]

theorem importLinks_memories (now : ℕ → String) (links : List MemoryLink) (db : Db) :
    (importLinks now links db).memories = db.memories := by
  unfold importLinks
  induction links.zipIdx generalizing db with
  | nil => rfl
  | cons l ls ih => rw [List.foldl_cons, ih, importLink_memories]

def linkKey (l : MemoryLink) : String × String × String := (l.sourceId, l.targetId, l.relation)

def linked (db : Db) : List MemoryLink := db.links.rows.map fun l => l.toMemoryLink

theorem nodup_linkKey (db : Db) : ((linked db).map linkKey).Nodup := by
  unfold linked
  rw [List.map_map]
  exact db.links.nodup

/-- A link as `create_link` stamps it. -/
def stamped (now : String) (l : MemoryLink) : MemoryLink :=
  { sourceId := l.sourceId, targetId := l.targetId, relation := l.relation, createdAt := now, validFrom := some now
    validUntil := none, signature := none, observedBy := none }

/-- Both ends of a link are there. -/
def HasEnds (db : Db) (l : MemoryLink) : Prop := (db.get l.sourceId).isSome ∧ (db.get l.targetId).isSome

instance (l : MemoryLink) : Decidable (LinkValid l) := inferInstanceAs (Decidable (Accepts _))

theorem insertLink_of_free (row : LinkRow) (hfree : ∀ x ∈ linked db, linkKey x ≠ row.key) :
    ∃ t, db.insertLink row = { db with links := t } ∧ t.rows = db.links.rows ++ [row] := by
  have hnone : db.links.find row.key = none :=
    Table.find_eq_none.mpr fun x hx => hfree x.toMemoryLink (List.mem_map_of_mem hx)
  cases ht : db.links.insertNew? row with
  | none =>
    have hsome := Table.insertNew?_eq_none.mp ht
    rw [hnone] at hsome
    cases hsome
  | some t =>
    refine ⟨t, ?_, Table.insertNew?_rows ht⟩
    unfold Db.insertLink
    rw [ht]
    rfl

theorem importLink_of_free {l : MemoryLink} (stamp : String) (hends : HasEnds db l)
    (hfree : ∀ x ∈ linked db, linkKey x ≠ linkKey l) : ∃ t, importLink stamp db l = { db with links := t } ∧
      t.rows.map (fun r => r.toMemoryLink) = linked db ++ if LinkValid l then [stamped stamp l] else [] := by
  unfold importLink
  by_cases hv : LinkValid l
  · obtain ⟨t, ht, hrows⟩ := insertLink_of_free ⟨stamped stamp l, some "unsigned"⟩ hfree
    have hcreate : db.createLink l.sourceId l.targetId l.relation stamp = .ok { db with links := t } := by
      rw [← ht, Db.createLink, Db.checkEnds_eq_ok.mpr hends]
      rfl
    refine ⟨t, ?_, ?_⟩
    · exact (if_neg (not_not.mpr hv)).trans (by rw [hcreate])
    · rw [hrows, List.map_append, if_pos hv]
      rfl
  · rw [if_neg hv, List.append_nil]
    exact ⟨db.links, if_pos hv, rfl⟩

theorem foldl_importLink (now : ℕ → String) {ls : List (MemoryLink × ℕ)} (hends : ∀ p ∈ ls, HasEnds db p.1)
    (hkeys : ((linked db ++ ls.map Prod.fst).map linkKey).Nodup) :
    ∃ t, ls.foldl (fun db l => importLink (now l.2) db l.1) db = { db with links := t } ∧
      t.rows.map (fun r => r.toMemoryLink) =
        linked db ++ (ls.filter fun p => LinkValid p.1).map fun p => stamped (now p.2) p.1 := by
  induction ls generalizing db with
  | nil => exact ⟨db.links, rfl, (List.append_nil _).symm⟩
  | cons p ls ih =>
    have hfree : ∀ x ∈ linked db, linkKey x ≠ linkKey p.1 := by
      intro x hx e
      rw [List.map_append] at hkeys
      exact List.disjoint_of_nodup_append hkeys (List.mem_map_of_mem hx) (e ▸ List.mem_map_of_mem List.mem_cons_self)
    obtain ⟨t, h, ht⟩ := importLink_of_free (now p.2) (hends p List.mem_cons_self) hfree
    have hsub : ((linked { db with links := t } ++ ls.map Prod.fst).map linkKey).Sublist
        ((linked db ++ (p :: ls).map Prod.fst).map linkKey) := by
      unfold linked at ht ⊢
      rw [ht]
      by_cases hv : LinkValid p.1
      · simp [hv, linkKey, stamped]
      · simp [hv]
    have hends' : ∀ q ∈ ls, HasEnds { db with links := t } q.1 := fun q hq => hends q (List.mem_cons_of_mem _ hq)
    obtain ⟨t', h', ht'⟩ := ih hends' (hkeys.sublist hsub)
    refine ⟨t', by rw [List.foldl_cons, h, h'], ?_⟩
    rw [ht']
    unfold linked at ht ⊢
    rw [ht]
    by_cases hv : LinkValid p.1 <;> simp [hv]

end Import

/-! ## Export, then import -/

def readLive (f : Float64) (db : Db) : List Memory := db.live.map (read f)

/-- A database has the memories and the links of another one, and exports them. -/
structure Reproduces (f : Float64) (db db' : Db) : Prop where
  memories : ∀ m, m ∈ readLive f db' ↔ m ∈ readLive f db
  links : ∀ l, l ∈ linked db' ↔ l ∈ linked db
  exportAll : ∀ now, ((db'.exportAll now).map (read f)).Perm ((db.exportAll now).map (read f))
  exportLinks : ∀ now, (db'.exportLinks now).Perm (db.exportLinks now)

/-- The parser finds the floats of a memory again, at the import and when the row is read, and what it reads still fits. -/
structure ReadsBack (f : Float64) (m : Memory) : Prop where
  confidence : f.fromValue (f.toValue m.confidence) = some m.confidence
  metadata : read f (read f m) = m
  fits : Accepts (validateMetadata (read f m).metadata)

/-- The links are as the import stamps them. -/
def Restamped (now : ℕ → String) (links : List MemoryLink) : Prop :=
  ∀ p ∈ links.zipIdx, LinkValid p.1 ∧ stamped (now p.2) p.1 = p.1

section Reproduces

variable {f : Float64} {rfc3339 : Rfc3339} {db db' : Db}

theorem mem_live_of_get {id : String} {r : MemoryRow} (h : db.get id = some r) : r.toMemory ∈ db.live :=
  List.mem_map_of_mem (Db.get_eq_some.mp h).1

theorem exportLinks_eq_linked {t : String} (hlive : ∀ m ∈ db.live, Db.unexpired t m = true)
    (hends : ∀ l ∈ linked db, HasEnds db l) : db.exportLinks t = linked db := by
  have hall : ∀ id, (db.get id).isSome → ((db.get id).any fun r => Db.unexpired t r.toMemory) = true := by
    intro id hsome
    obtain ⟨r, hr⟩ := Option.isSome_iff_exists.mp hsome
    rw [hr]
    exact hlive _ (mem_live_of_get hr)
  unfold Db.exportLinks linked
  rw [List.filter_eq_self.mpr fun l hl => ?_]
  obtain ⟨hs, ht⟩ := hends l.toMemoryLink (List.mem_map_of_mem hl)
  rw [hall _ hs, hall _ ht]
  rfl

theorem items_memories (mems : List Memory) :
    items (memoryFromValue f) (.arr (mems.map (memoryToValue f))) = mems.mapM (passed f) := by
  show (mems.map (memoryToValue f)).mapM (memoryFromValue f) = _
  rw [List.mapM_map]
  exact congrArg (mems.mapM ·) (funext fun m => memoryFromValue_toValue m)

theorem nodup_passed {α : Type} {k : Memory → α} {shown mems : List Memory} (hmems : shown.mapM (passed f) = some mems)
    (hk : ∀ m c, k { read f m with confidence := c } = k m) (h : (shown.map k).Nodup) : (mems.map k).Nodup := by
  have hmap : shown.map k = mems.map k := map_eq_of_forall₂ (forall₂_of_mapM hmems) fun x y hxy => by
    rw [(passed_eq_some hxy).2, hk]
  rwa [hmap] at h

/-- What an import of an export does: it fails with the parser, and else stores what was read and validates, and then the links. -/
theorem importFromStr_exportJson (f : Float64) (rfc3339 : Rfc3339) (args : ImportArgs) (t linksT exportedAt callerId : String) (now : ℕ → String) (db : Db)
    (htrust : args.trustSource = true) :
    (((db.exportAll t).map (read f)).mapM (passed f) = none →
      importFromStr f rfc3339 args callerId now (exportJson f t linksT exportedAt db) Db.empty = none) ∧
    ∀ mems, ((db.exportAll t).map (read f)).mapM (passed f) = some mems → ∃ stored report,
      importFromStr f rfc3339 args callerId now (exportJson f t linksT exportedAt db) Db.empty =
        some (importLinks now (db.exportLinks linksT) stored, report) ∧
      stored.live = mems.filter (fun m => m.Valid rfc3339) ∧ linked stored = [] := by
  have hitems : items (memoryFromValue f) (.arr (((db.exportAll t).map (read f)).map (memoryToValue f))) =
      ((db.exportAll t).map (read f)).mapM (passed f) := items_memories _
  have hlinks : items linkFromValue (.arr ((db.exportLinks linksT).map linkToValue)) = some (db.exportLinks linksT) :=
    items_map fun l _ => linkFromValue_toValue l
  constructor
  · intro hnone
    rw [hnone] at hitems
    unfold importFromStr exportJson
    simp only [Json.get, Json.getField, reduceIte, String.reduceEq, Option.getD_some, hitems, bind, Option.bind_none]
  · intro mems hmems
    rw [hmems] at hitems
    have hids : ((Db.empty.live ++ mems).map fun m => m.id).Nodup := nodup_passed hmems (fun _ _ => rfl) (by
      rw [List.map_map]
      exact Db.nodup_exportAll_id)
    have hkeys : ((Db.empty.live ++ mems).map fun m => m.key).Nodup := nodup_passed hmems (fun _ _ => rfl) (by
      rw [List.map_map]
      exact Db.nodup_exportAll_key)
    obtain ⟨table, report, hfold, hrows⟩ := foldl_importMemory rfc3339 Db.empty callerId htrust hids hkeys {}
    refine ⟨{ Db.empty with memories := table }, report, ?_, ?_, rfl⟩
    · unfold importFromStr exportJson
      simp only [Json.get, Json.getField, reduceIte, String.reduceEq, Option.getD_some, hitems, hlinks, Option.bind_some,
        bind, hfold]
      rfl
    · show table.rows.map (fun r => r.toMemory) = _
      rw [hrows]
      exact (List.map_map).trans (List.map_id _)

theorem linked_importLinks {stored : Db} (now : ℕ → String) (hends : ∀ l ∈ linked db, HasEnds stored l)
    (hempty : linked stored = []) : linked (importLinks now (linked db) stored) =
      ((linked db).zipIdx.filter fun p => LinkValid p.1).map fun p => stamped (now p.2) p.1 := by
  have hkeys : ((linked stored ++ (linked db).zipIdx.map Prod.fst).map linkKey).Nodup := by
    rw [hempty, List.nil_append, List.zipIdx_map_fst]
    exact nodup_linkKey db
  obtain ⟨links, hfold, hlinked⟩ :=
    foldl_importLink now (fun p hp => hends p.1 (List.fst_mem_of_mem_zipIdx hp)) hkeys
  rw [hempty] at hlinked
  unfold importLinks
  rw [hfold]
  exact hlinked

theorem mem_readLive {m : Memory} : m ∈ readLive f db ↔ ∃ r ∈ db.memories, read f r.toMemory = m := by
  simp only [readLive, List.mem_map, Db.mem_live]
  constructor
  · rintro ⟨x, ⟨r, hr, rfl⟩, hm⟩
    exact ⟨r, hr, hm⟩
  · rintro ⟨r, hr, hm⟩
    exact ⟨r.toMemory, ⟨r, hr, rfl⟩, hm⟩

theorem any_get_iff (f : Float64) {id t : String} : ((db.get id).any fun r => Db.unexpired t r.toMemory) = true ↔
    ∃ m ∈ readLive f db, m.id = id ∧ Db.unexpired t m = true := by
  rw [Option.any_eq_true]
  constructor
  · rintro ⟨r, hr, ht⟩
    obtain ⟨hmem, hid⟩ := Db.get_eq_some.mp hr
    exact ⟨read f r.toMemory, mem_readLive.mpr ⟨r, hmem, rfl⟩, hid, ht⟩
  · rintro ⟨m, hm, rfl, ht⟩
    obtain ⟨r, hr, rfl⟩ := mem_readLive.mp hm
    exact ⟨r, Db.get_of_mem hr, ht⟩

theorem exportAll_perm (f : Float64) (now : String) (db : Db) :
    ((db.exportAll now).map (read f)).Perm ((readLive f db).filter (Db.unexpired now)) := by
  unfold Db.exportAll readLive
  rw [List.filter_map]
  exact (List.perm_insertionSort _ _).map _

theorem exportLinks_eq (db : Db) (t : String) : db.exportLinks t = (linked db).filter fun l =>
    ((db.get l.sourceId).any fun r => Db.unexpired t r.toMemory) &&
      ((db.get l.targetId).any fun r => Db.unexpired t r.toMemory) := by
  unfold Db.exportLinks linked
  rw [List.filter_map]
  rfl

theorem reproduces_of_eq (hmem : (readLive f db').Perm (readLive f db)) (hlinks : linked db' = linked db) :
    Reproduces f db db' where
  memories m := hmem.mem_iff
  links l := by rw [hlinks]
  exportAll now := (exportAll_perm f now db').trans ((hmem.filter _).trans (exportAll_perm f now db).symm)
  exportLinks now := by
    have hany : ∀ id, ((db'.get id).any fun r => Db.unexpired now r.toMemory) =
        ((db.get id).any fun r => Db.unexpired now r.toMemory) := fun id => by
      rw [Bool.eq_iff_iff, any_get_iff f, any_get_iff f]
      simp only [hmem.mem_iff]
    rw [exportLinks_eq, exportLinks_eq, hlinks]
    simp only [hany]
    exact List.Perm.refl _

theorem valid_read {m : Memory} (hvalid : m.Valid rfc3339) (hfits : Accepts (validateMetadata (read f m).metadata)) :
    (read f m).Valid rfc3339 := by
  simp only [Memory.Valid, validateMemory, accepts_bind, read] at hvalid hfits ⊢
  simp only [hvalid, hfits, true_and, and_true]
  exact hvalid.2.2.2.2.2.2.2.2.1

theorem readsBack_of_mem {stored : Db} {t : String} {mems : List Memory}
    (hmems : ((db.exportAll t).map (read f)).mapM (passed f) = some mems)
    (hstored : stored.live = mems.filter fun m => m.Valid rfc3339) {m : Memory} (hshown : m ∈ (db.exportAll t).map (read f))
    (hback : m ∈ readLive f stored) : ReadsBack f m := by
  obtain ⟨p, hp, hread⟩ := List.mem_map.mp hback
  rw [hstored] at hp
  obtain ⟨hp, hvalid⟩ := List.mem_filter.mp hp
  obtain ⟨x, hx, hpassed⟩ := exists_of_forall₂ (forall₂_of_mapM hmems) hp
  obtain ⟨hconfidence, hfields⟩ := passed_eq_some hpassed
  -- the ids of an export differ, so it is the memory that was exported
  have hid : x.id = m.id := by
    rw [← hread, hfields]
    rfl
  have hnodup : (((db.exportAll t).map (read f)).map fun m => m.id).Nodup := by
    rw [List.map_map]
    exact Db.nodup_exportAll_id
  obtain rfl : x = m := List.inj_on_of_nodup_map hnodup hx hshown hid
  have hsame : p.confidence = x.confidence := by
    conv_rhs => rw [← hread]
    rfl
  rw [hsame] at hconfidence hfields
  have hp : p = read f x := hfields
  have hmetadata := of_decide_eq_true hvalid
  simp only [Memory.Valid, validateMemory, accepts_bind] at hmetadata
  exact ⟨hconfidence, hp ▸ hread, hp ▸ hmetadata.2.2.2.2.2.2.2.2.2.2.2.2.2⟩

theorem get_isSome_of_perm (h : (readLive f db').Perm (readLive f db)) {id : String} (hsome : (db.get id).isSome) :
    (db'.get id).isSome := by
  obtain ⟨r, hr⟩ := Option.isSome_iff_exists.mp hsome
  obtain ⟨hmem, rfl⟩ := Db.get_eq_some.mp hr
  obtain ⟨r', hmem', hread⟩ := mem_readLive.mp (h.mem_iff.mpr (mem_readLive.mpr ⟨r, hmem, rfl⟩))
  have hid : (read f r'.toMemory).id = r.id := by
    rw [hread]
    rfl
  exact lookup_isSome.mpr ⟨r', hmem', hid⟩

theorem restamped_of_mem {now : ℕ → String}
    (hlinked : linked db' = ((linked db).zipIdx.filter fun p => LinkValid p.1).map fun p => stamped (now p.2) p.1)
    (hback : ∀ l, l ∈ linked db' ↔ l ∈ linked db) : Restamped now (linked db) := by
  have hkeys : ((linked db).zipIdx.map fun p => linkKey p.1).Nodup := by
    have := nodup_linkKey db
    rwa [← List.zipIdx_map_fst 0 (linked db), List.map_map] at this
  intro p hp
  have hthere := (hback p.1).mpr (List.fst_mem_of_mem_zipIdx hp)
  rw [hlinked] at hthere
  obtain ⟨q, hq, hstamped⟩ := List.mem_map.mp hthere
  obtain ⟨hq, hvalid⟩ := List.mem_filter.mp hq
  have hkey : linkKey (stamped (now q.2) q.1) = linkKey p.1 := congrArg linkKey hstamped
  obtain rfl : q = p := List.inj_on_of_nodup_map hkeys hq hp hkey
  exact ⟨of_decide_eq_true hvalid, hstamped⟩

instance (f : Float64) (m : Memory) : Decidable (ReadsBack f m) :=
  decidable_of_iff (f.fromValue (f.toValue m.confidence) = some m.confidence ∧ read f (read f m) = m ∧
    Accepts (validateMetadata (read f m).metadata))
    ⟨fun ⟨h, h', h''⟩ => ⟨h, h', h''⟩, fun h => ⟨h.confidence, h.metadata, h.fits⟩⟩

theorem readLive_of_readsBack {shown : List Memory} (hreads : ∀ m ∈ shown, ReadsBack f m)
    (hvalid : ∀ m ∈ shown, m.Valid rfc3339) :
    shown.mapM (passed f) = some (shown.map (read f)) ∧
      ∀ stored : Db, stored.live = (shown.map (read f)).filter (fun m => m.Valid rfc3339) → readLive f stored = shown := by
  constructor
  · refine mapM_eq_map fun m hm => ?_
    unfold passed
    rw [(hreads m hm).confidence]
    rfl
  · intro stored hstored
    have hkept : stored.live = shown.map (read f) := by
      rw [hstored, List.filter_eq_self.mpr]
      intro p hp
      obtain ⟨m, hm, rfl⟩ := List.mem_map.mp hp
      exact decide_eq_true (valid_read (hvalid m hm) (hreads m hm).fits)
    unfold readLive
    rw [hkept, List.map_map]
    exact (List.map_congr_left fun m hm => (hreads m hm).metadata).trans (List.map_id _)

/-- A database of live memories comes back from its export exactly when its links are as the import stamps them and its floats
are found again. -/
theorem reproduces_iff (f : Float64) (rfc3339 : Rfc3339) (callerId t linksT exportedAt : String) (now : ℕ → String) (db : Db)
    (hlive : ∀ m ∈ db.live, Db.unexpired t m = true ∧ Db.unexpired linksT m = true)
    (hvalid : ∀ m ∈ readLive f db, m.Valid rfc3339) (hends : ∀ l ∈ linked db, HasEnds db l) :
    (∃ db' report, importFromStr f rfc3339 ⟨true⟩ callerId now (exportJson f t linksT exportedAt db) Db.empty =
      some (db', report) ∧ Reproduces f db db') ↔
      Restamped now (linked db) ∧ ∀ m ∈ readLive f db, ReadsBack f m := by
  have hlinks : db.exportLinks linksT = linked db := exportLinks_eq_linked (fun m hm => (hlive m hm).2) hends
  have hall : (readLive f db).filter (Db.unexpired t) = readLive f db := by
    refine List.filter_eq_self.mpr fun m hm => ?_
    obtain ⟨x, hx, rfl⟩ := List.mem_map.mp hm
    exact (hlive x hx).1
  have hshown : ((db.exportAll t).map (read f)).Perm (readLive f db) := hall ▸ exportAll_perm f t db
  obtain ⟨hfails, hstores⟩ := importFromStr_exportJson f rfc3339 ⟨true⟩ t linksT exportedAt callerId now db rfl
  rw [hlinks] at hstores
  -- where the floats come back, so do the memories, and the links are restamped
  have hback : (∀ m ∈ readLive f db, ReadsBack f m) → ∃ db' report,
      importFromStr f rfc3339 ⟨true⟩ callerId now (exportJson f t linksT exportedAt db) Db.empty = some (db', report) ∧
      (readLive f db').Perm (readLive f db) ∧
      linked db' = ((linked db).zipIdx.filter fun p => LinkValid p.1).map fun p => stamped (now p.2) p.1 := by
    intro hreads
    obtain ⟨hmems, hsame⟩ := readLive_of_readsBack (fun m hm => hreads m (hshown.mem_iff.mp hm)) fun m hm =>
      hvalid m (hshown.mem_iff.mp hm)
    obtain ⟨stored, report, himport, hstored, hempty⟩ := hstores _ hmems
    have hmemories : (readLive f stored).Perm (readLive f db) := hsame stored hstored ▸ hshown
    have hends' : ∀ l ∈ linked db, HasEnds stored l := fun l hl =>
      ⟨get_isSome_of_perm hmemories (hends l hl).1, get_isSome_of_perm hmemories (hends l hl).2⟩
    refine ⟨_, report, himport, ?_, linked_importLinks now hends' hempty⟩
    unfold readLive Db.live
    rw [importLinks_memories]
    exact hmemories
  constructor
  · rintro ⟨d, r, himport, hrep⟩
    have hreads : ∀ m ∈ readLive f db, ReadsBack f m := by
      intro m hm
      cases hmems : ((db.exportAll t).map (read f)).mapM (passed f) with
      | none =>
        rw [hfails hmems] at himport
        cases himport
      | some mems =>
        obtain ⟨stored, report, himport', hstored, -⟩ := hstores mems hmems
        cases himport'.symm.trans himport
        have hthere := (hrep.memories m).mpr hm
        unfold readLive Db.live at hthere
        rw [importLinks_memories] at hthere
        exact readsBack_of_mem hmems hstored (hshown.mem_iff.mpr hm) hthere
    obtain ⟨db', report, himport', -, hlinked⟩ := hback hreads
    cases himport'.symm.trans himport
    exact ⟨restamped_of_mem hlinked hrep.links, hreads⟩
  · rintro ⟨hstamped, hreads⟩
    obtain ⟨db', report, himport, hmemories, hlinked⟩ := hback hreads
    refine ⟨db', report, himport, reproduces_of_eq hmemories ?_⟩
    rw [hlinked, List.filter_eq_self.mpr fun p hp => decide_eq_true (hstamped p hp).1,
      List.map_congr_left fun p hp => (hstamped p hp).2, List.zipIdx_map_fst]

end Reproduces

/-! ## A recipe and its list -/

/-- One is read and written, and the parser misses the last digit of one float. -/
def unit : Float64 where
  toValue _ := .float "1.0"
  fromValue
    | .float "1.0" => some 1
    | _ => none
  reread r := if r = "1.0428607084414503e-7" then "1.0428607084414507e-7" else r

def page (id title stamp : String) : Memory where
  id
  tier := .long
  ns := "kitchen"
  title
  content := "flour, salt, water"
  tags := ["bread"]
  priority := 6
  confidence := 1
  source := "user"
  accessCount := 2
  createdAt := stamp
  updatedAt := stamp
  lastAccessedAt := some "2026-03-02T07:00:00+00:00"
  expiresAt := none
  metadata := .obj [("agent_id", .str "erin"), ("hydration", .float "0.68")]

/-- What is missed once is not found again. -/
example : ¬ReadsBack unit { page "k-1" "Loaf" "2026-03-01T08:00:00+00:00" with
    metadata := .obj [("p", .float "1.0428607084414503e-7")] } := by decide

/-- Two pages, and their links. -/
def cookbook (links : Table LinkRow.key) : Db :=
  { Db.empty with
    memories := ⟨⟨[(page "k-2" "List" "2026-03-01T09:00:00+00:00").toRow, (page "k-1" "Loaf" "2026-03-01T08:00:00+00:00").toRow],
      by decide⟩, by decide⟩
    links }

/-- The list was of use until April; `erin` says so, and signs it. -/
def listOf : LinkRow where
  sourceId := "k-2"
  targetId := "k-1"
  relation := "derived_from"
  createdAt := "2026-03-01T09:00:00+00:00"
  signature := some [17, 4]
  observedBy := some "erin"
  validFrom := some "2026-03-01T09:00:00+00:00"
  validUntil := some "2026-04-01T00:00:00+00:00"
  attestLevel := some "self_signed"

def anyStamp : Rfc3339 := fun _ => true

def exported (links : Table LinkRow.key) : Json :=
  exportJson unit "2026-05-01T00:00:00+00:00" "2026-05-01T00:00:00+00:00" "2026-05-01T00:00:00+00:00" (cookbook links)

/-- Without links the cookbook comes back. -/
theorem pages_reproduced : ∃ db' report, importFromStr unit anyStamp ⟨true⟩ "frank" (fun _ => "2026-05-02T00:00:00+00:00")
    (exported Table.empty) Db.empty = some (db', report) ∧ Reproduces unit (cookbook Table.empty) db' := by
  refine (reproduces_iff unit anyStamp "frank" _ _ _ (fun _ => "2026-05-02T00:00:00+00:00") (cookbook Table.empty) ?_ ?_
    fun _ h => absurd h List.not_mem_nil).mpr ⟨fun _ h => absurd h List.not_mem_nil, ?_⟩
  · decide
  · decide
  · decide

/-- The link comes back without its signature, its observer and its end, and dated by the import. -/
theorem link_restamped : ∃ db' report, importFromStr unit anyStamp ⟨true⟩ "frank" (fun _ => "2026-05-02T00:00:00+00:00")
    (exported ⟨[listOf], List.nodup_singleton _⟩) Db.empty = some (db', report) ∧ report = ⟨2, 0, []⟩ ∧
    linked db' = [⟨"k-2", "k-1", "derived_from", "2026-05-02T00:00:00+00:00", none, none, some "2026-05-02T00:00:00+00:00",
      none⟩] ∧ ¬Reproduces unit (cookbook ⟨[listOf], List.nodup_singleton _⟩) db' := by
  refine ⟨_, _, rfl, by decide, by decide, fun h => ?_⟩
  exact absurd ((h.links listOf.toMemoryLink).mpr List.mem_cons_self) (by decide)

end Io

end AiMemory
