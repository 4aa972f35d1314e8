import AiMemory.Db.Memories

/-!
# Links between memories

`create_link` writes an unsigned link of this node; `create_link_inbound` files a link a peer signed,
byte for byte. Both need their two ends live, and both are `INSERT OR IGNORE`: a link that is there
already stays as it is.
-/

namespace AiMemory

open Relational

namespace Db

/-- `INSERT OR IGNORE INTO memory_links`. -/
def insertLink (db : Db) (l : LinkRow) : Db :=
  { db with links := (db.links.insertNew? l).getD db.links }

def checkEnds (db : Db) (sourceId targetId : String) : Except String Unit :=
  if (db.get sourceId).isNone then .error s!"source memory not found: {sourceId}"
  else if (db.get targetId).isNone then .error s!"target memory not found: {targetId}"
  else .ok ()

/-- `create_link`: `create_link_signed` without a key pair. -/
def createLink (db : Db) (sourceId targetId relation now : String) : Except String Db :=
  match db.checkEnds sourceId targetId with
  | .error e => .error e
  | .ok () => .ok (db.insertLink {
      sourceId, targetId, relation, createdAt := now, validFrom := some now, validUntil := none,
      signature := none, observedBy := none, attestLevel := some "unsigned" })

/-- The row `create_link_inbound` files for a link. -/
def inboundRow (link : MemoryLink) (attestLevel now : String) : LinkRow :=
  { link with
    validFrom := some (link.validFrom.getD now)
    createdAt := if link.createdAt = "" then now else link.createdAt
    attestLevel := some attestLevel }

def createLinkInbound (db : Db) (link : MemoryLink) (attestLevel now : String) : Except String Db :=
  match db.checkEnds link.sourceId link.targetId with
  | .error e => .error e
  | .ok () => .ok (db.insertLink (inboundRow link attestLevel now))

variable {db db' : Db}

@[simp] theorem checkEnds_eq_ok {s t : String} :
    db.checkEnds s t = .ok () ↔ (db.get s).isSome ∧ (db.get t).isSome := by
  unfold checkEnds
  cases db.get s <;> cases db.get t <;> simp

theorem createLink_eq_ok {s t rel now : String} : db.createLink s t rel now = .ok db' ↔
    db.checkEnds s t = .ok () ∧ db' = db.insertLink {
      sourceId := s, targetId := t, relation := rel, createdAt := now, validFrom := some now, validUntil := none,
      signature := none, observedBy := none, attestLevel := some "unsigned" } := by
  unfold createLink
  cases db.checkEnds s t <;> simp [eq_comm]

theorem createLink_frame {s t rel now : String} (h : db.createLink s t rel now = .ok db') :
    db' = { db with links := db'.links } := by
  unfold createLink at h
  split at h
  · cases h
  · cases h; rfl

theorem createLinkInbound_frame {link : MemoryLink} {level now : String}
    (h : db.createLinkInbound link level now = .ok db') : db' = { db with links := db'.links } := by
  unfold createLinkInbound at h
  split at h
  · cases h
  · cases h; rfl

end Db

end AiMemory
