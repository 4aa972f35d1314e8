import AiMemory.Model.Types

/-!
# Validation

`validate.rs`. Each validator returns the error text it bails out with. Whether a string is an
RFC 3339 timestamp is chrono's answer, so the functions that ask take it as a parameter.
-/

namespace AiMemory

/-- The answer of `chrono::DateTime::parse_from_rfc3339(s).is_ok()`. -/
abbrev Rfc3339 := String → Bool

/-- `chrono`: instants, in nanoseconds, and their RFC 3339 texts. -/
structure Chrono where
  toRfc3339 : ℤ → String
  parseFromRfc3339 : String → Option ℤ

/-- A reading of the clock. Its text reads back. -/
structure Chrono.Reading (c : Chrono) where
  instant : ℤ
  reads : c.parseFromRfc3339 (c.toRfc3339 instant) = some instant

def Chrono.Reading.text {c : Chrono} (t : c.Reading) : String := c.toRfc3339 t.instant

namespace Validate

def maxTitleLen : ℕ := 512
def maxNamespaceLen : ℕ := 512
def maxSourceLen : ℕ := 64
def maxTagLen : ℕ := 128
def maxTagsCount : ℕ := 50
def maxRelationLen : ℕ := 64
def maxIdLen : ℕ := 128
def maxAgentIdLen : ℕ := 128
def maxMetadataSize : ℕ := 65536
def maxMetadataDepth : ℕ := 32

def validSources : List String :=
  ["user", "claude", "hook", "api", "cli", "import", "consolidation", "system", "chaos", "notify"]

def validRelations : List String := ["related_to", "supersedes", "contradicts", "derived_from"]

/-- `char::is_whitespace`: the Unicode `White_Space` property. -/
def isWhitespace (c : Char) : Bool :=
  let n := c.toNat
  (9 ≤ n && n ≤ 13) || n == 0x20 || n == 0x85 || n == 0xA0 || n == 0x1680 ||
    (0x2000 ≤ n && n ≤ 0x200A) || n == 0x2028 || n == 0x2029 || n == 0x202F || n == 0x205F ||
    n == 0x3000

/-- `char::is_control`: the Unicode category `Cc`. -/
def isControl (c : Char) : Bool :=
  let n := c.toNat
  n < 0x20 || (0x7F ≤ n && n ≤ 0x9F)

/-- `str::trim`, on characters. -/
def trim (s : String) : List Char :=
  ((s.toList.dropWhile isWhitespace).reverse.dropWhile isWhitespace).reverse

def isCleanString (s : List Char) : Bool :=
  !s.any fun c => isControl c && c != '\n' && c != '\t'

/-- `len()` of a string slice: bytes of UTF-8. -/
def byteLen (s : List Char) : ℕ := (s.map Char.utf8Size).sum

theorem mem_dropWhile {f : Char → Bool} {c : Char} {s : List Char} (hc : f c = false) (h : c ∈ s) : c ∈ s.dropWhile f := by
  rw [← List.takeWhile_append_dropWhile (p := f) (l := s)] at h
  refine (List.mem_append.mp h).resolve_left fun htake => ?_
  rw [List.mem_takeWhile_imp htake] at hc
  cases hc

theorem mem_trim {c : Char} {s : String} (hc : isWhitespace c = false) (h : c ∈ s.toList) : c ∈ trim s :=
  List.mem_reverse.mpr (mem_dropWhile hc (List.mem_reverse.mpr (mem_dropWhile hc h)))

theorem dropWhile_eq_self {f : Char → Bool} {s : List Char} (h : ∀ c ∈ s, f c = false) : s.dropWhile f = s := by
  cases s with
  | nil => rfl
  | cons c s => exact List.dropWhile_cons_of_neg (by rw [h c List.mem_cons_self]; exact Bool.false_ne_true)

theorem stripped_eq_self {f : Char → Bool} {s : List Char} (h : ∀ c ∈ s, f c = false) :
    ((s.dropWhile f).reverse.dropWhile f).reverse = s := by
  rw [dropWhile_eq_self h, dropWhile_eq_self fun c hc => h c (List.mem_reverse.mp hc), List.reverse_reverse]

/-- `bail!` with `msg` when `c` holds. -/
def bailIf (c : Bool) (msg : String) : Except String Unit := if c then .error msg else .ok ()

def validateTitle (title : String) : Except String Unit := do
  bailIf (trim title = []) "title cannot be empty"
  bailIf ((trim title).length > maxTitleLen)
    s!"title exceeds max length of {maxTitleLen} characters"
  bailIf (!isCleanString (trim title)) "title contains invalid characters"

def validateContent (content : String) : Except String Unit := do
  bailIf (trim content = []) "content cannot be empty"
  bailIf (byteLen content.toList > maxContentSize)
    s!"content exceeds max size of {maxContentSize} bytes"
  bailIf (!isCleanString content.toList) "content contains invalid characters"

/-- The checks of `validate_namespace` on the trimmed characters. -/
def validateNamespaceChars (trimmed : List Char) : Except String Unit := do
  bailIf (trimmed = []) "namespace cannot be empty"
  bailIf (trimmed.length > maxNamespaceLen)
    s!"namespace exceeds max length of {maxNamespaceLen} characters"
  bailIf (trimmed.contains '\\' || trimmed.contains (Char.ofNat 0))
    "namespace cannot contain backslashes or null bytes"
  bailIf (trimmed.contains ' ') "namespace cannot contain spaces (use hyphens or underscores)"
  bailIf (!isCleanString trimmed) "namespace contains invalid control characters"
  bailIf (trimmed.head? = some '/') "namespace cannot start with '/' (normalize input first)"
  bailIf (trimmed.getLast? = some '/') "namespace cannot end with '/' (normalize input first)"
  bailIf ((trimmed.splitOn '/').any (·.isEmpty)) "namespace cannot contain empty segments (e.g. '//')"
  bailIf ((trimmed.splitOn '/').any fun s => s = ['.', '.'] || s = ['.'])
    "namespace segments '.' and '..' are not allowed"
  let depth := namespaceDepth (String.ofList trimmed)
  bailIf (depth > maxNamespaceDepth) s!"namespace depth {depth} exceeds max of {maxNamespaceDepth}"

def validateNamespace (ns : String) : Except String Unit := validateNamespaceChars (trim ns)

def validateSource (source : String) : Except String Unit := do
  bailIf (trim source = []) "source cannot be empty"
  bailIf (byteLen source.toList > maxSourceLen)
    s!"source exceeds max length of {maxSourceLen} bytes"
  let valid := ", ".intercalate validSources
  bailIf (!validSources.contains source) s!"invalid source '{source}' — must be one of: {valid}"

def isAgentIdChar (c : Char) : Bool := c.isAlphanum || ['_', '-', ':', '@', '.', '/'].contains c

def validateAgentId (agentId : String) : Except String Unit := do
  bailIf (agentId = "") "agent_id cannot be empty"
  bailIf (byteLen agentId.toList > maxAgentIdLen)
    s!"agent_id exceeds max length of {maxAgentIdLen} bytes"
  match agentId.toList.find? (!isAgentIdChar ·) with
  | some c => throw s!"agent_id contains invalid character '{c}' (allowed: alphanumeric, _-:@./)"
  | none => pure ()

def validateTag (tag : String) : Except String Unit := do
  bailIf (trim tag = []) "tags cannot contain empty strings"
  let preview := String.ofList ((trim tag).take 20)
  bailIf (byteLen (trim tag) > maxTagLen)
    s!"tag '{preview}...' exceeds max length of {maxTagLen} bytes"
  bailIf (!isCleanString (trim tag)) "tag contains invalid characters"

def validateEachTag : List String → Except String Unit
  | [] => pure ()
  | tag :: tags => do
    validateTag tag
    validateEachTag tags

def validateTags (tags : List String) : Except String Unit := do
  bailIf (tags.length > maxTagsCount) s!"too many tags (max {maxTagsCount})"
  validateEachTag tags

def validateId (id : String) : Except String Unit := do
  bailIf (trim id = []) "id cannot be empty"
  bailIf (byteLen id.toList > maxIdLen) s!"id exceeds max length of {maxIdLen} bytes"
  bailIf (!isCleanString id.toList) "id contains invalid characters"

def validateMetadata (metadata : Json) : Except String Unit := do
  bailIf (!metadata.isObject) "metadata must be a JSON object"
  let size := byteLen metadata.render
  bailIf (size > maxMetadataSize)
    s!"metadata exceeds max size of {maxMetadataSize} bytes (got {size})"
  let depth := metadata.depth
  bailIf (depth > maxMetadataDepth)
    s!"metadata nesting depth exceeds limit of {maxMetadataDepth} (got {depth})"

def validateRelation (relation : String) : Except String Unit := do
  bailIf (trim relation = []) "relation cannot be empty"
  bailIf (byteLen relation.toList > maxRelationLen)
    s!"relation exceeds max length of {maxRelationLen} bytes"
  let valid := ", ".intercalate validRelations
  bailIf (!validRelations.contains relation)
    s!"invalid relation '{relation}' — must be one of: {valid}"

def validateConfidence (confidence : ℚ) : Except String Unit :=
  bailIf (confidence < 0 || 1 < confidence)
    s!"confidence must be between 0.0 and 1.0 (got {confidence})"

def validatePriority (priority : ℤ) : Except String Unit :=
  bailIf (priority < 1 || 10 < priority) s!"priority must be between 1 and 10 (got {priority})"

def validateLink (sourceId targetId relation : String) : Except String Unit := do
  validateId sourceId
  validateId targetId
  validateRelation relation
  bailIf (sourceId = targetId) "cannot link a memory to itself"

/-- `validate_memory`, the check of imported and synced memories. -/
def validateMemory (rfc3339 : Rfc3339) (mem : Memory) : Except String Unit := do
  validateId mem.id
  validateTitle mem.title
  validateContent mem.content
  validateNamespace mem.ns
  validateSource mem.source
  validateTags mem.tags
  validatePriority mem.priority
  validateConfidence mem.confidence
  bailIf (mem.accessCount < 0) "access_count cannot be negative"
  bailIf (!rfc3339 mem.createdAt) "created_at is not valid RFC3339"
  bailIf (!rfc3339 mem.updatedAt) "updated_at is not valid RFC3339"
  bailIf (mem.lastAccessedAt.any (!rfc3339 ·)) "last_accessed_at is not valid RFC3339"
  bailIf (mem.expiresAt.any (!rfc3339 ·)) "expires_at is not valid RFC3339"
  validateMetadata mem.metadata

end Validate

/-- A validator accepted. -/
def Accepts (r : Except String Unit) : Prop := r = .ok ()

instance (r : Except String Unit) : Decidable (Accepts r) :=
  match r with
  | .ok () => isTrue rfl
  | .error _ => isFalse fun h => by cases h

@[simp] theorem accepts_bailIf {c : Bool} {msg : String} :
    Accepts (Validate.bailIf c msg) ↔ c = false := by
  cases c <;> simp [Accepts, Validate.bailIf]

theorem bind_eq_ok_iff {ε α β : Type} {x : Except ε α} {f : α → Except ε β} {b : β} :
    x >>= f = .ok b ↔ ∃ a, x = .ok a ∧ f a = .ok b := by
  cases x with
  | error e => exact iff_of_false nofun fun ⟨_, ha, _⟩ => nomatch ha
  | ok a => exact ⟨fun h => ⟨a, rfl, h⟩, fun ⟨_, ha, h⟩ => by cases ha; exact h⟩

@[simp] theorem accepts_bind {r : Except String Unit} {f : Unit → Except String Unit} :
    Accepts (r >>= f) ↔ Accepts r ∧ Accepts (f ()) := by
  cases r <;> simp [Accepts, bind, Except.bind]

/-- The memory passes `validate_memory`. -/
def Memory.Valid (rfc3339 : Rfc3339) (m : Memory) : Prop := Accepts (Validate.validateMemory rfc3339 m)

instance (rfc3339 : Rfc3339) (m : Memory) : Decidable (m.Valid rfc3339) :=
  inferInstanceAs (Decidable (Accepts _))

theorem Memory.Valid.isObject {rfc3339 : Rfc3339} {m : Memory} (h : m.Valid rfc3339) :
    m.metadata.isObject := by
  unfold Memory.Valid Validate.validateMemory Validate.validateMetadata at h
  simp only [accepts_bind, accepts_bailIf, Bool.not_eq_false'] at h
  exact h.2.2.2.2.2.2.2.2.2.2.2.2.2.1

end AiMemory
