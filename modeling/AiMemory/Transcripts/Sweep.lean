import AiMemory.Lib.Transitions
import AiMemory.Db.Archive
import AiMemory.Transcripts.Store

/-!
# The life of a transcript

`TranscriptsConfig::resolve` of `config.rs` and `sweep_transcript_lifecycle` of `transcripts.rs`. A sweep archives the
transcripts that are old and that no live memory is linked to, and deletes those whose grace period is over. It reads
the clock once for both phases, so no row goes through both in one sweep.

The operations of a run are those that write memories, transcripts or the links between them.
-/

namespace AiMemory

open Relational

/-! ## Configuration -/

/-- `TranscriptNamespaceConfig`, without the flag of the extractor. -/
structure TranscriptNamespaceConfig where
  defaultTtlSecs : Option ℤ
  archiveGraceSecs : Option ℤ
  deriving DecidableEq

structure TranscriptsConfig where
  defaultTtlSecs : Option ℤ
  archiveGraceSecs : Option ℤ
  namespaces : Option (Table (Prod.fst : String × TranscriptNamespaceConfig → String))

def defaultTranscriptTtlSecs : ℤ := 2592000

def defaultTranscriptArchiveGraceSecs : ℤ := 604800

def maxTranscriptLifecycleSecs : ℤ := 315360000

structure ResolvedTranscriptLifecycle where
  defaultTtlSecs : ℤ
  archiveGraceSecs : ℤ
  ttl_bounds : 0 < defaultTtlSecs ∧ defaultTtlSecs ≤ maxTranscriptLifecycleSecs
  grace_bounds : 0 < archiveGraceSecs ∧ archiveGraceSecs ≤ maxTranscriptLifecycleSecs

namespace TranscriptsConfig

/-- `clamp` of `resolve`. -/
def clamp (v fallback : ℤ) : ℤ := if v ≤ 0 then fallback else min v maxTranscriptLifecycleSecs

def clampOr (v : Option ℤ) (fallback : ℤ) : ℤ := v.elim fallback fun v => clamp v fallback

/-- `strip_suffix("/*")`. -/
def stripChildren (pattern : String) : Option String :=
  if ['/', '*'].isSuffixOf pattern.toList then some (String.ofList pattern.toList.dropLast.dropLast) else none

/-- `namespace == prefix || namespace.starts_with(&format!("{prefix}/"))`. -/
def underPrefix (p ns : String) : Bool := ns = p || (p.toList ++ ['/']).isPrefixOf ns.toList

/-- The patterns `prefix/*` over a namespace, the longest first. -/
def prefixHits (table : List (String × TranscriptNamespaceConfig)) (ns : String) :
    List (String × TranscriptNamespaceConfig) :=
  (table.filterMap fun e => ((stripChildren e.1).filter (underPrefix · ns)).map fun p => (p, e.2)).mergeSort
    fun a b => b.1.utf8ByteSize ≤ a.1.utf8ByteSize

/-- `pick_ns` of `resolve`: the exact name, the longest prefix, the wildcard. -/
def pickNs (cfg : TranscriptsConfig) (ns : String) (field : TranscriptNamespaceConfig → Option ℤ) : Option ℤ :=
  cfg.namespaces.bind fun table =>
    ((table.find ns).bind fun e => field e.2).or
      (((prefixHits table.rows ns).findSome? fun e => field e.2).or ((table.find "*").bind fun e => field e.2))

theorem clampOr_bounds {v : Option ℤ} {fallback : ℤ} (h : 0 < fallback ∧ fallback ≤ maxTranscriptLifecycleSecs) :
    0 < clampOr v fallback ∧ clampOr v fallback ≤ maxTranscriptLifecycleSecs := by
  have hmax : 0 < maxTranscriptLifecycleSecs := by decide
  cases v with
  | none => exact h
  | some v =>
    show 0 < clamp v fallback ∧ clamp v fallback ≤ maxTranscriptLifecycleSecs
    unfold clamp
    split_ifs with hv
    · exact h
    · exact ⟨lt_min (not_le.mp hv) hmax, min_le_right v maxTranscriptLifecycleSecs⟩

def resolve (cfg : TranscriptsConfig) (ns : String) : ResolvedTranscriptLifecycle where
  defaultTtlSecs := clampOr ((cfg.pickNs ns (·.defaultTtlSecs)).or cfg.defaultTtlSecs) defaultTranscriptTtlSecs
  archiveGraceSecs :=
    clampOr ((cfg.pickNs ns (·.archiveGraceSecs)).or cfg.archiveGraceSecs) defaultTranscriptArchiveGraceSecs
  ttl_bounds := clampOr_bounds (by decide)
  grace_bounds := clampOr_bounds (by decide)

end TranscriptsConfig

/-! ## A sweep -/

structure SweepReport where
  archived : ℕ
  pruned : ℕ
  errors : ℕ
  deriving DecidableEq

namespace Transcripts

def seconds (n : ℤ) : ℤ := n * 1000000000

/-- `m.expires_at IS NULL OR m.expires_at > now`. -/
def isAlive (now : String) (m : MemoryRow) : Bool := m.expiresAt.all (now < ·)

def aliveCount (s : TranscriptDb) (transcriptId now : String) : ℕ :=
  s.spans.rows.countP fun l => l.transcriptId = transcriptId && (s.db.get l.memoryId).any (isAlive now)

section Sweep

variable (c : Chrono) (cfg : TranscriptsConfig) (now : c.Reading)

def shouldArchive (s : TranscriptDb) (transcriptId createdAt : String) (resolved : ResolvedTranscriptLifecycle) :
    Except String Bool :=
  match c.parseFromRfc3339 createdAt with
  | none => .error s!"transcript {transcriptId} has unparseable created_at"
  | some created =>
    if now.instant ≤ created + seconds resolved.defaultTtlSecs then .ok false
    else .ok (aliveCount s transcriptId now.text = 0)

/-- `UPDATE memory_transcripts SET archived_at = ?1 WHERE id = ?2 AND archived_at IS NULL`. -/
def markArchived (stamp : String) (r : TranscriptRow) : TranscriptRow :=
  { r with archivedAt := r.archivedAt.or (some stamp) }

/-- One candidate of `archive_phase`. -/
def archiveOne (acc : TranscriptDb × SweepReport) (r : TranscriptRow) : TranscriptDb × SweepReport :=
  match shouldArchive c now acc.1 r.id r.createdAt (cfg.resolve r.ns) with
  | .ok true =>
    ({ acc.1 with transcripts := acc.1.transcripts.modify r.id (markArchived now.text) fun _ => rfl },
      { acc.2 with archived := acc.2.archived + 1 })
  | .ok false => acc
  | .error _ => (acc.1, { acc.2 with errors := acc.2.errors + 1 })

def archivePhase (s : TranscriptDb) (report : SweepReport) : TranscriptDb × SweepReport :=
  (s.transcripts.rows.filter fun r => r.archivedAt = none).foldl (archiveOne c cfg now) (s, report)

/-- One candidate of `prune_phase`, with its `archived_at`. -/
def pruneOne (acc : TranscriptDb × SweepReport) (e : TranscriptRow × String) : TranscriptDb × SweepReport :=
  match c.parseFromRfc3339 e.2 with
  | none => (acc.1, { acc.2 with errors := acc.2.errors + 1 })
  | some archived =>
    if now.instant ≤ archived + seconds (cfg.resolve e.1.ns).archiveGraceSecs then acc
    else (deleteTranscripts acc.1 fun r => r.id ≠ e.1.id,
      { acc.2 with pruned := acc.2.pruned + acc.1.transcripts.rows.countP fun r => r.id = e.1.id })

def prunePhase (s : TranscriptDb) (report : SweepReport) : TranscriptDb × SweepReport :=
  (s.transcripts.rows.filterMap fun r => r.archivedAt.map fun a => (r, a)).foldl (pruneOne c cfg now) (s, report)

def sweepTranscriptLifecycle (s : TranscriptDb) : TranscriptDb × SweepReport :=
  let r := archivePhase c cfg now s ⟨0, 0, 0⟩
  prunePhase c cfg now r.1 r.2

end Sweep

/-! ## Runs -/

/-- The operations of a run. -/
inductive Op (c : Chrono) where
  | insert (mem : Memory)
  | update (id : String) (u : UpdateMemory) (now : String)
  | touch (id : String) (times : Db.TouchTimes)
  | delete (id : String)
  | gc (archive : Bool) (now : String)
  | store (id ns content : String) (ttl : Option ℤ) (now : c.Reading)
  | linkTranscript (memoryId transcriptId : String) (spanStart spanEnd : Option ℤ)
  | purgeExpired (now : c.Reading)
  | sweep (cfg : TranscriptsConfig) (now : c.Reading)

def Op.sweeps {c : Chrono} : Op c → Bool
  | .purgeExpired _ => true
  | .sweep _ _ => true
  | _ => false

def settle {α β : Type} (old : β) (after : α → β) : Except String α → β
  | .ok a => after a
  | .error _ => old

def step {σ : Type} (z : Zstd σ) {c : Chrono} (s : TranscriptDb) : Op c → TranscriptDb
  | .insert mem => settle s (fun p => withDb s p.1) (s.db.insert mem)
  | .update id u now => settle s (fun p => withDb s p.1) (s.db.update id u now)
  | .touch id times => withDb s (s.db.touch id times)
  | .delete id => withDb s (s.db.delete id).1
  | .gc archive now => withDb s (s.db.gc archive now).1
  | .store id ns content ttl now => settle s Prod.fst (store z c s id ns content ttl now)
  | .linkTranscript memoryId transcriptId a b => settle s id (linkTranscript s memoryId transcriptId a b)
  | .purgeExpired now => (purgeExpired s now.text).1
  | .sweep cfg now => (sweepTranscriptLifecycle c cfg now s).1

end Transcripts

end AiMemory
