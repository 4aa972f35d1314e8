import AiMemory.Lib.Files
import AiMemory.Lib.Transitions

/-!
# Backups and restores

`run_backup` writes a snapshot and its manifest and rotates the snapshots of the directory by modification time; `run_restore`
moves the database aside under a name of one second's resolution, and then copies a snapshot into its place. Nothing is lost in a
run if rotation finds the new snapshot among the newest, no set-aside name is used twice and nothing fails once the database has
been moved (`backups_keep`); otherwise each of the three can fail (`only_copies_lost`).
-/

namespace AiMemory

open Files Machine Store

namespace Backup

/-! ## Snapshots -/

structure BackupManifest where
  snapshot : String
  sha256 : String
  bytes : ℕ
  sourceDb : String
  version : String
  createdAt : String

/-- What comes from elsewhere: what a database file holds once it was opened, its copy by `VACUUM INTO`, the digest, and JSON. -/
structure Tools where
  opened : Option String → String
  vacuum : String → String
  sha256 : String → String
  version : String
  manifestText : BackupManifest → String
  parseManifest : String → Except String BackupManifest

def isSnapshot (name : String) : Bool :=
  "ai-memory-".toList.isPrefixOf name.toList &&
    (splitName name).2.any fun ext => ext.toList.map Char.toLower = "db".toList

def manifestOf (dir : String) (snapshot : Location) : Location := ⟨dir, (splitName snapshot.name).1 ++ ".manifest.json"⟩

/-- The snapshots of a directory, with their times, in the order in which the directory lists its entries. -/
def snapshotsIn (files : Store String) (dir : String) (listing : List String) : List (ℤ × Location) :=
  listing.filterMap fun name => if isSnapshot name then (files ⟨dir, name⟩).map fun f => (f.modified, ⟨dir, name⟩) else none

/-- The operations of `run_backup` that may fail. -/
inductive BackupOp where
  | createDir
  | openDb
  | vacuum
  | inspect
  | manifest
  | readDir
  | output
  deriving DecidableEq

/-- A call of `run_backup`: its arguments, the clock, the times that the file system notes, the entries of the directory that can
be read, and what fails. -/
structure BackupCall where
  toDir : String
  keep : ℕ
  ts : String
  createdAt : String
  dbModified : ℤ
  snapshotModified : ℤ
  manifestModified : ℤ
  listing : List String
  fault : Option BackupOp := none
  left : Option (File String) := none
  removeFails : Location → Bool
  ioError : String := ""

namespace BackupCall

def snapshot (x : BackupCall) : Location := ⟨x.toDir, "ai-memory-" ++ x.ts ++ ".db"⟩

def manifest (x : BackupCall) : Location := ⟨x.toDir, "ai-memory-" ++ x.ts ++ ".manifest.json"⟩

end BackupCall

def leave (files : Store String) (p : Location) : Option (File String) → Store String
  | none => files
  | some f => files.write p f

section Run

variable (tools : Tools) (dbPath : Location)

/-- `run_backup` up to the manifest. -/
def writeSnapshot (x : BackupCall) (files : Store String) : Store String × Except String Unit :=
  if x.fault = some .createDir then (files, .error s!"creating backup dir {x.toDir}")
  else if x.fault = some .openDb then (leave files dbPath x.left, .error "opening source DB for backup")
  else
    let source := tools.opened (files.content dbPath)
    let files := files.write dbPath ⟨source, x.dbModified⟩
    if (files x.snapshot).isSome then (files, .error ("refusing to overwrite existing snapshot " ++ x.snapshot.display))
    else if x.fault = some .vacuum then (leave files x.snapshot x.left, .error "VACUUM INTO failed")
    else
      let copy := tools.vacuum source
      let files := files.write x.snapshot ⟨copy, x.snapshotModified⟩
      if x.fault = some .inspect then (files, .error x.ioError)
      else if x.fault = some .manifest then (leave files x.manifest x.left, .error x.ioError)
      else
        let manifest : BackupManifest :=
          { snapshot := x.snapshot.name
            sha256 := tools.sha256 copy
            bytes := copy.utf8ByteSize
            sourceDb := dbPath.display
            version := tools.version
            createdAt := x.createdAt }
        (files.write x.manifest ⟨tools.manifestText manifest, x.manifestModified⟩, .ok ())

def tryRemove (fails : Location → Bool) (files : Store String) (p : Location) : Store String := if fails p then files else files.remove p

/-- The snapshots past `keep`. -/
def pruned (x : BackupCall) (files : Store String) : List Location :=
  ((newestFirst (snapshotsIn files x.toDir x.listing)).drop x.keep).map Prod.snd

def pruneOldSnapshots (x : BackupCall) (files : Store String) : Store String :=
  (pruned x files).foldl (fun files p => tryRemove x.removeFails (tryRemove x.removeFails files p) (manifestOf x.toDir p)) files

def runBackup (x : BackupCall) (files : Store String) : Store String × Except String Unit :=
  match writeSnapshot tools dbPath x files with
  | (files, .error e) => (files, .error e)
  | (files, .ok ()) =>
    if 0 < x.keep ∧ x.fault = some .readDir then (files, .error x.ioError)
    else
      let files := if 0 < x.keep then pruneOldSnapshots x files else files
      if x.fault = some .output then (files, .error x.ioError) else (files, .ok ())

/-! ## Restores -/

/-- A directory of snapshots, or a snapshot. -/
inductive RestoreFrom where
  | dir (d : String)
  | file (p : Location)

/-- The operations of `run_restore` that may fail. -/
inductive RestoreOp where
  | readDir
  | verify
  | move
  | noteMoved
  | copy
  | output
  deriving DecidableEq

/-- A call of `run_restore`. -/
structure RestoreCall where
  source : RestoreFrom
  skipVerify : Bool := false
  jsonOut : Bool := false
  listing : List String := []
  ts : String
  modified : ℤ
  fault : Option RestoreOp := none
  left : Option (File String) := none
  ioError : String := ""

def choose (x : RestoreCall) (files : Store String) : Except String (Location × Location) :=
  match x.source with
  | .dir d =>
    if x.fault = some .readDir then .error x.ioError
    else
      match (newestFirst (snapshotsIn files d x.listing)).head? with
      | none => .error s!"no snapshots found in {d}"
      | some (_, p) => .ok (p, manifestOf d p)
  | .file p => .ok (p, manifestOf p.dir p)

def verify (x : RestoreCall) (files : Store String) (snapshot : File String) (manifest : Location) : Except String Unit :=
  match files manifest with
  | none => .error ("manifest " ++ manifest.display ++ " not found; pass --skip-verify to restore anyway")
  | some text =>
    if x.fault = some .verify then .error x.ioError
    else
      match tools.parseManifest text.content with
      | .error _ => .error ("parsing manifest " ++ manifest.display)
      | .ok m =>
        let observed := tools.sha256 snapshot.content
        if observed ≠ m.sha256 then .error s!"sha256 mismatch — manifest says {m.sha256}, snapshot is {observed}"
        else .ok ()

def checked (x : RestoreCall) (files : Store String) : Except String Location :=
  match choose x files with
  | .error e => .error e
  | .ok (snapshot, manifest) =>
    match files snapshot with
    | none => .error ("snapshot " ++ snapshot.display ++ " does not exist")
    | some f =>
      if x.skipVerify then .ok snapshot else (verify tools x files f manifest).map fun _ => snapshot

def aside (ts : String) : Location := ⟨dbPath.dir, withExtension dbPath.name ("pre-restore-" ++ ts ++ ".db")⟩

/-- `copy`, and the message. -/
def copyIn (x : RestoreCall) (files : Store String) (snapshot : Location) : Store String × Except String Unit :=
  match files snapshot with
  | none => (files, .error ("copying snapshot to " ++ dbPath.display))
  | some f =>
    if x.fault = some .copy then (leave files dbPath x.left, .error ("copying snapshot to " ++ dbPath.display))
    else
      let files := files.write dbPath ⟨f.content, x.modified⟩
      if x.fault = some .output then (files, .error x.ioError) else (files, .ok ())

def runRestore (x : RestoreCall) (files : Store String) : Store String × Except String Unit :=
  match checked tools x files with
  | .error e => (files, .error e)
  | .ok snapshot =>
    if (files dbPath).isSome then
      if x.fault = some .move then (files, .error ("moving current DB aside to " ++ (aside dbPath x.ts).display))
      else
        let files := files.rename dbPath (aside dbPath x.ts)
        if x.jsonOut = false ∧ x.fault = some .noteMoved then (files, .error x.ioError)
        else copyIn dbPath x files snapshot
    else copyIn dbPath x files snapshot

end Run

/-! ## Names -/

section Names

variable {files : Store String} {p q : Location} {dir name stem : String} {x : BackupCall}

theorem isSnapshot_snapshot (x : BackupCall) : isSnapshot x.snapshot.name = true := by
  have hsplit : splitName ("ai-memory-" ++ x.ts ++ "." ++ "db") = ("ai-memory-" ++ x.ts, some "db") :=
    splitName_append (by simp) (by decide) (by decide)
  unfold isSnapshot BackupCall.snapshot
  rw [show "ai-memory-" ++ x.ts ++ ".db" = "ai-memory-" ++ x.ts ++ "." ++ "db" from by
    rw [show ".db" = "." ++ "db" from rfl, String.append_assoc, String.append_assoc, String.append_assoc], hsplit, Bool.and_eq_true]
  exact ⟨by simp, show decide ("db".toList.map Char.toLower = "db".toList) = true by decide⟩

theorem isSnapshot_manifest (stem : String) : isSnapshot (stem ++ ".manifest.json") = false := by
  have hsplit : splitName (stem ++ ".manifest" ++ "." ++ "json") = (stem ++ ".manifest", some "json") :=
    splitName_append (by simp) (by decide) (by decide)
  unfold isSnapshot
  rw [show stem ++ ".manifest.json" = stem ++ ".manifest" ++ "." ++ "json" from by
    rw [String.append_assoc, String.append_assoc]
    rfl, hsplit, Bool.and_eq_false_iff]
  exact Or.inr (show decide ("json".toList.map Char.toLower = "db".toList) = false by decide)

theorem ne_manifestOf (hp : isSnapshot p.name = true) : p ≠ manifestOf dir q := fun h => by
  rw [h, show (manifestOf dir q).name = (splitName q.name).1 ++ ".manifest.json" from rfl, isSnapshot_manifest] at hp
  cases hp

theorem manifest_ne (hp : isSnapshot p.name = true) : p ≠ x.manifest := fun h => by
  rw [h, show x.manifest.name = "ai-memory-" ++ x.ts ++ ".manifest.json" from rfl, isSnapshot_manifest] at hp
  cases hp

end Names

/-! ## Rotation -/

section Rotation

variable {files : Store String} {p : Location} {x : BackupCall} {m : ℤ}

theorem mem_snapshotsIn {dir : String} {listing : List String} : (m, p) ∈ snapshotsIn files dir listing ↔
    p.dir = dir ∧ p.name ∈ listing ∧ isSnapshot p.name ∧ (files p).map File.modified = some m := by
  obtain ⟨d, name⟩ := p
  unfold snapshotsIn
  rw [List.mem_filterMap]
  constructor
  · rintro ⟨n, hn, hrow⟩
    split_ifs at hrow with hsnap
    obtain ⟨f, hf, heq⟩ := Option.map_eq_some_iff.mp hrow
    cases heq
    exact ⟨rfl, hn, hsnap, by rw [hf]; rfl⟩
  · rintro ⟨rfl, hn, hsnap, hm⟩
    obtain ⟨f, hf, rfl⟩ := Option.map_eq_some_iff.mp hm
    exact ⟨name, hn, by rw [if_pos hsnap, hf]; rfl⟩

theorem nodup_snapshotsIn {dir : String} {listing : List String} (hlisting : listing.Nodup) :
    ((snapshotsIn files dir listing).map Prod.snd).Nodup := by
  unfold snapshotsIn
  rw [List.map_filterMap]
  refine hlisting.filterMap fun a b p ha hb => ?_
  obtain ⟨y, hy, rfl⟩ := Option.map_eq_some_iff.mp ha
  obtain ⟨z, hz, heq⟩ := Option.map_eq_some_iff.mp hb
  split_ifs at hy hz
  obtain ⟨f, -, rfl⟩ := Option.map_eq_some_iff.mp hy
  obtain ⟨g, -, rfl⟩ := Option.map_eq_some_iff.mp hz
  exact (congrArg Location.name heq).symm

theorem isSnapshot_of_mem_pruned (hp : p ∈ pruned x files) : isSnapshot p.name = true := by
  obtain ⟨⟨m, q⟩, hrow, rfl⟩ := List.mem_map.mp hp
  exact (mem_snapshotsIn.mp (mem_newestFirst.mp (List.mem_of_mem_drop hrow))).2.2.1

variable {fails : Location → Bool} {paths : List Location} {manifest : Location → Location}

theorem tryRemove_of_ne {q : Location} (h : p ≠ q) : tryRemove fails files q p = files p := by
  unfold tryRemove
  split_ifs
  · rfl
  · exact remove_of_ne h

theorem isSome_of_tryRemove {q : Location} (h : (tryRemove fails files q p).isSome) : (files p).isSome := by
  by_cases heq : p = q
  · subst heq
    unfold tryRemove at h
    split_ifs at h
    · exact h
    · rw [remove_self] at h
      cases h
  · rwa [tryRemove_of_ne heq] at h

theorem foldl_tryRemove_of_ne (h : ∀ q ∈ paths, p ≠ q ∧ p ≠ manifest q) :
    paths.foldl (fun files q => tryRemove fails (tryRemove fails files q) (manifest q)) files p = files p := by
  induction paths generalizing files with
  | nil => rfl
  | cons q paths ih =>
    obtain ⟨hq, hpaths⟩ := List.forall_mem_cons.mp h
    rw [List.foldl_cons, ih hpaths, tryRemove_of_ne hq.2, tryRemove_of_ne hq.1]

theorem isSome_of_foldl_tryRemove
    (h : (paths.foldl (fun files q => tryRemove fails (tryRemove fails files q) (manifest q)) files p).isSome) : (files p).isSome := by
  induction paths generalizing files with
  | nil => exact h
  | cons q paths ih => exact isSome_of_tryRemove (isSome_of_tryRemove (ih h))

theorem foldl_tryRemove_eq_none (hp : p ∈ paths) (hfails : fails p = false) :
    paths.foldl (fun files q => tryRemove fails (tryRemove fails files q) (manifest q)) files p = none := by
  induction paths generalizing files with
  | nil => exact absurd hp List.not_mem_nil
  | cons q paths ih =>
    by_cases hin : p ∈ paths
    · exact ih hin
    · obtain rfl : p = q := (List.mem_cons.mp hp).resolve_right hin
      by_contra hsome
      have hleft := isSome_of_tryRemove (isSome_of_foldl_tryRemove (Option.isSome_iff_ne_none.mpr hsome))
      rw [tryRemove, hfails, if_neg Bool.false_ne_true, remove_self] at hleft
      cases hleft

def snapshotNames (files : Store String) (dir : String) : Set String := {name | isSnapshot name ∧ (files ⟨dir, name⟩).isSome}

/-- Rotation can keep what it should: every snapshot is listed, fewer than `keep` others are as new as the one just written,
those that go share no manifest with it, and their removal works. -/
structure RotationOk (x : BackupCall) (files : Store String) : Prop where
  nodup : x.listing.Nodup
  listed : ∀ name, isSnapshot name → (files ⟨x.toDir, name⟩).isSome → name ∈ x.listing
  newest : ((snapshotsIn files x.toDir x.listing).filter fun y =>
    y.2 ≠ x.snapshot ∧ x.snapshotModified ≤ y.1).length < x.keep
  manifests : ∀ p ∈ pruned x files, manifestOf x.toDir p ≠ x.manifest
  removes : ∀ p ∈ pruned x files, x.removeFails p = false

theorem RotationOk.snapshot_not_mem (h : RotationOk x files) (hnew : (files x.snapshot).map File.modified = some x.snapshotModified) :
    x.snapshot ∉ pruned x files := by
  have hsome : (files x.snapshot).isSome := by
    rw [← Option.isSome_map (f := File.modified), hnew]
    rfl
  have hmem : (x.snapshotModified, x.snapshot) ∈ snapshotsIn files x.toDir x.listing :=
    mem_snapshotsIn.mpr ⟨rfl, h.listed _ (isSnapshot_snapshot x) hsome, isSnapshot_snapshot x, hnew⟩
  have hnodup : ((snapshotsIn files x.toDir x.listing).map Prod.snd).Nodup := nodup_snapshotsIn h.nodup
  have hfew : ((snapshotsIn files x.toDir x.listing).filter fun y =>
      y ≠ (x.snapshotModified, x.snapshot) ∧ x.snapshotModified ≤ y.1).length < x.keep := by
    rw [List.filter_congr fun y hy => ?_]
    · exact h.newest
    · have heq : y.2 = x.snapshot → y.1 = x.snapshotModified := fun heq => by
        have hm := (mem_snapshotsIn.mp (show (y.1, y.2) ∈ _ from hy)).2.2.2
        rw [heq, hnew] at hm
        exact (Option.some.inj hm).symm
      simp only [decide_eq_decide]
      exact and_congr_left fun _ => not_congr ⟨fun hy => hy ▸ rfl, fun hy => Prod.ext (heq hy) hy⟩
  have htake := mem_take_newestFirst (List.Nodup.of_map _ hnodup) hmem hfew
  have hsorted : ((newestFirst (snapshotsIn files x.toDir x.listing)).map Prod.snd).Nodup :=
    ((List.perm_insertionSort _ _).map Prod.snd).nodup_iff.mpr hnodup
  rw [← List.take_append_drop x.keep (newestFirst _), List.map_append] at hsorted
  exact List.disjoint_of_nodup_append hsorted (List.mem_map_of_mem htake)

/-- Rotation takes nothing but files that were there, and the manifests beside them. -/
theorem pruneOldSnapshots_of_ne (h : ∀ q ∈ pruned x files, p ≠ q ∧ p ≠ manifestOf x.toDir q) : pruneOldSnapshots x files p = files p :=
  foldl_tryRemove_of_ne h

theorem isSome_of_pruneOldSnapshots (h : (pruneOldSnapshots x files p).isSome) : (files p).isSome := isSome_of_foldl_tryRemove h

/-- What a rotation that is in order leaves. -/
theorem RotationOk.prune (h : RotationOk x files) (hnew : (files x.snapshot).map File.modified = some x.snapshotModified)
    (hmanifest : (files x.manifest).isSome) : (pruneOldSnapshots x files x.snapshot).isSome ∧
      (pruneOldSnapshots x files x.manifest).isSome ∧ (snapshotNames (pruneOldSnapshots x files) x.toDir).encard ≤ x.keep := by
  have hsome : (files x.snapshot).isSome := by
    rw [← Option.isSome_map (f := File.modified), hnew]
    rfl
  refine ⟨?_, ?_, ?_⟩
  · rwa [pruneOldSnapshots_of_ne fun q hq =>
      ⟨fun heq : x.snapshot = q => h.snapshot_not_mem hnew (heq ▸ hq), ne_manifestOf (isSnapshot_snapshot x)⟩]
  · rwa [pruneOldSnapshots_of_ne fun q hq =>
      ⟨fun heq => manifest_ne (isSnapshot_of_mem_pruned hq) heq.symm, fun heq => h.manifests q hq heq.symm⟩]
  · -- whatever is still there was among the first
    have hsub : snapshotNames (pruneOldSnapshots x files) x.toDir ⊆
        (((newestFirst (snapshotsIn files x.toDir x.listing)).take x.keep).map fun y => y.2.name).toFinset := by
      rintro name ⟨hsnap, hleft⟩
      have hbefore := isSome_of_pruneOldSnapshots hleft
      obtain ⟨f, hf⟩ := Option.isSome_iff_exists.mp hbefore
      have hrow : (f.modified, ⟨x.toDir, name⟩) ∈ newestFirst (snapshotsIn files x.toDir x.listing) :=
        mem_newestFirst.mpr (mem_snapshotsIn.mpr ⟨rfl, h.listed name hsnap hbefore, hsnap, by rw [hf]; rfl⟩)
      rw [← List.take_append_drop x.keep (newestFirst _)] at hrow
      rw [Finset.mem_coe, List.mem_toFinset]
      refine List.mem_map.mpr ⟨_, (List.mem_append.mp hrow).resolve_right fun hdrop => ?_, rfl⟩
      have hpruned : ⟨x.toDir, name⟩ ∈ pruned x files := List.mem_map.mpr ⟨_, hdrop, rfl⟩
      rw [pruneOldSnapshots, foldl_tryRemove_eq_none hpruned (h.removes _ hpruned)] at hleft
      cases hleft
    refine (Set.encard_le_encard hsub).trans ?_
    rw [Set.encard_coe_eq_coe_finsetCard]
    refine Nat.cast_le.mpr ((List.toFinset_card_le _).trans ?_)
    rw [List.length_map, List.length_take]
    exact Nat.min_le_left _ _

end Rotation

/-! ## One call -/

section Calls

variable {tools : Tools} {dbPath p : Location} {files : Store String} {c : String}

theorem runBackup_ok {x : BackupCall} (h : (runBackup tools dbPath x files).2 = .ok ()) :
    (writeSnapshot tools dbPath x files).2 = .ok () ∧ (runBackup tools dbPath x files).1 =
      if 0 < x.keep then pruneOldSnapshots x (writeSnapshot tools dbPath x files).1 else (writeSnapshot tools dbPath x files).1 := by
  unfold runBackup at h ⊢
  rcases hw : writeSnapshot tools dbPath x files with ⟨files', e | u⟩
  · rw [hw] at h
    cases h
  · rw [hw] at h
    refine ⟨rfl, ?_⟩
    split_ifs at h ⊢ <;> rfl

theorem writeSnapshot_ok {x : BackupCall} (h : (writeSnapshot tools dbPath x files).2 = .ok ()) :
    ((writeSnapshot tools dbPath x files).1 x.snapshot).map File.modified = some x.snapshotModified ∧
      ((writeSnapshot tools dbPath x files).1 x.manifest).isSome := by
  unfold writeSnapshot at h ⊢
  dsimp only at h ⊢
  split_ifs at h ⊢
  dsimp only
  refine ⟨?_, by rw [write_self]; rfl⟩
  rw [write_of_ne (manifest_ne (isSnapshot_snapshot x)), write_self]
  rfl

/-- The file is neither changed by opening the database, nor is it a manifest that is written, nor does rotation take it. -/
structure Spared (tools : Tools) (dbPath : Location) (x : BackupCall) (files : Store String) (p : Location) (c : String) : Prop where
  opened : p = dbPath → tools.opened (some c) = c ∧ (x.fault = some .openDb → x.left = none)
  manifest : p ≠ x.manifest
  rotation : 0 < x.keep → ∀ q ∈ pruned x (writeSnapshot tools dbPath x files).1, p ≠ q ∧ p ≠ manifestOf x.toDir q

theorem content_writeSnapshot {x : BackupCall} (hp : files.content p = some c) (h : Spared tools dbPath x files p c) :
    (writeSnapshot tools dbPath x files).1.content p = some c := by
  have hopen : (files.write dbPath ⟨tools.opened (files.content dbPath), x.dbModified⟩).content p = some c := by
    by_cases hdb : p = dbPath
    · subst hdb
      rw [content, write_self, hp, (h.opened rfl).1]
      rfl
    · rwa [content_write_of_ne hdb]
  have hleave : ∀ (left : Store String) (q : Location), p ≠ q → left.content p = some c → (leave left q x.left).content p = some c :=
    fun left q hne hleft => by
      cases x.left with
      | none => exact hleft
      | some f => exact (content_write_of_ne hne).trans hleft
  unfold writeSnapshot
  dsimp only
  split_ifs with hdir hdb hexists
  · exact hp
  · by_cases heq : p = dbPath
    · rw [(h.opened heq).2 hdb]
      exact hp
    · exact hleave _ _ heq hp
  · exact hopen
  -- the snapshot is a new file, so it is another one
  all_goals
    have hne : p ≠ x.snapshot := fun heq => by
      rw [← heq, ← isSome_content, hopen] at hexists
      exact hexists rfl
  · exact hleave _ _ hne hopen
  · exact (content_write_of_ne hne).trans hopen
  · exact hleave _ _ h.manifest ((content_write_of_ne hne).trans hopen)
  · exact (content_write_of_ne h.manifest).trans ((content_write_of_ne hne).trans hopen)

theorem content_runBackup {x : BackupCall} (hp : files.content p = some c) (h : Spared tools dbPath x files p c) :
    (runBackup tools dbPath x files).1.content p = some c := by
  have hwritten := content_writeSnapshot hp h
  have hrotation := h.rotation
  unfold runBackup
  rcases hw : writeSnapshot tools dbPath x files with ⟨files', e | u⟩
  · rwa [hw] at hwritten
  · rw [hw] at hwritten hrotation
    have hrotated : content (if 0 < x.keep then pruneOldSnapshots x files' else files') p = some c := by
      split_ifs with hkeep
      · exact (congrArg (Option.map File.content) (pruneOldSnapshots_of_ne (hrotation hkeep))).trans hwritten
      · exact hwritten
    dsimp only
    by_cases hread : 0 < x.keep ∧ x.fault = some .readDir
    · rwa [if_pos hread]
    · by_cases hout : x.fault = some .output
      · rwa [if_neg hread, if_pos hout]
      · rwa [if_neg hread, if_neg hout]

theorem aside_ne (ts : String) : aside dbPath ts ≠ dbPath := fun h =>
  withExtension_ne (by simp) (congrArg Location.name h)

variable {x : RestoreCall} {snapshot : Location}

theorem choose_of_checked (h : checked tools x files = .ok snapshot) :
    ∃ manifest, choose x files = .ok (snapshot, manifest) ∧ (files snapshot).isSome := by
  unfold checked at h
  cases hchoose : choose x files with
  | error e => rw [hchoose] at h; cases h
  | ok res =>
    obtain ⟨s, m⟩ := res
    rw [hchoose] at h
    dsimp only at h
    cases hs : files s with
    | none => rw [hs] at h; cases h
    | some f =>
      rw [hs] at h
      dsimp only at h
      have heq : s = snapshot := by
        split_ifs at h
        · exact Except.ok.inj h
        · cases hv : verify tools x files f m with
          | error e => rw [hv] at h; cases h
          | ok u =>
            rw [hv] at h
            exact Except.ok.inj h
      subst heq
      exact ⟨m, rfl, by rw [hs]; rfl⟩

/-- A copy touches nothing but the database. -/
theorem content_copyIn_of_ne (hp : p ≠ dbPath) :
    (copyIn dbPath x files snapshot).1.content p = files.content p := by
  unfold copyIn
  cases files snapshot with
  | none => rfl
  | some f =>
    split_ifs
    · cases x.left with
      | none => rfl
      | some g => exact content_write_of_ne hp
    · exact content_write_of_ne hp
    · exact content_write_of_ne hp

theorem copyIn_ok (hsnapshot : (files snapshot).isSome) (hcopy : x.fault ≠ some .copy)
    (hout : x.fault ≠ some .output) : (copyIn dbPath x files snapshot).2 = .ok () := by
  obtain ⟨f, hf⟩ := Option.isSome_iff_exists.mp hsnapshot
  unfold copyIn
  rw [hf]
  dsimp only
  rw [if_neg hcopy, if_neg hout]

theorem content_rename {q : Location} : (files.rename p q).content q = files.content p :=
  congrArg (Option.map File.content) (if_pos rfl)

theorem content_rename_of_ne {q r : Location} (hp : r ≠ p) (hq : r ≠ q) : (files.rename p q).content r = files.content r :=
  congrArg (Option.map File.content) ((if_neg hq).trans (if_neg hp))

theorem content_runRestore_of_ne (hdb : p ≠ dbPath) (haside : p ≠ aside dbPath x.ts) :
    (runRestore tools dbPath x files).1.content p = files.content p := by
  unfold runRestore
  cases checked tools x files with
  | error e => rfl
  | ok snapshot =>
    split_ifs
    · rfl
    · exact content_rename_of_ne hdb haside
    · exact (content_copyIn_of_ne hdb).trans (content_rename_of_ne hdb haside)
    · exact content_copyIn_of_ne hdb

/-- What a restore that is in order needs: once the snapshot has passed its checks nothing fails but the move, it is not the
database itself, and no owed content is held under the set-aside name alone. -/
structure RestoreOk (tools : Tools) (dbPath : Location) (x : RestoreCall) (files : Store String) (owed : List String) : Prop where
  copy : x.fault ≠ some .copy
  output : x.fault ≠ some .output
  noted : (files dbPath).isSome → x.jsonOut = false → x.fault ≠ some .noteMoved
  other : ∀ snapshot, checked tools x files = .ok snapshot → (files dbPath).isSome → snapshot ≠ dbPath
  free : (files dbPath).isSome → x.fault ≠ some .move → ∀ c ∈ owed, ∃ p ≠ aside dbPath x.ts, files.content p = some c

end Calls

/-! ## Runs -/

/-- The files, and the contents that the database had before each restore. -/
structure Disk where
  files : Store String
  owed : List String

inductive Call where
  | backup (x : BackupCall)
  | restore (x : RestoreCall)

section Runs

variable (tools : Tools) (dbPath : Location)

def Disk.step (d : Disk) : Call → Disk
  | .backup x => { d with files := (runBackup tools dbPath x d.files).1 }
  | .restore x =>
    { files := (runRestore tools dbPath x d.files).1
      owed := d.owed ++ (d.files.content dbPath).toList }

def Disk.start (files : Store String) : Disk where
  files
  owed := []

/-- What the database held before each restore is still held by some file. -/
def Held (d : Disk) : Prop := ∀ c ∈ d.owed, d.files.Holds c

/-- What one call should leave: a backup the snapshot, its manifest and no more snapshots than asked for, a restore that fails
the database as it was. -/
def Safe (d : Disk) : Call → Prop
  | .backup x => 0 < x.keep → (runBackup tools dbPath x d.files).2 = .ok () →
      ((runBackup tools dbPath x d.files).1 x.snapshot).isSome ∧ ((runBackup tools dbPath x d.files).1 x.manifest).isSome ∧
        (snapshotNames (runBackup tools dbPath x d.files).1 x.toDir).encard ≤ x.keep
  | .restore x => ∀ e, (runRestore tools dbPath x d.files).2 = .error e →
      (runRestore tools dbPath x d.files).1.content dbPath = d.files.content dbPath

/-- The condition of a call. -/
def Careful (d : Disk) : Call → Prop
  | .backup x =>
      (0 < x.keep → (writeSnapshot tools dbPath x d.files).2 = .ok () → RotationOk x (writeSnapshot tools dbPath x d.files).1) ∧
        ∀ c ∈ d.owed, ∃ p, d.files.content p = some c ∧ Spared tools dbPath x d.files p c
  | .restore x => (∃ snapshot, checked tools x d.files = .ok snapshot) → RestoreOk tools dbPath x d.files d.owed

variable {tools dbPath} {d : Disk}

theorem content_restore_of_ne {x : RestoreCall} {p : Location} (hdb : p ≠ dbPath) (haside : p ≠ aside dbPath x.ts) :
    (d.step tools dbPath (.restore x)).files.content p = d.files.content p := content_runRestore_of_ne hdb haside

theorem safe_of_careful {x : Call} (h : Careful tools dbPath d x) : Safe tools dbPath d x := by
  cases x with
  | backup x =>
    intro hkeep hok
    obtain ⟨hwrote, hfiles⟩ := runBackup_ok hok
    obtain ⟨hnew, hmanifest⟩ := writeSnapshot_ok hwrote
    rw [hfiles, if_pos hkeep]
    exact (h.1 hkeep hwrote).prune hnew hmanifest
  | restore x =>
    intro e he
    unfold runRestore at he ⊢
    cases hc : checked tools x d.files with
    | error e' => rfl
    | ok snapshot =>
      obtain ⟨hcopy, hout, hnoted, hother, -⟩ := h ⟨snapshot, hc⟩
      obtain ⟨-, -, hsnapshot⟩ := choose_of_checked hc
      rw [hc] at he
      split_ifs at he ⊢ with hdb hmove hnote
      · rfl
      · exact absurd hnote.2 (hnoted hdb hnote.1)
      · have hmoved : (d.files.rename dbPath (aside dbPath x.ts) snapshot).isSome := by
          unfold rename
          rw [if_neg (hother snapshot hc hdb)]
          split_ifs
          · exact hdb
          · exact hsnapshot
        rw [copyIn_ok hmoved hcopy hout] at he
        cases he
      · rw [copyIn_ok hsnapshot hcopy hout] at he
        cases he

theorem held_step {x : Call} (hd : Held d) (h : Careful tools dbPath d x) : Held (d.step tools dbPath x) := by
  cases x with
  | backup x =>
    intro c hc
    obtain ⟨p, hp, hspared⟩ := h.2 c hc
    exact ⟨p, content_runBackup hp hspared⟩
  | restore x =>
    intro c hc
    show (runRestore tools dbPath x d.files).1.Holds c
    -- before the call some file holds it: the database, if it is owed from now on
    have hbefore : d.files.Holds c := (List.mem_append.mp hc).elim (hd c) fun hin => ⟨dbPath, by simpa using hin⟩
    unfold runRestore
    cases hcheck : checked tools x d.files with
    | error e => exact hbefore
    | ok snapshot =>
      have hok := h ⟨snapshot, hcheck⟩
      dsimp only
      by_cases hdb : (d.files dbPath).isSome
      · by_cases hmove : x.fault = some .move
        · rwa [if_pos hdb, if_pos hmove]
        · rw [if_pos hdb, if_neg hmove, if_neg fun hnote => hok.noted hdb hnote.1 hnote.2]
          obtain ⟨p, hne, hp⟩ : ∃ p ≠ aside dbPath x.ts, d.files.content p = some c :=
            (List.mem_append.mp hc).elim (hok.free hdb hmove c) fun hin => ⟨dbPath, (aside_ne x.ts).symm, by simpa using hin⟩
          by_cases heq : p = dbPath
          · refine ⟨aside dbPath x.ts, ?_⟩
            rw [content_copyIn_of_ne (aside_ne x.ts), content_rename, ← heq, hp]
          · refine ⟨p, ?_⟩
            rw [content_copyIn_of_ne heq, content_rename_of_ne heq hne, hp]
      · obtain ⟨p, hp⟩ := hbefore
        rw [if_neg hdb]
        refine ⟨p, ?_⟩
        rwa [content_copyIn_of_ne]
        rintro rfl
        rw [← isSome_content, hp] at hdb
        exact hdb rfl

/-- In a run of careful calls each is safe, and no content that a restore replaced is lost. -/
theorem backups_keep (tools : Tools) (dbPath : Location) (files : Store String) (calls : List Call)
    (h : Meets (Disk.step tools dbPath) (Careful tools dbPath) (.start files) calls) :
    Meets (Disk.step tools dbPath) (Safe tools dbPath) (.start files) calls ∧
      ∀ d ∈ states (Disk.step tools dbPath) (.start files) calls, Held d :=
  ⟨meets_mono (fun _ _ => safe_of_careful) h,
    forall_states_of_meets (fun _ _ => held_step) (fun _ hc => absurd hc List.not_mem_nil) h⟩

end Runs

/-! ## A database and a directory of snapshots -/

/-- A manifest that is its digest, and a digest that is the content. -/
def plainTools : Tools where
  opened c := c.getD ""
  vacuum := id
  sha256 := id
  version := "0.6.4"
  manifestText m := m.sha256
  parseManifest text := .ok
    { snapshot := ""
      sha256 := text
      bytes := 0
      sourceDb := ""
      version := ""
      createdAt := "" }

def mainDb : Location := ⟨"/data", "ai-memory.db"⟩

def oneFile : Store String := fun p => if p = mainDb then some ⟨"memories", 1⟩ else none

def twoFiles : Store String := oneFile.write ⟨"/backups", "ai-memory-1.db"⟩ ⟨"snapshot", 9⟩

def backupAt (ts : String) (modified : ℤ) (listing : List String) : BackupCall where
  toDir := "/backups"
  keep := 1
  ts
  createdAt := ts
  dbModified := 1
  snapshotModified := modified
  manifestModified := modified
  listing
  removeFails _ := false

def restoreFrom (p : Location) : RestoreCall where
  source := .file p
  skipVerify := true
  ts := "2"
  modified := 2

def backupThenRestore : List Call :=
  [.backup (backupAt "1" 1 ["ai-memory-1.db"]), .restore (restoreFrom ⟨"/backups", "ai-memory-1.db"⟩)]

theorem backups_keep_one : Meets (Disk.step plainTools mainDb) (Safe plainTools mainDb) (.start oneFile) backupThenRestore ∧
    ∀ d ∈ states (Disk.step plainTools mainDb) (.start oneFile) backupThenRestore, Held d := by
  refine backups_keep plainTools mainDb oneFile backupThenRestore ⟨⟨fun _ _ => ?_, fun c hc => absurd hc List.not_mem_nil⟩,
    fun _ => ?_, trivial⟩
  · refine ⟨by decide, fun name hsnap hsome => ?_, by decide, by decide, by decide⟩
    by_contra hne
    rw [show (backupAt "1" 1 ["ai-memory-1.db"]).listing = ["ai-memory-1.db"] from rfl, List.mem_singleton] at hne
    have hmanifest : name ≠ "ai-memory-1.manifest.json" := fun h => absurd hsnap (by rw [h]; decide)
    have hdir : (⟨"/backups", name⟩ : Location) ≠ mainDb := fun h =>
      absurd (congrArg Location.dir h) (show ¬"/backups" = "/data" by decide)
    have hwritten : (writeSnapshot plainTools mainDb (backupAt "1" 1 ["ai-memory-1.db"]) oneFile).1 =
        ((oneFile.write mainDb ⟨"memories", 1⟩).write ⟨"/backups", "ai-memory-1.db"⟩ ⟨"memories", 1⟩).write
          ⟨"/backups", "ai-memory-1.manifest.json"⟩ ⟨"memories", 1⟩ := rfl
    rw [show (Disk.start oneFile).files = oneFile from rfl, show (backupAt "1" 1 ["ai-memory-1.db"]).toDir = "/backups" from rfl, hwritten,
      write_of_ne fun h => hmanifest (congrArg Location.name h), write_of_ne fun h => hne (congrArg Location.name h),
      write_of_ne hdir, oneFile, if_neg hdir] at hsome
    cases hsome
  · exact
      { copy := by decide
        output := by decide
        noted := fun _ _ => by decide
        other := fun snapshot h _ => by
          obtain ⟨m, hchoose, -⟩ := choose_of_checked h
          cases hchoose
          decide
        free := fun _ _ c hc => absurd hc List.not_mem_nil }

/-- Two restores in one second leave no copy of the database; a restore of the database itself fails and leaves none in its
place; and a snapshot that is older than one already there is deleted by its own backup. -/
theorem only_copies_lost :
    ¬Held (((Disk.start twoFiles).step plainTools mainDb (.restore (restoreFrom ⟨"/backups", "ai-memory-1.db"⟩))).step plainTools mainDb
      (.restore (restoreFrom ⟨"/backups", "ai-memory-1.db"⟩))) ∧
    ¬Safe plainTools mainDb (.start twoFiles) (.restore (restoreFrom mainDb)) ∧
    ¬Safe plainTools mainDb (.start twoFiles) (.backup (backupAt "2" 5 ["ai-memory-1.db", "ai-memory-2.db"])) := by
  refine ⟨fun h => ?_, fun h => ?_, fun h => ?_⟩
  · obtain ⟨p, hp⟩ := h "memories" (by decide)
    by_cases hdb : p = mainDb
    · exact absurd hp (by rw [hdb]; decide)
    · by_cases haside : p = aside mainDb (restoreFrom ⟨"/backups", "ai-memory-1.db"⟩).ts
      · exact absurd hp (by rw [haside]; decide)
      · rw [content_restore_of_ne hdb haside, content_restore_of_ne hdb haside] at hp
        by_cases hsnapshot : p = ⟨"/backups", "ai-memory-1.db"⟩
        · exact absurd hp (by rw [hsnapshot]; decide)
        · rw [Disk.start, twoFiles, content_write_of_ne hsnapshot, content, oneFile, if_neg hdb] at hp
          cases hp
  · exact absurd (h "copying snapshot to /data/ai-memory.db" rfl) (by decide)
  · exact absurd (h (by decide) (by decide)).1 (by decide)

end Backup

end AiMemory
