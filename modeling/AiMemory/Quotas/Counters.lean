import AiMemory.Lib.Table
import Mathlib.Data.Fintype.Defs

/-!
# Quota counters

`quotas.rs`: one row an agent, with two counters of a day and one of a lifetime. Each call reads the clock for itself, as
an RFC 3339 text whose first ten characters are the UTC day. A byte count is the length of a text.

The additions of a check are those of `i64`, and nothing guards them. `none` is an overflow: a debug build panics there, a release
build wraps around.
-/

namespace AiMemory.Quotas

open Relational

def defaultMaxMemoriesPerDay : ℤ := 1000

def defaultMaxStorageBytes : ℤ := 100 * 1024 * 1024

def defaultMaxLinksPerDay : ℤ := 5000

/-- The write to charge for. -/
inductive QuotaOp where
  | memory (bytes : ℕ)
  | link
  deriving DecidableEq

/-- The limit that was hit. -/
inductive QuotaLimit where
  | memoriesPerDay
  | storageBytes
  | linksPerDay
  deriving DecidableEq

def QuotaLimit.asStr : QuotaLimit → String
  | .memoriesPerDay => "memories_per_day"
  | .storageBytes => "storage_bytes"
  | .linksPerDay => "links_per_day"

structure QuotaError where
  agentId : String
  limit : QuotaLimit
  current : ℤ
  max : ℤ
  deriving DecidableEq

def QuotaError.display (e : QuotaError) : String :=
  "QUOTA_EXCEEDED: agent " ++ e.agentId ++ " hit " ++ e.limit.asStr ++ " (current=" ++ toString e.current ++ ", max=" ++
    toString e.max ++ ")"

inductive QuotaCheckError where
  | quota (e : QuotaError)
  | sql (message : String)
  deriving DecidableEq

def QuotaCheckError.display : QuotaCheckError → String
  | .quota e => e.display
  | .sql message => "quota check substrate error: " ++ message

/-- A row of `agent_quotas`. -/
structure QuotaStatus where
  agentId : String
  maxMemoriesPerDay : ℤ
  maxStorageBytes : ℤ
  maxLinksPerDay : ℤ
  currentMemoriesToday : ℤ
  currentStorageBytes : ℤ
  currentLinksToday : ℤ
  dayStartedAt : String
  createdAt : String
  updatedAt : String
  deriving DecidableEq

/-- The table, keyed by its agents. -/
abbrev AgentQuotas := Table QuotaStatus.agentId

def dayBucket (rfc3339 : String) : String := String.ofList (rfc3339.toList.take 10)

def defaultRow (agentId now : String) : QuotaStatus where
  agentId := agentId
  maxMemoriesPerDay := defaultMaxMemoriesPerDay
  maxStorageBytes := defaultMaxStorageBytes
  maxLinksPerDay := defaultMaxLinksPerDay
  currentMemoriesToday := 0
  currentStorageBytes := 0
  currentLinksToday := 0
  dayStartedAt := dayBucket now
  createdAt := now
  updatedAt := now

/-- `ensure_row`: `INSERT OR IGNORE` for an agent without a row. -/
def ensureRow (q : AgentQuotas) (agentId now : String) : AgentQuotas :=
  (q.insertNew? (defaultRow agentId now)).getD q

/-- `i64::MAX`. -/
def i64Max : ℤ := 2 ^ 63 - 1

/-- The values of an `i64`. -/
def InI64 (n : ℤ) : Prop := -2 ^ 63 ≤ n ∧ n ≤ i64Max

instance : DecidablePred InI64 := fun _ => inferInstanceAs (Decidable (_ ∧ _))

/-- `+` on `i64`; `none` is an overflow. -/
def addI64 (a b : ℤ) : Option ℤ := if InI64 (a + b) then some (a + b) else none

def check (row : QuotaStatus) (op : QuotaOp) (today : String) : Option (Except QuotaError Unit) :=
  let storedDay := dayBucket row.dayStartedAt
  let memoriesToday := if storedDay = today then row.currentMemoriesToday else 0
  let linksToday := if storedDay = today then row.currentLinksToday else 0
  match op with
  | .memory bytes => do
    let memories ← addI64 memoriesToday 1
    if memories > row.maxMemoriesPerDay then
      return .error ⟨row.agentId, .memoriesPerDay, memoriesToday, row.maxMemoriesPerDay⟩
    let storage ← addI64 row.currentStorageBytes bytes
    if storage > row.maxStorageBytes then
      return .error ⟨row.agentId, .storageBytes, row.currentStorageBytes, row.maxStorageBytes⟩
    return .ok ()
  | .link => do
    let links ← addI64 linksToday 1
    if links > row.maxLinksPerDay then return .error ⟨row.agentId, .linksPerDay, linksToday, row.maxLinksPerDay⟩
    return .ok ()

/-- The `UPDATE` of an accepted write. Its sums are those that the test has made. -/
def record (op : QuotaOp) (now : String) (row : QuotaStatus) : QuotaStatus :=
  let dayRolled := dayBucket row.dayStartedAt ≠ dayBucket now
  match op with
  | .memory bytes =>
    if dayRolled then
      { row with
        currentMemoriesToday := 1
        currentLinksToday := 0
        currentStorageBytes := row.currentStorageBytes + bytes
        dayStartedAt := now
        updatedAt := now }
    else
      { row with
        currentMemoriesToday := row.currentMemoriesToday + 1
        currentStorageBytes := row.currentStorageBytes + bytes
        updatedAt := now }
  | .link =>
    if dayRolled then
      { row with
        currentMemoriesToday := 0
        currentLinksToday := 1
        dayStartedAt := now
        updatedAt := now }
    else
      { row with
        currentLinksToday := row.currentLinksToday + 1
        updatedAt := now }

@[simp] theorem record_agentId (op : QuotaOp) (now : String) (row : QuotaStatus) :
    (record op now row).agentId = row.agentId := by
  unfold record
  cases op <;> dsimp only <;> split_ifs <;> rfl

/-- What `check_and_record` does between `BEGIN IMMEDIATE` and `COMMIT`; a refusal is rolled back. -/
def transact (q : AgentQuotas) (agentId : String) (op : QuotaOp) (now : String) :
    Option (Except QuotaCheckError AgentQuotas) :=
  match q.find agentId with
  | none => some (.error (.sql ("quota row vanished mid-transaction for agent " ++ agentId)))
  | some row => (check row op (dayBucket now)).map fun
    | .error e => .error (.quota e)
    | .ok () => .ok (q.modify agentId (record op now) (record_agentId op now))

/-- `check_and_record`; the row is ensured outside of the transaction, with a clock reading of its own. -/
def checkAndRecord (q : AgentQuotas) (agentId : String) (op : QuotaOp) (ensuredAt now : String) :
    Option (AgentQuotas × Except QuotaCheckError Unit) :=
  let q := ensureRow q agentId ensuredAt
  (transact q agentId op now).map fun
    | .ok q' => (q', .ok ())
    | .error e => (q, .error e)

/-- `check_and_record` in a debug build, where the panic of an overflow is an error. -/
def charge (q : AgentQuotas) (agentId : String) (op : QuotaOp) (now : String) : AgentQuotas × Except QuotaCheckError Unit :=
  (checkAndRecord q agentId op now now).getD (ensureRow q agentId now, .error (.sql "attempt to add with overflow"))

/-- The `UPDATE` of a refund. -/
def refunded (op : QuotaOp) (now : String) (row : QuotaStatus) : QuotaStatus :=
  match op with
  | .memory bytes =>
    { row with
      currentMemoriesToday := max (row.currentMemoriesToday - 1) 0
      currentStorageBytes := max (row.currentStorageBytes - bytes) 0
      updatedAt := now }
  | .link =>
    { row with
      currentLinksToday := max (row.currentLinksToday - 1) 0
      updatedAt := now }

@[simp] theorem refunded_agentId (op : QuotaOp) (now : String) (row : QuotaStatus) :
    (refunded op now row).agentId = row.agentId := by
  cases op <;> rfl

def refundOp (q : AgentQuotas) (agentId : String) (op : QuotaOp) (now : String) : AgentQuotas :=
  q.modify agentId (refunded op now) (refunded_agentId op now)

/-- The `UPDATE` of the sweep, on the rows it is for. -/
def resetRow (now : String) (row : QuotaStatus) : QuotaStatus :=
  if dayBucket row.dayStartedAt ≠ dayBucket now then
    { row with currentMemoriesToday := 0, currentLinksToday := 0, dayStartedAt := now, updatedAt := now }
  else row

@[simp] theorem resetRow_agentId (now : String) (row : QuotaStatus) : (resetRow now row).agentId = row.agentId := by
  unfold resetRow
  split_ifs <;> rfl

/-- `reset_daily`, with the number of rows it was for. -/
def resetDaily (q : AgentQuotas) (now : String) : AgentQuotas × ℕ :=
  (q.map (resetRow now) (resetRow_agentId now),
    (q.rows.filter fun row => dayBucket row.dayStartedAt ≠ dayBucket now).length)

/-! ## The daily counters by the kind of a write -/

/-- The two kinds of writes. -/
inductive Kind where
  | memory
  | link
  deriving DecidableEq

instance : Fintype Kind := ⟨{.memory, .link}, fun kind => by cases kind <;> decide⟩

def QuotaOp.kind : QuotaOp → Kind
  | .memory _ => .memory
  | .link => .link

def QuotaOp.bytes : QuotaOp → ℕ
  | .memory bytes => bytes
  | .link => 0

namespace QuotaStatus

variable (row : QuotaStatus)

def maxPerDay : Kind → ℤ
  | .memory => row.maxMemoriesPerDay
  | .link => row.maxLinksPerDay

def currentToday : Kind → ℤ
  | .memory => row.currentMemoriesToday
  | .link => row.currentLinksToday

/-- The counter a write on the day is tested against: another day's counter counts as zero. -/
def countOn (kind : Kind) (day : String) : ℤ := if dayBucket row.dayStartedAt = day then row.currentToday kind else 0

end QuotaStatus

variable {row : QuotaStatus} {op : QuotaOp} {kind : Kind} {now day : String}

theorem addI64_bind {α : Type} (a b : ℤ) (f : ℤ → Option α) :
    (addI64 a b >>= f) = if InI64 (a + b) then f (a + b) else none := by
  unfold addI64
  split_ifs <;> rfl

/-- The sums fit: that of the day's counter, and for a memory that the day still admits that of the stored bytes. -/
def Fits (row : QuotaStatus) (op : QuotaOp) (day : String) : Prop :=
  InI64 (row.countOn op.kind day + 1) ∧
    (op.kind = .memory → row.countOn .memory day + 1 ≤ row.maxMemoriesPerDay → InI64 (row.currentStorageBytes + op.bytes))

instance (row : QuotaStatus) (op : QuotaOp) (day : String) : Decidable (Fits row op day) :=
  inferInstanceAs (Decidable (_ ∧ _))

/-- The error names the limit that the write is over, with the counter and the ceiling of the row. -/
def Violates (row : QuotaStatus) (op : QuotaOp) (day : String) (e : QuotaError) : Prop :=
  e.agentId = row.agentId ∧
    (e.limit = .memoriesPerDay ∧ op.kind = .memory ∧ e.current = row.countOn .memory day ∧
          e.max = row.maxMemoriesPerDay ∧ e.max < e.current + 1 ∨
      e.limit = .storageBytes ∧ op.kind = .memory ∧ e.current = row.currentStorageBytes ∧ e.max = row.maxStorageBytes ∧
          e.max < e.current + op.bytes ∨
      e.limit = .linksPerDay ∧ op.kind = .link ∧ e.current = row.countOn .link day ∧ e.max = row.maxLinksPerDay ∧
          e.max < e.current + 1)

/-- The write is within the limits of its kind. -/
def Within (row : QuotaStatus) (op : QuotaOp) (day : String) : Prop :=
  row.countOn op.kind day + 1 ≤ row.maxPerDay op.kind ∧
    (op.kind = .memory → row.currentStorageBytes + op.bytes ≤ row.maxStorageBytes)

theorem check_memory (row : QuotaStatus) (bytes : ℕ) (day : String) : check row (.memory bytes) day =
    if InI64 (row.countOn .memory day + 1) then
      if row.countOn .memory day + 1 > row.maxMemoriesPerDay then
        some (.error ⟨row.agentId, .memoriesPerDay, row.countOn .memory day, row.maxMemoriesPerDay⟩)
      else if InI64 (row.currentStorageBytes + bytes) then
        if row.currentStorageBytes + bytes > row.maxStorageBytes then
          some (.error ⟨row.agentId, .storageBytes, row.currentStorageBytes, row.maxStorageBytes⟩)
        else some (.ok ())
      else none
    else none := by
  simp only [check, addI64_bind]
  rfl

theorem check_link (row : QuotaStatus) (day : String) : check row .link day =
    if InI64 (row.countOn .link day + 1) then
      if row.countOn .link day + 1 > row.maxLinksPerDay then
        some (.error ⟨row.agentId, .linksPerDay, row.countOn .link day, row.maxLinksPerDay⟩)
      else some (.ok ())
    else none := by
  simp only [check, addI64_bind]
  rfl

/-- A test that overflows did not fit; one that comes to its end accepts what is within the limits, and refuses what the error
names. -/
theorem check_cases (row : QuotaStatus) (op : QuotaOp) (day : String) :
    (¬Fits row op day ∧ check row op day = none) ∨
    (Fits row op day ∧ Within row op day ∧ check row op day = some (.ok ())) ∨
    (Fits row op day ∧ ∃ e, Violates row op day e ∧ check row op day = some (.error e)) := by
  cases op with
  | memory bytes =>
    rw [check_memory]
    split_ifs with hcount hmax hbytes hover
    · have hfits : Fits row (.memory bytes) day := ⟨hcount, fun _ h => absurd h (not_le.mpr hmax)⟩
      refine Or.inr (Or.inr ⟨hfits, _, ?_, rfl⟩)
      exact ⟨rfl, Or.inl ⟨rfl, rfl, rfl, rfl, hmax⟩⟩
    · have hfits : Fits row (.memory bytes) day := ⟨hcount, fun _ _ => hbytes⟩
      refine Or.inr (Or.inr ⟨hfits, _, ?_, rfl⟩)
      exact ⟨rfl, Or.inr (Or.inl ⟨rfl, rfl, rfl, rfl, hover⟩)⟩
    · have hfits : Fits row (.memory bytes) day := ⟨hcount, fun _ _ => hbytes⟩
      exact Or.inr (Or.inl ⟨hfits, ⟨not_lt.mp hmax, fun _ => not_lt.mp hover⟩, rfl⟩)
    · exact Or.inl ⟨fun h => hbytes (h.2 rfl (not_lt.mp hmax)), rfl⟩
    · exact Or.inl ⟨fun h => hcount h.1, rfl⟩
  | link =>
    rw [check_link]
    split_ifs with hcount hmax
    · have hfits : Fits row .link day := ⟨hcount, nofun⟩
      refine Or.inr (Or.inr ⟨hfits, _, ?_, rfl⟩)
      exact ⟨rfl, Or.inr (Or.inr ⟨rfl, rfl, rfl, rfl, hmax⟩)⟩
    · have hfits : Fits row .link day := ⟨hcount, nofun⟩
      exact Or.inr (Or.inl ⟨hfits, ⟨not_lt.mp hmax, nofun⟩, rfl⟩)
    · exact Or.inl ⟨fun h => hcount h.1, rfl⟩

theorem check_ok (h : check row op day = some (.ok ())) : Within row op day := by
  rcases check_cases row op day with ⟨-, hnone⟩ | ⟨-, hwithin, -⟩ | ⟨-, e, -, herror⟩
  · rw [h] at hnone
    cases hnone
  · exact hwithin
  · rw [h] at herror
    cases herror

theorem countOn_record : (record op now row).countOn kind (dayBucket now) =
    row.countOn kind (dayBucket now) + if op.kind = kind then 1 else 0 := by
  unfold record
  cases op <;> cases kind <;> dsimp only <;> split_ifs with hday <;>
    simp_all [QuotaStatus.countOn, QuotaStatus.currentToday, QuotaOp.kind]

@[simp] theorem record_maxPerDay : (record op now row).maxPerDay kind = row.maxPerDay kind := by
  unfold record
  cases op <;> cases kind <;> dsimp only <;> split_ifs <;> rfl

@[simp] theorem record_maxStorageBytes : (record op now row).maxStorageBytes = row.maxStorageBytes := by
  unfold record
  cases op <;> dsimp only <;> split_ifs <;> rfl

@[simp] theorem record_storage :
    (record op now row).currentStorageBytes = row.currentStorageBytes + op.bytes := by
  unfold record
  cases op <;> dsimp only <;> split_ifs <;> simp [QuotaOp.bytes]

theorem bucket_record : dayBucket (record op now row).dayStartedAt = dayBucket now := by
  unfold record
  cases op <;> dsimp only <;> split_ifs with hday <;> simp_all

@[simp] theorem refunded_maxPerDay : (refunded op now row).maxPerDay kind = row.maxPerDay kind := by
  cases op <;> cases kind <;> rfl

@[simp] theorem refunded_maxStorageBytes : (refunded op now row).maxStorageBytes = row.maxStorageBytes := by
  cases op <;> rfl

@[simp] theorem refunded_dayStartedAt : (refunded op now row).dayStartedAt = row.dayStartedAt := by
  cases op <;> rfl

theorem refunded_storage (h : (op.bytes : ℤ) ≤ row.currentStorageBytes) :
    (refunded op now row).currentStorageBytes = row.currentStorageBytes - op.bytes := by
  cases op with
  | memory bytes => exact max_eq_left (by simpa [QuotaOp.bytes] using h)
  | link => simp [refunded, QuotaOp.bytes]

/-- A refund takes one from the counter of its kind, whatever day that counter is of. -/
theorem countOn_refunded : (refunded op now row).countOn kind day =
    if op.kind = kind then max (row.countOn kind day - 1) 0 else row.countOn kind day := by
  unfold QuotaStatus.countOn
  rw [refunded_dayStartedAt]
  by_cases hday : dayBucket row.dayStartedAt = day
  · simp only [if_pos hday]
    cases op <;> cases kind <;> rfl
  · simp [if_neg hday]

@[simp] theorem resetRow_maxPerDay : (resetRow now row).maxPerDay kind = row.maxPerDay kind := by
  unfold resetRow
  cases kind <;> split_ifs <;> rfl

@[simp] theorem resetRow_maxStorageBytes : (resetRow now row).maxStorageBytes = row.maxStorageBytes := by
  unfold resetRow
  split_ifs <;> rfl

@[simp] theorem resetRow_storage : (resetRow now row).currentStorageBytes = row.currentStorageBytes := by
  unfold resetRow
  split_ifs <;> rfl

theorem countOn_resetRow : (resetRow now row).countOn kind day =
    if day = dayBucket now then row.countOn kind day else 0 := by
  unfold resetRow
  by_cases hrow : dayBucket row.dayStartedAt = dayBucket now
  · rw [if_neg (not_not_intro hrow)]
    unfold QuotaStatus.countOn
    by_cases hday : day = dayBucket now
    · rw [if_pos hday]
    · rw [if_neg hday, if_neg (fun h => hday (h.symm.trans hrow))]
  · rw [if_pos hrow]
    unfold QuotaStatus.countOn
    cases kind <;> simp only [QuotaStatus.currentToday, ite_self] <;> split_ifs with hday h <;> simp_all

end AiMemory.Quotas
