import AiMemory.Quotas.Counters

/-!
# The additions of a quota check

`check_quota` and the transaction of `check_and_record` are two copies of one test, and both add to stored counters with an
unguarded `i64` addition. Where the sums fit an `i64` the two agree, and a refusal is for the limit that the sum is over and
leaves the table alone; where one does not fit, the program overflows (`chargesRightly_iff`).
-/

namespace AiMemory.Quotas

open Relational

/-- `check_quota`, with the table that `ensure_row` leaves. -/
def checkQuota (q : AgentQuotas) (agentId : String) (op : QuotaOp) (ensuredAt now : String) :
    Option (AgentQuotas × Except QuotaCheckError Unit) :=
  let q := ensureRow q agentId ensuredAt
  match q.find agentId with
  | none => some (q, .error (.sql "quota row missing immediately after insert (concurrent delete?)"))
  | some row => (check row op (dayBucket now)).map fun result => (q, result.mapError .quota)

/-- Neither function overflows, one accepts exactly if the other does, and a refusal leaves the table alone and names what
the write is over. -/
def ChargesRightly (q : AgentQuotas) (row : QuotaStatus) (op : QuotaOp) (ensuredAt now : String) : Prop :=
  ∃ checked charged q₁ q₂, checkQuota q row.agentId op ensuredAt now = some (q₁, checked) ∧
    checkAndRecord q row.agentId op ensuredAt now = some (q₂, charged) ∧
    (charged = .ok () ↔ checked = .ok ()) ∧
    ∀ e, charged = .error (.quota e) → q₂ = q ∧ Violates row op (dayBucket now) e

section Checks

variable {q : AgentQuotas} {row : QuotaStatus} {op : QuotaOp} {ensuredAt now : String}

theorem ensureRow_of_mem (h : row ∈ q) : ensureRow q row.agentId now = q := by
  have hnone : q.insertNew? (defaultRow row.agentId now) = none := by
    rw [Table.insertNew?_eq_none]
    exact Option.isSome_iff_exists.mpr ⟨row, Table.find_of_mem h⟩
  rw [ensureRow, hnone, Option.getD_none]

/-- A charge is right exactly if its sums fit. -/
theorem chargesRightly_iff (hrow : row ∈ q) : ChargesRightly q row op ensuredAt now ↔ Fits row op (dayBucket now) := by
  have hfind := Table.find_of_mem hrow
  unfold ChargesRightly checkQuota checkAndRecord transact
  simp only [ensureRow_of_mem hrow, hfind]
  rcases check_cases row op (dayBucket now) with ⟨hfits, hcheck⟩ | ⟨hfits, -, hcheck⟩ | ⟨hfits, e, hviolates, hcheck⟩
  · refine iff_of_false ?_ hfits
    rw [hcheck]
    rintro ⟨_, _, _, _, hnone, -⟩
    cases hnone
  · refine iff_of_true ?_ hfits
    rw [hcheck]
    exact ⟨.ok (), .ok (), q, _, rfl, rfl, Iff.rfl, fun e he => by cases he⟩
  · refine iff_of_true ?_ hfits
    rw [hcheck]
    refine ⟨.error (.quota e), .error (.quota e), q, q, rfl, rfl, Iff.rfl, fun e' he => ⟨rfl, ?_⟩⟩
    cases he
    exact hviolates

end Checks

def oneByte : QuotaStatus := { defaultRow "bob" "2026-02-01T00:00:00Z" with currentStorageBytes := 1 }

def oneRow : AgentQuotas := ⟨[oneByte], by decide⟩

/-- A charge of nine more bytes is right. -/
theorem nine_bytes_charged :
    ChargesRightly oneRow oneByte (.memory 9) "2026-02-01T08:00:00Z" "2026-02-01T08:00:00Z" := by
  refine (chargesRightly_iff List.mem_cons_self).mpr ?_
  have hbyte : oneByte.currentStorageBytes = 1 := rfl
  have hcount : oneByte.countOn .memory (dayBucket "2026-02-01T08:00:00Z") = 0 := by decide
  unfold Fits InI64 i64Max
  simp only [QuotaOp.kind, QuotaOp.bytes, hcount, hbyte]
  norm_num

/-- The check of a byte count of `i64::MAX` overflows. -/
theorem huge_charge_overflows :
    ¬ChargesRightly oneRow oneByte (.memory (2 ^ 63 - 1)) "2026-02-01T08:00:00Z" "2026-02-01T08:00:00Z" := by
  have hnone : checkQuota oneRow "bob" (.memory (2 ^ 63 - 1)) "2026-02-01T08:00:00Z" "2026-02-01T08:00:00Z" = none := by
    decide
  rintro ⟨_, _, _, _, h, -⟩
  rw [show oneByte.agentId = "bob" from rfl, hnone] at h
  cases h

end AiMemory.Quotas
