import AiMemory.Lib.Transitions
import AiMemory.Quotas.Counters
import Mathlib.Data.String.Basic

/-!
# Quotas bound the work that stands

Writers charge, refund and sweep one table. A refund takes one from the daily counter that stands in the row, whatever
day the charge was made on, and a sweep writes with the clock reading it started with. Where neither hits the counter of
another day and the sums of each check fit an `i64`, the accepted and unrefunded writes of each day stay within the limit
(`bounded_of_meets`); for the storage counter the sums are enough (`stored_of_legal`).
-/

namespace AiMemory.Quotas

open Relational Machine

/-- An accepted write, with the UTC day it was accepted on. -/
structure Charge where
  agentId : String
  op : QuotaOp
  day : String
  deriving DecidableEq

/-- How many of the writes are of an agent, of one kind, and of one day. -/
def opsOn (cs : List Charge) (agentId : String) (kind : Kind) (day : String) : ℕ :=
  cs.countP fun c => c.agentId = agentId ∧ c.op.kind = kind ∧ c.day = day

def bytesOf (cs : List Charge) (agentId : String) : ℕ :=
  ((cs.filter fun c => c.agentId = agentId).map fun c => c.op.bytes).sum

/-- The table, the latest day a clock has shown, and the accepted writes that are not refunded. -/
structure State where
  quotas : AgentQuotas
  clock : String
  standing : List Charge

/-- What writers do at once; `check_and_record` is `ensureRow`, then `transact`. -/
inductive Op where
  | ensureRow (agentId now : String)
  | transact (agentId : String) (op : QuotaOp) (now : String)
  | refundOp (charge : Charge) (now : String)
  | resetDaily (now : String)

def Op.now : Op → String
  | .ensureRow _ now | .transact _ _ now | .refundOp _ now | .resetDaily now => now

/-- What an overflow in a transaction leaves. A debug build panics between `BEGIN IMMEDIATE` and `ROLLBACK`; a release build
accepts, and SQLite stores its own sum as a `REAL`. -/
abbrev Overflow := State → Op → State

namespace State

def tick (s : State) (now : String) : State := { s with clock := max s.clock (dayBucket now) }

def apply (overflow : Overflow) (s : State) : Op → State
  | .ensureRow agentId now => { s with quotas := Quotas.ensureRow s.quotas agentId now }
  | .transact agentId op now =>
    match Quotas.transact s.quotas agentId op now with
    | none => overflow s (.transact agentId op now)
    | some (.ok q) => { s with quotas := q, standing := ⟨agentId, op, dayBucket now⟩ :: s.standing }
    | some (.error _) => s
  | .refundOp c now =>
    { s with quotas := Quotas.refundOp s.quotas c.agentId c.op now, standing := s.standing.erase c }
  | .resetDaily now => { s with quotas := (Quotas.resetDaily s.quotas now).1 }

end State

def step (overflow : Overflow) (s : State) (o : Op) : State := (s.tick o.now).apply overflow o

/-- A refund is for a write that stands, and the clock of a transaction, read under the write lock, is not behind what
any clock has shown. The other calls read the clock before they wait for the lock. -/
def Legal (s : State) : Op → Prop
  | .transact _ _ now => s.clock ≤ dayBucket now
  | .refundOp c _ => c ∈ s.standing
  | _ => True

/-- The sums of a check fit. -/
def SumsFit (s : State) : Op → Prop
  | .transact agentId op now => ∀ r ∈ s.quotas.find agentId, Fits r op (dayBucket now)
  | _ => True

/-- The sums of a check fit, and no refund of another day's charge, and no sweep of another day, hits a counter of the current
day that is not at zero. -/
def StepOk (s : State) (o : Op) : Prop :=
  let today := (s.tick o.now).clock
  match o with
  | .refundOp c _ => ∀ r ∈ s.quotas.find c.agentId, r.countOn c.op.kind today ≠ 0 → c.day = today
  | .resetDaily now => ∀ r ∈ s.quotas, ∀ kind, r.countOn kind today ≠ 0 → dayBucket now = today
  | o => SumsFit s o

instance (s : State) (o : Op) : Decidable (Legal s o) := by
  cases o <;> unfold Legal <;> infer_instance

instance (s : State) (o : Op) : Decidable (SumsFit s o) := by
  cases o <;> unfold SumsFit <;> infer_instance

instance (s : State) (o : Op) : Decidable (StepOk s o) := by
  cases o <;> unfold StepOk <;> infer_instance

theorem StepOk.sumsFit {s : State} {o : Op} (h : StepOk s o) : SumsFit s o := by
  cases o with
  | ensureRow | transact => exact h
  | refundOp | resetDaily => trivial

/-- A table before any charge. -/
structure Fresh (q : AgentQuotas) : Prop where
  limits : ∀ r ∈ q, 0 ≤ r.maxStorageBytes ∧ ∀ kind, 0 ≤ r.maxPerDay kind
  counters : ∀ r ∈ q, r.currentStorageBytes = 0 ∧ ∀ kind, r.currentToday kind = 0

/-- The storage counter is the bytes that stand, within its limit. -/
structure Stored (s : State) : Prop where
  metered : ∀ c ∈ s.standing, ∃ r ∈ s.quotas, r.agentId = c.agentId
  counted : ∀ r ∈ s.quotas, r.currentStorageBytes = bytesOf s.standing r.agentId
  capped : ∀ r ∈ s.quotas, r.currentStorageBytes ≤ r.maxStorageBytes

/-- The property: what stands is within every limit. -/
structure Bounded (s : State) : Prop extends Stored s where
  daily : ∀ r ∈ s.quotas, ∀ kind day, (opsOn s.standing r.agentId kind day : ℤ) ≤ r.maxPerDay kind

/-- The invariant of the daily counters: what a row counts for the current day is what stands of that day, and it counts
nothing for a later one. -/
structure Counted (s : State) : Prop where
  past : ∀ c ∈ s.standing, c.day ≤ s.clock
  future : ∀ r ∈ s.quotas, ∀ kind day, s.clock < day → r.countOn kind day = 0
  today : ∀ r ∈ s.quotas, ∀ kind, r.countOn kind s.clock = opsOn s.standing r.agentId kind s.clock
  daily : ∀ r ∈ s.quotas, ∀ kind day, (opsOn s.standing r.agentId kind day : ℤ) ≤ r.maxPerDay kind

variable {s : State} {q q' : AgentQuotas} {agentId day now : String} {op : QuotaOp} {kind : Kind} {c : Charge} {o : Op}
  {overflow : Overflow}

@[simp] theorem tick_quotas : (s.tick now).quotas = s.quotas := by rw [State.tick]

@[simp] theorem tick_standing : (s.tick now).standing = s.standing := by rw [State.tick]

/-! ## Tallies -/

section Tallies

variable {cs : List Charge}

theorem opsOn_cons : opsOn (c :: cs) agentId kind day = opsOn cs agentId kind day +
    if c.agentId = agentId ∧ c.op.kind = kind ∧ c.day = day then 1 else 0 := by
  simp [opsOn, List.countP_cons]

theorem opsOn_erase (hc : c ∈ cs) : opsOn cs agentId kind day = opsOn (cs.erase c) agentId kind day +
    if c.agentId = agentId ∧ c.op.kind = kind ∧ c.day = day then 1 else 0 := by
  rw [← opsOn_cons]
  exact (List.perm_cons_erase hc).countP_eq _

theorem bytesOf_cons : bytesOf (c :: cs) agentId = bytesOf cs agentId +
    if c.agentId = agentId then c.op.bytes else 0 := by
  unfold bytesOf
  by_cases h : c.agentId = agentId
  · rw [List.filter_cons_of_pos (by simpa using h), List.map_cons, List.sum_cons, if_pos h, add_comm]
  · rw [List.filter_cons_of_neg (by simpa using h), if_neg h, add_zero]

theorem bytesOf_erase (hc : c ∈ cs) : bytesOf cs agentId = bytesOf (cs.erase c) agentId +
    if c.agentId = agentId then c.op.bytes else 0 := by
  rw [← bytesOf_cons]
  exact (((List.perm_cons_erase hc).filter _).map _).sum_eq

theorem opsOn_eq_zero (h : ∀ c ∈ cs, c.agentId = agentId → c.op.kind = kind → c.day ≠ day) :
    opsOn cs agentId kind day = 0 := by
  rw [opsOn, List.countP_eq_zero]
  intro c hc
  simpa using h c hc

theorem bytesOf_eq_zero (h : ∀ c ∈ cs, c.agentId ≠ agentId) : bytesOf cs agentId = 0 := by
  rw [bytesOf, List.filter_eq_nil_iff.mpr (by simpa using h)]
  rfl

end Tallies

/-! ## What the statements leave in the table -/

theorem transact_cases (h : transact q agentId op now = some (.ok q')) :
    (∀ r ∈ q, r.agentId = agentId → check r op (dayBucket now) = some (.ok ())) ∧ (∃ r ∈ q, r.agentId = agentId) ∧
      q' = q.modify agentId (record op now) (record_agentId op now) := by
  unfold transact at h
  cases hrow : q.find agentId with
  | none =>
    rw [hrow] at h
    cases h
  | some row =>
    rw [hrow] at h
    obtain ⟨result, hcheck, hresult⟩ := Option.map_eq_some_iff.mp h
    cases result with
    | error e => cases hresult
    | ok u =>
      cases hresult
      refine ⟨fun r hr hagent => ?_, ⟨row, Table.find_mem hrow, Table.find_key hrow⟩, rfl⟩
      rw [Table.find_eq_some.mpr ⟨hr, hagent⟩] at hrow
      cases hrow
      exact hcheck

theorem transact_ne_none (h : ∀ r ∈ q.find agentId, Fits r op (dayBucket now)) : transact q agentId op now ≠ none := by
  unfold transact
  cases hrow : q.find agentId with
  | none => exact Option.some_ne_none _
  | some row =>
    rcases check_cases row op (dayBucket now) with ⟨hno, -⟩ | ⟨-, -, hcheck⟩ | ⟨-, e, -, hcheck⟩
    · exact absurd (h row hrow) hno
    · simp [hcheck]
    · simp [hcheck]

variable {P : QuotaStatus → Prop}

/-- The rows after an `UPDATE` of one agent's row. -/
theorem forall_modify {f : QuotaStatus → QuotaStatus} (hf : ∀ r, (f r).agentId = r.agentId)
    (hrow : ∀ r ∈ q, r.agentId = agentId → P (f r)) (hrest : ∀ r ∈ q, r.agentId ≠ agentId → P r) :
    ∀ r ∈ q.modify agentId f hf, P r := by
  intro x hx
  obtain ⟨r, hr, rfl⟩ := (Table.mem_modify hf).mp hx
  split_ifs with hagent
  · exact hrow r hr hagent
  · exact hrest r hr hagent

theorem exists_modify {f : QuotaStatus → QuotaStatus} (hf : ∀ r, (f r).agentId = r.agentId) {a : String}
    (h : ∃ r ∈ q, r.agentId = a) : ∃ r ∈ q.modify agentId f hf, r.agentId = a := by
  obtain ⟨r, hr, hagent⟩ := h
  refine ⟨_, (Table.mem_modify hf).mpr ⟨r, hr, rfl⟩, ?_⟩
  split_ifs
  · rw [hf, hagent]
  · exact hagent

theorem forall_ensureRow (h : ∀ r ∈ q, P r)
    (hnew : (∀ r ∈ q, r.agentId ≠ agentId) → P (defaultRow agentId now)) : ∀ r ∈ ensureRow q agentId now, P r := by
  intro x hx
  unfold ensureRow at hx
  cases hins : q.insertNew? (defaultRow agentId now) with
  | none =>
    rw [hins] at hx
    exact h x hx
  | some q' =>
    rw [hins] at hx
    have hfree : ∀ r ∈ q, r.agentId ≠ agentId := by
      rw [← Table.find_eq_none, ← Option.not_isSome_iff_eq_none]
      intro hsome
      have hnone : q.insertNew? (defaultRow agentId now) = none := Table.insertNew?_eq_none.mpr hsome
      rw [hnone] at hins
      cases hins
    rcases (Table.mem_insertNew? hins).mp hx with hx | rfl
    · exact h x hx
    · exact hnew hfree

theorem mem_ensureRow {r : QuotaStatus} (h : r ∈ q) : r ∈ ensureRow q agentId now := by
  unfold ensureRow
  cases hins : q.insertNew? (defaultRow agentId now) with
  | none => exact h
  | some q' => exact (Table.mem_insertNew? hins).mpr (Or.inl h)

theorem forall_resetDaily (h : ∀ r ∈ q, P (resetRow now r)) :
    ∀ r ∈ (resetDaily q now).1, P r := by
  intro x hx
  have hmap : x ∈ q.map (resetRow now) (resetRow_agentId now) := hx
  obtain ⟨r, hr, rfl⟩ := Table.mem_map.mp hmap
  exact h r hr

/-! ## Storage -/

theorem Stored.tick (h : Stored s) : Stored (s.tick now) := by
  unfold State.tick
  exact ⟨h.metered, h.counted, h.capped⟩

theorem Stored.ensureRow (h : Stored s) : Stored (s.apply overflow (.ensureRow agentId now)) where
  metered := by
    intro c hc
    obtain ⟨r, hr, hagent⟩ := h.metered c hc
    exact ⟨r, mem_ensureRow hr, hagent⟩
  counted := by
    refine forall_ensureRow h.counted fun hfree => ?_
    have hnone : ∀ c ∈ s.standing, c.agentId ≠ agentId := by
      intro c hc e
      obtain ⟨r, hr, hagent⟩ := h.metered c hc
      exact hfree r hr (hagent.trans e)
    show (0 : ℤ) = bytesOf s.standing agentId
    rw [bytesOf_eq_zero hnone]
    rfl
  capped := forall_ensureRow h.capped fun _ => (by decide : (0 : ℤ) ≤ defaultMaxStorageBytes)

theorem Stored.transact (h : Stored s) (hq : transact s.quotas agentId op now = some (.ok q')) :
    Stored { s with quotas := q', standing := ⟨agentId, op, day⟩ :: s.standing } := by
  obtain ⟨hcheck, hrow, rfl⟩ := transact_cases hq
  refine ⟨?_, forall_modify (record_agentId op now) (fun r hr hagent => ?_) (fun r hr hagent => ?_),
    forall_modify (record_agentId op now) (fun r hr hagent => ?_) (fun r hr _ => h.capped r hr)⟩
  · intro c hc
    apply exists_modify (record_agentId op now)
    rcases List.mem_cons.mp hc with rfl | hc
    · exact hrow
    · exact h.metered c hc
  · dsimp only
    rw [record_storage, record_agentId, bytesOf_cons, if_pos hagent.symm, h.counted r hr]
    push_cast
    rfl
  · dsimp only
    rw [bytesOf_cons, if_neg (fun e => hagent e.symm), add_zero]
    exact h.counted r hr
  · rw [record_storage, record_maxStorageBytes]
    have hcap := h.capped r hr
    cases op with
    | memory bytes => exact (check_ok (hcheck r hr hagent)).2 rfl
    | link => simpa [QuotaOp.bytes] using hcap

theorem Stored.refundOp (h : Stored s) (hc : c ∈ s.standing) : Stored (s.apply overflow (.refundOp c now)) := by
  have hsplit : ∀ r ∈ s.quotas, r.agentId = c.agentId →
      r.currentStorageBytes = bytesOf (s.standing.erase c) r.agentId + c.op.bytes := by
    intro r hr hagent
    rw [h.counted r hr, bytesOf_erase hc, if_pos hagent.symm]
    push_cast
    rfl
  refine ⟨fun x hx => exists_modify (refunded_agentId c.op now) (h.metered x (List.mem_of_mem_erase hx)),
    forall_modify (refunded_agentId c.op now) (fun r hr hagent => ?_) (fun r hr hagent => ?_),
    forall_modify (refunded_agentId c.op now) (fun r hr hagent => ?_) (fun r hr _ => h.capped r hr)⟩
  · have hbytes := hsplit r hr hagent
    rw [refunded_agentId, refunded_storage (by omega), hbytes]
    exact add_sub_cancel_right _ _
  · rw [h.counted r hr, bytesOf_erase hc, if_neg fun e => hagent e.symm]
    rfl
  · have hbytes := hsplit r hr hagent
    have hcap := h.capped r hr
    rw [refunded_maxStorageBytes, refunded_storage (by omega)]
    omega

theorem Stored.resetDaily (h : Stored s) : Stored (s.apply overflow (.resetDaily now)) where
  metered := by
    intro c hc
    obtain ⟨r, hr, hagent⟩ := h.metered c hc
    have hmap : resetRow now r ∈ s.quotas.map (resetRow now) (resetRow_agentId now) := Table.mem_map.mpr ⟨r, hr, rfl⟩
    exact ⟨_, hmap, (resetRow_agentId now r).trans hagent⟩
  counted := by
    refine forall_resetDaily fun r hr => ?_
    rw [resetRow_storage, resetRow_agentId]
    exact h.counted r hr
  capped := by
    refine forall_resetDaily fun r hr => ?_
    rw [resetRow_storage, resetRow_maxStorageBytes]
    exact h.capped r hr

theorem stored_step (h : Stored s) (hlegal : Legal s o) (hsums : SumsFit s o) : Stored (step overflow s o) := by
  have htick : Stored (s.tick o.now) := h.tick
  unfold step
  cases o with
  | ensureRow a now => exact htick.ensureRow
  | transact a op now =>
    unfold State.apply
    dsimp only
    split
    · rename_i hq
      exact absurd hq (transact_ne_none hsums)
    · rename_i q' hq
      exact htick.transact hq
    · exact htick
  | refundOp c now =>
    have hc : c ∈ s.standing := hlegal
    exact htick.refundOp (by rwa [tick_standing])
  | resetDaily now => exact htick.resetDaily

/-! ## Daily counters -/

theorem Counted.tick (h : Counted s) : Counted (s.tick now) := by
  unfold State.tick
  refine ⟨fun c hc => (h.past c hc).trans (le_max_left _ _), fun r hr kind day hday => ?_, fun r hr kind => ?_, h.daily⟩
  · exact h.future r hr kind day (lt_of_le_of_lt (le_max_left _ _) hday)
  · dsimp only
    rcases le_or_gt (dayBucket now) s.clock with hle | hlt
    · rw [max_eq_left hle]
      exact h.today r hr kind
    · rw [max_eq_right hlt.le, h.future r hr kind _ hlt, opsOn_eq_zero]
      · rfl
      · exact fun c hc _ _ => ne_of_lt (lt_of_le_of_lt (h.past c hc) hlt)

theorem Counted.ensureRow (h : Counted s) (hs : Stored s) : Counted (s.apply overflow (.ensureRow agentId now)) := by
  have hnone : (∀ r ∈ s.quotas, r.agentId ≠ agentId) → ∀ kind day, opsOn s.standing agentId kind day = 0 := by
    intro hfree kind day
    refine opsOn_eq_zero fun c hc e => ?_
    obtain ⟨r, hr, hagent⟩ := hs.metered c hc
    exact absurd (hagent.trans e) (hfree r hr)
  have hzero : ∀ kind day, (defaultRow agentId now).countOn kind day = 0 := by
    intro kind day
    cases kind <;> exact ite_self 0
  refine ⟨h.past, forall_ensureRow h.future fun _ kind day _ => hzero kind day,
    forall_ensureRow h.today fun hfree kind => ?_, forall_ensureRow h.daily fun hfree kind day => ?_⟩
  · show (defaultRow agentId now).countOn kind s.clock = (opsOn s.standing agentId kind s.clock : ℤ)
    rw [hzero, hnone hfree]
    rfl
  · show (opsOn s.standing agentId kind day : ℤ) ≤ _
    rw [hnone hfree]
    cases kind
    · exact (by decide : (0 : ℤ) ≤ defaultMaxMemoriesPerDay)
    · exact (by decide : (0 : ℤ) ≤ defaultMaxLinksPerDay)

theorem Counted.transact (h : Counted s) (hclock : dayBucket now = s.clock)
    (hq : Quotas.transact s.quotas agentId op now = some (.ok q')) :
    Counted { s with quotas := q', standing := ⟨agentId, op, s.clock⟩ :: s.standing } := by
  obtain ⟨hcheck, -, rfl⟩ := transact_cases hq
  have hother : ∀ r : QuotaStatus, r.agentId ≠ agentId → ∀ kind day,
      opsOn (⟨agentId, op, s.clock⟩ :: s.standing) r.agentId kind day = opsOn s.standing r.agentId kind day := by
    intro r hagent kind day
    rw [opsOn_cons, if_neg (fun e => hagent e.1.symm), add_zero]
  refine ⟨?_, forall_modify (record_agentId op now) (fun r hr hagent kind day hday => ?_) (fun r hr _ => h.future r hr),
    forall_modify (record_agentId op now) (fun r hr hagent kind => ?_) (fun r hr hagent kind => ?_),
    forall_modify (record_agentId op now) (fun r hr hagent kind day => ?_) (fun r hr hagent kind day => ?_)⟩
  · intro c hc
    rcases List.mem_cons.mp hc with rfl | hc
    · exact le_rfl
    · exact h.past c hc
  · rw [QuotaStatus.countOn, bucket_record, hclock, if_neg hday.ne]
  · dsimp only
    rw [← hclock, countOn_record, hclock, record_agentId, h.today r hr, opsOn_cons]
    simp [hagent]
  · dsimp only
    rw [hother r hagent]
    exact h.today r hr kind
  · dsimp only
    have hfits := (check_ok (hcheck r hr hagent)).1
    rw [hclock, h.today r hr] at hfits
    have hdaily := h.daily r hr kind day
    rw [record_agentId, record_maxPerDay, opsOn_cons]
    split_ifs with hmatch
    · obtain ⟨-, rfl, rfl⟩ := hmatch
      exact_mod_cast hfits
    · simpa using hdaily
  · dsimp only
    rw [hother r hagent]
    exact h.daily r hr kind day

theorem Counted.refundOp (h : Counted s) (hc : c ∈ s.standing)
    (hok : ∀ r ∈ s.quotas, r.agentId = c.agentId → r.countOn c.op.kind s.clock ≠ 0 → c.day = s.clock) :
    Counted (s.apply overflow (.refundOp c now)) := by
  have hless : ∀ r ∈ s.quotas, ∀ kind day, (opsOn (s.standing.erase c) r.agentId kind day : ℤ) ≤ r.maxPerDay kind := by
    intro r hr kind day
    have hdaily := h.daily r hr kind day
    rw [opsOn_erase hc] at hdaily
    push_cast at hdaily
    split_ifs at hdaily <;> omega
  refine ⟨fun x hx => h.past x (List.mem_of_mem_erase hx),
    forall_modify (refunded_agentId c.op now) (fun r hr hagent kind day hday => ?_) (fun r hr _ => h.future r hr),
    forall_modify (refunded_agentId c.op now) (fun r hr hagent kind => ?_) (fun r hr hagent kind => ?_),
    forall_modify (refunded_agentId c.op now) (fun r hr hagent kind day => ?_) (fun r hr hagent => hless r hr)⟩
  · rw [countOn_refunded, h.future r hr kind day hday]
    split_ifs <;> rfl
  · have htoday := h.today r hr kind
    show (Quotas.refunded c.op now r).countOn kind s.clock =
      (opsOn (s.standing.erase c) (Quotas.refunded c.op now r).agentId kind s.clock : ℤ)
    rw [opsOn_erase hc] at htoday
    rw [refunded_agentId, countOn_refunded]
    by_cases hkind : c.op.kind = kind
    · subst hkind
      rw [if_pos rfl]
      have hday := hok r hr hagent
      by_cases hcount : r.countOn c.op.kind s.clock = 0
      · rw [hcount]
        push_cast at htoday
        split_ifs at htoday <;> omega
      · rw [if_pos ⟨hagent.symm, rfl, hday hcount⟩] at htoday
        push_cast at htoday
        omega
    · rw [if_neg hkind, htoday, if_neg fun e => hkind e.2.1]
      rfl
  · show _ = (opsOn (s.standing.erase c) r.agentId kind s.clock : ℤ)
    have htoday := h.today r hr kind
    rw [opsOn_erase hc, if_neg fun e => hagent e.1.symm] at htoday
    exact htoday
  · show (opsOn (s.standing.erase c) (Quotas.refunded c.op now r).agentId kind day : ℤ) ≤ _
    rw [refunded_agentId, refunded_maxPerDay]
    exact hless r hr kind day

theorem Counted.resetDaily (h : Counted s) (hclock : dayBucket now ≤ s.clock)
    (hok : ∀ r ∈ s.quotas, ∀ kind, r.countOn kind s.clock ≠ 0 → dayBucket now = s.clock) :
    Counted (s.apply overflow (.resetDaily now)) := by
  refine ⟨h.past, forall_resetDaily fun r hr kind day hday => ?_, forall_resetDaily fun r hr kind => ?_,
    forall_resetDaily fun r hr kind day => ?_⟩
  · rw [countOn_resetRow, if_neg (lt_of_le_of_lt hclock hday).ne']
  · show (resetRow now r).countOn kind s.clock = opsOn s.standing (resetRow now r).agentId kind s.clock
    rw [countOn_resetRow, resetRow_agentId, ← h.today r hr]
    split_ifs with hday
    · rfl
    · by_contra hcount
      exact hday (hok r hr kind (Ne.symm hcount)).symm
  · show (opsOn s.standing (resetRow now r).agentId kind day : ℤ) ≤ _
    rw [resetRow_agentId, resetRow_maxPerDay]
    exact h.daily r hr kind day

theorem counted_step (h : Counted s) (hs : Stored s) (hlegal : Legal s o) (hok : StepOk s o) :
    Counted (step overflow s o) := by
  have htick : Counted (s.tick o.now) := h.tick
  unfold step
  cases o with
  | ensureRow a now => exact htick.ensureRow hs.tick
  | transact a op now =>
    have hclock : dayBucket now = (s.tick now).clock := (max_eq_right hlegal).symm
    unfold State.apply
    dsimp only
    split
    · rename_i hq
      exact absurd hq (transact_ne_none hok)
    · rename_i q' hq
      rw [hclock]
      exact htick.transact hclock hq
    · exact htick
  | refundOp c now =>
    have hc : c ∈ s.standing := hlegal
    refine htick.refundOp (by rwa [tick_standing]) fun r hr hagent => hok r (Table.find_eq_some.mpr ⟨?_, hagent⟩)
    rwa [tick_quotas] at hr
  | resetDaily now => exact htick.resetDaily (le_max_right _ _) hok

/-! ## Runs -/

section Runs

variable {ops : List Op} {clock : String}

theorem Fresh.stored (h : Fresh q) : Stored ⟨q, clock, []⟩ where
  metered := fun _ hc => absurd hc List.not_mem_nil
  counted := fun r hr => (h.counters r hr).1
  capped := fun r hr => (h.counters r hr).1.trans_le (h.limits r hr).1

theorem Fresh.counted (h : Fresh q) : Counted ⟨q, clock, []⟩ where
  past := fun _ hc => absurd hc List.not_mem_nil
  future := fun r hr kind day _ => by rw [QuotaStatus.countOn, (h.counters r hr).2, ite_self]
  today := fun r hr kind => by
    rw [QuotaStatus.countOn, (h.counters r hr).2, ite_self]
    rfl
  daily := fun r hr kind day => (h.limits r hr).2 kind

theorem stored_of_legal (hq : Fresh q) (hlegal : Meets (step overflow) Legal ⟨q, clock, []⟩ ops)
    (hsums : Meets (step overflow) SumsFit ⟨q, clock, []⟩ ops) :
    ∀ s ∈ states (step overflow) ⟨q, clock, []⟩ ops, Stored s :=
  forall_states_of_meets (C := fun s o => Legal s o ∧ SumsFit s o) (fun _ _ h hC => stored_step h hC.1 hC.2) hq.stored
    (meets_both hlegal hsums)

/-- Where the sums fit and no refund and no sweep hits the counter of another day, what stands is within every limit. -/
theorem bounded_of_meets (hq : Fresh q) (hlegal : Meets (step overflow) Legal ⟨q, clock, []⟩ ops)
    (hok : Meets (step overflow) StepOk ⟨q, clock, []⟩ ops) :
    ∀ s ∈ states (step overflow) ⟨q, clock, []⟩ ops, Bounded s := by
  have hinv : ∀ s ∈ states (step overflow) ⟨q, clock, []⟩ ops, Stored s ∧ Counted s :=
    forall_states_of_meets (C := fun s o => Legal s o ∧ StepOk s o)
      (fun s o h hC => ⟨stored_step h.1 hC.1 hC.2.sumsFit, counted_step h.2 h.1 hC.1 hC.2⟩) ⟨hq.stored, hq.counted⟩
      (meets_both hlegal hok)
  exact fun s hs => ⟨(hinv s hs).1, (hinv s hs).2.daily⟩

end Runs

/-- One writer's `check_and_record` call, between which others may step. -/
theorem foldl_checkAndRecord (s : State) (agentId : String) (op : QuotaOp) (ensuredAt now : String) {charged}
    (h : checkAndRecord s.quotas agentId op ensuredAt now = some charged) :
    ([Op.ensureRow agentId ensuredAt, Op.transact agentId op now].foldl (step overflow) s).quotas = charged.1 := by
  simp only [List.foldl_cons, List.foldl_nil, step, State.apply, State.tick]
  unfold checkAndRecord at h
  obtain ⟨result, hresult, rfl⟩ := Option.map_eq_some_iff.mp h
  simp only [Op.now, hresult]
  cases result <;> rfl

def oneADay : AgentQuotas :=
  ⟨[{ defaultRow "alice" "2026-05-01T08:00:00+00:00" with maxMemoriesPerDay := 1 }], List.nodup_singleton _⟩

theorem fresh_oneADay : Fresh oneADay := by
  constructor <;> decide

/-- A refund on the day of its charge, and one of a charge of the day before, after the sweep. -/
def refundInTime : List Op :=
  [.transact "alice" (.memory 10) "2026-05-01T22:00:00+00:00",
    .refundOp ⟨"alice", .memory 10, "2026-05-01"⟩ "2026-05-01T22:01:00+00:00",
    .transact "alice" (.memory 20) "2026-05-01T23:58:00+00:00",
    .resetDaily "2026-05-02T00:00:30+00:00",
    .refundOp ⟨"alice", .memory 20, "2026-05-01"⟩ "2026-05-02T00:01:00+00:00",
    .transact "alice" (.memory 30) "2026-05-02T00:02:00+00:00"]

def panics : Overflow := fun s _ => s

theorem bounded_refundInTime : Meets (step panics) StepOk ⟨oneADay, "2026-05-01", []⟩ refundInTime ∧
    ∀ s ∈ states (step panics) ⟨oneADay, "2026-05-01", []⟩ refundInTime, Bounded s := by
  have hok : Meets (step panics) StepOk ⟨oneADay, "2026-05-01", []⟩ refundInTime := by decide
  exact ⟨hok, bounded_of_meets fresh_oneADay (by decide) hok⟩

/-- The charge of the first day is refunded on the second, and makes room for one more there. -/
def refundOvernight : List Op :=
  [.transact "alice" (.memory 10) "2026-05-01T23:58:00+00:00",
    .transact "alice" (.memory 20) "2026-05-02T00:01:00+00:00",
    .refundOp ⟨"alice", .memory 10, "2026-05-01"⟩ "2026-05-02T00:02:00+00:00",
    .transact "alice" (.memory 30) "2026-05-02T00:03:00+00:00"]

theorem refund_overnight_exceeds : Fresh oneADay ∧ Meets (step panics) Legal ⟨oneADay, "2026-05-01", []⟩ refundOvernight ∧
    ¬∀ s ∈ states (step panics) ⟨oneADay, "2026-05-01", []⟩ refundOvernight, Bounded s := by
  refine ⟨fresh_oneADay, by decide, fun h => ?_⟩
  have hrow : ∃ r ∈ (refundOvernight.foldl (step panics) ⟨oneADay, "2026-05-01", []⟩).quotas.rows,
      ¬(opsOn (refundOvernight.foldl (step panics) ⟨oneADay, "2026-05-01", []⟩).standing r.agentId .memory "2026-05-02" : ℤ) ≤
        r.maxPerDay .memory := by
    decide
  obtain ⟨r, hr, hexceeds⟩ := hrow
  exact hexceeds ((h _ foldl_mem_states).daily r hr .memory "2026-05-02")

end AiMemory.Quotas
