import AiMemory.Db.Pending

/-!
# The timeout sweep beside other connections

`sweep_pending_action_timeouts` selects the overdue rows, and then expires them in one transaction whose `UPDATE` looks at
the status once more. What other connections write in between are the `UPDATE`s of decisions and of votes, on pending rows
only. The sweep answers with the rows that it selected: these are the rows that it expired exactly if none of them was
decided in between (`sweep_reports_iff`).
-/

namespace AiMemory

open Relational

namespace Db

def overdueRows (db : Db) (globalDefaultSecs : ℤ) (age : AgeSecs) : List (String × String) :=
  if globalDefaultSecs ≤ 0 then []
  else (db.pending.rows.filter (isOverdue globalDefaultSecs age)).map fun r => (r.id, r.ns)

theorem expired_id (now : String) (r : PendingRow) : { r with status := "expired", expiredAt := some now }.id = r.id := rfl

def expireRows (db : Db) (rows : List (String × String)) (now : String) : Db :=
  rows.foldl (fun db row => db.updatePending row.1
    (fun r => { r with status := "expired", expiredAt := some now }) (expired_id now)) db

theorem sweepPendingActionTimeouts_eq (db : Db) (globalDefaultSecs : ℤ) (age : AgeSecs) (now : String) :
    db.sweepPendingActionTimeouts globalDefaultSecs age now =
      (db.expireRows (db.overdueRows globalDefaultSecs age) now, db.overdueRows globalDefaultSecs age) := by
  unfold sweepPendingActionTimeouts overdueRows
  split_ifs <;> rfl

/-- The writes of `decide_pending_action` and `approve_with_approver_type`. The votes that an approval writes are those that
it read, with one more. -/
inductive DecisionStmt where
  | decide (id : String) (approve : Bool) (decidedBy now : String)
  | vote (id : String) (approvals : List Approval)

def DecisionStmt.id : DecisionStmt → String
  | decide id _ _ _ => id
  | vote id _ => id

def DecisionStmt.row : DecisionStmt → PendingRow → PendingRow
  | decide _ approve decidedBy now, r => { r with
      status := if approve then "approved" else "rejected"
      decidedBy := some decidedBy
      decidedAt := some now }
  | vote _ approvals, r => { r with approvals }

theorem DecisionStmt.row_id (s : DecisionStmt) (r : PendingRow) : (s.row r).id = r.id := by
  cases s <;> rfl

def execute (db : Db) (s : DecisionStmt) : Db := db.updatePending s.id s.row s.row_id

theorem execute_vote {db : Db} {id : String} {pa : PendingAction} (hpa : db.getPendingAction id = some pa)
    (vote : Approval) : db.execute (.vote id (pa.approvals ++ [vote])) = db.addVote id vote := by
  obtain ⟨r, hr, rfl⟩ := Option.map_eq_some_iff.mp hpa
  unfold execute addVote updatePending
  congr 1
  refine Table.ext (List.map_congr_left fun r' hr' => ?_)
  by_cases hkey : r'.id = id
  · have hfind : db.pending.find id = some r' := Table.find_eq_some.mpr ⟨hr', hkey⟩
    obtain rfl : r = r' := Option.some.inj (hr.symm.trans hfind)
    rfl
  · show (if r'.id = id then _ else r') = if r'.id = id then _ else r'
    rw [if_neg hkey, if_neg hkey]

/-- The statements are those of an approval: a decision, after a vote or not. -/
theorem execute_approve (db : Db) (id agentId approvedAt now : String) :
    ∃ stmts : List DecisionStmt, (db.approveWithApproverType id agentId approvedAt now).1 = stmts.foldl execute db := by
  have hdecide : ∀ db approver failure, (approveBy db id approver now failure).1 =
      [DecisionStmt.decide id true approver now].foldl execute db := fun _ _ _ => rfl
  unfold approveWithApproverType
  cases hpa : db.getPendingAction id with
  | none => exact ⟨[], rfl⟩
  | some pa =>
    simp only
    by_cases hst : pa.status ≠ "pending"
    · rw [if_pos hst]
      exact ⟨[], rfl⟩
    · rw [if_neg hst]
      cases ((db.resolveGovernancePolicy pa.ns).map (·.approver)).getD .human with
      | human => exact ⟨_, hdecide _ _ _⟩
      | agent required =>
        simp only
        split_ifs
        · exact ⟨[], rfl⟩
        · exact ⟨_, hdecide _ _ _⟩
      | consensus quorum =>
        have hvote := execute_vote hpa ⟨toAsciiLowercase agentId, approvedAt⟩
        simp only
        split_ifs
        · exact ⟨[], rfl⟩
        · exact ⟨[], rfl⟩
        · refine ⟨[.vote id (pa.approvals ++ [⟨toAsciiLowercase agentId, approvedAt⟩]),
            .decide id true (toAsciiLowercase agentId) now], ?_⟩
          rw [List.foldl_cons, hvote, hdecide]
        · exact ⟨[.vote id _], hvote.symm⟩

/-- A pending row became an expired one. -/
def JustExpired (before after : Db) (id ns : String) : Prop :=
  ∃ r r', before.pending.find id = some r ∧ r.status = "pending" ∧ r.ns = ns ∧
    after.pending.find id = some r' ∧ r'.status = "expired"

/-- The sweep answers with exactly the rows it expired, and changes no row that is not pending. -/
def ReportsExactly (rows : List (String × String)) (before after : Db) : Prop :=
  (∀ id ns, (id, ns) ∈ rows ↔ JustExpired before after id ns) ∧
    ∀ r ∈ before.pending, r.status ≠ "pending" → after.pending.find r.id = some r

section Sweep

variable {db : Db} {globalDefaultSecs : ℤ} {age : AgeSecs} {now id ns : String} {rows : List (String × String)}
  {stmts : List DecisionStmt} {r r' : PendingRow}

theorem find_expireRows (db : Db) (rows : List (String × String)) (now id : String) :
    (db.expireRows rows now).pending.find id = (db.pending.find id).map fun r =>
      if id ∈ rows.map Prod.fst ∧ r.status = "pending" then { r with status := "expired", expiredAt := some now }
      else r := by
  induction rows generalizing db with
  | nil => simp [expireRows]
  | cons row rows ih =>
    refine (ih _).trans ?_
    rw [find_updatePending, Option.map_map]
    congr 1
    funext r
    simp only [Function.comp_apply, List.map_cons, List.mem_cons]
    by_cases hfirst : id = row.1 ∧ r.status = "pending"
    · have hagain : ¬(id ∈ rows.map Prod.fst ∧ "expired" = "pending") := fun h => absurd h.2 (by decide)
      rw [if_pos hfirst, if_neg hagain, if_pos ⟨Or.inl hfirst.1, hfirst.2⟩]
    · rw [if_neg hfirst]
      congr 1
      refine propext ⟨fun h => ⟨Or.inr h.1, h.2⟩, ?_⟩
      rintro ⟨hid | hid, hst⟩
      · exact absurd ⟨hid, hst⟩ hfirst
      · exact ⟨hid, hst⟩

theorem find_undecided (hfind : db.pending.find id = some r) (hpending : r.status = "pending")
    (hundecided : ∀ approve decidedBy now, DecisionStmt.decide id approve decidedBy now ∉ stmts) :
    ∃ r', (stmts.foldl execute db).pending.find id = some r' ∧ r'.status = "pending" ∧ r'.ns = r.ns := by
  induction stmts generalizing db r with
  | nil => exact ⟨r, hfind, hpending, rfl⟩
  | cons s stmts ih =>
    have hstep : ∃ r', (db.execute s).pending.find id = some r' ∧ r'.status = "pending" ∧ r'.ns = r.ns := by
      rw [execute, find_updatePending, hfind, Option.map_some]
      by_cases hs : id = s.id ∧ r.status = "pending"
      · rw [if_pos hs]
        cases s with
        | decide id' approve decidedBy now =>
          obtain rfl : id = id' := hs.1
          exact absurd List.mem_cons_self (hundecided approve decidedBy now)
        | vote id' approvals => exact ⟨_, rfl, hpending, rfl⟩
      · rw [if_neg hs]
        exact ⟨r, rfl, hpending, rfl⟩
    obtain ⟨r', hfind', hpending', hns'⟩ := hstep
    obtain ⟨r'', hfind'', hpending'', hns''⟩ := ih hfind' hpending'
      fun approve decidedBy now hmem => hundecided approve decidedBy now (List.mem_cons_of_mem s hmem)
    exact ⟨r'', hfind'', hpending'', hns''.trans hns'⟩

theorem find_settled (hfind : db.pending.find id = some r) (hsettled : r.status ≠ "pending") (stmts : List DecisionStmt) :
    (stmts.foldl execute db).pending.find id = some r := by
  induction stmts generalizing db with
  | nil => exact hfind
  | cons s stmts ih =>
    refine ih ?_
    rw [execute, find_updatePending, hfind, Option.map_some, if_neg fun h => hsettled h.2]

theorem find_decided {approve : Bool} {decidedBy now : String} (hfind : db.pending.find id = some r)
    (hdecided : DecisionStmt.decide id approve decidedBy now ∈ stmts) :
    ∃ r', (stmts.foldl execute db).pending.find id = some r' ∧ r'.status ≠ "pending" := by
  induction stmts generalizing db r with
  | nil => cases hdecided
  | cons s stmts ih =>
    have hstep : (db.execute s).pending.find id = some (if id = s.id ∧ r.status = "pending" then s.row r else r) := by
      rw [execute, find_updatePending, hfind, Option.map_some]
    rcases List.mem_cons.mp hdecided with rfl | hlater
    · refine ⟨_, find_settled hstep ?_ stmts, ?_⟩ <;>
      · by_cases hst : r.status = "pending"
        · rw [if_pos ⟨rfl, hst⟩]
          cases approve <;> exact of_decide_eq_true rfl
        · rw [if_neg fun h => hst h.2]
          exact hst
    · exact ih hstep hlater

theorem mem_overdueRows (hmem : (id, ns) ∈ db.overdueRows globalDefaultSecs age) :
    ∃ r, db.pending.find id = some r ∧ r.status = "pending" ∧ r.ns = ns := by
  unfold overdueRows at hmem
  split_ifs at hmem
  · cases hmem
  · obtain ⟨r, hr, heq⟩ := List.mem_map.mp hmem
    obtain ⟨hrow, hover⟩ := List.mem_filter.mp hr
    obtain ⟨rfl, rfl⟩ := Prod.mk.injEq _ _ _ _ ▸ heq
    exact ⟨r, Table.find_of_mem hrow, of_decide_eq_true (Bool.and_eq_true _ _ ▸ hover).1, rfl⟩

theorem justExpired_of_undecided (hmem : (id, ns) ∈ db.overdueRows globalDefaultSecs age)
    (hundecided : ∀ approve decidedBy now, DecisionStmt.decide id approve decidedBy now ∉ stmts) :
    JustExpired (stmts.foldl execute db)
      ((stmts.foldl execute db).expireRows (db.overdueRows globalDefaultSecs age) now) id ns := by
  obtain ⟨r, hfind, hpending, rfl⟩ := mem_overdueRows hmem
  obtain ⟨r', hfind', hpending', hns'⟩ := find_undecided hfind hpending hundecided
  refine ⟨r', { r' with status := "expired", expiredAt := some now }, hfind', hpending', hns', ?_, rfl⟩
  rw [find_expireRows, hfind', Option.map_some, if_pos ⟨List.mem_map_of_mem hmem, hpending'⟩]

theorem mem_of_justExpired (h : JustExpired db (db.expireRows rows now) id ns) : id ∈ rows.map Prod.fst := by
  obtain ⟨r, r', hfind, hpending, -, hfind', hexpired⟩ := h
  rw [find_expireRows, hfind, Option.map_some] at hfind'
  by_contra hid
  rw [if_neg fun h => hid h.1] at hfind'
  obtain rfl := Option.some.inj hfind'
  exact absurd (hpending.symm.trans hexpired) (by decide)

end Sweep

/-- A sweep reports exactly what it expires if and only if no row that it selected was decided between its two steps. -/
theorem sweep_reports_iff (db : Db) (globalDefaultSecs : ℤ) (age : AgeSecs) (now : String) (stmts : List DecisionStmt) :
    ReportsExactly (db.overdueRows globalDefaultSecs age) (stmts.foldl execute db)
        ((stmts.foldl execute db).expireRows (db.overdueRows globalDefaultSecs age) now) ↔
      ∀ id approve decidedBy decidedAt, DecisionStmt.decide id approve decidedBy decidedAt ∈ stmts →
        id ∉ (db.overdueRows globalDefaultSecs age).map Prod.fst := by
  constructor
  · rintro ⟨hreports, -⟩ id approve decidedBy decidedAt hdecided hid
    obtain ⟨⟨id, ns⟩, hmem, rfl⟩ := List.mem_map.mp hid
    obtain ⟨r, hfind, -, -⟩ := mem_overdueRows hmem
    obtain ⟨r', hfind', hsettled⟩ := find_decided hfind hdecided
    obtain ⟨r'', -, hfind'', hpending, -⟩ := (hreports id ns).mp hmem
    obtain rfl := Option.some.inj (hfind'.symm.trans hfind'')
    exact hsettled hpending
  · intro hundecided
    refine ⟨fun id ns => ⟨fun hmem => justExpired_of_undecided hmem ?_, fun hexp => ?_⟩, fun r hr hsettled => ?_⟩
    · exact fun approve decidedBy decidedAt hmem' =>
        hundecided id approve decidedBy decidedAt hmem' (List.mem_map_of_mem hmem)
    · obtain ⟨⟨id, ns'⟩, hmem, rfl⟩ := List.mem_map.mp (mem_of_justExpired hexp)
      -- the namespace is the one selected, because no statement changes it
      obtain ⟨r, hfind, hpending, hns⟩ := mem_overdueRows hmem
      obtain ⟨r', hfind', -, hns'⟩ := find_undecided hfind hpending fun approve decidedBy decidedAt hmem' =>
        hundecided id approve decidedBy decidedAt hmem' (List.mem_map_of_mem hmem)
      obtain ⟨r'', -, hfind'', -, hns'', -⟩ := hexp
      obtain rfl := Option.some.inj (hfind'.symm.trans hfind'')
      rwa [← hns'', hns', hns]
    · rw [find_expireRows, Table.find_of_mem hr, Option.map_some, if_neg fun h => hsettled h.2]

/-- An approval that lands between the two steps stands, and the sweep reports its row all the same. -/
theorem approved_row_reported :
    let row : PendingRow := {
      id := "p1"
      actionType := "store"
      memoryId := none
      ns := "team"
      payload := .null
      requestedBy := "alice"
      requestedAt := "2026-01-01T00:00:00Z"
      status := "pending"
      decidedBy := none
      decidedAt := none
      approvals := []
      defaultTimeoutSeconds := none
      expiredAt := none }
    let db : Db := { Db.empty with pending := ⟨[row], List.nodup_singleton _⟩ }
    let rows := db.overdueRows 3600 fun _ => some 7200
    let between := [DecisionStmt.decide "p1" true "bob" "2026-01-01T02:00:00Z"].foldl execute db
    rows = [("p1", "team")] ∧
      ¬ReportsExactly rows between (between.expireRows rows "2026-01-01T02:00:01Z") := by
  intro row db rows between
  have hrows : rows = [("p1", "team")] := by decide
  refine ⟨hrows, fun h => ?_⟩
  obtain ⟨r, -, hfind, hpending, -⟩ := (h.1 "p1" "team").mp (hrows ▸ List.mem_singleton_self _)
  have hdecided : (between.pending.find "p1").map (·.status) = some "approved" := by decide
  rw [hfind] at hdecided
  exact absurd (hpending.symm.trans (Option.some.inj hdecided)) (by decide)

end Db

end AiMemory
