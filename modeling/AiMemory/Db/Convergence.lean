import AiMemory.Lib.Register
import AiMemory.Lib.Transitions
import AiMemory.Db.Memories

/-!
# When `insert_if_newer` converges

Peers receive the same memories in different orders. The row that `insert_if_newer` leaves for a title
and namespace depends on the order in three groups of columns, each by a rule of its own:

* `content`, `tags`, `source` and `metadata` go to the newest write, but a tie is broken against the id of
  the *stored* row, which is the id of whatever arrived first;
* `metadata.agent_id` is the one of the first write that brought one;
* `expires_at` is the one of the last write that brought one, unless a long-tier write is among them.

The other columns are maxima and always converge. The first two groups are a register in the sense of
`Register`, and `converges_iff` says exactly when all orders agree.
-/

namespace AiMemory

namespace Convergence

open Register (Rules Reg)

/-- All of `l` through `insert_if_newer`, one after another; one that fails changes nothing. -/
def insertAll (db : Db) (l : List Memory) : Db :=
  l.foldl (fun db m =>
    match db.insertIfNewer m with
    | .ok (db, _) => db
    | .error _ => db) db

/-- The columns that the newest write decides. -/
structure Payload where
  content : String
  tags : List String
  source : String
  metadata : Json
  deriving DecidableEq

/-- The columns that are maxima. -/
abbrev Maxima := Tier × ℤ × ℚ × ℤ × String

def payload (m : Memory) : Payload := ⟨m.content, m.tags, m.source, m.metadata⟩

def maxima (m : Memory) : Maxima := (m.tier, m.priority, m.confidence, m.accessCount, m.updatedAt)

def columns (r : MemoryRow) : Payload × Maxima × Option String :=
  (payload r.toMemory, maxima r.toMemory, r.expiresAt)

/-- Any two orders of the memories `l` leave the same row under the title and namespace `k`. -/
def Converges (db : Db) (k : String × String) (l : List Memory) : Prop :=
  ∀ l₁ l₂ : List Memory, l₁.Perm l → l₂.Perm l →
    ((insertAll db l₁).getKey k).map columns = ((insertAll db l₂).getKey k).map columns

/-! ## The row of one title and namespace -/

def mergeInto (stored : Option MemoryRow) (m : Memory) : Option MemoryRow :=
  some ((stored.map (mergeNewer · m)).getD m.toRow)

/-- The stored row after the writes `l`. -/
def mergeAll (start : Option MemoryRow) (l : List Memory) : Option MemoryRow := l.foldl mergeInto start

theorem getKey_insertAll {db : Db} {k : String × String} {l : List Memory} (hkey : ∀ m ∈ l, m.key = k)
    (hid : db.getKey k = none → ∀ m ∈ l, db.get m.id = none) :
    (insertAll db l).getKey k = mergeAll (db.getKey k) l := by
  induction l generalizing db with
  | nil => rfl
  | cons m l ih =>
    have hk : m.key = k := hkey m List.mem_cons_self
    have hrest : ∀ x ∈ l, x.key = k := fun x hx => hkey x (List.mem_cons_of_mem m hx)
    cases hi : db.insertIfNewer m with
    | ok res =>
      have hg : res.1.getKey k = mergeInto (db.getKey k) m := by
        rw [← hk]
        exact Db.getKey_insertOnConflict hi
      show (insertAll (match db.insertIfNewer m with | .ok (db, _) => db | .error _ => db) l).getKey k =
        mergeAll (mergeInto (db.getKey k) m) l
      rw [hi, ← hg]
      exact ih hrest fun hnone => by rw [hg] at hnone; cases hnone
    | error e =>
      obtain ⟨hnone, hsome⟩ := Db.insertOnConflict_error_iff.mp ⟨e, hi⟩
      exact absurd (hid (hk ▸ hnone) m List.mem_cons_self) hsome

theorem mergeAll_some (r : MemoryRow) (l : List Memory) : mergeAll (some r) l = some (l.foldl mergeNewer r) := by
  induction l generalizing r with
  | nil => rfl
  | cons m l ih => exact ih (mergeNewer r m)

theorem mergeAll_none_cons (m : Memory) (l : List Memory) :
    mergeAll none (m :: l) = some (l.foldl mergeNewer m.toRow) := mergeAll_some m.toRow l

/-! ## The columns that are maxima -/

theorem maxima_mergeNewer (r : MemoryRow) (m : Memory) :
    maxima (mergeNewer r m).toMemory = maxima r.toMemory ⊔ maxima m := by
  show (mergeTier r.tier m.tier, _) = _
  rw [mergeTier_eq_max]
  rfl

theorem maxima_mergeAll (start : Option MemoryRow) (l : List Memory) :
    (mergeAll start l).map (fun r => maxima r.toMemory) =
      l.foldl (fun s m => some ((s.map (· ⊔ maxima m)).getD (maxima m))) (start.map fun r => maxima r.toMemory) := by
  induction l generalizing start with
  | nil => rfl
  | cons m l ih =>
    refine (ih (mergeInto start m)).trans (congrArg (l.foldl _) ?_)
    cases start with
    | none => rfl
    | some r => exact congrArg some (maxima_mergeNewer r m)

theorem maxima_perm (start : Option MemoryRow) {l₁ l₂ : List Memory} (hp : l₁.Perm l₂) :
    (mergeAll start l₁).map (fun r => maxima r.toMemory) = (mergeAll start l₂).map fun r => maxima r.toMemory := by
  rw [maxima_mergeAll, maxima_mergeAll]
  refine hp.foldl_eq' (fun x _ y _ s => ?_) _
  cases s with
  | none => exact congrArg some (sup_comm _ _)
  | some a => exact congrArg some (sup_right_comm _ _ _)

/-! ## The expiry -/

def lastExpiry (l : List Memory) : Option String := l.foldl (fun e m => m.expiresAt.or e) none

/-- A long-tier write, or no two different expiries. -/
def ExpiryOk (start : Option MemoryRow) (l : List Memory) : Prop :=
  (∃ r, start = some r ∧ r.tier = .long) ∨ (∃ m ∈ l, m.tier = .long) ∨
    ∀ m ∈ l, ∀ m' ∈ l, ∀ e e', m.expiresAt = some e → m'.expiresAt = some e' → e = e'

section Expiry

variable {r : MemoryRow} {start : Option MemoryRow} {l l₁ l₂ : List Memory} {m : Memory}

theorem lastExpiry_append (l : List Memory) (m : Memory) :
    lastExpiry (l ++ [m]) = m.expiresAt.or (lastExpiry l) := by
  unfold lastExpiry
  rw [List.foldl_append]
  rfl

theorem lastExpiry_cons (m : Memory) (l : List Memory) :
    lastExpiry (m :: l) = (lastExpiry l).or m.expiresAt := by
  induction l using List.reverseRecOn with
  | nil => exact Option.or_none
  | append_singleton l x ih =>
    rw [← List.cons_append, lastExpiry_append, lastExpiry_append, ih, Option.or_assoc]

theorem lastExpiry_eq_some {e : String} (h : lastExpiry l = some e) : ∃ m ∈ l, m.expiresAt = some e := by
  induction l with
  | nil => cases h
  | cons m l ih =>
    rw [lastExpiry_cons, Option.or_eq_some_iff] at h
    rcases h with h | ⟨-, h⟩
    · obtain ⟨x, hx, he⟩ := ih h
      exact ⟨x, List.mem_cons_of_mem m hx, he⟩
    · exact ⟨m, List.mem_cons_self, h⟩

theorem lastExpiry_eq_none (h : lastExpiry l = none) : ∀ m ∈ l, m.expiresAt = none := by
  induction l with
  | nil => intro m hm; cases hm
  | cons x l ih =>
    rw [lastExpiry_cons, Option.or_eq_none_iff] at h
    intro m hm
    rcases List.mem_cons.mp hm with rfl | hm
    · exact h.2
    · exact ih h.1 m hm

theorem tier_foldl_eq_long : (l.foldl mergeNewer r).tier = .long ↔ r.tier = .long ∨ ∃ m ∈ l, m.tier = .long := by
  induction l generalizing r with
  | nil => simp
  | cons m l ih =>
    have hmax : (mergeNewer r m).tier = .long ↔ r.tier = .long ∨ m.tier = .long := by
      show mergeTier r.tier m.tier = .long ↔ _
      cases r.tier <;> cases m.tier <;> decide
    rw [List.foldl_cons, ih, hmax, List.exists_mem_cons_iff, or_assoc]

theorem expiresAt_foldl (hne : l ≠ []) : (l.foldl mergeNewer r).expiresAt =
    if r.tier = .long ∨ ∃ m ∈ l, m.tier = .long then none else (lastExpiry l).or r.expiresAt := by
  induction l using List.reverseRecOn with
  | nil => exact absurd rfl hne
  | append_singleton l m ih =>
    have hlong : (m.tier = .long ∨ (l.foldl mergeNewer r).tier = .long) ↔
        (r.tier = .long ∨ ∃ x ∈ l ++ [m], x.tier = .long) := by
      rw [tier_foldl_eq_long]
      simp only [List.mem_append, List.mem_singleton, or_and_right, exists_or, exists_eq_left]
      exact or_left_comm.trans (or_congr_right or_comm)
    rw [List.foldl_append]
    show (if m.tier = .long ∨ (l.foldl mergeNewer r).tier = .long then none
      else m.expiresAt.or (l.foldl mergeNewer r).expiresAt) = _
    simp only [hlong]
    split_ifs with hany
    · rfl
    · rw [lastExpiry_append, Option.or_assoc]
      by_cases hnil : l = []
      · subst hnil
        rfl
      · rw [ih hnil, if_neg]
        rintro (hr | ⟨x, hx, hxl⟩)
        · exact hany (Or.inl hr)
        · exact hany (Or.inr ⟨x, List.mem_append_left _ hx, hxl⟩)

theorem expiresAt_mergeAll (hr : ∀ r, start = some r → r.tier ≠ .long) (hl : ∀ m ∈ l, m.tier ≠ .long) :
    (mergeAll start l).bind (fun r => r.expiresAt) = (lastExpiry l).or (start.bind fun r => r.expiresAt) := by
  cases start with
  | some r =>
    rw [mergeAll_some]
    by_cases hne : l = []
    · subst hne
      rfl
    · refine (expiresAt_foldl hne).trans (if_neg ?_)
      rintro (h | ⟨m, hm, h⟩)
      · exact hr r rfl h
      · exact hl m hm h
  | none =>
    cases l with
    | nil => rfl
    | cons m l =>
      rw [mergeAll_none_cons, lastExpiry_cons]
      show (l.foldl mergeNewer m.toRow).expiresAt = ((lastExpiry l).or m.expiresAt).or none
      rw [Option.or_none]
      by_cases hne : l = []
      · subst hne
        rfl
      · refine (expiresAt_foldl hne).trans (if_neg ?_)
        rintro (h | ⟨x, hx, h⟩)
        · exact hl m List.mem_cons_self h
        · exact hl x (List.mem_cons_of_mem m hx) h

theorem mergeAll_isSome : (mergeAll start l).isSome = (start.isSome || !l.isEmpty) := by
  cases start with
  | some r =>
    rw [mergeAll_some]
    rfl
  | none =>
    cases l with
    | nil => rfl
    | cons m l =>
      rw [mergeAll_none_cons]
      rfl

/-- Two optional rows that are both there or both missing agree on a column when they agree through it. -/
theorem map_eq_of_bind_eq {a b : Option MemoryRow} (hs : a.isSome = b.isSome)
    (h : (a.bind fun r => r.expiresAt) = b.bind fun r => r.expiresAt) :
    (a.map fun r => r.expiresAt) = b.map fun r => r.expiresAt := by
  cases a <;> cases b <;> simp_all

theorem expiresAt_of_long (hlong : (∃ r, start = some r ∧ r.tier = .long) ∨ ∃ m ∈ l, m.tier = .long)
    (hlen : 1 < l.length ∨ start.isSome ∧ l ≠ []) :
    (mergeAll start l).map (fun r => r.expiresAt) = some none := by
  cases start with
  | some r =>
    have hne : l ≠ [] := hlen.elim (fun h he => by rw [he] at h; cases h) fun h => h.2
    rw [mergeAll_some, Option.map_some, expiresAt_foldl hne, if_pos]
    exact hlong.imp_left fun ⟨r', h, ht⟩ => by cases h; exact ht
  | none =>
    cases l with
    | nil => simp at hlen
    | cons m l =>
      have hne : l ≠ [] := by
        rintro rfl
        simp at hlen
      rw [mergeAll_none_cons, Option.map_some, expiresAt_foldl hne, if_pos]
      rcases hlong with ⟨r, h, -⟩ | ⟨x, hx, ht⟩
      · cases h
      · rcases List.mem_cons.mp hx with rfl | hx
        · exact Or.inl ht
        · exact Or.inr ⟨x, hx, ht⟩

theorem expiry_of_ok (hok : ExpiryOk start l) (h₁ : l₁.Perm l) (h₂ : l₂.Perm l) :
    (mergeAll start l₁).map (fun r => r.expiresAt) = (mergeAll start l₂).map fun r => r.expiresAt := by
  by_cases hlong : (∃ r, start = some r ∧ r.tier = .long) ∨ ∃ m ∈ l, m.tier = .long
  · by_cases hlen : 1 < l.length ∨ start.isSome ∧ l ≠ []
    · have hone : ∀ l', l'.Perm l → (mergeAll start l').map (fun r => r.expiresAt) = some none := by
        intro l' hp
        refine expiresAt_of_long (hlong.imp_right fun ⟨m, hm, ht⟩ => ⟨m, hp.mem_iff.mpr hm, ht⟩) ?_
        rw [hp.length_eq]
        exact hlen.imp_right fun h => ⟨h.1, fun he => h.2 (he ▸ hp).nil_eq.symm⟩
      rw [hone l₁ h₁, hone l₂ h₂]
    · -- at most one write: there is only one order
      have : l₁ = l₂ := by
        rw [not_or, not_lt] at hlen
        have hle := hlen.1
        rcases l with _ | ⟨m, _ | ⟨x, l⟩⟩
        · rw [h₁.eq_nil, h₂.eq_nil]
        · rw [List.perm_singleton.mp h₁, List.perm_singleton.mp h₂]
        · simp at hle
      rw [this]
  · rw [not_or] at hlong
    push Not at hlong
    have hsame := (hok.resolve_left fun ⟨r, hr, ht⟩ => hlong.1 r hr ht).resolve_left
      fun ⟨m, hm, ht⟩ => hlong.2 m hm ht
    have hlast : lastExpiry l₁ = lastExpiry l₂ := by
      cases h : lastExpiry l₁ with
      | some e =>
        obtain ⟨m, hm, he⟩ := lastExpiry_eq_some h
        cases h' : lastExpiry l₂ with
        | none => rw [lastExpiry_eq_none h' m (h₂.mem_iff.mpr (h₁.mem_iff.mp hm))] at he; cases he
        | some e' =>
          obtain ⟨m', hm', he'⟩ := lastExpiry_eq_some h'
          rw [hsame m (h₁.mem_iff.mp hm) m' (h₂.mem_iff.mp hm') e e' he he']
      | none =>
        cases h' : lastExpiry l₂ with
        | none => rfl
        | some e' =>
          obtain ⟨m', hm', he'⟩ := lastExpiry_eq_some h'
          rw [lastExpiry_eq_none h m' (h₁.mem_iff.mpr (h₂.mem_iff.mp hm'))] at he'
          cases he'
    refine map_eq_of_bind_eq ?_ ?_
    · rw [mergeAll_isSome, mergeAll_isSome, h₁.isEmpty_eq, h₂.isEmpty_eq]
    · rw [expiresAt_mergeAll hlong.1 fun m hm => hlong.2 m (h₁.mem_iff.mp hm),
        expiresAt_mergeAll hlong.1 fun m hm => hlong.2 m (h₂.mem_iff.mp hm), hlast]

/-- Two different expiries and no long tier: the last one to arrive stays. -/
theorem ok_of_expiry (h : ∀ l₁ l₂ : List Memory, l₁.Perm l → l₂.Perm l →
      (mergeAll start l₁).map (fun r => r.expiresAt) = (mergeAll start l₂).map fun r => r.expiresAt) :
    ExpiryOk start l := by
  by_contra hc
  unfold ExpiryOk at hc
  push Not at hc
  obtain ⟨hr, hl, m, hm, m', hm', e, e', he, he', hne⟩ := hc
  have hmm : m' ≠ m := by
    rintro rfl
    rw [he] at he'
    exact hne (Option.some.inj he')
  obtain ⟨l', hp⟩ := Register.exists_perm_cons hm
  obtain ⟨l'', hp'⟩ := Register.exists_perm_cons ((List.mem_cons.mp (hp.mem_iff.mp hm')).resolve_left hmm)
  have hfirst : (l'' ++ [m] ++ [m']).Perm l := by
    refine (hp.trans ((hp'.cons m).trans ?_)).symm
    rw [List.append_assoc]
    show ([m, m'] ++ l'').Perm (l'' ++ [m, m'])
    exact List.perm_append_comm
  have hsecond : (l'' ++ [m'] ++ [m]).Perm l := by
    refine List.Perm.trans ?_ hfirst
    rw [List.append_assoc, List.append_assoc]
    exact List.Perm.append_left l'' (List.Perm.swap m m' [])
  have hend : ∀ x y : Memory, (l'' ++ [x] ++ [y]).Perm l → ∀ e, y.expiresAt = some e →
      (mergeAll start (l'' ++ [x] ++ [y])).bind (fun r => r.expiresAt) = some e := by
    intro x y hxy e hy
    rw [expiresAt_mergeAll hr fun z hz => hl z (hxy.mem_iff.mp hz), lastExpiry_append, hy]
    rfl
  have heq := congrArg (Option.bind · id) (h _ _ hfirst hsecond)
  simp only [Option.bind_map, Function.id_comp] at heq
  rw [hend m m' hfirst e' he', hend m' m hsecond e he] at heq
  exact hne (Option.some.inj heq).symm

end Expiry

/-! ## The payload as a register -/

/-- Writes against the row of the given id: newer ones win, and at equal stamps those of a greater id. -/
def rules (id : String) : Rules String Memory Json where
  stamp := fun m => m.updatedAt
  strong := fun m => decide (id < m.id)
  tag := fun m => agentId m.metadata

/-- The payload of a write under the `agent_id` that came first. -/
def out (m : Memory) (agent : Option Json) : Payload :=
  ⟨m.content, m.tags, m.source, (agent.map (m.metadata.set "agent_id")).getD m.metadata⟩

def reg (r : MemoryRow) : Reg String Memory Json := ⟨r.updatedAt, r.toMemory, agentId r.metadata⟩

/-- Every order of the writes `l` leaves the payload `p` on the row `r`. -/
def Settles (r : MemoryRow) (l : List Memory) (p : Payload) : Prop :=
  Register.Settles (rules r.id) out (reg r) l p (agentId p.metadata)

/-- The row in a register. -/
structure Refines (id : String) (r : MemoryRow) (X : Reg String Memory Json) : Prop where
  id : r.id = id
  stamp : r.updatedAt = X.stamp
  payload : payload r.toMemory = out X.val X.tag
  tag : agentId r.metadata = X.tag
  stable : r.metadata.StableAt "agent_id"

section Refines

variable {id : String} {r : MemoryRow} {X : Reg String Memory Json} {m : Memory}

/-- Carrying a stable `agent_id` into the metadata it is from changes nothing. -/
theorem set_agentId {j : Json} (hs : j.StableAt "agent_id") :
    ((agentId j).map (j.set "agent_id")).getD j = j := by
  cases ha : agentId j with
  | none => rfl
  | some a => exact Json.set_extract hs ha

theorem keepAgentId_eq {k j : Json} (hs : j.StableAt "agent_id") :
    keepAgentId k j = (((agentId k).or (agentId j)).map (j.set "agent_id")).getD j := by
  unfold keepAgentId
  cases agentId k with
  | none => exact (set_agentId hs).symm
  | some a => rfl

/-- An `agent_id` that was carried over is read back, and is stable. -/
theorem agentId_set {k j a : Json} (hj : j.isObject) (ha : agentId k = some a) :
    agentId (j.set "agent_id" a) = some a ∧ (j.set "agent_id" a).StableAt "agent_id" := by
  obtain ⟨u, -, hu⟩ := Option.bind_eq_some_iff.mp ha
  refine ⟨Json.extract_set hj hu, fun v hv => ?_⟩
  rw [Json.get_set hj, Option.some.injEq] at hv
  rw [← hv]
  exact Or.inr (Json.throughSql_idem hu)

theorem agentId_keepAgentId {k j : Json} (hj : j.isObject) (hs : j.StableAt "agent_id") :
    agentId (keepAgentId k j) = (agentId k).or (agentId j) ∧ (keepAgentId k j).StableAt "agent_id" := by
  unfold keepAgentId
  cases ha : agentId k with
  | none => exact ⟨rfl, hs⟩
  | some a => exact agentId_set hj ha

theorem refines_reg (hs : r.metadata.StableAt "agent_id") : Refines r.id r (reg r) := by
  refine ⟨rfl, rfl, ?_, rfl, hs⟩
  show _ = (⟨_, _, _, ((agentId r.metadata).map (r.metadata.set "agent_id")).getD r.metadata⟩ : Payload)
  rw [set_agentId hs]
  rfl

theorem refines_mergeNewer (h : Refines id r X) (hobj : m.metadata.isObject)
    (hs : m.metadata.StableAt "agent_id") : Refines id (mergeNewer r m) (Register.merge (rules id) X m) := by
  have hwins : Supersedes r m ↔ Register.Wins (rules id) X m := by
    unfold Supersedes Register.Wins rules
    rw [h.stamp, h.id, decide_eq_true_eq]
  by_cases hw : Register.Wins (rules id) X m
  · have hsup : Supersedes r m := hwins.mpr hw
    have hmax : max r.updatedAt m.updatedAt = m.updatedAt := max_eq_right (h.stamp ▸ hw.le)
    obtain ⟨htag, hstable⟩ := agentId_keepAgentId (k := r.metadata) hobj hs
    rw [Register.merge_of_wins hw]
    unfold mergeNewer
    simp only [if_pos hsup, hmax]
    refine ⟨h.id, rfl, ?_, ?_, hstable⟩
    · unfold payload out
      rw [keepAgentId_eq hs, h.tag]
      rfl
    · rw [htag, h.tag]
      rfl
  · have hsup : ¬Supersedes r m := fun hc => hw (hwins.mp hc)
    have hmax : max r.updatedAt m.updatedAt = r.updatedAt :=
      max_eq_left (h.stamp ▸ Register.not_wins_le hw)
    have hkeep : keepAgentId r.metadata r.metadata = r.metadata := by
      rw [keepAgentId_eq h.stable, Option.or_self]
      exact set_agentId h.stable
    rw [Register.merge_of_not_wins hw]
    unfold mergeNewer
    simp only [if_neg hsup, hmax, hkeep]
    exact ⟨h.id, h.stamp, h.payload, h.tag, h.stable⟩

theorem refines_foldl {l : List Memory} (h : Refines id r X)
    (hl : ∀ m ∈ l, m.metadata.isObject ∧ m.metadata.StableAt "agent_id") :
    Refines id (l.foldl mergeNewer r) (l.foldl (Register.merge (rules id)) X) := by
  induction l generalizing r X with
  | nil => exact h
  | cons m l ih =>
    obtain ⟨hobj, hs⟩ := hl m List.mem_cons_self
    exact ih (refines_mergeNewer h hobj hs) fun x hx => hl x (List.mem_cons_of_mem m hx)

/-- Every order leaves the payload `p` on the row exactly when the register settles on it. -/
theorem forall_payload_iff {l : List Memory} {p : Payload} (hr : r.metadata.StableAt "agent_id")
    (hl : ∀ m ∈ l, m.metadata.isObject ∧ m.metadata.StableAt "agent_id") :
    (∀ l' : List Memory, l'.Perm l → payload (l'.foldl mergeNewer r).toMemory = p) ↔ Settles r l p := by
  have href : ∀ l' : List Memory, l'.Perm l →
      Refines r.id (l'.foldl mergeNewer r) (l'.foldl (Register.merge (rules r.id)) (reg r)) :=
    fun l' hp => refines_foldl (refines_reg hr) fun m hm => hl m (hp.mem_iff.mp hm)
  unfold Settles
  rw [← Register.forall_perm_iff]
  constructor
  · intro h l' hp
    have hpay := h l' hp
    refine ⟨(href l' hp).payload.symm.trans hpay, ?_⟩
    rw [← (href l' hp).tag, ← hpay]
    rfl
  · exact fun h l' hp => (href l' hp).payload.trans (h l' hp).1

end Refines

/-! ## All orders -/

/-- The rows that can come to hold the title and namespace, each with the writes that then merge into it:
the stored row, or without one whatever arrives first. -/
def holders (start : Option MemoryRow) (l : List Memory) : List (MemoryRow × List Memory) :=
  match start with
  | some r => [(r, l)]
  | none => l.map fun m => (m.toRow, l.erase m)

section Orders

variable {start : Option MemoryRow} {l : List Memory}

theorem forall_mergeAll_iff {P : MemoryRow → Prop} :
    (∀ l' : List Memory, l'.Perm l → ∀ r, mergeAll start l' = some r → P r) ↔
      ∀ h ∈ holders start l, ∀ l' : List Memory, l'.Perm h.2 → P (l'.foldl mergeNewer h.1) := by
  unfold holders
  cases start with
  | some r =>
    simp only [mergeAll_some, Option.some.injEq, forall_eq', List.mem_singleton, forall_eq]
  | none =>
    simp only [List.mem_map, forall_exists_index, and_imp, forall_apply_eq_imp_iff₂]
    constructor
    · intro h m hm l' hp
      have hperm : (m :: l').Perm l := (hp.cons m).trans (List.perm_cons_erase hm).symm
      exact h (m :: l') hperm _ (mergeAll_none_cons m l')
    · intro h l' hp r hr
      cases l' with
      | nil => cases hr
      | cons m l' =>
        rw [mergeAll_none_cons] at hr
        cases hr
        exact h m (hp.mem_iff.mp List.mem_cons_self) l' (List.cons_perm_iff_perm_erase.mp hp).2

theorem holders_spec {h : MemoryRow × List Memory} (hh : h ∈ holders start l) :
    (start = some h.1 ∨ ∃ m ∈ l, h.1 = m.toRow) ∧ ∀ m ∈ h.2, m ∈ l := by
  unfold holders at hh
  cases start with
  | some r =>
    cases List.mem_singleton.mp hh
    exact ⟨Or.inl rfl, fun _ hm => hm⟩
  | none =>
    obtain ⟨m, hm, rfl⟩ := List.mem_map.mp hh
    exact ⟨Or.inr ⟨m, hm, rfl⟩, fun x hx => List.mem_of_mem_erase hx⟩

theorem payload_iff {p : Payload} (hrow : ∀ r, start = some r → r.metadata.StableAt "agent_id")
    (hl : ∀ m ∈ l, m.metadata.isObject ∧ m.metadata.StableAt "agent_id") :
    (∀ l' : List Memory, l'.Perm l → ∀ r, mergeAll start l' = some r → payload r.toMemory = p) ↔
      ∀ h ∈ holders start l, Settles h.1 h.2 p := by
  rw [forall_mergeAll_iff (P := fun r => payload r.toMemory = p)]
  refine forall₂_congr fun h hh => ?_
  obtain ⟨hstart, hsub⟩ := holders_spec hh
  refine forall_payload_iff ?_ fun m hm => hl m (hsub m hm)
  rcases hstart with hs | ⟨m, hm, he⟩
  · exact hrow h.1 hs
  · rw [he]
    exact (hl m hm).2

end Orders

/-- All orders of valid memories leave the same row exactly when no two expiries compete without a
long-tier write, and one payload is what every row that can come to hold the title and namespace
settles on. -/
theorem converges_iff (rfc3339 : Rfc3339) (db : Db) (k : String × String) (l : List Memory)
    (hkey : ∀ m ∈ l, m.key = k) (hv : ∀ m ∈ l, m.Valid rfc3339)
    (hid : db.getKey k = none → ∀ m ∈ l, db.get m.id = none)
    (hrow : ∀ r, db.getKey k = some r → r.metadata.StableAt "agent_id")
    (hmem : ∀ m ∈ l, m.metadata.StableAt "agent_id") :
    Converges db k l ↔
      ExpiryOk (db.getKey k) l ∧ ∃ p, ∀ h ∈ holders (db.getKey k) l, Settles h.1 h.2 p := by
  have hget : ∀ l' : List Memory, l'.Perm l → (insertAll db l').getKey k = mergeAll (db.getKey k) l' := by
    intro l' hp
    exact getKey_insertAll (fun m hm => hkey m (hp.mem_iff.mp hm)) fun hnone m hm =>
      hid hnone m (hp.mem_iff.mp hm)
  have hl : ∀ m ∈ l, m.metadata.isObject ∧ m.metadata.StableAt "agent_id" :=
    fun m hm => ⟨(hv m hm).isObject, hmem m hm⟩
  constructor
  · intro h
    have heq : ∀ l₁ l₂ : List Memory, l₁.Perm l → l₂.Perm l →
        (mergeAll (db.getKey k) l₁).map columns = (mergeAll (db.getKey k) l₂).map columns := by
      intro l₁ l₂ h₁ h₂
      rw [← hget l₁ h₁, ← hget l₂ h₂]
      exact h l₁ l₂ h₁ h₂
    constructor
    · refine ok_of_expiry fun l₁ l₂ h₁ h₂ => ?_
      have := congrArg (Option.map fun c => c.2.2) (heq l₁ l₂ h₁ h₂)
      rw [Option.map_map, Option.map_map] at this
      exact this
    · let p := ((mergeAll (db.getKey k) l).map fun r => payload r.toMemory).getD ⟨"", [], "", .null⟩
      refine ⟨p, (payload_iff hrow hl).mp fun l' hp r hr => ?_⟩
      have := congrArg (Option.map fun c => c.1) (heq l' l hp (List.Perm.refl l))
      rw [hr] at this
      simp only [Option.map_map, Option.map_some] at this
      show _ = ((mergeAll (db.getKey k) l).map fun r => payload r.toMemory).getD _
      rw [show ((mergeAll (db.getKey k) l).map fun r => payload r.toMemory) = _ from this.symm]
      rfl
  · rintro ⟨hexp, p, hp⟩ l₁ l₂ h₁ h₂
    rw [hget l₁ h₁, hget l₂ h₂]
    have hpay := (payload_iff hrow hl).mpr hp
    have hmax := maxima_perm (db.getKey k) (h₁.trans h₂.symm)
    have hex := expiry_of_ok hexp h₁ h₂
    cases hr₁ : mergeAll (db.getKey k) l₁ with
    | none =>
      rw [hr₁] at hmax
      rw [Option.map_eq_none_iff.mp hmax.symm]
    | some r₁ =>
      cases hr₂ : mergeAll (db.getKey k) l₂ with
      | none =>
        rw [hr₁, hr₂] at hmax
        cases hmax
      | some r₂ =>
        rw [hr₁, hr₂] at hmax hex
        simp only [Option.map_some, Option.some.injEq] at hmax hex ⊢
        unfold columns
        rw [hpay l₁ h₁ r₁ hr₁, hpay l₂ h₂ r₂ hr₂, hmax, hex]

/-! ## The same writes again -/

section Replay

variable {r r' : MemoryRow} {l : List Memory} {m : Memory}

theorem maxima_foldl (r : MemoryRow) (l : List Memory) :
    maxima (l.foldl mergeNewer r).toMemory = l.foldl (fun a m => a ⊔ maxima m) (maxima r.toMemory) := by
  induction l generalizing r with
  | nil => rfl
  | cons m l ih => rw [List.foldl_cons, ih, maxima_mergeNewer, List.foldl_cons]

theorem foldl_sup_of_le {a : Maxima} (h : ∀ m ∈ l, maxima m ≤ a) : l.foldl (fun a m => a ⊔ maxima m) a = a := by
  induction l with
  | nil => rfl
  | cons m l ih =>
    rw [List.foldl_cons, sup_eq_left.mpr (h m List.mem_cons_self)]
    exact ih fun x hx => h x (List.mem_cons_of_mem m hx)

theorem le_foldl_sup (a : Maxima) (l : List Memory) :
    a ≤ l.foldl (fun a m => a ⊔ maxima m) a ∧ ∀ m ∈ l, maxima m ≤ l.foldl (fun a m => a ⊔ maxima m) a := by
  induction l generalizing a with
  | nil => exact ⟨le_rfl, fun m hm => by cases hm⟩
  | cons m l ih =>
    obtain ⟨hle, hall⟩ := ih (a ⊔ maxima m)
    refine ⟨le_sup_left.trans hle, fun x hx => ?_⟩
    rcases List.mem_cons.mp hx with rfl | hx
    · exact le_sup_right.trans hle
    · exact hall x hx

def others (r : MemoryRow) : String × String × String × String × Option String × Option (List UInt8) × Option ℤ :=
  (r.id, r.ns, r.title, r.createdAt, r.lastAccessedAt, r.embedding, r.embeddingDim)

theorem eq_of_columns (hc : columns (l.foldl mergeNewer r) = columns r) : l.foldl mergeNewer r = r := by
  have hstep : ∀ (r : MemoryRow) (m : Memory), others (mergeNewer r m) = others r := fun _ _ => rfl
  have hkeep : others (l.foldl mergeNewer r) = others r := Machine.foldl_keeps hstep r l
  generalize l.foldl mergeNewer r = r' at hc hkeep
  obtain ⟨⟨⟩⟩ := r'
  simp only [columns, payload, maxima, others, Prod.mk.injEq, Payload.mk.injEq] at hc hkeep
  simp [hc, hkeep]

/-- Metadata after its own `agent_id` went through SQL. -/
theorem agentId_keepAgentId_self (j : Json) :
    agentId (keepAgentId j j) = agentId j ∧ (keepAgentId j j).StableAt "agent_id" := by
  unfold keepAgentId
  cases ha : agentId j with
  | none =>
    exact ⟨ha, Json.stableAt_of_extract_eq_none ha⟩
  | some a => exact agentId_set (Json.isObject_of_extract ha) ha

/-- Metadata stays as it is where its own `agent_id` is stable. -/
theorem keepAgentId_self_iff {j : Json} : keepAgentId j j = j ↔ j.StableAt "agent_id" := by
  constructor
  · intro h
    have hstable := (agentId_keepAgentId_self j).2
    rwa [h] at hstable
  · intro h
    rw [keepAgentId_eq h, Option.or_self]
    exact set_agentId h

theorem keepAgentId_congr {k k' : Json} (h : agentId k = agentId k') (j : Json) :
    keepAgentId k j = keepAgentId k' j := by
  unfold keepAgentId
  rw [h]

/-- Where every `agent_id` is one that SQL hands back as it is, merging the same writes into a row once more changes nothing. -/
theorem foldl_stable_idem (hr : r.metadata.StableAt "agent_id")
    (hl : ∀ m ∈ l, m.metadata.isObject ∧ m.metadata.StableAt "agent_id") :
    l.foldl mergeNewer (l.foldl mergeNewer r) = l.foldl mergeNewer r := by
  by_cases hne : l = []
  · subst hne
    rfl
  refine eq_of_columns ?_
  have hfirst := refines_foldl (refines_reg hr) hl
  have hpay : payload (l.foldl mergeNewer (l.foldl mergeNewer r)).toMemory =
      payload (l.foldl mergeNewer r).toMemory := by
    have hagain := refines_foldl hfirst hl
    rw [Register.foldl_merge_idem] at hagain
    exact hagain.payload.trans hfirst.payload.symm
  have hmax : maxima (l.foldl mergeNewer (l.foldl mergeNewer r)).toMemory =
      maxima (l.foldl mergeNewer r).toMemory := by
    rw [maxima_foldl]
    refine foldl_sup_of_le fun m hm => ?_
    rw [maxima_foldl]
    exact (le_foldl_sup _ l).2 m hm
  have hexp : (l.foldl mergeNewer (l.foldl mergeNewer r)).expiresAt = (l.foldl mergeNewer r).expiresAt := by
    have hlong : ((l.foldl mergeNewer r).tier = .long ∨ ∃ m ∈ l, m.tier = .long) ↔
        (r.tier = .long ∨ ∃ m ∈ l, m.tier = .long) := by
      rw [tier_foldl_eq_long, or_assoc, or_self]
    rw [expiresAt_foldl hne, expiresAt_foldl hne]
    simp only [hlong]
    split_ifs
    · rfl
    · rw [← Option.or_assoc, Option.or_self]
  unfold columns
  rw [hpay, hmax, hexp]

theorem keepAgentId_twice (j : Json) : keepAgentId j (keepAgentId j j) = keepAgentId j j := by
  unfold keepAgentId
  cases agentId j with
  | none => rfl
  | some a => exact Json.set_set j "agent_id" a a

/-- The row with its `agent_id` as SQL hands it back. -/
def readBack (r : MemoryRow) : MemoryRow := { r with metadata := keepAgentId r.metadata r.metadata }

theorem mergeNewer_readBack (r : MemoryRow) (m : Memory) : mergeNewer (readBack r) m = mergeNewer r m := by
  have hagent : ∀ j, keepAgentId (readBack r).metadata j = keepAgentId r.metadata j :=
    keepAgentId_congr (agentId_keepAgentId_self r.metadata).1
  have htwice : keepAgentId r.metadata (readBack r).metadata = keepAgentId r.metadata r.metadata :=
    keepAgentId_twice r.metadata
  have hiff : Supersedes (readBack r) m ↔ Supersedes r m := Iff.rfl
  unfold mergeNewer
  rw [hagent]
  by_cases hs : Supersedes r m
  · simp only [if_pos (hiff.mpr hs), if_pos hs]
    rfl
  · simp only [if_neg (mt hiff.mp hs), if_neg hs, htwice]
    rfl

/-- Nor does what a merge leaves, if the write had its own `agent_id` taken through SQL. -/
theorem readBack_mergeNewer (r : MemoryRow) (m : Memory) : readBack (mergeNewer r m) =
    readBack (mergeNewer r { m with metadata := keepAgentId m.metadata m.metadata }) := by
  have hmeta : keepAgentId (keepAgentId r.metadata m.metadata) (keepAgentId r.metadata m.metadata) =
      keepAgentId (keepAgentId r.metadata (keepAgentId m.metadata m.metadata))
        (keepAgentId r.metadata (keepAgentId m.metadata m.metadata)) := by
    cases ha : agentId r.metadata with
    | none =>
      have hnone : ∀ j, keepAgentId r.metadata j = j := fun j => by rw [keepAgentId, ha]
      rw [hnone, hnone, keepAgentId_congr (agentId_keepAgentId_self m.metadata).1, keepAgentId_twice]
    | some a =>
      have hset : ∀ j, keepAgentId r.metadata j = j.set "agent_id" a := fun j => by rw [keepAgentId, ha]
      have hsame : (keepAgentId m.metadata m.metadata).set "agent_id" a = m.metadata.set "agent_id" a := by
        unfold keepAgentId
        cases agentId m.metadata with
        | none => rfl
        | some b => exact Json.set_set m.metadata "agent_id" a b
      rw [hset, hset, hsame]
  have hiff : Supersedes r { m with metadata := keepAgentId m.metadata m.metadata } ↔ Supersedes r m := Iff.rfl
  unfold readBack mergeNewer
  by_cases hs : Supersedes r m
  · simp only [if_pos (hiff.mpr hs), if_pos hs, hmeta]
    rfl
  · simp only [if_neg (mt hiff.mp hs), if_neg hs]
    rfl

theorem readBack_foldl (h : readBack r = readBack r') : readBack (l.foldl mergeNewer r) = readBack
    ((l.map fun m => { m with metadata := keepAgentId m.metadata m.metadata }).foldl mergeNewer r') := by
  induction l generalizing r r' with
  | nil => exact h
  | cons m l ih =>
    refine ih ?_
    rw [← mergeNewer_readBack r, h, mergeNewer_readBack, readBack_mergeNewer]

/-- A merge keeps the `agent_id` of the row. -/
theorem agentId_mergeNewer {a : Json} (hm : m.metadata.isObject) (ha : agentId r.metadata = some a) :
    agentId (mergeNewer r m).metadata = some a ∧ (mergeNewer r m).metadata.StableAt "agent_id" := by
  have hset : ∀ j, keepAgentId r.metadata j = j.set "agent_id" a := fun j => by rw [keepAgentId, ha]
  show agentId (keepAgentId _ _) = some a ∧ (keepAgentId _ _).StableAt "agent_id"
  rw [hset]
  refine agentId_set ?_ ha
  split_ifs
  · exact hm
  · exact Json.isObject_of_extract ha

theorem agentId_foldl {a : Json} (hl : ∀ m ∈ l, m.metadata.isObject) (hne : l ≠ [])
    (ha : agentId r.metadata = some a) : agentId (l.foldl mergeNewer r).metadata = some a ∧
      (l.foldl mergeNewer r).metadata.StableAt "agent_id" := by
  obtain ⟨m, l, rfl⟩ := List.exists_cons_of_ne_nil hne
  rw [List.foldl_cons]
  exact Machine.foldl_induct (P := fun r : MemoryRow => agentId r.metadata = some a ∧ r.metadata.StableAt "agent_id")
    (fun r x hx hr => agentId_mergeNewer (hl x (List.mem_cons_of_mem m hx)) hr.1)
    (agentId_mergeNewer (hl m List.mem_cons_self) ha)

/-- Where the row has an `agent_id`, or the last write has one that SQL hands back as it is, the row is left with such a
one. -/
theorem stableAt_foldl (hl : ∀ m ∈ l, m.metadata.isObject)
    (h : agentId r.metadata ≠ none ∨ ∀ m ∈ l.getLast?, m.metadata.StableAt "agent_id") (hne : l ≠ []) :
    (l.foldl mergeNewer r).metadata.StableAt "agent_id" := by
  rcases h with h | h
  · obtain ⟨a, ha⟩ := Option.ne_none_iff_exists'.mp h
    exact (agentId_foldl hl hne ha).2
  · obtain ⟨l, m, rfl⟩ := (List.eq_nil_or_concat l).resolve_left hne
    rw [List.concat_eq_append] at hl h ⊢
    rw [List.foldl_append]
    generalize hq : l.foldl mergeNewer r = q
    cases ha : agentId q.metadata with
    | some a => exact (agentId_mergeNewer (hl m (by simp)) ha).2
    | none =>
      show (keepAgentId q.metadata _).StableAt "agent_id"
      rw [keepAgentId, ha]
      split_ifs
      · exact h m (by simp)
      · exact Json.stableAt_of_extract_eq_none ha

/-- Merging the same writes into a row once more changes nothing, if the `agent_id` it was left with is one that SQL
hands back as it is. -/
theorem foldl_mergeNewer_idem (r : MemoryRow) (hl : ∀ m ∈ l, m.metadata.isObject)
    (hs : (l.foldl mergeNewer r).metadata.StableAt "agent_id") :
    l.foldl mergeNewer (l.foldl mergeNewer r) = l.foldl mergeNewer r := by
  by_cases hne : l = []
  · subst hne
    rfl
  have hself : ∀ {x : MemoryRow}, x.metadata.StableAt "agent_id" → readBack x = x := fun {x} hx => by
    unfold readBack
    rw [keepAgentId_self_iff.mpr hx]
  let l' := l.map fun m => { m with metadata := keepAgentId m.metadata m.metadata }
  have hl' : ∀ m ∈ l', m.metadata.isObject ∧ m.metadata.StableAt "agent_id" := by
    intro m hm
    obtain ⟨x, hx, rfl⟩ := List.mem_map.mp hm
    refine ⟨?_, (agentId_keepAgentId_self x.metadata).2⟩
    show (keepAgentId _ _).isObject = true
    unfold keepAgentId
    split
    · rw [Json.isObject_set]
      exact hl x hx
    · exact hl x hx
  -- the first merge takes the stored `agent_id` through SQL, so it may have been there before
  have hcongr : ∀ {x y : MemoryRow}, readBack x = readBack y → l'.foldl mergeNewer x = l'.foldl mergeNewer y := by
    intro x y hxy
    obtain ⟨m, t, ht⟩ := List.exists_cons_of_ne_nil (show l' ≠ [] by simpa [l'] using hne)
    rw [ht, List.foldl_cons, List.foldl_cons, ← mergeNewer_readBack x, hxy, mergeNewer_readBack]
  have hstart : l'.foldl mergeNewer r = l'.foldl mergeNewer (readBack r) := by
    refine hcongr ?_
    rw [hself (x := readBack r) (agentId_keepAgentId_self r.metadata).2]
  have hidem : l'.foldl mergeNewer (l'.foldl mergeNewer r) = l'.foldl mergeNewer r := by
    rw [hstart]
    exact foldl_stable_idem (agentId_keepAgentId_self r.metadata).2 hl'
  have hfirst : readBack (l.foldl mergeNewer r) = readBack (l'.foldl mergeNewer r) := readBack_foldl rfl
  have hagain : readBack (l.foldl mergeNewer (l.foldl mergeNewer r)) = readBack (l.foldl mergeNewer r) := by
    rw [readBack_foldl rfl, hcongr hfirst, hidem, hfirst]
  have hs' : (l.foldl mergeNewer (l.foldl mergeNewer r)).metadata.StableAt "agent_id" := by
    cases ha : agentId (l.foldl mergeNewer r).metadata with
    | some a => exact (agentId_foldl hl hne ha).2
    | none =>
      refine Json.stableAt_of_extract_eq_none ?_
      have hread := congrArg (fun x : MemoryRow => agentId x.metadata) hagain
      exact ((agentId_keepAgentId_self _).1.symm.trans (hread.trans (agentId_keepAgentId_self _).1)).trans ha
  rwa [hself hs, hself hs'] at hagain

/-- What the write that made a row does to it: a long-tier row loses its expiry, and the `agent_id` goes through SQL. -/
theorem mergeNewer_toRow_eq (m : Memory) : mergeNewer m.toRow m =
    readBack { m.toRow with expiresAt := if m.tier = .long then none else m.expiresAt } := by
  have hno : ¬Supersedes m.toRow m := by
    rintro (hlt | ⟨-, hlt⟩)
    · exact lt_irrefl _ hlt
    · exact lt_irrefl _ hlt
  have htier : mergeTier m.tier m.tier = m.tier := by rw [mergeTier_eq_max, max_self]
  have hexp : mergeExpiresAt m.toRow m = if m.tier = .long then none else m.expiresAt := by
    show (if m.tier = .long ∨ m.tier = .long then none else m.expiresAt.or m.expiresAt) = _
    simp only [or_self, Option.or_self]
  unfold mergeNewer
  simp only [if_neg hno]
  show ({ m.toRow with
      priority := max m.priority m.priority
      confidence := max m.confidence m.confidence
      tier := mergeTier m.tier m.tier
      updatedAt := max m.updatedAt m.updatedAt
      accessCount := max m.accessCount m.accessCount
      expiresAt := mergeExpiresAt m.toRow m
      metadata := keepAgentId m.metadata m.metadata } : MemoryRow) = _
  rw [max_self, max_self, max_self, max_self, htier, hexp]
  rfl

theorem mergeNewer_toRow (hs : m.metadata.StableAt "agent_id") : mergeNewer m.toRow m =
    { m.toRow with expiresAt := if m.tier = .long then none else m.expiresAt } := by
  rw [mergeNewer_toRow_eq]
  exact congrArg (fun j : Json => ({ m.toRow with
    expiresAt := if m.tier = .long then none else m.expiresAt, metadata := j } : MemoryRow)) (keepAgentId_self_iff.mpr hs)

theorem mergeNewer_of_long (h : r.tier = .long) (m : Memory) :
    mergeNewer { r with expiresAt := none } m = mergeNewer r m := by
  have hexp : ∀ r' : MemoryRow, r'.tier = .long → mergeExpiresAt r' m = none := fun r' hr' => if_pos (Or.inr hr')
  unfold mergeNewer
  rw [hexp _ h, hexp { r with expiresAt := none } h]
  rfl

theorem mergeNewer_mergeNewer_toRow (m m' : Memory) : mergeNewer (mergeNewer m.toRow m) m' = mergeNewer m.toRow m' := by
  rw [mergeNewer_toRow_eq, mergeNewer_readBack]
  split_ifs with hlong
  · exact mergeNewer_of_long hlong m'
  · rfl

/-- The row that a list of writes leaves takes the same list again without a change, unless it is one
write that made a long-tier row with an expiry, or the last one brought an `agent_id` that SQL rewrites. -/
theorem foldl_of_mergeAll {start : Option MemoryRow} (hm : mergeAll start l = some r)
    (hl : ∀ m ∈ l, m.metadata.isObject)
    (hs : (∃ r₀, start = some r₀ ∧ agentId r₀.metadata ≠ none) ∨ ∀ m ∈ l.getLast?, m.metadata.StableAt "agent_id")
    (he : start = none → ∀ m, l = [m] → m.tier = .long → m.expiresAt = none) : l.foldl mergeNewer r = r := by
  cases start with
  | some r₀ =>
    rw [mergeAll_some] at hm
    cases hm
    by_cases hne : l = []
    · subst hne
      rfl
    refine foldl_mergeNewer_idem r₀ hl (stableAt_foldl hl (hs.imp ?_ id) hne)
    rintro ⟨_, ⟨⟩, ha⟩
    exact ha
  | none =>
    replace hs := hs.resolve_left (by rintro ⟨_, ⟨⟩, -⟩)
    cases l with
    | nil => cases hm
    | cons m l =>
      rw [mergeAll_none_cons] at hm
      cases hm
      have hfirst : (m :: l).foldl mergeNewer m.toRow = l.foldl mergeNewer m.toRow := by
        cases l with
        | nil =>
          rw [List.foldl_cons, mergeNewer_toRow (hs m rfl)]
          by_cases hlong : m.tier = .long
          · rw [if_pos hlong, ← he rfl m rfl hlong]
            rfl
          · rw [if_neg hlong]
            rfl
        | cons m' l => rw [List.foldl_cons, List.foldl_cons, List.foldl_cons, mergeNewer_mergeNewer_toRow]
      have hidem := foldl_mergeNewer_idem m.toRow hl (stableAt_foldl hl (Or.inr hs) (List.cons_ne_nil m l))
      rwa [hfirst] at hidem

theorem foldl_mergeNewer_congr (h : r'.toMemory = r.toMemory) (l : List Memory) :
    (l.foldl mergeNewer r').toMemory = (l.foldl mergeNewer r).toMemory := by
  induction l generalizing r r' with
  | nil => exact h
  | cons m l ih =>
    refine ih ?_
    obtain ⟨m₁, e, d⟩ := r
    cases h
    rfl

theorem foldl_mergeNewer_of_toMemory (h : r'.toMemory = r.toMemory) (hfix : l.foldl mergeNewer r = r) :
    l.foldl mergeNewer r' = r' := by
  refine eq_of_columns ?_
  have hmem : (l.foldl mergeNewer r').toMemory = r'.toMemory := by rw [foldl_mergeNewer_congr h, hfix, h]
  show (payload (l.foldl mergeNewer r').toMemory, maxima (l.foldl mergeNewer r').toMemory,
    (l.foldl mergeNewer r').toMemory.expiresAt) = _
  rw [hmem]
  rfl

theorem payload_foldl_of_newer (hs : r.metadata.StableAt "agent_id") (hnew : ∀ m ∈ l, m.updatedAt < r.updatedAt) :
    payload (l.foldl mergeNewer r).toMemory = payload r.toMemory := by
  refine (Machine.foldl_induct (P := fun x : MemoryRow => payload x.toMemory = payload r.toMemory ∧
    r.updatedAt ≤ x.updatedAt) (fun x m hm hx => ?_) ⟨rfl, le_rfl⟩).1
  have hno : ¬Supersedes x m := by
    rintro (hlt | ⟨heq, -⟩)
    · exact lt_asymm (lt_of_lt_of_le (hnew m hm) hx.2) hlt
    · exact (lt_of_lt_of_le (hnew m hm) hx.2).ne heq
  have hmeta : x.metadata = r.metadata := congrArg Payload.metadata hx.1
  refine ⟨?_, hx.2.trans (le_max_left _ _)⟩
  rw [← hx.1]
  unfold mergeNewer payload
  simp only [if_neg hno, hmeta, keepAgentId_self_iff.mpr hs]

/-- A row that is newer than the writes, has their maxima and expires as they would have it takes them without a change. -/
theorem foldl_mergeNewer_of_newer (hfix : l.foldl mergeNewer r = r) (hs : r'.metadata.StableAt "agent_id")
    (hnew : ∀ m ∈ l, m.updatedAt < r'.updatedAt)
    (hmax : r.tier ≤ r'.tier ∧ r.priority ≤ r'.priority ∧ r.confidence ≤ r'.confidence ∧ r.accessCount ≤ r'.accessCount)
    (hexp : if r'.tier = .long then r'.expiresAt = none else (lastExpiry l).or r'.expiresAt = r'.expiresAt) :
    l.foldl mergeNewer r' = r' := by
  by_cases hne : l = []
  · subst hne
    rfl
  have hle : ∀ m ∈ l, maxima m ≤ maxima r.toMemory := by
    intro m hm
    have hfold := maxima_foldl r l
    rw [hfix] at hfold
    rw [hfold]
    exact (le_foldl_sup _ l).2 m hm
  have hle' : ∀ m ∈ l, maxima m ≤ maxima r'.toMemory := by
    intro m hm
    obtain ⟨htier, hprio, hconf, hcount, -⟩ := hle m hm
    exact ⟨htier.trans hmax.1, hprio.trans hmax.2.1, hconf.trans hmax.2.2.1, hcount.trans hmax.2.2.2, (hnew m hm).le⟩
  have hexpires : (l.foldl mergeNewer r').expiresAt = r'.expiresAt := by
    have hlong : (r'.tier = .long ∨ ∃ m ∈ l, m.tier = .long) ↔ r'.tier = .long := by
      refine or_iff_left_of_imp ?_
      rintro ⟨m, hm, ht⟩
      have htier : m.tier ≤ r'.tier := (hle' m hm).1
      rw [ht] at htier
      revert htier
      cases r'.tier <;> decide
    rw [expiresAt_foldl hne]
    simp only [hlong]
    split_ifs at hexp ⊢
    · exact hexp.symm
    · exact hexp
  refine eq_of_columns ?_
  unfold columns
  rw [payload_foldl_of_newer hs hnew, hexpires, maxima_foldl, foldl_sup_of_le hle']

theorem lastExpiry_or_of_fix (hfix : l.foldl mergeNewer r = r) (ht : r.tier ≠ .long) :
    (lastExpiry l).or r.expiresAt = r.expiresAt := by
  by_cases hne : l = []
  · subst hne
    rfl
  have hexp := expiresAt_foldl (r := r) hne
  have hlong : ¬(r.tier = .long ∨ ∃ m ∈ l, m.tier = .long) := by
    rw [← tier_foldl_eq_long, hfix]
    exact ht
  rw [hfix, if_neg hlong] at hexp
  exact hexp.symm

/-- And its `agent_id` is one that SQL hands back as it is. -/
theorem stableAt_of_fix (hl : ∀ m ∈ l, m.metadata.isObject) (hne : l ≠ []) (hfix : l.foldl mergeNewer r = r) :
    r.metadata.StableAt "agent_id" := by
  by_cases ha : agentId r.metadata = none
  · exact Json.stableAt_of_extract_eq_none ha
  · rw [← hfix]
    exact stableAt_foldl hl (Or.inl ha) hne

end Replay

/-- An edit of one note by `alice`. -/
def edit (id content stamp : String) : Memory where
  id := id
  tier := .long
  ns := "team"
  title := "Rota"
  content := content
  tags := []
  priority := 5
  confidence := 1
  source := "user"
  accessCount := 0
  createdAt := "2026-01-01T00:00:00+00:00"
  updatedAt := stamp
  lastAccessedAt := none
  expiresAt := none
  metadata := .obj [("agent_id", .str "alice")]

def editStamps : Rfc3339 := fun s => s ∈ ["2026-01-01T00:00:00+00:00", "2026-01-02T00:00:00+00:00"]

/-- Two edits of different stamps converge. -/
theorem two_edits_converge : Converges Db.empty ("Rota", "team")
    [edit "m1" "mon" "2026-01-01T00:00:00+00:00", edit "m2" "tue" "2026-01-02T00:00:00+00:00"] := by
  refine (converges_iff editStamps Db.empty ("Rota", "team") _ (by decide) (by decide)
    (fun _ _ _ => rfl) (fun r hr => by cases hr) (by decide)).mpr ⟨Or.inr (Or.inl (by decide)), ?_⟩
  refine ⟨payload (edit "m2" "tue" "2026-01-02T00:00:00+00:00"), fun h hh => ?_⟩
  obtain ⟨m, hm, rfl⟩ := List.mem_map.mp hh
  rcases List.mem_cons.mp hm with rfl | hm
  · -- the older edit holds the row, and the newer one replaces it
    refine ⟨fun hno => absurd (hno (edit "m2" "tue" "2026-01-02T00:00:00+00:00") (by decide)) (by decide),
      fun w hw => ?_, fun _ _ => rfl, fun hnone => absurd hnone (by decide),
      fun hnone => absurd hnone (by decide)⟩
    cases List.mem_singleton.mp (show w ∈ [edit "m2" "tue" "2026-01-02T00:00:00+00:00"] from hw.1.mem)
    decide
  · cases List.mem_singleton.mp hm
    have hno : ∀ x ∈ [edit "m1" "mon" "2026-01-01T00:00:00+00:00"], ¬Register.Wins (rules "m2")
        (reg (edit "m2" "tue" "2026-01-02T00:00:00+00:00").toRow) x := by decide
    refine ⟨fun _ => by decide, fun w hw => absurd hw.1.wins (hno w hw.1.mem),
      fun ⟨x, hx, hwx⟩ => absurd hwx (hno x hx), fun hnone => absurd hnone (by decide),
      fun hnone => absurd hnone (by decide)⟩

/-- Three edits of one stamp: the last to arrive after the first wins, since both ids are greater than the
stored one. -/
theorem tied_edits_diverge :
    let l := [edit "m1" "mon" "2026-01-01T00:00:00+00:00", edit "m2" "tue" "2026-01-01T00:00:00+00:00",
      edit "m3" "wed" "2026-01-01T00:00:00+00:00"]
    (∀ m ∈ l, m.key = ("Rota", "team")) ∧ (∀ m ∈ l, m.Valid editStamps) ∧
      ¬Converges Db.empty ("Rota", "team") l := by
  refine ⟨by decide, by decide, fun h => ?_⟩
  have := h [edit "m1" "mon" "2026-01-01T00:00:00+00:00", edit "m2" "tue" "2026-01-01T00:00:00+00:00",
      edit "m3" "wed" "2026-01-01T00:00:00+00:00"]
    [edit "m1" "mon" "2026-01-01T00:00:00+00:00", edit "m3" "wed" "2026-01-01T00:00:00+00:00",
      edit "m2" "tue" "2026-01-01T00:00:00+00:00"] (List.Perm.refl _) (by decide)
  replace this := congrArg (Option.map fun c => c.1.content) this
  revert this
  decide

end Convergence

end AiMemory
