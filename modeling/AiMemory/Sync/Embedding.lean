import AiMemory.Sync.Settled

/-!
# Refreshed embeddings

The end of a push writes an embedding for each merged memory. `set_embedding` refuses a vector whose
dimension is not the one established in the namespace; one model has one dimension, so a namespace that
takes a vector of it takes all of them, and one that refuses the first refuses all
(`embeds_map_refreshRow`). Refreshing the same texts again then writes what is there.
-/

namespace AiMemory

open Relational

namespace Push

/-- `namespace_embedding_dim`, on the rows of the table. -/
def dimOf (rows : List MemoryRow) (ns : String) : Option ℕ :=
  ((rows.find? fun r => r.ns = ns ∧ r.embeddingDim.isSome).bind fun r => r.embeddingDim).bind
    fun d => if 0 ≤ d then some d.toNat else none

def embeds (e : Embedder) (rows : List MemoryRow) (ns : String) : Bool :=
  e.dim = 0 || (dimOf rows ns).all (· = e.dim)

def putEmbedding (e : Embedder) (r : MemoryRow) (row : String × String) : MemoryRow :=
  { r with embedding := e.embed row.2, embeddingDim := if e.dim = 0 then none else some e.dim }

/-- What a refresh does to each row, with the namespaces that take it. -/
def refreshRow (e : Embedder) (takes : String → Bool) (r : MemoryRow) (row : String × String) : MemoryRow :=
  if row.1 = r.id ∧ takes r.ns ∧ (e.embed row.2).isSome then putEmbedding e r row else r

section Refresh

variable {e : Embedder} {db : Db} {takes : String → Bool} {row : String × String} {rows : List MemoryRow}
  {ns : String}

variable {f : MemoryRow → MemoryRow}

theorem rows_eq_map (hf : ∀ r ∈ rows, f r = r) : rows = rows.map f :=
  (List.map_id _).symm.trans (List.map_congr_left fun r hr => (hf r hr).symm)

/-- `set_embedding` writes the row of the id, if its namespace takes the vector. -/
theorem setEmbedding_spec (db : Db) (id : String) (blob : List UInt8) (dim : ℕ) :
    (db.setEmbedding id blob dim = .ok (db.writeEmbedding id blob (if dim = 0 then none else some dim)) ∧
      ∀ r, db.get id = some r → dim = 0 ∨ (dimOf db.memories.rows r.ns).all (· = dim)) ∨
    (∃ error r, db.setEmbedding id blob dim = .error error ∧ db.get id = some r ∧ dim ≠ 0 ∧
      (dimOf db.memories.rows r.ns).all (· = dim) = false) := by
  unfold Db.setEmbedding
  by_cases hdim : dim = 0
  · rw [if_pos hdim, if_pos hdim]
    exact Or.inl ⟨rfl, fun _ _ => Or.inl hdim⟩
  · rw [if_neg hdim, if_neg hdim]
    cases hr : db.get id with
    | none => exact Or.inl ⟨rfl, fun _ hc => by cases hc⟩
    | some r =>
      simp only [Option.map_some]
      cases hd : db.namespaceEmbeddingDim r.ns with
      | none =>
        refine Or.inl ⟨rfl, fun r' hr' => Or.inr ?_⟩
        cases hr'
        rw [show dimOf db.memories.rows r.ns = none from hd]
        rfl
      | some established =>
        simp only
        by_cases hne : established ≠ dim
        · rw [if_pos hne]
          refine Or.inr ⟨_, r, rfl, rfl, hdim, ?_⟩
          rw [show dimOf db.memories.rows r.ns = some established from hd]
          simpa using hne
        · rw [if_neg hne]
          refine Or.inl ⟨rfl, fun r' hr' => Or.inr ?_⟩
          cases hr'
          rw [show dimOf db.memories.rows r.ns = some established from hd]
          simpa using hne

/-- A refresh, row by row. -/
theorem rows_refresh (e : Embedder) (db : Db) (row : String × String) : (refresh e db row).memories.rows =
    db.memories.rows.map fun r => refreshRow e (embeds e db.memories.rows) r row := by
  unfold refresh
  cases hb : e.embed row.2 with
  | none =>
    refine rows_eq_map fun r _ => if_neg ?_
    rw [hb]
    simp
  | some blob =>
    simp only
    obtain ⟨hset, htakes⟩ | ⟨error, r₀, hset, hr₀, hdim, hno⟩ := setEmbedding_spec db row.1 blob e.dim
    · rw [hset]
      refine List.map_congr_left fun r hr => ?_
      unfold refreshRow putEmbedding
      rw [hb]
      by_cases hid : r.id = row.1
      · have hok : embeds e db.memories.rows r.ns := by
          unfold embeds
          simpa using htakes r (hid ▸ Db.get_of_mem hr)
        rw [if_pos hid]
        exact (if_pos ⟨hid.symm, hok, rfl⟩).symm
      · rw [if_neg hid]
        exact (if_neg fun hc => hid hc.1.symm).symm
    · rw [hset]
      refine rows_eq_map fun r hr => if_neg ?_
      rintro ⟨hid, hok, -⟩
      have hsame : r = r₀ := by
        have := Db.get_of_mem hr
        rw [← hid, hr₀] at this
        exact (Option.some.inj this).symm
      subst hsame
      unfold embeds at hok
      rw [hno] at hok
      simp [hdim] at hok

/-! ## Namespaces that take a vector -/

theorem dimOf_map_of_eq (hns : ∀ r, (f r).ns = r.ns) (hf : ∀ r, r.ns = ns → f r = r) :
    dimOf (rows.map f) ns = dimOf rows ns := by
  have hfind : ((rows.map f).find? fun r => r.ns = ns ∧ r.embeddingDim.isSome) =
      rows.find? fun r => r.ns = ns ∧ r.embeddingDim.isSome := by
    induction rows with
    | nil => rfl
    | cons r rows ih =>
      rw [List.map_cons, List.find?_cons, List.find?_cons, ih]
      by_cases hr : r.ns = ns
      · rw [hf r hr]
      · simp only [hns, hr, false_and, decide_false]
  unfold dimOf
  rw [hfind]

/-- Rows that are written with a dimension leave the one that was established, or establish theirs. -/
theorem dimOf_map (rows : List MemoryRow) (ns : String) {dim : ℕ}
    (hf : ∀ r, f r = r ∨ (f r).ns = r.ns ∧ (f r).embeddingDim = some (dim : ℤ)) :
    dimOf (rows.map f) ns = dimOf rows ns ∨ dimOf (rows.map f) ns = some dim := by
  unfold dimOf
  induction rows with
  | nil => exact Or.inl rfl
  | cons r rows ih =>
    rw [List.map_cons, List.find?_cons, List.find?_cons]
    rcases hf r with hsame | ⟨hns, hdim⟩
    · rw [hsame]
      by_cases hr : r.ns = ns ∧ r.embeddingDim.isSome
      · simp only [hr]
        exact Or.inl rfl
      · simp only [hr, decide_false]
        exact ih
    · by_cases hr : r.ns = ns
      · right
        simp [hns, hr, hdim]
      · simp only [hns, hr, false_and, decide_false]
        exact ih

theorem refreshRow_cases (e : Embedder) (takes : String → Bool) (r : MemoryRow) (row : String × String) :
    refreshRow e takes r row = r ∨ takes r.ns ∧ refreshRow e takes r row = putEmbedding e r row := by
  unfold refreshRow
  split_ifs with hc
  · exact Or.inr ⟨hc.2.1, rfl⟩
  · exact Or.inl rfl

theorem refreshRow_ns (e : Embedder) (takes : String → Bool) (r : MemoryRow) (row : String × String) :
    (refreshRow e takes r row).ns = r.ns := by
  obtain he | ⟨-, he⟩ := refreshRow_cases e takes r row <;> rw [he]
  rfl

theorem embeds_map_refreshRow (e : Embedder) (rows : List MemoryRow) (row : String × String) :
    embeds e (rows.map fun r => refreshRow e (embeds e rows) r row) = embeds e rows := by
  funext ns
  by_cases hdim : e.dim = 0
  · simp [embeds, hdim]
  · have hall : ∀ rows, embeds e rows ns = (dimOf rows ns).all (· = e.dim) := by
      intro rows
      simp [embeds, hdim]
    cases htakes : embeds e rows ns with
    | false =>
      rw [hall, ← htakes, hall, dimOf_map_of_eq (refreshRow_ns e _ · row) fun r hr => ?_]
      obtain he | ⟨hc, -⟩ := refreshRow_cases e (embeds e rows) r row
      · exact he
      · rw [hr, htakes] at hc
        cases hc
    | true =>
      have hold : (dimOf rows ns).all (· = e.dim) := (hall rows).symm.trans htakes
      have hnew : ∀ r, refreshRow e (embeds e rows) r row = r ∨
          (refreshRow e (embeds e rows) r row).ns = r.ns ∧
          (refreshRow e (embeds e rows) r row).embeddingDim = some (e.dim : ℤ) := by
        intro r
        refine (refreshRow_cases e (embeds e rows) r row).imp_right fun ⟨_, he⟩ => ⟨refreshRow_ns e _ r row, ?_⟩
        rw [he]
        exact if_neg hdim
      rw [hall]
      rcases dimOf_map rows ns hnew with he | he
      · rw [he, hold]
      · rw [he]
        simp

/-! ## The same texts again -/

theorem rows_foldl_refresh (e : Embedder) (db : Db) (texts : List (String × String)) :
    (texts.foldl (refresh e) db).memories.rows =
      db.memories.rows.map fun r => texts.foldl (refreshRow e (embeds e db.memories.rows)) r := by
  induction texts generalizing db with
  | nil => exact (List.map_id _).symm
  | cons row texts ih =>
    rw [List.foldl_cons, ih, rows_refresh, embeds_map_refreshRow, List.map_map]
    rfl

theorem embeds_foldl_refresh (e : Embedder) (db : Db) (texts : List (String × String)) :
    embeds e (texts.foldl (refresh e) db).memories.rows = embeds e db.memories.rows :=
  Machine.foldl_keeps (g := fun d : Db => embeds e d.memories.rows)
    (fun d row => by rw [rows_refresh, embeds_map_refreshRow]) db texts

theorem foldl_refreshRow_idem (e : Embedder) (takes : String → Bool) (r : MemoryRow)
    (texts : List (String × String)) :
    texts.foldl (refreshRow e takes) (texts.foldl (refreshRow e takes) r) = texts.foldl (refreshRow e takes) r := by
  have hkeep : ∀ (x : MemoryRow) (row : String × String), x.id = r.id ∧ x.ns = r.ns →
      (refreshRow e takes x row).id = r.id ∧ (refreshRow e takes x row).ns = r.ns := by
    intro x row hx
    obtain he | ⟨-, he⟩ := refreshRow_cases e takes x row <;> rw [he] <;> exact hx
  -- the id and the namespace decide which texts are written, and the last of them stays
  have hview : ∀ x : MemoryRow, x.id = r.id ∧ x.ns = r.ns → texts.foldl (refreshRow e takes) x =
      (texts.filter fun row => row.1 = r.id ∧ takes r.ns ∧ (e.embed row.2).isSome).foldl (putEmbedding e) x := by
    intro x hx
    refine Machine.foldl_view (P := fun x : MemoryRow => x.id = r.id ∧ x.ns = r.ns) id _ (putEmbedding e)
      (fun x row _ hx => hkeep x row hx) (fun x row _ hx => ?_) hx
    show refreshRow e takes x row = _
    unfold refreshRow
    simp only [hx.1, hx.2, id, decide_eq_true_eq]
  have hend : (texts.foldl (refreshRow e takes) r).id = r.id ∧ (texts.foldl (refreshRow e takes) r).ns = r.ns :=
    Machine.foldl_induct (P := fun x : MemoryRow => x.id = r.id ∧ x.ns = r.ns)
      (fun x row _ hx => hkeep x row hx) ⟨rfl, rfl⟩
  rw [hview _ hend, hview r ⟨rfl, rfl⟩]
  exact Machine.foldl_overwrite_idem fun _ _ _ => rfl

theorem foldl_refreshRow_filter (e : Embedder) (takes : String → Bool) {f : String → Bool} {r : MemoryRow}
    (texts : List (String × String)) (hr : f r.id) : texts.foldl (refreshRow e takes) r =
      (texts.filter fun row => f row.1).foldl (refreshRow e takes) r := by
  have hid : ∀ x row, (refreshRow e takes x row).id = x.id := by
    intro x row
    obtain he | ⟨-, he⟩ := refreshRow_cases e takes x row <;> rw [he]
    rfl
  refine Machine.foldl_view (P := fun x : MemoryRow => x.id = r.id) id _ (refreshRow e takes)
    (fun x row _ hx => (hid x row).trans hx) (fun x row _ hx => ?_) rfl
  show refreshRow e takes x row = if f row.1 then refreshRow e takes x row else x
  split_ifs with hf
  · rfl
  · refine if_neg fun hc => hf ?_
    rw [hc.1, hx]
    exact hr

theorem rows_refresh_again {db' : Db} (e : Embedder) (texts : List (String × String))
    (hdb : db'.memories = (texts.foldl (refresh e) db).memories) :
    (texts.foldl (refresh e) db').memories = db'.memories := by
  refine Indexed.ext ?_
  rw [rows_foldl_refresh, hdb, embeds_foldl_refresh, rows_foldl_refresh, List.map_map]
  exact List.map_congr_left fun r _ => foldl_refreshRow_idem e _ r texts

end Refresh

end Push

end AiMemory
