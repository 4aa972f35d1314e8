import AiMemory.Http.Memories

/-!
# The memory an id or the start of one names

`resolve_id` looks for the id and then for the rows whose id matches the escaped text and `%` under `LIKE`. `LIKE` folds the
letters of ASCII, and the escaping leaves a backslash of the text alone, so the rows it finds (`Reads`) need not be the ones
whose id starts with the text (`Starts`). The answer is the right one exactly when that makes no difference.
-/

namespace AiMemory

namespace Db

variable {db : Db} {p : String} {m : MemoryRow} {P Q : MemoryRow → Prop}

/-- The id starts with the text. -/
def Starts (p : String) (r : MemoryRow) : Prop := p.toList <+: r.id.toList

/-- The id is one of the strings that `LIKE` takes the escaped text and `%` for. -/
def Reads (p : String) (r : MemoryRow) : Prop := Like.Reads '\\' false p.toList r.id.toList

/-- The one row with a property. -/
def Only (db : Db) (P : MemoryRow → Prop) (m : MemoryRow) : Prop := m ∈ db.memories ∧ P m ∧ ∀ r ∈ db.memories, P r → r = m

/-- Two rows have the property. -/
def Several (db : Db) (P : MemoryRow → Prop) : Prop := ∃ r ∈ db.memories, ∃ s ∈ db.memories, r ≠ s ∧ P r ∧ P s

/-- A text names the memory with that id, or else the one memory whose id starts with it. -/
structure NamesOne (db : Db) (p : String) : Prop where
  exact : ∀ m, db.get p = some m → db.resolveId p = .ok (some m)
  only : db.get p = none → ∀ m, db.resolveId p = .ok (some m) ↔ db.Only (Starts p) m
  absent : db.get p = none → (db.resolveId p = .ok none ↔ ∀ r ∈ db.memories, ¬ Starts p r)
  several : db.get p = none → ((∃ e, db.resolveId p = .error e) ↔ db.Several (Starts p))

/-! ## The three answers -/

theorem filter_cases (db : Db) (P : MemoryRow → Prop) [DecidablePred P] :
    (db.memories.rows.filter P = [] ∧ ∀ r ∈ db.memories, ¬ P r) ∨ (∃ m, db.memories.rows.filter P = [m] ∧ db.Only P m) ∨
    (2 ≤ (db.memories.rows.filter P).length ∧ db.Several P) := by
  have hmem : ∀ r, r ∈ db.memories.rows.filter P ↔ r ∈ db.memories ∧ P r := by
    intro r
    rw [List.mem_filter, decide_eq_true_iff]
    exact Iff.rfl
  have hnodup : (db.memories.rows.filter P).Nodup := (List.Nodup.of_map _ db.memories.nodup).filter _
  generalize db.memories.rows.filter (fun r => decide (P r)) = found at hmem hnodup ⊢
  match found with
  | [] => exact Or.inl ⟨rfl, fun r hr hP => List.not_mem_nil ((hmem r).mpr ⟨hr, hP⟩)⟩
  | [r] =>
    have hr := (hmem r).mp (List.mem_singleton_self r)
    exact Or.inr (Or.inl ⟨r, rfl, hr.1, hr.2, fun x hx hP => List.mem_singleton.mp ((hmem x).mpr ⟨hx, hP⟩)⟩)
  | r :: s :: rest =>
    have hr := (hmem r).mp List.mem_cons_self
    have hs := (hmem s).mp (List.mem_cons_of_mem _ List.mem_cons_self)
    have hne : r ≠ s := fun h => (List.nodup_cons.mp hnodup).1 (h ▸ List.mem_cons_self)
    exact Or.inr (Or.inr ⟨by simp, r, hr.1, s, hs.1, hne, hr.2, hs.2⟩)

theorem Only.not_several (h : db.Only P m) : ¬ db.Several P := by
  rintro ⟨r, hr, s, hs, hne, hPr, hPs⟩
  exact hne ((h.2.2 r hr hPr).trans (h.2.2 s hs hPs).symm)

theorem Only.eq {m' : MemoryRow} (h : db.Only P m) (h' : db.Only P m') : m = m' := h'.2.2 m h.1 h.2.1

theorem not_only_of_none (h : ∀ r ∈ db.memories, ¬ P r) : ¬ db.Only P m := fun ho => h m ho.1 ho.2.1

theorem not_several_of_none (h : ∀ r ∈ db.memories, ¬ P r) : ¬ db.Several P := fun ⟨r, hr, _, _, _, hP, _⟩ => h r hr hP

/-- What `get_by_prefix` answers, by how many rows `LIKE` finds. -/
theorem getByPrefix_cases (db : Db) (p : String) :
    (db.getByPrefix p = .ok none ∧ ∀ r ∈ db.memories, ¬ Reads p r) ∨
    (∃ m, db.getByPrefix p = .ok (some m) ∧ db.Only (Reads p) m) ∨
    ((∃ e, db.getByPrefix p = .error e) ∧ db.Several (Reads p)) := by
  classical
  have hfilter : (db.memories.rows.filter fun r => Like.like '\\' (Like.escape '\\' p.toList ++ ['%']) r.id.toList) =
      db.memories.rows.filter (Reads p) := by
    apply List.filter_congr
    intro r _
    rw [Bool.eq_iff_iff, decide_eq_true_iff]
    exact Like.likeFrom_iff_reads (by decide) false
  unfold getByPrefix
  rw [hfilter]
  rcases db.filter_cases (Reads p) with ⟨hrows, h⟩ | ⟨m, hrows, h⟩ | ⟨hlen, h⟩
  · rw [hrows]
    exact Or.inl ⟨rfl, h⟩
  · rw [hrows]
    exact Or.inr (Or.inl ⟨m, rfl, h⟩)
  · split
    · rename_i hrows
      rw [hrows] at hlen
      cases hlen
    · rename_i hrows
      rw [hrows] at hlen
      cases hlen with
      | step hlen => cases hlen
    · exact Or.inr (Or.inr ⟨⟨_, rfl⟩, h⟩)

theorem getByPrefix_eq_some : db.getByPrefix p = .ok (some m) ↔ db.Only (Reads p) m := by
  rcases db.getByPrefix_cases p with ⟨hp, hnone⟩ | ⟨m', hp, honly⟩ | ⟨⟨e, hp⟩, hseveral⟩
  · exact iff_of_false (by simp [hp]) (not_only_of_none hnone)
  · rw [hp, Except.ok.injEq, Option.some.injEq]
    exact ⟨fun hm => hm ▸ honly, fun hm => honly.eq hm⟩
  · exact iff_of_false (by simp [hp]) (fun ho => ho.not_several hseveral)

theorem getByPrefix_eq_none : db.getByPrefix p = .ok none ↔ ∀ r ∈ db.memories, ¬ Reads p r := by
  rcases db.getByPrefix_cases p with ⟨hp, hnone⟩ | ⟨m', hp, honly⟩ | ⟨⟨e, hp⟩, hseveral⟩
  · exact iff_of_true hp hnone
  · exact iff_of_false (by simp [hp]) (fun hnone => not_only_of_none hnone honly)
  · exact iff_of_false (by simp [hp]) (fun hnone => not_several_of_none hnone hseveral)

theorem getByPrefix_eq_error : (∃ e, db.getByPrefix p = .error e) ↔ db.Several (Reads p) := by
  rcases db.getByPrefix_cases p with ⟨hp, hnone⟩ | ⟨m', hp, honly⟩ | ⟨hp, hseveral⟩
  · exact iff_of_false (by simp [hp]) (not_several_of_none hnone)
  · exact iff_of_false (by simp [hp]) honly.not_several
  · exact iff_of_true hp hseveral

theorem resolveId_of_none (h : db.get p = none) : db.resolveId p = db.getByPrefix p := by
  unfold resolveId
  rw [h]

/-! ## When the answer is the right one -/

theorem only_congr (h : ∀ r ∈ db.memories, P r ↔ Q r) : db.Only P m ↔ db.Only Q m := by
  constructor
  · rintro ⟨hm, hP, hall⟩
    exact ⟨hm, (h m hm).mp hP, fun r hr hQ => hall r hr ((h r hr).mpr hQ)⟩
  · rintro ⟨hm, hQ, hall⟩
    exact ⟨hm, (h m hm).mpr hQ, fun r hr hP => hall r hr ((h r hr).mp hP)⟩

theorem several_congr (h : ∀ r ∈ db.memories, P r ↔ Q r) : db.Several P ↔ db.Several Q := by
  constructor
  · rintro ⟨r, hr, s, hs, hne, hPr, hPs⟩
    exact ⟨r, hr, s, hs, hne, (h r hr).mp hPr, (h s hs).mp hPs⟩
  · rintro ⟨r, hr, s, hs, hne, hQr, hQs⟩
    exact ⟨r, hr, s, hs, hne, (h r hr).mpr hQr, (h s hs).mpr hQs⟩

theorem count_cases (db : Db) (P : MemoryRow → Prop) :
    (∀ r ∈ db.memories, ¬ P r) ∨ (∃ m, db.Only P m) ∨ db.Several P := by
  classical
  rcases db.filter_cases P with ⟨-, h⟩ | ⟨m, -, h⟩ | ⟨-, h⟩
  · exact Or.inl h
  · exact Or.inr (Or.inl ⟨m, h⟩)
  · exact Or.inr (Or.inr h)

/-- Two properties single out the same row, and none and several alike, when they agree on all rows or several rows have
each. -/
theorem alike_iff (db : Db) (P Q : MemoryRow → Prop) :
    ((∀ m, db.Only P m ↔ db.Only Q m) ∧ ((∀ r ∈ db.memories, ¬ P r) ↔ ∀ r ∈ db.memories, ¬ Q r) ∧
      (db.Several P ↔ db.Several Q)) ↔ (∀ r ∈ db.memories, P r ↔ Q r) ∨ db.Several P ∧ db.Several Q := by
  constructor
  · rintro ⟨honly, hnone, hseveral⟩
    rcases db.count_cases P with h | ⟨m, h⟩ | h
    · exact Or.inl fun r hr => iff_of_false (h r hr) (hnone.mp h r hr)
    · have hQ := (honly m).mp h
      refine Or.inl fun r hr => ⟨fun hP => ?_, fun hr' => ?_⟩
      · rw [h.2.2 r hr hP]
        exact hQ.2.1
      · rw [hQ.2.2 r hr hr']
        exact h.2.1
    · exact Or.inr ⟨h, hseveral.mp h⟩
  · rintro (h | ⟨hP, hQ⟩)
    · refine ⟨fun m => only_congr h, ?_, several_congr h⟩
      exact forall₂_congr fun r hr => not_congr (h r hr)
    · refine ⟨fun m => iff_of_false (fun ho => ho.not_several hP) (fun ho => ho.not_several hQ), ?_, iff_of_true hP hQ⟩
      exact iff_of_false (fun hnone => not_several_of_none hnone hP) (fun hnone => not_several_of_none hnone hQ)

/-- The answer is the right one when `LIKE` singles out the row that the start of its id does. -/
theorem namesOne_of_none (hget : db.get p = none) : db.NamesOne p ↔
    (∀ m, db.Only (Reads p) m ↔ db.Only (Starts p) m) ∧
    ((∀ r ∈ db.memories, ¬ Reads p r) ↔ ∀ r ∈ db.memories, ¬ Starts p r) ∧
    (db.Several (Reads p) ↔ db.Several (Starts p)) := by
  constructor
  · intro h
    have honly := h.only hget
    have hnone := h.absent hget
    have hseveral := h.several hget
    rw [resolveId_of_none hget] at honly hnone hseveral
    exact ⟨fun m => getByPrefix_eq_some.symm.trans (honly m), getByPrefix_eq_none.symm.trans hnone,
      getByPrefix_eq_error.symm.trans hseveral⟩
  · rintro ⟨honly, hnone, hseveral⟩
    refine ⟨fun m hm => absurd (hget.symm.trans hm) (by simp), fun _ m => ?_, fun _ => ?_, fun _ => ?_⟩
    · rw [resolveId_of_none hget]
      exact getByPrefix_eq_some.trans (honly m)
    · rw [resolveId_of_none hget]
      exact getByPrefix_eq_none.trans hnone
    · rw [resolveId_of_none hget]
      exact getByPrefix_eq_error.trans hseveral

/-- A text names one memory when it is an id, when reading it under `LIKE` makes no difference to any row, or when it is
ambiguous either way. -/
theorem namesOne_iff (db : Db) (p : String) : db.NamesOne p ↔
    (db.get p).isSome ∨ (∀ r ∈ db.memories, Reads p r ↔ Starts p r) ∨ db.Several (Reads p) ∧ db.Several (Starts p) := by
  cases hget : db.get p with
  | some m =>
    refine iff_of_true ⟨fun m' hm' => ?_, ?_, ?_, ?_⟩ (Or.inl rfl)
    · unfold resolveId
      rw [hm']
    all_goals exact fun hnone => absurd (hget.symm.trans hnone) (by simp)
  | none =>
    rw [Option.isSome_none, or_iff_right (by simp), ← db.alike_iff]
    exact namesOne_of_none hget

/-- Two memories, one with a capital letter in its id and one with a backslash. -/
def twoCases : Db :=
  { Db.empty with
    memories := ⟨⟨[(standardMemory "Abc1" "a" (.obj [])).toRow, (standardMemory "x\\%1" "b" (.obj [])).toRow],
      by decide⟩, by decide⟩ }

/-- `abc` is resolved to the memory `Abc1`, whose id does not start with it, and `x\` to none, although one id does. -/
theorem case_folded :
    (∀ r ∈ twoCases.memories, Accepts (Validate.validateId r.id)) ∧ ¬ twoCases.NamesOne "abc" ∧ ¬ twoCases.NamesOne "x\\" := by
  refine ⟨by decide, fun h => ?_, fun h => ?_⟩
  · have hfound : twoCases.resolveId "abc" = .ok (some (standardMemory "Abc1" "a" (.obj [])).toRow) := rfl
    have hstarts := ((h.only rfl _).mp hfound).2.1
    revert hstarts
    unfold Starts
    decide
  · have hstarts := (h.absent rfl).mp rfl (standardMemory "x\\%1" "b" (.obj [])).toRow
      (List.mem_cons_of_mem _ List.mem_cons_self)
    exact hstarts (List.prefix_append "x\\".toList "%1".toList)

end Db

end AiMemory
