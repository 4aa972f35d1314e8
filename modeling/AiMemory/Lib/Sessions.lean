import Mathlib.Data.List.Basic
import Mathlib.Tactic

/-!
# Statements that fail

Programs of SQL statements over one connection, each of which the database may answer with an error. A statement that fails has no
effect of its own; some errors also roll back the transaction around it, and the statements after it then run on their own.

`transaction` is `BEGIN`, a body, and `COMMIT` or `ROLLBACK`. A `ROLLBACK` fails only when there is nothing left to roll back; a
`COMMIT` that fails leaves the transaction open, unless the error has rolled it back. `transaction_error_iff` says in which
failed transactions the connection is left with something else than it had: those whose body went through and whose `COMMIT` did
not.
-/

namespace Sessions

variable {σ α β : Type}

/-- An error of the database: its message, and whether it rolls back the transaction. -/
structure Fault where
  message : String
  rollsBack : Bool
  deriving DecidableEq

/-- The fault leaves a transaction open. -/
def Stuck (fault : Option Fault) : Prop := ∃ e, fault = some e ∧ e.rollsBack = false

/-- The fault takes the transaction with it. -/
def Lost (fault : Option Fault) : Prop := ∃ e, fault = some e ∧ e.rollsBack = true

instance (fault : Option Fault) : Decidable (Stuck fault) :=
  match fault with
  | none => isFalse nofun
  | some e => decidable_of_iff (e.rollsBack = false) ⟨fun h => ⟨e, rfl, h⟩, fun ⟨_, h, hb⟩ => by cases h; exact hb⟩

instance (fault : Option Fault) : Decidable (Lost fault) :=
  match fault with
  | none => isFalse nofun
  | some e => decidable_of_iff (e.rollsBack = true) ⟨fun h => ⟨e, rfl, h⟩, fun ⟨_, h, hb⟩ => by cases h; exact hb⟩

/-- What a connection reads, and what it goes back to when its transaction is rolled back. -/
structure Session (σ : Type) where
  now : σ
  saved : Option σ

def Session.rollback (s : Session σ) : Session σ := ⟨s.saved.getD s.now, none⟩

/-- A program over a connection. -/
def Sql (σ α : Type) := Session σ → Except String α × Session σ

instance : Monad (Sql σ) where
  pure a := fun s => (.ok a, s)
  bind p k := fun s => match p s with
    | (.ok a, s') => k a s'
    | (.error e, s') => (.error e, s')

def exec (fault : Option Fault) (f : σ → Except String (α × σ)) : Sql σ α := fun s =>
  match fault with
  | some e => (.error e.message, if e.rollsBack then s.rollback else s)
  | none =>
    match f s.now with
    | .ok (a, t) => (.ok a, { s with now := t })
    | .error e => (.error e, s)

def read (fault : Option Fault) (f : σ → α) : Sql σ α := exec fault fun t => .ok (f t, t)

def write (fault : Option Fault) (f : σ → σ) : Sql σ Unit := exec fault fun t => .ok ((), f t)

def bail (message : String) : Sql σ α := fun s => (.error message, s)

def orDefault (p : Sql σ α) (a : α) : Sql σ α := fun s =>
  match p s with
  | (.ok b, s') => (.ok b, s')
  | (.error _, s') => (.ok a, s')

def context (message : String) (p : Sql σ α) : Sql σ α := fun s =>
  match p s with
  | (.ok a, s') => (.ok a, s')
  | (.error _, s') => (.error message, s')

def begin (fault : Option Fault) : Sql σ Unit := fun s =>
  match fault, s.saved with
  | some e, _ => (.error e.message, if e.rollsBack then s.rollback else s)
  | none, some _ => (.error "cannot start a transaction within a transaction", s)
  | none, none => (.ok (), ⟨s.now, some s.now⟩)

def commit (fault : Option Fault) : Sql σ Unit := fun s =>
  match fault, s.saved with
  | some e, _ => (.error e.message, if e.rollsBack then s.rollback else s)
  | none, none => (.error "cannot commit - no transaction is active", s)
  | none, some _ => (.ok (), ⟨s.now, none⟩)

/-- `BEGIN`, a body, and `COMMIT` where it succeeds, else `ROLLBACK`. -/
def transaction (onBegin onCommit : Option Fault) (body : Sql σ α) : Sql σ α := do
  begin onBegin
  fun s => match body s with
    | (.ok a, s') => (do commit onCommit; pure a : Sql σ α) s'
    | (.error e, s') => (.error e, s'.rollback)

def outcome (p : Sql σ α) : Sql σ Unit := fun s => ((p s).1.map fun _ => (), (p s).2)

/-- The program returned an error. -/
def Failed (result : Except String α × Session σ) : Prop := ∃ e, result.1 = .error e

/-- An error leaves the connection with what it had, as far as `R` can tell. -/
def Unchanged (R : σ → σ → Prop) (p : Sql σ α) (t : σ) : Prop := Failed (p ⟨t, none⟩) → R t (p ⟨t, none⟩).2.now

variable {R : σ → σ → Prop}

theorem unchanged_outcome_iff {p : Sql σ α} {t : σ} : Unchanged R (outcome p) t ↔ Unchanged R p t := by
  unfold Unchanged Failed outcome
  cases (p ⟨t, none⟩).1 with
  | ok a => exact iff_of_true (fun ⟨_, h⟩ => nomatch h) fun ⟨_, h⟩ => nomatch h
  | error e => exact ⟨fun h _ => h ⟨e, rfl⟩, fun h _ => h ⟨e, rfl⟩⟩

theorem unchanged_of_error {p : Sql σ α} {t u : σ} {saved : Option σ} {e : String}
    (h : p ⟨t, none⟩ = (.error e, ⟨u, saved⟩)) : Unchanged R p t ↔ R t u := by
  unfold Unchanged
  rw [h]
  exact ⟨fun hr => hr ⟨e, rfl⟩, fun hr _ => hr⟩

theorem unchanged_of_ok {p : Sql σ α} {t : σ} {a : α} {s : Session σ} (h : p ⟨t, none⟩ = (.ok a, s)) :
    Unchanged R p t := by
  rintro ⟨e, he⟩
  rw [h] at he
  cases he

/-! ## What goes through -/

section Through

variable {p : Sql σ α} {k : α → Sql σ β} {s s' s'' : Session σ} {a : α} {b : β} {fault : Option Fault} {t : σ}

@[simp] theorem pure_eq_ok {a' : α} : (pure a : Sql σ α) s = (.ok a', s') ↔ a = a' ∧ s = s' := by
  show (Except.ok a, s) = (Except.ok a', s') ↔ _
  rw [Prod.mk.injEq, Except.ok.injEq]

theorem bind_eq_ok : (p >>= k) s = (.ok b, s'') ↔ ∃ a s', p s = (.ok a, s') ∧ k a s' = (.ok b, s'') := by
  show (match p s with | (.ok a, s') => k a s' | (.error e, s') => (.error e, s')) = _ ↔ _
  cases hp : p s with
  | mk r s' =>
    cases r with
    | ok a => exact ⟨fun h => ⟨a, s', rfl, h⟩, fun ⟨_, _, h, hk⟩ => by cases h; exact hk⟩
    | error e => exact iff_of_false nofun fun ⟨_, _, h, _⟩ => by cases h

theorem bind_of_ok (h : p s = (.ok a, s')) : (p >>= k) s = k a s' := by
  show (match p s with | (.ok a, s') => k a s' | (.error e, s') => (.error e, s')) = _
  rw [h]

theorem bind_of_error {e : String} (h : p s = (.error e, s')) : (p >>= k) s = (.error e, s') := by
  show (match p s with | (.ok a, s') => k a s' | (.error e, s') => (.error e, s')) = _
  rw [h]

theorem unchanged_bind {R : σ → σ → Prop} (h : p ⟨t, none⟩ = (.ok a, ⟨t, none⟩)) : Unchanged R (p >>= k) t ↔ Unchanged R (k a) t := by
  unfold Unchanged
  rw [bind_of_ok h]

variable {f : σ → Except String (α × σ)}

theorem exec_eq_ok :
    exec fault f s = (.ok a, s') ↔ fault = none ∧ ∃ t, f s.now = .ok (a, t) ∧ s' = { s with now := t } := by
  unfold exec
  cases fault with
  | some e => exact iff_of_false nofun nofun
  | none =>
    cases hf : f s.now with
    | error e => exact iff_of_false nofun fun ⟨_, _, h, _⟩ => by cases h
    | ok x =>
      simp only [Prod.mk.injEq, Except.ok.injEq, true_and]
      exact ⟨fun ⟨ha, hs⟩ => ⟨x.2, Prod.ext ha rfl, hs.symm⟩, fun ⟨_, h, hs⟩ => by cases h; exact ⟨rfl, hs.symm⟩⟩

theorem read_eq_ok {f : σ → α} : read fault f s = (.ok a, s') ↔ fault = none ∧ a = f s.now ∧ s' = s := by
  unfold read
  rw [exec_eq_ok]
  refine and_congr_right fun _ => ⟨fun ⟨t, h, hs⟩ => ?_, fun ⟨ha, hs⟩ => ⟨s.now, by rw [ha], hs⟩⟩
  cases h
  exact ⟨rfl, hs⟩

theorem write_eq_ok {f : σ → σ} {u : Unit} : write fault f s = (.ok u, s') ↔ fault = none ∧ s' = { s with now := f s.now } := by
  unfold write
  rw [exec_eq_ok]
  refine and_congr_right fun _ => ⟨fun ⟨t, h, hs⟩ => ?_, fun hs => ⟨_, rfl, hs⟩⟩
  cases h
  exact hs

theorem write_of_none {f : σ → σ} (h : fault = none) : write fault f s = (.ok (), { s with now := f s.now }) :=
  write_eq_ok.mpr ⟨h, rfl⟩

theorem exec_of_error {e : String} (h : fault = none) (hf : f s.now = .error e) :
    exec fault f s = (.error e, s) := by
  subst h
  unfold exec
  simp only [hf]

theorem context_eq_ok {message : String} : context message p s = (.ok a, s') ↔ p s = (.ok a, s') := by
  unfold context
  cases hp : p s with
  | mk r t =>
    cases r with
    | ok b => exact Iff.rfl
    | error e => exact iff_of_false nofun nofun

def afterFault (fault : Option Fault) (s : Session σ) : Session σ :=
  if Lost fault then s.rollback else s

theorem exec_of_fault (h : fault ≠ none) :
    ∃ e, exec fault f s = (.error e, afterFault fault s) := by
  cases fault with
  | none => exact absurd rfl h
  | some e =>
    refine ⟨e.message, Prod.ext rfl ?_⟩
    obtain ⟨message, rollsBack⟩ := e
    cases rollsBack <;> rfl

@[simp] theorem afterFault_none : afterFault none s = s := rfl

@[simp] theorem afterFault_of_saved_none : afterFault fault ⟨t, none⟩ = ⟨t, none⟩ := by
  unfold afterFault
  split_ifs <;> rfl

/-- Outside a transaction a statement that fails changes nothing. -/
theorem exec_alone (h : fault ≠ none) (t : σ) :
    ∃ e, exec fault f ⟨t, none⟩ = (.error e, ⟨t, none⟩) := by
  obtain ⟨e, he⟩ := exec_of_fault (s := ⟨t, none⟩) (f := f) h
  rw [afterFault_of_saved_none] at he
  exact ⟨e, he⟩

theorem write_alone {f : σ → σ} (h : fault ≠ none) (t : σ) : ∃ e, write fault f ⟨t, none⟩ = (.error e, ⟨t, none⟩) :=
  exec_alone h t

/-- A failed read at the start changes nothing. -/
theorem unchanged_read_iff {R : σ → σ → Prop} (hrefl : ∀ t, R t t) {f : σ → α} :
    Unchanged R (read fault f >>= k) t ↔ (fault = none → Unchanged R (k (f t)) t) := by
  by_cases h : fault = none
  · rw [unchanged_bind (read_eq_ok.mpr ⟨h, rfl, rfl⟩)]
    exact ⟨fun hk _ => hk, fun hk => hk h⟩
  · obtain ⟨e, he⟩ := exec_alone (f := fun t => .ok (f t, t)) h t
    exact iff_of_true ((unchanged_of_error (bind_of_error he)).mpr (hrefl t)) fun hn => absurd hn h

theorem orDefault_read {f : σ → α} {d : α} : orDefault (read fault f) d s =
    (.ok (if fault = none then f s.now else d), afterFault fault s) := by
  cases fault with
  | none => rfl
  | some e =>
    obtain ⟨message, rollsBack⟩ := e
    cases rollsBack <;> rfl

theorem orDefault_write {f : σ → σ} : orDefault (write fault f) () s =
    (.ok (), if fault = none then { s with now := f s.now } else afterFault fault s) := by
  cases fault with
  | none => rfl
  | some e =>
    obtain ⟨message, rollsBack⟩ := e
    cases rollsBack <;> rfl

end Through

/-! ## Inside a transaction -/

/-- The connection is in the transaction that began at `t`, or it was rolled back. -/
def Within (t : σ) (s : Session σ) : Prop := s.saved = some t ∨ s = ⟨t, none⟩

/-- A program that stops at its first error: it leaves the transaction open, unless the error has rolled it back. -/
def Stops (t : σ) (p : Sql σ α) : Prop := ∀ s, s.saved = some t →
  (∀ a s', p s = (.ok a, s') → s'.saved = some t) ∧ ∀ e s', p s = (.error e, s') → Within t s'

section Rules

variable {t : σ} {p : Sql σ α} {k : α → Sql σ β} {s : Session σ} {fault : Option Fault}

theorem rollback_of_within (h : Within t s) : s.rollback = ⟨t, none⟩ := by
  rcases h with h | rfl
  · unfold Session.rollback
    rw [h]
    rfl
  · rfl

theorem within_of_stops (h : Stops t p) (hs : s.saved = some t) : Within t (p s).2 := by
  obtain ⟨hok, herror⟩ := h s hs
  cases hp : p s with
  | mk r s' =>
    cases r with
    | ok a => exact Or.inl (hok a s' hp)
    | error e => exact herror e s' hp

theorem stops_pure (a : α) : Stops t (pure a : Sql σ α) := fun _ hs =>
  ⟨fun _ _ h => (pure_eq_ok.mp h).2 ▸ hs, nofun⟩

theorem stops_bail (e : String) : Stops t (bail e : Sql σ α) := fun _ hs =>
  ⟨nofun, fun _ _ h => by cases h; exact Or.inl hs⟩

theorem stops_exec (fault : Option Fault) (f : σ → Except String (α × σ)) : Stops t (exec fault f) := by
  intro s hs
  refine ⟨fun a s' h => ?_, fun e s' h => ?_⟩
  · obtain ⟨-, u, -, rfl⟩ := exec_eq_ok.mp h
    exact hs
  · unfold exec at h
    cases fault with
    | some e =>
      cases h
      split_ifs
      · exact Or.inr (rollback_of_within (Or.inl hs))
      · exact Or.inl hs
    | none =>
      cases hf : f s.now with
      | ok x => rw [hf] at h; cases h
      | error e => rw [hf] at h; cases h; exact Or.inl hs

theorem stops_read (fault : Option Fault) (f : σ → α) : Stops t (read fault f) := stops_exec _ _

theorem stops_write (fault : Option Fault) (f : σ → σ) : Stops t (write fault f) := stops_exec _ _

theorem stops_bind (hp : Stops t p) (hk : ∀ a, Stops t (k a)) : Stops t (p >>= k) := by
  intro s hs
  obtain ⟨hok, herror⟩ := hp s hs
  show (∀ b s', (match p s with | (.ok a, s') => k a s' | (.error e, s') => (.error e, s')) = (.ok b, s') → _) ∧
    ∀ e s', (match p s with | (.ok a, s') => k a s' | (.error e, s') => (.error e, s')) = (.error e, s') → _
  cases hps : p s with
  | mk r s' =>
    cases r with
    | ok a => exact hk a s' (hok a s' hps)
    | error e => exact ⟨nofun, fun e' s'' h => by cases h; exact herror e s' hps⟩

end Rules

section Ends

variable {t u : σ} {onBegin onCommit : Option Fault} {body : Sql σ α} {a : α} {e : String} {s : Session σ}

theorem transaction_of_begin_fault (f : Fault) (onCommit : Option Fault) (body : Sql σ α) (t : σ) :
    transaction (some f) onCommit body ⟨t, none⟩ = (.error f.message, ⟨t, none⟩) := by
  obtain ⟨message, rollsBack⟩ := f
  cases rollsBack <;> rfl

theorem transaction_of_ok (h : body ⟨t, some t⟩ = (.ok a, s)) : transaction none onCommit body ⟨t, none⟩ =
    (do commit onCommit; pure a : Sql σ α) s := by
  show (match body ⟨t, some t⟩ with
    | (.ok a, s') => (do commit onCommit; pure a : Sql σ α) s'
    | (.error e, s') => (.error e, s'.rollback)) = _
  rw [h]

theorem transaction_of_error (h : body ⟨t, some t⟩ = (.error e, s)) :
    transaction none onCommit body ⟨t, none⟩ = (.error e, s.rollback) := by
  show (match body ⟨t, some t⟩ with
    | (.ok a, s') => (do commit onCommit; pure a : Sql σ α) s'
    | (.error e, s') => (.error e, s'.rollback)) = _
  rw [h]

/-- A `COMMIT` without a transaction fails. -/
theorem commit_of_saved_none (onCommit : Option Fault) (a : α) (u : σ) :
    ∃ e, (do commit onCommit; pure a : Sql σ α) ⟨u, none⟩ = (.error e, ⟨u, none⟩) := by
  cases onCommit with
  | none => exact ⟨_, rfl⟩
  | some f =>
    obtain ⟨message, rollsBack⟩ := f
    cases rollsBack <;> exact ⟨_, rfl⟩

/-- A failed transaction leaves something behind when its body went through and its `COMMIT` left it open. -/
theorem transaction_unchanged_iff {R : σ → σ → Prop} (hrefl : ∀ t, R t t) (hbody : Within t (body ⟨t, some t⟩).2) :
    Unchanged R (transaction onBegin onCommit body) t ↔
      ¬(onBegin = none ∧ Stuck onCommit ∧ ∃ a u, body ⟨t, some t⟩ = (.ok a, ⟨u, some t⟩) ∧ ¬R t u) := by
  unfold Unchanged
  cases onBegin with
  | some f =>
    rw [transaction_of_begin_fault]
    exact iff_of_true (fun _ => hrefl t) (fun h => nomatch h.1)
  | none =>
    cases hp : body ⟨t, some t⟩ with
    | mk r s =>
      rw [hp] at hbody
      cases r with
      | error e =>
        rw [transaction_of_error hp, rollback_of_within hbody]
        exact iff_of_true (fun _ => hrefl t) fun ⟨_, _, _, _, h, _⟩ => nomatch h
      | ok a =>
        rw [transaction_of_ok hp]
        rcases hbody with hsaved | rfl
        · obtain ⟨u, saved⟩ := s
          cases hsaved
          cases onCommit with
          | none => exact iff_of_true (fun ⟨_, h⟩ => nomatch h) fun ⟨_, ⟨_, h, _⟩, _⟩ => nomatch h
          | some f =>
            obtain ⟨message, rollsBack⟩ := f
            cases rollsBack with
            | true => exact iff_of_true (fun _ => hrefl t) fun ⟨_, ⟨_, h, hb⟩, _⟩ => by cases h; cases hb
            | false =>
              refine ⟨fun h ⟨_, _, a', u', heq, hne⟩ => ?_, fun h _ => ?_⟩
              · cases heq
                exact hne (h ⟨_, rfl⟩)
              · exact Classical.not_not.mp fun hne => h ⟨rfl, ⟨_, rfl, rfl⟩, a, u, rfl, hne⟩
        · obtain ⟨e, he⟩ := commit_of_saved_none onCommit a t
          rw [he]
          exact iff_of_true (fun _ => hrefl t) fun ⟨_, _, _, _, h, _⟩ => nomatch h

theorem unchanged_of_lost {R : σ → σ → Prop} (h : (body ⟨t, some t⟩).2 = ⟨u, none⟩) :
    Unchanged R (transaction none onCommit body) t ↔ R t u := by
  cases hp : body ⟨t, some t⟩ with
  | mk r s =>
    rw [hp] at h
    cases h
    cases r with
    | error e => exact unchanged_of_error (transaction_of_error hp)
    | ok a =>
      obtain ⟨e, he⟩ := commit_of_saved_none onCommit a u
      exact unchanged_of_error ((transaction_of_ok hp).trans he)

end Ends

/-! ## Loops -/

def each (p : ℕ → α → Sql σ Unit) : ℕ → List α → Sql σ Unit
  | _, [] => pure ()
  | k, a :: as => do
    p k a
    each p (k + 1) as

variable {p : ℕ → α → Sql σ Unit}

theorem stops_each {t : σ} (h : ∀ k a, Stops t (p k a)) (k : ℕ) (as : List α) : Stops t (each p k as) := by
  induction as generalizing k with
  | nil => exact stops_pure ()
  | cons a as ih => exact stops_bind (h k a) fun _ => ih (k + 1)

theorem each_eq_ok {C : ℕ → Prop} {f : σ → α → σ}
    (hp : ∀ k a s s', p k a s = (.ok (), s') ↔ C k ∧ s' = { s with now := f s.now a }) {k : ℕ} {as : List α} {s s' : Session σ} :
    each p k as s = (.ok (), s') ↔ (∀ i < as.length, C (k + i)) ∧ s' = { s with now := as.foldl f s.now } := by
  induction as generalizing k s with
  | nil =>
    show (pure () : Sql σ Unit) s = _ ↔ _
    rw [pure_eq_ok]
    exact ⟨fun ⟨_, h⟩ => ⟨nofun, h.symm⟩, fun h => ⟨rfl, h.2.symm⟩⟩
  | cons a as ih =>
    show (p k a >>= fun _ => each p (k + 1) as) s = _ ↔ _
    rw [bind_eq_ok]
    constructor
    · rintro ⟨u, t, hpk, hrest⟩
      obtain ⟨hk, rfl⟩ := (hp k a s t).mp hpk
      obtain ⟨hall, rfl⟩ := ih.mp hrest
      refine ⟨fun i hi => ?_, rfl⟩
      cases i with
      | zero => exact hk
      | succ i => exact (show k + 1 + i = k + (i + 1) by omega) ▸ hall i (Nat.lt_of_succ_lt_succ hi)
    · rintro ⟨hall, rfl⟩
      refine ⟨(), _, (hp k a s _).mpr ⟨hall 0 (Nat.zero_lt_succ _), rfl⟩, ih.mpr ⟨fun i hi => ?_, rfl⟩⟩
      exact (show k + (i + 1) = k + 1 + i by omega) ▸ hall (i + 1) (Nat.succ_lt_succ hi)

/-- Outside a transaction a loop stops at the first entry that fails, and keeps what it did before. -/
theorem each_cases {C : ℕ → α → Prop} {f : σ → α → σ}
    (hok : ∀ k a t, C k a → p k a ⟨t, none⟩ = (.ok (), ⟨f t a, none⟩))
    (herror : ∀ k a t, ¬C k a → ∃ e, p k a ⟨t, none⟩ = (.error e, ⟨t, none⟩)) (k : ℕ) (as : List α) (t : σ) :
    ((∀ i a, as[i]? = some a → C (k + i) a) ∧ each p k as ⟨t, none⟩ = (.ok (), ⟨as.foldl f t, none⟩)) ∨
    ∃ i a, as[i]? = some a ∧ ¬C (k + i) a ∧ (∀ j < i, ∀ b, as[j]? = some b → C (k + j) b) ∧
      ∃ e, each p k as ⟨t, none⟩ = (.error e, ⟨(as.take i).foldl f t, none⟩) := by
  induction as generalizing k t with
  | nil => exact Or.inl ⟨nofun, rfl⟩
  | cons a as ih =>
    by_cases hC : C k a
    · have hstep : each p k (a :: as) ⟨t, none⟩ = each p (k + 1) as ⟨f t a, none⟩ := bind_of_ok (hok k a t hC)
      have hshift : ∀ i, k + 1 + i = k + (i + 1) := fun i => by omega
      rcases ih (k + 1) (f t a) with ⟨hall, hrun⟩ | ⟨i, b, hb, hfail, hbefore, e, hrun⟩
      · refine Or.inl ⟨fun i b hb => ?_, hstep.trans hrun⟩
        cases i with
        | zero => cases hb; exact hC
        | succ i => exact hshift i ▸ hall i b hb
      · refine Or.inr ⟨i + 1, b, hb, hshift i ▸ hfail, fun j hj c hc => ?_, e, hstep.trans hrun⟩
        cases j with
        | zero => cases hc; exact hC
        | succ j => exact hshift j ▸ hbefore j (Nat.lt_of_succ_lt_succ hj) c hc
    · obtain ⟨e, he⟩ := herror k a t hC
      exact Or.inr ⟨0, a, rfl, hC, nofun, e, bind_of_error he⟩

end Sessions
