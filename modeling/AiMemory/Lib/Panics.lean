import Mathlib.Control.Lawful

/-!
# Computations that may panic

A computation returns a value, fails with an error that its caller handles, or panics. `Returns` says that it does not panic; over a
`bind` it is decided step by step. `collapse` forgets the difference and reads a panic as an error.
-/

namespace AiMemory

/-- The text of a panic. -/
structure Panic where
  message : String
  deriving DecidableEq

/-- A computation that fails with an `ε` or panics. -/
abbrev Fallible (ε α : Type) := ExceptT ε (Except Panic) α

namespace Fallible

variable {ε α β : Type} {x : Fallible ε α} {f : α → Fallible ε β} {a : α} {message : String}

def panicWith (message : String) : Fallible ε α := ExceptT.mk (.error ⟨message⟩)

def expect (message : String) : Option α → Fallible ε α
  | some a => pure a
  | none => panicWith message

/-- The computation comes to its end, with a value or an error. -/
def Returns (x : Fallible ε α) : Prop := ∃ r, x.run = .ok r

theorem run_bind : (x >>= f).run = match x.run with
    | .error p => .error p
    | .ok (.error e) => .ok (.error e)
    | .ok (.ok a) => (f a).run := by
  show (x.run >>= ExceptT.bindCont f) = _
  cases x.run with
  | error p => rfl
  | ok r => cases r <;> rfl

@[simp] theorem run_liftM (e : Except ε α) : (liftM e : Fallible ε α).run = .ok e := rfl

@[simp] theorem liftM_ok_bind : (liftM (Except.ok a : Except ε α) >>= f : Fallible ε β) = f a := rfl

@[simp] theorem liftM_error_bind {e : ε} :
    (liftM (Except.error e : Except ε α) >>= f : Fallible ε β) = liftM (Except.error e : Except ε β) := rfl

@[simp] theorem returns_pure (a : α) : (pure a : Fallible ε α).Returns := ⟨_, rfl⟩

@[simp] theorem returns_liftM (e : Except ε α) : (liftM e : Fallible ε α).Returns := ⟨_, rfl⟩

@[simp] theorem not_returns_panicWith : ¬(panicWith message : Fallible ε α).Returns := by
  rintro ⟨r, hr⟩
  cases hr

/-- A sequence returns if its first step does and so does what follows each value of it. -/
theorem returns_bind : (x >>= f).Returns ↔ x.Returns ∧ ∀ a, x.run = .ok (.ok a) → (f a).Returns := by
  unfold Returns
  rw [run_bind]
  cases x.run with
  | error p => simp
  | ok r => cases r <;> simp

@[simp] theorem returns_liftM_bind {e : Except ε α} : (liftM e >>= f : Fallible ε β).Returns ↔ ∀ a, e = .ok a → (f a).Returns := by
  simp [returns_bind]

@[simp] theorem returns_expect_bind {o : Option α} :
    (expect message o >>= f).Returns ↔ ∃ a, o = some a ∧ (f a).Returns := by
  cases o with
  | none => simp [expect, returns_bind]
  | some a => simp [expect]

theorem returns_forM {l : List β} {f : β → Fallible ε PUnit} (h : ∀ b ∈ l, (f b).Returns) : (l.forM f).Returns := by
  induction l with
  | nil => exact returns_pure _
  | cons b l ih =>
    exact returns_bind.mpr ⟨h b List.mem_cons_self, fun _ _ => ih fun b hb => h b (List.mem_cons_of_mem _ hb)⟩

def collapse (x : Fallible String α) : Except String α :=
  match x.run with
  | .error p => .error p.message
  | .ok r => r

section Collapse

variable {x : Fallible String α} {f : α → Fallible String β}

@[simp] theorem collapse_pure (a : α) : (pure a : Fallible String α).collapse = .ok a := rfl

@[simp] theorem collapse_liftM (e : Except String α) : (liftM e : Fallible String α).collapse = e := rfl

@[simp] theorem collapse_panicWith : (panicWith message : Fallible String α).collapse = .error message := rfl

@[simp] theorem collapse_bind : (x >>= f).collapse = x.collapse >>= fun a => (f a).collapse := by
  unfold collapse
  rw [run_bind]
  cases x.run with
  | error p => rfl
  | ok r => cases r <;> rfl

end Collapse

end Fallible

end AiMemory
