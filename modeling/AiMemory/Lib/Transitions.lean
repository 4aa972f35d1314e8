import Mathlib.Data.List.Basic
import Mathlib.Tactic

/-!
# Runs of a deterministic machine

A machine is a function `step : σ → α → σ`; the run of a list of actions visits the states
`states step s as`. `Meets step C s as` says that every action of the run meets a condition on the
state before it. The rules below turn facts about one step into facts about every state of a run:
`forall_states_of_meets` when the condition keeps an invariant, and `forall_states_iff_meets` when the
condition is also necessary. `pairwise_states_iff` does the same for what later states keep of earlier
ones.
-/

namespace Machine

variable {σ α : Type*} (step : σ → α → σ)

def states (s : σ) : List α → List σ
  | [] => [s]
  | a :: as => s :: states (step s a) as

def trace (s : σ) : List α → List (σ × α)
  | [] => []
  | a :: as => (s, a) :: trace (step s a) as

/-- Every action of the run meets `C` in the state before it. -/
def Meets (C : σ → α → Prop) (s : σ) : List α → Prop
  | [] => True
  | a :: as => C s a ∧ Meets C (step s a) as

instance Meets.decidable {C : σ → α → Prop} [∀ s a, Decidable (C s a)] (s : σ) (as : List α) :
    Decidable (Meets step C s as) :=
  match as with
  | [] => isTrue trivial
  | a :: as => @instDecidableAnd _ _ _ (Meets.decidable (step s a) as)

variable {step} {s : σ} {as : List α} {C : σ → α → Prop} {Inv P : σ → Prop}

theorem mem_states_self : s ∈ states step s as := by
  cases as <;> exact List.mem_cons_self

theorem map_snd_trace (step : σ → α → σ) (s : σ) (as : List α) : (trace step s as).map Prod.snd = as := by
  induction as generalizing s with
  | nil => rfl
  | cons a as ih => rw [trace, List.map_cons, ih]

theorem pairwise_trace {R : α → α → Prop} (h : as.Pairwise R) : (trace step s as).Pairwise fun x y => R x.2 y.2 := by
  rw [← map_snd_trace step s as, List.pairwise_map] at h
  exact h

theorem snd_mem_of_mem_trace {x : σ × α} (h : x ∈ trace step s as) : x.2 ∈ as := by
  have hmem := List.mem_map_of_mem (f := Prod.snd) h
  rwa [map_snd_trace] at hmem

theorem foldl_mem_states : as.foldl step s ∈ states step s as := by
  induction as generalizing s with
  | nil => exact List.mem_singleton.mpr rfl
  | cons a as ih => exact List.mem_cons_of_mem _ ih

theorem foldl_keeps {γ : Type*} {g : σ → γ} (h : ∀ s a, g (step s a) = g s) (s : σ) (as : List α) :
    g (as.foldl step s) = g s := by
  induction as generalizing s with
  | nil => rfl
  | cons a as ih => rw [List.foldl_cons, ih, h]

theorem foldl_overwrite_idem (h : ∀ s a b, step (step s a) b = step s b) :
    as.foldl step (as.foldl step s) = as.foldl step s := by
  cases as with
  | nil => rfl
  | cons a as =>
    have hforget : step (as.foldl step (step s a)) a = step s a :=
      (foldl_keeps (g := fun x => step x a) (fun x b => h x b a) (step s a) as).trans (h s a a)
    rw [List.foldl_cons, List.foldl_cons, hforget]

theorem foldl_eq_self (h : ∀ a ∈ as, step s a = s) : as.foldl step s = s := by
  induction as with
  | nil => rfl
  | cons a as ih =>
    rw [List.foldl_cons, h a List.mem_cons_self]
    exact ih fun x hx => h x (List.mem_cons_of_mem a hx)

/-- What each step sets up for its own action, and no step undoes for another, holds at the end. -/
theorem forall_foldl {Q : σ → α → Prop} (hset : ∀ s, ∀ a ∈ as, Q (step s a) a)
    (hkeep : ∀ s, ∀ a ∈ as, ∀ b, Q s b → Q (step s a) b) : ∀ a ∈ as, Q (as.foldl step s) a := by
  suffices h : ∀ l : List α, l ⊆ as → ∀ s, (∀ a ∈ l, Q (l.foldl step s) a) ∧
      ∀ b, Q s b → Q (l.foldl step s) b from (h as (List.Subset.refl as) s).1
  intro l
  induction l with
  | nil => exact fun _ s => ⟨fun a ha => absurd ha List.not_mem_nil, fun b hb => hb⟩
  | cons a l ih =>
    intro hl s
    have ha : a ∈ as := hl List.mem_cons_self
    obtain ⟨hall, hrest⟩ := ih (fun x hx => hl (List.mem_cons_of_mem a hx)) (step s a)
    refine ⟨fun x hx => ?_, fun b hb => hrest b (hkeep s a ha b hb)⟩
    rcases List.mem_cons.mp hx with rfl | hx
    · exact hrest x (hset s x ha)
    · exact hall x hx

theorem foldl_induct (h : ∀ s, ∀ a ∈ as, P s → P (step s a)) (hs : P s) : P (as.foldl step s) := by
  induction as generalizing s with
  | nil => exact hs
  | cons a as ih =>
    exact ih (fun s x hx => h s x (List.mem_cons_of_mem a hx)) (h s a List.mem_cons_self hs)

theorem meets_of_induct (hC : ∀ s, ∀ a ∈ as, P s → C s a) (h : ∀ s, ∀ a ∈ as, P s → P (step s a)) (hs : P s) :
    Meets step C s as := by
  induction as generalizing s with
  | nil => trivial
  | cons a as ih =>
    exact ⟨hC s a List.mem_cons_self hs, ih (fun s x hx => hC s x (List.mem_cons_of_mem a hx))
      (fun s x hx => h s x (List.mem_cons_of_mem a hx)) (h s a List.mem_cons_self hs)⟩

/-- A part of the state that some actions write and the others keep: the run of those actions on it. -/
theorem foldl_view {γ : Type*} (view : σ → γ) (p : α → Bool) (upd : γ → α → γ)
    (hstep : ∀ s, ∀ a ∈ as, P s → P (step s a))
    (h : ∀ s, ∀ a ∈ as, P s → view (step s a) = if p a then upd (view s) a else view s) (hs : P s) :
    view (as.foldl step s) = (as.filter p).foldl upd (view s) := by
  induction as generalizing s with
  | nil => rfl
  | cons a as ih =>
    rw [List.foldl_cons, ih (fun s x hx => hstep s x (List.mem_cons_of_mem a hx))
      (fun s x hx => h s x (List.mem_cons_of_mem a hx)) (hstep s a List.mem_cons_self hs),
      h s a List.mem_cons_self hs]
    by_cases hp : p a
    · rw [if_pos hp, List.filter_cons_of_pos hp, List.foldl_cons]
    · rw [if_neg hp, List.filter_cons_of_neg hp]

theorem mem_states_iff {t : σ} : t ∈ states step s as ↔ ∃ bs, bs <+: as ∧ t = bs.foldl step s := by
  induction as generalizing s with
  | nil =>
    simp only [states, List.mem_singleton, List.prefix_nil]
    exact ⟨fun h => ⟨[], rfl, h⟩, fun ⟨bs, hb, h⟩ => by subst hb; exact h⟩
  | cons a as ih =>
    rw [states, List.mem_cons, ih]
    constructor
    · rintro (rfl | ⟨bs, hb, rfl⟩)
      · exact ⟨[], List.nil_prefix, rfl⟩
      · exact ⟨a :: bs, List.cons_prefix_cons.mpr ⟨rfl, hb⟩, rfl⟩
    · rintro ⟨bs, hb, rfl⟩
      cases bs with
      | nil => exact Or.inl rfl
      | cons b bs =>
        obtain ⟨rfl, hbs⟩ := List.cons_prefix_cons.mp hb
        exact Or.inr ⟨bs, hbs, rfl⟩

theorem forall_states_of_meets (hstep : ∀ s a, Inv s → C s a → Inv (step s a)) (hs : Inv s)
    (h : Meets step C s as) : ∀ t ∈ states step s as, Inv t := by
  induction as generalizing s with
  | nil =>
    intro t ht
    rwa [List.mem_singleton.mp ht]
  | cons a as ih =>
    intro t ht
    rcases List.mem_cons.mp ht with rfl | ht
    · exact hs
    · exact ih (hstep s a hs h.1) h.2 t ht

/-- A step condition that keeps an invariant, and whose failure breaks the property `P` at once, holds
all along a run exactly when `P` does. -/
theorem forall_states_iff_meets (hP : ∀ s, Inv s → P s)
    (hstep : ∀ s a, Inv s → C s a → Inv (step s a))
    (hbreak : ∀ s a, Inv s → ¬C s a → ¬P (step s a)) (hs : Inv s) :
    (∀ t ∈ states step s as, P t) ↔ Meets step C s as := by
  refine ⟨fun h => ?_, fun h t ht => hP t (forall_states_of_meets hstep hs h t ht)⟩
  induction as generalizing s with
  | nil => trivial
  | cons a as ih =>
    have hc : C s a := by
      by_contra hc
      exact hbreak s a hs hc (h _ (List.mem_cons_of_mem _ mem_states_self))
    exact ⟨hc, ih (hstep s a hs hc) fun t ht => h t (List.mem_cons_of_mem _ ht)⟩

theorem forall_states_iff_meets_of_legal {L : σ → α → Prop} (hstep : ∀ s a, Inv s → L s a → C s a → Inv (step s a))
    (hbreak : ∀ s a, Inv s → L s a → ¬C s a → ¬Inv (step s a)) (hs : Inv s) (hL : Meets step L s as) :
    (∀ t ∈ states step s as, Inv t) ↔ Meets step C s as := by
  induction as generalizing s with
  | nil => exact iff_of_true (fun t ht => List.mem_singleton.mp ht ▸ hs) trivial
  | cons a as ih =>
    rw [states, List.forall_mem_cons, and_iff_right hs, Meets]
    by_cases hc : C s a
    · rw [and_iff_right hc, ih (hstep s a hs hL.1 hc) hL.2]
    · exact iff_of_false (fun h => hbreak s a hs hL.1 hc (h _ mem_states_self)) fun h => hc h.1

/-- A property that each step keeps exactly under its condition holds at the end exactly when it held at the start and
every step met its condition. -/
theorem foldl_iff_meets (hInv : ∀ t ∈ states step s as, Inv t)
    (h : ∀ s a, Inv s → (P (step s a) ↔ P s ∧ C s a)) : P (as.foldl step s) ↔ P s ∧ Meets step C s as := by
  induction as generalizing s with
  | nil => exact (and_iff_left trivial).symm
  | cons a as ih =>
    rw [List.foldl_cons, ih fun t ht => hInv t (List.mem_cons_of_mem s ht), h s a (hInv s mem_states_self), and_assoc]
    rfl

theorem meets_true : Meets step (fun _ _ => True) s as := by
  induction as generalizing s with
  | nil => trivial
  | cons a as ih => exact ⟨trivial, ih⟩

theorem meets_append {bs : List α} : Meets step C s (as ++ bs) ↔ Meets step C s as ∧ Meets step C (as.foldl step s) bs := by
  induction as generalizing s with
  | nil => exact (and_iff_right trivial).symm
  | cons a as ih => exact (and_congr_right fun _ => ih).trans and_assoc.symm

variable {D : σ → α → Prop}

theorem meets_mono (h : ∀ s a, C s a → D s a) (hC : Meets step C s as) :
    Meets step D s as := by
  induction as generalizing s with
  | nil => trivial
  | cons a as ih => exact ⟨h s a hC.1, ih hC.2⟩

theorem meets_of_meets (hstep : ∀ s a, Inv s → C s a → D s a ∧ Inv (step s a)) (hs : Inv s)
    (h : Meets step C s as) : Meets step D s as := by
  induction as generalizing s with
  | nil => trivial
  | cons a as ih =>
    obtain ⟨hD, hInv⟩ := hstep s a hs h.1
    exact ⟨hD, ih hInv h.2⟩

theorem meets_and {G : σ → Prop} (hG : ∀ t ∈ states step s as, G t) (h : Meets step C s as) :
    Meets step (fun s a => G s ∧ C s a) s as := by
  induction as generalizing s with
  | nil => trivial
  | cons a as ih => exact ⟨⟨hG s mem_states_self, h.1⟩, ih (fun t ht => hG t (List.mem_cons_of_mem s ht)) h.2⟩

theorem meets_both (hC : Meets step C s as) (hD : Meets step D s as) :
    Meets step (fun s a => C s a ∧ D s a) s as := by
  induction as generalizing s with
  | nil => trivial
  | cons a as ih => exact ⟨⟨hC.1, hD.1⟩, ih hC.2 hD.2⟩

theorem meets_congr (h : ∀ s a, C s a ↔ D s a) :
    Meets step C s as ↔ Meets step D s as := by
  induction as generalizing s with
  | nil => exact Iff.rfl
  | cons a as ih => exact and_congr (h s a) ih

/-- A transitive relation holds between any two states of a run, in their order, exactly when it holds
across every step. -/
theorem pairwise_states_iff {R : σ → σ → Prop} (htrans : ∀ s t u, R s t → R t u → R s u) :
    (states step s as).Pairwise R ↔ Meets step (fun s a => R s (step s a)) s as := by
  induction as generalizing s with
  | nil => exact iff_of_true (List.pairwise_singleton R s) trivial
  | cons a as ih =>
    rw [states, List.pairwise_cons, ih]
    refine ⟨fun h => ⟨h.1 _ mem_states_self, h.2⟩, fun h => ⟨fun t ht => ?_, h.2⟩⟩
    have hpair : (states step (step s a) as).Pairwise R := ih.mpr h.2
    cases as with
    | nil => exact List.mem_singleton.mp ht ▸ h.1
    | cons b bs =>
      rw [states, List.pairwise_cons] at hpair
      rcases List.mem_cons.mp ht with rfl | ht
      · exact h.1
      · exact htrans _ _ _ h.1 (hpair.1 t ht)

end Machine
