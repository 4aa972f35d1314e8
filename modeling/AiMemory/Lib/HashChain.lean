import Mathlib.Data.List.Basic
import Mathlib.Tactic

/-!
# Hash chains

A chain is a list of records, each of which carries the digest `self` of itself and the digest `prev` of the record
before it; the first carries `head`. `tip` is the digest the next record has to carry.

Where digests tell records apart and none of them is `head`, the tip determines the chain (`eq_of_tip_eq`).
-/

namespace HashChain

variable {ρ δ : Type*} (prev self : ρ → δ)

/-- Every record carries the digest of the one before it, the first one `h`. -/
def Linked (h : δ) : List ρ → Prop
  | [] => True
  | r :: rs => prev r = h ∧ Linked (self r) rs

/-- The digest of the last record, or `h`. -/
def tip (h : δ) (rs : List ρ) : δ := rs.foldl (fun _ r => self r) h

instance Linked.decidable [DecidableEq δ] (h : δ) (rs : List ρ) : Decidable (Linked prev self h rs) :=
  match rs with
  | [] => isTrue trivial
  | r :: rs => @instDecidableAnd _ _ _ (Linked.decidable (self r) rs)

variable {prev self} {head h : δ} {r : ρ} {rs ss : List ρ}

@[simp] theorem linked_nil : Linked prev self h [] ↔ True := Iff.rfl

@[simp] theorem linked_cons : Linked prev self h (r :: rs) ↔ prev r = h ∧ Linked prev self (self r) rs := Iff.rfl

@[simp] theorem tip_nil : tip self h [] = h := rfl

@[simp] theorem tip_cons : tip self h (r :: rs) = tip self (self r) rs := rfl

@[simp] theorem tip_concat : tip self h (rs ++ [r]) = self r := by
  rw [tip, List.foldl_append, List.foldl_cons, List.foldl_nil]

theorem tip_eq : tip self h rs = (rs.getLast?.map self).getD h := by
  induction rs using List.reverseRecOn with
  | nil => rfl
  | append_singleton rs r => simp

theorem linked_append : Linked prev self h (rs ++ ss) ↔ Linked prev self h rs ∧ Linked prev self (tip self h rs) ss := by
  induction rs generalizing h with
  | nil => simp
  | cons r rs ih => rw [List.cons_append, linked_cons, linked_cons, ih, tip_cons, and_assoc]

theorem linked_concat : Linked prev self h (rs ++ [r]) ↔ Linked prev self h rs ∧ prev r = tip self h rs := by
  rw [linked_append, linked_cons, linked_nil, and_true]

theorem eq_nil_of_tip_eq (hhead : ∀ r ∈ rs, self r ≠ head) (htip : tip self head rs = head) : rs = [] := by
  cases rs using List.reverseRecOn with
  | nil => rfl
  | append_singleton rs r =>
    rw [tip_concat] at htip
    exact absurd htip (hhead r (List.mem_append_right rs (List.mem_singleton_self r)))

theorem eq_of_tip_eq (hinj : ∀ r ∈ rs, ∀ s ∈ ss, self r = self s → r = s) (hrs : ∀ r ∈ rs, self r ≠ head)
    (hss : ∀ s ∈ ss, self s ≠ head) (hlinked : Linked prev self head rs) (hlinked' : Linked prev self head ss)
    (htip : tip self head rs = tip self head ss) : rs = ss := by
  -- Backwards along the chain: equal tips give equal last records, whose links are the tips of what is left.
  induction rs using List.reverseRecOn generalizing ss with
  | nil => exact (eq_nil_of_tip_eq hss htip.symm).symm
  | append_singleton rs r ih =>
    cases ss using List.reverseRecOn with
    | nil => exact eq_nil_of_tip_eq hrs htip
    | append_singleton ss s =>
      rw [tip_concat, tip_concat] at htip
      have hlast : r = s := hinj r (by simp) s (by simp) htip
      subst hlast
      obtain ⟨hlinked, hprev⟩ := linked_concat.mp hlinked
      obtain ⟨hlinked', hprev'⟩ := linked_concat.mp hlinked'
      have hrest : rs = ss := by
        refine ih (fun a ha b hb => hinj a (by simp [ha]) b (by simp [hb])) (fun a ha => hrs a (by simp [ha]))
          (fun b hb => hss b (by simp [hb])) hlinked hlinked' (hprev.symm.trans hprev')
      rw [hrest]

end HashChain
