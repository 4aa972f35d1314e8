import Mathlib.Data.List.Basic
import Mathlib.Tactic

/-!
# Reading a stream up to a cap

A reader hands out a stream some elements at a time, and an empty chunk is its end. `readAll` collects the chunks and
gives up before the total passes the cap, so it ends on every reader, also on one whose stream does not.

On a stream that ends, what it returns does not depend on how the stream is cut (`readAll_eq`).
-/

namespace Chunks

variable {σ α ε : Type*}

/-- The stream a reader hands out from a state. -/
inductive Streams (read : σ → Except ε (List α × σ)) : σ → List α → Prop
  | done {s s' : σ} (h : read s = .ok ([], s')) : Streams read s []
  | more {s s' : σ} {chunk rest : List α} (h : read s = .ok (chunk, s')) (hchunk : chunk ≠ [])
      (hrest : Streams read s' rest) : Streams read s (chunk ++ rest)

/-- Collects the chunks; `tooLong` when one would take the total over the cap. -/
def readAll (read : σ → Except ε (List α × σ)) (cap : ℕ) (tooLong : ε) (out : List α) (s : σ) : Except ε (List α) :=
  match read s with
  | .error e => .error e
  | .ok (chunk, s') =>
    if _hend : chunk = [] then .ok out
    else if _hcap : cap < out.length + chunk.length then .error tooLong
    else readAll read cap tooLong (out ++ chunk) s'
termination_by cap - out.length
decreasing_by
  have hpos : 0 < chunk.length := List.length_pos_iff.mpr ‹chunk ≠ []›
  rw [List.length_append]
  omega

variable {read : σ → Except ε (List α × σ)} {cap : ℕ} {tooLong : ε} {out l : List α} {s : σ}

theorem readAll_eq (h : Streams read s l) :
    readAll read cap tooLong out s = if l = [] ∨ out.length + l.length ≤ cap then .ok (out ++ l) else .error tooLong := by
  induction h generalizing out with
  | done h =>
    rw [readAll, h, if_pos (Or.inl rfl), List.append_nil]
    exact dif_pos rfl
  | @more s s' chunk rest h hchunk hrest ih =>
    have hlen : out.length + (chunk ++ rest).length = out.length + chunk.length + rest.length := by
      rw [List.length_append]
      omega
    have hne : chunk ++ rest ≠ [] := fun hnil => hchunk (List.append_eq_nil_iff.mp hnil).1
    rw [readAll, h]
    simp only [hchunk, hne, dif_neg, false_or, not_false_eq_true]
    by_cases hcap : cap < out.length + chunk.length
    · rw [dif_pos hcap, if_neg (by omega)]
    · rw [dif_neg hcap, ih, List.append_assoc, List.length_append, hlen]
      refine if_congr ⟨fun hor => ?_, Or.inr⟩ rfl rfl
      rcases hor with rfl | hle
      · rw [List.length_nil]
        omega
      · exact hle

theorem readAll_nil (h : Streams read s l) :
    readAll read cap tooLong [] s = if l.length ≤ cap then .ok l else .error tooLong := by
  rw [readAll_eq h, List.nil_append, List.length_nil, Nat.zero_add]
  refine if_congr ⟨fun hor => ?_, Or.inr⟩ rfl rfl
  rcases hor with rfl | hle
  · exact Nat.zero_le cap
  · exact hle

/-- A reader that holds the rest of its stream and hands out at most `window` elements at a time. -/
def window (n : ℕ) (s : List α) : Except ε (List α × List α) := .ok (s.take n, s.drop n)

theorem streams_window {n : ℕ} (hn : 0 < n) (l : List α) : Streams (window n : List α → Except ε (List α × List α)) l l := by
  induction hlen : l.length using Nat.strong_induction_on generalizing l with
  | _ k ih =>
    by_cases hl : l = []
    · subst hl
      exact Streams.done (show window n [] = .ok ([], []) by rw [window, List.take_nil, List.drop_nil])
    · have hpos : 0 < l.length := List.length_pos_iff.mpr hl
      have hrest := ih (l.drop n).length (by rw [List.length_drop]; omega) (l.drop n) rfl
      have htake : l.take n ≠ [] := fun hnil =>
        (List.take_eq_nil_iff.mp hnil).elim (Nat.pos_iff_ne_zero.mp hn) hl
      have hmore : Streams (window n : List α → Except ε (List α × List α)) l (l.take n ++ l.drop n) := .more rfl htake hrest
      rwa [List.take_append_drop] at hmore

end Chunks
