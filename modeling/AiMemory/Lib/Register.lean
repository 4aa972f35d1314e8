import Mathlib.Data.List.Perm.Basic
import Mathlib.Order.Lattice
import Mathlib.Tactic

/-!
# Last-writer-wins registers with weak writers and a sticky tag

A register holds a stamp, a value and an optional tag. A newer write replaces the value; at equal stamps
only a *strong* write does. The tag is the one of the first write that brought one, and later writes do
not change it.

Such a register need not converge: of several newest strong writes the last one to arrive stays, of
several newest weak ones the first, and the tag depends on the order altogether. `Settles` says when every
order ends with one and the same reading, in terms of the writes alone, and `forall_perm_iff` proves that
it is exact; `Settles.merge` and `settles_of_forall` are the two directions of its induction step.
-/

namespace Register

variable {τ ν α β : Type*} [LinearOrder τ]

/-- How writes compete. -/
structure Rules (τ ν α : Type*) where
  stamp : ν → τ
  strong : ν → Bool
  tag : ν → Option α

/-- The content of a register. -/
structure Reg (τ ν α : Type*) where
  stamp : τ
  val : ν
  tag : Option α

variable (R : Rules τ ν α)

/-- The write replaces the value. -/
def Wins (X : Reg τ ν α) (m : ν) : Prop :=
  X.stamp < R.stamp m ∨ R.stamp m = X.stamp ∧ R.strong m = true

instance (X : Reg τ ν α) (m : ν) : Decidable (Wins R X m) := inferInstanceAs (Decidable (_ ∨ _))

def merge (X : Reg τ ν α) (m : ν) : Reg τ ν α :=
  if Wins R X m then ⟨R.stamp m, m, X.tag.or (R.tag m)⟩ else X

/-- A newest write, among those that can replace the value. -/
structure IsTop (X : Reg τ ν α) (l : List ν) (w : ν) : Prop where
  mem : w ∈ l
  wins : Wins R X w
  newest : ∀ x ∈ l, R.stamp x ≤ R.stamp w

/-- A write that some order leaves as the value. -/
def MayWin (X : Reg τ ν α) (l : List ν) (w : ν) : Prop :=
  IsTop R X l w ∧ (R.strong w = true ∨ ∀ x, IsTop R X l x → R.strong x = false)

/-- Every order of the writes `l` ends with the reading `p` and the tag `t`. -/
structure Settles (out : ν → Option α → β) (X : Reg τ ν α) (l : List ν) (p : β) (t : Option α) : Prop where
  idle : (∀ m ∈ l, ¬Wins R X m) → out X.val X.tag = p ∧ X.tag = t
  winner : ∀ w, MayWin R X l w → out w t = p
  kept : (∃ m ∈ l, Wins R X m) → X.tag ≠ none → X.tag = t
  tagged : X.tag = none → ∀ m ∈ l, Wins R X m → R.tag m ≠ none → R.tag m = t
  reached : X.tag = none → t ≠ none → (∃ m ∈ l, Wins R X m) →
    (∃ u, IsTop R X l u ∧ R.strong u = true ∧ R.tag u ≠ none) ∨
      ∀ u, IsTop R X l u → R.strong u = false ∧ R.tag u ≠ none

variable {R} {out : ν → Option α → β} {X : Reg τ ν α} {l l' : List ν} {m w x : ν} {p : β} {t : Option α}

/-! ## Winning -/

theorem merge_of_wins (h : Wins R X m) : merge R X m = ⟨R.stamp m, m, X.tag.or (R.tag m)⟩ := if_pos h

theorem merge_of_not_wins (h : ¬Wins R X m) : merge R X m = X := if_neg h

theorem Wins.le (h : Wins R X m) : X.stamp ≤ R.stamp m := h.elim le_of_lt fun h => h.1.ge

theorem not_wins_le (h : ¬Wins R X m) : R.stamp m ≤ X.stamp := not_lt.mp fun hlt => h (Or.inl hlt)

/-- A strong write wins unless it is older. -/
theorem wins_of_strong (hs : R.strong m = true) (hle : X.stamp ≤ R.stamp m) : Wins R X m :=
  hle.lt_or_eq.imp id fun h => ⟨h.symm, hs⟩

theorem Wins.of_merge (hm : Wins R X m) (h : Wins R (merge R X m) x) :
    Wins R X x ∧ R.stamp m ≤ R.stamp x ∧ (R.stamp x = R.stamp m → R.strong x = true) := by
  rw [merge_of_wins hm] at h
  have hle : R.stamp m ≤ R.stamp x := h.le
  rcases h with hlt | ⟨heq, hs⟩
  · exact ⟨Or.inl (hm.le.trans_lt hlt), hle, fun he => absurd he hlt.ne'⟩
  · exact ⟨wins_of_strong hs (hm.le.trans hle), hle, fun _ => hs⟩

theorem wins_merge_of_strong (hm : Wins R X m) (hs : R.strong x = true) (hle : R.stamp m ≤ R.stamp x) :
    Wins R (merge R X m) x := by
  rw [merge_of_wins hm]
  exact wins_of_strong hs hle

theorem IsTop.of_merge (hm : Wins R X m) (h : IsTop R (merge R X m) l w) : IsTop R X (m :: l) w := by
  obtain ⟨hwins, hle, -⟩ := hm.of_merge h.wins
  refine ⟨List.mem_cons_of_mem m h.mem, hwins, fun x hx => ?_⟩
  rcases List.mem_cons.mp hx with rfl | hx
  · exact hle
  · exact h.newest x hx

theorem MayWin.of_merge (hm : Wins R X m) (h : MayWin R (merge R X m) l w) : MayWin R X (m :: l) w := by
  obtain ⟨htop, hstrong⟩ := h
  refine ⟨htop.of_merge hm, ?_⟩
  rcases hstrong with hs | hweak
  · exact Or.inl hs
  · by_contra hc
    rw [not_or] at hc
    obtain ⟨hw, hx⟩ := hc
    push Not at hx
    obtain ⟨x, hx, hsx⟩ := hx
    have hle := (htop.of_merge hm).newest m List.mem_cons_self
    have heq := hx.newest w (List.mem_cons_of_mem m htop.mem)
    rcases List.mem_cons.mp hx.mem with rfl | hmem
    · -- the strong write is the first one: then `w`, which won after it, is strong too
      exact hw ((hm.of_merge htop.wins).2.2 (le_antisymm heq hle))
    · refine hsx (hweak x ⟨hmem, ?_, fun y hy => ?_⟩)
      · exact wins_merge_of_strong hm (by simpa using hsx) (hle.trans heq)
      · exact (htop.newest y hy).trans heq

theorem isTop_cons_iff (hm : ¬Wins R X m) : IsTop R X (m :: l) w ↔ IsTop R X l w := by
  constructor
  · intro h
    refine ⟨?_, h.wins, fun x hx => h.newest x (List.mem_cons_of_mem m hx)⟩
    rcases List.mem_cons.mp h.mem with rfl | hmem
    · exact absurd h.wins hm
    · exact hmem
  · intro h
    refine ⟨List.mem_cons_of_mem m h.mem, h.wins, fun x hx => ?_⟩
    rcases List.mem_cons.mp hx with rfl | hx
    · exact (not_wins_le hm).trans h.wins.le
    · exact h.newest x hx

/-! ## One write -/

section Step

theorem Settles.of_not_wins (hm : ¬Wins R X m) (h : Settles R out X (m :: l) p t) :
    Settles R out X l p t := by
  have hmem : ∀ x ∈ m :: l, Wins R X x → x ∈ l := by
    intro x hx hwx
    rcases List.mem_cons.mp hx with rfl | hx
    · exact absurd hwx hm
    · exact hx
  have hany : (∃ x ∈ l, Wins R X x) → ∃ x ∈ m :: l, Wins R X x := fun ⟨x, hx, hwx⟩ =>
    ⟨x, List.mem_cons_of_mem m hx, hwx⟩
  refine ⟨fun hno => h.idle fun x hx hwx => hno x (hmem x hx hwx) hwx, fun w hw => h.winner w ?_,
    fun hsome => h.kept (hany hsome), fun hnone x hx => h.tagged hnone x (List.mem_cons_of_mem m hx),
    fun hnone ht hsome => ?_⟩
  · exact ⟨(isTop_cons_iff hm).mpr hw.1, hw.2.imp_right fun hx x htop => hx x ((isTop_cons_iff hm).mp htop)⟩
  · simpa only [isTop_cons_iff hm] using h.reached hnone ht (hany hsome)

/-- The tag after a write that won, when the orders settle on `t`. -/
theorem Settles.tag_of_wins (hm : Wins R X m) (h : Settles R out X (m :: l) p t)
    (hne : X.tag.or (R.tag m) ≠ none) : X.tag.or (R.tag m) = t := by
  cases htag : X.tag with
  | some a =>
    have hkept := h.kept ⟨m, List.mem_cons_self, hm⟩ (by rw [htag]; exact Option.some_ne_none a)
    rw [htag] at hkept
    exact hkept
  | none =>
    rw [htag] at hne
    exact h.tagged htag m List.mem_cons_self hm hne

/-- The rest settles after a write that wins. -/
theorem Settles.of_wins (hm : Wins R X m) (h : Settles R out X (m :: l) p t) :
    Settles R out (merge R X m) l p t := by
  have hself : m ∈ m :: l := List.mem_cons_self
  have htag : (merge R X m).tag = X.tag.or (R.tag m) := by rw [merge_of_wins hm]
  refine ⟨fun hno => ?_, fun w hw => h.winner w (hw.of_merge hm), fun _ hne => ?_,
    fun hnone x hx hwx => ?_, fun hnone ht _ => ?_⟩
  · -- nothing wins after `m`: it is a newest write, and no other one is strong
    have hnew : ∀ x ∈ m :: l, R.stamp x ≤ R.stamp m := by
      intro x hx
      rcases List.mem_cons.mp hx with rfl | hx
      · exact le_rfl
      · have := not_wins_le (hno x hx)
        rwa [merge_of_wins hm] at this
    have htop : IsTop R X (m :: l) m := ⟨hself, hm, hnew⟩
    have hweak : ∀ x, IsTop R X (m :: l) x → x ≠ m → R.strong x = false := by
      intro x hx hne
      by_contra hs
      have hmem := (List.mem_cons.mp hx.mem).resolve_left hne
      exact hno x hmem (wins_merge_of_strong hm (by simpa using hs) (hx.newest m hself))
    have hval : X.tag.or (R.tag m) = t := by
      by_cases hne : X.tag.or (R.tag m) = none
      · rw [hne]
        obtain ⟨hX, htm⟩ := Option.or_eq_none_iff.mp hne
        by_contra ht
        rcases h.reached hX (Ne.symm ht) ⟨m, hself, hm⟩ with ⟨u, hu, hsu, htu⟩ | hall
        · refine absurd (hweak u hu ?_) (by simp [hsu])
          rintro rfl
          exact htu htm
        · exact (hall m htop).2 htm
      · exact h.tag_of_wins hm hne
    have hout := h.winner m ⟨htop, ?_⟩
    · rw [merge_of_wins hm]
      exact ⟨hval ▸ hout, hval⟩
    · by_cases hs : R.strong m = true
      · exact Or.inl hs
      · refine Or.inr fun x hx => ?_
        by_cases he : x = m
        · rw [he]
          simpa using hs
        · exact hweak x hx he
  · rw [htag] at hne ⊢
    exact h.tag_of_wins hm hne
  · rw [htag, Option.or_eq_none_iff] at hnone
    exact h.tagged hnone.1 x (List.mem_cons_of_mem m hx) (hm.of_merge hwx).1
  · rw [htag, Option.or_eq_none_iff] at hnone
    rcases h.reached hnone.1 ht ⟨m, hself, hm⟩ with ⟨u, hu, hsu, htu⟩ | hall
    · have hmem : u ∈ l := (List.mem_cons.mp hu.mem).resolve_left fun he => htu (he ▸ hnone.2)
      refine Or.inl ⟨u, ⟨hmem, ?_, fun x hx => ?_⟩, hsu, htu⟩
      · exact wins_merge_of_strong hm hsu (hu.newest m hself)
      · exact hu.newest x (List.mem_cons_of_mem m hx)
    · exact Or.inr fun u hu => hall u (hu.of_merge hm)

theorem Settles.merge (h : Settles R out X (m :: l) p t) : Settles R out (merge R X m) l p t := by
  by_cases hm : Wins R X m
  · exact h.of_wins hm
  · rw [merge_of_not_wins hm]
    exact h.of_not_wins hm

theorem Settles.tag_eq (h : Settles R out X l p t) (hne : X.tag ≠ none) : X.tag = t := by
  by_cases hany : ∃ m ∈ l, Wins R X m
  · exact h.kept hany hne
  · push Not at hany
    exact (h.idle hany).2

theorem Settles.congr (h : Settles R out X l p t) (hl : ∀ x, x ∈ l ↔ x ∈ l') : Settles R out X l' p t := by
  have htop : ∀ w, IsTop R X l' w ↔ IsTop R X l w := by
    intro w
    constructor
    · exact fun h => ⟨(hl w).mpr h.mem, h.wins, fun x hx => h.newest x ((hl x).mp hx)⟩
    · exact fun h => ⟨(hl w).mp h.mem, h.wins, fun x hx => h.newest x ((hl x).mpr hx)⟩
  have hany : (∃ m ∈ l', Wins R X m) → ∃ m ∈ l, Wins R X m := fun ⟨m, hm, hw⟩ => ⟨m, (hl m).mpr hm, hw⟩
  refine ⟨fun hno => h.idle fun m hm => hno m ((hl m).mp hm), fun w hw => h.winner w ?_,
    fun hs => h.kept (hany hs), fun hn m hm => h.tagged hn m ((hl m).mpr hm), fun hn ht hs => ?_⟩
  · exact ⟨(htop w).mp hw.1, hw.2.imp_right fun hx x hxt => hx x ((htop x).mpr hxt)⟩
  · simpa only [htop] using h.reached hn ht (hany hs)

theorem exists_perm_cons (hm : m ∈ l) : ∃ l', l.Perm (m :: l') := by
  obtain ⟨s, r, rfl⟩ := List.append_of_mem hm
  exact ⟨s ++ r, List.perm_middle⟩

theorem tag_merge_of_wins (hm : Wins R X m) : (merge R X m).tag = X.tag.or (R.tag m) := by
  rw [merge_of_wins hm]

/-- The register settles when it settles after each of the writes. -/
theorem settles_of_forall (hne : l ≠ [])
    (h : ∀ m l', l.Perm (m :: l') → Settles R out (merge R X m) l' p t) : Settles R out X l p t := by
  refine ⟨fun hno => ?_, fun w hw => ?_, fun ⟨m, hm, hwins⟩ htag => ?_, fun hnone m hm hwins htag => ?_,
    fun hnone ht hany => ?_⟩
  · obtain ⟨m, hm⟩ := List.exists_mem_of_ne_nil l hne
    obtain ⟨l', hp⟩ := exists_perm_cons hm
    have hs := h m l' hp
    rw [merge_of_not_wins (hno m hm)] at hs
    exact hs.idle fun x hx => hno x (hp.mem_iff.mpr (List.mem_cons_of_mem m hx))
  · obtain ⟨htop, hstrong⟩ := hw
    obtain ⟨l', hp⟩ := exists_perm_cons htop.mem
    by_cases hlate : ∃ x ∈ l', Wins R (merge R X w) x
    · -- a strong write of the same stamp: let it come first
      obtain ⟨x, hx, hwx⟩ := hlate
      have hxl : x ∈ l := hp.mem_iff.mpr (List.mem_cons_of_mem w hx)
      obtain ⟨hXx, hle, htie⟩ := htop.wins.of_merge hwx
      have heq : R.stamp x = R.stamp w := le_antisymm (htop.newest x hxl) hle
      have hxtop : IsTop R X l x := ⟨hxl, hXx, fun y hy => (htop.newest y hy).trans hle⟩
      have hsw : R.strong w = true := hstrong.resolve_right fun hweak => by
        simpa [htie heq] using hweak x hxtop
      obtain ⟨l'', hp'⟩ := exists_perm_cons hx
      have hperm : l.Perm (x :: w :: l'') := (hp.trans (hp'.cons w)).trans (List.Perm.swap x w l'')
      refine (h x (w :: l'') hperm).winner w ⟨⟨List.mem_cons_self, ?_, fun y hy => ?_⟩, Or.inl hsw⟩
      · exact wins_merge_of_strong hXx hsw heq.le
      · exact htop.newest y (hperm.mem_iff.mpr (List.mem_cons_of_mem x hy))
    · push Not at hlate
      obtain ⟨hout, htag⟩ := (h w l' hp).idle hlate
      rw [merge_of_wins htop.wins] at hout htag
      exact htag ▸ hout
  · obtain ⟨l', hp⟩ := exists_perm_cons hm
    have hs := (h m l' hp).tag_eq
    rw [tag_merge_of_wins hwins] at hs
    obtain ⟨a, ha⟩ := Option.ne_none_iff_exists'.mp htag
    rw [ha] at hs ⊢
    exact hs (Option.some_ne_none a)
  · obtain ⟨l', hp⟩ := exists_perm_cons hm
    have hs := (h m l' hp).tag_eq
    rw [tag_merge_of_wins hwins, hnone] at hs
    exact hs htag
  · by_contra hc
    rw [not_or] at hc
    obtain ⟨hstrong, hweak⟩ := hc
    push Not at hstrong hweak
    -- an untagged newest write, strong if any is
    have hu : ∃ u, IsTop R X l u ∧ R.tag u = none ∧ ∀ x, IsTop R X l x → R.strong x = true → R.tag x = none := by
      obtain ⟨u, hu, huw⟩ := hweak
      by_cases hs : R.strong u = true
      · exact ⟨u, hu, hstrong u hu hs, hstrong⟩
      · exact ⟨u, hu, huw (by simpa using hs), hstrong⟩
    obtain ⟨u, hu, hutag, hall⟩ := hu
    obtain ⟨l', hp⟩ := exists_perm_cons hu.mem
    have hs := h u l' hp
    have htag : (merge R X u).tag = none := by rw [tag_merge_of_wins hu.wins, hnone, hutag]; rfl
    by_cases hlate : ∃ x ∈ l', Wins R (merge R X u) x
    · have hlift : ∀ x, IsTop R (merge R X u) l' x → IsTop R X l x := by
        intro x hx
        have hx' := hx.of_merge hu.wins
        exact ⟨hp.mem_iff.mpr hx'.mem, hx'.wins, fun y hy => hx'.newest y (hp.mem_iff.mp hy)⟩
      obtain ⟨x, hx, hwx⟩ := hlate
      obtain ⟨-, hle, htie⟩ := hu.wins.of_merge hwx
      have hxl : x ∈ l := hp.mem_iff.mpr (List.mem_cons_of_mem u hx)
      have hsx := htie (le_antisymm (hu.newest x hxl) hle)
      have hxtop : IsTop R (merge R X u) l' x := ⟨hx, hwx, fun y hy =>
        (hu.newest y (hp.mem_iff.mpr (List.mem_cons_of_mem u hy))).trans hle⟩
      rcases hs.reached htag ht ⟨x, hx, hwx⟩ with ⟨v, hv, hsv, htv⟩ | hweak'
      · exact htv (hall v (hlift v hv) hsv)
      · simpa [hsx] using (hweak' x hxtop).1
    · push Not at hlate
      exact ht ((hs.idle hlate).2.symm.trans htag)

end Step

/-! ## All orders -/

/-- Every order ends with the reading `p` and the tag `t` exactly when the register settles on them. -/
theorem forall_perm_iff : (∀ l' : List ν, l'.Perm l →
      out (l'.foldl (merge R) X).val (l'.foldl (merge R) X).tag = p ∧ (l'.foldl (merge R) X).tag = t) ↔
    Settles R out X l p t := by
  constructor
  · -- by the number of writes, the first one being any of them
    intro h
    induction hn : l.length generalizing X l with
    | zero =>
      cases List.length_eq_zero_iff.mp hn
      refine ⟨fun _ => h [] (List.Perm.refl _), fun w hw => ?_, fun ⟨m, hm, _⟩ => ?_, fun _ m hm => ?_,
        fun _ _ ⟨m, hm, _⟩ => ?_⟩
      · cases hw.1.mem
      all_goals cases hm
    | succ n ih =>
      refine settles_of_forall (fun he => by rw [he] at hn; cases hn) fun m l' hp => ?_
      refine ih (fun l'' hp' => h (m :: l'') ((hp'.cons m).trans hp.symm)) ?_
      have := hp.length_eq
      rw [List.length_cons] at this
      omega
  · intro h l' hp
    replace h := h.congr fun x => hp.symm.mem_iff
    clear hp
    induction l' generalizing X with
    | nil => exact h.idle fun m hm => by cases hm
    | cons m l' ih => exact ih h.merge

/-! ## The same writes again -/

section Replay

variable {T : τ}

/-- The last strong write of stamp `T`. -/
def lastStrong (R : Rules τ ν α) (T : τ) (l : List ν) : Option ν :=
  (l.filter fun m => R.strong m && decide (R.stamp m = T)).getLast?

theorem lastStrong_append_of (hs : R.strong m = true) (hT : R.stamp m = T) :
    lastStrong R T (l ++ [m]) = some m := by
  unfold lastStrong
  rw [List.filter_append, List.filter_cons_of_pos (by simp [hs, hT])]
  simp

theorem lastStrong_append_of_not (h : ¬(R.strong m = true ∧ R.stamp m = T)) :
    lastStrong R T (l ++ [m]) = lastStrong R T l := by
  unfold lastStrong
  rw [List.filter_append, List.filter_cons_of_neg (by simpa using h)]
  simp

/-- After the writes: no stamp is newer, the last strong write of the newest stamp is the value, and each
of them has left its tag or found one. -/
structure Written (R : Rules τ ν α) (l : List ν) (Y : Reg τ ν α) : Prop where
  newest : ∀ m ∈ l, R.stamp m ≤ Y.stamp
  value : ∀ u, lastStrong R Y.stamp l = some u → Y.val = u
  tag : ∀ m ∈ l, R.strong m = true → R.stamp m = Y.stamp → Y.tag.or (R.tag m) = Y.tag

theorem or_or_self (a b : Option α) : (a.or b).or b = a.or b := by cases a <;> cases b <;> rfl

theorem written_foldl (X : Reg τ ν α) (l : List ν) : Written R l (l.foldl (merge R) X) := by
  induction l using List.reverseRecOn with
  | nil =>
    refine ⟨fun m hm => ?_, fun u hu => ?_, fun m hm => ?_⟩
    · cases hm
    · cases hu
    · cases hm
  | append_singleton l m ih =>
    rw [List.foldl_append, List.foldl_cons, List.foldl_nil]
    generalize l.foldl (merge R) X = Y at ih ⊢
    by_cases hw : Wins R Y m
    · rw [merge_of_wins hw]
      have hle : ∀ x ∈ l ++ [m], R.stamp x ≤ R.stamp m := by
        intro x hx
        rcases List.mem_append.mp hx with hx | hx
        · exact (ih.newest x hx).trans hw.le
        · rw [List.mem_singleton.mp hx]
      refine ⟨hle, fun u hu => ?_, fun x hx hs hT => ?_⟩
      · by_cases hs : R.strong m = true
        · rw [lastStrong_append_of hs rfl] at hu
          exact Option.some.inj hu
        · -- a weak write that wins is strictly newer than all before it
          have hlt : Y.stamp < R.stamp m := hw.resolve_right fun h => hs h.2
          rw [lastStrong_append_of_not fun h => hs h.1] at hu
          have hmem := List.mem_filter.mp (List.mem_of_getLast? hu)
          have hu' : R.stamp u = R.stamp m := by simpa using (Bool.and_eq_true_iff.mp hmem.2).2
          exact absurd (ih.newest u hmem.1) (not_le.mpr (hu' ▸ hlt))
      · show (Y.tag.or (R.tag m)).or (R.tag x) = Y.tag.or (R.tag m)
        rcases List.mem_append.mp hx with hx | hx
        · have heq : R.stamp x = Y.stamp := le_antisymm (ih.newest x hx) (hT ▸ hw.le)
          have hkeep := ih.tag x hx hs heq
          cases hY : Y.tag with
          | some a => rfl
          | none =>
            rw [hY] at hkeep
            rw [show R.tag x = none from hkeep]
            exact Option.or_none
        · rw [List.mem_singleton.mp hx]
          exact or_or_self _ _
    · rw [merge_of_not_wins hw]
      have hno : ¬(R.strong m = true ∧ R.stamp m = Y.stamp) := fun h => hw (Or.inr ⟨h.2, h.1⟩)
      refine ⟨fun x hx => ?_, fun u hu => ih.value u (lastStrong_append_of_not hno ▸ hu),
        fun x hx hs hT => ?_⟩
      · rcases List.mem_append.mp hx with hx | hx
        · exact ih.newest x hx
        · rw [List.mem_singleton.mp hx]
          exact not_wins_le hw
      · rcases List.mem_append.mp hx with hx | hx
        · exact ih.tag x hx hs hT
        · rw [List.mem_singleton.mp hx] at hs hT
          exact absurd ⟨hs, hT⟩ hno

theorem foldl_of_newest {Y : Reg τ ν α} (hnew : ∀ m ∈ l, R.stamp m ≤ Y.stamp)
    (htag : ∀ m ∈ l, R.strong m = true → R.stamp m = Y.stamp → Y.tag.or (R.tag m) = Y.tag) :
    l.foldl (merge R) Y = ⟨Y.stamp, (lastStrong R Y.stamp l).getD Y.val, Y.tag⟩ := by
  induction l using List.reverseRecOn with
  | nil => rfl
  | append_singleton l m ih =>
    have hm : m ∈ l ++ [m] := List.mem_append_right l List.mem_cons_self
    rw [List.foldl_append, List.foldl_cons, List.foldl_nil, ih (fun x hx => hnew x (List.mem_append_left _ hx))
      fun x hx => htag x (List.mem_append_left _ hx)]
    by_cases hs : R.strong m = true ∧ R.stamp m = Y.stamp
    · have hwins : Wins R ⟨Y.stamp, (lastStrong R Y.stamp l).getD Y.val, Y.tag⟩ m := Or.inr ⟨hs.2, hs.1⟩
      rw [merge_of_wins hwins, lastStrong_append_of hs.1 hs.2, htag m hm hs.1 hs.2, hs.2]
      rfl
    · rw [merge_of_not_wins, lastStrong_append_of_not hs]
      rintro (hlt | ⟨heq, hstrong⟩)
      · exact absurd (hnew m hm) (not_le.mpr hlt)
      · exact hs ⟨hstrong, heq⟩

theorem foldl_merge_idem (X : Reg τ ν α) (l : List ν) :
    l.foldl (merge R) (l.foldl (merge R) X) = l.foldl (merge R) X := by
  have hw := written_foldl (R := R) X l
  rw [foldl_of_newest hw.newest hw.tag]
  cases hl : lastStrong R (l.foldl (merge R) X).stamp l with
  | none => rfl
  | some u =>
    rw [Option.getD_some, ← hw.value u hl]

end Replay

end Register
