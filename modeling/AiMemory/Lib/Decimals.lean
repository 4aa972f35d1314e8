import Mathlib.Data.List.DropRight
import Mathlib.Tactic

/-!
# Decimal texts of binary64 values

A float is known here by the shortest decimal text that a reader takes back to it. `shorten n` is what
is left of such a text after a program has read it and printed the value with `n` significant digits,
as C's `%.ng` does, and another has read that and printed the shortest text again.

A text of at most `n` digits comes back as it is: for `n ≤ 15` no two of these are the same binary64.
-/

namespace Decimals

open Float.Model

/-! ## Significant digits -/

def trim (ds : List Char) : List Char := (ds.dropWhile (· == '0')).rdropWhile (· == '0')

/-- The significant digits of a decimal text: of what stands before the exponent. -/
def significant (s : List Char) : List Char := trim ((s.takeWhile (· != 'e')).filter Char.isDigit)

theorem rdropWhile_append_replicate (ds : List Char) (n : ℕ) :
    (ds ++ List.replicate n '0').rdropWhile (· == '0') = ds.rdropWhile (· == '0') := by
  induction n with
  | zero => simp
  | succ n ih =>
    rw [List.replicate_succ', ← List.append_assoc, List.rdropWhile_concat_pos _ _ _ rfl, ih]

theorem dropWhile_replicate_append (ds : List Char) (n : ℕ) :
    (List.replicate n '0' ++ ds).dropWhile (· == '0') = ds.dropWhile (· == '0') := by
  induction n with
  | zero => rfl
  | succ n ih => exact ih

theorem dropWhile_append_replicate (ds : List Char) (n : ℕ) :
    ∃ m, (ds ++ List.replicate n '0').dropWhile (· == '0') =
      ds.dropWhile (· == '0') ++ List.replicate m '0' := by
  induction ds with
  | nil => exact ⟨0, by simp⟩
  | cons d ds ih =>
    by_cases hd : d = '0'
    · simpa [hd] using ih
    · exact ⟨n, by simp [hd]⟩

theorem trim_pad (ds : List Char) (a b : ℕ) :
    trim (List.replicate a '0' ++ ds ++ List.replicate b '0') = trim ds := by
  obtain ⟨m, hm⟩ := dropWhile_append_replicate ds b
  rw [trim, List.append_assoc, dropWhile_replicate_append, hm, rdropWhile_append_replicate, trim]

theorem length_trim_le (ds : List Char) : (trim ds).length ≤ ds.length :=
  (List.rdropWhile_prefix _ _).length_le.trans (List.dropWhile_suffix _).length_le

/-! ## Reading -/

/-- A decimal numeral: the sign, and `mantissa * 10 ^ exponent`. -/
structure Numeral where
  neg : Bool
  mantissa : ℕ
  exponent : ℤ
  deriving DecidableEq, Repr

/-- The exponent behind the letter `e`. -/
def readExponent : List Char → ℤ
  | '-' :: ds => -Nat.ofDigitChars 10 ds 0
  | '+' :: ds => Nat.ofDigitChars 10 ds 0
  | ds => Nat.ofDigitChars 10 ds 0

/-- Reads a number as JSON writes it: `-`, digits, a point and more digits, an exponent. -/
def read (s : List Char) : Numeral :=
  let body := s.takeWhile (· != 'e')
  let fraction := (body.dropWhile (· != '.')).filter Char.isDigit
  { neg := s.head? = some '-'
    mantissa := Nat.ofDigitChars 10 (body.filter Char.isDigit) 0
    exponent := readExponent ((s.dropWhile (· != 'e')).drop 1) - fraction.length }

def Numeral.nearest (x : Numeral) : UnpackedFloat :=
  UnpackedFloat.ofScientific Format.binary64 x.mantissa x.exponent

/-! ## Printing -/

def sign (neg : Bool) : List Char := if neg then ['-'] else []

/-- The shortest-text printer's layout of the digits `ds`, the last of which stands for `10 ^ k`. Zero
has no digits; its sign is lost in print. -/
def layOut (neg : Bool) (ds : List Char) (k : ℤ) : List Char :=
  let kk := ds.length + k
  let scientific := 'e' :: (toString (kk - 1)).toList
  if 0 ≤ k ∧ kk ≤ 16 then sign neg ++ (ds ++ (List.replicate k.toNat '0' ++ ['.', '0']))
  else if 0 < kk ∧ kk ≤ 16 then sign neg ++ (ds.take kk.toNat ++ '.' :: ds.drop kk.toNat)
  else if -5 < kk ∧ kk ≤ 0 then sign neg ++ '0' :: '.' :: (List.replicate (-kk).toNat '0' ++ ds)
  else if ds.length = 1 then sign neg ++ (ds ++ scientific)
  else sign neg ++ (ds.take 1 ++ '.' :: (ds.drop 1 ++ scientific))

def ofInt (z : ℤ) : String :=
  let ds := Nat.toDigits 10 z.natAbs
  let kept := ds.rdropWhile (· == '0')
  String.ofList (layOut (z < 0) kept (ds.length - kept.length))

/-- `mantissa * 2 ^ exponent` in units of `10 ^ -unit`, rounded down. -/
def inUnits (unit mantissa : ℕ) (exponent : ℤ) : ℕ :=
  if 0 ≤ exponent then mantissa * 2 ^ exponent.toNat * 10 ^ unit
  else mantissa * 10 ^ unit / 2 ^ (-exponent).toNat

/-- The first `n` digits of `x`, rounded half up at the digit behind them, with the power of ten of the
last one. -/
def roundDigits (n x : ℕ) : ℕ × ℕ :=
  let d := (Nat.toDigits 10 x).length
  let q := (x / 10 ^ (d - (n + 1)) + 5) / 10
  if q < 10 ^ n then (q, d - n) else (10 ^ (n - 1), d - n + 1)

/-- The digits that `%.ng` prints of `mantissa * 2 ^ exponent`, without the zeros at the end, and the
power of ten of the last one. Every binary64 has at least `n + 1` digits in these units. -/
def printDigits (n mantissa : ℕ) (exponent : ℤ) : List Char × ℤ :=
  let unit := 325 + n
  let (q, k) := roundDigits n (inUnits unit mantissa exponent)
  let ds := Nat.toDigits 10 q
  let kept := ds.rdropWhile (· == '0')
  (kept, k - unit + (ds.length - kept.length))

/-- A float's text after its value has been printed with `n` significant digits and read again. -/
def shorten (n : ℕ) (s : String) : String :=
  if significant s.toList = [] then "0.0"
  else if (significant s.toList).length ≤ n then s
  else
    match (read s.toList).nearest with
    | .finite _ mantissa exponent _ =>
      let (ds, k) := printDigits n mantissa exponent
      if ds = [] then "0.0" else String.ofList (layOut (read s.toList).neg ds k)
    | _ => s

/-! ## What is printed is kept -/

theorem significant_of {body ds : List Char} {a b : ℕ} (he : 'e' ∉ body)
    (hd : body.filter Char.isDigit = List.replicate a '0' ++ ds ++ List.replicate b '0') :
    significant body = trim ds := by
  have htake : body.takeWhile (· != 'e') = body :=
    List.takeWhile_eq_self_iff.mpr fun c hc => by simpa using ne_of_mem_of_not_mem hc he
  rw [significant, htake, hd, trim_pad]

theorem significant_append {body : List Char} (he : 'e' ∉ body) (rest : List Char) :
    significant (body ++ 'e' :: rest) = significant body := by
  have hbody : ∀ c ∈ body, (c != 'e') = true := fun c hc => by simpa using ne_of_mem_of_not_mem hc he
  unfold significant
  rw [List.takeWhile_append_of_pos hbody, List.takeWhile_cons_of_neg (by decide), List.append_nil,
    List.takeWhile_eq_self_iff.mpr hbody]

theorem filter_sign (neg : Bool) : (sign neg).filter Char.isDigit = [] := by
  cases neg <;> rfl

theorem letter_notMem_sign (neg : Bool) : 'e' ∉ sign neg := by
  cases neg <;> decide

theorem significant_layOut (neg : Bool) {ds : List Char} (k : ℤ) (h : ∀ d ∈ ds, d.isDigit) :
    significant (layOut neg ds k) = trim ds := by
  have hds : ds.filter Char.isDigit = ds := List.filter_eq_self.mpr h
  have he : 'e' ∉ ds := fun hmem => absurd (h _ hmem) (by decide)
  have hsign := letter_notMem_sign neg
  have hcut (i : ℕ) : 'e' ∉ sign neg ++ (ds.take i ++ '.' :: ds.drop i) ∧
      (sign neg ++ (ds.take i ++ '.' :: ds.drop i)).filter Char.isDigit =
        List.replicate 0 '0' ++ ds ++ List.replicate 0 '0' := by
    refine ⟨?_, ?_⟩
    · have htake : 'e' ∉ ds.take i := fun hmem => he (List.mem_of_mem_take hmem)
      have hdrop : 'e' ∉ ds.drop i := fun hmem => he (List.mem_of_mem_drop hmem)
      simp [hsign, htake, hdrop]
    · rw [List.filter_append, filter_sign, List.filter_append, List.filter_cons_of_neg (by decide),
        ← List.filter_append, List.take_append_drop, hds]
      simp
  unfold layOut
  dsimp only
  split_ifs
  · refine significant_of (a := 0) (b := k.toNat + 1) (by simp [hsign, he]) ?_
    rw [List.filter_append, filter_sign, List.filter_append, hds, List.filter_append,
      List.filter_replicate_of_pos (by decide), List.replicate_succ']
    simp
  · exact significant_of (hcut _).1 (hcut _).2
  · refine significant_of (a := (-(ds.length + k)).toNat + 1) (b := 0) (by simp [hsign, he]) ?_
    rw [List.filter_append, filter_sign, List.filter_cons_of_pos (by decide),
      List.filter_cons_of_neg (by decide), List.filter_append, hds,
      List.filter_replicate_of_pos (by decide), List.replicate_succ]
    simp
  · rw [← List.append_assoc, significant_append (by simp [hsign, he])]
    refine significant_of (a := 0) (b := 0) (by simp [hsign, he]) ?_
    rw [List.filter_append, filter_sign, hds]
    simp
  · rw [← List.cons_append, ← List.append_assoc, ← List.append_assoc, List.append_assoc (sign neg),
      significant_append (hcut 1).1]
    exact significant_of (hcut 1).1 (hcut 1).2

variable {n : ℕ}

theorem roundDigits_lt (hn : 0 < n) (x : ℕ) : (roundDigits n x).1 < 10 ^ n := by
  unfold roundDigits
  dsimp only
  split_ifs with h
  · exact h
  · exact Nat.pow_lt_pow_right (by decide) (by omega)

theorem isDigit_printDigits {n m : ℕ} {e : ℤ} {d : Char} (h : d ∈ (printDigits n m e).1) : d.isDigit :=
  Nat.isDigit_of_mem_toDigits (by decide) (by decide) ((List.rdropWhile_prefix _ _).subset h)

theorem length_printDigits_le (hn : 0 < n) (m : ℕ) (e : ℤ) : (printDigits n m e).1.length ≤ n :=
  (List.rdropWhile_prefix _ _).length_le.trans
    ((Nat.length_toDigits_le_iff (by decide) hn).mpr (roundDigits_lt hn _))

theorem trim_rdropWhile_ne {ds : List Char} (h : ds.rdropWhile (· == '0') ≠ []) :
    trim (ds.rdropWhile (· == '0')) ≠ [] := by
  intro htrim
  have hdrop := List.rdropWhile_eq_nil_iff.mp htrim
  refine List.rdropWhile_last_not _ _ h ?_
  have hall : ∀ d ∈ ds.rdropWhile (· == '0'), (d == '0') = true := by
    intro d hd
    rw [← List.takeWhile_append_dropWhile (p := (· == '0')) (l := ds.rdropWhile (· == '0')),
      List.mem_append] at hd
    cases hd with
    | inl hd => exact List.mem_takeWhile_imp (p := (· == '0')) hd
    | inr hd => exact hdrop d hd
  exact hall _ (List.getLast_mem h)

theorem shorten_zero {s : String} (h : significant s.toList = []) : shorten n s = "0.0" := if_pos h

/-- A text of at most `n` digits is kept, but for the sign of a zero. -/
theorem shorten_of_le {s : String} (h0 : significant s.toList ≠ [])
    (hn : (significant s.toList).length ≤ n) : shorten n s = s := by
  rw [shorten, if_neg h0, if_pos hn]

theorem shorten_idem (hn : 0 < n) (s : String) : shorten n (shorten n s) = shorten n s := by
  by_cases h0 : significant s.toList = []
  · rw [shorten_zero h0]
    exact shorten_zero (by decide)
  by_cases hle : (significant s.toList).length ≤ n
  · rw [shorten_of_le h0 hle, shorten_of_le h0 hle]
  have hs : shorten n s = shorten n s := rfl
  conv_rhs at hs => rw [shorten, if_neg h0, if_neg hle]
  cases hx : (read s.toList).nearest with
  | finite sign m e pos =>
    rw [hx] at hs
    dsimp only at hs
    split_ifs at hs with hds
    · rw [hs]
      exact shorten_zero (by decide)
    · rw [hs]
      have htrim := significant_layOut (read s.toList).neg (printDigits n m e).2
        fun d (hd : d ∈ (printDigits n m e).1) => isDigit_printDigits hd
      refine shorten_of_le ?_ ?_
      · rw [String.toList_ofList, htrim]
        exact trim_rdropWhile_ne hds
      · rw [String.toList_ofList, htrim]
        exact (length_trim_le _).trans (length_printDigits_le hn m e)
  | _ =>
    rw [hx] at hs
    rw [hs, hs]

/-- Fifteen digits of π. -/
example : shorten 15 "3.141592653589793" = "3.14159265358979" := by decide +kernel

end Decimals
