import Mathlib.Algebra.BigOperators.Group.Finset.Basic
import Mathlib.Algebra.Order.BigOperators.Group.Finset
import Mathlib.Algebra.Order.Field.Rat
import Mathlib.Data.Prod.Lex
import Mathlib.Tactic

/-!
# Timestamps of RFC 3339, their text and their time

A timestamp spells a date, a time of day with any number of fractional digits, and an offset from UTC. Its `instant`
takes the offset into account, its `text` is what programs compare that treat timestamps as strings. The two orders
agree on a pair unless one spelling misleads about the other, in one of four ways (`Misleads`, `misleads_iff`).

A day is numbered by the days before it. A minute may have a second 60, which ends before the next minute begins.
-/

namespace Timestamps

/-! ## Calendar -/

section Blocks

/-- Where block `n` begins when blocks of lengths `f 0, f 1, …` follow each other. -/
def startOf (f : ℕ → ℕ) (n : ℕ) : ℕ := ∑ i ∈ Finset.range n, f i

variable {f : ℕ → ℕ} {m n x y : ℕ}

theorem startOf_succ : startOf f (n + 1) = startOf f n + f n := Finset.sum_range_succ f n

theorem startOf_le (h : m ≤ n) : startOf f m ≤ startOf f n :=
  Finset.sum_le_sum_of_subset (Finset.range_mono h)

theorem startOf_add_lt_iff (hx : 1 ≤ x ∧ x ≤ f m) (hy : 1 ≤ y ∧ y ≤ f n) :
    startOf f m + x < startOf f n + y ↔ m < n ∨ m = n ∧ x < y := by
  rcases lt_trichotomy m n with h | rfl | h
  · have hle := startOf_le (f := f) (Nat.succ_le_of_lt h)
    rw [startOf_succ] at hle
    exact iff_of_true (by omega) (Or.inl h)
  · simp
  · have hle := startOf_le (f := f) (Nat.succ_le_of_lt h)
    rw [startOf_succ] at hle
    exact iff_of_false (by omega) (by omega)

end Blocks

def isLeap (year : ℕ) : Bool := year % 4 = 0 ∧ (year % 100 ≠ 0 ∨ year % 400 = 0)

def monthLength (leap : Bool) : ℕ → ℕ
  | 0 => 0
  | 2 => if leap then 29 else 28
  | 4 | 6 | 9 | 11 => 30
  | _ => 31

def yearLength (year : ℕ) : ℕ := startOf (monthLength (isLeap year)) 13

/-- A date of the Gregorian calendar, with a year of four digits. -/
structure Date where
  year : ℕ
  month : ℕ
  day : ℕ
  year_lt : year < 10000
  month_le : month ≤ 12
  day_pos : 1 ≤ day
  day_le : day ≤ monthLength (isLeap year) month
  deriving DecidableEq

namespace Date

def dayOfYear (d : Date) : ℕ := startOf (monthLength (isLeap d.year)) d.month + d.day

def number (d : Date) : ℕ := startOf yearLength d.year + d.dayOfYear

theorem dayOfYear_bounds (d : Date) : 1 ≤ d.dayOfYear ∧ d.dayOfYear ≤ yearLength d.year := by
  have hday := d.day_pos
  have hle := d.day_le
  have hyear : startOf (monthLength (isLeap d.year)) (d.month + 1) ≤ yearLength d.year :=
    startOf_le (Nat.succ_le_succ d.month_le)
  rw [startOf_succ] at hyear
  unfold dayOfYear
  omega

theorem number_lt_iff {d e : Date} : d.number < e.number ↔
    d.year < e.year ∨ d.year = e.year ∧ (d.month < e.month ∨ d.month = e.month ∧ d.day < e.day) := by
  rw [number, number, startOf_add_lt_iff d.dayOfYear_bounds e.dayOfYear_bounds]
  refine or_congr_right (and_congr_right fun hyear => ?_)
  unfold dayOfYear
  rw [← hyear]
  exact startOf_add_lt_iff ⟨d.day_pos, d.day_le⟩ ⟨e.day_pos, hyear ▸ e.day_le⟩

end Date

/-! ## Texts of a fixed width -/

theorem append_lt_append_iff {l m s t : List Char} (h : l.length = m.length) :
    l ++ s < m ++ t ↔ l < m ∨ l = m ∧ s < t := by
  induction l generalizing m with
  | nil =>
    cases List.length_eq_zero_iff.mp h.symm
    simp
  | cons c l ih =>
    cases m with
    | nil => cases h
    | cons d m =>
      rw [List.cons_append, List.cons_append, List.cons_lt_cons_iff, List.cons_lt_cons_iff, ih (Nat.succ.inj h),
        List.cons.injEq]
      tauto

theorem digitChar_lt_iff {a b : ℕ} (ha : a < 10) (hb : b < 10) : Nat.digitChar a < Nat.digitChar b ↔ a < b := by
  have hall : ∀ a b : Fin 10, Nat.digitChar a < Nat.digitChar b ↔ (a : ℕ) < b := by decide
  exact hall ⟨a, ha⟩ ⟨b, hb⟩

theorem digitChar_inj {a b : ℕ} (ha : a < 10) (hb : b < 10) : Nat.digitChar a = Nat.digitChar b ↔ a = b := by
  have hall : ∀ a b : Fin 10, Nat.digitChar a = Nat.digitChar b ↔ (a : ℕ) = b := by decide
  exact hall ⟨a, ha⟩ ⟨b, hb⟩

/-- A number with `w` digits. -/
def pad : ℕ → ℕ → List Char
  | 0, _ => []
  | w + 1, n => Nat.digitChar (n / 10 ^ w) :: pad w (n % 10 ^ w)

section Pad

variable {w a b : ℕ}

@[simp] theorem length_pad : (pad w a).length = w := by
  induction w generalizing a with
  | zero => rfl
  | succ w ih => rw [pad, List.length_cons, ih]

theorem pad_lt_iff (ha : a < 10 ^ w) (hb : b < 10 ^ w) : pad w a < pad w b ↔ a < b := by
  induction w generalizing a b with
  | zero =>
    simp only [pad, List.not_lt_nil, false_iff]
    omega
  | succ w ih =>
    have hpos : 0 < 10 ^ w := Nat.pos_of_ne_zero (by simp)
    have hda : a / 10 ^ w < 10 := by rwa [Nat.div_lt_iff_lt_mul hpos, ← pow_succ']
    have hdb : b / 10 ^ w < 10 := by rwa [Nat.div_lt_iff_lt_mul hpos, ← pow_succ']
    have hra := Nat.mod_lt a hpos
    have hrb := Nat.mod_lt b hpos
    rw [pad, pad, List.cons_lt_cons_iff, digitChar_lt_iff hda hdb, digitChar_inj hda hdb, ih hra hrb]
    have hea := Nat.div_add_mod a (10 ^ w)
    have heb := Nat.div_add_mod b (10 ^ w)
    rcases lt_trichotomy (a / 10 ^ w) (b / 10 ^ w) with h | h | h
    · exact iff_of_true (Or.inl h) (Nat.lt_of_div_lt_div h)
    · rw [h] at hea
      omega
    · have := Nat.lt_of_div_lt_div h
      omega

theorem pad_inj (ha : a < 10 ^ w) (hb : b < 10 ^ w) : pad w a = pad w b ↔ a = b := by
  refine ⟨fun h => ?_, fun h => h ▸ rfl⟩
  by_contra hne
  rcases lt_or_gt_of_ne hne with hlt | hlt
  · exact List.lt_irrefl _ (h ▸ (pad_lt_iff ha hb).mpr hlt)
  · exact List.lt_irrefl _ (h ▸ (pad_lt_iff hb ha).mpr hlt)

end Pad

/-! ## Spellings -/

def fraction : List (Fin 10) → ℚ
  | [] => 0
  | d :: ds => ((d : ℕ) + fraction ds) / 10

/-- What stands between date and time. -/
inductive Separator where
  | upperT
  | lowerT
  | space
  deriving DecidableEq

def Separator.char : Separator → Char
  | .upperT => 'T'
  | .lowerT => 't'
  | .space => ' '

/-- The sign of an offset; the last is U+2212. -/
inductive Sign where
  | plus
  | hyphen
  | minus
  deriving DecidableEq

def Sign.char : Sign → Char
  | .plus => '+'
  | .hyphen => '-'
  | .minus => Char.ofNat 0x2212

inductive Zone where
  | upperZ
  | lowerZ
  | offset (sign : Sign) (hour : Fin 24) (minute : Fin 60)
  deriving DecidableEq

def Zone.ahead : Zone → ℤ
  | .offset .plus hour minute => 60 * hour + minute
  | .offset _ hour minute => -(60 * hour + minute)
  | _ => 0

def Zone.text : Zone → List Char
  | .upperZ => ['Z']
  | .lowerZ => ['z']
  | .offset sign hour minute => sign.char :: (pad 2 hour ++ ':' :: pad 2 minute)

/-- A timestamp as it is spelled. -/
structure Stamp where
  date : Date
  sep : Separator
  hour : Fin 24
  minute : Fin 60
  second : Fin 61
  frac : List (Fin 10)
  zone : Zone
  deriving DecidableEq

/-- A minute of UTC, and the time within it. -/
abbrev Instant := ℤ ×ₗ ℚ

def Date.text (d : Date) : List Char := pad 4 d.year ++ '-' :: (pad 2 d.month ++ '-' :: pad 2 d.day)

namespace Stamp

def clock (a : Stamp) : ℕ ×ₗ ℕ := toLex (60 * a.hour + a.minute, (a.second : ℕ))

def clockText (a : Stamp) : List Char := pad 2 a.hour ++ ':' :: (pad 2 a.minute ++ ':' :: pad 2 a.second)

def tail (a : Stamp) : List Char :=
  (if a.frac = [] then [] else '.' :: a.frac.map fun d => Nat.digitChar d) ++ a.zone.text

def text (a : Stamp) : List Char := a.date.text ++ (a.sep.char :: (a.clockText ++ a.tail))

def instant (a : Stamp) : Instant :=
  toLex (1440 * a.date.number + 60 * a.hour + a.minute - a.zone.ahead, a.second + fraction a.frac)

end Stamp

/-! ## The order of the texts -/

section Order

variable {d e : Date} {a b : Stamp}

theorem fraction_bounds (ds : List (Fin 10)) : 0 ≤ fraction ds ∧ fraction ds < 1 := by
  induction ds with
  | nil => exact ⟨le_rfl, zero_lt_one⟩
  | cons d ds ih =>
    have hd : ((d : ℕ) : ℚ) ≤ 9 := by exact_mod_cast Nat.le_of_lt_succ d.isLt
    constructor
    · rw [fraction]
      have := ih.1
      positivity
    · rw [fraction, div_lt_one (by norm_num)]
      linarith [ih.2]

theorem Date.length_text : d.text.length = 10 := by simp [Date.text]

theorem Date.year_bound (d : Date) : d.year < 10 ^ 4 := d.year_lt

theorem Date.month_bound (d : Date) : d.month < 10 ^ 2 := by have := d.month_le; omega

theorem monthLength_le (leap : Bool) (m : ℕ) : monthLength leap m ≤ 31 := by
  unfold monthLength
  split <;> (try split_ifs) <;> omega

theorem Date.day_bound (d : Date) : d.day < 10 ^ 2 := by
  have := d.day_le.trans (monthLength_le _ _)
  omega

theorem Date.text_lt_iff : d.text < e.text ↔ d.number < e.number := by
  unfold Date.text
  rw [Date.number_lt_iff, append_lt_append_iff (by simp), List.cons_lt_cons_iff, append_lt_append_iff (by simp),
    List.cons_lt_cons_iff, pad_lt_iff d.year_bound e.year_bound, pad_inj d.year_bound e.year_bound,
    pad_lt_iff d.month_bound e.month_bound, pad_inj d.month_bound e.month_bound, pad_lt_iff d.day_bound e.day_bound]
  simp

theorem Date.text_inj : d.text = e.text ↔ d = e := by
  refine ⟨fun h => ?_, fun h => h ▸ rfl⟩
  unfold Date.text at h
  obtain ⟨hyear, h⟩ := List.append_inj h (by simp)
  obtain ⟨hmonth, h⟩ := List.append_inj (List.cons.inj h).2 (by simp)
  have hday := (List.cons.inj h).2
  rw [pad_inj d.year_bound e.year_bound] at hyear
  rw [pad_inj d.month_bound e.month_bound] at hmonth
  rw [pad_inj d.day_bound e.day_bound] at hday
  cases d
  cases e
  subst hyear hmonth hday
  rfl

theorem Separator.char_inj {s t : Separator} : s.char = t.char ↔ s = t := by
  cases s <;> cases t <;> decide

theorem Stamp.length_clockText : a.clockText.length = 8 := by simp [Stamp.clockText]

theorem Stamp.hour_bound (a : Stamp) : (a.hour : ℕ) < 10 ^ 2 := by have := a.hour.isLt; omega

theorem Stamp.minute_bound (a : Stamp) : (a.minute : ℕ) < 10 ^ 2 := by have := a.minute.isLt; omega

theorem Stamp.second_bound (a : Stamp) : (a.second : ℕ) < 10 ^ 2 := by have := a.second.isLt; omega

theorem Stamp.clockText_lt_iff : a.clockText < b.clockText ↔ a.clock < b.clock := by
  unfold Stamp.clockText Stamp.clock
  rw [append_lt_append_iff (by simp), List.cons_lt_cons_iff, append_lt_append_iff (by simp), List.cons_lt_cons_iff,
    pad_lt_iff a.hour_bound b.hour_bound, pad_inj a.hour_bound b.hour_bound, pad_lt_iff a.minute_bound b.minute_bound,
    pad_inj a.minute_bound b.minute_bound, pad_lt_iff a.second_bound b.second_bound, Prod.Lex.toLex_lt_toLex]
  simp only [Char.lt_irrefl, false_or, true_and]
  omega

theorem Stamp.clockText_inj : a.clockText = b.clockText ↔ a.clock = b.clock := by
  constructor
  · intro h
    by_contra hne
    rcases lt_or_gt_of_ne hne with hlt | hlt
    · exact List.lt_irrefl _ (h ▸ Stamp.clockText_lt_iff.mpr hlt)
    · exact List.lt_irrefl _ (h ▸ Stamp.clockText_lt_iff.mpr hlt)
  · intro h
    obtain ⟨hminutes, hsecond⟩ := Prod.mk.inj (toLex.injective h)
    have hhour : (a.hour : ℕ) = b.hour := by omega
    have hminute : (a.minute : ℕ) = b.minute := by omega
    rw [Stamp.clockText, Stamp.clockText, hhour, hminute, hsecond]

theorem Stamp.text_lt_iff : a.text < b.text ↔
    a.date.number < b.date.number ∨ a.date = b.date ∧ (a.sep.char < b.sep.char ∨
      a.sep = b.sep ∧ (a.clock < b.clock ∨ a.clock = b.clock ∧ a.tail < b.tail)) := by
  have hdate : a.date.text.length = b.date.text.length := by rw [Date.length_text, Date.length_text]
  have hclock : a.clockText.length = b.clockText.length := by rw [Stamp.length_clockText, Stamp.length_clockText]
  unfold Stamp.text
  rw [append_lt_append_iff hdate, List.cons_lt_cons_iff, append_lt_append_iff hclock, Date.text_lt_iff, Date.text_inj,
    Separator.char_inj, Stamp.clockText_lt_iff, Stamp.clockText_inj]

end Order

/-! ## Spellings that mislead -/

/-- The spelling of `a` comes before that of `b`, but `a` is not the earlier time. -/
inductive Misleads (a b : Stamp) : Prop where
  /-- The date, or after one separator the clock, is earlier, and the offsets make up for it. -/
  | offset (hread : a.date.number < b.date.number ∨ a.date = b.date ∧ a.sep = b.sep ∧ a.clock < b.clock)
      (htime : b.instant ≤ a.instant)
  /-- On one date, the separator comes earlier. -/
  | separator (hdate : a.date = b.date) (hsep : a.sep.char < b.sep.char) (htime : b.instant ≤ a.instant)
  /-- In one second at one offset, the digits with the zone come earlier, and the fraction is not less. -/
  | fraction (hdate : a.date = b.date) (hsep : a.sep = b.sep) (hclock : a.clock = b.clock)
      (hzone : a.zone.ahead = b.zone.ahead) (htail : a.tail < b.tail) (hfrac : fraction b.frac ≤ fraction a.frac)
  /-- On one clock to the second at two offsets, the digits with the zone come earlier, and the offset is less. -/
  | zone (hdate : a.date = b.date) (hsep : a.sep = b.sep) (hclock : a.clock = b.clock)
      (htail : a.tail < b.tail) (hzone : a.zone.ahead < b.zone.ahead)

section Misleads

variable {a b : Stamp}

theorem Stamp.instant_le_iff (hdate : a.date = b.date) (hclock : a.clock = b.clock) : b.instant ≤ a.instant ↔
    a.zone.ahead < b.zone.ahead ∨ a.zone.ahead = b.zone.ahead ∧ fraction b.frac ≤ fraction a.frac := by
  obtain ⟨hminutes, hsecond⟩ := Prod.mk.inj (toLex.injective hclock)
  unfold Stamp.instant
  rw [Prod.Lex.toLex_le_toLex, hdate, hsecond, add_le_add_iff_left]
  refine or_congr (by omega) (and_congr_left fun _ => ?_)
  omega

theorem misleads_iff : Misleads a b ↔ a.text < b.text ∧ b.instant ≤ a.instant := by
  rw [Stamp.text_lt_iff]
  constructor
  · rintro (⟨hdate | ⟨hdate, hsep, hclock⟩, htime⟩ | ⟨hdate, hsep, htime⟩ | ⟨hdate, hsep, hclock, hzone, htail, hfrac⟩ |
      ⟨hdate, hsep, hclock, htail, hzone⟩)
    · exact ⟨Or.inl hdate, htime⟩
    · exact ⟨Or.inr ⟨hdate, Or.inr ⟨hsep, Or.inl hclock⟩⟩, htime⟩
    · exact ⟨Or.inr ⟨hdate, Or.inl hsep⟩, htime⟩
    · exact ⟨Or.inr ⟨hdate, Or.inr ⟨hsep, Or.inr ⟨hclock, htail⟩⟩⟩,
        (Stamp.instant_le_iff hdate hclock).mpr (Or.inr ⟨hzone, hfrac⟩)⟩
    · exact ⟨Or.inr ⟨hdate, Or.inr ⟨hsep, Or.inr ⟨hclock, htail⟩⟩⟩,
        (Stamp.instant_le_iff hdate hclock).mpr (Or.inl hzone)⟩
  · rintro ⟨hdate | ⟨hdate, hsep | ⟨hsep, hclock | ⟨hclock, htail⟩⟩⟩, htime⟩
    · exact .offset (Or.inl hdate) htime
    · exact .separator hdate hsep htime
    · exact .offset (Or.inr ⟨hdate, hsep, hclock⟩) htime
    · rcases (Stamp.instant_le_iff hdate hclock).mp htime with hzone | ⟨hzone, hfrac⟩
      · exact .zone hdate hsep hclock htail hzone
      · exact .fraction hdate hsep hclock hzone htail hfrac

theorem Stamp.instant_lt_of_ahead_eq (hzone : a.zone.ahead = b.zone.ahead)
    (h : a.date.number < b.date.number ∨ a.date = b.date ∧ a.clock < b.clock) : a.instant < b.instant := by
  unfold Stamp.instant
  rw [Prod.Lex.toLex_lt_toLex, hzone]
  rcases h with hdate | ⟨hdate, hclock⟩
  · exact Or.inl (by simp only; omega)
  · rw [Stamp.clock, Stamp.clock, Prod.Lex.toLex_lt_toLex] at hclock
    rcases hclock with hclock | ⟨hclock, hsecond⟩
    · exact Or.inl (by rw [hdate]; simp only at hclock ⊢; omega)
    · refine Or.inr ⟨by rw [hdate]; simp only at hclock ⊢; omega, ?_⟩
      have hle : ((a.second : ℕ) : ℚ) + 1 ≤ (b.second : ℕ) := by exact_mod_cast hsecond
      have hlt := (fraction_bounds a.frac).2
      have hnonneg := (fraction_bounds b.frac).1
      linarith

end Misleads

/-! ## Spellings that do not -/

section Format

def digits (ds : List (Fin 10)) : List Char := ds.map fun d => Nat.digitChar d

variable {ds es : List (Fin 10)} {d e : Fin 10} {c : Char} {z : List Char}

theorem digits_cons_append_lt_iff : digits (d :: ds) ++ z < digits (e :: es) ++ z ↔
    d < e ∨ d = e ∧ digits ds ++ z < digits es ++ z := by
  show Nat.digitChar d :: (digits ds ++ z) < Nat.digitChar e :: (digits es ++ z) ↔ _
  rw [List.cons_lt_cons_iff, digitChar_lt_iff d.isLt e.isLt, digitChar_inj d.isLt e.isLt, Fin.val_inj]
  rfl

theorem fraction_lt_of_lt (h : d < e) : fraction (d :: ds) < fraction (e :: es) := by
  have hle : ((d : ℕ) : ℚ) + 1 ≤ (e : ℕ) := by exact_mod_cast h
  have hlt := (fraction_bounds ds).2
  have hnonneg := (fraction_bounds es).1
  rw [fraction, fraction]
  linarith

theorem fraction_lt_cons_iff : fraction (d :: ds) < fraction (d :: es) ↔ fraction ds < fraction es := by
  rw [fraction, fraction, div_lt_div_iff_of_pos_right (by norm_num), add_lt_add_iff_left]

theorem fraction_pos_or_zeros : 0 < fraction ds ∨ ds = List.replicate ds.length 0 := by
  induction ds with
  | nil => exact Or.inr rfl
  | cons d ds ih =>
    have hnonneg := (fraction_bounds ds).1
    by_cases hd : d = 0
    · subst hd
      refine ih.imp (fun hpos => ?_) fun hzeros => ?_
      · rw [fraction]
        positivity
      · rw [List.length_cons, List.replicate_succ, ← hzeros]
    · have hpos : (0 : ℚ) < (d : ℕ) := by exact_mod_cast Nat.pos_of_ne_zero fun h => hd (Fin.ext h)
      left
      rw [fraction]
      positivity

/-- Before a zone that comes before the digits, any digits are ordered by their value, but for zeros at the end. -/
theorem fraction_lt_or_zeros (hc : c < '0') (h : digits ds ++ c :: z < digits es ++ c :: z) :
    fraction ds < fraction es ∨ ∃ k, es = ds ++ List.replicate (k + 1) 0 := by
  induction ds generalizing es with
  | nil =>
    cases es with
    | nil => exact absurd h (List.lt_irrefl _)
    | cons e es => exact fraction_pos_or_zeros.imp id fun hzeros => ⟨es.length, hzeros⟩
  | cons d ds ih =>
    cases es with
    | nil =>
      have hdigit : ∀ d : Fin 10, ¬Nat.digitChar d < '0' := by decide
      rcases List.cons_lt_cons_iff.mp h with hlt | ⟨rfl, -⟩
      · exact absurd (Char.lt_trans hlt hc) (hdigit d)
      · exact absurd hc (hdigit d)
    | cons e es =>
      rcases digits_cons_append_lt_iff.mp h with hlt | ⟨rfl, hrest⟩
      · exact Or.inl (fraction_lt_of_lt hlt)
      · refine (ih hrest).imp fraction_lt_cons_iff.mpr fun ⟨k, hk⟩ => ⟨k, ?_⟩
        rw [hk, List.cons_append]

variable {a b : Stamp}

theorem tail_lt_of_misleads (h : Misleads a b) (hsep : a.sep = b.sep) (hzone : a.zone = b.zone) :
    a.tail < b.tail ∧ fraction b.frac ≤ fraction a.frac := by
  have hahead : a.zone.ahead = b.zone.ahead := congrArg Zone.ahead hzone
  cases h with
  | offset hread htime =>
    refine absurd (Stamp.instant_lt_of_ahead_eq hahead ?_) (not_lt_of_ge htime)
    exact hread.imp id fun h => ⟨h.1, h.2.2⟩
  | separator hdate hlt htime => exact absurd hlt (hsep ▸ Char.lt_irrefl _)
  | fraction hdate hsep hclock hzone htail hfrac => exact ⟨htail, hfrac⟩
  | zone hdate hsep hclock htail hlt => exact absurd hlt (hahead ▸ lt_irrefl _)

/-- The spelling of a UTC clock that prints as many groups of three digits as it needs. -/
structure Stamp.Plain (a : Stamp) : Prop where
  sep : a.sep = .upperT
  zone : a.zone = .offset .plus 0 0
  groups : 3 ∣ a.frac.length
  needed : ∀ ds, a.frac ≠ ds ++ [0, 0, 0]

/-- Plain spellings do not mislead about each other. -/
theorem not_misleads_of_plain (ha : a.Plain) (hb : b.Plain) : ¬Misleads a b := by
  intro hm
  obtain ⟨htail, hfrac⟩ := tail_lt_of_misleads hm (ha.sep.trans hb.sep.symm) (ha.zone.trans hb.zone.symm)
  obtain ⟨z, hz⟩ : ∃ z, Zone.text (.offset .plus 0 0) = '+' :: z := ⟨_, rfl⟩
  unfold Stamp.tail at htail
  rw [ha.zone, hb.zone, hz] at htail
  have hdigits : digits a.frac ++ '+' :: z < digits b.frac ++ '+' :: z := by
    -- the point of a fraction is between the plus sign and the digits
    cases hafrac : a.frac with
    | nil =>
      cases hbfrac : b.frac with
      | nil =>
        rw [hafrac, hbfrac] at htail
        exact absurd htail (List.lt_irrefl _)
      | cons e es =>
        have hplus : ∀ e : Fin 10, '+' < Nat.digitChar e := by decide
        exact List.cons_lt_cons_iff.mpr (Or.inl (hplus e))
    | cons d ds =>
      rw [hafrac] at htail
      cases hbfrac : b.frac with
      | nil =>
        rw [hbfrac] at htail
        rcases List.cons_lt_cons_iff.mp htail with hlt | ⟨heq, -⟩
        · exact absurd hlt (by decide)
        · exact absurd heq (by decide)
      | cons e es =>
        rw [hbfrac] at htail
        rcases List.cons_lt_cons_iff.mp htail with hlt | ⟨-, hrest⟩
        · exact absurd hlt (Char.lt_irrefl _)
        · exact hrest
  rcases fraction_lt_or_zeros (by decide) hdigits with hlt | ⟨k, hk⟩
  · exact absurd hlt (not_lt_of_ge hfrac)
  · have hgroups := hb.groups
    rw [hk, List.length_append, List.length_replicate] at hgroups
    obtain ⟨m, hm⟩ : ∃ m, k + 1 = m + 3 := ⟨k - 2, by have := ha.groups; omega⟩
    refine hb.needed (a.frac ++ List.replicate m 0) ?_
    rw [hk, hm, List.replicate_add, List.append_assoc]
    rfl

end Format

end Timestamps
