import Mathlib.Data.List.Basic
import Mathlib.Tactic

/-!
# IP addresses and their texts

The parser of `std::net::IpAddr` and the ranges an address can lie in. An IPv6 address of the form `::ffff:a.b.c.d` is
the IPv4 address `a.b.c.d` (`Addr.canonical`).

A reader takes what it understands from the front of a text. None of them takes a character that is not a digit, a
letter, a dot or a colon (`fromStr_eq_none`).
-/

namespace IpAddr

/-- An IPv4 address: its four octets. -/
structure V4 where
  a : UInt8
  b : UInt8
  c : UInt8
  d : UInt8
  deriving DecidableEq

/-- An IPv6 address: its eight segments. -/
structure V6 where
  segments : List UInt16
  length_eq : segments.length = 8
  deriving DecidableEq

/-- An address. -/
inductive Addr where
  | v4 (a : V4)
  | v6 (a : V6)
  deriving DecidableEq

/-! ## Ranges -/

namespace V4

def isUnspecified (x : V4) : Bool := x = ⟨0, 0, 0, 0⟩

def isLoopback (x : V4) : Bool := x.a = 127

def isPrivate (x : V4) : Bool := x.a = 10 || x.a = 172 && 16 ≤ x.b && x.b ≤ 31 || x.a = 192 && x.b = 168

def isLinkLocal (x : V4) : Bool := x.a = 169 && x.b = 254

def isMulticast (x : V4) : Bool := 224 ≤ x.a && x.a ≤ 239

def isBroadcast (x : V4) : Bool := x = ⟨255, 255, 255, 255⟩

end V4

namespace V6

def first (x : V6) : UInt16 := x.segments.headD 0

def isUnspecified (x : V6) : Bool := x.segments = [0, 0, 0, 0, 0, 0, 0, 0]

def isLoopback (x : V6) : Bool := x.segments = [0, 0, 0, 0, 0, 0, 0, 1]

def isMulticast (x : V6) : Bool := x.first &&& 0xff00 = 0xff00

def isUniqueLocal (x : V6) : Bool := x.first &&& 0xfe00 = 0xfc00

def isLinkLocal (x : V6) : Bool := x.first &&& 0xffc0 = 0xfe80

/-- The IPv4 address that is mapped to `::ffff:a.b.c.d`. -/
def toIpv4Mapped (x : V6) : Option V4 :=
  match x.segments with
  | [0, 0, 0, 0, 0, 0xffff, ab, cd] => some ⟨(ab / 256).toUInt8, ab.toUInt8, (cd / 256).toUInt8, cd.toUInt8⟩
  | _ => none

end V6

namespace Addr

def canonical : Addr → Addr
  | v4 a => v4 a
  | v6 a => a.toIpv4Mapped.elim (v6 a) v4

def isLoopback : Addr → Bool
  | v4 a => a.isLoopback
  | v6 a => a.isLoopback

/-- Private, link-local, unique-local, unspecified, multicast or broadcast. -/
def isInternal : Addr → Bool
  | v4 a => a.isPrivate || a.isLinkLocal || a.isMulticast || a.isBroadcast || a.isUnspecified
  | v6 a => a.isUniqueLocal || a.isLinkLocal || a.isMulticast || a.isUnspecified

end Addr

/-! ## Reading -/

/-- Takes a value from the front of a text. -/
abbrev Reader (α : Type) := List Char → Option (α × List Char)

def toDigit (radix : ℕ) (c : Char) : Option ℕ :=
  let n := if c.isDigit then c.toNat - 48 else if c.isLower then c.toNat - 87 else if c.isUpper then c.toNat - 55 else radix
  if n < radix then some n else none

/-- The digits of a number, with their count; too many are an error. -/
def readDigits (radix maxDigits : ℕ) (result count : ℕ) : List Char → Option (ℕ × ℕ × List Char)
  | [] => some (result, count, [])
  | c :: cs =>
    match toDigit radix c with
    | none => some (result, count, c :: cs)
    | some d =>
      if maxDigits < count + 1 then none else readDigits radix maxDigits (result * radix + d) (count + 1) cs

/-- `read_number`: a number below the bound. -/
def readNumber (radix maxDigits : ℕ) (allowZeroPrefix : Bool) (bound : ℕ) : Reader ℕ := fun s =>
  (readDigits radix maxDigits 0 0 s).bind fun (n, count, rest) =>
    if count = 0 ∨ !allowZeroPrefix ∧ s.head? = some '0' ∧ 1 < count ∨ bound ≤ n then none else some (n, rest)

def readGivenChar (c : Char) : Reader Unit
  | [] => none
  | d :: cs => if d = c then some ((), cs) else none

/-- `read_separator`: the separator comes before every item but the first. -/
def readSeparator {α : Type} (sep : Char) (index : ℕ) (inner : Reader α) : Reader α := fun s =>
  if 0 < index then (readGivenChar sep s).bind fun r => inner r.2 else inner s

def readOctet (index : ℕ) : Reader UInt8 := fun s =>
  (readSeparator '.' index (readNumber 10 3 false 256) s).map fun r => (UInt8.ofNat r.1, r.2)

def readIpv4Addr : Reader V4 := fun s => do
  let (a, s) ← readOctet 0 s
  let (b, s) ← readOctet 1 s
  let (c, s) ← readOctet 2 s
  let (d, s) ← readOctet 3 s
  some (⟨a, b, c, d⟩, s)

def segment (hi lo : UInt8) : UInt16 := hi.toUInt16 * 256 + lo.toUInt16

/-- `read_groups` with so many slots left, from the given index: the groups, and whether an IPv4 address ended them. An
IPv4 address needs two slots. -/
def readGroups : ℕ → ℕ → List Char → List UInt16 × Bool × List Char
  | 0, _, s => ([], false, s)
  | slots + 1, index, s =>
    match if slots = 0 then none else readSeparator ':' index readIpv4Addr s with
    | some (x, rest) => ([segment x.a x.b, segment x.c x.d], true, rest)
    | none =>
      match readSeparator ':' index (readNumber 16 4 true 65536) s with
      | some (g, rest) =>
        let r := readGroups slots (index + 1) rest
        (UInt16.ofNat g :: r.1, r.2)
      | none => ([], false, s)

def V6.ofList? (l : List UInt16) : Option V6 := if h : l.length = 8 then some ⟨l, h⟩ else none

/-- `read_ipv6_addr`: all groups, or those around `::`. -/
def readIpv6Addr : Reader V6 := fun s =>
  let front := readGroups 8 0 s
  if front.1.length = 8 then (V6.ofList? front.1).map fun x => (x, front.2.2)
  else if front.2.1 then none
  else do
    let (_, s) ← readGivenChar ':' front.2.2
    let (_, s) ← readGivenChar ':' s
    let back := readGroups (7 - front.1.length) 0 s
    let x ← V6.ofList? (front.1 ++ List.replicate (8 - front.1.length - back.1.length) 0 ++ back.1)
    some (x, back.2.2)

def readIpAddr : Reader Addr := fun s =>
  match readIpv4Addr s with
  | some r => some (.v4 r.1, r.2)
  | none => (readIpv6Addr s).map fun r => (.v6 r.1, r.2)

/-- `IpAddr::from_str`: the reader takes the whole text. -/
def fromStr (s : List Char) : Option Addr :=
  (readIpAddr s).bind fun r => if r.2 = [] then some r.1 else none

example : fromStr "10.0.0.1".toList = some (.v4 ⟨10, 0, 0, 1⟩) := by decide

example : fromStr "010.0.0.1".toList = none := by decide

example : (fromStr "::ffff:10.0.0.1".toList).map Addr.canonical = some (.v4 ⟨10, 0, 0, 1⟩) := by decide

/-! ## Characters of an address -/

section Characters

variable {α : Type} {x : Char} {s rest : List Char}

/-- A reader that leaves the character `x` where it is. -/
def Leaves (x : Char) (r : Reader α) : Prop := ∀ s a rest, r s = some (a, rest) → x ∈ s → x ∈ rest

theorem mem_readDigits {radix maxDigits result count n k : ℕ} (hx : toDigit radix x = none)
    (h : readDigits radix maxDigits result count s = some (n, k, rest)) (hmem : x ∈ s) : x ∈ rest := by
  induction s generalizing result count with
  | nil => cases hmem
  | cons c cs ih =>
    rw [readDigits] at h
    cases hc : toDigit radix c with
    | none =>
      rw [hc] at h
      simp only [Option.some.injEq, Prod.mk.injEq] at h
      exact h.2.2 ▸ hmem
    | some d =>
      rw [hc] at h
      have hne : x ≠ c := fun e => by
        rw [e, hc] at hx
        cases hx
      split_ifs at h
      exact ih h ((List.mem_cons.mp hmem).resolve_left hne)

theorem leaves_readNumber {radix maxDigits bound : ℕ} {allowZeroPrefix : Bool} (hx : toDigit radix x = none) :
    Leaves x (readNumber radix maxDigits allowZeroPrefix bound) := by
  intro s a rest h hmem
  obtain ⟨⟨n, k, rest'⟩, hdigits, h⟩ := Option.bind_eq_some_iff.mp h
  dsimp only at h
  split_ifs at h
  simp only [Option.some.injEq, Prod.mk.injEq] at h
  exact h.2 ▸ mem_readDigits hx hdigits hmem

theorem leaves_readGivenChar {c : Char} (hx : x ≠ c) : Leaves x (readGivenChar c) := by
  intro s a rest h hmem
  cases s with
  | nil => cases h
  | cons d cs =>
    rw [readGivenChar] at h
    split_ifs at h with hd
    cases h
    exact (List.mem_cons.mp hmem).resolve_left (hd ▸ hx)

theorem leaves_readSeparator {sep : Char} {index : ℕ} {inner : Reader α} (hx : x ≠ sep) (h : Leaves x inner) :
    Leaves x (readSeparator sep index inner) := by
  intro s a rest hr hmem
  unfold readSeparator at hr
  split_ifs at hr
  · obtain ⟨⟨u, rest'⟩, hchar, hr⟩ := Option.bind_eq_some_iff.mp hr
    exact h _ a rest hr (leaves_readGivenChar hx _ _ _ hchar hmem)
  · exact h s a rest hr hmem

theorem leaves_readOctet {index : ℕ} (hx : toDigit 10 x = none) (hdot : x ≠ '.') : Leaves x (readOctet index) := by
  intro s a rest h hmem
  obtain ⟨⟨n, rest'⟩, hr, h⟩ := Option.map_eq_some_iff.mp h
  simp only [Prod.mk.injEq] at h
  exact h.2 ▸ leaves_readSeparator hdot (leaves_readNumber hx) s n rest' hr hmem

theorem leaves_readIpv4Addr (hx : toDigit 10 x = none) (hdot : x ≠ '.') : Leaves x readIpv4Addr := by
  intro s y rest h hmem
  unfold readIpv4Addr at h
  simp only [Option.bind_eq_bind, Option.bind_eq_some_iff, Prod.exists, Option.some.injEq, Prod.mk.injEq] at h
  obtain ⟨a, s₁, ha, b, s₂, hb, c, s₃, hc, d, s₄, hd, -, rfl⟩ := h
  have hoctet {i : ℕ} : Leaves x (readOctet i) := leaves_readOctet hx hdot
  exact hoctet _ d _ hd (hoctet _ c _ hc (hoctet _ b _ hb (hoctet _ a _ ha hmem)))

/-- A character that is no part of an address. -/
structure Foreign (x : Char) : Prop where
  decimal : toDigit 10 x = none
  hex : toDigit 16 x = none
  dot : x ≠ '.'
  colon : x ≠ ':'

theorem mem_readGroups {slots index : ℕ} (hx : Foreign x) (hmem : x ∈ s) : x ∈ (readGroups slots index s).2.2 := by
  induction slots generalizing index s with
  | zero => exact hmem
  | succ slots ih =>
    unfold readGroups
    split
    · next y rest h =>
      split_ifs at h
      exact leaves_readSeparator hx.colon (leaves_readIpv4Addr hx.decimal hx.dot) s y rest h hmem
    · split
      · next g rest h =>
        exact ih (leaves_readSeparator hx.colon (leaves_readNumber hx.hex) s g rest h hmem)
      · exact hmem

theorem leaves_readIpv6Addr (hx : Foreign x) : Leaves x readIpv6Addr := by
  intro s y rest h hmem
  have hfront : x ∈ (readGroups 8 0 s).2.2 := mem_readGroups hx hmem
  unfold readIpv6Addr at h
  dsimp only at h
  split_ifs at h
  · obtain ⟨z, -, hz⟩ := Option.map_eq_some_iff.mp h
    simp only [Prod.mk.injEq] at hz
    exact hz.2 ▸ hfront
  · simp only [Option.bind_eq_bind, Option.bind_eq_some_iff, Prod.exists, Option.some.injEq, Prod.mk.injEq] at h
    obtain ⟨u, s₁, h₁, v, s₂, h₂, z, -, -, rfl⟩ := h
    exact mem_readGroups hx (leaves_readGivenChar hx.colon _ _ _ h₂ (leaves_readGivenChar hx.colon _ _ _ h₁ hfront))

theorem fromStr_eq_none (hx : Foreign x) (hmem : x ∈ s) : fromStr s = none := by
  rw [Option.eq_none_iff_forall_not_mem]
  intro y h
  obtain ⟨⟨z, rest⟩, hread, hrest⟩ := Option.bind_eq_some_iff.mp h
  have hleft : x ∈ rest := by
    unfold readIpAddr at hread
    split at hread
    · next r hr =>
      cases hread
      exact leaves_readIpv4Addr hx.decimal hx.dot s r.1 _ hr hmem
    · obtain ⟨r, hr, he⟩ := Option.map_eq_some_iff.mp hread
      cases he
      exact leaves_readIpv6Addr hx s r.1 _ hr hmem
  dsimp only at hrest
  split_ifs at hrest with hnil
  rw [hnil] at hleft
  cases hleft

end Characters

end IpAddr
