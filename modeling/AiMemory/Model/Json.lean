import Mathlib.Data.List.Basic
import Mathlib.Data.String.Basic
import AiMemory.Lib.Decimals

/-!
# JSON values

`Json` is `serde_json::Value`. An object is a `BTreeMap`, so its fields are listed in key order and
`setField` inserts in that order. A float is kept as the text `serde_json` prints for it.

`Json.extract` and `Json.set` are SQLite's `json_extract` and `json_set` at a top-level key. The value
passes through SQL between the two: JSON `null` is `NULL`, a boolean arrives as an integer, an integer
beyond `i64` as a `REAL`, and a `REAL` is printed with 15 significant digits.
-/

namespace AiMemory

open Decimals

/-- A JSON value as `serde_json` holds it. -/
inductive Json where
  | null
  | bool (b : Bool)
  | int (n : ℤ)
  | float (repr : String)
  | str (s : String)
  | arr (items : List Json)
  | obj (fields : List (String × Json))
  deriving Inhabited, Repr

namespace Json

/-! ## Equality is decidable -/

mutual

def eqv : Json → Json → Bool
  | .null, .null => true
  | .bool a, .bool b => a == b
  | .int a, .int b => a == b
  | .float a, .float b => a == b
  | .str a, .str b => a == b
  | .arr a, .arr b => eqvItems a b
  | .obj a, .obj b => eqvFields a b
  | _, _ => false

def eqvItems : List Json → List Json → Bool
  | [], [] => true
  | a :: as, b :: bs => eqv a b && eqvItems as bs
  | _, _ => false

def eqvFields : List (String × Json) → List (String × Json) → Bool
  | [], [] => true
  | (k, a) :: as, (l, b) :: bs => k == l && eqv a b && eqvFields as bs
  | _, _ => false

end

mutual

theorem eqv_iff (a b : Json) : eqv a b = true ↔ a = b := by
  cases a with
  | arr as => cases b <;> simp [eqv, eqvItems_iff as]
  | obj as => cases b <;> simp [eqv, eqvFields_iff as]
  | _ => cases b <;> simp [eqv]

theorem eqvItems_iff (as bs : List Json) : eqvItems as bs = true ↔ as = bs := by
  cases as with
  | nil => cases bs <;> simp [eqvItems]
  | cons a as => cases bs <;> simp [eqvItems, eqv_iff a, eqvItems_iff as]

theorem eqvFields_iff (as bs : List (String × Json)) : eqvFields as bs = true ↔ as = bs := by
  cases as with
  | nil => cases bs <;> simp [eqvFields]
  | cons a as =>
    obtain ⟨k, a⟩ := a
    cases bs <;> simp [eqvFields, eqv_iff a, eqvFields_iff as, Prod.ext_iff, and_assoc]

end

instance : DecidableEq Json := fun a b => decidable_of_iff _ (eqv_iff a b)

/-! ## Fields -/

/-- The value of key `k` in a list of fields. -/
def getField (k : String) : List (String × Json) → Option Json
  | [] => none
  | (l, v) :: fs => if l = k then some v else getField k fs

/-- Puts a field that is not there yet at its place in key order. -/
def insertField (k : String) (v : Json) : List (String × Json) → List (String × Json)
  | [] => [(k, v)]
  | (l, w) :: fs => if k < l then (k, v) :: (l, w) :: fs else (l, w) :: insertField k v fs

/-- Overwrites the field of key `k`. -/
def replaceField (k : String) (v : Json) : List (String × Json) → List (String × Json)
  | [] => []
  | (l, w) :: fs => if l = k then (k, v) :: fs else (l, w) :: replaceField k v fs

/-- `BTreeMap::insert`. -/
def setField (k : String) (v : Json) (fs : List (String × Json)) : List (String × Json) :=
  if (getField k fs).isSome then replaceField k v fs else insertField k v fs

/-- `Value::get` with a key. -/
def get (j : Json) (k : String) : Option Json :=
  match j with
  | .obj fs => getField k fs
  | _ => none

def asStr : Json → Option String
  | .str s => some s
  | _ => none

def isObject : Json → Bool
  | .obj _ => true
  | _ => false

variable {k : String} {fs : List (String × Json)}

theorem getField_replaceField {v : Json}
    (h : (getField k fs).isSome) : getField k (replaceField k v fs) = some v := by
  induction fs with
  | nil => simp [getField] at h
  | cons f fs ih =>
    obtain ⟨l, w⟩ := f
    unfold getField at h
    unfold replaceField
    split_ifs at h ⊢ with e
    · simp [getField]
    · simp [getField, e, ih h]

theorem getField_insertField {v : Json}
    (h : getField k fs = none) : getField k (insertField k v fs) = some v := by
  induction fs with
  | nil => simp [insertField, getField]
  | cons f fs ih =>
    obtain ⟨l, w⟩ := f
    unfold getField at h
    split_ifs at h with e
    unfold insertField
    split_ifs
    · simp [getField]
    · simp [getField, e, ih h]

theorem replaceField_replaceField (k : String) (v w : Json) (fs : List (String × Json)) :
    replaceField k v (replaceField k w fs) = replaceField k v fs := by
  induction fs with
  | nil => rfl
  | cons f fs ih =>
    obtain ⟨l, x⟩ := f
    by_cases e : l = k <;> simp [replaceField, e, ih]

theorem replaceField_insertField (v w : Json)
    (h : getField k fs = none) : replaceField k v (insertField k w fs) = insertField k v fs := by
  induction fs with
  | nil => simp [insertField, replaceField]
  | cons f fs ih =>
    obtain ⟨l, x⟩ := f
    unfold getField at h
    split_ifs at h with e
    unfold insertField
    split_ifs
    · simp [replaceField]
    · simp [replaceField, e, ih h]

theorem replaceField_self {v : Json}
    (h : getField k fs = some v) : replaceField k v fs = fs := by
  induction fs with
  | nil => rfl
  | cons f fs ih =>
    obtain ⟨l, w⟩ := f
    unfold getField at h
    unfold replaceField
    split_ifs at h ⊢ with e
    · cases h; rw [e]
    · rw [ih h]

@[simp] theorem getField_setField (k : String) (v : Json) (fs : List (String × Json)) :
    getField k (setField k v fs) = some v := by
  unfold setField
  split_ifs with h
  · exact getField_replaceField h
  · exact getField_insertField (by simpa using h)

theorem getField_replaceField_of_ne {j k : String} (hne : j ≠ k) (v : Json) (fs : List (String × Json)) :
    getField j (replaceField k v fs) = getField j fs := by
  induction fs with
  | nil => rfl
  | cons f fs ih =>
    obtain ⟨l, w⟩ := f
    unfold replaceField
    split_ifs with e
    · rw [getField, getField, e, if_neg hne.symm, if_neg hne.symm]
    · rw [getField, getField, ih]

theorem getField_insertField_of_ne {j k : String} (hne : j ≠ k) (v : Json) (fs : List (String × Json)) :
    getField j (insertField k v fs) = getField j fs := by
  induction fs with
  | nil => exact if_neg hne.symm
  | cons f fs ih =>
    obtain ⟨l, w⟩ := f
    unfold insertField
    split_ifs
    · rw [getField, if_neg hne.symm]
    · rw [getField, getField, ih]

theorem getField_setField_of_ne {j k : String} (hne : j ≠ k) (v : Json) (fs : List (String × Json)) :
    getField j (setField k v fs) = getField j fs := by
  unfold setField
  split_ifs
  · exact getField_replaceField_of_ne hne v fs
  · exact getField_insertField_of_ne hne v fs

@[simp] theorem setField_setField (k : String) (v w : Json) (fs : List (String × Json)) :
    setField k v (setField k w fs) = setField k v fs := by
  rw [setField, if_pos (by simp)]
  unfold setField
  split_ifs with h
  · exact replaceField_replaceField k v w fs
  · exact replaceField_insertField v w (by simpa using h)

theorem setField_self {v : Json}
    (h : getField k fs = some v) : setField k v fs = fs := by
  rw [setField, if_pos (by simp [h]), replaceField_self h]

/-! ## `json_extract` and `json_set` -/

/-- What a value becomes as the result of a SQL function: `NULL`, or the JSON it is written back as and
read from again. Objects, arrays and texts stay as they are. -/
def throughSql : Json → Option Json
  | .null => none
  | .bool b => some (.int (if b then 1 else 0))
  | .int n => some (if -2 ^ 63 ≤ n ∧ n < 2 ^ 63 then .int n else .float (shorten 15 (ofInt n)))
  | .float r => some (.float (shorten 15 r))
  | j => some j

/-- `json_extract(j, '$.k')`, with `none` for `NULL`. -/
def extract (j : Json) (k : String) : Option Json := (j.get k).bind throughSql

/-- `json_set(j, '$.k', v)`: a value that is no object stays as it is. -/
def set (j : Json) (k : String) (v : Json) : Json :=
  match j with
  | .obj fs => .obj (setField k v fs)
  | _ => j

theorem throughSql_eq_none {j : Json} : j.throughSql = none ↔ j = .null := by
  cases j <;> simp [throughSql]

variable {j v : Json}

theorem throughSql_idem (h : j.throughSql = some v) : v.throughSql = some v := by
  have hfloat (r : String) : (Json.float (shorten 15 r)).throughSql = some (.float (shorten 15 r)) :=
    congrArg (some ∘ Json.float) (shorten_idem (by decide) r)
  cases j with
  | null => cases h
  | bool b =>
    cases h
    cases b <;> rfl
  | int n =>
    rw [throughSql, Option.some.injEq] at h
    split_ifs at h with hn
    · rw [← h, throughSql, if_pos hn]
    · rw [← h, hfloat]
  | float r =>
    cases h
    exact hfloat r
  | _ =>
    cases h
    rfl

theorem get_set (hj : j.isObject) : (j.set k v).get k = some v := by
  cases j with
  | obj fs => exact getField_setField k v fs
  | _ => cases hj

theorem get_set_of_ne {j k : String} (hne : j ≠ k) (m v : Json) : (m.set k v).get j = m.get j := by
  cases m with
  | obj fs => exact getField_setField_of_ne hne v fs
  | _ => rfl

theorem set_inj {j v w : Json} (hj : j.isObject) : j.set k v = j.set k w ↔ v = w := by
  constructor
  · intro h
    have hget := get_set (v := v) (k := k) hj
    rw [h, get_set hj] at hget
    exact (Option.some.inj hget).symm
  · exact congrArg _

@[simp] theorem set_set (j : Json) (k : String) (v w : Json) : (j.set k w).set k v = j.set k v := by
  cases j <;> simp [set]

/-- A value that came out of `json_extract` is read back as it was written. -/
theorem extract_set {j v u : Json} (hj : j.isObject) (hv : u.throughSql = some v) :
    (j.set k v).extract k = some v := by
  cases j <;> simp_all [isObject, set, extract, get, throughSql_idem hv]

theorem isObject_of_extract (h : j.extract k = some v) : j.isObject := by
  cases j <;> simp_all [isObject, extract, get]

@[simp] theorem isObject_set (j : Json) (k : String) (v : Json) : (j.set k v).isObject = j.isObject := by
  cases j <;> rfl

/-- SQL hands the value back as it was given, or takes it for `NULL`. -/
def SqlStable (v : Json) : Prop := v.throughSql = none ∨ v.throughSql = some v

instance (v : Json) : Decidable v.SqlStable := inferInstanceAs (Decidable (_ ∨ _))

/-- No boolean, no integer beyond `i64`, no float that 15 digits do not write. -/
theorem sqlStable_iff (v : Json) : v.SqlStable ↔ match v with
    | .bool _ => False
    | .int n => -2 ^ 63 ≤ n ∧ n < 2 ^ 63
    | .float r => shorten 15 r = r
    | _ => True := by
  cases v with
  | int n =>
    have hne (r : String) : Json.float r ≠ .int n := Json.noConfusion
    simp [SqlStable, throughSql, hne]
  | _ => simp [SqlStable, throughSql]

/-- The field is what `json_extract` would hand back. -/
def StableAt (j : Json) (k : String) : Prop := ∀ v, j.get k = some v → v.SqlStable

instance (j : Json) (k : String) : Decidable (j.StableAt k) :=
  match h : j.get k with
  | some v => decidable_of_iff v.SqlStable (by simp [StableAt, h])
  | none => isTrue fun v hv => by rw [h] at hv; cases hv

theorem stableAt_of_extract_eq_none {j : Json} (h : j.extract k = none) : j.StableAt k := by
  intro v hv
  rw [extract, hv] at h
  exact Or.inl h

theorem set_extract (hs : j.StableAt k) (h : j.extract k = some v) :
    j.set k v = j := by
  cases j with
  | obj fs =>
    unfold extract at h
    obtain ⟨u, hu, huv⟩ := Option.bind_eq_some_iff.mp h
    have e : u = v := by
      cases hs u hu with
      | inl hnone => rw [hnone] at huv; cases huv
      | inr hsome => exact Option.some.inj (hsome.symm.trans huv)
    subst e
    exact congrArg Json.obj (setField_self hu)
  | _ => rfl

/-! ## Size and nesting -/

/-- The two hexadecimal digits of `\u00XX`. -/
def hexPair (n : ℕ) : List Char :=
  let digit (d : ℕ) : Char := if d < 10 then Char.ofNat (48 + d) else Char.ofNat (87 + d)
  [digit (n / 16), digit (n % 16)]

/-- One character of a JSON string literal, escaped as `serde_json` does. -/
def escapeChar (c : Char) : List Char :=
  if c = '"' then ['\\', '"']
  else if c = '\\' then ['\\', '\\']
  else if c.toNat = 8 then ['\\', 'b']
  else if c.toNat = 9 then ['\\', 't']
  else if c.toNat = 10 then ['\\', 'n']
  else if c.toNat = 12 then ['\\', 'f']
  else if c.toNat = 13 then ['\\', 'r']
  else if c.toNat < 32 then ['\\', 'u', '0', '0'] ++ hexPair c.toNat
  else [c]

def quote (s : String) : List Char := '"' :: (s.toList.flatMap escapeChar ++ ['"'])

mutual

/-- The characters of `serde_json::to_string`. -/
def render : Json → List Char
  | .null => "null".toList
  | .bool b => (if b then "true" else "false").toList
  | .int n => (toString n).toList
  | .float r => r.toList
  | .str s => quote s
  | .arr xs => '[' :: (renderItems xs ++ [']'])
  | .obj fs => '\x7b' :: (renderFields fs ++ ['\x7d'])

def renderItems : List Json → List Char
  | [] => []
  | [x] => render x
  | x :: xs => render x ++ ',' :: renderItems xs

def renderFields : List (String × Json) → List Char
  | [] => []
  | [(k, v)] => quote k ++ ':' :: render v
  | (k, v) :: fs => quote k ++ ':' :: render v ++ ',' :: renderFields fs

end

/-- `serde_json::to_string`. -/
def toText (j : Json) : String := String.ofList j.render

mutual

/-- `json_depth`: how deep objects and arrays nest. -/
def depth : Json → ℕ
  | .arr xs => 1 + depthItems xs
  | .obj fs => 1 + depthFields fs
  | _ => 0

def depthItems : List Json → ℕ
  | [] => 0
  | x :: xs => max (depth x) (depthItems xs)

def depthFields : List (String × Json) → ℕ
  | [] => 0
  | (_, v) :: fs => max (depth v) (depthFields fs)

end

end Json

end AiMemory
