/-
  CryptoChat.Net.Json — the JSON values of nlohmann::json that the program builds and
  reads: `operator[]` on an object under construction, `contains`, `value` and `get`,
  with the exceptions they throw.

  An integer stands for both of the library's integer kinds, `int64_t` and `uint64_t`, and
  is in the range of one of them: what is beyond, `parse` reads as a double. A float stands
  for its exact value. `dump(4)` and `parse` are the fields of `JsonText`, which the rest of
  the model is a function of.
-/

import CryptoChat.Lib.Bytes
import Mathlib

namespace CryptoChat.Net

open CryptoChat.Lib

/-- What a handler can throw and the program catches: `json::exception`, or another
    `std::exception`. -/
inductive Exn where
  | json (what : String)
  | other (what : String)
  deriving DecidableEq, Repr

def Exn.what : Exn → String
  | .json w => w
  | .other w => w

/-- The integers of `int64_t` and of `uint64_t`. -/
abbrev Integer := { n : Int // -2 ^ 63 ≤ n ∧ n < 2 ^ 64 }

inductive Json where
  | null
  | bool (b : Bool)
  | int (n : Integer)
  | float (x : Rat)
  | str (s : String)
  | arr (items : List Json)
  | obj (fields : List (String × Json))

namespace Json

/-! ## Equality -/

mutual

def beq : Json → Json → Bool
  | .null, .null => true
  | .bool a, .bool b => a == b
  | .int a, .int b => a == b
  | .float a, .float b => a == b
  | .str a, .str b => a == b
  | .arr a, .arr b => beqItems a b
  | .obj a, .obj b => beqFields a b
  | _, _ => false

def beqItems : List Json → List Json → Bool
  | [], [] => true
  | x :: xs, y :: ys => beq x y && beqItems xs ys
  | _, _ => false

def beqFields : List (String × Json) → List (String × Json) → Bool
  | [], [] => true
  | x :: xs, y :: ys => x.1 == y.1 && beq x.2 y.2 && beqFields xs ys
  | _, _ => false

end

mutual

theorem beq_iff : ∀ a b : Json, beq a b = true ↔ a = b
  | .null, b => by cases b <;> simp [beq]
  | .bool a, b => by cases b <;> simp [beq]
  | .int a, b => by cases b <;> simp [beq, Subtype.ext_iff]
  | .float a, b => by cases b <;> simp [beq]
  | .str a, b => by cases b <;> simp [beq]
  | .arr a, b => by cases b <;> simp [beq, beqItems_iff a]
  | .obj a, b => by cases b <;> simp [beq, beqFields_iff a]

theorem beqItems_iff : ∀ a b : List Json, beqItems a b = true ↔ a = b
  | [], b => by cases b <;> simp [beqItems]
  | x :: xs, b => by cases b <;> simp [beqItems, beq_iff x, beqItems_iff xs]

theorem beqFields_iff : ∀ a b : List (String × Json), beqFields a b = true ↔ a = b
  | [], b => by cases b <;> simp [beqFields]
  | (k, v) :: xs, b => by
    rcases b with _ | ⟨⟨k', v'⟩, ys⟩ <;> simp [beqFields, beq_iff v, beqFields_iff xs]

end

instance : DecidableEq Json := fun a b => decidable_of_iff _ (beq_iff a b)

/-! ## Building -/

/-- From a `uint64_t`, a `uint32_t` and an `int`. -/
def uint64 (x : BitVec 64) : Json := .int ⟨x.toNat, by have := x.isLt; omega⟩

def uint32 (x : BitVec 32) : Json := .int ⟨x.toNat, by have := x.isLt; omega⟩

def int32 (x : BitVec 32) : Json := .int ⟨x.toInt, by have := x.le_toInt; have := x.toInt_lt; omega⟩

@[simp] theorem uint32_inj {x y : BitVec 32} : uint32 x = uint32 y ↔ x = y := by
  simp [uint32, BitVec.toNat_inj]

/-- `object[key] = v`, on the fields of an object, which are kept in key order. -/
def assign : List (String × Json) → String → Json → List (String × Json)
  | [], key, v => [(key, v)]
  | (k, w) :: fields, key, v =>
    if key = k then (k, v) :: fields
    else if key < k then (key, v) :: (k, w) :: fields
    else (k, w) :: assign fields key v

/-- An initializer list of pairs. -/
def object (pairs : List (String × Json)) : Json := .obj (pairs.foldl (fun fields p => assign fields p.1 p.2) [])

/-! ## Reading -/

def typeName : Json → String
  | .null => "null"
  | .bool _ => "boolean"
  | .int _ => "number"
  | .float _ => "number"
  | .str _ => "string"
  | .arr _ => "array"
  | .obj _ => "object"

/-- `find(key)`, on an object. -/
def find? : Json → String → Option Json
  | .obj fields, key => fields.lookup key
  | _, _ => none

def contains (j : Json) (key : String) : Bool := (j.find? key).isSome

def typeError306 (j : Json) : Exn := .json ("[json.exception.type_error.306] cannot use value() with " ++ j.typeName)

def typeError302 (expected : String) (j : Json) : Exn :=
  .json ("[json.exception.type_error.302] type must be " ++ expected ++ ", but is " ++ j.typeName)

/-- `static_cast<int>` of a double. Out of the range of `int` the cast is undefined; the value
    here is the one of the x86-64 instruction. -/
def truncate (x : Rat) : BitVec 32 :=
  let n := x.num.tdiv x.den
  if -2147483648 ≤ n ∧ n < 2147483648 then BitVec.ofInt 32 n else 0x80000000#32

/-- `get<int>()`. -/
def getInt : Json → Except Exn (BitVec 32)
  | .int n => .ok (BitVec.ofInt 32 n.val)
  | .float x => .ok (truncate x)
  | .bool b => .ok (BitVec.ofBool b |>.setWidth 32)
  | j => .error (typeError302 "number" j)

/-- `get<std::string>()`. -/
def getString : Json → Except Exn String
  | .str s => .ok s
  | j => .error (typeError302 "string" j)

/-- `value(key, dflt)`, for a type read by `get`. -/
def valueWith {α : Type} (get : Json → Except Exn α) (j : Json) (key : String) (dflt : α) : Except Exn α :=
  match j with
  | .obj fields =>
    match fields.lookup key with
    | some v => get v
    | none => .ok dflt
  | j => .error (typeError306 j)

@[simp] theorem getInt_uint32 (x : BitVec 32) : getInt (uint32 x) = .ok x := by simp [getInt, uint32]

def valueInt : Json → String → BitVec 32 → Except Exn (BitVec 32) := valueWith getInt

def valueString : Json → String → String → Except Exn String := valueWith getString

def value : Json → String → Json → Except Exn Json := valueWith .ok

/-! ## Reading what was built -/

theorem lookup_assign (fields : List (String × Json)) (key key' : String) (v : Json) :
    (assign fields key v).lookup key' = if key' = key then some v else fields.lookup key' := by
  induction fields with
  | nil =>
    by_cases h : key' = key
    · simp [assign, h]
    · simp [assign, List.lookup_cons, beq_eq_false_iff_ne.mpr h, h]
  | cons f fields ih =>
    obtain ⟨k, w⟩ := f
    unfold assign
    by_cases hk : key = k
    · subst hk
      by_cases h : key' = key
      · simp [h]
      · simp [List.lookup_cons, beq_eq_false_iff_ne.mpr h, h]
    · rw [if_neg hk]
      split
      · by_cases h : key' = key
        · simp [h]
        · simp [List.lookup_cons, beq_eq_false_iff_ne.mpr h, h]
      · by_cases h : key' = k
        · subst h
          simp [Ne.symm hk]
        · rw [List.lookup_cons, List.lookup_cons, beq_eq_false_iff_ne.mpr h]
          exact ih

end Json

/-- The two directions of the library between values and bytes: `dump(4)` and `parse`, which
    throws on what is not JSON. -/
structure JsonText where
  dump : Json → Bytes
  parse : Bytes → Except Exn Json

end CryptoChat.Net
