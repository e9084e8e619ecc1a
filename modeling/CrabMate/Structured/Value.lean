import Mathlib.Data.String.Basic
import CrabMate.Lib.OrdMap
import CrabMate.Lib.Str
import Mathlib.Algebra.Group.Int.Defs
import Mathlib.Data.Option.Basic

/-! The values the structured-data tools work on: parsed JSON with its three kinds of numbers, the
equality of such values, and the places inside them. -/
namespace CrabMate.Structured

open RustStr (Str)

/-! Numbers. -/

/-- A binary64 number, by its bits. -/
structure F64 where
  bits : BitVec 64
  deriving DecidableEq

namespace F64

def exponent (f : F64) : ℕ := f.bits.toNat / 2 ^ 52 % 2 ^ 11

def mantissa (f : F64) : ℕ := f.bits.toNat % 2 ^ 52

def isNegative (f : F64) : Bool := 2 ^ 63 ≤ f.bits.toNat

def isFinite (f : F64) : Bool := f.exponent ≠ 2047

def isNan (f : F64) : Bool := !f.isFinite && f.mantissa ≠ 0

/-- Either of the two zeros. -/
def isZero (f : F64) : Bool := f.bits.toNat % 2 ^ 63 = 0

/-- The comparison of floating point: the zeros are equal, and a NaN equals nothing. -/
def eqv (f g : F64) : Bool := !f.isNan && !g.isNan && (f = g || (f.isZero && g.isZero))

end F64

structure I64 where
  int : Int
  range : -2 ^ 63 ≤ int ∧ int < 2 ^ 63
  deriving DecidableEq

/-- A JSON number is an unsigned integer, a negative integer or a finite float. -/
inductive Number where
  | posInt (n : ℕ) (range : n < 2 ^ 64)
  | negInt (i : Int) (range : -2 ^ 63 ≤ i ∧ i < 0)
  | float (f : F64) (finite : f.isFinite = true)
  deriving DecidableEq

namespace Number

/-- Integers and floats are never equal. -/
def eqv : Number → Number → Bool
  | .posInt m _, .posInt n _ => m = n
  | .negInt i _, .negInt j _ => i = j
  | .float f _, .float g _ => f.eqv g
  | _, _ => false

/-- A signed integer as a JSON number. -/
def ofI64 (i : I64) : Number :=
  if hneg : i.int < 0 then .negInt i.int ⟨i.range.1, hneg⟩
  else .posInt i.int.toNat (by have := i.range.2; omega)

def fromF64 (f : F64) : Option Number := if h : f.isFinite = true then some (.float f h) else none

def asI64 : Number → Option I64
  | .posInt n _ => if h : n < 2 ^ 63 then some ⟨n, by omega⟩ else none
  | .negInt i range => some ⟨i, by omega⟩
  | .float _ _ => none

def asU64 : Number → Option ℕ
  | .posInt n _ => some n
  | .negInt _ _ | .float _ _ => none

/-- Asked only of a number that is no integer; an integer would be rounded. -/
def asF64 : Number → Option F64
  | .float f _ => some f
  | .posInt _ _ | .negInt _ _ => none

@[simp] theorem asI64_ofI64 (i : I64) : (ofI64 i).asI64 = some i := by
  by_cases hneg : i.int < 0
  · simp [ofI64, hneg, asI64]
  · have hlt : i.int.toNat < 2 ^ 63 := by have := i.range.2; omega
    have hint : (i.int.toNat : Int) = i.int := Int.toNat_of_nonneg (by omega)
    simp only [ofI64, hneg, dif_neg, not_false_eq_true, asI64, hlt, dif_pos, hint]

end Number

/-! Values. -/

inductive Value where
  | null
  | bool (b : Bool)
  | number (n : Number)
  | string (s : Str)
  | array (xs : List Value)
  | object (fields : List (Str × Value))

/-- One step into a value: a member of an object or an element of an array. -/
inductive Step where
  | key (k : Str)
  | index (i : ℕ)
  deriving DecidableEq

namespace Value

mutual
/-- `==` on values. -/
def eqv : Value → Value → Bool
  | .null, .null => true
  | .bool a, .bool b => a = b
  | .number m, .number n => m.eqv n
  | .string s, .string t => s = t
  | .array xs, .array ys => eqvItems xs ys
  | .object xs, .object ys => eqvFields xs ys
  | _, _ => false

def eqvItems : List Value → List Value → Bool
  | [], [] => true
  | x :: xs, y :: ys => eqv x y && eqvItems xs ys
  | _, _ => false

def eqvFields : List (Str × Value) → List (Str × Value) → Bool
  | [], [] => true
  | (k, x) :: xs, (l, y) :: ys => k = l && (eqv x y && eqvFields xs ys)
  | _, _ => false
end

/-- What every value in memory keeps: the members of an object are ordered by their keys, and an
array has fewer elements than there are addresses. -/
inductive WellFormed : Value → Prop where
  | null : WellFormed .null
  | bool (b : Bool) : WellFormed (.bool b)
  | number (n : Number) : WellFormed (.number n)
  | string (s : Str) : WellFormed (.string s)
  | array {xs : List Value} (length : xs.length < 2 ^ 63) (items : ∀ x ∈ xs, WellFormed x) :
      WellFormed (.array xs)
  | object {fields : List (Str × Value)} (ascending : OrdMap.Ascending fields)
      (members : ∀ f ∈ fields, WellFormed f.2) : WellFormed (.object fields)

/-- `Value::get`. -/
def child? : Value → Step → Option Value
  | .object fields, .key k => OrdMap.get k fields
  | .array xs, .index i => xs[i]?
  | _, _ => none

/-- What stands at a place. -/
def at? : List Step → Value → Option Value
  | [], v => some v
  | s :: p, v => (v.child? s).bind (at? p)

section Child

variable {v c : Value} {s : Step}

@[simp] theorem child?_object_key (fields : List (Str × Value)) (k : Str) :
    (object fields).child? (.key k) = OrdMap.get k fields := rfl

@[simp] theorem child?_array_index (xs : List Value) (i : ℕ) :
    (array xs).child? (.index i) = xs[i]? := rfl

theorem at?_cons (s : Step) (p : List Step) (v : Value) :
    at? (s :: p) v = (v.child? s).bind (at? p) := rfl

theorem WellFormed.child (hv : v.WellFormed) (h : v.child? s = some c) : c.WellFormed := by
  cases hv with
  | array _ items =>
    cases s with
    | key k => cases h
    | index i => exact items c (List.mem_of_getElem? h)
  | object _ members =>
    cases s with
    | key k => exact members _ (OrdMap.mem_of_get h)
    | index i => cases h
  | _ => cases h

end Child

end Value

/-- A value in memory. -/
structure Document where
  value : Value
  wellFormed : value.WellFormed

end CrabMate.Structured
