import Mathlib.Data.List.Basic
import Mathlib.Algebra.Group.Int.Defs
import Mathlib.Algebra.GroupWithZero.Nat

/-! Parsed JSON values. A number keeps its literal, an object its fields in order. -/
inductive JsonValue where
  | null
  | bool (b : Bool)
  | num (lit : String)
  | str (s : String)
  | arr (xs : List JsonValue)
  | obj (fields : List (String × JsonValue))

namespace JsonValue
open List

mutual
def beq : JsonValue → JsonValue → Bool
  | .null, .null => true
  | .bool a, .bool b => a == b
  | .num a, .num b => a == b
  | .str a, .str b => a == b
  | .arr xs, .arr ys => beqArr xs ys
  | .obj xs, .obj ys => beqObj xs ys
  | _, _ => false

def beqArr : List JsonValue → List JsonValue → Bool
  | [], [] => true
  | x :: xs, y :: ys => beq x y && beqArr xs ys
  | _, _ => false

def beqObj : List (String × JsonValue) → List (String × JsonValue) → Bool
  | [], [] => true
  | (k, x) :: xs, (l, y) :: ys => k == l && (beq x y && beqObj xs ys)
  | _, _ => false
end

mutual
theorem beq_iff : ∀ a b : JsonValue, beq a b = true ↔ a = b
  | .null, b => by cases b <;> simp [beq]
  | .bool _, b => by cases b <;> simp [beq]
  | .num _, b => by cases b <;> simp [beq]
  | .str _, b => by cases b <;> simp [beq]
  | .arr xs, b => by cases b <;> simp [beq, beqArr_iff xs]
  | .obj xs, b => by cases b <;> simp [beq, beqObj_iff xs]

theorem beqArr_iff : ∀ xs ys : List JsonValue, beqArr xs ys = true ↔ xs = ys
  | [], ys => by cases ys <;> simp [beqArr]
  | x :: xs, ys => by cases ys <;> simp [beqArr, beq_iff x, beqArr_iff xs]

theorem beqObj_iff : ∀ xs ys : List (String × JsonValue), beqObj xs ys = true ↔ xs = ys
  | [], ys => by cases ys <;> simp [beqObj]
  | (_, _) :: _, [] => by simp [beqObj]
  | (_, x) :: xs, (_, _) :: _ => by simp [beqObj, beq_iff x, beqObj_iff xs, and_assoc]
end

instance : DecidableEq JsonValue := fun a b => decidable_of_iff _ (beq_iff a b)

/-- Object field access; the last of repeated keys wins, as in a parsed map. -/
def get? (key : String) : JsonValue → Option JsonValue
  | .obj fields => (fields.reverse.find? (fun f => f.1 == key)).map Prod.snd
  | _ => none

/-- A field that is there, with another value. -/
def set (j : JsonValue) (key : String) (v : JsonValue) : JsonValue :=
  match j with
  | .obj fields => .obj (fields.map fun f => if f.1 == key then (f.1, v) else f)
  | j => j

def asStr? : JsonValue → Option String
  | .str s => some s
  | _ => none

def asBool? : JsonValue → Option Bool
  | .bool b => some b
  | _ => none

def asArr? : JsonValue → Option (List JsonValue)
  | .arr xs => some xs
  | _ => none

/-- An unsigned 64-bit integer; a number written with a sign, a fraction or an exponent is none. -/
def asU64? : JsonValue → Option ℕ
  | .num lit => lit.toNat?.filter (· < UInt64.size)
  | _ => none

/-- A signed 64-bit integer. -/
def asI64? : JsonValue → Option Int
  | .num lit => lit.toInt?.filter fun i => -2 ^ 63 ≤ i ∧ i < 2 ^ 63
  | _ => none

section Fields

variable (key k : String)

theorem get?_obj_nil : get? key (.obj []) = none := rfl

theorem get?_obj_append (xs ys : List (String × JsonValue)) :
    get? key (.obj (xs ++ ys)) = (get? key (.obj ys)).or (get? key (.obj xs)) := by
  simp [get?, find?_append, Option.map_or]

theorem get?_obj_cons (v : JsonValue) (fields : List (String × JsonValue)) :
    get? key (.obj ((k, v) :: fields)) =
      (get? key (.obj fields)).or (if k = key then some v else none) := by
  simp only [get?, reverse_cons, find?_append, Option.map_or]
  by_cases h : k = key <;> simp [h]

/-- A field that is written under a condition. -/
theorem get?_obj_ite (c : Prop) [Decidable c] (v : JsonValue) :
    get? key (.obj (if c then [(k, v)] else [])) = if c ∧ k = key then some v else none := by
  by_cases hc : c
  · simp [hc, get?_obj_cons, get?_obj_nil]
  · simp [hc, get?_obj_nil]

/-- A field that is written when there is a value for it. -/
theorem get?_obj_toList {α : Type} (o : Option α) (f : α → JsonValue) :
    get? key (.obj ((o.map fun a => (k, f a)).toList)) = if k = key then o.map f else none := by
  cases o with
  | none => simp [get?_obj_nil]
  | some a => simp [get?_obj_cons, get?_obj_nil]

theorem get?_set {key : String} {j v w : JsonValue} (h : j.get? key = some w) :
    (j.set key v).get? key = some v := by
  cases j with
  | obj fields =>
    simp only [get?, set] at h ⊢
    obtain ⟨⟨k, x⟩, hx, -⟩ := Option.map_eq_some_iff.mp h
    have hk : k = key := by simpa using find?_some hx
    have hpred : (fun f : String × JsonValue => f.1 == key) ∘
        (fun f => if f.1 == key then (f.1, v) else f) = fun f => f.1 == key := by
      funext f
      simp only [Function.comp]
      split <;> rfl
    rw [← map_reverse, find?_map, hpred, hx]
    simp [hk]
  | _ => cases h

end Fields

end JsonValue
