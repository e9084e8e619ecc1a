import CrabMate.Structured.Patch

/-! Patching a TOML file: the document is converted to JSON values, edited, and converted back. -/
namespace CrabMate.Structured
open List Except

open RustStr (Str)

/-- `δ` are the dates and times of the `toml` crate. -/
inductive TomlValue (δ : Type) where
  | string (s : Str)
  | integer (i : I64)
  | float (f : F64)
  | boolean (b : Bool)
  | datetime (d : δ)
  | array (xs : List (TomlValue δ))
  | table (fields : List (Str × TomlValue δ))

variable {δ : Type}

/-! Conversions. -/

/-- What a float that is no number prints as. -/
def nonFiniteText (f : F64) : Str :=
  if f.isNan then "NaN".toList else if f.isNegative then "-inf".toList else "inf".toList

mutual
def tomlValueToJson (display : δ → Str) : TomlValue δ → Value
  | .string s => .string s
  | .integer i => .number (.ofI64 i)
  | .float f =>
    match Number.fromF64 f with
    | some n => .number n
    | none => .string (nonFiniteText f)
  | .boolean b => .bool b
  | .datetime d => .string (display d)
  | .array xs => .array (tomlItemsToJson display xs)
  | .table fields => .object (tomlTableToJson display fields)

def tomlItemsToJson (display : δ → Str) : List (TomlValue δ) → List Value
  | [] => []
  | x :: xs => tomlValueToJson display x :: tomlItemsToJson display xs

def tomlTableToJson (display : δ → Str) : List (Str × TomlValue δ) → List (Str × Value)
  | [] => []
  | (k, v) :: fields => (k, tomlValueToJson display v) :: tomlTableToJson display fields
end

def numberToToml (n : Number) : Except Str (TomlValue δ) :=
  match n.asI64 with
  | some i => .ok (.integer i)
  | none =>
    match n.asU64 with
    | some _ => .error "TOML integer 超出 i64 范围".toList
    | none =>
      match n.asF64 with
      | some f => .ok (.float f)
      | none => .error "不支持的数字类型".toList

mutual
def jsonToToml : Value → Except Str (TomlValue δ)
  | .null => .error "TOML 不支持 null，请改为字符串/数字/布尔或删除该键".toList
  | .bool b => .ok (.boolean b)
  | .number n => numberToToml n
  | .string s => .ok (.string s)
  | .array xs => jsonItemsToToml xs >>= fun xs => .ok (.array xs)
  | .object fields => jsonFieldsToToml fields >>= fun fields => .ok (.table fields)

def jsonItemsToToml : List Value → Except Str (List (TomlValue δ))
  | [] => .ok []
  | x :: xs => jsonToToml x >>= fun x => jsonItemsToToml xs >>= fun xs => .ok (x :: xs)

def jsonFieldsToToml : List (Str × Value) → Except Str (List (Str × TomlValue δ))
  | [] => .ok []
  | (k, v) :: fields =>
    jsonToToml v >>= fun v => jsonFieldsToToml fields >>= fun fields => .ok ((k, v) :: fields)
end

/-! Places. -/

namespace TomlValue

def child? : TomlValue δ → Step → Option (TomlValue δ)
  | .table fields, .key k => OrdMap.get k fields
  | .array xs, .index i => xs[i]?
  | _, _ => none

def at? : List Step → TomlValue δ → Option (TomlValue δ)
  | [], t => some t
  | s :: p, t => (t.child? s).bind (at? p)

/-- The keys of a table are ordered, in every table. -/
inductive WellFormed : TomlValue δ → Prop where
  | string (s : Str) : WellFormed (.string s)
  | integer (i : I64) : WellFormed (.integer i)
  | float (f : F64) : WellFormed (.float f)
  | boolean (b : Bool) : WellFormed (.boolean b)
  | datetime (d : δ) : WellFormed (.datetime d)
  | array {xs : List (TomlValue δ)} (items : ∀ x ∈ xs, WellFormed x) : WellFormed (.array xs)
  | table {fields : List (Str × TomlValue δ)} (ascending : OrdMap.Ascending fields)
      (members : ∀ f ∈ fields, WellFormed f.2) : WellFormed (.table fields)

/-- The conversions keep the value: it is no date or time, and no infinity or NaN. -/
def Survives : TomlValue δ → Prop
  | .datetime _ => False
  | .float f => f.isFinite = true
  | _ => True

end TomlValue

section Conversions

variable {display : δ → Str} {t u : TomlValue δ} {v : Value} {s : Step} {p : List Step}

theorem tomlItemsToJson_eq (xs : List (TomlValue δ)) :
    tomlItemsToJson display xs = xs.map (tomlValueToJson display) := by
  induction xs with
  | nil => rfl
  | cons x xs ih => rw [tomlItemsToJson, ih, map_cons]

theorem get_tomlTableToJson (k : Str) (fields : List (Str × TomlValue δ)) :
    OrdMap.get k (tomlTableToJson display fields) =
      (OrdMap.get k fields).map (tomlValueToJson display) := by
  induction fields with
  | nil => rfl
  | cons f fields ih =>
    obtain ⟨l, x⟩ := f
    rw [tomlTableToJson, OrdMap.get, OrdMap.get, ih]
    split <;> rfl

theorem child?_tomlValueToJson (t : TomlValue δ) (s : Step) :
    (tomlValueToJson display t).child? s = (t.child? s).map (tomlValueToJson display) := by
  cases t with
  | array xs =>
    cases s with
    | key k => rfl
    | index i =>
      rw [tomlValueToJson, tomlItemsToJson_eq, Value.child?_array_index, getElem?_map]
      rfl
  | table fields =>
    cases s with
    | key k =>
      rw [tomlValueToJson, Value.child?_object_key, get_tomlTableToJson]
      rfl
    | index i => rfl
  | float f =>
    rw [tomlValueToJson]
    split <;> rfl
  | _ => rfl

theorem at?_tomlValueToJson (p : List Step) (t : TomlValue δ) :
    (tomlValueToJson display t).at? p = (t.at? p).map (tomlValueToJson display) := by
  induction p generalizing t with
  | nil => rfl
  | cons s p ih =>
    rw [Value.at?_cons, TomlValue.at?, child?_tomlValueToJson, Option.bind_map, Option.map_bind]
    exact Option.bind_congr fun c _ => ih c

/-- Converting back goes place by place. -/
inductive Converted : Option Value → Option (TomlValue δ) → Prop where
  | none : Converted none none
  | some {v : Value} {t : TomlValue δ} (h : jsonToToml v = .ok t) : Converted (some v) (some t)

theorem get_jsonFieldsToToml {fields : List (Str × Value)} {fields' : List (Str × TomlValue δ)}
    (h : jsonFieldsToToml fields = .ok fields') (k : Str) :
    Converted (OrdMap.get k fields) (OrdMap.get k fields') := by
  induction fields generalizing fields' with
  | nil =>
    obtain rfl := Except.ok.inj h
    exact .none
  | cons f fields ih =>
    obtain ⟨l, v⟩ := f
    rw [jsonFieldsToToml] at h
    obtain ⟨t, ht, h⟩ := bind_eq_ok.mp h
    obtain ⟨rest, hrest, h⟩ := bind_eq_ok.mp h
    obtain rfl := Except.ok.inj h
    rw [OrdMap.get, OrdMap.get]
    split
    · exact .some ht
    · exact ih hrest

theorem getElem?_jsonItemsToToml {xs : List Value} {xs' : List (TomlValue δ)}
    (h : jsonItemsToToml xs = .ok xs') (i : ℕ) : Converted xs[i]? xs'[i]? := by
  induction xs generalizing xs' i with
  | nil =>
    obtain rfl := Except.ok.inj h
    exact .none
  | cons x xs ih =>
    rw [jsonItemsToToml] at h
    obtain ⟨t, ht, h⟩ := bind_eq_ok.mp h
    obtain ⟨rest, hrest, h⟩ := bind_eq_ok.mp h
    obtain rfl := Except.ok.inj h
    cases i with
    | zero => exact .some ht
    | succ i => exact ih hrest i

theorem child?_jsonToToml (h : jsonToToml v = .ok t) (s : Step) :
    Converted (v.child? s) (t.child? s) := by
  cases v with
  | array xs =>
    rw [jsonToToml] at h
    obtain ⟨xs', hxs, h⟩ := bind_eq_ok.mp h
    obtain rfl := Except.ok.inj h
    cases s with
    | key k => exact .none
    | index i => exact getElem?_jsonItemsToToml hxs i
  | object fields =>
    rw [jsonToToml] at h
    obtain ⟨fields', hfields, h⟩ := bind_eq_ok.mp h
    obtain rfl := Except.ok.inj h
    cases s with
    | key k => exact get_jsonFieldsToToml hfields k
    | index i => exact .none
  | number n =>
    rw [jsonToToml, numberToToml] at h
    split at h
    · obtain rfl := Except.ok.inj h
      exact .none
    · split at h
      · cases h
      · split at h
        · obtain rfl := Except.ok.inj h
          exact .none
        · cases h
  | null => cases h
  | _ =>
    obtain rfl := Except.ok.inj h
    exact .none

theorem at?_jsonToToml (h : jsonToToml v = .ok t) (p : List Step) :
    Converted (v.at? p) (t.at? p) := by
  induction p generalizing v t with
  | nil => exact .some h
  | cons s p ih =>
    rw [Value.at?_cons, TomlValue.at?]
    have hchild := child?_jsonToToml h s
    generalize v.child? s = a, t.child? s = b at hchild ⊢
    cases hchild with
    | none => exact .none
    | some hc => exact ih hc

end Conversions

section RoundTrip

variable {display : δ → Str} {t u : TomlValue δ}

theorem jsonItemsToToml_map {xs : List (TomlValue δ)}
    (h : ∀ x ∈ xs, jsonToToml (tomlValueToJson display x) = .ok x) :
    jsonItemsToToml (tomlItemsToJson display xs) = .ok xs := by
  induction xs with
  | nil => rfl
  | cons x xs ih =>
    obtain ⟨hx, hxs⟩ := forall_mem_cons.mp h
    rw [tomlItemsToJson, jsonItemsToToml, hx, ih hxs]
    rfl

theorem jsonFieldsToToml_map {fields : List (Str × TomlValue δ)}
    (h : ∀ f ∈ fields, jsonToToml (tomlValueToJson display f.2) = .ok f.2) :
    jsonFieldsToToml (tomlTableToJson display fields) = .ok fields := by
  induction fields with
  | nil => rfl
  | cons f fields ih =>
    obtain ⟨k, x⟩ := f
    obtain ⟨hx, hfields⟩ := forall_mem_cons.mp h
    rw [tomlTableToJson, jsonFieldsToToml, hx, ih hfields]
    rfl

/-- A value that keeps all of its leaves comes back as it was. -/
theorem jsonToToml_tomlValueToJson (hwf : t.WellFormed)
    (h : ∀ p x, t.at? p = some x → x.Survives) :
    jsonToToml (tomlValueToJson display t) = .ok t := by
  induction hwf with
  | string s => rfl
  | integer i =>
    rw [tomlValueToJson, jsonToToml, numberToToml, Number.asI64_ofI64]
  | float f =>
    have hfinite : f.isFinite = true := h [] _ rfl
    rw [tomlValueToJson, Number.fromF64, dif_pos hfinite]
    rfl
  | boolean b => rfl
  | datetime d => exact (h [] _ rfl).elim
  | @array xs items ih =>
    have hitems : ∀ x ∈ xs, jsonToToml (tomlValueToJson display x) = .ok x := by
      intro x hx
      refine ih x hx fun p y hy => ?_
      obtain ⟨i, hi, rfl⟩ := mem_iff_getElem.mp hx
      refine h (.index i :: p) y ?_
      rw [TomlValue.at?, TomlValue.child?, getElem?_eq_getElem hi]
      exact hy
    rw [tomlValueToJson, jsonToToml, jsonItemsToToml_map hitems]
    rfl
  | @table fields ascending members ih =>
    have hfields : ∀ f ∈ fields, jsonToToml (tomlValueToJson display f.2) = .ok f.2 := by
      intro f hf
      refine ih f hf fun p y hy => ?_
      refine h (.key f.1 :: p) y ?_
      rw [TomlValue.at?, TomlValue.child?, OrdMap.get_of_mem ascending hf]
      exact hy
    rw [tomlValueToJson, jsonToToml, jsonFieldsToToml_map hfields]
    rfl

theorem jsonToToml_of_not_survives (display : δ → Str) (h : ¬ t.Survives) :
    ∃ text, jsonToToml (tomlValueToJson display t) = .ok (.string text : TomlValue δ) := by
  cases t with
  | datetime d => exact ⟨display d, rfl⟩
  | float f =>
    have hnot : ¬ f.isFinite = true := h
    refine ⟨nonFiniteText f, ?_⟩
    rw [tomlValueToJson, Number.fromF64, dif_neg hnot]
    rfl
  | _ => exact absurd trivial h

theorem at?_append (p q : List Step) (t : TomlValue δ) :
    t.at? (p ++ q) = (t.at? p).bind fun x => x.at? q := by
  induction p generalizing t with
  | nil => rfl
  | cons s p ih =>
    rw [cons_append, TomlValue.at?, TomlValue.at?, Option.bind_assoc]
    exact Option.bind_congr fun c _ => ih c

theorem TomlValue.WellFormed.at? (hwf : t.WellFormed) {p : List Step} (h : t.at? p = some u) :
    u.WellFormed := by
  induction p generalizing t with
  | nil =>
    obtain rfl := Option.some.inj h
    exact hwf
  | cons s p ih =>
    obtain ⟨c, hc, h⟩ := Option.bind_eq_some_iff.mp h
    refine ih ?_ h
    cases hwf with
    | array items =>
      cases s with
      | key k => cases hc
      | index i => exact items c (mem_of_getElem? hc)
    | table _ members =>
      cases s with
      | key k => exact members _ (OrdMap.mem_of_get hc)
      | index i => cases hc
    | _ => cases hc

theorem apart_append {p q : List Step} (h : Apart q p) (r : List Step) : Apart (q ++ r) p := by
  refine ⟨fun hqr => h.1 ((prefix_append q r).trans hqr), fun hpq => ?_⟩
  obtain hle | hle := Nat.le_total p.length q.length
  · exact h.2 (prefix_of_prefix_length_le hpq (prefix_append q r) hle)
  · exact h.1 (prefix_of_prefix_length_le (prefix_append q r) hpq hle)

/-- Values that were carried over to their new places by way of JSON are the old ones exactly when
they keep their leaves. -/
theorem carried_iff {t' : TomlValue δ} {j' : Value} {p : List Step}
    (moved : List Step → List Step) (hwf : t.WellFormed) (hback : jsonToToml j' = .ok t')
    (hrest : ∀ q, Apart q p → j'.at? (moved q) = (tomlValueToJson display t).at? q) :
    (∀ q, Apart q p → t'.at? (moved q) = t.at? q) ↔
      ∀ q x, Apart q p → t.at? q = some x → x.Survives := by
  have hplace : ∀ q, Apart q p →
      Converted ((t.at? q).map (tomlValueToJson display)) (t'.at? (moved q)) := by
    intro q hq
    rw [← at?_tomlValueToJson, ← hrest q hq]
    exact at?_jsonToToml hback (moved q)
  constructor
  · intro hsame q x hq hx
    by_contra hnot
    obtain ⟨text, htext⟩ := jsonToToml_of_not_survives display hnot
    have hconv := hplace q hq
    rw [hsame q hq, hx] at hconv
    cases hconv with
    | some h =>
      obtain rfl := Except.ok.inj (htext.symm.trans h)
      exact hnot trivial
  · intro hsurvives q hq
    have hconv := hplace q hq
    cases hx : t.at? q with
    | none =>
      rw [hx] at hconv
      generalize t'.at? (moved q) = y at hconv ⊢
      cases hconv
      rfl
    | some x =>
      have hround : jsonToToml (tomlValueToJson display x) = .ok x := by
        refine jsonToToml_tomlValueToJson (hwf.at? hx) fun r z hz => ?_
        refine hsurvives (q ++ r) z (apart_append hq r) ?_
        rw [at?_append, hx, Option.bind_some, hz]
      rw [hx] at hconv
      generalize t'.at? (moved q) = y at hconv ⊢
      cases hconv with
      | some h => exact congrArg some (Except.ok.inj (h.symm.trans hround))

end RoundTrip

end CrabMate.Structured
