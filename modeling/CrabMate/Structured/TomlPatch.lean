import CrabMate.Structured.Toml

/-! `structured` with `action=patch` on a TOML file, from the old text to the new one. -/
namespace CrabMate.Structured
open Except

open RustStr (Str)

/-- Without a line feed at its end a text gets one. -/
def endLine (text : Str) : Str := if text.getLast? = some '\n' then text else text ++ ['\n']

/-- The `toml` crate: its parser and its printer agree, and what it parses is well formed. -/
structure TomlCrate (δ : Type) where
  display : δ → Str
  fromStr : Str → Except Str (TomlValue δ)
  toStringPretty : TomlValue δ → Except Str Str
  wellFormed : ∀ text t, fromStr text = .ok t → t.WellFormed
  faithful : ∀ t text, toStringPretty t = .ok text → fromStr (endLine text) = .ok t

inductive PatchMutation where
  | set (value : Option Value) (createMissing : Bool)
  | remove

def applyPatchMutation (root : Value) (tokens : List Str) :
    PatchMutation → Except Str Value
  | .set none _ => .error "错误：action=set 时必须提供 value".toList
  | .set (some value) createMissing =>
    (setValueAtPath root tokens value createMissing).mapError ("补丁失败: ".toList ++ ·)
  | .remove => (removeValueAtPath root tokens).mapError ("补丁失败: ".toList ++ ·)

variable {δ : Type}

/-- The text that is written. -/
def runStructuredPatchToml (toml : TomlCrate δ) (text query : Str) (mutation : PatchMutation) :
    Except Str Str := do
  let t ← (toml.fromStr text).mapError ("解析失败: TOML 解析错误: ".toList ++ ·)
  let tokens ← (parsePatchQueryTokens query).mapError ("query 无效: ".toList ++ ·)
  let patched ← applyPatchMutation (tomlValueToJson toml.display t) tokens mutation
  let t' ← (jsonToToml patched).mapError ("序列化失败: ".toList ++ ·)
  let out ← (toml.toStringPretty t').mapError ("序列化失败: ".toList ++ ·)
  .ok (endLine out)

/-- Where the other places are found after the mutation. -/
def PatchMutation.moved (p : List Step) : PatchMutation → List Step → List Step
  | .set _ _, q => q
  | .remove, q => movedBy p q

section Patch

variable {toml : TomlCrate δ} {root root' : Value} {tokens : List Str} {text written query : Str}
  {mutation : PatchMutation} {t : TomlValue δ}

theorem ok_of_mapError {ε ε' α : Type} {f : ε → ε'} {x : Except ε α} {a : α}
    (h : x.mapError f = .ok a) : x = .ok a := by
  cases x with
  | error e => cases h
  | ok b =>
    obtain rfl := Except.ok.inj h
    rfl

theorem applyPatchMutation_at? (h : applyPatchMutation root tokens mutation = .ok root') :
    ∃ p, writePlace tokens root = some p ∧
      ∀ q, Apart q p → root'.at? (mutation.moved p q) = root.at? q := by
  cases mutation with
  | set value createMissing =>
    cases value with
    | none => cases h
    | some value =>
      obtain ⟨p, x, hp, hrw⟩ := setValueAtPath_ok (ok_of_mapError h)
      exact ⟨p, hp, fun q hq => hrw.at?_apart hq⟩
  | remove => exact removeValueAtPath_at? (ok_of_mapError h)

/-- Read again, the written file has every value apart from the addressed place as it was, exactly
when none of them is a date or time, an infinity or a NaN. -/
theorem patched_toml_keeps_iff (toml : TomlCrate δ) (text query written : Str)
    (mutation : PatchMutation) (t : TomlValue δ) (hparse : toml.fromStr text = .ok t)
    (hpatch : runStructuredPatchToml toml text query mutation = .ok written) :
    ∃ t' tokens p, toml.fromStr written = .ok t' ∧ parsePatchQueryTokens query = .ok tokens ∧
      writePlace tokens (tomlValueToJson toml.display t) = some p ∧
      ((∀ q, Apart q p → t'.at? (mutation.moved p q) = t.at? q) ↔
        ∀ q x, Apart q p → t.at? q = some x → x.Survives) := by
  obtain ⟨t₀, ht₀, hpatch⟩ := bind_eq_ok.mp hpatch
  obtain rfl := Except.ok.inj (hparse.symm.trans (ok_of_mapError ht₀))
  obtain ⟨tokens, htokens, hpatch⟩ := bind_eq_ok.mp hpatch
  obtain ⟨patched, hpatched, hpatch⟩ := bind_eq_ok.mp hpatch
  obtain ⟨t', ht', hpatch⟩ := bind_eq_ok.mp hpatch
  obtain ⟨out, hout, hpatch⟩ := bind_eq_ok.mp hpatch
  obtain rfl := Except.ok.inj hpatch
  obtain ⟨p, hp, hrest⟩ := applyPatchMutation_at? hpatched
  exact ⟨t', tokens, p, toml.faithful t' out (ok_of_mapError hout),
    ok_of_mapError htokens, hp,
    carried_iff (mutation.moved p) (toml.wellFormed text t hparse) (ok_of_mapError ht')
      hrest⟩

end Patch

/-! One document with a date, and the same document with the date as a text. -/

section Dated

def datedText : Str := "day = 2020-01-01\nn = 1\n".toList

def undatedText : Str := "day = \"2020-01-01\"\nn = 2\n".toList

def dated (day : TomlValue Str) (n : I64) : TomlValue Str :=
  .table [("day".toList, day), ("n".toList, .integer n)]

def datedDoc : TomlValue Str := dated (.datetime "2020-01-01".toList) ⟨1, by decide⟩

def undatedDoc : TomlValue Str := dated (.string "2020-01-01".toList) ⟨2, by decide⟩

def printDated : TomlValue Str → Except Str Str
  | .table [(k, .datetime d), (l, .integer n)] =>
    if k = "day".toList ∧ d = "2020-01-01".toList ∧ l = "n".toList ∧ n = ⟨1, by decide⟩ then
      .ok datedText
    else .error []
  | .table [(k, .string s), (l, .integer n)] =>
    if k = "day".toList ∧ s = "2020-01-01".toList ∧ l = "n".toList ∧ n = ⟨2, by decide⟩ then
      .ok undatedText
    else .error []
  | _ => .error []

def parseDated (text : Str) : Except Str (TomlValue Str) :=
  if text = datedText then .ok datedDoc
  else if text = undatedText then .ok undatedDoc
  else .error []

theorem wellFormed_dated {day : TomlValue Str} (h : day.WellFormed) (n : I64) :
    (dated day n).WellFormed := by
  have hlt : "day".toList < "n".toList := by decide
  refine .table ?_ ?_
  · exact List.pairwise_pair.mpr hlt
  · intro f hf
    simp only [List.mem_cons, List.not_mem_nil, or_false] at hf
    obtain rfl | rfl := hf
    · exact h
    · exact .integer n

theorem parseDated_print {t : TomlValue Str} {text : Str} (h : printDated t = .ok text) :
    parseDated (endLine text) = .ok t := by
  unfold printDated at h
  split at h
  · split at h
    · rename_i heq
      obtain ⟨rfl, rfl, rfl, rfl⟩ := heq
      obtain rfl := Except.ok.inj h
      rfl
    · cases h
  · split at h
    · rename_i heq
      obtain ⟨rfl, rfl, rfl, rfl⟩ := heq
      obtain rfl := Except.ok.inj h
      rfl
    · cases h
  · cases h

/-- The `toml` crate as far as these two documents go. -/
def datedCrate : TomlCrate Str where
  display := id
  fromStr := parseDated
  toStringPretty := printDated
  wellFormed text t h := by
    unfold parseDated at h
    split at h
    · obtain rfl := Except.ok.inj h
      exact wellFormed_dated (.datetime _) _
    · split at h
      · obtain rfl := Except.ok.inj h
        exact wellFormed_dated (.string _) _
      · cases h
  faithful _ _ h := parseDated_print h

def setToTwo : PatchMutation :=
  .set (some (.number (.posInt 2 (by decide)))) true

theorem patched_toml_keeps_iff_dated :
    ∃ t' tokens p, datedCrate.fromStr undatedText = .ok t' ∧
      parsePatchQueryTokens "n".toList = .ok tokens ∧
      writePlace tokens (tomlValueToJson datedCrate.display datedDoc) = some p ∧
      ((∀ q, Apart q p → t'.at? (setToTwo.moved p q) = datedDoc.at? q) ↔
        ∀ q x, Apart q p → datedDoc.at? q = some x → x.Survives) :=
  patched_toml_keeps_iff datedCrate datedText "n".toList undatedText setToTwo datedDoc (by rfl)
    (by rfl)

/-- Setting `n` turns the date beside it into a text. -/
theorem not_patched_toml_keeps :
    ¬ ∀ (toml : TomlCrate Str) (text query written : Str) (mutation : PatchMutation)
      (t t' : TomlValue Str) (tokens : List Str) (p : List Step), toml.fromStr text = .ok t →
        runStructuredPatchToml toml text query mutation = .ok written →
          toml.fromStr written = .ok t' → parsePatchQueryTokens query = .ok tokens →
            writePlace tokens (tomlValueToJson toml.display t) = some p →
              ∀ q, Apart q p → t'.at? (mutation.moved p q) = t.at? q := by
  intro h
  have hday := h datedCrate datedText "n".toList undatedText setToTwo datedDoc undatedDoc
    ["n".toList] [.key "n".toList] (by rfl) (by rfl) (by rfl) (by rfl) (by rfl)
    [.key "day".toList] ⟨by decide, by decide⟩
  cases hday

end Dated

end CrabMate.Structured
