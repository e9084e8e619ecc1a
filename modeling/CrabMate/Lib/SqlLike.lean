import CrabMate.Lib.Str

/-! The operator `LIKE … ESCAPE` of SQL, as SQLite documents it: `%` stands for any text, `_` for
any one character, the escape character makes the next character literal, and the letters of
ASCII are compared without their case. -/
namespace SqlLike

open RustStr (Str)

inductive Item where
  | anyText
  | anyChar
  | literal (c : Char)
  deriving DecidableEq

def item (c : Char) : Item :=
  if c = '%' then .anyText else if c = '_' then .anyChar else .literal c

/-- The items of a pattern; a pattern that ends with a bare escape character matches nothing. -/
def items (esc : Char) : Str → Option (List Item)
  | [] => some []
  | c :: rest =>
    if c = esc then
      match rest with
      | [] => none
      | d :: rest => (items esc rest).map (.literal d :: ·)
    else (items esc rest).map (item c :: ·)

def matchItems : List Item → Str → Bool
  | [], s => s.isEmpty
  | .anyText :: rest, s => s.tails.any fun t => matchItems rest t
  | .anyChar :: rest, s =>
    match s with
    | [] => false
    | _ :: s => matchItems rest s
  | .literal c :: rest, s =>
    match s with
    | [] => false
    | d :: s => c.toLower == d.toLower && matchItems rest s

def like (esc : Char) (pattern s : Str) : Bool :=
  match items esc pattern with
  | none => false
  | some parsed => matchItems parsed s

/-- The text with the escape character before every character that a pattern would interpret. -/
def escape (esc : Char) (s : Str) : Str :=
  s.flatMap fun c => if c = esc ∨ c = '%' ∨ c = '_' then [esc, c] else [c]

theorem items_cons_of_ne {esc c : Char} (h : c ≠ esc) (rest : Str) :
    items esc (c :: rest) = (items esc rest).map (item c :: ·) := by
  rw [items.eq_def]
  exact if_neg h

theorem items_escape (esc : Char) (s : Str) :
    items esc (escape esc s) = some (s.map .literal) := by
  induction s with
  | nil => rfl
  | cons c s ih =>
    rw [escape, List.flatMap_cons, ← escape]
    by_cases hc : c = esc ∨ c = '%' ∨ c = '_'
    · rw [if_pos hc]
      show items esc (esc :: c :: escape esc s) = _
      rw [items, if_pos rfl, ih]
      rfl
    · rw [if_neg hc]
      obtain ⟨hesc, hpercent, hunderscore⟩ : c ≠ esc ∧ c ≠ '%' ∧ c ≠ '_' := by
        simpa only [not_or] using hc
      show items esc (c :: escape esc s) = _
      rw [items_cons_of_ne hesc, ih, item, if_neg hpercent, if_neg hunderscore]
      rfl

theorem matchItems_literal (s t : Str) :
    matchItems (s.map .literal) t = true ↔ s.map Char.toLower = t.map Char.toLower := by
  induction s generalizing t with
  | nil => cases t <;> simp [matchItems]
  | cons c s ih =>
    cases t with
    | nil => simp [matchItems]
    | cons d t => simp [matchItems, ih]

/-- An escaped text has no wildcard left: it matches itself, up to the case of ASCII letters. -/
theorem like_escape (esc : Char) (s t : Str) :
    like esc (escape esc s) t = true ↔ s.map Char.toLower = t.map Char.toLower := by
  rw [like, items_escape]
  exact matchItems_literal s t

example : like '\\' (escape '\\' "src".toList ++ "/%".toList) "SRC/a_b.rs".toList = true := by
  decide

example : like '\\' (escape '\\' "src/%".toList) "src/a_b.rs".toList = false := by decide

end SqlLike
