import CrabMate.Lib.Json

/-! Reading JSON texts. A text is the list of its characters. -/
namespace JsonText
open List Option

abbrev Text := List Char

def isWs (c : Char) : Bool := c = ' ' || c = '\n' || c = '\t' || c = '\r'

def skipWs (s : Text) : Text := s.dropWhile isWs

section Strings

def hexDigit? (c : Char) : Option ℕ :=
  if c.isDigit then some (c.toNat - '0'.toNat)
  else if 'a' ≤ c ∧ c ≤ 'f' then some (c.toNat - 'a'.toNat + 10)
  else if 'A' ≤ c ∧ c ≤ 'F' then some (c.toNat - 'A'.toNat + 10)
  else none

def hex4? (a b c d : Char) : Option ℕ := do
  let w ← hexDigit? a
  let x ← hexDigit? b
  let y ← hexDigit? c
  let z ← hexDigit? d
  pure (((w * 16 + x) * 16 + y) * 16 + z)

/-- The second half of a surrogate pair. -/
def readLow (high : ℕ) : Text → Option (Char × Text)
  | '\\' :: 'u' :: a :: b :: c :: d :: rest =>
      (hex4? a b c d).bind fun low =>
        if 0xDC00 ≤ low ∧ low ≤ 0xDFFF then
          some (Char.ofNat (0x10000 + (high - 0xD800) * 0x400 + (low - 0xDC00)), rest)
        else none
  | _ => none

/-- What follows a backslash. -/
def readEscape : Text → Option (Char × Text)
  | '"' :: rest => some ('"', rest)
  | '\\' :: rest => some ('\\', rest)
  | '/' :: rest => some ('/', rest)
  | 'b' :: rest => some (Char.ofNat 8, rest)
  | 'f' :: rest => some (Char.ofNat 12, rest)
  | 'n' :: rest => some ('\n', rest)
  | 'r' :: rest => some ('\r', rest)
  | 't' :: rest => some ('\t', rest)
  | 'u' :: a :: b :: c :: d :: rest =>
      (hex4? a b c d).bind fun n =>
        if 0xD800 ≤ n ∧ n ≤ 0xDBFF then readLow n rest
        else if 0xDC00 ≤ n ∧ n ≤ 0xDFFF then none
        else some (Char.ofNat n, rest)
  | _ => none

/-- The rest of a string behind its opening quote, with at most `fuel` characters in it. -/
def readChars : ℕ → Text → Option (Text × Text)
  | 0, _ => none
  | _ + 1, [] => none
  | _ + 1, '"' :: rest => some ([], rest)
  | fuel + 1, '\\' :: rest =>
      (readEscape rest).bind fun esc =>
        (readChars fuel esc.2).map fun r => (esc.1 :: r.1, r.2)
  | fuel + 1, c :: rest =>
      if c.toNat < 0x20 then none
      else (readChars fuel rest).map fun r => (c :: r.1, r.2)

def readString (s : Text) : Option (Text × Text) := readChars s.length s

end Strings

section Values

def isScalarChar (c : Char) : Bool := c.isAlphanum || c = '+' || c = '-' || c = '.'

def isDigits (s : Text) : Bool := !s.isEmpty && s.all Char.isDigit

/-- The part of a number from its exponent on. -/
def isExponent : Text → Bool
  | [] => true
  | c :: '+' :: digits => (c = 'e' || c = 'E') && isDigits digits
  | c :: '-' :: digits => (c = 'e' || c = 'E') && isDigits digits
  | c :: digits => (c = 'e' || c = 'E') && isDigits digits

/-- The part of a number behind its whole digits. -/
def isFraction : Text → Bool
  | '.' :: rest =>
      !(rest.takeWhile Char.isDigit).isEmpty && isExponent (rest.dropWhile Char.isDigit)
  | rest => isExponent rest

def isNumber (s : Text) : Bool :=
  let digits := match s with
    | '-' :: rest => rest
    | _ => s
  let whole := digits.takeWhile Char.isDigit
  (whole = ['0'] || !whole.isEmpty && whole.head? ≠ some '0') &&
    isFraction (digits.dropWhile Char.isDigit)

/-- A number or a word. -/
def readScalar (s : Text) : Option (JsonValue × Text) :=
  let token := s.takeWhile isScalarChar
  let rest := s.dropWhile isScalarChar
  if token = "null".toList then some (.null, rest)
  else if token = "true".toList then some (.bool true, rest)
  else if token = "false".toList then some (.bool false, rest)
  else if isNumber token then some (.num (String.ofList token), rest)
  else none

/-- The elements of an array up to its end. -/
def readElements (readValue : Text → Option (JsonValue × Text)) :
    ℕ → Text → Option (List JsonValue × Text)
  | 0, _ => none
  | fuel + 1, s =>
      (readValue s).bind fun v =>
        match skipWs v.2 with
        | ',' :: rest => (readElements readValue fuel rest).map fun vs => (v.1 :: vs.1, vs.2)
        | ']' :: rest => some ([v.1], rest)
        | _ => none

/-- The fields of an object up to its end. -/
def readFields (readValue : Text → Option (JsonValue × Text)) :
    ℕ → Text → Option (List (String × JsonValue) × Text)
  | 0, _ => none
  | fuel + 1, s =>
      match skipWs s with
      | '"' :: s =>
          (readString s).bind fun key =>
            match skipWs key.2 with
            | ':' :: s =>
                (readValue s).bind fun v =>
                  match skipWs v.2 with
                  | ',' :: rest =>
                      (readFields readValue fuel rest).map fun fs =>
                        ((String.ofList key.1, v.1) :: fs.1, fs.2)
                  | '}' :: rest => some ([(String.ofList key.1, v.1)], rest)
                  | _ => none
            | _ => none
      | _ => none

/-- A value with fewer than `depth` arrays and objects around each other. -/
def readValue : ℕ → Text → Option (JsonValue × Text)
  | 0, _ => none
  | depth + 1, s =>
      match skipWs s with
      | '"' :: rest => (readString rest).map fun r => (.str (String.ofList r.1), r.2)
      | '[' :: rest =>
          match skipWs rest with
          | ']' :: rest => if depth = 0 then none else some (.arr [], rest)
          | _ =>
              (readElements (readValue depth) rest.length rest).map fun vs => (.arr vs.1, vs.2)
      | '{' :: rest =>
          match skipWs rest with
          | '}' :: rest => if depth = 0 then none else some (.obj [], rest)
          | _ =>
              (readFields (readValue depth) rest.length rest).map fun fs => (.obj fs.1, fs.2)
      | s => readScalar s

/-- A whole text. -/
def readText (s : Text) : Option JsonValue :=
  (readValue 128 s).bind fun v => if skipWs v.2 = [] then some v.1 else none

end Values

example : readText "\x7b\"a\": [1, \"\\u00e9\", [ ], true]\x7d".toList =
    some (.obj [("a", .arr [.num "1", .str "é", .arr [], .bool true])]) := by decide +kernel

section WhiteSpace

variable {w s : Text} {c : Char}

theorem skipWs_append (hw : ∀ c ∈ w, isWs c) (s : Text) : skipWs (w ++ s) = skipWs s := by
  induction w with
  | nil => rfl
  | cons c w ih =>
    have hc : isWs c = true := hw c mem_cons_self
    show (c :: (w ++ s)).dropWhile isWs = _
    rw [dropWhile_cons_of_pos hc]
    exact ih fun c h => hw c (mem_cons_of_mem _ h)

theorem skipWs_cons (hc : isWs c = false) (s : Text) : skipWs (c :: s) = c :: s :=
  dropWhile_cons_of_neg (by rw [hc]; nofun)

theorem skipWs_eq_nil (hw : ∀ c ∈ w, isWs c) : skipWs w = [] := by
  have h := skipWs_append hw []
  rwa [append_nil] at h

end WhiteSpace

section Literals

/-- A character of a string literal, as it is written. -/
inductive LitChar where
  | plain (c : Char) (h : c ≠ '"' ∧ c ≠ '\\' ∧ 0x20 ≤ c.toNat)
  | escaped (escape : Text) (c : Char) (h : readEscape escape = some (c, []))

namespace LitChar

def text : LitChar → Text
  | plain c _ => [c]
  | escaped escape _ _ => '\\' :: escape

def value : LitChar → Char
  | plain c _ => c
  | escaped _ c _ => c

end LitChar

/-- What stands between the quotes of a literal. -/
def litText (us : List LitChar) : Text := us.flatMap LitChar.text

def litValue (us : List LitChar) : Text := us.map LitChar.value

variable {t : Text} {c : Char}

@[simp] theorem litText_cons (u : LitChar) (us : List LitChar) :
    litText (u :: us) = u.text ++ litText us := flatMap_cons

@[simp] theorem litText_append (us vs : List LitChar) :
    litText (us ++ vs) = litText us ++ litText vs := flatMap_append

@[simp] theorem litValue_cons (u : LitChar) (us : List LitChar) :
    litValue (u :: us) = u.value :: litValue us := rfl

@[simp] theorem litValue_append (us vs : List LitChar) :
    litValue (us ++ vs) = litValue us ++ litValue vs := map_append

theorem readLow_append {high : ℕ} {r : Text} (h : readLow high t = some (c, r)) (rest : Text) :
    readLow high (t ++ rest) = some (c, r ++ rest) := by
  unfold readLow at h
  split at h
  · obtain ⟨low, hlow, h⟩ := bind_eq_some_iff.mp h
    split at h
    · rename_i hrange
      obtain ⟨rfl, rfl⟩ := Prod.mk.inj (Option.some.inj h)
      simp only [cons_append, readLow, hlow, bind_some, if_pos hrange]
    · cases h
  · cases h

theorem readEscape_append {r : Text} (h : readEscape t = some (c, r)) (rest : Text) :
    readEscape (t ++ rest) = some (c, r ++ rest) := by
  unfold readEscape at h
  split at h
  case h_9 =>
    obtain ⟨n, hn, h⟩ := bind_eq_some_iff.mp h
    simp only [cons_append, readEscape, hn, bind_some]
    split at h
    · rename_i hhigh
      rw [if_pos hhigh]
      exact readLow_append h rest
    · rename_i hhigh
      rw [if_neg hhigh]
      split at h
      · cases h
      · rename_i hlow
        obtain ⟨rfl, rfl⟩ := Prod.mk.inj (Option.some.inj h)
        rw [if_neg hlow]
  case h_10 => cases h
  all_goals
    obtain ⟨rfl, rfl⟩ := Prod.mk.inj (Option.some.inj h)
    rfl

theorem readChars_lit (us : List LitChar) {fuel : ℕ} (hfuel : us.length < fuel) (rest : Text) :
    readChars fuel (litText us ++ '"' :: rest) = some (litValue us, rest) := by
  induction us generalizing fuel with
  | nil =>
    cases fuel with
    | zero => cases hfuel
    | succ fuel => rfl
  | cons u us ih =>
    cases fuel with
    | zero => cases hfuel
    | succ fuel =>
      have hrest := ih (Nat.lt_of_succ_lt_succ hfuel)
      cases u with
      | plain c h =>
        have hlow : ¬c.toNat < 0x20 := Nat.not_lt.mpr h.2.2
        show readChars (fuel + 1) (c :: (litText us ++ '"' :: rest)) = _
        rw [readChars]
        · rw [if_neg hlow, hrest]
          rfl
        · exact h.1
        · exact h.2.1
      | escaped escape c h =>
        have hescape := readEscape_append h (litText us ++ '"' :: rest)
        rw [litText_cons, append_assoc]
        show readChars (fuel + 1) ('\\' :: (escape ++ (litText us ++ '"' :: rest))) = _
        rw [readChars, hescape, bind_some, nil_append, hrest]
        rfl

theorem length_le_litText (us : List LitChar) : us.length ≤ (litText us).length := by
  induction us with
  | nil => exact Nat.le_refl 0
  | cons u us ih =>
    have hu : 1 ≤ u.text.length := by
      cases u with
      | plain c h => exact Nat.le_refl 1
      | escaped escape c h => exact Nat.succ_le_succ (Nat.zero_le _)
    rw [litText_cons, length_append, length_cons]
    omega

theorem readString_lit (us : List LitChar) (rest : Text) :
    readString (litText us ++ '"' :: rest) = some (litValue us, rest) := by
  apply readChars_lit
  have hlen := length_le_litText us
  rw [length_append, length_cons]
  omega

theorem isAlphanum_of_letter (h : c.isUpper = true ∨ c.isLower = true) : c.isAlphanum = true :=
  Bool.or_eq_true_iff.mpr (Or.inl (Bool.or_eq_true_iff.mpr h))

theorem isAlphanum_of_hexDigit {n : ℕ} (h : hexDigit? c = some n) : c.isAlphanum = true := by
  unfold hexDigit? at h
  split at h
  · rename_i hdigit
    simp [Char.isAlphanum, hdigit]
  · split at h
    · rename_i hlower
      have hle : c ≤ 'z' := Char.le_trans hlower.2 (by decide)
      have hc : c.isLower = true :=
        Bool.and_eq_true_iff.mpr ⟨decide_eq_true hlower.1, decide_eq_true hle⟩
      exact isAlphanum_of_letter (Or.inr hc)
    · split at h
      · rename_i hupper
        have hle : c ≤ 'Z' := Char.le_trans hupper.2 (by decide)
        have hlow : (65 : UInt32) ≤ c.val := hupper.1
        have hhigh : c.val ≤ (90 : UInt32) := hle
        have hc : c.isUpper = true := decide_eq_true ⟨hlow, hhigh⟩
        exact isAlphanum_of_letter (Or.inl hc)
      · cases h

theorem isAlphanum_of_hex4 {x y z w : Char} {n : ℕ} (h : hex4? x y z w = some n) :
    ∀ c ∈ [x, y, z, w], c.isAlphanum = true := by
  obtain ⟨a, ha, h⟩ := bind_eq_some_iff.mp h
  obtain ⟨b, hb, h⟩ := bind_eq_some_iff.mp h
  obtain ⟨d, hd, h⟩ := bind_eq_some_iff.mp h
  obtain ⟨e, he, -⟩ := bind_eq_some_iff.mp h
  intro c hc
  simp only [mem_cons, not_mem_nil, or_false] at hc
  obtain rfl | rfl | rfl | rfl := hc
  · exact isAlphanum_of_hexDigit ha
  · exact isAlphanum_of_hexDigit hb
  · exact isAlphanum_of_hexDigit hd
  · exact isAlphanum_of_hexDigit he

theorem escape_chars (h : readEscape t = some (c, [])) :
    t = ['"'] ∨ ∀ x ∈ t, x = '\\' ∨ x = '/' ∨ x.isAlphanum = true := by
  unfold readEscape at h
  split at h
  case h_1 =>
    obtain ⟨-, rfl⟩ := Prod.mk.inj (Option.some.inj h)
    exact Or.inl rfl
  case h_9 =>
    refine Or.inr ?_
    rename_i x y z w rest
    obtain ⟨n, hn, h⟩ := bind_eq_some_iff.mp h
    have hdigits := isAlphanum_of_hex4 hn
    have hrest : ∀ x ∈ rest, x = '\\' ∨ x = '/' ∨ x.isAlphanum = true := by
      split at h
      · unfold readLow at h
        split at h
        · obtain ⟨low, hlow, h⟩ := bind_eq_some_iff.mp h
          have hdigits' := isAlphanum_of_hex4 hlow
          split at h
          · obtain ⟨-, rfl⟩ := Prod.mk.inj (Option.some.inj h)
            intro c hc
            obtain rfl | hc := mem_cons.mp hc
            · exact Or.inl rfl
            · obtain rfl | hc := mem_cons.mp hc
              · exact Or.inr (Or.inr (by decide))
              · exact Or.inr (Or.inr (hdigits' c hc))
          · cases h
        · cases h
      · split at h
        · cases h
        · obtain ⟨-, rfl⟩ := Prod.mk.inj (Option.some.inj h)
          nofun
    intro c hc
    obtain rfl | hc := mem_cons.mp hc
    · exact Or.inr (Or.inr (by decide))
    · have hsplit : c ∈ [x, y, z, w] ++ rest := hc
      obtain hc | hc := mem_append.mp hsplit
      · exact Or.inr (Or.inr (hdigits c hc))
      · exact hrest c hc
  case h_10 => cases h
  all_goals
    obtain ⟨-, rfl⟩ := Prod.mk.inj (Option.some.inj h)
    exact Or.inr (forall_mem_singleton.mpr (by decide))

/-- A literal is read as the string that it is written for. -/
theorem readValue_lit (depth : ℕ) (us : List LitChar) (rest : Text) :
    readValue (depth + 1) ('"' :: (litText us ++ '"' :: rest)) =
      some (.str (String.ofList (litValue us)), rest) := by
  unfold readValue
  rw [skipWs_cons (by decide)]
  show Option.map _ (readString (litText us ++ '"' :: rest)) = _
  rw [readString_lit]
  rfl

theorem readValue_append_ws {w : Text} (hw : ∀ c ∈ w, isWs c) (depth : ℕ) (s : Text) :
    readValue depth (w ++ s) = readValue depth s := by
  cases depth with
  | zero => rfl
  | succ depth =>
    unfold readValue
    rw [skipWs_append hw]

theorem quote_of_readValue_str {depth : ℕ} {s r : Text} {v : String} {c : Char} {s' : Text}
    (h : readValue depth s = some (.str v, r)) (hs : skipWs s = c :: s') : c = '"' := by
  cases depth with
  | zero => cases h
  | succ depth =>
    unfold readValue at h
    rw [hs] at h
    split at h
    · rename_i heq
      exact (List.cons.inj heq).1
    · split at h
      · split at h
        · cases h
        · cases h
      · obtain ⟨vs, -, hv⟩ := map_eq_some_iff.mp h
        cases hv
    · split at h
      · split at h
        · cases h
        · cases h
      · obtain ⟨fs, -, hv⟩ := map_eq_some_iff.mp h
        cases hv
    · unfold readScalar at h
      dsimp only at h
      split at h
      · cases h
      · split at h
        · cases h
        · split at h
          · cases h
          · split at h
            · cases h
            · cases h

theorem readScalar_rest {s r : Text} {v : JsonValue} (h : readScalar s = some (v, r)) :
    r = s.dropWhile isScalarChar := by
  unfold readScalar at h
  dsimp only at h
  split at h
  · exact (Prod.mk.inj (Option.some.inj h)).2.symm
  · split at h
    · exact (Prod.mk.inj (Option.some.inj h)).2.symm
    · split at h
      · exact (Prod.mk.inj (Option.some.inj h)).2.symm
      · split at h
        · exact (Prod.mk.inj (Option.some.inj h)).2.symm
        · cases h

end Literals

section Arrays

variable {read : Text → Option (JsonValue × Text)} {fuel : ℕ} {s r : Text} {v : JsonValue}
  {vs : List JsonValue}

/-- The elements behind the first one. -/
def readMore (read : Text → Option (JsonValue × Text)) (fuel : ℕ) (s : Text) :
    Option (List JsonValue × Text) :=
  match skipWs s with
  | ',' :: rest => readElements read fuel rest
  | ']' :: rest => some ([], rest)
  | _ => none

theorem readElements_succ (read : Text → Option (JsonValue × Text)) (fuel : ℕ) (s : Text) :
    readElements read (fuel + 1) s = (read s).bind fun v =>
      (readMore read fuel v.2).map fun vs => (v.1 :: vs.1, vs.2) := by
  rw [readElements]
  congr 1
  funext v
  unfold readMore
  split
  · rfl
  · rfl
  · rfl

theorem readMore_append_ws {w : Text} (hw : ∀ c ∈ w, isWs c) (s : Text) :
    readMore read fuel (w ++ s) = readMore read fuel s := by
  unfold readMore
  rw [skipWs_append hw]

theorem readMore_comma (hread : read s = some (v, r)) :
    readMore read (fuel + 1) (',' :: s) =
      (readMore read fuel r).map fun vs => (v :: vs.1, vs.2) := by
  show readElements read (fuel + 1) s = _
  rw [readElements_succ, hread]
  rfl

theorem readElements_append_ws {w : Text} (hw : ∀ c ∈ w, isWs c) (depth fuel : ℕ) (s : Text) :
    readElements (readValue depth) fuel (w ++ s) = readElements (readValue depth) fuel s := by
  cases fuel with
  | zero => rfl
  | succ fuel => rw [readElements_succ, readElements_succ, readValue_append_ws hw]

theorem readMore_comma_inv (h : readMore read fuel (',' :: s) = some (vs, r)) :
    ∃ fuel' v vs' r', vs = v :: vs' ∧ read s = some (v, r') ∧
      readMore read fuel' r' = some (vs', r) := by
  have helems : readElements read fuel s = some (vs, r) := h
  cases fuel with
  | zero => cases helems
  | succ fuel =>
    rw [readElements_succ] at helems
    obtain ⟨⟨v, r'⟩, hread, helems⟩ := bind_eq_some_iff.mp helems
    obtain ⟨⟨vs', r''⟩, hmore, heq⟩ := map_eq_some_iff.mp helems
    obtain ⟨rfl, rfl⟩ := Prod.mk.inj heq
    exact ⟨fuel, v, vs', r', rfl, hread, hmore⟩

theorem readMore_inv {c : Char} (hc : isWs c = false)
    (h : readMore read fuel (c :: s) = some (vs, r)) : c = ',' ∨ c = ']' ∧ r = s := by
  unfold readMore at h
  rw [skipWs_cons hc] at h
  split at h
  · rename_i heq
    exact Or.inl (List.cons.inj heq).1
  · rename_i heq
    obtain ⟨hclose, rfl⟩ := List.cons.inj heq
    exact Or.inr ⟨hclose, (Prod.mk.inj (Option.some.inj h)).2.symm⟩
  · cases h

end Arrays

section Objects

variable {read : Text → Option (JsonValue × Text)} {s r : Text} {v : JsonValue}

/-- The fields behind the first one. -/
def readMoreFields (read : Text → Option (JsonValue × Text)) (fuel : ℕ) (s : Text) :
    Option (List (String × JsonValue) × Text) :=
  match skipWs s with
  | ',' :: rest => readFields read fuel rest
  | '}' :: rest => some ([], rest)
  | _ => none

theorem readFields_succ {w w' : Text} (hw : ∀ c ∈ w, isWs c) (hw' : ∀ c ∈ w', isWs c)
    (key : List LitChar) (fuel : ℕ) (s : Text) :
    readFields read (fuel + 1) (w ++ '"' :: (litText key ++ '"' :: (w' ++ ':' :: s))) =
      (read s).bind fun v => (readMoreFields read fuel v.2).map fun fs =>
        ((String.ofList (litValue key), v.1) :: fs.1, fs.2) := by
  rw [readFields, skipWs_append hw, skipWs_cons (by decide)]
  show Option.bind (readString (litText key ++ '"' :: (w' ++ ':' :: s))) _ = _
  rw [readString_lit, bind_some, skipWs_append hw', skipWs_cons (by decide)]
  show Option.bind (read s) _ = _
  congr 1
  funext v
  unfold readMoreFields
  split
  · rfl
  · rfl
  · rfl

theorem readMoreFields_eq_nil {fuel : ℕ} {fs : List (String × JsonValue) × Text}
    (hs : ∀ t, skipWs s ≠ ',' :: t) (h : readMoreFields read fuel s = some fs) : fs.1 = [] := by
  unfold readMoreFields at h
  split at h
  · rename_i heq
    exact absurd heq (hs _)
  · obtain rfl := Option.some.inj h
    rfl
  · cases h

theorem readValue_object {w : Text} (hw : ∀ c ∈ w, isWs c) (depth : ℕ) (s : Text) :
    readValue (depth + 1) ('{' :: (w ++ '"' :: s)) =
      (readFields (readValue depth) (w ++ '"' :: s).length (w ++ '"' :: s)).map fun fs =>
        (JsonValue.obj fs.1, fs.2) := by
  rw [readValue, skipWs_cons (by decide)]
  show (match skipWs (w ++ '"' :: s) with
    | '}' :: rest => if depth = 0 then none else some (JsonValue.obj [], rest)
    | _ => Option.map _ _) = _
  rw [skipWs_append hw, skipWs_cons (by decide)]
  rfl

theorem readMoreFields_comma {w : Text} (hw : ∀ c ∈ w, isWs c) (fuel : ℕ) (s : Text) :
    readMoreFields read fuel (w ++ ',' :: s) = readFields read fuel s := by
  unfold readMoreFields
  rw [skipWs_append hw, skipWs_cons (by decide)]
  rfl

theorem readValue_array {depth : ℕ} (h : ∀ t, skipWs s ≠ ']' :: t) :
    readValue (depth + 1) ('[' :: s) =
      (readElements (readValue depth) s.length s).map fun vs => (JsonValue.arr vs.1, vs.2) := by
  rw [readValue, skipWs_cons (by decide)]
  show (match skipWs s with
    | ']' :: rest => if depth = 0 then none else some (JsonValue.arr [], rest)
    | _ => Option.map _ _) = _
  split
  · rename_i heq
    exact absurd heq (h _)
  · rfl

end Objects

end JsonText
