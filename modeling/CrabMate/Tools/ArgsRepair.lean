import CrabMate.Lib.JsonText
import CrabMate.Lib.Str

/-! The repair of a `run_command` call whose arguments are not all quoted. It works on the text of
the call: it looks for the array itself and cuts it at its commas. -/
namespace CrabMate.ArgsRepair
open RustStr JsonText

def argsKey : Str := "\"args\"".toList

/-- The text up to the bracket that closes the `depth` open ones, and the text behind it. -/
def scanClose : ℕ → Str → Option (Str × Str)
  | _, [] => none
  | depth, '[' :: s => (scanClose (depth + 1) s).map fun r => ('[' :: r.1, r.2)
  | depth, ']' :: s =>
      if depth ≤ 1 then some ([], s)
      else (scanClose (depth - 1) s).map fun r => (']' :: r.1, r.2)
  | depth, c :: s => (scanClose depth s).map fun r => (c :: r.1, r.2)

/-- `char::is_control`. -/
def isControl (c : Char) : Bool := c.toNat < 0x20 || (0x7F ≤ c.toNat && c.toNat ≤ 0x9F)

/-- The numbers that `f64::from_str` reads, without their sign. -/
def isFloatDigits (s : Str) : Bool :=
  let whole := s.takeWhile Char.isDigit
  match s.dropWhile Char.isDigit with
  | '.' :: rest =>
      (!whole.isEmpty || !(rest.takeWhile Char.isDigit).isEmpty) &&
        isExponent (rest.dropWhile Char.isDigit)
  | rest => !whole.isEmpty && isExponent rest

/-- `token.parse::<f64>().is_ok()`. -/
def isFloat (token : Str) : Bool :=
  let body := match token with
    | '+' :: rest => rest
    | '-' :: rest => rest
    | _ => token
  let lower := body.map Char.toLower
  lower = "inf".toList || lower = "infinity".toList || lower = "nan".toList || isFloatDigits body

def argsTokenKeepAsIs (token : Str) : Bool :=
  startsWith ['"'] token || startsWith ['{'] token || startsWith ['['] token ||
    token = "true".toList || token = "false".toList || token = "null".toList || isFloat token

/-- A token that the repair puts in quotes. -/
def quotable (token : Str) : Bool :=
  !argsTokenKeepAsIs token && token.all fun c => !isControl c && c ≠ '"' && c ≠ '\\'

/-- What becomes of the text between two commas, and whether it was quoted. -/
def repairPart (part : Str) : Str × Bool :=
  let token := trim part
  if token.isEmpty then (part, false)
  else if quotable token then ('"' :: (token ++ ['"']), true)
  else (token, false)

def repairArgsArrayInner (inner : Str) : Option Str :=
  let parts := (inner.splitOn ',').map repairPart
  if parts.any Prod.snd then some ([',', ' '].intercalate (parts.map Prod.fst)) else none

def tryRepairRunCommandArgsJson (raw : Str) : Option Str := do
  let (beforeKey, afterKey) ← splitOnce? argsKey raw
  let (beforeColon, afterColon) ← splitOnce? [':'] afterKey
  let (beforeBracket, inside) ← splitOnce? ['['] afterColon
  let (inner, rest) ← scanClose 1 inside
  let repaired ← repairArgsArrayInner inner
  pure (beforeKey ++ argsKey ++ (beforeColon ++ ':' :: (beforeBracket ++ '[' :: (repaired ++
    ']' :: rest))))

example : tryRepairRunCommandArgsJson "\x7b\"command\":\"ls\",\"args\":[-la]\x7d".toList =
    some "\x7b\"command\":\"ls\",\"args\":[\"-la\"]\x7d".toList := by decide +kernel

end CrabMate.ArgsRepair
