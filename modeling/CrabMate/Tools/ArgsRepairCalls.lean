import CrabMate.Tools.ArgsRepair

/-! Calls of `run_command` as they are written: the command and some of the arguments as string
literals, the other arguments without quotes. -/
namespace CrabMate.ArgsRepair
open RustStr JsonText

/-- White space between the parts of a call. -/
abbrev Ws := { w : Str // ∀ c ∈ w, isWs c }

/-- An argument without quotes. -/
structure Bare where
  text : Str
  ne_nil : text ≠ []
  free : ∀ c ∈ text, c ≠ '"' ∧ c ≠ ',' ∧ c ≠ '[' ∧ c ≠ ']' ∧ isWhitespace c = false

inductive Item where
  | lit (chars : List LitChar)
  | bare (token : Bare)

def Item.text : Item → Str
  | .lit chars => '"' :: (litText chars ++ ['"'])
  | .bare token => token.text

def Item.value : Item → Str
  | .lit chars => litValue chars
  | .bare token => token.text

def Item.isBare : Item → Bool
  | .lit _ => false
  | .bare _ => true

/-- An element of the array, with the white space around it. -/
structure Elem where
  before : Ws
  item : Item
  after : Ws

def Elem.text (e : Elem) : Str := e.before.1 ++ (e.item.text ++ e.after.1)

/-- The elements of an array and the commas between them. -/
def elemsText : List Elem → Str
  | [] => []
  | [e] => e.text
  | e :: es => e.text ++ ',' :: elemsText es

/-- A call; the spaces are named by what they follow. -/
structure Call where
  command : List LitChar
  args : List Elem
  start : Ws
  brace : Ws
  commandKey : Ws
  commandColon : Ws
  commandValue : Ws
  comma : Ws
  argsName : Ws
  argsColon : Ws
  noArgs : Ws
  argsValue : Ws
  stop : Ws

namespace Call

variable (call : Call)

/-- The text in front of the key of the arguments. -/
def beforeArgs : Str :=
  call.start.1 ++ '{' :: (call.brace.1 ++ ("\"command\"".toList ++ (call.commandKey.1 ++ ':' ::
    (call.commandColon.1 ++ '"' :: (litText call.command ++ '"' ::
      (call.commandValue.1 ++ ',' :: call.comma.1))))))

def inside : Str := if call.args = [] then call.noArgs.1 else elemsText call.args

/-- The text behind the bracket that closes the array. -/
def afterArgs : Str := call.argsValue.1 ++ '}' :: call.stop.1

def text : Str :=
  call.beforeArgs ++ argsKey ++ (call.argsName.1 ++ ':' :: (call.argsColon.1 ++ '[' ::
    (call.inside ++ ']' :: call.afterArgs)))

def strings : List Str := call.args.map fun e => e.item.value

def argsValueJson : JsonValue := .arr (call.strings.map fun s => .str (String.ofList s))

/-- What the call is meant to be. -/
def meant : JsonValue :=
  .obj [("command", .str (String.ofList (litValue call.command))), ("args", call.argsValueJson)]

end Call

section Kept

def isComma : LitChar → Bool
  | .plain c _ => c = ','
  | .escaped .. => false

def isSpace : LitChar → Bool
  | .plain c _ => isWhitespace c
  | .escaped .. => false

/-- The first of the pieces that a literal is cut into at its commas, and the others. -/
def pieces : List LitChar → List LitChar × List (List LitChar)
  | [] => ([], [])
  | u :: us =>
      if isComma u then ([], (pieces us).1 :: (pieces us).2)
      else (u :: (pieces us).1, (pieces us).2)

def trimLitStart (us : List LitChar) : List LitChar := us.dropWhile isSpace

def trimLitEnd (us : List LitChar) : List LitChar := us.rdropWhile isSpace

def trimLit (us : List LitChar) : List LitChar := trimLitEnd (trimLitStart us)

/-- A piece behind a comma that is not quoted and whose white space is one space in front. -/
def Spaced (p : List LitChar) : Prop :=
  quotable (litText (trimLit p)) = false ∧ litValue p = ' ' :: litValue (trimLit p)

/-- The pieces behind the first comma of a literal, of which the last ends with the literal. -/
def RestKept : List (List LitChar) → Prop
  | [] => True
  | [p] => litValue p = ' ' :: litValue (trimLitStart p)
  | p :: ps => Spaced p ∧ RestKept ps

/-- A literal that comes out of the repair with its value. -/
def LitKept (us : List LitChar) : Prop :=
  (pieces us).2 = [] ∨ trimLitEnd (pieces us).1 = (pieces us).1 ∧ RestKept (pieces us).2

/-- The same for a literal of which the repair only sees a part. -/
def CutKept (us : List LitChar) : Prop :=
  trimLitEnd (pieces us).1 = (pieces us).1 ∧ ∀ p ∈ (pieces us).2, Spaced p

/-- How a literal changes the number of open brackets, or where it closes the last one. -/
inductive Brackets where
  | still (depth : ℕ)
  | cut (before after : List LitChar)

def Brackets.push (u : LitChar) : Brackets → Brackets
  | still depth => still depth
  | cut before after => cut (u :: before) after

def brackets : ℕ → List LitChar → Brackets
  | depth, [] => .still depth
  | depth, u :: us =>
      if u.text = ['['] then (brackets (depth + 1) us).push u
      else if u.text = [']'] then
        if depth ≤ 1 then .cut [] us else (brackets (depth - 1) us).push u
      else (brackets depth us).push u

/-- The elements that come out of the repair as they are meant, when `depth` brackets are open in
front of them. -/
def ArgsKept : ℕ → List Elem → Prop
  | depth, [] => depth = 1
  | depth, e :: es =>
      match e.item with
      | .bare token => quotable token.text = true ∧ ArgsKept depth es
      | .lit us =>
          match brackets depth us with
          | .still depth => LitKept us ∧ ArgsKept depth es
          | .cut before _ => CutKept before ∧ ∀ e ∈ es, e.item.isBare = false

end Kept

/-- The repair yields a text that is read with the arguments as they are meant. -/
def Repairs (call : Call) : Prop :=
  ∃ out v, tryRepairRunCommandArgsJson call.text = some out ∧ readText out = some v ∧
    v.get? "args" = some call.argsValueJson

end CrabMate.ArgsRepair
