import CrabMate.Lib.Str

/-! `run_command` through `bash -c`: which arguments ask for a shell, how each one is quoted, and
the one-line script. -/
namespace CrabMate
open RustStr

def toAsciiLowercase (s : Str) : Str := s.map Char.toLower

def eqIgnoreAsciiCase (a b : Str) : Bool := toAsciiLowercase a = toAsciiLowercase b

/-- POSIX shells, compared in lower case. -/
def isPosixShellName (cmd : Str) : Bool :=
  ["bash", "sh"].any fun name => toAsciiLowercase (trim cmd) = name.toList

def argIsShellCFlag (a : Str) : Bool :=
  let a := trim a
  ["-c", "-lc", "-cl"].any (fun flag => a = flag.toList) ||
    (startsWith ['-'] a && !startsWith ['-', '-'] a && a.contains 'c')

def isShellDashCInvocation (cmd : Str) (args : List Str) : Bool :=
  isPosixShellName cmd && args.any argIsShellCFlag

def allowlistAllowsAll (allowed : List Str) : Bool := allowed.any fun c => trim c = ['*']

def posixShellOnAllowlist (allowed : List Str) : Option Str :=
  if allowlistAllowsAll allowed then some "bash".toList
  else if allowed.any fun c => eqIgnoreAsciiCase c "bash".toList then some "bash".toList
  else if allowed.any fun c => eqIgnoreAsciiCase c "sh".toList then some "sh".toList
  else none

def shellOperatorTokens : List Str :=
  ["&&", "||", "|", ";", ">", ">>", "<", "2>", "2>>", "&"].map String.toList

def tokenIsShellOperator (t : Str) : Bool := shellOperatorTokens.contains (trim t)

/-- The labels of `detect_shell_expansion_token`. -/
inductive ShellExpansion where
  | braces
  | variable
  | tilde
  | glob
  deriving DecidableEq

def tokenLooksLikePathGlob (t : Str) : Bool :=
  let t := trim t
  !startsWith ['-'] t && (t.contains '/' || t.contains '.')

/-- The scan from one position; `prev` is the character before it. -/
def detectFrom (s : Str) (prev : Option Char) : Str → Option ShellExpansion
  | [] => none
  | ['$'] => none
  | '$' :: n :: rest =>
    if n = '(' then detectFrom s (some n) rest
    else if n = '{' then some .braces
    else if n.isAlphanum || "_?@*#!".toList.contains n then some .variable
    else detectFrom s (some n) rest
  | c :: rest =>
    if c = '~' ∧ (prev = none ∨ prev = some '=') then some .tilde
    else if c = '*' then some .glob
    else if c = '?' ∧ tokenLooksLikePathGlob s ∧ prev ≠ some '-' then some .glob
    else if c = '[' ∧ tokenLooksLikePathGlob s then some .glob
    else detectFrom s (some c) rest

/-- The first expansion of a token. Command substitutions do not count: they are quoted. -/
def detectShellExpansionToken (s : Str) : Option ShellExpansion := detectFrom s none s

/-- An unescaped backquote or `$(`. -/
def containsCommandSubstitution : Str → Bool
  | [] => false
  | ['\\'] => false
  | '\\' :: _ :: rest => containsCommandSubstitution rest
  | '`' :: _ => true
  | '$' :: '(' :: _ => true
  | _ :: rest => containsCommandSubstitution rest

/-- The characters between the quotes of `double_quote_token`: escapes stay, open quotes and
substitutions get one. -/
def doubleQuoteBody : Str → Str
  | [] => []
  | ['\\'] => ['\\', '\\']
  | '\\' :: next :: rest => '\\' :: next :: doubleQuoteBody rest
  | '"' :: rest => '\\' :: '"' :: doubleQuoteBody rest
  | '`' :: rest => '\\' :: '`' :: doubleQuoteBody rest
  | '$' :: '(' :: rest => '\\' :: '$' :: '(' :: doubleQuoteBody rest
  | c :: rest => c :: doubleQuoteBody rest

def doubleQuoteToken (arg : Str) : Str := '"' :: doubleQuoteBody arg ++ ['"']

def safeUnquoted (arg : Str) : Bool :=
  arg.all (fun c => c.isAlphanum || "_-./:=,@".toList.contains c) && !arg.contains '\''

/-- The token is written as it is, for the shell to expand. -/
def emittedRaw (arg : Str) : Bool :=
  (detectShellExpansionToken arg).isSome && !containsCommandSubstitution arg &&
    !arg.any isWhitespace

def quoteScriptToken (arg : Str) : Str :=
  let arg := trim arg
  if arg.isEmpty then ['\'', '\'']
  else if tokenIsShellOperator arg then arg
  else if (detectShellExpansionToken arg).isSome || containsCommandSubstitution arg then
    if containsCommandSubstitution arg || arg.any isWhitespace then doubleQuoteToken arg else arg
  else if safeUnquoted arg then arg
  else doubleQuoteToken arg

def joinRunCommandArgvTail (args : List Str) : Str := [' '].intercalate (args.map quoteScriptToken)

def joinRunCommandShellScript (cmd : Str) (args : List Str) : Str :=
  let cmd := trim cmd
  let tail := joinRunCommandArgvTail args
  if tail.isEmpty then cmd else cmd ++ ' ' :: tail

section Wrap

def tokenNeedsShellExpansion (t : Str) : Bool :=
  let t := trim t
  !t.isEmpty && (detectShellExpansionToken t).isSome

def argvNeedsShellExpansion (cmd : Str) (args : List Str) : Bool :=
  !isShellDashCInvocation cmd args && (cmd :: args).any tokenNeedsShellExpansion

def argvHasShellOperators (cmd : Str) (args : List Str) : Bool :=
  !isShellDashCInvocation cmd args && (cmd :: args).any tokenIsShellOperator

def argvNeedsPosixShellWrap (cmd : Str) (args : List Str) : Bool :=
  argvNeedsShellExpansion cmd args || argvHasShellOperators cmd args

/-- A shell name with a `-c` flag behind it. -/
def argsNameNestedShell : List Str → Bool
  | [] => false
  | a :: rest => (isPosixShellName a && rest.any argIsShellCFlag) || argsNameNestedShell rest

def argvInvokesNestedShell (cmd : Str) (args : List Str) : Bool :=
  isShellDashCInvocation cmd args || argsNameNestedShell args

structure ShellWrap where
  shell : Str
  reason : Str
  script : Str
  deriving DecidableEq

def ShellExpansion.label : ShellExpansion → Str
  | .braces => "$\x7b...\x7d".toList
  | .variable => "$VAR".toList
  | .tilde => "~".toList
  | .glob => "glob".toList

def wrapReason (cmd : Str) (args : List Str) : Str :=
  match ((cmd :: args).filterMap fun t => detectShellExpansionToken (trim t)).head? with
  | some expansion => expansion.label
  | none =>
    if (cmd :: args).any tokenIsShellOperator then "shell operator".toList else "shell".toList

/-- The command and arguments that are spawned, with the wrap if there is one. -/
def maybeWrapArgvWithPosixShell (cmd : Str) (args allowed : List Str) :
    Option ShellWrap × Str × List Str :=
  if argvInvokesNestedShell cmd args then (none, cmd, args)
  else
    match posixShellOnAllowlist allowed with
    | none => (none, cmd, args)
    | some shell =>
      if argvNeedsPosixShellWrap cmd args then
        let script := joinRunCommandShellScript cmd args
        (some ⟨shell, wrapReason cmd args, script⟩, shell, ["-c".toList, script])
      else (none, cmd, args)

end Wrap
end CrabMate
