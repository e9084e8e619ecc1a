import CrabMate.Lib.Str

/-! Token recognition of the POSIX shell grammar, before any expansion, one character at a time.
Quotes, `${…}` and backslashes keep a word together; the word's text is kept as written. An active
`$(` or backquote is not read further: the script then has a substitution. -/
namespace ShellLex
open RustStr List

inductive Token where
  | word (text : Str)
  | operator (text : Str)
  deriving DecidableEq

inductive LexError where
  | incomplete
  | substitution
  deriving DecidableEq

/-- What is open inside a word: `'…'`, `"…"` or `${…}`. -/
inductive Frame where
  | single
  | double
  | brace
  deriving DecidableEq

/-- `dollar`: the last character is a `$` that may begin an expansion. `digits`: so far the word
could be the descriptor of a redirection. -/
structure Word where
  text : Str
  frames : List Frame
  dollar : Bool
  digits : Bool
  deriving DecidableEq

inductive Mode where
  | gap
  | comment
  | operator (descriptor text : Str)
  | word (w : Word)
  deriving DecidableEq

/-- `held`: a backslash waits for its character. -/
structure Lexer where
  tokens : List Token
  mode : Mode
  held : Bool
  deriving DecidableEq

def operators : List Str :=
  ["&&", "||", ";;", "<<", ">>", "<&", ">&", "<>", "<<-", ">|", "|", "&", ";", "<", ">", "(",
    ")"].map String.toList

def isOperatorStart (c : Char) : Bool := "&|;<>()".toList.contains c

def isBlank (c : Char) : Bool := c = ' ' || c = '\t'

def isMeta (c : Char) : Bool := isBlank c || c = '\n' || isOperatorStart c

/-- The frames after an unquoted character. -/
def nextFrames (frames : List Frame) (c : Char) : List Frame :=
  if frames.head? = some .double then if c = '"' then frames.tail else frames
  else if c = '\'' then .single :: frames
  else if c = '"' then .double :: frames
  else if frames.head? = some .brace ∧ c = '}' then frames.tail
  else frames

namespace Word

def empty : Word := ⟨[], [], false, true⟩

def push (w : Word) (c : Char) (frames : List Frame) (dollar : Bool) : Word :=
  ⟨w.text ++ [c], frames, dollar, w.digits && c.isDigit⟩

def inSingle (w : Word) : Bool := w.frames.head? = some .single

/-- The word after a character that belongs to it. -/
def read (w : Word) (c : Char) : Except LexError Word :=
  if w.inSingle then .ok (w.push c (if c = '\'' then w.frames.tail else w.frames) false)
  else if c = '`' ∨ (c = '(' ∧ w.dollar) then .error .substitution
  else if c = '{' ∧ w.dollar then .ok (w.push c (.brace :: w.frames) false)
  else if c = '$' then .ok (w.push c w.frames !w.dollar)
  else .ok (w.push c (nextFrames w.frames c) false)

/-- An unquoted blank or operator character ends the word. -/
def endsAt (w : Word) (c : Char) : Bool :=
  w.frames.isEmpty && isMeta c && !(c = '(' && w.dollar)

end Word

namespace Lexer

def start : Lexer := ⟨[], .gap, false⟩

def readGap (tokens : List Token) (c : Char) : Except LexError Lexer :=
  if isBlank c then .ok ⟨tokens, .gap, false⟩
  else if c = '\n' then .ok ⟨tokens ++ [.operator [c]], .gap, false⟩
  else if c = '#' then .ok ⟨tokens, .comment, false⟩
  else if isOperatorStart c then .ok ⟨tokens, .operator [] [c], false⟩
  else (Word.empty.read c).map fun w => ⟨tokens, .word w, false⟩

def readWord (tokens : List Token) (w : Word) (c : Char) : Except LexError Lexer :=
  if w.endsAt c then
    if w.digits ∧ (c = '<' ∨ c = '>') then .ok ⟨tokens, .operator w.text [c], false⟩
    else readGap (tokens ++ [.word w.text]) c
  else (w.read c).map fun w => ⟨tokens, .word w, false⟩

def read (s : Lexer) (c : Char) : Except LexError Lexer :=
  match s.mode with
  | .gap => readGap s.tokens c
  | .comment =>
    if c = '\n' then .ok ⟨s.tokens ++ [.operator [c]], .gap, false⟩ else .ok s
  | .operator descriptor text =>
    if text ++ [c] ∈ operators then .ok ⟨s.tokens, .operator descriptor (text ++ [c]), false⟩
    else readGap (s.tokens ++ [.operator (descriptor ++ text)]) c
  | .word w => readWord s.tokens w c

/-- A backslash quotes here. -/
def escapes (s : Lexer) : Bool :=
  match s.mode with
  | .comment => false
  | .word w => !w.inSingle
  | _ => true

/-- The backslash and the character it quotes. -/
def escape (s : Lexer) (c : Char) : Lexer :=
  match s.mode with
  | .gap | .comment => ⟨s.tokens, .word ⟨['\\', c], [], false, false⟩, false⟩
  | .operator descriptor text =>
    ⟨s.tokens ++ [.operator (descriptor ++ text)], .word ⟨['\\', c], [], false, false⟩, false⟩
  | .word w => ⟨s.tokens, .word ⟨w.text ++ ['\\', c], w.frames, false, false⟩, false⟩

/-- A backslash and a newline vanish. -/
def continueLine (s : Lexer) : Lexer :=
  match s.mode with
  | .word w => ⟨s.tokens, .word { w with text := w.text ++ ['\\', '\n'] }, false⟩
  | _ => { s with held := false }

def step (s : Lexer) (c : Char) : Except LexError Lexer :=
  if s.held then .ok (if c = '\n' then s.continueLine else s.escape c)
  else if c = '\\' ∧ s.escapes then .ok { s with held := true }
  else s.read c

def run (s : Lexer) : Str → Except LexError Lexer
  | [] => .ok s
  | c :: cs => (s.step c).bind fun s => s.run cs

def finish (s : Lexer) : Except LexError (List Token) :=
  if s.held then .error .incomplete
  else
    match s.mode with
    | .gap | .comment => .ok s.tokens
    | .operator descriptor text => .ok (s.tokens ++ [.operator (descriptor ++ text)])
    | .word w =>
      if w.frames.isEmpty then .ok (s.tokens ++ [.word w.text]) else .error .incomplete

/-- The tokens of a text read from `s` to its end. -/
def tokenise (s : Lexer) (text : Str) : Except LexError (List Token) := (s.run text).bind finish

theorem run_append (s : Lexer) (a b : Str) : s.run (a ++ b) = (s.run a).bind fun s => s.run b := by
  induction a generalizing s with
  | nil => rfl
  | cons c a ih =>
    show ((s.step c).bind fun s => s.run (a ++ b)) =
      ((s.step c).bind fun s => s.run a).bind fun s => s.run b
    cases s.step c with
    | error e => rfl
    | ok s' => exact ih s'

theorem tokenise_append {s s' : Lexer} {a : Str} (h : s.run a = .ok s') (b : Str) :
    s.tokenise (a ++ b) = s'.tokenise b := by
  rw [tokenise, run_append, h]
  rfl

theorem run_ok_of_append {s s' : Lexer} {a b : Str} (h : s.run (a ++ b) = .ok s') :
    ∃ mid, s.run a = .ok mid ∧ mid.run b = .ok s' := by
  rw [run_append] at h
  cases hmid : s.run a with
  | error e =>
    rw [hmid] at h
    cases h
  | ok mid =>
    rw [hmid] at h
    exact ⟨mid, rfl, h⟩

theorem run_cons_ok {s s' : Lexer} {c : Char} {text : Str} (h : s.run (c :: text) = .ok s') :
    ∃ mid, s.step c = .ok mid ∧ mid.run text = .ok s' := by
  rw [run] at h
  cases hmid : s.step c with
  | error e =>
    rw [hmid] at h
    cases h
  | ok mid =>
    rw [hmid] at h
    exact ⟨mid, rfl, h⟩

section Prepend

/-- The same lexer after earlier tokens. -/
def after (tokens : List Token) (s : Lexer) : Lexer := { s with tokens := tokens ++ s.tokens }

theorem readGap_append (tokens more : List Token) (c : Char) :
    readGap (tokens ++ more) c = (readGap more c).map (after tokens) := by
  unfold readGap
  repeat' split
  · rfl
  · simp [Except.map, after]
  · rfl
  · rfl
  · cases Word.empty.read c <;> rfl

theorem read_after (tokens : List Token) (s : Lexer) (c : Char) :
    (s.after tokens).read c = (s.read c).map (after tokens) := by
  obtain ⟨toks, mode, held⟩ := s
  cases mode with
  | gap => exact readGap_append tokens toks c
  | comment =>
    show (if c = '\n' then _ else _) = Except.map _ (if c = '\n' then _ else _)
    split
    · simp [Except.map, after]
    · rfl
  | operator descriptor text =>
    show (if text ++ [c] ∈ operators then _ else _) =
      Except.map _ (if text ++ [c] ∈ operators then _ else _)
    split
    · rfl
    · rw [← readGap_append, ← append_assoc]
      rfl
  | word w =>
    show readWord (tokens ++ toks) w c = (readWord toks w c).map (after tokens)
    unfold readWord
    split
    · split
      · rfl
      · rw [← readGap_append, ← append_assoc]
    · cases w.read c <;> rfl

theorem step_after (tokens : List Token) (s : Lexer) (c : Char) :
    (s.after tokens).step c = (s.step c).map (after tokens) := by
  have hescapes : (s.after tokens).escapes = s.escapes := rfl
  unfold step
  rw [hescapes]
  show (if s.held then _ else _) = _
  split
  · obtain ⟨toks, mode, held⟩ := s
    cases mode with
    | gap | comment | word => split <;> rfl
    | operator =>
      split
      · rfl
      · simp [escape, after, Except.map]
  · split
    · rfl
    · exact read_after tokens s c

theorem run_after (tokens : List Token) (s : Lexer) (text : Str) :
    (s.after tokens).run text = (s.run text).map (after tokens) := by
  induction text generalizing s with
  | nil => rfl
  | cons c text ih =>
    show (((s.after tokens).step c).bind fun s => s.run text) =
      ((s.step c).bind fun s => s.run text).map (after tokens)
    rw [step_after]
    cases s.step c with
    | error e => rfl
    | ok s' => exact ih s'

theorem tokens_of_step {s s' : Lexer} {c : Char} (h : s.step c = .ok s') :
    s.tokens <+: s'.tokens := by
  have hs : s = Lexer.after s.tokens { s with tokens := [] } := by simp [after]
  rw [hs, step_after] at h
  cases hstep : Lexer.step { s with tokens := [] } c with
  | error e =>
    rw [hstep] at h
    cases h
  | ok mid =>
    rw [hstep] at h
    cases h
    exact prefix_append _ _

end Prepend
section FirstToken

variable {tokens : List Token} {e : Str} {s s' : Lexer} {c : Char}

/-- The token after `tokens` cannot become the word `e` any more. -/
inductive Off (tokens : List Token) (e : Str) (s : Lexer) : Prop
  | emitted (tok : Token) (more : List Token) (h : s.tokens = tokens ++ tok :: more)
      (hne : tok ≠ .word e)
  | comment (h : s.tokens = tokens) (hmode : s.mode = .comment) (hheld : s.held = false)
  | operator (h : s.tokens = tokens) (descriptor text : Str)
      (hmode : s.mode = .operator descriptor text)
  | word (h : s.tokens = tokens) (w : Word) (hmode : s.mode = .word w) (hne : ¬w.text <+: e)

theorem Off.of_begins {tok : Token} (h : tokens ++ [tok] <+: s.tokens) (hne : tok ≠ .word e) :
    Off tokens e s := by
  obtain ⟨more, hmore⟩ := h
  exact .emitted tok more (by rw [← hmore, append_assoc]; rfl) hne

theorem tokens_of_readGap {toks : List Token} (h : readGap toks c = .ok s') :
    toks <+: s'.tokens := by
  rw [← append_nil toks, readGap_append] at h
  cases hr : readGap [] c with
  | error err =>
    rw [hr] at h
    cases h
  | ok mid =>
    rw [hr] at h
    cases h
    exact ⟨_, rfl⟩

theorem read_text {w w' : Word} (h : w.read c = .ok w') : w'.text = w.text ++ [c] := by
  unfold Word.read at h
  repeat' split at h
  all_goals first | (cases h; rfl) | cases h

theorem not_prefix_append {t e u : Str} (h : ¬t <+: e) : ¬t ++ u <+: e :=
  fun hp => h ((prefix_append t u).trans hp)

theorem Off.readWord {w : Word} (hne : ¬w.text <+: e) (h : readWord tokens w c = .ok s') :
    Off tokens e s' := by
  unfold Lexer.readWord at h
  split at h
  · split at h
    · cases h
      exact .operator rfl _ _ rfl
    · refine .of_begins (tokens_of_readGap h) ?_
      rintro ⟨rfl⟩
      exact hne prefix_rfl
  · cases hr : w.read c with
    | error err =>
      rw [hr] at h
      cases h
    | ok w' =>
      rw [hr] at h
      cases h
      refine .word rfl w' rfl ?_
      rw [read_text hr]
      exact not_prefix_append hne

theorem Off.step (hoff : Off tokens e s) (h : s.step c = .ok s') : Off tokens e s' := by
  cases hoff with
  | emitted tok more htok hne =>
    have hpre := tokens_of_step h
    rw [htok] at hpre
    have hfirst : tokens ++ [tok] <+: tokens ++ tok :: more := ⟨more, by simp⟩
    exact .of_begins (hfirst.trans hpre) hne
  | comment htok hmode hheld =>
    obtain ⟨toks, mode, held⟩ := s
    cases hmode
    cases hheld
    cases htok
    simp only [Lexer.step, escapes, read, Bool.false_eq_true, if_false, and_false] at h
    split at h
    · cases h
      exact .emitted (.operator [c]) [] rfl (by simp)
    · cases h
      exact .comment rfl rfl rfl
  | operator htok descriptor text hmode =>
    obtain ⟨toks, mode, held⟩ := s
    cases hmode
    cases htok
    unfold Lexer.step at h
    split at h
    · cases h
      split
      · exact .operator rfl _ _ rfl
      · exact .emitted (.operator (descriptor ++ text)) [] rfl (by simp)
    · split at h
      · cases h
        exact .operator rfl _ _ rfl
      · simp only [read] at h
        split at h
        · cases h
          exact .operator rfl _ _ rfl
        · exact .of_begins (tokens_of_readGap h) (by simp)
  | word htok w hmode hne =>
    obtain ⟨toks, mode, held⟩ := s
    cases hmode
    cases htok
    unfold Lexer.step at h
    split at h
    · cases h
      split
      · exact .word rfl _ rfl (not_prefix_append hne)
      · exact .word rfl _ rfl (not_prefix_append hne)
    · split at h
      · cases h
        exact .word rfl w rfl hne
      · exact .readWord hne h

theorem Off.run {text : Str} (hoff : Off tokens e s) (h : s.run text = .ok s') :
    Off tokens e s' := by
  induction text generalizing s with
  | nil =>
    cases h
    exact hoff
  | cons c text ih =>
    obtain ⟨mid, hmid, hrest⟩ := run_cons_ok h
    exact ih (hoff.step hmid) hrest

theorem tokens_of_finish {toks : List Token} (h : s.finish = .ok toks) : s.tokens <+: toks := by
  unfold Lexer.finish at h
  repeat' split at h
  all_goals first | (cases h; exact prefix_append _ _) | (cases h; exact prefix_rfl) | cases h

theorem Off.finish {toks more : List Token} (hoff : Off tokens e s) (h : s.finish = .ok toks) :
    toks ≠ tokens ++ .word e :: more := by
  rintro rfl
  have hpre := tokens_of_finish h
  obtain ⟨stoks, mode, held⟩ := s
  have hheld : held = false := by
    cases held with
    | false => rfl
    | true => cases h
  subst hheld
  cases hoff with
  | emitted tok rest htok hne =>
    rw [htok, prefix_append_right_inj, cons_prefix_cons] at hpre
    exact hne hpre.1
  | comment htok hmode hheld =>
    cases htok
    cases hmode
    simp [Lexer.finish] at h
  | operator htok descriptor text hmode =>
    cases htok
    cases hmode
    simp [Lexer.finish] at h
  | word htok w hmode hne =>
    cases htok
    cases hmode
    simp only [Lexer.finish, Bool.false_eq_true, if_false] at h
    split at h
    · simp only [Except.ok.injEq, append_cancel_left_eq, List.cons.injEq,
        Token.word.injEq] at h
      exact hne (h.1 ▸ prefix_rfl)
    · cases h

end FirstToken

section Reading

variable {tokens : List Token} {e p : Str} {s s' : Lexer} {c : Char}

/-- The text `p` was read as the beginning of a word. -/
inductive Reading (tokens : List Token) : Str → Lexer → Prop
  | word (w : Word) : Reading tokens w.text ⟨tokens, .word w, false⟩
  | held (w : Word) : Reading tokens (w.text ++ ['\\']) ⟨tokens, .word w, true⟩
  | first : Reading tokens ['\\'] ⟨tokens, .gap, true⟩

/-- One more character of `e` extends the word, or the word `e` is lost. -/
theorem Reading.step (hr : Reading tokens p s) (he : p ++ [c] <+: e)
    (hline : ¬['\\', '\n'] <+: e) (h : s.step c = .ok s') :
    Reading tokens (p ++ [c]) s' ∨ Off tokens e s' := by
  cases hr with
  | word w =>
    unfold Lexer.step at h
    simp only [Bool.false_eq_true, if_false] at h
    split at h
    · next hc =>
      cases h
      rw [hc.1]
      exact .inl (.held w)
    · simp only [read, readWord] at h
      split at h
      · split at h
        · cases h
          exact .inr (.operator rfl _ _ rfl)
        · refine .inr (.of_begins (tokens_of_readGap h) ?_)
          rintro ⟨rfl⟩
          have hlen := he.length_le
          rw [length_append, length_singleton] at hlen
          omega
      · cases hw : w.read c with
        | error err =>
          rw [hw] at h
          cases h
        | ok w' =>
          rw [hw] at h
          cases h
          rw [← read_text hw]
          exact .inl (.word w')
  | held w =>
    unfold Lexer.step at h
    simp only [if_true] at h
    cases h
    left
    rw [append_assoc]
    split
    · next hc =>
      subst hc
      exact .word { w with text := w.text ++ ['\\', '\n'] }
    · exact .word ⟨w.text ++ ['\\', c], w.frames, false, false⟩
  | first =>
    have hc : c ≠ '\n' := by
      rintro rfl
      exact hline he
    unfold Lexer.step at h
    simp only [if_true, hc, if_false] at h
    cases h
    exact .inl (.word ⟨['\\', c], [], false, false⟩)

/-- The text begins neither with a gap nor with a continued line. -/
def Begins (e : Str) : Prop :=
  ∃ c rest, e = c :: rest ∧ isBlank c = false ∧ c ≠ '\n' ∧ ¬['\\', '\n'] <+: e

theorem Reading.first_char (hblank : isBlank c = false) (hnewline : c ≠ '\n')
    (h : (⟨tokens, .gap, false⟩ : Lexer).step c = .ok s') :
    Reading tokens [c] s' ∨ Off tokens e s' := by
  unfold Lexer.step at h
  simp only [Bool.false_eq_true, if_false] at h
  split at h
  · next hc =>
    cases h
    rw [hc.1]
    exact .inl .first
  · simp only [read, readGap, hblank, hnewline, Bool.false_eq_true, if_false] at h
    split at h
    · cases h
      exact .inr (.comment rfl rfl rfl)
    · split at h
      · cases h
        exact .inr (.operator rfl _ _ rfl)
      · cases hw : Word.empty.read c with
        | error err =>
          rw [hw] at h
          cases h
        | ok w =>
          rw [hw] at h
          cases h
          have htext : w.text = [c] := read_text hw
          rw [← htext]
          exact .inl (.word w)

theorem Reading.run {q : Str} (hr : Reading tokens p s) (he : p ++ q <+: e)
    (hline : ¬['\\', '\n'] <+: e) (h : s.run q = .ok s') :
    Reading tokens (p ++ q) s' ∨ Off tokens e s' := by
  induction q generalizing p s with
  | nil =>
    cases h
    rw [append_nil]
    exact .inl hr
  | cons c q ih =>
    obtain ⟨mid, hmid, hrest⟩ := run_cons_ok h
    have hassoc : p ++ c :: q = p ++ [c] ++ q := by simp
    rw [hassoc] at he ⊢
    rcases hr.step ((prefix_append _ _).trans he) hline hmid with hr' | hoff
    · exact ih hr' he hrest
    · exact .inr (hoff.run hrest)

theorem Begins.run (hb : Begins e) (h : (⟨tokens, .gap, false⟩ : Lexer).run e = .ok s') :
    Reading tokens e s' ∨ Off tokens e s' := by
  obtain ⟨c, rest, rfl, hblank, hnewline, hline⟩ := hb
  obtain ⟨mid, hmid, hrest⟩ := run_cons_ok h
  rcases Reading.first_char hblank hnewline hmid with hr | hoff
  · exact hr.run prefix_rfl hline hrest
  · exact .inr (hoff.run hrest)

theorem Reading.space (hr : Reading tokens e s) (hopen : ∀ w, s = ⟨tokens, .word w, false⟩ →
    w.frames ≠ []) (h : s.step ' ' = .ok s') : Off tokens e s' := by
  have hlong : ∀ t : Str, t = e ++ [' '] → ¬t <+: e := by
    rintro t rfl hp
    have hlen := hp.length_le
    rw [length_append, length_singleton] at hlen
    omega
  cases hr with
  | word w =>
    have hframes : w.frames.isEmpty = false := by simpa using hopen w rfl
    have hstep : (⟨tokens, .word w, false⟩ : Lexer).step ' ' =
        (w.read ' ').map fun w => ⟨tokens, .word w, false⟩ := by
      simp [Lexer.step, read, readWord, Word.endsAt, hframes]
    rw [hstep] at h
    cases hw : w.read ' ' with
    | error err =>
      rw [hw] at h
      cases h
    | ok w' =>
      rw [hw] at h
      cases h
      exact .word rfl w' rfl (hlong _ (read_text hw))
  | held w =>
    cases h
    exact .word rfl _ rfl (hlong _ (append_assoc w.text ['\\'] [' ']).symm)
  | first =>
    cases h
    exact .word rfl _ rfl (hlong _ rfl)

/-- If the first token of a text is the word `e`, then `e` on its own is a closed word. -/
theorem word_of_tokenise {rest : Str} {more : List Token} (hb : Begins e)
    (hrest : rest = [] ∨ ∃ r, rest = ' ' :: r)
    (h : (⟨tokens, .gap, false⟩ : Lexer).tokenise (e ++ rest) =
      .ok (tokens ++ .word e :: more)) :
    ∃ w, (⟨tokens, .gap, false⟩ : Lexer).run e = .ok ⟨tokens, .word w, false⟩ ∧ w.text = e ∧
      w.frames = [] := by
  unfold tokenise at h
  cases hfinal : (⟨tokens, .gap, false⟩ : Lexer).run (e ++ rest) with
  | error err =>
    rw [hfinal] at h
    cases h
  | ok final =>
    rw [hfinal] at h
    obtain ⟨mid, hmid, hlast⟩ := run_ok_of_append hfinal
    have hon : ¬Off tokens e mid := fun hoff => (hoff.run hlast).finish h rfl
    have hreading := (hb.run hmid).resolve_right hon
    by_contra hno
    have hopen : ∀ w, mid = ⟨tokens, .word w, false⟩ → w.frames ≠ [] := by
      rintro w rfl hframes
      have htext : w.text = e := by
        cases hreading
        rfl
      exact hno ⟨w, hmid, htext, hframes⟩
    rcases hrest with rfl | ⟨r, rfl⟩
    · cases hlast
      cases hreading with
      | word w =>
        have hframes : w.frames.isEmpty = false := by simpa using hopen w rfl
        simp [Except.bind, Lexer.finish, hframes] at h
      | held w => cases h
      | first => cases h
    · obtain ⟨next, hnext, hlast⟩ := run_cons_ok hlast
      exact ((hreading.space hopen hnext).run hlast).finish h rfl

end Reading

section Closed

/-- Read as the rest of a word in which `frames` are open, the text ends outside of them, with no
unquoted blank or operator and no substitution. -/
def closes (frames : List Frame) (dollar : Bool) : Str → Bool
  | [] => frames.isEmpty
  | c :: rest =>
    if frames.head? = some .single then closes (if c = '\'' then frames.tail else frames) false rest
    else if c = '\\' then
      match rest with
      | [] => false
      | quoted :: rest => closes frames (dollar && quoted = '\n') rest
    else if frames.isEmpty && isMeta c then false
    else if c = '`' ∨ (c = '(' ∧ dollar) then false
    else if c = '{' ∧ dollar then closes (.brace :: frames) false rest
    else if c = '$' then closes frames (!dollar) rest
    else closes (nextFrames frames c) false rest

/-- The lexer is at the end of the word `e`, and nothing of the word is open. -/
def AtEnd (e : Str) (s : Lexer) : Prop :=
  ∃ w, s = ⟨[], .word w, false⟩ ∧ w.text = e ∧ w.frames = []

theorem Off.not_atEnd {e : Str} {s : Lexer} (hoff : Off [] e s) : ¬AtEnd e s := by
  rintro ⟨w, rfl, htext, -⟩
  cases hoff with
  | emitted tok more h => cases h
  | comment h hmode => cases hmode
  | operator h descriptor text hmode => cases hmode
  | word h w' hmode hne =>
    cases hmode
    exact hne (htext ▸ prefix_rfl)

theorem readWord_off {w : Word} {c : Char} {rest : Str} {s : Lexer} (hends : w.endsAt c = true)
    (h : readWord [] w c = .ok s) : Off [] (w.text ++ c :: rest) s := by
  unfold readWord at h
  rw [if_pos hends] at h
  split at h
  · cases h
    exact .operator rfl _ _ rfl
  · refine .of_begins (tokens_of_readGap h) ?_
    intro heq
    have hlen := congrArg List.length (Token.word.inj heq)
    rw [length_append, length_cons] at hlen
    omega

theorem run_cons_of_ok {s s' : Lexer} {c : Char} (h : s.step c = .ok s') (q : Str) :
    s.run (c :: q) = s'.run q := by
  rw [run, h]
  rfl

theorem run_cons_of_error {s : Lexer} {c : Char} {err : LexError} (h : s.step c = .error err)
    (q : Str) : s.run (c :: q) = .error err := by
  rw [run, h]
  rfl

/-- Inside a word, a character that neither quotes nor ends it is read by the word. -/
theorem step_word {w : Word} {c : Char} (hquote : c = '\\' → w.inSingle = true)
    (hends : w.endsAt c = false) : (⟨[], .word w, false⟩ : Lexer).step c =
      (w.read c).map fun w => ⟨[], .word w, false⟩ := by
  have hstep : ¬(c = '\\' ∧ (⟨[], .word w, false⟩ : Lexer).escapes = true) := by
    rintro ⟨hc, hesc⟩
    simp [escapes, hquote hc] at hesc
  simp only [step, Bool.false_eq_true, if_false, if_neg hstep, read, readWord, hends]

theorem step_word_quoted (w : Word) (c : Char) (q : Str) (hsingle : w.inSingle = false) :
    ∃ w', (⟨[], .word w, false⟩ : Lexer).run ('\\' :: c :: q) =
        (⟨[], .word w', false⟩ : Lexer).run q ∧
      w'.text = w.text ++ ['\\', c] ∧ w'.frames = w.frames ∧
      w'.dollar = (w.dollar && decide (c = '\n')) := by
  have hheld : (⟨[], .word w, false⟩ : Lexer).step '\\' = .ok ⟨[], .word w, true⟩ := by
    simp [step, escapes, hsingle]
  rw [run_cons_of_ok hheld]
  by_cases hc : c = '\n'
  · refine ⟨{ w with text := w.text ++ ['\\', '\n'] }, ?_, by rw [hc], rfl, by simp [hc]⟩
    exact run_cons_of_ok (by simp [step, continueLine, hc]) q
  · refine ⟨⟨w.text ++ ['\\', c], w.frames, false, false⟩, ?_, rfl, rfl, by simp [hc]⟩
    exact run_cons_of_ok (by simp [step, escape, hc]) q

/-- At an unquoted operator character or blank the word ends, or a substitution begins. -/
theorem not_atEnd_of_meta {w : Word} {c : Char} {q : Str} {s : Lexer} (hquote : c ≠ '\\')
    (hin : w.inSingle = false) (hmeta : (w.frames.isEmpty && isMeta c) = true)
    (hs : (⟨[], .word w, false⟩ : Lexer).run (c :: q) = .ok s) : ¬ AtEnd (w.text ++ c :: q) s := by
  cases hends : w.endsAt c with
  | true =>
    obtain ⟨mid, hmid, hrest⟩ := run_cons_ok hs
    have hread : readWord [] w c = .ok mid := by simpa [step, hquote, read] using hmid
    exact ((readWord_off hends hread).run hrest).not_atEnd
  | false =>
    have hsub : c = '(' ∧ w.dollar = true := by simpa [Word.endsAt, hmeta] using hends
    have herr : (⟨[], .word w, false⟩ : Lexer).step c = .error .substitution := by
      rw [step_word (fun hc => absurd hc hquote) hends, Word.read, if_neg (by simp [hin]),
        if_pos (.inr hsub)]
      rfl
    rw [run_cons_of_error herr] at hs
    cases hs

/-- The text behind the word `w` ends the word, and nothing of it is open there. -/
def ReadsOut (w : Word) (q : Str) : Prop :=
  ∃ s, (⟨[], .word w, false⟩ : Lexer).run q = .ok s ∧ AtEnd (w.text ++ q) s

theorem ReadsOut.extend_iff {w w' : Word} {c : Char}
    (hstep : (⟨[], .word w, false⟩ : Lexer).step c = .ok ⟨[], .word w', false⟩)
    (htext : w'.text = w.text ++ [c]) (rest : Str) :
    ReadsOut w (c :: rest) ↔ ReadsOut w' rest := by
  rw [ReadsOut, ReadsOut, run_cons_of_ok hstep, htext, append_assoc]
  rfl

/-- In single quotes the word goes on, up to the quote that closes. -/
theorem readsOut_single {w : Word} (hsingle : w.frames.head? = some .single) {c : Char} {rest : Str}
    (ih : ∀ w' : Word, ReadsOut w' rest ↔ closes w'.frames w'.dollar rest = true) :
    ReadsOut w (c :: rest) ↔ closes w.frames w.dollar (c :: rest) = true := by
  have hin : w.inSingle = true := by simp [Word.inSingle, hsingle]
  have hends : w.endsAt c = false := by
    cases hf : w.frames with
    | nil => simp [hf] at hsingle
    | cons f fs => simp [Word.endsAt, hf]
  have hstep : (⟨[], .word w, false⟩ : Lexer).step c = .ok ⟨[], .word
      (w.push c (if c = '\'' then w.frames.tail else w.frames) false), false⟩ := by
    rw [step_word (fun _ => hin) hends, Word.read, if_pos hin]
    rfl
  have hcloses : closes w.frames w.dollar (c :: rest) =
      closes (if c = '\'' then w.frames.tail else w.frames) false rest := by
    rw [closes.eq_def]
    exact if_pos hsingle
  rw [ReadsOut.extend_iff hstep rfl, ih, hcloses]
  rfl

theorem readsOut_quote {w : Word} (hin : w.inSingle = false) {rest : Str}
    (ih : ∀ (c : Char) (q : Str), rest = c :: q → ∀ w' : Word,
      ReadsOut w' q ↔ closes w'.frames w'.dollar q = true) :
    ReadsOut w ('\\' :: rest) ↔ closes w.frames w.dollar ('\\' :: rest) = true := by
  have hsingle : w.frames.head? ≠ some .single := by simpa [Word.inSingle] using hin
  rw [closes.eq_def]
  dsimp only
  rw [if_neg hsingle, if_pos rfl]
  cases rest with
  | nil =>
    simp only [Bool.false_eq_true, iff_false]
    rintro ⟨s, hs, w', rfl, -⟩
    simp [run, step, escapes, hin, Except.bind] at hs
  | cons quoted rest =>
    obtain ⟨w', hrun, htext, hframes, hdollar⟩ := step_word_quoted w quoted rest hin
    have hih := ih quoted rest rfl w'
    rw [hframes, hdollar] at hih
    rw [← hih, ReadsOut, ReadsOut, hrun, htext, append_assoc]
    rfl

/-- Any other character ends the word, begins a substitution or is read by the word. -/
theorem readsOut_read {w : Word} (hin : w.inSingle = false) {c : Char} (hquote : c ≠ '\\')
    {rest : Str} (ih : ∀ w' : Word, ReadsOut w' rest ↔ closes w'.frames w'.dollar rest = true) :
    ReadsOut w (c :: rest) ↔ closes w.frames w.dollar (c :: rest) = true := by
  have hsingle : w.frames.head? ≠ some .single := by simpa [Word.inSingle] using hin
  rw [closes.eq_def]
  dsimp only
  rw [if_neg hsingle, if_neg hquote]
  by_cases hmeta : (w.frames.isEmpty && isMeta c) = true
  · rw [if_pos hmeta]
    simp only [Bool.false_eq_true, iff_false]
    rintro ⟨s, hs, hend⟩
    exact not_atEnd_of_meta hquote hin hmeta hs hend
  rw [if_neg hmeta]
  have hends : w.endsAt c = false := by
    unfold Word.endsAt
    rw [Bool.not_eq_true] at hmeta
    rw [hmeta, Bool.false_and]
  have hstep := step_word (fun hc => absurd hc hquote) hends
  rw [Word.read, if_neg (by simp [hin])] at hstep
  split
  next hsub =>
    rw [if_pos hsub] at hstep
    simp only [Bool.false_eq_true, iff_false]
    rintro ⟨s, hs, -⟩
    rw [run_cons_of_error hstep] at hs
    cases hs
  next hsub =>
    rw [if_neg hsub] at hstep
    split
    next hbrace =>
      rw [if_pos hbrace] at hstep
      exact (ReadsOut.extend_iff hstep rfl rest).trans (ih _)
    next hbrace =>
      rw [if_neg hbrace] at hstep
      split
      next hdollar =>
        rw [if_pos hdollar] at hstep
        exact (ReadsOut.extend_iff hstep rfl rest).trans (ih _)
      next hdollar =>
        rw [if_neg hdollar] at hstep
        exact (ReadsOut.extend_iff hstep rfl rest).trans (ih _)

theorem closes_iff (w : Word) (q : Str) : ReadsOut w q ↔ closes w.frames w.dollar q = true := by
  induction hn : q.length using Nat.strong_induction_on generalizing w q with
  | _ n ih =>
    subst hn
    cases q with
    | nil =>
      rw [closes, List.isEmpty_iff]
      constructor
      · rintro ⟨s, hs, w', rfl, -, hframes⟩
        cases hs
        exact hframes
      · intro hframes
        exact ⟨_, rfl, w, rfl, (append_nil _).symm, hframes⟩
    | cons c rest =>
      have hrest := fun w' => ih rest.length (by simp) w' rest rfl
      by_cases hsingle : w.frames.head? = some .single
      · exact readsOut_single hsingle hrest
      have hin : w.inSingle = false := by simp [Word.inSingle, hsingle]
      by_cases hquote : c = '\\'
      · subst hquote
        refine readsOut_quote hin fun quoted q hq w' => ih q.length ?_ w' q rfl
        rw [hq]
        simp only [length_cons]
        omega
      · exact readsOut_read hin hquote hrest

/-- The text is exactly one word. -/
def ClosedWord (e : Str) : Prop := ∃ s, start.run e = .ok s ∧ AtEnd e s

theorem closedWord_iff {e : Str} (hb : Begins e) :
    ClosedWord e ↔ e.head? ≠ some '#' ∧ closes [] false e = true := by
  obtain ⟨c, rest, rfl, hblank, hnewline, hline⟩ := hb
  have hempty := closes_iff Word.empty (c :: rest)
  by_cases hquote : c = '\\'
  · subst hquote
    cases rest with
    | nil =>
      simp only [closes, head?_nil, reduceCtorEq, if_false, if_true, Bool.false_eq_true,
        and_false, iff_false]
      rintro ⟨s, hs, w, rfl, -⟩
      simp [run, step, start, escapes, Except.bind] at hs
    | cons quoted rest =>
      have hne : quoted ≠ '\n' := by
        rintro rfl
        exact hline ⟨rest, rfl⟩
      have hrun : start.run ('\\' :: quoted :: rest) =
          (⟨[], .word Word.empty, false⟩ : Lexer).run ('\\' :: quoted :: rest) := by
        simp [run, step, start, escapes, escape, Word.empty, Word.inSingle, Except.bind, hne]
      unfold ClosedWord
      rw [hrun]
      exact hempty.trans (by simp [Word.empty])
  · by_cases hop : isOperatorStart c = true
    · have hcl : closes [] false (c :: rest) = false := by
        rw [closes.eq_def]
        simp [hquote, isMeta, hop]
      simp only [hcl, Bool.false_eq_true, and_false, iff_false]
      rintro ⟨s, hs, hend⟩
      obtain ⟨mid, hmid, hrest⟩ := run_cons_ok hs
      have hhash : c ≠ '#' := by
        rintro rfl
        exact absurd hop (by decide)
      have hoff : Off [] (c :: rest) mid := by
        simp only [step, start, Bool.false_eq_true, if_false, hquote, false_and, read, readGap,
          hblank, hnewline, hhash, hop, if_true] at hmid
        cases hmid
        exact .operator rfl _ _ rfl
      exact (hoff.run hrest).not_atEnd hend
    · by_cases hhash : c = '#'
      · simp only [hhash, head?_cons, ne_eq, not_true_eq_false, false_and, iff_false]
        rintro ⟨s, hs, hend⟩
        obtain ⟨mid, hmid, hrest⟩ := run_cons_ok hs
        cases hmid
        have hoff : Off [] ('#' :: rest) ⟨[], .comment, false⟩ := .comment rfl rfl rfl
        exact (hoff.run hrest).not_atEnd hend
      · have hends : Word.empty.endsAt c = false := by
          rw [Bool.not_eq_true] at hop
          simp [Word.endsAt, isMeta, hblank, hnewline, hop]
        have hstep : start.step c = (⟨[], .word Word.empty, false⟩ : Lexer).step c := by
          rw [step_word (fun hc => absurd hc hquote) hends]
          simp [step, start, hquote, read, readGap, hblank, hnewline, hhash, hop]
        have hrun : start.run (c :: rest) =
            (⟨[], .word Word.empty, false⟩ : Lexer).run (c :: rest) := by
          rw [run, run, hstep]
        unfold ClosedWord
        rw [hrun]
        exact hempty.trans (by simp [Word.empty, hhash])

end Closed

section Pieces

/-- A text between blanks that is meant to be one token. -/
structure Piece where
  text : Str
  isOperator : Bool

def Piece.token (p : Piece) : Token := if p.isOperator then .operator p.text else .word p.text

/-- Operators are single operators; other pieces begin a word. -/
def Piece.Sound (p : Piece) : Prop :=
  if p.isOperator then ∃ descriptor text,
    start.run p.text = .ok ⟨[], .operator descriptor text, false⟩ ∧
    descriptor ++ text = p.text ∧ text ++ [' '] ∉ operators
  else Begins p.text

def Piece.Ends (p : Piece) : Prop := p.isOperator = false → ClosedWord p.text

variable {tokens more : List Token} {p : Piece} {rest : Str}

theorem run_gap (tokens : List Token) (e : Str) :
    (⟨tokens, .gap, false⟩ : Lexer).run e = (start.run e).map (after tokens) := by
  rw [← run_after]
  simp [after, start]

/-- A piece that ends is one token, at the end of the text and before a blank. -/
theorem Piece.Ends.run (hp : p.Sound) (h : p.Ends) (tokens : List Token) :
    ∃ s, (⟨tokens, .gap, false⟩ : Lexer).run p.text = .ok s ∧
      s.finish = .ok (tokens ++ [p.token]) ∧
      s.step ' ' = .ok ⟨tokens ++ [p.token], .gap, false⟩ := by
  obtain ⟨text, isOperator⟩ := p
  rw [run_gap]
  cases isOperator with
  | true =>
    obtain ⟨descriptor, op, hrun, htext, hop⟩ := hp
    rw [hrun]
    simp only at htext
    refine ⟨_, rfl, ?_, ?_⟩
    · simp [finish, after, Piece.token, htext]
    · simp [step, after, read, hop, htext, readGap, isBlank, Piece.token]
  | false =>
    obtain ⟨s, hrun, w, rfl, htext, hframes⟩ := h rfl
    simp only at hrun htext
    rw [hrun]
    have hends : w.endsAt ' ' = true := by
      simp [Word.endsAt, hframes, isMeta, isBlank]
    refine ⟨_, rfl, ?_, ?_⟩
    · simp [finish, after, Piece.token, htext, hframes]
    · simp [step, after, read, readWord, hends, htext, readGap, isBlank, Piece.token]

theorem Piece.ends_of_tokenise (hp : p.Sound) (hrest : rest = [] ∨ ∃ r, rest = ' ' :: r)
    (h : (⟨tokens, .gap, false⟩ : Lexer).tokenise (p.text ++ rest) =
      .ok (tokens ++ p.token :: more)) : p.Ends := by
  obtain ⟨text, isOperator⟩ := p
  cases isOperator with
  | true =>
    intro hno
    cases hno
  | false =>
    intro _
    obtain ⟨w, hrun, htext, hframes⟩ := word_of_tokenise hp hrest h
    rw [run_gap] at hrun
    unfold ClosedWord
    cases hs : start.run text with
    | error err =>
      rw [hs] at hrun
      cases hrun
    | ok s =>
      rw [hs] at hrun
      refine ⟨s, rfl, w, ?_, htext, hframes⟩
      obtain ⟨toks, mode, held⟩ := s
      simp only [Except.map, after, Except.ok.injEq, Lexer.mk.injEq,
        append_right_eq_self] at hrun
      rw [hrun.1, hrun.2.1, hrun.2.2]

/-- Pieces joined by blanks are one token each exactly if each of them ends. -/
theorem tokenise_pieces (tokens : List Token) {pieces : List Piece} (hne : pieces ≠ [])
    (hsound : ∀ p ∈ pieces, p.Sound) :
    (⟨tokens, .gap, false⟩ : Lexer).tokenise ([' '].intercalate (pieces.map Piece.text)) =
        .ok (tokens ++ pieces.map Piece.token) ↔ ∀ p ∈ pieces, p.Ends := by
  induction pieces generalizing tokens with
  | nil => exact absurd rfl hne
  | cons p pieces ih =>
    have hp : p.Sound := hsound p mem_cons_self
    cases pieces with
    | nil =>
      have htext : [' '].intercalate ([p].map Piece.text) = p.text ++ [] := by
        simp [List.intercalate]
      rw [htext, forall_mem_singleton]
      constructor
      · exact Piece.ends_of_tokenise hp (.inl rfl)
      · intro hends
        obtain ⟨s, hrun, hfinish, -⟩ := hends.run hp tokens
        rw [tokenise_append hrun]
        exact hfinish
    | cons q pieces =>
      have htext : [' '].intercalate ((p :: q :: pieces).map Piece.text) =
          p.text ++ ' ' :: [' '].intercalate ((q :: pieces).map Piece.text) := by
        simp [List.intercalate]
      have hrest : ∀ (s : Lexer), s.step ' ' = .ok ⟨tokens ++ [p.token], .gap, false⟩ →
          s.tokenise (' ' :: [' '].intercalate ((q :: pieces).map Piece.text)) =
            (⟨tokens ++ [p.token], .gap, false⟩ : Lexer).tokenise
              ([' '].intercalate ((q :: pieces).map Piece.text)) := by
        intro s hs
        rw [tokenise, run_cons_of_ok hs]
        rfl
      have hih := ih (tokens ++ [p.token]) (by simp)
        fun x hx => hsound x (mem_cons_of_mem _ hx)
      rw [htext, forall_mem_cons, ← hih]
      have hmap : tokens ++ (p :: q :: pieces).map Piece.token =
          tokens ++ [p.token] ++ (q :: pieces).map Piece.token := by simp
      rw [hmap]
      constructor
      · intro h
        have hfirst : (⟨tokens, .gap, false⟩ : Lexer).tokenise
            (p.text ++ ' ' :: [' '].intercalate ((q :: pieces).map Piece.text)) =
              .ok (tokens ++ p.token :: (q :: pieces).map Piece.token) := by
          rw [h]
          simp
        have hends : p.Ends := Piece.ends_of_tokenise hp (.inr ⟨_, rfl⟩) hfirst
        obtain ⟨s, hrun, -, hspace⟩ := hends.run hp tokens
        rw [tokenise_append hrun, hrest s hspace] at h
        exact ⟨hends, h⟩
      · rintro ⟨hends, h⟩
        obtain ⟨s, hrun, -, hspace⟩ := hends.run hp tokens
        rw [tokenise_append hrun, hrest s hspace, h]

end Pieces
end Lexer
end ShellLex
