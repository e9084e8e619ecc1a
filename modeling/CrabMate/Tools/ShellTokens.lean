import CrabMate.Lib.ShellLex
import CrabMate.Tools.ShellScript

/-! The script of a wrapped command, read back by the shell: each argument is one token of its own
exactly if it closes what it opens. -/
namespace CrabMate
open RustStr ShellLex ShellLex.Lexer List

section Ordinary

/-- A character without meaning for the token recognition of the shell. -/
def ordinary (c : Char) : Bool := !isMeta c && !"\\'\"$`#".toList.contains c

theorem closes_of_ordinary {t : Str} (h : ∀ c ∈ t, ordinary c = true) :
    closes [] false t = true := by
  induction t with
  | nil => rfl
  | cons c t ih =>
    have hc := h c mem_cons_self
    simp only [ordinary, Bool.and_eq_true, Bool.not_eq_true', contains_eq_mem,
      decide_eq_false_iff_not] at hc
    obtain ⟨hmeta, hspecial⟩ := hc
    have hspecial : ∀ d ∈ "\\'\"$`#".toList, c ≠ d := by
      rintro d hd rfl
      exact hspecial hd
    have hquote := hspecial '\\' (by decide)
    have hsingle := hspecial '\'' (by decide)
    have hdouble := hspecial '"' (by decide)
    have hdollar := hspecial '$' (by decide)
    have hback := hspecial '`' (by decide)
    rw [closes.eq_def]
    simp [hmeta, hquote, hsingle, hdouble, hdollar, hback, nextFrames,
      ih fun d hd => h d (mem_cons_of_mem _ hd)]

theorem isBlank_isWhitespace {c : Char} (h : isWhitespace c = false) :
    isBlank c = false ∧ c ≠ '\n' := by
  constructor
  · cases hb : isBlank c with
    | false => rfl
    | true =>
      simp only [isBlank, Bool.or_eq_true, decide_eq_true_eq] at hb
      rcases hb with rfl | rfl
      · exact absurd h (by decide)
      · exact absurd h (by decide)
  · rintro rfl
    exact absurd h (by decide)

theorem begins_of_no_whitespace {t : Str} (hne : t ≠ []) (h : ∀ c ∈ t, isWhitespace c = false) :
    Begins t := by
  cases t with
  | nil => exact absurd rfl hne
  | cons c t =>
    obtain ⟨hblank, hnewline⟩ := isBlank_isWhitespace (h c mem_cons_self)
    refine ⟨c, t, rfl, hblank, hnewline, ?_⟩
    rintro ⟨u, hu⟩
    have hmem : '\n' ∈ c :: t := by
      rw [← hu]
      simp
    exact absurd (h _ hmem) (by decide)

/-- A command name that is one plain word. -/
def PlainWord (cmd : Str) : Prop :=
  cmd ≠ [] ∧ ∀ c ∈ cmd, ordinary c = true ∧ isWhitespace c = false

theorem PlainWord.of_all {cmd : Str} (hne : cmd ≠ [])
    (h : cmd.all fun c => ordinary c && !isWhitespace c) : PlainWord cmd :=
  ⟨hne, fun c hc => by simpa using all_eq_true.mp h c hc⟩

theorem PlainWord.trim_eq {cmd : Str} (h : PlainWord cmd) : trim cmd = cmd := by
  have hstart : trimStart cmd = cmd := by
    apply dropWhile_eq_self_iff.mpr
    intro hpos
    simp [(h.2 _ (getElem_mem hpos)).2]
  have hend : trimEnd cmd = cmd := by
    apply rdropWhile_eq_self_iff.mpr
    intro hne
    simp [(h.2 _ (getLast_mem hne)).2]
  rw [trim, hstart, hend]

theorem closedWord_of_ordinary {t : Str} (hne : t ≠ []) (h : ∀ c ∈ t, ordinary c = true)
    (hws : ∀ c ∈ t, isWhitespace c = false) : ClosedWord t := by
  rw [closedWord_iff (begins_of_no_whitespace hne hws)]
  refine ⟨?_, closes_of_ordinary h⟩
  intro hhash
  have hmem : '#' ∈ t := mem_of_mem_head? hhash
  exact absurd (h _ hmem) (by decide)

end Ordinary

section Quoted

/-- In double quotes, with `depth` open `${` and perhaps a single quote in the innermost: the
argument closes them all, and no `$` runs into a `(` over continued lines. -/
def quotedCloses (depth : ℕ) (single dollar : Bool) : Str → Bool
  | [] => depth = 0
  | ['\\'] => depth = 0
  | '\\' :: next :: rest =>
    if single then quotedCloses depth (next ≠ '\'') false rest
    else quotedCloses depth false (dollar && next = '\n') rest
  | '"' :: rest => quotedCloses depth single false rest
  | '`' :: rest => quotedCloses depth single false rest
  | '$' :: '(' :: rest => quotedCloses depth single false rest
  | c :: rest =>
    if single then quotedCloses depth (c ≠ '\'') false rest
    else if c = '(' ∧ dollar then false
    else if c = '{' ∧ dollar then quotedCloses (depth + 1) false false rest
    else if c = '$' then quotedCloses depth false (!dollar) rest
    else if c = '}' then quotedCloses (depth - 1) false false rest
    else quotedCloses depth (c = '\'' && 0 < depth) false rest

/-- The frames of the shell at that point. -/
def quotedFrames (depth : ℕ) (single : Bool) : List Frame :=
  (if single then [.single] else []) ++ (List.replicate depth .brace ++ [.double])

theorem closes_single {fs : List Frame} {dollar : Bool} {c : Char} {rest : Str} :
    closes (.single :: fs) dollar (c :: rest) =
      closes (if c = '\'' then fs else .single :: fs) false rest := by
  rw [closes.eq_def]
  simp

theorem quotedFrames_single (depth : ℕ) :
    quotedFrames depth true = .single :: quotedFrames depth false := rfl

theorem head_quotedFrames (depth : ℕ) :
    (quotedFrames depth false).head? = some (if depth = 0 then .double else .brace) := by
  cases depth with
  | zero => rfl
  | succ depth => rfl

theorem closes_escape (depth : ℕ) (dollar : Bool) (c : Char) (rest : Str) :
    closes (quotedFrames depth false) dollar ('\\' :: c :: rest) =
      closes (quotedFrames depth false) (dollar && c = '\n') rest := by
  have hhead : (quotedFrames depth false).head? ≠ some .single := by
    rw [head_quotedFrames]
    split <;> simp
  rw [closes.eq_def]
  simp [hhead]

theorem closes_single_of_ne (depth : ℕ) (dollar : Bool) {c : Char} (rest : Str) (hc : c ≠ '\'') :
    closes (quotedFrames depth true) dollar (c :: rest) =
      closes (quotedFrames depth true) false rest := by
  rw [quotedFrames_single, closes_single, if_neg hc]

theorem nextFrames_quotedFrames (depth : ℕ) {c : Char} (hc : c ≠ '"') :
    nextFrames (quotedFrames depth false) c =
      if c = '}' then quotedFrames (depth - 1) false
      else quotedFrames depth (c = '\'' && 0 < depth) := by
  cases depth with
  | zero => simp [nextFrames, quotedFrames, hc]
  | succ depth =>
    by_cases hsingle : c = '\''
    · subst hsingle
      simp [nextFrames, quotedFrames, replicate_succ]
    · by_cases hbrace : c = '}'
      · subst hbrace
        simp [nextFrames, quotedFrames, replicate_succ]
      · simp [nextFrames, quotedFrames, replicate_succ, hc, hsingle, hbrace]

/-- A character of the argument that is written as it is. -/
theorem closes_plain (depth : ℕ) (dollar : Bool) {c : Char} (rest : Str) (hquote : c ≠ '\\')
    (hback : c ≠ '`') (hdouble : c ≠ '"') :
    closes (quotedFrames depth false) dollar (c :: rest) =
      if c = '(' ∧ dollar then false
      else if c = '{' ∧ dollar then closes (quotedFrames (depth + 1) false) false rest
      else if c = '$' then closes (quotedFrames depth false) (!dollar) rest
      else if c = '}' then closes (quotedFrames (depth - 1) false) false rest
      else closes (quotedFrames depth (c = '\'' && 0 < depth)) false rest := by
  have hhead : (quotedFrames depth false).head? ≠ some .single := by
    rw [head_quotedFrames]
    split <;> simp
  have hopen : (quotedFrames depth false).isEmpty = false := by
    simp [quotedFrames]
  have hpush : Frame.brace :: quotedFrames depth false = quotedFrames (depth + 1) false := rfl
  rw [closes.eq_def]
  simp only [hhead, hquote, hopen, hback, if_false, Bool.false_and, Bool.false_eq_true, false_or,
    hpush, nextFrames_quotedFrames depth hdouble]
  repeat' split
  all_goals rfl

theorem closes_final (depth : ℕ) (single dollar : Bool) (hs : single = true → 0 < depth) :
    closes (quotedFrames depth single) dollar ['"'] = decide (depth = 0) := by
  cases single with
  | true =>
    have hdepth : depth ≠ 0 := Nat.pos_iff_ne_zero.mp (hs rfl)
    rw [closes_single_of_ne _ _ _ (by decide)]
    simp [closes, quotedFrames, hdepth]
  | false =>
    cases depth with
    | zero => rfl
    | succ depth => simp [closes, quotedFrames, replicate_succ, isMeta, nextFrames]

theorem closes_escaped (depth : ℕ) (single dollar : Bool) (q : Str) {c : Char} (hc : c ≠ '\'')
    (hline : c ≠ '\n') : closes (quotedFrames depth single) dollar ('\\' :: c :: q) =
      closes (quotedFrames depth single) false q := by
  cases single with
  | true => rw [closes_single_of_ne _ _ _ (by decide), closes_single_of_ne _ _ _ hc]
  | false => rw [closes_escape, decide_eq_false hline, Bool.and_false]

theorem closes_doubleQuoteBody (t : Str) (depth : ℕ) (single dollar : Bool)
    (hs : single = true → 0 < depth) :
    closes (quotedFrames depth single) dollar (doubleQuoteBody t ++ ['"']) =
      quotedCloses depth single dollar t := by
  induction t using doubleQuoteBody.induct generalizing depth single dollar with
  | case1 => exact closes_final depth single dollar hs
  | case2 =>
    show closes _ _ ['\\', '\\', '"'] = decide (depth = 0)
    rw [closes_escaped _ _ _ _ (by decide) (by decide)]
    exact closes_final depth single false hs
  | case3 next rest ih =>
    show closes _ _ ('\\' :: next :: (doubleQuoteBody rest ++ ['"'])) = _
    cases single with
    | true =>
      rw [closes_single_of_ne _ _ _ (by decide)]
      by_cases hnext : next = '\''
      · rw [hnext, quotedFrames_single, closes_single, if_pos rfl, ih _ _ _ (by simp)]
        simp [quotedCloses]
      · rw [closes_single_of_ne _ _ _ hnext, ih _ _ _ hs]
        simp [quotedCloses, hnext]
    | false =>
      rw [closes_escape, ih _ _ _ hs]
      simp [quotedCloses]
  | case4 rest ih =>
    show closes _ _ ('\\' :: '"' :: (doubleQuoteBody rest ++ ['"'])) = quotedCloses _ _ _ rest
    rw [closes_escaped _ _ _ _ (by decide) (by decide), ih _ _ _ hs]
  | case5 rest ih =>
    show closes _ _ ('\\' :: '`' :: (doubleQuoteBody rest ++ ['"'])) = quotedCloses _ _ _ rest
    rw [closes_escaped _ _ _ _ (by decide) (by decide), ih _ _ _ hs]
  | case6 rest ih =>
    show closes _ _ ('\\' :: '$' :: '(' :: (doubleQuoteBody rest ++ ['"'])) =
      quotedCloses _ _ _ rest
    rw [closes_escaped _ _ _ _ (by decide) (by decide)]
    cases single with
    | true => rw [closes_single_of_ne _ _ _ (by decide), ih _ _ _ hs]
    | false =>
      rw [closes_plain _ _ _ (by decide) (by decide) (by decide), ← ih _ _ _ hs]
      simp
  | case7 c rest h1 h2 h3 h4 h5 ih =>
    have hquote : c ≠ '\\' := by
      rintro rfl
      cases rest with
      | nil => exact h1 rfl rfl
      | cons next rest => exact h2 next rest rfl rfl
    have hbody : doubleQuoteBody (c :: rest) = c :: doubleQuoteBody rest :=
      doubleQuoteBody.eq_7 c rest h1 h2 h3 h4 h5
    rw [hbody, quotedCloses.eq_7 depth single dollar c rest h1 h2 h3 h4 h5, cons_append]
    cases single with
    | true =>
      by_cases hc : c = '\''
      · rw [hc, quotedFrames_single, closes_single, if_pos rfl, ih _ _ _ (by simp)]
        simp
      · rw [closes_single_of_ne _ _ _ hc, ih _ _ _ hs]
        simp [hc]
    | false =>
      rw [closes_plain _ _ _ hquote h4 h3]
      simp only [Bool.false_eq_true, if_false]
      split
      · rfl
      · split
        · exact ih _ _ _ (by simp)
        · split
          · exact ih _ _ _ (by simp)
          · split
            · exact ih _ _ _ (by simp)
            · exact ih _ _ _ (by simp)

theorem closedWord_doubleQuoteToken (t : Str) :
    ClosedWord (doubleQuoteToken t) ↔ quotedCloses 0 false false t = true := by
  have hbegins : Begins (doubleQuoteToken t) := by
    refine ⟨'"', _, rfl, by decide, by decide, ?_⟩
    rintro ⟨u, hu⟩
    cases hu
  have hopen : closes [] false (doubleQuoteToken t) =
      closes (quotedFrames 0 false) false (doubleQuoteBody t ++ ['"']) := by
    rw [closes.eq_def]
    simp [doubleQuoteToken, quotedFrames, nextFrames, isMeta, isBlank, isOperatorStart]
  rw [closedWord_iff hbegins, hopen, closes_doubleQuoteBody t 0 false false (by simp)]
  simp [doubleQuoteToken]

end Quoted

section Arguments

/-- No expansion, no substitution and only harmless characters: written as it is. -/
def emittedPlain (t : Str) : Bool :=
  !(detectShellExpansionToken t).isSome && !containsCommandSubstitution t && safeUnquoted t

/-- What decides, for one argument, whether it stays one token. Written raw, it must not begin a
comment, must close its quotes and `${…}` and must not have an unquoted operator character or a
last lone backslash. Written in double quotes, it must close its `${…}`. -/
def argCloses (arg : Str) : Bool :=
  let t := trim arg
  if t.isEmpty || tokenIsShellOperator t || emittedPlain t then true
  else if emittedRaw t then t.head? ≠ some '#' && closes [] false t
  else quotedCloses 0 false false t

/-- The four ways a token is written. -/
theorem quoteScriptToken_cases (arg : Str) :
    (trim arg = [] ∧ quoteScriptToken arg = ['\'', '\'']) ∨
    (trim arg ≠ [] ∧ tokenIsShellOperator (trim arg) = true ∧ quoteScriptToken arg = trim arg) ∨
    (trim arg ≠ [] ∧ tokenIsShellOperator (trim arg) = false ∧
      (emittedPlain (trim arg) = true ∨
        emittedPlain (trim arg) = false ∧ emittedRaw (trim arg) = true) ∧
      quoteScriptToken arg = trim arg) ∨
    (trim arg ≠ [] ∧ tokenIsShellOperator (trim arg) = false ∧
      emittedPlain (trim arg) = false ∧ emittedRaw (trim arg) = false ∧
      quoteScriptToken arg = doubleQuoteToken (trim arg)) := by
  unfold quoteScriptToken
  generalize trim arg = t
  simp only [List.isEmpty_iff]
  split
  · next h => exact .inl ⟨h, rfl⟩
  · next hne =>
    right
    split
    · next hop => exact .inl ⟨hne, hop, rfl⟩
    · next hop =>
      right
      have hop : tokenIsShellOperator t = false := by simpa using hop
      cases hexp : (detectShellExpansionToken t).isSome <;>
        cases hsub : containsCommandSubstitution t <;>
        cases hws : t.any isWhitespace <;> cases hsafe : safeUnquoted t <;>
        simp [emittedPlain, emittedRaw, hne, hop, hexp, hsub, hws, hsafe]

theorem isMeta_mem {c : Char} (h : isMeta c = true) : c ∈ " \t\n&|;<>()".toList := by
  simp only [isMeta, isBlank, isOperatorStart, Bool.or_eq_true, decide_eq_true_eq,
    contains_eq_mem] at h
  have hsplit : " \t\n&|;<>()".toList = [' ', '\t', '\n'] ++ "&|;<>()".toList := by decide
  rw [hsplit, mem_append]
  rcases h with ((rfl | rfl) | rfl) | h
  · exact .inl (by decide)
  · exact .inl (by decide)
  · exact .inl (by decide)
  · exact .inr h

theorem safe_ordinary {c : Char}
    (h : (c.isAlphanum || "_-./:=,@".toList.contains c) = true) : ordinary c = true := by
  cases ho : ordinary c with
  | true => rfl
  | false =>
    have hmem : c ∈ " \t\n&|;<>()".toList ++ "\\'\"$`#".toList := by
      simp only [ordinary, Bool.and_eq_false_iff, Bool.not_eq_false', contains_eq_mem,
        decide_eq_true_eq] at ho
      rcases ho with hm | hs
      · exact mem_append_left _ (isMeta_mem hm)
      · exact mem_append_right _ hs
    have hbad : (" \t\n&|;<>()".toList ++ "\\'\"$`#".toList).all
        fun d => !(d.isAlphanum || "_-./:=,@".toList.contains d) := by decide
    have hc := all_eq_true.mp hbad c hmem
    rw [h] at hc
    cases hc

theorem isWhitespace_le {c : Char} (h : isWhitespace c = true) :
    c.toNat ≤ 32 ∨ 133 ≤ c.toNat := by
  simp only [isWhitespace, Bool.or_eq_true, Bool.and_eq_true, decide_eq_true_eq,
    beq_iff_eq] at h
  omega

theorem isAlphanum_range {c : Char} (h : c.isAlphanum = true) :
    48 ≤ c.toNat ∧ c.toNat ≤ 122 := by
  have hclass : ((decide ('A'.val ≤ c.val ∧ c.val ≤ 'Z'.val) ||
      (decide ('a'.val ≤ c.val) && decide (c.val ≤ 'z'.val))) ||
      (decide ('0'.val ≤ c.val) && decide (c.val ≤ '9'.val))) = true := h
  simp only [Bool.or_eq_true, Bool.and_eq_true, decide_eq_true_eq,
    UInt32.le_iff_toNat_le] at hclass
  have hA : 'A'.val.toNat = 65 := rfl
  have hZ : 'Z'.val.toNat = 90 := rfl
  have ha : 'a'.val.toNat = 97 := rfl
  have hz : 'z'.val.toNat = 122 := rfl
  have h0 : '0'.val.toNat = 48 := rfl
  have h9 : '9'.val.toNat = 57 := rfl
  show 48 ≤ c.val.toNat ∧ c.val.toNat ≤ 122
  omega

theorem safe_not_whitespace {c : Char}
    (h : (c.isAlphanum || "_-./:=,@".toList.contains c) = true) : isWhitespace c = false := by
  rw [Bool.or_eq_true] at h
  rcases h with h | h
  · cases hw : isWhitespace c with
    | false => rfl
    | true =>
      have hrange := isAlphanum_range h
      have hout := isWhitespace_le hw
      omega
  · have hall : "_-./:=,@".toList.all fun d => !isWhitespace d := by decide
    simpa using all_eq_true.mp hall c (by simpa using h)

theorem emittedPlain_chars {t : Str} (h : emittedPlain t = true) :
    ∀ c ∈ t, ordinary c = true ∧ isWhitespace c = false := by
  simp only [emittedPlain, safeUnquoted, Bool.and_eq_true, all_eq_true] at h
  exact fun c hc => ⟨safe_ordinary (h.2.1 c hc), safe_not_whitespace (h.2.1 c hc)⟩

theorem emittedRaw_chars {t : Str} (h : emittedRaw t = true) :
    ∀ c ∈ t, isWhitespace c = false := by
  simp only [emittedRaw, Bool.and_eq_true, Bool.not_eq_true'] at h
  intro c hc
  have hall := any_eq_false.mp h.2 c hc
  simpa using hall

/-- The argument as a piece of the script. -/
def argPiece (arg : Str) : Piece := ⟨quoteScriptToken arg, tokenIsShellOperator arg⟩

theorem tokenIsShellOperator_trim (arg : Str) :
    tokenIsShellOperator (trim arg) = tokenIsShellOperator arg := by
  rw [tokenIsShellOperator, trim_trim, tokenIsShellOperator]

theorem operator_sound : ∀ op ∈ shellOperatorTokens, (⟨op, true⟩ : Piece).Sound := by
  intro op hop
  simp only [shellOperatorTokens, map_cons, map_nil, mem_cons,
    not_mem_nil, or_false] at hop
  rcases hop with rfl | rfl | rfl | rfl | rfl | rfl | rfl | rfl | rfl | rfl
  · exact ⟨[], _, rfl, rfl, by decide⟩
  · exact ⟨[], _, rfl, rfl, by decide⟩
  · exact ⟨[], _, rfl, rfl, by decide⟩
  · exact ⟨[], _, rfl, rfl, by decide⟩
  · exact ⟨[], _, rfl, rfl, by decide⟩
  · exact ⟨[], _, rfl, rfl, by decide⟩
  · exact ⟨[], _, rfl, rfl, by decide⟩
  · exact ⟨['2'], _, rfl, rfl, by decide⟩
  · exact ⟨['2'], _, rfl, rfl, by decide⟩
  · exact ⟨[], _, rfl, rfl, by decide⟩

theorem argPiece_sound (arg : Str) : (argPiece arg).Sound := by
  have hop := tokenIsShellOperator_trim arg
  obtain ⟨hnil, hq⟩ | ⟨hne, hyes, hq⟩ | ⟨hne, hno, hraw, hq⟩ | ⟨hne, hno, -, -, hq⟩ :=
    quoteScriptToken_cases arg
  · have hno : tokenIsShellOperator arg = false := by
      rw [tokenIsShellOperator, hnil]
      decide
    rw [argPiece, hq, hno]
    refine ⟨'\'', ['\''], rfl, by decide, by decide, ?_⟩
    rintro ⟨u, hu⟩
    cases hu
  · rw [argPiece, hq, ← hop, hyes]
    apply operator_sound
    rw [tokenIsShellOperator, trim_trim] at hyes
    simpa using hyes
  · rw [argPiece, hq, ← hop, hno]
    refine begins_of_no_whitespace hne ?_
    rcases hraw with hplain | ⟨-, hraw⟩
    · exact fun c hc => (emittedPlain_chars hplain c hc).2
    · exact emittedRaw_chars hraw
  · rw [argPiece, hq, ← hop, hno]
    refine ⟨'"', _, rfl, by decide, by decide, ?_⟩
    rintro ⟨u, hu⟩
    cases hu

theorem argPiece_ends (arg : Str) : (argPiece arg).Ends ↔ argCloses arg = true := by
  have hop := tokenIsShellOperator_trim arg
  obtain ⟨hnil, hq⟩ | ⟨hne, hyes, hq⟩ | ⟨hne, hno, hraw, hq⟩ | ⟨hne, hno, hplain, hraw, hq⟩ :=
    quoteScriptToken_cases arg
  · have hcl : argCloses arg = true := by simp [argCloses, hnil]
    refine iff_of_true (fun _ => ?_) hcl
    show ClosedWord (quoteScriptToken arg)
    rw [hq]
    exact ⟨_, rfl, _, rfl, rfl, rfl⟩
  · have hcl : argCloses arg = true := by simp [argCloses, hyes]
    refine iff_of_true (fun hno => ?_) hcl
    have hno : tokenIsShellOperator arg = false := hno
    rw [← hop, hyes] at hno
    cases hno
  · have hends : (argPiece arg).Ends ↔ ClosedWord (trim arg) := by
      rw [← hq]
      exact ⟨fun h => h (hop.symm.trans hno), fun h _ => h⟩
    rw [hends]
    have hempty : (trim arg).isEmpty = false := by simpa using hne
    rcases hraw with hplain | ⟨hplain, hraw⟩
    · have hchars := emittedPlain_chars hplain
      refine iff_of_true ?_ (by simp [argCloses, hplain])
      exact closedWord_of_ordinary hne (fun c hc => (hchars c hc).1) fun c hc => (hchars c hc).2
    · rw [closedWord_iff (begins_of_no_whitespace hne (emittedRaw_chars hraw))]
      simp [argCloses, hempty, hno, hplain, hraw]
  · have hends : (argPiece arg).Ends ↔ ClosedWord (doubleQuoteToken (trim arg)) := by
      rw [← hq]
      exact ⟨fun h => h (hop.symm.trans hno), fun h _ => h⟩
    have hempty : (trim arg).isEmpty = false := by simpa using hne
    rw [hends, closedWord_doubleQuoteToken]
    simp [argCloses, hempty, hno, hplain, hraw]

end Arguments

section Script

theorem quoteScriptToken_ne_nil (arg : Str) : quoteScriptToken arg ≠ [] := by
  obtain ⟨-, hq⟩ | ⟨hne, -, hq⟩ | ⟨hne, -, -, hq⟩ | ⟨-, -, -, -, hq⟩ := quoteScriptToken_cases arg
  · simp [hq]
  · rwa [hq]
  · rwa [hq]
  · simp [hq, doubleQuoteToken]

theorem joinRunCommandShellScript_eq {cmd : Str} (hcmd : PlainWord cmd) (args : List Str) :
    joinRunCommandShellScript cmd args =
      [' '].intercalate (((⟨cmd, false⟩ : Piece) :: args.map argPiece).map Piece.text) := by
  rw [joinRunCommandShellScript, hcmd.trim_eq]
  have htexts : (args.map argPiece).map Piece.text = args.map quoteScriptToken := by
    simp [argPiece, Function.comp_def]
  rw [map_cons, htexts]
  cases args with
  | nil => simp [joinRunCommandArgvTail, List.intercalate]
  | cons arg args =>
    have htail : (joinRunCommandArgvTail (arg :: args)).isEmpty = false := by
      rw [joinRunCommandArgvTail, map_cons, isEmpty_eq_false_iff]
      cases args with
      | nil => simpa [List.intercalate] using quoteScriptToken_ne_nil arg
      | cons b args =>
        rw [map_cons, intercalate_cons_cons]
        simp
    simp only [htail, Bool.false_eq_true, if_false]
    rw [map_cons, intercalate_cons_cons, joinRunCommandArgvTail, map_cons]
    simp

/-- The token of an argument: the operator it names, or the word it is written as. -/
def argToken (arg : Str) : Token :=
  if tokenIsShellOperator arg then .operator (trim arg) else .word (quoteScriptToken arg)

theorem token_argPiece (arg : Str) : (argPiece arg).token = argToken arg := by
  cases hop : tokenIsShellOperator arg with
  | false => simp [argPiece, Piece.token, argToken, hop]
  | true =>
    have hq : quoteScriptToken arg = trim arg := by
      have htrim := tokenIsShellOperator_trim arg
      obtain ⟨hnil, -⟩ | ⟨-, -, hq⟩ | ⟨-, hno, -⟩ | ⟨-, hno, -⟩ := quoteScriptToken_cases arg
      · rw [tokenIsShellOperator, hnil] at hop
        exact absurd hop (by decide)
      · exact hq
      · rw [htrim, hop] at hno
        cases hno
      · rw [htrim, hop] at hno
        cases hno
    simp [argPiece, Piece.token, argToken, hop, hq]

/-- The shell reads the script as the command and one token per argument: an operator where the
argument names one, else the argument as one word, with no substitution in it. -/
def AddsNoSyntax (cmd : Str) (args : List Str) : Prop :=
  start.tokenise (joinRunCommandShellScript cmd args) = .ok (.word cmd :: args.map argToken)

theorem addsNoSyntax_iff {cmd : Str} (hcmd : PlainWord cmd) (args : List Str) :
    AddsNoSyntax cmd args ↔ ∀ arg ∈ args, argCloses arg = true := by
  have hsound : ∀ p ∈ (⟨cmd, false⟩ : Piece) :: args.map argPiece, p.Sound := by
    intro p hp
    rcases mem_cons.mp hp with rfl | hp
    · exact begins_of_no_whitespace hcmd.1 fun c hc => (hcmd.2 c hc).2
    · obtain ⟨arg, -, rfl⟩ := mem_map.mp hp
      exact argPiece_sound arg
  have hends : (⟨cmd, false⟩ : Piece).Ends := fun _ =>
    closedWord_of_ordinary hcmd.1 (fun c hc => (hcmd.2 c hc).1) fun c hc => (hcmd.2 c hc).2
  have hpieces := tokenise_pieces [] (cons_ne_nil _ _) hsound
  have htokens : ((⟨cmd, false⟩ : Piece) :: args.map argPiece).map Piece.token =
      .word cmd :: args.map argToken := by
    rw [map_cons, map_map]
    exact congrArg _ (map_congr_left fun arg _ => token_argPiece arg)
  rw [nil_append, htokens, ← joinRunCommandShellScript_eq hcmd] at hpieces
  refine Iff.trans hpieces ?_
  rw [forall_mem_cons, forall_mem_map]
  constructor
  · exact fun h arg harg => (argPiece_ends arg).mp (h.2 arg harg)
  · exact fun h => ⟨hends, fun arg harg => (argPiece_ends arg).mpr (h arg harg)⟩

theorem addsNoSyntax_echo :
    PlainWord "echo".toList ∧ argCloses "a b".toList = true ∧ argCloses "$HOME/*.rs".toList = true ∧
      AddsNoSyntax "echo".toList ["a b".toList, "$HOME/*.rs".toList, "&&".toList] := by
  have hcmd : PlainWord "echo".toList := .of_all (by decide) (by decide)
  exact ⟨hcmd, by decide +kernel, by decide +kernel,
    (addsNoSyntax_iff hcmd _).mpr (by decide +kernel)⟩

/-- `$HOME;rm` is written raw, so its `;` ends the command. -/
theorem raw_argument_adds_operator :
    ¬∀ cmd, PlainWord cmd → ∀ args, AddsNoSyntax cmd args := by
  intro h
  have hecho := h "echo".toList (.of_all (by decide) (by decide)) ["$HOME;rm".toList]
  have htokens : start.tokenise (joinRunCommandShellScript "echo".toList ["$HOME;rm".toList]) =
      .ok [.word "echo".toList, .word "$HOME".toList, .operator ";".toList, .word "rm".toList] := by
    rfl
  rw [AddsNoSyntax, htokens] at hecho
  exact absurd hecho (by decide +kernel)

end Script
end CrabMate
