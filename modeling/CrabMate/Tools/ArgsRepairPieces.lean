import CrabMate.Tools.ArgsRepairCalls

/-! What the repair makes of the text between two commas, and what this means for the value of the
literal that the text is a piece of. -/
namespace CrabMate.ArgsRepair
open RustStr JsonText List

section Chars

variable {c : Char}

theorem alphanum_bounds (h : c.isAlphanum = true) : (48 ≤ c.toNat ∧ c.toNat ≤ 57) ∨
    (65 ≤ c.toNat ∧ c.toNat ≤ 90) ∨ (97 ≤ c.toNat ∧ c.toNat ≤ 122) := by
  rcases Bool.or_eq_true_iff.mp h with hletter | hdigit
  · rcases Bool.or_eq_true_iff.mp hletter with hupper | hlower
    · have hbounds : 'A'.val ≤ c.val ∧ c.val ≤ 'Z'.val := of_decide_eq_true hupper
      exact Or.inr (Or.inl ⟨UInt32.le_iff_toNat_le.mp hbounds.1,
        UInt32.le_iff_toNat_le.mp hbounds.2⟩)
    · obtain ⟨hlow, hhigh⟩ := Bool.and_eq_true_iff.mp hlower
      exact Or.inr (Or.inr ⟨UInt32.le_iff_toNat_le.mp (of_decide_eq_true hlow),
        UInt32.le_iff_toNat_le.mp (of_decide_eq_true hhigh)⟩)
  · obtain ⟨hlow, hhigh⟩ := Bool.and_eq_true_iff.mp hdigit
    exact Or.inl ⟨UInt32.le_iff_toNat_le.mp (of_decide_eq_true hlow),
      UInt32.le_iff_toNat_le.mp (of_decide_eq_true hhigh)⟩

theorem isWhitespace_of_isWs (h : isWs c = true) : isWhitespace c = true := by
  simp only [isWs, Bool.or_eq_true, decide_eq_true_eq] at h
  obtain ((rfl | rfl) | rfl) | rfl := h
  all_goals decide

theorem escaped_clean {escape : Str} (h : readEscape escape = some (c, [])) :
    ∀ x ∈ '\\' :: escape, x ≠ ',' ∧ x ≠ '[' ∧ x ≠ ']' ∧ isWhitespace x = false := by
  have hclean : ∀ x : Char, x = '"' ∨ x = '\\' ∨ x = '/' ∨ x.isAlphanum = true →
      x ≠ ',' ∧ x ≠ '[' ∧ x ≠ ']' ∧ isWhitespace x = false := by
    rintro x (rfl | rfl | rfl | hx)
    · decide
    · decide
    · decide
    · have hbounds := alphanum_bounds hx
      refine ⟨?_, ?_, ?_, ?_⟩
      · rintro rfl
        exact absurd hx (by decide)
      · rintro rfl
        exact absurd hx (by decide)
      · rintro rfl
        exact absurd hx (by decide)
      · simp [isWhitespace]
        omega
  intro x hx
  apply hclean
  obtain rfl | hx := mem_cons.mp hx
  · exact Or.inr (Or.inl rfl)
  · obtain rfl | hchars := escape_chars h
    · exact Or.inl (mem_singleton.mp hx)
    · exact Or.inr (hchars x hx)

end Chars

section Trim

variable {us : List LitChar} {u : LitChar}

theorem text_of_isSpace (h : isSpace u = true) : ∃ c, u.text = [c] ∧ isWhitespace c = true := by
  cases u with
  | plain c hc => exact ⟨c, rfl, h⟩
  | escaped escape c hc => cases h

theorem text_clean (h : isSpace u = false) : ∀ x ∈ u.text, isWhitespace x = false := by
  cases u with
  | plain c hc =>
    intro x hx
    obtain rfl := mem_singleton.mp hx
    exact h
  | escaped escape c hc => exact fun x hx => (escaped_clean hc x hx).2.2.2

theorem text_ne_nil (u : LitChar) : u.text ≠ [] := by
  cases u <;> simp [LitChar.text]

theorem dropWhile_append_clean {a b : Str} (ha : a ≠ []) (h : ∀ x ∈ a, isWhitespace x = false) :
    (a ++ b).dropWhile isWhitespace = a ++ b := by
  cases a with
  | nil => exact absurd rfl ha
  | cons c a =>
    exact dropWhile_cons_of_neg (by rw [h c mem_cons_self]; nofun)

theorem trimStart_litText (us : List LitChar) (s : Str) (hs : s.dropWhile isWhitespace = s) :
    trimStart (litText us ++ s) = litText (trimLitStart us) ++ s := by
  induction us with
  | nil => exact hs
  | cons u us ih =>
    unfold trimLitStart
    cases hu : isSpace u with
    | true =>
      obtain ⟨c, htext, hc⟩ := text_of_isSpace hu
      rw [dropWhile_cons_of_pos hu, litText_cons, htext]
      show (c :: (litText us ++ s)).dropWhile isWhitespace = _
      rw [dropWhile_cons_of_pos hc]
      exact ih
    | false =>
      rw [dropWhile_cons_of_neg (by rw [hu]; nofun), litText_cons, append_assoc]
      exact dropWhile_append_clean (text_ne_nil u) (text_clean hu)

theorem trimEnd_append_clean {s a : Str} (ha : a ≠ []) (h : ∀ x ∈ a, isWhitespace x = false) :
    trimEnd (s ++ a) = s ++ a := by
  obtain ⟨a, c, rfl⟩ := eq_nil_or_concat' a |>.resolve_left ha
  rw [← append_assoc]
  exact rdropWhile_concat_neg _ _ _ (by rw [h c (by simp)]; nofun)

theorem trimEnd_litText (us : List LitChar) (s : Str) (hs : trimEnd s = s) :
    trimEnd (s ++ litText us) = s ++ litText (trimLitEnd us) := by
  induction us using List.reverseRecOn with
  | nil =>
    rw [show litText [] = [] from rfl, append_nil, hs]
    exact (append_nil s).symm
  | append_singleton us u ih =>
    unfold trimLitEnd
    rw [litText_append, show litText [u] = u.text from append_nil _, ← append_assoc]
    cases hu : isSpace u with
    | true =>
      obtain ⟨c, htext, hc⟩ := text_of_isSpace hu
      rw [rdropWhile_concat_pos _ _ _ hu, htext, trimEnd_append_space (by simpa using hc)]
      exact ih
    | false =>
      rw [rdropWhile_concat_neg _ _ _ (by rw [hu]; nofun),
        trimEnd_append_clean (text_ne_nil u) (text_clean hu), litText_append,
        show litText [u] = u.text from append_nil _, append_assoc]

theorem trim_litText (us : List LitChar) : trim (litText us) = litText (trimLit us) := by
  have hstart := trimStart_litText us [] rfl
  rw [append_nil, append_nil] at hstart
  have hend := trimEnd_litText (trimLitStart us) [] rfl
  rw [nil_append, nil_append] at hend
  rw [trim, hstart, hend]
  rfl

end Trim

section Parts

variable {x y : Str}

/-- The repaired text, quoted or not. -/
def repaired (s : Str) : Str :=
  [',', ' '].intercalate ((s.splitOn ',').map fun p => (repairPart p).1)

def changed (s : Str) : Bool := (s.splitOn ',').any fun p => (repairPart p).2

theorem repairArgsArrayInner_eq (s : Str) :
    repairArgsArrayInner s = if changed s = true then some (repaired s) else none := by
  simp only [repairArgsArrayInner, changed, repaired, any_map, map_map]
  rfl

theorem repaired_append_comma (hx : ',' ∉ x) (y : Str) :
    repaired (x ++ ',' :: y) = (repairPart x).1 ++ ',' :: ' ' :: repaired y := by
  unfold repaired
  rw [splitOn_append_cons_self_of_not_mem hx, map_cons,
    intercalate_cons_of_ne_nil (by simp [splitOn_ne_nil]), append_assoc]
  rfl

theorem repaired_eq (hx : ',' ∉ x) : repaired x = (repairPart x).1 := by
  unfold repaired
  rw [splitOn_eq_singleton hx, map_singleton, intercalate_singleton]

theorem changed_append_comma (hx : ',' ∉ x) (y : Str) :
    changed (x ++ ',' :: y) = ((repairPart x).2 || changed y) := by
  unfold changed
  rw [splitOn_append_cons_self_of_not_mem hx, any_cons]

theorem changed_eq (hx : ',' ∉ x) : changed x = (repairPart x).2 := by
  unfold changed
  rw [splitOn_eq_singleton hx, any_cons, any_nil, Bool.or_false]

theorem quotable_of_mem_quote (h : '"' ∈ x) : quotable x = false := by
  unfold quotable
  rw [Bool.and_eq_false_iff]
  refine Or.inr (Bool.eq_false_iff.mpr fun hall => ?_)
  exact absurd (all_eq_true.mp hall '"' h) (by decide)

theorem repairPart_of_trim (hne : trim x ≠ []) :
    repairPart x = if quotable (trim x) = true then ('"' :: (trim x ++ ['"']), true)
      else (trim x, false) := by
  unfold repairPart
  rw [if_neg (by rwa [List.isEmpty_iff])]

theorem isWhitespace_ws (w : Ws) : ∀ c ∈ w.1, isWhitespace c = true :=
  fun c hc => isWhitespace_of_isWs (w.2 c hc)

theorem repairPart_first (w : Ws) (p : List LitChar) :
    repairPart (w.1 ++ '"' :: litText p) = ('"' :: litText (trimLitEnd p), false) := by
  have htrim : trim (w.1 ++ '"' :: litText p) = '"' :: litText (trimLitEnd p) := by
    have hspaces := trim_of_spaces (s := '"' :: litText p) (b := []) (isWhitespace_ws w) nofun
    rw [append_nil] at hspaces
    rw [hspaces]
    exact trimEnd_litText p ['"'] (by decide)
  rw [repairPart_of_trim (by rw [htrim]; nofun), htrim, quotable_of_mem_quote mem_cons_self]
  rfl

theorem repairPart_last (p : List LitChar) (w : Ws) :
    repairPart (litText p ++ '"' :: w.1) = (litText (trimLitStart p) ++ ['"'], false) := by
  have htrim : trim (litText p ++ '"' :: w.1) = litText (trimLitStart p) ++ ['"'] := by
    have hspaces := trim_of_spaces (a := []) (s := litText p ++ ['"']) nofun (isWhitespace_ws w)
    rw [nil_append, append_assoc] at hspaces
    rw [show litText p ++ '"' :: w.1 = litText p ++ (['"'] ++ w.1) from rfl, hspaces, trim,
      trimStart_litText p ['"'] (by decide)]
    exact trimEnd_append_clean (by simp) (forall_mem_singleton.mpr (by decide))
  rw [repairPart_of_trim (by rw [htrim]; simp), htrim, quotable_of_mem_quote (by simp)]
  rfl

theorem repairPart_whole (w w' : Ws) (p : List LitChar) :
    repairPart (w.1 ++ ('"' :: (litText p ++ ['"']) ++ w'.1)) =
      ('"' :: (litText p ++ ['"']), false) := by
  have htrim : trim (w.1 ++ ('"' :: (litText p ++ ['"']) ++ w'.1)) =
      '"' :: (litText p ++ ['"']) := by
    rw [trim_of_spaces (isWhitespace_ws w) (isWhitespace_ws w')]
    exact trimEnd_append_clean (s := '"' :: litText p) (a := ['"']) (by simp)
      (forall_mem_singleton.mpr (by decide))
  rw [repairPart_of_trim (by rw [htrim]; nofun), htrim, quotable_of_mem_quote mem_cons_self]
  rfl

theorem repairPart_bare (w w' : Ws) (token : Bare) :
    repairPart (w.1 ++ (token.text ++ w'.1)) =
      if quotable token.text = true then ('"' :: (token.text ++ ['"']), true)
      else (token.text, false) := by
  have htrim : trim (w.1 ++ (token.text ++ w'.1)) = token.text := by
    rw [trim_of_spaces (isWhitespace_ws w) (isWhitespace_ws w')]
    exact trim_eq_self_of_forall fun c hc => (token.free c hc).2.2.2.2
  rw [repairPart_of_trim (by rw [htrim]; exact token.ne_nil), htrim]

end Parts

section Values

variable {x y : Str}

theorem append_comma_inj {a b : Str} (ha : ',' ∉ a) (hb : ',' ∉ b)
    (h : a ++ ',' :: x = b ++ ',' :: y) : a = b ∧ x = y := by
  have hsplit := congrArg (List.splitOn ',') h
  rw [splitOn_append_cons_self_of_not_mem ha,
    splitOn_append_cons_self_of_not_mem hb] at hsplit
  obtain rfl := (List.cons.inj hsplit).1
  exact ⟨rfl, (List.cons.inj (append_cancel_left h)).2⟩

theorem mem_of_prefix_append {u d : Str} (hu : u ≠ []) (h : d <+: u ++ d) : ∀ c ∈ d, c ∈ u := by
  obtain ⟨n, hn⟩ : ∃ n, d.length = n := ⟨_, rfl⟩
  induction n using Nat.strongRecOn generalizing d with
  | _ n ih =>
    obtain hle | hlt := Nat.lt_or_ge u.length d.length
    · obtain ⟨d', rfl⟩ := prefix_of_prefix_length_le (prefix_append u d) h (by omega)
      have hpos := length_pos_of_ne_nil hu
      have hshort : d'.length < n := by
        rw [← hn, length_append]
        omega
      intro c hc
      obtain hc | hc := mem_append.mp hc
      · exact hc
      · exact ih _ hshort ((prefix_append_right_inj u).mp h) rfl c hc
    · exact (prefix_of_prefix_length_le h (prefix_append u d) hlt).subset

theorem comma_notMem_of_spaces {w : Str} (hw : ∀ c ∈ w, isWhitespace c = true) : ',' ∉ w :=
  fun h => absurd (hw ',' h) (by decide)

/-- White space around a text in front of a comma is the same as one space in front of it only if
the whole text is. -/
theorem spaces_inj {w d w' : Str} (hw : ∀ c ∈ w, isWhitespace c = true)
    (hw' : ∀ c ∈ w', isWhitespace c = true)
    (h : w ++ d ++ w' ++ ',' :: x = ' ' :: (d ++ ',' :: y)) :
    w ++ d ++ w' = ' ' :: d ∧ x = y := by
  have hcomma := comma_notMem_of_spaces hw
  have hcomma' := comma_notMem_of_spaces hw'
  cases w with
  | nil =>
    -- the text is moved by one place, so it is made of spaces
    have hfront : d <+: ' ' :: (d ++ ',' :: y) := by
      rw [← h, nil_append, append_assoc]
      exact prefix_append _ _
    have hmoved : d <+: [' '] ++ d :=
      prefix_of_prefix_length_le hfront ⟨',' :: y, by simp⟩ (by simp)
    have hspaces : ',' ∉ d := fun hmem => absurd
      (mem_singleton.mp (mem_of_prefix_append (by simp) hmoved ',' hmem)) (by decide)
    exact append_comma_inj (b := ' ' :: d) (by simp [hspaces, hcomma']) (by simp [hspaces]) h
  | cons c u =>
    obtain rfl : c = ' ' := (List.cons.inj h).1
    have hrest : u ++ d ++ w' ++ ',' :: x = d ++ ',' :: y := (List.cons.inj h).2
    cases u with
    | nil =>
      rw [nil_append, append_assoc] at hrest
      have hspace := append_cancel_left hrest
      obtain ⟨rfl, rfl⟩ := append_comma_inj (a := w') (b := []) hcomma' not_mem_nil hspace
      exact ⟨by simp, rfl⟩
    | cons c u =>
      have hfront : d <+: c :: u ++ d ++ w' ++ ',' :: x := by
        rw [hrest]
        exact prefix_append _ _
      have hmoved : d <+: c :: u ++ d :=
        prefix_of_prefix_length_le hfront ⟨w' ++ ',' :: x, by simp⟩
          (by rw [length_append]; omega)
      have hspaces : ',' ∉ d := fun hmem =>
        hcomma (mem_cons_of_mem _ (mem_of_prefix_append (by simp) hmoved ',' hmem))
      have hu : ',' ∉ c :: u := fun hmem => hcomma (mem_cons_of_mem _ hmem)
      have heq := (append_comma_inj (a := c :: u ++ d ++ w') (b := d)
        (by
          rw [mem_append, mem_append, not_or, not_or]
          exact ⟨⟨hu, hspaces⟩, hcomma'⟩) hspaces hrest).1
      have hlen := congrArg List.length heq
      simp only [length_append, length_cons] at hlen
      omega

theorem value_of_isSpace {us : List LitChar} (h : ∀ u ∈ us, isSpace u = true) :
    ∀ c ∈ litValue us, isWhitespace c = true := by
  intro c hc
  obtain ⟨u, hu, rfl⟩ := mem_map.mp hc
  have hspace := h u hu
  cases u with
  | plain c hc => exact hspace
  | escaped escape c hc => cases hspace

theorem trimLitEnd_append (us : List LitChar) :
    ∃ w, us = trimLitEnd us ++ w ∧ ∀ u ∈ w, isSpace u = true := by
  induction us using List.reverseRecOn with
  | nil => exact ⟨[], rfl, nofun⟩
  | append_singleton us u ih =>
    unfold trimLitEnd
    cases hu : isSpace u with
    | true =>
      obtain ⟨w, hw, hspaces⟩ := ih
      rw [rdropWhile_concat_pos _ _ _ hu]
      refine ⟨w ++ [u], ?_, fun v hv => ?_⟩
      · rw [← append_assoc]
        exact congrArg (· ++ [u]) hw
      · obtain hv | hv := mem_append.mp hv
        · exact hspaces v hv
        · rwa [mem_singleton.mp hv]
    | false =>
      rw [rdropWhile_concat_neg _ _ _ (by rw [hu]; nofun)]
      exact ⟨[], (append_nil _).symm, nofun⟩

theorem trimLit_append (us : List LitChar) :
    ∃ w w', us = w ++ trimLit us ++ w' ∧ (∀ u ∈ w, isSpace u = true) ∧
      ∀ u ∈ w', isSpace u = true := by
  obtain ⟨w', hend, hspaces'⟩ := trimLitEnd_append (trimLitStart us)
  refine ⟨us.takeWhile isSpace, w', ?_, fun u hu => mem_takeWhile_imp hu, hspaces'⟩
  rw [append_assoc]
  show us = us.takeWhile isSpace ++ (trimLitEnd (trimLitStart us) ++ w')
  rw [← hend]
  exact (takeWhile_append_dropWhile).symm

theorem piece_inj {p : List LitChar}
    (h : litValue p ++ ',' :: x = ' ' :: (litValue (trimLit p) ++ ',' :: y)) :
    litValue p = ' ' :: litValue (trimLit p) ∧ x = y := by
  obtain ⟨w, w', hp, hw, hw'⟩ := trimLit_append p
  have hvalue : litValue p = litValue w ++ litValue (trimLit p) ++ litValue w' := by
    rw [← litValue_append, ← litValue_append, ← hp]
  rw [hvalue] at h
  rw [hvalue]
  exact spaces_inj (value_of_isSpace hw) (value_of_isSpace hw') h

theorem blank_ne {p : List LitChar} (hblank : trimLit p = []) :
    litValue p ++ ',' :: x ≠ ' ' :: (litValue p ++ ',' :: y) := by
  intro h
  obtain ⟨w, w', hp, hw, hw'⟩ := trimLit_append p
  have hspaces : ∀ c ∈ litValue p, isWhitespace c = true := by
    rw [hp, hblank, append_nil]
    apply value_of_isSpace
    intro u hu
    obtain hu | hu := mem_append.mp hu
    · exact hw u hu
    · exact hw' u hu
  have hcomma := comma_notMem_of_spaces hspaces
  have hlen := congrArg List.length
    (append_comma_inj (b := ' ' :: litValue p) hcomma (by simp [hcomma]) h).1
  simp at hlen

theorem first_inj {p : List LitChar}
    (h : litValue p ++ ',' :: x = litValue (trimLitEnd p) ++ ',' :: y) :
    trimLitEnd p = p ∧ x = y := by
  obtain ⟨w, hp, hw⟩ := trimLitEnd_append p
  have hvalue : litValue p = litValue (trimLitEnd p) ++ litValue w := by
    rw [← litValue_append, ← hp]
  rw [hvalue, append_assoc] at h
  obtain ⟨hnil, hxy⟩ := append_comma_inj (b := [])
    (comma_notMem_of_spaces (value_of_isSpace hw)) not_mem_nil (append_cancel_left h)
  obtain rfl := map_eq_nil_iff.mp hnil
  rw [append_nil] at hp
  exact ⟨hp.symm, hxy⟩

theorem trimLitEnd_eq_of_value {p : List LitChar} (h : litValue p = litValue (trimLitEnd p)) :
    trimLitEnd p = p := by
  obtain ⟨w, hp, -⟩ := trimLitEnd_append p
  have hlen : p.length = (trimLitEnd p).length := by
    have hvalue := congrArg List.length h
    rwa [litValue, litValue, List.length_map, List.length_map] at hvalue
  have hsum : p.length = (trimLitEnd p).length + w.length := by
    rw [← length_append, ← hp]
  have hnil : w = [] := eq_nil_of_length_eq_zero (by omega)
  rw [hnil, append_nil] at hp
  exact hp.symm

end Values

section Continues

variable {R T Z V : Str} {K : Prop} {p : List LitChar}

def commaChar : LitChar := .plain ',' (by decide)

def spaceChar : LitChar := .plain ' ' (by decide)

/-- What follows a literal that ends at a quote of the repair: no comma comes before the next
quote. -/
def Broken (s : Str) : Prop :=
  ∃ c q s', s = c :: (q ++ '"' :: s') ∧ isWs c = false ∧ ',' ∉ c :: q

/-- Behind a comma of a literal, the repaired text `R` in front of `T` goes on with the value `V`
and ends the literal in front of `Z` exactly if `K`. -/
def Continues (R T Z V : Str) (K : Prop) : Prop :=
  ∃ c rest, repaired R ++ T = litText c ++ '"' :: rest ∧ (' ' :: litValue c = V ↔ K) ∧
    (K → rest = Z ∧ changed R = false) ∧ (rest = Z ∨ Broken rest)

theorem comma_notMem_litText (h : ∀ u ∈ p, isComma u = false) : ',' ∉ litText p := by
  intro hmem
  obtain ⟨u, hu, hc⟩ := mem_flatMap.mp hmem
  cases u with
  | plain c hp =>
    have hchar : ',' = c := mem_singleton.mp hc
    have hcomma : decide (c = ',') = false := h _ hu
    exact of_decide_eq_false hcomma hchar.symm
  | escaped escape c hescape => exact (escaped_clean hescape _ hc).1 rfl

theorem litText_ne_nil {us : List LitChar} (h : us ≠ []) : litText us ≠ [] := by
  cases us with
  | nil => exact absurd rfl h
  | cons u us =>
    rw [litText_cons]
    exact fun h => text_ne_nil u (append_eq_nil_iff.mp h).1

theorem repairPart_litText (p : List LitChar) : repairPart (litText p) =
    if trimLit p = [] then (litText p, false)
    else if quotable (litText (trimLit p)) = true then ('"' :: (litText (trimLit p) ++ ['"']), true)
    else (litText (trimLit p), false) := by
  by_cases hnil : trimLit p = []
  · rw [if_pos hnil]
    unfold repairPart
    rw [trim_litText, hnil]
    rfl
  · have hne := litText_ne_nil hnil
    rw [if_neg hnil, repairPart_of_trim (by rwa [trim_litText]), trim_litText]

theorem isWs_of_isWhitespace {c : Char} (h : isWhitespace c = false) : isWs c = false := by
  rw [Bool.eq_false_iff]
  intro hc
  rw [isWhitespace_of_isWs hc] at h
  cases h

theorem broken_piece (h : ∀ u ∈ p, isComma u = false) (hne : trimLit p ≠ []) (s : Str) :
    Broken (litText (trimLit p) ++ '"' :: s) := by
  obtain ⟨w, w', hp, -, -⟩ := trimLit_append p
  have hcomma : ',' ∉ litText (trimLit p) := by
    apply comma_notMem_litText
    intro u hu
    apply h
    rw [hp]
    exact mem_append_left _ (mem_append_right _ hu)
  cases htext : litText (trimLit p) with
  | nil => exact absurd htext (litText_ne_nil hne)
  | cons c q =>
    have hfirst : trim (litText p) = c :: q := by rw [trim_litText, htext]
    rw [htext] at hcomma
    exact ⟨c, q, s, rfl, isWs_of_isWhitespace (isWhitespace_of_trim_eq_cons hfirst), hcomma⟩

theorem continues_last (h : ∀ u ∈ p, isComma u = false) (w : Ws) :
    Continues (litText p ++ '"' :: w.1) T T (litValue p)
      (litValue p = ' ' :: litValue (trimLitStart p)) := by
  have hcomma : ',' ∉ litText p ++ '"' :: w.1 := by
    simp [comma_notMem_litText h, comma_notMem_of_spaces (isWhitespace_ws w)]
  refine ⟨trimLitStart p, T, ?_, eq_comm, fun _ => ⟨rfl, ?_⟩, Or.inl rfl⟩
  · rw [repaired_eq hcomma, repairPart_last, append_assoc]
    rfl
  · rw [changed_eq hcomma, repairPart_last]

theorem spaced_ne_nil (h : Spaced p) : trimLit p ≠ [] := by
  intro hnil
  have hquotable := h.1
  rw [hnil] at hquotable
  exact absurd hquotable (by decide)

theorem ne_nil_of_trimLit (h : trimLit p ≠ []) : p ≠ [] := by
  rintro rfl
  exact h rfl

theorem continues_cut (h : ∀ u ∈ p, isComma u = false) (b : LitChar) (us : List LitChar) :
    Continues (litText p) (b.text ++ (litText us ++ '"' :: Z)) Z
      (litValue p ++ b.value :: litValue us) (Spaced p) := by
  have hcomma := comma_notMem_litText h
  unfold Continues
  rw [repaired_eq hcomma, changed_eq hcomma, repairPart_litText]
  by_cases hnil : trimLit p = []
  · rw [if_pos hnil]
    refine ⟨p ++ b :: us, Z, by simp, ?_, fun hp => absurd hnil (spaced_ne_nil hp), Or.inl rfl⟩
    refine iff_of_false (fun heq => ?_) fun hp => spaced_ne_nil hp hnil
    have hlen := congrArg List.length heq
    simp at hlen
  · rw [if_neg hnil]
    by_cases hquote : quotable (litText (trimLit p)) = true
    · rw [if_pos hquote]
      have hkept : ¬Spaced p := fun hp => by rw [hp.1] at hquote; cases hquote
      refine ⟨[], litText (trimLit p) ++ '"' :: (b.text ++ (litText us ++ '"' :: Z)),
        by simp [litText], iff_of_false (fun heq => ?_) hkept, fun hp => absurd hp hkept,
        Or.inr (broken_piece h hnil _)⟩
      have hlen := congrArg List.length heq
      have hpos := length_pos_of_ne_nil (ne_nil_of_trimLit hnil)
      simp [litValue] at hlen
      omega
    · rw [if_neg hquote]
      refine ⟨trimLit p ++ b :: us, Z, by simp, ?_, fun _ => ⟨rfl, rfl⟩, Or.inl rfl⟩
      rw [litValue_append, litValue_cons]
      constructor
      · intro heq
        exact ⟨Bool.eq_false_iff.mpr hquote, (append_cancel_right heq).symm⟩
      · intro hp
        rw [hp.2]
        rfl

theorem continues_step (h : ∀ u ∈ p, isComma u = false) (hrest : Continues R T Z V K) :
    Continues (litText p ++ ',' :: R) T Z (litValue p ++ ',' :: V) (Spaced p ∧ K) := by
  obtain ⟨c, rest, htext, hvalue, hkept, hend⟩ := hrest
  have hcomma := comma_notMem_litText h
  unfold Continues
  rw [repaired_append_comma hcomma, changed_append_comma hcomma, repairPart_litText]
  by_cases hnil : trimLit p = []
  · rw [if_pos hnil]
    have hnot : ¬(Spaced p ∧ K) := fun hp => spaced_ne_nil hp.1 hnil
    refine ⟨p ++ commaChar :: spaceChar :: c, rest, ?_, iff_of_false (fun heq => ?_) hnot,
      fun hp => absurd hp hnot, hend⟩
    · simp only [litText_append, litText_cons, append_assoc, cons_append, htext]
      rfl
    · rw [litValue_append] at heq
      exact blank_ne hnil heq.symm
  · rw [if_neg hnil]
    by_cases hquote : quotable (litText (trimLit p)) = true
    · rw [if_pos hquote]
      have hnot : ¬(Spaced p ∧ K) := fun hp => by rw [hp.1.1] at hquote; cases hquote
      refine ⟨[], litText (trimLit p) ++ '"' :: (',' :: ' ' :: repaired R ++ T), by simp [litText],
        iff_of_false (fun heq => ?_) hnot, fun hp => absurd hp hnot,
        Or.inr (broken_piece h hnil _)⟩
      have hlen := congrArg List.length heq
      have hpos := length_pos_of_ne_nil (ne_nil_of_trimLit hnil)
      simp [litValue] at hlen
      omega
    · rw [if_neg hquote]
      refine ⟨trimLit p ++ commaChar :: spaceChar :: c, rest, ?_, ?_, fun hp => hkept hp.2, hend⟩
      · simp only [litText_append, litText_cons, append_assoc, cons_append, htext]
        rfl
      · rw [litValue_append]
        constructor
        · intro heq
          obtain ⟨hpiece, hV⟩ := piece_inj heq.symm
          exact ⟨⟨Bool.eq_false_iff.mpr hquote, hpiece⟩, hvalue.mp hV.symm⟩
        · intro hp
          rw [hp.1.2, ← hvalue.mpr hp.2]
          rfl

end Continues

end CrabMate.ArgsRepair
