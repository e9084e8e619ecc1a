import CrabMate.Tools.ArgsRepairLiterals

/-! Where the repair takes the array to end, and how the elements are read behind each other. -/
namespace CrabMate.ArgsRepair
open RustStr JsonText List

section Scan

variable {depth d : ℕ} {us before after : List LitChar} {u : LitChar}

theorem scanClose_open (depth : ℕ) (s : Str) :
    scanClose depth ('[' :: s) = (scanClose (depth + 1) s).map fun r => ('[' :: r.1, r.2) := rfl

theorem scanClose_close (depth : ℕ) (s : Str) : scanClose depth (']' :: s) =
    if depth ≤ 1 then some ([], s)
    else (scanClose (depth - 1) s).map fun r => (']' :: r.1, r.2) := rfl

theorem scanClose_append {a : Str} (ha : ∀ c ∈ a, c ≠ '[' ∧ c ≠ ']') (depth : ℕ) (s : Str) :
    scanClose depth (a ++ s) = (scanClose depth s).map fun r => (a ++ r.1, r.2) := by
  induction a with
  | nil => simp
  | cons c a ih =>
    obtain ⟨hopen, hclose⟩ := ha c mem_cons_self
    show scanClose depth (c :: (a ++ s)) = _
    rw [scanClose, ih fun c hc => ha c (mem_cons_of_mem _ hc), Option.map_map]
    · rfl
    · exact hopen
    · exact hclose

theorem scanClose_eq_none {a : Str} (ha : ∀ c ∈ a, c ≠ '[' ∧ c ≠ ']') (depth : ℕ) :
    scanClose depth a = none := by
  have h := scanClose_append ha depth []
  rw [append_nil] at h
  exact h.trans rfl

theorem ws_no_brackets (w : Ws) : ∀ c ∈ w.1, c ≠ '[' ∧ c ≠ ']' := by
  intro c hc
  have hws := w.2 c hc
  constructor
  · rintro rfl
    exact absurd hws (by decide)
  · rintro rfl
    exact absurd hws (by decide)

theorem text_no_brackets (hopen : u.text ≠ ['[']) (hclose : u.text ≠ [']']) :
    ∀ c ∈ u.text, c ≠ '[' ∧ c ≠ ']' := by
  cases u with
  | plain c hc =>
    intro x hx
    obtain rfl := mem_singleton.mp hx
    exact ⟨fun h => hopen (congrArg (fun c => [c]) h), fun h => hclose (congrArg (fun c => [c]) h)⟩
  | escaped escape c hc =>
    intro x hx
    obtain ⟨-, hx, hx', -⟩ := escaped_clean hc x hx
    exact ⟨hx, hx'⟩

theorem push_still {b : Brackets} (h : b.push u = .still d) : b = .still d := by
  cases b with
  | still depth => exact h
  | cut before after => cases h

theorem push_cut {b : Brackets} (h : b.push u = .cut before after) :
    ∃ before', before = u :: before' ∧ b = .cut before' after := by
  cases b with
  | still depth => cases h
  | cut before' after' =>
    obtain ⟨hbefore, hafter⟩ := Brackets.cut.inj h
    exact ⟨before', hbefore.symm, by rw [hafter]⟩

theorem scanClose_still (h : brackets depth us = .still d) (s : Str) :
    scanClose depth (litText us ++ s) =
      (scanClose d s).map fun r => (litText us ++ r.1, r.2) := by
  induction us generalizing depth with
  | nil =>
    obtain rfl := Brackets.still.inj h
    simp [litText]
  | cons u us ih =>
    rw [brackets] at h
    rw [litText_cons, append_assoc]
    split at h
    · rename_i hopen
      rw [hopen]
      show scanClose depth ('[' :: (litText us ++ s)) = _
      rw [scanClose_open, ih (push_still h), Option.map_map]
      rfl
    · split at h
      · rename_i hclose
        split at h
        · cases h
        · rename_i hdepth
          rw [hclose]
          show scanClose depth (']' :: (litText us ++ s)) = _
          rw [scanClose_close, if_neg hdepth, ih (push_still h), Option.map_map]
          rfl
      · rename_i hopen hclose
        rw [scanClose_append (text_no_brackets hopen hclose), ih (push_still h), Option.map_map]
        simp [Function.comp_def]

/-- A literal that has the bracket which is taken to close the array. -/
theorem scanClose_cut (h : brackets depth us = .cut before after) (s : Str) :
    scanClose depth (litText us ++ s) = some (litText before, litText after ++ s) := by
  induction us generalizing depth before with
  | nil => cases h
  | cons u us ih =>
    rw [brackets] at h
    rw [litText_cons, append_assoc]
    split at h
    · rename_i hopen
      obtain ⟨before', rfl, hcut⟩ := push_cut h
      rw [hopen]
      show scanClose depth ('[' :: (litText us ++ s)) = _
      rw [scanClose_open, ih hcut, litText_cons, hopen]
      rfl
    · split at h
      · rename_i hclose
        rw [hclose]
        show scanClose depth (']' :: (litText us ++ s)) = _
        split at h
        · rename_i hdepth
          obtain ⟨rfl, rfl⟩ := Brackets.cut.inj h
          rw [scanClose_close, if_pos hdepth]
          rfl
        · rename_i hdepth
          obtain ⟨before', rfl, hcut⟩ := push_cut h
          rw [scanClose_close, if_neg hdepth, ih hcut, litText_cons, hclose]
          rfl
      · rename_i hopen hclose
        obtain ⟨before', rfl, hcut⟩ := push_cut h
        rw [scanClose_append (text_no_brackets hopen hclose), ih hcut, litText_cons]
        rfl

theorem brackets_cut (h : brackets depth us = .cut before after) :
    ∃ b : LitChar, b.text = [']'] ∧ us = before ++ b :: after := by
  induction us generalizing depth before with
  | nil => cases h
  | cons u us ih =>
    have hpush : ∀ d, (brackets d us).push u = .cut before after →
        ∃ b : LitChar, b.text = [']'] ∧ u :: us = before ++ b :: after := by
      intro d hpushed
      obtain ⟨before', rfl, hcut⟩ := push_cut hpushed
      obtain ⟨b, hb, rfl⟩ := ih hcut
      exact ⟨b, hb, rfl⟩
    rw [brackets] at h
    split at h
    · exact hpush _ h
    · split at h
      · rename_i hclose
        split at h
        · obtain ⟨rfl, rfl⟩ := Brackets.cut.inj h
          exact ⟨u, hclose, rfl⟩
        · exact hpush _ h
      · exact hpush _ h

end Scan

section Elements

variable {es : List Elem} {post : Str}

/-- The elements behind the first one. -/
def tailText : List Elem → Str
  | [] => []
  | e :: es => ',' :: (e.text ++ tailText es)

theorem elemsText_cons (e : Elem) (es : List Elem) :
    elemsText (e :: es) = e.text ++ tailText es := by
  induction es generalizing e with
  | nil => exact (append_nil _).symm
  | cons e' es ih =>
    show e.text ++ ',' :: elemsText (e' :: es) = _
    rw [ih]
    rfl

def values (es : List Elem) : List JsonValue := es.map fun e => .str (String.ofList e.item.value)

/-- The elements of an array that is a field of an object. -/
abbrev readArgs (fuel : ℕ) (s : Str) : Option (List JsonValue × Str) :=
  readMore (readValue 126) fuel s

theorem readValue_literal {w : Ws} (us : List LitChar) (rest : Str) :
    readValue 126 (w.1 ++ '"' :: (litText us ++ '"' :: rest)) =
      some (.str (String.ofList (litValue us)), rest) := by
  rw [readValue_append_ws w.2, readValue_lit]

theorem bare_cons (token : Bare) : ∃ c t, token.text = c :: t ∧ c ≠ '"' ∧ c ≠ '[' ∧ c ≠ ']' ∧
    isWs c = false := by
  obtain ⟨c, t, htext⟩ := exists_cons_of_ne_nil token.ne_nil
  have hfree := token.free c (by rw [htext]; exact mem_cons_self)
  exact ⟨c, t, htext, hfree.1, hfree.2.2.1, hfree.2.2.2.1,
    isWs_of_isWhitespace hfree.2.2.2.2⟩

theorem readValue_bare {w : Str} (hw : ∀ c ∈ w, isWs c) (token : Bare) (s : Str) (v : String)
    (r : Str) : readValue 126 (w ++ (token.text ++ s)) ≠ some (.str v, r) := by
  intro h
  rw [readValue_append_ws hw] at h
  obtain ⟨c, t, htext, hquote, -, -, hws⟩ := bare_cons token
  rw [htext] at h
  exact hquote (quote_of_readValue_str h (skipWs_cons hws _))

/-- The text behind an element starts with a comma or with the end of the array. -/
def Follows (T : Str) : Prop :=
  ∃ w c t, T = w ++ c :: t ∧ (∀ x ∈ w, isWs x) ∧ (c = ',' ∨ c = ']')

variable {T : Str}

theorem Follows.skipWs (hT : Follows T) : ∃ c t, skipWs T = c :: t ∧ (c = ',' ∨ c = ']') := by
  obtain ⟨w, c, t, rfl, hw, hc⟩ := hT
  have hws : isWs c = false := by
    obtain rfl | rfl := hc
    · decide
    · decide
  exact ⟨c, t, by rw [skipWs_append hw, skipWs_cons hws], hc⟩

theorem Follows.dropWhile (hT : Follows T) : T.dropWhile isScalarChar = T := by
  obtain ⟨w, c, t, rfl, hw, hc⟩ := hT
  cases w with
  | nil =>
    obtain rfl | rfl := hc
    · rfl
    · rfl
  | cons d w =>
    have hd := hw d mem_cons_self
    simp only [isWs, Bool.or_eq_true, decide_eq_true_eq] at hd
    obtain ((rfl | rfl) | rfl) | rfl := hd
    all_goals rfl

/-- A value that is read from an argument without quotes is the whole argument, or the reader is
stuck behind it. -/
theorem readValue_bare_rest {w r : Str} {v : JsonValue} (hw : ∀ c ∈ w, isWs c) (token : Bare)
    (hT : Follows T) (h : readValue 126 (w ++ (token.text ++ T)) = some (v, r)) :
    r = T ∨ ∃ c t, r = c :: t ∧ isWs c = false ∧ c ≠ ',' ∧ c ≠ ']' := by
  have hsuffix : ∀ t, t <:+ token.text → r = t ++ T →
      r = T ∨ ∃ c t, r = c :: t ∧ isWs c = false ∧ c ≠ ',' ∧ c ≠ ']' := by
    intro t ht hr
    cases t with
    | nil => exact Or.inl hr
    | cons c t =>
      have hfree := token.free c (ht.subset mem_cons_self)
      exact Or.inr ⟨c, t ++ T, hr, isWs_of_isWhitespace hfree.2.2.2.2, hfree.2.1, hfree.2.2.2.1⟩
  rw [readValue_append_ws hw] at h
  obtain ⟨c, t, htext, hquote, hopen, -, hws⟩ := bare_cons token
  unfold readValue at h
  rw [htext, cons_append, skipWs_cons hws] at h
  split at h
  · rename_i heq
    exact absurd (List.cons.inj heq).1 hquote
  · rename_i heq
    exact absurd (List.cons.inj heq).1 hopen
  · -- an object can only be empty, as its keys would be quoted
    rename_i heq
    obtain ⟨rfl, rfl⟩ := List.cons.inj heq
    have hskip : ∃ d s, skipWs (t ++ T) = d :: s ∧ d ≠ '"' ∧
        (d = '}' → ∃ t', t = d :: t' ∧ s = t' ++ T) := by
      cases t with
      | nil =>
        obtain ⟨d, s, hd, hcases⟩ := hT.skipWs
        refine ⟨d, s, hd, ?_, ?_⟩
        · obtain rfl | rfl := hcases
          · decide
          · decide
        · rintro rfl
          obtain hd | hd := hcases
          · cases hd
          · cases hd
      | cons d t' =>
        have hfree := token.free d (by rw [htext]; simp)
        exact ⟨d, t' ++ T, skipWs_cons (isWs_of_isWhitespace hfree.2.2.2.2) _, hfree.1,
          fun _ => ⟨t', rfl, rfl⟩⟩
    obtain ⟨d, s, hskip, hd, hbrace⟩ := hskip
    rw [hskip] at h
    split at h
    · rename_i heq
      obtain ⟨rfl, rfl⟩ := List.cons.inj heq
      obtain ⟨t', rfl, hs⟩ := hbrace rfl
      have hr : s = r := (Prod.mk.inj (Option.some.inj h)).2
      exact hsuffix t' (by rw [htext]; exact ⟨['{', '}'], rfl⟩) (hr.symm.trans hs)
    · obtain ⟨fs, hfields, -⟩ := Option.map_eq_some_iff.mp h
      cases hlen : (t ++ T).length with
      | zero =>
        rw [hlen] at hfields
        cases hfields
      | succ n =>
        rw [hlen, readFields, hskip] at hfields
        split at hfields
        · rename_i heq
          exact absurd (List.cons.inj heq).1 hd
        · cases hfields
  · have hrest := readScalar_rest h
    rw [← cons_append, ← htext, dropWhile_append, hT.dropWhile] at hrest
    split at hrest
    · exact Or.inl hrest
    · exact hsuffix _ (dropWhile_suffix _) hrest

/-- No comma follows. -/
def Ends (r : Str) : Prop := ∀ t, skipWs r ≠ ',' :: t

theorem ends_of_broken {s r : Str} {fuel : ℕ} {vs : List JsonValue} (hs : Broken s)
    (h : readArgs fuel s = some (vs, r)) : Ends r := by
  obtain ⟨c, q, s', rfl, hws, hcomma⟩ := hs
  rw [mem_cons, not_or] at hcomma
  obtain rfl | ⟨-, rfl⟩ := readMore_inv hws h
  · exact absurd rfl hcomma.1
  · intro t ht
    rw [JsonText.skipWs, dropWhile_append] at ht
    split at ht
    · cases ht
    · rename_i hne
      cases hq : q.dropWhile isWs with
      | nil => exact hne (by rw [hq]; rfl)
      | cons d t' =>
        rw [hq] at ht
        obtain rfl : d = ',' := (List.cons.inj ht).1
        exact hcomma.2 ((dropWhile_suffix isWs).subset (by rw [hq]; exact mem_cons_self))

/-- An argument without quotes and the elements behind it. -/
theorem ends_of_bare {w r r' : Str} {v : JsonValue} {vs : List JsonValue} {fuel : ℕ}
    (hw : ∀ c ∈ w, isWs c) (token : Bare) (hT : Follows T)
    (hread : readValue 126 (w ++ (token.text ++ T)) = some (v, r'))
    (hmore : readArgs fuel r' = some (vs, r))
    (hrest : readArgs fuel T = some (vs, r) → Ends r) : Ends r := by
  obtain rfl | ⟨c, t, rfl, hws, hcomma, hclose⟩ := readValue_bare_rest hw token hT hread
  · exact hrest hmore
  · obtain hc | ⟨hc, -⟩ := readMore_inv hws hmore
    · exact absurd hc hcomma
    · exact absurd hc hclose

theorem tailText_lit (before after : Ws) (us : List LitChar) (es : List Elem) (post : Str) :
    tailText (⟨before, .lit us, after⟩ :: es) ++ ']' :: post =
      ',' :: (before.1 ++ '"' :: (litText us ++ '"' ::
        (after.1 ++ (tailText es ++ ']' :: post)))) := by
  simp [tailText, Elem.text, Item.text]

theorem tailText_bare (before after : Ws) (token : Bare) (es : List Elem) (post : Str) :
    tailText (⟨before, .bare token, after⟩ :: es) ++ ']' :: post =
      ',' :: (before.1 ++ (token.text ++ (after.1 ++ (tailText es ++ ']' :: post)))) := by
  simp [tailText, Elem.text, Item.text]

/-- Elements that are left as they are written are read if all have quotes. -/
theorem readArgs_tailText (h : ∀ e ∈ es, e.item.isBare = false) {fuel : ℕ}
    (hfuel : es.length ≤ fuel) :
    readArgs fuel (tailText es ++ ']' :: post) = some (values es, post) := by
  induction es generalizing fuel with
  | nil => rfl
  | cons e es ih =>
    obtain ⟨before, item, after⟩ := e
    cases item with
    | bare token => exact absurd (h _ mem_cons_self) (by simp [Item.isBare])
    | lit us =>
      cases fuel with
      | zero => cases hfuel
      | succ fuel =>
        have hrest := ih (fun e he => h e (mem_cons_of_mem _ he))
          (Nat.le_of_succ_le_succ hfuel)
        rw [tailText_lit, readArgs, readMore_comma (readValue_literal us _),
          readMore_append_ws after.2]
        show Option.map _ (readArgs fuel (tailText es ++ ']' :: post)) = _
        rw [hrest]
        rfl

theorem isBare_of_readArgs {fuel : ℕ} {r : Str}
    (h : readArgs fuel (tailText es ++ ']' :: post) = some (values es, r)) :
    ∀ e ∈ es, e.item.isBare = false := by
  induction es generalizing fuel with
  | nil => nofun
  | cons e es ih =>
    obtain ⟨before, item, after⟩ := e
    cases item with
    | bare token =>
      rw [tailText_bare] at h
      obtain ⟨-, v, vs', r', heq, hread, -⟩ := readMore_comma_inv h
      rw [← (List.cons.inj heq).1] at hread
      exact absurd hread (readValue_bare before.2 token _ _ _)
    | lit us =>
      rw [tailText_lit] at h
      obtain ⟨fuel', v, vs', r', heq, hread, hmore⟩ := readMore_comma_inv h
      rw [readValue_literal] at hread
      obtain rfl := (Prod.mk.inj (Option.some.inj hread)).2
      rw [readMore_append_ws after.2, ← (List.cons.inj heq).2] at hmore
      intro e he
      obtain rfl | he := mem_cons.mp he
      · rfl
      · exact ih hmore e he

theorem follows_tailText (w : Ws) (es : List Elem) (post : Str) :
    Follows (w.1 ++ (tailText es ++ ']' :: post)) := by
  cases es with
  | nil => exact ⟨w.1, ']', post, rfl, w.2, Or.inr rfl⟩
  | cons e es => exact ⟨w.1, ',', _, rfl, w.2, Or.inl rfl⟩

theorem ends_tailText (hpost : Ends post) {fuel : ℕ} {vs : List JsonValue} {r : Str}
    (h : readArgs fuel (tailText es ++ ']' :: post) = some (vs, r)) : Ends r := by
  induction es generalizing fuel vs with
  | nil =>
    obtain ⟨-, rfl⟩ := Prod.mk.inj (Option.some.inj h)
    exact hpost
  | cons e es ih =>
    obtain ⟨before, item, after⟩ := e
    cases item with
    | bare token =>
      rw [tailText_bare] at h
      obtain ⟨fuel', v, vs', r', -, hread, hmore⟩ := readMore_comma_inv h
      refine ends_of_bare before.2 token (follows_tailText after es post) hread hmore fun h => ?_
      rw [readArgs, readMore_append_ws after.2] at h
      exact ih h
    | lit us =>
      rw [tailText_lit] at h
      obtain ⟨fuel', v, vs', r', -, hread, hmore⟩ := readMore_comma_inv h
      rw [readValue_literal] at hread
      obtain rfl := (Prod.mk.inj (Option.some.inj hread)).2
      rw [readMore_append_ws after.2] at hmore
      exact ih hmore

theorem text_pos (e : Elem) : 1 ≤ e.text.length := by
  obtain ⟨before, item, after⟩ := e
  cases item with
  | lit us => simp [Elem.text, Item.text]; omega
  | bare token =>
    have hpos := length_pos_of_ne_nil token.ne_nil
    simp [Elem.text, Item.text]
    omega

theorem length_tailText (es : List Elem) : 2 * es.length ≤ (tailText es).length := by
  induction es with
  | nil => exact Nat.le_refl 0
  | cons e es ih =>
    have hpos := text_pos e
    rw [tailText, length_cons, length_cons, length_append]
    omega

end Elements

end CrabMate.ArgsRepair
