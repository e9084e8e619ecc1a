import CrabMate.Tools.ArgsRepairScan

/-! The elements of the array behind each other: which of them come out of the repair as meant. -/
namespace CrabMate.ArgsRepair
open RustStr JsonText List

section Joined

variable {x : Str}

theorem split_at_comma (h : ',' ∈ x) : ∃ a b, x = a ++ ',' :: b ∧ ',' ∉ a := by
  obtain ⟨a, b, hx, ha⟩ := eq_append_cons_of_mem h
  exact ⟨a, b, hx, ha⟩

theorem repaired_append (x y : Str) :
    repaired (x ++ ',' :: y) = repaired x ++ ',' :: ' ' :: repaired y ∧
      changed (x ++ ',' :: y) = (changed x || changed y) := by
  obtain ⟨n, hn⟩ : ∃ n, x.length = n := ⟨_, rfl⟩
  induction n using Nat.strongRecOn generalizing x with
  | _ n ih =>
    by_cases hcomma : ',' ∈ x
    · obtain ⟨a, b, rfl, ha⟩ := split_at_comma hcomma
      have hshort : b.length < n := by
        rw [← hn, length_append, length_cons]
        omega
      obtain ⟨hrepaired, hchanged⟩ := ih _ hshort b rfl
      rw [append_assoc, cons_append, repaired_append_comma ha, changed_append_comma ha,
        hrepaired, hchanged, repaired_append_comma ha, changed_append_comma ha]
      simp [Bool.or_assoc]
    · rw [repaired_append_comma hcomma, changed_append_comma hcomma, repaired_eq hcomma,
        changed_eq hcomma]
      exact ⟨rfl, rfl⟩

/-- The text `R` behind an element becomes `Y`, and `b` says whether something in it is quoted. -/
def Appends (R Y : Str) (b : Bool) : Prop :=
  ∀ x, repaired (x ++ R) = repaired x ++ Y ∧ changed (x ++ R) = (changed x || b)

theorem appends_nil : Appends [] [] false := by
  intro x
  simp

theorem appends_comma (R : Str) : Appends (',' :: R) (',' :: ' ' :: repaired R) (changed R) :=
  fun x => repaired_append x R

theorem Appends.comma {R Y : Str} {b : Bool} (h : Appends R Y b) (x : Str) :
    Appends (',' :: (x ++ R)) (',' :: ' ' :: (repaired x ++ Y)) (changed x || b) := by
  have hcomma := appends_comma (x ++ R)
  rwa [(h x).1, (h x).2] at hcomma

end Joined

section Outcome

variable {e : Elem} {es : List Elem} {post rest Y : Str} {b : Bool} {K : Prop}

/-- What is read of the elements `es` from the repaired text `Y` and the text `rest` behind it: they
come out as meant exactly if `K`. -/
structure Outcome (es : List Elem) (K : Prop) (post rest Y : Str) (b : Bool) : Prop where
  size : 2 * es.length ≤ Y.length + rest.length
  quoted : K → (b = true ↔ ∃ e ∈ es, e.item.isBare = true)
  kept : K → ∀ fuel, es.length ≤ fuel →
    readArgs fuel (Y ++ ']' :: rest) = some (values es, post)
  read : ∀ fuel r, readArgs fuel (Y ++ ']' :: rest) = some (values es, r) → K
  follows : Follows (Y ++ ']' :: rest)
  first : es ≠ [] → ∃ c t, Y ++ ']' :: rest = ',' :: ' ' :: c :: t ∧ isWs c = false ∧ c ≠ ']'
  ends : ∀ fuel vs r, readArgs fuel (Y ++ ']' :: rest) = some (vs, r) → Ends r

theorem readValue_space (s : Str) : readValue 126 (' ' :: s) = readValue 126 s :=
  readValue_append_ws (w := [' ']) (forall_mem_singleton.mpr (by decide)) 126 s

/-- An element that is quoted in the repaired text. -/
theorem Outcome.cons {Ke : Prop} {c : List LitChar} {s : Str}
    (hread : repaired e.text ++ (Y ++ ']' :: rest) = '"' :: (litText c ++ '"' :: s))
    (hvalue : litValue c = e.item.value ↔ Ke)
    (hkept : Ke → s = Y ++ ']' :: rest ∧ changed e.text = e.item.isBare)
    (hend : s = Y ++ ']' :: rest ∨ Broken s) (h : Outcome es K post rest Y b) :
    Outcome (e :: es) (Ke ∧ K) post rest (',' :: ' ' :: (repaired e.text ++ Y))
      (changed e.text || b) := by
  have hfirst : readValue 126 (' ' :: (repaired e.text ++ (Y ++ ']' :: rest))) =
      some (.str (String.ofList (litValue c)), s) := by
    rw [readValue_space, hread, readValue_lit]
  have htext : ',' :: ' ' :: (repaired e.text ++ Y) ++ ']' :: rest =
      ',' :: ' ' :: (repaired e.text ++ (Y ++ ']' :: rest)) := by simp
  constructor
  · have hsize := h.size
    simp only [length_cons, length_append]
    omega
  · intro hK
    rw [Bool.or_eq_true, h.quoted hK.2, (hkept hK.1).2, exists_mem_cons_iff]
  · intro hK fuel hfuel
    cases fuel with
    | zero => cases hfuel
    | succ fuel =>
      have hrest := h.kept hK.2 fuel (Nat.le_of_succ_le_succ hfuel)
      rw [htext, readArgs, readMore_comma hfirst, (hkept hK.1).1]
      show Option.map _ (readArgs fuel (Y ++ ']' :: rest)) = _
      rw [hrest, hvalue.mpr hK.1]
      rfl
  · intro fuel r hmore
    rw [htext] at hmore
    obtain ⟨fuel', v, vs', r', heq, hvalue', hmore⟩ := readMore_comma_inv hmore
    rw [hfirst] at hvalue'
    obtain ⟨rfl, rfl⟩ := Prod.mk.inj (Option.some.inj hvalue')
    obtain ⟨hstr, hvs⟩ := List.cons.inj heq
    have hKe : Ke := hvalue.mp (String.ofList_injective (JsonValue.str.inj hstr)).symm
    rw [(hkept hKe).1, ← hvs] at hmore
    exact ⟨hKe, h.read fuel' r hmore⟩
  · exact ⟨[], ',', _, htext, forall_mem_nil _, Or.inl rfl⟩
  · exact fun _ => ⟨'"', _, by rw [htext, hread], by decide, by decide⟩
  · intro fuel vs r hmore
    rw [htext] at hmore
    obtain ⟨fuel', v, vs', r', -, hvalue', hmore⟩ := readMore_comma_inv hmore
    rw [hfirst] at hvalue'
    obtain rfl := (Prod.mk.inj (Option.some.inj hvalue')).2
    obtain rfl | hbroken := hend
    · exact h.ends fuel' vs' r hmore
    · exact ends_of_broken hbroken hmore

end Outcome

section Tail

variable {depth : ℕ} {es : List Elem} {post : Str}

/-- What becomes of the elements when the array is scanned with `depth` open brackets. -/
def TailOutcome (depth : ℕ) (es : List Elem) (post : Str) : Prop :=
  match scanClose depth (tailText es ++ ']' :: post) with
  | none => ¬ArgsKept depth es
  | some (R, rest) => ∃ Y b, Appends R Y b ∧ Outcome es (ArgsKept depth es) post rest Y b

theorem tailOutcome_nil (hpost : ∀ c ∈ post, c ≠ '[' ∧ c ≠ ']') (hends : Ends post)
    (hdepth : 1 ≤ depth) : TailOutcome depth [] post := by
  unfold TailOutcome
  show (match scanClose depth (']' :: post) with
    | none => ¬depth = 1
    | some (R, rest) => ∃ Y b, Appends R Y b ∧ Outcome [] (depth = 1) post rest Y b)
  rw [scanClose_close]
  by_cases hle : depth ≤ 1
  · rw [if_pos hle]
    refine ⟨[], false, appends_nil, Nat.zero_le _, fun _ => ?_, fun _ fuel _ => rfl,
      fun _ _ _ => by omega, ⟨[], ']', post, rfl, nofun, Or.inr rfl⟩, fun hnil => absurd rfl hnil,
      fun fuel vs r hread => ?_⟩
    · simp
    · obtain rfl := (Prod.mk.inj (Option.some.inj hread)).2
      exact hends
  · rw [if_neg hle, scanClose_eq_none hpost]
    intro h
    omega

/-- A token that the repair puts in quotes can be read from them. -/
theorem lit_of_quotable {token : Str} (h : quotable token = true) :
    ∃ us, litText us = token ∧ litValue us = token := by
  have hall := (Bool.and_eq_true_iff.mp h).2
  clear h
  induction token with
  | nil => exact ⟨[], rfl, rfl⟩
  | cons c token ih =>
    rw [all_cons, Bool.and_eq_true] at hall
    obtain ⟨us, htext, hvalue⟩ := ih hall.2
    have hc : (¬isControl c = true ∧ ¬c = '"') ∧ ¬c = '\\' := by simpa using hall.1
    have hlow : 0x20 ≤ c.toNat := by
      by_contra hlt
      exact hc.1.1 (by simp only [isControl, Bool.or_eq_true, decide_eq_true_eq]; omega)
    refine ⟨.plain c ⟨hc.1.2, hc.2, hlow⟩ :: us, ?_, ?_⟩
    · rw [litText_cons, htext]
      rfl
    · rw [litValue_cons, hvalue]
      rfl

theorem bare_no_brackets (w w' : Ws) (token : Bare) :
    ∀ c ∈ w.1 ++ (token.text ++ w'.1), c ≠ '[' ∧ c ≠ ']' := by
  intro c hc
  rw [mem_append, mem_append] at hc
  obtain hc | hc | hc := hc
  · exact ws_no_brackets w c hc
  · have hfree := token.free c hc
    exact ⟨hfree.2.2.1, hfree.2.2.2.1⟩
  · exact ws_no_brackets w' c hc

theorem comma_notMem_bare (w w' : Ws) (token : Bare) : ',' ∉ w.1 ++ (token.text ++ w'.1) := by
  have htoken : ',' ∉ token.text := fun h => (token.free ',' h).2.1 rfl
  simp [htoken, comma_notMem_of_spaces (isWhitespace_ws w),
    comma_notMem_of_spaces (isWhitespace_ws w')]

/-- The text of an element that leaves the array open is repaired on its own. -/
theorem tailOutcome_open {e : Elem} {d : ℕ}
    (hscan : ∀ s, scanClose depth (e.text ++ s) =
      (scanClose d s).map fun r => (e.text ++ r.1, r.2))
    (htail : TailOutcome d es post)
    (hlost : ¬ArgsKept d es → ¬ArgsKept depth (e :: es))
    (hstep : ∀ rest Y b, Outcome es (ArgsKept d es) post rest Y b →
      Outcome (e :: es) (ArgsKept depth (e :: es)) post rest (',' :: ' ' :: (repaired e.text ++ Y))
        (changed e.text || b)) :
    TailOutcome depth (e :: es) post := by
  have hcomma : scanClose depth (tailText (e :: es) ++ ']' :: post) =
      (scanClose d (tailText es ++ ']' :: post)).map fun r => (',' :: (e.text ++ r.1), r.2) := by
    have happend := scanClose_append (a := [','])
      (forall_mem_singleton.mpr (by decide)) depth (e.text ++ (tailText es ++ ']' :: post))
    rw [hscan, Option.map_map] at happend
    rw [tailText, cons_append, append_assoc]
    exact happend
  unfold TailOutcome at htail ⊢
  rw [hcomma]
  cases hclose : scanClose d (tailText es ++ ']' :: post) with
  | none =>
    rw [hclose] at htail
    exact hlost htail
  | some r =>
    rw [hclose] at htail
    obtain ⟨Y, b, happends, hout⟩ := htail
    exact ⟨_, _, happends.comma e.text, hstep r.2 Y b hout⟩

theorem tailOutcome_bare (before after : Ws) (token : Bare) (htail : TailOutcome depth es post) :
    TailOutcome depth (⟨before, .bare token, after⟩ :: es) post := by
  have hkept : ArgsKept depth (⟨before, .bare token, after⟩ :: es) ↔
      quotable token.text = true ∧ ArgsKept depth es := Iff.rfl
  have hcomma := comma_notMem_bare before after token
  have hpart := repairPart_bare before after token
  refine tailOutcome_open (scanClose_append (bare_no_brackets before after token) depth) htail
    (fun hlost h => hlost h.2) fun rest Y b hout => ?_
  rw [hkept]
  by_cases hquote : quotable token.text = true
  · rw [if_pos hquote] at hpart
    obtain ⟨us, htext, hvalue⟩ := lit_of_quotable hquote
    refine hout.cons (c := us) (s := Y ++ ']' :: rest) ?_ (iff_of_true hvalue hquote)
      (fun _ => ⟨rfl, ?_⟩) (Or.inl rfl)
    · show repaired (before.1 ++ (token.text ++ after.1)) ++ _ = _
      rw [repaired_eq hcomma, hpart, htext]
      simp
    · show changed (before.1 ++ (token.text ++ after.1)) = true
      rw [changed_eq hcomma, hpart]
  · rw [if_neg hquote] at hpart
    have hrepaired : repaired (before.1 ++ (token.text ++ after.1)) = token.text := by
      rw [repaired_eq hcomma, hpart]
    have hsplit : ',' :: ' ' :: (repaired (before.1 ++ (token.text ++ after.1)) ++ Y) ++
        ']' :: rest = ',' :: ([' '] ++ (token.text ++ (Y ++ ']' :: rest))) := by
      rw [hrepaired]
      simp
    refine ⟨?_, fun h => absurd h.1 hquote, fun h => absurd h.1 hquote, fun fuel r hread => ?_,
      ⟨[], ',', _, hsplit, forall_mem_nil _, Or.inl rfl⟩, fun _ => ?_, fun fuel vs r hread => ?_⟩
    · have hsize := hout.size
      simp only [length_cons, length_append]
      omega
    · -- the token is left as it is and is not read as a string
      have hmore : readArgs fuel (',' :: ([' '] ++ (token.text ++ (Y ++ ']' :: rest)))) =
          some (values (⟨before, .bare token, after⟩ :: es), r) := by
        rw [← hsplit]
        exact hread
      obtain ⟨-, v, vs', r', heq, hvalue, -⟩ := readMore_comma_inv hmore
      rw [← (List.cons.inj heq).1] at hvalue
      exact absurd hvalue (readValue_bare (forall_mem_singleton.mpr (by decide)) token _ _ _)
    · obtain ⟨c, t, htext, -, -, hclose, hws⟩ := bare_cons token
      exact ⟨c, _, hsplit.trans (by rw [htext]; rfl), hws, hclose⟩
    · have hmore : readArgs fuel (',' :: ([' '] ++ (token.text ++ (Y ++ ']' :: rest)))) =
          some (vs, r) := by
        rw [← hsplit]
        exact hread
      obtain ⟨fuel', v, vs', r', -, hvalue, hmore⟩ := readMore_comma_inv hmore
      exact ends_of_bare (forall_mem_singleton.mpr (by decide)) token hout.follows hvalue hmore
        (hout.ends fuel' vs' r)

theorem tailOutcome_still (before after : Ws) {us : List LitChar} {d : ℕ}
    (hus : brackets depth us = .still d) (htail : TailOutcome d es post) :
    TailOutcome depth (⟨before, .lit us, after⟩ :: es) post := by
  have hkept : ArgsKept depth (⟨before, .lit us, after⟩ :: es) ↔ LitKept us ∧ ArgsKept d es := by
    simp only [ArgsKept, hus]
  refine tailOutcome_open (d := d) (fun s => ?_) htail (fun hlost h => hlost (hkept.mp h).2)
    fun rest Y b hout => ?_
  · have hquote : ∀ d s, scanClose d ('"' :: s) =
        (scanClose d s).map fun r => ('"' :: r.1, r.2) := fun d s =>
      scanClose_append (a := ['"']) (forall_mem_singleton.mpr (by decide)) d s
    show scanClose depth (before.1 ++ ('"' :: (litText us ++ ['"']) ++ after.1) ++ s) = _
    simp only [append_assoc, cons_append, nil_append]
    rw [scanClose_append (ws_no_brackets before), hquote, scanClose_still hus, hquote,
      scanClose_append (ws_no_brackets after)]
    simp [Option.map_map, Function.comp_def, Elem.text, Item.text]
  · rw [hkept]
    obtain ⟨c, s, hread, hvalue, hs, hend⟩ := reads_literal before after us (Y ++ ']' :: rest)
    exact hout.cons hread hvalue hs hend

/-- The bracket inside the literal is taken for the end of the list. -/
theorem scanClose_tail_cut (before after : Ws) {front back : List LitChar} {b : LitChar}
    (hus : brackets depth (front ++ b :: back) = .cut front back) (post : Str) :
    scanClose depth (tailText (⟨before, .lit (front ++ b :: back), after⟩ :: es) ++ ']' :: post) =
      some (',' :: (before.1 ++ '"' :: litText front),
        litText back ++ '"' :: (after.1 ++ (tailText es ++ ']' :: post))) := by
  have hopen : ∀ c ∈ ',' :: (before.1 ++ ['"']), c ≠ '[' ∧ c ≠ ']' := by
    intro c hc
    obtain rfl | hc := mem_cons.mp hc
    · decide
    · obtain hc | hc := mem_append.mp hc
      · exact ws_no_brackets before c hc
      · rw [mem_singleton.mp hc]
        decide
  have hsplit : tailText (⟨before, .lit (front ++ b :: back), after⟩ :: es) ++ ']' :: post =
      ',' :: (before.1 ++ ['"']) ++ (litText (front ++ b :: back) ++
        '"' :: (after.1 ++ (tailText es ++ ']' :: post))) := by
    simp [tailText, Elem.text, Item.text]
  rw [hsplit, scanClose_append hopen, scanClose_cut hus]
  simp

theorem tailOutcome_cut (hends : Ends post) (before after : Ws) {us front back : List LitChar}
    (hus : brackets depth us = .cut front back) :
    TailOutcome depth (⟨before, .lit us, after⟩ :: es) post := by
  have hkept : ArgsKept depth (⟨before, .lit us, after⟩ :: es) ↔
      CutKept front ∧ ∀ e ∈ es, e.item.isBare = false := by
    simp only [ArgsKept, hus]
  obtain ⟨b, hb, rfl⟩ := brackets_cut hus
  unfold TailOutcome
  rw [scanClose_tail_cut before after hus]
  refine ⟨_, _, appends_comma _, ?_⟩
  rw [hkept]
  obtain ⟨c, s, hread, hvalue, hs, hend⟩ := reads_cut before front back b
    (after.1 ++ (tailText es ++ ']' :: post))
  have hsplit : ',' :: ' ' :: repaired (before.1 ++ '"' :: litText front) ++ ']' ::
      (litText back ++ '"' :: (after.1 ++ (tailText es ++ ']' :: post))) =
      ',' :: ' ' :: ('"' :: (litText c ++ '"' :: s)) := by
    rw [← hread, hb]
    simp
  have hfirst : readValue 126 (' ' :: '"' :: (litText c ++ '"' :: s)) =
      some (.str (String.ofList (litValue c)), s) := by
    rw [readValue_space, readValue_lit]
  have hmeant : litValue front ++ b.value :: litValue back = litValue (front ++ b :: back) := by
    rw [litValue_append, litValue_cons]
  constructor
  · have htail := length_tailText es
    simp only [length_cons, length_append]
    omega
  · intro hK
    rw [(hs hK.1).2]
    refine iff_of_false Bool.false_ne_true fun hbare => ?_
    obtain ⟨e, he, hbare⟩ := hbare
    obtain rfl | he := mem_cons.mp he
    · cases hbare
    · rw [hK.2 e he] at hbare
      cases hbare
  · intro hK fuel hfuel
    cases fuel with
    | zero => cases hfuel
    | succ fuel =>
      rw [hsplit, readArgs, readMore_comma hfirst, (hs hK.1).1, readMore_append_ws after.2]
      show Option.map _ (readArgs fuel (tailText es ++ ']' :: post)) = _
      rw [readArgs_tailText hK.2 (Nat.le_of_succ_le_succ hfuel), hvalue.mpr hK.1, hmeant]
      rfl
  · intro fuel r hmore
    rw [hsplit] at hmore
    obtain ⟨fuel', v, vs', r', heq, hvalue', hmore⟩ := readMore_comma_inv hmore
    rw [hfirst] at hvalue'
    obtain ⟨rfl, rfl⟩ := Prod.mk.inj (Option.some.inj hvalue')
    obtain ⟨hstr, hvs⟩ := List.cons.inj heq
    have hsame : litValue (front ++ b :: back) = litValue c :=
      String.ofList_injective (JsonValue.str.inj hstr)
    have hcut : CutKept front := hvalue.mp (hsame.symm.trans hmeant.symm)
    rw [(hs hcut).1, readMore_append_ws after.2, ← hvs] at hmore
    exact ⟨hcut, isBare_of_readArgs hmore⟩
  · exact ⟨[], ',', _, hsplit, forall_mem_nil _, Or.inl rfl⟩
  · exact fun _ => ⟨'"', _, hsplit, by decide, by decide⟩
  · intro fuel vs r hmore
    rw [hsplit] at hmore
    obtain ⟨fuel', v, vs', r', -, hvalue', hmore⟩ := readMore_comma_inv hmore
    rw [hfirst] at hvalue'
    obtain rfl := (Prod.mk.inj (Option.some.inj hvalue')).2
    obtain rfl | hbroken := hend
    · rw [readMore_append_ws after.2] at hmore
      exact ends_tailText hends hmore
    · exact ends_of_broken hbroken hmore

theorem brackets_pos {us : List LitChar} {d : ℕ} (hdepth : 1 ≤ depth)
    (h : brackets depth us = .still d) : 1 ≤ d := by
  induction us generalizing depth with
  | nil =>
    obtain rfl := Brackets.still.inj h
    exact hdepth
  | cons u us ih =>
    rw [brackets] at h
    split at h
    · exact ih (Nat.le_add_left 1 depth) (push_still h)
    · split at h
      · split at h
        · cases h
        · exact ih (by omega) (push_still h)
      · exact ih hdepth (push_still h)

theorem tailOutcome (hpost : ∀ c ∈ post, c ≠ '[' ∧ c ≠ ']') (hends : Ends post)
    (es : List Elem) {depth : ℕ} (hdepth : 1 ≤ depth) : TailOutcome depth es post := by
  induction es generalizing depth with
  | nil => exact tailOutcome_nil hpost hends hdepth
  | cons e es ih =>
    obtain ⟨before, item, after⟩ := e
    cases item with
    | bare token => exact tailOutcome_bare before after token (ih hdepth)
    | lit us =>
      cases hus : brackets depth us with
      | still d => exact tailOutcome_still before after hus (ih (brackets_pos hdepth hus))
      | cut front back => exact tailOutcome_cut hends before after hus

end Tail

end CrabMate.ArgsRepair
