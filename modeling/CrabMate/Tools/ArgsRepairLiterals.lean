import CrabMate.Tools.ArgsRepairPieces

/-! What the repair makes of a whole literal, or of the part of it in front of a bracket. -/
namespace CrabMate.ArgsRepair
open RustStr JsonText List

section Pieces

def restText (ps : List (List LitChar)) : Str := ps.flatMap fun p => ',' :: litText p

def restValue (ps : List (List LitChar)) : Str := ps.flatMap fun p => ',' :: litValue p

@[simp] theorem restText_cons (p : List LitChar) (ps : List (List LitChar)) :
    restText (p :: ps) = ',' :: (litText p ++ restText ps) := flatMap_cons

@[simp] theorem restValue_cons (p : List LitChar) (ps : List (List LitChar)) :
    restValue (p :: ps) = ',' :: (litValue p ++ restValue ps) := flatMap_cons

/-- The pieces contain no comma. -/
def CommaFree (ps : List (List LitChar)) : Prop := ∀ p ∈ ps, ∀ u ∈ p, isComma u = false

variable {u : LitChar}

theorem isComma_spec (h : isComma u = true) : u.text = [','] ∧ u.value = ',' := by
  cases u with
  | plain c hc =>
    obtain rfl : c = ',' := of_decide_eq_true h
    exact ⟨rfl, rfl⟩
  | escaped escape c hc => cases h

theorem pieces_cons_comma (h : isComma u = true) (us : List LitChar) :
    pieces (u :: us) = ([], (pieces us).1 :: (pieces us).2) := if_pos h

theorem pieces_cons (h : isComma u = false) (us : List LitChar) :
    pieces (u :: us) = (u :: (pieces us).1, (pieces us).2) := if_neg (Bool.eq_false_iff.mp h)

theorem commaFree_pieces (us : List LitChar) : CommaFree ((pieces us).1 :: (pieces us).2) := by
  induction us with
  | nil =>
    intro p hp
    obtain rfl := mem_singleton.mp hp
    nofun
  | cons u us ih =>
    cases hu : isComma u with
    | true =>
      rw [pieces_cons_comma hu]
      intro p hp
      obtain rfl | hp := mem_cons.mp hp
      · nofun
      · exact ih p hp
    | false =>
      rw [pieces_cons hu]
      intro p hp
      obtain rfl | hp := mem_cons.mp hp
      · intro v hv
        obtain rfl | hv := mem_cons.mp hv
        · exact hu
        · exact ih _ mem_cons_self v hv
      · exact ih p (mem_cons_of_mem _ hp)

theorem litText_pieces (us : List LitChar) :
    litText us = litText (pieces us).1 ++ restText (pieces us).2 := by
  induction us with
  | nil => rfl
  | cons u us ih =>
    cases hu : isComma u with
    | true =>
      rw [pieces_cons_comma hu, restText_cons, litText_cons, (isComma_spec hu).1, ← ih]
      rfl
    | false => rw [pieces_cons hu, litText_cons, litText_cons, append_assoc, ← ih]

theorem litValue_pieces (us : List LitChar) :
    litValue us = litValue (pieces us).1 ++ restValue (pieces us).2 := by
  induction us with
  | nil => rfl
  | cons u us ih =>
    cases hu : isComma u with
    | true =>
      rw [pieces_cons_comma hu, restValue_cons, litValue_cons, (isComma_spec hu).2, ← ih]
      rfl
    | false =>
      rw [pieces_cons hu, litValue_cons, litValue_cons, ih]
      rfl

end Pieces

section Rest

variable {p : List LitChar} {ps : List (List LitChar)}

theorem CommaFree.head (h : CommaFree (p :: ps)) : ∀ u ∈ p, isComma u = false :=
  h p mem_cons_self

theorem CommaFree.tail (h : CommaFree (p :: ps)) : CommaFree ps :=
  fun q hq => h q (mem_cons_of_mem _ hq)

theorem continues_rest (h : CommaFree (p :: ps)) (w : Ws) (T : Str) :
    Continues (litText p ++ (restText ps ++ '"' :: w.1)) T T (litValue p ++ restValue ps)
      (RestKept (p :: ps)) := by
  induction ps generalizing p with
  | nil =>
    have hlast := continues_last (T := T) h.head w
    show Continues (litText p ++ '"' :: w.1) T T (litValue p ++ []) _
    rwa [append_nil]
  | cons q ps ih =>
    have hstep := continues_step h.head (ih h.tail)
    rw [restText_cons, restValue_cons, cons_append, append_assoc]
    exact hstep

theorem continues_rest_cut (h : CommaFree (p :: ps)) (b : LitChar) (us : List LitChar) (Z : Str) :
    Continues (litText p ++ restText ps) (b.text ++ (litText us ++ '"' :: Z)) Z
      (litValue p ++ (restValue ps ++ b.value :: litValue us)) (∀ q ∈ p :: ps, Spaced q) := by
  induction ps generalizing p with
  | nil =>
    have hlast := continues_cut (Z := Z) h.head b us
    rw [show restText [] = [] from rfl, append_nil]
    simp only [forall_mem_singleton]
    exact hlast
  | cons q ps ih =>
    have hstep := continues_step h.head (ih h.tail)
    rw [restText_cons, restValue_cons]
    simp only [forall_mem_cons, cons_append, append_assoc] at hstep ⊢
    exact hstep

end Rest

section Literal

variable {R T Z V : Str} {K : Prop} {p : List LitChar}

/-- The repaired text `R` in front of `T` starts with a literal, which has the value `V` and ends in
front of `Z` exactly if `K`. -/
def Reads (R T Z V : Str) (K : Prop) : Prop :=
  ∃ c rest, repaired R ++ T = '"' :: (litText c ++ '"' :: rest) ∧ (litValue c = V ↔ K) ∧
    (K → rest = Z ∧ changed R = false) ∧ (rest = Z ∨ Broken rest)

theorem comma_notMem_first (h : ∀ u ∈ p, isComma u = false) (w : Ws) :
    ',' ∉ w.1 ++ '"' :: litText p := by
  simp [comma_notMem_litText h, comma_notMem_of_spaces (isWhitespace_ws w)]

theorem reads_first (h : ∀ u ∈ p, isComma u = false) (w : Ws) (hrest : Continues R T Z V K) :
    Reads (w.1 ++ '"' :: (litText p ++ ',' :: R)) T Z (litValue p ++ ',' :: V)
      (trimLitEnd p = p ∧ K) := by
  obtain ⟨c, rest, htext, hvalue, hkept, hend⟩ := hrest
  have hcomma := comma_notMem_first h w
  have hsplit : w.1 ++ '"' :: (litText p ++ ',' :: R) = (w.1 ++ '"' :: litText p) ++ ',' :: R := by
    rw [append_assoc]
    rfl
  unfold Reads
  rw [hsplit, repaired_append_comma hcomma, changed_append_comma hcomma, repairPart_first]
  refine ⟨trimLitEnd p ++ commaChar :: spaceChar :: c, rest, ?_, ?_, fun hp => hkept hp.2, hend⟩
  · simp only [litText_append, litText_cons, append_assoc, cons_append, htext]
    rfl
  · rw [litValue_append]
    constructor
    · intro heq
      obtain ⟨hpiece, hV⟩ := first_inj heq.symm
      exact ⟨hpiece, hvalue.mp hV.symm⟩
    · intro hp
      rw [hp.1, ← hvalue.mpr hp.2]
      rfl

/-- A literal that is an element of the array as the repair sees it. -/
theorem reads_literal (w w' : Ws) (us : List LitChar) (T : Str) :
    Reads (w.1 ++ ('"' :: (litText us ++ ['"']) ++ w'.1)) T T (litValue us) (LitKept us) := by
  have hfree := commaFree_pieces us
  have htext := litText_pieces us
  have hvalue := litValue_pieces us
  unfold LitKept
  cases hps : (pieces us).2 with
  | nil =>
    rw [hps] at hfree htext
    have hus : litText us = litText (pieces us).1 := htext.trans (append_nil _)
    have hcomma : ',' ∉ w.1 ++ ('"' :: (litText us ++ ['"']) ++ w'.1) := by
      rw [hus]
      simp [comma_notMem_litText hfree.head, comma_notMem_of_spaces (isWhitespace_ws w),
        comma_notMem_of_spaces (isWhitespace_ws w')]
    refine ⟨us, T, ?_, iff_of_true rfl (Or.inl rfl), fun _ => ⟨rfl, ?_⟩, Or.inl rfl⟩
    · rw [repaired_eq hcomma, repairPart_whole]
      simp
    · rw [changed_eq hcomma, repairPart_whole]
  | cons p ps =>
    rw [hps] at hfree htext hvalue
    have hfirst := reads_first hfree.head w (continues_rest hfree.tail w' T)
    have hsplit : w.1 ++ ('"' :: (litText us ++ ['"']) ++ w'.1) = w.1 ++ '"' ::
        (litText (pieces us).1 ++ ',' :: (litText p ++ (restText ps ++ '"' :: w'.1))) := by
      rw [htext, restText_cons]
      simp
    rw [hsplit, hvalue, restValue_cons]
    simpa only [reduceCtorEq, false_or] using hfirst

/-- A literal that the repair takes to end in front of the character `b`. -/
theorem reads_cut (w : Ws) (before after : List LitChar) (b : LitChar) (Z : Str) :
    Reads (w.1 ++ '"' :: litText before) (b.text ++ (litText after ++ '"' :: Z)) Z
      (litValue before ++ b.value :: litValue after) (CutKept before) := by
  have hfree := commaFree_pieces before
  have htext := litText_pieces before
  have hvalue := litValue_pieces before
  unfold CutKept
  cases hps : (pieces before).2 with
  | nil =>
    rw [hps] at hfree htext hvalue
    have hcomma := comma_notMem_first hfree.head w
    rw [htext, hvalue]
    show Reads (w.1 ++ '"' :: (litText (pieces before).1 ++ [])) _ Z
      (litValue (pieces before).1 ++ [] ++ _) _
    rw [append_nil, append_nil]
    unfold Reads
    rw [repaired_eq hcomma, changed_eq hcomma, repairPart_first]
    refine ⟨trimLitEnd (pieces before).1 ++ b :: after, Z, by simp, ?_, fun _ => ⟨rfl, rfl⟩,
      Or.inl rfl⟩
    rw [litValue_append, litValue_cons]
    constructor
    · intro heq
      exact ⟨trimLitEnd_eq_of_value (append_cancel_right heq).symm, nofun⟩
    · intro hp
      rw [hp.1]
  | cons p ps =>
    rw [hps] at hfree htext hvalue
    have hfirst := reads_first hfree.head w (continues_rest_cut hfree.tail b after Z)
    rw [htext, hvalue, restText_cons, restValue_cons]
    simpa only [append_assoc, cons_append] using hfirst

end Literal

end CrabMate.ArgsRepair
