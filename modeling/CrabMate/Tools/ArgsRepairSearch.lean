import CrabMate.Tools.ArgsRepairKept

/-! Where the repair finds the array, and how the call around it is read. -/
namespace CrabMate.ArgsRepair
open RustStr JsonText List

section Search

theorem splitOnce?_notMem {c : Char} {a : Str} (ha : c ∉ a) (s : Str) :
    splitOnce? [c] (a ++ c :: s) = some (a, s) := by
  induction a with
  | nil => simp [splitOnce?]
  | cons d a ih =>
    rw [mem_cons, not_or] at ha
    have hpre : ¬[c].isPrefixOf (d :: (a ++ c :: s)) = true := by simpa using ha.1
    rw [cons_append, splitOnce?, if_neg hpre, ih ha.2]
    rfl

/-- In `s` the key is found in front of the colon that stands in front of `tail`. -/
def Finds (tail s : Str) : Prop :=
  ∃ a m, splitOnce? argsKey s = some (a, m ++ ':' :: tail) ∧ ':' ∉ m

variable {tail s X : Str}

theorem finds_key {m : Str} (hm : ':' ∉ m) (tail : Str) :
    Finds tail (argsKey ++ (m ++ ':' :: tail)) :=
  ⟨[], m, rfl, hm⟩

theorem Finds.cons {c : Char} (h : Finds tail s) (hc : ¬argsKey.isPrefixOf (c :: s) = true) :
    Finds tail (c :: s) := by
  obtain ⟨a, m, hsplit, hm⟩ := h
  refine ⟨c :: a, m, ?_, hm⟩
  rw [splitOnce?, if_neg hc, hsplit]
  rfl

theorem Finds.append {a : Str} (h : Finds tail s) (ha : '"' ∉ a) : Finds tail (a ++ s) := by
  induction a with
  | nil => exact h
  | cons c a ih =>
    rw [mem_cons, not_or] at ha
    refine (ih ha.2).cons fun hpre => ha.1 ?_
    have hpre' : '"' = c ∧ _ := Bool.and_eq_true_iff.mp hpre |>.imp beq_iff_eq.mp id
    exact hpre'.1

theorem Finds.quote {c : Char} (h : Finds tail (c :: s)) (hc : c ≠ 'a') :
    Finds tail ('"' :: c :: s) := by
  refine h.cons fun hpre => hc ?_
  obtain ⟨-, hpre'⟩ := cons_prefix_cons.mp (List.isPrefixOf_iff_prefix.mp hpre)
  exact (cons_prefix_cons.mp hpre').1.symm

theorem litText_of_prefix {t : Str} (ht : ∀ c ∈ t, c ≠ '"' ∧ c ≠ '\\') {us : List LitChar}
    (h : t ++ ['"'] <+: litText us ++ '"' :: X) : litText us = t := by
  induction t generalizing us with
  | nil =>
    cases us with
    | nil => rfl
    | cons u us =>
      cases u with
      | plain c hc => exact absurd (cons_prefix_cons.mp h).1.symm hc.1
      | escaped escape c hc => exact absurd (cons_prefix_cons.mp h).1 (by decide)
  | cons d t ih =>
    have hd := ht d mem_cons_self
    cases us with
    | nil => exact absurd (cons_prefix_cons.mp h).1 hd.1
    | cons u us =>
      cases u with
      | plain c hc =>
        obtain ⟨rfl, hrest⟩ := cons_prefix_cons.mp h
        rw [litText_cons, ih (fun c hc => ht c (mem_cons_of_mem _ hc)) hrest]
        rfl
      | escaped escape c hc => exact absurd (cons_prefix_cons.mp h).1 hd.2

/-- A quote in front of the rest of a literal: the key can only end with the literal. -/
theorem Finds.quote_lit {us : List LitChar} {m : Str} (hm : ':' ∉ m)
    (h : Finds tail (litText us ++ '"' :: (m ++ ':' :: tail))) :
    Finds tail ('"' :: (litText us ++ '"' :: (m ++ ':' :: tail))) := by
  by_cases hpre : argsKey.isPrefixOf ('"' :: (litText us ++ '"' :: (m ++ ':' :: tail))) = true
  · have hus : litText us = "args".toList :=
      litText_of_prefix (by simp)
        (cons_prefix_cons.mp (List.isPrefixOf_iff_prefix.mp hpre)).2
    rw [hus]
    exact finds_key hm tail
  · exact h.cons hpre

theorem Finds.lit {m : Str} (hm : ':' ∉ m) (us : List LitChar)
    (h : Finds tail ('"' :: (m ++ ':' :: tail))) :
    Finds tail (litText us ++ '"' :: (m ++ ':' :: tail)) := by
  induction us with
  | nil => exact h
  | cons u us ih =>
    rw [litText_cons, append_assoc]
    cases u with
    | plain c hc =>
      exact ih.append (a := [c]) (by simpa using hc.1.symm)
    | escaped escape c hc =>
      obtain rfl | hchars := escape_chars hc
      · exact (Finds.quote_lit hm ih).append (a := ['\\']) (by decide)
      · refine ih.append fun hmem => ?_
        obtain hmem | hmem := mem_cons.mp hmem
        · exact absurd hmem (by decide)
        · exact absurd (hchars '"' hmem) (by decide)

theorem notMem_ws (w : Ws) {c : Char} (hc : isWs c = false) : c ∉ w.1 :=
  fun h => by
    rw [w.2 c h] at hc
    cases hc

end Search

namespace Call

variable (call : Call)

/-- The text in front of the array. -/
def opening : Str :=
  call.beforeArgs ++ (argsKey ++ (call.argsName.1 ++ ':' :: call.argsColon.1))

theorem text_eq : call.text = call.opening ++ '[' :: (call.inside ++ ']' :: call.afterArgs) := by
  simp [text, opening]

/-- The repair finds the array of the call. -/
theorem finds : Finds (call.argsColon.1 ++ '[' :: (call.inside ++ ']' :: call.afterArgs))
    call.text := by
  obtain ⟨tail, htail⟩ : ∃ tail, tail = call.argsColon.1 ++ '[' ::
    (call.inside ++ ']' :: call.afterArgs) := ⟨_, rfl⟩
  have hname : ':' ∉ call.argsName.1 := notMem_ws _ (by decide)
  have hkey : Finds tail (argsKey ++ (call.argsName.1 ++ ':' :: tail)) := finds_key hname tail
  -- the text between the command and the colon of the arguments
  obtain ⟨m, hm⟩ : ∃ m, m = call.commandValue.1 ++ ',' :: (call.comma.1 ++
    (argsKey ++ call.argsName.1)) := ⟨_, rfl⟩
  have hcolon : ':' ∉ m := by
    rw [hm]
    simp [notMem_ws call.commandValue (c := ':') (by decide),
      notMem_ws call.comma (c := ':') (by decide), hname, argsKey]
  have hsep : Finds tail (m ++ ':' :: tail) := by
    have happend := hkey.append (a := call.commandValue.1 ++ ',' :: call.comma.1)
      (by simp [notMem_ws call.commandValue (c := '"') (by decide),
        notMem_ws call.comma (c := '"') (by decide)])
    rw [hm]
    simpa using happend
  have hclose : Finds tail ('"' :: (m ++ ':' :: tail)) := by
    obtain ⟨c, t, ht, hc⟩ : ∃ c t, m ++ ':' :: tail = c :: t ∧ c ≠ 'a' := by
      rw [hm]
      cases hw : call.commandValue.1 with
      | nil => exact ⟨',', _, rfl, by decide⟩
      | cons c w =>
        refine ⟨c, _, rfl, ?_⟩
        rintro rfl
        exact notMem_ws call.commandValue (c := 'a') (by decide) (by rw [hw]; simp)
    rw [ht] at hsep ⊢
    exact hsep.quote hc
  have hvalue := Finds.quote_lit hcolon (Finds.lit hcolon call.command hclose)
  have hcommand : Finds tail ("\"command\"".toList ++ (call.commandKey.1 ++ ':' ::
      (call.commandColon.1 ++ '"' :: (litText call.command ++ '"' :: (m ++ ':' :: tail))))) := by
    have hafter := (hvalue.append (a := call.commandColon.1)
      (notMem_ws _ (by decide))).append (a := [':']) (by decide)
    have hquote : Finds tail ('"' :: (call.commandKey.1 ++ ':' :: (call.commandColon.1 ++
        '"' :: (litText call.command ++ '"' :: (m ++ ':' :: tail))))) := by
      have hkeyed := hafter.append (a := call.commandKey.1) (notMem_ws _ (by decide))
      cases hw : call.commandKey.1 with
      | nil => exact hafter.quote (by decide)
      | cons c w =>
        rw [hw] at hkeyed
        refine hkeyed.quote ?_
        rintro rfl
        exact notMem_ws call.commandKey (c := 'a') (by decide) (by rw [hw]; simp)
    have hword := hquote.append (a := "command".toList) (by decide)
    exact hword.quote (by decide)
  have hall := ((hcommand.append (a := call.brace.1) (notMem_ws _ (by decide))).append
    (a := ['{']) (by decide)).append (a := call.start.1) (notMem_ws _ (by decide))
  rw [hm] at hall
  rw [← htail]
  simpa [text, beforeArgs, htail] using hall

theorem tryRepair_text : tryRepairRunCommandArgsJson call.text =
    (scanClose 1 (call.inside ++ ']' :: call.afterArgs)).bind fun r =>
      (repairArgsArrayInner r.1).map fun repaired =>
        call.opening ++ '[' :: (repaired ++ ']' :: r.2) := by
  obtain ⟨a, m, hsplit, hm⟩ := call.finds
  have hcolon : splitOnce? [':'] (m ++ ':' :: (call.argsColon.1 ++ '[' ::
      (call.inside ++ ']' :: call.afterArgs))) = some (m, _) := splitOnce?_notMem hm _
  have hbracket : splitOnce? ['['] (call.argsColon.1 ++ '[' ::
      (call.inside ++ ']' :: call.afterArgs)) = some (call.argsColon.1, _) :=
    splitOnce?_notMem (notMem_ws _ (by decide)) _
  have hopening : call.opening = a ++ argsKey ++ (m ++ ':' :: call.argsColon.1) := by
    have htext := call.text_eq.symm.trans (eq_of_splitOnce? hsplit)
    have hsame : call.opening ++ '[' :: (call.inside ++ ']' :: call.afterArgs) =
        a ++ argsKey ++ (m ++ ':' :: call.argsColon.1) ++
          '[' :: (call.inside ++ ']' :: call.afterArgs) := by simpa using htext
    exact append_cancel_right hsame
  rw [tryRepairRunCommandArgsJson, hsplit]
  show (splitOnce? [':'] _).bind _ = _
  rw [hcolon]
  show (splitOnce? ['['] _).bind _ = _
  rw [hbracket]
  show (scanClose 1 _).bind _ = _
  congr 1
  funext r
  obtain ⟨inner, rest⟩ := r
  show (repairArgsArrayInner inner).bind _ = _
  cases hrepair : repairArgsArrayInner inner with
  | none => rfl
  | some repaired =>
    rw [hopening]
    show some _ = some _
    simp

end Call

section Frame

variable (call : Call)

/-- How the call around the array is read. -/
theorem readText_opening (s : Str) : ∃ fuel, readText (call.opening ++ s) =
    (readValue 127 s).bind fun v => (readMoreFields (readValue 127) fuel v.2).bind fun fs =>
      if skipWs fs.2 = [] then
        some (.obj (("command", .str (String.ofList (litValue call.command))) :: ("args", v.1) ::
          fs.1))
      else none := by
  have hplain : quotable "command".toList = true ∧ quotable "args".toList = true := by decide
  obtain ⟨commandKey, hcommand, hcommand'⟩ := lit_of_quotable hplain.1
  obtain ⟨argsName, hargs, hargs'⟩ := lit_of_quotable hplain.2
  obtain ⟨fields, hfields⟩ : ∃ fields, fields = litText argsName ++ '"' ::
    (call.argsName.1 ++ ':' :: (call.argsColon.1 ++ s)) := ⟨_, rfl⟩
  obtain ⟨inside, hinside⟩ : ∃ inside, inside = litText commandKey ++ '"' :: (call.commandKey.1 ++
    ':' :: (call.commandColon.1 ++ '"' :: (litText call.command ++ '"' :: (call.commandValue.1 ++
      ',' :: (call.comma.1 ++ '"' :: fields))))) := ⟨_, rfl⟩
  have htext : call.opening ++ s = call.start.1 ++ '{' :: (call.brace.1 ++ '"' :: inside) := by
    rw [hinside, hfields, hcommand, hargs]
    simp [Call.opening, Call.beforeArgs, argsKey]
  obtain ⟨fuel, hfuel⟩ : ∃ fuel, (call.brace.1 ++ '"' :: inside).length = fuel + 2 := by
    refine ⟨(call.brace.1 ++ '"' :: inside).length - 2, ?_⟩
    rw [hinside]
    simp
    omega
  have hcommandValue : readValue 127 (call.commandColon.1 ++ '"' :: (litText call.command ++ '"' ::
      (call.commandValue.1 ++ ',' :: (call.comma.1 ++ '"' :: fields)))) =
        some (.str (String.ofList (litValue call.command)),
          call.commandValue.1 ++ ',' :: (call.comma.1 ++ '"' :: fields)) := by
    rw [readValue_append_ws call.commandColon.2, readValue_lit]
  refine ⟨fuel, ?_⟩
  rw [readText, htext, readValue_append_ws call.start.2, readValue_object call.brace.2, hfuel,
    hinside, readFields_succ call.brace.2 call.commandKey.2, hcommandValue, Option.bind_some,
    readMoreFields_comma call.commandValue.2, hfields,
    readFields_succ call.comma.2 call.argsName.2, readValue_append_ws call.argsColon.2, hcommand',
    hargs']
  cases readValue 127 s with
  | none => rfl
  | some v =>
    rw [Option.bind_some, Option.bind_some]
    cases readMoreFields (readValue 127) fuel v.2 with
    | none => rfl
    | some fs => rfl

end Frame

end CrabMate.ArgsRepair
