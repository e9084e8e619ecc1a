import CrabMate.Lib.Str

/-! Texts as lists of lines. A raw line is a line with its terminator, as `read_line` returns
it; the last one may have none. -/
namespace RustStr
open List

/-- `str::split_inclusive('\n')`, and what a `read_line` loop reads. -/
def rawLines : Str → List Str
  | [] => []
  | c :: s =>
    if c = '\n' then [c] :: rawLines s
    else
      match rawLines s with
      | [] => [[c]]
      | line :: rest => (c :: line) :: rest

def stripCr (line : Str) : Str := if line.getLast? = some '\r' then line.dropLast else line

/-- A raw line without its terminator. -/
def chomp (line : Str) : Str :=
  if line.getLast? = some '\n' then stripCr line.dropLast else line

def Terminated (line : Str) : Prop := ∃ b, '\n' ∉ b ∧ line = b ++ ['\n']

/-- The last line of a text that does not end in a newline. -/
def Unterminated (line : Str) : Prop := line ≠ [] ∧ '\n' ∉ line

/-- The raw lines of some text. -/
def AreRaw : List Str → Prop
  | [] => True
  | [line] => Terminated line ∨ Unterminated line
  | line :: next :: rest => Terminated line ∧ AreRaw (next :: rest)

@[elab_as_elim]
theorem line_induction {motive : Str → Prop} (last : ∀ b, '\n' ∉ b → motive b)
    (line : ∀ b s, '\n' ∉ b → motive s → motive (b ++ '\n' :: s)) (s : Str) : motive s := by
  induction hn : s.length using Nat.strong_induction_on generalizing s with
  | _ n ih =>
    by_cases hmem : '\n' ∈ s
    · obtain ⟨b, t, rfl, hb⟩ := eq_append_cons_of_mem hmem
      refine line b t hb (ih t.length ?_ t rfl)
      rw [← hn, length_append, length_cons]
      omega
    · exact last s hmem

section Raw

variable {b s : Str} {ls : List Str}

@[simp] theorem rawLines_nil : rawLines [] = [] := rfl

theorem rawLines_last (hb : '\n' ∉ b) (hne : b ≠ []) : rawLines b = [b] := by
  induction b with
  | nil => exact absurd rfl hne
  | cons c b ih =>
    have hc : c ≠ '\n' := fun h => hb (h ▸ mem_cons_self)
    have hrest : '\n' ∉ b := fun h => hb (mem_cons_of_mem _ h)
    rw [rawLines, if_neg hc]
    cases b with
    | nil => rfl
    | cons d b => rw [ih hrest (cons_ne_nil _ _)]

theorem rawLines_line (hb : '\n' ∉ b) (s : Str) :
    rawLines (b ++ '\n' :: s) = (b ++ ['\n']) :: rawLines s := by
  induction b with
  | nil => rw [nil_append, rawLines, if_pos rfl, nil_append]
  | cons c b ih =>
    have hc : c ≠ '\n' := fun h => hb (h ▸ mem_cons_self)
    have hrest : '\n' ∉ b := fun h => hb (mem_cons_of_mem _ h)
    rw [cons_append, rawLines, if_neg hc, ih hrest]
    rfl

@[simp] theorem flatten_rawLines (s : Str) : (rawLines s).flatten = s := by
  induction s using line_induction with
  | last b hb =>
    by_cases hne : b = []
    · subst hne
      rfl
    · rw [rawLines_last hb hne, flatten_singleton]
  | line b s hb ih =>
    rw [rawLines_line hb, flatten_cons, ih, append_assoc, singleton_append]

theorem rawLines_append_newline (t s : Str) :
    rawLines (t ++ '\n' :: s) = rawLines (t ++ ['\n']) ++ rawLines s := by
  induction t using line_induction with
  | last b hb => rw [rawLines_line hb, rawLines_line hb, rawLines_nil, singleton_append]
  | line b t hb ih =>
    rw [append_assoc, cons_append, rawLines_line hb, ih, append_assoc,
      cons_append, rawLines_line hb, cons_append]

/-- A text has one first line. -/
theorem append_newline_inj {c t : Str} (hb : '\n' ∉ b) (hc : '\n' ∉ c) :
    b ++ '\n' :: s = c ++ '\n' :: t ↔ b = c ∧ s = t := by
  constructor
  · intro h
    have hraw := congrArg rawLines h
    rw [rawLines_line hb, rawLines_line hc, List.cons.injEq, append_cancel_right_eq] at hraw
    refine ⟨hraw.1, ?_⟩
    rw [← flatten_rawLines s, hraw.2, flatten_rawLines]
  · rintro ⟨rfl, rfl⟩
    rfl

theorem AreRaw.cons (h : Terminated b) (hls : AreRaw ls) : AreRaw (b :: ls) := by
  cases ls with
  | nil => exact Or.inl h
  | cons line rest => exact ⟨h, hls⟩

theorem areRaw_rawLines (s : Str) : AreRaw (rawLines s) := by
  induction s using line_induction with
  | last b hb =>
    by_cases hne : b = []
    · subst hne
      trivial
    · rw [rawLines_last hb hne]
      exact Or.inr ⟨hne, hb⟩
  | line b s hb ih =>
    rw [rawLines_line hb]
    exact ih.cons ⟨b, hb, rfl⟩

theorem AreRaw.tail (h : AreRaw (b :: ls)) : AreRaw ls := by
  cases ls with
  | nil => trivial
  | cons line rest => exact h.2

theorem AreRaw.drop (h : AreRaw ls) (n : ℕ) : AreRaw (ls.drop n) := by
  induction n generalizing ls with
  | zero => exact h
  | succ n ih =>
    cases ls with
    | nil => exact h
    | cons line rest => exact ih h.tail

theorem AreRaw.take (h : AreRaw ls) (n : ℕ) : AreRaw (ls.take n) := by
  induction n generalizing ls with
  | zero => trivial
  | succ n ih =>
    cases ls with
    | nil => trivial
    | cons line rest =>
      cases rest with
      | nil => simpa using h
      | cons next rest =>
        rw [take_succ_cons]
        exact (ih h.2).cons h.1

theorem AreRaw.terminated (h : AreRaw ls) {line : Str} (hline : line ∈ ls) :
    Terminated line ∨ Unterminated line := by
  induction ls with
  | nil => cases hline
  | cons first rest ih =>
    rcases mem_cons.mp hline with rfl | hline
    · cases rest with
      | nil => exact h
      | cons next rest => exact Or.inl h.1
    · exact ih h.tail hline

theorem rawLines_flatten (h : AreRaw ls) : rawLines ls.flatten = ls := by
  induction ls with
  | nil => rfl
  | cons line rest ih =>
    cases rest with
    | nil =>
      rw [flatten_singleton]
      rcases h with ⟨b, hb, rfl⟩ | ⟨hne, hline⟩
      · rw [rawLines_line hb, rawLines_nil]
      · exact rawLines_last hline hne
    | cons next rest =>
      obtain ⟨⟨b, hb, rfl⟩, hrest⟩ := h
      rw [flatten_cons, append_assoc, singleton_append, rawLines_line hb, ih hrest]

end Raw

section Chomp

variable {b : Str}

theorem mem_of_mem_stripCr {line : Str} {c : Char} (h : c ∈ stripCr line) : c ∈ line := by
  unfold stripCr at h
  split at h
  · exact (dropLast_sublist line).subset h
  · exact h

theorem chomp_line (b : Str) : chomp (b ++ ['\n']) = stripCr b := by
  rw [chomp, getLast?_concat, if_pos rfl, dropLast_concat]

theorem chomp_last (hb : '\n' ∉ b) : chomp b = b := by
  rw [chomp, if_neg]
  intro h
  exact hb (mem_of_getLast? h)

theorem lines_eq_map_chomp (s : Str) : lines s = (rawLines s).map chomp := by
  have hsep : ∀ b : Str, '\n' ∉ b → ∀ c ∈ b, (c == '\n') = false := by
    intro b hb c hc
    rw [beq_eq_false_iff_ne]
    rintro rfl
    exact hb hc
  induction s using line_induction with
  | last b hb =>
    have hsplit : b.splitOn '\n' = [b] := splitOnP_eq_singleton (hsep b hb)
    rw [lines, hsplit]
    by_cases hne : b = []
    · subst hne
      rfl
    · rw [rawLines_last hb hne, map_singleton, chomp_last hb]
      simp [hne]
  | line b s hb ih =>
    have hsplit : (b ++ '\n' :: s).splitOn '\n' = b :: s.splitOn '\n' :=
      splitOnP_append_cons_of_forall_mem (hsep b hb) '\n' (beq_self_eq_true _) s
    have hne : s.splitOn '\n' ≠ [] := splitOnP_ne_nil _ _
    rw [rawLines_line hb, map_cons, chomp_line, ← ih, lines, hsplit,
      dropLast_cons_of_ne_nil hne, getLast?_cons_of_ne_nil hne]
    rfl

theorem newline_not_mem_of_mem_lines {s l : Str} (h : l ∈ lines s) : '\n' ∉ l := by
  rw [lines_eq_map_chomp] at h
  induction s using line_induction with
  | last b hb =>
    by_cases hne : b = []
    · subst hne
      cases h
    · rw [rawLines_last hb hne, map_singleton, mem_singleton, chomp_last hb] at h
      exact h ▸ hb
  | line b s hb ih =>
    rw [rawLines_line hb, map_cons, chomp_line] at h
    rcases mem_cons.mp h with rfl | h
    · exact fun hmem => hb (mem_of_mem_stripCr hmem)
    · exact ih h

@[simp] theorem lines_nil : lines [] = [] := rfl

theorem lines_append_newline (t s : Str) :
    lines (t ++ '\n' :: s) = lines (t ++ ['\n']) ++ lines s := by
  rw [lines_eq_map_chomp, rawLines_append_newline, map_append, ← lines_eq_map_chomp,
    ← lines_eq_map_chomp]

theorem lines_complete {t : Str} (hne : t ≠ []) (hlast : t.getLast? ≠ some '\n') :
    ∃ front line, lines t = front ++ [line] ∧ lines (t ++ ['\n']) = front ++ [stripCr line] ∧
      line.getLast? = t.getLast? := by
  simp only [lines_eq_map_chomp]
  induction t using line_induction with
  | last b hb =>
    refine ⟨[], b, ?_, ?_, rfl⟩
    · rw [rawLines_last hb hne, map_singleton, chomp_last hb, nil_append]
    · rw [rawLines_line hb, rawLines_nil, map_singleton, chomp_line, nil_append]
  | line b s hb ih =>
    have hs : s ≠ [] := by
      rintro rfl
      exact hlast getLast?_concat
    have hlast' : (b ++ '\n' :: s).getLast? = s.getLast? := by
      rw [getLast?_append_cons, getLast?_cons_of_ne_nil hs]
    rw [hlast'] at hlast
    obtain ⟨front, line, hfront, hcomplete, hline⟩ := ih hs hlast
    refine ⟨chomp (b ++ ['\n']) :: front, line, ?_, ?_, hline.trans hlast'.symm⟩
    · rw [rawLines_line hb, map_cons, hfront, cons_append]
    · rw [append_assoc, cons_append, rawLines_line hb, map_cons, hcomplete,
        cons_append]

theorem lines_blank {t : Str} (h : t = [] ∨ t.getLast? = some '\n') :
    lines (t ++ ['\n']) = lines t ++ [[]] := by
  rcases h with rfl | h
  · rfl
  · obtain ⟨u, rfl⟩ := getLast?_eq_some_iff.mp h
    rw [append_assoc, singleton_append, lines_append_newline]
    rfl

theorem length_lines_le (t : Str) : (lines t).length ≤ (lines (t ++ ['\n'])).length := by
  by_cases h : t = [] ∨ t.getLast? = some '\n'
  · rw [lines_blank h, length_append]
    omega
  · rw [not_or] at h
    obtain ⟨front, line, hlines, hcomplete, -⟩ := lines_complete h.1 h.2
    rw [hlines, hcomplete, length_append, length_append]
    rfl

/-- `str::trim_end_matches('\n')`. -/
def trimEndNewlines (s : Str) : Str := s.rdropWhile (· = '\n')

theorem trimEndNewlines_concat (t : Str) : trimEndNewlines (t ++ ['\n']) = trimEndNewlines t := by
  rw [trimEndNewlines, rdropWhile_concat_pos _ _ _ (by simp), trimEndNewlines]

theorem trimEndNewlines_eq_self {t : Str} (h : t.getLast? ≠ some '\n') :
    trimEndNewlines t = t := by
  rw [trimEndNewlines, rdropWhile_eq_self_iff]
  intro hne hlast
  exact h (by rw [getLast?_eq_getLast_of_ne_nil hne]; simpa using hlast)

theorem length_lines_trimEndNewlines_le (t : Str) :
    (lines (trimEndNewlines t)).length ≤ (lines t).length := by
  induction t using List.reverseRecOn with
  | nil => exact Nat.le_refl _
  | append_singleton t c ih =>
    by_cases hc : c = '\n'
    · subst hc
      rw [trimEndNewlines_concat]
      exact Nat.le_trans ih (length_lines_le t)
    · rw [trimEndNewlines_eq_self (by rw [getLast?_concat]; simpa using hc)]

end Chomp

section Complete

/-- The text is empty or ends in a newline. -/
def Complete (s : Str) : Prop := s = [] ∨ s.getLast? = some '\n'

instance (s : Str) : Decidable (Complete s) := inferInstanceAs (Decidable (_ ∨ _))

variable {s t : Str}

theorem complete_append (ht : Complete t) (hs : Complete s) : Complete (s ++ t) := by
  rcases ht with rfl | ht
  · rwa [append_nil]
  · exact Or.inr (by rw [getLast?_append, ht, Option.some_or])

theorem rawLines_append (ht : Complete t) (s : Str) :
    rawLines (t ++ s) = rawLines t ++ rawLines s := by
  rcases ht with rfl | ht
  · rfl
  · obtain ⟨u, rfl⟩ := getLast?_eq_some_iff.mp ht
    rw [append_assoc, singleton_append, rawLines_append_newline]

theorem lines_append (ht : Complete t) (s : Str) : lines (t ++ s) = lines t ++ lines s := by
  rw [lines_eq_map_chomp, rawLines_append ht, map_append, ← lines_eq_map_chomp,
    ← lines_eq_map_chomp]

theorem length_lines (s : Str) :
    (lines s).length = s.count '\n' + if Complete s then 0 else 1 := by
  rw [lines_eq_map_chomp, List.length_map]
  induction s using line_induction with
  | last b hb =>
    rw [count_eq_zero_of_not_mem hb]
    by_cases hne : b = []
    · subst hne
      rfl
    · have hopen : ¬ Complete b := fun h => h.elim hne fun h => hb (mem_of_getLast? h)
      rw [rawLines_last hb hne, if_neg hopen]
      rfl
  | line b s hb ih =>
    have hiff : Complete (b ++ '\n' :: s) ↔ Complete s := by
      cases s with
      | nil => simp [Complete]
      | cons c s => simp [Complete, getLast?_append]
    rw [rawLines_line hb, length_cons, ih, count_append, count_eq_zero_of_not_mem hb,
      count_cons_self]
    simp only [hiff]
    omega

theorem complete_take_flatten {ls : List Str} (h : AreRaw ls) {n : ℕ} (hn : n < ls.length) :
    Complete (ls.take n).flatten := by
  induction n generalizing ls with
  | zero => exact Or.inl rfl
  | succ n ih =>
    cases ls with
    | nil => exact absurd hn (Nat.not_lt_zero _)
    | cons line rest =>
      cases rest with
      | nil => exact absurd (Nat.lt_of_succ_lt_succ hn) (Nat.not_lt_zero _)
      | cons next rest =>
        obtain ⟨⟨b, -, rfl⟩, hrest⟩ := h
        rw [take_succ_cons, flatten_cons]
        exact complete_append (ih hrest (Nat.lt_of_succ_lt_succ hn)) (Or.inr getLast?_concat)

theorem flatten_eq_nil_iff {ls : List Str} (h : AreRaw ls) : ls.flatten = [] ↔ ls = [] := by
  constructor
  · intro hnil
    rw [← rawLines_flatten h, hnil, rawLines_nil]
  · rintro rfl
    rfl

theorem complete_append_iff (s : Str) (ht : t ≠ []) : Complete (s ++ t) ↔ Complete t := by
  rw [Complete, Complete, getLast?_append_of_ne_nil _ ht]
  simp [ht]

theorem lines_take_flatten (s : Str) (n : ℕ) :
    lines ((rawLines s).take n).flatten = (lines s).take n := by
  rw [lines_eq_map_chomp, rawLines_flatten ((areRaw_rawLines s).take n), lines_eq_map_chomp,
    map_take]

theorem lines_drop_flatten (s : Str) (n : ℕ) :
    lines ((rawLines s).drop n).flatten = (lines s).drop n := by
  rw [lines_eq_map_chomp, rawLines_flatten ((areRaw_rawLines s).drop n), lines_eq_map_chomp,
    map_drop]

theorem length_rawLines (s : Str) : (rawLines s).length = (lines s).length := by
  rw [lines_eq_map_chomp, List.length_map]

theorem lines_eq_nil_iff (s : Str) : lines s = [] ↔ s = [] := by
  constructor
  · intro h
    rw [← length_eq_zero_iff, ← length_rawLines, length_eq_zero_iff] at h
    rw [← flatten_rawLines s, h, flatten_nil]
  · rintro rfl
    rfl

def lastLines (n : ℕ) (s : Str) : List Str := (lines s).drop ((lines s).length - n)

theorem lastLines_append_newline {n : ℕ} {s : Str} (h : n ≤ (lines s).length) (t : Str) :
    lastLines n (t ++ '\n' :: s) = lastLines n s := by
  rw [lastLines, lines_append_newline, length_append, Nat.add_sub_assoc h,
    drop_length_add_append, lastLines]

end Complete

section Join

/-- The lines joined by newlines, with one behind the last line when `final` says so. -/
def unlines (ls : List Str) (final : Bool) : Str :=
  let out := ['\n'].intercalate ls
  if !ls.isEmpty && final then out ++ ['\n'] else out

/-- No line of the text ends in `\r\n`. -/
def NoCrlf (s : Str) : Prop := ∀ line ∈ rawLines s, ¬ ['\r', '\n'] <:+ line

instance (s : Str) : Decidable (NoCrlf s) := inferInstanceAs (Decidable (∀ _ ∈ _, _))

variable {s t : Str} {final : Bool}

@[simp] theorem unlines_nil (final : Bool) : unlines [] final = [] := rfl

theorem unlines_singleton (line : Str) (final : Bool) :
    unlines [line] final = line ++ if final then ['\n'] else [] := by
  cases final <;> simp [unlines]

theorem unlines_cons (line : Str) {ls : List Str} (hne : ls ≠ []) (final : Bool) :
    unlines (line :: ls) final = line ++ '\n' :: unlines ls final := by
  cases ls with
  | nil => exact absurd rfl hne
  | cons next rest => cases final <;> simp [unlines]

theorem noCrlf_append (ht : Complete t) (s : Str) : NoCrlf (t ++ s) ↔ NoCrlf t ∧ NoCrlf s := by
  simp only [NoCrlf, rawLines_append ht, mem_append, or_imp, forall_and]

@[simp] theorem noCrlf_nil : NoCrlf [] := fun _ h => nomatch h

theorem noCrlf_of_not_mem {b : Str} (hb : '\n' ∉ b) : NoCrlf b := by
  intro line hline hcrlf
  by_cases hne : b = []
  · subst hne
    cases hline
  · rw [rawLines_last hb hne, mem_singleton] at hline
    subst hline
    exact hb (hcrlf.subset (by simp))

theorem suffix_crlf_iff (b : Str) : ['\r', '\n'] <:+ b ++ ['\n'] ↔ b.getLast? = some '\r' := by
  rw [getLast?_eq_some_iff]
  constructor
  · rintro ⟨u, hu⟩
    refine ⟨u, ?_⟩
    rw [← singleton_append, ← append_assoc] at hu
    exact (append_inj' hu rfl).1.symm
  · rintro ⟨u, rfl⟩
    exact ⟨u, by simp⟩

theorem noCrlf_line {b : Str} (hb : '\n' ∉ b) (s : Str) :
    NoCrlf (b ++ '\n' :: s) ↔ b.getLast? ≠ some '\r' ∧ NoCrlf s := by
  simp only [NoCrlf, rawLines_line hb, forall_mem_cons, suffix_crlf_iff, ne_eq]

theorem noCrlf_concat (hlast : s.getLast? ≠ some '\n') :
    NoCrlf (s ++ ['\n']) ↔ NoCrlf s ∧ s.getLast? ≠ some '\r' := by
  induction s using line_induction with
  | last b hb =>
    rw [noCrlf_line hb, and_iff_left noCrlf_nil, and_iff_right (noCrlf_of_not_mem hb)]
  | line b s hb ih =>
    have hs : s ≠ [] := by
      rintro rfl
      exact hlast getLast?_concat
    have hlast' : (b ++ '\n' :: s).getLast? = s.getLast? := by
      rw [getLast?_append_cons, getLast?_cons_of_ne_nil hs]
    rw [hlast'] at hlast
    rw [append_assoc, cons_append, noCrlf_line hb, noCrlf_line hb, ih hlast, hlast',
      and_assoc]

theorem stripCr_eq_self_iff (line : Str) : stripCr line = line ↔ line.getLast? ≠ some '\r' := by
  unfold stripCr
  split
  · next h =>
    obtain ⟨l, rfl⟩ := getLast?_eq_some_iff.mp h
    simp
  · next h => simpa using h

/-- A text is its lines joined again when there is no `\r\n` and the end is as it was. -/
theorem eq_unlines_lines_iff (s : Str) (final : Bool) :
    s = unlines (lines s) final ↔
      NoCrlf s ∧ (s ≠ [] → (s.getLast? = some '\n' ↔ final = true)) := by
  simp only [lines_eq_map_chomp]
  induction s using line_induction with
  | last b hb =>
    by_cases hne : b = []
    · subst hne
      simp
    · have hlast : ¬ b.getLast? = some '\n' := fun h => hb (mem_of_getLast? h)
      rw [rawLines_last hb hne, map_singleton, chomp_last hb, unlines_singleton,
        and_iff_right (noCrlf_of_not_mem hb)]
      cases final <;> simp [hne, hlast]
  | line b s hb ih =>
    rw [rawLines_line hb, map_cons, chomp_line, noCrlf_line hb]
    have hhead : ∀ rest : Str, b ++ '\n' :: s = stripCr b ++ '\n' :: rest ↔
        b.getLast? ≠ some '\r' ∧ s = rest := by
      intro rest
      rw [append_newline_inj hb fun h => hb (mem_of_mem_stripCr h), eq_comm,
        stripCr_eq_self_iff]
    by_cases hs : s = []
    · subst hs
      rw [rawLines_nil, map_nil, unlines_singleton]
      cases final with
      | true => simp [hhead]
      | false =>
        simp only [Bool.false_eq_true, if_false, append_nil]
        refine iff_of_false (fun h => hb (mem_of_mem_stripCr ?_)) ?_
        · rw [← h]
          simp
        · simp
    · have hne : (rawLines s).map chomp ≠ [] := by
        intro h
        have hnil := map_eq_nil_iff.mp h
        exact hs (by rw [← flatten_rawLines s, hnil, flatten_nil])
      have hlast : (b ++ '\n' :: s).getLast? = s.getLast? := by
        rw [getLast?_append_cons, getLast?_cons_of_ne_nil hs]
      rw [unlines_cons _ hne, hhead, ih, hlast, and_assoc]
      simp [hs]

end Join

end RustStr
