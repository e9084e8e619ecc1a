import CrabMate.Files.Edits

/-! A batch of edits as one simultaneous change of the snapshot: what stands at each place of the
file afterwards, and what of it the written text keeps. -/
namespace CrabMate
open RustStr List

section Layout

/-- A line of the edited file: one of the snapshot with its terminator, or one of an edit. -/
inductive Item where
  | kept (raw : Str)
  | new (line : Str)
  deriving DecidableEq

def Item.line : Item → Str
  | .kept raw => chomp raw
  | .new line => line

variable (edits : List BatchEdit)

/-- The lines inserted behind line `n`, in the order of the list. -/
def insertedAfter (n : ℕ) : List Str :=
  (edits.filter fun e => e.kind = .insert ∧ e.startLine = n).flatMap fun e =>
    RustStr.lines e.body

/-- The lines that stand in for a range that starts at line `n`. -/
def replacedAt (n : ℕ) : List Str :=
  (edits.filter fun e => e.kind = .replace ∧ e.startLine = n).flatMap fun e =>
    RustStr.lines e.body

def covered (n : ℕ) : Bool :=
  edits.any fun e => e.kind = .replace ∧ e.startLine ≤ n ∧ n ≤ e.endLine

/-- What follows line `n` of the snapshot, whose next lines are given. -/
def layoutFrom : ℕ → List Str → List Item
  | n, [] => (insertedAfter edits n).map .new
  | n, raw :: rest =>
    (insertedAfter edits n).map .new ++ (replacedAt edits (n + 1)).map .new ++
      (if covered edits (n + 1) then [] else [.kept raw]) ++ layoutFrom (n + 1) rest

/-- Every edit applied to the snapshot at once. -/
def simultaneous (text : Str) : List Item := layoutFrom edits 0 (rawLines text)

end Layout

section Frame

variable {e a b : BatchEdit} {es : List BatchEdit} {n k m : ℕ} {raws : List Str}

/-- The edit changes nothing up to line `n`. -/
def Clear (n : ℕ) (e : BatchEdit) : Prop :=
  match e.kind with
  | .replace => n < e.startLine
  | .insert => n ≤ e.startLine

theorem Clear.mono (h : Clear n e) (hmn : m ≤ n) : Clear m e := by
  unfold Clear at *
  split <;> simp_all <;> omega

theorem clear_of_appliedFirst (hsort : AppliedFirst b a) (hfree : conflict a b = false) :
    Clear a.endLine b := by
  have ha := a.range
  have hb := b.range
  unfold conflict at hfree
  unfold AppliedFirst at hsort
  unfold Clear
  cases hka : a.kind <;> cases hkb : b.kind <;> rw [hka] at ha <;> rw [hkb] at hb <;>
    simp_all [EditKind.RangeOk] <;> omega

theorem insertedAfter_eq_nil (h : ∀ e ∈ es, Clear (k + 1) e) : insertedAfter es k = [] := by
  rw [insertedAfter, flatMap_eq_nil_iff]
  intro e he
  obtain ⟨hmem, hkind, hline⟩ : e ∈ es ∧ e.kind = .insert ∧ e.startLine = k := by
    simpa using mem_filter.mp he
  have hclear := h e hmem
  simp only [Clear, hkind] at hclear
  omega

theorem replacedAt_eq_nil (h : ∀ e ∈ es, Clear k e) : replacedAt es k = [] := by
  rw [replacedAt, flatMap_eq_nil_iff]
  intro e he
  obtain ⟨hmem, hkind, hline⟩ : e ∈ es ∧ e.kind = .replace ∧ e.startLine = k := by
    simpa using mem_filter.mp he
  have hclear := h e hmem
  simp only [Clear, hkind] at hclear
  omega

theorem covered_eq_false (h : ∀ e ∈ es, Clear k e) : covered es k = false := by
  rw [covered, any_eq_false]
  intro e he
  have hclear := h e he
  simp only [decide_eq_true_eq]
  rintro ⟨hkind, hle, -⟩
  simp only [Clear, hkind] at hclear
  omega

theorem layoutFrom_clear (h : ∀ e ∈ es, Clear (k + m) e) (hm : m ≤ raws.length) :
    layoutFrom es k raws = (raws.take m).map .kept ++ layoutFrom es (k + m) (raws.drop m) := by
  induction m generalizing k raws with
  | zero => rfl
  | succ m ih =>
    cases raws with
    | nil => exact absurd hm (Nat.not_succ_le_zero m)
    | cons raw rest =>
      have hnext : ∀ e ∈ es, Clear (k + 1) e := fun e he => (h e he).mono (by omega)
      have hrest : ∀ e ∈ es, Clear (k + 1 + m) e := fun e he => (h e he).mono (by omega)
      rw [layoutFrom, insertedAfter_eq_nil hnext, replacedAt_eq_nil hnext, covered_eq_false hnext,
        ih hrest (Nat.le_of_succ_le_succ hm), Nat.add_right_comm]
      rfl

theorem insertedAfter_cons (e : BatchEdit) (es : List BatchEdit) (n : ℕ) :
    insertedAfter (e :: es) n =
      (if e.kind = .insert ∧ e.startLine = n then RustStr.lines e.body else []) ++
        insertedAfter es n := by
  by_cases h : e.kind = .insert ∧ e.startLine = n
  · simp [insertedAfter, h]
  · simp [insertedAfter, h]

theorem replacedAt_cons (e : BatchEdit) (es : List BatchEdit) (n : ℕ) :
    replacedAt (e :: es) n =
      (if e.kind = .replace ∧ e.startLine = n then RustStr.lines e.body else []) ++
        replacedAt es n := by
  by_cases h : e.kind = .replace ∧ e.startLine = n
  · simp [replacedAt, h]
  · simp [replacedAt, h]

theorem covered_cons (e : BatchEdit) (es : List BatchEdit) (n : ℕ) :
    covered (e :: es) n =
      (decide (e.kind = .replace ∧ e.startLine ≤ n ∧ n ≤ e.endLine) || covered es n) := rfl

theorem layoutFrom_cons_past (hpast : e.endLine < k ∨ e.endLine ≤ k ∧ e.kind = .replace)
    (raws : List Str) : layoutFrom (e :: es) k raws = layoutFrom es k raws := by
  have hrange := e.range
  have hins : ¬ (e.kind = .insert ∧ e.startLine = k) := by
    rintro ⟨hkind, rfl⟩
    rw [hkind] at hrange
    simp only [EditKind.RangeOk] at hrange
    rcases hpast with h | h
    · omega
    · rw [hkind] at h
      exact nomatch h.2
  induction raws generalizing k with
  | nil => simp only [layoutFrom, insertedAfter_cons, if_neg hins, nil_append]
  | cons raw rest ih =>
    have hrep : ¬ (e.kind = .replace ∧ e.startLine = k + 1) := by
      rintro ⟨hkind, hline⟩
      rw [hkind] at hrange
      simp only [EditKind.RangeOk] at hrange
      omega
    have hcov : ¬ (e.kind = .replace ∧ e.startLine ≤ k + 1 ∧ k + 1 ≤ e.endLine) := by
      rintro ⟨-, -, hle⟩
      omega
    have hins' : ¬ (e.kind = .insert ∧ e.startLine = k + 1) := by
      rintro ⟨hkind, hline⟩
      rw [hkind] at hrange
      simp only [EditKind.RangeOk] at hrange
      omega
    simp only [layoutFrom, insertedAfter_cons, replacedAt_cons, covered_cons, if_neg hins,
      if_neg hrep, decide_eq_false hcov, nil_append, Bool.false_or]
    rw [ih (Or.inl (by omega)) hins']

theorem layoutFrom_cons_within (hkind : e.kind = .replace) (hstart : e.startLine ≤ k)
    (hend : k + m = e.endLine) (hes : ∀ b ∈ es, Clear e.endLine b) (hm : m ≤ raws.length) :
    layoutFrom (e :: es) k raws = layoutFrom es e.endLine (raws.drop m) := by
  induction m generalizing k raws with
  | zero =>
    obtain rfl : k = e.endLine := hend
    exact layoutFrom_cons_past (Or.inr ⟨Nat.le_refl _, hkind⟩) raws
  | succ m ih =>
    cases raws with
    | nil => exact absurd hm (Nat.not_succ_le_zero m)
    | cons raw rest =>
      have hnext : ∀ b ∈ es, Clear (k + 1) b := fun b hb => (hes b hb).mono (by omega)
      have hins : ¬ (e.kind = .insert ∧ e.startLine = k) := by simp [hkind]
      have hrep : ¬ (e.kind = .replace ∧ e.startLine = k + 1) := by omega
      have hcov : e.kind = .replace ∧ e.startLine ≤ k + 1 ∧ k + 1 ≤ e.endLine :=
        ⟨hkind, by omega, by omega⟩
      simp only [layoutFrom, insertedAfter_cons, replacedAt_cons, covered_cons, if_neg hins,
        if_neg hrep, decide_eq_true hcov, insertedAfter_eq_nil hnext, replacedAt_eq_nil hnext]
      simpa using ih (k := k + 1) (by omega) (by omega) (Nat.le_of_succ_le_succ hm)

theorem clear_self (e : BatchEdit) : Clear (e.startLine - 1) e := by
  have hrange := e.range
  unfold Clear
  cases hkind : e.kind <;> rw [hkind] at hrange <;> simp only [EditKind.RangeOk] at hrange ⊢ <;>
    omega

/-- The first edit of the file, a replacement. -/
theorem layoutFrom_cons_replace (hkind : e.kind = .replace) (hes : ∀ b ∈ es, Clear e.endLine b)
    (hin : e.endLine ≤ raws.length) :
    layoutFrom (e :: es) 0 raws =
      (raws.take (e.startLine - 1)).map .kept ++ (RustStr.lines e.body).map .new ++
        layoutFrom es e.endLine (raws.drop e.endLine) := by
  obtain ⟨hstart, hrange⟩ : 1 ≤ e.startLine ∧ e.startLine ≤ e.endLine := by
    have h := e.range
    rwa [hkind] at h
  have hclear : ∀ b ∈ e :: es, Clear (0 + (e.startLine - 1)) b := by
    rw [Nat.zero_add, forall_mem_cons]
    exact ⟨clear_self e, fun b hb => (hes b hb).mono (by omega)⟩
  have hnext : ∀ b ∈ es, Clear (e.startLine - 1 + 1) b := fun b hb =>
    (hes b hb).mono (by omega)
  have hlen : (raws.drop (e.startLine - 1)).length = raws.length - (e.startLine - 1) :=
    length_drop
  obtain ⟨first, rest, hrest⟩ := exists_cons_of_length_pos
    (show 0 < (raws.drop (e.startLine - 1)).length by omega)
  have hdrop : rest.drop (e.endLine - e.startLine) = raws.drop e.endLine := by
    have hsplit := congrArg (List.drop (e.endLine - e.startLine + 1)) hrest
    rw [drop_drop, drop_succ_cons] at hsplit
    rw [← hsplit]
    congr 1
    omega
  have hins : ¬ (e.kind = .insert ∧ e.startLine = e.startLine - 1) := by simp [hkind]
  have hrep : e.kind = .replace ∧ e.startLine = e.startLine - 1 + 1 := ⟨hkind, by omega⟩
  have hcov : e.kind = .replace ∧ e.startLine ≤ e.startLine - 1 + 1 ∧
      e.startLine - 1 + 1 ≤ e.endLine := ⟨hkind, by omega, by omega⟩
  rw [hrest, length_cons] at hlen
  have hbody := @layoutFrom_cons_within e es (e.startLine - 1 + 1) (e.endLine - e.startLine) rest
    hkind (by omega) (by omega) hes (by omega)
  rw [layoutFrom_clear hclear (by omega), Nat.zero_add, hrest, layoutFrom, hbody, hdrop,
    insertedAfter_cons, replacedAt_cons, covered_cons, if_neg hins, if_pos hrep,
    decide_eq_true hcov, insertedAfter_eq_nil hnext, replacedAt_eq_nil hnext]
  simp

/-- The first edit of the file, an insertion. -/
theorem layoutFrom_cons_insert (hkind : e.kind = .insert) (hes : ∀ b ∈ es, Clear e.endLine b)
    (hin : e.startLine ≤ raws.length) :
    layoutFrom (e :: es) 0 raws =
      (raws.take e.startLine).map .kept ++ (RustStr.lines e.body).map .new ++
        layoutFrom es e.startLine (raws.drop e.startLine) := by
  have hrange : e.startLine = e.endLine := by
    have h := e.range
    rwa [hkind] at h
  rw [← hrange] at hes
  have hself : Clear e.startLine e := by simp [Clear, hkind]
  have hclear : ∀ b ∈ e :: es, Clear (0 + e.startLine) b := by
    rw [Nat.zero_add, forall_mem_cons]
    exact ⟨hself, hes⟩
  rw [layoutFrom_clear hclear hin, Nat.zero_add, append_assoc]
  congr 1
  have hrep : ∀ n, ¬ (e.kind = .replace ∧ e.startLine = n) := by simp [hkind]
  have hcov : ∀ n, ¬ (e.kind = .replace ∧ e.startLine ≤ n ∧ n ≤ e.endLine) := by simp [hkind]
  cases raws.drop e.startLine with
  | nil => simp [layoutFrom, insertedAfter_cons, hkind]
  | cons raw rest =>
    have hins : e.kind = .insert ∧ e.startLine = e.startLine := ⟨hkind, rfl⟩
    rw [layoutFrom, layoutFrom, insertedAfter_cons, replacedAt_cons, covered_cons, if_pos hins,
      if_neg (hrep _), decide_eq_false (hcov _), layoutFrom_cons_past (Or.inl (by omega))]
    simp

theorem applyEdit_layout (hes : ∀ b ∈ es, Clear e.endLine b) (hin : e.endLine ≤ raws.length) :
    applyEdit ((layoutFrom es 0 raws).map Item.line) e =
      (layoutFrom (e :: es) 0 raws).map Item.line := by
  have hline : Item.line ∘ Item.kept = chomp := rfl
  have hnew : Item.line ∘ Item.new = id := rfl
  have hclear : ∀ b ∈ es, Clear (0 + e.endLine) b := by rwa [Nat.zero_add]
  have hlayout := layoutFrom_clear hclear hin
  rw [Nat.zero_add] at hlayout
  have hlen : ((raws.take e.endLine).map chomp).length = e.endLine := by
    rw [List.length_map, length_take]
    omega
  have htake : ∀ n, n ≤ e.endLine →
      ((layoutFrom es 0 raws).map Item.line).take n = (raws.take n).map chomp := by
    intro n hn
    rw [hlayout, map_append, map_map, hline, take_append_of_le_length (by omega),
      ← map_take, take_take, Nat.min_eq_left hn]
  have hdrop : ((layoutFrom es 0 raws).map Item.line).drop e.endLine =
      (layoutFrom es e.endLine (raws.drop e.endLine)).map Item.line := by
    rw [hlayout, map_append, map_map, hline, drop_append_of_le_length (by omega),
      drop_of_length_le (by omega), nil_append]
  have hrange := e.range
  cases hkind : e.kind with
  | replace =>
    rw [hkind] at hrange
    obtain ⟨hstart, hle⟩ := hrange
    rw [applyEdit_replace hkind, layoutFrom_cons_replace hkind hes hin, htake _ (by omega), hdrop]
    simp [hline, hnew]
  | insert =>
    rw [hkind] at hrange
    have heq : e.startLine = e.endLine := hrange
    have hall : e.startLine ≤ ((layoutFrom es 0 raws).map Item.line).length := by
      have hlength := congrArg List.length (htake _ (Nat.le_refl _))
      rw [hlen, length_take] at hlength
      omega
    rw [applyEdit_insert hkind hall, layoutFrom_cons_insert hkind hes (by omega),
      htake _ (by omega), heq, hdrop]
    simp [hline, hnew]

/-- Edits in the order of the file, the last one applied first. -/
theorem foldr_applyEdit (hsorted : es.Pairwise fun a b => Clear a.endLine b)
    (hin : ∀ e ∈ es, e.endLine ≤ raws.length) :
    es.foldr (fun e lines => applyEdit lines e) (raws.map chomp) =
      (layoutFrom es 0 raws).map Item.line := by
  induction es with
  | nil =>
    have hlayout := @layoutFrom_clear [] 0 raws.length raws (fun e he => nomatch he)
      (Nat.le_refl _)
    rw [hlayout, take_length, drop_length, layoutFrom]
    simp [insertedAfter, Item.line]
  | cons e es ih =>
    obtain ⟨hfirst, hrest⟩ := pairwise_cons.mp hsorted
    rw [forall_mem_cons] at hin
    rw [foldr_cons, ih hrest hin.2, applyEdit_layout hfirst hin.1]

end Frame

section Order

variable {text out : Str} {edits edits' : List BatchEdit} {n : ℕ}

theorem conflict_comm (a b : BatchEdit) : conflict a b = conflict b a := by
  unfold conflict
  cases a.kind <;> cases b.kind <;> simp [Bool.and_comm]

theorem checkEditsConflicts_eq_ok_iff :
    checkEditsConflicts edits = .ok () ↔ edits.Pairwise fun a b => conflict a b = false := by
  induction edits with
  | nil => exact iff_of_true rfl List.Pairwise.nil
  | cons a rest ih =>
    rw [checkEditsConflicts, pairwise_cons]
    split
    · next b hb =>
      refine iff_of_false (fun h => nomatch h) fun h => ?_
      have hfree := h.1 b (mem_of_find?_eq_some hb)
      have hconflict := find?_some hb
      rw [hfree] at hconflict
      cases hconflict
    · next hnone =>
      rw [ih, iff_and_self]
      intro _ b hb
      simpa using find?_eq_none.mp hnone b hb

theorem endLine_le_of_checkEditsBounds {total : ℕ} (h : checkEditsBounds edits total = .ok ())
    {e : BatchEdit} (he : e ∈ edits) : e.endLine ≤ total := by
  unfold checkEditsBounds at h
  split at h
  · cases h
  · next hnone =>
    have hin := find?_eq_none.mp hnone e he
    have hrange := e.range
    unfold outOfBounds at hin
    cases hkind : e.kind with
    | replace =>
      simp only [hkind, Bool.or_eq_true, decide_eq_true_eq, not_or] at hin
      omega
    | insert =>
      rw [hkind] at hrange
      simp only [hkind, decide_eq_true_eq, EditKind.RangeOk] at hin hrange
      omega

instance : Std.Total AppliedFirst where
  total a b := by
    unfold AppliedFirst
    rcases Nat.lt_trichotomy a.startLine b.startLine with h | h | h
    · exact Or.inr (Or.inl h)
    · by_cases hb : b.kind = .replace
      · exact Or.inl (Or.inr ⟨h, fun _ => hb⟩)
      · exact Or.inr (Or.inr ⟨h.symm, fun hb' => absurd hb' hb⟩)
    · exact Or.inl (Or.inl h)

instance : IsTrans BatchEdit AppliedFirst where
  trans a b c := by
    unfold AppliedFirst
    rintro (hab | ⟨hab, hkab⟩) (hbc | ⟨hbc, hkbc⟩)
    · exact Or.inl (by omega)
    · exact Or.inl (by omega)
    · exact Or.inl (by omega)
    · exact Or.inr ⟨by omega, fun h => hkbc (hkab h)⟩

/-- The edits in the order of the file. -/
def fileOrder (edits : List BatchEdit) : List BatchEdit :=
  (edits.insertionSort AppliedFirst).reverse

theorem fileOrder_perm (edits : List BatchEdit) : (fileOrder edits).Perm edits :=
  (reverse_perm _).trans (perm_insertionSort AppliedFirst edits)

theorem fileOrder_clear (hfree : edits.Pairwise fun a b => conflict a b = false) :
    (fileOrder edits).Pairwise fun a b => Clear a.endLine b := by
  have hsorted : (fileOrder edits).Pairwise fun a b => AppliedFirst b a :=
    pairwise_reverse.mpr (pairwise_insertionSort AppliedFirst edits)
  have hfree' : (fileOrder edits).Pairwise fun a b => conflict a b = false :=
    ((fileOrder_perm edits).pairwise_iff fun h => by rwa [conflict_comm]).mpr hfree
  exact hsorted.imp₂ (fun a b => clear_of_appliedFirst) hfree'

/-- The code computes the layout of the edits in the order of the file. -/
theorem applyEdits_eq_layout (hfree : edits.Pairwise fun a b => conflict a b = false)
    (hin : ∀ e ∈ edits, e.endLine ≤ (rawLines text).length) :
    applyEdits (RustStr.lines text) edits =
      (simultaneous (fileOrder edits) text).map Item.line := by
  rw [simultaneous, ← foldr_applyEdit (fileOrder_clear hfree)
    fun e he => hin e ((fileOrder_perm edits).mem_iff.mp he), fileOrder, foldr_reverse,
    lines_eq_map_chomp]
  rfl

/-- Insertions at one anchor come out in the reverse order. -/
theorem insertedAfter_fileOrder (edits : List BatchEdit) (n : ℕ) :
    insertedAfter (fileOrder edits) n = insertedAfter edits.reverse n := by
  generalize hp : (fun e : BatchEdit => decide (e.kind = .insert ∧ e.startLine = n)) = p
  have hsame : (edits.filter p).Pairwise AppliedFirst := by
    refine pairwise_of_forall_mem_list fun a ha b hb => ?_
    rw [mem_filter, ← hp] at ha hb
    simp only [decide_eq_true_eq] at ha hb
    refine Or.inr ⟨ha.2.2.trans hb.2.2.symm, fun h => ?_⟩
    rw [ha.2.1] at h
    cases h
  have hsub := (sublist_insertionSort hsame filter_sublist).filter p
  rw [filter_filter] at hsub
  simp only [Bool.and_self] at hsub
  have hlen := ((perm_insertionSort AppliedFirst edits).filter p).length_eq
  have hstable := hsub.eq_of_length hlen.symm
  simp only [insertedAfter, fileOrder, filter_reverse, hp, hstable]

theorem covered_perm (h : edits.Perm edits') (n : ℕ) : covered edits n = covered edits' n := by
  rw [Bool.eq_iff_iff, covered, covered, any_eq_true, any_eq_true]
  simp only [h.mem_iff]

theorem replacedAt_perm (hfree : edits.Pairwise fun a b => conflict a b = false)
    (h : edits.Perm edits') (n : ℕ) : replacedAt edits n = replacedAt edits' n := by
  have hperm := h.filter fun e => e.kind = .replace ∧ e.startLine = n
  rw [replacedAt, replacedAt]
  have hone := hfree.filter fun e => e.kind = .replace ∧ e.startLine = n
  match hes : edits.filter fun e => e.kind = .replace ∧ e.startLine = n with
  | [] =>
    rw [hes] at hperm
    rw [hes, ← hperm.nil_eq]
  | [e] =>
    rw [hes] at hperm
    rw [hes, perm_singleton.mp hperm.symm]
  | a :: b :: rest =>
    have hmem : ∀ e ∈ a :: b :: rest, e.kind = .replace ∧ e.startLine = n := by
      intro e he
      rw [← hes, mem_filter] at he
      simpa using he.2
    rw [hes, pairwise_cons] at hone
    have hab := hone.1 b mem_cons_self
    obtain ⟨hka, hna⟩ := hmem a mem_cons_self
    obtain ⟨hkb, hnb⟩ := hmem b (mem_cons_of_mem _ mem_cons_self)
    have ha := a.range
    have hb := b.range
    rw [hka] at ha
    rw [hkb] at hb
    simp only [EditKind.RangeOk] at ha hb
    simp only [conflict, hka, hkb, Bool.and_eq_false_iff, decide_eq_false_iff_not] at hab
    omega

end Order

section Written

variable {i j : Item} {is js : List Item} {c : Str} {final : Bool}

/-- What may stand in the file for an item. The terminator of a new line is left open. -/
def Item.Piece : Item → Str → Prop
  | .kept raw, piece => piece = raw
  | .new line, piece => piece = line ∨ piece = line ++ ['\n'] ∨ piece = line ++ ['\r', '\n']

/-- The text is the items one behind the other, each but the last ended by a newline. -/
def Written : List Item → Str → Prop
  | [], out => out = []
  | [item], out => item.Piece out
  | item :: next :: rest, out => ∃ piece out', item.Piece piece ∧ piece.getLast? = some '\n' ∧
      Written (next :: rest) out' ∧ out = piece ++ out'

/-- A kept line ends in a newline alone, or in nothing. -/
def Item.EndsAs (final : Bool) : Item → Prop
  | .kept raw => ¬ ['\r', '\n'] <:+ raw ∧ (raw.getLast? = some '\n' ↔ final = true)
  | .new _ => True

/-- Every kept line ends in a newline alone when a line follows it, and as the file does when
it is the last. -/
def EndsKept (final : Bool) : List Item → Prop
  | [] => True
  | [item] => item.EndsAs final
  | item :: next :: rest => item.EndsAs true ∧ EndsKept final (next :: rest)

/-- The item is one line. -/
def Item.OneLine : Item → Prop
  | .kept raw => Terminated raw ∨ Unterminated raw
  | .new line => '\n' ∉ line

def ending (final : Bool) : Str := if final then ['\n'] else []

theorem Item.OneLine.newline_not_mem (h : i.OneLine) : '\n' ∉ i.line := by
  cases i with
  | kept raw =>
    rcases h with ⟨b, hb, rfl⟩ | ⟨-, hraw⟩
    · rw [Item.line, chomp_line]
      exact fun hmem => hb (mem_of_mem_stripCr hmem)
    · rwa [Item.line, chomp_last hraw]
  | new line => exact h

theorem concat_eq_concat_iff {b c : Str} (hc : '\n' ∉ c) :
    b ++ ['\n'] = c ++ ending final ↔ final = true ∧ b = c := by
  cases final with
  | true => simp [ending]
  | false =>
    refine iff_of_false (fun h => hc ?_) (by simp)
    rw [ending, if_neg (by simp), append_nil] at h
    rw [← h]
    simp

theorem kept_eq_iff {raw : Str} (h : (Item.kept raw).OneLine) :
    chomp raw ++ ending final = raw ↔ (Item.kept raw).EndsAs final := by
  rcases h with ⟨b, hb, rfl⟩ | ⟨hne, hraw⟩
  · rw [chomp_line, eq_comm, concat_eq_concat_iff fun h => hb (mem_of_mem_stripCr h), eq_comm,
      Item.EndsAs, suffix_crlf_iff, getLast?_concat]
    have hcr := stripCr_eq_self_iff b
    rw [eq_comm] at hcr
    simp only [true_iff]
    tauto
  · have hcrlf : ¬ ['\r', '\n'] <:+ raw := fun h => hraw (h.subset (by simp))
    have hlast : ¬ raw.getLast? = some '\n' := fun h => hraw (mem_of_getLast? h)
    rw [chomp_last hraw, Item.EndsAs]
    cases final <;> simp [ending, hcrlf, hlast]

/-- The same line of two layouts. -/
def Aligned : Item → Item → Prop
  | .kept raw, .kept raw' => raw = raw'
  | .new _, .new _ => True
  | _, _ => False

/-- The second line is the first, but perhaps for a carriage return. -/
def Close (i j : Item) : Prop := j.line = i.line ∨ j.line = i.line ++ ['\r']

theorem aligned_piece (hij : Aligned i j) (hi : i.OneLine) (hj : j.OneLine)
    (hpiece : i.Piece (j.line ++ ending final)) : i.EndsAs final ∧ Close i j := by
  match i, j, hij with
  | .kept raw, .kept _, rfl => exact ⟨(kept_eq_iff hi).mp hpiece, Or.inl rfl⟩
  | .new line, .new c, _ =>
    have hline : '\n' ∉ line := hi
    have hc : '\n' ∉ c := hj
    refine ⟨trivial, ?_⟩
    rcases hpiece with h | h | h
    · cases final with
      | false => exact Or.inl ((append_nil _).symm.trans h)
      | true => exact absurd (h ▸ by simp [ending]) hline
    · exact Or.inl ((concat_eq_concat_iff hc).mp h.symm).2.symm
    · rw [← singleton_append, ← append_assoc] at h
      exact Or.inr ((concat_eq_concat_iff hc).mp h.symm).2.symm

theorem Item.Piece.newline {p : Str} (hpiece : i.Piece p) (hi : i.OneLine)
    (hlast : p.getLast? = some '\n') : ∃ b, '\n' ∉ b ∧ p = b ++ ['\n'] := by
  cases i with
  | kept raw =>
    obtain rfl : p = raw := hpiece
    rcases hi with hterm | ⟨-, hraw⟩
    · exact hterm
    · exact absurd (mem_of_getLast? hlast) hraw
  | new line =>
    have hline : '\n' ∉ line := hi
    rcases hpiece with rfl | rfl | rfl
    · exact absurd (mem_of_getLast? hlast) hline
    · exact ⟨line, hline, rfl⟩
    · exact ⟨line ++ ['\r'], by simp [hline], by simp⟩

/-- What the written text says of two layouts, line by line. -/
theorem Written.aligned (hal : List.Forall₂ Aligned is js) (his : ∀ i ∈ is, i.OneLine)
    (hjs : ∀ j ∈ js, j.OneLine) (h : Written is (unlines (js.map Item.line) final)) :
    EndsKept final is ∧ List.Forall₂ Close is js := by
  induction hal with
  | nil => exact ⟨trivial, List.Forall₂.nil⟩
  | @cons i j is js hij hal ih =>
    rw [forall_mem_cons] at his hjs
    cases hal with
    | nil =>
      rw [map_singleton, unlines_singleton] at h
      obtain ⟨hends, hclose⟩ := aligned_piece hij his.1 hjs.1 h
      exact ⟨hends, List.Forall₂.cons hclose List.Forall₂.nil⟩
    | @cons i' j' is js hij' hal =>
      obtain ⟨piece, out', hpiece, hlast, hrest, hout⟩ := h
      obtain ⟨b, hb, rfl⟩ := hpiece.newline his.1 hlast
      rw [map_cons, unlines_cons _ (by simp), append_assoc, singleton_append,
        append_newline_inj hjs.1.newline_not_mem hb] at hout
      obtain ⟨rfl, rfl⟩ := hout
      obtain ⟨hends, hclose⟩ := @aligned_piece _ _ true hij his.1 hjs.1 hpiece
      obtain ⟨hkept, hcloses⟩ := ih his.2 hjs.2 hrest
      exact ⟨⟨hends, hkept⟩, List.Forall₂.cons hclose hcloses⟩

/-- The items of a layout, joined, when the kept lines end as they should. -/
theorem written_unlines (his : ∀ i ∈ is, i.OneLine) (h : EndsKept final is) :
    Written is (unlines (is.map Item.line) final) := by
  have hpiece : ∀ (i : Item) (final : Bool), i.OneLine → i.EndsAs final →
      i.Piece (i.line ++ ending final) := by
    intro i final hi hends
    cases i with
    | kept raw => exact (kept_eq_iff hi).mpr hends
    | new line => cases final <;> simp [Item.Piece, Item.line, ending]
  induction is with
  | nil => rfl
  | cons i is ih =>
    rw [forall_mem_cons] at his
    cases is with
    | nil =>
      rw [map_singleton, unlines_singleton]
      exact hpiece i final his.1 h
    | cons next rest =>
      refine ⟨i.line ++ ['\n'], _, hpiece i true his.1 h.1, getLast?_concat, ih his.2 h.2, ?_⟩
      rw [map_cons, unlines_cons _ (by simp), append_assoc, singleton_append]

def inkOf (is : List Item) : ℕ := (is.map fun i => i.line.length).sum

theorem eq_of_close (hal : List.Forall₂ Aligned is js) (hclose : List.Forall₂ Close is js) :
    inkOf is ≤ inkOf js ∧ (inkOf is = inkOf js → is = js) := by
  induction hal with
  | nil => exact ⟨Nat.le_refl _, fun _ => rfl⟩
  | @cons i j is js hij hal ih =>
    obtain ⟨hfirst, hrest⟩ := forall₂_cons.mp hclose
    obtain ⟨hle, heq⟩ := ih hrest
    simp only [inkOf, map_cons, sum_cons] at hle heq ⊢
    rcases hfirst with hline | hline
    · rw [hline]
      refine ⟨by omega, fun h => ?_⟩
      rw [heq (by omega)]
      congr 1
      match i, j, hij with
      | .kept raw, .kept _, rfl => rfl
      | .new _, .new _, _ => exact congrArg Item.new hline.symm
    · rw [hline, length_append, length_singleton]
      exact ⟨by omega, fun h => absurd h (by omega)⟩

end Written

section Result

variable {text out : Str} {edits edits' : List BatchEdit} {raws : List Str} {k n : ℕ}

theorem oneLine_layoutFrom (h : ∀ raw ∈ raws, Terminated raw ∨ Unterminated raw) :
    ∀ i ∈ layoutFrom edits k raws, i.OneLine := by
  have hnew : ∀ es : List BatchEdit, ∀ i ∈ (es.flatMap fun e => RustStr.lines e.body).map Item.new,
      i.OneLine := by
    intro es i hi
    obtain ⟨line, hline, rfl⟩ := mem_map.mp hi
    obtain ⟨e, -, hmem⟩ := mem_flatMap.mp hline
    exact newline_not_mem_of_mem_lines hmem
  induction raws generalizing k with
  | nil => exact hnew _
  | cons raw rest ih =>
    rw [forall_mem_cons] at h
    intro i hi
    rw [layoutFrom] at hi
    simp only [append_assoc, mem_append] at hi
    rcases hi with hi | hi | hi | hi
    · exact hnew _ i hi
    · exact hnew _ i hi
    · split at hi
      · cases hi
      · rw [mem_singleton] at hi
        exact hi ▸ h.1
    · exact ih h.2 i hi

theorem forall₂_aligned_new {xs ys : List Str} (h : xs.length = ys.length) :
    List.Forall₂ Aligned (xs.map Item.new) (ys.map Item.new) := by
  rw [forall₂_map_left_iff, forall₂_map_right_iff]
  exact forall₂_iff_get.mpr ⟨h, fun _ _ _ => trivial⟩

theorem inkOf_append (is js : List Item) : inkOf (is ++ js) = inkOf is + inkOf js := by
  rw [inkOf, map_append, sum_append, ← inkOf, ← inkOf]

/-- Two lists of edits whose insertions differ in their order only. -/
theorem layoutFrom_aligned (hrep : ∀ n, replacedAt edits n = replacedAt edits' n)
    (hcov : ∀ n, covered edits n = covered edits' n)
    (hins : ∀ n, (insertedAfter edits n).Perm (insertedAfter edits' n)) (k : ℕ)
    (raws : List Str) :
    List.Forall₂ Aligned (layoutFrom edits k raws) (layoutFrom edits' k raws) ∧
      inkOf (layoutFrom edits k raws) = inkOf (layoutFrom edits' k raws) := by
  have hnew : ∀ n, List.Forall₂ Aligned ((insertedAfter edits n).map Item.new)
      ((insertedAfter edits' n).map Item.new) ∧
        inkOf ((insertedAfter edits n).map Item.new) =
          inkOf ((insertedAfter edits' n).map Item.new) := by
    intro n
    refine ⟨forall₂_aligned_new (hins n).length_eq, ?_⟩
    exact (((hins n).map Item.new).map _).sum_nat
  have hself : ∀ is : List Item, List.Forall₂ Aligned is is := by
    intro is
    refine forall₂_same.mpr fun i _ => ?_
    cases i with
    | kept raw => exact rfl
    | new line => trivial
  induction raws generalizing k with
  | nil => exact hnew k
  | cons raw rest ih =>
    obtain ⟨hal, hink⟩ := ih (k + 1)
    rw [layoutFrom, layoutFrom, ← hrep, ← hcov]
    refine ⟨?_, ?_⟩
    · exact rel_append (rel_append (rel_append (hnew k).1 (hself _)) (hself _)) hal
    · simp only [inkOf_append, (hnew k).2, hink]

/-- Equal layouts have equal insertions. -/
theorem insertedAfter_eq_of_layoutFrom (hrep : ∀ n, replacedAt edits n = replacedAt edits' n)
    (hcov : ∀ n, covered edits n = covered edits' n)
    (hins : ∀ n, (insertedAfter edits n).Perm (insertedAfter edits' n))
    (h : layoutFrom edits k raws = layoutFrom edits' k raws) (hfrom : k ≤ n)
    (hto : n ≤ k + raws.length) : insertedAfter edits n = insertedAfter edits' n := by
  have hinj : Function.Injective (List.map Item.new) :=
    map_injective_iff.mpr fun _ _ h => Item.new.inj h
  induction raws generalizing k with
  | nil =>
    obtain rfl : n = k := Nat.le_antisymm hto hfrom
    exact hinj h
  | cons raw rest ih =>
    rw [layoutFrom, layoutFrom, ← hrep, ← hcov] at h
    simp only [append_assoc] at h
    obtain ⟨hfirst, hrest⟩ := append_inj h (by simp [(hins k).length_eq])
    rw [append_cancel_left_eq, append_cancel_left_eq] at hrest
    rcases Nat.eq_or_lt_of_le hfrom with rfl | hlt
    · exact hinj hfirst
    · rw [length_cons] at hto
      exact ih hrest hlt (by omega)

theorem layoutFrom_congr (hrep : ∀ n, replacedAt edits n = replacedAt edits' n)
    (hcov : ∀ n, covered edits n = covered edits' n)
    (hins : ∀ n, insertedAfter edits n = insertedAfter edits' n) (k : ℕ) (raws : List Str) :
    layoutFrom edits k raws = layoutFrom edits' k raws := by
  induction raws generalizing k with
  | nil => simp only [layoutFrom, hins]
  | cons raw rest ih => simp only [layoutFrom, hrep, hcov, hins, ih]

/-- An accepted batch is the simultaneous change of the snapshot exactly when the insertions at
each anchor read the same in both orders and the terminators of the kept lines survive the
join. -/
theorem batch_edits_simultaneous_iff (text : Str) (edits : List BatchEdit) (out : Str)
    (h : runBatchEditsOnSnapshot text edits = .ok out) :
    Written (simultaneous edits text) out ↔
      (∀ n, insertedAfter edits n = insertedAfter edits.reverse n) ∧
        EndsKept (finalNewline text) (simultaneous edits text) := by
  obtain ⟨hconflicts, hbounds, -, rfl⟩ := runBatchEditsOnSnapshot_eq_ok_iff.mp h
  have hfree := checkEditsConflicts_eq_ok_iff.mp hconflicts
  have hin : ∀ e ∈ edits, e.endLine ≤ (rawLines text).length := by
    intro e he
    rw [length_rawLines]
    exact endLine_le_of_checkEditsBounds hbounds he
  have hperm := (fileOrder_perm edits).symm
  have hrep := fun n => replacedAt_perm hfree hperm n
  have hcov := fun n => covered_perm hperm n
  have hins : ∀ n, (insertedAfter edits n).Perm (insertedAfter (fileOrder edits) n) := fun n =>
    (hperm.filter _).flatMap_right _
  have hone : ∀ es, ∀ i ∈ simultaneous es text, i.OneLine := fun es =>
    oneLine_layoutFrom fun raw hraw => (areRaw_rawLines text).terminated hraw
  rw [applyEdits_eq_layout hfree hin]
  constructor
  · intro hwritten
    obtain ⟨hal, hink⟩ := layoutFrom_aligned hrep hcov hins 0 (rawLines text)
    obtain ⟨hkept, hclose⟩ := hwritten.aligned hal (hone _) (hone _)
    have heq := (eq_of_close hal hclose).2 hink
    refine ⟨fun n => ?_, hkept⟩
    rw [← insertedAfter_fileOrder]
    by_cases hn : n ≤ (rawLines text).length
    · exact insertedAfter_eq_of_layoutFrom hrep hcov hins heq (Nat.zero_le n) (by omega)
    · have hnil : insertedAfter edits n = [] := by
        rw [insertedAfter, filter_eq_nil_iff.mpr, flatMap_nil]
        intro e he
        have hle := hin e he
        have hrange := e.range
        simp only [decide_eq_true_eq]
        rintro ⟨hkind, rfl⟩
        rw [hkind] at hrange
        exact hn (hrange ▸ hle)
      have hnil' := hins n
      rw [hnil] at hnil' ⊢
      exact hnil'.nil_eq
  · rintro ⟨horder, hkept⟩
    have heq : simultaneous edits text = simultaneous (fileOrder edits) text :=
      layoutFrom_congr hrep hcov (fun n => by rw [horder, insertedAfter_fileOrder]) 0 _
    rw [← heq]
    exact written_unlines (hone edits) hkept

/-- Two insertions and a replacement in a file of three lines. -/
def threeEdits : List BatchEdit :=
  [⟨.insert, 0, 0, "top".toList, none, none, none, none, "edits[0]".toList, rfl⟩,
    ⟨.replace, 2, 2, "x\ny".toList, some "b".toList, none, none, none, "edits[1]".toList,
      ⟨by decide, by decide⟩⟩,
    ⟨.insert, 3, 3, "end\n".toList, none, none, none, none, "edits[2]".toList, rfl⟩]

theorem batch_edits_simultaneous_threeEdits :
    runBatchEditsOnSnapshot "a\nb\nc\n".toList threeEdits =
        .ok "top\na\nx\ny\nc\nend\n".toList ∧
      (Written (simultaneous threeEdits "a\nb\nc\n".toList) "top\na\nx\ny\nc\nend\n".toList ↔
        (∀ n, insertedAfter threeEdits n = insertedAfter threeEdits.reverse n) ∧
          EndsKept true (simultaneous threeEdits "a\nb\nc\n".toList)) := by
  have hok : runBatchEditsOnSnapshot "a\nb\nc\n".toList threeEdits =
      .ok "top\na\nx\ny\nc\nend\n".toList := by
    decide +kernel
  exact ⟨hok, batch_edits_simultaneous_iff _ _ _ hok⟩

/-- Two insertions behind the first line. -/
def twoInsertions : List BatchEdit :=
  [⟨.insert, 1, 1, "b".toList, none, none, none, none, "edits[0]".toList, rfl⟩,
    ⟨.insert, 1, 1, "c".toList, none, none, none, none, "edits[1]".toList, rfl⟩]

/-- The second one comes out in front of the first. -/
theorem not_batch_edits_simultaneous :
    (¬ ∀ text edits out, runBatchEditsOnSnapshot text edits = .ok out →
      Written (simultaneous edits text) out) ∧
      runBatchEditsOnSnapshot "a\n".toList twoInsertions = .ok "a\nc\nb\n".toList := by
  have hok : runBatchEditsOnSnapshot "a\n".toList twoInsertions = .ok "a\nc\nb\n".toList := by
    decide +kernel
  have hlayout : simultaneous twoInsertions "a\n".toList =
      [.kept "a\n".toList, .new "b".toList, .new "c".toList] := by
    decide +kernel
  refine ⟨fun h => ?_, hok⟩
  have hwritten := h _ _ _ hok
  rw [hlayout] at hwritten
  obtain ⟨-, -, rfl, -, ⟨b, c, hb, -, hc, rfl⟩, hout⟩ := hwritten
  have hfirst : (b ++ c).head? = some 'c' := by
    rw [append_cancel_left (show "a\n".toList ++ (b ++ c) = "a\n".toList ++ "c\nb\n".toList
      from hout.symm)]
    rfl
  rcases hb with rfl | rfl | rfl <;> exact absurd hfirst (by simp)

end Result

end CrabMate
