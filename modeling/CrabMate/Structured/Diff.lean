import CrabMate.Structured.Pointer
import Mathlib.Data.List.Sort

/-! The structured diff of two values: a recursion over both sides with one budget of lines. -/
namespace CrabMate.Structured
open List

open RustStr (Str)

inductive DiffLine where
  | differs (pointer : Str) (a b : Value)
  | onlyB (pointer : Str) (b : Value)
  | onlyA (pointer : Str) (a : Value)

def DiffLine.pointer : DiffLine → Str
  | .differs pointer _ _ | .onlyB pointer _ | .onlyA pointer _ => pointer

def childPointer (base seg : Str) : Str :=
  if base.isEmpty then '/' :: seg else base ++ '/' :: seg

/-- The keys of both sides, in order. -/
def diffKeys (oa ob : List (Str × Value)) : List Str :=
  (oa.map Prod.fst ++ ob.map Prod.fst).dedup.insertionSort (· ≤ ·)

theorem sizeOf_get_lt (k : Str) (fields : List (Str × Value)) :
    sizeOf (OrdMap.get k fields) < sizeOf (Value.object fields) := by
  cases h : OrdMap.get k fields with
  | none =>
    cases fields <;> simp
  | some v =>
    have hmem := sizeOf_lt_of_mem (OrdMap.mem_of_get h)
    simp only [Prod.mk.sizeOf_spec, Value.object.sizeOf_spec, Option.some.sizeOf_spec] at hmem ⊢
    omega

theorem sizeOf_getElem?_lt (i : ℕ) (xs : List Value) :
    sizeOf xs[i]? < sizeOf (Value.array xs) := by
  cases h : xs[i]? with
  | none =>
    cases xs <;> simp
  | some v =>
    have hmem := sizeOf_lt_of_mem (mem_of_getElem? h)
    simp only [Value.array.sizeOf_spec, Option.some.sizeOf_spec] at hmem ⊢
    omega

mutual
/-- The lines so far are passed along; none is added once there are `maxLines`. -/
def diffRecursive (maxLines : ℕ) (base : Str) (a b : Value) (out : List DiffLine) :
    List DiffLine :=
  if maxLines ≤ out.length then out
  else if a.eqv b then out
  else
    match a, b with
    | .object oa, .object ob =>
      (diffKeys oa ob).foldl (fun out k =>
        if maxLines ≤ out.length then out
        else diffValuePair maxLines (childPointer base (jsonPointerEscape k)) (OrdMap.get k oa)
          (OrdMap.get k ob) out) out
    | .array aa, .array ab =>
      (List.range (max aa.length ab.length)).foldl (fun out i =>
        if maxLines ≤ out.length then out
        else diffValuePair maxLines (childPointer base (indexText i)) aa[i]? ab[i]? out) out
    | a, b => out ++ [.differs (if base.isEmpty then ['/'] else base) a b]
termination_by sizeOf a
decreasing_by
  · exact sizeOf_get_lt k oa
  · exact sizeOf_getElem?_lt i aa

def diffValuePair (maxLines : ℕ) (p : Str) (va vb : Option Value) (out : List DiffLine) :
    List DiffLine :=
  match va, vb with
  | none, some b => out ++ [.onlyB p b]
  | some a, none => out ++ [.onlyA p a]
  | some a, some b => diffRecursive maxLines p a b out
  | none, none => out
termination_by sizeOf va
decreasing_by simp
end

/-! What the lines say. -/

/-- Both are missing, or both are there and equal. -/
def Same : Option Value → Option Value → Prop
  | none, none => True
  | some a, some b => a.eqv b = true
  | _, _ => False

/-- The root is shown as `/`. -/
def shownPointer (p : List Step) : Str := if p = [] then ['/'] else pointerText p

/-- The line is about these two: they differ, or one of them is missing. -/
def DiffLine.Shows (line : DiffLine) (va vb : Option Value) : Prop :=
  match line with
  | .differs _ a b => va = some a ∧ vb = some b ∧ a.eqv b = false
  | .onlyB _ b => va = none ∧ vb = some b
  | .onlyA _ a => va = some a ∧ vb = none

/-- Two objects or two arrays. -/
def sameKind : Value → Value → Bool
  | .object _, .object _ | .array _, .array _ => true
  | _, _ => false

/-- Neither side is looked into. -/
def Unopened (va vb : Option Value) : Prop :=
  ∀ a b, va = some a → vb = some b → sameKind a b = false

def FitsIn (p : List Step) (v : Option Value) : Prop := ∀ w, v = some w → Fits p w

/-- The line is about a place below `base`, or about `base` itself where nothing is looked into. -/
def DiffLine.About (base : List Step) (va vb : Option Value) (line : DiffLine) : Prop :=
  ∃ q, (q = [] → Unopened va vb) ∧ FitsIn q va ∧ FitsIn q vb ∧
    line.pointer = shownPointer (base ++ q) ∧
    line.Shows (va.bind (Value.at? q)) (vb.bind (Value.at? q))

/-- What a comparison adds to the lines. -/
structure Reports (maxLines : ℕ) (base : List Step) (va vb : Option Value)
    (out out' : List DiffLine) : Prop where
  lines : ∃ new, out' = out ++ new ∧ ∀ line ∈ new, line.About base va vb
  bound : out'.length ≤ max out.length maxLines
  complete : out.length < maxLines → (out' = out ↔ Same va vb)

section Compare

variable {maxLines : ℕ} {base : List Step} {a b : Value} {va vb : Option Value}
  {out out' : List DiffLine} {xs ys : List (Str × Value)} {s : Step}

theorem mem_diffKeys {k : Str} :
    k ∈ diffKeys xs ys ↔ k ∈ xs.map Prod.fst ∨ k ∈ ys.map Prod.fst := by
  rw [diffKeys, mem_insertionSort, mem_dedup, mem_append]

theorem childPointer_eq (base : List Step) (s : Step) :
    childPointer (pointerText base) (stepText s) = pointerText (base ++ [s]) := by
  rw [pointerText_concat, childPointer]
  split
  · rename_i h
    rw [List.isEmpty_iff.mp h, nil_append]
  · rfl

theorem shownPointer_eq (base : List Step) :
    (if (pointerText base).isEmpty then ['/'] else pointerText base) = shownPointer base := by
  cases base <;> rfl

/-- Ordered members that are not equal differ at one of the keys. -/
theorem exists_key_ne (hx : OrdMap.Ascending xs) (hy : OrdMap.Ascending ys)
    (h : Value.eqvFields xs ys = false) :
    ∃ k ∈ diffKeys xs ys, ¬ Same (OrdMap.get k xs) (OrdMap.get k ys) := by
  induction xs generalizing ys with
  | nil =>
    cases ys with
    | nil => cases h
    | cons f ys =>
      refine ⟨f.1, mem_diffKeys.mpr (.inr mem_cons_self), ?_⟩
      rw [show f = (f.1, f.2) from rfl, OrdMap.get_cons_self]
      exact id
  | cons e xs ih =>
    obtain ⟨k, x⟩ := e
    obtain ⟨hkx, hxs⟩ := OrdMap.ascending_cons.mp hx
    cases ys with
    | nil =>
      refine ⟨k, mem_diffKeys.mpr (.inl mem_cons_self), ?_⟩
      rw [OrdMap.get_cons_self]
      exact id
    | cons f ys =>
      obtain ⟨l, y⟩ := f
      obtain ⟨hly, hys⟩ := OrdMap.ascending_cons.mp hy
      obtain hlt | rfl | hgt := lt_trichotomy k l
      · refine ⟨k, mem_diffKeys.mpr (.inl mem_cons_self), ?_⟩
        rw [OrdMap.get_cons_self, OrdMap.get_cons_ne hlt.ne, OrdMap.get_of_lt hy hlt.le]
        exact id
      · by_cases hxy : x.eqv y = true
        · have htail : Value.eqvFields xs ys = false := by
            simpa [Value.eqvFields, hxy] using h
          obtain ⟨m, hm, hne⟩ := ih hxs hys htail
          have hkm : k < m := by
            obtain hm | hm := mem_diffKeys.mp hm
            · obtain ⟨f, hf, rfl⟩ := mem_map.mp hm
              exact hkx f hf
            · obtain ⟨f, hf, rfl⟩ := mem_map.mp hm
              exact hly f hf
          refine ⟨m, ?_, ?_⟩
          · exact mem_diffKeys.mpr ((mem_diffKeys.mp hm).imp (mem_cons_of_mem _)
              (mem_cons_of_mem _))
          · rwa [OrdMap.get_cons_ne hkm.ne', OrdMap.get_cons_ne hkm.ne']
        · refine ⟨k, mem_diffKeys.mpr (.inl mem_cons_self), ?_⟩
          rw [OrdMap.get_cons_self, OrdMap.get_cons_self]
          exact hxy
      · refine ⟨l, mem_diffKeys.mpr (.inr mem_cons_self), ?_⟩
        rw [OrdMap.get_cons_self, OrdMap.get_cons_ne hgt.ne, OrdMap.get_of_lt hx hgt.le]
        exact id

theorem exists_index_ne {xs ys : List Value} (h : Value.eqvItems xs ys = false) :
    ∃ i < max xs.length ys.length, ¬ Same xs[i]? ys[i]? := by
  induction xs generalizing ys with
  | nil =>
    cases ys with
    | nil => cases h
    | cons y ys => exact ⟨0, by simp, by simp [Same]⟩
  | cons x xs ih =>
    cases ys with
    | nil => exact ⟨0, by simp, by simp [Same]⟩
    | cons y ys =>
      by_cases hxy : x.eqv y = true
      · obtain ⟨i, hi, hne⟩ := ih (by simpa [Value.eqvItems, hxy] using h)
        refine ⟨i + 1, ?_, by simpa using hne⟩
        simp only [length_cons]
        omega
      · exact ⟨0, by simp, by simpa [Same] using hxy⟩

/-- A loop that stops at the budget: what its turns report, for the steps it goes through. -/
theorem foldl_reports (compare : Step → List DiffLine → List DiffLine) (steps : List Step)
    (hfits : ∀ s ∈ steps, StepFits s a ∧ StepFits s b)
    (h : ∀ s ∈ steps, ∀ out : List DiffLine, out.length < maxLines →
      Reports maxLines (base ++ [s]) (a.child? s) (b.child? s) out (compare s out))
    (out : List DiffLine) :
    ∃ new, steps.foldl (fun out s => if maxLines ≤ out.length then out else compare s out) out =
        out ++ new ∧ (∀ line ∈ new, line.About base (some a) (some b)) ∧
      (out ++ new).length ≤ max out.length maxLines ∧
      (out.length < maxLines → (new = [] ↔ ∀ s ∈ steps, Same (a.child? s) (b.child? s))) := by
  induction steps generalizing out with
  | nil => exact ⟨[], by simp⟩
  | cons s steps ih =>
    obtain ⟨hs, hrest⟩ := forall_mem_cons.mp hfits
    obtain ⟨hcompare, hcompares⟩ := forall_mem_cons.mp h
    rw [foldl_cons]
    by_cases hfull : maxLines ≤ out.length
    · rw [if_pos hfull]
      obtain ⟨new, hnew, hlines, hbound, -⟩ := ih hrest hcompares out
      exact ⟨new, hnew, hlines, hbound, fun hlt => absurd hfull (by omega)⟩
    · rw [if_neg hfull]
      have hlt : out.length < maxLines := by omega
      obtain ⟨⟨first, hfirst, habout⟩, hbound₁, hcomplete₁⟩ := hcompare out hlt
      rw [hfirst] at hbound₁ hcomplete₁ ⊢
      obtain ⟨new, hnew, hlines, hbound, hcomplete⟩ := ih hrest hcompares (out ++ first)
      refine ⟨first ++ new, by rw [hnew, append_assoc], ?_, ?_, fun _ => ?_⟩
      · intro line hline
        obtain hline | hline := mem_append.mp hline
        · obtain ⟨q, -, hqa, hqb, hpointer, hshows⟩ := habout line hline
          refine ⟨s :: q, fun hnil => absurd hnil (cons_ne_nil s q), ?_, ?_,
            by rw [hpointer, append_assoc]; rfl, hshows⟩
          · intro w hw
            obtain rfl := Option.some.inj hw
            exact ⟨hs.1, hqa⟩
          · intro w hw
            obtain rfl := Option.some.inj hw
            exact ⟨hs.2, hqb⟩
        · exact hlines line hline
      · rw [← append_assoc]
        omega
      · have hself : first = [] ↔ Same (a.child? s) (b.child? s) := by
          rw [← hcomplete₁ hlt]
          simp
        rw [append_eq_nil_iff, forall_mem_cons, hself]
        refine and_congr_right fun hsame => hcomplete ?_
        rw [hself.mpr hsame, append_nil]
        exact hlt

/-- A comparison of two containers of one kind, from the loop over their steps. -/
theorem reports_of_foldl (out : List DiffLine)
    (compare : Step → List DiffLine → List DiffLine) (steps : List Step)
    (hfits : ∀ s ∈ steps, StepFits s a ∧ StepFits s b)
    (h : ∀ s ∈ steps, ∀ out : List DiffLine, out.length < maxLines →
      Reports maxLines (base ++ [s]) (a.child? s) (b.child? s) out (compare s out))
    (hne : ∃ s ∈ steps, ¬ Same (a.child? s) (b.child? s)) (heqv : a.eqv b = false) :
    Reports maxLines base (some a) (some b) out
      (steps.foldl (fun out s => if maxLines ≤ out.length then out else compare s out) out) := by
  obtain ⟨new, hnew, hlines, hbound, hcomplete⟩ := foldl_reports compare steps hfits h out
  rw [hnew]
  refine ⟨⟨new, rfl, hlines⟩, hbound, fun hlt => ?_⟩
  obtain ⟨s, hs, hdiffer⟩ := hne
  constructor
  · intro heq
    exact absurd ((hcomplete hlt).mp (by simpa using heq) s hs) hdiffer
  · intro hsame
    rw [Same, heqv] at hsame
    cases hsame

theorem Reports.unchanged (hsame : Same va vb) : Reports maxLines base va vb out out :=
  ⟨⟨[], by simp⟩, Nat.le_max_left _ _, fun _ => iff_of_true rfl hsame⟩

theorem Reports.one {line : DiffLine} (hpointer : line.pointer = shownPointer base)
    (hkind : Unopened va vb) (hshows : line.Shows va vb) (hne : ¬ Same va vb)
    (hlt : out.length < maxLines) :
    Reports maxLines base va vb out (out ++ [line]) := by
  refine ⟨⟨[line], rfl, ?_⟩, ?_, fun _ => iff_of_false (by simp) hne⟩
  · intro l hl
    obtain rfl := mem_singleton.mp hl
    exact ⟨[], fun _ => hkind, fun _ _ => trivial, fun _ _ => trivial, by rw [append_nil, hpointer],
      by cases va <;> cases vb <;> exact hshows⟩
  · rw [length_append, length_singleton]
    omega

theorem shownPointer_concat (base : List Step) (s : Step) :
    shownPointer (base ++ [s]) = pointerText (base ++ [s]) :=
  if_neg (concat_ne_nil s base)

end Compare

/-! The recursion. -/

section Recursion

variable {maxLines : ℕ} {a b : Value} {va vb : Option Value} {base : List Step} {s : Step}

theorem diffValuePair_reports {out : List DiffLine} (hlt : out.length < maxLines)
    (h : ∀ v w, va = some v → vb = some w →
      Reports maxLines (base ++ [s]) (some v) (some w) out
        (diffRecursive maxLines (pointerText (base ++ [s])) v w out)) :
    Reports maxLines (base ++ [s]) va vb out
      (diffValuePair maxLines (pointerText (base ++ [s])) va vb out) := by
  rw [← shownPointer_concat] at h ⊢
  cases va with
  | none =>
    cases vb with
    | none =>
      rw [diffValuePair]
      exact .unchanged trivial
    | some w =>
      rw [diffValuePair]
      exact .one rfl (fun _ _ hv _ => by cases hv) ⟨rfl, rfl⟩ id hlt
  | some v =>
    cases vb with
    | none =>
      rw [diffValuePair]
      exact .one rfl (fun _ _ _ hw => by cases hw) ⟨rfl, rfl⟩ id hlt
    | some w =>
      rw [diffValuePair]
      exact h v w rfl rfl

/-- The comparison of the two children at a step. -/
abbrev comparePair (maxLines : ℕ) (base : List Step) (a b : Value) (s : Step)
    (out : List DiffLine) : List DiffLine :=
  diffValuePair maxLines (childPointer (pointerText base) (stepText s)) (a.child? s) (b.child? s)
    out

variable {out : List DiffLine}

theorem reports_objects {oa ob : List (Str × Value)} (ha : (Value.object oa).WellFormed)
    (hb : (Value.object ob).WellFormed) (hfull : ¬ maxLines ≤ out.length)
    (heqv : (Value.object oa).eqv (.object ob) = false)
    (hpairs : ∀ s out, out.length < maxLines →
      sizeOf ((Value.object oa).child? s) < sizeOf (Value.object oa) →
      Reports maxLines (base ++ [s]) ((Value.object oa).child? s) ((Value.object ob).child? s) out
        (comparePair maxLines base (.object oa) (.object ob) s out)) :
    Reports maxLines base (some (.object oa)) (some (.object ob)) out
      (diffRecursive maxLines (pointerText base) (.object oa) (.object ob) out) := by
  cases ha with
  | object hasc _ =>
    cases hb with
    | object hbsc _ =>
      obtain ⟨k, hk, hne⟩ := exists_key_ne hasc hbsc heqv
      rw [diffRecursive, if_neg hfull, if_neg (by rw [heqv]; exact Bool.false_ne_true)]
      have hfold := reports_of_foldl out _ ((diffKeys oa ob).map Step.key)
        (fun s hs => ?_) (fun s hs out hlt => hpairs s out hlt ?_)
        ⟨.key k, mem_map_of_mem hk, hne⟩ heqv
      · rw [foldl_map] at hfold
        exact hfold
      · obtain ⟨l, -, rfl⟩ := mem_map.mp hs
        exact ⟨trivial, trivial⟩
      · obtain ⟨l, -, rfl⟩ := mem_map.mp hs
        exact sizeOf_get_lt l oa

theorem reports_arrays {aa ab : List Value} (ha : (Value.array aa).WellFormed)
    (hb : (Value.array ab).WellFormed) (hfull : ¬ maxLines ≤ out.length)
    (heqv : (Value.array aa).eqv (.array ab) = false)
    (hpairs : ∀ s out, out.length < maxLines →
      sizeOf ((Value.array aa).child? s) < sizeOf (Value.array aa) →
      Reports maxLines (base ++ [s]) ((Value.array aa).child? s) ((Value.array ab).child? s) out
        (comparePair maxLines base (.array aa) (.array ab) s out)) :
    Reports maxLines base (some (.array aa)) (some (.array ab)) out
      (diffRecursive maxLines (pointerText base) (.array aa) (.array ab) out) := by
  cases ha with
  | array hla _ =>
    cases hb with
    | array hlb _ =>
      obtain ⟨i, hi, hne⟩ := exists_index_ne heqv
      rw [diffRecursive, if_neg hfull, if_neg (by rw [heqv]; exact Bool.false_ne_true)]
      have hfold := reports_of_foldl out _ ((List.range (max aa.length ab.length)).map Step.index)
        (fun s hs => ?_) (fun s hs out hlt => hpairs s out hlt ?_)
        ⟨.index i, mem_map_of_mem (mem_range.mpr hi), hne⟩ heqv
      · rw [foldl_map] at hfold
        exact hfold
      · obtain ⟨j, hj, rfl⟩ := mem_map.mp hs
        have hj := mem_range.mp hj
        exact ⟨by simp only [StepFits]; omega, by simp only [StepFits]; omega⟩
      · obtain ⟨j, -, rfl⟩ := mem_map.mp hs
        exact sizeOf_getElem?_lt j aa

/-- Two values of different kinds, or two scalars, that differ give one line. -/
theorem reports_unopened (hkind : sameKind a b = false) (hfull : ¬ maxLines ≤ out.length)
    (heqv : a.eqv b = false) :
    Reports maxLines base (some a) (some b) out
      (diffRecursive maxLines (pointerText base) a b out) := by
  have hunopened : Unopened (some a) (some b) := by
    rintro _ _ ⟨⟩ ⟨⟩
    exact hkind
  have hone : Reports maxLines base (some a) (some b) out
      (out ++ [.differs (if (pointerText base).isEmpty then ['/'] else pointerText base) a b]) :=
    .one (shownPointer_eq base) hunopened ⟨rfl, rfl, heqv⟩ (Bool.eq_false_iff.mp heqv) (by omega)
  rw [diffRecursive, if_neg hfull, if_neg (Bool.eq_false_iff.mp heqv)]
  · exact hone
  · rintro oa ob rfl rfl
    cases hkind
  · rintro aa ab rfl rfl
    cases hkind

/-- The induction is on the size of the left value. -/
theorem diffRecursive_reports (ha : a.WellFormed) (hb : b.WellFormed) (base : List Step)
    (out : List DiffLine) :
    Reports maxLines base (some a) (some b) out
      (diffRecursive maxLines (pointerText base) a b out) := by
  induction hn : sizeOf a using Nat.strong_induction_on generalizing a b base out with
  | h n ih =>
    subst hn
    have hpairs : ∀ s out, out.length < maxLines → sizeOf (a.child? s) < sizeOf a →
        Reports maxLines (base ++ [s]) (a.child? s) (b.child? s) out
          (comparePair maxLines base a b s out) := by
      intro s out hlt hsize
      rw [comparePair, childPointer_eq]
      refine diffValuePair_reports hlt fun v w hv hw => ?_
      refine ih (sizeOf v) ?_ (ha.child hv) (hb.child hw) _ _ rfl
      rw [hv, Option.some.sizeOf_spec] at hsize
      omega
    by_cases hfull : maxLines ≤ out.length
    · rw [diffRecursive.eq_def, if_pos hfull]
      exact ⟨⟨[], by simp⟩, Nat.le_max_left _ _, fun hlt => absurd hfull (by omega)⟩
    cases heqv : a.eqv b with
    | true =>
      rw [diffRecursive.eq_def, if_neg hfull, if_pos heqv]
      exact .unchanged heqv
    | false =>
      cases hkind : sameKind a b with
      | false => exact reports_unopened hkind hfull heqv
      | true =>
        cases a with
        | object oa =>
          cases b with
          | object ob => exact reports_objects ha hb hfull heqv hpairs
          | _ => cases hkind
        | array aa =>
          cases b with
          | array ab => exact reports_arrays ha hb hfull heqv hpairs
          | _ => cases hkind
        | _ => cases hkind

end Recursion

/-! The result. -/

/-- The place of a line, as its pointer reads in both values; the root is shown as `/`. -/
theorem reported_pointer {a b : Document} {line : DiffLine}
    (h : line.About [] (some a.value) (some b.value)) :
    (sameKind a.value b.value = false ∧ line.pointer = ['/'] ∧
        line.Shows (some a.value) (some b.value)) ∨
      line.Shows (a.value.pointer line.pointer) (b.value.pointer line.pointer) := by
  obtain ⟨q, hroot, hqa, hqb, hpointer, hshows⟩ := h
  rw [nil_append] at hpointer
  simp only [Option.bind_some] at hshows
  by_cases hq : q = []
  · subst hq
    exact .inl ⟨hroot rfl _ _ rfl rfl, hpointer, hshows⟩
  · rw [shownPointer, if_neg hq] at hpointer
    rw [hpointer, pointer_pointerText (hqa _ rfl), pointer_pointerText (hqb _ rfl)]
    exact .inr hshows

/-- The diff has a line exactly when the values differ, keeps to the budget, and each line is
about the values at its pointer; only for documents that are not two objects and not two arrays
there is a line about the whole of them, which shows `/`, as a pointer the member with the empty
key. -/
theorem diffRecursive_sound_complete (a b : Document) (maxLines : ℕ) (hmax : 1 ≤ maxLines) :
    (diffRecursive maxLines [] a.value b.value [] = [] ↔ a.value.eqv b.value = true) ∧
      (diffRecursive maxLines [] a.value b.value []).length ≤ maxLines ∧
      ∀ line ∈ diffRecursive maxLines [] a.value b.value [],
        (sameKind a.value b.value = false ∧ line.pointer = ['/'] ∧
            line.Shows (some a.value) (some b.value)) ∨
          line.Shows (a.value.pointer line.pointer) (b.value.pointer line.pointer) := by
  have hreports : Reports maxLines [] (some a.value) (some b.value) []
      (diffRecursive maxLines (pointerText []) a.value b.value []) :=
    diffRecursive_reports a.wellFormed b.wellFormed [] []
  obtain ⟨⟨new, hnew, hlines⟩, hbound, hcomplete⟩ := hreports
  rw [pointerText_nil] at hnew hbound hcomplete
  refine ⟨hcomplete hmax, ?_, fun line hline => ?_⟩
  · rwa [length_nil, Nat.zero_max] at hbound
  · rw [hnew, nil_append] at hline
    exact reported_pointer (hlines line hline)

/-- A document with one value two levels down. -/
def nestedDocument (flag : Bool) : Document where
  value := .object [("a".toList, .array [.bool true, .object [("b".toList, .bool flag)]])]
  wellFormed := by
    refine .object (pairwise_singleton _ _) fun f hf => ?_
    obtain rfl := mem_singleton.mp hf
    refine .array (show 2 < 2 ^ 63 by decide) fun x hx => ?_
    rcases mem_pair.mp hx with rfl | rfl
    · exact .bool true
    · refine .object (pairwise_singleton _ _) fun g hg => ?_
      obtain rfl := mem_singleton.mp hg
      exact .bool flag

theorem diffRecursive_sound_complete_nested :
    sameKind (nestedDocument true).value (nestedDocument false).value = true ∧
      (diffRecursive 3 [] (nestedDocument true).value (nestedDocument false).value [] = [] ↔
        (nestedDocument true).value.eqv (nestedDocument false).value = true) ∧
      (diffRecursive 3 [] (nestedDocument true).value (nestedDocument false).value []).length ≤ 3 ∧
      ∀ line ∈ diffRecursive 3 [] (nestedDocument true).value (nestedDocument false).value [],
        line.Shows ((nestedDocument true).value.pointer line.pointer)
          ((nestedDocument false).value.pointer line.pointer) := by
  obtain ⟨hsound, hbound, hlines⟩ :=
    diffRecursive_sound_complete (nestedDocument true) (nestedDocument false) 3 (by decide)
  refine ⟨rfl, hsound, hbound, fun line hline => (hlines line hline).resolve_left ?_⟩
  rintro ⟨hkind, -⟩
  cases hkind

def trueDocument : Document := ⟨.bool true, .bool true⟩

def falseDocument : Document := ⟨.bool false, .bool false⟩

/-- The line about two different scalars points to a place that neither has. -/
theorem not_pointer_addresses_difference :
    ¬ ∀ (a b : Document) (maxLines : ℕ), 1 ≤ maxLines →
      ∀ line ∈ diffRecursive maxLines [] a.value b.value [],
        ¬ Same (a.value.pointer line.pointer) (b.value.pointer line.pointer) := by
  intro h
  have hlines : diffRecursive 1 [] trueDocument.value falseDocument.value [] =
      [.differs ['/'] trueDocument.value falseDocument.value] := by
    simp [diffRecursive, trueDocument, falseDocument, Value.eqv]
  have hmem : DiffLine.differs ['/'] trueDocument.value falseDocument.value ∈
      diffRecursive 1 [] trueDocument.value falseDocument.value [] := by
    rw [hlines]
    exact mem_singleton_self _
  exact h trueDocument falseDocument 1 (by decide) _ hmem trivial

end CrabMate.Structured
