import CrabMate.Context.Compaction

/-! The removal of orphan tool results as the code runs it: a mask over the rows, decided from left
to right by a walk back over the rows that are already out. It keeps what the left-to-right filter
keeps. -/
namespace CrabMate
open List

section Model

/-- `keep[i]`; the mask is as long as the list. -/
def kept (keep : List Bool) (i : ℕ) : Bool := keep.getD i true

/-- The walk back from `prev` to a row that is kept, or to the first row. -/
def walkBack (keep : List Bool) : ℕ → ℕ
  | 0 => 0
  | prev + 1 => if kept keep (prev + 1) then prev + 1 else walkBack keep prev

def hasValidPredecessor (messages : List Message) (keep : List Bool) (i : ℕ) : Bool :=
  0 < i &&
    let prev := walkBack keep (i - 1)
    kept keep prev && (messages[prev]?).any answersCall

/-- The decision on row `i`. -/
def keepStep (messages : List Message) (keep : List Bool) (i : ℕ) : List Bool :=
  if (messages[i]?).any (fun m => m.role == "tool") && !hasValidPredecessor messages keep i then
    keep.set i false
  else keep

def keepMask (messages : List Message) : List Bool :=
  (List.range messages.length).foldl (keepStep messages) (List.replicate messages.length true)

def retained (messages : List Message) (keep : List Bool) : List Message :=
  ((messages.zip keep).filter Prod.snd).map Prod.fst

/-- The rows that stay, and how many were removed. -/
def dropOrphanToolMessagesByMask (messages : List Message) : List Message × ℕ :=
  let rows := retained messages (keepMask messages)
  (rows, messages.length - rows.length)

end Model

section Masks

variable {messages : List Message} {keep : List Bool} {i : ℕ}

theorem zip_take_left {α β : Type*} (xs : List α) (ys : List β) (j : ℕ) :
    (xs.take j).zip ys = (xs.take j).zip (ys.take j) := by
  induction j generalizing xs ys with
  | zero => rw [take_zero, zip_nil_left, zip_nil_left]
  | succ j ih =>
    cases xs with
    | nil => rfl
    | cons x xs =>
      cases ys with
      | nil => rfl
      | cons y ys => exact congrArg ((x, y) :: ·) (ih xs ys)

theorem retained_take_succ {m : Message} (hm : messages[i]? = some m) (hi : i < keep.length) :
    retained (messages.take (i + 1)) keep =
      retained (messages.take i) keep ++ if kept keep i then [m] else [] := by
  obtain ⟨hlt, rfl⟩ := List.getElem?_eq_some_iff.mp hm
  have hkeep : keep = keep.take i ++ keep[i] :: keep.drop (i + 1) := by
    rw [← drop_eq_getElem_cons hi, take_append_drop]
  have hlen : (messages.take i).length = (keep.take i).length := by
    rw [length_take, length_take]
    omega
  have hzip : (messages.take (i + 1)).zip keep =
      (messages.take i).zip keep ++ [(messages[i], keep[i])] := by
    rw [zip_take_left messages keep i, take_succ_eq_append_getElem hlt]
    conv_lhs => rw [hkeep]
    rw [zip_append hlen]
    rfl
  have hread : kept keep i = keep[i] := by
    rw [kept, getD_eq_getElem?_getD, getElem?_eq_getElem hi, Option.getD_some]
  rw [retained, hzip, filter_append, map_append, hread]
  cases hb : keep[i] <;> simp [retained]

theorem retained_take_set (b : Bool) {j : ℕ} (hj : j ≤ i) :
    retained (messages.take j) (keep.set i b) = retained (messages.take j) keep := by
  rw [retained, retained, zip_take_left, zip_take_left messages keep, take_set_of_le hj]

/-- The walk back ends at the last row kept so far, if there is one. -/
theorem walkBack_spec (hi : i < messages.length) (hlen : keep.length = messages.length) :
    (if kept keep (walkBack keep i) then messages[walkBack keep i]? else none) =
      (retained (messages.take (i + 1)) keep).getLast? := by
  induction i with
  | zero =>
    rw [retained_take_succ (getElem?_eq_getElem hi) (by omega), walkBack,
      getElem?_eq_getElem hi]
    cases kept keep 0 <;> rfl
  | succ i ih =>
    rw [retained_take_succ (getElem?_eq_getElem hi) (by omega), walkBack]
    cases hkept : kept keep (i + 1) with
    | false =>
      simp only [Bool.false_eq_true, if_false, append_nil]
      exact ih (by omega)
    | true => simp [hkept, getElem?_eq_getElem hi]

theorem hasValidPredecessor_eq (hi : i < messages.length) (hlen : keep.length = messages.length) :
    hasValidPredecessor messages keep i =
      ((retained (messages.take i) keep).getLast?).any answersCall := by
  cases i with
  | zero => rfl
  | succ i =>
    rw [← walkBack_spec (by omega) hlen, hasValidPredecessor]
    cases hkept : kept keep (walkBack keep i) <;> simp [hkept]

/-- The mask when the rows before `k` are decided. -/
structure DecidedUpTo (messages : List Message) (k : ℕ) (keep : List Bool) : Prop where
  length : keep.length = messages.length
  undecided : ∀ j, k ≤ j → kept keep j = true
  decided : ∀ j < k, ∀ m, messages[j]? = some m → (kept keep j = false ↔ m.role = "tool" ∧
    ((retained (messages.take j) keep).getLast?).any answersCall = false)

theorem kept_set (b : Bool) (hi : i < keep.length) (j : ℕ) :
    kept (keep.set i b) j = if i = j then b else kept keep j := by
  simp only [kept, getD_eq_getElem?_getD, getElem?_set, hi, if_true]
  split <;> rfl

theorem DecidedUpTo.step {k : ℕ} (h : DecidedUpTo messages k keep) (hk : k < messages.length) :
    DecidedUpTo messages (k + 1) (keepStep messages keep k) := by
  have hvalid := hasValidPredecessor_eq hk h.length
  obtain ⟨m, hm⟩ : ∃ m, messages[k]? = some m := ⟨_, getElem?_eq_getElem hk⟩
  have hset : ∀ j, kept (keep.set k false) j = if k = j then false else kept keep j :=
    kept_set false (by rw [h.length]; exact hk)
  unfold keepStep
  simp only [hm, Option.any_some, hvalid]
  by_cases horphan : m.role = "tool" ∧
      ((retained (messages.take k) keep).getLast?).any answersCall = false
  · simp only [horphan, beq_self_eq_true, Bool.not_false, Bool.and_self, if_true]
    constructor
    · rw [length_set, h.length]
    · intro j hj
      rw [hset, if_neg (by omega)]
      exact h.undecided j (by omega)
    · intro j hj m' hm'
      rw [hset, retained_take_set false (by omega)]
      by_cases hjk : k = j
      · subst hjk
        rw [hm, Option.some.injEq] at hm'
        subst hm'
        simp [horphan]
      · rw [if_neg hjk]
        exact h.decided j (by omega) m' hm'
  · have hcond : ((m.role == "tool") &&
        !((retained (messages.take k) keep).getLast?).any answersCall) = false := by
      rw [Bool.eq_false_iff]
      intro htrue
      rw [Bool.and_eq_true, beq_iff_eq, Bool.not_eq_true'] at htrue
      exact horphan htrue
    rw [hcond]
    simp only [Bool.false_eq_true, if_false]
    constructor
    · exact h.length
    · exact fun j hj => h.undecided j (by omega)
    · intro j hj m' hm'
      by_cases hjk : k = j
      · subst hjk
        rw [hm, Option.some.injEq] at hm'
        subst hm'
        rw [h.undecided k (Nat.le_refl k)]
        simp only [Bool.true_eq_false, false_iff]
        exact horphan
      · exact h.decided j (by omega) m' hm'

theorem keepMask_decided (messages : List Message) :
    DecidedUpTo messages messages.length (keepMask messages) := by
  have hloop : ∀ k ≤ messages.length, DecidedUpTo messages k
      ((List.range k).foldl (keepStep messages) (List.replicate messages.length true)) := by
    intro k hk
    induction k with
    | zero =>
      constructor
      · rw [range_zero, foldl_nil, length_replicate]
      · intro j _
        rw [range_zero, foldl_nil, kept, getD_eq_getElem?_getD,
          getElem?_replicate]
        split <;> rfl
      · exact fun j hj => absurd hj (Nat.not_lt_zero j)
    | succ k ih =>
      rw [range_succ, foldl_append]
      exact (ih (by omega)).step (by omega)
  exact hloop messages.length (Nat.le_refl _)

theorem retained_keepMask (messages : List Message) :
    retained messages (keepMask messages) = dropOrphanToolMessages messages := by
  have hmask := keepMask_decided messages
  have htake : ∀ k ≤ messages.length,
      retained (messages.take k) (keepMask messages) = dropOrphansAfter none (messages.take k) := by
    intro k hk
    induction k with
    | zero => rfl
    | succ k ih =>
      have hlt : k < messages.length := by omega
      have hm : messages[k]? = some messages[k] := getElem?_eq_getElem hlt
      have hdecided := hmask.decided k hlt _ hm
      have hkept := ih (by omega)
      rw [retained_take_succ hm (by rw [hmask.length]; exact hlt),
        take_succ_eq_append_getElem hlt, getLast?_dropOrphansAfter_append, ← hkept,
        Option.or_none, dropOrphansAfter, dropOrphansAfter]
      by_cases horphan : messages[k].role = "tool" ∧
          ((retained (messages.take k) (keepMask messages)).getLast?).any answersCall = false
      · rw [if_pos horphan, hdecided.mpr horphan]
        rfl
      · have htrue : kept (keepMask messages) k = true := by
          rw [← Bool.not_eq_false]
          exact fun hfalse => horphan (hdecided.mp hfalse)
        rw [if_neg horphan, htrue]
        rfl
  have hall := htake messages.length (Nat.le_refl _)
  rwa [take_length] at hall

end Masks

section Greedy

/-- Every tool result that is kept stands behind a row it may answer. -/
theorem answersCall_of_dropOrphansAfter {prev : Option Message} {ms before after : List Message}
    {m : Message} (h : dropOrphansAfter prev ms = before ++ m :: after) (hm : m.role = "tool") :
    (before.getLast?.or prev).any answersCall = true := by
  induction ms generalizing prev before with
  | nil => simp [dropOrphansAfter] at h
  | cons x ms ih =>
    rw [dropOrphansAfter] at h
    split at h
    · exact ih h
    · rename_i hkept
      cases before with
      | nil =>
        obtain ⟨rfl, -⟩ := List.cons.inj h
        simpa [hm] using hkept
      | cons y before =>
        obtain ⟨rfl, hrest⟩ := List.cons.inj h
        have hlast := ih hrest
        rw [getLast?_cons]
        cases hbefore : before.getLast? with
        | none => simpa [hbefore] using hlast
        | some z => simpa [hbefore] using hlast

theorem dropOrphansAfter_dropOrphansAfter (prev : Option Message) (ms : List Message) :
    dropOrphansAfter prev (dropOrphansAfter prev ms) = dropOrphansAfter prev ms := by
  induction ms generalizing prev with
  | nil => rfl
  | cons m ms ih =>
    rw [dropOrphansAfter]
    split
    · exact ih prev
    · rename_i hkept
      rw [dropOrphansAfter, if_neg hkept, ih (some m)]

theorem filter_not_tool_dropOrphansAfter (prev : Option Message) (ms : List Message) :
    (dropOrphansAfter prev ms).filter (·.role ≠ "tool") = ms.filter (·.role ≠ "tool") := by
  induction ms generalizing prev with
  | nil => rfl
  | cons m ms ih =>
    rw [dropOrphansAfter]
    split
    · rename_i horphan
      rw [ih prev, filter_cons_of_neg (by simp [horphan.1])]
    · rw [filter_cons, filter_cons, ih (some m)]

/-- The removal is the greedy filter from left to right: it only removes tool results, every result
that is left follows a row it may answer, a row is removed exactly if it is a result and the last
row kept before it is none it may answer, and a second removal removes nothing. -/
theorem drop_orphan_tool_messages_greedy (messages : List Message) :
    let result := dropOrphanToolMessagesByMask messages
    result.1 = dropOrphanToolMessages messages ∧
    (result.1.Sublist messages ∧
      result.1.filter (·.role ≠ "tool") = messages.filter (·.role ≠ "tool")) ∧
    (∀ before m after, result.1 = before ++ m :: after → m.role = "tool" →
      before.getLast?.any answersCall = true) ∧
    (∀ i m, messages[i]? = some m → (kept (keepMask messages) i = false ↔ m.role = "tool" ∧
      ((retained (messages.take i) (keepMask messages)).getLast?).any answersCall = false)) ∧
    dropOrphanToolMessagesByMask result.1 = (result.1, 0) := by
  intro result
  have hresult : result.1 = dropOrphansAfter none messages := retained_keepMask messages
  have hsublist : result.1.Sublist messages := hresult ▸ dropOrphansAfter_sublist none messages
  refine ⟨hresult, ⟨hsublist, ?_⟩, ?_, ?_, ?_⟩
  · rw [hresult]
    exact filter_not_tool_dropOrphansAfter none messages
  · intro before m after hsplit hm
    have hanswers := answersCall_of_dropOrphansAfter (hresult.symm.trans hsplit) hm
    rwa [Option.or_none] at hanswers
  · intro i m hm
    exact (keepMask_decided messages).decided i (List.getElem?_eq_some_iff.mp hm).1 m hm
  · have hagain : retained result.1 (keepMask result.1) = result.1 := by
      rw [retained_keepMask, hresult]
      exact dropOrphansAfter_dropOrphansAfter none messages
    rw [dropOrphanToolMessagesByMask, hagain, Nat.sub_self]

end Greedy
end CrabMate
