import CrabMate.Context.Shape

/-! What the artifacts of a turn replay. All counts are taken in the view of their own call: they
say where the lost rows stood in the history as long as view and history end alike. -/
namespace CrabMate
open Positions List Option

section Replay

variable {canonical : List Message}

/-- Ranges side by side from `a` to `b`, none of them empty. -/
def Contiguous (a : ℕ) : List CanonicalMessageRange → ℕ → Prop
  | [], b => a = b
  | range :: ranges, b =>
    range.start = a ∧ a < range.stop ∧ Contiguous range.stop ranges b

theorem contiguous_le {a b : ℕ} {ranges : List CanonicalMessageRange}
    (h : Contiguous a ranges b) : a ≤ b := by
  induction ranges generalizing a with
  | nil => exact Nat.le_of_eq h
  | cons range ranges ih => exact h.2.1.le.trans (ih h.2.2)

theorem slice_append_slice {a b c : ℕ} (hab : a ≤ b) (hbc : b ≤ c)
    (hc : c ≤ canonical.length) :
    slice canonical a b ++ slice canonical b c = slice canonical a c := by
  have htake : canonical.take c = canonical.take b ++ slice canonical b c := by
    have hshort : (canonical.take c).take b = canonical.take b := by
      rw [take_take, Nat.min_eq_left hbc]
    rw [slice, ← hshort, take_append_drop]
  have hlen : a ≤ (canonical.take b).length := by
    rw [length_take]
    omega
  conv_rhs => rw [slice, htake, drop_append_of_le_length hlen]
  rfl

/-- What is replayed of ranges side by side. -/
theorem replayFrom_contiguous {lastEnd a b : ℕ} {ranges : List CanonicalMessageRange}
    (h : Contiguous a ranges b) (hlast : lastEnd ≤ a) (hb : b ≤ canonical.length) :
    ModelContextArtifact.replayFrom canonical lastEnd ranges = slice canonical a b := by
  induction ranges generalizing a lastEnd with
  | nil =>
    obtain rfl : a = b := h
    rw [slice, drop_eq_nil_of_le (length_take_le _ _)]
    rfl
  | cons range ranges ih =>
    obtain ⟨rfl, hlt, hrest⟩ := h
    have hle := contiguous_le hrest
    rw [ModelContextArtifact.replayFrom, Nat.max_eq_left hlast, Nat.min_eq_left (by omega),
      Nat.min_eq_left (by omega)]
    simp only [if_pos hlt]
    rw [ih hrest (Nat.le_refl _), slice_append_slice hlt.le hle hb]

theorem pairwise_contiguous {a b : ℕ} {ranges : List CanonicalMessageRange}
    (h : Contiguous a ranges b) :
    ranges.Pairwise (fun x y => CanonicalMessageRange.le x y = true) ∧
      ∀ range ∈ ranges, a ≤ range.start := by
  induction ranges generalizing a with
  | nil => exact ⟨List.Pairwise.nil, by simp⟩
  | cons range ranges ih =>
    obtain ⟨rfl, hlt, hrest⟩ := h
    obtain ⟨hpairs, hstarts⟩ := ih hrest
    refine ⟨pairwise_cons.mpr ⟨fun x hx => ?_, hpairs⟩,
      forall_mem_cons.mpr ⟨Nat.le_refl _, fun x hx => ?_⟩⟩
    · have hx := hstarts x hx
      have hbefore : range.start < x.start := by omega
      simp [CanonicalMessageRange.le, hbefore]
    · have hx := hstarts x hx
      omega

theorem mergeSort_contiguous {a b : ℕ} {first : List CanonicalMessageRange}
    {ranges : List CanonicalMessageRange} (h : Contiguous a (first ++ ranges) b) :
    (ranges ++ first).mergeSort CanonicalMessageRange.le = first ++ ranges := by
  have htrans : ∀ x y z : CanonicalMessageRange, x.le y = true → y.le z = true →
      x.le z = true := by
    intro x y z hxy hyz
    simp only [CanonicalMessageRange.le, Bool.or_eq_true, Bool.and_eq_true, decide_eq_true_eq,
      beq_iff_eq] at *
    omega
  have htotal : ∀ x y : CanonicalMessageRange, (x.le y || y.le x) = true := by
    intro x y
    simp only [CanonicalMessageRange.le, Bool.or_eq_true, Bool.and_eq_true, decide_eq_true_eq,
      beq_iff_eq]
    omega
  refine List.Perm.eq_of_pairwise (fun x y _ _ hxy hyx => ?_)
    (pairwise_mergeSort htrans htotal _) (pairwise_contiguous h).1
    ((mergeSort_perm _ _).trans perm_append_comm)
  obtain ⟨xstart, xstop⟩ := x
  obtain ⟨ystart, ystop⟩ := y
  simp only [CanonicalMessageRange.le, Bool.or_eq_true, Bool.and_eq_true, decide_eq_true_eq,
    beq_iff_eq, CanonicalMessageRange.mk.injEq] at *
  omega

end Replay

section Lost

variable {canonical : List Message} {head behind : List ViewRow} {start : ℕ}

theorem map_fst_filter_zipIdx_range {α : Type*} (l : List α) (k a b : ℕ) (q : ℕ → Bool)
    (hq : ∀ i, k ≤ i → i < k + l.length → (q i = true ↔ a ≤ i ∧ i < b)) :
    (((l.zipIdx k).filter fun e => q e.2).map Prod.fst) = (l.take (b - k)).drop (a - k) := by
  induction l generalizing k with
  | nil => simp
  | cons x l ih =>
    have hrest := ih (k + 1) fun i hi hlt => hq i (by omega) (by rw [length_cons]; omega)
    have hk := hq k (Nat.le_refl k) (by rw [length_cons]; omega)
    rw [zipIdx_cons, filter_cons]
    by_cases hb : k < b
    · have hbk : b - k = b - (k + 1) + 1 := by omega
      rw [hbk, take_succ_cons]
      by_cases ha : a ≤ k
      · rw [if_pos (hk.mpr ⟨ha, hb⟩), map_cons, hrest, Nat.sub_eq_zero_of_le ha,
          Nat.sub_eq_zero_of_le (show a ≤ k + 1 by omega)]
        rfl
      · have hak : a - k = a - (k + 1) + 1 := by omega
        rw [if_neg fun h => ha (hk.mp h).1, hrest, hak, drop_succ_cons]
    · rw [if_neg fun h => hb (hk.mp h).2, hrest, Nat.sub_eq_zero_of_le (show b ≤ k by omega),
        Nat.sub_eq_zero_of_le (show b ≤ k + 1 by omega)]
      simp

theorem ViewShape.any_origin_iff (h : ViewShape canonical head start behind)
    (hparks : Parks canonical behind) {i : ℕ} (hi : i < canonical.length) :
    ((shaped canonical head start behind).any fun r => r.origin == .history i) = true ↔
      (∃ r ∈ head, r.origin = .history i) ∨ start ≤ i ∨ sideRow canonical[i] = true := by
  have hrow : ⟨canonical[i], .history i⟩ ∈ deriveRows canonical :=
    mem_iff_getElem?.mpr ⟨i, by rw [getElem?_deriveRows, getElem?_eq_getElem hi]; rfl⟩
  simp only [shaped, List.any_eq_true, mem_append, beq_iff_eq]
  constructor
  · rintro ⟨r, hr | hr | hr, horigin⟩
    · exact Or.inl ⟨r, hr, horigin⟩
    · obtain ⟨j, m, hle, -, rfl⟩ := exists_of_mem_drop_deriveRows (mem_of_mem_filter hr)
      exact Or.inr (Or.inl (RowOrigin.history.inj horigin ▸ hle))
    · cases hside : sideRow r.row with
      | false =>
        rw [(h.behind r hr).2 hside] at horigin
        cases horigin
      | true =>
        have hparked : r ∈ parkedRows canonical := by
          rw [← hparks]
          exact mem_filter.mpr ⟨hr, by simp [hside, horigin]⟩
        obtain ⟨j, m, -, hget, rfl⟩ :=
          @exists_of_mem_drop_deriveRows canonical r 0 (mem_of_mem_filter hparked)
        obtain rfl := RowOrigin.history.inj horigin
        rw [getElem?_eq_getElem hi] at hget
        exact Or.inr (Or.inr (Option.some.inj hget ▸ hside))
  · intro hin
    by_cases hhead : ∃ r ∈ head, r.origin = .history i
    · obtain ⟨r, hr, horigin⟩ := hhead
      exact ⟨r, Or.inl hr, horigin⟩
    refine ⟨⟨canonical[i], .history i⟩, Or.inr ?_, rfl⟩
    cases hside : sideRow canonical[i] with
    | true =>
      have hparked : ⟨canonical[i], .history i⟩ ∈ parkedRows canonical :=
        mem_filter.mpr ⟨hrow, hside⟩
      rw [← hparks] at hparked
      exact Or.inr (mem_of_mem_filter hparked)
    | false =>
      have hle : start ≤ i := by
        rcases hin with hin | hin | hin
        · exact absurd hin hhead
        · exact hin
        · rw [hside] at hin
          cases hin
      refine Or.inl (mem_filter.mpr ⟨mem_iff_getElem?.mpr ⟨i - start, ?_⟩, ?_⟩)
      · rw [getElem?_drop, getElem?_deriveRows, Nat.add_sub_cancel' hle,
          getElem?_eq_getElem hi]
        rfl
      · simp [hside]

theorem any_of_lostRows_eq_nil {rows : List ViewRow} {i : ℕ}
    (h : lostRows canonical rows = []) (hi : i < canonical.length) :
    (rows.any fun r => r.origin == .history i) = true := by
  rw [lostRows, map_eq_nil_iff, filter_eq_nil_iff] at h
  have hrow := h (canonical[i], i)
    (mem_zipIdx_iff_getElem?.mpr (getElem?_eq_getElem hi))
  simpa using hrow

theorem ViewShape.lostRows_eq (h : ViewShape canonical head start behind)
    (hparks : Parks canonical behind) {a : ℕ}
    (hhead : ∀ i, i < start → ((∃ r ∈ head, r.origin = .history i) ↔ i < a))
    (hside : ∀ m ∈ canonical.take start, sideRow m = false) :
    lostRows canonical (shaped canonical head start behind) = slice canonical a start := by
  have hrange := map_fst_filter_zipIdx_range canonical 0 a start
    (fun i => !(shaped canonical head start behind).any fun r => r.origin == .history i) ?_
  · exact hrange
  intro i _ hi
  rw [Nat.zero_add] at hi
  rw [Bool.not_eq_true', ← Bool.not_eq_true, h.any_origin_iff hparks hi, not_or, not_or, not_le]
  constructor
  · rintro ⟨hnone, hlt, -⟩
    rw [hhead i hlt] at hnone
    exact ⟨not_lt.mp hnone, hlt⟩
  · rintro ⟨hle, hlt⟩
    rw [hhead i hlt]
    have hrow := hside canonical[i]
      (mem_take_iff_getElem.mpr ⟨i, Nat.lt_min.mpr ⟨hlt, hi⟩, rfl⟩)
    exact ⟨not_lt.mpr hle, hlt, by simp [hrow]⟩

end Lost

section Turns

variable {canonical : List Message}

/-- The artifact of a call, bound at the end of the turn. -/
def boundArtifact (canonical later : List Message) (calls : List ModelCall) (call : ModelCall) :
    ModelContextArtifact :=
  (call.artifact (viewAfter canonical calls) (calls.length + 1)).bindAtTurnEnd
    (.derive canonical) later

theorem contiguous_groupRanges {start : ℕ} {sizes : List ℕ} (hpos : ∀ n ∈ sizes, 0 < n) :
    Contiguous start ((groupRanges start sizes).map fun g => ⟨g.start, g.stop⟩)
      (start + sizes.sum) := by
  induction sizes generalizing start with
  | nil => rfl
  | cons size sizes ih =>
    have hrest := @ih (start + size) fun n hn => hpos n (mem_cons_of_mem _ hn)
    rw [sum_cons, ← Nat.add_assoc]
    exact ⟨rfl, Nat.lt_add_of_pos_right (hpos size mem_cons_self), hrest⟩

variable {head behind : List ViewRow} {start : ℕ}

/-- What a call does behind its summary: whole groups go, and rows behind the history. -/
theorem ViewShape.sends (h : ViewShape canonical head start behind)
    (hparks : Parks canonical behind)
    (hclean : NoOrphanRows canonical) {call : ModelCall} {rows : List ViewRow}
    (hrows : call.summarized rows = shaped canonical head start behind) :
    ∃ (gs : List (List Message)) (stop : ℕ) (behind' : List ViewRow), start ≤ stop ∧
      ((slice canonical start stop).filter fun m => !sideRow m) = gs.flatten ∧
      (∀ g ∈ gs, IsTurnGroup g) ∧ (gs = [] → call.sent rows = call.summarized rows) ∧
      ViewShape canonical head stop behind' ∧ Parks canonical behind' ∧
      (call.compacted rows).2 = gs.length ∧
      call.sent rows = shaped canonical head stop behind' := by
  obtain ⟨gs, stop, hle, hsame, hslice, hgs, hshape, heq⟩ :=
    h.removes (show 0 < minRecentTurnGroups by decide) call.removals
  have hcompacted : call.compacted rows = (shaped canonical head stop behind, gs.length) := by
    rw [ModelCall.compacted, hrows, heq]
  rw [ModelCall.sent, hcompacted]
  by_cases hsome : 0 < gs.length
  · obtain ⟨last, hnext, hcleanup⟩ := hshape.cleanup hclean
    refine ⟨gs, stop, _, hle, hslice, hgs, fun hnil => ?_, hnext, hparks.cleanup last, rfl,
      (if_pos hsome).trans hcleanup⟩
    rw [hnil] at hsome
    cases hsome
  · refine ⟨gs, stop, behind, hle, hslice, hgs, fun hnil => ?_, hshape, hparks, rfl,
      if_neg hsome⟩
    rw [hrows, hsame hnil]
    exact if_neg hsome

theorem ModelCall.summarized_of_none {call : ModelCall} {rows : List ViewRow}
    (h : call.tailKept rows = none) : call.summarized rows = call.synced rows := by
  rw [summarized, h]
  cases call.summary <;> rfl

theorem ModelCall.summarized_of_some {call : ModelCall} {rows : List ViewRow} {tail : ℕ}
    (h : call.tailKept rows = some tail) : ∃ requestedTail summaryText,
      summaryTail? (messagesOf (call.synced rows)) requestedTail = some tail ∧
      call.summarized rows = foldRows (call.synced rows) tail summaryText := by
  rw [tailKept, bind_eq_some_iff] at h
  obtain ⟨⟨requestedTail, summaryText⟩, hsummary, htail⟩ := h
  refine ⟨requestedTail, summaryText, htail, ?_⟩
  rw [summarized, tailKept, hsummary, bind_some, htail]

/-- The view keeps its shape from call to call; the pipeline sorts the side rows out. -/
theorem viewShape_viewAfter
    (hclean : NoOrphanRows canonical) (calls : List ModelCall) :
    ∃ head start behind, ViewShape canonical head start behind ∧
      Parks canonical behind ∧
      SameParts (viewAfter canonical calls) (shaped canonical head start behind) := by
  induction calls using List.reverseRecOn with
  | nil =>
    obtain ⟨head, hshape, hsame⟩ := viewShape_derive hclean
    exact ⟨head, _, _, hshape, parks_parkedRows canonical, hsame⟩
  | append_singleton calls call ih =>
    obtain ⟨head, start, behind, hshape, hparks, hview⟩ := ih
    obtain ⟨start, behind, hshape, hparks, hsync⟩ := hshape.syncs hparks hclean call hview
    obtain ⟨head', start', behind', hshape', hparks', hsummarized⟩ : ∃ head' start' behind',
        ViewShape canonical head' start' behind' ∧ Parks canonical behind' ∧
          call.summarized (viewAfter canonical calls) = shaped canonical head' start' behind' := by
      cases htail : call.tailKept (viewAfter canonical calls) with
      | none =>
        exact ⟨head, start, behind, hshape, hparks,
          (ModelCall.summarized_of_none htail).trans hsync⟩
      | some tail =>
        obtain ⟨requestedTail, summaryText, hkept, heq⟩ := ModelCall.summarized_of_some htail
        rw [hsync] at hkept heq
        obtain ⟨r, stop, behind', -, -, -, -, -, hparks', hnext, hfold⟩ :=
          hshape.folds hparks hclean summaryText hkept
        exact ⟨_, stop, behind', hnext, hparks', heq.trans hfold⟩
    obtain ⟨-, stop, late, -, -, -, -, hnext, hlate, -, hsent⟩ :=
      hshape'.sends hparks' hclean hsummarized
    have hleaves : viewAfter canonical (calls ++ [call]) =
        shaped canonical head' stop (late ++ call.answer.map (⟨·, .turn⟩)) := by
      rw [viewAfter, foldl_append, ← viewAfter, foldl_cons, foldl_nil,
        ModelCall.leaves, hsent, shaped, shaped, append_assoc, append_assoc]
    refine ⟨head', stop, late ++ call.answer.map (⟨·, .turn⟩), { hnext with
      behind := fun r hr => ?_ }, ?_, by rw [hleaves]; exact ⟨rfl, rfl⟩⟩
    · rcases mem_append.mp hr with hr | hr
      · exact hnext.behind r hr
      · obtain ⟨m, hm, rfl⟩ := List.mem_map.mp hr
        exact ⟨call.hanswer m hm, fun _ => rfl⟩
    · have hnone : ((call.answer.map fun m => (⟨m, .turn⟩ : ViewRow)).filter fun r =>
          sideRow r.row && r.origin != .turn) = [] :=
        filter_eq_nil_iff.mpr fun r hr => by
          obtain ⟨m, -, rfl⟩ := List.mem_map.mp hr
          simp
      rw [Parks, filter_append, hnone, append_nil]
      exact hlate

/-- The range a summary is bound to. -/
def summarizedRange (canonical : List Message) (tailKept : Option ℕ) :
    Option CanonicalMessageRange :=
  tailKept.bind fun tail =>
    let start := if (canonical.head?.any fun m => m.role == "system") then 1 else 0
    if start < canonical.length - tail then some ⟨start, canonical.length - tail⟩ else none

/-- The ranges the first groups behind `start` are bound to. -/
def removedRanges (canonical : List Message) (start count : ℕ) : List CanonicalMessageRange :=
  ((conversationTurnGroups (canonical.drop start)).take count).map fun group =>
    ⟨group.start + start, group.stop + start⟩

theorem replay_boundArtifact (canonical extra : List Message) (calls : List ModelCall)
    (call : ModelCall) :
    let rows := viewAfter canonical calls
    let range := summarizedRange canonical (call.tailKept rows)
    let start := min ((range.map CanonicalMessageRange.stop).getD 0) canonical.length
    let count := (call.compacted rows).2
    (boundArtifact canonical (canonical ++ extra) calls call).replayRemovedMessages
        (canonical ++ extra) =
      ModelContextArtifact.replayFrom (canonical ++ extra) 0
        ((removedRanges canonical start count ++ range.toList).mergeSort
          CanonicalMessageRange.le) := by
  have hlen : min canonical.length (canonical ++ extra).length = canonical.length := by
    rw [length_append]
    omega
  simp only [boundArtifact, ModelContextArtifact.bindAtTurnEnd,
    ModelContextArtifact.bindCanonicalRanges, ModelContextView.derive, hlen, take_left]
  rfl

/-- The ranges of removed groups stand side by side. -/
theorem contiguous_removedRanges {s : ℕ} {front rest : List Message} {gs : List (List Message)}
    (hdrop : canonical.drop s = front ++ (gs.flatten ++ rest))
    (hfront : ∀ m ∈ front, realUser m = false) (hgs : ∀ g ∈ gs, IsTurnGroup g)
    (hrest : ∀ x ∈ rest.head?, realUser x = true) :
    Contiguous (front.length + s) (removedRanges canonical s gs.length)
      (front.length + s + gs.flatten.length) := by
  have hpos : ∀ n ∈ gs.map List.length, 0 < n := by
    refine List.forall_mem_map.mpr fun g hg => ?_
    obtain ⟨u, behind, rfl, -⟩ := hgs g hg
    exact Nat.succ_pos _
  have hranges : removedRanges canonical s gs.length =
      (groupRanges (front.length + s) (gs.map List.length)).map fun g => ⟨g.start, g.stop⟩ := by
    rw [removedRanges, hdrop, take_conversationTurnGroups hfront hgs hrest, ← groupRanges_shift,
      List.map_map]
    rfl
  rw [hranges, length_flatten]
  exact contiguous_groupRanges hpos

theorem slice_append_left {extra : List Message} {a b : ℕ} (hb : b ≤ canonical.length) :
    slice (canonical ++ extra) a b = slice canonical a b := by
  rw [slice, take_append_of_le_length hb, slice]

theorem drop_eq_of_slice {a b : ℕ} (hab : a ≤ b) (hb : b ≤ canonical.length) :
    canonical.drop a = slice canonical a b ++ canonical.drop b ∧
      b = a + (slice canonical a b).length := by
  constructor
  · conv_lhs => rw [← take_append_drop b canonical]
    rw [drop_append_of_le_length (by rw [length_take]; omega), slice]
  · rw [slice, length_drop, length_take]
    omega

theorem head?_historyRows {m : Message} (hm : canonical.head? = some m)
    (hside : sideRow m = false) : (historyRows canonical 0).head? = some ⟨m, .history 0⟩ := by
  cases canonical with
  | nil => cases hm
  | cons x xs =>
    obtain rfl : x = m := Option.some.inj hm
    rw [historyRows, drop_zero, deriveRows, zipIdx_cons, map_cons,
      filter_cons_of_pos (by simp [hside])]
    rfl

/-- Where every side row stands behind a user of the view, none stands in front of the start. -/
theorem ViewShape.not_sideRow (h : ViewShape canonical head start behind)
    (hsides : ∀ i m, canonical[i]? = some m → sideRow m = true →
      ∃ r ∈ shaped canonical head start behind,
        ∃ j < i, r.origin = .history j ∧ realUser r.row = true) :
    ∀ m ∈ canonical.take start, sideRow m = false := by
  intro m hm
  cases hside : sideRow m with
  | false => rfl
  | true =>
    obtain ⟨i, hi, rfl⟩ := mem_take_iff_getElem.mp hm
    rw [Nat.lt_min] at hi
    obtain ⟨r, hr, j, hj, horigin, huser⟩ :=
      hsides i _ (getElem?_eq_getElem hi.2) hside
    rw [shaped, mem_append, mem_append] at hr
    rcases hr with hr | hr | hr
    · rw [h.quiet r hr] at huser
      cases huser
    · obtain ⟨k, m, hk, -, rfl⟩ := exists_of_mem_drop_deriveRows (mem_of_mem_filter hr)
      obtain rfl := RowOrigin.history.inj horigin
      omega
    · rw [(h.behind r hr).1] at huser
      cases huser

theorem length_sub_tail {stop : ℕ} (hstop : stop ≤ canonical.length)
    (hplain : ∀ m ∈ canonical.take stop, sideRow m = false) :
    canonical.length - ((historyRows canonical stop).length + (parkedRows canonical).length) =
      stop := by
  have hhistory : (historyRows canonical stop).length =
      ((canonical.drop stop).filter fun m => !sideRow m).length := by
    rw [← messagesOf_historyRows, messagesOf, List.length_map]
  have hparked : (parkedRows canonical).length =
      ((canonical.drop stop).filter sideRow).length := by
    have hfront : (canonical.take stop).filter sideRow = [] :=
      filter_eq_nil_iff.mpr fun m hm => by simp [hplain m hm]
    have hrows : (parkedRows canonical).length = (canonical.filter sideRow).length := by
      conv_rhs => rw [← messagesOf_deriveRows canonical, ← messagesOf_filter sideRow, messagesOf,
        List.length_map]
      rfl
    rw [hrows]
    conv_lhs => rw [← take_append_drop stop canonical, filter_append, hfront,
      nil_append]
  have htotal := length_eq_length_filter_add (l := canonical.drop stop) sideRow
  rw [length_drop] at htotal
  omega

/-- Without a row of the turn the rows behind the history are its side rows. -/
theorem ViewShape.behind_eq (h : ViewShape canonical head start behind)
    (hparks : Parks canonical behind) (hturn : ∀ r ∈ behind, r.origin ≠ .turn) :
    behind = parkedRows canonical := by
  refine (filter_eq_self.mpr fun r hr => ?_).symm.trans hparks
  cases hside : sideRow r.row with
  | false => exact absurd ((h.behind r hr).2 hside) (hturn r hr)
  | true => simp [hturn r hr]

theorem eq_of_head?_historyRows {r : ViewRow} {stop : ℕ}
    (hfirst : (historyRows canonical 0).head? = some r) (hpos : 0 < stop)
    (hplain : ∀ m ∈ canonical.take stop, sideRow m = false) :
    ∃ m, canonical.head? = some m ∧ r = ⟨m, .history 0⟩ := by
  cases hcanonical : canonical with
  | nil =>
    rw [hcanonical] at hfirst
    cases hfirst
  | cons m ms =>
    have hmem : m ∈ canonical.take stop := by
      obtain ⟨k, rfl⟩ := Nat.exists_eq_add_of_le hpos
      rw [hcanonical, Nat.add_comm, take_succ_cons]
      exact mem_cons_self
    have hm := @head?_historyRows canonical m (by rw [hcanonical]; rfl) (hplain m hmem)
    exact ⟨m, rfl, Option.some.inj (hfirst.symm.trans hm)⟩

/-- A fold that finds no row of the turn binds its counts to where the rows stood. -/
theorem ViewShape.replays_fold {extra : List Message} {calls : List ModelCall} {call : ModelCall}
    {tail : ℕ} (h : ViewShape canonical head start behind) (hparks : Parks canonical behind)
    (hclean : NoOrphanRows canonical)
    (haligned : call.Aligned canonical (viewAfter canonical calls))
    (hsync : call.synced (viewAfter canonical calls) = shaped canonical head start behind)
    (htail : call.tailKept (viewAfter canonical calls) = some tail) :
    (boundArtifact canonical (canonical ++ extra) calls call).replayRemovedMessages
        (canonical ++ extra) =
      lostRows canonical (call.sent (viewAfter canonical calls)) := by
  obtain ⟨requestedTail, summaryText, hkept, hsummarized⟩ := ModelCall.summarized_of_some htail
  rw [hsync] at hkept hsummarized
  obtain ⟨r, stop, kept, hfirst, hsystem, hlt, hstop, hcount, hkeeps, hfolded, hfold⟩ :=
    h.folds hparks hclean summaryText hkept
  obtain ⟨gs, last, late, hle, hslice, hgs, -, hfinal, hlate, hremoved, hsent⟩ :=
    hfolded.sends hkeeps hclean (hsummarized.trans hfold)
  have hplain : ∀ m ∈ canonical.take last, sideRow m = false := by
    refine hfinal.not_sideRow fun i m hm hside => ?_
    rw [← hsent]
    exact haligned.sides (Or.inl (by rw [htail]; rfl)) i m hm hside
  -- what stands behind the history in the view is its side rows
  have hbehind : behind = parkedRows canonical := by
    refine h.behind_eq hparks fun x hx => haligned.folds (by rw [htail]; rfl) x ?_
    rw [hsync, shaped]
    exact mem_append_right _ (mem_append_right _ hx)
  have hfront : ∀ m ∈ canonical.take stop, sideRow m = false := fun m hm =>
    hplain m ((take_sublist_take_left hle).subset hm)
  have hbound : canonical.length - tail = stop := by
    rw [hcount, hbehind]
    exact length_sub_tail hstop.le hfront
  -- the first row of the view is the first row of the history
  obtain ⟨m, hm, rfl⟩ := eq_of_head?_historyRows hfirst (Nat.zero_lt_of_lt hlt) hfront
  have hrole : m.role = "system" := hsystem
  have hone : 1 < stop := by
    -- the first row is of the system, so the first user is not the first row
    by_contra hle
    obtain rfl : start = 0 := by omega
    have huser := h.user m (by rw [drop_zero, hm]; rfl)
    have hnot : realUser m = false := Message.not_realUser_of_system hrole
    rw [hnot] at huser
    cases huser
  have hrange : summarizedRange canonical (some tail) = some ⟨1, stop⟩ := by
    simp only [summarizedRange, bind_some, hm, any_some, hrole,
      beq_self_eq_true, if_true, hbound, if_pos hone]
  have hflat : slice canonical stop last = gs.flatten := by
    rw [← hslice]
    exact (filter_eq_self.mpr fun x hx => by simp [hplain x (mem_of_mem_drop hx)]).symm
  obtain ⟨hsplit, hlast⟩ := drop_eq_of_slice hle hfinal.le
  rw [hflat] at hsplit hlast
  have hgroups := @contiguous_removedRanges canonical stop [] (canonical.drop last) gs hsplit
    (by simp) hgs hfinal.user
  rw [length_nil, Nat.zero_add, ← hlast] at hgroups
  have hall : Contiguous 1 ([⟨1, stop⟩] ++ removedRanges canonical stop gs.length) last :=
    ⟨rfl, hone, hgroups⟩
  have hlost : lostRows canonical (call.sent (viewAfter canonical calls)) =
      slice canonical 1 last := by
    rw [hsent]
    refine hfinal.lostRows_eq hlate (fun i _ => ⟨?_, fun hi => ?_⟩) hplain
    · rintro ⟨x, hx, horigin⟩
      simp only [mem_cons, not_mem_nil, or_false] at hx
      rcases hx with rfl | rfl
      · have hzero : 0 = i := RowOrigin.history.inj horigin
        omega
      · cases horigin
    · obtain rfl : i = 0 := by omega
      exact ⟨_, mem_cons_self, rfl⟩
  rw [hlost, replay_boundArtifact, htail, hrange, hremoved]
  simp only [map_some, getD_some, Nat.min_eq_left hstop.le, toList_some]
  rw [mergeSort_contiguous hall, replayFrom_contiguous hall (Nat.zero_le 1)
    (hfinal.le.trans (by simp)), slice_append_left hfinal.le]

/-- A view with the whole history has what stands in front of its start in the head. -/
theorem ViewShape.whole_head (h : ViewShape canonical head start behind)
    (hparks : Parks canonical behind)
    (hwhole : lostRows canonical (shaped canonical head start behind) = [])
    (hplain : ∀ m ∈ canonical.take start, sideRow m = false) {i : ℕ} (hi : i < start) :
    ∃ r ∈ head, r.origin = .history i := by
  have hlen : i < canonical.length := hi.trans_le h.le
  have hany := any_of_lostRows_eq_nil hwhole hlen
  rcases (h.any_origin_iff hparks hlen).mp hany with hhead | hstart | hside
  · exact hhead
  · omega
  · have hrow := hplain canonical[i]
      (mem_take_iff_getElem.mpr ⟨i, Nat.lt_min.mpr ⟨hi, hlen⟩, rfl⟩)
    rw [hrow] at hside
    cases hside

/-- Then no user stands in front of the start. -/
theorem ViewShape.quiet_front (h : ViewShape canonical head start behind)
    (hin : ∀ i, i < start → ∃ r ∈ head, r.origin = .history i) :
    ∀ m ∈ canonical.take start, realUser m = false := by
  intro m hm
  obtain ⟨i, hi, rfl⟩ := mem_take_iff_getElem.mp hm
  rw [Nat.lt_min] at hi
  obtain ⟨r, hr, horigin⟩ := hin i hi.1
  rcases h.origins r hr with hsummary | ⟨j, hj, -, hrow⟩
  · rw [hsummary] at horigin
    cases horigin
  · obtain rfl : j = i := RowOrigin.history.inj (hj.symm.trans horigin)
    rw [getElem?_eq_getElem hi.2] at hrow
    rw [Option.some.inj hrow]
    exact h.quiet r hr

/-- A call without a fold that finds the whole history does so too. -/
theorem ViewShape.replays_removal {extra : List Message} {calls : List ModelCall}
    {call : ModelCall} (h : ViewShape canonical head start behind)
    (hparks : Parks canonical behind)
    (hclean : NoOrphanRows canonical)
    (haligned : call.Aligned canonical (viewAfter canonical calls))
    (hsync : call.synced (viewAfter canonical calls) = shaped canonical head start behind)
    (htail : call.tailKept (viewAfter canonical calls) = none) :
    (boundArtifact canonical (canonical ++ extra) calls call).replayRemovedMessages
        (canonical ++ extra) =
      lostRows canonical (call.sent (viewAfter canonical calls)) := by
  have hsummarized := ModelCall.summarized_of_none htail
  have hwhole := haligned.keeps htail
  obtain ⟨gs, stop, late, hle, hslice, hgs, hidle, hfinal, hlate, hremoved, hsent⟩ :=
    h.sends hparks hclean (hsummarized.trans hsync)
  by_cases hnil : gs = []
  · rw [hidle hnil, hsummarized, hwhole, replay_boundArtifact, htail, hremoved, hnil]
    simp [summarizedRange, removedRanges, ModelContextArtifact.replayFrom]
  have hplain : ∀ m ∈ canonical.take stop, sideRow m = false := by
    refine hfinal.not_sideRow fun i m hm hside => ?_
    rw [← hsent]
    exact haligned.sides (Or.inr (hremoved ▸ length_pos_iff.mpr hnil)) i m hm hside
  have hfirst : ∀ m ∈ canonical.take start, sideRow m = false := fun m hm =>
    hplain m ((take_sublist_take_left hle).subset hm)
  have hin : ∀ i, i < start → ∃ r ∈ head, r.origin = .history i := fun i =>
    h.whole_head hparks (hsync ▸ hwhole) hfirst
  have hfront := h.quiet_front hin
  have hflat : slice canonical start stop = gs.flatten := by
    rw [← hslice]
    exact (filter_eq_self.mpr fun x hx => by simp [hplain x (mem_of_mem_drop hx)]).symm
  obtain ⟨hsplit, hstop⟩ := drop_eq_of_slice hle hfinal.le
  rw [hflat] at hsplit hstop
  have hdrop : canonical.drop 0 = canonical.take start ++ (gs.flatten ++ canonical.drop stop) := by
    rw [← hsplit, take_append_drop, drop_zero]
  have hgroups := contiguous_removedRanges hdrop hfront hgs hfinal.user
  rw [length_take, Nat.min_eq_left h.le, Nat.add_zero, ← hstop] at hgroups
  have hlost : lostRows canonical (call.sent (viewAfter canonical calls)) =
      slice canonical start stop := by
    rw [hsent]
    refine hfinal.lostRows_eq hlate (fun i hi => ⟨?_, hin i⟩) hplain
    rintro ⟨r, hr, horigin⟩
    rcases h.origins r hr with hsummary | ⟨j, hj, hlt, -⟩
    · rw [hsummary] at horigin
      cases horigin
    · obtain rfl : j = i := RowOrigin.history.inj (hj.symm.trans horigin)
      exact hlt
  rw [hlost, replay_boundArtifact, htail, hremoved]
  simp only [summarizedRange, bind_none, map_none, getD_none, Nat.zero_min,
    toList_none]
  have hsorted := @mergeSort_contiguous start stop [] (removedRanges canonical 0 gs.length) hgroups
  rw [hsorted, nil_append, replayFrom_contiguous hgroups (Nat.zero_le start)
    (hfinal.le.trans (by simp)), slice_append_left hfinal.le]

/-- A call that is aligned with its view leaves an artifact that replays what its view has lost. -/
theorem artifact_replays_lost_rows {later : List Message}
    (hclean : NoOrphanRows canonical) (hlater : canonical <+: later) (calls : List ModelCall)
    (call : ModelCall)
    (haligned : call.Aligned canonical (viewAfter canonical calls)) :
    (boundArtifact canonical later calls call).replayRemovedMessages later =
      lostRows canonical (call.sent (viewAfter canonical calls)) := by
  obtain ⟨extra, rfl⟩ := hlater
  obtain ⟨head, start, behind, hshape, hparks, hview⟩ := viewShape_viewAfter hclean calls
  obtain ⟨start, behind, hshape, hparks, hsync⟩ := hshape.syncs hparks hclean call hview
  cases htail : call.tailKept (viewAfter canonical calls) with
  | none => exact hshape.replays_removal hparks hclean haligned hsync htail
  | some tail => exact hshape.replays_fold hparks hclean haligned hsync htail

/-- Three turns, the last of which asks. -/
def threeTurns : List Message :=
  [⟨"system", some (.text "s"), none, none, none, none, none⟩, .userOnly "a", assistantRow "x",
    .userOnly "b", assistantRow "y", .userOnly "c"]

/-- A call without a summary that removes `n` groups and is answered by one row. -/
def answeredCall (n : ℕ) : ModelCall where
  trimmed := 0
  summary := none
  removals := n
  answer := [assistantRow "z"]
  hanswer := by decide

theorem artifact_replays_first_removal :
    (boundArtifact threeTurns threeTurns [answeredCall 0] (answeredCall 1)).replayRemovedMessages
        threeTurns =
      lostRows threeTurns ((answeredCall 1).sent (viewAfter threeTurns [answeredCall 0])) ∧
    lostRows threeTurns ((answeredCall 1).sent (viewAfter threeTurns [answeredCall 0])) =
      [.userOnly "a", assistantRow "x"] :=
  ⟨artifact_replays_lost_rows (by rw [NoOrphanRows]; decide +kernel) (prefix_refl _)
    [answeredCall 0] (answeredCall 1)
    { folds := fun h => absurd h (by decide +kernel)
      keeps := fun _ => by decide +kernel
      sides := fun _ i m hm hside => by
        have hnone : ∀ x ∈ threeTurns, sideRow x = false := by decide +kernel
        rw [hnone m (mem_of_getElem? hm)] at hside
        cases hside }, by decide +kernel⟩

/-- The next call removes nothing, so its artifact replays nothing of what its view lacks. -/
theorem next_artifact_forgets_removal :
    dropOrphanToolMessages threeTurns = threeTurns ∧
    (boundArtifact threeTurns threeTurns [answeredCall 1] (answeredCall 0)).replayRemovedMessages
      threeTurns = [] ∧
    lostRows threeTurns ((answeredCall 0).sent (viewAfter threeTurns [answeredCall 1])) =
      [.userOnly "a", assistantRow "x"] := by
  refine ⟨by decide +kernel, ?_, by decide +kernel⟩
  have h := replay_boundArtifact threeTurns [] [answeredCall 1] (answeredCall 0)
  rw [append_nil] at h
  exact h.trans (by simp [answeredCall, ModelCall.compacted, ModelCall.tailKept, summarizedRange,
    removeGroupRows, removedRanges, ModelContextArtifact.replayFrom])

end Turns

end CrabMate
