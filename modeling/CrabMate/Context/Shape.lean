import CrabMate.Context.Artifact

/-! The shape of the view in a turn: rows in front, a stretch of the history, side rows and rows of
the turn behind. Pipeline, removal and summary each keep it. -/
namespace CrabMate
open Positions List Option

section Shape

variable {canonical : List Message} {head behind : List ViewRow} {start : ℕ}

/-- Once the side rows are put aside, no tool row of the history is an orphan. -/
def NoOrphanRows (canonical : List Message) : Prop :=
  dropOrphanToolMessages (canonical.filter fun m => !sideRow m) =
    canonical.filter fun m => !sideRow m

/-- The rows of the history from `start` on, without the side rows. -/
def historyRows (canonical : List Message) (start : ℕ) : List ViewRow :=
  ((deriveRows canonical).drop start).filter fun r => !sideRow r.row

/-- The side rows of the history. -/
def parkedRows (canonical : List Message) : List ViewRow :=
  (deriveRows canonical).filter fun r => sideRow r.row

/-- The view in a turn: the rows in front of the first user, the history from `start` on, and the
rows behind. -/
structure ViewShape (canonical : List Message) (head : List ViewRow) (start : ℕ)
    (behind : List ViewRow) : Prop where
  quiet : ∀ r ∈ head, realUser r.row = false
  plain : ∀ r ∈ head, sideRow r.row = false
  first : ∀ r ∈ head.head?, (historyRows canonical 0).head? = some r
  tidy : dropOrphanRowsAfter none head = head
  origins : ∀ r ∈ head, r.origin = .summary ∨
    ∃ i, r.origin = .history i ∧ i < start ∧ canonical[i]? = some r.row
  le : start ≤ canonical.length
  user : ∀ u ∈ (canonical.drop start).head?, realUser u = true
  behind : ∀ r ∈ behind, realUser r.row = false ∧ (sideRow r.row = false → r.origin = .turn)

def shaped (canonical : List Message) (head : List ViewRow) (start : ℕ)
    (behind : List ViewRow) : List ViewRow :=
  head ++ (historyRows canonical start ++ behind)

/-- Of the history the rows behind hold the side rows. -/
def Parks (canonical : List Message) (behind : List ViewRow) : Prop :=
  (behind.filter fun r => sideRow r.row && r.origin != .turn) = parkedRows canonical

/-- The pipeline puts side rows and other rows apart, so that it makes the same of both views. -/
def SameParts (rows rows' : List ViewRow) : Prop :=
  (rows.filter fun r => !sideRow r.row) = (rows'.filter fun r => !sideRow r.row) ∧
    (rows.filter fun r => sideRow r.row) = rows'.filter fun r => sideRow r.row

theorem messagesOf_historyRows (canonical : List Message) (start : ℕ) :
    messagesOf (historyRows canonical start) =
      (canonical.drop start).filter fun m => !sideRow m := by
  rw [historyRows, messagesOf_filter fun m => !sideRow m, messagesOf_drop_deriveRows]

theorem not_sideRow_of_realUser {m : Message} (h : realUser m = true) : sideRow m = false := by
  cases hside : sideRow m with
  | false => rfl
  | true => rw [not_realUser_of_sideRow hside] at h; cases h

theorem historyRows_zero (canonical : List Message) (start : ℕ) :
    historyRows canonical 0 = ((deriveRows canonical).take start).filter
      (fun r => !sideRow r.row) ++ historyRows canonical start := by
  rw [historyRows, historyRows, ← filter_append, take_append_drop, drop_zero]

theorem dropOrphanRowsAfter_historyRows
    (hclean : NoOrphanRows canonical)
    (huser : ∀ u ∈ (canonical.drop start).head?, realUser u = true) (prev : Option Message) :
    dropOrphanRowsAfter prev (historyRows canonical start) = historyRows canonical start := by
  apply dropOrphanRowsAfter_eq_self
  rw [messagesOf_historyRows]
  cases hdrop : canonical.drop start with
  | nil => rfl
  | cons u post =>
    have hu : realUser u = true := huser u (by rw [hdrop]; rfl)
    have hrole := role_ne_tool_of_realUser hu
    rw [filter_cons_of_pos (by simp [not_sideRow_of_realUser hu])]
    rw [NoOrphanRows, ← take_append_drop start canonical, hdrop, filter_append,
      filter_cons_of_pos (by simp [not_sideRow_of_realUser hu]),
      dropOrphanToolMessages] at hclean
    rw [dropOrphansAfter_of_not_tool hrole, (dropOrphansAfter_behind hrole hclean).2]

theorem viewShape_derive (hclean : NoOrphanRows canonical) :
    ∃ head, ViewShape canonical head (leading canonical) (parkedRows canonical) ∧
      SameParts (deriveRows canonical)
        (shaped canonical head (leading canonical) (parkedRows canonical)) := by
  obtain ⟨front, back, hsplit, hlen, hfront, hback⟩ : ∃ front back,
      canonical = front ++ back ∧ leading canonical = front.length ∧
        (∀ m ∈ front, realUser m = false) ∧ ∀ u ∈ back.head?, realUser u = true := by
    rcases firstUser_split canonical with hnone | ⟨front, u, rest, rfl, hfront, hu⟩
    · refine ⟨canonical, [], by simp, ?_, hnone, by simp⟩
      have h := @leading_append canonical [] hnone (by simp)
      rwa [append_nil] at h
    · have huser : ∀ x ∈ (u :: rest).head?, realUser x = true := by simpa using hu
      exact ⟨front, u :: rest, rfl, leading_append hfront huser, hfront, huser⟩
  have htake : canonical.take (leading canonical) = front := by rw [hlen, hsplit, take_left]
  have hdrop : canonical.drop (leading canonical) = back := by rw [hlen, hsplit, drop_left]
  obtain ⟨head, hhead⟩ : ∃ head, head = ((deriveRows canonical).take (leading canonical)).filter
    fun r => !sideRow r.row := ⟨_, rfl⟩
  have hmessages : messagesOf head = front.filter fun m => !sideRow m := by
    rw [hhead, messagesOf_filter fun m => !sideRow m, messagesOf, map_take, ← messagesOf,
      messagesOf_deriveRows, htake]
  have hall : historyRows canonical 0 = head ++ historyRows canonical (leading canonical) :=
    hhead ▸ historyRows_zero canonical (leading canonical)
  refine ⟨head, ⟨fun r hr => ?_, fun r hr => ?_, fun r hr => ?_, ?_, fun r hr => ?_, ?_, ?_,
    fun r hr => ?_⟩, ?_, ?_⟩
  · have hrow : r.row ∈ front.filter fun m => !sideRow m := hmessages ▸ List.mem_map_of_mem hr
    exact hfront r.row (mem_filter.mp hrow).1
  · rw [hhead] at hr
    simpa using (mem_filter.mp hr).2
  · rw [hall, head?_append, hr, some_or]
  · refine dropOrphanRowsAfter_eq_self ?_
    rw [hmessages]
    rw [NoOrphanRows, hsplit, filter_append, dropOrphanToolMessages] at hclean
    cases back with
    | nil => simpa using hclean
    | cons u rest =>
      have hu : realUser u = true := hback u rfl
      rw [filter_cons_of_pos (by simp [not_sideRow_of_realUser hu])] at hclean
      exact (dropOrphansAfter_behind (role_ne_tool_of_realUser hu) hclean).1
  · rw [hhead] at hr
    obtain ⟨i, hi, hget⟩ := mem_take_iff_getElem.mp (mem_filter.mp hr).1
    rw [Nat.lt_min] at hi
    refine Or.inr ⟨i, ?_⟩
    have hrow : (deriveRows canonical)[i]? = some r := by
      rw [← hget]
      exact getElem?_eq_getElem hi.2
    rw [getElem?_deriveRows] at hrow
    obtain ⟨m, hm, rfl⟩ := map_eq_some_iff.mp hrow
    exact ⟨rfl, hi.1, hm⟩
  · exact (takeWhile_sublist _).length_le
  · rwa [hdrop]
  · have hside : sideRow r.row = true := (mem_filter.mp hr).2
    exact ⟨not_realUser_of_sideRow hside, by simp [hside]⟩
  · have hnone : (parkedRows canonical).filter (fun r => !sideRow r.row) = [] :=
      filter_eq_nil_iff.mpr fun r hr => by simp [(mem_filter.mp hr).2]
    rw [shaped, ← append_assoc, ← hall, filter_append, hnone, append_nil,
      historyRows, drop_zero, List.filter_filter]
    simp
  · have hnone : (historyRows canonical 0).filter (fun r => sideRow r.row) = [] :=
      filter_eq_nil_iff.mpr fun r hr => by simpa using (mem_filter.mp hr).2
    rw [shaped, ← append_assoc, ← hall, filter_append, hnone, nil_append,
      parkedRows, List.filter_filter]
    simp

theorem parks_parkedRows (canonical : List Message) : Parks canonical (parkedRows canonical) := by
  refine filter_eq_self.mpr fun r hr => ?_
  have hturn : r.origin ≠ .turn := by
    obtain ⟨i, hi⟩ := mem_iff_getElem?.mp (mem_filter.mp hr).1
    rw [getElem?_deriveRows] at hi
    obtain ⟨m, -, rfl⟩ := map_eq_some_iff.mp hi
    simp
  simp [(mem_filter.mp hr).2, hturn]

theorem filter_dropOrphanRowsAfter {q : ViewRow → Bool}
    (hq : ∀ r, q r = true → r.row.role ≠ "tool") (prev : Option Message) (rows : List ViewRow) :
    (dropOrphanRowsAfter prev rows).filter q = rows.filter q := by
  induction rows generalizing prev with
  | nil => rfl
  | cons r rows ih =>
    rw [dropOrphanRowsAfter]
    split
    next horphan =>
      rw [ih, filter_cons_of_neg fun h => hq r h horphan.1]
    next =>
      rw [filter_cons, filter_cons, ih]

theorem Parks.cleanup (h : Parks canonical behind) (prev : Option Message) :
    Parks canonical (dropOrphanRowsAfter prev behind) := by
  refine (filter_dropOrphanRowsAfter (fun r hr => ?_) prev behind).trans h
  rw [sideRow_role (Bool.and_eq_true_iff.mp hr).1]
  decide

/-- The cleanup takes rows behind the history only. -/
theorem ViewShape.cleanup (h : ViewShape canonical head start behind)
    (hclean : NoOrphanRows canonical) :
    ∃ last, ViewShape canonical head start (dropOrphanRowsAfter last behind) ∧
      dropOrphanRowsAfter none (shaped canonical head start behind) =
        shaped canonical head start (dropOrphanRowsAfter last behind) := by
  obtain ⟨last, hlast⟩ := dropOrphanRowsAfter_append none head
    (historyRows canonical start ++ behind)
  obtain ⟨last', hlast'⟩ := dropOrphanRowsAfter_append last (historyRows canonical start) behind
  have hsub := dropOrphanRowsAfter_sublist last' behind
  refine ⟨last', { h with behind := fun r hr => h.behind r (hsub.subset hr) }, ?_⟩
  rw [shaped, hlast, hlast', h.tidy, dropOrphanRowsAfter_historyRows hclean h.user, shaped]

theorem exists_drop_of_filter {α : Type*} {p : α → Bool} {l xs left : List α} {start : ℕ}
    (hstart : start ≤ l.length) (h : (l.drop start).filter p = xs ++ left) :
    ∃ stop, start ≤ stop ∧ stop ≤ l.length ∧ ((l.take stop).drop start).filter p = xs ∧
      (l.drop stop).filter p = left ∧ (l.drop stop).head? = left.head? := by
  obtain ⟨front, back, hsplit, hfront, hback⟩ := filter_eq_append_iff.mp h
  -- the rows in front of the first one that is left are put to the others
  obtain ⟨skipped, rest, rfl, hskipped, hrest, hfirst⟩ : ∃ skipped rest, back = skipped ++ rest ∧
      skipped.filter p = [] ∧ rest.filter p = left ∧ rest.head? = left.head? := by
    cases left with
    | nil => exact ⟨back, [], by simp, hback, rfl, rfl⟩
    | cons u left =>
      obtain ⟨skipped, rest, rfl, hskipped, hu, hrest⟩ := filter_eq_cons_iff.mp hback
      exact ⟨skipped, u :: rest, rfl, filter_eq_nil_iff.mpr hskipped,
        by rw [filter_cons_of_pos hu, hrest], rfl⟩
  have hlen := congrArg List.length hsplit
  simp only [length_drop, length_append] at hlen
  have hdrop : l.drop (start + (front.length + skipped.length)) = rest := by
    rw [← drop_drop, hsplit, ← append_assoc, ← length_append, drop_left]
  refine ⟨start + (front.length + skipped.length), by omega, by omega, ?_, by rw [hdrop, hrest],
    by rw [hdrop, hfirst]⟩
  rw [drop_take, Nat.add_sub_cancel_left, hsplit, ← append_assoc,
    ← length_append, take_left, filter_append, hfront, hskipped, append_nil]

theorem slice_self (messages : List Message) (i : ℕ) : slice messages i i = [] := by
  rw [slice, drop_eq_nil_of_le (length_take_le _ _)]

theorem removeGroupRows_quiet {rows : List ViewRow} (hquiet : ∀ r ∈ rows, realUser r.row = false)
    (minGroupsToKeep n : ℕ) : removeGroupRows minGroupsToKeep n rows = (rows, 0) := by
  obtain ⟨gs, rest, hrest, hgs, -, -, heq⟩ :=
    @removeGroupRows_spec minGroupsToKeep n rows [] hquiet (by simp)
  obtain ⟨hflat, rfl⟩ := append_eq_nil_iff.mp hrest.symm
  cases gs with
  | nil => simpa using heq
  | cons g gs =>
    obtain ⟨_, _, hg, -⟩ := hgs g mem_cons_self
    rw [flatten_cons, append_eq_nil_iff] at hflat
    rw [hflat.1] at hg
    cases hg

theorem exists_left_of_groups {body rest : List ViewRow} {gs : List (List ViewRow)}
    (hquiet : ∀ r ∈ behind, realUser r.row = false) (h : body ++ behind = gs.flatten ++ rest)
    (huser : gs ≠ [] → 0 < countRealUsers (messagesOf rest)) :
    ∃ left, body = gs.flatten ++ left ∧ rest = left ++ behind := by
  cases gs with
  | nil => exact ⟨body, rfl, h.symm⟩
  | cons g gs =>
    rcases append_eq_append_iff.mp h with ⟨late, -, hbehind⟩ | ⟨left, hflat, hrest⟩
    · have hzero : countRealUsers (messagesOf rest) = 0 := by
        refine countP_eq_zero.mpr fun m hm => ?_
        obtain ⟨r, hr, rfl⟩ := List.mem_map.mp hm
        simp [hquiet r (hbehind ▸ mem_append_right late hr)]
      have hsome := huser (by simp)
      omega
    · exact ⟨left, hflat, hrest⟩

theorem ViewShape.head?_historyRows (h : ViewShape canonical head start behind) :
    ∀ r ∈ (historyRows canonical start).head?, realUser r.row = true := by
  intro r hr
  have hrow : (messagesOf (historyRows canonical start)).head? = some r.row := by
    rw [messagesOf, head?_map, hr]
    rfl
  rw [messagesOf_historyRows] at hrow
  cases hdrop : canonical.drop start with
  | nil =>
    rw [hdrop] at hrow
    cases hrow
  | cons u rest =>
    have hu : realUser u = true := h.user u (by rw [hdrop]; rfl)
    rw [hdrop, filter_cons_of_pos (by simp [not_sideRow_of_realUser hu])] at hrow
    exact Option.some.inj hrow ▸ hu

/-- The start moves over groups that stand in front of what is left. -/
theorem ViewShape.moves (h : ViewShape canonical head start behind) {gs : List (List ViewRow)}
    {left : List ViewRow} (hsplit : historyRows canonical start = gs.flatten ++ left)
    (huser : ∀ r ∈ left.head?, realUser r.row = true) :
    ∃ stop, start ≤ stop ∧
      ((slice canonical start stop).filter fun m => !sideRow m) = (gs.map messagesOf).flatten ∧
      ViewShape canonical head stop behind ∧ historyRows canonical stop = left := by
  obtain ⟨stop, hle, hlen, hslice, hdrop, hfirst⟩ :=
    exists_drop_of_filter (h.le.trans_eq (length_deriveRows canonical).symm) hsplit
  rw [length_deriveRows] at hlen
  have hflatten : messagesOf gs.flatten = (gs.map messagesOf).flatten := by
    rw [messagesOf, map_flatten]
    rfl
  refine ⟨stop, hle, ?_, { h with
    origins := fun r hr => ?_, le := hlen, user := fun x hx => ?_ }, hdrop⟩
  · rw [← hflatten, ← hslice, messagesOf_filter fun m => !sideRow m, messagesOf, map_drop,
      map_take, ← messagesOf, messagesOf_deriveRows]
    rfl
  · rcases h.origins r hr with hsummary | ⟨i, hi, hlt, hrow⟩
    · exact Or.inl hsummary
    · exact Or.inr ⟨i, hi, by omega, hrow⟩
  · have hrow : (messagesOf ((deriveRows canonical).drop stop)).head? = some x := by
      rw [messagesOf_drop_deriveRows, hx]
    rw [messagesOf, head?_map, hfirst] at hrow
    obtain ⟨r, hr, rfl⟩ := map_eq_some_iff.mp hrow
    exact huser r hr

/-- The removal moves the start over whole groups. -/
theorem ViewShape.removes (h : ViewShape canonical head start behind) {minGroupsToKeep : ℕ}
    (hmin : 0 < minGroupsToKeep) (n : ℕ) :
    ∃ (gs : List (List Message)) (stop : ℕ), start ≤ stop ∧ (gs = [] → stop = start) ∧
      ((slice canonical start stop).filter fun m => !sideRow m) = gs.flatten ∧
      (∀ g ∈ gs, IsTurnGroup g) ∧ ViewShape canonical head stop behind ∧
      removeGroupRows minGroupsToKeep n (shaped canonical head start behind) =
        (shaped canonical head stop behind, gs.length) := by
  have hquiet : ∀ r ∈ behind, realUser r.row = false := fun r hr => (h.behind r hr).1
  cases hbody : historyRows canonical start with
  | nil =>
    refine ⟨[], start, Nat.le_refl _, fun _ => rfl, by rw [slice_self]; rfl, by simp, h, ?_⟩
    refine removeGroupRows_quiet (fun r hr => ?_) minGroupsToKeep n
    rw [shaped, hbody, nil_append] at hr
    rcases mem_append.mp hr with hr | hr
    · exact h.quiet r hr
    · exact hquiet r hr
  | cons u rows =>
    have hu : realUser u.row = true := h.head?_historyRows u (by rw [hbody]; rfl)
    obtain ⟨gs, rest, hrest, hgs, hkeep, huser, heq⟩ :=
      @removeGroupRows_spec minGroupsToKeep n head (u :: rows ++ behind) h.quiet (by simpa using hu)
    obtain ⟨left, hleft, rfl⟩ := exists_left_of_groups hquiet hrest fun hne =>
      hmin.trans_le (hkeep hne)
    by_cases hnil : gs = []
    · subst hnil
      obtain rfl : u :: rows = left := hleft
      refine ⟨[], start, Nat.le_refl _, fun _ => rfl, by rw [slice_self]; rfl, by simp, h, ?_⟩
      rw [shaped, hbody, heq]
      rfl
    · obtain ⟨stop, hle, hslice, hshape, hstop⟩ := h.moves (hbody.trans hleft) fun r hr =>
        huser r (by rw [head?_append, hr]; rfl)
      refine ⟨gs.map messagesOf, stop, hle, fun hmap => absurd (map_eq_nil_iff.mp hmap) hnil,
        hslice, List.forall_mem_map.mpr hgs, hshape, ?_⟩
      rw [shaped, hbody, heq, shaped, hstop, List.length_map]

/-- The pipeline trims whole groups and parks the side rows behind. -/
theorem ViewShape.syncs (h : ViewShape canonical head start behind)
    (hparks : Parks canonical behind)
    (hclean : NoOrphanRows canonical) (call : ModelCall) {rows : List ViewRow}
    (hrows : SameParts rows (shaped canonical head start behind)) :
    ∃ stop behind', ViewShape canonical head stop behind' ∧ Parks canonical behind' ∧
      call.synced rows = shaped canonical head stop behind' := by
  obtain ⟨late, hlate⟩ : ∃ late, late = behind.filter fun r => !sideRow r.row := ⟨_, rfl⟩
  obtain ⟨side, hside⟩ : ∃ side, side = behind.filter fun r => sideRow r.row := ⟨_, rfl⟩
  have hhistory : ∀ r ∈ historyRows canonical start, sideRow r.row = false := fun r hr => by
    simpa using (mem_filter.mp hr).2
  have hplain : (rows.filter fun r => !sideRow r.row) = shaped canonical head start late := by
    rw [hrows.1, shaped, filter_append, filter_append, ← hlate,
      filter_eq_self.mpr fun r hr => by simp [h.plain r hr],
      filter_eq_self.mpr fun r hr => by simp [hhistory r hr], shaped]
  have hparked : (rows.filter fun r => sideRow r.row) = side := by
    rw [hrows.2, shaped, filter_append, filter_append, ← hside,
      filter_eq_nil_iff.mpr fun r hr => by simp [h.plain r hr],
      filter_eq_nil_iff.mpr fun r hr => by simp [hhistory r hr]]
    rfl
  have hstart : ViewShape canonical head start late := { h with
    behind := fun r hr => h.behind r (mem_of_mem_filter (hlate ▸ hr)) }
  obtain ⟨_, stop, -, -, -, -, hstop, heq⟩ := hstart.removes (Nat.succ_pos 0) call.trimmed
  obtain ⟨last, hnext, hcleanup⟩ := hstop.cleanup hclean
  have hsub := dropOrphanRowsAfter_sublist last late
  refine ⟨stop, dropOrphanRowsAfter last late ++ side, { hnext with behind := fun r hr => ?_ },
    ?_, ?_⟩
  · rcases mem_append.mp hr with hr | hr
    · exact hnext.behind r hr
    · exact h.behind r (mem_of_mem_filter (hside ▸ hr))
  · have hnone : ((dropOrphanRowsAfter last late).filter fun r =>
        sideRow r.row && r.origin != .turn) = [] :=
      filter_eq_nil_iff.mpr fun r hr => by
        have hr := (mem_filter.mp (hlate ▸ hsub.subset hr)).2
        simp only [Bool.not_eq_true'] at hr
        simp [hr]
    rw [Parks, filter_append, hnone, nil_append, hside, List.filter_filter]
    refine (filter_congr fun r _ => ?_).trans hparks
    cases sideRow r.row <;> simp
  · rw [ModelCall.synced, hplain, heq, hcleanup, hparked, shaped, shaped, append_assoc,
      append_assoc]

theorem summaryTail?_eq_some {messages : List Message} {requestedTail tail : ℕ}
    (h : summaryTail? messages requestedTail = some tail) :
    (∃ m, messages.head? = some m ∧ m.role = "system") ∧
      completeTurnGroupTailLen messages requestedTail = some tail := by
  rw [summaryTail?] at h
  split at h
  · cases h
  next hsystem =>
    refine ⟨?_, (filter_eq_some_iff.mp h).1⟩
    cases hhead : messages.head? with
    | none => simp [hhead] at hsystem
    | some m => exact ⟨m, rfl, by simpa [hhead] using hsystem⟩

theorem user_between {front middle back pre post : List Message} {u : Message}
    (hfront : ∀ m ∈ front, realUser m = false) (hback : ∀ m ∈ back, realUser m = false)
    (hu : realUser u = true) (h : front ++ (middle ++ back) = pre ++ u :: post) :
    ∃ folded kept, pre = front ++ folded ∧ middle = folded ++ u :: kept ∧ post = kept ++ back := by
  obtain ⟨folded, rfl, hbody⟩ : ∃ folded, pre = front ++ folded ∧
      middle ++ back = folded ++ u :: post := by
    rcases append_eq_append_iff.mp h with ⟨folded, hp, hb⟩ | ⟨rest, hp, hb⟩
    · exact ⟨folded, hp, hb⟩
    · cases rest with
      | nil => exact ⟨[], by rw [hp, append_nil, append_nil], hb.symm⟩
      | cons x rest =>
        obtain rfl := (List.cons.inj hb).1
        rw [hfront u (by rw [hp]; simp)] at hu
        cases hu
  rcases append_eq_append_iff.mp hbody with ⟨rest, hp, hb⟩ | ⟨rest, hp, hb⟩
  · rw [hback u (by rw [hb]; simp)] at hu
    cases hu
  · cases rest with
    | nil =>
      rw [hback u (by rw [← nil_append back, ← hb]; simp)] at hu
      cases hu
    | cons x rest =>
      obtain ⟨rfl, rfl⟩ := List.cons.inj hb
      exact ⟨folded, rest, rfl, hp, rfl⟩

/-- The tail a summary keeps starts at a row of the history, with a group in front of it. -/
theorem ViewShape.keptTail (h : ViewShape canonical head start behind) {requestedTail tail : ℕ}
    (htail : completeTurnGroupTailLen (messagesOf (shaped canonical head start behind))
      requestedTail = some tail) :
    ∃ stop, start < stop ∧ stop < canonical.length ∧
      (∀ u ∈ (canonical.drop stop).head?, realUser u = true) ∧
      (shaped canonical head start behind).drop
          ((shaped canonical head start behind).length - tail) =
        historyRows canonical stop ++ behind ∧
      tail = (historyRows canonical stop).length + behind.length := by
  obtain ⟨pre, u, post, hsplit, hu, rfl, hpre, -⟩ := completeTurnGroupTailLen_groups htail
  have hquiet : ∀ x ∈ messagesOf head, realUser x = false := List.forall_mem_map.mpr h.quiet
  have hlate : ∀ x ∈ messagesOf behind, realUser x = false :=
    List.forall_mem_map.mpr fun r hr => (h.behind r hr).1
  have hzero : countRealUsers (messagesOf head) = 0 :=
    countP_eq_zero.mpr fun x hx => by simp [hquiet x hx]
  have hrows : messagesOf head ++ (messagesOf (historyRows canonical start) ++
      messagesOf behind) = pre ++ u :: post := by
    rw [← hsplit, shaped, messagesOf_append, messagesOf_append]
  -- the kept tail starts behind the head, at a row of the history
  obtain ⟨folded, kept, rfl, hkept, rfl⟩ := user_between hquiet hlate hu hrows
  have hfolded : 0 < folded.length := by
    rw [countRealUsers, countP_append, ← countRealUsers, hzero] at hpre
    exact length_pos_iff.mpr fun hnil => by simp [hnil] at hpre
  obtain ⟨stop, hle, -, hslice, hdrop, hfirst⟩ :=
    exists_drop_of_filter h.le ((messagesOf_historyRows canonical start).symm.trans hkept)
  have hhistory : messagesOf (historyRows canonical stop) = u :: kept :=
    (messagesOf_historyRows canonical stop).trans hdrop
  have hlt : start < stop := by
    refine lt_of_le_of_ne hle fun heq => ?_
    rw [← heq, ← slice, slice_self] at hslice
    exact absurd (congrArg List.length hslice) hfolded.ne
  have hin : stop < canonical.length := by
    by_contra hout
    rw [drop_eq_nil_of_le (not_lt.mp hout)] at hdrop
    cases hdrop
  have hkeep := congrArg List.length hhistory
  rw [messagesOf, List.length_map] at hkeep
  have hbefore : ∃ before, historyRows canonical start = before ++ historyRows canonical stop :=
    ⟨_, by rw [historyRows, historyRows, ← take_append_drop (stop - start)
      ((deriveRows canonical).drop start), filter_append, drop_drop,
      Nat.add_sub_cancel' hle]⟩
  obtain ⟨before, hbefore⟩ := hbefore
  refine ⟨stop, hlt, hin, fun x hx => ?_, ?_, ?_⟩
  · rw [hfirst] at hx
    exact Option.some.inj hx ▸ hu
  · have htotal : (shaped canonical head start behind).length -
        (u :: (kept ++ messagesOf behind)).length = (head ++ before).length := by
      simp only [shaped, hbefore, length_append, hkeep, length_cons, messagesOf,
        List.length_map]
      omega
    rw [htotal, shaped, hbefore, append_assoc, ← append_assoc head, drop_left]
  · rw [hkeep]
    simp only [messagesOf, length_cons, length_append, List.length_map]
    omega

/-- The first row and the summary in front of the kept tail. -/
theorem ViewShape.summaryHead {r : ViewRow} {rest : List ViewRow} {stop : ℕ}
    (h : ViewShape canonical (r :: rest) start behind) (hsystem : r.row.role = "system")
    (hlt : start < stop) (hstop : stop ≤ canonical.length)
    (huser : ∀ u ∈ (canonical.drop stop).head?, realUser u = true) (summaryText : String) :
    ViewShape canonical [r, ⟨.userContextSummaryInjection summaryText, .summary⟩] stop behind where
  quiet := by
    simp only [forall_mem_cons]
    refine ⟨Message.not_realUser_of_system hsystem, Message.not_realUser_of_summary ?_, by simp⟩
    simp [Message.isContextSummaryInjection, Message.userContextSummaryInjection,
      Message.userServerInjection]
  plain := by
    simp only [forall_mem_cons]
    refine ⟨h.plain r mem_cons_self, ?_, by simp⟩
    cases hside : sideRow (.userContextSummaryInjection summaryText) with
    | false => rfl
    | true =>
      have hrole := sideRow_role hside
      rw [role_userContextSummaryInjection] at hrole
      exact absurd hrole (by decide)
  first := by
    intro x hx
    obtain rfl := mem_some_iff.mp hx
    exact h.first r rfl
  tidy := by
    refine dropOrphanRowsAfter_eq_self (dropOrphansAfter_no_tools (fun x hx => ?_) none)
    simp only [messagesOf, map_cons, map_nil, mem_cons, not_mem_nil,
      or_false] at hx
    rcases hx with rfl | rfl
    · rw [hsystem]
      decide
    · rw [role_userContextSummaryInjection]
      decide
  origins := by
    refine forall_mem_cons.mpr ⟨?_, forall_mem_singleton.mpr (Or.inl rfl)⟩
    rcases h.origins r mem_cons_self with hsummary | ⟨i, hi, hbefore, hget⟩
    · exact Or.inl hsummary
    · exact Or.inr ⟨i, hi, hbefore.trans hlt, hget⟩
  le := hstop
  user := huser
  behind := h.behind

/-- A fold keeps the first row and moves the start to the kept tail. -/
theorem ViewShape.folds (h : ViewShape canonical head start behind)
    (hparks : Parks canonical behind)
    (hclean : NoOrphanRows canonical) {requestedTail tail : ℕ} (summaryText : String)
    (htail : summaryTail? (messagesOf (shaped canonical head start behind)) requestedTail =
      some tail) :
    ∃ r stop behind', (historyRows canonical 0).head? = some r ∧ r.row.role = "system" ∧
      start < stop ∧ stop < canonical.length ∧
      tail = (historyRows canonical stop).length + behind.length ∧ Parks canonical behind' ∧
      ViewShape canonical [r, ⟨.userContextSummaryInjection summaryText, .summary⟩] stop behind' ∧
      foldRows (shaped canonical head start behind) tail summaryText =
        shaped canonical [r, ⟨.userContextSummaryInjection summaryText, .summary⟩]
          stop behind' := by
  obtain ⟨⟨m, hm, hsystem⟩, hlen⟩ := summaryTail?_eq_some htail
  obtain ⟨stop, hlt, hstop, huser, hdrop, hcount⟩ := h.keptTail hlen
  have hnot : realUser m = false := Message.not_realUser_of_system hsystem
  -- the first row of the view is no user, so it stands in front of the history's first user
  obtain ⟨r, rest, rfl, hrow⟩ : ∃ r rest, head = r :: rest ∧ r.row = m := by
    cases head with
    | nil =>
      cases hdrop : canonical.drop start with
      | nil =>
        rw [drop_eq_nil_iff] at hdrop
        omega
      | cons u us =>
        have hu : realUser u = true := h.user u (by rw [hdrop]; rfl)
        rw [shaped, nil_append, messagesOf_append, messagesOf_historyRows, hdrop,
          filter_cons_of_pos (by simp [not_sideRow_of_realUser hu])] at hm
        obtain rfl : u = m := Option.some.inj hm
        rw [hnot] at hu
        cases hu
    | cons r rest => exact ⟨r, rest, rfl, Option.some.inj hm⟩
  have hrole : r.row.role = "system" := hrow ▸ hsystem
  have hshape := h.summaryHead hrole hlt hstop.le huser summaryText
  obtain ⟨last, hnext, heq⟩ := hshape.cleanup hclean
  refine ⟨r, stop, dropOrphanRowsAfter last behind, h.first r rfl, hrole, hlt, hstop,
    hcount, hparks.cleanup last, hnext, ?_⟩
  rw [foldRows, hdrop, ← heq, shaped]
  rfl

end Shape

end CrabMate
