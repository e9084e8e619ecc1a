import CrabMate.Structured.Patch

/-! What a query reads after a patch at the same query. The writer takes the segments by the kind
of the value it stands on, the reader of a dotted path by how a segment is spelled. -/
namespace CrabMate.Structured
open Option

open RustStr (Str)

open Workflow (parseUsize)

/-- A number with a sign or with a zero before other digits. -/
def paddedIndex (seg : Str) : Bool :=
  RustStr.startsWith ['+'] seg || (RustStr.startsWith ['0'] seg && seg.length ≠ 1)

/-- The segment is taken alike at the value: no numeral of a dotted path at an object, and no
padded number of a pointer at an array. -/
def TakenAlike (notn : Notation) (seg : Str) : Value → Prop
  | .object _ => notn = .dotted → parseUsize seg = none
  | .array _ => notn = .pointer → paddedIndex seg = false
  | _ => True

/-- Every segment on the way of the writer is taken alike. -/
def ReadsAlike (notn : Notation) : List Str → Value → Prop
  | [], _ => True
  | seg :: segs, v =>
    TakenAlike notn seg v ∧
      ∀ s, writeStep seg v = some s → ReadsAlike notn segs (v.childOrNew s)

/-- The place a query arrives at. -/
def queryPlace (query : Str) (v : Value) : Option (List Step) :=
  readPlace (queryNotation query) (patchQueryParts query) v

/-- Every query that leads to places apart from `p` only, before and after, reads as before. -/
def ReadsTheRest (p : List Step) (root root' : Value) : Prop :=
  ∀ other : Str,
    (∀ r, queryPlace other root = some r ∨ queryPlace other root' = some r → Apart r p) →
      resolveQueryPath root' other = resolveQueryPath root other

section Reading

variable {notn : Notation} {v v' c x x' root root' value : Value} {s : Step} {p : List Step}
  {seg last : Str} {segs tokens : List Str} {createMissing : Bool}

theorem readStep_of_alike (h : TakenAlike notn seg v) (hs : writeStep seg v = some s) :
    readStep notn seg v = some s := by
  cases v with
  | object fields =>
    cases notn with
    | pointer => exact hs
    | dotted =>
      rw [readStep, h rfl]
      exact hs
  | array xs =>
    obtain ⟨i, hi, rfl⟩ := map_eq_some_iff.mp hs
    cases notn with
    | pointer =>
      have hplain : paddedIndex seg = false := h rfl
      rw [paddedIndex] at hplain
      rw [readStep, parseIndex, hplain]
      exact hs
    | dotted => rw [readStep, hi]
  | _ => cases hs

theorem child?_of_not_alike (h : ¬ TakenAlike notn seg v) (hupdate : ChildUpdate s c v v') :
    (readStep notn seg v).bind v'.child? = none := by
  cases hupdate with
  | object _ _ =>
    simp only [TakenAlike, Classical.not_imp] at h
    obtain ⟨rfl, hnum⟩ := h
    obtain ⟨i, hi⟩ := ne_none_iff_exists'.mp hnum
    rw [readStep, hi]
    rfl
  | array _ _ =>
    simp only [TakenAlike, Classical.not_imp, Bool.not_eq_false] at h
    obtain ⟨rfl, hpadded⟩ := h
    rw [paddedIndex] at hpadded
    rw [readStep, parseIndex, hpadded]
    rfl

theorem readSegments_rewritten (notn : Notation) (h : RewrittenAt p v v' x x')
    (hp : writePlace segs v = some p) :
    (ReadsAlike notn segs v → readSegments notn segs v' = some x') ∧
      (¬ ReadsAlike notn segs v → readSegments notn segs v' = none) := by
  induction segs generalizing v v' p with
  | nil =>
    obtain rfl := Option.some.inj hp
    cases h
    exact ⟨fun _ => rfl, fun hnot => absurd trivial hnot⟩
  | cons seg segs ih =>
    rw [writePlace] at hp
    obtain ⟨s, hs, hp⟩ := bind_eq_some_iff.mp hp
    obtain ⟨q, hq, rfl⟩ := map_eq_some_iff.mp hp
    cases h with
    | step update rest =>
      rename_i c'
      obtain ⟨hread, hnone⟩ := ih rest hq
      by_cases halike : TakenAlike notn seg v
      · have hsegs : readSegments notn (seg :: segs) v' = readSegments notn segs c' := by
          rw [readSegments, update.readStep_eq, readStep_of_alike halike hs, bind_some,
            update.child?_self, bind_some]
        rw [hsegs, ReadsAlike]
        refine ⟨fun h => hread (h.2 s hs), fun hnot => hnone fun hrest => hnot ⟨halike, ?_⟩⟩
        intro t ht
        obtain rfl := Option.some.inj (hs.symm.trans ht)
        exact hrest
      · refine ⟨fun h => absurd h.1 halike, fun _ => ?_⟩
        rw [readSegments, update.readStep_eq, ← bind_assoc,
          child?_of_not_alike halike update, bind_none]

theorem readSegments_object_nil (notn : Notation) (hne : segs ≠ []) :
    readSegments notn segs (.object []) = none ∧ readPlace notn segs (.object []) = none := by
  cases segs with
  | nil => exact absurd rfl hne
  | cons seg segs =>
    have hnone : ∀ s, (Value.object []).child? s = none := by
      intro s
      cases s <;> rfl
    simp [readSegments, readPlace, hnone]

/-- A query that leads beside the written place reads what it has read. -/
theorem readSegments_apart (h : RewrittenAt p v v' x x')
    (hapart : ∀ r, readPlace notn segs v = some r ∨ readPlace notn segs v' = some r → Apart r p) :
    readSegments notn segs v' = readSegments notn segs v := by
  induction h generalizing segs with
  | here =>
    have hnone : ∀ w, (∀ r, readPlace notn segs w = some r → False) →
        readSegments notn segs w = none := by
      intro w hw
      rw [readSegments_eq_at?]
      cases hr : readPlace notn segs w with
      | none => rfl
      | some r => exact absurd hr fun h => hw r h
    rw [hnone _ fun r hr => not_apart_nil r (hapart r (.inl hr)),
      hnone _ fun r hr => not_apart_nil r (hapart r (.inr hr))]
  | step update _ ih =>
    rename_i s p v v' c' x x' _
    cases segs with
    | nil => exact absurd (hapart [] (.inl rfl)) (not_nil_apart _)
    | cons seg segs =>
      simp only [readPlace, update.readStep_eq] at hapart
      rw [readSegments, readSegments, update.readStep_eq]
      refine Option.bind_congr fun t ht => ?_
      rw [ht] at hapart
      simp only [bind_some] at hapart
      by_cases hts : t = s
      · subst hts
        rw [update.child?_self] at hapart ⊢
        simp only [bind_some] at hapart ⊢
        cases hchild : v.child? t with
        | some c =>
          rw [Value.childOrNew, hchild, getD_some] at ih
          rw [hchild] at hapart
          refine ih fun r hr => apart_cons.mp (hapart (t :: r) ?_)
          exact hr.imp (fun h => by simp [h]) fun h => by simp [h]
        | none =>
          -- what the writer has put there holds nothing but the way to its place
          rw [Value.childOrNew, hchild, getD_none] at ih
          have hne : segs ≠ [] := by
            rintro rfl
            have hself := apart_cons.mp (hapart [t] (.inr rfl))
            exact not_nil_apart p hself
          obtain ⟨hread, hplace⟩ := readSegments_object_nil notn hne
          rw [bind_none, ← hread]
          refine ih fun r hr => apart_cons.mp (hapart (t :: r) (.inr ?_))
          obtain hr | hr := hr
          · rw [hplace] at hr
            cases hr
          · simp [hr]
      · rw [update.child?_other hts]

theorem readsTheRest_of_rewritten (h : RewrittenAt p root root' x x') :
    ReadsTheRest p root root' := by
  intro other hother
  rw [resolveQueryPath_eq, resolveQueryPath_eq]
  exact readSegments_apart h hother

theorem readSegments_append (notn : Notation) (segs rest : List Str) (v : Value) :
    readSegments notn (segs ++ rest) v =
      (readSegments notn segs v).bind (readSegments notn rest) := by
  induction segs generalizing v with
  | nil => rfl
  | cons seg segs ih =>
    rw [List.cons_append, readSegments, readSegments, bind_assoc]
    refine Option.bind_congr fun s _ => ?_
    rw [bind_assoc]
    exact Option.bind_congr fun c _ => ih c

theorem readSegments_erased (notn : Notation) (last : Str) (fields : List (Str × Value)) :
    readSegments notn [last] (.object (OrdMap.erase last fields)) = none := by
  cases notn with
  | pointer => simp [readSegments, readStep]
  | dotted => cases h : parseUsize last <;> simp [readSegments, readStep, h, Value.child?]

end Reading

section Results

variable {root value : Value} {query : Str} {tokens : List Str}

/-- After a successful `set` the query reads the value, and every other path what it has read,
exactly when every segment is taken alike; after the removal of a member the query reads nothing. -/
theorem resolves_after_patch_iff (root value : Value) (query : Str) (tokens : List Str)
    (htokens : parsePatchQueryTokens query = .ok tokens) :
    (∀ createMissing root', setValueAtPath root tokens value createMissing = .ok root' →
      ((resolveQueryPath root' query = some value ∧
        ∀ p, writePlace tokens root = some p → ReadsTheRest p root root') ↔
          ReadsAlike (queryNotation query) tokens root)) ∧
      ∀ root' p k, removeValueAtPath root tokens = .ok root' →
        writePlace tokens root = some (p ++ [.key k]) → resolveQueryPath root' query = none := by
  have hparts := patchQueryParts_of_ok htokens
  constructor
  · intro createMissing root' hset
    obtain ⟨p, x, hp, hrw⟩ := setValueAtPath_ok hset
    obtain ⟨hread, hnone⟩ := readSegments_rewritten (queryNotation query) hrw hp
    rw [resolveQueryPath_eq, hparts]
    constructor
    · rintro ⟨hvalue, -⟩
      by_contra hnot
      rw [hnone hnot] at hvalue
      cases hvalue
    · intro halike
      refine ⟨hread halike, fun q hq => ?_⟩
      obtain rfl := Option.some.inj (hp.symm.trans hq)
      exact readsTheRest_of_rewritten hrw
  · intro root' p k hremove hplace
    obtain ⟨segs, last, q, x, x', rfl, hq, hlast, hrw⟩ := removeValueAtPath_ok hremove
    obtain ⟨hread, hnone⟩ := readSegments_rewritten (queryNotation query) hrw hq
    rw [resolveQueryPath_eq, hparts, readSegments_append]
    by_cases halike : ReadsAlike (queryNotation query) segs root
    · rw [hread halike, bind_some]
      cases x with
      | object fields =>
        rw [removeLast] at hlast
        split at hlast
        · obtain rfl := Except.ok.inj hlast
          exact readSegments_erased _ last fields
        · cases hlast
      | array xs =>
        -- the place then ends in an index
        cases hi : parseUsize last with
        | none =>
          rw [removeLast, hi] at hlast
          cases hlast
        | some i =>
          have hend : writePlace (segs ++ [last]) root = some (q ++ [.index i]) :=
            hrw.writePlace_concat hq (by rw [writeStep, hi, map_some])
          have heq := Option.some.inj (hplace.symm.trans hend)
          have hstep := (List.append_inj' heq rfl).2
          cases hstep
      | _ => cases hlast
    · rw [hnone halike, bind_none]

theorem resolves_after_patch_iff_nested :
    (∀ createMissing root',
      setValueAtPath (.object []) ["a".toList, "b".toList] .null createMissing = .ok root' →
        ((resolveQueryPath root' "a.b".toList = some .null ∧
          ∀ p, writePlace ["a".toList, "b".toList] (.object []) = some p →
            ReadsTheRest p (.object []) root') ↔
          ReadsAlike (queryNotation "a.b".toList) ["a".toList, "b".toList] (.object []))) ∧
      ∀ root' p k, removeValueAtPath (.object []) ["a".toList, "b".toList] = .ok root' →
        writePlace ["a".toList, "b".toList] (.object []) = some (p ++ [.key k]) →
          resolveQueryPath root' "a.b".toList = none :=
  resolves_after_patch_iff (.object []) .null "a.b".toList ["a".toList, "b".toList] (by rfl)

/-- `a.0` writes the member `0` of an object, and reads the element of an array. -/
theorem not_resolves_after_set :
    ¬ ∀ (root value : Value) (query : Str) (tokens : List Str) (createMissing : Bool)
      (root' : Value), parsePatchQueryTokens query = .ok tokens →
        setValueAtPath root tokens value createMissing = .ok root' →
          resolveQueryPath root' query = some value := by
  intro h
  have hread := h (.object [("a".toList, .object [("0".toList, .bool true)])]) .null "a.0".toList
    ["a".toList, "0".toList] false (.object [("a".toList, .object [("0".toList, .null)])])
    (by rfl) (by rfl)
  cases hread

end Results

end CrabMate.Structured
