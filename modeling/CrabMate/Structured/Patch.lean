import CrabMate.Lib.Except
import CrabMate.Structured.Query

/-! Setting and removing a value at a query. What a successful edit does is said once, by
`RewrittenAt`: one value inside the document is replaced and nothing beside the path to it
changes. -/
namespace CrabMate.Structured
open List Option

open RustStr (Str)

open Workflow (parseUsize)

def outOfBounds (i length : ℕ) : Str :=
  "数组下标越界: ".toList ++ (toString i).toList ++ "（长度 ".toList ++ (toString length).toList ++
    "）".toList

def notAnIndex (seg : Str) : Str := "数组路径片段不是非负整数: ".toList ++ seg

/-- The member to go on with; a missing one is a new empty object. -/
def descendObject (fields : List (Str × Value)) (seg : Str) (createMissing : Bool) :
    Except Str Value :=
  match OrdMap.get seg fields with
  | some v => .ok v
  | none =>
    if createMissing then .ok (.object []) else .error ("中间路径不存在: ".toList ++ seg)

/-- The element to go on with and its index; only the element after the last may be new. -/
def descendArray (xs : List Value) (seg : Str) (createMissing : Bool) : Except Str (ℕ × Value) :=
  match parseUsize seg with
  | none => .error (notAnIndex seg)
  | some i =>
    match xs[i]? with
    | some x => .ok (i, x)
    | none =>
      if createMissing && i = xs.length then .ok (i, .object [])
      else .error (outOfBounds i xs.length)

/-- Replaces an element, or appends after the last one. -/
def putItem (xs : List Value) (i : ℕ) (x : Value) : List Value :=
  if i < xs.length then xs.set i x else xs ++ [x]

/-- Goes down along the segments (`ensure_parent_for_set`) and edits the value it arrives at. -/
def editParent (createMissing : Bool) (edit : Value → Except Str Value) :
    List Str → Value → Except Str Value
  | [], cur => edit cur
  | seg :: segs, .object fields =>
    descendObject fields seg createMissing >>= fun child =>
      editParent createMissing edit segs child >>= fun c =>
        .ok (.object (OrdMap.insert seg c fields))
  | seg :: segs, .array xs =>
    descendArray xs seg createMissing >>= fun child =>
      editParent createMissing edit segs child.2 >>= fun c => .ok (.array (putItem xs child.1 c))
  | _ :: _, _ => .error "中间路径不是 object/array，无法继续下钻".toList

def setLast (last : Str) (value : Value) (createMissing : Bool) : Value → Except Str Value
  | .object fields => .ok (.object (OrdMap.insert last value fields))
  | .array xs =>
    match parseUsize last with
    | none => .error (notAnIndex last)
    | some i =>
      if i < xs.length ∨ (createMissing ∧ i = xs.length) then .ok (.array (putItem xs i value))
      else .error (outOfBounds i xs.length)
  | _ => .error "目标父节点不是 object/array，无法写入".toList

def setValueAtPath (root : Value) (tokens : List Str) (value : Value) (createMissing : Bool) :
    Except Str Value :=
  match tokens.getLast? with
  | none => .ok value
  | some last => editParent createMissing (setLast last value createMissing) tokens.dropLast root

def removeLast (last : Str) : Value → Except Str Value
  | .object fields =>
    if (OrdMap.get last fields).isSome then .ok (.object (OrdMap.erase last fields))
    else .error ("路径不存在: ".toList ++ last)
  | .array xs =>
    match parseUsize last with
    | none => .error (notAnIndex last)
    | some i =>
      if i < xs.length then .ok (.array (xs.eraseIdx i)) else .error (outOfBounds i xs.length)
  | _ => .error "目标父节点不是 object/array，无法删除".toList

def removeValueAtPath (root : Value) (tokens : List Str) : Except Str Value :=
  match tokens.getLast? with
  | none => .error "remove 不支持空路径（根节点）".toList
  | some last => editParent false (removeLast last) tokens.dropLast root

/-! The place that is written. -/

/-- The step a writer takes at a value for a segment. -/
def writeStep (seg : Str) : Value → Option Step
  | .object _ => some (.key seg)
  | .array _ => (parseUsize seg).map .index
  | _ => none

def Value.childOrNew (v : Value) (s : Step) : Value := (v.child? s).getD (.object [])

def writePlace : List Str → Value → Option (List Step)
  | [], _ => some []
  | seg :: segs, v =>
    (writeStep seg v).bind fun s => (writePlace segs (v.childOrNew s)).map (s :: ·)

/-- The child of `v` at `s` becomes `c`; nothing else about `v` changes. -/
inductive ChildUpdate : Step → Value → Value → Value → Prop where
  | object {k : Str} {c : Value} {fields fields' : List (Str × Value)}
      (self : OrdMap.get k fields' = some c)
      (others : ∀ l, l ≠ k → OrdMap.get l fields' = OrdMap.get l fields) :
      ChildUpdate (.key k) c (.object fields) (.object fields')
  | array {i : ℕ} {c : Value} {xs xs' : List Value} (self : xs'[i]? = some c)
      (others : ∀ j, j ≠ i → xs'[j]? = xs[j]?) :
      ChildUpdate (.index i) c (.array xs) (.array xs')

/-- `v'` is `v` with the value `x` at the place replaced by `x'`; a value missing on the way
counts as the empty object. -/
inductive RewrittenAt : List Step → Value → Value → Value → Value → Prop where
  | here (x x' : Value) : RewrittenAt [] x x' x x'
  | step {s : Step} {p : List Step} {v v' c' x x' : Value} (update : ChildUpdate s c' v v')
      (rest : RewrittenAt p (v.childOrNew s) c' x x') : RewrittenAt (s :: p) v v' x x'

/-- Neither place lies in the other. -/
def Apart (p q : List Step) : Prop := ¬ p <+: q ∧ ¬ q <+: p

section Update

variable {s t : Step} {v v' c x x' : Value} {p q : List Step}

theorem ChildUpdate.child?_self (h : ChildUpdate s c v v') : v'.child? s = some c := by
  cases h with
  | object self _ => exact self
  | array self _ => exact self

theorem ChildUpdate.child?_other (h : ChildUpdate s c v v') (hne : t ≠ s) :
    v'.child? t = v.child? t := by
  cases h with
  | object _ others =>
    cases t with
    | key l => exact others l fun heq => hne (congrArg Step.key heq)
    | index j => rfl
  | array _ others =>
    cases t with
    | key l => rfl
    | index j => exact others j fun heq => hne (congrArg Step.index heq)

/-- An update keeps the kind of the value, and with it how segments are read. -/
theorem ChildUpdate.readStep_eq (h : ChildUpdate s c v v') (notn : Notation) (seg : Str) :
    readStep notn seg v' = readStep notn seg v := by
  cases h <;> cases notn <;> rfl

theorem RewrittenAt.trans {y y' : Value} (h : RewrittenAt p v v' x x')
    (hrest : RewrittenAt q x x' y y') : RewrittenAt (p ++ q) v v' y y' := by
  induction h with
  | here => exact hrest
  | step update _ ih => exact .step update (ih hrest)

theorem apart_cons {s : Step} : Apart (s :: p) (s :: q) ↔ Apart p q := by
  simp [Apart, cons_prefix_cons]

theorem not_apart_nil (p : List Step) : ¬ Apart p [] := fun h => h.2 nil_prefix

theorem not_nil_apart (p : List Step) : ¬ Apart [] p := fun h => h.1 nil_prefix

theorem Value.at?_object_nil (s : Step) (p : List Step) :
    (Value.object []).at? (s :: p) = none := by
  cases s <;> rfl

theorem Value.at?_childOrNew {s : Step} {p : List Step} (hp : p ≠ []) (v : Value) :
    (v.childOrNew s).at? p = v.at? (s :: p) := by
  rw [Value.at?_cons, Value.childOrNew]
  cases v.child? s with
  | some c => rfl
  | none =>
    cases p with
    | nil => exact absurd rfl hp
    | cons t p => exact Value.at?_object_nil t p

theorem RewrittenAt.at?_apart (h : RewrittenAt p v v' x x') (hq : Apart q p) :
    v'.at? q = v.at? q := by
  induction h generalizing q with
  | here => exact absurd hq (not_apart_nil q)
  | step update _ ih =>
    cases q with
    | nil => exact absurd hq (not_nil_apart _)
    | cons t q =>
      rename_i s p v v' c' x x' _
      by_cases hts : t = s
      · subst hts
        have hq := apart_cons.mp hq
        have hne : q ≠ [] := fun heq => not_nil_apart p (heq ▸ hq)
        rw [Value.at?_cons, update.child?_self, bind_some, ih hq,
          Value.at?_childOrNew hne]
      · rw [Value.at?_cons, Value.at?_cons, update.child?_other hts]

end Update

/-! What a successful edit has done. -/

section Write

variable {v v' x x' value child root root' : Value} {s : Step} {p : List Step}
  {fields : List (Str × Value)} {xs : List Value} {seg last : Str} {segs tokens : List Str}
  {createMissing : Bool} {edit : Value → Except Str Value} {i : ℕ}

theorem childUpdate_insert (k : Str) (c : Value) (fields : List (Str × Value)) :
    ChildUpdate (.key k) c (.object fields) (.object (OrdMap.insert k c fields)) :=
  .object (OrdMap.get_insert_self k c fields) fun _ hl => OrdMap.get_insert_ne hl c fields

theorem childUpdate_putItem (hi : i ≤ xs.length) (c : Value) :
    ChildUpdate (.index i) c (.array xs) (.array (putItem xs i c)) := by
  by_cases hlt : i < xs.length
  · rw [putItem, if_pos hlt]
    exact .array (getElem?_set_self hlt) fun j hj => getElem?_set_ne (Ne.symm hj)
  · obtain rfl : i = xs.length := by omega
    rw [putItem, if_neg hlt]
    refine .array getElem?_concat_length fun j hj => ?_
    by_cases hjl : j < xs.length
    · exact getElem?_append_left hjl
    · rw [getElem?_eq_none (by simp; omega), getElem?_eq_none (by omega)]

theorem descendObject_ok (h : descendObject fields seg createMissing = .ok child) :
    child = (Value.object fields).childOrNew (.key seg) := by
  simp only [descendObject] at h
  rw [Value.childOrNew, Value.child?_object_key]
  cases hget : OrdMap.get seg fields with
  | some w =>
    rw [hget] at h
    exact (Except.ok.inj h).symm
  | none =>
    rw [hget] at h
    simp only at h
    split at h
    · exact (Except.ok.inj h).symm
    · cases h

theorem descendArray_ok {found : ℕ × Value}
    (h : descendArray xs seg createMissing = .ok found) :
    parseUsize seg = some found.1 ∧ found.1 ≤ xs.length ∧
      found.2 = (Value.array xs).childOrNew (.index found.1) := by
  simp only [descendArray] at h
  cases hparse : parseUsize seg with
  | none =>
    rw [hparse] at h
    cases h
  | some i =>
    rw [hparse] at h
    simp only at h
    cases hget : xs[i]? with
    | some y =>
      rw [hget] at h
      obtain rfl := Except.ok.inj h
      obtain ⟨hlt, -⟩ := List.getElem?_eq_some_iff.mp hget
      exact ⟨rfl, hlt.le, by rw [Value.childOrNew, Value.child?_array_index, hget]; rfl⟩
    | none =>
      rw [hget] at h
      simp only at h
      split at h
      · rename_i hnew
        obtain rfl := Except.ok.inj h
        have hi : i = xs.length := by simpa using (Bool.and_eq_true_iff.mp hnew).2
        exact ⟨rfl, hi.le, by rw [Value.childOrNew, Value.child?_array_index, hget]; rfl⟩
      · cases h

theorem editParent_ok (h : editParent createMissing edit segs v = .ok v') :
    ∃ p x x', writePlace segs v = some p ∧ edit x = .ok x' ∧ RewrittenAt p v v' x x' := by
  induction segs generalizing v v' with
  | nil => exact ⟨[], v, v', rfl, h, .here v v'⟩
  | cons seg segs ih =>
    cases v with
    | object fields =>
      obtain ⟨child, hchild, h⟩ := Except.bind_eq_ok.mp h
      obtain ⟨c, hc, h⟩ := Except.bind_eq_ok.mp h
      obtain rfl := Except.ok.inj h
      obtain rfl := descendObject_ok hchild
      obtain ⟨p, x, x', hp, hedit, hrw⟩ := ih hc
      refine ⟨.key seg :: p, x, x', ?_, hedit, .step (childUpdate_insert seg c fields) hrw⟩
      rw [writePlace, writeStep, bind_some, hp, map_some]
    | array xs =>
      obtain ⟨found, hfound, h⟩ := Except.bind_eq_ok.mp h
      obtain ⟨c, hc, h⟩ := Except.bind_eq_ok.mp h
      obtain rfl := Except.ok.inj h
      obtain ⟨hparse, hi, hchild⟩ := descendArray_ok hfound
      rw [hchild] at hc
      obtain ⟨p, x, x', hp, hedit, hrw⟩ := ih hc
      refine ⟨.index found.1 :: p, x, x', ?_, hedit, .step (childUpdate_putItem hi c) hrw⟩
      rw [writePlace, writeStep, hparse, map_some, bind_some, hp, map_some]
    | _ => cases h

theorem setLast_ok (h : setLast last value createMissing x = .ok x') :
    ∃ s, writeStep last x = some s ∧ ChildUpdate s value x x' := by
  cases x with
  | object fields =>
    obtain rfl := Except.ok.inj h
    exact ⟨.key last, rfl, childUpdate_insert last value fields⟩
  | array xs =>
    simp only [setLast] at h
    cases hparse : parseUsize last with
    | none =>
      rw [hparse] at h
      cases h
    | some i =>
      rw [hparse] at h
      simp only at h
      split at h
      · rename_i hi
        obtain rfl := Except.ok.inj h
        have hle : i ≤ xs.length := hi.elim Nat.le_of_lt fun h => h.2.le
        exact ⟨.index i, by rw [writeStep, hparse, map_some],
          childUpdate_putItem hle value⟩
      · cases h
  | _ => cases h

theorem RewrittenAt.writePlace_concat (h : RewrittenAt p v v' x x')
    (hp : writePlace segs v = some p) (hs : writeStep last x = some s) :
    writePlace (segs ++ [last]) v = some (p ++ [s]) := by
  induction segs generalizing v v' p with
  | nil =>
    obtain rfl := Option.some.inj hp
    cases h
    rw [nil_append, nil_append, writePlace, hs]
    rfl
  | cons seg segs ih =>
    rw [writePlace] at hp
    obtain ⟨t, ht, hp⟩ := bind_eq_some_iff.mp hp
    obtain ⟨q, hq, rfl⟩ := map_eq_some_iff.mp hp
    cases h with
    | step _ rest =>
      rw [cons_append, writePlace, ht, bind_some, ih rest hq, map_some,
        cons_append]

theorem setValueAtPath_ok (h : setValueAtPath root tokens value createMissing = .ok root') :
    ∃ p x, writePlace tokens root = some p ∧ RewrittenAt p root root' x value := by
  rw [setValueAtPath] at h
  cases hlast : tokens.getLast? with
  | none =>
    rw [hlast] at h
    obtain rfl := Except.ok.inj h
    rw [getLast?_eq_none_iff.mp hlast]
    exact ⟨[], root, rfl, .here root value⟩
  | some last =>
    rw [hlast] at h
    obtain ⟨p, x, x', hp, hedit, hrw⟩ := editParent_ok h
    obtain ⟨s, hs, hupdate⟩ := setLast_ok hedit
    refine ⟨p ++ [s], x.childOrNew s, ?_, hrw.trans (.step hupdate (.here _ _))⟩
    rw [← dropLast_append_getLast? last hlast]
    exact hrw.writePlace_concat hp hs

theorem removeValueAtPath_ok (h : removeValueAtPath root tokens = .ok root') :
    ∃ segs last p x x', tokens = segs ++ [last] ∧ writePlace segs root = some p ∧
      removeLast last x = .ok x' ∧ RewrittenAt p root root' x x' := by
  rw [removeValueAtPath] at h
  cases hlast : tokens.getLast? with
  | none =>
    rw [hlast] at h
    cases h
  | some last =>
    rw [hlast] at h
    obtain ⟨p, x, x', hp, hedit, hrw⟩ := editParent_ok h
    exact ⟨tokens.dropLast, last, p, x, x', (dropLast_append_getLast? last hlast).symm, hp,
      hedit, hrw⟩

end Write

/-! Where the other places go. -/

/-- Behind a removed element the elements of its array move up by one. -/
def closeGap (i : ℕ) : List Step → List Step
  | .index j :: q => .index (if i < j then j - 1 else j) :: q
  | q => q

/-- Moves the places below `p` and leaves the others. -/
def moveBelow (f : List Step → List Step) : List Step → List Step → List Step
  | [], q => f q
  | s :: p, t :: q => if s = t then t :: moveBelow f p q else t :: q
  | _ :: _, [] => []

/-- Where a place is found after the value at `p` has been removed. -/
def movedBy (p : List Step) (q : List Step) : List Step :=
  match p.getLast? with
  | some (.index i) => moveBelow (closeGap i) p.dropLast q
  | _ => q

section Moved

variable {f : List Step → List Step} {p q : List Step} {v v' x x' root root' : Value} {i : ℕ}
  {s : Step} {tokens : List Str}

theorem moveBelow_id (p q : List Step) : moveBelow id p q = q := by
  induction p generalizing q with
  | nil => rfl
  | cons s p ih =>
    cases q with
    | nil => rfl
    | cons t q => simp [moveBelow, ih]

theorem RewrittenAt.at?_moveBelow (h : RewrittenAt p v v' x x')
    (hx : ∀ q, Apart q [s] → x'.at? (f q) = x.at? q) (hq : Apart q (p ++ [s])) :
    v'.at? (moveBelow f p q) = v.at? q := by
  induction h generalizing q with
  | here => exact hx q hq
  | step update _ ih =>
    rename_i r p v v' c' x x' _
    cases q with
    | nil => exact absurd hq (not_nil_apart _)
    | cons t q =>
      rw [moveBelow]
      split
      · rename_i hrt
        subst hrt
        have hq := apart_cons.mp hq
        have hne : q ≠ [] := fun heq => not_nil_apart _ (heq ▸ hq)
        rw [Value.at?_cons, update.child?_self, bind_some, ih hx hq,
          Value.at?_childOrNew hne]
      · rename_i hrt
        rw [Value.at?_cons, Value.at?_cons, update.child?_other (Ne.symm hrt)]

theorem head_ne_of_apart {t : Step} (hq : Apart (t :: q) [s]) : t ≠ s := by
  rintro rfl
  exact hq.2 (cons_prefix_cons.mpr ⟨rfl, nil_prefix⟩)

theorem at?_eraseIdx {xs : List Value} (hq : Apart q [.index i]) :
    (Value.array (xs.eraseIdx i)).at? (closeGap i q) = (Value.array xs).at? q := by
  cases q with
  | nil => exact absurd hq (not_nil_apart _)
  | cons t q =>
    have hne := head_ne_of_apart hq
    cases t with
    | key k => rfl
    | index j =>
      have hne : j ≠ i := fun heq => hne (congrArg Step.index heq)
      rw [closeGap, Value.at?_cons, Value.at?_cons, Value.child?_array_index,
        Value.child?_array_index, getElem?_eraseIdx]
      by_cases hij : i < j
      · rw [if_pos hij, if_neg (by omega), show j - 1 + 1 = j by omega]
      · rw [if_neg hij, if_pos (by omega)]

theorem at?_erase {fields : List (Str × Value)} {k : Str} (hq : Apart q [.key k]) :
    (Value.object (OrdMap.erase k fields)).at? q = (Value.object fields).at? q := by
  cases q with
  | nil => exact absurd hq (not_nil_apart _)
  | cons t q =>
    have hne := head_ne_of_apart hq
    cases t with
    | key l =>
      have hne : l ≠ k := fun heq => hne (congrArg Step.key heq)
      rw [Value.at?_cons, Value.at?_cons, Value.child?_object_key, Value.child?_object_key,
        OrdMap.get_erase_ne hne]
    | index j => rfl

/-- A successful removal leaves every other value as it was, at the place it has moved to. -/
theorem removeValueAtPath_at? (h : removeValueAtPath root tokens = .ok root') :
    ∃ p, writePlace tokens root = some p ∧
      ∀ q, Apart q p → root'.at? (movedBy p q) = root.at? q := by
  obtain ⟨segs, last, p, x, x', rfl, hp, hlast, hrw⟩ := removeValueAtPath_ok h
  cases x with
  | object fields =>
    rw [removeLast] at hlast
    split at hlast
    · obtain rfl := Except.ok.inj hlast
      refine ⟨p ++ [.key last], hrw.writePlace_concat hp rfl, fun q hq => ?_⟩
      have hmoved : movedBy (p ++ [.key last]) q = moveBelow id p q := by
        simp [movedBy, moveBelow_id]
      rw [hmoved]
      exact hrw.at?_moveBelow (f := id) (fun r hr => at?_erase hr) hq
    · cases hlast
  | array xs =>
    cases hi : parseUsize last with
    | none =>
      rw [removeLast, hi] at hlast
      cases hlast
    | some i =>
      simp only [removeLast, hi] at hlast
      split at hlast
      · obtain rfl := Except.ok.inj hlast
        refine ⟨p ++ [.index i], hrw.writePlace_concat hp (by rw [writeStep, hi]; rfl), ?_⟩
        intro q hq
        have hmoved : movedBy (p ++ [.index i]) q = moveBelow (closeGap i) p q := by
          simp [movedBy]
        rw [hmoved]
        exact hrw.at?_moveBelow (fun r hr => at?_eraseIdx hr) hq
      · cases hlast
  | _ => cases hlast

end Moved

end CrabMate.Structured
