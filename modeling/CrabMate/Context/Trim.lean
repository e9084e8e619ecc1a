import CrabMate.Context.Folding
import CrabMate.Tools.ShellScript

/-! Trimming a conversation from its oldest end: by the number of rows and by their characters.
Both loops take whole turn groups out and report the removed rows as one range of the input. -/
namespace CrabMate
open Positions RustStr List

namespace RemovedPrefix

def empty : RemovedPrefix := ⟨0, 0⟩

def isEmpty (p : RemovedPrefix) : Bool := p.removed == 0

def stop (p : RemovedPrefix) : ℕ := p.start + p.removed

/-- Adds the rows `[localStart, localStart + localRemoved)` of a list from which the range is
already gone. -/
def recordLocal (p : RemovedPrefix) (localStart localRemoved : ℕ) : RemovedPrefix :=
  if localRemoved = 0 then p
  else if p.removed = 0 then ⟨localStart, localRemoved⟩
  else
    let origStart := if p.start ≤ localStart then localStart + p.removed else localStart
    let newStart := min p.start origStart
    let newEnd := max p.stop (origStart + localRemoved)
    ⟨newStart, newEnd - newStart⟩

/-- The union of two ranges of the same list. -/
def union (p q : RemovedPrefix) : RemovedPrefix :=
  if q.removed = 0 then p
  else if p.removed = 0 then q
  else
    let start := min p.start q.start
    ⟨start, max p.stop q.stop - start⟩

end RemovedPrefix

/-- The input without the range is the output. -/
def RemovedPrefix.Denotes (p : RemovedPrefix) (input output : List Message) : Prop :=
  input.take p.start ++ input.drop p.stop = output

section Estimate

def messageContentByteLenForEstimate : Option MessageContent → ℕ
  | none => 0
  | some (.text s) => s.utf8ByteSize
  | some (.parts ps) =>
    (ps.filterMap fun p => (p.get? "text").bind JsonValue.asStr?).foldl
      (fun n t => n + t.utf8ByteSize) 0

def estimateCharsFromBytes (s : String) : ℕ := (s.utf8ByteSize + 1) / 2

def estimateMessageChars (m : Message) : ℕ :=
  let n := (messageContentByteLenForEstimate m.content + 1) / 2
  let n := n + (m.reasoningContent.map estimateCharsFromBytes).getD 0
  (m.toolCalls.getD []).foldl (fun n c =>
    n + c.function.name.utf8ByteSize + c.function.arguments.utf8ByteSize + c.id.utf8ByteSize) n

def estimateNonSystemChars (messages : List Message) : ℕ :=
  ((messages.filter fun m => m.role != "system").map estimateMessageChars).foldl (· + ·) 0

end Estimate

section Count

def roleIs (name : String) (m : Message) : Bool :=
  eqIgnoreAsciiCase (trim m.role.toList) name.toList

/-- The last rows of a history without turn groups. A run of assistant rows at its start gets the
last dropped user row back, in place of the rows behind it. -/
def trimTailAfterSystem (after : List Message) (tailKeep : ℕ) : List Message :=
  let skip := after.length - tailKeep
  let tail := after.drop skip
  if 2 ≤ tail.length ∧ (tail.take 2).all (roleIs "assistant") then
    match (rposition (roleIs "user") (after.take skip)).bind (after[·]?) with
    | none => tail
    | some user => user :: tail.drop (tail.length + 1 - max tailKeep 1)
  else tail

/-- The loop of `trim_messages_by_count`: whole groups go while there are too many rows. -/
def trimByCountLoop (maxTotal : ℕ) :
    ℕ → List Message → RemovedPrefix → List Message × RemovedPrefix
  | 0, messages, removed => (messages, removed)
  | fuel + 1, messages, removed =>
    if maxTotal < messages.length then
      let (next, step) := removeOldestTurnGroup messages 1
      if step.isEmpty then (messages, removed)
      else trimByCountLoop maxTotal fuel next (removed.union step)
    else (messages, removed)

def maxTotalRows (messages : List Message) (maxAfterSystem : ℕ) : ℕ :=
  maxAfterSystem + if messages.head?.any fun m => m.role == "system" then 1 else 0

def trimMessagesByCount (messages : List Message) (maxAfterSystem : ℕ) :
    List Message × RemovedPrefix :=
  if messages.isEmpty ∨ maxAfterSystem = 0 then (messages, .empty)
  else
    let maxTotal := maxTotalRows messages maxAfterSystem
    let (trimmed, removed) := trimByCountLoop maxTotal messages.length messages .empty
    if trimmed.length ≤ maxTotal then (trimmed, removed)
    -- the most recent group may exceed the limit
    else if (conversationTurnGroups trimmed).isEmpty = false then (trimmed, removed)
    else if trimmed.head?.any fun m => m.role == "system" then
      if trimmed.length ≤ 1 + maxAfterSystem then (trimmed, removed)
      else (trimmed.take 1 ++ trimTailAfterSystem (trimmed.drop 1) maxAfterSystem, removed)
    else if maxAfterSystem < trimmed.length then
      (trimmed.drop (trimmed.length - maxAfterSystem), removed)
    else (trimmed, removed)

end Count

section Chars

/-- The loop of `trim_complete_turn_groups_by_char_budget`. -/
def trimCompleteTurnGroupsByCharBudget (budget minTotal : ℕ) :
    ℕ → List Message → RemovedPrefix → List Message × RemovedPrefix
  | 0, messages, removed => (messages, removed)
  | fuel + 1, messages, removed =>
    if budget < estimateNonSystemChars messages then
      match conversationTurnGroups messages with
      | [] => (messages, removed)
      | oldest :: others =>
        let remaining := messages.length - (oldest.stop - oldest.start)
        if others = [] ∨ remaining < minTotal then (messages, removed)
        else
          trimCompleteTurnGroupsByCharBudget budget minTotal fuel
            (messages.take oldest.start ++ messages.drop oldest.stop)
            (removed.recordLocal oldest.start (oldest.stop - oldest.start))
    else (messages, removed)

/-- How many of the rows go one by one until the rest is within the budget. -/
def ungroupedRemoveCount (budget : ℕ) : ℕ → List Message → ℕ
  | _, [] => 0
  | remainingChars, m :: ms =>
    if remainingChars ≤ budget then 0
    else ungroupedRemoveCount budget (remainingChars - estimateMessageChars m) ms + 1

def trimUngroupedMessagesByCharBudget (messages : List Message) (budget minTotal : ℕ) :
    List Message × RemovedPrefix :=
  let startIdx := if messages.head?.any fun m => m.role == "system" then 1 else 0
  let removable := messages.length - minTotal
  let removeCount := ungroupedRemoveCount budget (estimateNonSystemChars messages)
    ((messages.drop startIdx).take removable)
  (messages.take startIdx ++ messages.drop (startIdx + removeCount), ⟨startIdx, removeCount⟩)

def trimMessagesByCharBudget (messages : List Message) (budget minMessagesAfterSystem : ℕ) :
    List Message × RemovedPrefix :=
  let minTotal := 1 + minMessagesAfterSystem
  if budget = 0 ∨ messages.length ≤ 1 then (messages, .empty)
  else if messages.length ≤ minTotal then (messages, .empty)
  else if estimateNonSystemChars messages ≤ budget then (messages, .empty)
  else if (conversationTurnGroups messages).isEmpty then
    trimUngroupedMessagesByCharBudget messages budget minTotal
  else trimCompleteTurnGroupsByCharBudget budget minTotal messages.length messages .empty

end Chars

section Removals

/-- The groups `gs` taken out one after the other, each the oldest at its time. -/
inductive Removes : List Message → List (List Message) → List Message → Prop where
  | none (messages : List Message) : Removes messages [] messages
  | more {messages head group rest output : List Message} {gs : List (List Message)}
      (oldest : OldestGroup messages head group rest) (later : Removes (head ++ rest) gs output) :
      Removes messages (group :: gs) output

/-- The number of rows before the first real user. -/
def leading (messages : List Message) : ℕ := (messages.takeWhile fun m => !realUser m).length

theorem leading_append {head rest : List Message} (hhead : ∀ m ∈ head, realUser m = false)
    (hrest : ∀ x ∈ rest.head?, realUser x = true) : leading (head ++ rest) = head.length := by
  have hall : ∀ m ∈ head, (!realUser m) = true := fun m hm => by simp [hhead m hm]
  rw [leading, takeWhile_append_of_pos hall]
  cases rest with
  | nil => simp
  | cons x rest => simp [hrest x rfl]

theorem OldestGroup.leading {messages head group rest : List Message}
    (h : OldestGroup messages head group rest) :
    leading messages = head.length ∧ leading (head ++ rest) = head.length := by
  obtain ⟨g, gs, rfl, hg, -⟩ := h.group
  refine ⟨?_, leading_append h.head h.rest⟩
  rw [h.split]
  exact leading_append h.head (by simp [hg])

theorem OldestGroup.group_pos {messages head group rest : List Message}
    (h : OldestGroup messages head group rest) : 0 < group.length := by
  obtain ⟨g, gs, rfl, -, -⟩ := h.group
  simp

variable {messages output : List Message} {gs : List (List Message)}

theorem Removes.split (h : Removes messages gs output) :
    ∃ rest, messages = messages.take (leading messages) ++ (gs.flatten ++ rest) ∧
      output = messages.take (leading messages) ++ rest := by
  induction h with
  | none messages =>
    exact ⟨messages.drop (leading messages), by simp, by simp⟩
  | @more messages head group rest output gs oldest later ih =>
    obtain ⟨rest', hsplit, hout⟩ := ih
    obtain ⟨hl, hl'⟩ := oldest.leading
    rw [hl', take_left] at hsplit hout
    have htake : messages.take head.length = head := by rw [oldest.split, take_left]
    refine ⟨rest', ?_, by rw [hl, htake, hout]⟩
    rw [hl, htake, flatten_cons, append_assoc, ← append_cancel_left hsplit]
    exact oldest.split

theorem Removes.length (h : Removes messages gs output) :
    messages.length = output.length + gs.flatten.length := by
  obtain ⟨rest, hm, hout⟩ := h.split
  have hlen := congrArg List.length hm
  rw [hout]
  simp only [length_append] at hlen ⊢
  omega

theorem Removes.countRealUsers (h : Removes messages gs output) :
    countRealUsers messages = countRealUsers output + gs.length := by
  induction h with
  | none messages => rfl
  | more oldest later ih =>
    rw [oldest.countRealUsers, length_cons]
    rw [oldest.countRealUsers_rest] at ih
    omega

theorem Removes.sizes_pos (h : Removes messages gs output) : ∀ g ∈ gs, 0 < g.length := by
  induction h with
  | none => simp
  | more oldest later ih => exact forall_mem_cons.mpr ⟨oldest.group_pos, ih⟩

theorem length_take_leading (messages : List Message) :
    (messages.take (leading messages)).length = leading messages := by
  rw [length_take, Nat.min_eq_left]
  exact (takeWhile_sublist _).length_le

/-- A range that starts behind the leading rows, is no longer than the removed rows and leaves as
many rows as the output has is as long as the removed rows. -/
theorem Removes.removed_eq_of_length (h : Removes messages gs output) {p : RemovedPrefix}
    (hstart : p.start = leading messages) (hle : p.removed ≤ gs.flatten.length)
    (hlen : (messages.take p.start ++ messages.drop p.stop).length = output.length) :
    p.removed = gs.flatten.length := by
  obtain ⟨rest, hm, hout⟩ := h.split
  have htotal := h.length
  have hm' := congrArg List.length hm
  rw [length_append, hstart, length_take_leading, length_drop, RemovedPrefix.stop,
    hstart] at hlen
  rw [length_append, length_append, length_take_leading] at hm'
  omega

theorem Removes.denotes_of_removed_eq (h : Removes messages gs output) {p : RemovedPrefix}
    (hstart : p.start = leading messages) (heq : p.removed = gs.flatten.length) :
    p.Denotes messages output := by
  obtain ⟨rest, hm, hout⟩ := h.split
  rw [RemovedPrefix.Denotes, RemovedPrefix.stop, hstart, heq, hout]
  congr 1
  have hdrop : (messages.take (leading messages) ++ gs.flatten ++ rest).drop
      (leading messages + gs.flatten.length) = rest :=
    drop_left' (by rw [length_append, length_take_leading])
  rwa [append_assoc, ← hm] at hdrop

/-- Groups taken out as long as `p` asks for it. -/
inductive Drains (p : List Message → Prop) :
    List Message → List (List Message) → List Message → Prop where
  | stop {messages : List Message} (h : ¬ p messages) : Drains p messages [] messages
  | more {messages head group rest output : List Message} {gs : List (List Message)}
      (h : p messages) (oldest : OldestGroup messages head group rest)
      (later : Drains p (head ++ rest) gs output) : Drains p messages (group :: gs) output

variable {p : List Message → Prop}

theorem Drains.removes (h : Drains p messages gs output) : Removes messages gs output := by
  induction h with
  | stop => exact .none _
  | more _ oldest _ ih => exact .more oldest ih

theorem Drains.stops (h : Drains p messages gs output) : ¬ p output := by
  induction h with
  | stop h => exact h
  | more _ _ _ ih => exact ih

theorem Removes.leading_eq (h : Removes messages gs output) : leading output = leading messages := by
  induction h with
  | none => rfl
  | more oldest later ih => rw [ih, oldest.leading.1, oldest.leading.2]

theorem Removes.trans (h : Removes messages gs output) {gs' : List (List Message)}
    {output' : List Message} (h' : Removes output gs' output') :
    Removes messages (gs ++ gs') output' := by
  induction h with
  | none => exact h'
  | more oldest later ih => exact .more oldest (ih h')

theorem Drains.append {q : List Message → Prop} (h : Drains p messages gs output)
    (hpq : ∀ ms, p ms → q ms) {gs' : List (List Message)} {output' : List Message}
    (h' : Drains q output gs' output') : Drains q messages (gs ++ gs') output' := by
  induction h with
  | stop => exact h'
  | more hp oldest later ih => exact .more (hpq _ hp) oldest (ih h')

theorem Drains.keeps (h : Drains p messages gs output) {k : ℕ}
    (hp : ∀ ms, p ms → k < CrabMate.countRealUsers ms) :
    min k (CrabMate.countRealUsers messages) ≤ CrabMate.countRealUsers output := by
  induction h with
  | stop => exact Nat.min_le_right _ _
  | more h oldest later ih =>
    have hlt := hp _ h
    have hcount := oldest.countRealUsers
    rw [oldest.countRealUsers_rest] at ih
    omega

/-- At most one group goes unless the list without its oldest group still asks for more. -/
theorem Drains.length_le_one_iff (h : Drains p messages gs output) (minGroupsToKeep : ℕ)
    (hp : ∀ ms, p ms → minGroupsToKeep < CrabMate.countRealUsers ms) :
    gs.length ≤ 1 ↔ ¬ (p messages ∧ p (removeOldestTurnGroup messages minGroupsToKeep).1) := by
  cases h with
  | stop h => simp [h]
  | more h oldest later =>
    rw [oldest.removeOldestTurnGroup (hp _ h)]
    cases later with
    | stop hstop => simp [hstop]
    | more hmore _ _ => simp [h, hmore]

end Removals

section Accumulation

/-- The range `union` makes of removals that all start at `start`. -/
def unioned (start : ℕ) (gs : List (List Message)) (p : RemovedPrefix) : RemovedPrefix :=
  gs.foldl (fun p g => p.union ⟨start, g.length⟩) p

/-- The range `record_local` makes of them. -/
def recorded (start : ℕ) (gs : List (List Message)) (p : RemovedPrefix) : RemovedPrefix :=
  gs.foldl (fun p g => p.recordLocal start g.length) p

variable {start size : ℕ} {gs : List (List Message)}

theorem empty_union (hsize : 0 < size) : RemovedPrefix.empty.union ⟨start, size⟩ = ⟨start, size⟩ := by
  simp [RemovedPrefix.union, RemovedPrefix.empty, hsize.ne']

theorem empty_recordLocal (hsize : 0 < size) :
    RemovedPrefix.empty.recordLocal start size = ⟨start, size⟩ := by
  simp [RemovedPrefix.recordLocal, RemovedPrefix.empty, hsize.ne']

theorem union_same_start {added : ℕ} (hsize : 0 < size) (hadded : 0 < added) :
    RemovedPrefix.union ⟨start, size⟩ ⟨start, added⟩ = ⟨start, max size added⟩ := by
  simp only [RemovedPrefix.union, RemovedPrefix.stop]
  rw [if_neg (by omega), if_neg (by omega), Nat.min_self, RemovedPrefix.mk.injEq]
  omega

theorem recordLocal_same_start {added : ℕ} (hsize : 0 < size) (hadded : 0 < added) :
    RemovedPrefix.recordLocal ⟨start, size⟩ start added = ⟨start, size + added⟩ := by
  simp only [RemovedPrefix.recordLocal, RemovedPrefix.stop]
  rw [if_neg (by omega), if_neg (by omega), if_pos (le_refl _), RemovedPrefix.mk.injEq]
  omega

/-- The union of removals in shifted coordinates is as long as the longest of them, too short as
soon as there are two. -/
theorem unioned_of_pos (start : ℕ) (hsize : 0 < size) (hgs : ∀ g ∈ gs, 0 < g.length) :
    (unioned start gs ⟨start, size⟩).start = start ∧
      0 < (unioned start gs ⟨start, size⟩).removed ∧
      (unioned start gs ⟨start, size⟩).removed ≤ size + gs.flatten.length ∧
      ((unioned start gs ⟨start, size⟩).removed = size + gs.flatten.length ↔ gs = []) := by
  induction gs generalizing size with
  | nil => simp [unioned, hsize]
  | cons g gs ih =>
    have hg : 0 < g.length := hgs g mem_cons_self
    have hstep : unioned start (g :: gs) ⟨start, size⟩ =
        unioned start gs ⟨start, max size g.length⟩ := by
      rw [unioned, foldl_cons, union_same_start hsize hg, unioned]
    obtain ⟨hs, hpos, hle, -⟩ := ih (hsize.trans_le (Nat.le_max_left size g.length))
      fun x hx => hgs x (mem_cons_of_mem _ hx)
    rw [hstep, flatten_cons, length_append]
    refine ⟨hs, hpos, by omega, ?_⟩
    simp only [reduceCtorEq, iff_false]
    omega

theorem recorded_of_pos (hsize : 0 < size) (hgs : ∀ g ∈ gs, 0 < g.length) :
    recorded start gs ⟨start, size⟩ = ⟨start, size + gs.flatten.length⟩ := by
  induction gs generalizing size with
  | nil => simp [recorded]
  | cons g gs ih =>
    have hg : 0 < g.length := hgs g mem_cons_self
    rw [recorded, foldl_cons, recordLocal_same_start hsize hg]
    have hrest := ih (Nat.add_pos_left hsize g.length) fun x hx => hgs x (mem_cons_of_mem _ hx)
    rw [recorded] at hrest
    rw [hrest, flatten_cons, length_append, Nat.add_assoc]

variable {messages output : List Message}

theorem denotes_empty (messages : List Message) :
    RemovedPrefix.empty.Denotes messages messages := by
  simp [RemovedPrefix.Denotes, RemovedPrefix.empty, RemovedPrefix.stop]

/-- The united range has the length of the removed rows when no more than one group went. -/
theorem Removes.unioned_cons {g : List Message} (h : Removes messages (g :: gs) output) :
    (unioned (leading messages) (g :: gs) .empty).start = leading messages ∧
      (unioned (leading messages) (g :: gs) .empty).removed ≤ (g :: gs).flatten.length ∧
      ((unioned (leading messages) (g :: gs) .empty).removed = (g :: gs).flatten.length ↔
        gs = []) := by
  have hpos := h.sizes_pos
  have hg : 0 < g.length := hpos g mem_cons_self
  have hfirst : unioned (leading messages) (g :: gs) .empty =
      unioned (leading messages) gs ⟨leading messages, g.length⟩ := by
    rw [unioned, foldl_cons, empty_union hg, unioned]
  obtain ⟨hs, -, hle, hiff⟩ := unioned_of_pos (leading messages) hg
    fun x hx => hpos x (mem_cons_of_mem _ hx)
  rw [hfirst, flatten_cons, length_append]
  exact ⟨hs, hle, hiff⟩

theorem Removes.length_le_one_of_unioned (h : Removes messages gs output)
    (hlen : (messages.take (unioned (leading messages) gs .empty).start ++
      messages.drop (unioned (leading messages) gs .empty).stop).length = output.length) :
    gs.length ≤ 1 := by
  cases gs with
  | nil => exact Nat.zero_le 1
  | cons g gs =>
    obtain ⟨hs, hle, hiff⟩ := h.unioned_cons
    simp [hiff.mp (h.removed_eq_of_length hs hle hlen)]

theorem Removes.denotes_unioned_iff (h : Removes messages gs output) :
    (unioned (leading messages) gs .empty).Denotes messages output ↔ gs.length ≤ 1 := by
  constructor
  · intro hd
    exact h.length_le_one_of_unioned (congrArg List.length hd)
  · intro hone
    cases gs with
    | nil =>
      cases h
      exact denotes_empty messages
    | cons g gs =>
      obtain ⟨hs, -, hiff⟩ := h.unioned_cons
      exact h.denotes_of_removed_eq hs (hiff.mpr (by simpa using hone))

theorem Removes.denotes_recorded (h : Removes messages gs output) :
    (recorded (leading messages) gs .empty).Denotes messages output := by
  cases gs with
  | nil =>
    cases h
    exact denotes_empty messages
  | cons g gs =>
    have hpos := h.sizes_pos
    have hg : 0 < g.length := hpos g mem_cons_self
    have hfirst : recorded (leading messages) (g :: gs) .empty =
        ⟨leading messages, g.length + gs.flatten.length⟩ := by
      rw [recorded, foldl_cons, empty_recordLocal hg]
      exact recorded_of_pos hg fun x hx => hpos x (mem_cons_of_mem _ hx)
    rw [hfirst]
    exact h.denotes_of_removed_eq rfl (by simp)

end Accumulation

section Loops

/-- The count loop drains while there are too many rows and another group to keep. -/
theorem trimByCountLoop_drains (maxTotal : ℕ) {fuel : ℕ} {messages : List Message}
    (hfuel : countRealUsers messages ≤ fuel) (removed : RemovedPrefix) :
    ∃ gs, Drains (fun ms => maxTotal < ms.length ∧ 1 < countRealUsers ms) messages gs
        (trimByCountLoop maxTotal fuel messages removed).1 ∧
      (trimByCountLoop maxTotal fuel messages removed).2 =
        unioned (leading messages) gs removed := by
  induction fuel generalizing messages removed with
  | zero =>
    exact ⟨[], .stop (by omega), rfl⟩
  | succ fuel ih =>
    rw [trimByCountLoop]
    split
    · next hlong =>
      rcases removeOldestTurnGroup_cases messages 1 with ⟨hfew, heq⟩ |
        ⟨hmany, head, group, rest, hold, heq⟩
      · rw [heq]
        exact ⟨[], .stop (by omega), rfl⟩
      · have hpos := hold.group_pos
        have hcount := hold.countRealUsers
        have hrest := hold.countRealUsers_rest
        have hfuel' : countRealUsers (head ++ rest) ≤ fuel := by omega
        obtain ⟨gs, hdrains, hp⟩ := ih hfuel' (removed.union ⟨head.length, group.length⟩)
        have hnot : RemovedPrefix.isEmpty ⟨head.length, group.length⟩ = false := by
          simpa [RemovedPrefix.isEmpty] using hpos.ne'
        simp only [heq, hnot, Bool.false_eq_true, ↓reduceIte]
        refine ⟨group :: gs, .more ⟨hlong, hmany⟩ hold hdrains, ?_⟩
        rw [hp, hold.leading.2, ← hold.leading.1, unioned, unioned, foldl_cons]
    · next hshort => exact ⟨[], .stop (by omega), rfl⟩

theorem trimMessagesByCount_eq {messages : List Message} {maxAfterSystem : ℕ}
    (hgroups : 0 < countRealUsers messages) (hmax : maxAfterSystem ≠ 0) :
    trimMessagesByCount messages maxAfterSystem =
      trimByCountLoop (maxTotalRows messages maxAfterSystem) messages.length messages .empty := by
  have hne : ¬ (messages.isEmpty ∨ maxAfterSystem = 0) := by
    rintro (hempty | hzero)
    · rw [List.isEmpty_iff.mp hempty] at hgroups
      cases hgroups
    · exact hmax hzero
  have hfuel : countRealUsers messages ≤ messages.length := countP_le_length
  obtain ⟨gs, hdrains, -⟩ :=
    trimByCountLoop_drains (maxTotalRows messages maxAfterSystem) hfuel .empty
  set out := trimByCountLoop (maxTotalRows messages maxAfterSystem) messages.length messages .empty
  -- one group at least is left
  have hleft : 0 < countRealUsers out.1 := by
    have hkeeps := hdrains.keeps (k := 1) fun ms h => h.2
    omega
  have hsome : (conversationTurnGroups out.1).isEmpty = false := by
    rw [isEmpty_eq_false_iff, ← length_pos_iff, length_conversationTurnGroups]
    exact hleft
  simp only [trimMessagesByCount, if_neg hne]
  change (if out.1.length ≤ _ then (out.1, out.2)
    else if (conversationTurnGroups out.1).isEmpty = false then (out.1, out.2) else _) = out
  rw [if_pos hsome]
  split <;> rfl

/-- The range of a count trim is exact unless two groups or more go. -/
theorem trimMessagesByCount_denotes_iff {messages : List Message}
    (hgroups : 0 < countRealUsers messages) (maxAfterSystem : ℕ) :
    (trimMessagesByCount messages maxAfterSystem).2.Denotes messages
        (trimMessagesByCount messages maxAfterSystem).1 ↔
      maxAfterSystem = 0 ∨ countRealUsers messages ≤ 2 ∨
        (removeOldestTurnGroup messages 1).1.length ≤ maxTotalRows messages maxAfterSystem := by
  rcases Nat.eq_zero_or_pos maxAfterSystem with rfl | hmax
  · simpa [trimMessagesByCount] using denotes_empty messages
  · have hfuel : countRealUsers messages ≤ messages.length := countP_le_length
    obtain ⟨gs, hdrains, hp⟩ :=
      trimByCountLoop_drains (maxTotalRows messages maxAfterSystem) hfuel .empty
    rw [trimMessagesByCount_eq hgroups hmax.ne', hp, hdrains.removes.denotes_unioned_iff,
      hdrains.length_le_one_iff 1 fun ms h => h.2]
    rcases removeOldestTurnGroup_cases messages 1 with ⟨hfew, heq⟩ |
      ⟨hmany, head, group, rest, hold, heq⟩
    · exact iff_of_true (by omega) (by omega)
    · have hlen : messages.length = (head ++ rest).length + group.length := by
        rw [hold.split]
        simp only [length_append]
        omega
      have hcount := hold.countRealUsers
      have hrest := hold.countRealUsers_rest
      have hpos := hold.group_pos
      simp only [heq]
      omega

/-- The rows of the oldest group. -/
def oldestGroupSize (messages : List Message) : ℕ :=
  ((conversationTurnGroups messages).head?.map fun g => g.stop - g.start).getD 0

theorem trimCompleteTurnGroupsByCharBudget_drains (budget minTotal : ℕ) {fuel : ℕ}
    {messages : List Message} (hfuel : countRealUsers messages ≤ fuel) (removed : RemovedPrefix) :
    ∃ gs, Drains (fun ms => budget < estimateNonSystemChars ms ∧ 1 < countRealUsers ms ∧
        minTotal ≤ ms.length - oldestGroupSize ms) messages gs
        (trimCompleteTurnGroupsByCharBudget budget minTotal fuel messages removed).1 ∧
      (trimCompleteTurnGroupsByCharBudget budget minTotal fuel messages removed).2 =
        recorded (leading messages) gs removed := by
  induction fuel generalizing messages removed with
  | zero => exact ⟨[], .stop (by omega), rfl⟩
  | succ fuel ih =>
    rw [trimCompleteTurnGroupsByCharBudget]
    split
    · next hlong =>
      rcases Nat.eq_zero_or_pos (countRealUsers messages) with hzero | hpos
      · have hnil : conversationTurnGroups messages = [] := by
          rw [← length_eq_zero_iff, length_conversationTurnGroups, hzero]
        rw [hnil]
        exact ⟨[], .stop (by omega), rfl⟩
      · obtain ⟨head, group, rest, hold⟩ := exists_oldestGroup hpos
        have hfirst := hold.head?_conversationTurnGroups
        have hlength := length_conversationTurnGroups messages
        cases hgroups : conversationTurnGroups messages with
        | nil => simp [hgroups] at hfirst
        | cons oldest others =>
          rw [hgroups, head?_cons, Option.some.injEq] at hfirst
          rw [hgroups, length_cons] at hlength
          have hsize : oldestGroupSize messages = oldest.stop - oldest.start := by
            simp [oldestGroupSize, hgroups]
          have hothers : others = [] ↔ others.length = 0 := length_eq_zero_iff.symm
          simp only [hothers]
          split
          · next hstop => exact ⟨[], .stop (by omega), rfl⟩
          · next hgo =>
            subst hfirst
            have hcount := hold.countRealUsers
            have hrest := hold.countRealUsers_rest
            have hfuel' : countRealUsers (head ++ rest) ≤ fuel := by omega
            obtain ⟨gs, hdrains, hp⟩ := ih hfuel' (removed.recordLocal head.length group.length)
            have hmore : budget < estimateNonSystemChars messages ∧ 1 < countRealUsers messages ∧
                minTotal ≤ messages.length - oldestGroupSize messages := by omega
            rw [hold.take_drop, Nat.add_sub_cancel_left]
            refine ⟨group :: gs, .more hmore hold hdrains, ?_⟩
            rw [hp, hold.leading.2, ← hold.leading.1, recorded, recorded, foldl_cons]
    · next hshort => exact ⟨[], .stop (by omega), rfl⟩

theorem trimMessagesByCharBudget_denotes {messages : List Message}
    (hgroups : 0 < countRealUsers messages) (budget minMessagesAfterSystem : ℕ) :
    (trimMessagesByCharBudget messages budget minMessagesAfterSystem).2.Denotes messages
      (trimMessagesByCharBudget messages budget minMessagesAfterSystem).1 := by
  have hsome : ¬ (conversationTurnGroups messages).isEmpty = true := by
    rw [Bool.not_eq_true, isEmpty_eq_false_iff, ← length_pos_iff,
      length_conversationTurnGroups]
    exact hgroups
  simp only [trimMessagesByCharBudget, if_neg hsome]
  split
  · exact denotes_empty messages
  · split
    · exact denotes_empty messages
    · split
      · exact denotes_empty messages
      · have hfuel : countRealUsers messages ≤ messages.length := countP_le_length
        obtain ⟨gs, hdrains, hp⟩ := trimCompleteTurnGroupsByCharBudget_drains budget
          (1 + minMessagesAfterSystem) hfuel .empty
        rw [hp]
        exact hdrains.removes.denotes_recorded

end Loops
end CrabMate
