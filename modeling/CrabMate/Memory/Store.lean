import CrabMate.Lib.Run
import CrabMate.Lib.TopK
import Mathlib.Data.List.DropRight
import Mathlib.Algebra.Order.Ring.Int

/-! The table of the long-term memory: insertions, and the eviction of all but the newest rows of
a scope. Recency is judged by a clock with a resolution of one second. -/
namespace CrabMate.Memory
open List

structure MemoryRow where
  id : ℕ
  chunkText : String
  sourceRole : String
  createdAtUnix : ℤ
  expiresAtUnix : Option ℤ
  tagsJson : String
  embedding : Option (List UInt8)
  deriving DecidableEq

/-- A row of the table, with the columns that no query returns. -/
structure StoredRow extends MemoryRow where
  scopeId : String
  sourceKind : String
  deriving DecidableEq

/-- `rows` in the order of their insertion; `seq` is the largest id that was ever given. -/
structure Store where
  rows : List StoredRow
  seq : ℕ
  deriving DecidableEq

def i64Max : ℕ := 2 ^ 63 - 1

/-- `expires_at_unix IS NOT NULL AND expires_at_unix <= now`. -/
def StoredRow.expired (r : StoredRow) (now : ℤ) : Bool :=
  match r.expiresAtUnix with
  | none => false
  | some t => t ≤ now

/-- `expires_at_unix IS NULL OR expires_at_unix > now`. -/
def StoredRow.unexpired (r : StoredRow) (now : ℤ) : Bool :=
  match r.expiresAtUnix with
  | none => true
  | some t => now < t

namespace Store

def empty : Store := ⟨[], 0⟩

def deleteExpiredForScope (s : Store) (scopeId : String) (now : ℤ) : Store :=
  { s with rows := s.rows.filter fun r => !(r.scopeId == scopeId && r.expired now) }

/-- `INSERT`; once the largest id is given, SQLite refuses. -/
def insertRow (s : Store) (row : ℕ → StoredRow) : Option ℕ × Store :=
  if s.seq = i64Max then (none, s)
  else (some (s.seq + 1), ⟨s.rows ++ [row (s.seq + 1)], s.seq + 1⟩)

def insertChunk (s : Store) (now : ℤ) (scopeId chunkText sourceRole : String)
    (expiresAtUnix : Option ℤ) (embedding : Option (List UInt8)) : Option ℕ × Store :=
  (s.deleteExpiredForScope scopeId now).insertRow fun id =>
    { id, scopeId, chunkText, sourceRole, createdAtUnix := now, expiresAtUnix,
      tagsJson := "[]", sourceKind := "auto", embedding }

def insertExplicitChunk (s : Store) (now : ℤ) (scopeId chunkText sourceRole tagsJson : String)
    (expiresAtUnix : Option ℤ) (embedding : Option (List UInt8)) : Option ℕ × Store :=
  (s.deleteExpiredForScope scopeId now).insertRow fun id =>
    { id, scopeId, chunkText, sourceRole, createdAtUnix := now, expiresAtUnix,
      tagsJson, sourceKind := "explicit", embedding }

/-- The rows the subquery of an eviction reads. -/
def unexpiredOf (s : Store) (scopeId : String) (now : ℤ) : List StoredRow :=
  s.rows.filter fun r => r.scopeId == scopeId && r.unexpired now

/-- `i64::try_from(keep).unwrap_or(i64::MAX)`. -/
def limitOf (keep : ℕ) : ℕ := if keep ≤ i64Max then keep else i64Max

/-- What `ORDER BY created_at_unix DESC LIMIT keep` may answer: SQLite leaves the order of rows
of one second open. -/
def MayAnswer (s : Store) (scopeId : String) (now : ℤ) (keep : ℕ) (answer : List StoredRow) :
    Prop :=
  TopK.Best (fun r : StoredRow => r.createdAtUnix) (limitOf keep) (s.unexpiredOf scopeId now) answer

/-- The eviction, for an answer to its subquery. -/
def deleteOldestBeyond (s : Store) (scopeId : String) (answer : List StoredRow) : Store :=
  { s with rows := s.rows.filter fun r =>
      !(r.scopeId == scopeId && !(answer.map fun a => a.id).contains r.id) }

end Store

/-! Runs. -/

inductive Op where
  | insertChunk (now : ℤ) (scopeId chunkText sourceRole : String) (expiresAtUnix : Option ℤ)
      (embedding : Option (List UInt8))
  | insertExplicitChunk (now : ℤ) (scopeId chunkText sourceRole tagsJson : String)
      (expiresAtUnix : Option ℤ) (embedding : Option (List UInt8))
  | deleteOldestBeyond (now : ℤ) (scopeId : String) (keep : ℕ) (answer : List StoredRow)
  deriving DecidableEq

def Op.now : Op → ℤ
  | .insertChunk now .. | .insertExplicitChunk now .. | .deleteOldestBeyond now .. => now

/-- The table and the last reading of the clock. -/
structure Timed where
  store : Store
  clock : ℤ
  deriving DecidableEq

def Op.apply (s : Store) : Op → Store
  | .insertChunk now scopeId text role expires embedding =>
    (s.insertChunk now scopeId text role expires embedding).2
  | .insertExplicitChunk now scopeId text role tags expires embedding =>
    (s.insertExplicitChunk now scopeId text role tags expires embedding).2
  | .deleteOldestBeyond _ scopeId _ answer => s.deleteOldestBeyond scopeId answer

def step (s : Timed) (op : Op) : Timed := ⟨op.apply s.store, op.now⟩

/-- The clock does not go back, and SQLite gives an answer that it may give. -/
def Permits (s : Timed) (op : Op) : Prop :=
  s.clock ≤ op.now ∧ match op with
  | .deleteOldestBeyond now scopeId keep answer => s.store.MayAnswer scopeId now keep answer
  | _ => True

/-- What every run of the table keeps: ids and creation times ascend. -/
structure Good (s : Timed) : Prop where
  ids : s.store.rows.Pairwise fun a b => a.id < b.id
  given : ∀ r ∈ s.store.rows, 1 ≤ r.id ∧ r.id ≤ s.store.seq
  seq : s.store.seq ≤ i64Max
  created : s.store.rows.Pairwise fun a b => a.createdAtUnix ≤ b.createdAtUnix
  past : ∀ r ∈ s.store.rows, r.createdAtUnix ≤ s.clock

theorem Good.empty (clock : ℤ) : Good ⟨.empty, clock⟩ where
  ids := List.Pairwise.nil
  given := fun _ h => absurd h not_mem_nil
  seq := Nat.zero_le _
  created := List.Pairwise.nil
  past := fun _ h => absurd h not_mem_nil

section Steps

variable {s : Timed} {now : ℤ}

theorem Good.later (h : Good s) (hnow : s.clock ≤ now) : Good ⟨s.store, now⟩ :=
  ⟨h.ids, h.given, h.seq, h.created, fun r hr => (h.past r hr).trans hnow⟩

theorem Good.filter (h : Good s) (p : StoredRow → Bool) :
    Good ⟨{ s.store with rows := s.store.rows.filter p }, s.clock⟩ where
  ids := h.ids.filter p
  given := fun r hr => h.given r (mem_of_mem_filter hr)
  seq := h.seq
  created := h.created.filter p
  past := fun r hr => h.past r (mem_of_mem_filter hr)

theorem Good.insertRow (h : Good s) {row : ℕ → StoredRow} (hid : ∀ id, (row id).id = id)
    (hcreated : ∀ id, (row id).createdAtUnix = s.clock) :
    Good ⟨(s.store.insertRow row).2, s.clock⟩ := by
  unfold Store.insertRow
  split
  · exact h
  · next hseq =>
    have hmem : ∀ r ∈ s.store.rows ++ [row (s.store.seq + 1)],
        r ∈ s.store.rows ∨ r = row (s.store.seq + 1) := fun r hr => by simpa using hr
    constructor
    · refine pairwise_append.mpr ⟨h.ids, pairwise_singleton _ _, fun a ha b hb => ?_⟩
      rw [mem_singleton.mp hb, hid]
      exact Nat.lt_succ_of_le (h.given a ha).2
    · intro r hr
      rcases hmem r hr with hr | rfl
      · exact ⟨(h.given r hr).1, (h.given r hr).2.trans (Nat.le_succ _)⟩
      · rw [hid]
        exact ⟨Nat.succ_pos _, le_refl _⟩
    · have := h.seq
      show s.store.seq + 1 ≤ i64Max
      omega
    · refine pairwise_append.mpr
        ⟨h.created, pairwise_singleton _ _, fun a ha b hb => ?_⟩
      rw [mem_singleton.mp hb, hcreated]
      exact h.past a ha
    · intro r hr
      rcases hmem r hr with hr | rfl
      · exact h.past r hr
      · exact (hcreated _).le

theorem good_step {op : Op} (h : Good s) (hp : Permits s op) : Good (step s op) := by
  have hnow : Good ⟨s.store, op.now⟩ := h.later hp.1
  cases op with
  | insertChunk now scopeId text role expires embedding =>
    exact (hnow.filter _).insertRow (fun _ => rfl) fun _ => rfl
  | insertExplicitChunk now scopeId text role tags expires embedding =>
    exact (hnow.filter _).insertRow (fun _ => rfl) fun _ => rfl
  | deleteOldestBeyond now scopeId keep answer => exact hnow.filter _

theorem good_run {ops : List Op} {clock : ℤ}
    (h : Run.AllOk step Permits ⟨.empty, clock⟩ ops) : Good (Run.run step ⟨.empty, clock⟩ ops) :=
  Run.invariant (fun _ _ => good_step) (Good.empty clock) h

end Steps

section Eviction

variable {s : Timed} {scopeId : String} {now : ℤ} {keep : ℕ} {answer : List StoredRow}

/-- What an eviction is for: of the unexpired rows of the scope the last `keep` that were inserted
stay, one that was just inserted among them, and the other scopes are left alone. -/
structure KeepsNewest (before after : Store) (scopeId : String) (now : ℤ) (keep : ℕ) : Prop where
  kept : (after.rows.filter fun r => r.scopeId == scopeId) =
    (before.unexpiredOf scopeId now).rtake keep
  last : 1 ≤ keep → ∀ r, before.rows.getLast? = some r → r.scopeId = scopeId →
    r.unexpired now = true → r ∈ after.rows
  others : (after.rows.filter fun r => r.scopeId != scopeId) =
    before.rows.filter fun r => r.scopeId != scopeId

/-- No row that is to stay was inserted in the same second as one that is to go. -/
def NoTieAtCut (s : Store) (scopeId : String) (now : ℤ) (keep : ℕ) : Prop :=
  ∀ a ∈ (s.unexpiredOf scopeId now).rdrop keep, ∀ b ∈ (s.unexpiredOf scopeId now).rtake keep,
    a.createdAtUnix ≠ b.createdAtUnix

instance : Decidable (NoTieAtCut s.store scopeId now keep) := by
  unfold NoTieAtCut
  infer_instance

theorem Good.id_inj (h : Good s) {a b : StoredRow} (ha : a ∈ s.store.rows)
    (hb : b ∈ s.store.rows) (hid : a.id = b.id) : a = b := by
  have hnodup : (s.store.rows.map fun r => r.id).Nodup :=
    pairwise_map.mpr (h.ids.imp Nat.ne_of_lt)
  exact inj_on_of_nodup_map hnodup ha hb hid

theorem Good.length_le (h : Good s) : s.store.rows.length ≤ i64Max := by
  have hnodup : (s.store.rows.map fun r => r.id).Nodup :=
    pairwise_map.mpr (h.ids.imp Nat.ne_of_lt)
  have hsub : (s.store.rows.map fun r => r.id) ⊆ List.range' 1 s.store.seq := by
    intro id hid
    obtain ⟨r, hr, rfl⟩ := mem_map.mp hid
    rw [mem_range'_1]
    have := h.given r hr
    omega
  have hle := (subperm_of_subset hnodup hsub).length_le
  rw [List.length_map, length_range'] at hle
  exact hle.trans h.seq

theorem rdrop_append_rtake (l : List StoredRow) (n : ℕ) : l.rdrop n ++ l.rtake n = l :=
  take_append_drop _ l

theorem Good.length_rtake (h : Good s) :
    ((s.store.unexpiredOf scopeId now).rtake keep).length =
      min (Store.limitOf keep) (s.store.unexpiredOf scopeId now).length := by
  have hle : (s.store.unexpiredOf scopeId now).length ≤ i64Max :=
    (length_filter_le _ _).trans h.length_le
  rw [List.rtake, length_drop, Store.limitOf]
  split <;> omega

/-- What an eviction leaves of its scope are the rows of the answer. -/
theorem Good.rows_deleteOldestBeyond (h : Good s)
    (hanswer : ∀ r ∈ answer, r ∈ s.store.unexpiredOf scopeId now) :
    ((s.store.deleteOldestBeyond scopeId answer).rows.filter fun r => r.scopeId == scopeId) =
      (s.store.unexpiredOf scopeId now).filter fun r => r ∈ answer := by
  rw [Store.deleteOldestBeyond, filter_filter, Store.unexpiredOf, filter_filter]
  refine filter_congr fun r hr => ?_
  rw [Bool.eq_iff_iff]
  simp only [Bool.and_eq_true, beq_iff_eq, Bool.not_eq_true', Bool.and_eq_false_imp,
    Bool.not_eq_false', contains_iff_mem, decide_eq_true_eq]
  constructor
  · rintro ⟨hscope, hin⟩
    obtain ⟨a, ha, hid⟩ := mem_map.mp (hin hscope)
    have harows := hanswer a ha
    obtain rfl : a = r := h.id_inj (mem_of_mem_filter harows) hr hid
    have hlive := (Bool.and_eq_true _ _).mp (mem_filter.mp harows).2
    exact ⟨ha, hscope, hlive.2⟩
  · rintro ⟨ha, hscope, -⟩
    exact ⟨hscope, fun _ => mem_map_of_mem ha⟩

theorem others_deleteOldestBeyond (store : Store) :
    ((store.deleteOldestBeyond scopeId answer).rows.filter fun r => r.scopeId != scopeId) =
      store.rows.filter fun r => r.scopeId != scopeId := by
  rw [Store.deleteOldestBeyond, filter_filter]
  refine filter_congr fun r _ => ?_
  cases hscope : r.scopeId == scopeId <;> simp [bne, hscope]

theorem Good.nodup_unexpiredOf (h : Good s) :
    ((s.store.unexpiredOf scopeId now).rdrop keep ++
      (s.store.unexpiredOf scopeId now).rtake keep).Nodup := by
  rw [rdrop_append_rtake]
  exact (h.ids.imp fun hlt heq => absurd (congrArg (fun r => r.id) heq) (Nat.ne_of_lt hlt)).filter _

/-- A row in front of the cut was not inserted later than one behind it. -/
theorem Good.created_le (h : Good s) :
    ∀ a ∈ (s.store.unexpiredOf scopeId now).rdrop keep,
      ∀ b ∈ (s.store.unexpiredOf scopeId now).rtake keep, a.createdAtUnix ≤ b.createdAtUnix := by
  have hasc := h.created.filter fun r => r.scopeId == scopeId && r.unexpired now
  rw [← rdrop_append_rtake (List.filter _ _) keep] at hasc
  exact (pairwise_append.mp hasc).2.2

theorem Good.filter_rtake (h : Good s) (hperm : answer.Perm
    ((s.store.unexpiredOf scopeId now).rtake keep)) :
    ((s.store.unexpiredOf scopeId now).filter fun r => r ∈ answer) =
      (s.store.unexpiredOf scopeId now).rtake keep := by
  have hnodup : ((s.store.unexpiredOf scopeId now).rdrop keep ++
      (s.store.unexpiredOf scopeId now).rtake keep).Nodup := h.nodup_unexpiredOf
  calc ((s.store.unexpiredOf scopeId now).filter fun r => r ∈ answer)
      = ((s.store.unexpiredOf scopeId now).rdrop keep ++
          (s.store.unexpiredOf scopeId now).rtake keep).filter fun r => r ∈ answer := by
        rw [rdrop_append_rtake]
    _ = [] ++ (s.store.unexpiredOf scopeId now).rtake keep := by
        rw [filter_append]
        congr 1
        · refine filter_eq_nil_iff.mpr fun r hr hin => ?_
          exact (nodup_append.mp hnodup).2.2 r hr r (hperm.mem_iff.mp (of_decide_eq_true hin)) rfl
        · exact filter_eq_self.mpr fun r hr => decide_eq_true (hperm.mem_iff.mpr hr)
    _ = _ := nil_append _

theorem last_mem {r : StoredRow} (hkeep : 1 ≤ keep)
    (hlast : s.store.rows.getLast? = some r) (hscope : r.scopeId = scopeId)
    (hlive : r.unexpired now = true) : r ∈ (s.store.unexpiredOf scopeId now).rtake keep := by
  obtain ⟨rows, hrows⟩ := getLast?_eq_some_iff.mp hlast
  have hend : s.store.unexpiredOf scopeId now =
      (rows.filter fun r => r.scopeId == scopeId && r.unexpired now) ++ [r] := by
    rw [Store.unexpiredOf, hrows, filter_append]
    simp [hscope, hlive]
  rw [hend, List.rtake, length_append, length_singleton, drop_append_of_le_length
    (by omega)]
  exact mem_append_right _ mem_cons_self

/-- An eviction keeps the newest rows, whatever SQLite answers, exactly if there is no tie at the
cut. -/
theorem Good.keepsNewest_iff (h : Good s) :
    (∀ answer, s.store.MayAnswer scopeId now keep answer →
      KeepsNewest s.store (s.store.deleteOldestBeyond scopeId answer) scopeId now keep) ↔
      NoTieAtCut s.store scopeId now keep := by
  have hsplit := rdrop_append_rtake (s.store.unexpiredOf scopeId now) keep
  have hlength : ((s.store.unexpiredOf scopeId now).rtake keep).length =
      min (Store.limitOf keep) ((s.store.unexpiredOf scopeId now).rdrop keep ++
        (s.store.unexpiredOf scopeId now).rtake keep).length := by
    rw [hsplit]
    exact h.length_rtake
  have hnodup : ((s.store.unexpiredOf scopeId now).rdrop keep ++
      (s.store.unexpiredOf scopeId now).rtake keep).Nodup := h.nodup_unexpiredOf
  constructor
  · intro hall a ha b hb htie
    obtain ⟨answer, hbest, hmem⟩ := TopK.exists_best_of_tie hlength h.created_le ha hb htie
    rw [hsplit] at hbest
    have hkept := (hall answer hbest).kept
    rw [h.rows_deleteOldestBeyond fun r hr => hbest.mem hr] at hkept
    have hin : a ∈ (s.store.unexpiredOf scopeId now).rtake keep := by
      rw [← hkept, mem_filter]
      exact ⟨mem_of_mem_take ha, decide_eq_true hmem⟩
    exact (nodup_append.mp hnodup).2.2 a ha a hin rfl
  · intro hno answer hbest
    have hlt : ∀ a ∈ (s.store.unexpiredOf scopeId now).rdrop keep,
        ∀ b ∈ (s.store.unexpiredOf scopeId now).rtake keep, a.createdAtUnix < b.createdAtUnix :=
      fun a ha b hb => lt_of_le_of_ne (h.created_le a ha b hb) (hno a ha b hb)
    have hbest' : TopK.Best (fun r : StoredRow => r.createdAtUnix) (Store.limitOf keep)
        ((s.store.unexpiredOf scopeId now).rdrop keep ++
          (s.store.unexpiredOf scopeId now).rtake keep) answer := by
      rw [hsplit]
      exact hbest
    have hperm := hbest'.perm_new hlength hnodup hlt
    have hkept := (h.rows_deleteOldestBeyond fun r hr => hbest.mem hr).trans
      (h.filter_rtake hperm)
    refine ⟨hkept, fun hkeep r hlast hscope hlive => ?_, others_deleteOldestBeyond _⟩
    have hin := last_mem hkeep hlast hscope hlive
    rw [← hkept] at hin
    exact mem_of_mem_filter hin

end Eviction

/-- After every run of the table, whatever SQLite answered before: the next eviction of a scope
keeps its newest rows in every order of the tied ones exactly if no tie lies at the cut. -/
theorem eviction_keeps_newest_iff {ops : List Op} {clock : ℤ}
    (hrun : Run.AllOk step Permits ⟨.empty, clock⟩ ops) (scopeId : String) (now : ℤ)
    (keep : ℕ) :
    (∀ answer, (Run.run step ⟨.empty, clock⟩ ops).store.MayAnswer scopeId now keep answer →
      KeepsNewest (Run.run step ⟨.empty, clock⟩ ops).store
        ((Run.run step ⟨.empty, clock⟩ ops).store.deleteOldestBeyond scopeId answer)
        scopeId now keep) ↔
      NoTieAtCut (Run.run step ⟨.empty, clock⟩ ops).store scopeId now keep :=
  (good_run hrun).keepsNewest_iff

/-- A turn of three seconds, one chunk stored in each. -/
def threeSeconds : List Op :=
  [.insertChunk 10 "s" "question" "user" none none,
    .insertChunk 11 "s" "answer" "assistant" none none,
    .insertExplicitChunk 12 "s" "lesson" "explicit" "[]" none none]

theorem eviction_keeps_newest_threeSeconds :
    NoTieAtCut (Run.run step ⟨.empty, 10⟩ threeSeconds).store "s" 12 2 ∧
      ∀ answer, (Run.run step ⟨.empty, 10⟩ threeSeconds).store.MayAnswer "s" 12 2 answer →
        KeepsNewest (Run.run step ⟨.empty, 10⟩ threeSeconds).store
          ((Run.run step ⟨.empty, 10⟩ threeSeconds).store.deleteOldestBeyond "s" answer) "s" 12 2 := by
  have hno : NoTieAtCut (Run.run step ⟨.empty, 10⟩ threeSeconds).store "s" 12 2 := by decide
  have hrun : Run.AllOk step Permits ⟨.empty, 10⟩ threeSeconds :=
    ⟨⟨by decide, trivial⟩, ⟨by decide, trivial⟩, ⟨by decide, trivial⟩, trivial⟩
  exact ⟨hno, (eviction_keeps_newest_iff hrun "s" 12 2).mpr hno⟩

/-- The same two chunks stored within one second. -/
def oneSecond : List Op :=
  [.insertChunk 10 "s" "question" "user" none none,
    .insertChunk 10 "s" "answer" "assistant" none none]

/-- SQLite may keep the older chunk and delete the one that was just stored. -/
theorem eviction_deletes_just_stored :
    ¬ ∀ (ops : List Op) (clock : ℤ), Run.AllOk step Permits ⟨.empty, clock⟩ ops →
      ∀ (scopeId : String) (now : ℤ), (Run.run step ⟨.empty, clock⟩ ops).clock ≤ now →
      ∀ (keep : ℕ) (answer : List StoredRow),
        (Run.run step ⟨.empty, clock⟩ ops).store.MayAnswer scopeId now keep answer →
        KeepsNewest (Run.run step ⟨.empty, clock⟩ ops).store
          ((Run.run step ⟨.empty, clock⟩ ops).store.deleteOldestBeyond scopeId answer)
          scopeId now keep := by
  intro h
  let question : StoredRow := ⟨⟨1, "question", "user", 10, none, "[]", none⟩, "s", "auto"⟩
  let reply : StoredRow := ⟨⟨2, "answer", "assistant", 10, none, "[]", none⟩, "s", "auto"⟩
  have hanswer : (Run.run step ⟨.empty, 10⟩ oneSecond).store.MayAnswer "s" 10 1 [question] := by
    exact ⟨⟨[reply], by decide, by decide⟩, by decide, pairwise_singleton _ _⟩
  have hkeeps := h oneSecond 10 ⟨⟨by decide, trivial⟩, ⟨by decide, trivial⟩, trivial⟩ "s" 10
    (by decide) 1 [question] hanswer
  have hlast := hkeeps.last (le_refl 1) reply (by decide) rfl rfl
  exact absurd hlast (by decide)

end CrabMate.Memory
