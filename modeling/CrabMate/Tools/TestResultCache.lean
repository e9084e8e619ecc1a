import CrabMate.Lib.Recency
import CrabMate.Lib.Run
import CrabMate.Lib.Table
import Mathlib.Data.List.Induction

/-! The cache of test results of a process. The recency of the keys is kept in a queue beside the
map. -/
namespace CrabMate.TestResultCache
open List Option Table

inductive TestCacheKind where
  | cargoTest | cargoTestViaRunCommand
  deriving DecidableEq

structure TestCacheKey where
  workspaceRoot : String
  kind : TestCacheKind
  argsFingerprint : String
  inputsFingerprint : String
  deriving DecidableEq

structure CachedEntry where
  output : String
  deriving DecidableEq

abbrev CacheMap := Table (Prod.fst : TestCacheKey × CachedEntry → TestCacheKey)

/-- The queue starts with the key that was not used for the longest time. -/
structure LruCache where
  map : CacheMap
  order : List TestCacheKey
  cap : ℕ

namespace LruCache

def new (cap : ℕ) : LruCache := ⟨Table.empty, [], Nat.max cap 1⟩

/-- Takes the key out of its position in the queue and puts it at the end. -/
def touch (order : List TestCacheKey) (k : TestCacheKey) : List TestCacheKey := order.erase k ++ [k]

def get (c : LruCache) (k : TestCacheKey) : Option String × LruCache :=
  match c.map.lookup k with
  | none => (none, c)
  | some e => (some e.2.output, { c with order := touch c.order k })

/-- The loop that makes room for an entry. -/
def evict (cap : ℕ) (map : CacheMap) : List TestCacheKey → CacheMap × List TestCacheKey
  | [] => (map, [])
  | old :: order =>
      if cap ≤ map.rows.length then evict cap (map.deleteWhere fun e => e.1 = old) order
      else (map, old :: order)

def insert (c : LruCache) (k : TestCacheKey) (output : String) : LruCache :=
  match c.map.lookup k with
  | some _ => { c with map := c.map.put (k, ⟨output⟩), order := touch c.order k }
  | none =>
      let room := evict c.cap c.map c.order
      { c with map := room.1.put (k, ⟨output⟩), order := room.2 ++ [k] }

end LruCache

/-- The cache of the process; another capacity starts an empty one. -/
def cacheSingleton (cache : Option LruCache) (maxEntries : ℕ) : LruCache :=
  match cache with
  | none => .new (Nat.max maxEntries 1)
  | some c => if c.cap ≠ Nat.max maxEntries 1 then .new (Nat.max maxEntries 1) else c

def tryGetCached (cache : Option LruCache) (enabled : Bool) (maxEntries : ℕ) (key : TestCacheKey) :
    Option String × Option LruCache :=
  if !enabled then (none, cache)
  else
    let found := (cacheSingleton cache maxEntries).get key
    (found.1, some found.2)

def storeCached (cache : Option LruCache) (enabled : Bool) (maxEntries : ℕ) (key : TestCacheKey)
    (output : String) : Option LruCache :=
  if !enabled || output.isEmpty then cache
  else some ((cacheSingleton cache maxEntries).insert key output)

section Refinement

open LruCache Recency

/-- An operation on the cache. -/
abbrev CacheOp := Op TestCacheKey String

def step (c : LruCache) : CacheOp → LruCache
  | .get k => (c.get k).2
  | .insert k output => c.insert k output

/-- The cache holds what it should after a history: the queue is the list of the held keys from the
oldest one on, and the map has the last outputs for them. -/
structure Refines (c : LruCache) (history : List CacheOp) : Prop where
  cap_pos : 1 ≤ c.cap
  order_eq : c.order = (held c.cap history).reverse
  lookup_eq : ∀ k, c.map.lookup k = (answer c.cap history k).map fun output => (k, ⟨output⟩)

variable {c : LruCache} {history : List CacheOp} {k l : TestCacheKey} {output : String}

theorem refines_new (cap : ℕ) : Refines (new cap) [] where
  cap_pos := Nat.le_max_right cap 1
  order_eq := by simp [new, held, uses, latest]
  lookup_eq := fun k => by simp [new, answer, held, uses, latest]

theorem answer_isSome_iff : (answer c.cap history k).isSome = true ↔ k ∈ held c.cap history := by
  unfold answer
  split
  · rename_i hheld
    exact iff_of_true (inserted_of_mem_held hheld) hheld
  · rename_i hheld
    exact iff_of_false Bool.false_ne_true hheld

theorem Refines.isSome_iff (h : Refines c history) :
    (c.map.lookup k).isSome = true ↔ k ∈ held c.cap history := by
  rw [h.lookup_eq, isSome_map, answer_isSome_iff]

theorem Refines.mem_order (h : Refines c history) : k ∈ c.order ↔ k ∈ held c.cap history := by
  rw [h.order_eq, mem_reverse]

theorem Refines.nodup_order (h : Refines c history) : c.order.Nodup := by
  rw [h.order_eq]
  exact nodup_reverse.mpr (nodup_held _ _)

/-- The map has as many entries as the queue. -/
theorem Refines.perm (h : Refines c history) : (c.map.rows.map Prod.fst).Perm c.order := by
  rw [perm_ext_iff_of_nodup c.map.nodup h.nodup_order]
  intro k
  rw [h.mem_order, ← h.isSome_iff, isSome_iff_ne_none, ne_eq, Table.lookup_eq_none_iff]
  simp

theorem Refines.length_map (h : Refines c history) : c.map.rows.length = c.order.length := by
  have hperm := h.perm.length_eq
  rwa [List.length_map] at hperm

theorem touch_eq (h : Refines c history) :
    touch c.order k = (k :: (held c.cap history).erase k).reverse := by
  have hnodup := nodup_held c.cap history
  have herase : (held c.cap history).reverse.erase k = ((held c.cap history).erase k).reverse := by
    rw [(nodup_reverse.mpr hnodup).erase_eq_filter, hnodup.erase_eq_filter,
      filter_reverse]
  rw [touch, h.order_eq, herase, reverse_cons]

theorem refines_get (h : Refines c history) (k : TestCacheKey) :
    Refines (c.get k).2 (.get k :: history) ∧ (c.get k).1 = answer c.cap history k := by
  obtain ⟨n, hcap⟩ : ∃ n, c.cap = n + 1 := ⟨c.cap - 1, (Nat.sub_add_cancel h.cap_pos).symm⟩
  have hlookup := h.lookup_eq k
  have hsame : ∀ l, c.map.lookup l =
      (answer c.cap (.get k :: history) l).map fun output => (l, ⟨output⟩) := by
    intro l
    rw [h.lookup_eq, hcap, answer_get]
  unfold LruCache.get
  cases hk : c.map.lookup k with
  | none =>
    have hmiss : k ∉ held c.cap history := by
      rw [← h.isSome_iff, hk]
      nofun
    rw [hk] at hlookup
    refine ⟨⟨h.cap_pos, ?_, hsame⟩, (map_eq_none_iff.mp hlookup.symm).symm⟩
    rw [h.order_eq, held_get_miss hmiss]
  | some e =>
    have hheld : k ∈ held (n + 1) history := by
      rw [← hcap, ← h.isSome_iff, hk]
      rfl
    rw [hk] at hlookup
    obtain ⟨output, hanswer, rfl⟩ := map_eq_some_iff.mp hlookup.symm
    refine ⟨⟨h.cap_pos, ?_, hsame⟩, hanswer.symm⟩
    show touch c.order k = (held c.cap _).reverse
    rw [touch_eq h, hcap, held_get hheld]

theorem evict_of_lt {cap : ℕ} {map : CacheMap} (h : map.rows.length < cap)
    (order : List TestCacheKey) : evict cap map order = (map, order) := by
  cases order with
  | nil => rfl
  | cons old order => rw [evict, if_neg (Nat.not_le.mpr h)]

theorem Refines.evict_full (h : Refines c history) {old : TestCacheKey}
    {order : List TestCacheKey} (horder : c.order = old :: order)
    (hfull : c.order.length = c.cap) :
    evict c.cap c.map c.order = (c.map.deleteWhere fun e => e.1 = old, order) := by
  have hlen : c.map.rows.length = c.cap := h.length_map.trans hfull
  obtain ⟨e, he⟩ : ∃ e, c.map.lookup old = some e := by
    rw [← isSome_iff_exists, h.isSome_iff, ← h.mem_order, horder]
    exact mem_cons_self
  obtain ⟨before, after, hrows, hbefore, hafter⟩ := exists_rows_eq he
  have hkey : e.1 = old := (Table.lookup_eq_some_iff.mp he).2
  have hroom : (c.map.deleteWhere fun e => e.1 = old).rows.length < c.cap := by
    rw [rows_deleteWhere, hrows, filter_delete_split hkey hbefore hafter, ← hlen,
      hrows]
    simp only [length_append, length_cons]
    omega
  rw [horder, evict, if_pos (Nat.le_of_eq hlen.symm), evict_of_lt hroom]

/-- The loop takes the oldest key out of a full cache and no other. -/
theorem evict_eq (h : Refines c history) {n : ℕ} (hcap : c.cap = n + 1) :
    (evict c.cap c.map c.order).2 = ((held (n + 1) history).take n).reverse ∧
      ∀ l, (evict c.cap c.map c.order).1.lookup l =
        if l ∈ (held (n + 1) history).take n then c.map.lookup l else none := by
  have hmap : ∀ l, l ∉ held (n + 1) history → c.map.lookup l = none := by
    intro l hl
    rwa [← not_isSome_iff_eq_none, h.isSome_iff, hcap]
  have hlength : c.order.length = (held (n + 1) history).length := by
    rw [h.order_eq, length_reverse, hcap]
  have hle := length_held_le (n + 1) history
  by_cases hfull : (held (n + 1) history).length = n + 1
  · obtain ⟨front, old, hheld⟩ : ∃ front old, held (n + 1) history = front ++ [old] :=
      (eq_nil_or_concat' _).resolve_left (ne_nil_of_length_eq_add_one hfull)
    have hnodup := nodup_held (n + 1) history
    rw [hheld] at hnodup hfull
    have hold : old ∉ front := fun hmem =>
      (nodup_append.mp hnodup).2.2 old hmem old (mem_singleton_self old) rfl
    have horder : c.order = old :: front.reverse := by
      rw [h.order_eq, hcap, hheld, reverse_append]
      rfl
    have htake : (held (n + 1) history).take n = front := by
      rw [length_append, length_singleton, Nat.add_right_cancel_iff] at hfull
      rw [hheld, ← hfull, take_left]
    rw [h.evict_full horder (by rw [hlength, hcap, hheld, hfull]), htake]
    refine ⟨rfl, fun l => ?_⟩
    by_cases hl : l = old
    · subst hl
      rw [if_neg hold, lookup_deleteWhere_of fun r hr => decide_eq_true hr]
    · rw [lookup_deleteWhere_of_not fun r hr => decide_eq_false (hr ▸ hl)]
      split
      · rfl
      · rename_i hmem
        refine hmap l ?_
        rw [hheld, mem_append, mem_singleton]
        exact not_or.mpr ⟨hmem, hl⟩
  · have hroom : c.map.rows.length < c.cap := by
      rw [h.length_map]
      omega
    rw [evict_of_lt hroom, take_of_length_le (by omega)]
    refine ⟨by rw [h.order_eq, hcap], fun l => ?_⟩
    split
    · rfl
    · rename_i hmem
      exact hmap l hmem

theorem refines_insert (h : Refines c history) (k : TestCacheKey) (output : String) :
    Refines (c.insert k output) (.insert k output :: history) := by
  obtain ⟨n, hcap⟩ : ∃ n, c.cap = n + 1 := ⟨c.cap - 1, (Nat.sub_add_cancel h.cap_pos).symm⟩
  unfold LruCache.insert
  cases hk : c.map.lookup k with
  | some e =>
    have hheld : k ∈ held (n + 1) history := by
      rw [← hcap, ← h.isSome_iff, hk]
      rfl
    refine ⟨h.cap_pos, ?_, fun l => ?_⟩
    · show touch c.order k = (held c.cap _).reverse
      rw [touch_eq h, hcap, held_insert_of_mem hheld]
    · show (c.map.put (k, ⟨output⟩)).lookup l = (answer c.cap _ l).map _
      by_cases hl : k = l
      · subst hl
        rw [hcap, answer_insert_self]
        exact lookup_put_self c.map (k, ⟨output⟩)
      · rw [lookup_put_of_ne _ hl, h.lookup_eq, hcap, answer_insert_of_mem hheld (Ne.symm hl)]
  | none =>
    have hmiss : k ∉ held (n + 1) history := by
      rw [← hcap, ← h.isSome_iff, hk]
      nofun
    obtain ⟨horder, hlookup⟩ := evict_eq h hcap
    refine ⟨h.cap_pos, ?_, fun l => ?_⟩
    · show (evict c.cap c.map c.order).2 ++ [k] = (held c.cap _).reverse
      rw [horder, hcap, held_insert_of_notMem hmiss, reverse_cons]
    · show ((evict c.cap c.map c.order).1.put (k, ⟨output⟩)).lookup l = (answer c.cap _ l).map _
      by_cases hl : k = l
      · subst hl
        rw [hcap, answer_insert_self]
        exact lookup_put_self (evict (n + 1) c.map c.order).1 (k, CachedEntry.mk output)
      · rw [lookup_put_of_ne _ hl, hlookup, hcap, answer_insert_of_notMem hmiss (Ne.symm hl)]
        split
        · rw [h.lookup_eq, hcap]
        · rfl

/-- What one operation preserves. -/
theorem refines_step (h : Refines c history) (op : CacheOp) :
    Refines (step c op) (op :: history) := by
  cases op with
  | get k => exact (refines_get h k).1
  | insert k output => exact refines_insert h k output

theorem cap_step (c : LruCache) (op : CacheOp) : (step c op).cap = c.cap := by
  cases op with
  | get k =>
    show (c.get k).2.cap = c.cap
    unfold LruCache.get
    split <;> rfl
  | insert k output =>
    show (c.insert k output).cap = c.cap
    unfold LruCache.insert
    split <;> rfl

theorem refines_run (cap : ℕ) (ops : List CacheOp) :
    Refines (Run.run step (new cap) ops) ops.reverse ∧
      (Run.run step (new cap) ops).cap = Nat.max cap 1 := by
  induction ops using List.reverseRecOn with
  | nil => exact ⟨refines_new cap, rfl⟩
  | append_singleton ops op ih =>
    rw [Run.run_append, reverse_append]
    exact ⟨refines_step ih.1 op, (cap_step _ op).trans ih.2⟩

/-- After any operations the map and the queue hold the same keys, each once in the queue and no
more than the capacity, and a `get` returns what the cache of the most recently used keys does. -/
theorem lru_cache_run (cap : ℕ) (ops : List CacheOp) :
    let c := Run.run step (new cap) ops
    c.order.Nodup ∧ (∀ k, k ∈ c.order ↔ (c.map.lookup k).isSome = true) ∧
      c.map.rows.length ≤ Nat.max cap 1 ∧
      ∀ k, (c.get k).1 = answer (Nat.max cap 1) ops.reverse k := by
  obtain ⟨h, hcap⟩ := refines_run cap ops
  have hlen := length_held_le (Run.run step (new cap) ops).cap ops.reverse
  refine ⟨h.nodup_order, fun k => h.mem_order.trans h.isSome_iff.symm, ?_, fun k => ?_⟩
  · rw [h.length_map, h.order_eq, length_reverse, ← hcap]
    exact hlen
  · rw [(refines_get h k).2, hcap]

end Refinement

section Process

open LruCache Recency

/-- A call with one configuration of the process. -/
def call (maxEntries : ℕ) (cache : Option LruCache) : CacheOp → Option LruCache
  | .get k => (tryGetCached cache true maxEntries k).2
  | .insert k output => storeCached cache true maxEntries k output

/-- Empty outputs are not stored. -/
def reaches : CacheOp → Bool
  | .get _ => true
  | .insert _ output => !output.isEmpty

theorem cacheSingleton_some {c : LruCache} {maxEntries : ℕ} (h : c.cap = Nat.max maxEntries 1) :
    cacheSingleton (some c) maxEntries = c := if_neg (not_not.mpr h)

theorem cacheSingleton_calls (maxEntries : ℕ) (calls : List CacheOp) :
    cacheSingleton (Run.run (call maxEntries) none calls) maxEntries =
      Run.run step (new (Nat.max maxEntries 1)) (calls.filter reaches) := by
  induction calls using List.reverseRecOn with
  | nil => rfl
  | append_singleton calls op ih =>
    have hcap : ∀ op, (step (Run.run step (new (Nat.max maxEntries 1)) (calls.filter reaches))
        op).cap = Nat.max maxEntries 1 := by
      intro op
      rw [cap_step, (refines_run _ _).2]
      exact Nat.max_eq_left (Nat.le_max_right _ _)
    rw [Run.run_append, filter_append]
    cases op with
    | get k =>
      show cacheSingleton (some ((cacheSingleton _ maxEntries).get k).2) maxEntries = _
      rw [ih, filter_cons_of_pos rfl, Run.run_append]
      exact cacheSingleton_some (hcap (.get k))
    | insert k output =>
      cases hempty : output.isEmpty with
      | true =>
        rw [filter_cons_of_neg (by simp [reaches, hempty]), filter_nil, append_nil,
          ← ih]
        show cacheSingleton (storeCached _ true maxEntries k output) maxEntries = _
        rw [storeCached, if_pos (by simp [hempty])]
      | false =>
        rw [filter_cons_of_pos (by simp [reaches, hempty]), Run.run_append]
        show cacheSingleton (storeCached _ true maxEntries k output) maxEntries = _
        rw [storeCached, if_neg (by simp [hempty]), ih]
        exact cacheSingleton_some (hcap (.insert k output))

/-- With one configuration the process answers from the most recently used keys. -/
theorem tryGetCached_calls (maxEntries : ℕ) (calls : List CacheOp) (k : TestCacheKey) :
    (tryGetCached (Run.run (call maxEntries) none calls) true maxEntries k).1 =
      answer (Nat.max maxEntries 1) (calls.filter reaches).reverse k := by
  show ((cacheSingleton (Run.run (call maxEntries) none calls) maxEntries).get k).1 = _
  obtain ⟨h, hcap⟩ := refines_run (Nat.max maxEntries 1) (calls.filter reaches)
  rw [cacheSingleton_calls, (refines_get h k).2, hcap]
  congr 1
  exact Nat.max_eq_left (Nat.le_max_right _ _)

end Process

end CrabMate.TestResultCache
