import Mathlib.Data.Fintype.EquivFin

/-! Topological sorting by removing sources. A vertex waits until every edge into it has been taken
away; what the sort has finished at its end is everything exactly if the edges form no cycle. -/
namespace Kahn
open List Function

variable {α : Type*} [DecidableEq α]

section Model

/-- No vertex is reached from itself. -/
def Acyclic (r : α → α → Prop) : Prop := ∀ a, ¬Relation.TransGen r a a

/-- Where the edges out of `x` lead, once for each edge. -/
def targets (edges : List (α × α)) (x : α) : List α := (edges.filter (·.1 = x)).map Prod.snd

/-- How many edges into `y` start at a vertex that is not done. -/
def pending (edges : List (α × α)) (done : List α) (y : α) : ℕ :=
  edges.countP fun e => e.2 = y ∧ e.1 ∉ done

/-- Takes away one edge into each vertex of the list; what has none left joins the queue. There is
no result where an edge would be taken away that is not there. -/
def consume : List α → (α → ℕ) → List α → Option ((α → ℕ) × List α)
  | [], degree, queue => some (degree, queue)
  | y :: ys, degree, queue =>
    if degree y = 0 then none
    else
      let degree' := Function.update degree y (degree y - 1)
      consume ys degree' (if degree' y = 0 then queue ++ [y] else queue)

/-- A sort in progress: `done` is finished in this order, `queue` comes next. -/
structure Sorting (edges : List (α × α)) (vertices done queue : List α) (degree : α → ℕ) :
    Prop where
  nodup : (done ++ queue).Nodup
  degree_eq : ∀ y, degree y = pending edges done y
  settled : ∀ y, y ∈ done ++ queue ↔ y ∈ vertices ∧ degree y = 0
  ordered : ∀ before b after, done = before ++ b :: after → ∀ a, (a, b) ∈ edges → a ∈ before

end Model

section Consume

variable {ys : List α} {degree : α → ℕ}

theorem consume_append (xs ys : List α) (degree : α → ℕ) (queue : List α) :
    consume (xs ++ ys) degree queue =
      (consume xs degree queue).bind fun r => consume ys r.1 r.2 := by
  induction xs generalizing degree queue with
  | nil => rfl
  | cons x xs ih =>
    simp only [cons_append, consume]
    split
    · rfl
    · exact ih _ _

/-- Where there are enough edges, all of them are taken away, and the vertices that had exactly
these join the queue, each once. -/
theorem consume_eq_some (queue : List α) (h : ∀ y, ys.count y ≤ degree y) :
    ∃ new, consume ys degree queue = some (fun y => degree y - ys.count y, queue ++ new) ∧
      new.Nodup ∧ ∀ y, y ∈ new ↔ y ∈ ys ∧ degree y = ys.count y := by
  induction ys generalizing degree queue with
  | nil => exact ⟨[], by simp [consume]⟩
  | cons x xs ih =>
    have hx : 0 < degree x := by
      have := h x
      rw [count_cons_self] at this
      omega
    have hrest : ∀ y, xs.count y ≤ Function.update degree x (degree x - 1) y := by
      intro y
      have hy := h y
      by_cases hyx : y = x
      · subst hyx
        rw [count_cons_self] at hy
        rw [update_self]
        omega
      · rw [count_cons_of_ne (Ne.symm hyx)] at hy
        rwa [update_of_ne hyx]
    have hcounts : (fun y => Function.update degree x (degree x - 1) y - xs.count y) =
        fun y => degree y - (x :: xs).count y := by
      funext y
      by_cases hyx : y = x
      · subst hyx
        rw [update_self, count_cons_self]
        omega
      · rw [update_of_ne hyx, count_cons_of_ne (Ne.symm hyx)]
    obtain ⟨new, hrun, hnodup, hmem⟩ := ih
      (if degree x - 1 = 0 then queue ++ [x] else queue) hrest
    rw [hcounts] at hrun
    have hstep : consume (x :: xs) degree queue =
        consume xs (Function.update degree x (degree x - 1))
          (if degree x - 1 = 0 then queue ++ [x] else queue) := by
      simp only [consume, hx.ne', if_false, update_self]
    have hother : ∀ y, y ≠ x → (y ∈ new ↔ y ∈ x :: xs ∧ degree y = (x :: xs).count y) := by
      intro y hyx
      rw [hmem, update_of_ne hyx, count_cons_of_ne (Ne.symm hyx), mem_cons]
      simp [hyx]
    have hself : x ∈ new ↔ x ∈ xs ∧ degree x = (x :: xs).count x := by
      rw [hmem, update_self, count_cons_self]
      have := count_pos_iff (a := x) (l := xs)
      constructor <;> rintro ⟨hin, heq⟩ <;> exact ⟨hin, by omega⟩
    by_cases hlast : degree x - 1 = 0
    · have hnone : xs.count x = 0 := by
        have := hrest x
        rw [update_self] at this
        omega
      have hnotin : x ∉ xs := count_eq_zero.mp hnone
      refine ⟨x :: new, ?_, ?_, ?_⟩
      · rw [hstep, hrun, if_pos hlast, append_assoc, singleton_append]
      · exact nodup_cons.mpr ⟨fun hin => hnotin (hself.mp hin).1, hnodup⟩
      · intro y
        by_cases hyx : y = x
        · subst hyx
          simp only [mem_cons_self, true_and, count_cons_self, hnone, true_iff]
          omega
        · rw [mem_cons, hother y hyx]
          simp [hyx]
    · refine ⟨new, ?_, hnodup, ?_⟩
      · rw [hstep, hrun, if_neg hlast]
      · intro y
        by_cases hyx : y = x
        · subst hyx
          rw [hself]
          simp only [mem_cons_self, true_and, count_cons_self]
          constructor
          · exact fun h => h.2
          · intro heq
            exact ⟨count_pos_iff.mp (by omega), heq⟩
        · exact hother y hyx

end Consume

section Steps

variable {edges : List (α × α)} {vertices done block rest queue : List α} {degree : α → ℕ}

theorem count_targets (x y : α) :
    (targets edges x).count y = edges.countP fun e => e.2 = y ∧ e.1 = x := by
  induction edges with
  | nil => rfl
  | cons e edges ih =>
    rw [countP_cons, ← ih]
    by_cases hx : e.1 = x
    · by_cases hy : e.2 = y <;> simp [targets, hx, hy]
    · simp [targets, hx]

theorem countP_add {β : Type*} {p q r : β → Bool}
    (h : ∀ e, (p e).toNat = (q e).toNat + (r e).toNat) (l : List β) :
    l.countP p = l.countP q + l.countP r := by
  induction l with
  | nil => rfl
  | cons e l ih =>
    have he := h e
    rw [countP_cons, countP_cons, countP_cons, ih]
    revert he
    cases p e <;> cases q e <;> cases r e <;> simp <;> omega

/-- An edge into `y` that waits now waits for `x` or goes on waiting behind it. -/
theorem pending_snoc {x : α} (hx : x ∉ done) (y : α) :
    pending edges done y = pending edges (done ++ [x]) y + (targets edges x).count y := by
  rw [count_targets]
  refine countP_add (fun e => ?_) edges
  by_cases hy : e.2 = y
  · by_cases hex : e.1 = x
    · simp [hy, hex, hx]
    · by_cases hd : e.1 ∈ done <;> simp [hy, hex, hd]
  · simp [hy]

theorem pending_append (hblock : block.Nodup) (hdone : ∀ x ∈ block, x ∉ done) (y : α) :
    pending edges done y =
      pending edges (done ++ block) y + (block.flatMap (targets edges)).count y := by
  induction block generalizing done with
  | nil => simp
  | cons x block ih =>
    obtain ⟨hx, hblock⟩ := nodup_cons.mp hblock
    have hfresh : ∀ z ∈ block, z ∉ done ++ [x] := by
      intro z hz
      rw [mem_append, mem_singleton, not_or]
      exact ⟨hdone z (mem_cons_of_mem _ hz), fun heq => hx (heq ▸ hz)⟩
    rw [pending_snoc (hdone x mem_cons_self), ih hblock hfresh, flatMap_cons,
      count_append, append_assoc, singleton_append]
    omega

theorem mem_targets {x y : α} : y ∈ targets edges x ↔ (x, y) ∈ edges := by
  simp only [targets, mem_map, mem_filter, decide_eq_true_eq]
  constructor
  · rintro ⟨⟨a, b⟩, ⟨he, rfl⟩, rfl⟩
    exact he
  · intro he
    exact ⟨(x, y), ⟨he, rfl⟩, rfl⟩

theorem pending_eq_zero {y : α} :
    pending edges done y = 0 ↔ ∀ x, (x, y) ∈ edges → x ∈ done := by
  simp only [pending, countP_eq_zero, decide_eq_true_eq, not_and, not_not]
  constructor
  · intro h x he
    exact h (x, y) he rfl
  · rintro h ⟨x, z⟩ he rfl
    exact h x he

theorem sorting_start (hqueue : queue.Nodup) (hdegree : ∀ y, degree y = pending edges [] y)
    (hmem : ∀ y, y ∈ queue ↔ y ∈ vertices ∧ degree y = 0) :
    Sorting edges vertices [] queue degree where
  nodup := hqueue
  degree_eq := hdegree
  settled := hmem
  ordered before b after h := by simp at h

/-- The front of the queue is finished: its edges are there to be taken away, and the sort goes on
with what is left of the queue and what became free. -/
theorem Sorting.advance (h : Sorting edges vertices done (block ++ rest) degree)
    (htargets : ∀ e ∈ edges, e.2 ∈ vertices) :
    ∃ degree' new, consume (block.flatMap (targets edges)) degree rest =
        some (degree', rest ++ new) ∧
      Sorting edges vertices (done ++ block) (rest ++ new) degree' := by
  have hsplit := nodup_append.mp h.nodup
  have hblock : block.Nodup := (nodup_append.mp hsplit.2.1).1
  have hfresh : ∀ x ∈ block, x ∉ done := fun x hx hd =>
    hsplit.2.2 x hd x (mem_append_left _ hx) rfl
  have hpending : ∀ y, degree y =
      pending edges (done ++ block) y + (block.flatMap (targets edges)).count y := fun y => by
    rw [h.degree_eq, pending_append hblock hfresh]
  obtain ⟨new, hrun, hnew, hmem⟩ := consume_eq_some rest
    (fun y => (hpending y).symm ▸ Nat.le_add_left _ _)
  have hleft : ∀ y, degree y - (block.flatMap (targets edges)).count y =
      pending edges (done ++ block) y := fun y => by
    rw [hpending]
    omega
  have hpos : ∀ y ∈ new, degree y ≠ 0 := by
    intro y hy hzero
    obtain ⟨hin, heq⟩ := (hmem y).mp hy
    have := count_pos_iff.mpr hin
    omega
  have hunsettled : ∀ y ∈ new, y ∉ done ++ (block ++ rest) := fun y hy hin =>
    hpos y hy ((h.settled y).mp hin).2
  refine ⟨_, new, hrun, ?_, hleft, ?_, ?_⟩
  · rw [← append_assoc, append_assoc done, nodup_append]
    refine ⟨h.nodup, hnew, ?_⟩
    rintro x hx y hy rfl
    exact hunsettled x hy hx
  · intro y
    rw [← append_assoc, append_assoc done, mem_append, h.settled, hmem]
    constructor
    · rintro (⟨hv, hzero⟩ | ⟨hin, heq⟩)
      · exact ⟨hv, by omega⟩
      · obtain ⟨x, -, hx⟩ := mem_flatMap.mp hin
        exact ⟨htargets _ (mem_targets.mp hx), by omega⟩
    · rintro ⟨hv, hzero⟩
      by_cases hy : degree y = 0
      · exact .inl ⟨hv, hy⟩
      · have hle := hpending y
        have := hleft y
        exact .inr ⟨count_pos_iff.mp (by omega), by omega⟩
  · intro before b after heq a he
    rcases append_eq_append_iff.mp heq with ⟨mid, rfl, hmid⟩ | ⟨mid, rfl, hmid⟩
    · have hb : b ∈ done ++ (block ++ rest) := by
        rw [hmid]
        simp
      have hzero : pending edges done b = 0 := by
        rw [← h.degree_eq]
        exact ((h.settled b).mp hb).2
      exact mem_append_left _ (pending_eq_zero.mp hzero a he)
    · cases mid with
      | nil =>
        have hb : b ∈ before ++ [] ++ (block ++ rest) := by
          rw [nil_append] at hmid
          rw [← hmid]
          simp
        have hzero : pending edges (before ++ []) b = 0 := by
          rw [← h.degree_eq]
          exact ((h.settled b).mp hb).2
        simpa using pending_eq_zero.mp hzero a he
      | cons c mid =>
        rw [cons_append, List.cons.injEq] at hmid
        obtain ⟨rfl, -⟩ := hmid
        exact h.ordered before b mid rfl a he

theorem Sorting.length_le (h : Sorting edges vertices done queue degree) :
    (done ++ queue).length ≤ vertices.length :=
  (subperm_of_subset h.nodup fun y hy => ((h.settled y).mp hy).1).length_le

end Steps

section Finish

variable {edges : List (α × α)} {vertices done : List α} {degree : α → ℕ}

/-- A sort that finished every vertex has put each edge forward. -/
theorem Sorting.acyclic (h : Sorting edges vertices done [] degree)
    (htargets : ∀ e ∈ edges, e.2 ∈ vertices) (hall : ∀ v ∈ vertices, v ∈ done) :
    Acyclic fun a b => (a, b) ∈ edges := by
  have hforward : ∀ a b, (a, b) ∈ edges → done.idxOf a < done.idxOf b := by
    intro a b he
    obtain ⟨before, after, rfl⟩ := append_of_mem (hall b (htargets _ he))
    have ha : a ∈ before := h.ordered before b after rfl a he
    have hb : b ∉ before := by
      have hnodup := h.nodup
      rw [append_nil] at hnodup
      intro hin
      exact (nodup_append.mp hnodup).2.2 b hin b mem_cons_self rfl
    rw [idxOf_append_of_mem ha, idxOf_append_of_notMem hb]
    have := idxOf_lt_length_iff.mpr ha
    omega
  intro a hcycle
  have hlt : Relation.TransGen (· < ·) (done.idxOf a) (done.idxOf a) :=
    hcycle.lift done.idxOf hforward
  rw [Relation.transGen_eq_self] at hlt
  exact absurd hlt (Nat.lt_irrefl _)

/-- Without a cycle, every vertex is finished. -/
theorem Sorting.complete (h : Sorting edges vertices done [] degree)
    (hsources : ∀ e ∈ edges, e.1 ∈ vertices) (hacyclic : Acyclic fun a b => (a, b) ∈ edges) :
    ∀ v ∈ vertices, v ∈ done := by
  let r (a b : {v // v ∈ vertices}) : Prop :=
    Relation.TransGen (fun a b => (a, b) ∈ edges) a.1 b.1
  have hwf : WellFounded r := by
    have : IsTrans {v // v ∈ vertices} r := ⟨fun _ _ _ => Relation.TransGen.trans⟩
    have : Std.Irrefl r := ⟨fun a => hacyclic a.1⟩
    have : Finite {v // v ∈ vertices} := inferInstance
    exact Finite.wellFounded_of_trans_of_irrefl r
  intro v hv
  refine hwf.induction (C := fun v => v.1 ∈ done) ⟨v, hv⟩ ?_
  rintro ⟨b, hb⟩ ih
  have hzero : pending edges done b = 0 := pending_eq_zero.mpr fun a he =>
    ih ⟨a, hsources _ he⟩ (.single he)
  have hsettled := (h.settled b).mpr ⟨hb, by rw [h.degree_eq, hzero]⟩
  simpa using hsettled

end Finish
end Kahn
