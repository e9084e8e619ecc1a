import CrabMate.Store.Step

/-! Reading a conversation back across its two tables: cutting a history at a real user,
replaying the archived originals, and the invariant that the archive rows of one conversation
keep while they are numbered from the first archived range. -/
namespace CrabMate
open Positions List Option

variable {J : Type}

/-- The tables with the messages each conversation has seen, in order. -/
structure Tracked (J : Type) where
  db : Db J
  history : String → List Message

def Tracked.empty : Tracked J := ⟨.empty, fun _ => []⟩

def users (messages : List Message) : List Message := messages.filter realUser

@[simp] theorem users_append (ms₁ ms₂ : List Message) :
    users (ms₁ ++ ms₂) = users ms₁ ++ users ms₂ := filter_append ..

@[simp] theorem length_users (ms : List Message) : (users ms).length = countRealUsers ms :=
  (countP_eq_length_filter ..).symm

/-- Cutting at the `n`-th real user keeps the first `n` real users. -/
theorem users_take_branchCutIndex (ms : List Message) (n : ℕ) :
    users (ms.take (branchCutIndex ms n)) = (users ms).take n := by
  unfold branchCutIndex nthRealUserIndex
  cases h : nthIndex realUser ms n with
  | none =>
    have hle := nthIndex_eq_none_iff.mp h
    rw [getD_none, take_length, take_of_length_le]
    rwa [length_users]
  | some i =>
    obtain ⟨pre, x, post, rfl, rfl, hx, hc⟩ := nthIndex_eq_some h
    have hlen : (users pre).length = n := (length_users pre).trans hc
    rw [getD_some, take_left, users_append, ← hlen, take_left]

theorem countRealUsers_le_of_cut {ms : List Message} {n : ℕ}
    (h : ms.length ≤ branchCutIndex ms n) : countRealUsers ms ≤ n := by
  unfold branchCutIndex nthRealUserIndex at h
  cases hn : nthIndex realUser ms n with
  | none => exact nthIndex_eq_none_iff.mp hn
  | some i =>
    have hlt := nthIndex_le hn
    simp only [hn, getD_some] at h
    omega

/-- Where the originals are inserted: in front of the first real user. -/
theorem reexpand_of_realUser {pre rest : List Message} {u : Message}
    (hpre : ∀ m ∈ pre, realUser m = false) (hu : realUser u = true) (original : List Message) :
    reexpandCanonical (pre ++ u :: rest) original =
      (pre.filter fun m => !m.isContextSummaryInjection) ++ original ++
        (u :: rest).filter fun m => !m.isContextSummaryInjection := by
  have hus : u.isContextSummaryInjection = false := by
    by_contra h
    have hn : realUser u = false := Message.not_realUser_of_summary (Bool.not_eq_false _ ▸ h)
    rw [hu] at hn
    cases hn
  have hnone : (pre.filter fun m => !m.isContextSummaryInjection).findIdx? realUser = none :=
    findIdx?_eq_none_iff.mpr fun m hm => hpre m (mem_of_mem_filter hm)
  simp only [reexpandCanonical, filter_append, findIdx?_append, hnone, hus,
    filter_cons, Bool.not_false, ↓reduceIte, findIdx?_cons, hu, map_some,
    none_or, some_or, getD_some, Nat.zero_add, take_left,
    drop_left]

/-- Replaying puts the originals in front of the conversation rows of the history, for every
kind of row that does not occur before the first real user. -/
theorem filter_reexpand {p : Message → Bool}
    (hsum : ∀ m, m.isContextSummaryInjection = true → p m = false) (canonical : List Message)
    (hpre : ∀ m ∈ canonical.takeWhile (fun m => !realUser m), p m = false)
    (original : List Message) :
    (reexpandCanonical canonical original).filter p = original.filter p ++ canonical.filter p := by
  have hstr : ∀ ms : List Message,
      (ms.filter fun m => !m.isContextSummaryInjection).filter p = ms.filter p := by
    intro ms
    rw [List.filter_filter]
    apply filter_congr
    intro m _
    cases hm : m.isContextSummaryInjection with
    | true => simp [hsum m hm]
    | false => simp
  have hsplit := takeWhile_append_dropWhile (p := fun m => !realUser m) (l := canonical)
  have hnil : (canonical.takeWhile fun m => !realUser m).filter p = [] :=
    filter_eq_nil_iff.mpr fun m hm => by simp [hpre m hm]
  cases hrest : canonical.dropWhile (fun m => !realUser m) with
  | nil =>
    -- no real user at all: no row of the kind is in the history
    rw [hrest, append_nil] at hsplit
    have hc : canonical.filter p = [] := hsplit ▸ hnil
    have hs : ∀ m ∈ canonical.filter fun m => !m.isContextSummaryInjection, p m = false :=
      fun m hm => by simpa using filter_eq_nil_iff.mp hc m (mem_of_mem_filter hm)
    have htake : ∀ i, ((canonical.filter fun m => !m.isContextSummaryInjection).take i).filter p
        = [] := fun i =>
      filter_eq_nil_iff.mpr fun m hm => by simp [hs m (mem_of_mem_take hm)]
    have hdrop : ∀ i, ((canonical.filter fun m => !m.isContextSummaryInjection).drop i).filter p
        = [] := fun i =>
      filter_eq_nil_iff.mpr fun m hm => by simp [hs m (mem_of_mem_drop hm)]
    simp only [reexpandCanonical, filter_append, htake, hdrop, hc, nil_append]
  | cons u rest =>
    have hu : realUser u = true := by
      have h := head_dropWhile_not (fun m => !realUser m) (l := canonical) (by simp [hrest])
      simpa [hrest] using h
    have hpre' : ∀ m ∈ canonical.takeWhile (fun m => !realUser m), realUser m = false :=
      fun m hm => by simpa using mem_takeWhile_imp hm
    rw [hrest] at hsplit
    rw [← hsplit, reexpand_of_realUser hpre' hu]
    simp only [filter_append, hstr, hnil, nil_append]

theorem users_reexpand (canonical original : List Message) :
    users (reexpandCanonical canonical original) = users original ++ users canonical :=
  filter_reexpand (fun _ h => Message.not_realUser_of_summary h) canonical
    (fun m hm => by simpa using mem_takeWhile_imp hm) original

section Rows

variable (wire : Wire J)

/-- The archive rows of one conversation whose archived real users were `archived`. Rows are
numbered upwards; while the first row is there, they hold exactly the archived users. -/
structure ArchiveInv (rows : List (StoredArchiveRow J)) (archived : List Message) : Prop where
  increasing : rows.Pairwise fun a b => a.seq < b.seq
  nonneg : ∀ r ∈ rows, 0 ≤ r.seq
  artifact : ∀ r ∈ rows, r.reason = .artifact → ∀ part,
    decodeArchivePayload wire r.seq r.messagesJson r.codec = .ok part → users part = []
  complete : (rows = [] ∨ ∃ r ∈ rows, r.seq = 0) → ∃ ms,
    decodeArchiveRows wire rows = .ok ms ∧ users ms = archived

theorem ArchiveInv.nil : ArchiveInv wire [] [] where
  increasing := List.Pairwise.nil
  nonneg := by simp
  artifact := by simp
  complete _ := ⟨[], rfl, rfl⟩

variable {wire}

theorem orderBySeq_of_increasing {rows : List (StoredArchiveRow J)}
    (h : rows.Pairwise fun a b => a.seq < b.seq) : orderBySeq rows = rows :=
  List.Pairwise.insertionSort_eq (h.imp fun hab => hab.le)

/-- Skipping the artifact rows loses no real user. -/
theorem users_originals {rows : List (StoredArchiveRow J)} {ms : List Message}
    (hart : ∀ r ∈ rows, r.reason = .artifact → ∀ part,
      decodeArchivePayload wire r.seq r.messagesJson r.codec = .ok part → users part = [])
    (h : decodeArchiveRows wire rows = .ok ms) :
    ∃ original, decodeArchiveRows wire (rows.filter fun r => r.reason ≠ .artifact) =
      .ok original ∧ users original = users ms := by
  induction rows generalizing ms with
  | nil =>
    cases h
    exact ⟨[], rfl, rfl⟩
  | cons row rows ih =>
    obtain ⟨part, rest, hp, hr, rfl⟩ := decodeArchiveRows_cons_ok wire h
    obtain ⟨original, ho, hu⟩ := ih (fun r hr' => hart r (mem_cons_of_mem _ hr')) hr
    by_cases ha : row.reason = .artifact
    · refine ⟨original, by simpa [ha] using ho, ?_⟩
      rw [users_append, hart row mem_cons_self ha part hp, nil_append, hu]
    · refine ⟨part ++ original, ?_, by rw [users_append, users_append, hu]⟩
      have ho' : decodeArchiveRows wire (rows.filter fun r => !decide (r.reason = .artifact)) =
          .ok original := by simpa using ho
      simp [ha, decodeArchiveRows, hp, ho', bind, Except.bind, pure, Except.pure]

/-- A filter that keeps every row, or keeps some and loses the first row, keeps the
invariant: in the second case the archive is recognisably incomplete. -/
theorem ArchiveInv.filter {rows : List (StoredArchiveRow J)} {archived : List Message}
    (h : ArchiveInv wire rows archived) (q : StoredArchiveRow J → Bool)
    (hq : rows.filter q = rows ∨ (rows.filter q ≠ [] ∧ ∀ r ∈ rows.filter q, r.seq ≠ 0)) :
    ArchiveInv wire (rows.filter q) archived := by
  rcases hq with hq | ⟨hne, hzero⟩
  · rwa [hq]
  · refine ⟨h.increasing.filter _, fun r hr => h.nonneg r (mem_of_mem_filter hr),
      fun r hr => h.artifact r (mem_of_mem_filter hr), ?_⟩
    rintro (hnil | ⟨r, hr, hs⟩)
    · exact absurd hnil hne
    · exact absurd hs (hzero r hr)

theorem StoredFrom.decode {id : String} {seq : ℤ} {rows : List ArchiveRow}
    {stored : List (StoredArchiveRow J)} (h : StoredFrom wire id seq rows stored) :
    decodeArchiveRows wire stored = .ok (rows.flatMap ArchiveRow.messages) := by
  induction rows generalizing seq stored with
  | nil =>
    cases stored with
    | nil => rfl
    | cons => cases h
  | cons row rows ih =>
    cases stored with
    | nil => cases h
    | cons s stored =>
      obtain ⟨⟨-, -, -, hdec⟩, hrest⟩ := h
      simp [decodeArchiveRows, hdec, ih hrest, bind, Except.bind, pure, Except.pure]

theorem StoredFrom.increasing {id : String} {seq : ℤ} {rows : List ArchiveRow}
    {stored : List (StoredArchiveRow J)} (h : StoredFrom wire id seq rows stored) :
    stored.Pairwise fun a b => a.seq < b.seq := by
  induction rows generalizing seq stored with
  | nil =>
    cases stored with
    | nil => exact List.Pairwise.nil
    | cons => cases h
  | cons row rows ih =>
    cases stored with
    | nil => cases h
    | cons s stored =>
      obtain ⟨⟨-, hseq, -, -⟩, hrest⟩ := h
      refine List.Pairwise.cons (fun r hr => ?_) (ih hrest)
      have hle := (hrest.mem hr).2.1
      omega

/-- The number given to the next archive row is above all numbers in use. -/
theorem lt_nextSeq {db : Db J} {id : String} {r : StoredArchiveRow J}
    (hr : r ∈ db.archiveOf id) : r.seq < nextSeq db id := by
  unfold nextSeq
  cases h : ((db.archiveOf id).map StoredArchiveRow.seq).max? with
  | none =>
    rw [max?_eq_none_iff, map_eq_nil_iff] at h
    rw [h] at hr
    cases hr
  | some m =>
    have hle := (max?_eq_some_iff.mp h).2 r.seq (List.mem_map_of_mem hr)
    rw [getD_some]
    omega

theorem nextSeq_of_nil {db : Db J} {id : String} (h : db.archiveOf id = []) :
    nextSeq db id = 0 := by
  simp [nextSeq, h]

/-- Appending the rows of one save extends the archived users by those of the ranges. -/
theorem ArchiveInv.append {db : Db J} {id : String} {archived : List Message}
    (h : ArchiveInv wire (db.archiveOf id) archived) {rows : List ArchiveRow}
    {stored : List (StoredArchiveRow J)} (hfrom : StoredFrom wire id (nextSeq db id) rows stored)
    (hart : ∀ row ∈ rows, row.reason = .artifact → users row.messages = []) :
    ArchiveInv wire (db.archiveOf id ++ stored)
      (archived ++ users (rows.flatMap ArchiveRow.messages)) := by
  have hnext : 0 ≤ nextSeq db id := by
    cases hrows : db.archiveOf id with
    | nil => rw [nextSeq_of_nil hrows]
    | cons r rest =>
      have hr : r ∈ db.archiveOf id := by simp [hrows]
      have hlt := lt_nextSeq hr
      have hge := h.nonneg r hr
      omega
  refine ⟨pairwise_append.mpr ⟨h.increasing, hfrom.increasing, fun a ha b hb => ?_⟩,
    fun r hr => ?_, fun r hr ha part hp => ?_, fun hc => ?_⟩
  · exact (lt_nextSeq ha).trans_le (hfrom.mem hb).2.1
  · rcases mem_append.mp hr with hr | hr
    · exact h.nonneg r hr
    · exact hnext.trans (hfrom.mem hr).2.1
  · rcases mem_append.mp hr with hr | hr
    · exact h.artifact r hr ha part hp
    · obtain ⟨-, -, row, hrow, hreason, hdec⟩ := hfrom.mem hr
      rw [hdec] at hp
      cases hp
      exact hart row hrow (hreason ▸ ha)
  · -- the first row is an old one unless there were none
    have hold : db.archiveOf id = [] ∨ ∃ r ∈ db.archiveOf id, r.seq = 0 := by
      rcases hc with hnil | ⟨r, hr, hzero⟩
      · exact .inl (append_eq_nil_iff.mp hnil).1
      · rcases mem_append.mp hr with hr | hr
        · exact .inr ⟨r, hr, hzero⟩
        · refine .inl ?_
          by_contra hne
          obtain ⟨q, hq⟩ := exists_mem_of_ne_nil _ hne
          have hlt := lt_nextSeq hq
          have hge := h.nonneg q hq
          have hle := (hfrom.mem hr).2.1
          omega
    obtain ⟨ms, hms, hu⟩ := h.complete hold
    exact ⟨_, decodeArchiveRows_append_ok wire hms hfrom.decode, by rw [users_append, hu]⟩

end Rows
end CrabMate
