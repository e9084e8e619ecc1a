import CrabMate.Memory.Store
import Mathlib.Algebra.Order.Ring.Rat

/-! Recall from the long-term memory: the scored candidates, the relative cutoff, and the share of
the budget that experience rows and turn rows get. -/
namespace CrabMate.Memory
open List

/-- A candidate: the score it is sorted by, the score before any boost, and its row. -/
structure ScoredRow where
  score : ℚ
  base : ℚ
  row : MemoryRow
  deriving DecidableEq

structure RecallPick where
  score : ℚ
  id : ℕ
  text : String
  sourceRole : String
  deriving DecidableEq

def minTurnSlots : ℕ := 2

def experienceSourceRoles : List String :=
  ["summarize_experience", "auto_summarize_experience", "explicit"]

def isExperienceSourceRole (sourceRole : String) : Bool := experienceSourceRoles.contains sourceRole

def ScoredRow.isExperience (r : ScoredRow) : Bool := isExperienceSourceRole r.row.sourceRole

def ScoredRow.isTurn (r : ScoredRow) : Bool := !r.isExperience

/-- Candidates below a share of the highest base score are dropped. -/
def applyRelativeCutoff (scored : List ScoredRow) (ratio : Option ℚ) : List ScoredRow :=
  match ratio with
  | none => scored
  | some ratio =>
    let top1Base := (scored.map ScoredRow.base).foldl max 0
    if top1Base ≤ 0 then scored
    else scored.filter fun r => top1Base * ratio ≤ r.base

def intoPick (r : ScoredRow) : RecallPick := ⟨r.score, r.row.id, r.row.chunkText, r.row.sourceRole⟩

/-- With turn rows among the candidates, two slots are reserved for them. -/
def experienceQuota (topK : ℕ) (turnAuto : List ScoredRow) : ℕ :=
  if turnAuto.isEmpty then topK else max (topK - minTurnSlots) 1

/-- The chosen candidates, before they are turned into picks. -/
def pickRows (topK : ℕ) (scored : List ScoredRow) (prioritizeExperience : Bool)
    (cutoffRatio : Option ℚ) : List ScoredRow :=
  if topK = 0 ∨ scored.isEmpty then []
  else
    let scored := applyRelativeCutoff (TopK.rank ScoredRow.score scored) cutoffRatio
    if !prioritizeExperience then scored.take topK
    else
      let experience := scored.filter ScoredRow.isExperience
      let turnAuto := scored.filter ScoredRow.isTurn
      let out := experience.take (experienceQuota topK turnAuto)
      if out.length < topK then out ++ turnAuto.take (topK - out.length) else out

def pickRecallChunks (topK : ℕ) (_query : String) (scored : List ScoredRow)
    (prioritizeExperience : Bool) (cutoffRatio : Option ℚ) : List RecallPick :=
  (pickRows topK scored prioritizeExperience cutoffRatio).map intoPick

section Cutoff

variable {scored scored' : List ScoredRow} {ratio : Option ℚ}

theorem foldl_max_perm {xs ys : List ℚ} (h : xs.Perm ys) (q : ℚ) :
    xs.foldl max q = ys.foldl max q :=
  h.foldl_eq' (fun x _ y _ z => max_right_comm z x y) q

theorem applyRelativeCutoff_perm (h : scored.Perm scored') (ratio : Option ℚ) :
    (applyRelativeCutoff scored ratio).Perm (applyRelativeCutoff scored' ratio) := by
  cases ratio with
  | none => exact h
  | some ratio =>
    have htop := foldl_max_perm (h.map ScoredRow.base) 0
    simp only [applyRelativeCutoff, htop]
    split
    · exact h
    · exact h.filter _

theorem applyRelativeCutoff_sublist (scored : List ScoredRow) (ratio : Option ℚ) :
    (applyRelativeCutoff scored ratio).Sublist scored := by
  cases ratio with
  | none => exact List.Sublist.refl _
  | some ratio =>
    simp only [applyRelativeCutoff]
    split
    · exact List.Sublist.refl _
    · exact filter_sublist

end Cutoff

section Picks

variable {topK : ℕ} {scored : List ScoredRow} {ratio : Option ℚ}

/-- The candidates that survive the cutoff, the highest score first. -/
def ranked (scored : List ScoredRow) (ratio : Option ℚ) : List ScoredRow :=
  applyRelativeCutoff (TopK.rank ScoredRow.score scored) ratio

theorem ranked_perm (scored : List ScoredRow) (ratio : Option ℚ) :
    (ranked scored ratio).Perm (applyRelativeCutoff scored ratio) :=
  applyRelativeCutoff_perm (TopK.rank_perm _ _) ratio

theorem ranked_descending (scored : List ScoredRow) (ratio : Option ℚ) :
    TopK.Descending ScoredRow.score (ranked scored ratio) :=
  (TopK.rank_descending _ _).sublist (applyRelativeCutoff_sublist _ _)

def experienceOf (scored : List ScoredRow) (ratio : Option ℚ) : List ScoredRow :=
  (applyRelativeCutoff scored ratio).filter ScoredRow.isExperience

def turnsOf (scored : List ScoredRow) (ratio : Option ℚ) : List ScoredRow :=
  (applyRelativeCutoff scored ratio).filter ScoredRow.isTurn

/-- What recall promises of the candidates it chooses. -/
structure UsesBudget (topK : ℕ) (scored : List ScoredRow) (prioritizeExperience : Bool)
    (ratio : Option ℚ) (picked : List ScoredRow) : Prop where
  count : picked.length = min topK (applyRelativeCutoff scored ratio).length
  survivors : picked.Subperm (applyRelativeCutoff scored ratio)
  distinct : (picked.map fun r => r.row.id).Nodup
  best : prioritizeExperience = false →
    TopK.Best ScoredRow.score topK (applyRelativeCutoff scored ratio) picked
  bestExperience : prioritizeExperience = true →
    TopK.Best ScoredRow.score (picked.filter ScoredRow.isExperience).length
      (experienceOf scored ratio) (picked.filter ScoredRow.isExperience)
  bestTurns : prioritizeExperience = true →
    TopK.Best ScoredRow.score (picked.filter ScoredRow.isTurn).length
      (turnsOf scored ratio) (picked.filter ScoredRow.isTurn)
  turns : prioritizeExperience = true → 3 ≤ topK →
    min 2 (turnsOf scored ratio).length ≤ (picked.filter ScoredRow.isTurn).length

/-- The experience rows and then the turn rows, from the front of each. -/
def shares (topK : ℕ) (scored : List ScoredRow) (ratio : Option ℚ) : List ScoredRow :=
  let experience := (ranked scored ratio).filter ScoredRow.isExperience
  let turnAuto := (ranked scored ratio).filter ScoredRow.isTurn
  let out := experience.take (experienceQuota topK turnAuto)
  out ++ turnAuto.take (topK - out.length)

theorem pickRows_true (h : ¬ (topK = 0 ∨ scored.isEmpty = true)) :
    pickRows topK scored true ratio = shares topK scored ratio := by
  rw [pickRows, if_neg h]
  simp only [Bool.not_true, Bool.false_eq_true, if_false, shares, ranked]
  split
  · rfl
  · next hfull =>
    rw [Nat.sub_eq_zero_of_le (Nat.le_of_not_lt hfull), take_zero, append_nil]

theorem pickRows_false :
    pickRows topK scored false ratio = (ranked scored ratio).take topK := by
  rw [pickRows]
  split
  · next h =>
    rcases h with rfl | h
    · rfl
    · obtain rfl := List.isEmpty_iff.mp h
      have hnil : ranked [] ratio = [] := sublist_nil.mp (applyRelativeCutoff_sublist [] ratio)
      rw [hnil, take_nil]
  · rfl

theorem filter_take_append (l : List ScoredRow) (p : ScoredRow → Bool) (a b : ℕ) :
    ((l.filter p).take a ++ (l.filter fun r => !p r).take b).filter p = (l.filter p).take a ∧
      ((l.filter p).take a ++ (l.filter fun r => !p r).take b).filter (fun r => !p r) =
        (l.filter fun r => !p r).take b := by
  have hp : ∀ r ∈ (l.filter p).take a, p r = true := fun r hr =>
    (mem_filter.mp (mem_of_mem_take hr)).2
  have hn : ∀ r ∈ (l.filter fun r => !p r).take b, p r = false := fun r hr => by
    simpa using (mem_filter.mp (mem_of_mem_take hr)).2
  have hpn : ((l.filter fun r => !p r).take b).filter p = [] :=
    filter_eq_nil_iff.mpr fun r hr => by simp [hn r hr]
  have hnp : ((l.filter p).take a).filter (fun r => !p r) = [] :=
    filter_eq_nil_iff.mpr fun r hr => by simp [hp r hr]
  have hnn : ((l.filter fun r => !p r).take b).filter (fun r => !p r) =
      (l.filter fun r => !p r).take b :=
    filter_eq_self.mpr fun r hr => by simp [hn r hr]
  rw [filter_append, filter_append, filter_eq_self.mpr hp, hpn, hnp, hnn]
  exact ⟨append_nil _, nil_append _⟩

theorem length_ranked_filter (p : ScoredRow → Bool) :
    ((ranked scored ratio).filter p).length =
      ((applyRelativeCutoff scored ratio).filter p).length :=
  ((ranked_perm scored ratio).filter p).length_eq

theorem length_survivors :
    (applyRelativeCutoff scored ratio).length =
      (experienceOf scored ratio).length + (turnsOf scored ratio).length :=
  length_eq_length_filter_add _

theorem shares_subperm : (shares topK scored ratio).Subperm (applyRelativeCutoff scored ratio) := by
  have hsub : (shares topK scored ratio).Sublist
      ((ranked scored ratio).filter ScoredRow.isExperience ++
        (ranked scored ratio).filter fun r => !r.isExperience) :=
    (take_sublist _ _).append (take_sublist _ _)
  exact hsub.subperm.trans ((filter_append_perm _ _).trans (ranked_perm _ _)).subperm

theorem best_filter_take (p : ScoredRow → Bool) (a : ℕ) :
    TopK.Best ScoredRow.score (((ranked scored ratio).filter p).take a).length
      ((applyRelativeCutoff scored ratio).filter p) (((ranked scored ratio).filter p).take a) := by
  have hbest := (((ranked_descending scored ratio).filter p).best_take a).congr
    ((ranked_perm scored ratio).filter p)
  refine ⟨hbest.rest, ?_, hbest.descending⟩
  have := hbest.length
  omega

theorem experienceQuota_ranked :
    experienceQuota topK ((ranked scored ratio).filter ScoredRow.isTurn) =
      if (turnsOf scored ratio).length = 0 then topK else max (topK - 2) 1 := by
  rw [turnsOf, ← length_ranked_filter]
  simp only [experienceQuota, List.isEmpty_iff, length_eq_zero_iff, minTurnSlots]

/-- The number of candidates that are chosen, from the numbers of the two kinds. -/
theorem length_shares :
    (shares topK scored ratio).length =
      min (if (turnsOf scored ratio).length = 0 then topK else max (topK - 2) 1)
          (experienceOf scored ratio).length +
        min (topK - min (if (turnsOf scored ratio).length = 0 then topK else max (topK - 2) 1)
          (experienceOf scored ratio).length) (turnsOf scored ratio).length := by
  simp only [shares, length_append, length_take, length_ranked_filter,
    experienceQuota_ranked]
  rfl

theorem distinct_of_subperm {picked : List ScoredRow}
    (h : (scored.map fun r => r.row.id).Nodup)
    (hsub : picked.Subperm (applyRelativeCutoff scored ratio)) :
    (picked.map fun r => r.row.id).Nodup := by
  obtain ⟨l, hl, hsub⟩ := hsub
  have hsub : (l.map fun r => r.row.id).Sublist (scored.map fun r => r.row.id) :=
    (hsub.trans (applyRelativeCutoff_sublist _ _)).map _
  exact (hl.map _).nodup_iff.mp (hsub.nodup h)

theorem shares_usesBudget_iff (h : (scored.map fun r => r.row.id).Nodup) :
    UsesBudget topK scored true ratio (shares topK scored ratio) ↔
      (shares topK scored ratio).length = min topK (applyRelativeCutoff scored ratio).length := by
  refine ⟨fun hall => hall.count, fun hcount => ?_⟩
  obtain ⟨hexperience, hturns⟩ := filter_take_append (ranked scored ratio) ScoredRow.isExperience
    (experienceQuota topK ((ranked scored ratio).filter ScoredRow.isTurn))
    (topK - (((ranked scored ratio).filter ScoredRow.isExperience).take
      (experienceQuota topK ((ranked scored ratio).filter ScoredRow.isTurn))).length)
  have hexperience : (shares topK scored ratio).filter ScoredRow.isExperience =
      ((ranked scored ratio).filter ScoredRow.isExperience).take
        (experienceQuota topK ((ranked scored ratio).filter ScoredRow.isTurn)) := hexperience
  have hturns : (shares topK scored ratio).filter ScoredRow.isTurn =
      ((ranked scored ratio).filter ScoredRow.isTurn).take (topK -
        (((ranked scored ratio).filter ScoredRow.isExperience).take
          (experienceQuota topK ((ranked scored ratio).filter ScoredRow.isTurn))).length) := hturns
  refine ⟨hcount, shares_subperm, distinct_of_subperm h shares_subperm, nofun, fun _ => ?_,
    fun _ => ?_, fun _ htop => ?_⟩
  · rw [hexperience]
    exact best_filter_take _ _
  · rw [hturns]
    exact best_filter_take _ _
  · have hmin : ((shares topK scored ratio).filter ScoredRow.isTurn).length =
        min (topK - min (if (turnsOf scored ratio).length = 0 then topK else max (topK - 2) 1)
          (experienceOf scored ratio).length) (turnsOf scored ratio).length := by
      rw [hturns, length_take, length_take, length_ranked_filter, length_ranked_filter,
        experienceQuota_ranked]
      rfl
    rw [hmin]
    split <;> omega

theorem usesBudget_nil (prioritizeExperience : Bool)
    (h : min topK (applyRelativeCutoff scored ratio).length = 0) :
    UsesBudget topK scored prioritizeExperience ratio [] where
  count := h.symm
  survivors := nil_subperm
  distinct := nodup_nil
  best := fun _ => ⟨⟨_, List.Perm.refl _, nofun⟩, h.symm, List.Pairwise.nil⟩
  bestExperience := fun _ => ⟨⟨_, List.Perm.refl _, nofun⟩, (Nat.zero_min _).symm, List.Pairwise.nil⟩
  bestTurns := fun _ => ⟨⟨_, List.Perm.refl _, nofun⟩, (Nat.zero_min _).symm, List.Pairwise.nil⟩
  turns := fun _ htop => by
    rw [length_survivors] at h
    show min 2 _ ≤ 0
    omega

theorem take_usesBudget (h : (scored.map fun r => r.row.id).Nodup) :
    UsesBudget topK scored false ratio ((ranked scored ratio).take topK) where
  count := by rw [length_take, (ranked_perm scored ratio).length_eq]
  survivors := (take_sublist _ _).subperm.trans (ranked_perm scored ratio).subperm
  distinct := distinct_of_subperm h
    ((take_sublist _ _).subperm.trans (ranked_perm scored ratio).subperm)
  best := fun _ => ((ranked_descending scored ratio).best_take topK).congr (ranked_perm _ _)
  bestExperience := nofun
  bestTurns := nofun
  turns := nofun

/-- Recall uses its budget and its quotas unless it keeps a slot free for a second turn row that
is not there, while an experience row waits for it. -/
theorem pick_recall_uses_budget_iff (topK : ℕ) (query : String) (scored : List ScoredRow)
    (prioritizeExperience : Bool) (cutoffRatio : Option ℚ)
    (h : (scored.map fun r => r.row.id).Nodup) :
    (∃ picked, pickRecallChunks topK query scored prioritizeExperience cutoffRatio =
        picked.map intoPick ∧
      UsesBudget topK scored prioritizeExperience cutoffRatio picked) ↔
      ¬ (prioritizeExperience = true ∧ 3 ≤ topK ∧ (turnsOf scored cutoffRatio).length = 1 ∧
        topK ≤ (experienceOf scored cutoffRatio).length + 1) := by
  cases prioritizeExperience with
  | false =>
    refine iff_of_true ⟨_, rfl, ?_⟩ (fun hbad => Bool.false_ne_true hbad.1)
    rw [pickRows_false]
    exact take_usesBudget h
  | true =>
    by_cases hnone : topK = 0 ∨ scored.isEmpty = true
    · have hzero : min topK (applyRelativeCutoff scored cutoffRatio).length = 0 := by
        rcases hnone with rfl | hempty
        · exact Nat.zero_min _
        · have hlen : scored.length = 0 := length_eq_zero_iff.mpr (List.isEmpty_iff.mp hempty)
          have hle := (applyRelativeCutoff_sublist scored cutoffRatio).length_le
          omega
      refine iff_of_true ⟨[], ?_, usesBudget_nil true hzero⟩ ?_
      · rw [pickRecallChunks, pickRows, if_pos hnone]
      · rw [length_survivors] at hzero
        omega
    · rw [pickRecallChunks, pickRows_true hnone]
      have hcount : (shares topK scored cutoffRatio).length = _ := length_shares
      constructor
      · rintro ⟨picked, hmap, hpicked⟩ ⟨-, htop, hone, hmany⟩
        have hlen := congrArg List.length hmap
        rw [List.length_map, List.length_map, hpicked.count, length_survivors, hcount, hone] at hlen
        rw [if_neg one_ne_zero] at hlen
        omega
      · intro hgood
        refine ⟨_, rfl, (shares_usesBudget_iff h).mpr ?_⟩
        have hgood : ¬ (3 ≤ topK ∧ (turnsOf scored cutoffRatio).length = 1 ∧
            topK ≤ (experienceOf scored cutoffRatio).length + 1) := fun hbad => hgood ⟨rfl, hbad⟩
        rw [hcount, length_survivors]
        clear hcount
        split_ifs <;> omega

end Picks

section Samples

def candidate (id : ℕ) (sourceRole : String) (score : ℚ) : ScoredRow :=
  ⟨score, score, ⟨id, "text", sourceRole, 0, none, "[]", none⟩⟩

/-- Three experience rows and two turn rows. -/
def twoTurnRows : List ScoredRow :=
  [candidate 1 "explicit" (9 / 10), candidate 2 "explicit" (8 / 10), candidate 3 "user" (7 / 10),
    candidate 4 "explicit" (6 / 10), candidate 5 "assistant" (5 / 10)]

theorem pick_recall_uses_budget_twoTurnRows :
    ∃ picked, pickRecallChunks 3 "q" twoTurnRows true (some (11 / 20)) = picked.map intoPick ∧
      UsesBudget 3 twoTurnRows true (some (11 / 20)) picked :=
  (pick_recall_uses_budget_iff 3 "q" twoTurnRows true (some (11 / 20)) (by decide)).mpr
    (by decide +kernel)

/-- The same without the second turn row. -/
def oneTurnRow : List ScoredRow :=
  [candidate 1 "explicit" (9 / 10), candidate 2 "explicit" (8 / 10), candidate 3 "user" (7 / 10),
    candidate 4 "explicit" (6 / 10)]

/-- Two rows are returned although three were asked for and four are there. -/
theorem one_turn_row_leaves_slot_free :
    ¬ ∀ (topK : ℕ) (query : String) (scored : List ScoredRow) (prioritizeExperience : Bool)
      (cutoffRatio : Option ℚ), (scored.map fun r => r.row.id).Nodup →
      ∃ picked, pickRecallChunks topK query scored prioritizeExperience cutoffRatio =
          picked.map intoPick ∧
        UsesBudget topK scored prioritizeExperience cutoffRatio picked := by
  intro h
  obtain ⟨picked, hmap, hpicked⟩ := h 3 "q" oneTurnRow true none (by decide)
  have htwo : (pickRecallChunks 3 "q" oneTurnRow true none).length = 2 := by decide +kernel
  have hthree : picked.length = 3 := hpicked.count
  rw [hmap, List.length_map, hthree] at htwo
  exact absurd htwo (by decide)

end Samples
end CrabMate.Memory
