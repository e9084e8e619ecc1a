import CrabMate.Index.Chunks
import CrabMate.Lib.OrdMap
import CrabMate.Lib.TopK
import Mathlib.Tactic.Positivity
import Mathlib.Tactic.Linarith

/-! Ranking of search results: the BM25 ranks of the full-text hits, their normalised scores, and
the branches of the search that sort by them. Floating-point numbers are read as rationals. -/
namespace CrabMate
open List Option
namespace CodebaseIndex

open RustStr

inductive RetrieveMode where
  | hybrid
  | semanticOnly
  | ftsOnly
  deriving DecidableEq

structure SearchQueryParams where
  topK : ℕ
  mode : RetrieveMode
  ftsTopN : ℕ
  hybridAlpha : ℚ
  /-- `clamp(0.0, 1.0)`. -/
  alpha_mem : 0 ≤ hybridAlpha ∧ hybridAlpha ≤ 1

structure ScoredChunk where
  id : ℤ
  score : ℚ
  cosine : ℚ
  fts : ℚ
  rel : Str
  sl : ℤ
  el : ℤ
  text : Str
  deriving DecidableEq

/-- The id of a chunk and its BM25 rank: the smaller, the better. -/
abbrev Hit := ℤ × ℚ

def f64Epsilon : ℚ := 1 / 2 ^ 52

def clamp01 (t : ℚ) : ℚ := max 0 (min t 1)

/-- The scores by ascending ids. -/
def normScoresBm25 (scores : List Hit) : List (ℤ × ℚ) :=
  match (scores.map Prod.snd).min?, (scores.map Prod.snd).max? with
  | some minV, some maxV =>
    let span := maxV - minV
    if |span| < f64Epsilon then OrdMap.insertAll (scores.map fun h => (h.1, 1 / 2)) []
    else OrdMap.insertAll (scores.map fun h => (h.1, clamp01 ((h.2 - minV) / span))) []
  | _, _ => []

/-- The columns of a chunk that the result shows. -/
structure ChunkColumns where
  rel : Str
  sl : ℤ
  el : ℤ
  text : Str
  deriving DecidableEq

/-- What the branch returns: one of two messages, or the listing of the chunks. -/
inductive FtsOutput where
  | noHits
  | noRows
  | listing (scored : List ScoredChunk)
  deriving DecidableEq

def FtsOutput.chunks : FtsOutput → List ScoredChunk
  | .noHits | .noRows => []
  | .listing scored => scored

def ftsScored (rowOf : ℤ → Option ChunkColumns) (ftsById : List (ℤ × ℚ)) : List ScoredChunk :=
  (ftsById.map Prod.fst).filterMap fun id =>
    let ftsN := (OrdMap.get id ftsById).getD 0
    (rowOf id).map fun row =>
      ⟨id, ftsN, 0, ftsN, row.rel, row.sl, row.el, row.text⟩

def searchIndexFtsOnlyBranch (rowOf : ℤ → Option ChunkColumns) (ftsById : List (ℤ × ℚ))
    (q : SearchQueryParams) : FtsOutput :=
  if ftsById.isEmpty then .noHits
  else
    let scored := (TopK.rank ScoredChunk.score (ftsScored rowOf ftsById)).take q.topK
    if scored.isEmpty then .noRows else .listing scored

structure SemanticChunkRow where
  id : ℤ
  row : ChunkColumns
  blob : List UInt8

/-- `cosineSim` reads a stored embedding and compares it with that of the query. -/
def semanticFastembedScoredChunk (cosineSim : List UInt8 → Option ℚ) (row : SemanticChunkRow)
    (q : SearchQueryParams) (ftsById : List (ℤ × ℚ)) : ScoredChunk :=
  let cosine := (cosineSim row.blob).getD 0
  let ftsN := (OrdMap.get row.id ftsById).getD 0
  let (score, ftsForRow) :=
    if q.mode = .semanticOnly then (cosine, 0)
    else (q.hybridAlpha * cosine + (1 - q.hybridAlpha) * ftsN, ftsN)
  ⟨row.id, score, cosine, ftsForRow, row.row.rel, row.row.sl, row.row.el, row.row.text⟩

section Scores

variable {hits : List Hit}

/-- The difference of the worst and the best rank. -/
def rankSpan (hits : List Hit) : ℚ :=
  ((hits.map Prod.snd).max?.getD 0) - ((hits.map Prod.snd).min?.getD 0)

theorem exists_extremes (hne : hits ≠ []) :
    ∃ best ∈ hits, ∃ worst ∈ hits, (hits.map Prod.snd).min? = some best.2 ∧
      (hits.map Prod.snd).max? = some worst.2 ∧ ∀ h ∈ hits, best.2 ≤ h.2 ∧ h.2 ≤ worst.2 := by
  have hmap : hits.map Prod.snd ≠ [] := fun h => hne (map_eq_nil_iff.mp h)
  obtain ⟨lo, hlo⟩ := ne_none_iff_exists'.mp fun h => hmap (min?_eq_none_iff.mp h)
  obtain ⟨hi, hhi⟩ := ne_none_iff_exists'.mp fun h => hmap (max?_eq_none_iff.mp h)
  obtain ⟨hlomem, hlole⟩ := min?_eq_some_iff.mp hlo
  obtain ⟨hhimem, hhile⟩ := max?_eq_some_iff.mp hhi
  obtain ⟨best, hbest, rfl⟩ := List.mem_map.mp hlomem
  obtain ⟨worst, hworst, rfl⟩ := List.mem_map.mp hhimem
  exact ⟨best, hbest, worst, hworst, hlo, hhi, fun h hh =>
    ⟨hlole _ (List.mem_map_of_mem hh), hhile _ (List.mem_map_of_mem hh)⟩⟩

/-- The score of a hit with the given rank. -/
def scoreOf (hits : List Hit) (rank : ℚ) : ℚ :=
  if |rankSpan hits| < f64Epsilon then 1 / 2
  else clamp01 ((rank - (hits.map Prod.snd).min?.getD 0) / rankSpan hits)

theorem normScoresBm25_eq (hits : List Hit) :
    normScoresBm25 hits = OrdMap.insertAll (hits.map fun h => (h.1, scoreOf hits h.2)) [] := by
  by_cases hne : hits = []
  · rw [hne]
    rfl
  · obtain ⟨best, -, worst, -, hlo, hhi, -⟩ := exists_extremes hne
    simp only [normScoresBm25, scoreOf, rankSpan, hlo, hhi, getD_some]
    split <;> rfl

theorem get_normScoresBm25 (hnodup : (hits.map Prod.fst).Nodup) {h : Hit} (hh : h ∈ hits) :
    OrdMap.get h.1 (normScoresBm25 hits) = some (scoreOf hits h.2) := by
  have hmem : (h.1, scoreOf hits h.2) ∈ hits.map fun h => (h.1, scoreOf hits h.2) :=
    List.mem_map.mpr ⟨h, hh, rfl⟩
  have hkeys : ((hits.map fun h => (h.1, scoreOf hits h.2)).map Prod.fst).Nodup := by
    rwa [List.map_map]
  rw [normScoresBm25_eq]
  exact OrdMap.get_insertAll_of_mem hkeys hmem []

theorem ascending_normScoresBm25 (hits : List Hit) : OrdMap.Ascending (normScoresBm25 hits) := by
  have hnil : OrdMap.Ascending ([] : List (ℤ × ℚ)) := List.Pairwise.nil
  rw [normScoresBm25_eq]
  exact OrdMap.ascending_insertAll hnil _

theorem keys_normScoresBm25_perm (hnodup : (hits.map Prod.fst).Nodup) :
    ((normScoresBm25 hits).map Prod.fst).Perm (hits.map Prod.fst) := by
  have hkeys : ((normScoresBm25 hits).map Prod.fst).Nodup :=
    (ascending_normScoresBm25 hits).imp fun h => h.ne
  refine (perm_ext_iff_of_nodup hkeys hnodup).mpr fun id => ?_
  rw [normScoresBm25_eq, OrdMap.mem_keys_insertAll, List.map_map]
  simp [Function.comp_def]

/-- With ranks that differ noticeably the best hit gets the lowest score and the worst hit the
highest. -/
theorem exists_inverted (hspan : ¬ |rankSpan hits| < f64Epsilon) :
    ∃ best ∈ hits, ∃ worst ∈ hits, best.2 < worst.2 ∧ scoreOf hits best.2 = 0 ∧
      scoreOf hits worst.2 = 1 := by
  have hne : hits ≠ [] := by
    rintro rfl
    exact hspan (by decide +kernel)
  obtain ⟨best, hbest, worst, hworst, hlo, hhi, hall⟩ := exists_extremes hne
  have hrank : rankSpan hits = worst.2 - best.2 := by rw [rankSpan, hlo, hhi]; rfl
  have hlt : best.2 < worst.2 := by
    refine lt_of_le_of_ne (hall worst hworst).1 fun heq => hspan ?_
    rw [hrank, heq, sub_self, abs_zero]
    decide +kernel
  have hpos : worst.2 - best.2 ≠ 0 := (sub_pos.mpr hlt).ne'
  refine ⟨best, hbest, worst, hworst, hlt, ?_, ?_⟩
  · rw [scoreOf, if_neg hspan, hlo, getD_some, sub_self, zero_div]
    decide +kernel
  · rw [scoreOf, if_neg hspan, hlo, getD_some, hrank, div_self hpos]
    decide +kernel

theorem scoreOf_of_small (hspan : |rankSpan hits| < f64Epsilon) (rank : ℚ) :
    scoreOf hits rank = 1 / 2 := if_pos hspan

end Scores

section KeepsBest

variable {hits : List Hit} {rowOf : ℤ → Option ChunkColumns}

/-- What the ranking is for. The `k` hits with the smallest ranks are the best ones. -/
structure KeepsBestHits (hits : List Hit) : Prop where
  scores : ∀ a ∈ hits, ∀ b ∈ hits, a.2 < b.2 → ∀ sa sb,
    OrdMap.get a.1 (normScoresBm25 hits) = some sa →
    OrdMap.get b.1 (normScoresBm25 hits) = some sb → sb ≤ sa
  ftsOnly : ∀ (rowOf : ℤ → Option ChunkColumns), (∀ h ∈ hits, (rowOf h.1).isSome) →
    ∀ q : SearchQueryParams, ∃ best, TopK.Best (fun h : Hit => -h.2) q.topK hits best ∧
      ((searchIndexFtsOnlyBranch rowOf (normScoresBm25 hits) q).chunks.map fun c => c.id) =
        best.map Prod.fst
  hybrid : ∀ (cosineSim : List UInt8 → Option ℚ) (q : SearchQueryParams), q.mode = .hybrid →
    ∀ a b : SemanticChunkRow, (cosineSim a.blob).getD 0 = (cosineSim b.blob).getD 0 →
    ∀ ra rb, (a.id, ra) ∈ hits → (b.id, rb) ∈ hits → ra < rb →
      (semanticFastembedScoredChunk cosineSim b q (normScoresBm25 hits)).score ≤
        (semanticFastembedScoredChunk cosineSim a q (normScoresBm25 hits)).score

/-- The ranks do not differ noticeably, and what order they have is that of the ids. -/
structure RankedById (hits : List Hit) : Prop where
  span : |rankSpan hits| < f64Epsilon
  byId : ∀ a ∈ hits, ∀ b ∈ hits, a.1 < b.1 → a.2 ≤ b.2

instance (hits : List Hit) : Decidable (RankedById hits) :=
  decidable_of_iff (|rankSpan hits| < f64Epsilon ∧ ∀ a ∈ hits, ∀ b ∈ hits, a.1 < b.1 → a.2 ≤ b.2)
    ⟨fun h => ⟨h.1, h.2⟩, fun h => ⟨h.1, h.2⟩⟩

/-- With a row for every hit, the branch lists the hits. -/
theorem ids_ftsScored (hnodup : (hits.map Prod.fst).Nodup)
    (hrows : ∀ h ∈ hits, (rowOf h.1).isSome) :
    ((ftsScored rowOf (normScoresBm25 hits)).map fun c => c.id) =
      (normScoresBm25 hits).map Prod.fst := by
  have hkeys : ∀ id ∈ (normScoresBm25 hits).map Prod.fst, (rowOf id).isSome := by
    intro id hid
    obtain ⟨h, hh, rfl⟩ := List.mem_map.mp ((keys_normScoresBm25_perm hnodup).mem_iff.mp hid)
    exact hrows h hh
  rw [ftsScored]
  generalize (normScoresBm25 hits).map Prod.fst = ids at hkeys
  induction ids with
  | nil => rfl
  | cons id ids ih =>
    obtain ⟨row, hrow⟩ := isSome_iff_exists.mp (hkeys id mem_cons_self)
    rw [filterMap_cons, hrow]
    exact congrArg (id :: ·) (ih fun i hi => hkeys i (mem_cons_of_mem _ hi))

theorem chunks_searchIndexFtsOnlyBranch (rowOf : ℤ → Option ChunkColumns)
    (ftsById : List (ℤ × ℚ)) (q : SearchQueryParams) :
    (searchIndexFtsOnlyBranch rowOf ftsById q).chunks =
      (TopK.rank ScoredChunk.score (ftsScored rowOf ftsById)).take q.topK := by
  unfold searchIndexFtsOnlyBranch
  split
  · next h =>
    rw [List.isEmpty_iff.mp h]
    simp [ftsScored, FtsOutput.chunks, TopK.rank]
  · simp only
    split
    · next h => exact (List.isEmpty_iff.mp h).symm
    · rfl

/-- With one score for all hits the branch lists them by their ids. -/
theorem ids_searchIndexFtsOnlyBranch (hnodup : (hits.map Prod.fst).Nodup)
    (hspan : |rankSpan hits| < f64Epsilon) (hrows : ∀ h ∈ hits, (rowOf h.1).isSome)
    (q : SearchQueryParams) :
    ((searchIndexFtsOnlyBranch rowOf (normScoresBm25 hits) q).chunks.map fun c => c.id) =
      ((normScoresBm25 hits).map Prod.fst).take q.topK := by
  have hscore : ∀ c ∈ ftsScored rowOf (normScoresBm25 hits), c.score = 1 / 2 := by
    intro c hc
    obtain ⟨id, hid, hc⟩ := mem_filterMap.mp hc
    obtain ⟨row, -, rfl⟩ := map_eq_some_iff.mp hc
    obtain ⟨h, hh, rfl⟩ := List.mem_map.mp ((keys_normScoresBm25_perm hnodup).mem_iff.mp hid)
    rw [get_normScoresBm25 hnodup hh, scoreOf_of_small hspan]
    rfl
  have hflat : TopK.Descending ScoredChunk.score (ftsScored rowOf (normScoresBm25 hits)) :=
    pairwise_of_forall_mem_list fun a ha b hb => by rw [hscore a ha, hscore b hb]
  rw [chunks_searchIndexFtsOnlyBranch, TopK.rank_eq_self hflat, map_take,
    ids_ftsScored hnodup hrows]

theorem exists_byId (hnodup : (hits.map Prod.fst).Nodup) :
    ∃ sorted : List Hit, sorted.Perm hits ∧
      sorted.map Prod.fst = (normScoresBm25 hits).map Prod.fst := by
  have hperm := TopK.rank_perm (fun h : Hit => -h.1) hits
  refine ⟨TopK.rank (fun h : Hit => -h.1) hits, hperm, ?_⟩
  have hdesc : (TopK.rank (fun h : Hit => -h.1) hits).Pairwise fun a b => -b.1 ≤ -a.1 :=
    TopK.rank_descending _ _
  have hids : ((TopK.rank (fun h : Hit => -h.1) hits).map Prod.fst).Pairwise (· ≤ ·) :=
    pairwise_map.mpr (hdesc.imp fun h => neg_le_neg_iff.mp h)
  have hkeys : ((normScoresBm25 hits).map Prod.fst).Pairwise (· ≤ ·) :=
    (ascending_normScoresBm25 hits).imp fun h => h.le
  exact ((hperm.map _).trans (keys_normScoresBm25_perm hnodup).symm).eq_of_pairwise' hids hkeys

theorem keepsBestHits_of_rankedById (hnodup : (hits.map Prod.fst).Nodup) (h : RankedById hits) :
    KeepsBestHits hits where
  scores := by
    intro a ha b hb _ sa sb hsa hsb
    rw [get_normScoresBm25 hnodup ha, scoreOf_of_small h.span] at hsa
    rw [get_normScoresBm25 hnodup hb, scoreOf_of_small h.span] at hsb
    rw [← Option.some.inj hsa, ← Option.some.inj hsb]
  ftsOnly := by
    intro rowOf hrows q
    obtain ⟨sorted, hperm, hkeys⟩ := exists_byId hnodup
    have hids : sorted.Pairwise fun a b => a.1 < b.1 := by
      have hasc := ascending_normScoresBm25 hits
      rw [OrdMap.Ascending, ← hkeys] at hasc
      exact pairwise_map.mp hasc
    have hdesc : TopK.Descending (fun h : Hit => -h.2) sorted :=
      hids.imp_of_mem fun ha hb hlt =>
        neg_le_neg (h.byId _ (hperm.mem_iff.mp ha) _ (hperm.mem_iff.mp hb) hlt)
    refine ⟨sorted.take q.topK, (hdesc.best_take q.topK).congr hperm, ?_⟩
    rw [ids_searchIndexFtsOnlyBranch hnodup h.span hrows, map_take, hkeys]
  hybrid := by
    intro cosineSim q hmode a b hcos ra rb hra hrb _
    have ha := get_normScoresBm25 hnodup hra
    have hb := get_normScoresBm25 hnodup hrb
    rw [scoreOf_of_small h.span] at ha hb
    simp only [semanticFastembedScoredChunk, hmode, reduceCtorEq, if_false, hcos]
    rw [show OrdMap.get a.id _ = _ from ha, show OrdMap.get b.id _ = _ from hb]

theorem rankedById_of_keepsBestHits (hnodup : (hits.map Prod.fst).Nodup) (h : KeepsBestHits hits) :
    RankedById hits := by
  have hspan : |rankSpan hits| < f64Epsilon := by
    by_contra hspan
    obtain ⟨best, hbest, worst, hworst, hlt, hzero, hone⟩ := exists_inverted hspan
    have hle := h.scores best hbest worst hworst hlt _ _ (get_normScoresBm25 hnodup hbest)
      (get_normScoresBm25 hnodup hworst)
    rw [hzero, hone] at hle
    exact absurd hle (by decide +kernel)
  refine ⟨hspan, ?_⟩
  let row : ChunkColumns := ⟨[], 0, 0, []⟩
  obtain ⟨best, hbest, hids⟩ := h.ftsOnly (fun _ => some row) (fun _ _ => rfl)
    ⟨hits.length, .ftsOnly, hits.length, 0, by decide +kernel⟩
  have hall : ∀ a ∈ hits, a ∈ best := by
    obtain ⟨others, hperm, -⟩ := hbest.rest
    have hlength : best.length = hits.length := hbest.length.trans (Nat.min_self _)
    have hnil : others = [] := by
      have hsum := hperm.length_eq
      rw [length_append, hlength] at hsum
      exact length_eq_zero_iff.mp (by omega)
    intro a ha
    simpa [hnil] using hperm.mem_iff.mpr ha
  have hkeys : ((normScoresBm25 hits).map Prod.fst).length ≤ hits.length := by
    rw [(keys_normScoresBm25_perm hnodup).length_eq, List.length_map]
  rw [ids_searchIndexFtsOnlyBranch hnodup hspan (fun _ _ => rfl), take_of_length_le hkeys]
    at hids
  have hasc : best.Pairwise fun a b => a.1 < b.1 := by
    have hasc := ascending_normScoresBm25 hits
    rw [OrdMap.Ascending, hids] at hasc
    exact pairwise_map.mp hasc
  -- the listing ascends by id and by rank
  have hdesc : best.Pairwise fun a b => -b.2 ≤ -a.2 := hbest.descending
  have hforth : best.Pairwise fun a b => a.1 < b.1 → a.2 ≤ b.2 :=
    hdesc.imp fun {a b} hle (_ : a.1 < b.1) => neg_le_neg_iff.mp hle
  have hback : best.Pairwise (flip fun a b => a.1 < b.1 → a.2 ≤ b.2) :=
    hasc.imp fun hlt hgt => absurd hlt (lt_asymm hgt)
  have hself : ∀ a ∈ best, a.1 < a.1 → a.2 ≤ a.2 := fun _ _ _ => le_refl _
  exact fun a ha b hb =>
    List.Pairwise.forall_of_forall_of_flip hself hforth hback (hall a ha) (hall b hb)

/-- The ranking keeps the best hits exactly if it has nothing to rank: the ranks do not differ
noticeably, and the hits are listed by their ids instead. -/
theorem keepsBestHits_iff (hits : List Hit) (hnodup : (hits.map Prod.fst).Nodup) :
    KeepsBestHits hits ↔ RankedById hits :=
  ⟨rankedById_of_keepsBestHits hnodup, keepsBestHits_of_rankedById hnodup⟩

theorem keepsBestHits_equalRanks : KeepsBestHits [(3, -3 / 2), (7, -3 / 2)] :=
  (keepsBestHits_iff [(3, -3 / 2), (7, -3 / 2)] (by decide)).mpr (by decide +kernel)

/-- Of two hits the better one is listed last, and dropped when one is asked for. -/
theorem better_hit_ranks_lower :
    ¬ ∀ hits : List Hit, (hits.map Prod.fst).Nodup → KeepsBestHits hits := by
  intro h
  have hle := (h [(3, -2), (7, -1)] (by decide)).scores (3, -2) (by decide +kernel) (7, -1)
    (by decide +kernel) (by decide +kernel) 0 1 (by decide +kernel) (by decide +kernel)
  exact absurd hle (by decide +kernel)

end KeepsBest

end CodebaseIndex
end CrabMate
