import CrabMate.Index.Rebuild
import CrabMate.Lib.Run
import Mathlib.Data.Set.Function

/-! What a rebuild leaves in the index, against a full rebuild into an empty one. The scan is put
into a closed form over the files it does not pass over; the invariant of a run says that the
catalog speaks for the chunk rows: a file row carries the digest of a text whose chunks are the
rows under its key. -/
namespace CrabMate
open List
namespace CodebaseIndex

open RustStr

namespace Index

def deleteRels (idx : Index) (ws : Str) (rels : List Str) : Index :=
  idx.deleteWhere fun k => k.1 = ws && rels.contains k.2

theorem deleteRels_nil (idx : Index) (ws : Str) : idx.deleteRels ws [] = idx := by
  have hall : ∀ {R : Type} (rows : List R) (key : R → RowKey),
      (rows.filter fun row => !((key row).1 = ws && ([] : List Str).contains (key row).2)) =
        rows := by
    intro R rows key
    rw [filter_eq_self]
    intro row _
    simp
  obtain ⟨chunks, files⟩ := idx
  unfold deleteRels deleteWhere
  congr 1
  · exact hall chunks ChunkRow.key
  · exact Table.ext (hall files.rows FileRow.key)

theorem deleteRels_deleteRels (idx : Index) (ws : Str) (first second : List Str) :
    (idx.deleteRels ws first).deleteRels ws second = idx.deleteRels ws (first ++ second) := by
  have hboth : ∀ {R : Type} (rows : List R) (key : R → RowKey),
      ((rows.filter fun row => !((key row).1 = ws && first.contains (key row).2)).filter
        fun row => !((key row).1 = ws && second.contains (key row).2)) =
      rows.filter fun row => !((key row).1 = ws && (first ++ second).contains (key row).2) := by
    intro R rows key
    rw [filter_filter]
    refine filter_congr fun row _ => ?_
    by_cases hws : (key row).1 = ws
    · simp [hws, mem_append, Bool.and_comm]
    · simp [hws]
  obtain ⟨chunks, files⟩ := idx
  unfold deleteRels deleteWhere
  congr 1
  · exact hboth chunks ChunkRow.key
  · exact Table.ext (hboth files.rows FileRow.key)

theorem deleteRels_self_self (idx : Index) (ws rel : Str) :
    idx.deleteRels ws [rel, rel] = idx.deleteRels ws [rel] := by
  unfold deleteRels
  congr 1
  funext k
  simp

theorem deleteRowsForRel_eq (idx : Index) (ws rel : Str) :
    deleteRowsForRel ws rel idx = idx.deleteRels ws [rel] := by
  unfold deleteRowsForRel deleteRels
  congr 1
  funext k
  obtain ⟨kws, krel⟩ := k
  simp [Bool.decide_and]

theorem foldl_deleteRowsForRel (ws : Str) (rels : List Str) (idx : Index) :
    rels.foldl (fun idx rel => deleteRowsForRel ws rel idx) idx = idx.deleteRels ws rels := by
  induction rels generalizing idx with
  | nil => exact (deleteRels_nil idx ws).symm
  | cons rel rels ih =>
    rw [foldl_cons, ih, deleteRowsForRel_eq, deleteRels_deleteRels]
    rfl

theorem chunksAt_deleteRels (idx : Index) (ws : Str) (rels : List Str) (r : Str) :
    (idx.deleteRels ws rels).chunksAt (ws, r) = if r ∈ rels then [] else idx.chunksAt (ws, r) := by
  rw [deleteRels, chunksAt_deleteWhere]
  simp

theorem fileAt_deleteRels (idx : Index) (ws : Str) (rels : List Str) (r : Str) :
    (idx.deleteRels ws rels).fileAt (ws, r) = if r ∈ rels then none else idx.fileAt (ws, r) := by
  rw [deleteRels, fileAt_deleteWhere]
  simp

theorem rowsAt_deleteRels_of_ne (idx : Index) {ws : Str} (rels : List Str) {k : RowKey}
    (hk : k.1 ≠ ws) :
    (idx.deleteRels ws rels).chunksAt k = idx.chunksAt k ∧
      (idx.deleteRels ws rels).fileAt k = idx.fileAt k := by
  rw [deleteRels, chunksAt_deleteWhere, fileAt_deleteWhere]
  simp [hk]

end Index

/-- A file that passes the checks of the scan loop, under its key. -/
abbrev Entry := Str × WalkedFile

def entries (cfg : RebuildConfig) (fileGlobPat : Option (Str → Bool)) (files : List WalkedFile) :
    List Entry :=
  files.filterMap fun file => (scanRebuildEntry cfg fileGlobPat file).map fun rel => (rel, file)

/-- What a scan into an empty index collects for a file. -/
def freshBatches (cfg : RebuildConfig) (e : Entry) : List EmbedBatchRow :=
  match fileFingerprint cfg e.2 with
  | none => []
  | some fp => scanRebuildCollectFileChunks cfg e.1 fp.text

def freshFileRow (cfg : RebuildConfig) (e : Entry) : Option FileRow :=
  match fileFingerprint cfg e.2 with
  | none => none
  | some fp =>
    if (scanRebuildCollectFileChunks cfg e.1 fp.text).isEmpty then none
    else some ⟨cfg.wsKey, e.1, fp.size, fp.mtimeNs, fp.shaHex⟩

/-- The scan leaves the file as the catalog has it. -/
def skips (p : ScanParams) (e : Entry) : Bool :=
  match fileFingerprint p.cfg e.2 with
  | none => false
  | some fp => scanRebuildIncrementalUnchanged p e.1 fp

def drops (p : ScanParams) (e : Entry) : Bool := p.tracks && !skips p e

/-- The effect of the scan of the given files, as long as the limit on files is not reached. -/
structure Scanned (p : ScanParams) (es : List Entry) (st st' : ScanState) : Prop where
  index : st'.index = st.index.deleteRels p.cfg.wsKey ((es.filter (drops p)).map Prod.fst)
  embedBatches : st'.embedBatches =
    st.embedBatches ++ (es.filter fun e => !skips p e).flatMap (freshBatches p.cfg)
  fileRows : st'.fileRows =
    st.fileRows ++ (es.filter fun e => !skips p e).filterMap (freshFileRow p.cfg)
  seenRels : st'.seenRels = st.seenRels ++ es.map Prod.fst
  filesIndexed : st'.filesIndexed ≤ st.filesIndexed + es.length

theorem Scanned.refl (p : ScanParams) (st : ScanState) : Scanned p [] st st where
  index := (Index.deleteRels_nil _ _).symm
  embedBatches := (append_nil _).symm
  fileRows := (append_nil _).symm
  seenRels := (append_nil _).symm
  filesIndexed := le_refl _

theorem Scanned.trans {p : ScanParams} {es es' : List Entry} {st st' st'' : ScanState}
    (h : Scanned p es st st') (h' : Scanned p es' st' st'') : Scanned p (es ++ es') st st'' where
  index := by
    rw [h'.index, h.index, Index.deleteRels_deleteRels, filter_append, map_append]
  embedBatches := by
    rw [h'.embedBatches, h.embedBatches, filter_append, flatMap_append,
      append_assoc]
  fileRows := by
    rw [h'.fileRows, h.fileRows, filter_append, filterMap_append, append_assoc]
  seenRels := by rw [h'.seenRels, h.seenRels, map_append, append_assoc]
  filesIndexed := by
    have hfirst := h.filesIndexed
    have hsecond := h'.filesIndexed
    rw [length_append]
    omega

theorem index_dropTracked (p : ScanParams) (rel : Str) (st : ScanState) :
    (st.dropTracked p rel).index =
      st.index.deleteRels p.cfg.wsKey (if p.tracks then [rel] else []) := by
  unfold ScanState.dropTracked
  by_cases ht : p.tracks = true
  · rw [if_pos ht, if_pos ht, ← Index.deleteRowsForRel_eq]
  · rw [if_neg ht, if_neg ht, Index.deleteRels_nil]

section Frame

variable (p : ScanParams) (rel : Str) (st : ScanState)

@[simp] theorem embedBatches_dropTracked :
    (st.dropTracked p rel).embedBatches = st.embedBatches := by
  unfold ScanState.dropTracked
  split <;> rfl

@[simp] theorem fileRows_dropTracked : (st.dropTracked p rel).fileRows = st.fileRows := by
  unfold ScanState.dropTracked
  split <;> rfl

@[simp] theorem seenRels_dropTracked : (st.dropTracked p rel).seenRels = st.seenRels := by
  unfold ScanState.dropTracked
  split <;> rfl

@[simp] theorem filesIndexed_dropTracked :
    (st.dropTracked p rel).filesIndexed = st.filesIndexed := by
  unfold ScanState.dropTracked
  split <;> rfl

end Frame

theorem deleteRels_tracked_twice (p : ScanParams) (rel : Str) (idx : Index) :
    (idx.deleteRels p.cfg.wsKey (if p.tracks then [rel] else [])).deleteRels p.cfg.wsKey
        (if p.tracks then [rel] else []) =
      idx.deleteRels p.cfg.wsKey (if p.tracks then [rel] else []) := by
  rw [Index.deleteRels_deleteRels]
  by_cases ht : p.tracks = true
  · rw [if_pos ht]
    exact Index.deleteRels_self_self idx p.cfg.wsKey rel
  · rw [if_neg ht]
    rfl

/-- A file that is not passed over loses its rows when the scan tracks files, and is collected. -/
theorem Scanned.of_not_skips {p : ScanParams} {file : WalkedFile} {rel : Str} {st st' : ScanState}
    (hskips : skips p (rel, file) = false)
    (hindex : st'.index = st.index.deleteRels p.cfg.wsKey (if p.tracks then [rel] else []))
    (hbatches : st'.embedBatches = st.embedBatches ++ freshBatches p.cfg (rel, file))
    (hrows : st'.fileRows = st.fileRows ++ (freshFileRow p.cfg (rel, file)).toList)
    (hseen : st'.seenRels = st.seenRels ++ [rel])
    (hcount : st'.filesIndexed ≤ st.filesIndexed + 1) : Scanned p [(rel, file)] st st' where
  index := by
    rw [hindex]
    congr 1
    by_cases ht : p.tracks = true
    · simp [drops, hskips, ht]
    · simp [drops, ht]
  embedBatches := by simp [hbatches, hskips]
  fileRows := by
    rw [hrows, filter_cons_of_pos (by simp [hskips]), filterMap_cons]
    cases freshFileRow p.cfg (rel, file) <;> rfl
  seenRels := hseen
  filesIndexed := hcount

theorem scanned_processOneFile (p : ScanParams) (file : WalkedFile) (rel : Str) (st : ScanState)
    (hmax : st.filesIndexed < p.cfg.rebuildMaxFiles) :
    Scanned p [(rel, file)] st
      (scanRebuildProcessOneFile p file rel { st with seenRels := st.seenRels ++ [rel] }) := by
  unfold scanRebuildProcessOneFile
  cases hfp : fileFingerprint p.cfg file with
  | none =>
    refine Scanned.of_not_skips (by simp [skips, hfp]) ?_ ?_ ?_ ?_ ?_
    · exact index_dropTracked p rel _
    · simp [scanRebuildHandleMissingFingerprint, freshBatches, hfp]
    · simp [scanRebuildHandleMissingFingerprint, freshFileRow, hfp]
    · simp [scanRebuildHandleMissingFingerprint]
    · simp [scanRebuildHandleMissingFingerprint]
  | some fp =>
    dsimp only
    by_cases hun : scanRebuildIncrementalUnchanged p rel fp = true
    · have hskips : skips p (rel, file) = true := by simp [skips, hfp, hun]
      rw [if_pos hun]
      constructor
      · simp [drops, hskips, Index.deleteRels_nil]
      · simp [hskips]
      · simp [hskips]
      · rfl
      · simp
    · have hskips : skips p (rel, file) = false := by simpa [skips, hfp] using hun
      rw [if_neg hun, if_neg (by simpa using hmax)]
      unfold scanRebuildFinalizeChunksOutcome
      cases hc : scanRebuildCollectFileChunks p.cfg rel fp.text with
      | nil =>
        rw [if_neg (by simp)]
        refine Scanned.of_not_skips hskips ?_ ?_ ?_ ?_ ?_
        · dsimp only
          rw [index_dropTracked, index_dropTracked, deleteRels_tracked_twice]
        · simp [freshBatches, hfp, hc]
        · simp [freshFileRow, hfp, hc]
        · simp
        · simp
      | cons chunk chunks =>
        rw [if_pos (by simp)]
        refine Scanned.of_not_skips hskips ?_ ?_ ?_ ?_ ?_
        · exact index_dropTracked p rel _
        · simp [freshBatches, hfp, hc]
        · simp [freshFileRow, hfp, hc]
        · simp
        · simp

theorem entries_cons (cfg : RebuildConfig) (fileGlobPat : Option (Str → Bool)) (file : WalkedFile)
    (files : List WalkedFile) :
    entries cfg fileGlobPat (file :: files) =
      ((scanRebuildEntry cfg fileGlobPat file).map fun rel => (rel, file)).toList ++
        entries cfg fileGlobPat files := by
  unfold entries
  rw [filterMap_cons]
  cases scanRebuildEntry cfg fileGlobPat file <;> rfl

theorem scanned_foldl (p : ScanParams) (files : List WalkedFile) (st : ScanState)
    (hmax : st.filesIndexed + (entries p.cfg p.fileGlobPat files).length ≤ p.cfg.rebuildMaxFiles) :
    Scanned p (entries p.cfg p.fileGlobPat files) st (files.foldl (scanRebuildStep p) st) := by
  induction files generalizing st with
  | nil => exact Scanned.refl p st
  | cons file files ih =>
    rw [entries_cons, length_append] at hmax
    rw [entries_cons, foldl_cons]
    unfold scanRebuildStep
    cases hentry : scanRebuildEntry p.cfg p.fileGlobPat file with
    | none =>
      rw [hentry] at hmax
      exact ih st (by simpa using hmax)
    | some rel =>
      rw [hentry] at hmax
      have hone : 1 + (entries p.cfg p.fileGlobPat files).length + st.filesIndexed ≤
          p.cfg.rebuildMaxFiles := by
        simp only [Option.map_some, Option.toList_some, length_singleton] at hmax
        omega
      have hfirst := scanned_processOneFile p file rel st (by omega)
      have hcount := hfirst.filesIndexed
      rw [length_singleton] at hcount
      exact hfirst.trans (ih _ (by omega))

theorem rel_of_mem_freshBatches {cfg : RebuildConfig} {e : Entry} {b : EmbedBatchRow}
    (h : b ∈ freshBatches cfg e) : b.rel = e.1 := by
  unfold freshBatches at h
  cases hfp : fileFingerprint cfg e.2 with
  | none =>
    rw [hfp] at h
    cases h
  | some fp =>
    rw [hfp] at h
    obtain ⟨chunk, -, rfl⟩ := mem_map.mp h
    rfl

theorem key_of_freshFileRow {cfg : RebuildConfig} {e : Entry} {row : FileRow}
    (h : freshFileRow cfg e = some row) : row.key = (cfg.wsKey, e.1) := by
  unfold freshFileRow at h
  cases hfp : fileFingerprint cfg e.2 with
  | none => simp [hfp] at h
  | some fp =>
    simp only [hfp] at h
    split at h
    · cases h
    · cases h
      rfl

/-- The files under a key. -/
def entriesAt (es : List Entry) (r : Str) : List Entry := es.filter fun e => e.1 = r

/-- The chunk rows that a scan into an empty index writes under a key. -/
def freshChunksAt (cfg : RebuildConfig) (es : List Entry) (r : Str) : List ChunkRow :=
  ((entriesAt es r).flatMap (freshBatches cfg)).map (EmbedBatchRow.row cfg.wsKey)

theorem filter_freshBatches (cfg : RebuildConfig) (es : List Entry) (r : Str) :
    ((es.flatMap (freshBatches cfg)).map (EmbedBatchRow.row cfg.wsKey)).filter
        (fun row => row.key = (cfg.wsKey, r)) = freshChunksAt cfg es r := by
  unfold freshChunksAt entriesAt
  induction es with
  | nil => rfl
  | cons e es ih =>
    have hkey : ∀ row ∈ (freshBatches cfg e).map (EmbedBatchRow.row cfg.wsKey),
        row.key = (cfg.wsKey, e.1) := by
      intro row hrow
      obtain ⟨b, hb, rfl⟩ := mem_map.mp hrow
      rw [← rel_of_mem_freshBatches hb]
      rfl
    rw [flatMap_cons, map_append, filter_append, ih]
    by_cases hr : e.1 = r
    · rw [filter_cons_of_pos (by simpa using hr), flatMap_cons, map_append,
        filter_eq_self.mpr fun row hrow => by simp [hkey row hrow, hr]]
    · rw [filter_cons_of_neg (by simpa using hr),
        filter_eq_nil_iff.mpr fun row hrow => by simp [hkey row hrow, hr], nil_append]

theorem filter_freshFileRows (cfg : RebuildConfig) (es : List Entry) (r : Str) :
    (es.filterMap (freshFileRow cfg)).filter (fun row => row.key = (cfg.wsKey, r)) =
      (entriesAt es r).filterMap (freshFileRow cfg) := by
  unfold entriesAt
  rw [filter_filterMap, filterMap_filter]
  congr 1
  funext e
  cases hrow : freshFileRow cfg e with
  | none => simp
  | some row =>
    have hkey := key_of_freshFileRow hrow
    by_cases hr : e.1 = r
    · simp [Option.filter, hkey, hr]
    · simp [Option.filter, hkey, hr]

/-- The parameters of the scan that a call starts on a cleared index. -/
def scanParams (cfg : RebuildConfig) (call : RebuildCall) (subtree : Bool) (idx : Index) :
    ScanParams :=
  ⟨cfg, call.fileGlobPat, call.incremental, subtree,
    loadIncrementalCatalog cfg call.incremental subtree idx⟩

/-- The keys whose rows the scan and the removal of stale rows delete. -/
def removedRels (p : ScanParams) (es : List Entry) : List Str :=
  (es.filter (drops p)).map Prod.fst ++
    if p.tracks then (p.catalog.map FileRow.relPath).filter fun rel => !(es.map Prod.fst).contains rel
    else []

theorem removeStaleCatalogRows_eq (p : ScanParams) (seenRels : List Str) (idx : Index) :
    removeStaleCatalogRows p seenRels idx =
      idx.deleteRels p.cfg.wsKey
        (if p.tracks then (p.catalog.map FileRow.relPath).filter fun rel => !seenRels.contains rel
          else []) := by
  unfold removeStaleCatalogRows ScanParams.tracks
  cases p.incremental with
  | false => exact (Index.deleteRels_nil _ _).symm
  | true =>
    cases p.subtree with
    | true => exact (Index.deleteRels_nil _ _).symm
    | false => exact Index.foldl_deleteRowsForRel _ _ _

section Write

variable {cfg : RebuildConfig} {call : RebuildCall} {files : List WalkedFile} {subtree : Bool}
  {idx : Index} {p : ScanParams} {es : List Entry}

/-- The index that a scan leaves: deletions key by key, then the collected rows. -/
theorem rebuildIndexWriteScan_eq (hp : p = scanParams cfg call subtree idx)
    (hes : es = entries cfg call.fileGlobPat files) (hmax : es.length ≤ cfg.rebuildMaxFiles) :
    (rebuildIndexWriteScan cfg call files subtree idx).1 =
      (idx.deleteRels cfg.wsKey (removedRels p es)).insertRows
        (((es.filter fun e => !skips p e).flatMap (freshBatches cfg)).map
          (EmbedBatchRow.row cfg.wsKey))
        ((es.filter fun e => !skips p e).filterMap (freshFileRow cfg)) := by
  have hcfg : p.cfg = cfg := by rw [hp, scanParams]
  have hglob : p.fileGlobPat = call.fileGlobPat := by rw [hp, scanParams]
  have hscan := scanned_foldl p files (.start idx)
    (by simpa [ScanState.start, hcfg, hglob, ← hes] using hmax)
  rw [hcfg, hglob, ← hes] at hscan
  show (removeStaleCatalogRows (scanParams cfg call subtree idx)
    (files.foldl (scanRebuildStep (scanParams cfg call subtree idx)) (.start idx)).seenRels
    (files.foldl (scanRebuildStep (scanParams cfg call subtree idx)) (.start idx)).index).insertRows
    _ _ = _
  rw [← hp, removeStaleCatalogRows_eq, hscan.index, hscan.seenRels, hcfg,
    Index.deleteRels_deleteRels]
  congr 1
  · show ((files.foldl (scanRebuildStep (scanParams cfg call subtree idx))
      (.start idx)).embedBatches).map _ = _
    rw [← hp, hscan.embedBatches, hcfg]
    rfl
  · show (files.foldl (scanRebuildStep (scanParams cfg call subtree idx)) (.start idx)).fileRows = _
    rw [← hp, hscan.fileRows, hcfg]
    rfl

theorem chunksAt_rebuildIndexWriteScan (hp : p = scanParams cfg call subtree idx)
    (hes : es = entries cfg call.fileGlobPat files) (hmax : es.length ≤ cfg.rebuildMaxFiles)
    (r : Str) :
    (rebuildIndexWriteScan cfg call files subtree idx).1.chunksAt (cfg.wsKey, r) =
      (if r ∈ removedRels p es then [] else idx.chunksAt (cfg.wsKey, r)) ++
        freshChunksAt cfg (es.filter fun e => !skips p e) r := by
  rw [rebuildIndexWriteScan_eq hp hes hmax, Index.chunksAt_insertRows, Index.chunksAt_deleteRels,
    filter_freshBatches]

theorem fileAt_rebuildIndexWriteScan (hp : p = scanParams cfg call subtree idx)
    (hes : es = entries cfg call.fileGlobPat files) (hmax : es.length ≤ cfg.rebuildMaxFiles)
    (r : Str) :
    (rebuildIndexWriteScan cfg call files subtree idx).1.fileAt (cfg.wsKey, r) =
      ((entriesAt (es.filter fun e => !skips p e) r).filterMap (freshFileRow cfg)).getLast?.or
        (if r ∈ removedRels p es then none else idx.fileAt (cfg.wsKey, r)) := by
  rw [rebuildIndexWriteScan_eq hp hes hmax, Index.fileAt_insertRows, Index.fileAt_deleteRels,
    filter_freshFileRows]

variable (subtree idx) in
theorem rowsAt_rebuildIndexWriteScan_of_ne (hmax : (entries cfg call.fileGlobPat files).length ≤
    cfg.rebuildMaxFiles) {k : RowKey} (hk : k.1 ≠ cfg.wsKey) :
    (rebuildIndexWriteScan cfg call files subtree idx).1.chunksAt k = idx.chunksAt k ∧
      (rebuildIndexWriteScan cfg call files subtree idx).1.fileAt k = idx.fileAt k := by
  have hkept := Index.rowsAt_deleteRels_of_ne idx (removedRels (scanParams cfg call subtree idx)
    (entries cfg call.fileGlobPat files)) hk
  rw [rebuildIndexWriteScan_eq rfl rfl hmax, Index.chunksAt_insertRows, Index.fileAt_insertRows,
    hkept.1, hkept.2]
  have hchunks : ∀ bs : List EmbedBatchRow,
      (bs.map (EmbedBatchRow.row cfg.wsKey)).filter (fun row => row.key = k) = [] := by
    intro bs
    rw [filter_eq_nil_iff]
    intro row hrow hkey
    obtain ⟨b, -, rfl⟩ := mem_map.mp hrow
    exact hk (congrArg Prod.fst (of_decide_eq_true hkey)).symm
  have hfiles : ∀ es : List Entry,
      (es.filterMap (freshFileRow cfg)).filter (fun row => row.key = k) = [] := by
    intro es
    rw [filter_eq_nil_iff]
    intro row hrow hkey
    obtain ⟨e, -, he⟩ := mem_filterMap.mp hrow
    rw [key_of_freshFileRow he] at hkey
    exact hk (congrArg Prod.fst (of_decide_eq_true hkey)).symm
  constructor
  · rw [hchunks, append_nil]
  · rw [hfiles]
    rfl

end Write

theorem skips_of_not_tracks {p : ScanParams} (h : p.tracks = false) (e : Entry) :
    skips p e = false := by
  unfold skips scanRebuildIncrementalUnchanged
  cases fileFingerprint p.cfg e.2 with
  | none => rfl
  | some fp => simp [h]

theorem removedRels_of_not_tracks {p : ScanParams} (h : p.tracks = false) (es : List Entry) :
    removedRels p es = [] := by
  simp [removedRels, drops, h]

theorem entriesAt_filter (es : List Entry) (q : Entry → Bool) (r : Str) :
    entriesAt (es.filter q) r = (entriesAt es r).filter q := filter_comm _ _ _

theorem entriesAt_cases {es : List Entry} (h : (es.map Prod.fst).Nodup) (r : Str) :
    entriesAt es r = [] ∧ r ∉ es.map Prod.fst ∨
      ∃ file, entriesAt es r = [(r, file)] ∧ (r, file) ∈ es := by
  by_cases hr : r ∈ es.map Prod.fst
  · obtain ⟨⟨rel, file⟩, he, rfl⟩ := mem_map.mp hr
    right
    refine ⟨file, ?_, he⟩
    obtain ⟨before, after, rfl⟩ := append_of_mem he
    rw [map_append, map_cons, nodup_middle, nodup_cons] at h
    have hne : ∀ l : List Entry, (∀ e ∈ l, e ∈ before ++ after) →
        l.filter (fun e => e.1 = rel) = [] := by
      intro l hl
      rw [filter_eq_nil_iff]
      intro e hel hrel
      apply h.1
      rw [← map_append]
      exact mem_map.mpr ⟨e, hl e hel, of_decide_eq_true hrel⟩
    unfold entriesAt
    rw [filter_append, filter_cons_of_pos (by simp),
      hne before fun e hel => mem_append_left _ hel,
      hne after fun e hel => mem_append_right _ hel]
    rfl
  · left
    refine ⟨?_, hr⟩
    unfold entriesAt
    rw [filter_eq_nil_iff]
    intro e he hrel
    exact hr (mem_map.mpr ⟨e, he, of_decide_eq_true hrel⟩)

theorem shaHex_of_fileFingerprint {cfg : RebuildConfig} {file : WalkedFile} {fp : Fingerprint}
    (h : fileFingerprint cfg file = some fp) : fp.shaHex = cfg.sha256 fp.text := by
  unfold fileFingerprint at h
  split at h
  · cases h
  · split at h
    · cases h
    · obtain ⟨text, -, rfl⟩ := Option.map_eq_some_iff.mp h
      rfl

section Sync

variable (cfg : RebuildConfig) (texts : Set Str)

/-- The catalog speaks for the rows under a key. -/
def InSyncAt (idx : Index) (r : Str) : Prop :=
  match idx.fileAt (cfg.wsKey, r) with
  | none => idx.chunksAt (cfg.wsKey, r) = []
  | some row => ∃ text ∈ texts, row.contentSha256 = cfg.sha256 text ∧
      idx.chunksAt (cfg.wsKey, r) =
        (scanRebuildCollectFileChunks cfg r text).map (EmbedBatchRow.row cfg.wsKey)

def InSync (idx : Index) : Prop := ∀ r, InSyncAt cfg texts idx r

/-- What a call owes the key of a file of its scope, when `es` are the files of the tree. -/
structure Settled (es : List Entry) (idx : Index) (r : Str) : Prop where
  chunks : idx.chunksAt (cfg.wsKey, r) = freshChunksAt cfg es r
  sync : InSyncAt cfg texts idx r
  gone : r ∉ es.map Prod.fst → idx.fileAt (cfg.wsKey, r) = none

variable {cfg texts}

theorem InSyncAt.congr {idx idx' : Index} {r : Str} (h : InSyncAt cfg texts idx r)
    (hc : idx'.chunksAt (cfg.wsKey, r) = idx.chunksAt (cfg.wsKey, r))
    (hf : idx'.fileAt (cfg.wsKey, r) = idx.fileAt (cfg.wsKey, r)) : InSyncAt cfg texts idx' r := by
  unfold InSyncAt
  rw [hc, hf]
  exact h

/-- A key whose rows are just those of a fresh scan is settled. -/
theorem Settled.of_fresh {es : List Entry} {idx : Index} {r : Str}
    (hnodup : (es.map Prod.fst).Nodup)
    (htexts : ∀ e ∈ es, ∀ fp ∈ fileFingerprint cfg e.2, fp.text ∈ texts)
    (hc : idx.chunksAt (cfg.wsKey, r) = freshChunksAt cfg es r)
    (hf : idx.fileAt (cfg.wsKey, r) =
      ((entriesAt es r).filterMap (freshFileRow cfg)).getLast?) : Settled cfg texts es idx r := by
  unfold freshChunksAt at hc
  obtain ⟨hnone, hgone⟩ | ⟨file, hone, hmem⟩ := entriesAt_cases hnodup r
  · rw [hnone] at hc hf
    refine ⟨by rw [hc, freshChunksAt, hnone], ?_, fun _ => hf⟩
    unfold InSyncAt
    rw [hf]
    exact hc
  · rw [hone] at hc hf
    refine ⟨by rw [hc, freshChunksAt, hone], ?_, fun hr => absurd (mem_map_of_mem hmem) hr⟩
    rw [filterMap_cons, filterMap_nil] at hf
    rw [flatMap_cons, flatMap_nil, append_nil] at hc
    unfold freshBatches at hc
    unfold freshFileRow at hf
    unfold InSyncAt
    cases hfp : fileFingerprint cfg file with
    | none =>
      simp only [hfp] at hc hf
      rw [hf, getLast?_nil]
      exact hc
    | some fp =>
      simp only [hfp] at hc hf
      by_cases hempty : (scanRebuildCollectFileChunks cfg r fp.text).isEmpty = true
      · rw [if_pos hempty] at hf
        rw [hf, getLast?_nil]
        rw [hc, List.isEmpty_iff.mp hempty]
        rfl
      · rw [if_neg hempty] at hf
        rw [hf, getLast?_singleton]
        exact ⟨fp.text, htexts _ hmem fp hfp, shaHex_of_fileFingerprint hfp, hc⟩

theorem find?_catalog (cfg : RebuildConfig) (idx : Index) (r : Str) :
    (loadIncrementalCatalog cfg true false idx).find? (fun row => row.relPath = r) =
      idx.fileAt (cfg.wsKey, r) := by
  show (idx.files.rows.filter _).find? _ = idx.files.rows.find? _
  rw [find?_filter]
  congr 1
  funext row
  simp [FileRow.key, Prod.ext_iff, Bool.decide_and]

theorem mem_catalog_rels {cfg : RebuildConfig} {idx : Index} {r : Str} {row : FileRow}
    (h : idx.fileAt (cfg.wsKey, r) = some row) :
    r ∈ (loadIncrementalCatalog cfg true false idx).map FileRow.relPath := by
  rw [← find?_catalog] at h
  exact mem_map.mpr
    ⟨row, mem_of_find?_eq_some h, by simpa using find?_some h⟩

section Step

variable {call : RebuildCall} {files : List WalkedFile} {subtree : Bool} {idx : Index} {r : Str}

/-- Without the catalog: a key that was cleared holds the rows of a fresh scan. -/
theorem settled_of_cleared {es : List Entry} (ht : (call.incremental && !subtree) = false)
    (hmax : (entries cfg call.fileGlobPat files).length ≤ cfg.rebuildMaxFiles)
    (hnodup : (es.map Prod.fst).Nodup)
    (htexts : ∀ e ∈ es, ∀ fp ∈ fileFingerprint cfg e.2, fp.text ∈ texts)
    (hes : entriesAt (entries cfg call.fileGlobPat files) r = entriesAt es r)
    (hc : idx.chunksAt (cfg.wsKey, r) = []) (hf : idx.fileAt (cfg.wsKey, r) = none) :
    Settled cfg texts es (rebuildIndexWriteScan cfg call files subtree idx).1 r := by
  have htracks : (scanParams cfg call subtree idx).tracks = false := ht
  have hall : ∀ es : List Entry, (es.filter fun e => !skips (scanParams cfg call subtree idx) e) =
      es := by
    intro es
    rw [filter_eq_self]
    intro e _
    simp [skips_of_not_tracks htracks e]
  refine Settled.of_fresh hnodup htexts ?_ ?_
  · rw [chunksAt_rebuildIndexWriteScan rfl rfl hmax, removedRels_of_not_tracks htracks, hall,
      if_neg (by simp), hc, nil_append, freshChunksAt, freshChunksAt, hes]
  · rw [fileAt_rebuildIndexWriteScan rfl rfl hmax, removedRels_of_not_tracks htracks, hall,
      if_neg (by simp), hf, hes, Option.or_none]

variable (idx) in
/-- Without the catalog: a key without a walked file keeps its rows. -/
theorem rowsAt_of_unwalked (ht : (call.incremental && !subtree) = false)
    (hmax : (entries cfg call.fileGlobPat files).length ≤ cfg.rebuildMaxFiles)
    (hes : entriesAt (entries cfg call.fileGlobPat files) r = []) :
    (rebuildIndexWriteScan cfg call files subtree idx).1.chunksAt (cfg.wsKey, r) =
        idx.chunksAt (cfg.wsKey, r) ∧
      (rebuildIndexWriteScan cfg call files subtree idx).1.fileAt (cfg.wsKey, r) =
        idx.fileAt (cfg.wsKey, r) := by
  have htracks : (scanParams cfg call subtree idx).tracks = false := ht
  rw [chunksAt_rebuildIndexWriteScan rfl rfl hmax, fileAt_rebuildIndexWriteScan rfl rfl hmax,
    removedRels_of_not_tracks htracks, freshChunksAt, entriesAt_filter, hes]
  simp

theorem not_mem_removedRels {p : ScanParams} {es : List Entry} {file : WalkedFile}
    (hone : entriesAt es r = [(r, file)]) (hmem : (r, file) ∈ es)
    (hskip : skips p (r, file) = true) : r ∉ removedRels p es := by
  intro hin
  rcases mem_append.mp hin with hdrop | hstale
  · obtain ⟨e, he, rfl⟩ := mem_map.mp hdrop
    obtain ⟨hees, hdrops⟩ := mem_filter.mp he
    have hat : e ∈ entriesAt es e.1 := mem_filter.mpr ⟨hees, by simp⟩
    rw [hone, mem_singleton] at hat
    rw [hat] at hdrops
    simp [drops, hskip] at hdrops
  · split at hstale
    · have hout := (mem_filter.mp hstale).2
      simp only [contains_eq_mem, Bool.not_eq_true', decide_eq_false_iff_not] at hout
      exact hout (mem_map_of_mem hmem)
    · cases hstale

/-- A file that is passed over has, by its digest, the text whose chunks are stored. -/
theorem settled_of_skips {p : ScanParams} {es : List Entry} {file : WalkedFile} {idx' : Index}
    (hcfg : p.cfg = cfg) (hcat : p.catalog = loadIncrementalCatalog cfg true false idx)
    (hsha : Set.InjOn cfg.sha256 texts) (hone : entriesAt es r = [(r, file)])
    (htexts : ∀ fp ∈ fileFingerprint cfg file, fp.text ∈ texts)
    (hskip : skips p (r, file) = true) (hsync : InSyncAt cfg texts idx r)
    (hc : idx'.chunksAt (cfg.wsKey, r) = idx.chunksAt (cfg.wsKey, r))
    (hf : idx'.fileAt (cfg.wsKey, r) = idx.fileAt (cfg.wsKey, r)) :
    Settled cfg texts es idx' r := by
  have hmem : r ∈ es.map Prod.fst := by
    have he : (r, file) ∈ entriesAt es r := by
      rw [hone]
      exact mem_singleton_self _
    exact mem_map.mpr ⟨_, (mem_filter.mp he).1, rfl⟩
  refine ⟨?_, hsync.congr hc hf, fun hr => absurd hmem hr⟩
  cases hfp : fileFingerprint cfg file with
  | none => simp [skips, hcfg, hfp] at hskip
  | some fp =>
    rw [skips, hcfg, hfp] at hskip
    unfold scanRebuildIncrementalUnchanged at hskip
    rw [hcat, find?_catalog, Bool.and_eq_true] at hskip
    unfold InSyncAt at hsync
    cases hrow : idx.fileAt (cfg.wsKey, r) with
    | none => simp [hrow] at hskip
    | some row =>
      simp only [hrow] at hskip hsync
      obtain ⟨text, htext, hdigest, hrows⟩ := hsync
      have hsame : row.contentSha256 = fp.shaHex := by
        simp only [Bool.and_eq_true, beq_iff_eq] at hskip
        exact hskip.2.2.2
      have hinj : text = fp.text := by
        apply hsha htext (htexts fp hfp)
        rw [← hdigest, hsame, shaHex_of_fileFingerprint hfp]
      rw [hc, hrows, hinj, freshChunksAt, hone]
      simp [freshBatches, hfp]

/-- With the catalog: every key ends up with the rows of a fresh scan, whether its file was passed
over, collected anew, or is no longer there. -/
theorem settled_of_tracked (hinc : call.incremental = true) (hsub : subtree = false)
    (hsha : Set.InjOn cfg.sha256 texts) (hsync : InSync cfg texts idx)
    {es : List Entry} (hes : es = entries cfg call.fileGlobPat files)
    (hmax : es.length ≤ cfg.rebuildMaxFiles) (hnodup : (es.map Prod.fst).Nodup)
    (htexts : ∀ e ∈ es, ∀ fp ∈ fileFingerprint cfg e.2, fp.text ∈ texts) (r : Str) :
    Settled cfg texts es (rebuildIndexWriteScan cfg call files subtree idx).1 r := by
  obtain ⟨p, hp⟩ : ∃ p, p = scanParams cfg call subtree idx := ⟨_, rfl⟩
  have hcfg : p.cfg = cfg := by rw [hp, scanParams]
  have htracks : p.tracks = true := by simp [hp, scanParams, ScanParams.tracks, hinc, hsub]
  have hcat : p.catalog = loadIncrementalCatalog cfg true false idx := by
    rw [hp, scanParams, hinc, hsub]
  have hchunks := chunksAt_rebuildIndexWriteScan hp hes hmax r
  have hfile := fileAt_rebuildIndexWriteScan hp hes hmax r
  rw [freshChunksAt, entriesAt_filter] at hchunks
  rw [entriesAt_filter] at hfile
  obtain ⟨hnone, hgone⟩ | ⟨file, hone, hmem⟩ := entriesAt_cases hnodup r
  · -- no file: the rows went with the catalog row, or there were none
    have hcleared : (if r ∈ removedRels p es then [] else idx.chunksAt (cfg.wsKey, r)) = [] ∧
        (if r ∈ removedRels p es then none else idx.fileAt (cfg.wsKey, r)) = none := by
      cases hrow : idx.fileAt (cfg.wsKey, r) with
      | none =>
        have hr := hsync r
        unfold InSyncAt at hr
        rw [hrow] at hr
        simp only [hr, ite_self, and_self]
      | some row =>
        have hin : r ∈ removedRels p es := by
          unfold removedRels
          rw [if_pos htracks, hcat]
          exact mem_append_right _ (mem_filter.mpr
            ⟨mem_catalog_rels hrow, by simpa using hgone⟩)
        simp only [if_pos hin, and_self]
    rw [hnone, hcleared.1] at hchunks
    rw [hnone, hcleared.2] at hfile
    refine Settled.of_fresh hnodup htexts ?_ ?_
    · rw [hchunks, freshChunksAt, hnone]
      rfl
    · rw [hfile, hnone]
      rfl
  · cases hskip : skips p (r, file) with
    | true =>
      rw [if_neg (not_mem_removedRels hone hmem hskip), hone] at hchunks hfile
      exact settled_of_skips hcfg hcat hsha hone (htexts _ hmem) hskip (hsync r)
        (by simpa [hskip] using hchunks) (by simpa [hskip] using hfile)
    | false =>
      have hin : r ∈ removedRels p es := by
        refine mem_append_left _ (mem_map.mpr ⟨(r, file), ?_, rfl⟩)
        exact mem_filter.mpr ⟨hmem, by simp [drops, htracks, hskip]⟩
      rw [if_pos hin, hone] at hchunks hfile
      refine Settled.of_fresh hnodup htexts ?_ ?_
      · rw [hchunks, freshChunksAt, hone]
        simp [hskip]
      · rw [hfile, hone]
        simp [hskip]

end Step

end Sync

end CodebaseIndex
end CrabMate
