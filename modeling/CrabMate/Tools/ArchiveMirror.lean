import CrabMate.Tools.ArchivePack

/-! Unpacking entries that carry the paths of what they hold: the output directory becomes a mirror
of these paths of the workspace. -/
namespace CrabMate.ArchivePack
open RustStr LexPath DirTree List

section Names

variable {w : Workspace} {p q : List Str}

theorem Workspace.isName_of_mem (h : (w.tree.node (p ++ q)).isSome) {name : Str}
    (hname : name ∈ q) : IsName name := by
  obtain ⟨a, b, rfl⟩ := append_of_mem hname
  have hprefix : (w.tree.node ((p ++ a ++ [name]) ++ b)).isSome := by simpa using h
  exact w.isName _ _ (Tree.isSome_of_append hprefix)

theorem component_isName {name : Str} (h : IsName name) : component name = some (.normal name) := by
  unfold component
  rw [if_neg (not_or.mpr ⟨h.ne_nil, h.ne_dot⟩), if_neg h.ne_dots]

theorem components_joinNames (hq : q ≠ []) (hnames : ∀ name ∈ q, IsName name) :
    components (joinNames q) = q.map .normal := by
  have hsplit : (joinNames q).splitOn '/' = q :=
    splitOn_intercalate '/' (fun name hname => (hnames name hname).no_slash) hq
  have hstart : startsWith ['/'] (joinNames q) = false := by
    cases hjoin : joinNames q with
    | nil => rfl
    | cons c rest =>
      have hne : c ≠ '/' := by
        rintro rfl
        rw [hjoin, splitOn_cons_eq_if_modifyHead, if_pos (by rfl)] at hsplit
        exact (hnames [] (hsplit ▸ mem_cons_self)).ne_nil rfl
      simp [startsWith, List.isPrefixOf, hne.symm]
  have hhead : q.head? ≠ some ['.'] := fun h => (hnames _ (mem_of_mem_head? h)).ne_dot rfl
  have hbody : q.filterMap component = q.map .normal := by
    rw [← filterMap_eq_map]
    exact filterMap_congr fun name hname => component_isName (hnames name hname)
  unfold components
  simp only [hsplit, hstart, hbody, if_neg hhead, Bool.false_eq_true, if_false]

theorem absolute_append (p q : List Str) :
    join (absolute p) (q.map .normal) = absolute (p ++ q) := by
  have hrel : isAbsolute (q.map Component.normal) = false := by
    cases q with
    | nil => rfl
    | cons name q => rfl
  rw [join, hrel, absolute, absolute, map_append]
  rfl

theorem prefix_of_mem_inits {path : FsPath} (h : path ∈ (absolute p).inits) :
    resolve [] path <+: p := by
  have hprefix := (mem_inits path (absolute p)).mp h
  cases path with
  | nil => exact nil_prefix
  | cons c path =>
    obtain ⟨rfl, hrest⟩ := cons_prefix_cons.mp hprefix
    have htake := prefix_iff_eq_take.mp hrest
    rw [htake, ← map_take]
    show resolve [] (absolute (p.take path.length)) <+: p
    rw [resolve_absolute]
    exact take_prefix _ _

theorem parent_absolute (hp : p ≠ []) : parent (absolute p) = some (absolute p.dropLast) := by
  obtain ⟨p, name, rfl⟩ := eq_nil_or_concat' p |>.resolve_left hp
  have hlast : absolute (p ++ [name]) = absolute p ++ [.normal name] := by simp [absolute]
  rw [hlast, parent, getLast?_concat, dropLast_concat, dropLast_concat]

end Names

section Entries

variable {w : Workspace} {output q : List Str} {e : ArchiveEntry} {d : DirTree.Disk Str Str}

/-- The entry carries the path and holds what stands in the workspace there. -/
structure Stores (w : Workspace) (e : ArchiveEntry) (q : List Str) : Prop where
  path : (components e.name).filter (fun c => c ≠ .curDir) = q.map .normal
  node : w.tree.node (w.root ++ q) = some (if e.isDir then .dir else .file e.content)

theorem entryOutpath_of_path (format : ArchiveFormat) {name : Str}
    (h : (components name).filter (fun c => c ≠ .curDir) = q.map .normal) :
    entryOutpath format name (unpackOptions none []) output =
      if q = [] then none else some (absolute (output ++ q)) := by
  rw [entryOutpath_eq]
  have hrel : entryRel (unpackOptions none []) name =
      if q = [] then none else some (q.map .normal) := by
    show stripArchivePath (components name) 0 = _
    unfold stripArchivePath
    simp only [h, List.length_map, drop_zero, Nat.le_zero, length_eq_zero_iff]
  rw [hrel]
  by_cases hq : q = []
  · rw [if_pos hq, if_pos hq]
    rfl
  · rw [if_neg hq, if_neg hq, Option.map_some, absolute_append]

theorem createDirAll_mirrors {p : List Str} (hm : Mirrors w.tree w.root output d)
    (hway : ∀ r, r <+: p →
      r <+: output ∨ ∃ q, r = output ++ q ∧ w.tree.node (w.root ++ q) = some .dir) :
    ∃ d', treeDisk.createDirAll d (absolute p) = .ok d' ∧ Mirrors w.tree w.root output d' ∧
      Grows d d' ∧ d' p = some .dir := by
  have hways : ∀ r ∈ (absolute p).inits.map (resolve []),
      r <+: output ∨ ∃ q, r = output ++ q ∧ w.tree.node (w.root ++ q) = some .dir := by
    intro r hr
    obtain ⟨path, hpath, rfl⟩ := mem_map.mp hr
    exact hway _ (prefix_of_mem_inits hpath)
  obtain ⟨d', hrun, hmirrors, hgrows, hdirs⟩ := hm.makeDirs hways
  refine ⟨d', ?_, hmirrors, hgrows, hdirs p (mem_map.mpr ⟨absolute p, ?_, ?_⟩)⟩
  · show Option.elim _ _ _ = _
    rw [hrun]
    rfl
  · exact (mem_inits _ _).mpr prefix_rfl
  · exact resolve_absolute [] p

theorem writeContent_mirrors {content : Str} (hm : Mirrors w.tree w.root output d) (hq : q ≠ [])
    (hnode : w.tree.node (w.root ++ q) = some (.file content))
    (hparent : d (output ++ q).dropLast = some .dir) :
    ∃ d', writeContent treeDisk d (absolute (output ++ q)) content = (.ok 1, d') ∧
      Mirrors w.tree w.root output d' ∧ Grows d d' ∧
      d' (output ++ q) = some (.file content) := by
  obtain ⟨d', hput, hmirrors, hgrows, hfile⟩ := hm.putFile hq hnode hparent
  have hdir : d (output ++ q) ≠ some .dir := by
    intro h
    have hbelow := hm.below q .dir h
    rw [hnode] at hbelow
    cases hbelow
  have hcreate : DirTree.putFile d (output ++ q) [] = _ := putFile_eq hdir hparent
  have hcopy : DirTree.putFile _ (output ++ q) content = _ := (putFile_again hcreate).trans hput
  refine ⟨d', ?_, hmirrors, hgrows, hfile⟩
  unfold writeContent
  simp only [treeDisk, resolve_absolute, hcreate, hcopy, Option.elim_some]

theorem writeMemberToDisk_mirrors (hm : Mirrors w.tree w.root output d) (h : Stores w e q)
    (hq : q ≠ []) :
    ∃ n d', (writeMemberToDisk treeDisk d e (absolute (output ++ q))).result = .ok n ∧
      (writeMemberToDisk treeDisk d e (absolute (output ++ q))).state = d' ∧
      Mirrors w.tree w.root output d' ∧ Grows d d' ∧
      d' (output ++ q) = w.tree.node (w.root ++ q) := by
  have hsome : (w.tree.node (w.root ++ q)).isSome := by
    rw [h.node]
    rfl
  unfold writeMemberToDisk
  cases hdir : e.isDir with
  | true =>
    have hnode : w.tree.node (w.root ++ q) = some .dir := by
      rw [h.node, hdir]
      rfl
    obtain ⟨d', hrun, hmirrors, hgrows, hmade⟩ := createDirAll_mirrors (p := output ++ q) hm (by
      intro r hr
      by_cases hne : r = output ++ q
      · exact Or.inr ⟨q, hne, hnode⟩
      · exact onTheWay hsome hr hne)
    rw [if_pos rfl, hrun]
    exact ⟨0, d', rfl, rfl, hmirrors, hgrows, hmade.trans hnode.symm⟩
  | false =>
    have hnode : w.tree.node (w.root ++ q) = some (.file e.content) := by
      rw [h.node, hdir]
      rfl
    have hne : output ++ q ≠ [] := fun hnil => hq (append_eq_nil_iff.mp hnil).2
    obtain ⟨d₁, hmake, hmirrors₁, hgrows₁, hparent⟩ :=
      createDirAll_mirrors (p := (output ++ q).dropLast) hm (by
        intro r hr
        apply onTheWay hsome (hr.trans (List.dropLast_prefix _))
        rintro rfl
        have hlen := hr.length_le
        have hpos := length_pos_of_ne_nil hne
        rw [length_dropLast] at hlen
        omega)
    obtain ⟨d', hwrite, hmirrors, hgrows, hfile⟩ :=
      writeContent_mirrors hmirrors₁ hq hnode hparent
    rw [if_neg Bool.false_ne_true]
    unfold writeFile makeParents
    rw [parent_absolute hne]
    dsimp only
    rw [hmake]
    dsimp only
    rw [hwrite]
    exact ⟨1, d', rfl, rfl, hmirrors, hgrows₁.trans hgrows, hfile.trans hnode.symm⟩

/-- The run over entries that carry their paths. -/
theorem unpackEntries_mirrors (format : ArchiveFormat) {entries : List ArchiveEntry} (count : ℕ)
    (hm : Mirrors w.tree w.root output d) (h : ∀ e ∈ entries, ∃ q, Stores w e q) :
    ∃ n d', (unpackEntries treeDisk format output (unpackOptions none []) d count
        (entries.map .ok)).result = .ok n ∧
      (unpackEntries treeDisk format output (unpackOptions none []) d count
        (entries.map .ok)).state = d' ∧
      Mirrors w.tree w.root output d' ∧ Grows d d' ∧
      ∀ e ∈ entries, ∀ q, Stores w e q → q ≠ [] →
        d' (output ++ q) = w.tree.node (w.root ++ q) := by
  induction entries generalizing d count with
  | nil => exact ⟨count, d, rfl, rfl, hm, fun _ _ hp => hp, nofun⟩
  | cons e entries ih =>
    obtain ⟨q, hstores⟩ := h e mem_cons_self
    have hrest := fun e he => h e (mem_cons_of_mem _ he)
    have hout : entryOutpath format e.name (unpackOptions none []) output = _ :=
      entryOutpath_of_path format hstores.path
    have hsame : ∀ q', Stores w e q' → q' = q := fun q' h' =>
      map_injective_iff.mpr (fun _ _ heq => Component.normal.inj heq)
        (h'.path.symm.trans hstores.path)
    rw [map_cons]
    simp only [unpackEntries, hout]
    by_cases hq : q = []
    · rw [if_pos hq]
      obtain ⟨n, d', hresult, hstate, hmirrors, hgrows, hall⟩ := ih count hm hrest
      refine ⟨n, d', hresult, hstate, hmirrors, hgrows, fun e' he' q' h' hne => ?_⟩
      obtain rfl | he' := mem_cons.mp he'
      · exact absurd ((hsame q' h').trans hq) hne
      · exact hall e' he' q' h' hne
    · obtain ⟨k, d₁, hresult₁, hstate₁, hmirrors₁, hgrows₁, hnode⟩ :=
        writeMemberToDisk_mirrors hm hstores hq
      obtain ⟨n, d', hresult, hstate, hmirrors, hgrows, hall⟩ := ih (count + k) hmirrors₁ hrest
      rw [if_neg hq]
      dsimp only
      rw [hresult₁, hstate₁]
      refine ⟨n, d', hresult, hstate, hmirrors, hgrows₁.trans hgrows, fun e' he' q' h' hne => ?_⟩
      obtain rfl | he' := mem_cons.mp he'
      · rw [hsame q' h', ← hnode]
        obtain ⟨m, hm'⟩ := Option.isSome_iff_exists.mp (show (d₁ (output ++ q)).isSome by
          rw [hnode, hstores.node]; rfl)
        rw [hgrows _ _ hm', hm']
      · exact hall e' he' q' h' hne

end Entries

end CrabMate.ArchivePack
