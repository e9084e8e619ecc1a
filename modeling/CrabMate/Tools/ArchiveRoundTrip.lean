import CrabMate.Lib.Except
import CrabMate.Tools.ArchiveMirror
import Mathlib.Algebra.Order.BigOperators.Group.List
import Mathlib.Algebra.Order.Group.Nat
import Mathlib.Data.List.Nodup
import Mathlib.Data.List.Pairwise

/-! Unpacking what was packed. All files come back to their places in the workspace exactly if each
is stored under the path of its place. -/
namespace CrabMate.ArchivePack
open RustStr LexPath DirTree List Option Except

section Files

variable {w : Workspace} (source : ResolvedSource w)

/-- The files of a source, with their contents. -/
def sourceFiles : List (List Str × Str) :=
  (walkDir w source.path).filterMap fun path =>
    match w.tree.node path with
    | some (.file content) => some (path, content)
    | _ => none

variable {source} {path : List Str} {content : Str}

theorem mem_walkDir : path ∈ walkDir w source.path ↔
    source.path <+: path ∧ (w.tree.node path).isSome := by
  unfold walkDir
  rw [mem_filter, w.tree.mem_paths, isPrefixOf_iff_prefix, and_comm]

theorem mem_sourceFiles : (path, content) ∈ sourceFiles source ↔
    source.path <+: path ∧ w.tree.node path = some (.file content) := by
  unfold sourceFiles
  rw [mem_filterMap]
  constructor
  · rintro ⟨p, hp, hmatch⟩
    split at hmatch
    · rename_i c hnode
      obtain ⟨rfl, rfl⟩ := Prod.mk.inj (Option.some.inj hmatch)
      exact ⟨(mem_walkDir.mp hp).1, hnode⟩
    · cases hmatch
  · rintro ⟨hinside, hnode⟩
    refine ⟨path, mem_walkDir.mpr ⟨hinside, by rw [hnode]; rfl⟩, ?_⟩
    rw [hnode]

theorem walkDir_of_file (h : w.tree.node source.path = some (.file content)) :
    walkDir w source.path = [source.path] := by
  apply perm_singleton.mp
  apply (perm_ext_iff_of_nodup (w.tree.nodup.filter _) (by simp)).mpr
  intro p
  rw [mem_singleton]
  apply mem_walkDir.trans
  constructor
  · rintro ⟨hinside, hsome⟩
    exact Tree.eq_of_file_prefix h hinside hsome
  · rintro rfl
    exact ⟨prefix_rfl, by rw [h]; rfl⟩

theorem path_ne_nil (h : w.tree.node path = some (.file content)) (hroot : w.root <+: path) :
    path ≠ [] := by
  rintro rfl
  have hdir := w.root_dir
  rw [prefix_nil.mp hroot, h] at hdir
  cases hdir

theorem zipMembers_eq : zipMembers source = (sourceFiles source).map fun f =>
    (joinNames (f.1.drop source.path.dropLast.length), f.2) := by
  unfold zipMembers sourceFiles
  split
  · rename_i content hnode
    rw [walkDir_of_file hnode]
    obtain ⟨dir, name, hpath⟩ := eq_nil_or_concat' source.path |>.resolve_left
      (path_ne_nil hnode source.inside)
    rw [filterMap_cons, hnode, hpath]
    simp [joinNames]
  · rw [map_filterMap]
    apply filterMap_congr
    intro p _
    cases w.tree.node p with
    | none => rfl
    | some node => cases node <;> rfl
  · rename_i hnode
    have hpresent := source.present
    rw [hnode] at hpresent
    cases hpresent

theorem tarMembers_eq : tarMembers source = (walkDir w source.path).map fun p =>
    (components source.rel ++ (p.drop source.path.length).map .normal, w.tree.node p) := by
  unfold tarMembers
  split
  · rfl
  · rename_i node hnode
    cases hcase : w.tree.node source.path with
    | none =>
      have hpresent := source.present
      rw [hcase] at hpresent
      cases hpresent
    | some n =>
      cases n with
      | dir => exact absurd hcase hnode
      | file content =>
        rw [walkDir_of_file hcase]
        simp [hcase]

end Files

section Stored

variable {w : Workspace} {source : ResolvedSource w} {path : List Str} {content : Str}

/-- The path of a file from the folder that its source lies in. -/
def storedPath (source : ResolvedSource w) (path : List Str) : List Str :=
  path.drop source.path.dropLast.length

/-- The path of a file from the root of the workspace. -/
def Workspace.place (w : Workspace) (path : List Str) : List Str := path.drop w.root.length

theorem root_append_place (h : w.root <+: path) : w.root ++ w.place path = path := by
  obtain ⟨rest, rfl⟩ := h
  rw [Workspace.place, drop_left]

theorem isName_of_file (h : w.tree.node path = some (.file content)) {name : Str}
    (hname : name ∈ path) : IsName name :=
  w.isName_of_mem (p := []) (q := path) (by rw [nil_append, h]; rfl) hname

theorem storedPath_ne_nil (h : (path, content) ∈ sourceFiles source) :
    storedPath source path ≠ [] := by
  obtain ⟨hinside, hnode⟩ := mem_sourceFiles.mp h
  have hpos := length_pos_of_ne_nil (path_ne_nil hnode (source.inside.trans hinside))
  have hlen := hinside.length_le
  intro hnil
  have hdrop := congrArg List.length hnil
  rw [storedPath, length_drop, length_dropLast, length_nil] at hdrop
  omega

theorem place_ne_nil (h : (path, content) ∈ sourceFiles source) : w.place path ≠ [] := by
  obtain ⟨hinside, hnode⟩ := mem_sourceFiles.mp h
  intro hnil
  have hpath := root_append_place (source.inside.trans hinside)
  rw [hnil, append_nil] at hpath
  rw [← hpath, w.root_dir] at hnode
  cases hnode

theorem components_storedPath (h : (path, content) ∈ sourceFiles source) :
    components (joinNames (storedPath source path)) = (storedPath source path).map .normal :=
  components_joinNames (storedPath_ne_nil h) fun _ hname =>
    isName_of_file (mem_sourceFiles.mp h).2 (mem_of_mem_drop hname)

theorem filter_normal (q : List Str) :
    (q.map Component.normal).filter (fun c => c ≠ .curDir) = q.map .normal :=
  filter_eq_self.mpr fun c hc => by
    obtain ⟨name, -, rfl⟩ := List.mem_map.mp hc
    rfl

/-- Directly in the root of the workspace, or that root where no folder is above it. -/
def InRoot (source : ResolvedSource w) : Prop :=
  (∃ name, source.path = w.root ++ [name]) ∨ source.path = [] ∧ w.root = []

theorem storedPath_of_inRoot (h : InRoot source) : storedPath source path = w.place path := by
  unfold storedPath Workspace.place
  obtain ⟨name, hpath⟩ | ⟨hpath, hroot⟩ := h
  · rw [hpath, dropLast_concat]
  · rw [hpath, hroot]
    rfl

theorem resolve_normalNames {dest : FsPath} (hroot : .rootDir ∉ dest) (hparent : .parentDir ∉ dest)
    (dir : List Str) : resolve dir dest = dir ++ normalNames dest := by
  induction dest generalizing dir with
  | nil => exact (append_nil dir).symm
  | cons c dest ih =>
    have hroot' := fun h => hroot (mem_cons_of_mem _ h)
    have hparent' := fun h => hparent (mem_cons_of_mem _ h)
    cases c with
    | rootDir => exact absurd mem_cons_self hroot
    | parentDir => exact absurd mem_cons_self hparent
    | curDir => exact ih hroot' hparent' dir
    | normal name =>
      show resolve (dir ++ [name]) dest = dir ++ name :: normalNames dest
      rw [ih hroot' hparent', append_assoc]
      rfl

theorem tarName_ok {dest : FsPath} {name : Str} (h : tarName dest = .ok name) :
    .rootDir ∉ dest ∧ .parentDir ∉ dest ∧
      name = if normalNames dest = [] then ['.'] else joinNames (normalNames dest) := by
  unfold tarName at h
  split at h
  · cases h
  · rename_i hroot
    split at h
    · cases h
    · rename_i hparent
      exact ⟨hroot, hparent, (Except.ok.inj h).symm⟩

theorem stores_of_tarEntry {e : ArchiveEntry} (hinside : source.path <+: path)
    (hnode : (w.tree.node path).isSome)
    (h : tarEntry (components source.rel ++ (path.drop source.path.length).map .normal,
      w.tree.node path) = .ok e) : Stores w e (w.place path) := by
  have hresolve : resolve w.root (components source.rel ++
      (path.drop source.path.length).map .normal) = path := by
    obtain ⟨rest, rfl⟩ := hinside
    rw [resolve_append, source.resolves, drop_left, resolve_normal]
  generalize components source.rel ++ (path.drop source.path.length).map .normal = dest at *
  have hroot : w.root ++ w.place path = path := root_append_place (source.inside.trans hinside)
  cases hname : tarName dest with
  | error message =>
    rw [tarEntry, hname] at h
    cases h
  | ok name =>
    obtain ⟨hrootDir, hparentDir, hname'⟩ := tarName_ok hname
    rw [resolve_normalNames hrootDir hparentDir, ← hroot] at hresolve
    rw [append_cancel_left hresolve] at hname'
    have hpath : (components name).filter (fun c => c ≠ .curDir) =
        (w.place path).map .normal := by
      rw [hname']
      by_cases hnil : w.place path = []
      · rw [if_pos hnil, hnil]
        rfl
      · rw [if_neg hnil, components_joinNames hnil fun name hmem => ?_, filter_normal]
        exact w.isName_of_mem (p := []) (q := path) hnode (mem_of_mem_drop hmem)
    obtain ⟨n, hn⟩ := isSome_iff_exists.mp hnode
    rw [tarEntry, hname, hn] at h
    cases n with
    | dir =>
      obtain rfl := Except.ok.inj h
      exact ⟨hpath, by rw [hroot, hn]; rfl⟩
    | file content =>
      obtain rfl := Except.ok.inj h
      exact ⟨hpath, by rw [hroot, hn]; rfl⟩

end Stored

section Packed

variable {w : Workspace} {sources : List (ResolvedSource w)} {refusesTwins : Bool}

/-- The files that are packed, each with its source. -/
def packedFiles (sources : List (ResolvedSource w)) : List (ResolvedSource w × List Str × Str) :=
  sources.flatMap fun source => (sourceFiles source).map fun f => (source, f)

def fileEntry (f : ResolvedSource w × List Str × Str) : ArchiveEntry :=
  ⟨joinNames (storedPath f.1 f.2.1), false, f.2.2⟩

theorem mem_packedFiles {f : ResolvedSource w × List Str × Str} :
    f ∈ packedFiles sources ↔ f.1 ∈ sources ∧ f.2 ∈ sourceFiles f.1 := by
  unfold packedFiles
  simp only [mem_flatMap, List.mem_map]
  constructor
  · rintro ⟨source, hsource, g, hg, rfl⟩
    exact ⟨hsource, hg⟩
  · rintro ⟨hsource, hg⟩
    exact ⟨f.1, hsource, f.2, hg, rfl⟩

theorem flatMap_zipMembers : sources.flatMap zipMembers =
    (packedFiles sources).map fun f => (joinNames (storedPath f.1 f.2.1), f.2.2) := by
  unfold packedFiles
  rw [map_flatMap]
  congr 1
  funext source
  rw [zipMembers_eq, List.map_map]
  rfl

theorem nodup_names_iff :
    ((packedFiles sources).map fun f => joinNames (storedPath f.1 f.2.1)).Nodup ↔
      ((packedFiles sources).map fun f => storedPath f.1 f.2.1).Nodup := by
  have hmap : ((packedFiles sources).map fun f => joinNames (storedPath f.1 f.2.1)) =
      ((packedFiles sources).map fun f => storedPath f.1 f.2.1).map joinNames := by
    rw [List.map_map]
    rfl
  rw [hmap]
  constructor
  · exact fun h => h.of_map _
  · refine fun h => h.map_on fun a ha b hb heq => ?_
    obtain ⟨f, hf, rfl⟩ := List.mem_map.mp ha
    obtain ⟨g, hg, rfl⟩ := List.mem_map.mp hb
    have hcomponents := congrArg components heq
    rw [components_storedPath (mem_packedFiles.mp hf).2,
      components_storedPath (mem_packedFiles.mp hg).2] at hcomponents
    exact map_injective_iff.mpr (fun _ _ h => Component.normal.inj h) hcomponents

theorem foldlM_startFile {members : List (Str × Str)} {zip entries : List ArchiveEntry}
    (hzip : refusesTwins = true → (zip.map (·.name)).Nodup) :
    members.foldlM (startFile refusesTwins) zip = .ok entries ↔
      entries = zip ++ members.map (fun m => ⟨m.1, false, m.2⟩) ∧
        (refusesTwins = true → (zip.map (·.name) ++ members.map Prod.fst).Nodup) := by
  induction members generalizing zip with
  | nil =>
    simp only [foldlM_nil, map_nil, append_nil]
    exact ⟨fun h => ⟨(Except.ok.inj h).symm, hzip⟩, fun h => congrArg _ h.1.symm⟩
  | cons m members ih =>
    rw [foldlM_cons]
    by_cases htwin : refusesTwins = true ∧ m.1 ∈ zip.map (·.name)
    · have hstart : startFile refusesTwins zip m =
        .error ("Duplicate filename: ".toList ++ m.1) := if_pos htwin
      rw [hstart]
      constructor
      · nofun
      · rintro ⟨-, hnodup⟩
        have hdisjoint := (nodup_append.mp (hnodup htwin.1)).2.2
        exact absurd rfl (hdisjoint _ htwin.2 _ mem_cons_self)
    · have hstart : startFile refusesTwins zip m = .ok (zip ++ [⟨m.1, false, m.2⟩]) :=
        if_neg htwin
      have hnext : refusesTwins = true →
          ((zip ++ [(⟨m.1, false, m.2⟩ : ArchiveEntry)]).map (·.name)).Nodup := by
        intro hrefuses
        rw [map_append]
        exact (hzip hrefuses).append (by simp) (by
          intro a ha ha'
          obtain rfl := mem_singleton.mp ha'
          exact htwin ⟨hrefuses, ha⟩)
      rw [hstart, ok_bind, ih hnext]
      simp only [map_append, map_cons, map_nil, append_assoc,
        singleton_append]

theorem packZip_ok_iff {entries : List ArchiveEntry} :
    packZip refusesTwins sources = .ok entries ↔ entries = (packedFiles sources).map fileEntry ∧
      (refusesTwins = true → ((packedFiles sources).map fun f => storedPath f.1 f.2.1).Nodup) := by
  unfold packZip
  have hempty : refusesTwins = true → (([] : List ArchiveEntry).map (·.name)).Nodup :=
    fun _ => nodup_nil
  rw [foldlM_startFile hempty, flatMap_zipMembers, List.map_map,
    List.map_map, ← nodup_names_iff]
  rfl

theorem packTar_ok {entries : List ArchiveEntry} (h : packTar sources = .ok entries) :
    (∀ e ∈ entries, ∃ q, Stores w e q) ∧
      ∀ f ∈ packedFiles sources, ∃ e ∈ entries, Stores w e (w.place f.2.1) := by
  have hall := mapM_ok h
  constructor
  · intro e he
    obtain ⟨m, hm, htar⟩ := exists_of_forall₂ hall he
    obtain ⟨source, -, hm⟩ := mem_flatMap.mp hm
    rw [tarMembers_eq] at hm
    obtain ⟨path, hpath, rfl⟩ := List.mem_map.mp hm
    obtain ⟨hinside, hnode⟩ := mem_walkDir.mp hpath
    exact ⟨w.place path, stores_of_tarEntry hinside hnode htar⟩
  · rintro ⟨source, path, content⟩ hf
    obtain ⟨hsource, hfile⟩ := mem_packedFiles.mp hf
    obtain ⟨hinside, hnode⟩ := mem_sourceFiles.mp hfile
    have hsome : (w.tree.node path).isSome := by
      rw [hnode]
      rfl
    have hm : (components source.rel ++ (path.drop source.path.length).map .normal,
        w.tree.node path) ∈ sources.flatMap tarMembers := by
      rw [mem_flatMap]
      refine ⟨source, hsource, ?_⟩
      rw [tarMembers_eq]
      exact List.mem_map.mpr ⟨path, mem_walkDir.mpr ⟨hinside, hsome⟩, rfl⟩
    obtain ⟨e, he, htar⟩ := exists_of_forall₂ hall.flip hm
    exact ⟨e, he, stores_of_tarEntry hinside hsome htar⟩

end Packed

section Unpacked

variable {w : Workspace} {output x : List Str} {d : DirTree.Disk Str Str} {c : Str}
  {entries : List ArchiveEntry}

/-- A directory of the disk with nothing in it. -/
structure IsEmptyDir (d : DirTree.Disk Str Str) (output : List Str) : Prop where
  above : ∀ p, p <+: output → d p = some .dir
  below : ∀ q, q ≠ [] → d (output ++ q) = none

theorem IsEmptyDir.mirrors (h : IsEmptyDir d output) : Mirrors w.tree w.root output d where
  above := h.above
  below q n hq := by
    by_cases hnil : q = []
    · rw [hnil, append_nil, h.above output prefix_rfl] at hq
      rw [hnil, append_nil, w.root_dir, hq]
    · rw [h.below q hnil] at hq
      cases hq

/-- Entries that carry their paths come back to them. -/
theorem archiveUnpack_stores (format : ArchiveFormat) (hempty : IsEmptyDir d output)
    (h : ∀ e ∈ entries, ∃ q, Stores w e q) :
    ∃ n, (archiveUnpack treeDisk format output d (entries.map .ok) none []).result = .ok n ∧
      ∀ e ∈ entries, ∀ q, Stores w e q → q ≠ [] →
        (archiveUnpack treeDisk format output d (entries.map .ok) none []).state (output ++ q) =
          w.tree.node (w.root ++ q) := by
  obtain ⟨d₁, hmake, hmirrors, -, -⟩ := createDirAll_mirrors (w := w) hempty.mirrors
    (p := output) fun r hr => Or.inl hr
  obtain ⟨n, d', hresult, hstate, -, -, hall⟩ := unpackEntries_mirrors format 0 hmirrors h
  unfold archiveUnpack unpackArchive
  rw [hmake]
  exact ⟨n, hresult, fun e he q hstores hq =>
    (congrFun hstate (output ++ q)).trans (hall e he q hstores hq)⟩

theorem file_of_createDirAll {path : FsPath} {d' : DirTree.Disk Str Str}
    (h : treeDisk.createDirAll d path = .ok d') (hx : d' x = some (.file c)) :
    d x = some (.file c) := by
  cases hmake : (path.inits.map (resolve [])).foldlM makeDir d with
  | none =>
    simp only [treeDisk, hmake, elim_none] at h
    cases h
  | some d₁ =>
    simp only [treeDisk, hmake, elim_some] at h
    obtain rfl := Except.ok.inj h
    exact file_of_makeDirs hmake hx

theorem file_of_writeContent {outpath : FsPath} {content : Str}
    (hx : (writeContent treeDisk d outpath content).2 x = some (.file c)) :
    x = resolve [] outpath ∨ d x = some (.file c) := by
  unfold writeContent at hx
  cases hcreate : putFile d (resolve [] outpath) [] with
  | none =>
    simp only [treeDisk, hcreate, elim_none] at hx
    exact Or.inr hx
  | some d₁ =>
    simp only [treeDisk, hcreate, elim_some] at hx
    cases hcopy : putFile d₁ (resolve [] outpath) content with
    | none =>
      simp only [hcopy, elim_none] at hx
      exact file_of_putFile hcreate hx
    | some d₂ =>
      simp only [hcopy, elim_some] at hx
      obtain hpath | hx := file_of_putFile hcopy hx
      · exact Or.inl hpath
      · exact file_of_putFile hcreate hx

theorem file_of_writeMemberToDisk {e : ArchiveEntry} {outpath : FsPath}
    (hx : (writeMemberToDisk treeDisk d e outpath).state x = some (.file c)) :
    x = resolve [] outpath ∨ d x = some (.file c) := by
  unfold writeMemberToDisk at hx
  split at hx
  · split at hx
    · exact Or.inr hx
    · exact Or.inr (file_of_createDirAll ‹_› hx)
  · unfold writeFile at hx
    cases hparent : parent outpath with
    | none =>
      simp only [makeParents, hparent] at hx
      exact file_of_writeContent hx
    | some dir =>
      cases hmake : treeDisk.createDirAll d dir with
      | error message =>
        simp only [makeParents, hparent, hmake] at hx
        exact Or.inr hx
      | ok d₁ =>
        simp only [makeParents, hparent, hmake] at hx
        obtain hpath | hx := file_of_writeContent hx
        · exact Or.inl hpath
        · exact Or.inr (file_of_createDirAll hmake hx)

/-- A file that is on the disk after a run was there before it or stands at the path of an
entry. -/
theorem file_of_unpackEntries {format : ArchiveFormat} {opts : UnpackOptions} {count : ℕ}
    (hx : (unpackEntries treeDisk format output opts d count (entries.map .ok)).state x =
      some (.file c)) : d x = some (.file c) ∨
      ∃ e ∈ entries, ∃ path, entryOutpath format e.name opts output = some path ∧
        x = resolve [] path := by
  induction entries generalizing d count with
  | nil => exact Or.inl hx
  | cons e entries ih =>
    rw [map_cons] at hx
    unfold unpackEntries at hx
    dsimp only at hx
    split at hx
    · obtain hx | ⟨e', he', hpath⟩ := ih hx
      · exact Or.inl hx
      · exact Or.inr ⟨e', mem_cons_of_mem _ he', hpath⟩
    · rename_i outpath hout
      split at hx
      · obtain rfl | hx := file_of_writeMemberToDisk hx
        · exact Or.inr ⟨e, mem_cons_self, outpath, hout, rfl⟩
        · exact Or.inl hx
      · obtain hx | ⟨e', he', hpath⟩ := ih hx
        · obtain rfl | hx := file_of_writeMemberToDisk hx
          · exact Or.inr ⟨e, mem_cons_self, outpath, hout, rfl⟩
          · exact Or.inl hx
        · exact Or.inr ⟨e', mem_cons_of_mem _ he', hpath⟩

theorem file_of_archiveUnpack {format : ArchiveFormat}
    (hx : (archiveUnpack treeDisk format output d (entries.map .ok) none []).state x =
      some (.file c)) : d x = some (.file c) ∨
      ∃ e ∈ entries, ∃ path,
        entryOutpath format e.name (unpackOptions none []) output = some path ∧
        x = resolve [] path := by
  unfold archiveUnpack unpackArchive at hx
  split at hx
  · exact Or.inl hx
  · obtain hx | hentry := file_of_unpackEntries hx
    · exact Or.inl (file_of_createDirAll ‹_› hx)
    · exact Or.inr hentry

end Unpacked

section RoundTrip

variable {w : Workspace} (refusesTwins : Bool) (format : ArchiveFormat)
  (sources : List (ResolvedSource w))

/-- Unpacking the archive in an empty directory brings every file back to its place. -/
def UnpackUndoesPack : Prop :=
  ∀ entries, packSources refusesTwins format sources = .ok entries →
    ∀ output d, IsEmptyDir d output →
      ∃ n, (archiveUnpack treeDisk format output d (entries.map .ok) none []).result = .ok n ∧
        ∀ f ∈ packedFiles sources,
          (archiveUnpack treeDisk format output d (entries.map .ok) none []).state
            (output ++ w.place f.2.1) = some (.file f.2.2)

/-- Two paths of which none lies in the other. -/
def Apart (p q : List Str) : Prop := ¬p <+: q ∧ ¬q <+: p

instance : DecidableRel Apart := fun p q => by unfold Apart; infer_instance

variable {refusesTwins format sources}

theorem undoes_of_stores (h : ∀ entries, packSources refusesTwins format sources = .ok entries →
    (∀ e ∈ entries, ∃ q, Stores w e q) ∧
      ∀ f ∈ packedFiles sources, ∃ e ∈ entries, Stores w e (w.place f.2.1)) :
    UnpackUndoesPack refusesTwins format sources := by
  intro entries hpack output d hempty
  obtain ⟨hstores, hfiles⟩ := h entries hpack
  obtain ⟨n, hresult, hall⟩ := archiveUnpack_stores format hempty hstores
  refine ⟨n, hresult, fun f hf => ?_⟩
  obtain ⟨e, he, hstore⟩ := hfiles f hf
  have hfile := (mem_packedFiles.mp hf).2
  obtain ⟨hinside, hnode⟩ := mem_sourceFiles.mp hfile
  rw [hall e he _ hstore (place_ne_nil hfile), root_append_place (f.1.inside.trans hinside), hnode]

/-- A zip archive of sources in the root of the workspace. -/
theorem stores_of_inRoot {entries : List ArchiveEntry}
    (h : ∀ source ∈ sources, sourceFiles source ≠ [] → InRoot source)
    (hpack : packZip refusesTwins sources = .ok entries) :
    (∀ e ∈ entries, ∃ q, Stores w e q) ∧
      ∀ f ∈ packedFiles sources, ∃ e ∈ entries, Stores w e (w.place f.2.1) := by
  obtain ⟨rfl, -⟩ := packZip_ok_iff.mp hpack
  have hstores : ∀ f ∈ packedFiles sources, Stores w (fileEntry f) (w.place f.2.1) := by
    intro f hf
    obtain ⟨hsource, hfile⟩ := mem_packedFiles.mp hf
    obtain ⟨hinside, hnode⟩ := mem_sourceFiles.mp hfile
    have hplace : storedPath f.1 f.2.1 = _ :=
      storedPath_of_inRoot (h f.1 hsource (ne_nil_of_mem hfile))
    refine ⟨?_, ?_⟩
    · rw [fileEntry, components_storedPath hfile, filter_normal, hplace]
    · rw [root_append_place (f.1.inside.trans hinside), hnode]
      rfl
  refine ⟨fun e he => ?_, fun f hf => ⟨_, List.mem_map.mpr ⟨f, hf, rfl⟩, hstores f hf⟩⟩
  obtain ⟨f, hf, rfl⟩ := List.mem_map.mp he
  exact ⟨_, hstores f hf⟩

theorem nodup_places (hapart : (sources.map (·.path)).Pairwise Apart) :
    ((packedFiles sources).map fun f => w.place f.2.1).Nodup := by
  unfold packedFiles
  rw [map_flatMap, nodup_flatMap]
  constructor
  · intro source _
    rw [List.map_map]
    refine List.Nodup.map_on ?_ ?_
    · rintro ⟨p, c⟩ hp ⟨p', c'⟩ hp' heq
      obtain ⟨hinside, hnode⟩ := mem_sourceFiles.mp hp
      obtain ⟨hinside', hnode'⟩ := mem_sourceFiles.mp hp'
      have hpath : p = p' := by
        rw [← root_append_place (source.inside.trans hinside),
          ← root_append_place (source.inside.trans hinside')]
        exact congrArg (w.root ++ ·) heq
      rw [hpath, hnode'] at hnode
      rw [hpath, Node.file.inj (Option.some.inj hnode)]
    · refine (w.tree.nodup.filter _).filterMap fun p p' f hf hf' => ?_
      split at hf
      · split at hf'
        · obtain rfl := Option.some.inj hf
          exact (Prod.mk.inj (Option.some.inj hf')).1.symm
        · cases hf'
      · cases hf
  · refine (pairwise_map.mp hapart).imp fun {s s'} hs => ?_
    intro q hq hq'
    obtain ⟨f, hf, rfl⟩ := List.mem_map.mp hq
    obtain ⟨f', hf', heq⟩ := List.mem_map.mp hq'
    obtain ⟨g, hg, rfl⟩ := List.mem_map.mp hf
    obtain ⟨g', hg', rfl⟩ := List.mem_map.mp hf'
    have hinside := (mem_sourceFiles.mp hg).1
    have hinside' := (mem_sourceFiles.mp hg').1
    have hpath : g'.1 = g.1 := by
      rw [← root_append_place (s.inside.trans hinside),
        ← root_append_place (s'.inside.trans hinside')]
      exact congrArg (w.root ++ ·) heq
    rw [hpath] at hinside'
    obtain h | h := prefix_or_prefix_of_prefix hinside hinside'
    · exact hs.1 h
    · exact hs.2 h

theorem isEmptyDir_root :
    IsEmptyDir (fun p => if p = [] then some .dir else none : DirTree.Disk Str Str) [] where
  above _ hp := if_pos (prefix_nil.mp hp)
  below _ hq := if_neg hq

/-- If all files come back, the stored paths are the places, in some order. -/
theorem places_perm_of_undoes (hapart : (sources.map (·.path)).Pairwise Apart)
    (h : UnpackUndoesPack refusesTwins .zip sources)
    (hnames : refusesTwins = true →
      ((packedFiles sources).map fun f => storedPath f.1 f.2.1).Nodup) :
    ((packedFiles sources).map fun f => w.place f.2.1).Perm
      ((packedFiles sources).map fun f => storedPath f.1 f.2.1) := by
  have hpack : packSources refusesTwins .zip sources = .ok ((packedFiles sources).map fileEntry) :=
    packZip_ok_iff.mpr ⟨rfl, hnames⟩
  obtain ⟨-, -, hfiles⟩ := h _ hpack [] _ isEmptyDir_root
  have hsubset : ((packedFiles sources).map fun f => w.place f.2.1) ⊆
      (packedFiles sources).map fun f => storedPath f.1 f.2.1 := by
    intro q hq
    obtain ⟨f, hf, rfl⟩ := List.mem_map.mp hq
    obtain hbefore | ⟨e, he, path, hout, hpath⟩ := file_of_archiveUnpack (hfiles f hf)
    · rw [nil_append, if_neg (place_ne_nil (mem_packedFiles.mp hf).2)] at hbefore
      cases hbefore
    · obtain ⟨g, hg, rfl⟩ := List.mem_map.mp he
      have hfile := (mem_packedFiles.mp hg).2
      rw [entryOutpath_of_path (q := storedPath g.1 g.2.1) _
        (by rw [fileEntry, components_storedPath hfile, filter_normal]),
        if_neg (storedPath_ne_nil hfile)] at hout
      obtain rfl := Option.some.inj hout
      rw [resolve_absolute] at hpath
      exact List.mem_map.mpr ⟨g, hg, (append_cancel_left hpath).symm⟩
  exact (subperm_of_subset (nodup_places hapart) hsubset).perm_of_length_le (by simp)

theorem lengths {f : ResolvedSource w × List Str × Str} (hf : f ∈ packedFiles sources) :
    (storedPath f.1 f.2.1).length = f.2.1.length - (f.1.path.length - 1) ∧
      (w.place f.2.1).length = f.2.1.length - w.root.length ∧
      w.root.length ≤ f.1.path.length ∧ f.1.path.length ≤ f.2.1.length := by
  obtain ⟨hinside, -⟩ := mem_sourceFiles.mp (mem_packedFiles.mp hf).2
  refine ⟨?_, length_drop, f.1.inside.length_le, hinside.length_le⟩
  rw [storedPath, length_drop, length_dropLast]

theorem inRoot_iff_length {source : ResolvedSource w} :
    InRoot source ↔ source.path.length - 1 = w.root.length := by
  obtain ⟨rest, hrest⟩ := source.inside
  unfold InRoot
  rw [← hrest]
  constructor
  · rintro (⟨name, hname⟩ | ⟨hnil, hroot⟩)
    · rw [hname]
      simp
    · rw [hnil, hroot]
      rfl
  · intro hlen
    rw [length_append] at hlen
    match rest with
    | [] =>
      have hroot : w.root = [] := eq_nil_of_length_eq_zero (by
        rw [length_nil] at hlen
        omega)
      exact Or.inr ⟨by rw [hroot]; rfl, hroot⟩
    | [name] => exact Or.inl ⟨name, rfl⟩
    | _ :: _ :: rest =>
      simp only [length_cons] at hlen
      omega

theorem length_lt_of_ne {source : ResolvedSource w} (h : source.path ≠ w.root) :
    w.root.length < source.path.length := by
  refine Nat.lt_of_le_of_ne source.inside.length_le fun hlen => ?_
  exact h (source.inside.eq_of_length hlen).symm

/-- The stored paths are no longer than the places, and shorter for a source that lies deeper; but
below the root itself they are longer. -/
theorem inRoot_of_perm (hapart : (sources.map (·.path)).Pairwise Apart)
    (hperm : ((packedFiles sources).map fun f => w.place f.2.1).Perm
      ((packedFiles sources).map fun f => storedPath f.1 f.2.1))
    {f : ResolvedSource w × List Str × Str} (hf : f ∈ packedFiles sources) : InRoot f.1 := by
  have hsum : ((packedFiles sources).map fun f => (w.place f.2.1).length).sum =
      ((packedFiles sources).map fun f => (storedPath f.1 f.2.1).length).sum := by
    have hlengths := (hperm.map List.length).sum_eq
    rw [List.map_map, List.map_map] at hlengths
    exact hlengths
  rw [inRoot_iff_length]
  by_cases hroot : ∃ g ∈ packedFiles sources, g.1.path = w.root
  · obtain ⟨g, hg, hpath⟩ := hroot
    have hall : ∀ k ∈ packedFiles sources, k.1.path = w.root := by
      intro k hk
      by_contra hne
      have hsymm : Std.Symm (fun s s' : ResolvedSource w => Apart s.path s'.path) :=
        ⟨fun _ _ h => ⟨h.2, h.1⟩⟩
      have hkg := (pairwise_map.mp hapart).forall (mem_packedFiles.mp hk).1
        (mem_packedFiles.mp hg).1 (fun h => hne (h ▸ hpath))
      exact hkg.2 (hpath ▸ k.1.inside)
    by_contra hdeep
    have hlt : ∀ k ∈ packedFiles sources,
        (w.place k.2.1).length < (storedPath k.1 k.2.1).length := by
      intro k hk
      obtain ⟨hstored, hplace, -, hlen⟩ := lengths hk
      rw [hall k hk] at hstored hlen
      rw [hall f hf] at hdeep
      omega
    have hless := sum_lt_sum _ _ (fun k hk => Nat.le_of_lt (hlt k hk)) ⟨f, hf, hlt f hf⟩
    omega
  · have hle : ∀ k ∈ packedFiles sources,
        (storedPath k.1 k.2.1).length ≤ (w.place k.2.1).length := by
      intro k hk
      obtain ⟨hstored, hplace, -, -⟩ := lengths hk
      have hlen := length_lt_of_ne fun h => hroot ⟨k, hk, h⟩
      omega
    by_contra hdeep
    have hlt : (storedPath f.1 f.2.1).length < (w.place f.2.1).length := by
      obtain ⟨hstored, hplace, -, hlen'⟩ := lengths hf
      have hlen := length_lt_of_ne fun h => hroot ⟨f, hf, h⟩
      omega
    have hless := sum_lt_sum _ _ hle ⟨f, hf, hlt⟩
    omega

/-- `archive_pack` packs the sources that it reads, in the format of its output. -/
theorem archivePack_ok {access : PackAccess w} {args : PackArgs} {entries : List ArchiveEntry}
    (h : archivePack access refusesTwins args = .ok (format, entries)) :
    ∃ sources : List (ResolvedSource w), sources.map (·.rel) = sourceTexts args ∧
      packSources refusesTwins format sources = .ok entries := by
  unfold archivePack at h
  dsimp only at h
  split at h
  · cases h
  · split at h
    · cases h
    · obtain ⟨-, -, h⟩ := bind_eq_ok.mp h
      obtain ⟨sources, hread, h⟩ := bind_eq_ok.mp h
      obtain ⟨packed, -, h⟩ := bind_eq_ok.mp h
      obtain ⟨stored, hstored, h⟩ := bind_eq_ok.mp h
      obtain ⟨rfl, rfl⟩ := Prod.mk.inj (Except.ok.inj h)
      refine ⟨sources, ?_, ?_⟩
      · have hrel : List.Forall₂ (fun rel source => rel = source.rel) (sourceTexts args)
            sources := by
          refine (mapM_ok hread).imp fun rel source hsource => ?_
          cases hcase : access.forRead rel with
          | error message =>
            rw [hcase] at hsource
            cases hsource
          | ok found =>
            rw [hcase] at hsource
            rw [← Except.ok.inj hsource]
            exact found.2.symm
        rw [← forall₂_map_right_iff, forall₂_eq_eq_eq] at hrel
        exact hrel.symm
      · cases hpack : packSources refusesTwins packed sources with
        | error message =>
          rw [hpack] at hstored
          cases hstored
        | ok entries =>
          rw [hpack] at hstored
          exact hstored

/-- Every list of sources comes back exactly if the format is tar, or every source that holds a
file lies in the root of the workspace, or the writer has refused to store two files under one
path. -/
theorem unpack_undoes_pack_iff (refusesTwins : Bool) (format : ArchiveFormat)
    (sources : List (ResolvedSource w)) (hapart : (sources.map (·.path)).Pairwise Apart) :
    UnpackUndoesPack refusesTwins format sources ↔ format = .tar ∨
      (∀ source ∈ sources, sourceFiles source ≠ [] → InRoot source) ∨
      refusesTwins = true ∧
        ¬((packedFiles sources).map fun f => storedPath f.1 f.2.1).Nodup := by
  constructor
  · intro h
    cases format with
    | tar => exact Or.inl rfl
    | zip =>
      by_cases htwins : refusesTwins = true ∧
        ¬((packedFiles sources).map fun f => storedPath f.1 f.2.1).Nodup
      · exact Or.inr (Or.inr htwins)
      · refine Or.inr (Or.inl fun source hsource hfiles => ?_)
        have hperm := places_perm_of_undoes hapart h fun hrefuses => by
          by_contra hdup
          exact htwins ⟨hrefuses, hdup⟩
        obtain ⟨g, hg⟩ := exists_mem_of_ne_nil _ hfiles
        exact inRoot_of_perm hapart hperm (f := (source, g)) (mem_packedFiles.mpr ⟨hsource, hg⟩)
  · intro h
    cases format with
    | tar => exact undoes_of_stores fun _ hpack => packTar_ok hpack
    | zip =>
      obtain h | h | ⟨hrefuses, hdup⟩ := h
      · cases h
      · exact undoes_of_stores fun _ hpack => stores_of_inRoot h hpack
      · intro entries hpack
        exact absurd ((packZip_ok_iff.mp hpack).2 hrefuses) hdup

end RoundTrip

section Example

def ws : Str := "ws".toList

def twoFolders : List (List Str × Node Str) :=
  [([], .dir), ([ws], .dir), ([ws, "a".toList], .dir), ([ws, "b".toList], .dir),
    ([ws, "a".toList, "x".toList], .file "1".toList),
    ([ws, "b".toList, "x".toList], .file "2".toList)]

/-- Two folders with a file of the same name in each. -/
def twins : Workspace where
  tree := Tree.ofEntries twoFolders (by decide) (by decide)
  root := [ws]
  root_dir := by decide
  isName path name h := by
    have hmem : path ++ [name] ∈ twoFolders.map Prod.fst := Tree.isSome_lookup_iff.mp h
    have hall : ∀ p ∈ twoFolders.map Prod.fst, ∀ name ∈ p,
        name ≠ [] ∧ '/' ∉ name ∧ name ≠ ['.'] ∧ name ≠ ['.', '.'] := by decide
    obtain ⟨hne, hslash, hdot, hdots⟩ := hall _ hmem name (by simp)
    exact ⟨hne, hslash, hdot, hdots⟩

def fileIn (folder : Str) (h : resolve [ws] (components (folder ++ "/x".toList)) =
    [ws, folder, "x".toList]) (hpresent : (twins.tree.node [ws, folder, "x".toList]).isSome) :
    ResolvedSource twins where
  rel := folder ++ "/x".toList
  path := [ws, folder, "x".toList]
  rel_ne := by simp
  resolves := h
  inside := ⟨[folder, "x".toList], rfl⟩
  present := hpresent

def inA : ResolvedSource twins := fileIn "a".toList (by decide) (by decide)

def inB : ResolvedSource twins := fileIn "b".toList (by decide) (by decide)

theorem tar_twins_come_back : UnpackUndoesPack false .tar [inA, inB] :=
  (unpack_undoes_pack_iff false .tar [inA, inB] (by decide)).mpr (Or.inl rfl)

/-- In zip a file of a folder comes back in the root, where it may meet another one. -/
theorem nested_file_comes_back_elsewhere :
    ¬UnpackUndoesPack true .zip [inA] ∧ ¬UnpackUndoesPack false .zip [inA, inB] := by
  constructor
  · intro h
    obtain ⟨n, -, hfiles⟩ := h _ (packZip_ok_iff.mpr ⟨rfl, fun _ => by decide⟩) [] _ isEmptyDir_root
    have hfile := hfiles (inA, inA.path, "1".toList)
      (mem_packedFiles.mpr ⟨mem_cons_self, by decide⟩)
    exact absurd hfile (by decide +kernel)
  · intro h
    obtain ⟨n, -, hfiles⟩ := h _ (packZip_ok_iff.mpr ⟨rfl, nofun⟩) [] _ isEmptyDir_root
    have hfile := hfiles (inA, inA.path, "1".toList)
      (mem_packedFiles.mpr ⟨mem_cons_self, by decide⟩)
    exact absurd hfile (by decide +kernel)

end Example

end CrabMate.ArchivePack
