import Mathlib.Data.List.Infix

/-! Directories and files by path, a path being the list of names from the root. A tree does not
change; a disk does. Copying parts of a tree to an empty place of a disk keeps a mirror of it. -/
namespace DirTree
open List Function

inductive Node (β : Type*) where
  | dir
  | file (content : β)
  deriving DecidableEq

/-- What stands at each path. -/
abbrev Disk (α β : Type*) := List α → Option (Node β)

/-- A finite tree. -/
structure Tree (α β : Type*) where
  node : Disk α β
  paths : List (List α)
  mem_paths : ∀ path, path ∈ paths ↔ (node path).isSome
  nodup : paths.Nodup
  parent_dir : ∀ path name, (node (path ++ [name])).isSome → node path = some .dir

variable {α β : Type*}

namespace Tree

variable {t : Tree α β} {p q : List α}

theorem dir_of_append (h : (t.node (p ++ q)).isSome) (hq : q ≠ []) : t.node p = some .dir := by
  induction q using List.reverseRecOn with
  | nil => exact absurd rfl hq
  | append_singleton q name ih =>
    rw [← append_assoc] at h
    have hparent := t.parent_dir (p ++ q) name h
    by_cases hnil : q = []
    · rwa [hnil, append_nil] at hparent
    · exact ih (by rw [hparent]; rfl) hnil

theorem isSome_of_append (h : (t.node (p ++ q)).isSome) : (t.node p).isSome := by
  by_cases hq : q = []
  · rwa [hq, append_nil] at h
  · rw [dir_of_append h hq]
    rfl

theorem eq_of_file_prefix {content : β} (hfile : t.node p = some (.file content)) (hpq : p <+: q)
    (hq : (t.node q).isSome) : q = p := by
  obtain ⟨r, rfl⟩ := hpq
  by_cases hr : r = []
  · rw [hr, append_nil]
  · rw [dir_of_append hq hr] at hfile
    cases hfile

section Listing

variable [DecidableEq α] {entries : List (List α × Node β)}

theorem isSome_lookup_iff : (entries.lookup p).isSome ↔ p ∈ entries.map Prod.fst := by
  rw [lookup_isSome_iff, mem_map]
  constructor
  · rintro ⟨e, he, heq⟩
    exact ⟨e, he, (beq_iff_eq.mp heq).symm⟩
  · rintro ⟨e, he, rfl⟩
    exact ⟨e, he, beq_self_eq_true _⟩

/-- A tree from its listing. -/
def ofEntries (entries : List (List α × Node β)) (hnodup : (entries.map Prod.fst).Nodup)
    (hparent : ∀ path ∈ entries.map Prod.fst,
      path = [] ∨ entries.lookup path.dropLast = some .dir) : Tree α β where
  node path := entries.lookup path
  paths := entries.map Prod.fst
  mem_paths _ := isSome_lookup_iff.symm
  nodup := hnodup
  parent_dir path name h := by
    have hdir := (hparent _ (isSome_lookup_iff.mp h)).resolve_left (by simp)
    rwa [dropLast_concat] at hdir

end Listing

end Tree

section Operations

variable [DecidableEq α]

/-- `mkdir`, which is content with a directory that is there. -/
def makeDir (d : Disk α β) (path : List α) : Option (Disk α β) :=
  match d path with
  | none => some (Function.update d path (some .dir))
  | some .dir => some d
  | some (.file _) => none

/-- A new file, or the one that is there with new content. -/
def putFile (d : Disk α β) (path : List α) (content : β) : Option (Disk α β) :=
  match d path, d path.dropLast with
  | some .dir, _ => none
  | _, some .dir => some (Function.update d path (some (.file content)))
  | _, _ => none

variable {d d' : Disk α β} {path x : List α} {content c : β}

theorem file_of_makeDir (h : makeDir d path = some d') (hx : d' x = some (.file c)) :
    d x = some (.file c) := by
  unfold makeDir at h
  split at h
  · obtain rfl := Option.some.inj h
    by_cases hxp : x = path
    · rw [hxp, update_self] at hx
      cases hx
    · rwa [update_of_ne hxp] at hx
  · obtain rfl := Option.some.inj h
    exact hx
  · cases h

theorem file_of_makeDirs {paths : List (List α)} (h : paths.foldlM makeDir d = some d')
    (hx : d' x = some (.file c)) : d x = some (.file c) := by
  induction paths generalizing d with
  | nil =>
    obtain rfl : d = d' := Option.some.inj h
    exact hx
  | cons p paths ih =>
    rw [foldlM_cons] at h
    obtain ⟨d₁, hmake, hrest⟩ := Option.bind_eq_some_iff.mp h
    exact file_of_makeDir hmake (ih hrest)

theorem putFile_eq (hpath : d path ≠ some .dir) (hparent : d path.dropLast = some .dir) :
    putFile d path content = some (Function.update d path (some (.file content))) := by
  unfold putFile
  split
  · exact absurd ‹_› hpath
  · rfl
  · exact absurd hparent ‹_›

theorem putFile_again (h : putFile d path c = some d') :
    putFile d' path content = putFile d path content := by
  unfold putFile at h
  split at h
  · cases h
  · rename_i hparent hpath
    obtain rfl := Option.some.inj h
    have hne : path.dropLast ≠ path := by
      intro heq
      rw [heq] at hparent
      exact hpath hparent
    rw [putFile_eq hpath hparent, putFile_eq (by rw [update_self]; nofun)
      (by rwa [update_of_ne hne]), update_idem]
  · cases h

theorem file_of_putFile (h : putFile d path content = some d') (hx : d' x = some (.file c)) :
    x = path ∨ d x = some (.file c) := by
  by_cases hxp : x = path
  · exact Or.inl hxp
  · refine Or.inr ?_
    unfold putFile at h
    split at h
    · cases h
    · obtain rfl := Option.some.inj h
      rwa [update_of_ne hxp] at hx
    · cases h

end Operations

section Mirrors

variable {t : Tree α β} {source target : List α} {d d' : Disk α β} {p q : List α}

/-- Below `target` the disk holds nothing but a part of what the tree holds below `source`. -/
structure Mirrors (t : Tree α β) (source target : List α) (d : Disk α β) : Prop where
  above : ∀ p, p <+: target → d p = some .dir
  below : ∀ q n, d (target ++ q) = some n → t.node (source ++ q) = some n

/-- Nothing that was there is gone. -/
def Grows (d d' : Disk α β) : Prop := ∀ p n, d p = some n → d' p = some n

theorem Grows.trans {d'' : Disk α β} (h : Grows d d') (h' : Grows d' d'') : Grows d d'' :=
  fun p n hp => h' p n (h p n hp)

/-- The paths from the root to a place that the tree has are directories on the way. -/
theorem onTheWay (h : (t.node (source ++ q)).isSome) (hp : p <+: target ++ q)
    (hne : p ≠ target ++ q) :
    p <+: target ∨ ∃ r, p = target ++ r ∧ t.node (source ++ r) = some .dir := by
  obtain hp' | hp' := prefix_or_prefix_of_prefix hp (prefix_append target q)
  · exact Or.inl hp'
  · obtain ⟨r, rfl⟩ := hp'
    obtain ⟨s, rfl⟩ := (prefix_append_right_inj target).mp hp
    refine Or.inr ⟨r, rfl, ?_⟩
    rw [← append_assoc] at h
    apply Tree.dir_of_append h
    rintro rfl
    exact hne (by rw [append_nil])

variable [DecidableEq α]

theorem Mirrors.update {n : Node β} (h : Mirrors t source target d) (hq : q ≠ [])
    (hnode : t.node (source ++ q) = some n) (hold : ∀ m, d (target ++ q) = some m → m = n) :
    Mirrors t source target (Function.update d (target ++ q) (some n)) ∧
      Grows d (Function.update d (target ++ q) (some n)) := by
  refine ⟨⟨fun p hp => ?_, fun r m hr => ?_⟩, fun p m hp => ?_⟩
  · have hne : p ≠ target ++ q := by
      rintro rfl
      have hlen := hp.length_le
      rw [length_append] at hlen
      exact hq (eq_nil_of_length_eq_zero (by omega))
    rw [update_of_ne hne]
    exact h.above p hp
  · by_cases hrq : r = q
    · rw [hrq, update_self] at hr
      rw [hrq, hnode, hr]
    · rw [update_of_ne fun heq => hrq (append_cancel_left heq)] at hr
      exact h.below r m hr
  · by_cases hpq : p = target ++ q
    · rw [hpq, update_self, ← hold m (hpq ▸ hp)]
    · rwa [update_of_ne hpq]

theorem Mirrors.makeDir (h : Mirrors t source target d)
    (hp : p <+: target ∨ ∃ q, p = target ++ q ∧ t.node (source ++ q) = some .dir) :
    ∃ d', DirTree.makeDir d p = some d' ∧ Mirrors t source target d' ∧ Grows d d' ∧
      d' p = some .dir := by
  unfold DirTree.makeDir
  cases hd : d p with
  | none =>
    obtain hp | ⟨q, rfl, hnode⟩ := hp
    · rw [h.above p hp] at hd
      cases hd
    · have hq : q ≠ [] := by
        rintro rfl
        rw [append_nil, h.above target prefix_rfl] at hd
        cases hd
      obtain ⟨hmirrors, hgrows⟩ := h.update hq hnode (by rw [hd]; nofun)
      exact ⟨_, rfl, hmirrors, hgrows, update_self ..⟩
  | some n =>
    have hn : n = .dir := by
      obtain hp | ⟨q, rfl, hnode⟩ := hp
      · rw [h.above p hp] at hd
        exact (Option.some.inj hd).symm
      · have hbelow := h.below q n hd
        rw [hnode] at hbelow
        exact (Option.some.inj hbelow).symm
    rw [hn] at hd ⊢
    exact ⟨d, rfl, h, fun _ _ hp => hp, hd⟩

theorem Mirrors.makeDirs {paths : List (List α)} (h : Mirrors t source target d)
    (hpaths : ∀ p ∈ paths, p <+: target ∨ ∃ q, p = target ++ q ∧ t.node (source ++ q) = some .dir) :
    ∃ d', paths.foldlM DirTree.makeDir d = some d' ∧ Mirrors t source target d' ∧ Grows d d' ∧
      ∀ p ∈ paths, d' p = some .dir := by
  induction paths generalizing d with
  | nil => exact ⟨d, rfl, h, fun _ _ hp => hp, nofun⟩
  | cons p paths ih =>
    obtain ⟨d₁, hmake, hmirrors, hgrows, hdir⟩ := h.makeDir (hpaths p mem_cons_self)
    obtain ⟨d₂, hrest, hmirrors₂, hgrows₂, hdirs⟩ := ih hmirrors fun p hp =>
      hpaths p (mem_cons_of_mem _ hp)
    refine ⟨d₂, ?_, hmirrors₂, hgrows.trans hgrows₂, fun r hr => ?_⟩
    · rw [foldlM_cons, hmake]
      exact hrest
    · obtain rfl | hr := mem_cons.mp hr
      · exact hgrows₂ r _ hdir
      · exact hdirs r hr

theorem Mirrors.putFile {content : β} (h : Mirrors t source target d) (hq : q ≠ [])
    (hnode : t.node (source ++ q) = some (.file content))
    (hparent : d (target ++ q).dropLast = some .dir) :
    ∃ d', DirTree.putFile d (target ++ q) content = some d' ∧ Mirrors t source target d' ∧
      Grows d d' ∧ d' (target ++ q) = some (.file content) := by
  have hold : ∀ m, d (target ++ q) = some m → m = .file content := by
    intro m hm
    have hbelow := h.below q m hm
    rw [hnode] at hbelow
    exact (Option.some.inj hbelow).symm
  have hdir : d (target ++ q) ≠ some .dir := by
    intro hd
    cases hold .dir hd
  obtain ⟨hmirrors, hgrows⟩ := h.update hq hnode hold
  exact ⟨_, putFile_eq hdir hparent, hmirrors, hgrows, update_self ..⟩

end Mirrors

end DirTree
