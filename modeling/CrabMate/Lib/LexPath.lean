import CrabMate.Lib.Str

/-! Lexical paths in the manner of `std::path` on Unix. A resolved directory is the list of its
names from the file system root, which is its own parent. A path is a list of components; its
normal form says when it stays below the directory it is joined to. -/
namespace LexPath
open List

inductive Component (α : Type*) where
  | rootDir
  | curDir
  | parentDir
  | normal (name : α)
  deriving DecidableEq

variable {α : Type*}

def walk (dir : List α) : Component α → List α
  | .rootDir => []
  | .curDir => dir
  | .parentDir => dir.dropLast
  | .normal name => dir ++ [name]

/-- Where a path leads from `dir` when there are no symbolic links. -/
def resolve (dir : List α) (path : List (Component α)) : List α := path.foldl walk dir

theorem resolve_append (dir : List α) (p q : List (Component α)) :
    resolve dir (p ++ q) = resolve (resolve dir p) q := foldl_append

theorem resolve_normal (dir names : List α) :
    resolve dir (names.map .normal) = dir ++ names := by
  induction names generalizing dir with
  | nil => simp [resolve]
  | cons name names ih =>
    show resolve (dir ++ [name]) (names.map .normal) = dir ++ name :: names
    rw [ih, append_assoc]
    rfl

/-- The absolute path of a resolved directory. -/
def absolute (dir : List α) : List (Component α) := .rootDir :: dir.map .normal

theorem resolve_absolute (dir names : List α) : resolve dir (absolute names) = names := by
  show resolve [] (names.map .normal) = names
  rw [resolve_normal, nil_append]

def isAbsolute : List (Component α) → Bool
  | .rootDir :: _ => true
  | _ => false

/-- `Path::join`: an absolute path replaces the base. -/
def join (base path : List (Component α)) : List (Component α) :=
  if isAbsolute path then path else base ++ path

/-- `Path::parent`. -/
def parent (path : List (Component α)) : Option (List (Component α)) :=
  match path.getLast? with
  | none => none
  | some .rootDir => none
  | some _ => some path.dropLast

theorem resolve_join (dir : List α) (path : List (Component α)) :
    resolve [] (join (absolute dir) path) = resolve dir path := by
  cases path with
  | nil => exact (congrArg _ (append_nil _)).trans (resolve_absolute [] dir)
  | cons c path =>
    cases c with
    | rootDir => rfl
    | curDir | parentDir | normal =>
      show resolve [] (absolute dir ++ _) = _
      rw [resolve_append, resolve_absolute]

/-- `ups` steps up, then down through `names`; from the file system root when `absolute`. -/
structure NormalForm (α : Type*) where
  absolute : Bool
  ups : ℕ
  names : List α

namespace NormalForm

def push (nf : NormalForm α) : Component α → NormalForm α
  | .rootDir => ⟨true, 0, []⟩
  | .curDir => nf
  | .parentDir =>
    if nf.names.isEmpty then
      if nf.absolute then nf else { nf with ups := nf.ups + 1 }
    else { nf with names := nf.names.dropLast }
  | .normal name => { nf with names := nf.names ++ [name] }

def base (nf : NormalForm α) (dir : List α) : List α :=
  if nf.absolute then [] else dir.take (dir.length - nf.ups)

def apply (nf : NormalForm α) (dir : List α) : List α := nf.base dir ++ nf.names

theorem walk_apply (nf : NormalForm α) (dir : List α) (c : Component α) :
    walk (nf.apply dir) c = (nf.push c).apply dir := by
  cases c with
  | rootDir => rfl
  | curDir => rfl
  | normal name => exact append_assoc _ _ _
  | parentDir =>
    obtain ⟨abs, ups, names⟩ := nf
    cases names with
    | nil =>
      cases abs with
      | true => rfl
      | false =>
        show (dir.take (dir.length - ups) ++ []).dropLast = dir.take (dir.length - (ups + 1)) ++ []
        rw [append_nil, append_nil, dropLast_eq_take, take_take,
          length_take]
        congr 1
        omega
    | cons name names => exact dropLast_append_of_ne_nil (by simp)

/-- From `dir` the path leads to a place below `dir`: the names it goes down through begin with
the ones it went up. -/
def Stays (nf : NormalForm α) (dir : List α) : Prop :=
  if nf.absolute then dir <+: nf.names else dir.drop (dir.length - nf.ups) <+: nf.names

instance [DecidableEq α] (nf : NormalForm α) (dir : List α) : Decidable (nf.Stays dir) := by
  unfold Stays
  infer_instance

theorem stays_iff (nf : NormalForm α) (dir : List α) : nf.Stays dir ↔ dir <+: nf.apply dir := by
  obtain ⟨abs, ups, names⟩ := nf
  cases abs with
  | true => exact Iff.rfl
  | false =>
    show dir.drop (dir.length - ups) <+: names ↔ dir <+: dir.take (dir.length - ups) ++ names
    conv_rhs => lhs; rw [← take_append_drop (dir.length - ups) dir]
    rw [prefix_append_right_inj]

end NormalForm

def normalize (path : List (Component α)) : NormalForm α :=
  path.foldl NormalForm.push ⟨false, 0, []⟩

theorem resolve_eq_normalize (dir : List α) (path : List (Component α)) :
    resolve dir path = (normalize path).apply dir := by
  have hfold : ∀ nf : NormalForm α,
      resolve (nf.apply dir) path = (path.foldl NormalForm.push nf).apply dir := by
    induction path with
    | nil => exact fun nf => rfl
    | cons c path ih =>
      intro nf
      show resolve (walk (nf.apply dir) c) path = _
      rw [nf.walk_apply dir c, ih (nf.push c)]
      rfl
  have hstart : (⟨false, 0, []⟩ : NormalForm α).apply dir = dir := by
    simp [NormalForm.apply, NormalForm.base]
  rw [normalize, ← hfold, hstart]

/-- A joined path leads below its base exactly if its normal form says so. -/
theorem stays_iff_resolve (dir : List α) (path : List (Component α)) :
    (normalize path).Stays dir ↔ dir <+: resolve [] (join (absolute dir) path) := by
  rw [resolve_join, resolve_eq_normalize, NormalForm.stays_iff]

section Text

open RustStr

def component (part : Str) : Option (Component Str) :=
  if part = [] ∨ part = ['.'] then none
  else if part = ['.', '.'] then some .parentDir
  else some (.normal part)

/-- `Path::components`: repeated separators and inner `.` disappear. -/
def components (s : Str) : List (Component Str) :=
  let parts := s.splitOn '/'
  let body := parts.filterMap component
  if startsWith ['/'] s then .rootDir :: body
  else if parts.head? = some ['.'] then .curDir :: body
  else body

end Text
end LexPath
