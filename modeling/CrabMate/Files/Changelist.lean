import CrabMate.Lib.Str
import CrabMate.Lib.Table

/-! The changelist of a session: the paths its tools have written, each with the content before the
first write and after the last one. -/
namespace CrabMate

open RustStr (Str)

structure TrackedFile where
  rel : Str
  baseline : Option Str
  current : Option Str
  deriving DecidableEq

/-- `order` holds the paths in the order of their first write, `revision` counts the records. -/
structure WorkspaceChangelist where
  order : List Str
  files : Table TrackedFile.rel
  revision : ℕ
  deriving DecidableEq

namespace WorkspaceChangelist

def empty : WorkspaceChangelist := ⟨[], Table.empty, 0⟩

def recordMutation (cl : WorkspaceChangelist) (relPath : Str) (before after : Option Str) :
    WorkspaceChangelist :=
  let rel := RustStr.trim relPath
  if rel.isEmpty then cl
  else if (cl.files.lookup rel).isSome then
    { cl with
      files := cl.files.updateWhere (fun t => t.rel = rel) (fun t => { t with current := after })
        fun _ => rfl
      revision := cl.revision + 1 }
  else ⟨cl.order ++ [rel], cl.files.put ⟨rel, before, after⟩, cl.revision + 1⟩

end WorkspaceChangelist

end CrabMate
