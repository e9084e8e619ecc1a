import CrabMate.Lib.Str

/-! Which tools count as having effects. A configuration may give a list of its own in place of the
built-in one. -/
namespace CrabMate
open RustStr

def builtinWriteEffectTools : List Str :=
  ["create_file", "modify_file", "copy_file", "move_file", "delete_files", "delete_dir",
    "append_file", "create_dir", "search_replace", "apply_patch", "structured", "archive_pack",
    "archive_unpack", "long_term_remember", "long_term_forget", "summarize_experience",
    "run_command", "terminal_session", "python_snippet_run", "pytest_run", "cargo_test",
    "cargo_run", "workflow_execute", "http_request", "gh_api", "gh_pr", "gh_run",
    "gh_issue_create", "gh_release_create", "skill_manage", "background_job_cancel", "reminder",
    "event"].map String.toList

inductive ToolOrigin where
  | builtin
  | mcp
  | dynamic
  deriving DecidableEq

def toolOrigin (name : Str) : ToolOrigin :=
  if startsWith "mcp__".toList name then .mcp
  else if startsWith "dyn__".toList name then .dynamic
  else .builtin

/-- The registry's own reading of the list; the one of the index is `CodebaseIndex.isReadonlyTool`. -/
def isReadonlyTool (writeEffectTools : Option (List Str)) (name : Str) : Bool :=
  toolOrigin name = .builtin && !(writeEffectTools.getD builtinWriteEffectTools).contains name

def dedupCacheExemptTools : List Str := ["background_job", "background_job_wait"].map String.toList

/-- The tools whose outputs take part in the cache of a batch. -/
def toolOutputDedupCacheEligible (writeEffectTools : Option (List Str)) (name : Str) : Bool :=
  isReadonlyTool writeEffectTools name && !dedupCacheExemptTools.contains name

end CrabMate
