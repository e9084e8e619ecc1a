import CrabMate.Lib.SqlLike

/-! The text side of the code index: how a file's text is cut into chunks, the hash of a chunk,
and the path texts under which rows are stored and deleted. -/
namespace CrabMate
namespace CodebaseIndex

open RustStr

/-- `str::len`: the number of bytes of the UTF-8 form. -/
def byteLen (s : Str) : ℕ := s.foldl (fun n c => n + c.utf8Size) 0

/-- Fills one chunk from the given lines, `taken` of which are in it already; `none` when the
first line with text is longer than a chunk. -/
def tryAccumulateLineChunk (maxChunk : ℕ) : List Str → ℕ → Str → Option (ℕ × Str)
  | [], taken, chunk => some (taken, chunk)
  | line :: lines, taken, chunk =>
    let addLen := if chunk.isEmpty then byteLen line else 1 + byteLen line
    if chunk.isEmpty ∧ maxChunk < addLen then none
    else if ¬ chunk.isEmpty ∧ maxChunk < byteLen chunk + addLen then some (taken, chunk)
    else
      -- an empty chunk takes no line break: leading blank lines leave no trace
      let chunk := if chunk.isEmpty then line else chunk ++ '\n' :: line
      if maxChunk ≤ byteLen chunk then some (taken + 1, chunk)
      else tryAccumulateLineChunk maxChunk lines (taken + 1) chunk

/-- The number of whole characters at the start of the text that fit into `budget` bytes. -/
def fitting (budget : ℕ) : Str → ℕ
  | [] => 0
  | c :: s => if c.utf8Size ≤ budget then fitting (budget - c.utf8Size) s + 1 else 0

/-- The end of the next part of a long line, at least one character on. -/
def nextSafeChunkEnd (maxChunk : ℕ) (rest : Str) : ℕ :=
  if fitting maxChunk rest = 0 then 1 else fitting maxChunk rest

structure TextChunk where
  startLine : ℕ
  endLine : ℕ
  body : Str
  deriving DecidableEq

/-- Cuts a line that is longer than a chunk; the number of its characters bounds the rounds. -/
def pushLongLineChunks (maxChunk lineNo : ℕ) : ℕ → Str → List TextChunk
  | 0, _ => []
  | _ + 1, [] => []
  | rounds + 1, c :: rest =>
    let stop := nextSafeChunkEnd maxChunk (c :: rest)
    ⟨lineNo, lineNo, (c :: rest).take stop⟩ ::
      pushLongLineChunks maxChunk lineNo rounds ((c :: rest).drop stop)

/-- The chunks of the lines from index `i` on; the number of lines bounds the rounds. -/
def chunkLines (maxChunk : ℕ) : ℕ → ℕ → List Str → List TextChunk
  | 0, _, _ => []
  | _ + 1, _, [] => []
  | rounds + 1, i, line :: lines =>
    match tryAccumulateLineChunk maxChunk (line :: lines) 0 [] with
    | none =>
      pushLongLineChunks maxChunk (i + 1) line.length line ++
        chunkLines maxChunk rounds (i + 1) lines
    | some (taken, chunk) =>
      ⟨i + 1, i + taken, chunk⟩ ::
        chunkLines maxChunk rounds (i + taken) ((line :: lines).drop taken)

def chunkTextLines (s : Str) (maxChunk : ℕ) : List TextChunk :=
  let s := s.rdropWhile fun c => c = '\n'
  if s.isEmpty ∨ maxChunk = 0 then []
  else chunkLines maxChunk (lines s).length 0 (lines s)

theorem one_le_nextSafeChunkEnd (maxChunk : ℕ) (rest : Str) :
    1 ≤ nextSafeChunkEnd maxChunk rest := by
  unfold nextSafeChunkEnd
  split
  · exact le_refl 1
  · omega

theorem pushLongLineChunks_rounds (maxChunk lineNo : ℕ) {rounds : ℕ} {line : Str}
    (h : line.length ≤ rounds) :
    pushLongLineChunks maxChunk lineNo rounds line =
      pushLongLineChunks maxChunk lineNo (rounds + 1) line := by
  induction rounds generalizing line with
  | zero =>
    obtain rfl : line = [] := List.length_eq_zero_iff.mp (by omega)
    rfl
  | succ rounds ih =>
    cases line with
    | nil => rfl
    | cons c rest =>
      have hstop := one_le_nextSafeChunkEnd maxChunk (c :: rest)
      have hlen : ((c :: rest).drop (nextSafeChunkEnd maxChunk (c :: rest))).length ≤ rounds := by
        rw [List.length_drop]
        omega
      rw [pushLongLineChunks, pushLongLineChunks, ih hlen]

theorem le_taken_of_tryAccumulateLineChunk {maxChunk : ℕ} {lines : List Str} {start stop : ℕ}
    {acc chunk : Str} (h : tryAccumulateLineChunk maxChunk lines start acc = some (stop, chunk)) :
    start ≤ stop := by
  induction lines generalizing start acc with
  | nil =>
    cases h
    exact le_refl _
  | cons line lines ih =>
    rw [tryAccumulateLineChunk] at h
    dsimp only at h
    split_ifs at h with h₁ h₂ h₃ h₄ h₅
    all_goals first
      | (cases h; omega)
      | exact Nat.le_of_succ_le (ih h)

/-- A chunk takes at least the line it starts with. -/
theorem one_le_taken {maxChunk taken : ℕ} {line chunk : Str} {lines : List Str}
    (h : tryAccumulateLineChunk maxChunk (line :: lines) 0 [] = some (taken, chunk)) :
    1 ≤ taken := by
  rw [tryAccumulateLineChunk] at h
  simp only [List.isEmpty_nil, ↓reduceIte, true_and, not_true_eq_false, false_and] at h
  split_ifs at h with h₁ h₂
  · cases h
    exact le_refl 1
  · exact le_taken_of_tryAccumulateLineChunk h

/-- Each round takes at least one line, so the rounds never run out. -/
theorem chunkLines_rounds (maxChunk i : ℕ) {rounds : ℕ} {ls : List Str} (h : ls.length ≤ rounds) :
    chunkLines maxChunk rounds i ls = chunkLines maxChunk (rounds + 1) i ls := by
  induction rounds generalizing ls i with
  | zero =>
    obtain rfl : ls = [] := List.length_eq_zero_iff.mp (by omega)
    rfl
  | succ rounds ih =>
    cases ls with
    | nil => rfl
    | cons line lines =>
      rw [chunkLines, chunkLines]
      cases hacc : tryAccumulateLineChunk maxChunk (line :: lines) 0 [] with
      | none =>
        have hlen : lines.length ≤ rounds := by simpa using h
        simp only [ih (i + 1) hlen]
      | some filled =>
        have htaken : 1 ≤ filled.1 := one_le_taken hacc
        have hlen : ((line :: lines).drop filled.1).length ≤ rounds := by
          rw [List.length_drop]
          omega
        simp only [ih (i + filled.1) hlen]

/-- The text with `/` for every backslash. -/
def replaceBackslash (s : Str) : Str := s.map fun c => if c = '\\' then '/' else c

/-- The key under which a file's rows are stored. -/
def relPathForWorkspace (wsRoot file : List Str) : Option Str :=
  if wsRoot.isPrefixOf file then
    let s := replaceBackslash (['/'].intercalate (file.drop wsRoot.length))
    some (if s.isEmpty then ['.'] else s)
  else none

/-- The prefix that a rebuild of a sub-path deletes by; `none` stands for the whole workspace. -/
def posixSubdirPrefixForDelete (sub : Str) : Option Str :=
  let s := ((trim (replaceBackslash sub)).dropWhile fun c => c = '/').rdropWhile fun c => c = '/'
  if s.isEmpty ∨ s = ['.'] then none else some s

def sqliteLikeEscape (s : Str) : Str := SqlLike.escape '\\' s

/-- `rel_path = prefix OR rel_path LIKE pattern ESCAPE '\'`, with the pattern the code builds for
the paths below the prefix. -/
def subtreeSelects (dir rel : Str) : Bool :=
  rel == dir || SqlLike.like '\\' (sqliteLikeEscape (dir ++ "/%".toList)) rel

/-- The `%` that was to stand for any file below the prefix is escaped with the rest of the
pattern, so the pattern stands for one path, whose last name is `%`. -/
theorem subtreeSelects_iff (dir rel : Str) :
    subtreeSelects dir rel = true ↔
      rel = dir ∨ (dir ++ "/%".toList).map Char.toLower = rel.map Char.toLower := by
  rw [subtreeSelects, Bool.or_eq_true, beq_iff_eq, sqliteLikeEscape, SqlLike.like_escape]

example : chunkTextLines "\n\nab\ncd\nefghijk\n".toList 5 =
    [⟨1, 4, "ab\ncd".toList⟩, ⟨5, 5, "efghi".toList⟩, ⟨5, 5, "jk".toList⟩] := by decide

end CodebaseIndex
end CrabMate
