import CrabMate.Index.Chunks
import CrabMate.Lib.Lines
import CrabMate.Lib.Search

/-! The chunks of a file cover it: their line ranges follow each other, and their texts put
together are the lines of the file. -/
namespace CrabMate
open List
namespace CodebaseIndex

open RustStr

section Bytes

theorem byteLen_eq (s : Str) : byteLen s = utf8Len s := by
  have h : ∀ n, s.foldl (fun n c => n + c.utf8Size) n = n + utf8Len s := by
    induction s with
    | nil => exact fun n => rfl
    | cons c s ih =>
      intro n
      rw [foldl_cons, ih, utf8Len_cons, Nat.add_assoc]
  rw [byteLen, h, Nat.zero_add]

theorem byteLen_take_fitting (budget : ℕ) (s : Str) :
    byteLen (s.take (fitting budget s)) ≤ budget := by
  rw [byteLen_eq]
  induction s generalizing budget with
  | nil => exact Nat.zero_le _
  | cons c s ih =>
    rw [fitting]
    split
    · next hfit =>
      rw [take_succ_cons, utf8Len_cons]
      have := ih (budget - c.utf8Size)
      omega
    · exact Nat.zero_le _

/-- A part of a long line has at most `maxChunk` bytes or is a single character. -/
theorem size_take_nextSafeChunkEnd (maxChunk : ℕ) {rest : Str} (hne : rest ≠ []) :
    byteLen (rest.take (nextSafeChunkEnd maxChunk rest)) ≤ maxChunk ∨
      (rest.take (nextSafeChunkEnd maxChunk rest)).length = 1 := by
  unfold nextSafeChunkEnd
  split
  · right
    have := length_pos_iff.mpr hne
    rw [length_take]
    omega
  · exact .inl (byteLen_take_fitting maxChunk rest)

end Bytes

/-- The text without its newlines. -/
def flat (s : Str) : Str := s.filter fun c => c ≠ '\n'

theorem flat_append (s t : Str) : flat (s ++ t) = flat s ++ flat t := filter_append _ _

theorem flat_eq_self {line : Str} (h : '\n' ∉ line) : flat line = line :=
  filter_eq_self.mpr fun _ hc => decide_eq_true fun heq => h (heq ▸ hc)

section Covers

/-- A piece of the over-long line number `n`. -/
def PieceOf (ls : List Str) (maxChunk n : ℕ) (c : TextChunk) : Prop :=
  c.startLine = n ∧ c.endLine = n ∧ ∃ line, ls[n - 1]? = some line ∧ maxChunk < byteLen line

/-- The chunks cover the lines `i + 1` to `j`. -/
structure Covers (ls : List Str) (maxChunk i j : ℕ) (chunks : List TextChunk) : Prop where
  range : ∀ c ∈ chunks, i < c.startLine ∧ c.startLine ≤ c.endLine ∧ c.endLine ≤ j
  ordered : chunks.Pairwise fun a b => a.endLine < b.startLine ∨
    ∃ n, PieceOf ls maxChunk n a ∧ PieceOf ls maxChunk n b
  part : ∀ c ∈ chunks, c.body <:+: unlines ((ls.take c.endLine).drop (c.startLine - 1)) false
  text : (chunks.flatMap fun c => flat c.body) = ((ls.take j).drop i).flatten
  size : ∀ c ∈ chunks, byteLen c.body ≤ maxChunk ∨ c.body.length = 1

variable {ls : List Str} {maxChunk i j k : ℕ} {chunks rest : List TextChunk}

theorem Covers.nil : Covers ls maxChunk i i [] where
  range := nofun
  ordered := List.Pairwise.nil
  part := nofun
  text := by rw [drop_take, Nat.sub_self, take_zero]; rfl
  size := nofun

theorem Covers.append (h : Covers ls maxChunk i j chunks) (hrest : Covers ls maxChunk j k rest)
    (hij : i ≤ j) (hjk : j ≤ k) (hj : j ≤ ls.length) : Covers ls maxChunk i k (chunks ++ rest) where
  range := fun c hc => by
    rcases mem_append.mp hc with hc | hc
    · have := h.range c hc
      omega
    · have := hrest.range c hc
      omega
  ordered := pairwise_append.mpr ⟨h.ordered, hrest.ordered, fun a ha b hb =>
    .inl ((h.range a ha).2.2.trans_lt (hrest.range b hb).1)⟩
  part := fun c hc => (mem_append.mp hc).elim (h.part c) (hrest.part c)
  text := by
    have hsplit : (ls.take k).drop i = (ls.take j).drop i ++ (ls.take k).drop j := by
      have htake : (ls.take k).take j = ls.take j := by rw [take_take, Nat.min_eq_left hjk]
      have hle : i ≤ (ls.take j).length := by
        rw [length_take]
        omega
      rw [← drop_append_of_le_length hle, ← htake, take_append_drop]
    rw [flatMap_append, h.text, hrest.text, hsplit, flatten_append]
  size := fun c hc => (mem_append.mp hc).elim (h.size c) (hrest.size c)

end Covers

section LongLine

variable {ls : List Str} {maxChunk i rounds lineNo : ℕ} {line rest : Str}

theorem pushLongLineChunks_piece {c : TextChunk}
    (hc : c ∈ pushLongLineChunks maxChunk lineNo rounds rest) :
    (c.startLine = lineNo ∧ c.endLine = lineNo) ∧ c.body <:+: rest ∧
      (byteLen c.body ≤ maxChunk ∨ c.body.length = 1) := by
  induction rounds generalizing rest with
  | zero => cases hc
  | succ rounds ih =>
    cases rest with
    | nil => cases hc
    | cons ch rest =>
      rw [pushLongLineChunks] at hc
      rcases mem_cons.mp hc with rfl | hc
      · exact ⟨⟨rfl, rfl⟩, (List.take_prefix _ _).isInfix,
          size_take_nextSafeChunkEnd maxChunk (cons_ne_nil ch rest)⟩
      · obtain ⟨hline, hinfix, hsize⟩ := ih hc
        exact ⟨hline, hinfix.trans (drop_suffix _ _).isInfix, hsize⟩

theorem pushLongLineChunks_flatMap (h : rest.length ≤ rounds) :
    (pushLongLineChunks maxChunk lineNo rounds rest).flatMap TextChunk.body = rest := by
  induction rounds generalizing rest with
  | zero =>
    obtain rfl : rest = [] := length_eq_zero_iff.mp (by omega)
    rfl
  | succ rounds ih =>
    cases rest with
    | nil => rfl
    | cons ch rest =>
      have hstop := one_le_nextSafeChunkEnd maxChunk (ch :: rest)
      have hlen : ((ch :: rest).drop (nextSafeChunkEnd maxChunk (ch :: rest))).length ≤ rounds := by
        rw [length_drop]
        omega
      rw [pushLongLineChunks, flatMap_cons, ih hlen]
      exact take_append_drop _ _

theorem take_drop_one (h : ls[i]? = some line) : (ls.take (i + 1)).drop i = [line] := by
  obtain ⟨hi, -⟩ := List.getElem?_eq_some_iff.mp h
  have hle : (ls.take i).length ≤ i := length_take_le i ls
  rw [take_add_one, h, drop_append, drop_eq_nil_of_le hle, length_take]
  rw [Nat.min_eq_left hi.le, Nat.sub_self]
  rfl

theorem covers_pushLongLineChunks (hline : ls[i]? = some line) (hnl : '\n' ∉ line)
    (hlong : line = [] ∨ maxChunk < byteLen line) :
    Covers ls maxChunk i (i + 1) (pushLongLineChunks maxChunk (i + 1) line.length line) where
  range := fun c hc => by
    have := (pushLongLineChunks_piece hc).1
    omega
  ordered := by
    rcases hlong with rfl | hlong
    · exact List.Pairwise.nil
    · refine pairwise_of_forall_mem_list fun a ha b hb => .inr ⟨i + 1, ?_, ?_⟩
      · obtain ⟨hstart, hend⟩ := (pushLongLineChunks_piece ha).1
        exact ⟨hstart, hend, line, hline, hlong⟩
      · obtain ⟨hstart, hend⟩ := (pushLongLineChunks_piece hb).1
        exact ⟨hstart, hend, line, hline, hlong⟩
  part := fun c hc => by
    obtain ⟨⟨hstart, hend⟩, hinfix, -⟩ := pushLongLineChunks_piece hc
    rw [hstart, hend, Nat.add_sub_cancel, take_drop_one hline, unlines_singleton]
    simpa using hinfix
  text := by
    have hflat : ∀ c ∈ pushLongLineChunks maxChunk (i + 1) line.length line,
        flat c.body = c.body := fun c hc =>
      flat_eq_self fun hmem => hnl ((pushLongLineChunks_piece hc).2.1.subset hmem)
    rw [take_drop_one hline, flatMap_congr hflat, pushLongLineChunks_flatMap (le_refl _)]
    exact (append_nil line).symm
  size := fun c hc => (pushLongLineChunks_piece hc).2.2

end LongLine

section Accumulate

variable {ls lines consumed : List Str} {maxChunk i taken stop : ℕ} {chunk body line : Str}

/-- The chunk holds the consumed lines, but for line breaks in front of its first text. -/
structure Accumulated (maxChunk : ℕ) (consumed : List Str) (chunk : Str) : Prop where
  suffix : chunk <:+ unlines consumed false
  text : flat chunk = consumed.flatten
  size : byteLen chunk ≤ maxChunk

theorem unlines_concat (hne : consumed ≠ []) (line : Str) :
    unlines (consumed ++ [line]) false = unlines consumed false ++ '\n' :: line := by
  induction consumed with
  | nil => exact absurd rfl hne
  | cons first consumed ih =>
    cases consumed with
    | nil => simp [unlines]
    | cons second consumed =>
      have hlast : second :: consumed ++ [line] ≠ [] := cons_ne_nil _ _
      rw [cons_append, unlines_cons first hlast, ih (cons_ne_nil _ _),
        unlines_cons first (cons_ne_nil second consumed), append_assoc,
        cons_append]

theorem Accumulated.start (maxChunk : ℕ) : Accumulated maxChunk [] [] :=
  ⟨suffix_rfl, rfl, Nat.zero_le _⟩

theorem Accumulated.first (h : Accumulated maxChunk consumed []) (hnl : '\n' ∉ line)
    (hsize : byteLen line ≤ maxChunk) : Accumulated maxChunk (consumed ++ [line]) line where
  suffix := by
    by_cases hne : consumed = []
    · rw [hne, nil_append, unlines_singleton]
      simp
    · rw [unlines_concat hne]
      exact (suffix_cons _ _).trans (suffix_append _ _)
  text := by
    rw [flatten_append, ← h.text, flat_eq_self hnl]
    simp [flat]
  size := hsize

theorem Accumulated.next (h : Accumulated maxChunk consumed chunk) (hne : chunk ≠ [])
    (hnl : '\n' ∉ line) (hsize : byteLen chunk + (1 + byteLen line) ≤ maxChunk) :
    Accumulated maxChunk (consumed ++ [line]) (chunk ++ '\n' :: line) where
  suffix := by
    have hconsumed : consumed ≠ [] := by
      rintro rfl
      exact hne (suffix_nil.mp h.suffix)
    rw [unlines_concat hconsumed]
    obtain ⟨pre, hpre⟩ := h.suffix
    exact ⟨pre, by rw [← append_assoc, hpre]⟩
  text := by
    have hbreak : flat ('\n' :: line) = line := by
      rw [flat, filter_cons_of_neg (by simp)]
      exact flat_eq_self hnl
    rw [flat_append, h.text, hbreak, flatten_append]
    simp
  size := by
    rw [byteLen_eq, byteLen_eq] at hsize
    rw [byteLen_eq, utf8Len_append, utf8Len_cons]
    have hone : Char.utf8Size '\n' = 1 := by decide
    omega

theorem accumulated_of_tryAccumulate (h : Accumulated maxChunk consumed chunk)
    (hnl : ∀ line ∈ lines, '\n' ∉ line)
    (hfill : tryAccumulateLineChunk maxChunk lines taken chunk = some (stop, body)) :
    ∃ n ≤ lines.length, stop = taken + n ∧ Accumulated maxChunk (consumed ++ lines.take n) body := by
  induction lines generalizing taken chunk consumed with
  | nil =>
    cases hfill
    exact ⟨0, le_refl _, rfl, by simpa using h⟩
  | cons line lines ih =>
    have hline := hnl line mem_cons_self
    have hlines : ∀ l ∈ lines, '\n' ∉ l := fun l hl => hnl l (mem_cons_of_mem _ hl)
    -- what is left to do once the line is in the chunk
    have htaken : ∀ chunk, Accumulated maxChunk (consumed ++ [line]) chunk →
        (if maxChunk ≤ byteLen chunk then some (taken + 1, chunk)
          else tryAccumulateLineChunk maxChunk lines (taken + 1) chunk) = some (stop, body) →
        ∃ n ≤ (line :: lines).length, stop = taken + n ∧
          Accumulated maxChunk (consumed ++ (line :: lines).take n) body := by
      intro chunk hchunk hfill
      split at hfill
      · cases hfill
        exact ⟨1, by simp, rfl, by simpa using hchunk⟩
      · obtain ⟨n, hn, rfl, hbody⟩ := ih hchunk hlines hfill
        refine ⟨n + 1, by simpa using hn, by omega, ?_⟩
        rwa [take_succ_cons, append_cons]
    rw [tryAccumulateLineChunk] at hfill
    cases chunk with
    | nil =>
      simp only [isEmpty_nil, if_true, true_and, not_true_eq_false, false_and, if_false]
        at hfill
      split at hfill
      · cases hfill
      · next hfits => exact htaken line (h.first hline (not_lt.mp hfits)) hfill
    | cons c chunk =>
      simp only [isEmpty_cons, Bool.false_eq_true, false_and, if_false, not_false_eq_true,
        true_and] at hfill
      split at hfill
      · cases hfill
        exact ⟨0, Nat.zero_le _, rfl, by simpa using h⟩
      · next hfits =>
        exact htaken _ (h.next (cons_ne_nil c chunk) hline (not_lt.mp hfits)) hfill

theorem tryAccumulate_ne_none (hne : chunk ≠ []) :
    tryAccumulateLineChunk maxChunk lines taken chunk ≠ none := by
  induction lines generalizing taken chunk with
  | nil => exact Option.some_ne_none _
  | cons line lines ih =>
    rw [tryAccumulateLineChunk]
    have hempty : chunk.isEmpty = false := isEmpty_eq_false_iff.mpr hne
    simp only [hempty, Bool.false_eq_true, false_and, if_false, not_false_eq_true, true_and]
    split
    · exact Option.some_ne_none _
    · split
      · exact Option.some_ne_none _
      · exact ih (by simp)

/-- The line that is cut is over-long, or it is a blank line in front of such a line. -/
theorem long_of_tryAccumulate_eq_none
    (h : tryAccumulateLineChunk maxChunk (line :: lines) 0 [] = none) :
    line = [] ∨ maxChunk < byteLen line := by
  by_contra hnot
  rw [not_or, not_lt] at hnot
  rw [tryAccumulateLineChunk] at h
  simp only [isEmpty_nil, if_true, true_and, not_true_eq_false, false_and, if_false,
    if_neg (not_lt.mpr hnot.2)] at h
  split at h
  · cases h
  · exact tryAccumulate_ne_none hnot.1 h

theorem covers_accumulated {n : ℕ} (hn : 1 ≤ n)
    (h : Accumulated maxChunk ((ls.drop i).take n) body) :
    Covers ls maxChunk i (i + n) [⟨i + 1, i + n, body⟩] := by
  have hlines : (ls.take (i + n)).drop i = (ls.drop i).take n := by
    rw [drop_take, Nat.add_sub_cancel_left]
  constructor
  · intro c hc
    rw [mem_singleton.mp hc]
    exact ⟨Nat.lt_succ_self i, Nat.add_le_add_left hn i, le_refl _⟩
  · exact pairwise_singleton _ _
  · intro c hc
    rw [mem_singleton.mp hc]
    show body <:+: unlines ((ls.take (i + n)).drop (i + 1 - 1)) false
    rw [Nat.add_sub_cancel, hlines]
    exact h.suffix.isInfix
  · rw [hlines, ← h.text]
    exact append_nil _
  · intro c hc
    rw [mem_singleton.mp hc]
    exact .inl h.size

end Accumulate

section File

variable {ls : List Str} {maxChunk i rounds : ℕ}

/-- The chunks from the line with index `i` on: one chunk or the pieces of one line, and then the
chunks of the lines behind. -/
theorem covers_chunkLines (hnl : ∀ line ∈ ls, '\n' ∉ line) (hi : i ≤ ls.length)
    (hrounds : (ls.drop i).length ≤ rounds) :
    Covers ls maxChunk i ls.length (chunkLines maxChunk rounds i (ls.drop i)) := by
  induction rounds generalizing i with
  | zero =>
    have hend : i = ls.length := by
      rw [length_drop] at hrounds
      omega
    rw [hend]
    exact Covers.nil
  | succ rounds ih =>
    cases hlines : ls.drop i with
    | nil =>
      have hend : i = ls.length := by
        have := drop_eq_nil_iff.mp hlines
        omega
      rw [hend]
      exact Covers.nil
    | cons line lines =>
      have hline : ls[i]? = some line := by rw [← head?_drop, hlines]; rfl
      have hlt : i < ls.length := (List.getElem?_eq_some_iff.mp hline).1
      have htail : lines = ls.drop (i + 1) := by
        rw [← tail_drop, hlines]
        rfl
      rw [length_drop] at hrounds
      rw [chunkLines]
      cases hfill : tryAccumulateLineChunk maxChunk (line :: lines) 0 [] with
      | none =>
        have hcut := covers_pushLongLineChunks hline
          (hnl line (mem_of_getElem? hline)) (long_of_tryAccumulate_eq_none hfill)
        have hrest := ih (i := i + 1) hlt (by rw [length_drop]; omega)
        rw [← htail] at hrest
        exact hcut.append hrest (Nat.le_succ i) hlt hlt
      | some filled =>
        obtain ⟨taken, chunk⟩ := filled
        have hone := one_le_taken hfill
        obtain ⟨n, hn, htaken, hchunk⟩ := accumulated_of_tryAccumulate (Accumulated.start maxChunk)
          (fun l hl => hnl l (mem_of_mem_drop (hlines ▸ hl))) hfill
        rw [Nat.zero_add] at htaken
        subst htaken
        rw [nil_append, ← hlines] at hchunk
        rw [← hlines, length_drop] at hn
        have hrest := ih (i := i + taken) (by omega) (by rw [length_drop]; omega)
        have hdrop : (line :: lines).drop taken = ls.drop (i + taken) := by
          rw [← hlines, drop_drop]
        rw [← hdrop] at hrest
        exact (covers_accumulated hone hchunk).append hrest (Nat.le_add_right i taken)
          (by omega) (by omega)

/-- The number of rounds that is given is enough: more of them change nothing. -/
theorem chunkLines_of_le (hrounds : ls.length ≤ rounds) :
    chunkLines maxChunk rounds i ls = chunkLines maxChunk ls.length i ls := by
  induction rounds, hrounds using Nat.le_induction with
  | base => rfl
  | succ rounds hle ih => rw [← chunkLines_rounds maxChunk i hle, ih]

theorem pushLongLineChunks_of_le {line : Str} (lineNo : ℕ) (hrounds : line.length ≤ rounds) :
    pushLongLineChunks maxChunk lineNo rounds line =
      pushLongLineChunks maxChunk lineNo line.length line := by
  induction rounds, hrounds using Nat.le_induction with
  | base => rfl
  | succ rounds hle ih => rw [← pushLongLineChunks_rounds maxChunk lineNo hle, ih]

/-- Without its trailing newlines a text loses blank lines only, unless a carriage return is left
at its end. -/
theorem lines_trimEndNewlines {s : Str}
    (h : trimEndNewlines s = s ∨ (trimEndNewlines s).getLast? ≠ some '\r') :
    ∃ n, lines s = lines (trimEndNewlines s) ++ List.replicate n [] := by
  induction s using List.reverseRecOn with
  | nil => exact ⟨0, rfl⟩
  | append_singleton t c ih =>
    by_cases hc : c = '\n'
    · subst hc
      rw [trimEndNewlines_concat] at h ⊢
      have hcr : (trimEndNewlines t).getLast? ≠ some '\r' := by
        refine h.resolve_left fun heq => ?_
        have hle : (trimEndNewlines t).length ≤ t.length := (List.rdropWhile_prefix _ _).length_le
        rw [heq, length_append, length_singleton] at hle
        omega
      by_cases ht : t = [] ∨ t.getLast? = some '\n'
      · obtain ⟨n, hn⟩ := ih (.inr hcr)
        refine ⟨n + 1, ?_⟩
        rw [lines_blank ht, hn, append_assoc, replicate_succ']
      · rw [not_or] at ht
        rw [trimEndNewlines_eq_self ht.2] at hcr ⊢
        obtain ⟨front, line, hlines, hcomplete, hlast⟩ := lines_complete ht.1 ht.2
        have hstrip : stripCr line = line := if_neg (hlast ▸ hcr)
        exact ⟨0, by rw [hcomplete, hlines, hstrip, replicate_zero, append_nil]⟩
    · rw [trimEndNewlines_eq_self (by rw [getLast?_concat]; simpa using hc)]
      exact ⟨0, by simp⟩

theorem Covers.append_blank {chunks : List TextChunk} (h : Covers ls maxChunk 0 ls.length chunks)
    (n : ℕ) : Covers (ls ++ List.replicate n []) maxChunk 0 (ls ++ List.replicate n []).length
      chunks where
  range := fun c hc => by
    have := h.range c hc
    rw [length_append]
    omega
  ordered := by
    refine h.ordered.imp fun {a b} hab => hab.imp_right ?_
    rintro ⟨number, ⟨ha, ha', line, hline, hlong⟩, hb, hb', -⟩
    have hget : (ls ++ List.replicate n [])[number - 1]? = some line :=
      (getElem?_append_left (List.getElem?_eq_some_iff.mp hline).1).trans hline
    exact ⟨number, ⟨ha, ha', line, hget, hlong⟩, hb, hb', line, hget, hlong⟩
  part := fun c hc => by
    rw [take_append_of_le_length (h.range c hc).2.2]
    exact h.part c hc
  text := by
    rw [h.text, drop_zero, drop_zero, take_length, take_length,
      flatten_append]
    simp
  size := h.size

/-- Chunking covers the lines of the text without its trailing newlines; these are the lines of
the text, but for blank ones, unless a carriage return is left at its end. -/
theorem chunk_text_lines_covers (s : Str) (maxChunk : ℕ) (h : 1 ≤ maxChunk) :
    (∀ rounds i, (lines (trimEndNewlines s)).length ≤ rounds →
        chunkLines maxChunk rounds i (lines (trimEndNewlines s)) =
          chunkLines maxChunk (lines (trimEndNewlines s)).length i (lines (trimEndNewlines s))) ∧
      (∀ line rounds lineNo, line.length ≤ rounds →
        pushLongLineChunks maxChunk lineNo rounds line =
          pushLongLineChunks maxChunk lineNo line.length line) ∧
      Covers (lines (trimEndNewlines s)) maxChunk 0 (lines (trimEndNewlines s)).length
        (chunkTextLines s maxChunk) ∧
      (trimEndNewlines s = s ∨ (trimEndNewlines s).getLast? ≠ some '\r' →
        Covers (lines s) maxChunk 0 (lines s).length (chunkTextLines s maxChunk)) := by
  have hcovers : Covers (lines (trimEndNewlines s)) maxChunk 0 (lines (trimEndNewlines s)).length
      (chunkTextLines s maxChunk) := by
    have htrim : (s.rdropWhile fun c => c = '\n') = trimEndNewlines s := rfl
    simp only [chunkTextLines, htrim]
    split
    · next hnone =>
      obtain hempty | hzero := hnone
      · rw [List.isEmpty_iff.mp hempty]
        exact Covers.nil
      · omega
    · exact covers_chunkLines (fun line => newline_not_mem_of_mem_lines) (Nat.zero_le _) (le_refl _)
  refine ⟨fun rounds i => chunkLines_of_le, fun line rounds lineNo =>
    pushLongLineChunks_of_le lineNo, hcovers, fun hcr => ?_⟩
  obtain ⟨n, hn⟩ := lines_trimEndNewlines hcr
  rw [hn]
  exact hcovers.append_blank n

theorem chunk_text_lines_covers_example :
    Covers (lines "\n\nab\n你好吗\n".toList) 5 0 4
      (chunkTextLines "\n\nab\n你好吗\n".toList 5) :=
  (chunk_text_lines_covers "\n\nab\n你好吗\n".toList 5 (by decide)).2.2.2 (by decide +kernel)

/-- The carriage return of the last line is no part of that line, but of its chunk. -/
theorem chunk_keeps_carriage_return :
    ¬ ∀ (s : Str) (maxChunk : ℕ), 1 ≤ maxChunk →
      Covers (lines s) maxChunk 0 (lines s).length (chunkTextLines s maxChunk) := by
  intro h
  exact absurd (h "a\r\n".toList 10 (by decide)).text (by decide +kernel)

end File

end CodebaseIndex
end CrabMate
