import CrabMate.Context.Budget
import CrabMate.Tools.Envelope

/-! The shortening of tool results before a request. The output inside an envelope is sampled so
that the sample fits; a plain text gets a notice behind the characters it may have, and is too long
again. -/
namespace CrabMate
open RustStr JsonValue List Option

namespace NormalizedToolEnvelope

section Model

/-- How many characters of the head and of the tail a sample keeps. -/
def sampleParts (maxOutputChars : ℕ) : ℕ × ℕ :=
  let innerBudget := max (maxOutputChars - 160) 16
  let half := innerBudget / 2
  let headN := min (max half 1) (innerBudget - 1)
  (headN, max (innerBudget - headN) 1)

def toolOutputHeadTailSample (original : Str) (maxOutputChars : ℕ) : Str × ℕ × ℕ :=
  let total := original.length
  let (headN, tailN) := sampleParts maxOutputChars
  let head := original.take headN
  let tail := (original.reverse.take tailN).reverse
  let omitted := total - (headN + tailN)
  let body := head ++ "\n\n---\n…（省略约 ".toList ++ omitted.repr.toList ++
    " 字符）…\n---\n\n".toList ++ tail ++ "\n\n[输出已采样：原文约 ".toList ++ total.repr.toList ++
    " 字符；仅首尾片段进入模型上下文，可按路径缩小范围或分页读取后重试。]".toList
  (body, headN, tailN)

/-- The envelope with its output sampled. -/
def sampled (env : NormalizedToolEnvelope) (maxChars : ℕ) : NormalizedToolEnvelope :=
  let (body, headN, tailN) := toolOutputHeadTailSample env.output maxChars
  { env with
    output := body
    outputTruncated := true
    outputOriginalChars := some (UInt64.ofNat env.output.length)
    outputKeptHeadChars := some (UInt64.ofNat headN)
    outputKeptTailChars := some (UInt64.ofNat tailN) }

def truncationNotice (totalChars maxChars : ℕ) : Str :=
  "\n\n[... 已截断，原始约 ".toList ++ totalChars.repr.toList ++ " 字符，保留前 ".toList ++
    maxChars.repr.toList ++ " 字符 ...]".toList

/-- `maybe_compress_tool_message_content`. -/
def maybeCompress (serde : ToolJson) (content : Str) (limit : ℕ) : Option Str :=
  let maxChars := max limit 256
  let totalChars := content.length
  if totalChars ≤ maxChars then none
  else
    match parseToolMessageContent serde content with
    | some env =>
      if maxChars < env.output.length then some ((env.sampled maxChars).encodeToMessageLine serde)
      else none
    | none => some (content.take maxChars ++ truncationNotice totalChars maxChars)

/-- The compressed envelope is the same but for the output and what is said about its length. -/
def KeepsFields (env' env : NormalizedToolEnvelope) : Prop :=
  { env' with
    output := env.output
    outputTruncated := env.outputTruncated
    outputOriginalChars := env.outputOriginalChars
    outputKeptHeadChars := env.outputKeptHeadChars
    outputKeptTailChars := env.outputKeptTailChars } = env

/-- A compressed text is not compressed again, and of an envelope only the output is shortened, to
no more than the limit. -/
def CompressesOnce (serde : ToolJson) (content : Str) (limit : ℕ) : Prop :=
  ∀ short, maybeCompress serde content limit = some short →
    maybeCompress serde short limit = none ∧
    ∀ env, parseToolMessageContent serde content = some env →
      ∃ env', parseToolMessageContent serde short = some env' ∧ env'.KeepsFields env ∧
        env'.output.length ≤ limit

/-- The length of a sample under the least limit there is. -/
def leastSample (total : ℕ) : ℕ := 167 + (total - 96).repr.length + total.repr.length

/-- The text is short, or it is an envelope whose output is short or whose sample fits. -/
def FitsOnce (serde : ToolJson) (content : Str) (limit : ℕ) : Prop :=
  content.length ≤ max limit 256 ∨
    ∃ env, parseToolMessageContent serde content = some env ∧
      (env.output.length ≤ max limit 256 ∨ 256 ≤ limit ∨ leastSample env.output.length ≤ limit)

end Model

section Samples

theorem sampleParts_spec {maxChars : ℕ} (h : 256 ≤ maxChars) :
    (sampleParts maxChars).1 + (sampleParts maxChars).2 = maxChars - 160 := by
  simp only [sampleParts]
  omega

theorem length_toolOutputHeadTailSample {original : Str} {maxChars : ℕ} (h : 256 ≤ maxChars)
    (hlong : maxChars < original.length) :
    (toolOutputHeadTailSample original maxChars).1.length = maxChars - 89 +
      (original.length - (maxChars - 160)).repr.length + original.length.repr.length := by
  have hparts := sampleParts_spec h
  simp only [toolOutputHeadTailSample, hparts, length_append, length_take,
    length_reverse, String.length_toList]
  rw [show "\n\n---\n…（省略约 ".length = 12 from String.length_ofList,
    show " 字符）…\n---\n\n".length = 11 from String.length_ofList,
    show "\n\n[输出已采样：原文约 ".length = 13 from String.length_ofList,
    show " 字符；仅首尾片段进入模型上下文，可按路径缩小范围或分页读取后重试。]".length = 35 from
      String.length_ofList]
  omega

theorem length_repr_le {n : ℕ} (h : n < UInt64.size) : n.repr.length ≤ 20 :=
  Nat.repr_length n 20 (by decide) (lt_trans h (by decide))

theorem length_sample_le {original : Str} {maxChars : ℕ} (h : 256 ≤ maxChars)
    (hlong : maxChars < original.length) (hsize : original.length < UInt64.size) :
    (toolOutputHeadTailSample original maxChars).1.length ≤ maxChars := by
  have htotal := length_repr_le hsize
  have homitted : (original.length - (maxChars - 160)).repr.length ≤ 20 :=
    length_repr_le (lt_of_le_of_lt (Nat.sub_le _ _) hsize)
  rw [length_toolOutputHeadTailSample h hlong]
  omega

end Samples

section Once

variable {serde : ToolJson} {content : Str} {limit : ℕ}

theorem getLast?_trim {s : Str} {c : Char} (hlast : s.getLast? = some c)
    (hvisible : isWhitespace c = false) : (trim s).getLast? = some c := by
  have hstart : (trimStart s).getLast? = some c := by
    induction s with
    | nil => cases hlast
    | cons a s ih =>
      cases ha : isWhitespace a with
      | false => rwa [trimStart, dropWhile_cons_of_neg (by simp [ha])]
      | true =>
        rw [trimStart, dropWhile_cons_of_pos ha]
        cases s with
        | nil =>
          rw [getLast?_singleton, Option.some.injEq] at hlast
          rw [hlast, hvisible] at ha
          cases ha
        | cons b s => exact ih (by rwa [getLast?_cons_cons] at hlast)
  have hend : trimEnd (trimStart s) = trimStart s := by
    rw [trimEnd, rdropWhile_eq_self_iff]
    intro hne
    rw [getLast?_eq_some_getLast hne, Option.some.injEq] at hstart
    simp [hstart, hvisible]
  rw [trim, hend, hstart]

/-- A text that is read as an object ends with its brace. -/
def ObjectsEnd (serde : ToolJson) : Prop :=
  ∀ t fields, trim t = t → serde.fromStr t = some (.obj fields) → t.getLast? = some '\x7d'

/-- A text that ends with a bracket is no envelope. -/
theorem parse_eq_none_of_bracket {s : Str} (hlast : s.getLast? = some ']')
    (hobject : ObjectsEnd serde) : parseToolMessageContent serde s = none := by
  have htrim : (trim s).getLast? = some ']' := getLast?_trim hlast (by decide)
  rw [parseToolMessageContent]
  cases hv : serde.fromStr (trim s) with
  | none => rfl
  | some v =>
    cases v with
    | obj fields =>
      have hbrace := hobject _ fields (trim_trim s) hv
      rw [htrim] at hbrace
      exact absurd hbrace (by decide)
    | _ => rfl

theorem categorised_of_parse {env : NormalizedToolEnvelope}
    (h : parseToolMessageContent serde content = some env) : env.Categorised := by
  obtain ⟨ct, -, hct⟩ := bind_eq_some_iff.mp h
  cases ct with
  | obj fields =>
    obtain ⟨name, -, henv⟩ := bind_eq_some_iff.mp hct
    obtain ⟨output, -, rfl⟩ := map_eq_some_iff.mp henv
    intro hnone
    exact (or_eq_none_iff.mp hnone).2
  | _ => cases hct

theorem sampled_keepsFields (env : NormalizedToolEnvelope) (maxChars : ℕ) :
    (env.sampled maxChars).KeepsFields env := by
  rw [sampled, KeepsFields]

theorem getLast?_noticeEnd : " 字符 ...]".toList.getLast? = some ']' := by simp

theorem getLast?_append_of_some {s t : Str} {c : Char} (h : t.getLast? = some c) :
    (s ++ t).getLast? = some c := by
  rw [getLast?_append, h, some_or]

theorem getLast?_truncationNotice (totalChars maxChars : ℕ) :
    (truncationNotice totalChars maxChars).getLast? = some ']' :=
  getLast?_append_of_some getLast?_noticeEnd

/-- A plain text that is shortened is still too long. -/
theorem maybeCompress_plain (limit : ℕ) {text : Str} (hlong : max limit 256 < text.length)
    (hplain : parseToolMessageContent serde text = none) :
    ∃ short, maybeCompress serde text limit = some short ∧
      max limit 256 < short.length ∧ short.getLast? = some ']' := by
  refine ⟨text.take (max limit 256) ++ truncationNotice text.length (max limit 256), ?_, ?_, ?_⟩
  · simp only [maybeCompress, hplain, if_neg (Nat.not_le.mpr hlong)]
  · have hpos : 0 < (truncationNotice text.length (max limit 256)).length := by
      rw [length_pos_iff]
      intro hnil
      have hlast := getLast?_truncationNotice text.length (max limit 256)
      rw [hnil] at hlast
      cases hlast
    rw [length_append, length_take]
    omega
  · exact getLast?_append_of_some (getLast?_truncationNotice _ _)

/-- A plain text that is too long is shortened again and again. -/
theorem not_compressesOnce_plain (hlong : max limit 256 < content.length)
    (hplain : parseToolMessageContent serde content = none) (hobject : ObjectsEnd serde) :
    ¬ CompressesOnce serde content limit := by
  intro h
  obtain ⟨short, hshort, hstill, hbracket⟩ := maybeCompress_plain limit hlong hplain
  have hnone : maybeCompress serde short limit = none := (h short hshort).1
  obtain ⟨again, hagain, -⟩ :=
    maybeCompress_plain limit hstill (parse_eq_none_of_bracket hbracket hobject)
  rw [hnone] at hagain
  cases hagain

/-- A shortened envelope is read as the sampled envelope and is not shortened again. -/
theorem maybeCompress_envelope {env : NormalizedToolEnvelope}
    (henv : parseToolMessageContent serde content = some env)
    (hlong : max limit 256 < env.output.length)
    (hread : Faithful serde (env.sampled (max limit 256)).toRoot)
    (hsize : env.output.length < UInt64.size) :
    let short := (env.sampled (max limit 256)).encodeToMessageLine serde
    parseToolMessageContent serde short = some (env.sampled (max limit 256)) ∧
      maybeCompress serde short limit = none := by
  have hcat : (env.sampled (max limit 256)).Categorised := by
    have hold : env.Categorised := categorised_of_parse henv
    exact hold
  have hparse := parse_encode hcat hread
  have hfits : (env.sampled (max limit 256)).output.length ≤ max limit 256 :=
    length_sample_le (Nat.le_max_right _ _) hlong hsize
  refine ⟨hparse, ?_⟩
  simp only [maybeCompress, hparse, if_neg (Nat.not_lt.mpr hfits), ite_self]

/-- When a tool message is compressed once and for all: a plain text never is, once it is too long,
and the sample of an envelope fits any limit from the least one on. -/
theorem tool_compression_once_iff (serde : ToolJson) (content : Str) (limit : ℕ)
    (hread : ∀ env, parseToolMessageContent serde content = some env →
      Faithful serde (env.sampled (max limit 256)).toRoot)
    (hobject : ObjectsEnd serde)
    (hsize : ∀ env, parseToolMessageContent serde content = some env →
      env.output.length < UInt64.size) :
    CompressesOnce serde content limit ↔ FitsOnce serde content limit := by
  by_cases hlen : content.length ≤ max limit 256
  · have hnone : maybeCompress serde content limit = none := by
      simp only [maybeCompress, if_pos hlen]
    exact iff_of_true (fun short hshort => by rw [hnone] at hshort; cases hshort) (.inl hlen)
  have hlong := Nat.lt_of_not_le hlen
  cases henv : parseToolMessageContent serde content with
  | none =>
    refine iff_of_false (not_compressesOnce_plain hlong henv hobject) ?_
    rintro (hfits | ⟨env, hparse, -⟩)
    · exact hlen hfits
    · rw [henv] at hparse
      cases hparse
  | some env =>
    by_cases hout : env.output.length ≤ max limit 256
    · have hnone : maybeCompress serde content limit = none := by
        simp only [maybeCompress, henv, if_neg hlen, if_neg (Nat.not_lt.mpr hout)]
      exact iff_of_true (fun short hshort => by rw [hnone] at hshort; cases hshort)
        (.inr ⟨env, henv, .inl hout⟩)
    have hover := Nat.lt_of_not_le hout
    obtain ⟨hparse, hagain⟩ :=
      maybeCompress_envelope henv hover (hread env henv) (hsize env henv)
    have hshort : maybeCompress serde content limit =
        some ((env.sampled (max limit 256)).encodeToMessageLine serde) := by
      simp only [maybeCompress, henv, if_neg hlen, if_pos hover]
    have hlength : (env.sampled (max limit 256)).output.length ≤ limit ↔
        256 ≤ limit ∨ leastSample env.output.length ≤ limit := by
      have hfits : (env.sampled (max limit 256)).output.length ≤ max limit 256 :=
        length_sample_le (Nat.le_max_right _ _) hover (hsize env henv)
      by_cases hleast : 256 ≤ limit
      · rw [Nat.max_eq_left hleast] at hfits ⊢
        exact iff_of_true hfits (.inl hleast)
      · have hmax : max limit 256 = 256 := Nat.max_eq_right (by omega)
        rw [hmax] at hover ⊢
        have hexact : (env.sampled 256).output.length = leastSample env.output.length :=
          length_toolOutputHeadTailSample (Nat.le_refl _) hover
        rw [hexact]
        simp [hleast]
    constructor
    · intro h
      obtain ⟨env', henv', -, hle⟩ := (h _ hshort).2 env henv
      rw [hparse, Option.some.injEq] at henv'
      exact .inr ⟨env, henv, .inr (hlength.mp (henv' ▸ hle))⟩
    · rintro (hfits | ⟨env', henv', hcase⟩) short hshort'
      · exact absurd hfits hlen
      · rw [henv, Option.some.injEq] at henv'
        rw [hshort, Option.some.injEq] at hshort'
        subst henv' hshort'
        refine ⟨hagain, fun env' henv' => ?_⟩
        rw [henv, Option.some.injEq] at henv'
        subst henv'
        refine ⟨_, hparse, sampled_keepsFields env _, hlength.mpr ?_⟩
        exact hcase.resolve_left hout

end Once

section Compaction

/-- The answer for envelopes that the compaction of a request is given. -/
def envelopeAnswer (serde : ToolJson) (content : String) (maxChars : ℕ) :
    Option (Option String) :=
  (parseToolMessageContent serde content.toList).map fun env =>
    if maxChars < env.output.length then
      some (String.ofList ((env.sampled maxChars).encodeToMessageLine serde))
    else none

theorem ofList_append_interpolated (kept : Str) (a b c : String) (n m : ℕ) :
    String.ofList kept ++ (toString a ++ toString n ++ toString b ++ toString m ++ toString c) =
      String.ofList (kept ++
        (a.toList ++ n.repr.toList ++ b.toList ++ m.repr.toList ++ c.toList)) := by
  simp only [String.ofList_append, String.ofList_toList]
  rfl

theorem maybeCompressToolMessageContent_eq (serde : ToolJson) (content : String) (limit : ℕ) :
    maybeCompressToolMessageContent (envelopeAnswer serde) content limit =
      (maybeCompress serde content.toList limit).map String.ofList := by
  simp only [maybeCompressToolMessageContent, maybeCompress, envelopeAnswer,
    String.length_toList]
  split
  · rfl
  cases parseToolMessageContent serde content.toList with
  | some env =>
    simp only [map_some]
    split
    · simp only [map_some]
    · simp only [map_none]
  | none =>
    exact congrArg some (ofList_append_interpolated _ _ _ _ _ _)

end Compaction

section Instances

/-- A long text without an envelope. -/
def plainText : Str := List.replicate 300 'x'

theorem plain_text_compressed_again :
    ¬ CompressesOnce ⟨fun _ => none, fun _ => []⟩ plainText 256 := by
  refine not_compressesOnce_plain ?_ rfl (fun t fields _ h => by cases h)
  rw [plainText, length_replicate]
  omega

def longListing : NormalizedToolEnvelope :=
  fromToolRun "ls".toList "ls".toList ⟨true, none, [], [], none⟩ plainText none none

/-- The line of a listing, with its output as JSON writes it and the counts behind it. -/
def listingLine (output counts : Str) : Str :=
  '\x7b' :: ("\"crabmate_tool\":\x7b\"name\":\"ls\",\"ok\":true,\"output\":\"".toList ++ output ++
    '"' :: counts ++ ",\"summary\":\"ls\",\"v\":1\x7d".toList ++ ['\x7d'])

def sampledLine : Str :=
  listingLine (List.replicate 48 'x' ++ "\\n\\n---\\n…（省略约 204 字符）…\\n---\\n\\n".toList ++
      List.replicate 48 'x' ++ ("\\n\\n[输出已采样：原文约 300 字符；" ++
        "仅首尾片段进入模型上下文，可按路径缩小范围或分页读取后重试。]").toList)
    (",\"output_kept_head_chars\":48,\"output_kept_tail_chars\":48," ++
      "\"output_original_chars\":300,\"output_truncated\":true").toList

theorem getLast?_listingLine (output counts : Str) :
    (listingLine output counts).getLast? = some '\x7d' := by
  rw [listingLine, ← cons_append, getLast?_append]
  rfl

theorem trim_listingLine (output counts : Str) :
    trim (listingLine output counts) = listingLine output counts := by
  refine trim_eq_self_of_ends (fun c rest h => ?_) (fun h => ?_)
  · rw [← (List.cons.inj h).1]
    decide
  · have hlast := getLast?_listingLine output counts
    rw [getLast?_eq_some_getLast h, Option.some.injEq] at hlast
    rw [hlast]
    decide

/-- The reader and printer on the listing, before and after. -/
def listingJson : ToolJson where
  fromStr line :=
    if line = sampledLine then some (longListing.sampled 256).toRoot
    else if line = listingLine plainText [] then some longListing.toRoot
    else none
  toStr v :=
    if v = (longListing.sampled 256).toRoot then sampledLine else listingLine plainText []

-- The two lines differ after the first 48 characters of their outputs.
theorem sampledLine_ne : listingLine plainText [] ≠ sampledLine := by decide +kernel

theorem listingJson_reads : parseToolMessageContent listingJson (listingLine plainText []) =
    some longListing := by
  refine parse_of_reads (fun h => h) (trim_listingLine _ _) ?_
  simp only [listingJson, if_neg sampledLine_ne, if_true]

theorem listingJson_faithful : Faithful listingJson (longListing.sampled 256).toRoot where
  trimmed := by
    simp only [listingJson, if_true]
    exact trim_listingLine _ _
  reads := by simp only [listingJson, if_true]

theorem listingJson_objectsEnd : ObjectsEnd listingJson := by
  intro t fields _ h
  simp only [listingJson] at h
  split at h
  next hline => rw [hline, sampledLine, getLast?_listingLine]
  next =>
    split at h
    next hline => rw [hline, getLast?_listingLine]
    next => cases h

theorem tool_compression_once_iff_listing :
    CompressesOnce listingJson (listingLine plainText []) 256 := by
  have hread : ∀ env, parseToolMessageContent listingJson (listingLine plainText []) = some env →
      env = longListing := by
    intro env henv
    rw [listingJson_reads, Option.some.injEq] at henv
    exact henv.symm
  refine (tool_compression_once_iff listingJson _ 256 (fun env henv => ?_) listingJson_objectsEnd
    (fun env henv => ?_)).mpr (.inr ⟨_, listingJson_reads, .inr (.inl (Nat.le_refl _))⟩)
  · rw [hread env henv]
    exact listingJson_faithful
  · rw [hread env henv]
    have houtput : longListing.output = plainText := rfl
    rw [houtput, plainText, length_replicate]
    decide

end Instances

end NormalizedToolEnvelope
end CrabMate
