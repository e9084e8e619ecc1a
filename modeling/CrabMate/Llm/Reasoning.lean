import CrabMate.Llm.SseParser
import Mathlib.Data.List.Chain

/-! The reasoning text of a streamed reply. The endpoint sends it over one of two channels, in
pieces or as growing snapshots, and the parser tells the two apart by the text alone. -/
namespace CrabMate
open RustStr (Str)
open List
open SseConsumeScratch (newFragment)

variable {U : Type}

/-- `none` stands for `reasoning_content`, `some i` for the `i`-th of the `reasoning_details`. -/
abbrev ReasoningChannel := Option ℕ

section Heard

def detailText (detail : JsonValue) : Option Str :=
  ((detail.get? "text").bind JsonValue.asStr?).map String.toList

/-- The pieces of reasoning in a delta, in the order in which they are read. -/
def StreamDelta.reasoningSent (d : StreamDelta) : List (ReasoningChannel × Str) :=
  let details := d.reasoningDetails.getD []
  if details.isEmpty then (d.reasoningContent.map fun text => (none, text)).toList
  else ((List.range details.length).zip details).filterMap fun e =>
    (detailText e.2).map fun text => (some e.1, text)

def StreamChunk.reasoningSent (c : StreamChunk U) : List (ReasoningChannel × Str) :=
  match (c.choices.getD []).head? with
  | some choice => choice.delta.reasoningSent
  | none => []

/-- The reasoning so far, and the last text at each position of the details. -/
structure Heard where
  acc : Str
  last : ℕ → Str

def Heard.hear (s : Heard) : ReasoningChannel × Str → Heard
  | (none, text) => { s with acc := s.acc ++ newFragment s.acc text }
  | (some i, text) =>
    ⟨s.acc ++ newFragment (s.last i) text, Function.update s.last i text⟩

def SseConsumeScratch.heard (s : SseConsumeScratch U) : Heard :=
  ⟨s.accum.reasoningAcc, fun i => s.minimaxReasoningSnaps.getD i []⟩

theorem heard_accumulateDetail {s : SseConsumeScratch U} {i : ℕ}
    (hi : i < s.minimaxReasoningSnaps.length) (v : JsonValue) :
    (s.accumulateDetail (i, v)).minimaxReasoningSnaps.length = s.minimaxReasoningSnaps.length ∧
      (s.accumulateDetail (i, v)).heard =
        ((detailText v).map fun text => (some i, text)).toList.foldl Heard.hear s.heard := by
  unfold SseConsumeScratch.accumulateDetail detailText
  cases htext : (v.get? "text").bind JsonValue.asStr? with
  | none => exact ⟨rfl, rfl⟩
  | some text =>
    refine ⟨length_set .., ?_⟩
    have hlast : (fun j => (s.minimaxReasoningSnaps.set i text.toList).getD j []) =
        Function.update (fun j => s.minimaxReasoningSnaps.getD j []) i text.toList := by
      funext j
      by_cases hj : j = i
      · subst hj
        simp [List.getD, hi]
      · simp [List.getD, Function.update_of_ne hj, getElem?_set_ne (Ne.symm hj)]
    change Heard.mk _ (fun j => (s.minimaxReasoningSnaps.set i text.toList).getD j []) = _
    rw [hlast]
    rfl

theorem heard_details (es : List (ℕ × JsonValue)) {s : SseConsumeScratch U}
    (hes : ∀ e ∈ es, e.1 < s.minimaxReasoningSnaps.length) :
    (es.foldl SseConsumeScratch.accumulateDetail s).heard =
      (es.filterMap fun e => (detailText e.2).map fun text => (some e.1, text)).foldl Heard.hear
        s.heard := by
  induction es generalizing s with
  | nil => rfl
  | cons e es ih =>
    obtain ⟨he, hes⟩ := forall_mem_cons.mp hes
    obtain ⟨hlen, hheard⟩ := heard_accumulateDetail he e.2
    rw [foldl_cons, ih (by simpa only [hlen] using hes), hheard]
    cases hd : detailText e.2 with
    | none => simp [hd]
    | some text => simp [hd]

theorem heard_extend (s : SseConsumeScratch U) (n : ℕ) :
    { s with minimaxReasoningSnaps := s.minimaxReasoningSnaps ++ List.replicate n [] }.heard =
      s.heard := by
  unfold SseConsumeScratch.heard
  congr 1
  funext i
  by_cases hi : i < s.minimaxReasoningSnaps.length
  · simp [List.getD, getElem?_append_left hi]
  · have hle : s.minimaxReasoningSnaps.length ≤ i := by omega
    simp only [List.getD, getElem?_append_right hle, getElem?_eq_none hle,
      getElem?_replicate]
    split <;> rfl

theorem heard_ingestReasoning (s : SseConsumeScratch U) (d : StreamDelta) :
    (s.ingestReasoning d).heard = d.reasoningSent.foldl Heard.hear s.heard := by
  unfold SseConsumeScratch.ingestReasoning StreamDelta.reasoningSent
  cases hdetails : (d.reasoningDetails.getD []).isEmpty with
  | true =>
    simp only [hdetails, if_true]
    cases d.reasoningContent <;> rfl
  | false =>
    simp only [hdetails, Bool.false_eq_true, if_false]
    generalize d.reasoningDetails.getD [] = details
    let wide : SseConsumeScratch U :=
      { s with minimaxReasoningSnaps := s.minimaxReasoningSnaps ++
          List.replicate (details.length - s.minimaxReasoningSnaps.length) [] }
    have hwide : wide.heard = s.heard := heard_extend s _
    have hroom : ∀ e ∈ (List.range details.length).zip details,
        e.1 < wide.minimaxReasoningSnaps.length := by
      intro e he
      have hlt := mem_range.mp (of_mem_zip he).1
      simp only [wide, length_append, length_replicate]
      omega
    have hheard := heard_details _ hroom
    rw [hwide] at hheard
    cases d.reasoningContent <;> exact hheard

theorem heard_ingestChunk (s : SseConsumeScratch U) (c : StreamChunk U) :
    (s.ingestChunk c).heard = c.reasoningSent.foldl Heard.hear s.heard := by
  unfold SseConsumeScratch.ingestChunk StreamChunk.reasoningSent
  cases (c.choices.getD []).head? with
  | none => cases c.usage <;> rfl
  | some choice =>
    have hfinish : (s.applyFinishReason choice).heard = s.heard := by
      unfold SseConsumeScratch.applyFinishReason
      split <;> rfl
    have hstep := heard_ingestReasoning (s.applyFinishReason choice) choice.delta
    rw [hfinish] at hstep
    cases c.usage <;> exact hstep

theorem heard_run (chunks : List (StreamChunk U)) (s : SseConsumeScratch U) :
    (chunks.foldl SseConsumeScratch.ingestChunk s).heard =
      (chunks.flatMap StreamChunk.reasoningSent).foldl Heard.hear s.heard := by
  induction chunks generalizing s with
  | nil => rfl
  | cons c chunks ih =>
    rw [foldl_cons, ih, heard_ingestChunk, flatMap_cons, foldl_append]

end Heard

section Fragments

variable {acc f t last : Str} {fs : List Str}

theorem newFragment_suffix (acc t : Str) : newFragment acc t <:+ t := by
  unfold newFragment
  split
  · exact drop_suffix _ _
  · exact suffix_rfl

theorem append_newFragment (h : acc <+: t) : acc ++ newFragment acc t = t := by
  obtain ⟨rest, rfl⟩ := h
  simp [newFragment, RustStr.startsWith]

/-- A piece is taken whole unless it begins with what it is compared with. -/
theorem newFragment_eq_iff : newFragment acc t = t ↔ acc = [] ∨ ¬ acc <+: t := by
  by_cases h : acc <+: t
  · have hlen := congrArg List.length (append_newFragment h)
    rw [length_append] at hlen
    constructor
    · intro heq
      rw [heq] at hlen
      exact .inl (length_eq_zero_iff.mp (by omega))
    · rintro (rfl | hnot)
      · exact append_newFragment nil_prefix
      · exact absurd h hnot
  · refine iff_of_true ?_ (.inr h)
    rw [newFragment, if_neg]
    rwa [RustStr.startsWith, isPrefixOf_iff_prefix]

/-- What is taken of each piece, where `next` says what the following one is compared with. -/
def taken (next : Str → Str → Str) : Str → List Str → List Str
  | _, [] => []
  | seen, f :: fs => newFragment seen f :: taken next (next seen f) fs

variable {next : Str → Str → Str}

theorem taken_suffixes (seen : Str) (fs : List Str) :
    List.Forall₂ (· <:+ ·) (taken next seen fs) fs := by
  induction fs generalizing seen with
  | nil => exact .nil
  | cons f fs ih => exact .cons (newFragment_suffix seen f) (ih _)

theorem length_flatten_le {us ts : List Str} (h : List.Forall₂ (· <:+ ·) us ts) :
    us.flatten.length ≤ ts.flatten.length := by
  induction h with
  | nil => exact Nat.le_refl _
  | cons hut _ ih =>
    have hlen := hut.length_le
    rw [flatten_cons, flatten_cons, length_append, length_append]
    omega

theorem flatten_eq_iff {us ts : List Str} (h : List.Forall₂ (· <:+ ·) us ts) :
    us.flatten = ts.flatten ↔ us = ts := by
  refine ⟨fun heq => ?_, congrArg _⟩
  induction h with
  | nil => rfl
  | cons hut hrest ih =>
    have hrestLen := length_flatten_le hrest
    have hlen := congrArg List.length heq
    rw [flatten_cons, flatten_cons, length_append, length_append] at hlen
    have hle := hut.length_le
    obtain rfl := hut.eq_of_length (by omega)
    rw [ih (append_cancel_left heq)]

theorem taken_grown_iff (seen : Str) (fs : List Str) :
    taken (fun seen f => seen ++ newFragment seen f) seen fs = fs ↔
      ∀ pre f post, fs = pre ++ f :: post →
        seen ++ pre.flatten = [] ∨ ¬ (seen ++ pre.flatten) <+: f := by
  induction fs generalizing seen with
  | nil => simp [taken]
  | cons f fs ih =>
    rw [taken, List.cons.injEq, newFragment_eq_iff]
    constructor
    · rintro ⟨hf, hfs⟩ pre g post heq
      rw [newFragment_eq_iff.mpr hf, ih] at hfs
      cases pre with
      | nil =>
        cases heq
        rwa [flatten_nil, append_nil]
      | cons f' pre =>
        rw [cons_append] at heq
        obtain ⟨rfl, hpost⟩ := List.cons.inj heq
        have hrest := hfs pre g post hpost
        rwa [append_assoc] at hrest
    · intro h
      have hf := h [] f fs rfl
      rw [flatten_nil, append_nil] at hf
      refine ⟨hf, ?_⟩
      rw [newFragment_eq_iff.mpr hf, ih]
      intro pre g post heq
      have hrest := h (f :: pre) g post (by rw [heq, cons_append])
      rwa [flatten_cons, ← append_assoc] at hrest

theorem taken_last_iff (seen : Str) (fs : List Str) :
    taken (fun _ f => f) seen fs = fs ↔
      (seen :: fs).IsChain fun p f => p = [] ∨ ¬ p <+: f := by
  induction fs generalizing seen with
  | nil => simp [taken]
  | cons f fs ih => rw [taken, List.cons.injEq, newFragment_eq_iff, ih, isChain_cons_cons]

theorem taken_snapshots (hnext : ∀ a t, a <+: t → next a t = t) (seen : Str) (fs : List Str)
    (hfs : (seen :: fs).IsChain (· <+: ·)) :
    seen ++ (taken next seen fs).flatten = fs.getLast?.getD seen := by
  induction fs generalizing seen with
  | nil => simp [taken]
  | cons f fs ih =>
    obtain ⟨hf, hfs⟩ := isChain_cons_cons.mp hfs
    rw [taken, flatten_cons, ← append_assoc, append_newFragment hf, hnext _ _ hf,
      ih f hfs, getLast?_cons, Option.getD_some]

/-- What the next piece of a channel is compared with. -/
def ReasoningChannel.compared : ReasoningChannel → Str → Str → Str
  | none, seen, f => seen ++ newFragment seen f
  | some _, _, f => f

def Heard.seen (s : Heard) : ReasoningChannel → Str
  | none => s.acc
  | some i => s.last i

/-- One channel: the text grows by what is taken of each piece. -/
theorem acc_hear_channel (channel : ReasoningChannel) (fs : List Str) (s : Heard) :
    ((fs.map fun f => (channel, f)).foldl Heard.hear s).acc =
      s.acc ++ (taken channel.compared (s.seen channel) fs).flatten := by
  induction fs generalizing s with
  | nil => simp [taken]
  | cons f fs ih =>
    rw [map_cons, foldl_cons, ih, taken, flatten_cons, ← append_assoc]
    cases channel with
    | none => rfl
    | some i =>
      have hseen : (s.hear (some i, f)).seen (some i) = f := Function.update_self ..
      rw [hseen]
      rfl

end Fragments

section Claim

/-- No piece begins with what the parser compares it with: all the text before it, or the piece
before it at the same position. -/
def ReasoningChannel.KeepsApart : ReasoningChannel → List Str → Prop
  | none, fs => ∀ pre f post, fs = pre ++ f :: post → pre ≠ [] → ¬ pre.flatten <+: f
  | some _, fs => fs.IsChain fun p f => ¬ p <+: f

theorem keepsApart_iff {channel : ReasoningChannel} {fs : List Str} (hfs : ∀ f ∈ fs, f ≠ []) :
    taken channel.compared [] fs = fs ↔ channel.KeepsApart fs := by
  cases channel with
  | none =>
    refine (taken_grown_iff [] fs).trans ?_
    constructor
    · intro h pre f post heq hpre
      obtain hnil | hnot := h pre f post heq
      · obtain ⟨g, hg⟩ := exists_mem_of_ne_nil pre hpre
        have hgnil := List.flatten_eq_nil_iff.mp hnil g hg
        exact absurd hgnil (hfs g (heq ▸ mem_append_left _ hg))
      · exact hnot
    · intro h pre f post heq
      by_cases hpre : pre = []
      · exact .inl (by rw [hpre]; rfl)
      · exact .inr (h pre f post heq hpre)
  | some i =>
    refine (taken_last_iff [] fs).trans ?_
    cases fs with
    | nil => exact iff_of_true (.singleton _) .nil
    | cons f fs =>
      rw [isChain_cons_cons]
      have hmem : ∀ p t, p ∈ f :: fs → t ∈ f :: fs → ((p = [] ∨ ¬ p <+: t) ↔ ¬ p <+: t) :=
        fun p t hp _ => or_iff_right (hfs p hp)
      exact ⟨fun h => (List.IsChain.iff_of_mem_imp hmem).mp h.2,
        fun h => ⟨.inl rfl, (List.IsChain.iff_of_mem_imp hmem).mpr h⟩⟩

/-- Pieces sent over one channel come out as their concatenation exactly if no piece begins with
what it is compared with; growing snapshots always come out as the last one. -/
theorem reasoning_accumulates (chunks : List (StreamChunk U)) (channel : ReasoningChannel)
    (fragments : List Str)
    (hsent : chunks.flatMap StreamChunk.reasoningSent = fragments.map fun f => (channel, f))
    (hne : ∀ f ∈ fragments, f ≠ []) :
    ((chunks.foldl SseConsumeScratch.ingestChunk .new).accum.reasoningAcc = fragments.flatten ↔
        channel.KeepsApart fragments) ∧
      (fragments.IsChain (· <+: ·) →
        (chunks.foldl SseConsumeScratch.ingestChunk .new).accum.reasoningAcc =
          fragments.getLast?.getD []) := by
  have hacc : (chunks.foldl SseConsumeScratch.ingestChunk .new).accum.reasoningAcc =
      (taken channel.compared [] fragments).flatten := by
    have hrun := congrArg Heard.acc (heard_run chunks (.new : SseConsumeScratch U))
    rw [hsent, acc_hear_channel] at hrun
    cases channel <;> exact hrun
  constructor
  · rw [hacc, flatten_eq_iff (taken_suffixes [] fragments), keepsApart_iff hne]
  · intro hgrow
    have hnext : ∀ a t, a <+: t → channel.compared a t = t := by
      intro a t h
      cases channel with
      | none => exact append_newFragment h
      | some i => rfl
    have hlast := taken_snapshots hnext [] fragments ?_
    · rw [hacc]
      exact hlast
    · cases fragments with
      | nil => exact .singleton _
      | cons f fs => exact isChain_cons_cons.mpr ⟨List.nil_prefix, hgrow⟩

/-- A chunk with one piece of `reasoning_content`. -/
def contentChunk (text : Str) : StreamChunk Unit :=
  ⟨some [⟨⟨none, some text, none, none⟩, none⟩], none⟩

theorem reasoning_accumulates_ab :
    (([['a'], ['b']].map contentChunk).foldl SseConsumeScratch.ingestChunk
      .new).accum.reasoningAcc = ['a', 'b'] := by
  have hne : ∀ f ∈ [['a'], ['b']], f ≠ [] := by decide
  refine (reasoning_accumulates _ none [['a'], ['b']] rfl hne).1.mpr ?_
  refine (keepsApart_iff hne).mp (by decide)

/-- A piece that repeats the text so far is taken for a snapshot of it. -/
theorem not_reasoning_concatenated :
    ¬ ∀ (chunks : List (StreamChunk Unit)) (fragments : List Str),
      chunks.flatMap StreamChunk.reasoningSent = fragments.map (fun f => (none, f)) →
        (∀ f ∈ fragments, f ≠ []) →
          (chunks.foldl SseConsumeScratch.ingestChunk .new).accum.reasoningAcc =
            fragments.flatten := by
  intro h
  have hbad := h ([['a'], ['a']].map contentChunk) [['a'], ['a']] rfl (by decide)
  revert hbad
  decide

end Claim
end CrabMate
