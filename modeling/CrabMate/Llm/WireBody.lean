import CrabMate.Llm.SystemFolding

/-! What the upstream takes: the passes that make the body of a request, followed row by row. A
row whose role only reads as `tool` passes for a tool result on the way, but is sent as it is. -/
namespace CrabMate
open RustStr List Option

section Model

/-- A condition on each row with calls and the rows behind it. -/
def AllCallers (p : Message → List Message → Prop) : List Message → Prop
  | [] => True
  | m :: ms => (m.callsTools = true → p m ms) ∧ AllCallers p ms

def isTool (m : Message) : Bool := m.role == "tool"

/-- The ids that are answered by the tool rows right behind. -/
def answeredIds (behind : List Message) : List String :=
  (behind.takeWhile isTool).filterMap Message.toolCallId

/-- Each tool row stands behind a row that `takes` it; `prev` is the row in front of the list. -/
def FollowsFrom (takes : Message → Bool) (prev : Option Message) : List Message → Prop
  | [] => True
  | m :: ms => (m.role = "tool" → prev.any takes = true) ∧ FollowsFrom takes (some m) ms

/-- A tool row, or an assistant row with calls. -/
def takesTool (m : Message) : Bool := isTool m || m.callsTools

def ValidArguments (serde : ToolJson) (m : Message) : Prop :=
  ∀ call ∈ m.calls, (serde.fromStr call.function.arguments.toList).isSome = true

/-- A body the upstream takes. -/
structure WireBody (serde : ToolJson) (rows : List Message) : Prop where
  separated : NoAdjacentAssistants rows
  speaking : ∀ m ∈ rows, roleIs "assistant" m = true →
    messageContentIsEffectivelyEmpty m = false ∨ m.hasNonEmptyToolCalls = true
  answered : AllCallers (fun m behind => ∀ call ∈ m.calls, call.id ∈ answeredIds behind) rows
  follow : FollowsFrom takesTool none rows
  arguments : ∀ m ∈ rows, ValidArguments serde m

/-- The run of rows behind a row with calls holds tool rows only, or the tool rows at its head
answer all calls. -/
def AnsweredByTools (m : Message) (behind : List Message) : Prop :=
  (∀ t ∈ toolRun behind, t.role = "tool") ∨ ∀ call ∈ m.calls, call.id ∈ answeredIds behind

/-- Among the rows that are sent, no row that only reads as a tool row passes for an answer that is
missing, and only assistant rows have calls that need mending. -/
structure Sendable (serde : ToolJson) (messages : List Message) : Prop where
  answered : AllCallers AnsweredByTools (messages.filter Message.sentToModel)
  arguments : ∀ m ∈ messages, m.sentToModel = true → roleIs "assistant" m = false →
    ValidArguments serde m

/-- The printer writes what the reader reads. -/
structure PrintsJson (serde : ToolJson) : Prop where
  reads : ∀ t v, serde.fromStr t = some v → (serde.fromStr (serde.toStr v)).isSome = true
  empty : (serde.fromStr "\x7b\x7d".toList).isSome = true

end Model

section Callers

variable {p q : Message → List Message → Prop} {m : Message} {ms : List Message}

theorem allCallers_congr (h : ∀ m behind, p m behind ↔ q m behind) :
    AllCallers p ms ↔ AllCallers q ms := by
  induction ms with
  | nil => rfl
  | cons m ms ih => rw [AllCallers, AllCallers, h, ih]

theorem allCallers_cons_of_not (h : m.callsTools = false) :
    AllCallers p (m :: ms) ↔ AllCallers p ms := by
  simp [AllCallers, h]

theorem allCallers_map {f : Message → Message} (hf : ∀ m, (f m).callsTools = m.callsTools) :
    AllCallers p (ms.map f) ↔ AllCallers (fun m behind => p (f m) (behind.map f)) ms := by
  induction ms with
  | nil => rfl
  | cons m ms ih => rw [map_cons, AllCallers, AllCallers, hf, ih]

theorem roleIs_tool_of_isTool (h : isTool m = true) : roleIs "tool" m = true := by
  have hrole : m.role = "tool" := by simpa [isTool] using h
  rw [roleIs, hrole]
  decide

theorem not_isTool_of_assistant (h : roleIs "assistant" m = true) : isTool m = false := by
  cases htool : isTool m with
  | false => rfl
  | true => rw [roleIs_of_roleIs (roleIs_tool_of_isTool htool) (by decide)] at h; cases h

end Callers

section Completion

variable {notice : String} {pending : List Message} {ms : List Message}

theorem takeWhile_toolRun (behind : List Message) :
    behind.takeWhile isTool = (toolRun behind).takeWhile isTool := by
  induction behind with
  | nil => rfl
  | cons m ms ih =>
    cases htool : roleIs "tool" m with
    | true =>
      rw [toolRun, takeWhile_cons_of_pos htool, takeWhile_cons, takeWhile_cons, ih]
      rfl
    | false =>
      have hnot : isTool m = false := by
        cases h : isTool m with
        | false => rfl
        | true => rw [roleIs_tool_of_isTool h] at htool; cases htool
      rw [toolRun, takeWhile_cons, takeWhile_cons, hnot, htool]
      rfl

theorem isTool_missing {m : Message} {behind : List Message} :
    ∀ t ∈ missingToolResponses notice m behind, isTool t = true := by
  intro t ht
  obtain ⟨call, -, rfl⟩ := List.mem_map.mp ht
  rfl

/-- The calls are answered by tool rows in the end exactly if the run behind them was made of tool
rows, or answered them by its head. -/
theorem answered_caller_iff (m : Message) (ms : List Message) :
    (∀ call ∈ m.calls, call.id ∈
        answeredIds (completeBehind notice (missingToolResponses notice m ms) ms)) ↔
      AnsweredByTools m ms := by
  have hrun : (completeBehind notice (missingToolResponses notice m ms) ms).takeWhile isTool =
      (toolRun ms ++ missingToolResponses notice m ms).takeWhile isTool := by
    rw [takeWhile_toolRun, toolRun_completeBehind roleIs_tool_missingToolResponses]
  by_cases hall : ∀ t ∈ toolRun ms, t.role = "tool"
  · refine iff_of_true (fun call hcall => ?_) (.inl hall)
    have hexact : (completeBehind notice (missingToolResponses notice m ms) ms).takeWhile isTool =
        toolRun (completeBehind notice (missingToolResponses notice m ms) ms) := by
      rw [hrun, toolRun_completeBehind roleIs_tool_missingToolResponses,
        takeWhile_eq_self_iff]
      intro t ht
      rcases mem_append.mp ht with ht | ht
      · simpa [isTool] using hall t ht
      · exact isTool_missing t ht
    rw [answeredIds, hexact]
    exact mem_contiguousToolResponseIds_completeBehind hcall
  · have hexact : answeredIds (completeBehind notice (missingToolResponses notice m ms) ms) =
        answeredIds ms := by
      have hstop : ∀ l : List Message, (¬ ∀ t ∈ l, t.role = "tool") →
          (l ++ missingToolResponses notice m ms).takeWhile isTool = l.takeWhile isTool := by
        intro l
        induction l with
        | nil => exact fun h => absurd (fun t ht => absurd ht not_mem_nil) h
        | cons t l ih =>
          intro h
          rw [cons_append, takeWhile_cons, takeWhile_cons]
          by_cases ht : t.role = "tool"
          · rw [ih fun hl => h (forall_mem_cons.mpr ⟨ht, hl⟩)]
          · have hnot : isTool t = false := by simpa [isTool] using ht
            rw [hnot]
            rfl
      rw [answeredIds, hrun, hstop _ hall, ← takeWhile_toolRun, answeredIds]
    rw [hexact, AnsweredByTools]
    simp [hall]

theorem answered_completeBehind_iff (hpending : ∀ t ∈ pending, roleIs "tool" t = true) :
    AllCallers (fun m behind => ∀ call ∈ m.calls, call.id ∈ answeredIds behind)
        (completeBehind notice pending ms) ↔ AllCallers AnsweredByTools ms := by
  have htools : ∀ {tools rest : List Message} {p : Message → List Message → Prop},
      (∀ t ∈ tools, roleIs "tool" t = true) →
        (AllCallers p (tools ++ rest) ↔ AllCallers p rest) := by
    intro tools rest p h
    induction tools with
    | nil => rfl
    | cons t tools ih =>
      rw [cons_append,
        allCallers_cons_of_not (callsTools_of_tool (h t mem_cons_self)),
        ih fun x hx => h x (mem_cons_of_mem _ hx)]
  induction ms generalizing pending with
  | nil =>
    have h := @htools pending [] (fun m behind => ∀ call ∈ m.calls, call.id ∈ answeredIds behind)
      hpending
    rwa [append_nil] at h
  | cons m ms ih =>
    rw [completeBehind]
    split
    next htool =>
      have hnot := callsTools_of_tool htool
      exact (allCallers_cons_of_not hnot).trans
        ((ih hpending).trans (allCallers_cons_of_not hnot).symm)
    split
    next hcalls =>
      exact (htools hpending).trans (and_congr (imp_congr_right fun _ => answered_caller_iff m ms)
        (ih roleIs_tool_missingToolResponses))
    next hcalls =>
      rw [Bool.not_eq_true] at hcalls
      exact (htools hpending).trans ((allCallers_cons_of_not hcalls).trans
        ((ih (by simp)).trans (allCallers_cons_of_not hcalls).symm))

end Completion

section Follow

variable {takes : Message → Bool} {prev next : Option Message} {ms : List Message}

theorem followsFrom_filter {keep : Message → Bool} (hkeep : ∀ m, keep m = false → takes m = false)
    (h : FollowsFrom takes prev ms) (hprev : prev.any takes = true → next.any takes = true) :
    FollowsFrom takes next (ms.filter keep) := by
  induction ms generalizing prev next with
  | nil => trivial
  | cons m ms ih =>
    obtain ⟨hm, hms⟩ := h
    cases hkept : keep m with
    | true =>
      rw [filter_cons_of_pos hkept]
      exact ⟨fun htool => hprev (hm htool), ih hms id⟩
    | false =>
      rw [filter_cons_of_neg (by simp [hkept])]
      refine ih hms fun htakes => ?_
      rw [any_some, hkeep m hkept] at htakes
      cases htakes

/-- Behind a row that takes no tool row, no tool row is next, whatever is taken out. -/
theorem takeWhile_filter_of_not {keep : Message → Bool}
    (hkeep : ∀ m, keep m = false → takes m = false) (h : FollowsFrom takes prev ms)
    (hprev : prev.any takes = false) : (ms.filter keep).takeWhile isTool = [] := by
  induction ms generalizing prev with
  | nil => rfl
  | cons m ms ih =>
    obtain ⟨hm, hms⟩ := h
    have hnot : isTool m = false := by
      cases htool : isTool m with
      | false => rfl
      | true => rw [hm (by simpa [isTool] using htool)] at hprev; cases hprev
    cases hkept : keep m with
    | true => rw [filter_cons_of_pos hkept, takeWhile_cons, hnot]; rfl
    | false =>
      rw [filter_cons_of_neg (by simp [hkept])]
      exact ih hms (hkeep m hkept)

theorem takeWhile_filter {keep : Message → Bool} (hkeep : ∀ m, keep m = false → takes m = false)
    (htool : ∀ m, isTool m = true → takes m = true) (h : FollowsFrom takes prev ms) :
    (ms.filter keep).takeWhile isTool = ms.takeWhile isTool := by
  induction ms generalizing prev with
  | nil => rfl
  | cons m ms ih =>
    obtain ⟨-, hms⟩ := h
    cases hkept : keep m with
    | true =>
      rw [filter_cons_of_pos hkept, takeWhile_cons, takeWhile_cons, ih hms]
    | false =>
      have hnot : isTool m = false := by
        cases hm : isTool m with
        | false => rfl
        | true => exact absurd (hkeep m hkept) (by simp [htool m hm])
      rw [filter_cons_of_neg (by simp [hkept]),
        takeWhile_filter_of_not hkeep hms (hkeep m hkept), takeWhile_cons, hnot]
      rfl

theorem followsFrom_append {tools rest : List Message} (htools : ∀ t ∈ tools, takes t = true)
    (hprev : tools ≠ [] → prev.any takes = true)
    (hrest : ∀ last, FollowsFrom takes last rest) : FollowsFrom takes prev (tools ++ rest) := by
  induction tools generalizing prev with
  | nil => exact hrest prev
  | cons t tools ih =>
    refine ⟨fun _ => hprev (by simp), ih (fun x hx => htools x (mem_cons_of_mem _ hx)) ?_⟩
    exact fun _ => htools t mem_cons_self

/-- The placeholders stand behind rows that take them, where the runs do. -/
theorem followsFrom_completeBehind {notice : String} {pending : List Message}
    (htool : ∀ m, isTool m = true → takes m = true)
    (hcaller : ∀ m, m.callsTools = true → takes m = true)
    (hruns : AllCallers (fun m behind => missingToolResponses notice m behind ≠ [] →
      ∀ t ∈ toolRun behind, takes t = true) ms)
    (h : FollowsFrom takes prev ms) (hpending : ∀ t ∈ pending, isTool t = true)
    (hprev : pending ≠ [] → prev.any takes = true ∧ ∀ t ∈ toolRun ms, takes t = true) :
    FollowsFrom takes prev (completeBehind notice pending ms) := by
  induction ms generalizing prev pending with
  | nil =>
    rw [completeBehind]
    have hpend := @followsFrom_append takes prev pending [] (fun t ht => htool t (hpending t ht))
      (fun hne => (hprev hne).1) fun _ => trivial
    rwa [append_nil] at hpend
  | cons m ms ih =>
    obtain ⟨hm, hms⟩ := h
    obtain ⟨hrun, hruns⟩ := hruns
    rw [completeBehind]
    split
    next hread =>
      have hmem : m ∈ toolRun (m :: ms) := by
        rw [toolRun, takeWhile_cons_of_pos hread]
        exact mem_cons_self
      refine ⟨hm, ih hruns hms hpending fun hne => ⟨(hprev hne).2 m hmem, fun t ht => ?_⟩⟩
      refine (hprev hne).2 t ?_
      rw [toolRun, takeWhile_cons_of_pos hread]
      exact mem_cons_of_mem _ ht
    next hread =>
      have hnot : m.role ≠ "tool" := by
        intro hrole
        exact hread (roleIs_tool_of_isTool (by simpa [isTool] using hrole))
      split
      next hcalls =>
        refine followsFrom_append (fun t ht => htool t (hpending t ht)) (fun hne => (hprev hne).1)
          fun last => ⟨fun hrole => absurd hrole hnot, ?_⟩
        exact ih hruns hms isTool_missing fun hne => ⟨hcaller m hcalls, hrun hcalls hne⟩
      next =>
        refine followsFrom_append (fun t ht => htool t (hpending t ht)) (fun hne => (hprev hne).1)
          fun last => ⟨fun hrole => absurd hrole hnot, ?_⟩
        exact ih hruns hms (by simp) fun hne => absurd rfl hne

end Follow

section Merge

variable {m next into other : Message} {rest : List Message}

theorem callsTools_squash (hinto : into.hasNonEmptyToolCalls = false)
    (hrole : roleIs "assistant" into = true) (hother : roleIs "assistant" other = true) :
    (squashConsecutiveAssistantPair into other).callsTools = other.callsTools ∧
      (other.callsTools = true →
        (squashConsecutiveAssistantPair into other).calls = other.calls) := by
  have hcalls : other.callsTools = other.hasNonEmptyToolCalls := by
    rw [Message.callsTools, hother, Bool.true_and]
  rw [hcalls, squashConsecutiveAssistantPair, if_neg (by simp [hinto])]
  cases h : other.hasNonEmptyToolCalls with
  | true =>
    rw [if_pos rfl]
    refine ⟨?_, fun _ => rfl⟩
    rw [Message.callsTools, Message.hasNonEmptyToolCalls]
    exact Bool.and_eq_true_iff.mpr ⟨hrole, h⟩
  | false =>
    rw [if_neg (by simp)]
    refine ⟨?_, fun h => by cases h⟩
    rw [Message.callsTools, Message.hasNonEmptyToolCalls]
    exact Bool.and_eq_false_iff.mpr (.inr hinto)

theorem role_squash (into other : Message) :
    (squashConsecutiveAssistantPair into other).role = into.role := by
  rw [squashConsecutiveAssistantPair]
  split
  · split
    · rfl
    · split <;> rfl
  · split <;> rfl

/-- The merged row. -/
def merged (m next : Message) : Message :=
  squashConsecutiveAssistantPair { m with role := "assistant" } next

theorem roleIs_merged (m next : Message) : roleIs "assistant" (merged m next) = true := by
  rw [roleIs, merged, role_squash]
  show eqIgnoreAsciiCase (trim "assistant".toList) "assistant".toList = true
  decide

theorem roleIs_congr {a b : Message} (ha : roleIs "assistant" a = true)
    (hb : roleIs "assistant" b = true) (name : String) : roleIs name a = roleIs name b := by
  simp only [roleIs, eqIgnoreAsciiCase, decide_eq_true_eq] at *
  rw [ha, hb]

theorem mergeFrom_cons_of_merge (hm : roleIs "assistant" m = true)
    (hnext : roleIs "assistant" next = true) :
    mergeFrom m (next :: rest) = mergeFrom (merged m next) rest := by
  rw [mergeFrom, hm, hnext]
  rfl

theorem mergeFrom_cons_of_not
    (h : (roleIs "assistant" m && roleIs "assistant" next) = false) :
    mergeFrom m (next :: rest) = m :: mergeFrom next rest := by
  rw [mergeFrom, h]
  rfl

theorem mergeFrom_head (m : Message) (rest : List Message) : ∃ x xs, mergeFrom m rest = x :: xs ∧
    (∀ name, roleIs name x = roleIs name m) ∧ isTool x = isTool m := by
  induction rest generalizing m with
  | nil => exact ⟨m, [], rfl, fun _ => rfl, rfl⟩
  | cons next rest ih =>
    cases h : roleIs "assistant" m && roleIs "assistant" next with
    | true =>
      obtain ⟨hm, hnext⟩ := Bool.and_eq_true_iff.mp h
      obtain ⟨x, xs, hx, hrole, htool⟩ := ih (merged m next)
      refine ⟨x, xs, (mergeFrom_cons_of_merge hm hnext).trans hx, ?_, ?_⟩
      · exact fun name => (hrole name).trans (roleIs_congr (roleIs_merged m next) hm name)
      · rw [htool, not_isTool_of_assistant (roleIs_merged m next), not_isTool_of_assistant hm]
    | false => exact ⟨m, mergeFrom next rest, mergeFrom_cons_of_not h, fun _ => rfl, rfl⟩

theorem noAdjacentAssistants_mergeFrom (m : Message) (rest : List Message) :
    NoAdjacentAssistants (mergeFrom m rest) := by
  induction rest generalizing m with
  | nil => exact isChain_singleton _
  | cons next rest ih =>
    cases h : roleIs "assistant" m && roleIs "assistant" next with
    | true =>
      obtain ⟨hm, hnext⟩ := Bool.and_eq_true_iff.mp h
      rw [mergeFrom_cons_of_merge hm hnext]
      exact ih _
    | false =>
      obtain ⟨x, xs, hx, hrole, -⟩ := mergeFrom_head next rest
      have hrest := ih next
      rw [mergeFrom_cons_of_not h]
      rw [hx] at hrest ⊢
      refine isChain_cons_cons.mpr ⟨fun hm => ?_, hrest⟩
      rw [hrole]
      simpa [hm] using h

theorem takeWhile_mergeFrom (m : Message) (rest : List Message) :
    (mergeFrom m rest).takeWhile isTool = (m :: rest).takeWhile isTool := by
  induction rest generalizing m with
  | nil => rfl
  | cons next rest ih =>
    cases h : roleIs "assistant" m && roleIs "assistant" next with
    | true =>
      obtain ⟨hm, hnext⟩ := Bool.and_eq_true_iff.mp h
      obtain ⟨x, xs, hx, -, htool⟩ := mergeFrom_head m (next :: rest)
      have hnot := not_isTool_of_assistant hm
      rw [hx, takeWhile_cons, takeWhile_cons, htool, hnot]
      rfl
    | false =>
      rw [mergeFrom_cons_of_not h, takeWhile_cons, takeWhile_cons, ih]

/-- A row with calls is not merged into the row behind it, for a tool row stands there. -/
def ToolNext (_ : Message) (behind : List Message) : Prop :=
  ∃ t ∈ behind.head?, roleIs "tool" t = true

theorem toolNext_mergeFrom (m next : Message) (rest : List Message) :
    ToolNext m (mergeFrom next rest) ↔ ToolNext m (next :: rest) := by
  obtain ⟨x, xs, hx, hrole, -⟩ := mergeFrom_head next rest
  simp [ToolNext, hx, hrole]

theorem not_callsTools_of_merge (hnext : roleIs "assistant" next = true)
    (h : AllCallers ToolNext (m :: next :: rest)) : m.callsTools = false := by
  cases hcalls : m.callsTools with
  | false => rfl
  | true =>
    obtain ⟨t, ht, htool⟩ := h.1 hcalls
    obtain rfl := mem_some_iff.mp ht
    rw [roleIs_tool_of_assistant hnext] at htool
    cases htool

theorem callsTools_merged (hm : roleIs "assistant" m = true)
    (hnext : roleIs "assistant" next = true) (h : m.callsTools = false) :
    (merged m next).callsTools = next.callsTools ∧
      (next.callsTools = true → (merged m next).calls = next.calls) := by
  rw [Message.callsTools, hm, Bool.true_and] at h
  refine @callsTools_squash { m with role := "assistant" } next h ?_ hnext
  show eqIgnoreAsciiCase (trim "assistant".toList) "assistant".toList = true
  decide

/-- What is asked of the rows with calls is kept by the merging, where a tool row is next to each
of them. -/
theorem allCallers_mergeFrom {p : Message → List Message → Prop}
    (hcalls : ∀ a b behind, a.calls = b.calls → (p a behind ↔ p b behind))
    (hbehind : ∀ m next rest, p m (mergeFrom next rest) ↔ p m (next :: rest))
    (h : AllCallers ToolNext (m :: rest)) :
    AllCallers p (mergeFrom m rest) ↔ AllCallers p (m :: rest) := by
  induction rest generalizing m with
  | nil => rfl
  | cons next rest ih =>
    cases hboth : roleIs "assistant" m && roleIs "assistant" next with
    | true =>
      obtain ⟨hm, hnext⟩ := Bool.and_eq_true_iff.mp hboth
      have hnot := not_callsTools_of_merge hnext h
      obtain ⟨hmerged, hsame⟩ := callsTools_merged hm hnext hnot
      have hrest : AllCallers p (merged m next :: rest) ↔ AllCallers p (next :: rest) := by
        rw [AllCallers, AllCallers, hmerged]
        exact and_congr_left fun _ => imp_congr_right fun hcall => hcalls _ _ rest (hsame hcall)
      have hnexts : AllCallers ToolNext (merged m next :: rest) :=
        ⟨fun hcall => h.2.1 (hmerged ▸ hcall), h.2.2⟩
      rw [mergeFrom_cons_of_merge hm hnext]
      exact (ih hnexts).trans (hrest.trans (allCallers_cons_of_not hnot).symm)
    | false =>
      rw [mergeFrom_cons_of_not hboth]
      exact and_congr (imp_congr_right fun _ => hbehind m next rest) (ih h.2)

theorem followsFrom_mono {takes : Message → Bool} {prev prev' : Option Message}
    {ms : List Message} (hprev : prev.any takes = true → prev'.any takes = true)
    (h : FollowsFrom takes prev ms) : FollowsFrom takes prev' ms := by
  cases ms with
  | nil => trivial
  | cons m ms => exact ⟨fun htool => hprev (h.1 htool), h.2⟩

theorem followsFrom_mergeFrom {takes : Message → Bool} {prev : Option Message}
    (htakes : ∀ m, roleIs "assistant" m = true → takes m = m.callsTools)
    (hnexts : AllCallers ToolNext (m :: rest)) (h : FollowsFrom takes prev (m :: rest)) :
    FollowsFrom takes prev (mergeFrom m rest) := by
  induction rest generalizing m prev with
  | nil => exact h
  | cons next rest ih =>
    cases hboth : roleIs "assistant" m && roleIs "assistant" next with
    | true =>
      obtain ⟨hm, hnext⟩ := Bool.and_eq_true_iff.mp hboth
      have hmerged := (callsTools_merged hm hnext (not_callsTools_of_merge hnext hnexts)).1
      rw [mergeFrom_cons_of_merge hm hnext]
      refine ih ⟨fun hcall => hnexts.2.1 (hmerged ▸ hcall), hnexts.2.2⟩ ⟨fun hrole => ?_, ?_⟩
      · have hnot := not_isTool_of_assistant (roleIs_merged m next)
        simp [isTool, hrole] at hnot
      · refine followsFrom_mono (fun htake => ?_) h.2.2
        rw [any_some, htakes _ hnext] at htake
        rw [any_some, htakes _ (roleIs_merged m next), hmerged, htake]
    | false =>
      rw [mergeFrom_cons_of_not hboth]
      exact ⟨h.1, ih hnexts.2 h.2⟩

end Merge

section Removal

variable {m : Message} {ms : List Message}

def speaks (m : Message) : Bool := !assistantLacksOpenaiContentAndToolCalls m

theorem of_not_speaks (h : speaks m = false) :
    roleIs "assistant" m = true ∧ m.callsTools = false := by
  rw [speaks, Bool.not_eq_false', assistantLacksOpenaiContentAndToolCalls, Bool.and_eq_true,
    Bool.and_eq_true, Bool.not_eq_true'] at h
  refine ⟨h.1.1, ?_⟩
  rw [Message.callsTools, h.1.2, Bool.and_false]

theorem speaks_content (h : speaks m = true) (hrole : roleIs "assistant" m = true) :
    messageContentIsEffectivelyEmpty m = false ∨ m.hasNonEmptyToolCalls = true := by
  by_contra hnone
  rw [not_or, Bool.not_eq_false, Bool.not_eq_true] at hnone
  obtain ⟨hempty, hcalls⟩ := hnone
  have hlacks : assistantLacksOpenaiContentAndToolCalls m = true := by
    rw [assistantLacksOpenaiContentAndToolCalls, hrole, hcalls]
    rw [messageContentIsEffectivelyEmpty] at hempty
    cases hcontent : m.content with
    | none => simp [messageContentAsStr, messageContentIsEffectivelyEmpty, hcontent]
    | some content =>
      rw [hcontent] at hempty
      cases content with
      | text s => simpa [messageContentAsStr] using hempty
      | parts parts =>
        simpa [messageContentAsStr, messageContentIsEffectivelyEmpty, hcontent] using hempty
  rw [speaks, hlacks] at h
  cases h

theorem noAdjacentAssistants_filter {keep : Message → Bool} {prev prev' : Message}
    (hkeep : ∀ m, keep m = false → roleIs "assistant" m = true)
    (hprev : roleIs "assistant" prev' = true → roleIs "assistant" prev = true)
    (h : NoAdjacentAssistants (prev :: ms)) : NoAdjacentAssistants (prev' :: ms.filter keep) := by
  induction ms generalizing prev prev' with
  | nil => exact isChain_singleton _
  | cons m ms ih =>
    obtain ⟨hm, hms⟩ := isChain_cons_cons.mp h
    cases hkept : keep m with
    | true =>
      rw [filter_cons_of_pos hkept]
      exact isChain_cons_cons.mpr ⟨fun hasst => hm (hprev hasst), ih id hms⟩
    | false =>
      rw [filter_cons_of_neg (by simp [hkept])]
      refine ih (fun hasst => ?_) hms
      have hfalse := hm (hprev hasst)
      rw [hkeep m hkept] at hfalse
      cases hfalse

theorem allCallers_answered_filter {takes : Message → Bool} {prev : Option Message}
    {keep : Message → Bool} (hkeep : ∀ m, keep m = false → takes m = false)
    (htool : ∀ m, isTool m = true → takes m = true)
    (hcaller : ∀ m, m.callsTools = true → takes m = true) (h : FollowsFrom takes prev ms) :
    AllCallers (fun m behind => ∀ call ∈ m.calls, call.id ∈ answeredIds behind)
        (ms.filter keep) ↔
      AllCallers (fun m behind => ∀ call ∈ m.calls, call.id ∈ answeredIds behind) ms := by
  induction ms generalizing prev with
  | nil => rfl
  | cons m ms ih =>
    obtain ⟨-, hms⟩ := h
    cases hkept : keep m with
    | true =>
      rw [filter_cons_of_pos hkept]
      have hids : answeredIds (ms.filter keep) = answeredIds ms := by
        rw [answeredIds, takeWhile_filter hkeep htool hms, answeredIds]
      exact and_congr (imp_congr_right fun _ => by dsimp only; rw [hids]) (ih hms)
    | false =>
      have hnot : m.callsTools = false := by
        cases hcalls : m.callsTools with
        | false => rfl
        | true => exact absurd (hkeep m hkept) (by simp [hcaller m hcalls])
      rw [filter_cons_of_neg (by simp [hkept])]
      exact (ih hms).trans (allCallers_cons_of_not hnot).symm

theorem toolNext_filter {keep : Message → Bool}
    (hkeep : ∀ m, keep m = false → roleIs "tool" m = false) (h : AllCallers ToolNext ms) :
    AllCallers ToolNext (ms.filter keep) := by
  induction ms with
  | nil => trivial
  | cons m ms ih =>
    obtain ⟨hm, hms⟩ := h
    cases hkept : keep m with
    | false => rw [filter_cons_of_neg (by simp [hkept])]; exact ih hms
    | true =>
      rw [filter_cons_of_pos hkept]
      refine ⟨fun hcalls => ?_, ih hms⟩
      obtain ⟨t, ht, htool⟩ := hm hcalls
      cases ms with
      | nil => cases ht
      | cons n ms =>
        obtain rfl := mem_some_iff.mp ht
        have hstay : keep n = true := by
          cases hn : keep n with
          | true => rfl
          | false => rw [hkeep n hn] at htool; cases htool
        rw [filter_cons_of_pos hstay]
        exact ⟨n, rfl, htool⟩

theorem clearLastCalls_eq_self (h : AllCallers ToolNext ms) : clearLastCalls ms = ms := by
  have hlast : ∀ last, ms.getLast? = some last → last.callsTools = false := by
    induction ms with
    | nil => intro last hlast; cases hlast
    | cons m ms ih =>
      intro last hlast
      cases ms with
      | nil =>
        obtain rfl : m = last := Option.some.inj hlast
        cases hcalls : m.callsTools with
        | false => rfl
        | true =>
          obtain ⟨t, ht, -⟩ := h.1 hcalls
          cases ht
      | cons n ms =>
        rw [getLast?_cons_cons] at hlast
        exact ih h.2 last hlast
  rw [clearLastCalls]
  cases hget : ms.getLast? with
  | none => rfl
  | some last =>
    dsimp only
    rw [hlast last hget]
    rfl

/-- Where a tool row is behind each row with calls, the passes merge and take out silent rows. -/
theorem normalize_eq (h : AllCallers ToolNext (mergeAllConsecutiveAssistantMessages ms)) :
    normalizeMessagesForOpenaiCompatibleRequest ms =
      (mergeAllConsecutiveAssistantMessages ms).filter speaks := by
  have hkeep : ∀ m, speaks m = false → roleIs "tool" m = false := fun m hm =>
    roleIs_tool_of_assistant (of_not_speaks hm).1
  have hfirst : removeAllAssistantsLackingContent (mergeAllConsecutiveAssistantMessages ms) =
      (mergeAllConsecutiveAssistantMessages ms).filter speaks := rfl
  have hsecond : ∀ rows : List Message, removeAllAssistantsLackingContent (rows.filter speaks) =
      rows.filter speaks := by
    intro rows
    show (rows.filter speaks).filter speaks = rows.filter speaks
    rw [List.filter_filter]
    simp
  rw [normalizeMessagesForOpenaiCompatibleRequest, hfirst,
    clearLastCalls_eq_self (toolNext_filter hkeep h), hsecond]

end Removal

section Arguments

variable {serde : ToolJson} {m : Message} {ms : List Message}

theorem reads_repaired (h : PrintsJson serde) {arguments s : Str}
    (hs : repairToolCallArgumentsJson serde arguments = some s) :
    (serde.fromStr s).isSome = true := by
  have hprinted : ∀ {t s : Str}, (serde.fromStr t).map serde.toStr = some s →
      (serde.fromStr s).isSome = true := by
    intro t s hmap
    obtain ⟨v, hv, rfl⟩ := map_eq_some_iff.mp hmap
    exact h.reads t v hv
  have htruncated : ∀ {t s : Str}, tryRepairTruncatedToolArgumentsJson serde t = some s →
      (serde.fromStr s).isSome = true := by
    intro t s htry
    rw [tryRepairTruncatedToolArgumentsJson] at htry
    split at htry
    · dsimp only at htry
      split at htry
      · cases htry
      · exact hprinted htry
    · cases htry
  rw [repairToolCallArgumentsJson] at hs
  split at hs
  · cases hs
  rw [or_eq_some_iff, or_eq_some_iff, or_eq_some_iff] at hs
  rcases hs with (hs | ⟨-, hs⟩) | ⟨-, hs | ⟨-, hs⟩⟩
  · exact hprinted hs
  · exact hprinted hs
  · exact htruncated hs
  · exact htruncated hs

theorem validArguments_sanitize (h : PrintsJson serde) (hrole : roleIs "assistant" m = true) :
    ValidArguments serde (sanitizeAssistantToolCallArguments serde m) := by
  have hcall : ∀ arguments : String, (serde.fromStr
      (sanitizeToolCallArgumentsForOpenaiCompat serde arguments).toList).isSome = true := by
    intro arguments
    rw [sanitizeToolCallArgumentsForOpenaiCompat, String.toList_ofList]
    cases hrepair : repairToolCallArgumentsJson serde arguments.toList with
    | none => exact h.empty
    | some s => exact reads_repaired h hrepair
  intro call hmem
  rw [sanitizeAssistantToolCallArguments, if_pos hrole] at hmem
  cases hcalls : m.toolCalls with
  | none => simp [Message.calls, hcalls] at hmem
  | some calls =>
    simp only [Message.calls, hcalls, map_some, getD_some] at hmem
    obtain ⟨original, -, rfl⟩ := List.mem_map.mp hmem
    exact hcall _

/-- The condition on the rows the repair leaves alone. -/
def OthersValid (serde : ToolJson) (ms : List Message) : Prop :=
  ∀ m ∈ ms, roleIs "assistant" m = false → ValidArguments serde m

theorem othersValid_sanitize (h : PrintsJson serde) :
    (∀ m ∈ ms.map (sanitizeAssistantToolCallArguments serde), ValidArguments serde m) ↔
      OthersValid serde ms := by
  rw [List.forall_mem_map]
  refine forall₂_congr fun m _ => ?_
  cases hrole : roleIs "assistant" m with
  | true => simp [validArguments_sanitize h hrole]
  | false => simp [sanitize_of_not_assistant serde hrole]

theorem othersValid_filter {keep : Message → Bool}
    (hkeep : ∀ m, keep m = false → roleIs "assistant" m = true) :
    OthersValid serde (ms.filter keep) ↔ OthersValid serde ms := by
  refine ⟨fun h m hm hrole => ?_, fun h m hm => h m (mem_of_mem_filter hm)⟩
  refine h m (mem_filter.mpr ⟨hm, ?_⟩) hrole
  cases hkept : keep m with
  | true => rfl
  | false => rw [hkeep m hkept] at hrole; cases hrole

theorem othersValid_cons : OthersValid serde (m :: ms) ↔
    (roleIs "assistant" m = false → ValidArguments serde m) ∧ OthersValid serde ms :=
  forall_mem_cons

theorem othersValid_mergeFrom (m : Message) (rest : List Message) :
    OthersValid serde (mergeFrom m rest) ↔ OthersValid serde (m :: rest) := by
  induction rest generalizing m with
  | nil => rfl
  | cons next rest ih =>
    cases hboth : roleIs "assistant" m && roleIs "assistant" next with
    | true =>
      obtain ⟨hm, hnext⟩ := Bool.and_eq_true_iff.mp hboth
      rw [mergeFrom_cons_of_merge hm hnext, ih, othersValid_cons, othersValid_cons,
        othersValid_cons]
      simp [hm, hnext, roleIs_merged]
    | false => rw [mergeFrom_cons_of_not hboth, othersValid_cons, othersValid_cons, ih]

theorem othersValid_append {xs ys : List Message} (h : OthersValid serde xs) :
    OthersValid serde (xs ++ ys) ↔ OthersValid serde ys := by
  constructor
  · exact fun hall m hm => hall m (mem_append_right _ hm)
  · intro hys m hm
    rcases mem_append.mp hm with hm | hm
    · exact h m hm
    · exact hys m hm

theorem othersValid_completeBehind {notice : String} {pending : List Message}
    (hpending : OthersValid serde pending) :
    OthersValid serde (completeBehind notice pending ms) ↔ OthersValid serde ms := by
  have hmissing : ∀ m behind, OthersValid serde (missingToolResponses notice m behind) := by
    intro m behind t ht _ call hcall
    obtain ⟨_, -, rfl⟩ := List.mem_map.mp ht
    cases hcall
  induction ms generalizing pending with
  | nil =>
    rw [completeBehind]
    exact iff_of_true hpending fun m hm => absurd hm not_mem_nil
  | cons m ms ih =>
    rw [completeBehind]
    split
    · exact othersValid_cons.trans ((and_congr_right fun _ => ih hpending).trans
        othersValid_cons.symm)
    rw [othersValid_cons]
    split
    · exact (othersValid_append hpending).trans
        (othersValid_cons.trans (and_congr_right fun _ => ih (hmissing m ms)))
    · exact (othersValid_append hpending).trans (othersValid_cons.trans
        (and_congr_right fun _ => ih fun x hx => absurd hx not_mem_nil))

end Arguments

section Maps

variable {f : Message → Message} {ms : List Message}

theorem followsFrom_map {takes : Message → Bool} {prev : Option Message}
    (hrole : ∀ m, (f m).role = m.role) (htakes : ∀ m, takes (f m) = takes m) :
    FollowsFrom takes (prev.map f) (ms.map f) ↔ FollowsFrom takes prev ms := by
  induction ms generalizing prev with
  | nil => rfl
  | cons m ms ih =>
    have hprev : (prev.map f).any takes = prev.any takes := by
      cases prev <;> simp [htakes]
    exact and_congr (by rw [hrole, hprev]) (@ih (some m))

theorem toolRun_map (hrole : ∀ m, (f m).role = m.role) (ms : List Message) :
    toolRun (ms.map f) = (toolRun ms).map f := by
  have hread : roleIs "tool" ∘ f = roleIs "tool" := by
    funext m
    simp only [Function.comp, roleIs, hrole]
  rw [toolRun, takeWhile_map, hread, toolRun]

theorem answeredIds_map (hrole : ∀ m, (f m).role = m.role)
    (hid : ∀ m, (f m).toolCallId = m.toolCallId) (ms : List Message) :
    answeredIds (ms.map f) = answeredIds ms := by
  have htool : isTool ∘ f = isTool := by
    funext m
    simp only [Function.comp, isTool, hrole]
  have hids : Message.toolCallId ∘ f = Message.toolCallId := funext hid
  rw [answeredIds, takeWhile_map, htool, filterMap_map, hids, answeredIds]

end Maps

section Passes

variable (preserveReasoning preserveDeepseek : Bool) {m : Message} {ms : List Message}

/-- What is done to a row before it is sent. -/
def strippedRow (m : Message) : Message :=
  stripUserSkillSlashInMessageForApi
    (messageCloneStrippingReasoningForApi preserveReasoning preserveDeepseek m)

theorem strippedRow_keeps (m : Message) :
    (strippedRow preserveReasoning preserveDeepseek m).role = m.role ∧
      (strippedRow preserveReasoning preserveDeepseek m).toolCalls = m.toolCalls ∧
      (strippedRow preserveReasoning preserveDeepseek m).toolCallId = m.toolCallId := by
  have hslash : ∀ m : Message, (stripUserSkillSlashInMessageForApi m).role = m.role ∧
      (stripUserSkillSlashInMessageForApi m).toolCalls = m.toolCalls ∧
      (stripUserSkillSlashInMessageForApi m).toolCallId = m.toolCallId := by
    intro m
    rw [stripUserSkillSlashInMessageForApi]
    split
    · exact ⟨rfl, rfl, rfl⟩
    · split <;> exact ⟨rfl, rfl, rfl⟩
  have hmerge : ∀ m : Message,
      (mergeReasoningDetailsIntoReasoningContent m).role = m.role ∧
      (mergeReasoningDetailsIntoReasoningContent m).toolCalls = m.toolCalls ∧
      (mergeReasoningDetailsIntoReasoningContent m).toolCallId = m.toolCallId := by
    intro m
    rw [mergeReasoningDetailsIntoReasoningContent]
    split <;> exact ⟨rfl, rfl, rfl⟩
  have hclone : (messageCloneStrippingReasoningForApi preserveReasoning preserveDeepseek m).role =
      m.role ∧
      (messageCloneStrippingReasoningForApi preserveReasoning preserveDeepseek m).toolCalls =
        m.toolCalls ∧
      (messageCloneStrippingReasoningForApi preserveReasoning preserveDeepseek m).toolCallId =
        m.toolCallId := by
    rw [messageCloneStrippingReasoningForApi]
    split
    · exact hmerge m
    · exact ⟨rfl, rfl, rfl⟩
  obtain ⟨hrole, hcalls, hid⟩ := hslash
    (messageCloneStrippingReasoningForApi preserveReasoning preserveDeepseek m)
  exact ⟨hrole.trans hclone.1, hcalls.trans hclone.2.1, hid.trans hclone.2.2⟩

theorem callsTools_congr {a b : Message} (hrole : a.role = b.role)
    (hcalls : a.toolCalls = b.toolCalls) : a.callsTools = b.callsTools := by
  simp only [Message.callsTools, roleIs, Message.hasNonEmptyToolCalls, hrole, hcalls]

theorem callsTools_sanitize (serde : ToolJson) (m : Message) :
    (sanitizeAssistantToolCallArguments serde m).callsTools = m.callsTools := by
  rw [sanitizeAssistantToolCallArguments]
  split
  · simp only [Message.callsTools, roleIs, Message.hasNonEmptyToolCalls]
    cases m.toolCalls with
    | none => rfl
    | some calls => simp
  · rfl

theorem callIds_sanitize (serde : ToolJson) (m : Message) :
    (sanitizeAssistantToolCallArguments serde m).calls.map ToolCall.id =
      m.calls.map ToolCall.id := by
  rw [sanitizeAssistantToolCallArguments]
  split
  · simp only [Message.calls]
    cases m.toolCalls with
    | none => rfl
    | some calls =>
      simp only [map_some, getD_some, List.map_map]
      rfl
  · rfl

theorem toolCallId_sanitize (serde : ToolJson) (m : Message) :
    (sanitizeAssistantToolCallArguments serde m).toolCallId = m.toolCallId := by
  rw [sanitizeAssistantToolCallArguments]
  split <;> rfl

theorem speaks_sanitize (serde : ToolJson)
    (h : messageContentIsEffectivelyEmpty m = false ∨ m.hasNonEmptyToolCalls = true)
    (hrole : roleIs "assistant" m = true) :
    messageContentIsEffectivelyEmpty (sanitizeAssistantToolCallArguments serde m) = false ∨
      (sanitizeAssistantToolCallArguments serde m).hasNonEmptyToolCalls = true := by
  rcases h with hcontent | hcalls
  · left
    rw [sanitizeAssistantToolCallArguments, if_pos hrole]
    exact hcontent
  · right
    have hcaller : (sanitizeAssistantToolCallArguments serde m).callsTools = true := by
      rw [callsTools_sanitize, Message.callsTools, hrole, hcalls]
      rfl
    exact (Bool.and_eq_true_iff.mp hcaller).2

theorem takesTool_of_not_sent (h : m.sentToModel = false) : takesTool m = false := by
  have hrole : m.role = "system" ∨ m.role = "user" := by
    simp only [Message.sentToModel, Bool.and_eq_false_iff, Bool.not_eq_false',
      Message.isExcludedFromLlmContextExceptMemory, Message.isChatUiSeparator,
      Message.isChatTimelineMarker, Message.isModelContextArtifactMarker,
      Message.isLongTermMemoryInjection, Message.isWorkspaceChangelistInjection, Bool.or_eq_true,
      Bool.and_eq_true, beq_iff_eq] at h
    tauto
  have hread : roleIs "assistant" m = false := by
    rcases hrole with hrole | hrole <;> simp only [roleIs, hrole] <;> decide
  have htool : isTool m = false := by
    rcases hrole with hrole | hrole <;> simp [isTool, hrole]
  rw [takesTool, htool, Message.callsTools, hread]
  rfl

theorem followsFrom_of_no_orphans {prev : Option Message} (h : dropOrphansAfter prev ms = ms) :
    FollowsFrom takesTool prev ms := by
  have htakes : ∀ p, answersCall p = true → takesTool p = true := by
    intro p hp
    rw [answersCall, Bool.or_eq_true] at hp
    rcases hp with hp | hp
    · rw [takesTool, isTool, hp, Bool.true_or]
    · obtain ⟨hrole, hcalls⟩ := Bool.and_eq_true_iff.mp hp
      have hread : roleIs "assistant" p = true := by
        rw [roleIs, beq_iff_eq.mp hrole]
        decide
      rw [takesTool, Message.callsTools, hread, Message.hasNonEmptyToolCalls, hcalls]
      simp
  induction ms generalizing prev with
  | nil => trivial
  | cons m ms ih =>
    rw [dropOrphansAfter] at h
    split at h
    next =>
      have hlength := (dropOrphansAfter_sublist prev ms).length_le
      rw [h, length_cons] at hlength
      omega
    next hkeep =>
      refine ⟨fun hrole => ?_, ih (List.cons.inj h).2⟩
      have hany : prev.any answersCall = true := by
        by_contra hnone
        exact hkeep ⟨hrole, by simpa using hnone⟩
      cases prev with
      | none => cases hany
      | some p => exact htakes p hany

theorem allCallers_of_forall {p : Message → List Message → Prop} (h : ∀ m behind, p m behind) :
    AllCallers p ms := by
  induction ms with
  | nil => trivial
  | cons m ms ih => exact ⟨fun _ => h m ms, ih⟩

theorem allCallers_imp {p q : Message → List Message → Prop}
    (h : ∀ m behind, p m behind → q m behind) (hp : AllCallers p ms) : AllCallers q ms := by
  induction ms with
  | nil => trivial
  | cons m ms ih => exact ⟨fun hcalls => h m ms (hp.1 hcalls), ih hp.2⟩

theorem toolNext_of_answered (h : Answered ms) : AllCallers ToolNext ms := by
  induction ms with
  | nil => trivial
  | cons m ms ih =>
    obtain ⟨hm, hms⟩ := answered_cons.mp h
    refine ⟨fun hcalls => ?_, ih hms⟩
    have hsome : m.hasNonEmptyToolCalls = true := (Bool.and_eq_true_iff.mp hcalls).2
    cases hlist : m.toolCalls with
    | none => simp [Message.hasNonEmptyToolCalls, hlist] at hsome
    | some calls =>
      cases calls with
      | nil => simp [Message.hasNonEmptyToolCalls, hlist] at hsome
      | cons call calls =>
        have hid := hm hcalls call (by simp [Message.calls, hlist])
        cases ms with
        | nil => simp [contiguousToolResponseIds, toolRun] at hid
        | cons n ms =>
          refine ⟨n, rfl, ?_⟩
          cases hn : roleIs "tool" n with
          | true => rfl
          | false => simp [contiguousToolResponseIds, toolRun, hn] at hid

theorem followsFrom_imp {takes takes' : Message → Bool} {prev : Option Message}
    (h : ∀ m, takes m = true → takes' m = true) (hms : FollowsFrom takes prev ms) :
    FollowsFrom takes' prev ms := by
  induction ms generalizing prev with
  | nil => trivial
  | cons m ms ih =>
    refine ⟨fun hrole => ?_, ih hms.2⟩
    have hany := hms.1 hrole
    cases prev with
    | none => cases hany
    | some p => exact h p hany

/-- A row that reads as a tool row, or an assistant row with calls. -/
def takesRead (m : Message) : Bool := roleIs "tool" m || m.callsTools

theorem takesRead_of_takesTool (h : takesTool m = true) : takesRead m = true := by
  rw [takesTool, Bool.or_eq_true] at h
  rcases h with h | h
  · rw [takesRead, roleIs_tool_of_isTool h, Bool.true_or]
  · rw [takesRead, h, Bool.or_true]

theorem takesRead_of_assistant (h : roleIs "assistant" m = true) :
    takesRead m = m.callsTools := by
  rw [takesRead, roleIs_tool_of_assistant h, Bool.false_or]

theorem takesTool_of_assistant (h : roleIs "assistant" m = true) :
    takesTool m = m.callsTools := by
  rw [takesTool, not_isTool_of_assistant h, Bool.false_or]

end Passes

section Body

variable {rows : List Message}

/-- The rows behind the completion, merged and without the silent rows. -/
def mergedRows (rows : List Message) : List Message :=
  (mergeAllConsecutiveAssistantMessages rows).filter speaks

theorem noAdjacentAssistants_mergedRows (rows : List Message) :
    NoAdjacentAssistants (mergedRows rows) := by
  have hmerged : NoAdjacentAssistants (mergeAllConsecutiveAssistantMessages rows) := by
    cases rows with
    | nil => exact isChain_nil
    | cons m rows => exact noAdjacentAssistants_mergeFrom m rows
  have huser : roleIs "assistant" (Message.userOnly "") = false :=
    roleIs_of_roleIs (roleIs_userOnly _) (by decide)
  rw [← noAdjacentAssistants_cons huser] at hmerged ⊢
  exact noAdjacentAssistants_filter (fun m hm => (of_not_speaks hm).1) id hmerged

theorem answered_mergedRows_iff (hnext : AllCallers ToolNext rows)
    (hfollow : FollowsFrom takesRead none rows) :
    AllCallers (fun m behind => ∀ call ∈ m.calls, call.id ∈ answeredIds behind)
        (mergedRows rows) ↔
      AllCallers (fun m behind => ∀ call ∈ m.calls, call.id ∈ answeredIds behind) rows := by
  cases rows with
  | nil => rfl
  | cons m rows =>
    have hmerge := followsFrom_mergeFrom (fun _ => takesRead_of_assistant) hnext hfollow
    refine (allCallers_answered_filter (fun m hm => ?_) (fun m hm => ?_) (fun m hm => ?_)
      hmerge).trans (allCallers_mergeFrom (fun a b behind hcalls => ?_) (fun m next rest => ?_)
        hnext)
    · rw [takesRead_of_assistant (of_not_speaks hm).1, (of_not_speaks hm).2]
    · rw [takesRead, roleIs_tool_of_isTool hm, Bool.true_or]
    · rw [takesRead, hm, Bool.or_true]
    · rw [hcalls]
    · have hids : answeredIds (mergeFrom next rest) = answeredIds (next :: rest) := by
        rw [answeredIds, takeWhile_mergeFrom, answeredIds]
      rw [hids]

theorem followsFrom_mergedRows (hnext : AllCallers ToolNext rows)
    (hfollow : FollowsFrom takesTool none rows) :
    FollowsFrom takesTool none (mergedRows rows) := by
  cases rows with
  | nil => trivial
  | cons m rows =>
    refine followsFrom_filter (fun m hm => ?_)
      (followsFrom_mergeFrom (fun _ => takesTool_of_assistant) hnext hfollow) id
    rw [takesTool_of_assistant (of_not_speaks hm).1, (of_not_speaks hm).2]

theorem othersValid_mergedRows (serde : ToolJson) :
    OthersValid serde (mergedRows rows) ↔ OthersValid serde rows := by
  refine (othersValid_filter fun m hm => (of_not_speaks hm).1).trans ?_
  cases rows with
  | nil => rfl
  | cons m rows => exact othersValid_mergeFrom m rows

theorem toolNext_merge (h : AllCallers ToolNext rows) :
    AllCallers ToolNext (mergeAllConsecutiveAssistantMessages rows) := by
  cases rows with
  | nil => trivial
  | cons m rows =>
    exact (allCallers_mergeFrom (fun _ _ _ _ => Iff.rfl) toolNext_mergeFrom h).mpr h

end Body

section Main

variable (serde : ToolJson) (messages : List Message) (preserveReasoning preserveDeepseek : Bool)

/-- The rows that are sent, stripped and completed. -/
def completedRows : List Message :=
  completeMissingToolResponses vendorMissingToolResultPlaceholder
    ((messages.filter Message.sentToModel).map
      (strippedRow preserveReasoning preserveDeepseek))

theorem toolNext_completedRows :
    AllCallers ToolNext (completedRows messages preserveReasoning preserveDeepseek) :=
  toolNext_of_answered (answered_completeMissingToolResponses _ _)

theorem conversationMessagesToVendorBody_eq :
    conversationMessagesToVendorBody serde messages false preserveReasoning preserveDeepseek =
      (mergedRows (completedRows messages preserveReasoning preserveDeepseek)).map
        (sanitizeAssistantToolCallArguments serde) := by
  have hnormal := normalize_eq
    (toolNext_merge (toolNext_completedRows messages preserveReasoning preserveDeepseek))
  rw [completedRows] at hnormal
  simp only [conversationMessagesToVendorBody, Bool.false_eq_true, if_false, mergedRows,
    completedRows, ← hnormal]
  rfl

variable {messages}

theorem followsFrom_sent (hnoop : dropOrphanToolMessages messages = messages) :
    FollowsFrom takesTool none ((messages.filter Message.sentToModel).map
      (strippedRow preserveReasoning preserveDeepseek)) := by
  have hsent : FollowsFrom takesTool none (messages.filter Message.sentToModel) :=
    followsFrom_filter (fun m hm => takesTool_of_not_sent hm) (followsFrom_of_no_orphans hnoop) id
  refine (@followsFrom_map (strippedRow preserveReasoning preserveDeepseek) _ takesTool none
    (fun m => (strippedRow_keeps preserveReasoning preserveDeepseek m).1) fun m => ?_).mpr hsent
  obtain ⟨hrole, hcalls, -⟩ := strippedRow_keeps preserveReasoning preserveDeepseek m
  rw [takesTool, callsTools_congr hrole hcalls, isTool, hrole]
  rfl

theorem mem_toolRun {ms : List Message} : ∀ t ∈ toolRun ms, roleIs "tool" t = true := by
  intro t ht
  exact mem_takeWhile_imp ht

theorem followsRead_completedRows (hnoop : dropOrphanToolMessages messages = messages) :
    FollowsFrom takesRead none (completedRows messages preserveReasoning preserveDeepseek) := by
  refine followsFrom_completeBehind (fun m hm => ?_) (fun m hm => ?_)
    (allCallers_of_forall fun m behind _ t ht => ?_)
    (followsFrom_imp (fun m => takesRead_of_takesTool)
      (followsFrom_sent preserveReasoning preserveDeepseek hnoop)) (by simp) (by simp)
  · rw [takesRead, roleIs_tool_of_isTool hm, Bool.true_or]
  · rw [takesRead, hm, Bool.or_true]
  · rw [takesRead, mem_toolRun t ht, Bool.true_or]

/-- Where the tool rows at the head of a run answer all calls, no placeholder is due. -/
theorem missingToolResponses_eq_nil {notice : String} {m : Message} {behind : List Message}
    (h : ∀ call ∈ m.calls, call.id ∈ answeredIds behind) :
    missingToolResponses notice m behind = [] := by
  have hread : ∀ id ∈ answeredIds behind, id ∈ contiguousToolResponseIds behind := by
    intro id hid
    rw [answeredIds, takeWhile_toolRun] at hid
    exact ((takeWhile_sublist _).filterMap _).subset hid
  rw [missingToolResponses, map_eq_nil_iff, filter_eq_nil_iff]
  intro call hcall
  simpa using hread call.id (h call hcall)

theorem follows_completedRows (hnoop : dropOrphanToolMessages messages = messages)
    (h : AllCallers AnsweredByTools ((messages.filter Message.sentToModel).map
      (strippedRow preserveReasoning preserveDeepseek))) :
    FollowsFrom takesTool none (completedRows messages preserveReasoning preserveDeepseek) := by
  refine followsFrom_completeBehind (fun m hm => ?_) (fun m hm => ?_)
    (allCallers_imp (fun m behind hm hne t ht => ?_) h)
    (followsFrom_sent preserveReasoning preserveDeepseek hnoop) (by simp) (by simp)
  · rw [takesTool, hm, Bool.true_or]
  · rw [takesTool, hm, Bool.or_true]
  · rcases hm with hall | hanswered
    · rw [takesTool, isTool, hall t ht]
      rfl
    · exact absurd (missingToolResponses_eq_nil hanswered) hne

theorem answeredByTools_stripped : AllCallers AnsweredByTools
      ((messages.filter Message.sentToModel).map
        (strippedRow preserveReasoning preserveDeepseek)) ↔
    AllCallers AnsweredByTools (messages.filter Message.sentToModel) := by
  have hkeeps := strippedRow_keeps preserveReasoning preserveDeepseek
  refine (allCallers_map fun m => callsTools_congr (hkeeps m).1 (hkeeps m).2.1).trans
    (allCallers_congr fun m behind => ?_)
  have hcalls : (strippedRow preserveReasoning preserveDeepseek m).calls = m.calls := by
    rw [Message.calls, (hkeeps m).2.1, Message.calls]
  rw [AnsweredByTools, AnsweredByTools, hcalls, toolRun_map fun m => (hkeeps m).1,
    answeredIds_map (fun m => (hkeeps m).1) fun m => (hkeeps m).2.2]
  refine or_congr_left ?_
  simp [(hkeeps _).1]

/-- All calls of the body are answered exactly if tool rows answer those of the sent rows, as far
as other rows pass for answers. -/
theorem answered_body_iff (hnoop : dropOrphanToolMessages messages = messages) :
    AllCallers (fun m behind => ∀ call ∈ m.calls, call.id ∈ answeredIds behind)
        (conversationMessagesToVendorBody serde messages false preserveReasoning
          preserveDeepseek) ↔
      AllCallers AnsweredByTools (messages.filter Message.sentToModel) := by
  have hsanitize : ∀ rows : List Message,
      AllCallers (fun m behind => ∀ call ∈ m.calls, call.id ∈ answeredIds behind)
          (rows.map (sanitizeAssistantToolCallArguments serde)) ↔
        AllCallers (fun m behind => ∀ call ∈ m.calls, call.id ∈ answeredIds behind) rows := by
    intro rows
    refine (allCallers_map (callsTools_sanitize serde)).trans
      (allCallers_congr fun m behind => ?_)
    rw [answeredIds_map (role_sanitize serde) (toolCallId_sanitize serde)]
    have hids := callIds_sanitize serde m
    calc (∀ call ∈ (sanitizeAssistantToolCallArguments serde m).calls,
          call.id ∈ answeredIds behind)
        ↔ ∀ id ∈ (sanitizeAssistantToolCallArguments serde m).calls.map ToolCall.id,
            id ∈ answeredIds behind := List.forall_mem_map.symm
      _ ↔ ∀ id ∈ m.calls.map ToolCall.id, id ∈ answeredIds behind := by rw [hids]
      _ ↔ ∀ call ∈ m.calls, call.id ∈ answeredIds behind := List.forall_mem_map
  rw [conversationMessagesToVendorBody_eq]
  calc _ ↔ AllCallers (fun m behind => ∀ call ∈ m.calls, call.id ∈ answeredIds behind)
          (mergedRows (completedRows messages preserveReasoning preserveDeepseek)) := hsanitize _
    _ ↔ AllCallers (fun m behind => ∀ call ∈ m.calls, call.id ∈ answeredIds behind)
          (completedRows messages preserveReasoning preserveDeepseek) :=
        answered_mergedRows_iff (toolNext_completedRows messages _ _)
          (followsRead_completedRows _ _ hnoop)
    _ ↔ AllCallers AnsweredByTools ((messages.filter Message.sentToModel).map
          (strippedRow preserveReasoning preserveDeepseek)) := answered_completeBehind_iff (by simp)
    _ ↔ AllCallers AnsweredByTools (messages.filter Message.sentToModel) :=
        answeredByTools_stripped _ _

theorem arguments_body_iff (h : PrintsJson serde) :
    (∀ m ∈ conversationMessagesToVendorBody serde messages false preserveReasoning
        preserveDeepseek, ValidArguments serde m) ↔
      OthersValid serde (messages.filter Message.sentToModel) := by
  have hkeeps := strippedRow_keeps preserveReasoning preserveDeepseek
  have hstripped : OthersValid serde ((messages.filter Message.sentToModel).map
      (strippedRow preserveReasoning preserveDeepseek)) ↔
      OthersValid serde (messages.filter Message.sentToModel) := by
    rw [OthersValid, List.forall_mem_map]
    refine forall₂_congr fun m _ => ?_
    rw [ValidArguments, ValidArguments, Message.calls, (hkeeps m).2.1, Message.calls, roleIs,
      (hkeeps m).1, roleIs]
  rw [conversationMessagesToVendorBody_eq]
  calc _ ↔ OthersValid serde
          (mergedRows (completedRows messages preserveReasoning preserveDeepseek)) :=
        othersValid_sanitize h
    _ ↔ OthersValid serde (completedRows messages preserveReasoning preserveDeepseek) :=
        othersValid_mergedRows serde
    _ ↔ OthersValid serde ((messages.filter Message.sentToModel).map
          (strippedRow preserveReasoning preserveDeepseek)) :=
        othersValid_completeBehind fun m hm => absurd hm not_mem_nil
    _ ↔ OthersValid serde (messages.filter Message.sentToModel) := hstripped

/-- The body of a history without orphans is one the upstream takes exactly if the history can be
sent. -/
theorem wireBody_iff (h : PrintsJson serde)
    (hnoop : dropOrphanToolMessages messages = messages) :
    WireBody serde (conversationMessagesToVendorBody serde messages false preserveReasoning
      preserveDeepseek) ↔ Sendable serde messages := by
  have harguments : OthersValid serde (messages.filter Message.sentToModel) ↔
      ∀ m ∈ messages, m.sentToModel = true → roleIs "assistant" m = false →
        ValidArguments serde m := by
    simp only [OthersValid, mem_filter, and_imp]
  constructor
  · intro hbody
    exact {
      answered := (answered_body_iff serde _ _ hnoop).mp hbody.answered
      arguments := harguments.mp ((arguments_body_iff serde _ _ h).mp hbody.arguments) }
  · intro hsend
    have hfollow := followsFrom_mergedRows
      (toolNext_completedRows messages preserveReasoning preserveDeepseek)
      (follows_completedRows _ _ hnoop ((answeredByTools_stripped _ _).mpr hsend.answered))
    refine ⟨?_, ?_, (answered_body_iff serde _ _ hnoop).mpr hsend.answered, ?_,
      (arguments_body_iff serde _ _ h).mpr (harguments.mpr hsend.arguments)⟩
    · rw [conversationMessagesToVendorBody_eq, NoAdjacentAssistants, isChain_map]
      simp only [roleIs_sanitize]
      exact noAdjacentAssistants_mergedRows
        (completedRows messages preserveReasoning preserveDeepseek)
    · rw [conversationMessagesToVendorBody_eq, List.forall_mem_map]
      intro m hm hrole
      rw [roleIs_sanitize] at hrole
      exact speaks_sanitize serde (speaks_content (mem_filter.mp hm).2 hrole) hrole
    · rw [conversationMessagesToVendorBody_eq]
      refine (@followsFrom_map (sanitizeAssistantToolCallArguments serde) _ takesTool none
        (role_sanitize serde) fun m => ?_).mpr hfollow
      rw [takesTool, callsTools_sanitize, isTool, role_sanitize]
      rfl

/-- A reader of the empty object only. -/
def emptyObjectJson : ToolJson :=
  ⟨fun s => if s = "\x7b\x7d".toList then some (.obj []) else none, fun _ => "\x7b\x7d".toList⟩

theorem printsJson_emptyObject : PrintsJson emptyObjectJson where
  reads _ _ _ := by simp [emptyObjectJson]
  empty := by simp [emptyObjectJson]

def listCall : ToolCall := ⟨"c1", "function", ⟨"list_files", "\x7b"⟩⟩

def resultRow (role : String) : Message :=
  ⟨role, some (.text "a.txt"), none, none, none, none, some "c1"⟩

/-- A history whose call is answered by a row of the role `answer`. -/
def historyAnsweredBy (answer : String) : List Message :=
  [.userOnly "Which files?", ⟨"assistant", none, none, none, some [listCall], none, none⟩,
    resultRow answer]

theorem wireBody_historyAnsweredBy_tool :
    dropOrphanToolMessages (historyAnsweredBy "tool") = historyAnsweredBy "tool" ∧
      WireBody emptyObjectJson (conversationMessagesToVendorBody emptyObjectJson
        (historyAnsweredBy "tool") false false false) := by
  have hnoop : dropOrphanToolMessages (historyAnsweredBy "tool") = historyAnsweredBy "tool" := by
    decide +kernel
  have hsent : (historyAnsweredBy "tool").filter Message.sentToModel =
      historyAnsweredBy "tool" := by decide +kernel
  refine ⟨hnoop, (wireBody_iff emptyObjectJson false false printsJson_emptyObject hnoop).mpr ?_⟩
  constructor
  · rw [hsent]
    refine ⟨fun h => absurd h (by decide +kernel), fun _ => .inl fun t ht => ?_,
      fun h => absurd h (by decide +kernel), trivial⟩
    rw [mem_singleton.mp ((takeWhile_sublist _).subset ht)]
    rfl
  · intro m hm _ hrole call hcall
    simp only [historyAnsweredBy, mem_cons, not_mem_nil, or_false] at hm
    rcases hm with rfl | rfl | rfl
    · cases hcall
    · exact absurd hrole (by decide +kernel)
    · cases hcall

/-- A row of the role `Tool` is no orphan and passes for the answer, but it is no tool row. -/
theorem not_wireBody_historyAnsweredBy_Tool :
    PrintsJson emptyObjectJson ∧
      dropOrphanToolMessages (historyAnsweredBy "Tool") = historyAnsweredBy "Tool" ∧
      ¬ WireBody emptyObjectJson (conversationMessagesToVendorBody emptyObjectJson
        (historyAnsweredBy "Tool") false false false) := by
  have hnoop : dropOrphanToolMessages (historyAnsweredBy "Tool") = historyAnsweredBy "Tool" := by
    decide +kernel
  have hsent : (historyAnsweredBy "Tool").filter Message.sentToModel =
      historyAnsweredBy "Tool" := by decide +kernel
  refine ⟨printsJson_emptyObject, hnoop, fun hbody => ?_⟩
  have hanswered := (answered_body_iff emptyObjectJson false false hnoop).mp hbody.answered
  rw [hsent] at hanswered
  obtain ⟨-, hcaller, -⟩ := hanswered
  rcases hcaller (by decide +kernel) with htools | hids
  · exact absurd (htools (resultRow "Tool") (by decide +kernel)) (by decide)
  · exact absurd (hids listCall (by decide +kernel)) (by decide +kernel)

end Main
end CrabMate
