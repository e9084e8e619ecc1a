import CrabMate.Agent.SerialTools
import CrabMate.Lib.Run

/-! When a reused output is the output of the same call. Every entry of the success memo and of the
read-only cache comes from an event of the turn; between that event and the answer nothing may have
changed the workspace. -/
namespace CrabMate
open RustStr List Option

section Statement

variable (cfg : TurnConfig)

/-- The program, the arguments and the directory of a `run_command`; none when it is refused. -/
def resolvedOf (call : SerialCall) : Option ResolvedCommand :=
  (specOf cfg call.args).bind fun spec =>
    (resolveCommand call.host cfg.effectiveWorkingDir spec).toOption

def succeeded (e : ToolEvent) : Bool :=
  (parseToolOutput cfg.reader.fromStr e.call.name e.output).ok

/-- The event is no successful execution of a tool with effects, nor of one that reported a change
of the workspace. -/
def QuietEvent (e : ToolEvent) : Prop :=
  e.source = .dispatch → succeeded cfg e = true →
    isReadonlyTool cfg.writeEffectTools e.call.name = true ∧ e.call.changesWorkspace = false

/-- An executed call with the property, and only quiet events since. -/
def ExecutedBefore (p : ToolEvent → Prop) (log : List ToolEvent) : Prop :=
  ∃ since e before, log = since ++ e :: before ∧ e.source = .dispatch ∧ p e ∧
    ∀ e' ∈ since, QuietEvent cfg e'

/-- A command of the success memo is one that was executed and succeeded, and its output. -/
def SameCommand (e j : ToolEvent) : Prop :=
  j.call.name = runCommandName ∧ succeeded cfg j = true ∧
    (∃ cmd, resolvedOf cfg j.call = some cmd ∧ resolvedOf cfg e.call = some cmd) ∧
    e.output = runCommandDuplicateSuppressedMsg ++ '\n' :: j.output

def SameCall (e j : ToolEvent) : Prop :=
  j.call.name = e.call.name ∧ j.call.args = e.call.args ∧ e.output = j.output

/-- What a reused output stands for. -/
def AnswerSound (e : ToolEvent) (older : List ToolEvent) : Prop :=
  (e.source = .successMemo → ExecutedBefore cfg (SameCommand cfg e) older) ∧
    (e.source = .readonlyCache → ExecutedBefore cfg (SameCall e) older)

def ReuseSound : List ToolEvent → Prop
  | [] => True
  | e :: older => AnswerSound cfg e older ∧ ReuseSound older

/-- The event that puts an output under a key of the success memo. -/
def recordsUnder (key : Str) (e : ToolEvent) : Bool :=
  e.source = .dispatch && e.call.name = runCommandName && succeeded cfg e &&
    suppressKey cfg e.call = some key

/-- The last command recorded under the key of a call resolves as the call does. -/
def KeyTells (st : TurnState) (call : SerialCall) : Prop :=
  call.name = runCommandName → ∀ key, suppressKey cfg call = some key →
    (st.successfulRunCommands.get? key).isSome = true →
      ∀ j, st.log.find? (recordsUnder cfg key) = some j →
        ∃ cmd, resolvedOf cfg j.call = some cmd ∧ resolvedOf cfg call = some cmd

/-- A tool that counts as read-only reports a change of the workspace only while the cache of the
batch is empty. -/
def ChangeFindsEmptyCache (st : TurnState) (call : SerialCall) : Prop :=
  isReadonlyTool cfg.writeEffectTools call.name = true → call.changesWorkspace = true →
    (parsedResult cfg call).ok = true → st.readonlyCache.rows = []

def CallOk (st : TurnState) : ToolTurnOp → Prop
  | .startBatch => True
  | .call call => KeyTells cfg st call ∧ ChangeFindsEmptyCache cfg st call

end Statement

section Latest

variable {cfg : TurnConfig} {p : ToolEvent → Bool} {log : List ToolEvent} {e j : ToolEvent}

/-- The last event with a property, when only quiet events came after it. -/
def Latest (cfg : TurnConfig) (p : ToolEvent → Bool) (log : List ToolEvent) (j : ToolEvent) :
    Prop :=
  log.find? p = some j ∧ ∀ e ∈ log.takeWhile fun e => !p e, QuietEvent cfg e

theorem latest_cons_self (hp : p e = true) : Latest cfg p (e :: log) e := by
  constructor
  · rw [find?_cons_of_pos hp]
  · simp [hp]

theorem Latest.cons (h : Latest cfg p log j) (hp : p e = false) (he : QuietEvent cfg e) :
    Latest cfg p (e :: log) j := by
  constructor
  · rw [find?_cons_of_neg (by simp [hp])]
    exact h.1
  · intro e' he'
    rw [takeWhile_cons_of_pos (by simp [hp]), mem_cons] at he'
    rcases he' with rfl | he'
    · exact he
    · exact h.2 e' he'

theorem Latest.executedBefore {q : ToolEvent → Prop} (h : Latest cfg p log j)
    (hp : ∀ e, p e = true → e.source = .dispatch) (hq : q j) : ExecutedBefore cfg q log := by
  obtain ⟨hfind, hquiet⟩ := h
  obtain ⟨hpj, since, before, rfl, hsince⟩ := find?_eq_some_iff_append.mp hfind
  refine ⟨since, j, before, rfl, hp j hpj, hq, fun e he => hquiet e ?_⟩
  have hall : ∀ e ∈ since, (!p e) = true := hsince
  rw [takeWhile_append_of_pos hall]
  exact mem_append_left _ he

theorem quietEvent_of_answered (h : e.source ≠ .dispatch) : QuietEvent cfg e :=
  fun hdispatch => absurd hdispatch h

end Latest

section AfterDispatch

variable (cfg : TurnConfig) (st : TurnState) (call : SerialCall)

/-! Each part of the bookkeeping touches its own field. -/

theorem memo_serialBookkeepRunCommandFailure :
    (serialBookkeepRunCommandFailure cfg st call).successfulRunCommands =
      if call.name = runCommandName ∧ (parsedResult cfg call).ok = true then
        if runCommandInvocationIsMakeClean cfg call.args then Table.empty
        else match suppressKey cfg call with
          | some key => st.successfulRunCommands.put (key, call.result)
          | none => st.successfulRunCommands
      else st.successfulRunCommands := by
  unfold serialBookkeepRunCommandFailure
  by_cases hname : call.name = runCommandName
  · by_cases hok : (parsedResult cfg call).ok = true
    · by_cases hclean : runCommandInvocationIsMakeClean cfg call.args = true
      · simp [hname, hok, hclean, TurnState.clearAllRunCommandFailureState]
      · cases suppressKey cfg call <;>
          simp [hname, hok, hclean, TurnState.recordSuccessfulRunCommand,
            TurnState.clearToolFailureSignature, TurnState.clearToolFailureFamiliesForTool]
    · cases classifyFamilyFromResult cfg call.args (parsedResult cfg call) <;>
        simp [hname, hok, TurnState.markToolFailureFamily, TurnState.markToolFailureSignature]
  · simp [hname]

theorem rest_serialBookkeepRunCommandFailure :
    (serialBookkeepRunCommandFailure cfg st call).readonlyCache = st.readonlyCache ∧
      (serialBookkeepRunCommandFailure cfg st call).workspaceChanged = st.workspaceChanged ∧
      (serialBookkeepRunCommandFailure cfg st call).log = st.log := by
  unfold serialBookkeepRunCommandFailure
  split_ifs with hname hok hclean
  · exact ⟨rfl, rfl, rfl⟩
  · cases suppressKey cfg call <;> exact ⟨rfl, rfl, rfl⟩
  · cases suppressKey cfg call <;> exact ⟨rfl, rfl, rfl⟩
  · cases classifyFamilyFromResult cfg call.args (parsedResult cfg call) <;>
      exact ⟨rfl, rfl, rfl⟩

theorem rest_serialClear :
    (serialClearRunCommandFailuresAfterWorkspaceMutation cfg st call).readonlyCache =
        st.readonlyCache ∧
      (serialClearRunCommandFailuresAfterWorkspaceMutation cfg st call).log = st.log := by
  unfold serialClearRunCommandFailuresAfterWorkspaceMutation
  split_ifs <;> exact ⟨rfl, rfl⟩

/-- An entry that survives the clearing was there before, and the call changed nothing. -/
theorem memo_serialClear {key out : Str}
    (h : (serialClearRunCommandFailuresAfterWorkspaceMutation cfg st call).successfulRunCommands.get?
      key = some out) :
    st.successfulRunCommands.get? key = some out ∧
      ((parsedResult cfg call).ok = true →
        isReadonlyTool cfg.writeEffectTools call.name = true ∧ st.workspaceChanged = false) := by
  unfold serialClearRunCommandFailuresAfterWorkspaceMutation at h
  split_ifs at h with hquiet hfailed
  · rw [Bool.and_eq_true, Bool.not_eq_true'] at hquiet
    exact ⟨h, fun _ => hquiet⟩
  · refine ⟨h, fun hok => ?_⟩
    simp [hok] at hfailed
  · cases h

theorem rest_updateReadonlyCache :
    (updateReadonlyCache cfg st call).successfulRunCommands = st.successfulRunCommands ∧
      (updateReadonlyCache cfg st call).log = st.log := by
  unfold updateReadonlyCache
  split_ifs <;> exact ⟨rfl, rfl⟩

end AfterDispatch

section Step

variable {cfg : TurnConfig} {st : TurnState} {call : SerialCall}

/-- The event of a dispatched call. -/
def executed (call : SerialCall) : ToolEvent := ⟨call, .dispatch, call.result⟩

/-- The state after the bookkeeping of a dispatched call. -/
def afterDispatch (cfg : TurnConfig) (st : TurnState) (call : SerialCall) : TurnState :=
  serialClearRunCommandFailuresAfterWorkspaceMutation cfg
    (serialBookkeepRunCommandFailure cfg (dispatchToolCall st call) call) call

theorem serialExecuteOneToolCall_dispatched
    (h : serialEmitEarlyWithoutDispatch cfg st call = none) :
    serialExecuteOneToolCall cfg st call =
      (updateReadonlyCache cfg (afterDispatch cfg st call) call).emit call .dispatch
        call.result := by
  rw [serialExecuteOneToolCall, h]
  rfl

theorem recordsUnder_executed (key : Str) :
    recordsUnder cfg key (executed call) = true ↔
      (call.name = runCommandName ∧ (parsedResult cfg call).ok = true) ∧
        suppressKey cfg call = some key := by
  simp only [recordsUnder, Bool.and_eq_true, decide_eq_true_eq]
  exact ⟨fun h => ⟨⟨h.1.1.2, h.1.2⟩, h.2⟩, fun h => ⟨⟨⟨rfl, h.1.1⟩, h.1.2⟩, h.2⟩⟩

/-- Where an entry of the success memo comes from after a dispatch. -/
theorem memo_afterDispatch {key out : Str}
    (h : (afterDispatch cfg st call).successfulRunCommands.get? key = some out) :
    QuietEvent cfg (executed call) ∧
      (recordsUnder cfg key (executed call) = true ∧ out = call.result ∨
        recordsUnder cfg key (executed call) = false ∧
          st.successfulRunCommands.get? key = some out) := by
  obtain ⟨hmemo, hquiet⟩ := memo_serialClear cfg _ call h
  rw [(rest_serialBookkeepRunCommandFailure cfg _ call).2.1] at hquiet
  constructor
  · intro _ hok
    obtain ⟨hreadonly, hchanged⟩ := hquiet hok
    rw [dispatchToolCall, Bool.or_eq_false_iff] at hchanged
    exact ⟨hreadonly, hchanged.2⟩
  · rw [memo_serialBookkeepRunCommandFailure] at hmemo
    split_ifs at hmemo with hrun hclean
    · cases hmemo
    · cases hkey : suppressKey cfg call with
      | none =>
        rw [hkey] at hmemo
        refine .inr ⟨?_, hmemo⟩
        rw [← Bool.not_eq_true, recordsUnder_executed, hkey]
        simp
      | some recorded =>
        rw [hkey] at hmemo
        by_cases heq : recorded = key
        · subst heq
          have hout := hmemo.symm.trans (Memo.get?_put_self _ _ _)
          exact .inl ⟨(recordsUnder_executed _).mpr ⟨hrun, hkey⟩, Option.some.inj hout⟩
        · refine .inr ⟨?_, ?_⟩
          · rw [← Bool.not_eq_true, recordsUnder_executed, hkey]
            simp [heq]
          · exact (Memo.get?_put_of_ne st.successfulRunCommands call.result heq).symm.trans hmemo
    · refine .inr ⟨?_, hmemo⟩
      rw [← Bool.not_eq_true, recordsUnder_executed]
      exact fun hrec => hrun hrec.1

/-- The event that puts an output into the read-only cache. -/
def executedAs (cfg : TurnConfig) (k : Str × Str) (e : ToolEvent) : Bool :=
  e.source = .dispatch && toolOutputDedupCacheEligible cfg.writeEffectTools e.call.name &&
    (e.call.name, e.call.args) = k

structure ReuseInv (cfg : TurnConfig) (st : TurnState) : Prop where
  memo : ∀ key out, st.successfulRunCommands.get? key = some out →
    ∃ j, Latest cfg (recordsUnder cfg key) st.log j ∧ j.output = out
  cache : ∀ k out, st.readonlyCache.get? k = some out →
    ∃ j, Latest cfg (executedAs cfg k) st.log j ∧ j.output = out
  sound : ReuseSound cfg st.log

theorem source_of_recordsUnder {key : Str} {e : ToolEvent} (h : recordsUnder cfg key e = true) :
    e.source = .dispatch ∧ e.call.name = runCommandName ∧ succeeded cfg e = true := by
  simp only [recordsUnder, Bool.and_eq_true, decide_eq_true_eq] at h
  exact ⟨h.1.1.1, h.1.1.2, h.1.2⟩

theorem recordsUnder_answered {key : Str} {e : ToolEvent} (h : e.source ≠ .dispatch) :
    recordsUnder cfg key e = false := by
  simp [recordsUnder, h]

theorem executedAs_answered {k : Str × Str} {e : ToolEvent} (h : e.source ≠ .dispatch) :
    executedAs cfg k e = false := by
  simp [executedAs, h]

theorem reuseInv_answered (hinv : ReuseInv cfg st) {st' : TurnState} {e : ToolEvent}
    (hmemo : st'.successfulRunCommands = st.successfulRunCommands)
    (hcache : st'.readonlyCache = st.readonlyCache) (hlog : st'.log = e :: st.log)
    (hsource : e.source ≠ .dispatch) (hsound : AnswerSound cfg e st.log) : ReuseInv cfg st' := by
  have hquiet : QuietEvent cfg e := quietEvent_of_answered hsource
  constructor
  · intro key out h
    obtain ⟨j, hj, hout⟩ := hinv.memo key out (hmemo ▸ h)
    exact ⟨j, hlog ▸ hj.cons (recordsUnder_answered hsource) hquiet, hout⟩
  · intro k out h
    obtain ⟨j, hj, hout⟩ := hinv.cache k out (hcache ▸ h)
    exact ⟨j, hlog ▸ hj.cons (executedAs_answered hsource) hquiet, hout⟩
  · rw [hlog]
    exact ⟨hsound, hinv.sound⟩

/-- What a memo or a cache answers with. -/
theorem memoAnswer_cases {answer : AnswerSource × Str} (h : memoAnswer cfg st call = some answer) :
    answer.1 = .successMemo ∧ successMemoAnswer cfg st call = some answer.2 ∨
      answer.1 = .failureMemo ∨ answer.1 = .ttlCache ∨
        answer.1 = .readonlyCache ∧ readonlyCacheAnswer cfg st call = some answer.2 := by
  unfold memoAnswer at h
  cases hmemo : successMemoAnswer cfg st call with
  | some text =>
    rw [hmemo] at h
    cases h
    exact .inl ⟨rfl, rfl⟩
  | none =>
    cases hfailure : failureMemoAnswer cfg st call with
    | some text =>
      rw [hmemo, hfailure] at h
      cases h
      exact .inr (.inl rfl)
    | none =>
      cases httl : ttlCacheAnswer cfg call with
      | some text =>
        rw [hmemo, hfailure, httl] at h
        cases h
        exact .inr (.inr (.inl rfl))
      | none =>
        cases hcache : readonlyCacheAnswer cfg st call with
        | some text =>
          rw [hmemo, hfailure, httl, hcache] at h
          cases h
          exact .inr (.inr (.inr ⟨rfl, rfl⟩))
        | none =>
          rw [hmemo, hfailure, httl, hcache] at h
          cases h

theorem sound_successMemo (hinv : ReuseInv cfg st) (hkey : KeyTells cfg st call) {text : Str}
    (h : successMemoAnswer cfg st call = some text) :
    ExecutedBefore cfg (SameCommand cfg ⟨call, .successMemo, text⟩) st.log := by
  unfold successMemoAnswer at h
  split_ifs at h with hname
  have hrun : call.name = runCommandName := not_not.mp hname
  obtain ⟨cached, hcached, rfl⟩ := map_eq_some_iff.mp h
  obtain ⟨key, hk, hget⟩ := bind_eq_some_iff.mp hcached
  obtain ⟨j, hj, hout⟩ := hinv.memo key cached hget
  obtain ⟨cmd, hcmd⟩ := hkey hrun key hk (by rw [hget]; rfl) j hj.1
  have hrecords := source_of_recordsUnder (find?_some hj.1)
  refine hj.executedBefore (fun e he => (source_of_recordsUnder he).1) ?_
  exact ⟨hrecords.2.1, hrecords.2.2, ⟨cmd, hcmd⟩, by rw [hout]⟩

theorem sound_readonlyCache (hinv : ReuseInv cfg st) {text : Str}
    (h : readonlyCacheAnswer cfg st call = some text) :
    ExecutedBefore cfg (SameCall ⟨call, .readonlyCache, text⟩) st.log := by
  unfold readonlyCacheAnswer at h
  split_ifs at h
  obtain ⟨j, hj, hout⟩ := hinv.cache _ _ h
  have hsplit : ∀ e, executedAs cfg (call.name, call.args) e = true →
      e.source = .dispatch ∧ e.call.name = call.name ∧ e.call.args = call.args := by
    intro e he
    simp only [executedAs, Bool.and_eq_true, decide_eq_true_eq, Prod.mk.injEq] at he
    exact ⟨he.1.1, he.2⟩
  have hsame := hsplit j (find?_some hj.1)
  exact hj.executedBefore (fun e he => (hsplit e he).1) ⟨hsame.2.1, hsame.2.2, hout.symm⟩

theorem reuseInv_early (hinv : ReuseInv cfg st) (hkey : KeyTells cfg st call)
    {early : TurnState × AnswerSource × Str}
    (h : serialEmitEarlyWithoutDispatch cfg st call = some early) :
    ReuseInv cfg (early.1.emit call early.2.1 early.2.2) := by
  have hplain : ∀ source text, source ≠ .successMemo → source ≠ .readonlyCache →
      AnswerSound cfg ⟨call, source, text⟩ st.log :=
    fun source text hmemo hcache => ⟨fun heq => absurd heq hmemo, fun heq => absurd heq hcache⟩
  unfold serialEmitEarlyWithoutDispatch at h
  split at h
  · cases h
    exact reuseInv_answered hinv rfl rfl rfl nofun (hplain _ _ nofun nofun)
  split at h
  · cases h
    exact reuseInv_answered hinv rfl rfl rfl nofun (hplain _ _ nofun nofun)
  split at h
  · cases h
    exact reuseInv_answered hinv rfl rfl rfl nofun (hplain _ _ nofun nofun)
  · obtain ⟨⟨source, text⟩, hanswer, rfl⟩ := map_eq_some_iff.mp h
    rcases memoAnswer_cases hanswer with ⟨hs, hmemo⟩ | hs | hs | ⟨hs, hcache⟩ <;>
      obtain rfl : source = _ := hs
    · exact reuseInv_answered hinv rfl rfl rfl nofun
        ⟨fun _ => sound_successMemo hinv hkey hmemo, fun heq => by cases heq⟩
    · exact reuseInv_answered hinv rfl rfl rfl nofun (hplain _ _ nofun nofun)
    · exact reuseInv_answered hinv rfl rfl rfl nofun (hplain _ _ nofun nofun)
    · exact reuseInv_answered hinv rfl rfl rfl nofun
        ⟨fun heq => (by cases heq), fun _ => sound_readonlyCache hinv hcache⟩

theorem executedAs_executed (k : Str × Str) :
    executedAs cfg k (executed call) = true ↔
      toolOutputDedupCacheEligible cfg.writeEffectTools call.name = true ∧
        (call.name, call.args) = k := by
  simp only [executedAs, Bool.and_eq_true, decide_eq_true_eq]
  exact ⟨fun h => ⟨h.1.2, h.2⟩, fun h => ⟨⟨rfl, h.1⟩, h.2⟩⟩

/-- Where an entry of the read-only cache comes from after a dispatch. -/
theorem cache_updateReadonlyCache (hchange : ChangeFindsEmptyCache cfg st call) {st' : TurnState}
    (hcache : st'.readonlyCache = st.readonlyCache) {k : Str × Str} {out : Str}
    (h : (updateReadonlyCache cfg st' call).readonlyCache.get? k = some out) :
    executedAs cfg k (executed call) = true ∧ out = call.result ∨
      executedAs cfg k (executed call) = false ∧ QuietEvent cfg (executed call) ∧
        st.readonlyCache.get? k = some out := by
  -- an older entry is there, so the call is no change that the cache would have to forget
  have hquiet : isReadonlyTool cfg.writeEffectTools call.name = true →
      st.readonlyCache.get? k = some out → QuietEvent cfg (executed call) := by
    intro hreadonly hget _ hok
    refine ⟨hreadonly, ?_⟩
    by_contra hchanged
    have hempty := hchange hreadonly (by simpa [executed] using hchanged) hok
    rw [Memo.get?, Table.lookup, hempty] at hget
    cases hget
  unfold updateReadonlyCache at h
  split_ifs at h with heligible hreadonly
  · have hreadonly : isReadonlyTool cfg.writeEffectTools call.name = true := by
      rw [toolOutputDedupCacheEligible, Bool.and_eq_true] at heligible
      exact heligible.1
    by_cases hk : (call.name, call.args) = k
    · subst hk
      have hout := h.symm.trans (Memo.get?_put_self _ _ _)
      exact .inl ⟨(executedAs_executed _).mpr ⟨heligible, rfl⟩, Option.some.inj hout⟩
    · have hold := (Memo.get?_put_of_ne st'.readonlyCache call.result hk).symm.trans h
      rw [hcache] at hold
      refine .inr ⟨?_, hquiet hreadonly hold, hold⟩
      rw [← Bool.not_eq_true, executedAs_executed]
      exact fun hexec => hk hexec.2
  · cases h
  · rw [hcache] at h
    refine .inr ⟨?_, hquiet (by simpa using hreadonly) h, h⟩
    rw [← Bool.not_eq_true, executedAs_executed]
    exact fun hexec => heligible hexec.1

theorem reuseInv_dispatched (hinv : ReuseInv cfg st) (hchange : ChangeFindsEmptyCache cfg st call)
    (hearly : serialEmitEarlyWithoutDispatch cfg st call = none) :
    ReuseInv cfg (serialExecuteOneToolCall cfg st call) := by
  have hstep := serialExecuteOneToolCall_dispatched hearly
  have hrest := rest_updateReadonlyCache cfg (afterDispatch cfg st call) call
  have hclear := rest_serialClear cfg
    (serialBookkeepRunCommandFailure cfg (dispatchToolCall st call) call) call
  have hbook := rest_serialBookkeepRunCommandFailure cfg (dispatchToolCall st call) call
  have hlog : (serialExecuteOneToolCall cfg st call).log = executed call :: st.log := by
    rw [hstep]
    show executed call :: _ = _
    rw [hrest.2, afterDispatch, hclear.2, hbook.2.2]
    rfl
  constructor
  · intro key out h
    rw [hstep] at h
    have hmemo : (afterDispatch cfg st call).successfulRunCommands.get? key = some out :=
      hrest.1 ▸ h
    obtain ⟨hquiet, ⟨hrecords, rfl⟩ | ⟨hrecords, hold⟩⟩ := memo_afterDispatch hmemo
    · exact ⟨executed call, hlog ▸ latest_cons_self hrecords, rfl⟩
    · obtain ⟨j, hj, hout⟩ := hinv.memo key out hold
      exact ⟨j, hlog ▸ hj.cons hrecords hquiet, hout⟩
  · intro k out h
    rw [hstep] at h
    have hcache : (afterDispatch cfg st call).readonlyCache = st.readonlyCache := by
      rw [afterDispatch, hclear.1, hbook.1]
      rfl
    obtain ⟨hexec, rfl⟩ | ⟨hexec, hquiet, hold⟩ := cache_updateReadonlyCache hchange hcache h
    · exact ⟨executed call, hlog ▸ latest_cons_self hexec, rfl⟩
    · obtain ⟨j, hj, hout⟩ := hinv.cache k out hold
      exact ⟨j, hlog ▸ hj.cons hexec hquiet, hout⟩
  · rw [hlog]
    exact ⟨⟨nofun, nofun⟩, hinv.sound⟩

theorem reuseInv_start : ReuseInv cfg TurnState.start := ⟨nofun, nofun, trivial⟩

theorem reuseInv_step {op : ToolTurnOp} (hinv : ReuseInv cfg st) (hop : CallOk cfg st op) :
    ReuseInv cfg (toolTurnStep cfg st op) := by
  cases op with
  | startBatch => exact ⟨hinv.memo, nofun, hinv.sound⟩
  | call call =>
    cases hearly : serialEmitEarlyWithoutDispatch cfg st call with
    | none => exact reuseInv_dispatched hinv hop.2 hearly
    | some early =>
      have hstep : toolTurnStep cfg st (.call call) = early.1.emit call early.2.1 early.2.2 := by
        show serialExecuteOneToolCall cfg st call = _
        rw [serialExecuteOneToolCall, hearly]
      rw [hstep]
      exact reuseInv_early hinv hop.1 hearly

/-- In a turn whose calls all meet the two conditions, every reused output is that of the same
call, with nothing in between that changes the workspace. -/
theorem reused_outputs_sound {ops : List ToolTurnOp}
    (hops : Run.AllOk (toolTurnStep cfg) (CallOk cfg) TurnState.start ops) :
    ReuseSound cfg (Run.run (toolTurnStep cfg) TurnState.start ops).log := by
  have hstep : ∀ (st : TurnState) (op : ToolTurnOp), ReuseInv cfg st → CallOk cfg st op →
      ReuseInv cfg (toolTurnStep cfg st op) := fun st op hinv hop => reuseInv_step hinv hop
  exact (Run.invariant hstep reuseInv_start hops).sound

end Step

namespace SampleTurn

def lsArgs (dir : String) : JsonValue := .obj [("command", .str "ls"), ("cwd", .str dir)]

def lsText (dir : String) : Str :=
  ("\x7b\"command\":\"ls\",\"cwd\":\"" ++ dir ++ "\"\x7d").toList

/-- A configuration whose own list of tools with effects leaves `run_command` out. -/
def config : TurnConfig where
  writeEffectTools := some (builtinWriteEffectTools.filter fun t => t ≠ runCommandName)
  readonlyToolTtlCacheSecs := 0
  reader := ⟨fun s => (["a", "b"].find? fun dir => s = lsText dir).map lsArgs, fun _ => none⟩
  effectiveWorkingDir := "/w".toList

def ls (dir : String) : SerialCall where
  name := runCommandName
  args := lsText dir
  host := ⟨⟨fun p => ["/w", "/w/a", "/w/b"].any fun d => p = d.toList, .ok⟩, ["ls".toList], false⟩
  hasCargoToml := false
  cargoTomlCandidates := []
  denied := none
  ttlCached := none
  result := ("命令：ls\n退出码：0\n标准输出：\nfile-of-" ++ dir).toList
  changesWorkspace := false

def afterLs (dirs : List String) : TurnState :=
  Run.run (toolTurnStep config) TurnState.start (.startBatch :: dirs.map fun dir => .call (ls dir))

theorem log_afterLs_a : (afterLs ["a"]).log = [executed (ls "a")] := by rfl

theorem lsText_inj {dir dir' : String} (h : lsText dir = lsText dir') : dir = dir' := by
  simp only [lsText, String.toList_append] at h
  exact String.toList_inj.mp (append_cancel_left (append_cancel_right h))

theorem fromStr_lsText {dir : String} (h : dir ∈ ["a", "b"]) :
    config.reader.fromStr (lsText dir) = some (lsArgs dir) := by
  have hfind : ["a", "b"].find? (fun d => lsText dir = lsText d) = some dir := by
    have hiff : ∀ d, decide (lsText dir = lsText d) = decide (dir = d) := fun d =>
      decide_eq_decide.mpr ⟨lsText_inj, congrArg _⟩
    simp only [hiff]
    simp only [mem_cons, not_mem_nil, or_false] at h
    rcases h with rfl | rfl <;> rfl
  show Option.map _ _ = _
  rw [hfind]
  rfl

theorem specOf_ls {dir : String} (h : dir ∈ ["a", "b"]) :
    specOf config (ls dir).args = some ⟨"ls".toList, [], some dir.toList, none⟩ := by
  have hvalue : parseRunCommandValueWithRepair config.reader (lsText dir) = .ok (lsArgs dir) := by
    rw [parseRunCommandValueWithRepair, fromStr_lsText h]
    rfl
  show specOf config (lsText dir) = _
  rw [specOf, parseCommandSpec, hvalue]
  simp only [mem_cons, not_mem_nil, or_false] at h
  rcases h with rfl | rfl <;> decide +kernel

theorem resolvedOf_ls_a : resolvedOf config (ls "a") = some ⟨"ls".toList, [], "/w/a".toList⟩ := by
  rw [resolvedOf, specOf_ls (by decide), bind_some]
  decide +kernel

end SampleTurn

open SampleTurn in
/-- The same command twice: the second answer comes from the memo. -/
theorem reused_outputs_sound_sameCommand :
    (afterLs ["a", "a"]).log.map ToolEvent.source = [.successMemo, .dispatch] ∧
      ReuseSound config (afterLs ["a", "a"]).log := by
  have hops : Run.AllOk (toolTurnStep config) (CallOk config) TurnState.start
      (.startBatch :: ["a", "a"].map fun dir => .call (ls dir)) := by
    refine ⟨trivial, ⟨nofun, nofun⟩, ⟨?_, nofun⟩, trivial⟩
    intro _ key _ _ j hj
    have hmem : j ∈ (afterLs ["a"]).log := mem_of_find?_eq_some hj
    rw [log_afterLs_a, mem_singleton] at hmem
    subst hmem
    exact ⟨_, resolvedOf_ls_a, resolvedOf_ls_a⟩
  exact ⟨by decide +kernel, reused_outputs_sound hops⟩

open SampleTurn in
/-- `ls` in directory `b` is answered with the output of `ls` in directory `a`: no command of the
turn ran in `b`. -/
theorem successMemo_answers_for_another_cwd :
    ∃ e older, (afterLs ["a", "b"]).log = e :: older ∧ e.source = .successMemo ∧
      resolvedOf config e.call = some ⟨"ls".toList, [], "/w/b".toList⟩ ∧
      (∀ j ∈ older, resolvedOf config j.call = some ⟨"ls".toList, [], "/w/a".toList⟩) ∧
      ¬ReuseSound config (afterLs ["a", "b"]).log := by
  have hlog : (afterLs ["a", "b"]).log = [⟨ls "b", .successMemo,
      runCommandDuplicateSuppressedMsg ++ '\n' :: (ls "a").result⟩, executed (ls "a")] := by rfl
  have hb : resolvedOf config (ls "b") = some ⟨"ls".toList, [], "/w/b".toList⟩ := by
    rw [resolvedOf, specOf_ls (by decide), bind_some]
    decide +kernel
  have holder : ∀ j ∈ [executed (ls "a")],
      resolvedOf config j.call = some ⟨"ls".toList, [], "/w/a".toList⟩ := by
    intro j hj
    rw [mem_singleton.mp hj]
    exact resolvedOf_ls_a
  refine ⟨_, _, hlog, rfl, hb, holder, ?_⟩
  rw [hlog]
  rintro ⟨⟨hmemo, -⟩, -⟩
  obtain ⟨since, j, before, hsplit, -, ⟨-, -, ⟨cmd, hj, he⟩, -⟩, -⟩ := hmemo rfl
  have hmem : j ∈ [executed (ls "a")] := hsplit ▸ mem_append_right _ mem_cons_self
  rw [holder j hmem] at hj
  have hsame : some (ResolvedCommand.mk "ls".toList [] "/w/a".toList) =
      some ⟨"ls".toList, [], "/w/b".toList⟩ := (hj.trans he.symm).trans hb
  exact absurd hsame (by decide)

end CrabMate
