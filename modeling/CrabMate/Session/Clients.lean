import CrabMate.Session.Views

/-! Clients of the session store: any number of them load a conversation and write it back on
the revision they loaded, in any order and mixed with settings updates and the retention policy.
The log of what was accepted is a legal log of optimistic updates. -/
namespace CrabMate
open Function

variable {J : Type} (wire : Wire J)

abbrev ClientEvent := Cas.Event ℕ String SettingField String

/-- The conversations gone between two states of the store. -/
def droppedEvents (backing backing' : ConversationBacking J) : List ClientEvent :=
  (backing.ids.filter fun id => (backing'.view id).isNone).map .dropped

/-- The store, the revision each client loaded last, and what happened so far. -/
structure Cluster (J : Type) where
  backing : ConversationBacking J
  seen : ℕ → String → Option (Option ℕ)
  log : List ClientEvent

inductive ClientOp where
  | load (client : ℕ) (clock : Clock) (id : String) (ttlSecs : ℕ)
  | save (client : ℕ) (clock : Clock) (iteration : Iteration) (id : String)
      (messages : List Message) (active : ActiveState) (archiveRows : List ArchiveRow)
      (retention : ConversationRetention)
  | setActiveState (id : String) (active : ActiveState)
  | prune (clock : Clock) (iteration : Iteration) (retention : ConversationRetention)

namespace Cluster

def start (backing : ConversationBacking J) : Cluster J := ⟨backing, fun _ _ => none, []⟩

/-- A client saves on the revision it loaded; without a load it has nothing to save. -/
def step (s : Cluster J) : ClientOp → Cluster J
  | .load client clock id ttlSecs =>
    let (seed, backing) := s.backing.loadSeed wire clock id ttlSecs
    let loaded := seed.bind fun seed => seed.expectedRevision
    { backing
      seen := fun c k => if c = client ∧ k = id then some loaded else s.seen c k
      log := s.log ++ droppedEvents s.backing backing ++ [.loaded client id loaded] }
  | .save client clock iteration id messages active archiveRows r =>
    match s.seen client id with
    | none => s
    | some base =>
      match s.backing.cas wire clock id messages active base archiveRows r with
      | (.saved, written) =>
        let backing := written.prune clock iteration r
        { s with
          backing
          log := s.log ++ [.saved client id base active.change] ++ droppedEvents written backing }
      | (.conflict, backing) => { s with backing }
  | .setActiveState id active =>
    match s.backing.setActiveState id active with
    | (true, backing) => { s with backing, log := s.log ++ [.settings id active.change] }
    | (false, backing) => { s with backing }
  | .prune clock iteration r =>
    let backing := s.backing.prune clock iteration r
    { s with backing, log := s.log ++ droppedEvents s.backing backing }

/-- The store and the clients' memory are what the log says. -/
structure Tracks (backing : ConversationBacking J) (seen : ℕ → String → Option (Option ℕ))
    (log : List ClientEvent) : Prop where
  legal : Run.AllOk Cas.apply Cas.Legal Cas.init log
  revision : (Run.run Cas.apply Cas.init log).revision = backing.revision
  setting : (Run.run Cas.apply Cas.init log).setting = backing.setting
  seen : (Run.run Cas.apply Cas.init log).seen = seen

variable {wire} {backing backing' : ConversationBacking J}
  {seen : ℕ → String → Option (Option ℕ)} {log : List ClientEvent}

/-- The clients call `saveIfRevision`; the step reads its two halves apart to log them. -/
theorem step_save_backing (s : Cluster J) {client : ℕ} {clock : Clock} {iteration : Iteration}
    {id : String} {messages : List Message} {active : ActiveState} {archiveRows : List ArchiveRow}
    {r : ConversationRetention} {base : Option ℕ} (hseen : s.seen client id = some base) :
    (s.step wire (.save client clock iteration id messages active archiveRows r)).backing =
      (s.backing.saveIfRevision wire clock iteration id messages active base archiveRows r).2 := by
  simp only [step, hseen, ConversationBacking.saveIfRevision]
  cases s.backing.cas wire clock id messages active base archiveRows r with
  | mk outcome written => cases outcome <;> rfl

theorem Tracks.start (h : ∀ id, backing.view id = none) :
    Tracks backing (fun _ _ => none) [] where
  legal := trivial
  revision := funext fun id => by simp [ConversationBacking.revision, h, Cas.init]
  setting := funext fun id => funext fun field => by
    simp [ConversationBacking.setting, h, Cas.init]
  seen := rfl

theorem Tracks.dropped (h : Tracks backing seen log) (hd : backing.Drops backing') :
    Tracks backing' seen (log ++ droppedEvents backing backing') := by
  have hgone : ∀ id, backing'.view id =
      if id ∈ backing.ids.filter fun id => (backing'.view id).isNone then none
      else backing.view id := by
    intro id
    split
    · next hmem => simpa using (List.mem_filter.mp hmem).2
    · next hmem =>
      rcases hd id with heq | hnone
      · exact heq
      · by_cases hview : backing.view id = none
        · rw [hview, hnone]
        · refine absurd (List.mem_filter.mpr ⟨ConversationBacking.mem_ids hview, ?_⟩) hmem
          simp [hnone]
  refine ⟨?_, funext fun id => ?_, funext fun id => funext fun field => ?_, ?_⟩
  · rw [Run.allOk_append]
    exact ⟨h.legal, Cas.allOk_dropped _ _⟩
  · rw [Run.run_append, droppedEvents, Cas.run_dropped]
    simp only [h.revision, ConversationBacking.revision]
    rw [hgone id]
    split <;> rfl
  · rw [Run.run_append, droppedEvents, Cas.run_dropped]
    simp only [h.setting, ConversationBacking.setting]
    rw [hgone id]
    split <;> rfl
  · rw [Run.run_append, droppedEvents, Cas.run_dropped]
    exact h.seen

theorem Tracks.loaded (h : Tracks backing seen log) (client : ℕ) (id : String) :
    Tracks backing
      (fun c k => if c = client ∧ k = id then some (backing.revision id) else seen c k)
      (log ++ [.loaded client id (backing.revision id)]) := by
  refine ⟨?_, ?_, ?_, ?_⟩
  · rw [Run.allOk_append]
    exact ⟨h.legal, congrFun h.revision id, trivial⟩
  · rw [Run.run_append]
    exact h.revision
  · rw [Run.run_append]
    exact h.setting
  · rw [Run.run_append]
    simp only [Run.run_cons, Run.run_nil, Cas.apply, h.seen]

theorem Tracks.saved (h : Tracks backing seen log) {client : ℕ} {id : String} {base : Option ℕ}
    {change : SettingField → Option String} (hseen : seen client id = some base)
    (hw : backing.Written backing' id base change) :
    Tracks backing' seen (log ++ [.saved client id base change]) := by
  refine ⟨?_, funext fun other => ?_, funext fun other => ?_, ?_⟩
  · rw [Run.allOk_append]
    refine ⟨h.legal, ⟨?_, ?_⟩, trivial⟩
    · rw [h.seen, hseen]
    · rw [h.revision, hw.base_eq]
  · rw [Run.run_append]
    simp only [Run.run_cons, Run.run_nil, Cas.apply, h.revision]
    by_cases ho : other = id
    · rw [ho, update_self, ConversationBacking.revision, hw.view_eq]
      rfl
    · rw [update_of_ne ho, ConversationBacking.revision, ConversationBacking.revision,
        hw.other other ho]
  · rw [Run.run_append]
    simp only [Run.run_cons, Run.run_nil, Cas.apply, h.setting]
    by_cases ho : other = id
    · rw [ho, update_self]
      funext field
      rw [ConversationBacking.setting, hw.view_eq]
      rfl
    · rw [update_of_ne ho]
      funext field
      rw [ConversationBacking.setting, ConversationBacking.setting, hw.other other ho]
  · rw [Run.run_append]
    exact h.seen

theorem Tracks.settings (wire : Wire J) (h : Tracks backing seen log) {id : String}
    {active : ActiveState} (hfound : (backing.setActiveState id active).1 = true) :
    Tracks (backing.setActiveState id active).2 seen
      (log ++ [.settings id active.change]) := by
  obtain ⟨hsome, hview, -⟩ := ConversationBacking.setActiveState_spec wire backing id active
  rw [hfound] at hsome
  refine ⟨?_, funext fun other => ?_, funext fun other => funext fun field => ?_, ?_⟩
  · rw [Run.allOk_append]
    refine ⟨h.legal, ?_, trivial⟩
    show (Run.run Cas.apply Cas.init log).revision id ≠ none
    rw [h.revision, ConversationBacking.revision]
    intro hnone
    rw [Option.map_eq_none_iff] at hnone
    rw [hnone] at hsome
    cases hsome
  · rw [Run.run_append]
    simp only [Run.run_cons, Run.run_nil, Cas.apply, h.revision, ConversationBacking.revision]
    rw [hview other, Option.map_map]
    rfl
  · rw [Run.run_append]
    simp only [Run.run_cons, Run.run_nil, Cas.apply, h.setting]
    by_cases ho : other = id
    · rw [ho, update_self, ConversationBacking.setting, hview id]
      obtain ⟨v, hv⟩ := Option.isSome_iff_exists.mp hsome.symm
      simp [hv, Cas.merge, ConversationBacking.setting]
    · rw [update_of_ne ho, ConversationBacking.setting, ConversationBacking.setting,
        hview other, Option.bind_map]
      simp [ho]
  · rw [Run.run_append]
    exact h.seen

theorem Tracks.of_view (h : Tracks backing seen log)
    (hview : ∀ id, backing'.view id = backing.view id) : Tracks backing' seen log where
  legal := h.legal
  revision := h.revision.trans (funext fun id => by
    rw [ConversationBacking.revision, ConversationBacking.revision, hview])
  setting := h.setting.trans (funext fun id => funext fun field => by
    rw [ConversationBacking.setting, ConversationBacking.setting, hview])
  seen := h.seen

theorem step_tracks {s : Cluster J} (op : ClientOp) (h : Tracks s.backing s.seen s.log) :
    Tracks (s.step wire op).backing (s.step wire op).seen (s.step wire op).log := by
  cases op with
  | load client clock id ttlSecs =>
    obtain ⟨hdrops, hrev⟩ := s.backing.loadSeed_spec wire clock id ttlSecs
    simp only [step, ← hrev]
    exact (h.dropped hdrops).loaded client id
  | save client clock iteration id messages active archiveRows r =>
    cases hseen : s.seen client id with
    | none =>
      simp only [step, hseen]
      exact h
    | some base =>
      cases hcas : s.backing.cas wire clock id messages active base archiveRows r with
      | mk outcome written =>
        simp only [step, hseen, hcas]
        obtain ⟨rfl, rfl⟩ | ⟨rfl, hw⟩ := ConversationBacking.cas_cases hcas
        · exact h
        · exact (h.saved hseen hw).dropped (written.prune_drops clock iteration r)
  | setActiveState id active =>
    cases hset : s.backing.setActiveState id active with
    | mk found backing =>
      have hb : backing = (s.backing.setActiveState id active).2 := by rw [hset]
      cases found with
      | true =>
        simp only [step, hset]
        rw [hb]
        exact h.settings wire (by rw [hset])
      | false =>
        simp only [step, hset]
        rw [hb]
        obtain ⟨hsome, hview, -⟩ := s.backing.setActiveState_spec wire id active
        have hnone : s.backing.view id = none := by
          rw [hset] at hsome
          simpa using hsome
        refine h.of_view fun other => ?_
        rw [hview other]
        by_cases ho : other = id
        · rw [ho, hnone]
          rfl
        · simp [ho]
  | prune clock iteration r =>
    exact h.dropped (s.backing.prune_drops clock iteration r)

end Cluster

inductive Backend where
  | memory
  | sqlite
  deriving DecidableEq

def Backend.empty : Backend → ConversationBacking J
  | .memory => .memoryDefault
  | .sqlite => .sqlite .empty

theorem Backend.view_empty (backend : Backend) (id : String) :
    (backend.empty : ConversationBacking J).view id = none := by
  cases backend <;> rfl

theorem run_tracks (backend : Backend) (ops : List ClientOp) :
    let s := Run.run (Cluster.step wire) (.start backend.empty) ops
    Cluster.Tracks s.backing s.seen s.log := by
  have hstep : ∀ (s : Cluster J) op, Cluster.Tracks s.backing s.seen s.log →
      Cluster.Tracks (s.step wire op).backing (s.step wire op).seen (s.step wire op).log :=
    fun _ op h => Cluster.step_tracks op h
  have hstart : Cluster.Tracks (Cluster.start backend.empty : Cluster J).backing
      (Cluster.start backend.empty : Cluster J).seen
      (Cluster.start backend.empty : Cluster J).log := Cluster.Tracks.start backend.view_empty
  exact Run.invariant' hstep hstart ops

/-- In every run over either backend, an accepted save is based on the revision the save before
it wrote, the settings are the last ones written, a conflict changes nothing, and writing
settings touches neither revisions nor messages. Dropping a row starts its history afresh. -/
theorem saves_are_linear (backend : Backend) (ops : List ClientOp) :
    let s := Run.run (Cluster.step wire) (.start backend.empty) ops
    (∀ before client id base change after,
      s.log = before ++ .saved client id base change :: after →
        base = Cas.lastWritten id before.reverse ∧
          (.dropped id ∈ Cas.sinceLoad client id before.reverse ∨
            ∀ e ∈ Cas.sinceLoad client id before.reverse, Cas.isSave id e = false)) ∧
    (∀ id field, s.backing.setting id field = Cas.lastSetting id field s.log.reverse) ∧
    (∀ clock iteration id messages active expectedRevision archiveRows r,
      (s.backing.saveIfRevision wire clock iteration id messages active expectedRevision
        archiveRows r).1 = .conflict →
      (s.backing.saveIfRevision wire clock iteration id messages active expectedRevision
        archiveRows r).2 = s.backing) ∧
    ∀ id active other,
      (s.backing.setActiveState id active).2.revision other = s.backing.revision other ∧
      (s.backing.setActiveState id active).2.messagesOf wire other =
        s.backing.messagesOf wire other := by
  intro s
  have htracks : Cluster.Tracks s.backing s.seen s.log := run_tracks wire backend ops
  refine ⟨?_, ?_, ?_, ?_⟩
  · intro before client id base change after hlog
    have hlegal := htracks.legal
    rw [hlog] at hlegal
    exact Cas.saved_based hlegal
  · intro id field
    rw [← htracks.setting, Cas.setting_run]
  · intro clock iteration id messages active expectedRevision archiveRows r
    simp only [ConversationBacking.saveIfRevision]
    cases hcas : s.backing.cas wire clock id messages active expectedRevision archiveRows r with
    | mk outcome written =>
      obtain ⟨rfl, rfl⟩ | ⟨rfl, -⟩ := ConversationBacking.cas_cases hcas
      · exact fun _ => rfl
      · intro h
        cases h
  · intro id active other
    obtain ⟨-, hview, hmessages⟩ := s.backing.setActiveState_spec wire id active
    refine ⟨?_, hmessages other⟩
    rw [ConversationBacking.revision, ConversationBacking.revision, hview other, Option.map_map]
    rfl

/-- The revision the last save of `id` wrote, whatever became of the row since. -/
def lastSavedRevision (id : String) : List ClientEvent → Option ℕ
  | [] => none
  | .saved _ k base _ :: es => if k = id then some (Cas.next base) else lastSavedRevision id es
  | _ :: es => lastSavedRevision id es

/-- The second client loads after the row has expired and writes a new first revision. -/
theorem expired_row_restarts_revisions :
    ¬∀ (backend : Backend) (ops : List ClientOp) before client id base change after,
      (Run.run (Cluster.step plainWire) (.start backend.empty) ops).log =
          before ++ .saved client id base change :: after →
        base = lastSavedRevision id before.reverse := by
  intro h
  let clock (t : ℤ) : Clock := ⟨t, t, t, t⟩
  let iteration : Iteration := ⟨id, fun _ => .refl _⟩
  let retention : ConversationRetention := ⟨10, 0, 0, 0⟩
  have hbase := h .memory
    [.load 0 (clock 0) "c" 10, .save 0 (clock 0) iteration "c" [] .none [] retention,
      .load 1 (clock (fromSecs 11)) "c" 10,
      .save 1 (clock (fromSecs 11)) iteration "c" [] .none [] retention]
    [.loaded 0 "c" none, .saved 0 "c" none ActiveState.none.change, .dropped "c",
      .loaded 1 "c" none] 1 "c" none ActiveState.none.change [] rfl
  exact absurd hbase (by decide)

end CrabMate
