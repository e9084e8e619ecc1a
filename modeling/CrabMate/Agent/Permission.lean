import CrabMate.Agent.ParallelBatch
import CrabMate.Http.Gate
import CrabMate.Lib.Except

/-! Permissions: the highest level a server allows, fixed when it starts and kept through its
reloads, the level of one turn, and what a level allows. -/
namespace CrabMate.Permission
open RustStr Option Except

section Config

inductive CeilingSource where
  | config
  | derivedLoopback
  | derivedNonLoopback
  deriving DecidableEq

inductive SessionMode where
  | ask
  | plan
  | act
  deriving DecidableEq

def SessionMode.requiresReadonlyTools (mode : SessionMode) : Bool := mode = .ask || mode = .plan

inductive FinalPlanRequirementMode where
  | never
  | workflowReflection
  | always
  deriving DecidableEq

def allLevels : List PermissionLevel := [.chat, .read, .workspace, .approved, .unrestricted]

def minLevel (a b : PermissionLevel) : PermissionLevel := if b.index < a.index then b else a

def levelsText : Str := "须为 chat / read / workspace / approved / unrestricted".toList

def parsePermissionLevel (raw : Str) : Except Str PermissionLevel :=
  let s := toAsciiLowercase (trim raw)
  if s = [] then .error ("permission_level 不能为空（".toList ++ levelsText ++ "）".toList)
  else
    match allLevels.find? fun level => level.asStr.toList = s with
    | some level => .ok level
    | none => .error ("未知 permission_level \"".toList ++ s ++ "\"（".toList ++ levelsText ++
        "）".toList)

def parseOptionalPermissionLevel (raw : Option Str) : Except Str (Option PermissionLevel) :=
  match (raw.map trim).filter fun s => !s.isEmpty with
  | none => .ok none
  | some s => (parsePermissionLevel s).map some

structure PermissionConfig where
  permissionLevel : PermissionLevel
  permissionLevelMax : Option PermissionLevel
  permissionLevelMaxEffective : PermissionLevel
  permissionLevelMaxSource : CeilingSource
  permissionReadTools : Option (List Str)
  allowUnrestrictedPermissionForNonLoopback : Bool

/-- The keys of the configuration file and of the environment, before they are checked. -/
structure PermissionKeys where
  permissionLevelStr : Option Str
  permissionLevelMaxStr : Option Str
  permissionReadTools : Option (List Str)
  allowUnrestrictedPermissionForNonLoopback : Option Bool

/-- What the permissions need of the configuration. -/
structure AgentConfig where
  permission : PermissionConfig
  allowedCommands : List Str
  httpFetchAllowedPrefixes : List String
  finalPlanRequirement : FinalPlanRequirementMode

structure ConfigFile where
  keys : PermissionKeys
  allowedCommands : List Str
  httpFetchAllowedPrefixes : List String
  finalPlanRequirement : FinalPlanRequirementMode

namespace AgentConfig

/-- `effective_ceiling`. -/
def ceiling (cfg : AgentConfig) : PermissionLevel := cfg.permission.permissionLevelMaxEffective

end AgentConfig

def reconcileDefaultLevelWithCeiling (level ceiling : PermissionLevel) : PermissionLevel :=
  if ceiling.index < level.index then ceiling else level

def resolvePermissionCeiling (explicit : Option PermissionLevel) (loopback : Option Bool)
    (allowUnrestrictedForNonLoopback : Bool) : Except Str (PermissionLevel × CeilingSource) :=
  match explicit with
  | some level =>
    if level = .unrestricted ∧ loopback = some false ∧ !allowUnrestrictedForNonLoopback then
      .error ("配置错误：permission_level_max = \"unrestricted\" 但监听地址为非 loopback。".toList ++
        "请显式设置 allow_unrestricted_permission_for_non_loopback = true".toList ++
        "（CM_ALLOW_UNRESTRICTED_PERMISSION_FOR_NON_LOOPBACK=1）后重启，".toList ++
        "或把上限降回 approved（设计 §9 MB-3）".toList)
    else .ok (level, .config)
  | none =>
    if loopback = some true then .ok (.unrestricted, .derivedLoopback)
    else .ok (.approved, .derivedNonLoopback)

def clampPermissionCeilingOnReload (startup : PermissionLevel × CeilingSource)
    (incomingExplicit : Option PermissionLevel) : PermissionLevel × CeilingSource :=
  match incomingExplicit with
  | none => startup
  | some level => if level.index ≤ startup.1.index then (level, .config) else startup

def trimDropEmpty (list : List Str) : List Str := (list.map trim).filter fun s => !s.isEmpty

def validatePermissionConfig (perm : PermissionConfig) : Except Str Unit :=
  if perm.permissionReadTools = some [] then
    .error ("配置错误：permission_read_tools 不能是空数组（L1 会因此没有任何只读工具）。".toList ++
      "要「不给任何只读工具」请用 permission_level = \"chat\"，并省略本键以走推导".toList)
  else .ok ()

def keyError {α : Type} (key : Str) : Except Str α → Except Str α
  | .ok a => .ok a
  | .error e => .error ("配置错误：".toList ++ key ++ "：".toList ++ e)

def derivePermissionConfig (keys : PermissionKeys) : Except Str PermissionConfig := do
  let level ← keyError "permission_level".toList
    (parseOptionalPermissionLevel keys.permissionLevelStr)
  let explicitMax ← keyError "permission_level_max".toList
    (parseOptionalPermissionLevel keys.permissionLevelMaxStr)
  let cfg : PermissionConfig :=
    { permissionLevel := level.getD .approved
      permissionLevelMax := explicitMax
      permissionLevelMaxEffective := explicitMax.getD .approved
      permissionLevelMaxSource := if explicitMax.isSome then .config else .derivedNonLoopback
      permissionReadTools := keys.permissionReadTools.map trimDropEmpty
      allowUnrestrictedPermissionForNonLoopback :=
        keys.allowUnrestrictedPermissionForNonLoopback.getD false }
  validatePermissionConfig cfg
  .ok (if explicitMax.isSome then
    { cfg with
      permissionLevel :=
        reconcileDefaultLevelWithCeiling cfg.permissionLevel cfg.permissionLevelMaxEffective }
    else cfg)

def applyCeilingForBind (perm : PermissionConfig) (loopback : Bool) : Except Str PermissionConfig :=
  match resolvePermissionCeiling perm.permissionLevelMax (some loopback)
      perm.allowUnrestrictedPermissionForNonLoopback with
  | .error e => .error e
  | .ok resolved => .ok
    { perm with
      permissionLevelMaxEffective := resolved.1
      permissionLevelMaxSource := resolved.2
      permissionLevel := reconcileDefaultLevelWithCeiling perm.permissionLevel resolved.1 }

def loadConfig (file : ConfigFile) : Except Str AgentConfig := do
  let permission ← derivePermissionConfig file.keys
  .ok ⟨permission, file.allowedCommands, file.httpFetchAllowedPrefixes, file.finalPlanRequirement⟩

/-- `serve`: the configuration is loaded, and the ceiling frozen for the address. -/
def serveStart (file : ConfigFile) (loopback : Bool) : Except Str AgentConfig := do
  let cfg ← loadConfig file
  let permission ← applyCeilingForBind cfg.permission loopback
  .ok { cfg with permission }

def applyHotReloadConfigSubset (dst src : AgentConfig) : AgentConfig :=
  let ceiling := clampPermissionCeilingOnReload
    (dst.permission.permissionLevelMaxEffective, dst.permission.permissionLevelMaxSource)
    src.permission.permissionLevelMax
  { permission :=
      { src.permission with
        permissionLevelMaxEffective := ceiling.1
        permissionLevelMaxSource := ceiling.2
        permissionLevel :=
          reconcileDefaultLevelWithCeiling src.permission.permissionLevel ceiling.1 }
    allowedCommands := if allowlistAllowsAll dst.allowedCommands then [['*']]
      else src.allowedCommands
    httpFetchAllowedPrefixes := src.httpFetchAllowedPrefixes
    finalPlanRequirement := src.finalPlanRequirement }

/-- A file that does not load leaves the configuration as it is. -/
def reloadSharedAgentConfig (cfg : AgentConfig) (file : ConfigFile) : AgentConfig :=
  match loadConfig file with
  | .error _ => cfg
  | .ok fresh => applyHotReloadConfigSubset cfg fresh

end Config

section Turn

inductive PermissionClamp where
  | ceiling
  | role
  | sessionMode
  deriving DecidableEq

structure TurnPermissionStages where
  roleMax : Option PermissionLevel
  sessionMode : SessionMode
  requested : Option PermissionLevel
  persisted : Option PermissionLevel

structure ResolvedPermission where
  effective : PermissionLevel
  /-- The level before the mode of the session lowers it, which is the one that is projected. -/
  projectionLevel : PermissionLevel
  requested : Option PermissionLevel
  clampedBy : List PermissionClamp

/-- One limit, and its name where it lowers the level. -/
def lowerTo (limit : PermissionLevel) (clamp : PermissionClamp)
    (p : PermissionLevel × List PermissionClamp) : PermissionLevel × List PermissionClamp :=
  if limit.index < p.1.index then (limit, p.2 ++ [clamp]) else p

def resolvePermissionLevelForTurn (cfg : AgentConfig) (stages : TurnPermissionStages) :
    ResolvedPermission :=
  let roleLimit := stages.roleMax.getD .unrestricted
  let fallback := minLevel (minLevel cfg.permission.permissionLevel cfg.ceiling) roleLimit
  let chosen := (stages.requested.or stages.persisted).getD fallback
  let limited := lowerTo roleLimit .role (lowerTo cfg.ceiling .ceiling (chosen, []))
  let last := if stages.sessionMode.requiresReadonlyTools then lowerTo .read .sessionMode limited
    else limited
  ⟨last.1, limited.1, stages.requested, last.2⟩

def selectableMaxLevel (cfg : AgentConfig) (roleMax : Option PermissionLevel)
    (sessionMode : SessionMode) : PermissionLevel :=
  let modeLimit := if sessionMode.requiresReadonlyTools then .read else .unrestricted
  minLevel (minLevel cfg.ceiling (roleMax.getD .unrestricted)) modeLimit

def selectableLevels (cfg : AgentConfig) (roleMax : Option PermissionLevel)
    (sessionMode : SessionMode) : List PermissionLevel :=
  let cap := selectableMaxLevel cfg roleMax sessionMode
  allLevels.filter fun level => level.index ≤ cap.index

end Turn

section Caps

inductive ToolVisibility where
  | none
  | readonly
  | full
  deriving DecidableEq

inductive ReadonlyAllow where
  | explicit (set : List Str)
  | derived

inductive ExternalTools where
  | denied
  | allowed
  deriving DecidableEq

inductive PathScope where
  | sessionRoot
  | any
  deriving DecidableEq

inductive CommandScope where
  | none
  | allowlist (list : List Str)
  | any

structure PermissionCaps where
  level : PermissionLevel
  toolVisibility : ToolVisibility
  readonlyAllow : Option ReadonlyAllow
  externalTools : ExternalTools
  pathScope : PathScope
  commandScope : CommandScope
  netScope : NetScope
  approval : ApprovalPolicy

def ReadonlyAllow.fromCfg (cfg : AgentConfig) : ReadonlyAllow :=
  match cfg.permission.permissionReadTools with
  | some list => .explicit (trimDropEmpty list)
  | none => .derived

/-- The list of tools with effects is always the built-in one here. -/
def ReadonlyAllow.allows (allow : ReadonlyAllow) (name : Str) : Bool :=
  match allow with
  | .explicit set => set.contains name
  | .derived => isReadonlyTool none name

def fullCaps (level : PermissionLevel) (cfg : AgentConfig) : PermissionCaps :=
  ⟨level, .full, none, .allowed, .sessionRoot, .allowlist cfg.allowedCommands,
    .prefixes cfg.httpFetchAllowedPrefixes, .gate⟩

def projectCaps (level : PermissionLevel) (cfg : AgentConfig) : PermissionCaps :=
  match level with
  | .chat => ⟨level, .none, none, .denied, .sessionRoot, .none, .none, .deny⟩
  | .read => ⟨level, .readonly, some (.fromCfg cfg), .denied, .sessionRoot, .none,
      .prefixes cfg.httpFetchAllowedPrefixes, .deny⟩
  | .workspace => { fullCaps level cfg with externalTools := .denied, approval := .deny }
  | .approved => fullCaps level cfg
  | .unrestricted => ⟨level, .full, none, .allowed, .any, .any, .any, .auditOnly⟩

def commandTools : List Str :=
  [runCommandName, "terminal_session".toList, "python_snippet_run".toList]

def isCommandTool (name : Str) : Bool := commandTools.contains name

inductive PermissionAxis where
  | external
  | command
  | tool
  deriving DecidableEq

/-- `plan_turn_permission`: the configuration the turn works with, and what it is allowed. -/
def planTurnPermission (cfg : AgentConfig) (stages : TurnPermissionStages) :
    AgentConfig × PermissionCaps :=
  let caps := projectCaps (resolvePermissionLevelForTurn cfg stages).projectionLevel cfg
  (if caps.toolVisibility = .none then { cfg with finalPlanRequirement := .never } else cfg, caps)

namespace PermissionCaps

variable (caps : PermissionCaps)

/-- The part of it that the outbound gate reads. -/
def netCaps : NetCaps := ⟨caps.level, caps.netScope, caps.approval⟩

def commandAllowlist : Option (List Str) :=
  match caps.commandScope with
  | .none => none
  | .allowlist list => some list
  | .any => some [['*']]

def commandsDenied : Bool :=
  match caps.commandScope with
  | .none => true
  | .allowlist _ | .any => false

def externalToolsAllowedByCaps (name : Str) : Bool :=
  caps.externalTools = .allowed || toolOrigin name = .builtin

def toolAllowedByCaps (name : Str) : Bool :=
  if !caps.externalToolsAllowedByCaps name then false
  else if caps.commandsDenied && isCommandTool name then false
  else
    match caps.toolVisibility with
    | .none => false
    | .full => true
    | .readonly => toolOrigin name = .builtin && caps.readonlyAllow.any fun a => a.allows name

def deniedAxis (name : Str) : Option PermissionAxis :=
  if !caps.externalToolsAllowedByCaps name then some .external
  else if caps.commandsDenied && isCommandTool name then some .command
  else if caps.toolAllowedByCaps name then none
  else some .tool

def permissionDeniedMessage (name : Str) : Str :=
  "工具 `".toList ++ name ++ "` 在当前权限等级（".toList ++ caps.level.asStr.toList ++
    "）下不可用：".toList ++ caps.level.promiseZh.toList ++
    "。请改用只读方式完成，或请用户调整 permission_level。".toList

/-- The first test of `tool_policy_early_deny_message`. -/
def permissionDenial (name : Str) : Option Str :=
  (caps.deniedAxis name).map fun _ => caps.permissionDeniedMessage name

/-- A command that runs without anybody being asked. -/
def RunsUnasked (cmd : Str) : Prop :=
  ∃ list, caps.commandAllowlist = some list ∧
    (allowlistAllowsAll list = true ∨ ∃ c ∈ list, eqIgnoreAsciiCase c cmd = true)

/-- An address of the web that the outbound gate lets pass, with no approval of a session. -/
def Reaches (api : UrlApi) (url : Url) : Prop :=
  httpNetGate api (some caps.netCaps) url
    (urlMatchesAllowedPrefixes api url caps.netCaps.outboundPrefixes) = .allow

end PermissionCaps

/-- Nothing that `low` allows is refused by `high`. -/
structure Within (low high : PermissionCaps) : Prop where
  tools : ∀ name, low.toolAllowedByCaps name = true → high.toolAllowedByCaps name = true
  commands : ∀ cmd, low.RunsUnasked cmd → high.RunsUnasked cmd
  reaches : ∀ api url, low.Reaches api url → high.Reaches api url
  paths : low.pathScope = .any → high.pathScope = .any
  asks : low.approval = .gate → high.approval ≠ .deny

end Caps

section Levels

variable (level ceiling : PermissionLevel) (cfg : AgentConfig)

theorem index_injective {a b : PermissionLevel} (h : a.index = b.index) : a = b := by
  cases a <;> cases b <;> first | rfl | cases h

theorem index_minLevel (a b : PermissionLevel) :
    (minLevel a b).index = min a.index b.index := by
  unfold minLevel
  split <;> omega

theorem index_reconcile :
    (reconcileDefaultLevelWithCeiling level ceiling).index = min level.index ceiling.index := by
  unfold reconcileDefaultLevelWithCeiling
  split <;> omega

theorem index_le_unrestricted : level.index ≤ PermissionLevel.unrestricted.index := by
  cases level <;> decide

theorem level_projectCaps : (projectCaps level cfg).level = level := by
  cases level <;> rfl

/-- The tools of a level. -/
theorem toolAllowed_projectCaps (name : Str) :
    (projectCaps level cfg).toolAllowedByCaps name =
      match level with
      | .chat => false
      | .read => (toolOrigin name = .builtin) && !isCommandTool name &&
          (ReadonlyAllow.fromCfg cfg).allows name
      | .workspace => decide (toolOrigin name = .builtin)
      | .approved | .unrestricted => true := by
  cases level <;>
    simp [projectCaps, fullCaps, PermissionCaps.toolAllowedByCaps,
      PermissionCaps.externalToolsAllowedByCaps, PermissionCaps.commandsDenied]
  cases isCommandTool name <;> cases toolOrigin name <;> simp

theorem runsUnasked_projectCaps (cmd : Str) :
    (projectCaps level cfg).RunsUnasked cmd ↔ PermissionLevel.workspace.index ≤ level.index ∧
      (level = .unrestricted ∨ allowlistAllowsAll cfg.allowedCommands = true ∨
        ∃ c ∈ cfg.allowedCommands, eqIgnoreAsciiCase c cmd = true) := by
  have hall : allowlistAllowsAll [['*']] = true := by decide
  cases level <;>
    simp [projectCaps, fullCaps, PermissionCaps.RunsUnasked, PermissionCaps.commandAllowlist,
      PermissionLevel.index, hall]

theorem reaches_projectCaps (api : UrlApi) (url : Url) :
    (projectCaps level cfg).Reaches api url ↔ PermissionLevel.read.index ≤ level.index ∧
      (level = .unrestricted ∨
        urlMatchesAllowedPrefixes api url cfg.httpFetchAllowedPrefixes = true) := by
  cases level <;>
    simp [projectCaps, fullCaps, PermissionCaps.Reaches, PermissionCaps.netCaps, httpNetGate,
      NetCaps.outboundDenied, NetCaps.outboundAllowsAny, NetCaps.outboundPrefixes,
      PermissionLevel.index]

theorem projectCaps_within {low high : PermissionLevel} (h : low.index ≤ high.index) :
    Within (projectCaps low cfg) (projectCaps high cfg) where
  tools name hname := by
    rw [toolAllowed_projectCaps] at hname ⊢
    cases low <;> cases high <;> simp_all [PermissionLevel.index]
  commands cmd hcmd := by
    rw [runsUnasked_projectCaps] at hcmd ⊢
    refine ⟨hcmd.1.trans h, ?_⟩
    rcases hcmd.2 with rfl | hlist
    · exact .inl (index_injective (le_antisymm (index_le_unrestricted high) h))
    · exact .inr hlist
  reaches api url hurl := by
    rw [reaches_projectCaps] at hurl ⊢
    refine ⟨hurl.1.trans h, ?_⟩
    rcases hurl.2 with rfl | hmatch
    · exact .inl (index_injective (le_antisymm (index_le_unrestricted high) h))
    · exact .inr hmatch
  paths hpath := by
    cases low <;> cases high <;> simp_all [projectCaps, fullCaps, PermissionLevel.index]
  asks hask := by
    cases low <;> cases high <;> simp_all [projectCaps, fullCaps, PermissionLevel.index]

end Levels

section Resolution

variable (cfg : AgentConfig) (stages : TurnPermissionStages)

theorem lowerTo_index (limit : PermissionLevel) (clamp : PermissionClamp)
    (p : PermissionLevel × List PermissionClamp) :
    (lowerTo limit clamp p).1.index = min p.1.index limit.index := by
  unfold lowerTo
  split
  · next h => exact (min_eq_right h.le).symm
  · next h => exact (min_eq_left (not_lt.mp h)).symm

theorem lowerTo_clamps (limit : PermissionLevel) (clamp : PermissionClamp)
    (p : PermissionLevel × List PermissionClamp) :
    (lowerTo limit clamp p).2 = p.2 ++ if limit.index < p.1.index then [clamp] else [] := by
  unfold lowerTo
  split <;> simp

/-- What the turn asks for: the request first, then what the conversation keeps. -/
def TurnPermissionStages.asked : Option PermissionLevel := stages.requested.or stages.persisted

/-- The limit of the server and the one of the role. -/
def turnLimit (roleMax : Option PermissionLevel) : ℕ :=
  min cfg.ceiling.index (roleMax.getD .unrestricted).index

theorem projectionLevel_index :
    (resolvePermissionLevelForTurn cfg stages).projectionLevel.index =
      min (stages.asked.getD cfg.permission.permissionLevel).index
        (turnLimit cfg stages.roleMax) := by
  dsimp only [resolvePermissionLevelForTurn, turnLimit, TurnPermissionStages.asked]
  rw [lowerTo_index, lowerTo_index]
  cases stages.requested.or stages.persisted with
  | some level =>
    dsimp only [getD_some]
    omega
  | none =>
    dsimp only [getD_none]
    rw [index_minLevel, index_minLevel]
    omega

theorem index_selectableMaxLevel (roleMax : Option PermissionLevel) (sessionMode : SessionMode) :
    (selectableMaxLevel cfg roleMax sessionMode).index =
      if sessionMode.requiresReadonlyTools then
        min (turnLimit cfg roleMax) PermissionLevel.read.index
      else turnLimit cfg roleMax := by
  have htop := index_le_unrestricted cfg.ceiling
  unfold selectableMaxLevel turnLimit
  dsimp only
  rw [index_minLevel, index_minLevel]
  split
  · rfl
  · omega

theorem effective_index :
    (resolvePermissionLevelForTurn cfg stages).effective.index =
      min (stages.asked.getD cfg.permission.permissionLevel).index
        (selectableMaxLevel cfg stages.roleMax stages.sessionMode).index := by
  have hproj := projectionLevel_index cfg stages
  rw [index_selectableMaxLevel]
  dsimp only [resolvePermissionLevelForTurn] at hproj ⊢
  split
  · rw [lowerTo_index, hproj]
    omega
  · exact hproj

theorem mem_selectableLevels {level : PermissionLevel} {roleMax : Option PermissionLevel}
    {sessionMode : SessionMode} :
    level ∈ selectableLevels cfg roleMax sessionMode ↔
      level.index ≤ (selectableMaxLevel cfg roleMax sessionMode).index := by
  have hall : level ∈ allLevels := by cases level <;> decide
  unfold selectableLevels
  dsimp only
  rw [List.mem_filter, decide_eq_true_eq]
  exact and_iff_right hall

/-- The clamps of a turn, in their order: each limit that lies below what the earlier ones left. -/
theorem clampedBy_eq :
    (resolvePermissionLevelForTurn cfg stages).clampedBy =
      (if stages.asked.any fun level => cfg.ceiling.index < level.index then [.ceiling] else []) ++
      (if stages.asked.any fun level => (stages.roleMax.getD .unrestricted).index <
        min level.index cfg.ceiling.index then [.role] else []) ++
      (if stages.sessionMode.requiresReadonlyTools ∧ PermissionLevel.read.index <
        (resolvePermissionLevelForTurn cfg stages).projectionLevel.index then [.sessionMode]
        else []) := by
  have hmode : ∀ (b : Bool) (p : PermissionLevel × List PermissionClamp),
      (if b then lowerTo .read .sessionMode p else p).2 =
        p.2 ++ if b ∧ PermissionLevel.read.index < p.1.index then [.sessionMode] else [] := by
    intro b p
    cases b
    · simp
    · simp [lowerTo_clamps]
  dsimp only [resolvePermissionLevelForTurn]
  rw [hmode, lowerTo_clamps, lowerTo_index, lowerTo_clamps, List.nil_append]
  cases hasked : stages.asked with
  | some level =>
    have hor : stages.requested.or stages.persisted = some level := hasked
    simp [hor]
  | none =>
    have hor : stages.requested.or stages.persisted = none := hasked
    have hlow := index_minLevel (minLevel cfg.permission.permissionLevel cfg.ceiling)
      (stages.roleMax.getD .unrestricted)
    rw [index_minLevel cfg.permission.permissionLevel] at hlow
    have hceiling : ¬ cfg.ceiling.index < (minLevel (minLevel cfg.permission.permissionLevel
      cfg.ceiling) (stages.roleMax.getD .unrestricted)).index := by omega
    have hrole : ¬ (stages.roleMax.getD .unrestricted).index < min (minLevel (minLevel
      cfg.permission.permissionLevel cfg.ceiling) (stages.roleMax.getD .unrestricted)).index
      cfg.ceiling.index := by omega
    simp [hor, hceiling, hrole]

/-- The level of a turn is the lowest of what is asked for and of the limits; the list of the levels
one can choose holds exactly those that a request is then given, with no limit named. -/
theorem turn_level_lowest_limit (level : PermissionLevel) :
    let resolved := resolvePermissionLevelForTurn cfg stages
    let asking := resolvePermissionLevelForTurn cfg { stages with requested := some level }
    resolved.projectionLevel.index =
        min (stages.asked.getD cfg.permission.permissionLevel).index
          (turnLimit cfg stages.roleMax) ∧
      resolved.effective.index =
        min resolved.projectionLevel.index
          (if stages.sessionMode.requiresReadonlyTools then PermissionLevel.read.index
            else PermissionLevel.unrestricted.index) ∧
      (level ∈ selectableLevels cfg stages.roleMax stages.sessionMode ↔
        asking.effective = level) ∧
      (asking.effective = level ↔ asking.clampedBy = []) := by
  intro resolved asking
  have hasking : asking.effective.index =
      min level.index (selectableMaxLevel cfg stages.roleMax stages.sessionMode).index :=
    effective_index cfg { stages with requested := some level }
  have hkept : asking.effective = level ↔
      level.index ≤ (selectableMaxLevel cfg stages.roleMax stages.sessionMode).index := by
    constructor
    · intro heq
      rw [heq] at hasking
      omega
    · exact fun hle => index_injective (hasking.trans (min_eq_left hle))
  have hproj : resolved.projectionLevel.index = _ := projectionLevel_index cfg stages
  refine ⟨hproj, ?_, ?_, ?_⟩
  · have htop := index_le_unrestricted resolved.projectionLevel
    have heff : resolved.effective.index = _ := effective_index cfg stages
    rw [heff, index_selectableMaxLevel]
    rw [hproj] at htop ⊢
    split <;> omega
  · rw [mem_selectableLevels, hkept]
  · have hclamps : asking.clampedBy = _ := clampedBy_eq cfg { stages with requested := some level }
    have hlevel : asking.projectionLevel.index = _ :=
      projectionLevel_index cfg { stages with requested := some level }
    rw [hkept, hclamps, index_selectableMaxLevel]
    simp only [TurnPermissionStages.asked, some_or, getD_some, turnLimit] at hlevel ⊢
    simp only [any_some, decide_eq_true_eq, List.append_eq_nil_iff]
    change _ ↔ (_ ∧ _) ∧ (if _ ∧ _ < asking.projectionLevel.index then _ else _) = _
    rw [hlevel]
    cases stages.sessionMode.requiresReadonlyTools <;> simp <;> omega

end Resolution

section Runs

variable {cfg start : AgentConfig} {file : ConfigFile} {loopback : Bool}

/-- The default level is not above the ceiling. -/
def Settled (cfg : AgentConfig) : Prop := cfg.permission.permissionLevel.index ≤ cfg.ceiling.index

theorem index_clampOnReload (startup : PermissionLevel × CeilingSource)
    (incoming : Option PermissionLevel) :
    (clampPermissionCeilingOnReload startup incoming).1.index ≤ startup.1.index := by
  unfold clampPermissionCeilingOnReload
  split
  · exact le_rfl
  · split
    · next h => exact h
    · exact le_rfl

theorem reload_ceiling_le (cfg : AgentConfig) (file : ConfigFile) :
    (reloadSharedAgentConfig cfg file).ceiling.index ≤ cfg.ceiling.index := by
  unfold reloadSharedAgentConfig
  split
  · exact le_rfl
  · exact index_clampOnReload _ _

theorem Settled.reload (h : Settled cfg) (file : ConfigFile) :
    Settled (reloadSharedAgentConfig cfg file) := by
  unfold reloadSharedAgentConfig
  split
  · exact h
  · next fresh _ =>
    have hmin := index_reconcile fresh.permission.permissionLevel
      (applyHotReloadConfigSubset cfg fresh).ceiling
    exact hmin.le.trans (min_le_right _ _)

theorem run_ceiling_le (cfg : AgentConfig) (reloads : List ConfigFile) :
    (Run.run reloadSharedAgentConfig cfg reloads).ceiling.index ≤ cfg.ceiling.index := by
  have hkept : ∀ (later : AgentConfig) (file : ConfigFile),
      later.ceiling.index ≤ cfg.ceiling.index →
        (reloadSharedAgentConfig later file).ceiling.index ≤ cfg.ceiling.index :=
    fun later file hle => (reload_ceiling_le later file).trans hle
  exact Run.invariant' hkept le_rfl reloads

theorem loadConfig_keys (h : loadConfig file = .ok cfg) :
    cfg.permission.allowUnrestrictedPermissionForNonLoopback =
      file.keys.allowUnrestrictedPermissionForNonLoopback.getD false := by
  obtain ⟨perm, hperm, hcfg⟩ := bind_eq_ok.mp h
  obtain rfl := Except.ok.inj hcfg
  obtain ⟨level, -, hperm⟩ := bind_eq_ok.mp hperm
  obtain ⟨explicitMax, -, hperm⟩ := bind_eq_ok.mp hperm
  obtain ⟨-, -, hperm⟩ := bind_eq_ok.mp hperm
  obtain rfl := Except.ok.inj hperm
  dsimp only
  split <;> rfl

/-- A server away from the loopback address has no unrestricted ceiling by accident. -/
theorem resolveCeiling_remote {explicit : Option PermissionLevel}
    {resolved : PermissionLevel × CeilingSource}
    (h : resolvePermissionCeiling explicit (some false) false = .ok resolved) :
    resolved.1 ≠ .unrestricted := by
  intro hunrestricted
  cases explicit with
  | none =>
    cases Except.ok.inj h
    cases hunrestricted
  | some level =>
    unfold resolvePermissionCeiling at h
    dsimp only at h
    split at h
    · cases h
    · next hlevel =>
      cases Except.ok.inj h
      exact hlevel ⟨hunrestricted, rfl, rfl⟩

/-- What a start leaves: the ceiling that was resolved, and a level below it. -/
theorem serveStart_ok (h : serveStart file loopback = .ok start) :
    Settled start ∧ ∃ explicit source, resolvePermissionCeiling explicit (some loopback)
      (file.keys.allowUnrestrictedPermissionForNonLoopback.getD false) =
        .ok (start.ceiling, source) := by
  obtain ⟨cfg, hload, h⟩ := bind_eq_ok.mp h
  obtain ⟨perm, hbind, h⟩ := bind_eq_ok.mp h
  obtain rfl := Except.ok.inj h
  unfold applyCeilingForBind at hbind
  split at hbind
  · cases hbind
  · next resolved hresolved =>
    obtain rfl := Except.ok.inj hbind
    refine ⟨?_, cfg.permission.permissionLevelMax, resolved.2, ?_⟩
    · exact (index_reconcile _ _).le.trans (min_le_right _ _)
    · rw [← loadConfig_keys hload, hresolved]
      rfl

/-- A server that has started never raises its ceiling again, whatever is reloaded; its default
level stays below it. No turn is allowed more than the ceiling at any earlier time, its role and
what it asks for allow; a server away from the loopback address, which was not told otherwise when
it started, has no unrestricted turn. -/
theorem turns_stay_within_start (h : serveStart file loopback = .ok start)
    (before after : List ConfigFile) (stages : TurnPermissionStages) :
    let earlier := Run.run reloadSharedAgentConfig start before
    let cfg := Run.run reloadSharedAgentConfig earlier after
    let caps := (planTurnPermission cfg stages).2
    cfg.ceiling.index ≤ earlier.ceiling.index ∧ Settled cfg ∧
      Within caps (projectCaps earlier.ceiling cfg) ∧
      (∀ role, stages.roleMax = some role → Within caps (projectCaps role cfg)) ∧
      (∀ asked, stages.asked = some asked → Within caps (projectCaps asked cfg)) ∧
      (loopback = false → file.keys.allowUnrestrictedPermissionForNonLoopback ≠ some true →
        caps.level ≠ .unrestricted) := by
  intro earlier cfg caps
  obtain ⟨hsettled, explicit, source, hresolved⟩ := serveStart_ok h
  have hceiling : cfg.ceiling.index ≤ earlier.ceiling.index := run_ceiling_le earlier after
  have hstart : earlier.ceiling.index ≤ start.ceiling.index := run_ceiling_le start before
  have hlevel := projectionLevel_index cfg stages
  unfold turnLimit at hlevel
  refine ⟨hceiling, ?_, projectCaps_within cfg (by omega), fun role hrole => ?_,
    fun asked hasked => ?_, fun hremote hflag hunrestricted => ?_⟩
  · have hearlier : Settled earlier :=
      Run.invariant' (fun _ file hs => hs.reload file) hsettled before
    exact Run.invariant' (fun _ file hs => hs.reload file) hearlier after
  · rw [hrole, getD_some] at hlevel
    exact projectCaps_within cfg (by omega)
  · rw [hasked, getD_some] at hlevel
    exact projectCaps_within cfg (by omega)
  · have hno : file.keys.allowUnrestrictedPermissionForNonLoopback.getD false = false := by
      cases hkey : file.keys.allowUnrestrictedPermissionForNonLoopback with
      | none => rfl
      | some flag =>
        cases flag with
        | false => rfl
        | true => exact absurd hkey hflag
    rw [hremote, hno] at hresolved
    have hproj : (resolvePermissionLevelForTurn cfg stages).projectionLevel = .unrestricted :=
      (level_projectCaps _ cfg).symm.trans hunrestricted
    have htop := index_le_unrestricted start.ceiling
    rw [hproj] at hlevel
    exact resolveCeiling_remote hresolved (index_injective (by dsimp only; omega))

/-! A server that may only read, reached from outside, and the turns it is asked to raise. -/
namespace SampleServer

def readFile : ConfigFile where
  keys := ⟨some " Approved".toList, some "read".toList, some ["read_dir".toList], none⟩
  allowedCommands := ["ls".toList]
  httpFetchAllowedPrefixes := []
  finalPlanRequirement := .workflowReflection

def raised : ConfigFile :=
  { readFile with
    keys := ⟨some "unrestricted".toList, some "unrestricted".toList, none, some true⟩ }

def started : AgentConfig where
  permission := ⟨.read, some .read, .read, .config, some ["read_dir".toList], false⟩
  allowedCommands := ["ls".toList]
  httpFetchAllowedPrefixes := []
  finalPlanRequirement := .workflowReflection

def stages : TurnPermissionStages := ⟨some .approved, .act, some .unrestricted, none⟩

theorem serveStart_readFile : serveStart readFile false = .ok started := by rfl

end SampleServer

open SampleServer in
theorem turns_stay_within_start_raised :
    (planTurnPermission (Run.run reloadSharedAgentConfig started [raised]) stages).2.level ≠
      .unrestricted :=
  (turns_stay_within_start serveStart_readFile [] [raised] stages).2.2.2.2.2 rfl (by decide)

open SampleServer in
example : (planTurnPermission (Run.run reloadSharedAgentConfig started [raised]) stages).2.level =
    .read := by rfl

/-- In every turn after any reloads, a call of a tool that the ceiling of an earlier time forbids is
answered with a refusal in its batch, whatever the tool would have given. -/
theorem forbidden_tool_refused (earlier : AgentConfig) (reloads : List ConfigFile)
    (stages : TurnPermissionStages) (ctx : BatchContext) (calls : List ToolCall)
    (history : List Message) (ops : List BatchOp) {call : ToolCall} (hcall : call ∈ calls)
    (hforbidden : (projectCaps earlier.ceiling
      (Run.run reloadSharedAgentConfig earlier reloads)).toolAllowedByCaps call.toolName = false) :
    let cfg := Run.run reloadSharedAgentConfig earlier reloads
    let caps := (planTurnPermission cfg stages).2
    let ctx := { ctx with permissionDenial := caps.permissionDenial }
    let s := Run.run (batchStep ctx calls) (batchStart calls history) ops
    s.pool.drained → cachedResult ctx s.pool.done call =
      (prefetchParallelApprovalFailure ctx call).getD
        (caps.permissionDeniedMessage call.toolName) := by
  intro cfg caps ctx s hover
  obtain ⟨o, -, -, hresult⟩ :=
    ((batchSound_run ctx calls history ops).complete hover).cachedResult_eq ctx hcall
  have hlevel := projectionLevel_index cfg stages
  have hle : cfg.ceiling.index ≤ earlier.ceiling.index := run_ceiling_le earlier reloads
  unfold turnLimit at hlevel
  have hwithin : Within caps (projectCaps earlier.ceiling cfg) :=
    projectCaps_within cfg (by omega)
  have hdenied : caps.toolAllowedByCaps call.toolName = false := by
    by_contra hallowed
    rw [hwithin.tools _ (Bool.eq_true_of_not_eq_false hallowed)] at hforbidden
    cases hforbidden
  have hdenial : ctx.permissionDenial call.toolName =
      some (caps.permissionDeniedMessage call.toolName) := by
    change caps.permissionDenial call.toolName = _
    unfold PermissionCaps.permissionDenial PermissionCaps.deniedAxis
    rw [hdenied]
    split
    · rfl
    · split <;> rfl
  rw [hresult]
  unfold futureText toolPolicyEarlyDenyMessage
  rw [hdenial]
  rfl

/-- The turn after the reload, in which two files are to be read. -/
def SampleServer.caps : PermissionCaps :=
  (planTurnPermission (Run.run reloadSharedAgentConfig SampleServer.started [SampleServer.readFile])
    SampleServer.stages).2

open SampleServer SampleBatch in
theorem forbidden_tool_refused_read_file :
    cachedResult { context with permissionDenial := caps.permissionDenial }
      (Run.run (batchStep { context with permissionDenial := caps.permissionDenial } row.calls)
        (batchStart row.calls [row]) (steps.take 6)).pool.done (read "call-2") =
      caps.permissionDeniedMessage (read "call-2").toolName :=
  forbidden_tool_refused started [SampleServer.readFile] SampleServer.stages context row.calls
    [row] (steps.take 6) (List.mem_cons_of_mem _ List.mem_cons_self) (by rfl) ⟨by rfl, by rfl⟩

end Runs
end CrabMate.Permission
