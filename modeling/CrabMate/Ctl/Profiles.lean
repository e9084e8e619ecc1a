import CrabMate.Ctl.Record
import CrabMate.Lib.Except
import CrabMate.Lib.OrdMap
import CrabMate.Lib.Separated
import CrabMate.Lib.Str
import Mathlib.Data.String.Basic

/-! Profiles: named settings for serve processes. The settings of a profile become environment
variables, and the variables become the environment of the process. -/
namespace CrabMate.Ctl
open List Option Except

open RustStr (Str trim)

def permissionLevels : List String := ["chat", "read", "workspace", "approved", "unrestricted"]

structure Profile where
  config : Option String := none
  allowedCommands : Option (List String) := none
  permissionLevel : Option String := none
  noTools : Option Bool := none
  llmModel : Option String := none
  llmApiBase : Option String := none
  env : EnvMap := []
  env_asc : OrdMap.Ascending env := by exact List.Pairwise.nil

structure ProfilesFile where
  profiles : List (String × Profile)
  asc : OrdMap.Ascending profiles

def refuse (bad : Bool) (message : String) : Except CtlError Unit :=
  if bad then .error (.usage "bad_profile_entry" message) else .ok ()

/-- The checks of one profile. Those of the commands look at the elements of the list. -/
def validateProfile (name : String) (p : Profile) : Except CtlError Unit := do
  let level := p.permissionLevel.getD ""
  let cmds := p.allowedCommands.getD []
  refuse (p.permissionLevel.any fun level => !permissionLevels.contains level)
    (s!"预设 `{name}` 的 permission_level = `{level}` 非法；合法值：" ++
      " / ".intercalate permissionLevels)
  refuse (cmds.any fun c => (trim c.toList).isEmpty)
    s!"预设 `{name}` 的 allowed_commands 含空项（空串会命中所有命令）"
  refuse (cmds.any fun c => trim c.toList = ['*'])
    s!"预设 `{name}` 的 allowed_commands 含 `*`：等价于 `--yes`，必须由实例级显式决定"

def validate (file : ProfilesFile) : Except CtlError Unit :=
  file.profiles.forM fun entry => validateProfile entry.1 entry.2

def insertSome (key : String) (value : Option String) (env : EnvMap) : EnvMap :=
  match value with
  | some v => OrdMap.insert key v env
  | none => env

/-- The variables of the settings, then those of the profile, then those of the instance. -/
def Profile.intoResolved (p : Profile) (instanceEnv : EnvMap) : Resolved :=
  let derived := insertSome "CM_LLM_API_BASE" p.llmApiBase
    (insertSome "CM_LLM_MODEL" p.llmModel
      (insertSome "CM_PERMISSION_LEVEL" p.permissionLevel
        (insertSome "CM_ALLOWED_COMMANDS" (p.allowedCommands.map (",".intercalate ·)) [])))
  { serveConfig := p.config
    env := OrdMap.insertAll instanceEnv (OrdMap.insertAll p.env derived)
    noTools := p.noTools.getD false }

def resolve (file : ProfilesFile) (name : String) (instanceEnv : EnvMap) (path : String) :
    Except CtlError Resolved :=
  match OrdMap.get name file.profiles with
  | none =>
    let known := file.profiles.map Prod.fst
    .error (.usage "profile_not_found" (s!"引用不存在的 profile `{name}`（在 {path} 中查找；已定义：" ++
      (if known.isEmpty then "无" else ", ".intercalate known) ++ "）"))
  | some profile => .ok (profile.intoResolved instanceEnv)

/-! The environment of a process. -/

def baseEnvKeys : List String :=
  ["PATH", "HOME", "XDG_CONFIG_HOME", "XDG_STATE_HOME", "XDG_RUNTIME_DIR", "XDG_CACHE_HOME",
    "HTTPS_PROXY", "https_proxy", "HTTP_PROXY", "http_proxy", "ALL_PROXY", "all_proxy", "NO_PROXY",
    "no_proxy", "SSL_CERT_FILE", "SSL_CERT_DIR"]

def declarableCmKeys : List String :=
  ["CM_ALLOWED_COMMANDS", "CM_PERMISSION_LEVEL", "CM_LLM_MODEL", "CM_LLM_API_BASE"]

def isForbidden (key : String) : Bool :=
  if declarableCmKeys.contains key then false
  else key = "API_KEY" || key = "CM_SERVE_DISABLE_INSTANCE_LOCK" ||
    "CM_".toList.isPrefixOf key.toList || "_TOKEN".toList.isSuffixOf key.toList ||
    "_SECRET".toList.isSuffixOf key.toList

def forbiddenEnv (key : String) : CtlError :=
  .usage "forbidden_env"
    s!"拒绝透传敏感环境变量 `{key}`（实例隔离要求不继承 CM_*/API_KEY/*_TOKEN/*_SECRET）"

/-- What the process inherits: `host` is the environment of the controller. -/
def baseEnv (host : String → Option String) : EnvMap :=
  baseEnvKeys.foldl (fun env key => insertSome key (host key) env) []

def declare (env : EnvMap) (entry : String × String) : Except CtlError EnvMap :=
  if isForbidden entry.1 then .error (forbiddenEnv entry.1)
  else .ok (OrdMap.insert entry.1 entry.2 env)

/-- The environment and the names of its variables. -/
def buildEnv (host : String → Option String) (declared : EnvMap) :
    Except CtlError (EnvMap × List String) := do
  let env ← declared.foldlM declare (baseEnv host)
  pure (env, env.map Prod.fst)

/-- The environment of a process that is started with a profile. -/
def childEnv (host : String → Option String) (file : ProfilesFile) (name : String)
    (instanceEnv : EnvMap) (path : String) : Except CtlError EnvMap := do
  let resolved ← resolve file name instanceEnv path
  let built ← buildEnv host resolved.env
  pure built.1

/-- The parts of a value between its commas. -/
def csvParts (value : String) : List Str := (value.toList.splitOn ',').map trim

/-- The list that the process reads from a value; an empty one leaves its own list as it is. -/
def csvNonemptyParts (value : String) : List Str := (csvParts value).filter fun x => !x.isEmpty

section Env

variable {host : String → Option String} {key : String} {env declared : EnvMap}

theorem get_insertSome_ne {k : String} (h : k ≠ key) (value : Option String) (env : EnvMap) :
    OrdMap.get k (insertSome key value env) = OrdMap.get k env := by
  cases value with
  | none => rfl
  | some v => exact OrdMap.get_insert_ne h v env

theorem get_insertSome_self (key : String) (value : Option String) (env : EnvMap) :
    OrdMap.get key (insertSome key value env) = value.or (OrdMap.get key env) := by
  cases value with
  | none => rfl
  | some v => exact OrdMap.get_insert_self key v env

theorem ascending_insertSome (h : OrdMap.Ascending env) (key : String) (value : Option String) :
    OrdMap.Ascending (insertSome key value env) := by
  cases value with
  | none => exact h
  | some v => exact OrdMap.ascending_insert h key v

/-- Nothing but the variables of the list is inherited. -/
theorem get_baseEnv (h : key ∉ baseEnvKeys) : OrdMap.get key (baseEnv host) = none := by
  have hfold : ∀ (keys : List String) (env : EnvMap), key ∉ keys →
      OrdMap.get key (keys.foldl (fun env key => insertSome key (host key) env) env) =
        OrdMap.get key env := by
    intro keys
    induction keys with
    | nil => exact fun _ _ => rfl
    | cons k keys ih =>
      intro env hnot
      rw [mem_cons, not_or] at hnot
      rw [foldl_cons, ih _ hnot.2, get_insertSome_ne hnot.1]
  exact hfold baseEnvKeys [] h

theorem foldlM_declare {entries : EnvMap} (h : entries.foldlM declare env = .ok declared) :
    declared = OrdMap.insertAll entries env ∧ ∀ e ∈ entries, isForbidden e.1 = false := by
  induction entries generalizing env with
  | nil => exact ⟨(Except.ok.inj h).symm, fun e he => nomatch he⟩
  | cons e entries ih =>
    rw [foldlM_cons] at h
    obtain ⟨next, hnext, hrest⟩ := bind_eq_ok.mp h
    obtain ⟨hdeclared, hallowed⟩ := ih hrest
    unfold declare at hnext
    split at hnext
    · cases hnext
    · next hkey =>
      obtain rfl := Except.ok.inj hnext
      exact ⟨hdeclared, forall_mem_cons.mpr ⟨by simpa using hkey, hallowed⟩⟩

theorem ascending_intoResolved (p : Profile) (instanceEnv : EnvMap) :
    OrdMap.Ascending (p.intoResolved instanceEnv).env := by
  have hnil : OrdMap.Ascending ([] : EnvMap) := List.Pairwise.nil
  refine OrdMap.ascending_insertAll (OrdMap.ascending_insertAll ?_ _) _
  exact ascending_insertSome (ascending_insertSome (ascending_insertSome
    (ascending_insertSome hnil _ _) _ _) _ _) _ _

/-- The variables that the instance does not set come from the profile, and those that the
profile does not set from its settings. -/
theorem get_allowedCommands (p : Profile) {instanceEnv : EnvMap}
    (hinstance : OrdMap.get "CM_ALLOWED_COMMANDS" instanceEnv = none) :
    OrdMap.get "CM_ALLOWED_COMMANDS" (p.intoResolved instanceEnv).env =
      (OrdMap.get "CM_ALLOWED_COMMANDS" p.env).or
        (p.allowedCommands.map (",".intercalate ·)) := by
  have hnot : "CM_ALLOWED_COMMANDS" ∉ instanceEnv.map Prod.fst := by
    rw [← OrdMap.get_isSome_iff, hinstance]
    simp
  unfold Profile.intoResolved
  dsimp only
  rw [OrdMap.get_insertAll_of_notMem hnot, OrdMap.get_insertAll p.env_asc,
    get_insertSome_ne (by decide), get_insertSome_ne (by decide), get_insertSome_ne (by decide),
    get_insertSome_self]
  exact congrArg _ (or_none ..)

theorem get_childEnv {file : ProfilesFile} {name path : String} {p : Profile} {instanceEnv : EnvMap}
    (hp : OrdMap.get name file.profiles = some p)
    (h : childEnv host file name instanceEnv path = .ok env) (hkey : key ∉ baseEnvKeys) :
    OrdMap.get key env = OrdMap.get key (p.intoResolved instanceEnv).env := by
  unfold childEnv resolve at h
  rw [hp] at h
  obtain ⟨resolved, hresolved, hrest⟩ := bind_eq_ok.mp h
  obtain rfl : p.intoResolved instanceEnv = resolved := Except.ok.inj hresolved
  obtain ⟨built, hbuilt, hok⟩ := bind_eq_ok.mp hrest
  obtain rfl : built.1 = env := Except.ok.inj hok
  obtain ⟨all, hall, hpair⟩ := bind_eq_ok.mp hbuilt
  obtain rfl : (all, all.map Prod.fst) = built := Except.ok.inj hpair
  rw [(foldlM_declare hall).1, OrdMap.get_insertAll (ascending_intoResolved p instanceEnv),
    get_baseEnv hkey, or_none]

end Env

/-- The list of a profile that can be read back from one value. -/
def Separable (cmds : List String) : Prop := cmds ≠ [] ∧ ∀ c ∈ cmds, ',' ∉ c.toList

instance (cmds : List String) : Decidable (Separable cmds) := inferInstanceAs (Decidable (_ ∧ _))

section Parts

variable {cmds : List String}

theorem toList_csvJoin (cmds : List String) :
    (",".intercalate cmds).toList = [','].intercalate (cmds.map String.toList) :=
  String.toList_intercalate

theorem csvParts_intercalate_iff :
    csvParts (",".intercalate cmds) = cmds.map (fun c => trim c.toList) ↔ Separable cmds := by
  rw [csvParts, toList_csvJoin]
  constructor
  · intro h
    cases cmds with
    | nil => cases h
    | cons c cmds =>
      have hlen := congrArg List.length h
      rw [List.length_map, List.length_map, map_cons] at hlen
      have hcount : (([','].intercalate (c.toList :: cmds.map String.toList)).splitOn ',').length =
          (c.toList :: cmds.map String.toList).length := by
        rw [hlen, length_cons, length_cons, List.length_map]
      have hnone := length_splitOn_intercalate_iff.mp hcount
      rw [← map_cons, List.forall_mem_map] at hnone
      exact ⟨cons_ne_nil _ _, hnone⟩
  · rintro ⟨hne, hcomma⟩
    rw [splitOn_intercalate ',' (by simpa using hcomma) (by simpa using hne), List.map_map]
    rfl

theorem refuse_eq_ok {bad : Bool} {message : String} :
    refuse bad message = .ok () ↔ bad = false := by
  cases bad <;> simp [refuse]

theorem validateProfile_allowedCommands {name : String} {p : Profile}
    (h : validateProfile name p = .ok ()) (hcmds : p.allowedCommands = some cmds) :
    ∀ c ∈ cmds, trim c.toList ≠ [] ∧ trim c.toList ≠ ['*'] := by
  unfold validateProfile at h
  obtain ⟨_, -, h⟩ := bind_eq_ok.mp h
  obtain ⟨_, hblank, hstar⟩ := bind_eq_ok.mp h
  have hblank := refuse_eq_ok.mp hblank
  have hstar := refuse_eq_ok.mp hstar
  rw [hcmds, getD_some, List.any_eq_false] at hblank hstar
  exact fun c hc => ⟨by simpa using hblank c hc, by simpa using hstar c hc⟩

theorem validateProfile_of_validate {file : ProfilesFile} (h : validate file = .ok ())
    {name : String} {p : Profile} (hp : OrdMap.get name file.profiles = some p) :
    validateProfile name p = .ok () := by
  have hall : ∀ entries : List (String × Profile),
      (entries.forM fun entry => validateProfile entry.1 entry.2) = .ok () →
        ∀ entry ∈ entries, validateProfile entry.1 entry.2 = .ok () := by
    intro entries
    induction entries with
    | nil => exact fun _ _ hmem => nomatch hmem
    | cons entry entries ih =>
      intro hforM
      obtain ⟨_, hentry, hrest⟩ := bind_eq_ok.mp hforM
      exact forall_mem_cons.mpr ⟨hentry, ih hrest⟩
  exact hall file.profiles h (name, p) (OrdMap.mem_of_get hp)

end Parts

/-- What the profile itself sets for the commands. -/
def Profile.ownValue (p : Profile) : Option String := OrdMap.get "CM_ALLOWED_COMMANDS" p.env

/-- A value has these commands as its parts, if any are given, and no `*`. -/
def GivesCommands (declared : Option (List String)) (value : String) : Prop :=
  ['*'] ∉ csvParts value ∧
    ∀ cmds, declared = some cmds → csvParts value = cmds.map fun c => trim c.toList

instance (declared : Option (List String)) (value : String) :
    Decidable (GivesCommands declared value) :=
  inferInstanceAs (Decidable (_ ∧ ∀ _, _ → _))

/-- The list can be read back from one value, and what the profile itself sets agrees with it. -/
def Profile.Unambiguous (p : Profile) : Prop :=
  match p.ownValue with
  | none => ∀ cmds, p.allowedCommands = some cmds → Separable cmds
  | some own => GivesCommands p.allowedCommands own

/-- What the process gets are the declared commands, and no `*` among them, exactly if the profile
is unambiguous: the variables of the profile go before its list, and the list is joined with
commas. -/
theorem child_allowedCommands (host : String → Option String) (file : ProfilesFile)
    (hvalid : validate file = .ok ()) (name path : String) (p : Profile)
    (hp : OrdMap.get name file.profiles = some p)
    (instanceEnv : EnvMap) (hinstance : OrdMap.get "CM_ALLOWED_COMMANDS" instanceEnv = none)
    (env : EnvMap) (henv : childEnv host file name instanceEnv path = .ok env) :
    OrdMap.get "CM_ALLOWED_COMMANDS" env =
        p.ownValue.or (p.allowedCommands.map (",".intercalate ·)) ∧
      ((∀ value, OrdMap.get "CM_ALLOWED_COMMANDS" env = some value →
        GivesCommands p.allowedCommands value) ↔ p.Unambiguous) := by
  have hget := get_childEnv hp henv (by decide : "CM_ALLOWED_COMMANDS" ∉ baseEnvKeys)
  rw [get_allowedCommands p hinstance, ← Profile.ownValue] at hget
  refine ⟨hget, ?_⟩
  rw [hget, Profile.Unambiguous]
  cases p.ownValue with
  | some own => simp
  | none =>
    simp only [none_or, map_eq_some_iff, forall_exists_index, and_imp,
      forall_apply_eq_imp_iff₂]
    refine forall_congr' fun cmds => forall_congr' fun hcmds => ?_
    rw [GivesCommands, hcmds, ← csvParts_intercalate_iff]
    constructor
    · rintro ⟨-, hparts⟩
      exact hparts cmds rfl
    · intro hparts
      refine ⟨?_, fun _ h => Option.some.inj h ▸ hparts⟩
      rw [hparts, List.mem_map]
      rintro ⟨c, hc, htrim⟩
      exact (validateProfile_allowedCommands (validateProfile_of_validate hvalid hp) hcmds c
        hc).2 htrim

def oneProfile (p : Profile) : ProfilesFile := ⟨[("a", p)], pairwise_singleton _ _⟩

def searching : Profile := { allowedCommands := some ["grep", " cat"] }

def searchingEnv : EnvMap := [("CM_ALLOWED_COMMANDS", "grep, cat"), ("HOME", "/h")]

theorem child_allowedCommands_searching :
    OrdMap.get "CM_ALLOWED_COMMANDS" searchingEnv = some "grep, cat" ∧
      csvParts "grep, cat" = ["grep", " cat"].map fun c => trim c.toList := by
  have hiff := (child_allowedCommands (fun k => if k = "HOME" then some "/h" else none)
    (oneProfile searching) (by decide +kernel) "a" "/p" searching OrdMap.get_cons_self [] rfl
    searchingEnv (by decide +kernel)).2
  have hget : OrdMap.get "CM_ALLOWED_COMMANDS" searchingEnv = some "grep, cat" := by decide
  have hsearching : searching.Unambiguous := fun cmds h => Option.some.inj h ▸ by decide +kernel
  exact ⟨hget, (hiff.mpr hsearching _ hget).2 _ rfl⟩

/-- A profile with a comma inside a command. -/
def starInside : Profile := { allowedCommands := some ["ls,*"] }

/-- The elements are checked, not the parts of the value that they are joined to. -/
theorem star_inside_command :
    validate (oneProfile starInside) = .ok () ∧
      childEnv (fun _ => none) (oneProfile starInside) "a" [] "/p" =
        .ok [("CM_ALLOWED_COMMANDS", "ls,*")] ∧
      csvParts "ls,*" = ["ls".toList, ['*']] ∧
      csvNonemptyParts "ls,*" = ["ls".toList, ['*']] := by
  decide +kernel

/-- The variables of the profile go before its list, and are not checked. -/
example : validateProfile "a"
      { allowedCommands := some ["grep"], env := [("CM_ALLOWED_COMMANDS", "*")],
        env_asc := pairwise_singleton _ _ } = .ok () := by decide +kernel

end CrabMate.Ctl
