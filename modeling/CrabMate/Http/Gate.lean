import CrabMate.Lib.Str
import CrabMate.Approval.Session

/-! The outbound gate of `http_fetch`: allowed prefixes, permission levels, the permanent
approvals of a session and the approval round. -/
namespace CrabMate

/-- The components of a parsed URL. -/
structure Url where
  scheme : String
  username : String
  password : Option String
  host : Option String
  port : Option ℕ
  path : String
  query : Option String
  fragment : Option String
  deriving DecidableEq

structure HttpResponse where
  status : ℕ
  location : Option String
  deriving DecidableEq

/-- What the `url` and `reqwest` crates compute. `redirectTarget` is the URL a response redirects
to, where it does. -/
structure UrlApi where
  parse : String → Option Url
  asStr : Url → String
  origin : Url → String
  redirectTarget : Url → HttpResponse → Option Url

namespace Url

def knownDefaultPort (scheme : String) : Option ℕ :=
  if scheme = "http" ∨ scheme = "ws" then some 80
  else if scheme = "https" ∨ scheme = "wss" then some 443
  else if scheme = "ftp" then some 21
  else none

def portOrKnownDefault (u : Url) : Option ℕ := u.port.or (knownDefaultPort u.scheme)

def isHttpOrHttps (u : Url) : Bool := u.scheme = "http" || u.scheme = "https"

def sameOrigin (url base : Url) : Bool :=
  url.scheme = base.scheme && url.host = base.host &&
    url.portOrKnownDefault = base.portOrKnownDefault

end Url

def urlPathMatchesPrefix (urlPath prefixPath : String) : Bool :=
  if prefixPath.toList.getLast? = some '/' then
    RustStr.startsWith prefixPath.toList urlPath.toList
  else
    urlPath = prefixPath || RustStr.startsWith (prefixPath.toList ++ ['/']) urlPath.toList

def prefixAllowsAnyHttpUrl (raw : String) : Bool := RustStr.trimString raw = "*"

variable (api : UrlApi)

def urlMatchesAllowedPrefixes (url : Url) (prefixes : List String) : Bool :=
  prefixes.any fun raw =>
    let p := RustStr.trimString raw
    if p.isEmpty then false
    else if prefixAllowsAnyHttpUrl p then url.isHttpOrHttps
    else
      match api.parse p with
      | none => false
      | some base =>
        if base.query.isSome || base.fragment.isSome then false
        else url.sameOrigin base && urlPathMatchesPrefix url.path base.path

/-- The key of a permanent approval: lower case, without query and fragment. -/
def storageKey (url : Url) : String :=
  "http_fetch:" ++ (api.asStr { url with query := none, fragment := none }).toLower

def displayRedacted (url : Url) : String :=
  api.asStr { url with query := url.query.map fun _ => "…", fragment := none }

inductive FetchMethod where
  | get
  | head
  deriving DecidableEq

def approvalArgsDisplay (method : FetchMethod) (url : Url) : String :=
  match method with
  | .get => displayRedacted api url
  | .head => "HEAD " ++ displayRedacted api url

inductive PermissionLevel where
  | chat
  | read
  | workspace
  | approved
  | unrestricted
  deriving DecidableEq

namespace PermissionLevel

def asStr : PermissionLevel → String
  | .chat => "chat"
  | .read => "read"
  | .workspace => "workspace"
  | .approved => "approved"
  | .unrestricted => "unrestricted"

def index : PermissionLevel → ℕ
  | .chat => 0
  | .read => 1
  | .workspace => 2
  | .approved => 3
  | .unrestricted => 4

def promiseZh : PermissionLevel → String
  | .chat => "只能对话：不下发工具定义"
  | .read => "只读探查：工作区内读 + 出站只读"
  | .workspace => "工作区硬边界：越界直接拒，不弹审批"
  | .approved => "现状：越界走人工审批"
  | .unrestricted => "不受工作区路径与命令白名单限制：放行 + 审计"

end PermissionLevel

def scopedAllowlistKey (level : Option PermissionLevel) (key : String) : String :=
  match level with
  | some level => "l" ++ toString level.index ++ "|" ++ key
  | none => key

inductive NetScope where
  | none
  | prefixes (list : List String)
  | any
  deriving DecidableEq

inductive ApprovalPolicy where
  | deny
  | gate
  | auditOnly
  deriving DecidableEq

/-- The part of the permission projection that the gate reads. -/
structure NetCaps where
  level : PermissionLevel
  netScope : NetScope
  approval : ApprovalPolicy
  deriving DecidableEq

namespace NetCaps

def outboundDenied (caps : NetCaps) : Bool := caps.netScope = .none

def outboundAllowsAny (caps : NetCaps) : Bool := caps.netScope = .any

def outboundPrefixes (caps : NetCaps) : List String :=
  match caps.netScope with
  | .prefixes list => list
  | .none | .any => []

def outboundUsesPrefixes (caps : NetCaps) : Bool := !caps.outboundDenied && !caps.outboundAllowsAny

end NetCaps

/-- The permission projection of a level, for the configured prefixes. -/
def projectCaps (level : PermissionLevel) (cfgPrefixes : List String) : NetCaps :=
  match level with
  | .chat => ⟨level, .none, .deny⟩
  | .read | .workspace => ⟨level, .prefixes cfgPrefixes, .deny⟩
  | .approved => ⟨level, .prefixes cfgPrefixes, .gate⟩
  | .unrestricted => ⟨level, .any, .auditOnly⟩

inductive HttpNetGate where
  | allow
  | needApproval
  | deny (message : String)
  deriving DecidableEq

def httpToolNetDeniedMessage (caps : NetCaps) (url : Url) : String :=
  "错误：当前权限等级（" ++ caps.level.asStr ++ "）下不允许访问出站地址 " ++ api.origin url ++ "：" ++
    caps.level.promiseZh ++ "。"

/-- A permission in force replaces the configured prefixes. -/
def prefixesInForce (cfgPrefixes : List String) (permission : Option NetCaps) : List String :=
  match permission with
  | some caps => caps.outboundPrefixes
  | none => cfgPrefixes

/-- `web` is the session's allowlist, where there is an approval session. -/
def httpToolUrlAllowed (cfgPrefixes : List String) (web : Option (List String))
    (permission : Option NetCaps) (url : Url) (key : String) : Bool :=
  if urlMatchesAllowedPrefixes api url (prefixesInForce cfgPrefixes permission) then true
  else
    match web with
    | some allowlist => scopedAllowlistKey (permission.map (·.level)) key ∈ allowlist
    | none => false

def httpNetGate (permission : Option NetCaps) (url : Url) (urlAllowed : Bool) : HttpNetGate :=
  match permission with
  | none => if urlAllowed then .allow else .needApproval
  | some caps =>
    if caps.outboundDenied then .deny (httpToolNetDeniedMessage api caps url)
    else if caps.outboundAllowsAny then .allow
    else if urlAllowed then .allow
    else if caps.approval = .deny then .deny (httpToolNetDeniedMessage api caps url)
    else .needApproval

end CrabMate
