import CrabMate.Http.Gate

/-! `http_fetch` calls of a session. The gate judges the URL of the call; the client then follows
redirects without asking again, so the later URLs of a chain are named by the servers. -/
namespace CrabMate
open Run List

inductive SendError where
  | network
  | tooManyRedirects
  deriving DecidableEq

/-- A request with its redirects: the URLs contacted, the recorded hops and the last response. -/
structure SentRequest where
  contacted : List Url
  hops : List (ℕ × Url)
  outcome : Except SendError (Url × HttpResponse)
  deriving DecidableEq

def maxRedirects : ℕ := 10

/-- The client with the redirect policy of `build_client`. `previous` are the URLs contacted
before; the servers answer with `responses`, and the last one may stay away. -/
def send (api : UrlApi) (previous : List Url) (url : Url) : List HttpResponse → SentRequest
  | [] => ⟨[url], [], .error .network⟩
  | response :: responses =>
    match api.redirectTarget url response with
    | none => ⟨[url], [], .ok (url, response)⟩
    | some target =>
      if maxRedirects < (previous ++ [url]).length then ⟨[url], [], .error .tooManyRedirects⟩
      else
        let next := send api (previous ++ [url]) target responses
        ⟨url :: next.contacted, (response.status, target) :: next.hops, next.outcome⟩

/-- Each URL after the first is the one the previous server redirected to. -/
def RedirectChain (api : UrlApi) (responses : List HttpResponse) (contacted : List Url) : Prop :=
  ∀ i url target, contacted[i]? = some url → contacted[i + 1]? = some target →
    ∃ response, responses[i]? = some response ∧ api.redirectTarget url response = some target

section Send

variable {api : UrlApi}

theorem send_head (previous : List Url) (url : Url) (responses : List HttpResponse) :
    (send api previous url responses).contacted.head? = some url := by
  cases responses with
  | nil => rfl
  | cons response responses =>
    rw [send]
    split
    · rfl
    · split
      · rfl
      · rfl

theorem send_chain (previous : List Url) (url : Url) (responses : List HttpResponse) :
    RedirectChain api responses (send api previous url responses).contacted := by
  have hsingle : ∀ responses, RedirectChain api responses [url] := by
    intro responses i u target _ htarget
    simp at htarget
  induction responses generalizing previous url with
  | nil => exact hsingle []
  | cons response responses ih =>
    rw [send]
    split
    · exact hsingle _
    · next target htarget =>
      split
      · exact hsingle _
      · have hrest := ih (previous ++ [url]) target fun responses i u t _ ht => by simp at ht
        have hhead : (send api (previous ++ [url]) target responses).contacted.head? = some target :=
          send_head ..
        intro i u t hu ht
        cases i with
        | zero =>
          rw [head?_eq_getElem?] at hhead
          simp only [getElem?_cons_zero, Option.some.injEq, getElem?_cons_succ] at hu ht
          rw [hhead, Option.some.injEq] at ht
          exact ⟨response, rfl, hu ▸ ht ▸ htarget⟩
        | succ i =>
          rw [getElem?_cons_succ] at hu ht
          obtain ⟨r, hr, hresult⟩ := hrest i u t hu ht
          exact ⟨r, by rw [getElem?_cons_succ, hr], hresult⟩

/-- At most ten redirects are followed. -/
theorem send_length (previous : List Url) (url : Url) (responses : List HttpResponse)
    (h : previous.length ≤ maxRedirects) :
    (send api previous url responses).contacted.length + previous.length ≤ maxRedirects + 1 := by
  induction responses generalizing previous url with
  | nil =>
    simp only [send, length_singleton]
    omega
  | cons response responses ih =>
    rw [send]
    split
    · simp only [length_singleton]
      omega
    · next target _ =>
      split
      · simp only [length_singleton]
        omega
      · next hfew =>
        rw [length_append, length_singleton] at hfew
        have hrest := ih (previous ++ [url]) target (by simp; omega)
        simp only [length_cons, length_append, length_nil] at hrest ⊢
        omega

theorem send_hops (previous : List Url) (url : Url) (responses : List HttpResponse) :
    (send api previous url responses).hops.map Prod.snd =
      (send api previous url responses).contacted.tail := by
  induction responses generalizing previous url with
  | nil => rfl
  | cons response responses ih =>
    rw [send]
    split
    · rfl
    · next target _ =>
      split
      · rfl
      · have hhead : (send api (previous ++ [url]) target responses).contacted.head? = some target :=
          send_head ..
        simp only [map_cons, tail_cons, ih]
        cases hc : (send api (previous ++ [url]) target responses).contacted with
        | nil => simp [hc] at hhead
        | cons first rest =>
          rw [hc] at hhead
          cases hhead
          rfl

end Send

/-- The approval round: no session, a failed round, or the user's decision. -/
inductive ApprovalRound where
  | noSession
  | failed (error : ToolApprovalWebError)
  | decided (decision : CommandApprovalDecision)
  deriving DecidableEq

/-- One `http_fetch` call: what the model asked for, the permission in force, what the user
answers if asked, and what the servers answer. -/
structure FetchCall where
  url : String
  method : FetchMethod
  cfgPrefixes : List String
  permission : Option NetCaps
  approval : ApprovalRound
  responses : List HttpResponse
  deriving DecidableEq

inductive FetchRefusal where
  | missingUrl
  | urlInvalid
  | badScheme (scheme : String)
  | netDenied (message : String)
  | noApprovalChannel
  | approvalFailed (error : ToolApprovalWebError)
  | userDenied (message : String)
  deriving DecidableEq

/-- `parse_http_fetch_args`: only http and https URLs. -/
def parseFetchUrl (api : UrlApi) (raw : String) : Except FetchRefusal Url :=
  let u := RustStr.trimString raw
  if u.isEmpty then .error .missingUrl
  else
    match api.parse u with
    | none => .error .urlInvalid
    | some url => if url.isHttpOrHttps then .ok url else .error (.badScheme url.scheme)

/-- `approval` of the request, with the key that a permanent approval leaves. -/
def gateUrlApproval (api : UrlApi) (call : FetchCall) (url : Url) :
    Except FetchRefusal (Option String) :=
  match call.approval with
  | .noSession => .error .noApprovalChannel
  | .failed error => .error (.approvalFailed error)
  | .decided .deny =>
    .error (.userDenied ("用户拒绝 http_fetch：" ++
      RustStr.trimString (approvalArgsDisplay api call.method url)))
  | .decided .allowOnce => .ok none
  | .decided .allowAlways =>
    .ok (some (scopedAllowlistKey (call.permission.map (·.level)) (storageKey api url)))

/-- What the gate lets through: on its own, or with the user's decision. -/
inductive Clearance where
  | gate
  | user (key : Option String)
  deriving DecidableEq

/-- The look-up of prefixes and allowlist, where the level asks for one. -/
def urlAllowed (api : UrlApi) (allowlist : List String) (call : FetchCall) (url : Url) : Bool :=
  let web := match call.approval with
    | .noSession => none
    | _ => some allowlist
  let needsPrefixLookup := match call.permission with
    | some caps => caps.outboundUsesPrefixes
    | none => true
  needsPrefixLookup &&
    httpToolUrlAllowed api call.cfgPrefixes web call.permission url (storageKey api url)

def preflight (api : UrlApi) (allowlist : List String) (call : FetchCall) (url : Url) :
    Except FetchRefusal Clearance :=
  match httpNetGate api call.permission url (urlAllowed api allowlist call url) with
  | .allow => .ok .gate
  | .deny message => .error (.netDenied message)
  | .needApproval => (gateUrlApproval api call url).map .user

/-- A call whose request was sent, with the permanent approvals given before it. -/
structure SentCall where
  call : FetchCall
  url : Url
  clearance : Clearance
  approvedBefore : List (Option PermissionLevel × Url)
  request : SentRequest
  deriving DecidableEq

/-- A session: the allowlist, the permanent approvals behind it and the requests sent. -/
structure FetchSession where
  allowlist : List String
  approved : List (Option PermissionLevel × Url)
  sent : List SentCall
  deriving DecidableEq

namespace FetchSession

def new : FetchSession := ⟨[], [], []⟩

def step (api : UrlApi) (s : FetchSession) (call : FetchCall) : FetchSession :=
  match parseFetchUrl api call.url with
  | .error _ => s
  | .ok url =>
    match preflight api s.allowlist call url with
    | .error _ => s
    | .ok clearance =>
      let sent := s.sent ++ [⟨call, url, clearance, s.approved, send api [] url call.responses⟩]
      match clearance with
      | .user (some key) =>
        ⟨s.allowlist ++ [key], s.approved ++ [(call.permission.map (·.level), url)], sent⟩
      | _ => { s with sent := sent }

/-- Every permanent key comes from an approval. -/
def Known (api : UrlApi) (s : FetchSession) : Prop :=
  ∀ key ∈ s.allowlist, ∃ approval ∈ s.approved,
    key = scopedAllowlistKey approval.1 (storageKey api approval.2)

end FetchSession

/-- The prefixes in force; the unrestricted level counts as `*`. -/
def FetchCall.effectivePrefixes (call : FetchCall) : List String :=
  if call.permission.any NetCaps.outboundAllowsAny then ["*"]
  else prefixesInForce call.cfgPrefixes call.permission

namespace SentCall

/-- The user was asked and allowed the request. -/
def UserApproved (c : SentCall) : Prop :=
  (∃ key, c.clearance = .user key) ∧
    (c.call.approval = .decided .allowOnce ∨ c.call.approval = .decided .allowAlways)

/-- A permanent approval given before at this level covers the URL. -/
def ApprovedBefore (api : UrlApi) (c : SentCall) (url : Url) : Prop :=
  ∃ approval ∈ c.approvedBefore, approval.1 = c.call.permission.map (·.level) ∧
    storageKey api approval.2 = storageKey api url

/-- The gate's verdict on the URL of the call. -/
def Authorised (api : UrlApi) (c : SentCall) : Prop :=
  urlMatchesAllowedPrefixes api c.url c.call.effectivePrefixes = true ∨ c.UserApproved ∨
    c.ApprovedBefore api c.url

end SentCall

section Preflight

variable {api : UrlApi}

/-- The mark a level puts before its keys. -/
def levelMark (level : PermissionLevel) : List Char := ("l" ++ toString level.index ++ "|").toList

theorem levelMark_length (level : PermissionLevel) : (levelMark level).length = 3 := by
  cases level <;> decide

theorem levelMark_inj {level level' : PermissionLevel} (h : levelMark level = levelMark level') :
    level = level' := by
  revert h
  cases level <;> cases level' <;> decide

theorem scopedAllowlistKey_some (level : PermissionLevel) (key : String) :
    (scopedAllowlistKey (some level) key).toList = levelMark level ++ key.toList :=
  String.toList_append

theorem storageKey_ne_scoped (url : Url) (level : PermissionLevel) (key : String) :
    storageKey api url ≠ scopedAllowlistKey (some level) key := by
  intro h
  have hlist := congrArg String.toList h
  rw [scopedAllowlistKey_some, storageKey, String.toList_append] at hlist
  cases level <;> simp [levelMark] at hlist

theorem scopedAllowlistKey_inj {level level' : Option PermissionLevel} {url url' : Url}
    (h : scopedAllowlistKey level (storageKey api url) =
      scopedAllowlistKey level' (storageKey api url')) :
    level = level' ∧ storageKey api url = storageKey api url' := by
  cases level with
  | none =>
    cases level' with
    | none => exact ⟨rfl, h⟩
    | some level' => exact absurd h (storageKey_ne_scoped url level' _)
  | some level =>
    cases level' with
    | none => exact absurd h.symm (storageKey_ne_scoped url' level _)
    | some level' =>
      have hlist := congrArg String.toList h
      rw [scopedAllowlistKey_some, scopedAllowlistKey_some] at hlist
      obtain ⟨hmark, hkey⟩ := append_inj hlist (by rw [levelMark_length, levelMark_length])
      exact ⟨congrArg some (levelMark_inj hmark), String.toList_inj.mp hkey⟩

theorem urlMatches_any {url : Url} (h : url.isHttpOrHttps = true) :
    urlMatchesAllowedPrefixes api url ["*"] = true := by
  have htrim : RustStr.trimString "*" = "*" := by decide
  simp [urlMatchesAllowedPrefixes, prefixAllowsAnyHttpUrl, htrim, h]

theorem parseFetchUrl_http {raw : String} {url : Url} (h : parseFetchUrl api raw = .ok url) :
    url.isHttpOrHttps = true := by
  simp only [parseFetchUrl] at h
  split at h
  · cases h
  · split at h
    · cases h
    · split at h
      · next hhttp =>
        cases h
        exact hhttp
      · cases h

theorem httpToolUrlAllowed_cases {cfgPrefixes : List String} {web : Option (List String)}
    {permission : Option NetCaps} {url : Url} {key : String}
    (h : httpToolUrlAllowed api cfgPrefixes web permission url key = true) :
    urlMatchesAllowedPrefixes api url (prefixesInForce cfgPrefixes permission) = true ∨
      ∃ allowlist, web = some allowlist ∧
        scopedAllowlistKey (permission.map (·.level)) key ∈ allowlist := by
  unfold httpToolUrlAllowed at h
  split at h
  · next hmatch => exact .inl hmatch
  · split at h
    · next allowlist => exact .inr ⟨allowlist, rfl, of_decide_eq_true h⟩
    · cases h

theorem urlAllowed_cases {allowlist : List String} {call : FetchCall} {url : Url}
    (h : urlAllowed api allowlist call url = true) :
    urlMatchesAllowedPrefixes api url (prefixesInForce call.cfgPrefixes call.permission) = true ∨
      scopedAllowlistKey (call.permission.map (·.level)) (storageKey api url) ∈ allowlist := by
  unfold urlAllowed at h
  obtain hmatch | ⟨list, hweb, hkey⟩ := httpToolUrlAllowed_cases (Bool.and_eq_true_iff.mp h).2
  · exact .inl hmatch
  · split at hweb
    · cases hweb
    · cases hweb
      exact .inr hkey

theorem httpNetGate_allow {permission : Option NetCaps} {url : Url} {allowed : Bool}
    (h : httpNetGate api permission url allowed = .allow) :
    permission.any NetCaps.outboundAllowsAny = true ∨ allowed = true := by
  unfold httpNetGate at h
  split at h
  · split at h
    · next hallowed => exact .inr hallowed
    · cases h
  · split at h
    · cases h
    · split at h
      · next caps _ hany => exact .inl hany
      · split at h
        · next hallowed => exact .inr hallowed
        · split at h <;> cases h

/-- The gate lets a URL through by the level, by a prefix or by the allowlist. -/
theorem preflight_gate {allowlist : List String} {call : FetchCall} {url : Url}
    (hhttp : url.isHttpOrHttps = true) (h : preflight api allowlist call url = .ok .gate) :
    urlMatchesAllowedPrefixes api url call.effectivePrefixes = true ∨
      scopedAllowlistKey (call.permission.map (·.level)) (storageKey api url) ∈ allowlist := by
  have hallow : httpNetGate api call.permission url (urlAllowed api allowlist call url) = .allow := by
    unfold preflight at h
    split at h
    · next hgate => exact hgate
    · cases h
    · cases hround : gateUrlApproval api call url <;> rw [hround] at h <;> cases h
  unfold FetchCall.effectivePrefixes
  by_cases hany : call.permission.any NetCaps.outboundAllowsAny = true
  · rw [if_pos hany]
    exact .inl (urlMatches_any hhttp)
  · rw [if_neg hany]
    exact urlAllowed_cases ((httpNetGate_allow hallow).resolve_left hany)

/-- Otherwise the user allowed it, and a permanent approval leaves its key. -/
theorem preflight_user {allowlist : List String} {call : FetchCall} {url : Url}
    {key : Option String} (h : preflight api allowlist call url = .ok (.user key)) :
    call.approval = .decided .allowOnce ∧ key = none ∨
      call.approval = .decided .allowAlways ∧
        key = some (scopedAllowlistKey (call.permission.map (·.level)) (storageKey api url)) := by
  unfold preflight at h
  split at h
  · cases h
  · cases h
  · unfold gateUrlApproval at h
    split at h
    · cases h
    · cases h
    · cases h
    · next hround =>
      cases h
      exact .inl ⟨hround, rfl⟩
    · next hround =>
      cases h
      exact .inr ⟨hround, rfl⟩

end Preflight

namespace FetchSession

variable {api : UrlApi}

/-- Every request of the session began with an authorised URL and then followed its servers. -/
structure Good (api : UrlApi) (s : FetchSession) : Prop where
  known : s.Known api
  authorised : ∀ c ∈ s.sent, c.Authorised api
  requests : ∀ c ∈ s.sent, c.request = send api [] c.url c.call.responses

theorem step_good {s : FetchSession} (h : s.Good api) (call : FetchCall) :
    (s.step api call).Good api := by
  unfold step
  split
  · exact h
  · next url hparse =>
    have hhttp := parseFetchUrl_http hparse
    split
    · exact h
    · next clearance hpre =>
      have hauth : (⟨call, url, clearance, s.approved, send api [] url call.responses⟩ :
          SentCall).Authorised api := by
        cases clearance with
        | gate =>
          obtain hmatch | hkey := preflight_gate hhttp hpre
          · exact .inl hmatch
          · obtain ⟨approval, hmem, heq⟩ := h.known _ hkey
            obtain ⟨hlevel, hurl⟩ := scopedAllowlistKey_inj heq
            exact .inr (.inr ⟨approval, hmem, hlevel.symm, hurl.symm⟩)
        | user key =>
          refine .inr (.inl ⟨⟨key, rfl⟩, ?_⟩)
          exact (preflight_user hpre).imp And.left And.left
      have hsent : ∀ c ∈ s.sent ++ [(⟨call, url, clearance, s.approved,
          send api [] url call.responses⟩ : SentCall)],
          c.Authorised api ∧ c.request = send api [] c.url c.call.responses := by
        intro c hc
        obtain hold | hnew := mem_append.mp hc
        · exact ⟨h.authorised c hold, h.requests c hold⟩
        · rw [mem_singleton.mp hnew]
          exact ⟨hauth, rfl⟩
      split
      · next key =>
        obtain ⟨-, hnone⟩ | ⟨-, hkey⟩ := preflight_user hpre
        · cases hnone
        · refine ⟨fun k hk => ?_, fun c hc => (hsent c hc).1, fun c hc => (hsent c hc).2⟩
          obtain hold | hnew := mem_append.mp hk
          · obtain ⟨approval, hmem, heq⟩ := h.known k hold
            exact ⟨approval, mem_append_left _ hmem, heq⟩
          · refine ⟨_, mem_append_right _ (mem_singleton_self _), ?_⟩
            rw [mem_singleton.mp hnew]
            exact Option.some.inj hkey
      · exact ⟨h.known, fun c hc => (hsent c hc).1, fun c hc => (hsent c hc).2⟩

theorem run_good (api : UrlApi) (calls : List FetchCall) :
    (run (step api) new calls).Good api := by
  have hstep : ∀ s call, Good api s → Good api (step api s call) := fun _ call hs => step_good hs call
  exact invariant' hstep ⟨by simp [Known, new], by simp [new], by simp [new]⟩ calls

/-- In every session, the first URL a request contacts is the URL of the call, which a prefix in
force, the user's decision or an earlier permanent approval of the same level authorised. Each
later URL is the one the previous server redirected to; there are at most ten of them, and the
hops report them. -/
theorem requests_start_authorised (api : UrlApi) (calls : List FetchCall) (c : SentCall)
    (h : c ∈ (run (step api) new calls).sent) :
    c.request.contacted.head? = some c.url ∧ c.Authorised api ∧
      RedirectChain api c.call.responses c.request.contacted ∧
      c.request.contacted.length ≤ maxRedirects + 1 ∧
      c.request.hops.map Prod.snd = c.request.contacted.tail := by
  have hgood := run_good api calls
  rw [hgood.requests c h]
  exact ⟨send_head .., hgood.authorised c h, send_chain [] c.url _, send_length [] c.url _ (Nat.zero_le _),
    send_hops ..⟩

section Redirected

def docsUrl : Url := ⟨"https", "", none, some "docs.example.com", none, "/guide", none, none⟩

def metadataUrl : Url := ⟨"http", "", none, some "169.254.169.254", none, "/latest", none, none⟩

/-- Parsing, printing and redirects on the two URLs. -/
def twoUrls : UrlApi where
  parse raw :=
    if raw = "https://docs.example.com/guide" then some docsUrl
    else if raw = "https://docs.example.com/" then some { docsUrl with path := "/" }
    else if raw = "http://169.254.169.254/latest" then some metadataUrl
    else none
  asStr url := url.scheme ++ "://" ++ url.host.getD "" ++ url.path
  origin url := url.scheme ++ "://" ++ url.host.getD ""
  redirectTarget _ response :=
    if response.status = 302 ∧ response.location = some "http://169.254.169.254/latest" then
      some metadataUrl
    else none

/-- The docs server redirects to the metadata service. -/
def redirectedCall : FetchCall :=
  ⟨"https://docs.example.com/guide", .get, ["https://docs.example.com/"],
    some (projectCaps .workspace ["https://docs.example.com/"]), .noSession,
    [⟨302, some "http://169.254.169.254/latest"⟩, ⟨200, none⟩]⟩

theorem requests_start_authorised_redirectedCall :
    ∃ c ∈ (run (step twoUrls) new [redirectedCall]).sent,
      c.request.contacted = [docsUrl, metadataUrl] ∧ c.Authorised twoUrls := by
  refine ⟨⟨redirectedCall, docsUrl, .gate, [], ⟨[docsUrl, metadataUrl], [(302, metadataUrl)],
    .ok (metadataUrl, ⟨200, none⟩)⟩⟩, by decide +kernel, rfl, ?_⟩
  exact (requests_start_authorised twoUrls [redirectedCall] _ (by decide +kernel)).2.1

/-- A redirect leaves the allowed prefixes, and nobody approved its target. -/
theorem redirect_contacts_unauthorised :
    ¬ ∀ (api : UrlApi) (calls : List FetchCall), ∀ c ∈ (run (step api) new calls).sent,
      ∀ url ∈ c.request.contacted,
        urlMatchesAllowedPrefixes api url c.call.effectivePrefixes = true ∨
          c.UserApproved ∧ url = c.url ∨ c.ApprovedBefore api url := by
  intro h
  have hmeta := h twoUrls [redirectedCall] ⟨redirectedCall, docsUrl, .gate, [],
    ⟨[docsUrl, metadataUrl], [(302, metadataUrl)], .ok (metadataUrl, ⟨200, none⟩)⟩⟩
    (by decide +kernel) metadataUrl (by decide)
  obtain hmatch | ⟨⟨⟨key, hkey⟩, -⟩, -⟩ | ⟨approval, happroval, -⟩ := hmeta
  · revert hmatch
    decide +kernel
  · cases hkey
  · cases happroval

end Redirected

end FetchSession
end CrabMate
