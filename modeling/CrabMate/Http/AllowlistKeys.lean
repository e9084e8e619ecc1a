import CrabMate.Http.Fetch
import CrabMate.Lib.Decimal
import CrabMate.Lib.Separated

/-! The keys under which permanent approvals are remembered, and what two requests with one key
have in common. -/
namespace CrabMate
open Decimal List

inductive RequestMethod where
  | post
  | put
  | patch
  | delete
  deriving DecidableEq

def RequestMethod.asStr : RequestMethod → String
  | .post => "POST"
  | .put => "PUT"
  | .patch => "PATCH"
  | .delete => "DELETE"

/-- Unlike the key of `http_fetch` it has the method. -/
def requestStorageKey (api : UrlApi) (method : RequestMethod) (url : Url) : String :=
  "http_request:" ++ method.asStr ++ ":" ++
    (api.asStr { url with query := none, fragment := none }).toLower

/-- What a person approves for good. -/
inductive ApprovalSubject where
  | command (cmd : String)
  | fetch (method : FetchMethod) (url : Url)
  | request (method : RequestMethod) (url : Url)
  deriving DecidableEq

/-- `toLowercase` is the one of `str`, with the Unicode tables. -/
def ApprovalSubject.key (api : UrlApi) (toLowercase : String → String) :
    ApprovalSubject → String
  | command cmd => toLowercase cmd
  | fetch _ url => storageKey api url
  | request method url => requestStorageKey api method url

section Serialise

open Url

/-- The serialiser of the URL standard. -/
def Url.userinfo (u : Url) : List Char :=
  let password := (u.password.getD "").toList
  if u.username.toList = [] ∧ password = [] then []
  else u.username.toList ++ (if password = [] then [] else ':' :: password) ++ ['@']

def Url.portText (u : Url) : List Char :=
  match u.port with
  | none => []
  | some p => ':' :: Nat.toDigits 10 p

def Url.authority (u : Url) : List Char :=
  u.userinfo ++ ((u.host.getD "").toList ++ u.portText)

def Url.serialize (u : Url) : List Char :=
  u.scheme.toList ++ ':' :: '/' :: '/' :: (u.authority ++ u.path.toList ++
    ((u.query.map fun q => '?' :: q.toList).getD [] ++
      (u.fragment.map fun f => '#' :: f.toList).getD []))

/-- What parsing makes of an `http` or `https` URL: the user's name and password and the host are
free of the separators, the host is in lower case, and colons in it stand between brackets. -/
structure Url.Standard (u : Url) : Prop where
  scheme : u.scheme = "http" ∨ u.scheme = "https"
  username : '/' ∉ u.username.toList ∧ '@' ∉ u.username.toList
  password : ∀ p ∈ u.password, '/' ∉ p.toList ∧ '@' ∉ p.toList
  host : ∃ h, u.host = some h ∧ '/' ∉ h.toList ∧ '@' ∉ h.toList ∧
    (':' ∈ h.toList → h.toList.getLast? = some ']') ∧ h.toList.map Char.toLower = h.toList
  path : ∃ rest, u.path.toList = '/' :: rest

/-- The crate serialises URLs as the standard says. -/
def UrlApi.Serialises (api : UrlApi) : Prop :=
  ∀ u : Url, u.Standard → (api.asStr u).toList = u.serialize

end Serialise

section Lower

variable {c d : Char} {xs ys : List Char}

theorem eq_of_toLower (hd : d.val < 'a'.val) (h : c.toLower = d) : c = d := by
  delta Char.toLower at h
  split at h
  · next hupper =>
    exfalso
    have hval := congrArg Char.val h
    have hlo := UInt32.le_iff_toNat_le.mp hupper.1
    have hhi := UInt32.le_iff_toNat_le.mp hupper.2
    have hlt := UInt32.lt_iff_toNat_lt.mp hd
    have hsum := congrArg UInt32.toNat hval
    have hA : 'A'.val.toNat = 65 := rfl
    have hZ : 'Z'.val.toNat = 90 := rfl
    have ha : 'a'.val.toNat = 97 := rfl
    have hdiff : ('a'.val - 'A'.val).toNat = 32 := rfl
    simp only [UInt32.toNat_add, hdiff] at hsum
    omega
  · exact h

theorem notMem_lower (hd : d.val < 'a'.val) (h : d ∉ xs) : d ∉ xs.map Char.toLower := by
  intro hmem
  obtain ⟨c, hc, hlower⟩ := mem_map.mp hmem
  exact h (eq_of_toLower hd hlower ▸ hc)

theorem lower_toDigits (n : ℕ) : (Nat.toDigits 10 n).map Char.toLower = Nat.toDigits 10 n := by
  refine (map_congr_left fun c hc => ?_).trans (map_id _)
  have hdigit := Nat.isDigit_of_mem_toDigits (by decide) (Nat.le_refl 10) hc
  simp only [Char.isDigit, Bool.and_eq_true, decide_eq_true_eq] at hdigit
  have hhi := UInt32.le_iff_toNat_le.mp hdigit.2
  delta Char.toLower
  rw [dif_neg]
  · rfl
  · intro hupper
    have hlo := UInt32.le_iff_toNat_le.mp hupper.1
    have hA : 'A'.val.toNat = 65 := rfl
    have h9 : '9'.val.toNat = 57 := rfl
    omega

end Lower

section Cut

variable {u v : Url}

theorem mem_userinfo {c : Char} (h : c ∈ u.userinfo) :
    c ∈ u.username.toList ∨ c = ':' ∨ (∃ p ∈ u.password, c ∈ p.toList) ∨ c = '@' := by
  unfold Url.userinfo at h
  cases hp : u.password with
  | none =>
    simp only [hp, Option.getD_none] at h
    split at h
    · cases h
    · simp at h
      tauto
  | some p =>
    simp only [hp, Option.getD_some] at h
    split at h
    · cases h
    · rcases mem_append.mp h with h | h
      · rcases mem_append.mp h with h | h
        · exact .inl h
        · split at h
          · cases h
          · rcases mem_cons.mp h with h | h
            · exact .inr (.inl h)
            · exact .inr (.inr (.inl ⟨p, rfl, h⟩))
      · exact .inr (.inr (.inr (mem_singleton.mp h)))

theorem slash_notMem_userinfo (h : u.Standard) : '/' ∉ u.userinfo := by
  intro hmem
  rcases mem_userinfo hmem with hm | hm | ⟨p, hp, hm⟩ | hm
  · exact h.username.1 hm
  · cases hm
  · exact (h.password p hp).1 hm
  · cases hm

theorem userinfo_cases (h : u.Standard) :
    u.userinfo = [] ∨ ∃ w, u.userinfo = w ++ ['@'] ∧ '@' ∉ w := by
  unfold Url.userinfo
  dsimp only
  split
  · exact .inl rfl
  · refine .inr ⟨_, rfl, fun hmem => ?_⟩
    rcases mem_append.mp hmem with hm | hm
    · exact h.username.2 hm
    · split at hm
      · cases hm
      · rcases mem_cons.mp hm with hm | hm
        · cases hm
        · cases hp : u.password with
          | none => rw [hp] at hm; cases hm
          | some p =>
            rw [hp] at hm
            exact (h.password p hp).2 hm

theorem portText_cases (u : Url) :
    (u.port = none ∧ u.portText = []) ∨
      ∃ p, u.port = some p ∧ u.portText = ':' :: Nat.toDigits 10 p := by
  unfold Url.portText
  cases u.port with
  | none => exact .inl ⟨rfl, rfl⟩
  | some p => exact .inr ⟨p, rfl, rfl⟩

theorem notMem_portText {c : Char} (hc : c ≠ ':') (hd : c.isDigit = false) : c ∉ u.portText := by
  rcases portText_cases u with ⟨-, h⟩ | ⟨p, -, h⟩
  · rw [h]
    exact not_mem_nil
  · rw [h]
    exact fun hmem => (mem_cons.mp hmem).elim hc (notMem_toDigits p hd)

theorem lower_portText (u : Url) : u.portText.map Char.toLower = u.portText := by
  rcases portText_cases u with ⟨-, h⟩ | ⟨p, -, h⟩
  · rw [h]
    rfl
  · rw [h, map_cons, lower_toDigits]
    rfl

/-- A port is told from the host before it: a host with colons ends in a bracket. -/
theorem host_port_inj {host host' : List Char}
    (hh : ':' ∈ host → host.getLast? = some ']') (hh' : ':' ∈ host' → host'.getLast? = some ']')
    (h : host ++ u.portText = host' ++ v.portText) : host = host' ∧ u.port = v.port := by
  -- A bare host that were a host with a port would end in a digit.
  have hbare : ∀ (h₁ h₂ : List Char) (p : ℕ), (':' ∈ h₁ → h₁.getLast? = some ']') →
      h₁ ≠ h₂ ++ ':' :: Nat.toDigits 10 p := by
    rintro h₁ h₂ p hlast rfl
    have hend := hlast (mem_append_right _ mem_cons_self)
    have hmem : ']' ∈ Nat.toDigits 10 p := by
      rw [getLast?_append_cons, getLast?_cons] at hend
      cases hdigits : (Nat.toDigits 10 p).getLast? with
      | none => exact absurd (getLast?_eq_none_iff.mp hdigits) Nat.toDigits_ne_nil
      | some c =>
        rw [hdigits] at hend
        cases hend
        exact mem_of_getLast? hdigits
    exact notMem_toDigits p rfl hmem
  rcases portText_cases u with ⟨hu, htu⟩ | ⟨p, hu, htu⟩
  all_goals rcases portText_cases v with ⟨hv, htv⟩ | ⟨q, hv, htv⟩
  · rw [htu, htv, append_nil, append_nil] at h
    exact ⟨h, hu.trans hv.symm⟩
  · rw [htu, htv, append_nil] at h
    exact absurd h (hbare _ _ q hh)
  · rw [htu, htv, append_nil] at h
    exact absurd h.symm (hbare _ _ p hh')
  · rw [htu, htv] at h
    have hcolon : ∀ n, ':' ∉ Nat.toDigits 10 n := fun n => notMem_toDigits n rfl
    obtain ⟨hhost, hdigits⟩ := cut_last_inj (hcolon p) (hcolon q) h
    exact ⟨hhost, by rw [hu, hv, toDigits_ten_inj hdigits]⟩

theorem slash_notMem_authority (h : u.Standard) : '/' ∉ u.authority := by
  obtain ⟨host, hhost, hslash, -, -, -⟩ := h.host
  rw [Url.authority, hhost, Option.getD_some]
  intro hmem
  rcases mem_append.mp hmem with hm | hm
  · exact slash_notMem_userinfo h hm
  · rcases mem_append.mp hm with hm | hm
    · exact hslash hm
    · exact notMem_portText (by decide) rfl hm

/-- Authorities that agree up to case have one host and one port. -/
theorem authority_inj (hu : u.Standard) (hv : v.Standard)
    (h : u.authority.map Char.toLower = v.authority.map Char.toLower) :
    u.host = v.host ∧ u.port = v.port := by
  obtain ⟨host, hhost, -, hat, hlast, hlow⟩ := hu.host
  obtain ⟨host', hhost', -, hat', hlast', hlow'⟩ := hv.host
  have htail : host.toList ++ u.portText = host'.toList ++ v.portText := by
    have hnone : ∀ (w : Url) (g : String), '@' ∉ g.toList → '@' ∉ g.toList ++ w.portText := by
      intro w g hg hmem
      rcases mem_append.mp hmem with hm | hm
      · exact hg hm
      · exact notMem_portText (by decide) rfl hm
    simp only [Url.authority, hhost, hhost', Option.getD_some, map_append, hlow, hlow',
      lower_portText] at h
    rcases userinfo_cases hu with hinfo | ⟨w, hinfo, hw⟩
    all_goals rcases userinfo_cases hv with hinfo' | ⟨w', hinfo', hw'⟩
    · rwa [hinfo, hinfo'] at h
    · rw [hinfo, hinfo', map_append] at h
      exact absurd (h ▸ mem_append_left _ (mem_append_right _ mem_cons_self))
        (hnone u host hat)
    · rw [hinfo, hinfo', map_append] at h
      exact absurd (h ▸ mem_append_left _ (mem_append_right _ mem_cons_self))
        (hnone v host' hat')
    · rw [hinfo, hinfo', map_append, map_append, append_assoc,
        append_assoc] at h
      exact (cut_first_inj (notMem_lower (by decide) hw) (notMem_lower (by decide) hw') h).2
  obtain ⟨heq, hport⟩ := host_port_inj hlast hlast' htail
  exact ⟨by rw [hhost, hhost', String.toList_inj.mp heq], hport⟩

/-- URLs whose texts agree up to case have one scheme, host and port, and paths that agree up to
case. -/
theorem serialize_inj (hu : u.Standard) (hv : v.Standard) (hq : u.query = none)
    (hf : u.fragment = none) (hq' : v.query = none) (hf' : v.fragment = none)
    (h : u.serialize.map Char.toLower = v.serialize.map Char.toLower) :
    u.scheme = v.scheme ∧ u.host = v.host ∧ u.port = v.port ∧
      u.path.toList.map Char.toLower = v.path.toList.map Char.toLower := by
  obtain ⟨rest, hpath⟩ := hu.path
  obtain ⟨rest', hpath'⟩ := hv.path
  have htext : ∀ w : Url, w.query = none → w.fragment = none →
      w.serialize.map Char.toLower = w.scheme.toList.map Char.toLower ++ ':' :: '/' :: '/' ::
        (w.authority.map Char.toLower ++ w.path.toList.map Char.toLower) := by
    intro w hq hf
    simp [Url.serialize, hq, hf]
  have hcolon : ∀ w : Url, w.Standard → ':' ∉ w.scheme.toList := by
    intro w hw
    rcases hw.scheme with hs | hs <;> rw [hs] <;> decide
  rw [htext u hq hf, htext v hq' hf'] at h
  obtain ⟨hscheme, hrest⟩ := cut_first_inj (notMem_lower (by decide) (hcolon u hu))
    (notMem_lower (by decide) (hcolon v hv)) h
  have hrest := (List.cons.inj (List.cons.inj hrest).2).2
  rw [hpath, hpath', map_cons, map_cons] at hrest ⊢
  have hslash : Char.toLower '/' = '/' := by decide
  rw [hslash] at hrest ⊢
  obtain ⟨hauth, hpaths⟩ := cut_first_inj
    (notMem_lower (by decide) (slash_notMem_authority hu))
    (notMem_lower (by decide) (slash_notMem_authority hv)) hrest
  obtain ⟨hhost, hport⟩ := authority_inj hu hv hauth
  refine ⟨?_, hhost, hport, congrArg _ hpaths⟩
  rcases hu.scheme with hs | hs <;> rcases hv.scheme with hs' | hs' <;> rw [hs, hs'] at hscheme ⊢
  all_goals exact absurd hscheme (by decide)

end Cut

section Keys

variable {api : UrlApi} {toLowercase : String → String} {u v : Url}

/-- The same scheme, host and port, and the same path up to case. -/
def Url.SameTarget (u v : Url) : Prop :=
  u.scheme = v.scheme ∧ u.host = v.host ∧ u.portOrKnownDefault = v.portOrKnownDefault ∧
    u.path.toList.map Char.toLower = v.path.toList.map Char.toLower

/-- What one remembered approval may stand for. -/
def ApprovalSubject.SameResource (toLowercase : String → String) :
    ApprovalSubject → ApprovalSubject → Prop
  | .command c, .command d => toLowercase c = toLowercase d
  | .fetch _ u, .fetch _ v => u.SameTarget v
  | .request m u, .request n v => m = n ∧ u.SameTarget v
  | _, _ => False

def ApprovalSubject.Standard : ApprovalSubject → Prop
  | .command _ => True
  | .fetch _ u | .request _ u => u.Standard

/-- The text of a command begins like another kind of key. -/
def ReservedText (level : Option PermissionLevel) (text : List Char) : Prop :=
  "http_fetch:".toList <+: text ∨ "http_request:".toList <+: text ∨
    (level = none ∧ ∃ l, levelMark l <+: text)

theorem stripped_standard (h : u.Standard) :
    ({ u with query := none, fragment := none } : Url).Standard :=
  ⟨h.scheme, h.username, h.password, h.host, h.path⟩

theorem sameTarget_of_text (hapi : api.Serialises) (hu : u.Standard) (hv : v.Standard)
    (h : (api.asStr { u with query := none, fragment := none }).toLower =
      (api.asStr { v with query := none, fragment := none }).toLower) : u.SameTarget v := by
  have hlist := congrArg String.toList h
  change ((api.asStr _).map Char.toLower).toList = ((api.asStr _).map Char.toLower).toList at hlist
  rw [String.toList_map, String.toList_map, hapi _ (stripped_standard hu),
    hapi _ (stripped_standard hv)] at hlist
  obtain ⟨hscheme, hhost, hport, hpath⟩ := serialize_inj (stripped_standard hu)
    (stripped_standard hv) rfl rfl rfl rfl hlist
  refine ⟨hscheme, hhost, ?_, hpath⟩
  have hport' : u.port = v.port := hport
  have hscheme' : u.scheme = v.scheme := hscheme
  rw [Url.portOrKnownDefault, Url.portOrKnownDefault, hport', hscheme']

/-- The text of a URL as it stands in a key. -/
def keyText (api : UrlApi) (u : Url) : List Char :=
  (api.asStr { u with query := none, fragment := none }).toLower.toList

theorem toList_fetchKey (api : UrlApi) (u : Url) :
    (storageKey api u).toList = "http_fetch:".toList ++ keyText api u := String.toList_append

theorem toList_requestKey (api : UrlApi) (m : RequestMethod) (u : Url) :
    (requestStorageKey api m u).toList =
      "http_request:".toList ++ (m.asStr.toList ++ ':' :: keyText api u) := by
  delta requestStorageKey keyText
  simp

theorem methodText_inj {m n : RequestMethod} {xs ys : List Char}
    (h : m.asStr.toList ++ ':' :: xs = n.asStr.toList ++ ':' :: ys) : m = n ∧ xs = ys := by
  have hcolon : ∀ k : RequestMethod, ':' ∉ k.asStr.toList := by
    intro k
    cases k <;> decide
  obtain ⟨htext, hrest⟩ := cut_first_inj (hcolon m) (hcolon n) h
  refine ⟨?_, hrest⟩
  revert htext
  cases m <;> cases n <;> decide

/-- The keys of URLs begin differently, and with no mark of a level. -/
theorem key_apart (m : RequestMethod) (u v : Url) :
    storageKey api u ≠ requestStorageKey api m v ∧
      (∀ l xs, (storageKey api u).toList ≠ levelMark l ++ xs) ∧
      ∀ l xs, (requestStorageKey api m v).toList ≠ levelMark l ++ xs := by
  refine ⟨fun h => ?_, fun l xs h => ?_, fun l xs h => ?_⟩
  · have hlist := congrArg String.toList h
    rw [toList_fetchKey, toList_requestKey] at hlist
    simp at hlist
  · rw [toList_fetchKey] at h
    cases l <;> simp [levelMark] at h
  · rw [toList_requestKey] at h
    cases l <;> simp [levelMark] at h

/-- One plain key means one resource, unless a command is spelled like the key of a URL. -/
theorem key_inj (hapi : api.Serialises) {s t : ApprovalSubject} (hs : s.Standard)
    (ht : t.Standard) {p q : Option PermissionLevel}
    (hsText : ∀ cmd, s = .command cmd → ¬ ReservedText p (toLowercase cmd).toList)
    (htText : ∀ cmd, t = .command cmd → ¬ ReservedText q (toLowercase cmd).toList)
    (h : s.key api toLowercase = t.key api toLowercase) : s.SameResource toLowercase t := by
  have hlist := congrArg String.toList h
  cases s with
  | command c =>
    cases t with
    | command d => exact h
    | fetch n v =>
      exact absurd (.inl ⟨_, (hlist.trans (toList_fetchKey api v)).symm⟩) (hsText c rfl)
    | request n v =>
      exact absurd (.inr (.inl ⟨_, (hlist.trans (toList_requestKey api n v)).symm⟩)) (hsText c rfl)
  | fetch m u =>
    cases t with
    | command d =>
      exact absurd (.inl ⟨_, (hlist.symm.trans (toList_fetchKey api u)).symm⟩) (htText d rfl)
    | fetch n v =>
      have htext := (toList_fetchKey api u).symm.trans (hlist.trans (toList_fetchKey api v))
      exact sameTarget_of_text hapi hs ht (String.toList_inj.mp (append_cancel_left htext))
    | request n v => exact absurd h (key_apart n u v).1
  | request m u =>
    cases t with
    | command d =>
      exact absurd (.inr (.inl ⟨_, (hlist.symm.trans (toList_requestKey api m u)).symm⟩))
        (htText d rfl)
    | fetch n v => exact absurd h.symm (key_apart m v u).1
    | request n v =>
      have htext := (toList_requestKey api m u).symm.trans
        (hlist.trans (toList_requestKey api n v))
      obtain ⟨hmethod, hrest⟩ := methodText_inj (append_cancel_left htext)
      exact ⟨hmethod, sameTarget_of_text hapi hs ht (String.toList_inj.mp hrest)⟩

/-- Only a command spelled like a mark has a plain key that looks marked. -/
theorem key_unmarked {s : ApprovalSubject}
    (hsText : ∀ cmd, s = .command cmd → ¬ ReservedText none (toLowercase cmd).toList)
    (l : PermissionLevel) (key : String) :
    s.key api toLowercase ≠ scopedAllowlistKey (some l) key := by
  intro h
  have hlist := congrArg String.toList h
  rw [scopedAllowlistKey_some] at hlist
  cases s with
  | command c => exact hsText c rfl (.inr (.inr ⟨rfl, l, _, hlist.symm⟩))
  | fetch m u => exact (key_apart .post u u).2.1 l _ hlist
  | request m u => exact (key_apart m u u).2.2 l _ hlist

/-- Two approvals remembered under one key were given at one level for one resource, where paths
count up to case; a command spelled like another kind of key is left out. -/
theorem allowlistKey_sound (hapi : api.Serialises) {s t : ApprovalSubject} (hs : s.Standard)
    (ht : t.Standard) {p q : Option PermissionLevel}
    (hsText : ∀ cmd, s = .command cmd → ¬ ReservedText p (toLowercase cmd).toList)
    (htText : ∀ cmd, t = .command cmd → ¬ ReservedText q (toLowercase cmd).toList)
    (h : scopedAllowlistKey p (s.key api toLowercase) =
      scopedAllowlistKey q (t.key api toLowercase)) :
    p = q ∧ s.SameResource toLowercase t := by
  cases p with
  | none =>
    cases q with
    | none => exact ⟨rfl, key_inj hapi hs ht hsText htText h⟩
    | some l => exact absurd h (key_unmarked hsText l _)
  | some l =>
    cases q with
    | none => exact absurd h.symm (key_unmarked htText l _)
    | some l' =>
      have hlist := congrArg String.toList h
      rw [scopedAllowlistKey_some, scopedAllowlistKey_some] at hlist
      obtain ⟨hmark, hkey⟩ := append_inj hlist (by rw [levelMark_length, levelMark_length])
      exact ⟨congrArg some (levelMark_inj hmark),
        key_inj hapi hs ht hsText htText (String.toList_inj.mp hkey)⟩

end Keys

section Examples

/-- A crate that serialises as the standard says. -/
def standardApi : UrlApi where
  parse _ := none
  asStr u := String.ofList u.serialize
  origin _ := ""
  redirectTarget _ _ := none

theorem standardApi_serialises : standardApi.Serialises := fun _ _ => String.toList_ofList

def exampleUrl (path : String) : Url :=
  ⟨"https", "", none, some "example.org", none, path, none, none⟩

theorem exampleUrl_standard (rest : List Char) :
    (exampleUrl (String.ofList ('/' :: rest))).Standard where
  scheme := .inr rfl
  username := ⟨not_mem_nil, not_mem_nil⟩
  password := fun p hp => nomatch hp
  host := ⟨"example.org", rfl, by decide, by decide, by decide, by decide⟩
  path := ⟨rest, String.toList_ofList⟩

theorem keyText_example (rest : List Char) :
    keyText standardApi (exampleUrl (String.ofList ('/' :: rest))) =
      "https://example.org/".toList ++ rest.map Char.toLower := by
  have htext : (exampleUrl (String.ofList ('/' :: rest))).serialize =
      "https://example.org/".toList ++ rest := by
    simp [Url.serialize, Url.authority, Url.userinfo, Url.portText, exampleUrl]
  have hlower : "https://example.org/".toList.map Char.toLower = "https://example.org/".toList := by
    decide
  have hkey : keyText standardApi (exampleUrl (String.ofList ('/' :: rest))) =
      ((String.ofList (exampleUrl (String.ofList ('/' :: rest))).serialize).map
        Char.toLower).toList := rfl
  rw [hkey, String.toList_map, String.toList_ofList, htext, map_append, hlower]

theorem allowlistKey_sound_methods :
    (ApprovalSubject.fetch .get (exampleUrl "/a")).SameResource id
      (.fetch .head (exampleUrl "/a")) := by
  have hs : (ApprovalSubject.fetch .get (exampleUrl "/a")).Standard := exampleUrl_standard ['a']
  have ht : (ApprovalSubject.fetch .head (exampleUrl "/a")).Standard := exampleUrl_standard ['a']
  exact (allowlistKey_sound (p := none) (q := none) standardApi_serialises hs ht
    (fun cmd h => nomatch h) (fun cmd h => nomatch h) rfl).2

/-- Paths that differ in case alone share their keys. -/
theorem not_storageKey_keeps_path :
    ¬ ∀ api : UrlApi, api.Serialises → ∀ u v : Url, u.Standard → v.Standard →
      storageKey api u = storageKey api v → u.path = v.path := by
  intro h
  have hsame : storageKey standardApi (exampleUrl "/A") =
      storageKey standardApi (exampleUrl "/a") := by
    refine String.toList_inj.mp ?_
    rw [toList_fetchKey, toList_fetchKey]
    exact congrArg _ ((keyText_example ['A']).trans (keyText_example ['a']).symm)
  have hpath := h standardApi standardApi_serialises (exampleUrl "/A") (exampleUrl "/a")
    (exampleUrl_standard ['A']) (exampleUrl_standard ['a']) hsame
  revert hpath
  decide

end Examples
end CrabMate
