import Mineru.Ooxml.Preflight
import Mineru.Stems.Canonical
import Mineru.Vlm.Clean

/-!
# The URLs of a submitted task

`OriginFingerprint`, `raw_authority` and the checks of `http.rs` on the URLs that the server returns for
a task. `url::Url::parse` is a parameter; the code reads the text of a URL a second time by hand.
-/

set_option autoImplicit false

namespace Mineru.Remote

open Ooxml (rsplitOnce)
open Vlm (splitOnce)

/-- `url::Host`; an address is its number. -/
inductive Host where
  | domain (name : Text)
  | ipv4 (address : Nat)
  | ipv6 (address : Nat)
  deriving DecidableEq, Repr

/-- What the code asks of a `url::Url`. -/
structure Url where
  scheme : Text
  username : Text
  password : Option Text
  host : Option Host
  port : Option Nat
  query : Option Text
  fragment : Option Text
  deriving DecidableEq, Repr

/-- `Url::port_or_known_default`, for the schemes that pass the checks. -/
def Url.portOrKnownDefault (url : Url) : Option Nat :=
  url.port.or (if url.scheme = text "http" then some 80
    else if url.scheme = text "https" then some 443 else none)

/-- The test of the scheme. -/
def Url.isHttp (url : Url) : Bool := url.scheme = text "http" || url.scheme = text "https"

structure RawAuthority where
  hasUserinfo : Bool
  explicitPort : Option Text
  deriving DecidableEq, Repr

/-- The pattern of the `split` in `raw_authority`. -/
def endsAuthority (c : Char) : Bool := c = '/' || c = '?' || c = '#'

/-- The port of `raw_authority`; `none` is a bracket that is not closed. -/
def rawPort (hostPort : Text) : Option (Option Text) :=
  if hostPort.head? = some '[' then
    (splitOnce [']'] hostPort).map fun (_, rest) => if rest.head? = some ':' then some rest.tail else none
  else some ((rsplitOnce [':'] hostPort).map Prod.snd)

/-- What `raw_authority` reads in the text of an authority. -/
def scanAuthority (authority : Text) : Option RawAuthority :=
  if authority = [] then none
  else
    (rawPort (((rsplitOnce ['@'] authority).map Prod.snd).getD authority)).map fun explicitPort =>
      ⟨'@' ∈ authority, explicitPort⟩

/-- `raw_authority`: the first `://` is looked for in the whole text. -/
def rawAuthority (value : Text) : Option RawAuthority :=
  (splitOnce (text "://") value).bind fun (_, rest) =>
    scanAuthority (rest.takeWhile fun c => !endsAuthority c)

structure OriginFingerprint where
  parsed : Url
  requestPort : Option Text
  deriving DecidableEq, Repr

/-- `normalize_api_url`. -/
def normalizeApiUrl (url : Text) : Text := Stems.trimEndMatches (· = '/') url

def invalidApiUrl : String := "invalid API URL"

/-- The origin that `with_connect_timeout` keeps of a base URL. -/
def configuredOrigin (parse : Text → Option Url) (baseUrl : Text) : Except String OriginFingerprint :=
  let base := normalizeApiUrl baseUrl
  if base = [] then .error "API URL is empty"
  else match rawAuthority base, parse base with
    | some authority, some parsed =>
      if authority.hasUserinfo || !parsed.isHttp || parsed.host.isNone || parsed.query.isSome ||
        parsed.fragment.isSome then .error invalidApiUrl
      else .ok ⟨parsed, parsed.port.map fun port => (toString port).toList⟩
    | _, _ => .error invalidApiUrl

/-- `invalid_task_url`. -/
def invalidTaskUrl (name : String) : String :=
  "invalid submission payload: " ++ name ++ " must be an absolute same-origin URL"

/-- `same_origin`. -/
def sameOrigin (base url : Url) : Bool :=
  url.scheme = base.scheme && url.host = base.host &&
    url.portOrKnownDefault = base.portOrKnownDefault

/-- `parse_task_url`. -/
def parseTaskUrl (parse : Text → Option Url) (value : Text) (name : String) : Except String Url :=
  match rawAuthority value, parse value with
  | some authority, some url =>
    if authority.hasUserinfo || !url.isHttp || url.host.isNone then .error (invalidTaskUrl name)
    else .ok url
  | _, _ => .error (invalidTaskUrl name)

/-- `validate_task_url`. -/
def validateTaskUrl (parse : Text → Option Url) (base : Url) (value : Text) (name : String) :
    Except String Url := do
  let url ← parseTaskUrl parse value name
  if sameOrigin base url then .ok url else .error (invalidTaskUrl name)

/-- The text with the scheme `https`: what stands from the first colon on is kept. -/
def upgraded (value : Text) : Text := text "https" ++ value.dropWhile (· ≠ ':')

/-- `canonicalize_submitted_task_url`. -/
def canonicalizeSubmittedTaskUrl (parse : Text → Option Url) (origin : OriginFingerprint) (value : Text)
    (name : String) : Except String Text := do
  let url ← parseTaskUrl parse value name
  if sameOrigin origin.parsed url then .ok value
  else
    let returnedPort := (rawAuthority value).bind RawAuthority.explicitPort
    if origin.parsed.scheme ≠ text "https" || url.scheme ≠ text "http" || origin.parsed.host ≠ url.host ||
      origin.requestPort ≠ returnedPort then .error (invalidTaskUrl name)
    else if ':' ∉ value then .error (invalidTaskUrl name)
    else do
      let upgradedUrl ← parseTaskUrl parse (upgraded value) name
      if sameOrigin origin.parsed upgradedUrl then .ok (upgraded value)
      else .error (invalidTaskUrl name)

/-- The members that `canonicalize_submit_response` changes. -/
structure TaskUrls where
  statusUrl : Text
  resultUrl : Text
  deriving DecidableEq, Repr

/-- `canonicalize_submit_response`. -/
def canonicalizeSubmitResponse (parse : Text → Option Url) (origin : OriginFingerprint)
    (response : TaskUrls) : Except String TaskUrls := do
  let statusUrl ← canonicalizeSubmittedTaskUrl parse origin response.statusUrl "status_url"
  let resultUrl ← canonicalizeSubmittedTaskUrl parse origin response.resultUrl "result_url"
  .ok ⟨statusUrl, resultUrl⟩

end Mineru.Remote
