import NeemataProxy.Router.Config

/-!
# What the router reads from a request (`src/router.rs`)

A session holds what Pingora and the `http` crate hand over: the request header, whose fields have lower-case
names and raw values, and the answers of the functions of Pingora that the router calls on it.
-/

namespace NeemataProxy.Routing

open Lib

/-! ## URIs -/

/-- The path and query of a URI; `path` holds no `?`. -/
structure PathAndQuery where
  path : Str
  query : Option Str
  path_ok : '?' ∉ path

theorem root_path_ok : '?' ∉ ['/'] := by decide

/-- `PathAndQuery::as_str`. -/
def PathAndQuery.asStr (pq : PathAndQuery) : Str :=
  match pq.query with
  | some q => pq.path ++ '?' :: q
  | none => if pq.path = [] then ['/'] else pq.path

/-- `PathAndQuery::path`. -/
def PathAndQuery.pathStr (pq : PathAndQuery) : Str := if pq.path = [] then ['/'] else pq.path

structure Uri where
  scheme : Option Str
  authority : Option Str
  pathAndQuery : Option PathAndQuery

/-- `Uri::path`. -/
def Uri.path (uri : Uri) : Str :=
  match uri.pathAndQuery with
  | some pq => pq.pathStr
  | none => []

/-! ## Sessions -/

structure RequestHeader where
  uri : Uri
  headers : List (Str × List UInt8)

/-- What the router sets on the connection to the client, and the status of an error response it sent. -/
structure Downstream where
  readTimeoutMs : Option Nat
  keepaliveSeconds : Option Nat
  responded : Option Nat
  deriving DecidableEq, Repr

structure Session where
  reqHeader : RequestHeader
  /-- `session.is_upgrade_req()`. -/
  isUpgradeReq : Bool
  /-- `req_header().raw_path().len()`. -/
  rawPathLen : Nat
  /-- `downstream_session.to_h1_raw().len()`. -/
  h1RawLen : Nat
  /-- The client no longer takes a response, so that writing one fails. -/
  closed : Bool
  downstream : Downstream

/-- `headers.get(name)`: the value of the first field of that name. -/
def Session.header (session : Session) (name : Str) : Option (List UInt8) :=
  (session.reqHeader.headers.find? (fun h => h.1 = name)).map Prod.snd

/-- The values of the fields of a name, in order. -/
def Session.fields (session : Session) (name : Str) : List (List UInt8) :=
  (session.reqHeader.headers.filter (fun h => h.1 = name)).map Prod.snd

theorem Session.header_eq_head? (session : Session) (name : Str) : session.header name = (session.fields name).head? := by
  rw [Session.fields, List.head?_map, List.head?_filter]
  rfl

/-- `HeaderValue::to_str`: the text of a value of visible ASCII characters and tabs. -/
def headerToStr (value : List UInt8) : Option Str :=
  if value.all (fun b => (32 ≤ b.toNat && b.toNat < 127) || b.toNat == 9) then
    some (value.map (fun b => Char.ofNat b.toNat))
  else none

/-- The characters of a header name, RFC 9110 `token`, in the lower case that `from_static` demands. -/
def isHeaderNameChar (c : Char) : Bool :=
  c.isLower || c.isDigit || c ∈ Str.lit "!#$%&'*+-.^_|~" || c.toNat == 0x60

/-- `HeaderName::from_static`. -/
def headerNameFromStatic (name : Str) : Except Panic Str :=
  if name ≠ [] && name.all isHeaderNameChar then .ok name else .error .invalidHeaderName

/-! ## Host and path -/

def stripPortStr (host : Str) : Except Panic Str :=
  match host with
  | '[' :: stripped =>
      match Str.findByte ']' stripped with
      | some i => Str.sliceTo (i + 2) host
      | none => .ok host
  | _ =>
      match Str.rsplitOnce ':' host with
      | some (h, port) => .ok (if h ≠ [] && port.all Char.isDigit then h else host)
      | none => .ok host

def extractHost (session : Session) : Except Panic (Option Str) := do
  let hostStr ←
    match (session.header (Str.lit "host")).bind headerToStr with
    | some v => Except.ok (some v)
    | none => do
        let name ← headerNameFromStatic (Str.lit ":authority")
        Except.ok ((session.header name).bind headerToStr)
  match hostStr with
  | none => return none
  | some hostStr =>
      let hostWithoutPort ← stripPortStr hostStr
      return some (if hostWithoutPort.any Char.isUpper then Str.toAsciiLowercase hostWithoutPort else hostWithoutPort)

def extractFirstPathSegment (session : Session) : Option Str :=
  ((session.reqHeader.uri.path.splitOn '/').filter (fun p => p ≠ [])).head?

/-! ## Affinity keys -/

def maxAffinityKeyLen : Nat := 256

def isCookieSafeAffinityKey (value : Str) : Bool :=
  value ≠ [] && Str.len value ≤ maxAffinityKeyLen
    && value.all (fun c => c.isAlphanum || c == '.' || c == '_' || c == '-')

/-- The value of one `name=value` pair of a cookie field, when it is the wanted one and safe. -/
def cookiePairValue (cookieName pair : Str) : Option Str :=
  match Str.splitOnce '=' (Str.trim pair) with
  | some (name, value) =>
      if name = cookieName && isCookieSafeAffinityKey (Str.trim value) then some (Str.trim value) else none
  | none => none

def extractCookieValue (session : Session) (cookieName : Str) : Option Str :=
  match (session.header (Str.lit "cookie")).bind headerToStr with
  | some raw => (raw.splitOn ';').findSome? (cookiePairValue cookieName)
  | none => none

def extractHeaderValue (session : Session) (headerName : Str) : Option Str :=
  (((session.header (Str.toAsciiLowercase headerName)).bind headerToStr).map Str.trim).filter
    isCookieSafeAffinityKey

/-! ## Limits -/

def requestHeaderCount (session : Session) : Nat := session.reqHeader.headers.length

def requestSingleHeaderSize (session : Session) : Nat :=
  (session.reqHeader.headers.map (fun h => Str.len h.1 + h.2.length)).max?.getD 0

def requestHeaderSize (session : Session) : Nat := session.h1RawLen

/-- `value.parse::<u64>()`: an optional `+`, then digits, within 64 bits. -/
def parseU64 (value : Str) : Option Nat :=
  let digits := if value.head? = some '+' then value.tail else value
  if digits ≠ [] && digits.all Char.isDigit then
    let n := digits.foldl (fun n c => n * 10 + (c.toNat - '0'.toNat)) 0
    if n < 2 ^ 64 then some n else none
  else none

def requestContentLength (session : Session) : Option Nat :=
  ((session.header (Str.lit "content-length")).bind headerToStr).bind parseU64

/-- The status with which one check rejects a request. -/
def limitCheckRejection (session : Session) : Options.ProxyLimitCheckParsed → Option Nat
  | .uriBytes limit => if limit < session.rawPathLen then some 414 else none
  | .requestHeaders limit => if limit < requestHeaderCount session then some 431 else none
  | .singleHeaderBytes limit => if limit < requestSingleHeaderSize session then some 431 else none
  | .requestHeaderBytes limit => if limit < requestHeaderSize session then some 431 else none
  | .requestBodyBytes limit => if (requestContentLength session).any (fun n => limit < n) then some 413 else none

def requestLimitRejectionStatus (session : Session) (limits : Options.ProxyLimitsOptionsParsed) : Option Nat :=
  match limits with
  | .disabled => none
  | .enabled checks => checks.findSome? (limitCheckRejection session)

end NeemataProxy.Routing
