import NeemataProxy.Errors

/-!
# Parsing and validating the options (`src/options.rs`)
-/

namespace NeemataProxy.Options

open Lib

/-! ## What JavaScript passes -/

/-- `Option<Either<T, Null>>`: left out, `null`, or a value. -/
inductive Nullable (α : Type) where
  | absent
  | null
  | value (a : α)
  deriving DecidableEq, Repr

structure ProxyLimitsOptions where
  maxUriSize : Nullable Nat
  maxRequestHeaders : Nullable Nat
  maxSingleHeaderSize : Nullable Nat
  maxRequestHeaderSize : Nullable Nat
  maxRequestBodySize : Nullable Nat
  deriving DecidableEq, Repr

structure ProxyTimeoutOptions where
  downstreamHeader : Option Nat
  downstreamBodyIdle : Option Nat
  upstreamConnect : Option Nat
  upstreamRead : Option Nat
  upstreamWrite : Option Nat
  downstreamKeepAlive : Option Nat
  deriving DecidableEq, Repr

structure StickySessionOptions where
  enabled : Option Bool
  cookieName : Option Str
  headerName : Option Str
  ttlMs : Option Nat
  maxEntries : Option Nat
  deriving DecidableEq, Repr

structure ListenerTlsOptions where
  certPath : Str
  keyPath : Str
  enableH2 : Option Bool
  deriving DecidableEq, Repr

inductive ProxyApplicationRouting where
  | path (name : Option Str)
  | subdomain (name : Option Str)
  | default
  deriving DecidableEq, Repr

structure ApplicationOptions where
  name : Str
  routing : ProxyApplicationRouting
  sni : Option Str
  deriving DecidableEq, Repr

structure ProxyOptions where
  listen : Str
  tls : Option ListenerTlsOptions
  applications : List ApplicationOptions
  healthCheckIntervalMs : Option Nat
  stickySessions : Option StickySessionOptions
  limits : Nullable ProxyLimitsOptions
  timeouts : Option ProxyTimeoutOptions

/-! ## What the proxy works with -/

structure StickySessionOptionsParsed where
  enabled : Bool
  cookieName : Str
  headerName : Str
  ttlMs : Nat
  maxEntries : Nat
  deriving DecidableEq, Repr

inductive ProxyLimitCheckParsed where
  | uriBytes (limit : Nat)
  | requestHeaders (limit : Nat)
  | singleHeaderBytes (limit : Nat)
  | requestHeaderBytes (limit : Nat)
  | requestBodyBytes (limit : Nat)
  deriving DecidableEq, Repr

inductive ProxyLimitsOptionsParsed where
  | disabled
  | enabled (checks : List ProxyLimitCheckParsed)
  deriving DecidableEq, Repr

structure ProxyTimeoutOptionsParsed where
  downstreamHeaderTimeoutMs : Nat
  downstreamBodyIdleTimeoutMs : Nat
  upstreamConnectTimeoutMs : Nat
  upstreamReadTimeoutMs : Nat
  upstreamWriteTimeoutMs : Nat
  downstreamKeepAliveTimeoutSeconds : Nat
  deriving DecidableEq, Repr

structure ListenerTlsOptionsParsed where
  certPath : Str
  keyPath : Str
  enableH2 : Bool
  deriving DecidableEq, Repr

inductive ApplicationRoutingParsed where
  | subdomain (name : Str)
  | path (name : Str)
  | default
  deriving DecidableEq, Repr

structure ApplicationOptionsParsed where
  name : Str
  routing : ApplicationRoutingParsed
  sni : Option Str
  deriving DecidableEq, Repr

structure ProxyOptionsParsed where
  listen : Str
  tls : Option ListenerTlsOptionsParsed
  applications : List ApplicationOptionsParsed
  healthCheckIntervalMs : Nat
  stickySessions : StickySessionOptionsParsed
  limits : ProxyLimitsOptionsParsed
  timeouts : ProxyTimeoutOptionsParsed
  deriving DecidableEq, Repr

/-! ## Defaults -/

namespace Defaults

def maxUriBytes : Nat := 8192
def maxRequestHeaders : Nat := 100
def maxSingleHeaderBytes : Nat := 8192
def maxRequestHeaderBytes : Nat := 64 * 1024
def maxRequestBodyBytes : Nat := 16 * 1024 * 1024

def downstreamHeaderTimeoutMs : Nat := 10000
def downstreamBodyIdleTimeoutMs : Nat := 60000
def upstreamConnectTimeoutMs : Nat := 5000
def upstreamReadTimeoutMs : Nat := 60000
def upstreamWriteTimeoutMs : Nat := 60000
def downstreamKeepAliveTimeoutSeconds : Nat := 75

end Defaults

/-! ## Limits and timeouts -/

def invalidProxyOptions (message : Str) : JsError := ⟨.invalidProxyOptions, message⟩

def invalidApplicationOptions (message : Str) : JsError := ⟨.invalidApplicationOptions, message⟩

def parsePositiveU32 (field : Str) (value : Option Nat) (default : Nat) : Except JsError Nat :=
  let value := value.getD default
  if value = 0 then .error (invalidProxyOptions (field ++ Str.lit " must be greater than 0")) else .ok value

def parseNullablePositiveU32 (field : Str) (value : Nullable Nat) (default : Nat) : Except JsError (Option Nat) :=
  match value with
  | .value v => (parsePositiveU32 field (some v) default).map some
  | .null => .ok none
  | .absent => (parsePositiveU32 field none default).map some

def defaultLimitChecks : ProxyLimitsOptionsParsed :=
  .enabled [.uriBytes Defaults.maxUriBytes, .requestHeaders Defaults.maxRequestHeaders,
    .singleHeaderBytes Defaults.maxSingleHeaderBytes, .requestHeaderBytes Defaults.maxRequestHeaderBytes,
    .requestBodyBytes Defaults.maxRequestBodyBytes]

def parseLimitsOptions (limits : Nullable ProxyLimitsOptions) : Except JsError ProxyLimitsOptionsParsed :=
  match limits with
  | .absent => .ok defaultLimitChecks
  | .null => .ok .disabled
  | .value limits => do
      let uri ← parseNullablePositiveU32 (Str.lit "limits.maxUriSize") limits.maxUriSize Defaults.maxUriBytes
      let headers ← parseNullablePositiveU32 (Str.lit "limits.maxRequestHeaders") limits.maxRequestHeaders
        Defaults.maxRequestHeaders
      let single ← parseNullablePositiveU32 (Str.lit "limits.maxSingleHeaderSize") limits.maxSingleHeaderSize
        Defaults.maxSingleHeaderBytes
      let total ← parseNullablePositiveU32 (Str.lit "limits.maxRequestHeaderSize") limits.maxRequestHeaderSize
        Defaults.maxRequestHeaderBytes
      let body ← parseNullablePositiveU32 (Str.lit "limits.maxRequestBodySize") limits.maxRequestBodySize
        Defaults.maxRequestBodyBytes
      let checks := (uri.map .uriBytes).toList ++ (headers.map .requestHeaders).toList
        ++ (single.map .singleHeaderBytes).toList ++ (total.map .requestHeaderBytes).toList
        ++ (body.map .requestBodyBytes).toList
      return if checks = [] then .disabled else .enabled checks

def parseTimeoutOptions (timeouts : Option ProxyTimeoutOptions) : Except JsError ProxyTimeoutOptionsParsed :=
  match timeouts with
  | none => .ok
      { downstreamHeaderTimeoutMs := Defaults.downstreamHeaderTimeoutMs
        downstreamBodyIdleTimeoutMs := Defaults.downstreamBodyIdleTimeoutMs
        upstreamConnectTimeoutMs := Defaults.upstreamConnectTimeoutMs
        upstreamReadTimeoutMs := Defaults.upstreamReadTimeoutMs
        upstreamWriteTimeoutMs := Defaults.upstreamWriteTimeoutMs
        downstreamKeepAliveTimeoutSeconds := Defaults.downstreamKeepAliveTimeoutSeconds }
  | some timeouts => do
      let header ← parsePositiveU32 (Str.lit "timeouts.downstreamHeader") timeouts.downstreamHeader
        Defaults.downstreamHeaderTimeoutMs
      let bodyIdle ← parsePositiveU32 (Str.lit "timeouts.downstreamBodyIdle") timeouts.downstreamBodyIdle
        Defaults.downstreamBodyIdleTimeoutMs
      let connect ← parsePositiveU32 (Str.lit "timeouts.upstreamConnect") timeouts.upstreamConnect
        Defaults.upstreamConnectTimeoutMs
      let read ← parsePositiveU32 (Str.lit "timeouts.upstreamRead") timeouts.upstreamRead
        Defaults.upstreamReadTimeoutMs
      let write ← parsePositiveU32 (Str.lit "timeouts.upstreamWrite") timeouts.upstreamWrite
        Defaults.upstreamWriteTimeoutMs
      let keepAlive ← parsePositiveU32 (Str.lit "timeouts.downstreamKeepAlive") timeouts.downstreamKeepAlive
        Defaults.downstreamKeepAliveTimeoutSeconds
      return ⟨header, bodyIdle, connect, read, write, keepAlive⟩

/-! ## Sticky sessions -/

def parseStickySessionOptions (sticky : Option StickySessionOptions) :
    Except JsError StickySessionOptionsParsed :=
  match sticky with
  | none => .ok
      { enabled := false
        cookieName := Str.lit "nmt_affinity"
        headerName := Str.lit "x-nmt-affinity-key"
        ttlMs := 600000
        maxEntries := 20000 }
  | some sticky =>
      let enabled := sticky.enabled.getD true
      let cookieName := sticky.cookieName.getD (Str.lit "nmt_affinity")
      let headerName := sticky.headerName.getD (Str.lit "x-nmt-affinity-key")
      let ttlMs := sticky.ttlMs.getD 600000
      let maxEntries := sticky.maxEntries.getD 20000
      if Str.trim cookieName = [] then
        .error (invalidProxyOptions (Str.lit "stickySessions.cookieName must be non-empty"))
      else if Str.trim headerName = [] then
        .error (invalidProxyOptions (Str.lit "stickySessions.headerName must be non-empty"))
      else if ttlMs = 0 then
        .error (invalidProxyOptions (Str.lit "stickySessions.ttlMs must be greater than 0"))
      else if maxEntries = 0 then
        .error (invalidProxyOptions (Str.lit "stickySessions.maxEntries must be greater than 0"))
      else .ok ⟨enabled, cookieName, headerName, ttlMs, maxEntries⟩

/-! ## Applications -/

def isHostnameLike (value : Str) : Bool :=
  if value.head? = some '.' ∨ value.getLast? = some '.' then false
  else (value.splitOn '.').all (fun label =>
    label ≠ [] && Str.len label ≤ 63 && label.head? ≠ some '-' && label.getLast? ≠ some '-'
      && label.all (fun c => c.isAlphanum || c == '-'))

def parseApplicationSni (sni : Option Str) : Except JsError (Option Str) :=
  match sni with
  | none => .ok none
  | some sni =>
      let sni := Str.trim sni
      if sni = [] then
        .error (invalidApplicationOptions (Str.lit "ApplicationOptions.sni must be non-empty when provided"))
      else if !isHostnameLike sni then
        .error (invalidApplicationOptions (Str.lit "ApplicationOptions.sni must be a hostname-like value"))
      else .ok (some sni)

def requireRoutingName (routingType : Str) (name : Option Str) : Except JsError Str :=
  match name with
  | some name => .ok name
  | none => .error (invalidApplicationOptions
      (Str.lit "ApplicationOptions.routing.name must be set for " ++ routingType ++ Str.lit " routing"))

def parseRouting (routing : ProxyApplicationRouting) : Except JsError ApplicationRoutingParsed :=
  match routing with
  | .default => .ok .default
  | .subdomain name => (requireRoutingName (Str.lit "subdomain") name).map .subdomain
  | .path name => (requireRoutingName (Str.lit "path") name).map .path

def parseApplicationOptions (app : ApplicationOptions) : Except JsError ApplicationOptionsParsed := do
  let sni ← parseApplicationSni app.sni
  let routing ← parseRouting app.routing
  return ⟨app.name, routing, sni⟩

/-- What `validate_applications` has seen so far. -/
structure SeenApplications where
  defaultCount : Nat
  appNames : Finset Str
  subdomainRoutes : Finset Str
  pathRoutes : Finset Str

/-- The body of the loop of `validate_applications`. -/
def validateApplication (seen : SeenApplications) (app : ApplicationOptionsParsed) :
    Except JsError SeenApplications :=
  if app.name ∈ seen.appNames then
    .error (invalidApplicationOptions (Str.lit "Duplicate application name '" ++ app.name ++ Str.lit "'"))
  else
    let seen := { seen with appNames := insert app.name seen.appNames }
    match app.routing with
    | .default => .ok { seen with defaultCount := seen.defaultCount + 1 }
    | .subdomain name =>
        if name = [] then .error (invalidApplicationOptions (Str.lit "subdomain routing name must be non-empty"))
        else
          let routeKey := Str.toAsciiLowercase name
          if routeKey ∈ seen.subdomainRoutes then
            .error (invalidApplicationOptions (Str.lit "Duplicate subdomain routing name '" ++ name ++ Str.lit "'"))
          else .ok { seen with subdomainRoutes := insert routeKey seen.subdomainRoutes }
    | .path name =>
        if name = [] then .error (invalidApplicationOptions (Str.lit "path routing name must be non-empty"))
        else if '/' ∈ name then
          .error (invalidApplicationOptions (Str.lit "path routing name must not contain '/'"))
        else if name ∈ seen.pathRoutes then
          .error (invalidApplicationOptions (Str.lit "Duplicate path routing name '" ++ name ++ Str.lit "'"))
        else .ok { seen with pathRoutes := insert name seen.pathRoutes }

def validateApplications (applications : List ApplicationOptionsParsed) : Except JsError Unit := do
  let seen ← applications.foldlM validateApplication ⟨0, ∅, ∅, ∅⟩
  if 1 < seen.defaultCount then
    .error (invalidApplicationOptions (Str.lit "At most one application may use routing.type='default'"))
  else .ok ()

def parseProxyOptions (options : ProxyOptions) : Except JsError ProxyOptionsParsed := do
  let tls := options.tls.map (fun tls => ⟨tls.certPath, tls.keyPath, tls.enableH2.getD false⟩)
  let applications ← options.applications.mapM parseApplicationOptions
  validateApplications applications
  let stickySessions ← parseStickySessionOptions options.stickySessions
  let limits ← parseLimitsOptions options.limits
  let timeouts ← parseTimeoutOptions options.timeouts
  return ⟨options.listen, tls, applications, options.healthCheckIntervalMs.getD 5000, stickySessions, limits, timeouts⟩

end NeemataProxy.Options
