import NeemataProxy.Router.Config

/-!
# Upstreams and pools (`src/proxy.rs`)

Upstreams are resolved and grouped into pools off the lock. What such a rebuild sees of the outside, the answers
of the resolver and of Pingora and the orders in which hash maps iterate, is a `RebuildEnv`.
-/

namespace NeemataProxy

open Lib Routing Options

/-! ## Upstreams -/

structure PortUpstream where
  transport : TransportKind
  secure : Bool
  hostname : Str
  port : Nat
  deriving DecidableEq, Repr

structure PortUpstreamOptions where
  type : Str
  transport : Str
  secure : Bool
  hostname : Str
  port : Nat
  deriving DecidableEq, Repr

structure UnixSocketUpstreamOptions where
  type : Str
  transport : Str
  secure : Bool
  path : Str
  deriving DecidableEq, Repr

inductive UpstreamOptions where
  | port (options : PortUpstreamOptions)
  | unix (options : UnixSocketUpstreamOptions)
  deriving DecidableEq, Repr

def unsupportedUpstreamType (type : Str) : JsError :=
  ⟨.unsupportedUpstreamType, Str.lit "Unsupported upstream type '" ++ type ++ Str.lit "'"⟩

def parseTransport (transport : Str) : Except JsError TransportKind :=
  if transport = Str.lit "http" then .ok .http1
  else if transport = Str.lit "http2" then .ok .http2
  else if transport = Str.lit "ws" then .ok .ws
  else .error (invalidProxyOptions (Str.lit "Unknown upstream transport '" ++ transport ++ Str.lit "'"))

def parsePortUpstream (upstream : UpstreamOptions) : Except JsError PortUpstream :=
  match upstream with
  | .port port =>
      if port.type ≠ Str.lit "port" then .error (unsupportedUpstreamType port.type)
      else do
        let transport ← parseTransport port.transport
        if port.port = 0 ∨ 65535 < port.port then
          .error (invalidProxyOptions (Str.lit "PortUpstreamOptions.port must be in range 1..=65535"))
        else if port.hostname = [] then
          .error (invalidProxyOptions (Str.lit "PortUpstreamOptions.hostname must be non-empty"))
        else .ok ⟨transport, port.secure, port.hostname, port.port⟩
  | .unix unix =>
      if unix.type ≠ Str.lit "unix" ∧ unix.type ≠ Str.lit "unix_socket" then .error (unsupportedUpstreamType unix.type)
      else .error ⟨.unsupportedUpstreamType, Str.lit "unix_socket upstreams are not supported"⟩

/-! ## Rebuilding the pools of an application -/

abbrev Pools := HashMap (Str × TransportKind) PoolConfig

abbrev UpstreamsByApp := HashMap Str (HashSet PortUpstream)

/-- What one rebuild meets: `resolve` is `to_socket_addrs`, `buildLb` is `LoadBalancer::try_from_iter`, whose
result depends on the set of addresses only. -/
structure RebuildEnv where
  resolve : PortUpstream → Except Str (List SocketAddr)
  buildLb : Finset SocketAddr → Except Str Unit
  upstreamOrder : IterOrder (PortUpstream × Unit)
  groupOrder : IterOrder (TransportKind × List PortUpstream)

def verifyHostnameForSecureUpstream (app : ApplicationOptionsParsed) : Except JsError Str :=
  match app.routing with
  | .subdomain name => .ok name
  | .path _ | .default =>
      match app.sni with
      | none => .error (invalidApplicationOptions
          (Str.lit "ApplicationOptions.sni is required when using secure upstreams for path/default routing"))
      | some sni => .ok sni

/-- `by_transport.entry(u.transport).or_default().push(u)`. -/
def pushUpstream (byTransport : HashMap TransportKind (List PortUpstream)) (u : PortUpstream) :
    HashMap TransportKind (List PortUpstream) :=
  byTransport.insert u.transport ((byTransport.get u.transport).getD [] ++ [u])

def groupByTransport (upstreams : List PortUpstream) : HashMap TransportKind (List PortUpstream) :=
  upstreams.foldl pushUpstream .empty

def failedToResolve (u : PortUpstream) (reason : Str) : JsError :=
  invalidProxyOptions (Str.lit "Failed to resolve upstream '" ++ u.hostname ++ Str.lit ":" ++ Str.decimal u.port
    ++ Str.lit "': " ++ reason)

/-- The addresses of all upstreams of a pool, in order. -/
def resolveUpstreams (resolve : PortUpstream → Except Str (List SocketAddr)) :
    List PortUpstream → Except JsError (List SocketAddr)
  | [] => .ok []
  | u :: us =>
      match resolve u with
      | .error e => .error (failedToResolve u e)
      | .ok iter => (resolveUpstreams resolve us).map (iter ++ ·)

/-- The body of the loop over the transports; `first` is `list[0]`. -/
def buildPool (env : RebuildEnv) (app : ApplicationOptionsParsed) (healthCheckIntervalMs rebuild : Nat)
    (transport : TransportKind) (first : PortUpstream) (list : List PortUpstream) : Except JsError PoolConfig := do
  let secure := first.secure
  if list.any (fun u => u.secure ≠ secure) then
    .error (invalidProxyOptions (Str.lit
      "Mixing secure and insecure upstreams within the same (app, transport) pool is not supported"))
  else
    let verifyHostname ← if secure then verifyHostnameForSecureUpstream app else .ok []
    let addrs ← resolveUpstreams env.resolve list
    if addrs = [] then .error (failedToResolve first (Str.lit "no addresses were returned"))
    else
      match env.buildLb addrs.toFinset with
      | .error e => .error (invalidProxyOptions (Str.lit "Failed to build load balancer: " ++ e))
      | .ok () =>
          let healthCheck := if secure then TcpHealthCheck.tls verifyHostname else .plain
          let lb : LoadBalancer := ⟨(rebuild, transport), addrs.toFinset, healthCheck, healthCheckIntervalMs⟩
          return ⟨lb, secure, verifyHostname, (addrs.map SocketAddr.toStr).toFinset⟩

/-- The loop over the transports. -/
def buildPools (env : RebuildEnv) (app : ApplicationOptionsParsed) (healthCheckIntervalMs rebuild : Nat) :
    List (TransportKind × List PortUpstream) → HashMap TransportKind PoolConfig →
      Except JsError (HashMap TransportKind PoolConfig)
  | [], newPools => .ok newPools
  | (_, []) :: groups, newPools => buildPools env app healthCheckIntervalMs rebuild groups newPools
  | (transport, u :: us) :: groups, newPools =>
      match buildPool env app healthCheckIntervalMs rebuild transport u (u :: us) with
      | .error e => .error e
      | .ok pool => buildPools env app healthCheckIntervalMs rebuild groups (newPools.insert transport pool)

/-- The pools of an application, and the transports that have none. -/
structure Rebuilt where
  newPools : HashMap TransportKind PoolConfig
  removed : List TransportKind

/-- `rebuild` numbers the calls, so that the balancers of different calls are different. -/
def rebuildAppPools (env : RebuildEnv) (rebuild : Nat) (app : ApplicationOptionsParsed)
    (upstreams : HashSet PortUpstream) (healthCheckIntervalMs : Nat) : Except JsError Rebuilt := do
  let byTransport := groupByTransport ((env.upstreamOrder.visit upstreams.entries).map Prod.fst)
  let newPools ← buildPools env app healthCheckIntervalMs rebuild (env.groupOrder.visit byTransport.entries) .empty
  return ⟨newPools, [.http1, .http2, .ws].filter (fun t => (newPools.get t).isNone)⟩

/-! ## The routing table -/

/-- The route of an application. -/
def addRoute (cfg : RouterConfig) (app : ApplicationOptionsParsed) : RouterConfig :=
  match app.routing with
  | .subdomain name => { cfg with subdomainRoutes := cfg.subdomainRoutes.insert (Str.toAsciiLowercase name) app.name }
  | .path name => { cfg with pathRoutes := cfg.pathRoutes.insert name app.name }
  | .default => { cfg with defaultApp := some app.name }

/-- The pools of an application as the router keeps them. -/
def appPools (pools : Pools) (app : Str) : AppPools where
  http1 := pools.get (app, .http1)
  ws := pools.get (app, .ws)
  http2 := pools.get (app, .http2)

def addApplication (pools : Pools) (cfg : RouterConfig) (app : ApplicationOptionsParsed) : RouterConfig :=
  let cfg := addRoute cfg app
  { cfg with apps := cfg.apps.insert app.name (appPools pools app.name) }

def buildRouterConfig (options : ProxyOptionsParsed) (pools : Pools) : RouterConfig :=
  options.applications.foldl (addApplication pools) RouterConfig.default

/-! ## Service names -/

def lbServiceName (app : Str) (transport : TransportKind) : Str :=
  match transport with
  | .http1 => Str.lit "lb:" ++ app ++ Str.lit ":http"
  | .http2 => Str.lit "lb:" ++ app ++ Str.lit ":http2"
  | .ws => Str.lit "lb:" ++ app ++ Str.lit ":ws"

def mainServiceName : Str := Str.lit "main_http"

end NeemataProxy
