import NeemataProxy.Options
import NeemataProxy.Router.Sticky

/-!
# Routing tables and pools (`RouterConfig`, `resolve_route` in `src/router.rs`)
-/

namespace NeemataProxy.Routing

open Lib

structure PoolConfig where
  lb : LoadBalancer
  secure : Bool
  verifyHostname : Str
  backends : Finset Str
  deriving DecidableEq

structure AppPools where
  http1 : Option PoolConfig
  ws : Option PoolConfig
  http2 : Option PoolConfig
  deriving DecidableEq

structure RouterConfig where
  subdomainRoutes : HashMap Str Str
  pathRoutes : HashMap Str Str
  defaultApp : Option Str
  apps : HashMap Str AppPools

/-- `RouterConfig::default()`. -/
def RouterConfig.default : RouterConfig := ⟨.empty, .empty, none, .empty⟩

structure ResolvedPool where
  lb : LoadBalancer
  secure : Bool
  verifyHostname : Str
  isHttp2 : Bool
  transport : TransportKind
  backends : Finset Str
  deriving DecidableEq

structure ResolvedRoute where
  appName : Str
  pathRewriteSegment : Option Str
  deriving DecidableEq, Repr

/-- The default application, when there is one. -/
def defaultRoute (config : RouterConfig) : Option ResolvedRoute :=
  config.defaultApp.map (fun appName => ⟨appName, none⟩)

/-- The owner of the first path segment, else the default application. -/
def pathRoute (config : RouterConfig) (pathFirstSegment : Option Str) : Option ResolvedRoute :=
  match pathFirstSegment with
  | some seg =>
      match config.pathRoutes.get seg with
      | some appName => some ⟨appName, some seg⟩
      | none => defaultRoute config
  | none => defaultRoute config

def resolveRoute (config : RouterConfig) (host pathFirstSegment : Option Str) : Option ResolvedRoute :=
  match host with
  | some host =>
      match config.subdomainRoutes.get host with
      | some appName => some ⟨appName, none⟩
      | none => pathRoute config pathFirstSegment
  | none => pathRoute config pathFirstSegment

/-- The pool of an application that a request uses, and whether it is the HTTP/2 one. -/
def choosePool (pools : AppPools) (isUpgrade : Bool) : Option PoolConfig × Bool :=
  if isUpgrade then (pools.ws, false)
  else
    match pools.http2 with
    | some p => (some p, true)
    | none => (pools.http1, false)

/-- The pool as it is kept in the context of a request. -/
def PoolConfig.resolved (pool : PoolConfig) (isUpgrade isHttp2 : Bool) : ResolvedPool where
  lb := pool.lb
  secure := pool.secure
  verifyHostname := pool.verifyHostname
  isHttp2 := isHttp2
  transport := if isUpgrade then .ws else if isHttp2 then .http2 else .http1
  backends := pool.backends

/-- `Router`; it is shared, so each function takes it and returns what it changes. -/
structure Router where
  config : RouterConfig
  sticky : Option (StickySessionState stickyShardCount)
  limits : Options.ProxyLimitsOptionsParsed
  timeouts : Options.ProxyTimeoutOptionsParsed

def Router.new (config : RouterConfig) (stickyConfig : StickySessionConfig)
    (limits : Options.ProxyLimitsOptionsParsed) (timeouts : Options.ProxyTimeoutOptionsParsed) : Router where
  config := config
  sticky := if stickyConfig.enabled then some (.new stickyShardCount stickyConfig) else none
  limits := limits
  timeouts := timeouts

def Router.update (router : Router) (config : RouterConfig) : Router := { router with config := config }

end NeemataProxy.Routing
