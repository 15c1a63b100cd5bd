import NeemataProxy.Proxy.Pools

/-!
# Adding and removing upstreams (`add_upstream` and `remove_upstream` in `src/proxy.rs`)

The two operations share their steps: a snapshot under the lock, a rebuild off the lock, and a commit under the
lock. They differ in the check of the snapshot and in what they do to the set of upstreams.
-/

namespace NeemataProxy

open Lib Routing Options

inductive UpdateKind where
  | add
  | remove
  deriving DecidableEq, Repr

structure UpdateRequest where
  kind : UpdateKind
  appName : Str
  upstream : PortUpstream
  deriving DecidableEq, Repr

/-- `upsert_service` with a fresh health task, or `remove_service`. -/
inductive ServiceUpdate where
  | upsert (name : Str) (lb : LoadBalancer)
  | remove (name : Str)
  deriving DecidableEq

/-- What updates read and write. -/
structure Catalog where
  upstreamsByApp : UpstreamsByApp
  pools : Pools
  config : RouterConfig
  /-- The number of rebuilds so far. -/
  rebuilds : Nat

/-! ## The snapshot -/

def unknownApplication (appName : Str) : JsError :=
  ⟨.unknownApplication, Str.lit "Unknown application '" ++ appName ++ Str.lit "'"⟩

/-- The check against the current upstreams. -/
def UpdateKind.check (kind : UpdateKind) (current : HashSet PortUpstream) (upstream : PortUpstream) :
    Except JsError Unit :=
  match kind with
  | .add =>
      if current.contains upstream then .error ⟨.upstreamAlreadyExists, Str.lit "Upstream already exists"⟩ else .ok ()
  | .remove =>
      if current.contains upstream then .ok () else .error ⟨.upstreamNotFound, Str.lit "Upstream not found"⟩

def UpdateKind.apply (kind : UpdateKind) (upstreams : HashSet PortUpstream) (upstream : PortUpstream) :
    HashSet PortUpstream :=
  match kind with
  | .add => upstreams.insert upstream ()
  | .remove => upstreams.remove upstream

structure Snapshot where
  appDef : ApplicationOptionsParsed
  healthCheckIntervalMs : Nat
  upstreams : HashSet PortUpstream

/-- The first critical section. -/
def takeSnapshot (options : ProxyOptionsParsed) (upstreamsByApp : UpstreamsByApp) (req : UpdateRequest) :
    Except JsError Snapshot :=
  match options.applications.find? (fun a => a.name = req.appName), upstreamsByApp.get req.appName with
  | some appDef, some current =>
      (req.kind.check current req.upstream).map (fun _ => ⟨appDef, options.healthCheckIntervalMs, current⟩)
  | _, _ => .error (unknownApplication req.appName)

/-- What is checked after the snapshot: a secure upstream is only added when its hostname can be verified. -/
def checkSecure (req : UpdateRequest) (appDef : ApplicationOptionsParsed) : Except JsError Unit :=
  match req.kind with
  | .add => if req.upstream.secure then (verifyHostnameForSecureUpstream appDef).map (fun _ => ()) else .ok ()
  | .remove => .ok ()

/-- The snapshot with the requested change made to the upstreams. -/
def prepareUpdate (options : ProxyOptionsParsed) (upstreamsByApp : UpstreamsByApp) (req : UpdateRequest) :
    Except JsError Snapshot := do
  let snapshot ← takeSnapshot options upstreamsByApp req
  let nextUpstreams := req.kind.apply snapshot.upstreams req.upstream
  checkSecure req snapshot.appDef
  return { snapshot with upstreams := nextUpstreams }

/-! ## The rebuild -/

def UpdateKind.gerund : UpdateKind → Str
  | .add => Str.lit "adding"
  | .remove => Str.lit "removing"

/-- The error of a rebuild task that did not complete. -/
def rebuildTaskFailed (kind : UpdateKind) (reason : Str) : JsError :=
  .fromReason (Str.lit "Upstream rebuild task failed while " ++ kind.gerund ++ Str.lit " upstream: " ++ reason)

/-- The rebuild on the blocking thread; `env` is an error when that task did not complete. -/
def rebuildUpdate (req : UpdateRequest) (next : Snapshot) (rebuild : Nat) (env : Except Str RebuildEnv) :
    Except JsError Rebuilt :=
  match env with
  | .error e => .error (rebuildTaskFailed req.kind e)
  | .ok env => rebuildAppPools env rebuild next.appDef next.upstreams next.healthCheckIntervalMs

/-! ## The commit -/

/-- `for (transport, pool) in new_pools`. -/
def insertPools (appName : Str) : List (TransportKind × PoolConfig) → Pools → Pools × List ServiceUpdate
  | [], pools => (pools, [])
  | (transport, pool) :: rest, pools =>
      let r := insertPools appName rest (pools.insert (appName, transport) pool)
      (r.1, .upsert (lbServiceName appName transport) pool.lb :: r.2)

/-- `for transport in removed_transports`. -/
def removePools (appName : Str) : List TransportKind → Pools → Pools × List ServiceUpdate
  | [], pools => (pools, [])
  | transport :: rest, pools =>
      let r := removePools appName rest (pools.remove (appName, transport))
      (r.1, if (pools.get (appName, transport)).isSome then .remove (lbServiceName appName transport) :: r.2 else r.2)

/-- The second critical section; the services are those to upsert and those to remove. -/
def commitUpdate (options : ProxyOptionsParsed) (order : IterOrder (TransportKind × PoolConfig)) (req : UpdateRequest)
    (next : Snapshot) (rebuilt : Rebuilt) (c : Catalog) : Except JsError (Catalog × List ServiceUpdate) :=
  match c.upstreamsByApp.get req.appName with
  | none => .error (unknownApplication req.appName)
  | some _ =>
      let inserted := insertPools req.appName (order.visit rebuilt.newPools.entries) c.pools
      let removed := removePools req.appName rebuilt.removed inserted.1
      .ok (⟨c.upstreamsByApp.insert req.appName next.upstreams, removed.1, buildRouterConfig options removed.1,
        c.rebuilds⟩, inserted.2 ++ removed.2)

/-! ## A whole update -/

/-- An update when nothing else happens in between. -/
def applyUpdate (options : ProxyOptionsParsed) (req : UpdateRequest) (env : Except Str RebuildEnv)
    (order : IterOrder (TransportKind × PoolConfig)) (c : Catalog) : Catalog × Except JsError Unit :=
  match prepareUpdate options c.upstreamsByApp req with
  | .error e => (c, .error e)
  | .ok next =>
      let c' := { c with rebuilds := c.rebuilds + 1 }
      match rebuildUpdate req next c.rebuilds env with
      | .error e => (c', .error e)
      | .ok rebuilt =>
          match commitUpdate options order req next rebuilt c' with
          | .error e => (c', .error e)
          | .ok r => (r.1, .ok ())

def addUpstream (options : ProxyOptionsParsed) (appName : Str) (upstream : PortUpstream) :=
  applyUpdate options ⟨.add, appName, upstream⟩

def removeUpstream (options : ProxyOptionsParsed) (appName : Str) (upstream : PortUpstream) :=
  applyUpdate options ⟨.remove, appName, upstream⟩

end NeemataProxy
