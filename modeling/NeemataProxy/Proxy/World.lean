import NeemataProxy.Proxy.Server
import NeemataProxy.Proxy.Updates

/-!
# Calls on a proxy (`start`, `stop`, `add_upstream`, `remove_upstream` in `src/proxy.rs`)

Every call is a sequence of steps: its critical sections on `ProxyInner`, its accesses to the service registry,
its blocking tasks and its waits. `Pc` says which step a call takes next and holds its local variables, and `step`
executes one step of one call. What the outside decides at a step is a `Choice`.
-/

namespace NeemataProxy

open Lib Routing Options

/-! ## State -/

inductive ProxyState where
  | stopped
  | starting
  | running
  | stopping
  deriving DecidableEq, Repr

inductive StartStatus where
  | pending
  | ready (result : Except Str Unit)

inductive StopStatus where
  | pending
  | ready
  deriving DecidableEq, Repr

/-- `ProxyInner`; a notifier is the number of its channel, whose sender lives as long as it is kept here. -/
structure ProxyInner where
  options : ProxyOptionsParsed
  state : ProxyState
  listenAddress : Option BoundListenAddress
  startNotifier : Option Nat
  stopNotifier : Option Nat
  upstreamsByApp : UpstreamsByApp
  pools : Pools

structure ProxyAddress where
  hostname : Str
  port : Nat
  deriving DecidableEq, Repr

def ProxyAddress.fromBound (address : BoundListenAddress) : ProxyAddress := ⟨address.hostname, address.port⟩

abbrev CallId := Nat

/-- An update that has taken effect or failed, with what it met. -/
structure UpdateRecord where
  call : CallId
  request : UpdateRequest
  env : Except Str RebuildEnv
  order : IterOrder (TransportKind × PoolConfig)
  result : Except JsError Unit

/-- What the calls share. -/
structure Shared where
  inner : ProxyInner
  router : Router
  server : Server
  /-- The channels of `start_notifier`, one for each start attempt. -/
  starts : List StartStatus
  /-- The channels of `stop_notifier`. -/
  stops : List StopStatus
  /-- The number of rebuilds of pools so far. -/
  rebuilds : Nat
  /-- The call that holds `update_lock`. -/
  updateLock : Option CallId
  /-- The updates in the order in which they took effect or failed; no step reads it. -/
  history : List UpdateRecord

/-- What updates read and write of the shared state. -/
def Shared.catalog (s : Shared) : Catalog := ⟨s.inner.upstreamsByApp, s.inner.pools, s.router.config, s.rebuilds⟩

/-! ## Calls -/

inductive JsCall where
  | start
  | stop
  | addUpstream (appName : Str) (upstream : UpstreamOptions)
  | removeUpstream (appName : Str) (upstream : UpstreamOptions)
  deriving DecidableEq, Repr

/-- What `build_start_resources` meets: the errors of binding, of reading the address, of `set_nonblocking` and of
the TLS settings. -/
structure SetupEnv where
  bind : Except Str Unit
  localAddr : Except Str SocketAddr
  setNonblocking : Except Str Unit
  tlsSettings : Except Str Unit

/-- What the outside decides at a step; a blocking task that does not complete is an error. -/
structure Choice where
  setup : Except Str SetupEnv
  rebuild : Except Str RebuildEnv
  lbOrder : IterOrder ((Str × TransportKind) × PoolConfig)
  poolOrder : IterOrder (TransportKind × PoolConfig)
  serviceOrder : IterOrder (Str × ServiceHandle)

/-- The next step of a call. An attempt is numbered by its start channel; `seen` is the number of attempts that
had begun when a stop was called, and no step reads it. -/
inductive Pc where
  | idle
  | startSetup (attempt : Nat) (lbTasks : List (Str × LoadBalancer))
  | startRegister (attempt : Nat) (addr : BoundListenAddress) (lbTasks : List (Str × LoadBalancer)) (hands : Hands)
  | startListen (attempt : Nat) (addr : BoundListenAddress) (hands : Hands)
  | startCancel (attempt : Nat)
  | startCancelling (attempt : Nat) (hands : Hands)
  | startWait (rx : Nat)
  | stopWaitStart (rx seen : Nat)
  | stopAll (seen : Nat)
  | stopping (seen : Nat) (hands : Hands)
  | stopWait (rx seen : Nat)
  | updateLock (req : UpdateRequest)
  | updateSnapshot (req : UpdateRequest)
  | updateRebuild (req : UpdateRequest) (next : Snapshot)
  | updateCommit (req : UpdateRequest) (next : Snapshot) (env : Except Str RebuildEnv) (rebuilt : Rebuilt)
  | updateServices (req : UpdateRequest) (todo : List ServiceUpdate) (hands : Hands)
  | done (result : Except JsError Unit)

namespace Pc

/-- The handles that a call is responsible for. -/
def hands : Pc → Hands
  | startRegister _ _ _ hands | startListen _ _ hands | startCancelling _ hands | stopping _ hands
  | updateServices _ _ hands => hands
  | _ => .empty

def withHands (hands : Hands) : Pc → Pc
  | startRegister attempt addr lbTasks _ => startRegister attempt addr lbTasks hands
  | startListen attempt addr _ => startListen attempt addr hands
  | startCancelling attempt _ => startCancelling attempt hands
  | stopping seen _ => stopping seen hands
  | updateServices req todo _ => updateServices req todo hands
  | pc => pc

end Pc

namespace Shared

/-! ## `start` -/

/-- `guard.start_notifier.take()`, and `send` on it. -/
def notifyStart (s : Shared) (result : Except Str Unit) : Shared :=
  match s.inner.startNotifier with
  | some tx => { s with inner := { s.inner with startNotifier := none }, starts := s.starts.set tx (.ready result) }
  | none => s

def lbTasks (s : Shared) (order : IterOrder ((Str × TransportKind) × PoolConfig)) : List (Str × LoadBalancer) :=
  (order.visit s.inner.pools.entries).map (fun e => (lbServiceName e.1.1 e.1.2, e.2.lb))

/-- A new attempt begins. -/
def beginStart (s : Shared) : Shared :=
  { s with
    inner := { s.inner with state := .starting, listenAddress := none, startNotifier := some s.starts.length }
    starts := s.starts ++ [.pending] }

def start (s : Shared) (order : IterOrder ((Str × TransportKind) × PoolConfig)) : Shared × Pc :=
  match s.inner.state with
  | .starting =>
      match s.inner.startNotifier with
      | none => (s, .done (.error (.fromReason (Str.lit "Proxy internal error: missing start notifier"))))
      | some rx => (s, .startWait rx)
  | .running => (s, .done (.error ⟨.alreadyStarted, Str.lit "Proxy is already started"⟩))
  | .stopping => (s, .done (.error ⟨.alreadyStarted, Str.lit "Proxy is stopping"⟩))
  | .stopped => (s.beginStart, .startSetup s.starts.length (s.lbTasks order))

def listenBindFailed (message : Str) : JsError := ⟨.listenBindFailed, message⟩

/-- `build_start_resources`. -/
def buildStartResources (env : SetupEnv) (listen : Str) (tls : Option ListenerTlsOptionsParsed) :
    Except JsError BoundListenAddress := do
  env.bind.mapError (fun e =>
    listenBindFailed (Str.lit "Failed to bind listener on '" ++ listen ++ Str.lit "': " ++ e))
  let listenAddress ← env.localAddr.mapError (fun e =>
    listenBindFailed (Str.lit "Failed to read bound listener address for '" ++ listen ++ Str.lit "': " ++ e))
  env.setNonblocking.mapError (fun e => listenBindFailed (Str.lit "Failed to set listener nonblocking: " ++ e))
  match tls with
  | none => return ⟨listenAddress.ip, listenAddress.port⟩
  | some tls => do
      env.tlsSettings.mapError (fun e => invalidProxyOptions (Str.lit "Failed to configure TLS using cert '"
        ++ tls.certPath ++ Str.lit "' and key '" ++ tls.keyPath ++ Str.lit "': " ++ e))
      return ⟨listenAddress.ip, listenAddress.port⟩

def startTaskFailed (reason : Str) : JsError :=
  .fromReason (Str.lit "Proxy start task failed during listener setup: " ++ reason)

/-- The critical section after a failed setup. -/
def failStart (s : Shared) (err : JsError) : Shared :=
  { s with inner := { s.inner with state := .stopped, listenAddress := none } }.notifyStart (.error err.message)

/-- The setup stage, and the critical section when it failed. -/
def setupStart (s : Shared) (attempt : Nat) (lbTasks : List (Str × LoadBalancer)) (setup : Except Str SetupEnv) :
    Shared × Pc :=
  match setup with
  | .error e => (s, .done (.error (startTaskFailed e)))
  | .ok env =>
      match buildStartResources env s.inner.options.listen s.inner.options.tls with
      | .error err => (s.failStart err, .done (.error err))
      | .ok addr => (s, .startRegister attempt addr lbTasks .empty)

def startCancelled : Str := Str.lit "Proxy start was cancelled while stopping"

/-- The critical section at the end of a start. -/
def finaliseStart (s : Shared) (attempt : Nat) (addr : BoundListenAddress) : Shared × Pc :=
  match s.inner.state with
  | .starting | .running =>
      ({ s with inner := { s.inner with state := .running, listenAddress := some addr } }.notifyStart (.ok ()),
        .startWait attempt)
  | .stopping | .stopped => (s.notifyStart (.error startCancelled), .startCancel attempt)

/-- The critical section at the end of a cancelled start. -/
def endCancelledStart (s : Shared) : Shared :=
  { s with inner := { s.inner with state := .stopped, listenAddress := none } }

/-- `wait_for_start_ready`; it blocks while the channel is pending and its sender lives. -/
def waitForStartReady (s : Shared) (rx : Nat) : Option (Except JsError Unit) :=
  match s.starts[rx]? with
  | some (.ready result) => some (result.mapError .fromReason)
  | _ =>
      if s.inner.startNotifier = some rx then none
      else some (.error (.fromReason (Str.lit "Proxy start channel closed unexpectedly")))

/-! ## `stop` -/

/-- A stop begins: the state is `Stopping` and there is a stop notifier. -/
def beginStop (s : Shared) : Shared :=
  match s.inner.stopNotifier with
  | some _ => { s with inner := { s.inner with state := .stopping } }
  | none =>
      { s with
        inner := { s.inner with state := .stopping, stopNotifier := some s.stops.length }
        stops := s.stops ++ [.pending] }

def stop (s : Shared) : Shared × Pc :=
  let seen := s.starts.length
  match s.inner.state with
  | .stopped => ({ s with inner := { s.inner with listenAddress := none } }, .done (.ok ()))
  | .stopping =>
      match s.inner.stopNotifier with
      | none => (s, .done (.error (.fromReason (Str.lit "Proxy internal error: missing stop notifier"))))
      | some rx => (s, .stopWait rx seen)
  | .starting | .running =>
      match s.inner.startNotifier with
      | some rx => (s.beginStop, .stopWaitStart rx seen)
      | none => (s.beginStop, .stopAll seen)

/-- `guard.stop_notifier.take()`, and `send` on it. -/
def notifyStop (s : Shared) : Shared :=
  match s.inner.stopNotifier with
  | some tx => { s with inner := { s.inner with stopNotifier := none }, stops := s.stops.set tx .ready }
  | none => s

/-- The critical section at the end of a stop. -/
def endStop (s : Shared) : Shared :=
  { s with
    inner := { s.inner with state := .stopped, listenAddress := none, startNotifier := none } }.notifyStop

/-- `wait_for_stop_ready`. -/
def waitForStopReady (s : Shared) (rx : Nat) : Option (Except JsError Unit) :=
  match s.stops[rx]? with
  | some .ready => some (.ok ())
  | _ =>
      if s.inner.stopNotifier = some rx then none
      else some (.error (.fromReason (Str.lit "Proxy stop channel closed unexpectedly")))

/-- The handles that `stop_all` takes. -/
def takeServices (s : Shared) (order : IterOrder (Str × ServiceHandle)) : Shared × Hands :=
  ({ s with server := s.server.take }, .displaced ((order.visit s.server.services.entries).map Prod.snd))

/-! ## `address` -/

def address (s : Shared) : Option ProxyAddress :=
  if s.inner.state ≠ .running then none else s.inner.listenAddress.map ProxyAddress.fromBound

/-! ## Updates -/

/-- An update ends: it is recorded and gives the lock back. -/
def endUpdate (s : Shared) (c : CallId) (req : UpdateRequest) (env : Except Str RebuildEnv)
    (order : IterOrder (TransportKind × PoolConfig)) (err : JsError) : Shared × Pc :=
  ({ s with updateLock := none, history := s.history ++ [⟨c, req, env, order, .error err⟩] }, .done (.error err))

def snapshotStep (s : Shared) (c : CallId) (req : UpdateRequest) (choice : Choice) : Shared × Pc :=
  match prepareUpdate s.inner.options s.inner.upstreamsByApp req with
  | .error err => s.endUpdate c req choice.rebuild choice.poolOrder err
  | .ok next => (s, .updateRebuild req next)

def rebuildStep (s : Shared) (c : CallId) (req : UpdateRequest) (next : Snapshot) (choice : Choice) : Shared × Pc :=
  let s' := { s with rebuilds := s.rebuilds + 1 }
  match rebuildUpdate req next s.rebuilds choice.rebuild with
  | .error err => s'.endUpdate c req choice.rebuild choice.poolOrder err
  | .ok rebuilt => (s', .updateCommit req next choice.rebuild rebuilt)

def commitStep (s : Shared) (c : CallId) (req : UpdateRequest) (next : Snapshot) (env : Except Str RebuildEnv)
    (rebuilt : Rebuilt) (order : IterOrder (TransportKind × PoolConfig)) : Shared × Pc :=
  match commitUpdate s.inner.options order req next rebuilt s.catalog with
  | .error err => s.endUpdate c req env order err
  | .ok (catalog, services) =>
      ({ s with
          inner := { s.inner with upstreamsByApp := catalog.upstreamsByApp, pools := catalog.pools }
          router := s.router.update catalog.config
          history := s.history ++ [⟨c, req, env, order, .ok ()⟩] },
        .updateServices req (if s.inner.state = .running then services else []) .empty)

/-- `update_lock` is given back when the call returns. -/
def releaseLock (s : Shared) : Shared := { s with updateLock := none }

def onServer (s : Shared) (server : Server) : Shared := { s with server := server }

/-! ## Steps -/

/-- The synchronous part of a call. -/
def begin (s : Shared) (call : JsCall) (choice : Choice) : Shared × Pc :=
  match call with
  | .start => s.start choice.lbOrder
  | .stop => s.stop
  | .addUpstream appName upstream =>
      match parsePortUpstream upstream with
      | .error err => (s, .done (.error err))
      | .ok upstream => (s, .updateLock ⟨.add, appName, upstream⟩)
  | .removeUpstream appName upstream =>
      match parsePortUpstream upstream with
      | .error err => (s, .done (.error err))
      | .ok upstream => (s, .updateLock ⟨.remove, appName, upstream⟩)

/-- The next step of a call whose hands are empty; `none` when it is blocked or has ended. -/
def proceed (s : Shared) (c : CallId) (choice : Choice) : Pc → Option (Shared × Pc)
  | .idle | .done _ => none
  | .startSetup attempt lbTasks => some (s.setupStart attempt lbTasks choice.setup)
  | .startRegister attempt addr ((name, lb) :: lbTasks) _ =>
      some (s.onServer (s.server.spawn (.health lb)),
        .startRegister attempt addr lbTasks (.register name s.server.nextHandle))
  | .startRegister attempt addr [] _ =>
      some (s.onServer (s.server.spawn (.listener attempt addr)),
        .startListen attempt addr (.register mainServiceName s.server.nextHandle))
  | .startListen attempt addr _ => some (s.finaliseStart attempt addr)
  | .startCancel attempt =>
      let r := s.takeServices choice.serviceOrder
      some (r.1, .startCancelling attempt r.2)
  | .startCancelling _ _ => some (s.endCancelledStart, .done (.error (.fromReason startCancelled)))
  | .startWait rx => (s.waitForStartReady rx).map (fun r => (s, .done r))
  | .stopWaitStart rx seen => (s.waitForStartReady rx).map (fun _ => (s, .stopAll seen))
  | .stopAll seen =>
      let r := s.takeServices choice.serviceOrder
      some (r.1, .stopping seen r.2)
  | .stopping _ _ => some (s.endStop, .done (.ok ()))
  | .stopWait rx _ => (s.waitForStopReady rx).map (fun r => (s, .done r))
  | .updateLock req =>
      if s.updateLock = none then some ({ s with updateLock := some c }, .updateSnapshot req) else none
  | .updateSnapshot req => some (s.snapshotStep c req choice)
  | .updateRebuild req next => some (s.rebuildStep c req next choice)
  | .updateCommit req next env rebuilt => some (s.commitStep c req next env rebuilt choice.poolOrder)
  | .updateServices req (.upsert name lb :: todo) _ =>
      some (s.onServer (s.server.spawn (.health lb)),
        .updateServices req todo (.register name s.server.nextHandle))
  | .updateServices req (.remove name :: todo) _ =>
      some (s.onServer (s.server.remove name),
        .updateServices req todo (.displaced (s.server.services.get name).toList))
  | .updateServices _ [] _ => some (s.releaseLock, .done (.ok ()))

/-- The next step of a call that has begun. -/
def advance (s : Shared) (c : CallId) (choice : Choice) (pc : Pc) : Option (Shared × Pc) :=
  if pc.hands = .empty then s.proceed c choice pc
  else (pc.hands.step s.server).map (fun r => (s.onServer r.1, pc.withHands r.2))

end Shared

structure World where
  shared : Shared
  calls : CallId → Pc

inductive Label where
  | begin (c : CallId) (call : JsCall) (choice : Choice)
  | advance (c : CallId) (choice : Choice)
  | taskEnds (h : ServiceHandle)

def step (w : World) : Label → Option World
  | .begin c call choice =>
      match w.calls c with
      | .idle =>
          let r := w.shared.begin call choice
          some ⟨r.1, Function.update w.calls c r.2⟩
      | _ => none
  | .advance c choice =>
      (w.shared.advance c choice (w.calls c)).map (fun r => ⟨r.1, Function.update w.calls c r.2⟩)
  | .taskEnds h =>
      if w.shared.server.statusOf h = some .signalled then
        some { w with shared := w.shared.onServer (w.shared.server.setStatus h .terminated) }
      else none

/-! ## `Proxy::new` -/

def stickyConfig (parsed : ProxyOptionsParsed) : StickySessionConfig where
  enabled := parsed.stickySessions.enabled
  cookieName := parsed.stickySessions.cookieName
  headerName := parsed.stickySessions.headerName
  ttl := parsed.stickySessions.ttlMs * 1000000
  maxEntries := parsed.stickySessions.maxEntries
  cookieSecure := parsed.tls.isSome

/-- The proxy with its options parsed. -/
def Shared.new (parsed : ProxyOptionsParsed) : Shared where
  inner :=
    { options := parsed
      state := .stopped
      listenAddress := none
      startNotifier := none
      stopNotifier := none
      upstreamsByApp := parsed.applications.foldl (fun m app => m.insert app.name .empty) .empty
      pools := .empty }
  router :=
    (Router.new .default (stickyConfig parsed) parsed.limits parsed.timeouts).update (buildRouterConfig parsed .empty)
  server := .new
  starts := []
  stops := []
  rebuilds := 0
  updateLock := none
  history := []

def World.new (parsed : ProxyOptionsParsed) : World := ⟨.new parsed, fun _ => .idle⟩

/-- `Proxy::new`. -/
def Proxy.new (options : ProxyOptions) : Except JsError World := (parseProxyOptions options).map World.new

end NeemataProxy
