import NeemataProxy.Lib.Ascii
import NeemataProxy.Router.Session

/-!
# The phases of a request (`impl ProxyHttp for SharedRouter` in `src/router.rs`)

Each phase takes the router, the session and the context of the request and returns what it changes. The phase
`upstream_peer` touches the affinity store twice, so it is cut into the part up to the lookup, the choice of
Pingora's balancer and the part from the binding on.
-/

namespace NeemataProxy.Routing

open Lib

/-! ## Errors and the context -/

/-- `pingora::ErrorType`, as far as the router tells its values apart. -/
inductive ErrorType where
  | httpStatus (status : Nat)
  | internalError
  | other
  deriving DecidableEq, Repr

/-- `pingora::Error`. -/
structure Error where
  etype : ErrorType
  context : Str
  retry : Bool
  deriving DecidableEq, Repr

/-- `Error::explain`. -/
def Error.explain (etype : ErrorType) (context : Str) : Error := ⟨etype, context, false⟩

/-- How a phase ends early. -/
inductive Abort where
  | panic (p : Panic)
  | error (e : Error)
  deriving DecidableEq, Repr

inductive FailureHint where
  | missingApplication
  | missingWsPool
  | missingUpstreamPool
  | unhealthyUpstream
  deriving DecidableEq, Repr

structure RouterCtx where
  appName : Option Str
  pathRewriteSegment : Option Str
  isUpgrade : Bool
  resolvedPool : Option ResolvedPool
  selectedTransport : Option TransportKind
  affinityKey : Option Str
  shouldSetCookie : Bool
  stickyRetryAttempted : Bool
  failureHint : Option FailureHint
  deriving DecidableEq

/-- `new_ctx`. -/
def RouterCtx.default : RouterCtx := ⟨none, none, false, none, none, none, false, false, none⟩

/-! ## `request_filter` -/

/-- `session.respond_error(status)`. -/
def respondError (session : Session) (status : Nat) : Session × Except Abort Unit :=
  if session.closed then (session, .error (.error (.explain .other (Str.lit "write error"))))
  else ({ session with downstream := { session.downstream with responded := some status } }, .ok ())

def rejectRequest (session : Session) (status : Nat) : Session × Except Abort Bool :=
  let session := { session with downstream := { session.downstream with keepaliveSeconds := none } }
  let r := respondError session status
  (r.1, r.2.map (fun _ => true))

def applyDownstreamTimeouts (session : Session) (timeouts : Options.ProxyTimeoutOptionsParsed) : Session :=
  { session with
    downstream :=
      { session.downstream with
        readTimeoutMs := some timeouts.downstreamBodyIdleTimeoutMs
        keepaliveSeconds := some timeouts.downstreamKeepAliveTimeoutSeconds } }

/-- The matched route and the pool it resolves to, as they are put into the context. -/
def assignRoute (config : RouterConfig) (route : ResolvedRoute) (isUpgrade : Bool) (ctx : RouterCtx) : RouterCtx :=
  let ctx :=
    { ctx with
      appName := some route.appName
      pathRewriteSegment := route.pathRewriteSegment
      isUpgrade := isUpgrade }
  match config.apps.get route.appName with
  | some pools =>
      let r := choosePool pools isUpgrade
      match r.1 with
      | some pool => { ctx with resolvedPool := some (pool.resolved isUpgrade r.2) }
      | none => ctx
  | none => ctx

/-- The affinity key of a routed request; `now` is the wall clock. -/
def assignAffinity (now : Nat) (session : Session) (sticky : Option (StickySessionState stickyShardCount))
    (ctx : RouterCtx) : Option (StickySessionState stickyShardCount) × RouterCtx :=
  match sticky, ctx.appName, ctx.resolvedPool with
  | some sticky, some _, some _ =>
      let cookieKey := extractCookieValue session sticky.config.cookieName
      let headerKey := extractHeaderValue session sticky.config.headerName
      let r :=
        match cookieKey, headerKey with
        | some key, _ => (sticky, key)
        | none, some key => (sticky, key)
        | none, none => sticky.generateAffinityKey now
      (some r.1, { ctx with affinityKey := some r.2, shouldSetCookie := true })
  | sticky, _, _ => (sticky, ctx)

/-- An upgrade request whose application has no pool for it. -/
def lacksWsPool (config : RouterConfig) (ctx : RouterCtx) : Bool :=
  ctx.isUpgrade && ((ctx.appName.bind config.apps.get).any (fun pools => pools.ws.isNone))

/-- The checks at the end of `request_filter`. -/
def checkPool (config : RouterConfig) (ctx : RouterCtx) : RouterCtx × Except Abort Bool :=
  if lacksWsPool config ctx then
    ({ ctx with failureHint := some .missingWsPool },
      .error (.error (.explain (.httpStatus 503) (Str.lit "no ws pool available for upgrade request"))))
  else
    match ctx.resolvedPool with
    | none =>
        ({ ctx with failureHint := some .missingUpstreamPool },
          .error (.error (.explain (.httpStatus 503) (Str.lit "no upstream pool resolved"))))
    | some resolved => ({ ctx with selectedTransport := some resolved.transport }, .ok false)

/-- `request_filter` from the resolution of the route on. -/
def routeRequest (now : Nat) (router : Router) (session : Session) (host : Option Str) (ctx : RouterCtx) :
    Router × RouterCtx × Except Abort Bool :=
  match resolveRoute router.config host (extractFirstPathSegment session) with
  | none =>
      (router, { ctx with failureHint := some .missingApplication },
        .error (.error (.explain (.httpStatus 404) (Str.lit "no application matched"))))
  | some route =>
      let ctx := assignRoute router.config route session.isUpgradeReq ctx
      let r := assignAffinity now session router.sticky ctx
      ({ router with sticky := r.1 }, checkPool router.config r.2)

/-- `Ok(true)` when the request has been answered, `Ok(false)` when it is to be proxied. -/
def requestFilter (now : Nat) (router : Router) (session : Session) (ctx : RouterCtx) :
    Router × Session × RouterCtx × Except Abort Bool :=
  match requestLimitRejectionStatus session router.limits with
  | some status =>
      let r := rejectRequest session status
      (router, r.1, ctx, r.2)
  | none =>
      let session := applyDownstreamTimeouts session router.timeouts
      match extractHost session with
      | .error p => (router, session, ctx, .error (.panic p))
      | .ok host =>
          let r := routeRequest now router session host ctx
          (r.1, session, r.2)

/-! ## `upstream_peer` -/

/-- `HttpPeer` with the options that the router sets; timeouts are in milliseconds. -/
structure HttpPeer where
  address : Str
  tls : Bool
  sni : Str
  connectionTimeout : Option Nat
  totalConnectionTimeout : Option Nat
  readTimeout : Option Nat
  writeTimeout : Option Nat
  maxHttpVersion : Nat
  minHttpVersion : Nat
  deriving DecidableEq, Repr

/-- The peer for a selected address. -/
def peerFor (resolved : ResolvedPool) (timeouts : Options.ProxyTimeoutOptionsParsed) (selectedAddr : Str) : HttpPeer where
  address := selectedAddr
  tls := resolved.secure
  sni := resolved.verifyHostname
  connectionTimeout := some timeouts.upstreamConnectTimeoutMs
  totalConnectionTimeout := some timeouts.upstreamConnectTimeoutMs
  readTimeout := some timeouts.upstreamReadTimeoutMs
  writeTimeout := some timeouts.upstreamWriteTimeoutMs
  maxHttpVersion := if resolved.isHttp2 then 2 else 1
  minHttpVersion := if resolved.isHttp2 then 2 else 1

/-- The application and the affinity key of a request that the store is asked for. -/
def stickyTarget (router : Router) (ctx : RouterCtx) :
    Option (StickySessionState stickyShardCount × Str × Str) :=
  match router.sticky, ctx.appName, ctx.affinityKey with
  | some sticky, some appName, some affinityKey => some (sticky, appName, affinityKey)
  | _, _, _ => none

/-- What the lookup of `upstream_peer` leaves to do. -/
inductive PeerLookup where
  | failed (a : Abort)
  | mapped (resolved : ResolvedPool) (addr : Str)
  | select (resolved : ResolvedPool)
  deriving DecidableEq

section Peer

variable (hash : AffinityMapKey → UInt64) (ord : IterOrder (AffinityMapKey × AffinityEntry))

/-- `upstream_peer` up to the lookup. -/
def upstreamPeerLookup (now : Nat) (router : Router) (ctx : RouterCtx) : Router × RouterCtx × PeerLookup :=
  match ctx.resolvedPool with
  | none =>
      (router, { ctx with failureHint := some .missingUpstreamPool },
        .failed (.error (.explain (.httpStatus 503) (Str.lit "no upstream pool resolved"))))
  | some resolved =>
      match stickyTarget router ctx with
      | some (sticky, appName, affinityKey) =>
          let r := sticky.lookup hash ord now appName resolved.transport affinityKey resolved.backends
          ({ router with sticky := some r.1 }, ctx,
            match r.2 with
            | some mapped => .mapped resolved mapped
            | none => .select resolved)
      | none => (router, ctx, .select resolved)

/-- What `upstream_peer` does with the answer of `lb.select`. -/
def upstreamPeerSelect (ctx : RouterCtx) (selected : Option SocketAddr) : RouterCtx × Except Abort Str :=
  match selected with
  | none =>
      ({ ctx with failureHint := some .unhealthyUpstream },
        .error (.error (.explain (.httpStatus 503) (Str.lit "no healthy upstreams available"))))
  | some backend => (ctx, .ok backend.toStr)

/-- `upstream_peer` from the binding on. -/
def upstreamPeerBind (now : Nat) (router : Router) (ctx : RouterCtx) (resolved : ResolvedPool) (selected : Str) :
    Router × HttpPeer :=
  let router' :=
    match stickyTarget router ctx with
    | some (sticky, appName, affinityKey) =>
        { router with sticky := some (sticky.bind hash ord now appName resolved.transport affinityKey selected) }
    | none => router
  (router', peerFor resolved router.timeouts selected)

/-- `upstream_peer` when nothing else happens in between; `select` is `lb.select`. -/
def upstreamPeer (now : Nat) (select : LoadBalancer → Option SocketAddr) (router : Router) (ctx : RouterCtx) :
    Router × RouterCtx × Except Abort HttpPeer :=
  let l := upstreamPeerLookup hash ord now router ctx
  match l.2.2 with
  | .failed a => (l.1, l.2.1, .error a)
  | .mapped resolved addr => (l.1, l.2.1, .ok (peerFor resolved router.timeouts addr))
  | .select resolved =>
      let s := upstreamPeerSelect l.2.1 (select resolved.lb)
      match s.2 with
      | .error a => (l.1, s.1, .error a)
      | .ok selected =>
          let b := upstreamPeerBind hash ord now l.1 s.1 resolved selected
          (b.1, s.1, .ok b.2)

end Peer

/-! ## `response_filter` -/

/-- `HeaderValue::try_from(value)`: no control character but the tab. -/
def headerValue (value : Str) : Option (List UInt8) :=
  if (Str.bytes value).all (fun b => (32 ≤ b.toNat && b.toNat ≠ 127) || b.toNat == 9) then some (Str.bytes value)
  else none

/-- The fields of the response to the client. -/
def responseFilter (router : Router) (upstreamResponse : List (Str × List UInt8)) (ctx : RouterCtx) :
    Except Error (List (Str × List UInt8)) :=
  match router.sticky, ctx.affinityKey with
  | some sticky, some affinityKey =>
      if ctx.shouldSetCookie then
        match headerValue (sticky.cookieHeaderValue affinityKey) with
        | some value => .ok (upstreamResponse ++ [(Str.lit "set-cookie", value)])
        | none => .error (.explain .internalError (Str.lit "failed to append sticky session cookie"))
      else .ok upstreamResponse
  | _, _ => .ok upstreamResponse

/-! ## `fail_to_connect` -/

def failToConnect (hash : AffinityMapKey → UInt64) (router : Router) (ctx : RouterCtx) (e : Error) :
    Router × RouterCtx × Error :=
  match stickyTarget router ctx, ctx.selectedTransport with
  | some (sticky, appName, affinityKey), some transport =>
      let router := { router with sticky := some (sticky.remove hash appName transport affinityKey) }
      if ctx.stickyRetryAttempted then (router, ctx, e)
      else (router, { ctx with stickyRetryAttempted := true }, { e with retry := true })
  | _, _ => (router, ctx, e)

end NeemataProxy.Routing
