import NeemataProxy.Proxy.UpdateTheorems
import NeemataProxy.Proxy.Lemmas.RouterConfig
import NeemataProxy.Router.Lemmas.Filter
import NeemataProxy.Traffic.Step

/-!
# What a request knows

Behind `request_filter` a request holds the pool that the configuration it loaded gives it, and every address that it is
given is one of that pool.
-/

namespace NeemataProxy

open Lib Routing Options

/-! ## Steps of the proxy -/

theorem router_notifyStart (s : Shared) (result : Except Str Unit) : (s.notifyStart result).router = s.router := by
  unfold Shared.notifyStart; split <;> rfl

theorem router_beginStop (s : Shared) : s.beginStop.router = s.router := by unfold Shared.beginStop; split <;> rfl

theorem router_endStop (s : Shared) : s.endStop.router = s.router := by
  unfold Shared.endStop Shared.notifyStop; split <;> rfl

theorem router_act {s s' : Shared} {c : CallId} {choice : Choice} {pc pc' : Pc} (hact : Act s c choice pc s' pc') :
    ∃ config, s'.router = s.router.update config := by
  cases hact with
  | committed => exact ⟨_, rfl⟩
  | stopBegunWaiting | stopBegun => exact ⟨s.router.config, router_beginStop s⟩
  | setupFailed => exact ⟨s.router.config, router_notifyStart _ _⟩
  | finalised | cancelled => exact ⟨s.router.config, router_notifyStart _ _⟩
  | stopEnded => exact ⟨s.router.config, router_endStop s⟩
  | _ => exact ⟨s.router.config, rfl⟩

theorem router_step {w w' : World} {l : Label} (h : step w l = some w') :
    ∃ config, w'.shared.router = w.shared.router.update config := by
  rcases step_cases h with ⟨c, choice, s', pc', -, hact, rfl⟩ | ⟨t, rfl, -, rfl⟩
  · exact router_act hact
  · exact ⟨w.shared.router.config, rfl⟩

/-! ## The route of a request -/

/-- The pool of a request is the one that the configuration which it loaded gives it. -/
structure Request.Routed (parsed : ProxyOptionsParsed) (req : Request) (resolved : ResolvedPool) : Prop where
  pool : req.ctx.resolvedPool = some resolved
  transport : req.ctx.selectedTransport = some resolved.transport
  source : ∃ s session host route pools pool isHttp2, req.loaded = some s ∧ req.session = some session ∧
    Coherent parsed (lastRebuild s.history) s.catalog ∧ extractHost session = .ok host ∧
    resolveRoute s.router.config host (extractFirstPathSegment session) = some route ∧
    req.ctx.appName = some route.appName ∧ s.router.config.apps.get route.appName = some pools ∧
    choosePool pools session.isUpgradeReq = (some pool, isHttp2) ∧ resolved = pool.resolved session.isUpgradeReq isHttp2

/-- A request that is to be proxied has its route and its pool. -/
theorem routed_filterStep {parsed : ProxyOptionsParsed} {t : Traffic}
    (hcoherent : Coherent parsed (lastRebuild t.world.shared.history) t.world.shared.catalog) {now : Nat} {session : Session}
    (hphase : (t.filterStep now session).2.phase = .upstreamPeer) :
    ∃ resolved, (t.filterStep now session).2.Routed parsed resolved := by
  have hok : (requestFilter now t.router session .default).2.2.2 = .ok false := by
    simp only [Traffic.filterStep] at hphase
    split at hphase
    · assumption
    · cases hphase
  rcases requestFilter_cases (Prod.eta _).symm with ⟨-, -, hne⟩ | ⟨host, route, hhost, hroute, -, hcheck⟩
  · exact absurd hok hne
  · have hctx : ((requestFilter now t.router session .default).2.2.1, .ok false) = checkPool t.router.config
        (assigned now t.router session route .default).2 := by rw [← hcheck]; exact Prod.ext rfl hok.symm
    obtain ⟨resolved, hresolved, hctx⟩ := checkPool_ok hctx
    obtain ⟨happ, -, hpool⟩ := assignAffinity_ctx now session t.router.sticky
      (assignRoute t.router.config route session.isUpgradeReq .default)
    obtain ⟨pools, pool, isHttp2, hpools, hchoose, heq⟩ := assignRoute_pool (hpool.symm.trans hresolved)
    refine ⟨resolved, ⟨?_, ?_, t.world.shared, session, host, route, pools, pool, isHttp2, rfl, rfl, hcoherent, hhost, hroute,
      ?_, hpools, hchoose, heq⟩⟩
    · exact (congrArg RouterCtx.resolvedPool hctx).trans hresolved
    · exact congrArg RouterCtx.selectedTransport hctx
    · exact (congrArg RouterCtx.appName hctx).trans (happ.trans (assignRoute_ctx _ _ _ _).1)

/-! ## The pool of a route -/

/-- The transport of the pool that a request for an application uses. -/
def wantedTransport (config : RouterConfig) (app : Str) (isUpgrade : Bool) : TransportKind :=
  if isUpgrade then .ws else if (config.apps.get app).any (fun pools => pools.http2.isSome) then .http2 else .http1

theorem choosePool_wanted {config : RouterConfig} {app : Str} {pools : AppPools} {pool : PoolConfig} {isUpgrade isHttp2 : Bool}
    (hpools : config.apps.get app = some pools) (h : choosePool pools isUpgrade = (some pool, isHttp2)) :
    pools.pool (wantedTransport config app isUpgrade) = some pool ∧
      (pool.resolved isUpgrade isHttp2).transport = wantedTransport config app isUpgrade := by
  unfold choosePool at h
  unfold wantedTransport
  rw [hpools]
  cases isUpgrade with
  | true =>
      obtain ⟨hpool, rfl⟩ := Prod.mk.inj h
      exact ⟨hpool, rfl⟩
  | false =>
      cases hhttp2 : pools.http2 with
      | some p =>
          simp only [hhttp2] at h
          obtain ⟨hpool, rfl⟩ := Prod.mk.inj h
          simp only [Option.any_some, hhttp2]
          exact ⟨hhttp2.trans hpool, rfl⟩
      | none =>
          simp only [hhttp2] at h
          obtain ⟨hpool, rfl⟩ := Prod.mk.inj h
          simp only [Option.any_some, hhttp2]
          exact ⟨hpool, rfl⟩

/-- `address` is that of an upstream of the application that the request matches in `s`, of the transport that it asks for
there, as the last successful rebuild before `s` resolved it. -/
def Reaches (s : Shared) (session : Session) (address : Str) : Prop :=
  ∃ host route upstreams u env addrs, extractHost session = .ok host ∧
    resolveRoute s.router.config host (extractFirstPathSegment session) = some route ∧
    s.catalog.upstreams route.appName = some upstreams ∧ u ∈ upstreams ∧
    u.transport = wantedTransport s.router.config route.appName session.isUpgradeReq ∧
    lastRebuild s.history route.appName = some env ∧ env.resolve u = .ok addrs ∧
    ∃ a ∈ addrs, address = a.toStr

namespace Request.Routed

variable {parsed : ProxyOptionsParsed} {req : Request} {resolved : ResolvedPool}

/-- The pool of a request is in the tables of the proxy that it loaded. -/
theorem coherent (h : req.Routed parsed resolved) : ∃ s session host route upstreams pool, req.loaded = some s ∧
    req.session = some session ∧ extractHost session = .ok host ∧
    resolveRoute s.router.config host (extractFirstPathSegment session) = some route ∧
    s.catalog.upstreams route.appName = some upstreams ∧
    AppCoherent parsed route.appName upstreams (lastRebuild s.history route.appName)
      (fun t => s.catalog.pools.get (route.appName, t)) ∧
    s.catalog.pools.get (route.appName, wantedTransport s.router.config route.appName session.isUpgradeReq) = some pool ∧
    resolved.lb = pool.lb ∧ resolved.backends = pool.backends := by
  obtain ⟨s, session, host, route, pools, pool, isHttp2, hloaded, hsession, hcoherent, hhost, hroute, -, hpools, hchoose, heq⟩ :=
    h.source
  have hconfig : s.router.config = buildRouterConfig parsed s.catalog.pools := hcoherent.config
  have happs := get_apps_buildRouterConfig parsed s.catalog.pools route.appName
  rw [← hconfig, hpools] at happs
  split at happs
  · rename_i happ
    obtain ⟨upstreams, hupstreams⟩ := Option.isSome_iff_exists.mp ((hcoherent.applications route.appName).mpr happ)
    obtain ⟨hpool, -⟩ := choosePool_wanted hpools hchoose
    rw [Option.some.inj happs, pool_appPools] at hpool
    exact ⟨s, session, host, route, upstreams, pool, hloaded, hsession, hhost, hroute, hupstreams,
      hcoherent.app _ _ hupstreams, hpool, by rw [heq]; rfl, by rw [heq]; rfl⟩
  · cases happs

theorem backends (h : req.Routed parsed resolved) : resolved.backends = resolved.lb.addrs.image SocketAddr.toStr := by
  obtain ⟨s, session, host, route, upstreams, pool, -, -, -, -, -, happ, hpool, hlb, hbackends⟩ := h.coherent
  rw [hbackends, hlb]
  exact happ.backends _ _ hpool

/-- Every address of the pool is that of an upstream. -/
theorem reaches (h : req.Routed parsed resolved) {address : Str} (haddress : address ∈ resolved.backends) :
    ∃ s session, req.loaded = some s ∧ req.session = some session ∧ Reaches s session address := by
  obtain ⟨s, session, host, route, upstreams, pool, hloaded, hsession, hhost, hroute, hupstreams, happ, hpool, -, hbackends⟩ :=
    h.coherent
  rw [hbackends, happ.backends _ _ hpool, Finset.mem_image] at haddress
  obtain ⟨a, ha, rfl⟩ := haddress
  obtain ⟨env, henv, haddrs⟩ := happ.addrs _ _ hpool
  obtain ⟨u, hu, ht, addrs, hresolve, hmem⟩ := (haddrs a).mp ha
  exact ⟨s, session, hloaded, hsession, host, route, upstreams, u, env, addrs, hhost, hroute, hupstreams, hu, ht, henv,
    hresolve, a, hmem, rfl⟩

end Request.Routed

/-! ## What later phases keep -/

/-- Behind `request_filter` a request keeps what it was given; only addresses are added. -/
structure Request.Extends (req req' : Request) : Prop where
  session : req'.session = req.session
  loaded : req'.loaded = req.loaded
  appName : req'.ctx.appName = req.ctx.appName
  resolvedPool : req'.ctx.resolvedPool = req.ctx.resolvedPool
  selectedTransport : req'.ctx.selectedTransport = req.ctx.selectedTransport
  affinityKey : req'.ctx.affinityKey = req.ctx.affinityKey
  selected : ∀ a ∈ req.selected, a ∈ req'.selected

theorem Request.Extends.refl (req : Request) : req.Extends req := ⟨rfl, rfl, rfl, rfl, rfl, rfl, fun _ h => h⟩

theorem Request.Extends.routed {parsed : ProxyOptionsParsed} {req req' : Request} {resolved : ResolvedPool}
    (h : req.Extends req') (hrouted : req.Routed parsed resolved) : req'.Routed parsed resolved := by
  refine ⟨h.resolvedPool.trans hrouted.pool, h.selectedTransport.trans hrouted.transport, ?_⟩
  rw [h.loaded, h.session, h.appName]
  exact hrouted.source

section Steps

variable {hash : AffinityMapKey → UInt64} {t t' : Traffic} {r : RequestId} {l : TrafficLabel} {router : Router} {req : Request}

theorem extends_lookup (hash : AffinityMapKey → UInt64) (t : Traffic) (r : RequestId) (now : Nat)
    (ord : IterOrder (AffinityMapKey × AffinityEntry)) :
    (t.requests r).Extends (t.lookupStep hash (t.requests r) now ord).2 := by
  have hctx : (upstreamPeerLookup hash ord now t.router (t.requests r).ctx).2.1 = (t.requests r).ctx ∨
      ∃ hint, (upstreamPeerLookup hash ord now t.router (t.requests r).ctx).2.1 =
        { (t.requests r).ctx with failureHint := hint } := by
    unfold upstreamPeerLookup
    split
    · exact .inr ⟨_, rfl⟩
    · split <;> exact .inl rfl
  simp only [Traffic.lookupStep]
  rcases hctx with h | ⟨hint, h⟩
  · rw [h]; exact ⟨rfl, rfl, rfl, rfl, rfl, rfl, fun _ h => h⟩
  · rw [h]; exact ⟨rfl, rfl, rfl, rfl, rfl, rfl, fun _ h => h⟩

theorem extends_select (req : Request) (resolved : ResolvedPool) (selected : Option SocketAddr) :
    req.Extends (Traffic.selectStep req resolved selected) := by
  cases selected with
  | none => exact ⟨rfl, rfl, rfl, rfl, rfl, rfl, fun _ h => h⟩
  | some addr => exact ⟨rfl, rfl, rfl, rfl, rfl, rfl, fun _ h => List.mem_append_left _ h⟩

theorem extends_fail (hash : AffinityMapKey → UInt64) (t : Traffic) (r : RequestId) (e : Error) :
    (t.requests r).Extends (t.failStep hash (t.requests r) e).2 := by
  have hctx : (failToConnect hash t.router (t.requests r).ctx e).2.1 = (t.requests r).ctx ∨
      (failToConnect hash t.router (t.requests r).ctx e).2.1 = { (t.requests r).ctx with stickyRetryAttempted := true } := by
    unfold failToConnect
    split
    · split
      · exact .inl rfl
      · exact .inr rfl
    · exact .inl rfl
  simp only [Traffic.failStep]
  rcases hctx with h | h
  · rw [h]; exact ⟨rfl, rfl, rfl, rfl, rfl, rfl, fun _ h => h⟩
  · rw [h]; exact ⟨rfl, rfl, rfl, rfl, rfl, rfl, fun _ h => h⟩

theorem extends_act (hact : Traffic.Act hash t r l router req) :
    (t.requests r).phase = .arriving ∨ (t.requests r).Extends req := by
  cases hact with
  | filtered now session hphase => exact .inl hphase
  | lookedUp now ord => exact .inr (extends_lookup hash t r now ord)
  | selected selected => exact .inr (extends_select _ _ _)
  | bound => exact .inr ⟨rfl, rfl, rfl, rfl, rfl, rfl, fun _ h => h⟩
  | failed e => exact .inr (extends_fail hash t r e)
  | retried => exact .inr ⟨rfl, rfl, rfl, rfl, rfl, rfl, fun _ h => h⟩

theorem config_act (hact : Traffic.Act hash t r l router req) : router.config = t.router.config := by
  cases hact with
  | filtered now session =>
      rcases requestFilter_cases (Prod.eta (requestFilter now t.router session .default)).symm with
        ⟨hrouter, -⟩ | ⟨host, route, -, -, hrouter, -⟩
      · simp only [Traffic.filterStep, hrouter]
      · simp only [Traffic.filterStep, hrouter]
  | lookedUp now ord =>
      simp only [Traffic.lookupStep, upstreamPeerLookup]
      split
      · rfl
      · split <;> rfl
  | bound now ord =>
      simp only [Traffic.bindStep, upstreamPeerBind]
      split <;> rfl
  | failed e =>
      simp only [Traffic.failStep, failToConnect]
      split
      · split <;> rfl
      · rfl
  | selected | retried => rfl

theorem ledger_act_request (hact : Traffic.Act hash t r l router req) :
    (t.set r router req).world.shared.ledger = t.world.shared.ledger := by
  have hconfig : router.config = t.world.shared.router.config := config_act hact
  simp only [Traffic.set, Shared.ledger, Shared.catalog, hconfig]

end Steps

end NeemataProxy
