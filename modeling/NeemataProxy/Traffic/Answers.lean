import NeemataProxy.Proxy.Lemmas.Applications
import NeemataProxy.Router.Failure
import NeemataProxy.Traffic.Lemmas.Sound
import NeemataProxy.Traffic.Runs

/-!
# What a request is owed

The options and the upstreams of the moment decide what becomes of a request; nothing else that has happened to the proxy
matters.
-/

namespace NeemataProxy

open Lib Routing Options

/-! ## What the options and the upstreams say -/

open Classical in
/-- An upgrade asks for `Ws`, every other request for `Http2` where there is an upstream for it, else for `Http1`. -/
noncomputable def askedTransport (current : Set PortUpstream) (isUpgrade : Bool) : TransportKind :=
  if isUpgrade then .ws else if ∃ u ∈ current, u.transport = .http2 then .http2 else .http1

/-- A request within the limits goes to the application that owns its host or its path, if that has an upstream for it. -/
inductive Owed (options : ProxyOptionsParsed) (upstreams : Str → Option (Set PortUpstream)) (session : Session) :
    Answer → Prop where
  | refused {status : Nat} (hlimits : requestLimitRejectionStatus session options.limits = some status) :
      Owed options upstreams session (.status (session.told status))
  | unreadable {p : Panic} (hlimits : requestLimitRejectionStatus session options.limits = none)
      (hhost : extractHost session = .error p) : Owed options upstreams session .panicked
  | unmatched {host : Option Str} (hlimits : requestLimitRejectionStatus session options.limits = none)
      (hhost : extractHost session = .ok host)
      (hroute : Dispatch (Owns options.applications) host (extractFirstPathSegment session) none) :
      Owed options upstreams session (.status (session.told 404))
  | unserved {host : Option Str} {route : ResolvedRoute} {current : Set PortUpstream}
      (hlimits : requestLimitRejectionStatus session options.limits = none) (hhost : extractHost session = .ok host)
      (hroute : Dispatch (Owns options.applications) host (extractFirstPathSegment session) (some route))
      (hcurrent : upstreams route.appName = some current)
      (hnone : ∀ u ∈ current, u.transport ≠ askedTransport current session.isUpgradeReq) :
      Owed options upstreams session (.status (session.told 503))
  | served {host : Option Str} {route : ResolvedRoute} {current : Set PortUpstream} {u : PortUpstream}
      (hlimits : requestLimitRejectionStatus session options.limits = none) (hhost : extractHost session = .ok host)
      (hroute : Dispatch (Owns options.applications) host (extractFirstPathSegment session) (some route))
      (hcurrent : upstreams route.appName = some current) (hu : u ∈ current)
      (htransport : u.transport = askedTransport current session.isUpgradeReq) :
      Owed options upstreams session
        (.proxied (some route.appName) (some (askedTransport current session.isUpgradeReq)))

/-! ## Routes -/

theorem resolveRoute_of_unowned {config : RouterConfig} {host : Option Str}
    (hsub : ∀ name app, host = some name → config.owner (.subdomain name) ≠ some app) (segment : Option Str) :
    resolveRoute config host segment = pathRoute config segment := by
  cases host with
  | none => rfl
  | some name =>
      have hnone : config.subdomainRoutes.get name = none := Option.eq_none_iff_forall_ne_some.mpr fun app => hsub name app rfl
      simp only [resolveRoute, hnone]

theorem pathRoute_of_unowned {config : RouterConfig} {segment : Option Str}
    (hpath : ∀ name app, segment = some name → config.owner (.path name) ≠ some app) :
    pathRoute config segment = defaultRoute config := by
  cases segment with
  | none => rfl
  | some name =>
      have hnone : config.pathRoutes.get name = none := Option.eq_none_iff_forall_ne_some.mpr fun app => hpath name app rfl
      simp only [pathRoute, hnone]

/-- There is one way to go by the owners of a table. -/
theorem resolveRoute_eq {config : RouterConfig} {host segment : Option Str} {route : Option ResolvedRoute}
    (h : Dispatch (fun key app => config.owner key = some app) host segment route) :
    resolveRoute config host segment = route := by
  cases h with
  | subdomain hhost howns =>
      subst hhost
      have hget : config.subdomainRoutes.get _ = some _ := howns
      simp only [resolveRoute, hget]
  | path hsub hsegment howns =>
      subst hsegment
      have hget : config.pathRoutes.get _ = some _ := howns
      rw [resolveRoute_of_unowned hsub]
      simp only [pathRoute, hget]
  | default hsub hno howns =>
      have hdefault : config.defaultApp = some _ := howns
      rw [resolveRoute_of_unowned hsub, pathRoute_of_unowned hno, defaultRoute, hdefault]
      rfl
  | unmatched hsub hno hdefault =>
      have hnone : config.defaultApp = none := Option.eq_none_iff_forall_ne_some.mpr hdefault
      rw [resolveRoute_of_unowned hsub, pathRoute_of_unowned hno, defaultRoute, hnone]
      rfl

theorem dispatch_iff {options : ProxyOptionsParsed} (hdistinct : Distinct options.applications) (pools : Pools)
    {host segment : Option Str} {route : Option ResolvedRoute} :
    Dispatch (Owns options.applications) host segment route ↔
      resolveRoute (buildRouterConfig options pools) host segment = route := by
  have howner := owner_buildRouterConfig pools hdistinct
  constructor
  · exact fun h => resolveRoute_eq (h.mono fun key app => (howner key app).symm)
  · rintro rfl
    exact (dispatch_resolveRoute _ host segment).mono howner

theorem Dispatch.application {applications : List ApplicationOptionsParsed} {host segment : Option Str} {route : ResolvedRoute}
    (h : Dispatch (Owns applications) host segment (some route)) : ∃ a ∈ applications, a.name = route.appName := by
  cases h with
  | subdomain _ howns | path _ _ howns | default _ _ howns =>
      obtain ⟨a, ha, -, hname⟩ := howns
      exact ⟨a, ha, hname⟩

/-! ## Pools -/

/-- The pool that a request asks for is there when one of the upstreams is of its transport. -/
theorem choosePool_asked {options : ProxyOptionsParsed} {app : Str} {current : Set PortUpstream} {last : Option RebuildEnv}
    {pools : Pools} (h : AppCoherent options app current last fun t => pools.get (app, t)) (isUpgrade : Bool) :
    choosePool (appPools pools app) isUpgrade = (pools.get (app, askedTransport current isUpgrade),
      decide (askedTransport current isUpgrade = .http2)) := by
  have hhttp2 := h.pools .http2
  unfold choosePool askedTransport
  cases isUpgrade with
  | true => rfl
  | false =>
      simp only [Bool.false_eq_true, if_false]
      rw [← hhttp2]
      cases hget : pools.get (app, .http2) with
      | none => simp [appPools, hget]
      | some pool => simp [appPools, hget]

theorem transport_asked (pool : PoolConfig) (current : Set PortUpstream) (isUpgrade : Bool) :
    (pool.resolved isUpgrade (decide (askedTransport current isUpgrade = .http2))).transport =
      askedTransport current isUpgrade := by
  unfold askedTransport PoolConfig.resolved
  cases isUpgrade with
  | true => rfl
  | false =>
      simp only [Bool.false_eq_true, if_false]
      split <;> rfl

/-! ## The answer is what is owed -/

section Answer

variable {options : ProxyOptionsParsed} {last : Str → Option RebuildEnv} {c : Catalog} {router : Router} {session : Session}
  {now : Nat}

/-- A matched request is proxied when its application has the pool that it asks for. -/
theorem answer_of_dispatch (h : Coherent options last c) (hconfig : router.config = c.config)
    (hlimits : requestLimitRejectionStatus session router.limits = none) {host : Option Str}
    (hhost : extractHost session = .ok host) {route : ResolvedRoute}
    (hroute : resolveRoute router.config host (extractFirstPathSegment session) = some route) {current : Set PortUpstream}
    (hcurrent : c.upstreams route.appName = some current) :
    answer now router session =
      if (c.pools.get (route.appName, askedTransport current session.isUpgradeReq)).isSome = true then
        .proxied (some route.appName) (some (askedTransport current session.isUpgradeReq))
      else .status (session.told 503) := by
  have happ : ∃ a ∈ options.applications, a.name = route.appName := (h.applications _).mp (by rw [hcurrent]; rfl)
  have hpools : router.config.apps.get route.appName = some (appPools c.pools route.appName) := by
    rw [hconfig, h.config, get_apps_buildRouterConfig, if_pos happ]
  rw [answer_of_route hlimits hhost hroute hpools, choosePool_asked (h.app _ _ hcurrent)]
  cases hget : c.pools.get (route.appName, askedTransport current session.isUpgradeReq) with
  | none => rfl
  | some pool => simp only [transport_asked, Option.isSome_some, if_true]

variable (hdistinct : Distinct options.applications) (h : Coherent options last c) (hconfig : router.config = c.config)
  (hlimits : router.limits = options.limits)

include hdistinct h hconfig hlimits

theorem Owed.eq_answer {a : Answer} (howed : Owed options c.upstreams session a) : a = answer now router session := by
  have hroute : ∀ {host route}, Dispatch (Owns options.applications) host (extractFirstPathSegment session) route →
      resolveRoute router.config host (extractFirstPathSegment session) = route := fun hd => by
    rw [hconfig, h.config]
    exact (dispatch_iff hdistinct c.pools).mp hd
  cases howed with
  | refused hrefused => exact (answer_of_rejection (hlimits ▸ hrefused)).symm
  | unreadable hwithin hhost => exact (answer_of_panic (hlimits ▸ hwithin) hhost).symm
  | unmatched hwithin hhost hd => exact (answer_of_unmatched (hlimits ▸ hwithin) hhost (hroute hd)).symm
  | unserved hwithin hhost hd hcurrent hnone =>
      rw [answer_of_dispatch h hconfig (hlimits ▸ hwithin) hhost (hroute hd) hcurrent, if_neg]
      rw [(h.app _ _ hcurrent).pools]
      exact fun ⟨u, hu, ht⟩ => hnone u hu ht
  | served hwithin hhost hd hcurrent hu ht =>
      rw [answer_of_dispatch h hconfig (hlimits ▸ hwithin) hhost (hroute hd) hcurrent, if_pos]
      rw [(h.app _ _ hcurrent).pools]
      exact ⟨_, hu, ht⟩

/-- Every answer is owed. -/
theorem owed_answer : Owed options c.upstreams session (answer now router session) := by
  cases hwithin : requestLimitRejectionStatus session options.limits with
  | some status =>
      rw [answer_of_rejection (hlimits ▸ hwithin)]
      exact .refused hwithin
  | none =>
      cases hhost : extractHost session with
      | error p =>
          rw [answer_of_panic (hlimits ▸ hwithin) hhost]
          exact .unreadable hwithin hhost
      | ok host =>
          have hd := (dispatch_iff hdistinct c.pools).mpr (rfl : _ = resolveRoute _ host (extractFirstPathSegment session))
          rw [← h.config, ← hconfig] at hd
          cases hroute : resolveRoute router.config host (extractFirstPathSegment session) with
          | none =>
              rw [answer_of_unmatched (hlimits ▸ hwithin) hhost hroute]
              exact .unmatched hwithin hhost (hroute ▸ hd)
          | some route =>
              rw [hroute] at hd
              obtain ⟨current, hcurrent⟩ := Option.isSome_iff_exists.mp ((h.applications _).mpr hd.application)
              rw [answer_of_dispatch h hconfig (hlimits ▸ hwithin) hhost hroute hcurrent]
              split
              · rename_i hsome
                obtain ⟨u, hu, ht⟩ := ((h.app _ _ hcurrent).pools _).mp hsome
                exact .served hwithin hhost hd hcurrent hu ht
              · rename_i hnone
                exact .unserved hwithin hhost hd hcurrent fun u hu ht =>
                  hnone (((h.app _ _ hcurrent).pools _).mpr ⟨u, hu, ht⟩)

end Answer

/-! ## Runs -/

section Runs

variable {parsed : ProxyOptionsParsed} {hash : AffinityMapKey → UInt64} {t t' : Traffic} {r : RequestId} {l : TrafficLabel}
  {router : Router} {req : Request}

/-- A request changes nothing in the router but the affinity store. -/
theorem router_act_request (hact : Traffic.Act hash t r l router req) : ∃ sticky, router = { t.router with sticky := sticky } := by
  cases hact with
  | filtered now session =>
      rcases requestFilter_cases (Prod.eta (requestFilter now t.router session .default)).symm with
        ⟨hrouter, -⟩ | ⟨host, route, -, -, hrouter, -⟩
      · exact ⟨t.router.sticky, hrouter⟩
      · exact ⟨_, hrouter⟩
  | lookedUp now ord =>
      simp only [Traffic.lookupStep, upstreamPeerLookup]
      split
      · exact ⟨t.router.sticky, rfl⟩
      · split
        · exact ⟨_, rfl⟩
        · exact ⟨t.router.sticky, rfl⟩
  | bound now ord =>
      simp only [Traffic.bindStep, upstreamPeerBind]
      split
      · exact ⟨_, rfl⟩
      · exact ⟨t.router.sticky, rfl⟩
  | failed e =>
      simp only [Traffic.failStep, failToConnect]
      split
      · split <;> exact ⟨_, rfl⟩
      · exact ⟨t.router.sticky, rfl⟩
  | selected | retried => exact ⟨t.router.sticky, rfl⟩

/-- The router keeps the limits and the timeouts of the options. -/
structure Traffic.Configured (parsed : ProxyOptionsParsed) (t : Traffic) : Prop where
  limits : t.router.limits = parsed.limits
  timeouts : t.router.timeouts = parsed.timeouts

theorem Traffic.Configured.reach {allow : Traffic → TrafficLabel → Prop}
    (hrun : Reach (Traffic.Steps hash) allow (.new parsed) t) : t.Configured parsed := by
  refine hrun.invariant (P := Traffic.Configured parsed) ⟨rfl, rfl⟩ fun t l t' h _ hstep => ?_
  rcases Traffic.step_cases hash hstep with ⟨pl, w, -, hw, rfl⟩ | ⟨r, router, req, hact, rfl⟩
  · obtain ⟨config, hrouter⟩ := router_step hw
    exact ⟨(congrArg Router.limits hrouter).trans h.limits, (congrArg Router.timeouts hrouter).trans h.timeouts⟩
  · obtain ⟨sticky, hrouter⟩ := router_act_request hact
    exact ⟨(congrArg Router.limits hrouter).trans h.limits, (congrArg Router.timeouts hrouter).trans h.timeouts⟩

/-- Whatever has happened to the proxy, a request is answered what the options and the present upstreams owe it. -/
theorem answers_owed (hash : AffinityMapKey → UInt64) {options : ProxyOptions} {w₀ : World} (hnew : Proxy.new options = .ok w₀)
    {t : Traffic} (hrun : Reach (Traffic.Steps hash) Traffic.Selects ⟨w₀, fun _ => .new⟩ t) (now : Nat) (session : Session)
    (a : Answer) :
    Owed t.world.shared.inner.options t.world.shared.catalog.upstreams session a ↔ a = answer now t.router session := by
  obtain ⟨parsed, hparsed, rfl⟩ := proxy_new hnew
  have hsound := (Traffic.Sound.new parsed).reach hrun
  have hconfigured := Traffic.Configured.reach hrun
  have hdistinct := distinct_of_parse hparsed
  have hcoherent := hsound.ledgered.coherent hsound.options
  rw [hsound.options]
  constructor
  · exact fun h => h.eq_answer hdistinct hcoherent rfl hconfigured.limits
  · rintro rfl
    exact owed_answer hdistinct hcoherent rfl hconfigured.limits

/-- A request that is owed the pool of the only upstream. -/
theorem answers_owed_sample :
    ∃ t, Reach (Traffic.Steps sampleHash) Traffic.Selects ⟨World.new stickyParsed, fun _ => .new⟩ t ∧
      Owed t.world.shared.inner.options t.world.shared.catalog.upstreams clientSession
        (.proxied (some (Str.lit "app")) (some .http1)) := by
  obtain ⟨t, hrun, hcheck⟩ := traffic_of_check sampleHash Traffic.Selects (.new stickyParsed) (addUpstreams [8080])
    (fun t => answer 0 t.router clientSession = .proxied (some (Str.lit "app")) (some .http1)) (by decide +kernel)
  exact ⟨t, hrun, (answers_owed sampleHash sticky_new hrun 0 clientSession _).mpr (of_decide_eq_true hcheck).symm⟩

end Runs

end NeemataProxy
