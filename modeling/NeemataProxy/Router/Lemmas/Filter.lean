import NeemataProxy.Router.Filter

/-!
# What the phases of a request do
-/

namespace NeemataProxy.Routing

open Lib

/-! ## The parts of `request_filter` -/

theorem assignRoute_ctx (config : RouterConfig) (route : ResolvedRoute) (isUpgrade : Bool) (ctx : RouterCtx) :
    (assignRoute config route isUpgrade ctx).appName = some route.appName ∧
      (assignRoute config route isUpgrade ctx).pathRewriteSegment = route.pathRewriteSegment ∧
      (assignRoute config route isUpgrade ctx).affinityKey = ctx.affinityKey := by
  unfold assignRoute
  simp only
  split
  · split <;> exact ⟨rfl, rfl, rfl⟩
  · exact ⟨rfl, rfl, rfl⟩

theorem assignRoute_pool {config : RouterConfig} {route : ResolvedRoute} {isUpgrade : Bool} {resolved : ResolvedPool}
    (h : (assignRoute config route isUpgrade .default).resolvedPool = some resolved) :
    ∃ pools pool isHttp2, config.apps.get route.appName = some pools ∧ choosePool pools isUpgrade = (some pool, isHttp2) ∧
      resolved = pool.resolved isUpgrade isHttp2 := by
  unfold assignRoute at h
  cases hpools : config.apps.get route.appName with
  | none => simp [hpools, RouterCtx.default] at h
  | some pools =>
      simp only [hpools] at h
      cases hpool : (choosePool pools isUpgrade).1 with
      | none => simp [hpool, RouterCtx.default] at h
      | some pool =>
          simp only [hpool, Option.some.injEq] at h
          exact ⟨pools, pool, (choosePool pools isUpgrade).2, rfl, Prod.ext hpool rfl, h.symm⟩

theorem assignAffinity_ctx (now : Nat) (session : Session) (sticky : Option (StickySessionState stickyShardCount))
    (ctx : RouterCtx) : (assignAffinity now session sticky ctx).2.appName = ctx.appName ∧
      (assignAffinity now session sticky ctx).2.pathRewriteSegment = ctx.pathRewriteSegment ∧
      (assignAffinity now session sticky ctx).2.resolvedPool = ctx.resolvedPool := by
  unfold assignAffinity
  split <;> exact ⟨rfl, rfl, rfl⟩

theorem checkPool_ctx (config : RouterConfig) (ctx : RouterCtx) :
    (checkPool config ctx).1.pathRewriteSegment = ctx.pathRewriteSegment ∧
      (checkPool config ctx).1.affinityKey = ctx.affinityKey ∧
      (checkPool config ctx).1.shouldSetCookie = ctx.shouldSetCookie := by
  unfold checkPool
  split
  · exact ⟨rfl, rfl, rfl⟩
  · split <;> exact ⟨rfl, rfl, rfl⟩

theorem checkPool_ok {config : RouterConfig} {ctx ctx' : RouterCtx} (h : (ctx', .ok false) = checkPool config ctx) :
    ∃ resolved, ctx.resolvedPool = some resolved ∧ ctx' = { ctx with selectedTransport := some resolved.transport } := by
  unfold checkPool at h
  split at h
  · cases h
  · cases hpool : ctx.resolvedPool with
    | none => simp [hpool] at h
    | some resolved =>
        simp only [hpool, Prod.mk.injEq] at h
        exact ⟨resolved, rfl, h.1⟩

/-! ## `request_filter` -/

/-- The router and the context behind the assignment of a route and a key. -/
def assigned (now : Nat) (router : Router) (session : Session) (route : ResolvedRoute) (ctx : RouterCtx) :
    Option (StickySessionState stickyShardCount) × RouterCtx :=
  assignAffinity now session router.sticky (assignRoute router.config route session.isUpgradeReq ctx)

/-- A request is either not routed, and then the router and the context are left alone but for the failure hint, or it
is given the route that its host and its path resolve to. -/
theorem requestFilter_cases {now : Nat} {router router' : Router} {session session' : Session} {ctx ctx' : RouterCtx}
    {result : Except Abort Bool} (h : requestFilter now router session ctx = (router', session', ctx', result)) :
    (router' = router ∧ (∃ hint, ctx' = { ctx with failureHint := hint }) ∧ result ≠ .ok false) ∨
    ∃ host route, extractHost session = .ok host ∧
      resolveRoute router.config host (extractFirstPathSegment session) = some route ∧
      router' = { router with sticky := (assigned now router session route ctx).1 } ∧
      (ctx', result) = checkPool router.config (assigned now router session route ctx).2 := by
  unfold requestFilter at h
  split at h
  · rename_i status hstatus
    simp only [Prod.mk.injEq, rejectRequest] at h
    obtain ⟨rfl, -, rfl, rfl⟩ := h
    refine .inl ⟨rfl, ⟨_, rfl⟩, fun hresult => ?_⟩
    cases hr : (respondError { session with
      downstream := { session.downstream with keepaliveSeconds := none } } status).2 <;> simp [hr, Except.map] at hresult
  · simp only at h
    split at h
    · simp only [Prod.mk.injEq] at h
      obtain ⟨rfl, -, rfl, rfl⟩ := h
      exact .inl ⟨rfl, ⟨_, rfl⟩, nofun⟩
    · rename_i host hhost
      have hhost' : extractHost session = .ok host := hhost
      simp only [Prod.mk.injEq] at h
      obtain ⟨hrouter, -, hrest⟩ := h
      unfold routeRequest at hrouter hrest
      cases hroute : resolveRoute router.config host (extractFirstPathSegment session) with
      | none =>
          have hroute' : resolveRoute router.config host
              (extractFirstPathSegment (applyDownstreamTimeouts session router.timeouts)) = none := hroute
          rw [hroute'] at hrouter hrest
          simp only [Prod.mk.injEq] at hrest
          obtain ⟨rfl, rfl⟩ := hrest
          exact .inl ⟨hrouter.symm, ⟨_, rfl⟩, nofun⟩
      | some route =>
          have hroute' : resolveRoute router.config host
              (extractFirstPathSegment (applyDownstreamTimeouts session router.timeouts)) = some route := hroute
          rw [hroute'] at hrouter hrest
          exact .inr ⟨host, route, hhost', hroute, hrouter.symm, hrest.symm⟩

theorem requestFilter_affinityKey {now : Nat} {router router' : Router} {session session' : Session} {ctx' : RouterCtx}
    {result : Except Abort Bool} (h : requestFilter now router session .default = (router', session', ctx', result))
    {key : Str} (hkey : ctx'.affinityKey = some key) :
    ∃ ctx, ctx.affinityKey = none ∧ (assignAffinity now session router.sticky ctx).2.affinityKey = some key ∧
      ctx'.shouldSetCookie = (assignAffinity now session router.sticky ctx).2.shouldSetCookie ∧
      router'.sticky = (assignAffinity now session router.sticky ctx).1 := by
  rcases requestFilter_cases h with ⟨-, ⟨hint, rfl⟩, -⟩ | ⟨host, route, -, -, rfl, hcheck⟩
  · cases hkey
  · refine ⟨assignRoute router.config route session.isUpgradeReq .default, (assignRoute_ctx _ _ _ _).2.2, ?_, ?_, rfl⟩
    · have haffinity := (checkPool_ctx router.config (assigned now router session route .default).2).2.1
      rw [← hcheck] at haffinity
      exact haffinity.symm.trans hkey
    · have haffinity := (checkPool_ctx router.config (assigned now router session route .default).2).2.2
      rw [← hcheck] at haffinity
      exact haffinity

/-- A request that is to be proxied has been routed, and keeps the rewrite segment of its route. -/
theorem requestFilter_route {now : Nat} {router router' : Router} {session session' : Session} {ctx ctx' : RouterCtx}
    (h : requestFilter now router session ctx = (router', session', ctx', .ok false)) :
    ∃ host route, extractHost session = .ok host ∧
      resolveRoute router.config host (extractFirstPathSegment session) = some route ∧
      ctx'.pathRewriteSegment = route.pathRewriteSegment := by
  rcases requestFilter_cases h with ⟨-, -, hne⟩ | ⟨host, route, hhost, hroute, -, hcheck⟩
  · exact absurd rfl hne
  · have hctx : ctx' = (checkPool router.config (assigned now router session route ctx).2).1 := congrArg Prod.fst hcheck
    refine ⟨host, route, hhost, hroute, ?_⟩
    calc ctx'.pathRewriteSegment
      _ = (assigned now router session route ctx).2.pathRewriteSegment := by rw [hctx, (checkPool_ctx _ _).1]
      _ = (assignRoute router.config route session.isUpgradeReq ctx).pathRewriteSegment := (assignAffinity_ctx _ _ _ _).2.1
      _ = route.pathRewriteSegment := (assignRoute_ctx _ _ _ _).2.1

end NeemataProxy.Routing
