import NeemataProxy.Router.Lemmas.Filter

/-!
# What the client is answered (`fail_to_proxy` in `src/router.rs`)

A phase that ends with an error leaves the answer to `fail_to_proxy`, which goes by the failure hint in the context and only
then by the error.
-/

namespace NeemataProxy.Routing

open Lib

/-! ## `fail_to_proxy` -/

structure FailToProxy where
  errorCode : Nat
  canReuseDownstream : Bool
  deriving DecidableEq, Repr

def failureCode (hint : Option FailureHint) (e : Error) : Nat :=
  match hint with
  | some .missingApplication => 404
  | some .missingWsPool | some .missingUpstreamPool | some .unhealthyUpstream => 503
  | none =>
      match e.etype with
      | .httpStatus status => status
      | .internalError | .other => 500

def failToProxy (session : Session) (e : Error) (ctx : RouterCtx) : Session × FailToProxy :=
  let code := failureCode ctx.failureHint e
  (if 0 < code then (respondError session code).1 else session, ⟨code, false⟩)

/-! ## The answer of `request_filter` -/

/-- What becomes of a request at `request_filter`; the status is that of the response which the client gets. -/
inductive Answer where
  | status (responded : Option Nat)
  | proxied (appName : Option Str) (transport : Option TransportKind)
  | panicked
  deriving DecidableEq, Repr

def answer (now : Nat) (router : Router) (session : Session) : Answer :=
  let f := requestFilter now router session .default
  match f.2.2.2 with
  | .ok true => .status f.2.1.downstream.responded
  | .ok false => .proxied f.2.2.1.appName f.2.2.1.selectedTransport
  | .error (.error e) => .status (failToProxy f.2.1 e f.2.2.1).1.downstream.responded
  | .error (.panic _) => .panicked

/-- The status that a client gets which is sent `code`. -/
def Session.told (session : Session) (code : Nat) : Option Nat :=
  if session.closed then session.downstream.responded else some code

theorem respondError_told {session session' : Session} (hclosed : session'.closed = session.closed)
    (hresponded : session'.downstream.responded = session.downstream.responded) (code : Nat) :
    (respondError session' code).1.downstream.responded = session.told code := by
  unfold respondError Session.told
  rw [hclosed]
  split
  · exact hresponded
  · rfl

theorem failToProxy_told {session session' : Session} (hclosed : session'.closed = session.closed)
    (hresponded : session'.downstream.responded = session.downstream.responded) {e : Error} {ctx : RouterCtx} {code : Nat}
    (hcode : failureCode ctx.failureHint e = code) (hpos : 0 < code) :
    (failToProxy session' e ctx).1.downstream.responded = session.told code := by
  simp only [failToProxy, hcode, if_pos hpos]
  exact respondError_told hclosed hresponded code

/-! ## The parts of `request_filter` -/

variable {now : Nat} {router : Router} {session : Session}

theorem answer_of_rejection {status : Nat} (h : requestLimitRejectionStatus session router.limits = some status) :
    answer now router session = .status (session.told status) := by
  simp only [answer, requestFilter, h, rejectRequest, respondError, Session.told]
  cases session.closed with
  | true => rfl
  | false => rfl

theorem answer_of_panic {p : Panic} (hlimits : requestLimitRejectionStatus session router.limits = none)
    (hhost : extractHost session = .error p) : answer now router session = .panicked := by
  have hhost' : extractHost (applyDownstreamTimeouts session router.timeouts) = .error p := hhost
  simp only [answer, requestFilter, hlimits, hhost']

theorem answer_of_unmatched {host : Option Str} (hlimits : requestLimitRejectionStatus session router.limits = none)
    (hhost : extractHost session = .ok host)
    (hroute : resolveRoute router.config host (extractFirstPathSegment session) = none) :
    answer now router session = .status (session.told 404) := by
  have hhost' : extractHost (applyDownstreamTimeouts session router.timeouts) = .ok host := hhost
  have hroute' : resolveRoute router.config host
      (extractFirstPathSegment (applyDownstreamTimeouts session router.timeouts)) = none := hroute
  simp only [answer, requestFilter, hlimits, hhost', routeRequest, hroute']
  exact congrArg _ (failToProxy_told rfl rfl rfl (by decide))

/-- The pool of a matched request is the one that it asks for. -/
theorem assigned_pool (now : Nat) (session : Session) {route : ResolvedRoute} {pools : AppPools}
    (hpools : router.config.apps.get route.appName = some pools) :
    (assigned now router session route .default).2.appName = some route.appName ∧
      (assigned now router session route .default).2.isUpgrade = session.isUpgradeReq ∧
      (assigned now router session route .default).2.resolvedPool = (choosePool pools session.isUpgradeReq).1.map
        (fun pool => pool.resolved session.isUpgradeReq (choosePool pools session.isUpgradeReq).2) := by
  obtain ⟨happ, -, hpool⟩ := assignAffinity_ctx now session router.sticky
    (assignRoute router.config route session.isUpgradeReq .default)
  have hupgrade : (assigned now router session route .default).2.isUpgrade =
      (assignRoute router.config route session.isUpgradeReq .default).isUpgrade := by
    unfold assigned assignAffinity
    split <;> rfl
  refine ⟨happ.trans (assignRoute_ctx _ _ _ _).1, hupgrade.trans ?_, hpool.trans ?_⟩
  all_goals
    simp only [assignRoute, hpools]
    cases (choosePool pools session.isUpgradeReq).1 <;> rfl

theorem checkPool_none (config : RouterConfig) {ctx : RouterCtx} (h : ctx.resolvedPool = none) :
    ∃ ctx' e, checkPool config ctx = (ctx', .error (.error e)) ∧ failureCode ctx'.failureHint e = 503 := by
  unfold checkPool
  split
  · exact ⟨_, _, rfl, rfl⟩
  · simp only [h]
    exact ⟨_, _, rfl, rfl⟩

theorem checkPool_some {config : RouterConfig} {ctx : RouterCtx} {resolved : ResolvedPool} (h : ctx.resolvedPool = some resolved)
    (hws : lacksWsPool config ctx = false) :
    checkPool config ctx = ({ ctx with selectedTransport := some resolved.transport }, .ok false) := by
  simp only [checkPool, hws, h]
  rfl

theorem lacksWsPool_of_pool {ctx : RouterCtx} {app : Str} {pools : AppPools} {pool : PoolConfig} {isHttp2 : Bool}
    (hpools : router.config.apps.get app = some pools) (happ : ctx.appName = some app)
    (hchoose : choosePool pools ctx.isUpgrade = (some pool, isHttp2)) : lacksWsPool router.config ctx = false := by
  unfold lacksWsPool
  rw [happ, Option.bind_some, hpools, Option.any_some]
  cases hupgrade : ctx.isUpgrade with
  | false => rfl
  | true =>
      rw [hupgrade] at hchoose
      have hpool : pools.ws = some pool := congrArg Prod.fst hchoose
      rw [hpool]
      rfl

/-- A matched request is proxied when its application has the pool that it asks for. -/
theorem answer_of_route {host : Option Str} {route : ResolvedRoute} {pools : AppPools}
    (hlimits : requestLimitRejectionStatus session router.limits = none) (hhost : extractHost session = .ok host)
    (hroute : resolveRoute router.config host (extractFirstPathSegment session) = some route)
    (hpools : router.config.apps.get route.appName = some pools) :
    answer now router session =
      match choosePool pools session.isUpgradeReq with
      | (some pool, isHttp2) => .proxied (some route.appName) (some (pool.resolved session.isUpgradeReq isHttp2).transport)
      | (none, _) => .status (session.told 503) := by
  obtain ⟨happ, hupgrade, hpool⟩ := assigned_pool now (applyDownstreamTimeouts session router.timeouts) hpools
  have hfilter : requestFilter now router session .default =
      ({ router with sticky := (assigned now router (applyDownstreamTimeouts session router.timeouts) route .default).1 },
        applyDownstreamTimeouts session router.timeouts,
        checkPool router.config (assigned now router (applyDownstreamTimeouts session router.timeouts) route .default).2) := by
    have hhost' : extractHost (applyDownstreamTimeouts session router.timeouts) = .ok host := hhost
    have hroute' : resolveRoute router.config host
        (extractFirstPathSegment (applyDownstreamTimeouts session router.timeouts)) = some route := hroute
    simp only [requestFilter, hlimits, hhost', routeRequest, hroute', assigned]
  simp only [answer, hfilter]
  cases hchoose : choosePool pools session.isUpgradeReq with
  | mk pool isHttp2 =>
      have hchoose' : choosePool pools (applyDownstreamTimeouts session router.timeouts).isUpgradeReq =
          (pool, isHttp2) := hchoose
      rw [hchoose'] at hpool
      cases pool with
      | none =>
          obtain ⟨ctx', e, hcheck, hcode⟩ := checkPool_none router.config hpool
          simp only [hcheck]
          exact congrArg _ (failToProxy_told rfl rfl hcode (by decide))
      | some pool =>
          have hws := lacksWsPool_of_pool hpools happ (hupgrade.symm ▸ hchoose')
          simp only [checkPool_some hpool hws, happ]
          rfl

end NeemataProxy.Routing
