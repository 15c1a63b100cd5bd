import NeemataProxy.Proxy.Pools
import NeemataProxy.Router.Host

/-!
# The authority of HTTP/2 requests

A request carries its authority in a `Host` field or, over HTTP/2, in its URI. `extract_host` reads only headers: where
no `Host` field can be read it asks for a header of the name `:authority`, which no header can have.
-/

namespace NeemataProxy.Routing

open Lib

/-- Two forms of one request: `a` is in the `Host` field of the first and in the URI of the second, which has no `Host`
field that can be read. -/
structure CarriedBothWays (a : Str) (inField inUri : Session) : Prop where
  field : inField.header (Str.lit "host") = some (Str.bytes a)
  noField : hostField inUri = none
  authority : inUri.reqHeader.uri.authority = some a
  pathAndQuery : inUri.reqHeader.uri.pathAndQuery = inField.reqHeader.uri.pathAndQuery
  isUpgrade : inUri.isUpgradeReq = inField.isUpgradeReq

/-- Two runs of `request_filter` that resolve the same application, pool and rewrite segment. -/
structure ResolvedAlike (r r' : Router × Session × RouterCtx × Except Abort Bool) : Prop where
  completes : ∀ p, r.2.2.2 ≠ .error (.panic p)
  completes' : ∀ p, r'.2.2.2 ≠ .error (.panic p)
  appName : r'.2.2.1.appName = r.2.2.1.appName
  resolvedPool : r'.2.2.1.resolvedPool = r.2.2.1.resolvedPool
  pathRewriteSegment : r'.2.2.1.pathRewriteSegment = r.2.2.1.pathRewriteSegment

/-- A request without a `Host` field that passes the limits makes `request_filter` panic. -/
theorem requestFilter_of_noField {now : Nat} {router : Router} {session : Session} {ctx : RouterCtx}
    (hlimits : requestLimitRejectionStatus session router.limits = none) (hfield : hostField session = none) :
    (requestFilter now router session ctx).2.2.2 = .error (.panic .invalidHeaderName) := by
  have hhost : extractHost (applyDownstreamTimeouts session router.timeouts) = .error .invalidHeaderName :=
    extractHost_of_noField hfield
  simp only [requestFilter, hlimits, hhost]

/-- One application, routed by the host `app.test`. -/
def hostOptions : Options.ProxyOptions where
  listen := Str.lit "127.0.0.1:0"
  tls := none
  applications := [⟨Str.lit "app", .subdomain (some (Str.lit "app.test")), none⟩]
  healthCheckIntervalMs := none
  stickySessions := none
  limits := .absent
  timeouts := none

def hostRouter : Except JsError Router :=
  (Options.parseProxyOptions hostOptions).map (fun parsed =>
    (Router.new .default ⟨false, [], [], 1, 1, false⟩ parsed.limits parsed.timeouts).update
      (buildRouterConfig parsed .empty))

/-- A request for `/` with the authority in its URI, or with these headers. -/
def hostSession (authority : Option Str) (headers : List (Str × List UInt8)) : Session where
  reqHeader := ⟨⟨none, authority, some ⟨['/'], none, root_path_ok⟩⟩, headers⟩
  isUpgradeReq := false
  rawPathLen := 1
  h1RawLen := 40
  closed := false
  downstream := ⟨none, none, none⟩

theorem app_test_carried : CarriedBothWays (Str.lit "app.test")
    (hostSession none [(Str.lit "host", Str.bytes (Str.lit "app.test"))]) (hostSession (some (Str.lit "app.test")) []) :=
  ⟨rfl, by decide, rfl, rfl, rfl⟩

end NeemataProxy.Routing
