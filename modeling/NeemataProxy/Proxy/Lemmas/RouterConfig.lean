import NeemataProxy.Proxy.Pools

/-!
# What the routing table holds
-/

namespace NeemataProxy

open Lib Routing Options

/-- The pool of a transport. -/
def Routing.AppPools.pool (pools : AppPools) : TransportKind → Option PoolConfig
  | .http1 => pools.http1
  | .ws => pools.ws
  | .http2 => pools.http2

theorem pool_appPools (pools : Pools) (app : Str) (t : TransportKind) : (appPools pools app).pool t = pools.get (app, t) := by
  cases t <;> rfl

theorem apps_addRoute (cfg : RouterConfig) (app : ApplicationOptionsParsed) : (addRoute cfg app).apps = cfg.apps := by
  unfold addRoute; split <;> rfl

theorem get_apps_foldl (pools : Pools) (applications : List ApplicationOptionsParsed) (cfg : RouterConfig) (name : Str) :
    (applications.foldl (addApplication pools) cfg).apps.get name =
      if ∃ a ∈ applications, a.name = name then some (appPools pools name) else cfg.apps.get name := by
  induction applications generalizing cfg with
  | nil => simp
  | cons a applications ih =>
      rw [List.foldl_cons, ih]
      by_cases hrest : ∃ a ∈ applications, a.name = name
      · simp [hrest]
      · by_cases ha : a.name = name
        · simp [ha, addApplication, HashMap.get_insert]
        · simp [ha, Ne.symm ha, hrest, addApplication, HashMap.get_insert, apps_addRoute]

theorem get_apps_buildRouterConfig (options : ProxyOptionsParsed) (pools : Pools) (name : Str) :
    (buildRouterConfig options pools).apps.get name =
      if ∃ a ∈ options.applications, a.name = name then some (appPools pools name) else none :=
  get_apps_foldl pools options.applications RouterConfig.default name

end NeemataProxy
