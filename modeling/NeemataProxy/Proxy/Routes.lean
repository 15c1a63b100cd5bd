import NeemataProxy.Lib.Keyed
import NeemataProxy.Proxy.Lemmas.RouterConfig

/-!
# Who owns a route

Every application asks for one route. A list of applications in which no two ask for the same one can be served by a
table, whatever the order of the list.
-/

namespace NeemataProxy

open Lib Routing Options

/-- What a request is routed by. -/
inductive RouteKey where
  | subdomain (host : Str)
  | path (segment : Str)
  | default
  deriving DecidableEq, Repr

/-- The route that an application asks for; hosts are compared in lower case. -/
def Options.ApplicationRoutingParsed.key : ApplicationRoutingParsed → RouteKey
  | .subdomain name => .subdomain (Str.toAsciiLowercase name)
  | .path name => .path name
  | .default => .default

/-- The application asks for the route. -/
def Owns (applications : List ApplicationOptionsParsed) (key : RouteKey) (app : Str) : Prop :=
  ∃ a ∈ applications, a.routing.key = key ∧ a.name = app

/-- The owner of a route in the table. -/
def Routing.RouterConfig.owner (config : RouterConfig) : RouteKey → Option Str
  | .subdomain host => config.subdomainRoutes.get host
  | .path segment => config.pathRoutes.get segment
  | .default => config.defaultApp

/-! ## Lists of applications -/

def subdomainName (app : ApplicationOptionsParsed) : Option Str :=
  match app.routing with
  | .subdomain name => some name
  | _ => none

def pathName (app : ApplicationOptionsParsed) : Option Str :=
  match app.routing with
  | .path name => some name
  | _ => none

def isDefault (app : ApplicationOptionsParsed) : Bool := app.routing = .default

/-- The applications have names and routes of their own, but more than one may be the default. -/
structure Separate (applications : List ApplicationOptionsParsed) : Prop where
  names : (applications.map ApplicationOptionsParsed.name).Nodup
  subdomains : ∀ name ∈ applications.filterMap subdomainName, name ≠ []
  subdomainKeys : ((applications.filterMap subdomainName).map Str.toAsciiLowercase).Nodup
  paths : ∀ name ∈ applications.filterMap pathName, name ≠ [] ∧ '/' ∉ name
  pathKeys : (applications.filterMap pathName).Nodup

/-- The applications have names and routes of their own. -/
structure Distinct (applications : List ApplicationOptionsParsed) : Prop extends Separate applications where
  defaults : applications.countP isDefault ≤ 1

theorem Separate.of_append {l l' : List ApplicationOptionsParsed} (h : Separate (l ++ l')) : Separate l := by
  obtain ⟨hnames, hsub, hsubkeys, hpaths, hpathkeys⟩ := h
  simp only [List.map_append, List.filterMap_append, List.mem_append] at *
  exact ⟨hnames.of_append_left, fun n hn => hsub n (.inl hn), hsubkeys.of_append_left, fun n hn => hpaths n (.inl hn),
    hpathkeys.of_append_left⟩

theorem mem_filterMap_subdomainName {l : List ApplicationOptionsParsed} {name : Str} :
    name ∈ l.filterMap subdomainName ↔ ∃ a ∈ l, a.routing = .subdomain name := by
  simp only [List.mem_filterMap, subdomainName]
  refine exists_congr fun a => and_congr_right fun _ => ?_
  cases a.routing <;> simp

theorem mem_filterMap_pathName {l : List ApplicationOptionsParsed} {name : Str} :
    name ∈ l.filterMap pathName ↔ ∃ a ∈ l, a.routing = .path name := by
  simp only [List.mem_filterMap, pathName]
  refine exists_congr fun a => and_congr_right fun _ => ?_
  cases a.routing <;> simp

/-- The routes that the applications of a list ask for. -/
def routeKeys (applications : List ApplicationOptionsParsed) : List RouteKey := applications.map fun a => a.routing.key

theorem subdomain_mem_routeKeys {l : List ApplicationOptionsParsed} {host : Str} :
    .subdomain host ∈ routeKeys l ↔ host ∈ (l.filterMap subdomainName).map Str.toAsciiLowercase := by
  simp only [routeKeys, List.mem_map, mem_filterMap_subdomainName]
  constructor
  · rintro ⟨a, ha, hkey⟩
    cases hr : a.routing <;> simp only [hr, ApplicationRoutingParsed.key, RouteKey.subdomain.injEq, reduceCtorEq] at hkey
    exact ⟨_, ⟨a, ha, hr⟩, hkey⟩
  · rintro ⟨name, ⟨a, ha, hr⟩, rfl⟩
    exact ⟨a, ha, by rw [hr]; rfl⟩

theorem path_mem_routeKeys {l : List ApplicationOptionsParsed} {segment : Str} :
    .path segment ∈ routeKeys l ↔ segment ∈ l.filterMap pathName := by
  simp only [routeKeys, List.mem_map, mem_filterMap_pathName]
  refine exists_congr fun a => and_congr_right fun _ => ?_
  cases a.routing <;> simp [ApplicationRoutingParsed.key]

theorem default_mem_routeKeys {l : List ApplicationOptionsParsed} :
    .default ∈ routeKeys l ↔ 0 < l.countP isDefault := by
  simp only [routeKeys, List.mem_map, List.countP_pos_iff, isDefault, decide_eq_true_eq]
  refine exists_congr fun a => and_congr_right fun _ => ?_
  cases a.routing <;> simp [ApplicationRoutingParsed.key]

theorem Distinct.nodup_routeKeys {applications : List ApplicationOptionsParsed} (h : Distinct applications) :
    (routeKeys applications).Nodup := by
  obtain ⟨⟨-, -, hsub, -, hpath⟩, hdefault⟩ := h
  induction applications with
  | nil => exact List.nodup_nil
  | cons a l ih =>
      rw [show routeKeys (a :: l) = a.routing.key :: routeKeys l from rfl, List.nodup_cons]
      cases hr : a.routing with
      | subdomain name =>
          simp only [List.filterMap_cons, subdomainName, pathName, isDefault, hr, List.map_cons, List.nodup_cons,
            List.countP_cons] at hsub hpath hdefault
          exact ⟨fun hmem => hsub.1 (subdomain_mem_routeKeys.mp hmem), ih (by simpa using hdefault) hsub.2 hpath⟩
      | path name =>
          simp only [List.filterMap_cons, subdomainName, pathName, isDefault, hr, List.nodup_cons,
            List.countP_cons] at hsub hpath hdefault
          exact ⟨fun hmem => hpath.1 (path_mem_routeKeys.mp hmem), ih (by simpa using hdefault) hsub hpath.2⟩
      | default =>
          simp only [List.filterMap_cons, subdomainName, pathName, isDefault, hr, List.countP_cons, decide_true,
            if_true] at hsub hpath hdefault
          have hnone : l.countP isDefault = 0 := by simpa using hdefault
          exact ⟨fun hmem => (default_mem_routeKeys.mp hmem).ne' hnone, ih (hnone.le.trans (Nat.zero_le 1)) hsub hpath⟩

/-! ## The routing table -/

theorem owner_addApplication (pools : Pools) (cfg : RouterConfig) (a : ApplicationOptionsParsed) (key : RouteKey) :
    (addApplication pools cfg a).owner key = if key = a.routing.key then some a.name else cfg.owner key := by
  unfold addApplication addRoute
  cases a.routing <;> cases key <;> simp [RouterConfig.owner, ApplicationRoutingParsed.key, HashMap.get_insert]

theorem owner_default (key : RouteKey) : RouterConfig.default.owner key = none := by cases key <;> rfl

/-- The table has the owners that the applications ask for. -/
theorem owner_buildRouterConfig {options : ProxyOptionsParsed} (pools : Pools)
    (hdistinct : Distinct options.applications) (key : RouteKey) (app : Str) :
    (buildRouterConfig options pools).owner key = some app ↔ Owns options.applications key app :=
  get_foldl_eq_some (owner_addApplication pools) hdistinct.nodup_routeKeys owner_default

/-! ## Resolving a route -/

/-- Where a request goes by the owners of the routes: to the owner of its host, else of its first path segment, which
is then stripped, else to the default. -/
inductive Dispatch (owns : RouteKey → Str → Prop) (host segment : Option Str) : Option ResolvedRoute → Prop where
  | subdomain {h app : Str} (hhost : host = some h) (howns : owns (.subdomain h) app) :
      Dispatch owns host segment (some ⟨app, none⟩)
  | path {s app : Str} (hsub : ∀ h app, host = some h → ¬ owns (.subdomain h) app) (hsegment : segment = some s)
      (howns : owns (.path s) app) : Dispatch owns host segment (some ⟨app, some s⟩)
  | default {app : Str} (hsub : ∀ h app, host = some h → ¬ owns (.subdomain h) app)
      (hpath : ∀ s app, segment = some s → ¬ owns (.path s) app) (howns : owns .default app) :
      Dispatch owns host segment (some ⟨app, none⟩)
  | unmatched (hsub : ∀ h app, host = some h → ¬ owns (.subdomain h) app)
      (hpath : ∀ s app, segment = some s → ¬ owns (.path s) app) (hdefault : ∀ app, ¬ owns .default app) :
      Dispatch owns host segment none

/-- `resolve_route` goes by the owners in the table. -/
theorem dispatch_resolveRoute (config : RouterConfig) (host segment : Option Str) :
    Dispatch (fun key app => config.owner key = some app) host segment (resolveRoute config host segment) := by
  have hdefault : (∀ h app, host = some h → config.subdomainRoutes.get h ≠ some app) →
      (∀ s app, segment = some s → config.pathRoutes.get s ≠ some app) →
      Dispatch (fun key app => config.owner key = some app) host segment (defaultRoute config) := by
    intro hsub hpath
    cases hd : config.defaultApp with
    | none => rw [defaultRoute, hd]; exact .unmatched hsub hpath (by simp [RouterConfig.owner, hd])
    | some app => rw [defaultRoute, hd]; exact .default hsub hpath hd
  have hpath : (∀ h app, host = some h → config.subdomainRoutes.get h ≠ some app) →
      Dispatch (fun key app => config.owner key = some app) host segment (pathRoute config segment) := by
    intro hsub
    unfold pathRoute
    split
    · rename_i s
      split
      · exact .path hsub rfl ‹_›
      · rename_i hnone
        refine hdefault hsub fun s' app h => ?_
        obtain rfl := Option.some.inj h
        simp [hnone]
    · exact hdefault hsub fun s app h => by simp at h
  unfold resolveRoute
  split
  · rename_i h
    split
    · exact .subdomain rfl ‹_›
    · rename_i hnone
      refine hpath fun h' app heq => ?_
      obtain rfl := Option.some.inj heq
      simp [hnone]
  · exact hpath fun h app heq => by simp at heq

theorem Dispatch.mono {owns owns' : RouteKey → Str → Prop} (howns : ∀ key app, owns key app ↔ owns' key app)
    {host segment : Option Str} {route : Option ResolvedRoute} (h : Dispatch owns host segment route) :
    Dispatch owns' host segment route := by
  obtain rfl : owns = owns' := funext fun key => funext fun app => propext (howns key app)
  exact h

theorem resolveRoute_congr {config config' : RouterConfig} (howner : ∀ key, config'.owner key = config.owner key)
    (host segment : Option Str) : resolveRoute config' host segment = resolveRoute config host segment := by
  have hsub : config'.subdomainRoutes.get = config.subdomainRoutes.get := funext fun h => howner (.subdomain h)
  have hpath : config'.pathRoutes.get = config.pathRoutes.get := funext fun s => howner (.path s)
  have hdefault : config'.defaultApp = config.defaultApp := howner .default
  simp only [resolveRoute, pathRoute, defaultRoute, hsub, hpath, hdefault]

end NeemataProxy
