import NeemataProxy.Proxy.Lemmas.Applications
import NeemataProxy.Proxy.Lemmas.Updates
import NeemataProxy.Router.Authority

/-!
# Theorems about routes
-/

namespace NeemataProxy

open Lib Routing Options

/-! ## The routing table -/

/-- The table has no entry yet that adding the application would overwrite. -/
structure Vacant (cfg : RouterConfig) (a : ApplicationOptionsParsed) : Prop where
  route : cfg.owner a.routing.key = none
  apps : cfg.apps.get a.name = none

/-- The table that is built from the options says what the applications ask for. -/
structure Faithful (options : ProxyOptionsParsed) (pools : Pools) : Prop where
  /-- No entry is overwritten. -/
  vacant : ∀ before a after, options.applications = before ++ a :: after →
    Vacant (before.foldl (addApplication pools) .default) a
  /-- Every application owns one route, and has its pools. -/
  owns : ∀ a ∈ options.applications, ∃! key, (buildRouterConfig options pools).owner key = some a.name
  apps : ∀ a ∈ options.applications, (buildRouterConfig options pools).apps.get a.name = some (appPools pools a.name)
  /-- Requests go by the routes that the applications ask for. -/
  dispatch : ∀ host segment, Dispatch (Owns options.applications) host segment
    (resolveRoute (buildRouterConfig options pools) host segment)
  /-- The order of the applications does not matter. -/
  order : ∀ options' : ProxyOptionsParsed, options'.applications.Perm options.applications → ∀ host segment,
    resolveRoute (buildRouterConfig options' pools) host segment =
      resolveRoute (buildRouterConfig options pools) host segment

theorem vacant_of_distinct {before after : List ApplicationOptionsParsed} {a : ApplicationOptionsParsed}
    (h : Distinct (before ++ a :: after)) (pools : Pools) : Vacant (before.foldl (addApplication pools) .default) a := by
  have hkeys := h.nodup_routeKeys
  have hnames := h.names
  rw [routeKeys, List.map_append, List.map_cons, List.nodup_append'] at hkeys
  rw [List.map_append, List.map_cons, List.nodup_append'] at hnames
  constructor
  · rw [get_foldl_of_not_mem (owner_addApplication pools) fun b hb heq => ?_]
    · exact owner_default _
    · exact hkeys.2.2 (List.mem_map.mpr ⟨b, hb, heq⟩) List.mem_cons_self
  · rw [get_apps_foldl, if_neg]
    · rfl
    · rintro ⟨b, hb, heq⟩
      exact hnames.2.2 (List.mem_map.mpr ⟨b, hb, heq⟩) List.mem_cons_self

theorem faithful_of_distinct {options : ProxyOptionsParsed} (h : Distinct options.applications) (pools : Pools) :
    Faithful options pools := by
  have howner : ∀ key app, (buildRouterConfig options pools).owner key = some app ↔ Owns options.applications key app :=
    owner_buildRouterConfig pools h
  refine ⟨fun before a after heq => vacant_of_distinct (heq ▸ h) pools, fun a ha => ?_, fun a ha => ?_, fun host segment => ?_,
    fun options' hperm host segment => ?_⟩
  · refine ⟨a.routing.key, (howner _ _).mpr ⟨a, ha, rfl, rfl⟩, fun key hkey => ?_⟩
    obtain ⟨b, hb, rfl, hname⟩ := (howner _ _).mp hkey
    rw [List.inj_on_of_nodup_map h.names hb ha hname]
  · rw [get_apps_buildRouterConfig, if_pos ⟨a, ha, rfl⟩]
  · exact (dispatch_resolveRoute _ host segment).mono howner
  · exact resolveRoute_congr
      (fun key => get_foldl_perm (owner_addApplication pools) hperm h.nodup_routeKeys owner_default key) host segment

/-- `validate_applications` accepts exactly the applications with names and routes of their own, and the table that is
built from an accepted list is faithful. -/
theorem routeTable_faithful (options : ProxyOptionsParsed) :
    (validateApplications options.applications = .ok () ↔ Distinct options.applications) ∧
      (validateApplications options.applications = .ok () → ∀ pools, Faithful options pools) :=
  ⟨validateApplications_iff _, fun h => faithful_of_distinct ((validateApplications_iff _).mp h)⟩

/-- A table with three applications in it. -/
def routedOptions : ProxyOptionsParsed where
  listen := Str.lit "127.0.0.1:0"
  tls := none
  applications := [⟨Str.lit "web", .subdomain (Str.lit "Example.com"), none⟩, ⟨Str.lit "api", .path (Str.lit "api"), none⟩,
    ⟨Str.lit "site", .default, none⟩]
  healthCheckIntervalMs := 5000
  stickySessions := ⟨false, [], [], 1, 1⟩
  limits := .disabled
  timeouts := ⟨1, 1, 1, 1, 1, 1⟩

theorem routeTable_faithful_sample :
    validateApplications routedOptions.applications = .ok () ∧ Faithful routedOptions .empty :=
  ⟨by decide, (routeTable_faithful routedOptions).2 (by decide) .empty⟩

/-! ## Subdomains -/

/-- The request is routed to the application, and its path is left as it is. -/
def RoutedUnchanged (config : RouterConfig) (session : Session) (app : Str) : Prop :=
  ∃ host, extractHost session = .ok host ∧
    resolveRoute config host (extractFirstPathSegment session) = some ⟨app, none⟩

/-- The text of a `Host` field: the host and, when there is one, the port. -/
def hostWithPort (host : Str) (port : Option Str) : Str :=
  match port with
  | some port => host ++ ':' :: port
  | none => host

/-- The names that a `Host` field, with or without a port, is routed by. -/
def HostName (n : Str) (withPort : Bool) : Prop := n.all isVisible = true ∧ if withPort then PortHost n else BareHost n

/-- A request is routed to a subdomain application exactly when its host is the lower-case name. -/
theorem resolveRoute_subdomain_iff {options : ProxyOptionsParsed} (hdistinct : Distinct options.applications)
    (pools : Pools) {a : ApplicationOptionsParsed} (ha : a ∈ options.applications) {n : Str}
    (hrouting : a.routing = .subdomain n) (host segment : Option Str) :
    resolveRoute (buildRouterConfig options pools) host segment = some ⟨a.name, none⟩ ↔
      host = some (Str.toAsciiLowercase n) := by
  have howned : ∀ key, Owns options.applications key a.name → key = .subdomain (Str.toAsciiLowercase n) := by
    rintro key ⟨b, hb, rfl, hname⟩
    rw [List.inj_on_of_nodup_map hdistinct.names hb ha hname, hrouting]
    rfl
  constructor
  · intro hroute
    have hdispatch := (faithful_of_distinct hdistinct pools).dispatch host segment
    rw [hroute] at hdispatch
    generalize hname : a.name = app at hdispatch howned
    cases hdispatch with
    | subdomain hhost howns =>
        cases howned _ howns
        exact hhost
    | default _ _ howns => cases howned _ howns
  · rintro rfl
    have howner := (owner_buildRouterConfig pools hdistinct (.subdomain (Str.toAsciiLowercase n)) a.name).mpr
      ⟨a, ha, by rw [hrouting]; rfl, rfl⟩
    simp only [RouterConfig.owner] at howner
    simp only [resolveRoute, howner]

theorem toAsciiLowercase_hostWithPort {host n : Str} (h : Str.toAsciiLowercase host = Str.toAsciiLowercase n)
    (port : Option Str) : Str.toAsciiLowercase (hostWithPort host port) = Str.toAsciiLowercase (hostWithPort n port) := by
  cases port with
  | none => exact h
  | some port => simp only [hostWithPort, Str.toAsciiLowercase_append, h]

theorem all_isVisible_hostWithPort {host n : Str} (h : Str.toAsciiLowercase host = Str.toAsciiLowercase n)
    {port : Option Str} (hport : ∀ p ∈ port, p ≠ [] ∧ p.all Char.isDigit = true) :
    (hostWithPort host port).all isVisible = n.all isVisible := by
  have hhost : host.all isVisible = n.all isVisible := by
    rw [← Str.all_isVisible_toAsciiLowercase, h, Str.all_isVisible_toAsciiLowercase]
  cases port with
  | none => exact hhost
  | some port =>
      have hdigits : port.all isVisible = true :=
        List.all_eq_true.mpr fun c hc => isVisible_of_isDigit (List.all_eq_true.mp (hport port rfl).2 c hc)
      rw [hostWithPort, List.all_append, List.all_cons, hdigits, hhost]
      simp [isVisible]

/-- A request whose `Host` field is the name of an accepted subdomain application, in any letter case and with or without
a port, is routed to it exactly when the name is made of visible characters and is left when a port is stripped. -/
theorem subdomain_routed_iff {options : ProxyOptions} {parsed : ProxyOptionsParsed}
    (hparse : parseProxyOptions options = .ok parsed) (pools : Pools) {a : ApplicationOptionsParsed}
    (ha : a ∈ parsed.applications) {n : Str} (hrouting : a.routing = .subdomain n) {host : Str}
    (hhost : Str.toAsciiLowercase host = Str.toAsciiLowercase n) {port : Option Str}
    (hport : ∀ p ∈ port, p ≠ [] ∧ p.all Char.isDigit = true) {session : Session}
    (hfield : session.header (Str.lit "host") = some (Str.bytes (hostWithPort host port))) :
    RoutedUnchanged (buildRouterConfig parsed pools) session a.name ↔ HostName n port.isSome := by
  have hdistinct := distinct_of_parse hparse
  have hne : n ≠ [] := hdistinct.subdomains n (mem_filterMap_subdomainName.mpr ⟨a, ha, hrouting⟩)
  have hvisible := all_isVisible_hostWithPort hhost hport
  by_cases hall : n.all isVisible = true
  · -- the field is read, and what is left of it decides
    have hread : hostField session = some (hostWithPort host port) := by
      rw [hostField, hfield, Option.bind_some, headerToStr_bytes, if_pos (hvisible.trans hall)]
    obtain ⟨out, rest, hout, -⟩ := stripPortStr_prefix (hostWithPort host port)
    have hrouted : RoutedUnchanged (buildRouterConfig parsed pools) session a.name ↔
        Str.toAsciiLowercase out = Str.toAsciiLowercase n := by
      have hextract := extractHost_of_field hread hout
      constructor
      · rintro ⟨host', hhost', hroute⟩
        rw [resolveRoute_subdomain_iff hdistinct pools ha hrouting] at hroute
        rw [hextract, hroute] at hhost'
        exact Option.some.inj (Except.ok.inj hhost')
      · intro hlower
        exact ⟨_, hextract, (resolveRoute_subdomain_iff hdistinct pools ha hrouting _ _).mpr (congrArg some hlower)⟩
    have hstrip : stripPortStr (Str.toAsciiLowercase (hostWithPort n port)) = .ok (Str.toAsciiLowercase out) := by
      rw [← toAsciiLowercase_hostWithPort hhost port, stripPortStr_toAsciiLowercase, hout]
      rfl
    rw [hrouted, HostName, and_iff_right hall]
    cases port with
    | none =>
        have hlower := stripPortStr_lower_iff n []
        rw [List.append_nil, show n = hostWithPort n none from rfl, hstrip, Except.ok.injEq] at hlower
        rw [show hostWithPort n none = n from rfl] at hlower
        simpa using hlower.trans (stripPortStr_eq_self_iff n)
    | some port =>
        have hlower := stripPortStr_lower_iff n (':' :: port)
        rw [show n ++ ':' :: port = hostWithPort n (some port) from rfl, hstrip, Except.ok.injEq] at hlower
        simpa using hlower.trans (stripPortStr_port_iff hne (hport port rfl).2)
  · -- the field cannot be read
    have hread : hostField session = none := by
      rw [hostField, hfield, Option.bind_some, headerToStr_bytes, if_neg (hvisible ▸ hall)]
    constructor
    · rintro ⟨host', hhost', -⟩
      rw [extractHost_of_noField hread] at hhost'
      cases hhost'
    · rintro ⟨hall', -⟩
      exact absurd hall' hall

/-- One application, routed by this host. -/
def subdomainOptions (name : Str) : ProxyOptions :=
  { hostOptions with applications := [⟨Str.lit "app", .subdomain (some name), none⟩] }

/-- `Host: Example.COM:3000` for the name `example.com`. -/
theorem subdomain_routed_sample :
    ∃ parsed, parseProxyOptions (subdomainOptions (Str.lit "example.com")) = .ok parsed ∧
      RoutedUnchanged (buildRouterConfig parsed .empty)
        (hostSession none [(Str.lit "host", Str.bytes (Str.lit "Example.COM:3000"))]) (Str.lit "app") := by
  refine ⟨_, rfl, ?_⟩
  refine (@subdomain_routed_iff (subdomainOptions (Str.lit "example.com")) _ rfl .empty
    ⟨Str.lit "app", .subdomain (Str.lit "example.com"), none⟩ (by decide) (Str.lit "example.com") rfl (Str.lit "Example.COM")
    (by decide) (some (Str.lit "3000")) (by decide) _ rfl).mpr ⟨by decide, ?_⟩
  exact fun hbracket => absurd hbracket (by decide)

/-- An application whose name has a port is accepted, and a request for that very name is not routed to it. -/
theorem subdomain_with_port_unreachable :
    ∃ parsed, parseProxyOptions (subdomainOptions (Str.lit "example.com:8080")) = .ok parsed ∧
      ¬ RoutedUnchanged (buildRouterConfig parsed .empty)
        (hostSession none [(Str.lit "host", Str.bytes (Str.lit "example.com:8080"))]) (Str.lit "app") := by
  refine ⟨_, rfl, ?_⟩
  rintro ⟨host, hhost, hroute⟩
  have hstripped : extractHost (hostSession none [(Str.lit "host", Str.bytes (Str.lit "example.com:8080"))]) =
      .ok (some (Str.lit "example.com")) := by decide
  obtain rfl := Except.ok.inj (hstripped.symm.trans hhost)
  revert hroute
  decide

end NeemataProxy
