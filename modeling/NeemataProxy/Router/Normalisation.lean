import NeemataProxy.Router.Authority
import NeemataProxy.Router.Lemmas.Filter

/-!
# Normalised hosts

A host is a name or a literal in brackets, and a port may stand behind it. Requests whose `Host` fields differ only in
the letter case of the host and in the port are routed alike.
-/

namespace NeemataProxy.Routing

open Lib

/-! ## Well-formed authorities -/

/-- The host of an authority. -/
inductive AuthorityHost : Str → Prop where
  | name {host : Str} : host ≠ [] → ':' ∉ host → '[' ∉ host → AuthorityHost host
  | literal {inner : Str} : ']' ∉ inner → AuthorityHost ('[' :: inner ++ [']'])

/-- What may stand behind the host: nothing, or a port, which may have no digits. -/
inductive PortSuffix : Str → Prop where
  | absent : PortSuffix []
  | port {p : Str} : p.all Char.isDigit = true → PortSuffix (':' :: p)

/-- The request has a `Host` field with this host in it. -/
structure HasHost (session : Session) (host : Str) : Prop where
  shape : AuthorityHost host
  visible : host.all isVisible = true
  field : ∃ suffix, PortSuffix suffix ∧ session.header (Str.lit "host") = some (Str.bytes (host ++ suffix))

theorem AuthorityHost.ne_nil {host : Str} (h : AuthorityHost host) : host ≠ [] := by
  cases h with
  | name hne _ _ => exact hne
  | literal _ => simp

theorem AuthorityHost.bareHost {host : Str} (h : AuthorityHost host) : BareHost host := by
  cases h with
  | name _ hcolon hbracket =>
      have hhead : host.head? ≠ some '[' := fun hhead => hbracket (List.mem_of_mem_head? hhead)
      rw [BareHost, if_neg hhead]
      rintro h port rfl -
      simp at hcolon
  | literal hinner =>
      refine (stripPortStr_eq_self_iff _).mp ?_
      simpa using stripPortStr_bracket hinner []

theorem AuthorityHost.portHost {host : Str} (h : AuthorityHost host) : PortHost host := by
  cases h with
  | name _ _ hbracket => exact fun hhead => absurd (List.mem_of_mem_head? hhead) hbracket
  | @literal inner hinner => exact fun _ => ⟨'[' :: inner, by simp [hinner], rfl⟩

/-- Exactly the host is left when the port is stripped. -/
theorem stripPortStr_authority {host suffix : Str} (h : AuthorityHost host) (hsuffix : PortSuffix suffix) :
    stripPortStr (host ++ suffix) = .ok host := by
  cases hsuffix with
  | absent => rw [List.append_nil, stripPortStr_eq_self_iff]; exact h.bareHost
  | port hdigits => exact (stripPortStr_port_iff h.ne_nil hdigits).mpr h.portHost

theorem PortSuffix.visible {suffix : Str} (h : PortSuffix suffix) : suffix.all isVisible = true := by
  cases h with
  | absent => rfl
  | port hdigits =>
      rw [List.all_cons, Bool.and_eq_true]
      exact ⟨by decide, List.all_eq_true.mpr fun c hc => isVisible_of_isDigit (List.all_eq_true.mp hdigits c hc)⟩

theorem HasHost.extracts {session : Session} {host : Str} (h : HasHost session host) :
    extractHost session = .ok (some (Str.toAsciiLowercase host)) := by
  obtain ⟨suffix, hsuffix, hfield⟩ := h.field
  have hvisible : (host ++ suffix).all isVisible = true := by rw [List.all_append, h.visible, hsuffix.visible]; rfl
  have hread : hostField session = some (host ++ suffix) := by
    rw [hostField, hfield, Option.bind_some, headerToStr_bytes, if_pos hvisible]
  exact extractHost_of_field hread (stripPortStr_authority h.shape hsuffix)

/-! ## Routing -/

/-- The route of a request. -/
def routeOf (config : RouterConfig) (session : Session) : Except Panic (Option ResolvedRoute) :=
  (extractHost session).map (fun host => resolveRoute config host (extractFirstPathSegment session))

/-- What `request_filter` makes of a request, but for the affinity key. -/
def decisionOf (now : Nat) (router : Router) (session : Session) (ctx : RouterCtx) : RouterCtx × Except Abort Bool :=
  let r := requestFilter now router session ctx
  ({ r.2.2.1 with affinityKey := none }, r.2.2.2)

/-- Two requests that are routed alike by every configuration, and that every router which takes both treats alike. -/
structure RoutedAlike (session session' : Session) : Prop where
  route : ∀ config, routeOf config session = routeOf config session'
  decision : ∀ (now now' : Nat) (router : Router) (ctx : RouterCtx),
    requestLimitRejectionStatus session router.limits = none → requestLimitRejectionStatus session' router.limits = none →
      decisionOf now router session ctx = decisionOf now' router session' ctx

/-- The requests ask for the same path, and both or neither for an upgrade. -/
structure SameTarget (session session' : Session) : Prop where
  path : session.reqHeader.uri.path = session'.reqHeader.uri.path
  isUpgrade : session.isUpgradeReq = session'.isUpgradeReq

theorem SameTarget.segment {session session' : Session} (h : SameTarget session session') :
    extractFirstPathSegment session = extractFirstPathSegment session' := by
  rw [extractFirstPathSegment, h.path, extractFirstPathSegment]

/-- Which key a request is given decides neither the rest of the context nor the result. -/
theorem assignAffinity_congr (now now' : Nat) (session session' : Session)
    (sticky : Option (StickySessionState stickyShardCount)) (ctx : RouterCtx) :
    { (assignAffinity now session sticky ctx).2 with affinityKey := none } =
      { (assignAffinity now' session' sticky ctx).2 with affinityKey := none } := by
  unfold assignAffinity
  split <;> rfl

/-- The check of the pool reads and writes no affinity key. -/
theorem checkPool_withoutKey (config : RouterConfig) (ctx : RouterCtx) :
    ({ (checkPool config ctx).1 with affinityKey := none }, (checkPool config ctx).2) =
      checkPool config { ctx with affinityKey := none } := by
  have hlacks : lacksWsPool config { ctx with affinityKey := none } = lacksWsPool config ctx := rfl
  unfold checkPool
  rw [hlacks]
  split
  · rfl
  · cases ctx.resolvedPool <;> rfl

theorem checkPool_congr (config : RouterConfig) {ctx ctx' : RouterCtx}
    (h : { ctx with affinityKey := none } = { ctx' with affinityKey := none }) :
    ({ (checkPool config ctx).1 with affinityKey := none }, (checkPool config ctx).2) =
      ({ (checkPool config ctx').1 with affinityKey := none }, (checkPool config ctx').2) := by
  rw [checkPool_withoutKey, checkPool_withoutKey, h]

theorem decisionOf_congr {session session' : Session} (htarget : SameTarget session session') {host : Option Str}
    (hhost : extractHost session = .ok host) (hhost' : extractHost session' = .ok host) {router : Router}
    (hlimits : requestLimitRejectionStatus session router.limits = none)
    (hlimits' : requestLimitRejectionStatus session' router.limits = none) (now now' : Nat) (ctx : RouterCtx) :
    decisionOf now router session ctx = decisionOf now' router session' ctx := by
  have hread : extractHost (applyDownstreamTimeouts session router.timeouts) = .ok host := hhost
  have hread' : extractHost (applyDownstreamTimeouts session' router.timeouts) = .ok host := hhost'
  simp only [decisionOf, requestFilter, hlimits, hlimits', hread, hread', routeRequest]
  have hsegment : extractFirstPathSegment (applyDownstreamTimeouts session router.timeouts) =
      extractFirstPathSegment (applyDownstreamTimeouts session' router.timeouts) := htarget.segment
  have hupgrade : (applyDownstreamTimeouts session router.timeouts).isUpgradeReq =
      (applyDownstreamTimeouts session' router.timeouts).isUpgradeReq := htarget.isUpgrade
  rw [hsegment, hupgrade]
  split
  · rfl
  · exact checkPool_congr router.config (assignAffinity_congr now now' _ _ _ _)

theorem HasHost.routedAlike {session session' : Session} {host host' : Str} (h : HasHost session host)
    (h' : HasHost session' host') (hcase : Str.toAsciiLowercase host = Str.toAsciiLowercase host')
    (htarget : SameTarget session session') : RoutedAlike session session' := by
  have hread' := h'.extracts
  rw [← hcase] at hread'
  refine ⟨fun config => ?_, fun now now' router ctx hlimits hlimits' => ?_⟩
  · rw [routeOf, routeOf, h.extracts, hread', htarget.segment]
  · exact decisionOf_congr htarget h.extracts hread' hlimits hlimits' now now' ctx

/-- `extract_host` gives the host of a well-formed authority in lower case, requests that differ only in its letter case
and in the port are routed alike, and of any text a prefix is left. -/
theorem hosts_normalised :
    (∀ {session : Session} {host : Str}, HasHost session host →
        extractHost session = .ok (some (Str.toAsciiLowercase host))) ∧
      (∀ {session session' : Session} {host host' : Str}, HasHost session host → HasHost session' host' →
        Str.toAsciiLowercase host = Str.toAsciiLowercase host' → SameTarget session session' →
        RoutedAlike session session') ∧
      ∀ text, ∃ out rest, stripPortStr text = .ok out ∧ text = out ++ rest :=
  ⟨fun h => h.extracts, fun h h' => h.routedAlike h', stripPortStr_prefix⟩

/-- `Host: Example.COM:3000` and `Host: example.com`. -/
theorem hosts_normalised_sample :
    extractHost (hostSession none [(Str.lit "host", Str.bytes (Str.lit "Example.COM:3000"))]) =
        .ok (some (Str.lit "example.com")) ∧
      RoutedAlike (hostSession none [(Str.lit "host", Str.bytes (Str.lit "Example.COM:3000"))])
        (hostSession none [(Str.lit "host", Str.bytes (Str.lit "example.com"))]) := by
  have hport : HasHost (hostSession none [(Str.lit "host", Str.bytes (Str.lit "Example.COM:3000"))])
      (Str.lit "Example.COM") :=
    ⟨.name (by decide) (by decide) (by decide), by decide, Str.lit ":3000", .port (by decide), rfl⟩
  have hbare : HasHost (hostSession none [(Str.lit "host", Str.bytes (Str.lit "example.com"))]) (Str.lit "example.com") :=
    ⟨.name (by decide) (by decide) (by decide), by decide, [], .absent, rfl⟩
  exact ⟨hosts_normalised.1 hport, hosts_normalised.2.1 hport hbare (by decide) ⟨rfl, rfl⟩⟩

end NeemataProxy.Routing
