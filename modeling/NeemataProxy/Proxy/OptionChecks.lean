import NeemataProxy.Lib.Checks
import NeemataProxy.Proxy.Hostnames
import NeemataProxy.Router.Limits

/-!
# What `parse_proxy_options` accepts

The parser does two things in turn for each part: it fills in what has been left out, and it checks the result. Taken as a
whole it accepts the options whose completion is well formed, and every well-formed value is the reading of some options.
-/

namespace NeemataProxy.Options

open Lib

/-! ## Well-formed options -/

namespace ProxyLimitCheckParsed

/-- The place of a check among the five. -/
def kind : ProxyLimitCheckParsed → Nat
  | .uriBytes _ => 0
  | .requestHeaders _ => 1
  | .singleHeaderBytes _ => 2
  | .requestHeaderBytes _ => 3
  | .requestBodyBytes _ => 4

def limit : ProxyLimitCheckParsed → Nat
  | .uriBytes l | .requestHeaders l | .singleHeaderBytes l | .requestHeaderBytes l | .requestBodyBytes l => l

end ProxyLimitCheckParsed

/-- At least one check, each at most once and in their order, with limits that a request can keep to. -/
structure LimitChecks (checks : List ProxyLimitCheckParsed) : Prop where
  nonempty : checks ≠ []
  sorted : checks.Pairwise fun a b => a.kind < b.kind
  positive : ∀ c ∈ checks, 0 < c.limit

def ProxyLimitsOptionsParsed.WellFormed : ProxyLimitsOptionsParsed → Prop
  | .disabled => True
  | .enabled checks => LimitChecks checks

structure ProxyTimeoutOptionsParsed.WellFormed (timeouts : ProxyTimeoutOptionsParsed) : Prop where
  downstreamHeader : 0 < timeouts.downstreamHeaderTimeoutMs
  downstreamBodyIdle : 0 < timeouts.downstreamBodyIdleTimeoutMs
  upstreamConnect : 0 < timeouts.upstreamConnectTimeoutMs
  upstreamRead : 0 < timeouts.upstreamReadTimeoutMs
  upstreamWrite : 0 < timeouts.upstreamWriteTimeoutMs
  downstreamKeepAlive : 0 < timeouts.downstreamKeepAliveTimeoutSeconds

structure StickySessionOptionsParsed.WellFormed (sticky : StickySessionOptionsParsed) : Prop where
  cookieName : Str.trim sticky.cookieName ≠ []
  headerName : Str.trim sticky.headerName ≠ []
  ttlMs : 0 < sticky.ttlMs
  maxEntries : 0 < sticky.maxEntries

/-- What the rest of the program may rely on; the interval of the health checks is not checked. -/
structure ProxyOptionsParsed.WellFormed (options : ProxyOptionsParsed) : Prop where
  snis : ∀ a ∈ options.applications, ∀ name ∈ a.sni, isHostnameLike name = true
  distinct : Distinct options.applications
  stickySessions : options.stickySessions.WellFormed
  limits : options.limits.WellFormed
  timeouts : options.timeouts.WellFormed

/-! ## Filling in -/

def filledTimeouts (timeouts : Option ProxyTimeoutOptions) : ProxyTimeoutOptionsParsed where
  downstreamHeaderTimeoutMs := (timeouts.bind ProxyTimeoutOptions.downstreamHeader).getD 10000
  downstreamBodyIdleTimeoutMs := (timeouts.bind ProxyTimeoutOptions.downstreamBodyIdle).getD 60000
  upstreamConnectTimeoutMs := (timeouts.bind ProxyTimeoutOptions.upstreamConnect).getD 5000
  upstreamReadTimeoutMs := (timeouts.bind ProxyTimeoutOptions.upstreamRead).getD 60000
  upstreamWriteTimeoutMs := (timeouts.bind ProxyTimeoutOptions.upstreamWrite).getD 60000
  downstreamKeepAliveTimeoutSeconds := (timeouts.bind ProxyTimeoutOptions.downstreamKeepAlive).getD 75

/-- Sessions are sticky when options for them are given, unless these switch them off. -/
def filledSticky (sticky : Option StickySessionOptions) : StickySessionOptionsParsed where
  enabled := sticky.any fun sticky => sticky.enabled.getD true
  cookieName := (sticky.bind StickySessionOptions.cookieName).getD (Str.lit "nmt_affinity")
  headerName := (sticky.bind StickySessionOptions.headerName).getD (Str.lit "x-nmt-affinity-key")
  ttlMs := (sticky.bind StickySessionOptions.ttlMs).getD 600000
  maxEntries := (sticky.bind StickySessionOptions.maxEntries).getD 20000

/-- No check at all is the same as limits that are switched off. -/
def filledLimits (limits : Nullable ProxyLimitsOptions) : ProxyLimitsOptionsParsed :=
  let checks := (Routing.configuredLimits limits).checks
  if checks = [] then .disabled else .enabled checks

/-- The name of a path or a subdomain cannot be left out. -/
def filledRouting : ProxyApplicationRouting → Option ApplicationRoutingParsed
  | .path name => name.map .path
  | .subdomain name => name.map .subdomain
  | .default => some .default

def filledApplication (app : ApplicationOptions) : Option ApplicationOptionsParsed :=
  (filledRouting app.routing).map fun routing => ⟨app.name, routing, app.sni.map Str.trim⟩

def filled (options : ProxyOptions) : Option ProxyOptionsParsed :=
  (options.applications.mapM filledApplication).map fun applications =>
    { listen := options.listen
      tls := options.tls.map fun tls => ⟨tls.certPath, tls.keyPath, tls.enableH2.getD false⟩
      applications := applications
      healthCheckIntervalMs := options.healthCheckIntervalMs.getD 5000
      stickySessions := filledSticky options.stickySessions
      limits := filledLimits options.limits
      timeouts := filledTimeouts options.timeouts }

/-! ## Each part -/

theorem parsePositiveU32_eq_ok {field : Str} {value : Option Nat} {default n : Nat} :
    parsePositiveU32 field value default = .ok n ↔ n = value.getD default ∧ 0 < n := by
  simp only [parsePositiveU32]
  split
  · rename_i hzero
    constructor
    · intro h
      cases h
    · rintro ⟨hn, hpos⟩
      omega
  · rename_i hne
    constructor
    · intro h
      obtain rfl := Except.ok.inj h
      exact ⟨rfl, Nat.pos_of_ne_zero hne⟩
    · rintro ⟨hn, -⟩
      rw [hn]

theorem parseNullablePositiveU32_eq_ok {field : Str} {value : Nullable Nat} {default : Nat} {limit : Option Nat} :
    parseNullablePositiveU32 field value default = .ok limit ↔
      limit = Routing.configuredLimit value default ∧ ∀ l ∈ limit, 0 < l := by
  have hmap : ∀ {v : Option Nat}, (parsePositiveU32 field v default).map some = .ok limit ↔
      limit = some (v.getD default) ∧ ∀ l ∈ limit, 0 < l := fun {v} => by
    refine (bind_eq_ok_iff (x := parsePositiveU32 field v default) (f := fun n => .ok (some n))).trans ?_
    simp only [parsePositiveU32_eq_ok]
    constructor
    · rintro ⟨n, ⟨rfl, hpos⟩, hlimit⟩
      obtain rfl := Except.ok.inj hlimit
      exact ⟨rfl, fun l hl => by cases hl; exact hpos⟩
    · rintro ⟨rfl, hpos⟩
      exact ⟨_, ⟨rfl, hpos _ rfl⟩, rfl⟩
  cases value with
  | value n => exact hmap (v := some n)
  | absent => exact hmap (v := none)
  | null => exact ⟨fun h => by cases h; exact ⟨rfl, nofun⟩, fun ⟨h, _⟩ => by cases h; rfl⟩

theorem parseTimeoutOptions_eq_ok {timeouts : Option ProxyTimeoutOptions} {parsed : ProxyTimeoutOptionsParsed} :
    parseTimeoutOptions timeouts = .ok parsed ↔ parsed = filledTimeouts timeouts ∧ parsed.WellFormed := by
  cases timeouts with
  | none =>
      refine ⟨fun h => ?_, fun ⟨h, _⟩ => by rw [h]; rfl⟩
      obtain rfl := Except.ok.inj h
      exact ⟨rfl, by constructor <;> decide⟩
  | some timeouts =>
      simp only [parseTimeoutOptions, bind_eq_ok_iff, parsePositiveU32_eq_ok]
      constructor
      · rintro ⟨_, ⟨rfl, h₁⟩, _, ⟨rfl, h₂⟩, _, ⟨rfl, h₃⟩, _, ⟨rfl, h₄⟩, _, ⟨rfl, h₅⟩, _, ⟨rfl, h₆⟩, h⟩
        obtain rfl := Except.ok.inj h
        exact ⟨rfl, h₁, h₂, h₃, h₄, h₅, h₆⟩
      · rintro ⟨rfl, h₁, h₂, h₃, h₄, h₅, h₆⟩
        exact ⟨_, ⟨rfl, h₁⟩, _, ⟨rfl, h₂⟩, _, ⟨rfl, h₃⟩, _, ⟨rfl, h₄⟩, _, ⟨rfl, h₅⟩, _, ⟨rfl, h₆⟩, rfl⟩

theorem parseStickySessionOptions_eq_ok {sticky : Option StickySessionOptions} {parsed : StickySessionOptionsParsed} :
    parseStickySessionOptions sticky = .ok parsed ↔ parsed = filledSticky sticky ∧ parsed.WellFormed := by
  cases sticky with
  | none =>
      refine ⟨fun h => ?_, fun ⟨h, _⟩ => by rw [h]; rfl⟩
      obtain rfl := Except.ok.inj h
      exact ⟨rfl, by constructor <;> decide⟩
  | some sticky =>
      have hparse : parseStickySessionOptions (some sticky) =
          (if Str.trim (filledSticky (some sticky)).cookieName = [] then
            .error (invalidProxyOptions (Str.lit "stickySessions.cookieName must be non-empty"))
          else if Str.trim (filledSticky (some sticky)).headerName = [] then
            .error (invalidProxyOptions (Str.lit "stickySessions.headerName must be non-empty"))
          else if (filledSticky (some sticky)).ttlMs = 0 then
            .error (invalidProxyOptions (Str.lit "stickySessions.ttlMs must be greater than 0"))
          else if (filledSticky (some sticky)).maxEntries = 0 then
            .error (invalidProxyOptions (Str.lit "stickySessions.maxEntries must be greater than 0"))
          else .ok (filledSticky (some sticky))) := rfl
      rw [hparse]
      split_ifs with hcookie hheader httl hmax
      · exact ⟨nofun, fun ⟨h, hwf⟩ => absurd (h ▸ hcookie) hwf.cookieName⟩
      · exact ⟨nofun, fun ⟨h, hwf⟩ => absurd (h ▸ hheader) hwf.headerName⟩
      · exact ⟨nofun, fun ⟨h, hwf⟩ => absurd (h ▸ httl) hwf.ttlMs.ne'⟩
      · exact ⟨nofun, fun ⟨h, hwf⟩ => absurd (h ▸ hmax) hwf.maxEntries.ne'⟩
      · refine ⟨fun h => ?_, fun ⟨h, _⟩ => by rw [h]⟩
        obtain rfl := Except.ok.inj h
        exact ⟨rfl, hcookie, hheader, Nat.pos_of_ne_zero httl, Nat.pos_of_ne_zero hmax⟩

/-! ## The limits -/

section Limits

open Routing (RequestLimits configuredLimit configuredLimits)

/-- The limit that a check of this kind is about. -/
def limitOfKind (limits : RequestLimits) : Nat → Option Nat
  | 0 => limits.uri
  | 1 => limits.requestHeaders
  | 2 => limits.singleHeader
  | 3 => limits.requestHeader
  | 4 => limits.requestBody
  | _ => none

theorem ProxyLimitCheckParsed.ext_kind {c d : ProxyLimitCheckParsed} (hkind : c.kind = d.kind) (hlimit : c.limit = d.limit) :
    c = d := by
  cases c <;> cases d <;> simp_all [kind, limit]

theorem mem_checks {limits : RequestLimits} {c : ProxyLimitCheckParsed} :
    c ∈ limits.checks ↔ limitOfKind limits c.kind = some c.limit := by
  cases c <;> simp [RequestLimits.checks, limitOfKind, ProxyLimitCheckParsed.kind, ProxyLimitCheckParsed.limit, eq_comm]

theorem checks_sorted (limits : RequestLimits) : limits.checks.Pairwise fun a b => a.kind < b.kind := by
  have hone : ∀ (o : Option Nat) (f : Nat → ProxyLimitCheckParsed), (o.map f).toList.Pairwise fun a b => a.kind < b.kind :=
    fun o f => by cases o <;> simp
  simp only [RequestLimits.checks, List.pairwise_append, hone, true_and]
  simp only [List.mem_append, Option.mem_toList, Option.map_eq_some_iff]
  grind [ProxyLimitCheckParsed.kind]

theorem positive_checks {limits : RequestLimits} :
    (∀ c ∈ limits.checks, 0 < c.limit) ↔ (∀ l ∈ limits.uri, 0 < l) ∧ (∀ l ∈ limits.requestHeaders, 0 < l) ∧
      (∀ l ∈ limits.singleHeader, 0 < l) ∧ (∀ l ∈ limits.requestHeader, 0 < l) ∧ ∀ l ∈ limits.requestBody, 0 < l := by
  simp only [mem_checks]
  constructor
  · exact fun h => ⟨fun l hl => h (.uriBytes l) hl, fun l hl => h (.requestHeaders l) hl,
      fun l hl => h (.singleHeaderBytes l) hl, fun l hl => h (.requestHeaderBytes l) hl,
      fun l hl => h (.requestBodyBytes l) hl⟩
  · rintro ⟨h₁, h₂, h₃, h₄, h₅⟩ c hc
    cases c with
    | uriBytes l => exact h₁ l hc
    | requestHeaders l => exact h₂ l hc
    | singleHeaderBytes l => exact h₃ l hc
    | requestHeaderBytes l => exact h₄ l hc
    | requestBodyBytes l => exact h₅ l hc

theorem wellFormed_filledLimits {limits : Nullable ProxyLimitsOptions} :
    (filledLimits limits).WellFormed ↔ ∀ c ∈ (configuredLimits limits).checks, 0 < c.limit := by
  simp only [filledLimits]
  split
  · rename_i hnil
    rw [hnil]
    exact ⟨fun _ => nofun, fun _ => trivial⟩
  · rename_i hne
    exact ⟨fun h => h.positive, fun h => ⟨hne, checks_sorted _, h⟩⟩

theorem parseLimitsOptions_eq_ok {limits : Nullable ProxyLimitsOptions} {parsed : ProxyLimitsOptionsParsed} :
    parseLimitsOptions limits = .ok parsed ↔ parsed = filledLimits limits ∧ parsed.WellFormed := by
  have hwf : parsed = filledLimits limits ∧ parsed.WellFormed ↔
      parsed = filledLimits limits ∧ ∀ c ∈ (configuredLimits limits).checks, 0 < c.limit :=
    and_congr_right fun h => by rw [h, wellFormed_filledLimits]
  rw [hwf]
  cases limits with
  | absent =>
      refine ⟨fun h => ?_, fun ⟨h, _⟩ => by rw [h]; rfl⟩
      obtain rfl := Except.ok.inj h
      exact ⟨rfl, by decide⟩
  | null => exact ⟨fun h => by cases h; exact ⟨rfl, nofun⟩, fun ⟨h, _⟩ => by rw [h]; rfl⟩
  | value options =>
      simp only [parseLimitsOptions, bind_eq_ok_iff, parseNullablePositiveU32_eq_ok, positive_checks]
      constructor
      · rintro ⟨_, ⟨rfl, h₁⟩, _, ⟨rfl, h₂⟩, _, ⟨rfl, h₃⟩, _, ⟨rfl, h₄⟩, _, ⟨rfl, h₅⟩, h⟩
        obtain rfl := Except.ok.inj h
        exact ⟨rfl, h₁, h₂, h₃, h₄, h₅⟩
      · rintro ⟨rfl, h₁, h₂, h₃, h₄, h₅⟩
        exact ⟨_, ⟨rfl, h₁⟩, _, ⟨rfl, h₂⟩, _, ⟨rfl, h₃⟩, _, ⟨rfl, h₄⟩, _, ⟨rfl, h₅⟩, rfl⟩

end Limits

/-! ## The applications -/

theorem parseApplicationSni_eq_ok {raw sni : Option Str} :
    parseApplicationSni raw = .ok sni ↔ sni = raw.map Str.trim ∧ ∀ name ∈ sni, isHostnameLike name = true := by
  cases raw with
  | none => exact ⟨fun h => by cases h; exact ⟨rfl, nofun⟩, fun ⟨h, _⟩ => by rw [h]; rfl⟩
  | some raw =>
      simp only [parseApplicationSni, Option.map_some]
      split_ifs with hnil hlike
      · refine ⟨nofun, fun ⟨h, hall⟩ => ?_⟩
        have hempty := hall [] (by rw [h, hnil]; rfl)
        simp [isHostnameLike] at hempty
      · refine ⟨nofun, fun ⟨h, hall⟩ => ?_⟩
        simp [hall (Str.trim raw) h] at hlike
      · refine ⟨fun h => ?_, fun ⟨h, _⟩ => by rw [h]⟩
        obtain rfl := Except.ok.inj h
        refine ⟨rfl, fun name hname => ?_⟩
        obtain rfl := Option.some.inj hname
        simpa using hlike

theorem parseRouting_eq_ok {raw : ProxyApplicationRouting} {routing : ApplicationRoutingParsed} :
    parseRouting raw = .ok routing ↔ filledRouting raw = some routing := by
  cases raw with
  | default => exact ⟨fun h => by cases h; rfl, fun h => by cases h; rfl⟩
  | subdomain name =>
      cases name with
      | none => exact ⟨nofun, nofun⟩
      | some name => exact ⟨fun h => by cases h; rfl, fun h => by cases h; rfl⟩
  | path name =>
      cases name with
      | none => exact ⟨nofun, nofun⟩
      | some name => exact ⟨fun h => by cases h; rfl, fun h => by cases h; rfl⟩

theorem parseApplicationOptions_checks :
    Checks parseApplicationOptions filledApplication fun a => ∀ name ∈ a.sni, isHostnameLike name = true := by
  intro app a
  simp only [parseApplicationOptions, bind_eq_ok_iff, parseApplicationSni_eq_ok, parseRouting_eq_ok, filledApplication,
    Option.map_eq_some_iff]
  constructor
  · rintro ⟨_, ⟨rfl, hsni⟩, routing, hrouting, h⟩
    obtain rfl := Except.ok.inj h
    exact ⟨⟨routing, hrouting, rfl⟩, hsni⟩
  · rintro ⟨⟨routing, hrouting, rfl⟩, hsni⟩
    exact ⟨_, ⟨rfl, hsni⟩, routing, hrouting, rfl⟩

/-! ## The whole -/

theorem parseProxyOptions_checks : Checks parseProxyOptions filled ProxyOptionsParsed.WellFormed := by
  intro options parsed
  have hunit : ∀ applications, (∃ u, validateApplications applications = .ok u) ↔ Distinct applications := fun applications =>
    ⟨fun ⟨_, h⟩ => (validateApplications_iff applications).mp h, fun h => ⟨(), (validateApplications_iff applications).mpr h⟩⟩
  simp only [parseProxyOptions, bind_eq_ok_iff, parseApplicationOptions_checks.mapM _ _, parseStickySessionOptions_eq_ok,
    parseLimitsOptions_eq_ok, parseTimeoutOptions_eq_ok, filled, Option.map_eq_some_iff]
  constructor
  · rintro ⟨applications, ⟨hfilled, hsnis⟩, u, hdistinct, _, ⟨rfl, hsticky⟩, _, ⟨rfl, hlimits⟩, _, ⟨rfl, htimeouts⟩, h⟩
    obtain rfl := Except.ok.inj h
    exact ⟨⟨applications, hfilled, rfl⟩, hsnis, (hunit _).mp ⟨u, hdistinct⟩, hsticky, hlimits, htimeouts⟩
  · rintro ⟨⟨applications, hfilled, rfl⟩, hsnis, hdistinct, hsticky, hlimits, htimeouts⟩
    obtain ⟨u, hu⟩ := (hunit _).mpr hdistinct
    exact ⟨applications, ⟨hfilled, hsnis⟩, u, hu, _, ⟨rfl, hsticky⟩, _, ⟨rfl, hlimits⟩, _, ⟨rfl, htimeouts⟩, rfl⟩

/-! ## Well-formed options as raw ones -/

/-- The limit of this kind, switched off when there is no such check. -/
def rawLimit (checks : List ProxyLimitCheckParsed) (kind : Nat) : Nullable Nat :=
  match checks.find? fun c => c.kind = kind with
  | some c => .value c.limit
  | none => .null

def ProxyLimitsOptionsParsed.raw : ProxyLimitsOptionsParsed → Nullable ProxyLimitsOptions
  | .disabled => .null
  | .enabled checks =>
      .value ⟨rawLimit checks 0, rawLimit checks 1, rawLimit checks 2, rawLimit checks 3, rawLimit checks 4⟩

def ApplicationRoutingParsed.raw : ApplicationRoutingParsed → ProxyApplicationRouting
  | .subdomain name => .subdomain (some name)
  | .path name => .path (some name)
  | .default => .default

/-- The options with nothing left out. -/
def ProxyOptionsParsed.raw (parsed : ProxyOptionsParsed) : ProxyOptions where
  listen := parsed.listen
  tls := parsed.tls.map fun tls => ⟨tls.certPath, tls.keyPath, some tls.enableH2⟩
  applications := parsed.applications.map fun a => ⟨a.name, a.routing.raw, a.sni⟩
  healthCheckIntervalMs := some parsed.healthCheckIntervalMs
  stickySessions := some
    { enabled := some parsed.stickySessions.enabled
      cookieName := some parsed.stickySessions.cookieName
      headerName := some parsed.stickySessions.headerName
      ttlMs := some parsed.stickySessions.ttlMs
      maxEntries := some parsed.stickySessions.maxEntries }
  limits := parsed.limits.raw
  timeouts := some
    { downstreamHeader := some parsed.timeouts.downstreamHeaderTimeoutMs
      downstreamBodyIdle := some parsed.timeouts.downstreamBodyIdleTimeoutMs
      upstreamConnect := some parsed.timeouts.upstreamConnectTimeoutMs
      upstreamRead := some parsed.timeouts.upstreamReadTimeoutMs
      upstreamWrite := some parsed.timeouts.upstreamWriteTimeoutMs
      downstreamKeepAlive := some parsed.timeouts.downstreamKeepAliveTimeoutSeconds }

theorem configuredLimit_rawLimit (checks : List ProxyLimitCheckParsed) (kind default : Nat) :
    Routing.configuredLimit (rawLimit checks kind) default =
      (checks.find? fun c => c.kind = kind).map ProxyLimitCheckParsed.limit := by
  unfold rawLimit
  cases checks.find? fun c => c.kind = kind <;> rfl

/-- In a sorted list of checks the check of a kind is the one that is found. -/
theorem find?_kind_iff {checks : List ProxyLimitCheckParsed} (h : checks.Pairwise fun a b => a.kind < b.kind)
    {c : ProxyLimitCheckParsed} :
    (checks.find? fun d => d.kind = c.kind).map ProxyLimitCheckParsed.limit = some c.limit ↔ c ∈ checks := by
  constructor
  · intro hfind
    obtain ⟨d, hd, hlimit⟩ := Option.map_eq_some_iff.mp hfind
    have hkind : d.kind = c.kind := by simpa using List.find?_some hd
    rw [← ProxyLimitCheckParsed.ext_kind hkind hlimit]
    exact List.mem_of_find?_eq_some hd
  · intro hmem
    cases hfind : checks.find? fun d => d.kind = c.kind with
    | none => simpa using List.find?_eq_none.mp hfind c hmem
    | some d =>
        have hkind : d.kind = c.kind := by simpa using List.find?_some hfind
        have hnodup : (checks.map ProxyLimitCheckParsed.kind).Nodup := List.pairwise_map.mpr (h.imp Nat.ne_of_lt)
        rw [List.inj_on_of_nodup_map hnodup (List.mem_of_find?_eq_some hfind) hmem hkind, Option.map_some]

theorem filledLimits_raw {limits : ProxyLimitsOptionsParsed} (h : limits.WellFormed) : filledLimits limits.raw = limits := by
  cases limits with
  | disabled => rfl
  | enabled checks =>
      have hchecks : (Routing.configuredLimits (ProxyLimitsOptionsParsed.raw (.enabled checks))).checks = checks := by
        refine eq_of_sorted (checks_sorted _) h.sorted fun c => ?_
        rw [mem_checks, ← find?_kind_iff h.sorted]
        cases c with
        | uriBytes l => exact iff_of_eq (congrArg (· = some l) (configuredLimit_rawLimit checks 0 8192))
        | requestHeaders l => exact iff_of_eq (congrArg (· = some l) (configuredLimit_rawLimit checks 1 100))
        | singleHeaderBytes l => exact iff_of_eq (congrArg (· = some l) (configuredLimit_rawLimit checks 2 8192))
        | requestHeaderBytes l => exact iff_of_eq (congrArg (· = some l) (configuredLimit_rawLimit checks 3 65536))
        | requestBodyBytes l => exact iff_of_eq (congrArg (· = some l) (configuredLimit_rawLimit checks 4 16777216))
      simp only [filledLimits, hchecks]
      exact if_neg h.nonempty

/-- A hostname-like text has no blanks to trim. -/
theorem trim_of_isHostnameLike {name : Str} (h : isHostnameLike name = true) : Str.trim name = name := by
  have hplain : ∀ c ∈ name, Str.isWhitespace c = false := fun c hc => by
    have hrange : c.isAlphanum = true ∨ c = '-' ∨ c = '.' := by
      rcases Str.mem_splitOn_or_eq '.' hc with ⟨label, hlabel, hc⟩ | rfl
      · exact ((isHostnameLike_iff.mp h label hlabel).chars c hc).imp_right .inl
      · exact .inr (.inr rfl)
    rcases hrange with halpha | rfl | rfl
    · have := isAlphanum_iff.mp halpha
      simp only [Str.isWhitespace, Bool.or_eq_false_iff, Bool.and_eq_false_iff, decide_eq_false_iff_not, beq_eq_false_iff_ne]
      omega
    · rfl
    · rfl
  exact Str.trim_of_ends (fun c hc => hplain c (List.mem_of_mem_head? hc)) fun c hc => hplain c (List.mem_of_getLast? hc)

theorem filledApplication_raw {a : ApplicationOptionsParsed} (h : ∀ name ∈ a.sni, isHostnameLike name = true) :
    filledApplication ⟨a.name, a.routing.raw, a.sni⟩ = some a := by
  obtain ⟨name, routing, sni⟩ := a
  have hsni : sni.map Str.trim = sni := by
    cases sni with
    | none => rfl
    | some sni => exact congrArg some (trim_of_isHostnameLike (h sni rfl))
  rw [filledApplication, hsni]
  cases routing <;> rfl

theorem filledApplications_raw {applications : List ApplicationOptionsParsed}
    (h : ∀ a ∈ applications, ∀ name ∈ a.sni, isHostnameLike name = true) :
    (applications.map fun a => (⟨a.name, a.routing.raw, a.sni⟩ : ApplicationOptions)).mapM filledApplication =
      some applications := by
  induction applications with
  | nil => rfl
  | cons a applications ih =>
      obtain ⟨ha, hrest⟩ := List.forall_mem_cons.mp h
      rw [List.map_cons, List.mapM_cons, ih hrest, filledApplication_raw ha]
      rfl

theorem filled_raw {parsed : ProxyOptionsParsed} (h : parsed.WellFormed) : filled parsed.raw = some parsed := by
  obtain ⟨listen, tls, applications, interval, sticky, limits, timeouts⟩ := parsed
  have htls : (tls.map fun t => (⟨t.certPath, t.keyPath, some t.enableH2⟩ : ListenerTlsOptions)).map
      (fun t => (⟨t.certPath, t.keyPath, t.enableH2.getD false⟩ : ListenerTlsOptionsParsed)) = tls := by cases tls <;> rfl
  have hlimits : filledLimits limits.raw = limits := filledLimits_raw h.limits
  simp only [filled, ProxyOptionsParsed.raw, filledApplications_raw h.snis, Option.map_some, htls, hlimits]
  rfl

end NeemataProxy.Options
