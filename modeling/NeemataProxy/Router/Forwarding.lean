import NeemataProxy.Proxy.Pools
import NeemataProxy.Router.Lemmas.Filter
import NeemataProxy.Router.Path

/-!
# Path routing and path rewriting

The segment that decides the route is found by skipping empty parts of the path, and removed by its literal
prefix. The two agree exactly on the paths that begin with a single slash.
-/

namespace NeemataProxy.Routing

open Lib

/-- The first path segment, `seg`, decides the route of the request. -/
structure RoutedByPath (config : RouterConfig) (session : Session) (seg : Str) : Prop where
  host : ∃ host, extractHost session = .ok host ∧ ∀ h, host = some h → config.subdomainRoutes.get h = none
  segment : extractFirstPathSegment session = some seg
  owned : (config.pathRoutes.get seg).isSome

/-- `new` is `old` without the segment `seg` in front, whatever the numbers of slashes around it. -/
def SegmentRemoved (seg old new : Str) : Prop :=
  ∃ pre post pre', old = pre ++ seg ++ post ∧ (∀ c ∈ pre, c = '/') ∧ (post = [] ∨ post.head? = some '/') ∧
    new = pre' ++ post ∧ ∀ c ∈ pre', c = '/'

/-- The request is forwarded with the segment that decided its route removed, and otherwise unchanged. -/
def ForwardedAsRouted (builder : UriBuilder) (config : RouterConfig) (session : Session) (ctx : RouterCtx)
    (upstreamRequest : RequestHeader) : Prop :=
  (∀ seg, RoutedByPath config session seg →
    (∃ pq out, upstreamRequest.uri.pathAndQuery = some pq ∧ stripFirstPathSegment pq.asStr seg = .ok (some out)) ∧
    ∃ forwarded, upstreamRequestFilter builder ctx upstreamRequest = .ok forwarded ∧
      forwarded.uri.path.head? = some '/' ∧ SegmentRemoved seg upstreamRequest.uri.path forwarded.uri.path) ∧
  ((∀ seg, ¬ RoutedByPath config session seg) →
    upstreamRequestFilter builder ctx upstreamRequest = .ok upstreamRequest)

/-- The path begins with one slash that no other follows. -/
def OneLeadingSlash (path : Str) : Prop := ∃ rest, path = '/' :: rest ∧ rest.head? ≠ some '/'

/-! ## The rewrite segment of a filtered request -/

/-- The rewrite segment of a resolved route is the first path segment, when no subdomain matched and it is owned. -/
theorem resolveRoute_pathRewriteSegment {config : RouterConfig} {host first : Option Str} {route : ResolvedRoute}
    (h : resolveRoute config host first = some route) (seg : Str) :
    route.pathRewriteSegment = some seg ↔
      (∀ h, host = some h → config.subdomainRoutes.get h = none) ∧ first = some seg ∧
        (config.pathRoutes.get seg).isSome := by
  have hpath : ∀ r, pathRoute config first = some r →
      (r.pathRewriteSegment = some seg ↔ first = some seg ∧ (config.pathRoutes.get seg).isSome) := by
    intro r hr
    unfold pathRoute defaultRoute at hr
    split at hr
    · split at hr
      · rename_i owner howner
        obtain rfl := Option.some.inj hr
        simp only [Option.some.injEq, iff_self_and]
        rintro rfl
        simp [howner]
      · rename_i seg' howner
        obtain ⟨app, -, rfl⟩ := Option.map_eq_some_iff.mp hr
        simp only [reduceCtorEq, Option.some.injEq, false_iff, not_and]
        rintro rfl
        simp [howner]
    · obtain ⟨app, -, rfl⟩ := Option.map_eq_some_iff.mp hr
      simp
  unfold resolveRoute at h
  split at h
  · rename_i host
    split at h
    · rename_i owner howner
      obtain rfl := Option.some.inj h
      simp [howner]
    · rename_i hnone
      rw [hpath route h]
      simp [hnone]
  · rw [hpath route h]
    simp

/-- The rewrite segment of a request is the segment that decided its route. -/
theorem routedByPath_iff {now : Nat} {router router' : Router} {session session' : Session} {ctx ctx' : RouterCtx}
    (h : requestFilter now router session ctx = (router', session', ctx', .ok false)) (seg : Str) :
    RoutedByPath router.config session seg ↔ ctx'.pathRewriteSegment = some seg := by
  obtain ⟨host, route, hhost, hroute, hctx⟩ := requestFilter_route h
  rw [hctx, resolveRoute_pathRewriteSegment hroute]
  constructor
  · rintro ⟨⟨host', hhost', hsub⟩, hseg, howned⟩
    obtain rfl : host = host' := by simpa [hhost] using hhost'
    exact ⟨hsub, hseg, howned⟩
  · rintro ⟨hsub, hseg, howned⟩
    exact ⟨⟨host, hhost, hsub⟩, hseg, howned⟩

/-! ## Paths -/

theorem asStr_of_path_ne_nil {pq : PathAndQuery} (h : pq.path ≠ []) : pq.asStr = pq.path ++ querySuffix pq.query := by
  unfold PathAndQuery.asStr querySuffix
  cases pq.query <;> simp [h]

/-- A text whose path is not empty determines the path. -/
theorem pathStr_of_asStr {pq : PathAndQuery} {path : Str} {query : Option Str} (hpath : '?' ∉ path) (hne : path ≠ [])
    (h : pq.asStr = path ++ querySuffix query) : pq.pathStr = path := by
  have hsplit : ∀ {p : Str} {q : Option Str}, '?' ∉ p → p ++ querySuffix q = path ++ querySuffix query → p = path := by
    intro p q hp heq
    have h₁ := splitOnce_query hp q
    rw [heq, splitOnce_query hpath query] at h₁
    exact (Prod.mk.inj h₁).1.symm
  by_cases hp : pq.path = []
  · cases hq : pq.query with
    | none =>
        have h₁ : ['/'] ++ querySuffix none = path ++ querySuffix query := by
          simpa [PathAndQuery.asStr, hp, hq, querySuffix] using h
        simpa [PathAndQuery.pathStr, hp] using hsplit (p := ['/']) (by decide) h₁
    | some q =>
        have h₁ : [] ++ querySuffix (some q) = path ++ querySuffix query := by
          simpa [PathAndQuery.asStr, hp, hq, querySuffix] using h
        exact absurd (hsplit (by simp) h₁).symm hne
  · rw [asStr_of_path_ne_nil hp] at h
    simpa [PathAndQuery.pathStr, hp] using hsplit pq.path_ok h

/-- A path that begins with one slash and has `seg` as its first segment has it right behind the slash. -/
theorem stripsTo_of_oneLeadingSlash {path seg : Str} (hslash : OneLeadingSlash path)
    (hseg : ((path.splitOn '/').filter (fun p => p ≠ [])).head? = some seg) : ∃ out, StripsTo path seg out := by
  obtain ⟨rest, rfl, hrest⟩ := hslash
  obtain ⟨pre, post, hpath, hpre, hne, hin, hpost⟩ := (Str.head?_parts_eq_some _ _).mp hseg
  obtain ⟨d, seg, rfl⟩ := List.exists_cons_of_ne_nil hne
  cases pre with
  | nil =>
      simp only [List.nil_append, List.cons_append, List.cons.injEq] at hpath
      exact absurd (hpath.1 ▸ List.mem_cons_self) hin
  | cons e pre =>
      simp only [List.cons_append, List.cons.injEq] at hpath
      cases pre with
      | nil =>
          obtain rfl := hpath.2
          refine ⟨if post = [] then ['/'] else post, post, by simp, ?_⟩
          rcases hpost with rfl | hpost
          · simp
          · exact .inr ⟨hpost, if_neg (by rintro rfl; simp at hpost)⟩
      | cons f pre =>
          refine absurd ?_ hrest
          rw [hpath.2, hpre f (by simp)]
          rfl

/-- Behind the leading segment there is no second slash in front. -/
theorem oneLeadingSlash_of_stripsTo {path seg out : Str} (hne : seg ≠ []) (hin : '/' ∉ seg)
    (h : StripsTo path seg out) : OneLeadingSlash path := by
  obtain ⟨post, rfl, -⟩ := h
  obtain ⟨d, seg, rfl⟩ := List.exists_cons_of_ne_nil hne
  exact ⟨d :: seg ++ post, rfl, fun h => hin (by simp at h; simp [h])⟩

/-! ## The theorem -/

/-- Path routing and path rewriting agree on a request exactly when it is not routed by its path or its path
begins with a single slash. -/
theorem forwardedAsRouted_iff {now : Nat} {router router' : Router} {session session' : Session}
    {ctx ctx' : RouterCtx} (builder : UriBuilder) (upstreamRequest : RequestHeader)
    (hfilter : requestFilter now router session ctx = (router', session', ctx', .ok false))
    (huri : upstreamRequest.uri = session.reqHeader.uri) (haccepted : builder.Accepted upstreamRequest.uri) :
    ForwardedAsRouted builder router.config session ctx' upstreamRequest ↔
      ∀ seg, RoutedByPath router.config session seg → OneLeadingSlash session.reqHeader.uri.path := by
  have hparts : ∀ {seg}, extractFirstPathSegment session = some seg →
      ∃ pq, upstreamRequest.uri.pathAndQuery = some pq ∧ pq.path ≠ [] ∧ session.reqHeader.uri.path = pq.path ∧
        seg ≠ [] ∧ '/' ∉ seg := by
    intro seg hseg
    obtain ⟨pre, post, hpath, -, hne, hin, -⟩ := (Str.head?_parts_eq_some _ _).mp hseg
    cases hpq : session.reqHeader.uri.pathAndQuery with
    | none => simp [Uri.path, hpq, hne] at hpath
    | some pq =>
        have hpqne : pq.path ≠ [] := by
          intro hnil
          simp only [Uri.path, hpq, PathAndQuery.pathStr, hnil] at hpath
          have hlen := congrArg List.length hpath
          obtain ⟨d, seg, rfl⟩ := List.exists_cons_of_ne_nil hne
          have hd : d = '/' := by cases pre <;> simp_all
          exact hin (hd ▸ List.mem_cons_self)
        exact ⟨pq, by rw [huri, hpq], hpqne, by simp [Uri.path, hpq, PathAndQuery.pathStr, hpqne], hne, hin⟩
  constructor
  · rintro ⟨hstrip, -⟩ seg hseg
    obtain ⟨pq, hpq, hpqne, hpath, hne, hin⟩ := hparts hseg.segment
    obtain ⟨⟨pq', out, hpq', hout⟩, -⟩ := hstrip seg hseg
    obtain rfl : pq = pq' := by simpa [hpq] using hpq'
    rw [asStr_of_path_ne_nil hpqne] at hout
    rcases stripFirstPathSegment_spec pq.path_ok pq.query seg with ⟨out', hto, -⟩ | ⟨-, hnone⟩
    · exact hpath ▸ oneLeadingSlash_of_stripsTo hne hin hto
    · simp [hnone] at hout
  · intro hslash
    refine ⟨fun seg hseg => ?_, fun hnot => ?_⟩
    · obtain ⟨pq, hpq, hpqne, hpath, hne, hin⟩ := hparts hseg.segment
      have hctx := (routedByPath_iff hfilter seg).mp hseg
      have hfirst : ((pq.path.splitOn '/').filter (fun p => p ≠ [])).head? = some seg := by
        rw [← hpath]; exact hseg.segment
      obtain ⟨out, hto⟩ := stripsTo_of_oneLeadingSlash (hpath ▸ hslash seg hseg) hfirst
      rcases stripFirstPathSegment_spec pq.path_ok pq.query seg with ⟨out, hto, hout⟩ | ⟨hnone, -⟩
      swap
      · exact absurd hto (hnone out)
      rw [← asStr_of_path_ne_nil hpqne] at hout
      obtain ⟨hall, hlen⟩ := haccepted pq hpq
      rw [asStr_of_path_ne_nil hpqne] at hall hlen
      obtain ⟨post, hpath', hcase⟩ := hto
      have houtq : '?' ∉ out := by
        have := pq.path_ok
        rcases hcase with ⟨rfl, rfl⟩ | ⟨_, rfl⟩
        · decide
        · simp only [hpath', List.cons_append, List.mem_cons, List.mem_append, not_or] at this; exact this.2.2
      have houthead : out.head? = some '/' := by
        rcases hcase with ⟨rfl, rfl⟩ | ⟨h, rfl⟩
        · rfl
        · exact h
      have houtne : out ≠ [] := by rintro rfl; simp at houthead
      -- what the builder gets is again a path and query of allowed characters
      have htext : (⟨out, pq.query, houtq⟩ : PathAndQuery).asStr = out ++ querySuffix pq.query :=
        asStr_of_path_ne_nil houtne
      have hallowed : (out ++ querySuffix pq.query).all builder.allowed := by
        rw [hpath'] at hall
        rcases hcase with ⟨rfl, rfl⟩ | ⟨_, rfl⟩ <;> simp_all
      have hshort : Str.len (out ++ querySuffix pq.query) < 65535 := by
        rw [hpath'] at hlen
        rcases hcase with ⟨rfl, rfl⟩ | ⟨_, rfl⟩ <;> simp at hlen ⊢ <;> omega
      obtain ⟨uri, hbuild⟩ := builder.accepts ⟨out, pq.query, houtq⟩
        (by rw [htext]; simp [houthead]) (by rw [htext]; exact hallowed) (by rw [htext]; exact hshort)
      rw [htext] at hbuild
      obtain ⟨pq', huri', hstr⟩ := Option.map_eq_some_iff.mp (builder.carries _ _ hbuild).2.2
      have hpathStr : uri.path = out := by
        rw [Uri.path, huri']
        exact pathStr_of_asStr houtq houtne hstr
      refine ⟨⟨pq, _, hpq, hout⟩, { upstreamRequest with uri := uri }, ?_, ?_, ?_⟩
      · simp [upstreamRequestFilter, hctx, hpq, hout, hbuild]
      · simpa [hpathStr] using houthead
      · rw [show upstreamRequest.uri.path = pq.path from huri ▸ hpath, hpathStr, hpath']
        refine ⟨['/'], post, if post = [] then ['/'] else [], by simp, by simp, ?_, ?_, ?_⟩
        · exact hcase.imp And.left And.left
        · rcases hcase with ⟨rfl, rfl⟩ | ⟨h, rfl⟩
          · rfl
          · rw [if_neg houtne]; rfl
        · split <;> simp
    · have hnone : ctx'.pathRewriteSegment = none := by
        refine Option.eq_none_iff_forall_ne_some.mpr (fun seg h => hnot seg ?_)
        exact (routedByPath_iff hfilter seg).mpr h
      simp [upstreamRequestFilter, hnone]

/-! ## Two leading slashes -/

/-- A builder that takes every text of printable characters with a slash in front. -/
def printableBuilder : UriBuilder where
  allowed := fun c => 0x20 < c.toNat && c ≠ '#'
  build := fun text =>
    if text.head? = some '/' ∧ text.all (fun c => 0x20 < c.toNat && c ≠ '#') ∧ Str.len text < 65535 then
      match h : Str.splitOnce '?' text with
      | some (path, query) => .ok ⟨none, none, some ⟨path, some query, (Str.splitOnce_eq_some.mp h).1⟩⟩
      | none => .ok ⟨none, none, some ⟨text, none, Str.splitOnce_eq_none.mp h⟩⟩
    else .error (Str.lit "invalid uri character")
  accepts := fun pq hhead hall hlen => by
    rw [if_pos ⟨hhead, hall, hlen⟩]
    split <;> exact ⟨_, rfl⟩
  carries := fun text uri h => by
    split at h
    · rename_i hcond
      split at h
      · rename_i path query hsplit
        obtain rfl := Except.ok.inj h
        exact ⟨rfl, rfl, by simp [PathAndQuery.asStr, (Str.splitOnce_eq_some.mp hsplit).2]⟩
      · obtain rfl := Except.ok.inj h
        exact ⟨rfl, rfl, by simp [PathAndQuery.asStr, show text ≠ [] by rintro rfl; simp at hcond]⟩
    · simp at h

/-- One application, routed by the path name `auth`. -/
def authOptions : Options.ProxyOptions where
  listen := Str.lit "127.0.0.1:0"
  tls := none
  applications := [⟨Str.lit "login", .path (some (Str.lit "auth")), none⟩]
  healthCheckIntervalMs := none
  stickySessions := none
  limits := .null
  timeouts := none

def authPools : Pools :=
  let addr : SocketAddr := ⟨Str.lit "127.0.0.1", false, 3000⟩
  HashMap.empty.insert (Str.lit "login", .http1) ⟨⟨(0, .http1), {addr}, .plain, 5000⟩, false, [], {addr.toStr}⟩

/-- The router of a proxy with these options and pools. -/
def authRouter : Except JsError Router :=
  (Options.parseProxyOptions authOptions).map (fun parsed =>
    (Router.new .default ⟨false, [], [], 1, 1, false⟩ parsed.limits parsed.timeouts).update
      (buildRouterConfig parsed authPools))

/-- A request for a path. -/
def pathSession (path : Str) (h : '?' ∉ path) : Session where
  reqHeader := ⟨⟨none, none, some ⟨path, none, h⟩⟩, [(Str.lit "host", [0x61])]⟩
  isUpgradeReq := false
  rawPathLen := Str.len path
  h1RawLen := 40
  closed := false
  downstream := ⟨none, none, none⟩

/-- What `request_filter` of that proxy makes of the request. -/
def authFiltered (path : Str) (h : '?' ∉ path) : Except JsError (Router × Session × RouterCtx × Except Abort Bool) :=
  authRouter.map (fun router => requestFilter 0 router (pathSession path h) .default)

/-- The request for `//auth/x` is routed by `auth` and forwarded with its path as it is. -/
theorem forwardedAsRouted_doubleSlash :
    ∃ router r, authRouter = .ok router ∧ authFiltered (Str.lit "//auth/x") (by decide) = .ok r ∧
      r.2.2.2 = .ok false ∧
      RoutedByPath router.config (pathSession (Str.lit "//auth/x") (by decide)) (Str.lit "auth") ∧
      ¬ ForwardedAsRouted printableBuilder router.config (pathSession (Str.lit "//auth/x") (by decide)) r.2.2.1
        (pathSession (Str.lit "//auth/x") (by decide)).reqHeader := by
  refine ⟨_, _, rfl, rfl, by decide, ?_, fun h => ?_⟩
  · exact ⟨⟨some (Str.lit "a"), by decide, by decide⟩, by decide, by decide⟩
  · obtain ⟨⟨pq, out, hpq, hout⟩, -⟩ :=
      h.1 (Str.lit "auth") ⟨⟨some (Str.lit "a"), by decide, by decide⟩, by decide, by decide⟩
    obtain rfl := Option.some.inj hpq
    have hnone : stripFirstPathSegment (Str.lit "//auth/x") (Str.lit "auth") = .ok none := by decide
    exact absurd (hnone.symm.trans hout) (by simp)

/-- With a single slash the segment is removed. -/
theorem forwardedAsRouted_singleSlash :
    ∃ router r, authRouter = .ok router ∧ authFiltered (Str.lit "/auth/x") (by decide) = .ok r ∧
      ForwardedAsRouted printableBuilder router.config (pathSession (Str.lit "/auth/x") (by decide)) r.2.2.1
        (pathSession (Str.lit "/auth/x") (by decide)).reqHeader := by
  refine ⟨_, _, rfl, rfl, ?_⟩
  refine (@forwardedAsRouted_iff 0 _ _ (pathSession (Str.lit "/auth/x") (by decide)) _ .default _ printableBuilder _
    (Prod.ext rfl (Prod.ext rfl (Prod.ext rfl rfl))) rfl ?_).mpr (fun _ _ => ?_)
  · intro pq hpq
    obtain rfl := Option.some.inj hpq
    exact ⟨by decide, by decide⟩
  · exact ⟨Str.lit "auth/x", by decide, by decide⟩

end NeemataProxy.Routing
