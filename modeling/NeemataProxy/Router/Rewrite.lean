import NeemataProxy.Router.Forwarding

/-!
# What rewriting keeps

`strip_first_path_segment` takes the leading segment out of a path-and-query text and nothing else. The filter around it
builds a new URI from that text alone, so the scheme and the authority are lost wherever something is stripped.
-/

namespace NeemataProxy.Routing

open Lib

/-! ## The two parts of a text -/

/-- The text in front of the first `?`. -/
def pathPart (text : Str) : Str := text.takeWhile (· != '?')

/-- The query with its `?`, as it stands in the text. -/
def queryPart (text : Str) : Str := text.dropWhile (· != '?')

theorem not_mem_pathPart (text : Str) : '?' ∉ pathPart text := fun hmem => by
  simpa using List.mem_takeWhile_imp hmem

theorem pathPart_append {path : Str} (hpath : '?' ∉ path) (query : Option Str) :
    pathPart (path ++ querySuffix query) = path := by
  rw [pathPart, List.takeWhile_append_of_pos fun c hc => by simpa using fun heq : c = '?' => hpath (heq ▸ hc)]
  cases query <;> simp [querySuffix]

theorem queryPart_append {path : Str} (hpath : '?' ∉ path) (query : Option Str) :
    queryPart (path ++ querySuffix query) = querySuffix query := by
  rw [queryPart, List.dropWhile_append_of_pos fun c hc => by simpa using fun heq : c = '?' => hpath (heq ▸ hc)]
  cases query <;> simp [querySuffix]

theorem exists_querySuffix (text : Str) : ∃ query, text = pathPart text ++ querySuffix query := by
  have hsplit : pathPart text ++ queryPart text = text := List.takeWhile_append_dropWhile
  cases hrest : queryPart text with
  | nil =>
      rw [hrest] at hsplit
      exact ⟨none, hsplit.symm⟩
  | cons c rest =>
      have hc : c = '?' := by
        have hnot := List.head?_dropWhile_not (· != '?') text
        rw [← queryPart, hrest] at hnot
        simpa using hnot
      exact ⟨some rest, by rw [querySuffix, ← hc, ← hrest, hsplit]⟩

/-! ## Stripping -/

/-- A path with this leading segment, and a single slash where nothing would be left. -/
theorem stripsTo_iff {path seg out : Str} : StripsTo path seg out ↔
    path = '/' :: seg ∧ out = ['/'] ∨ ∃ rest, path = '/' :: seg ++ '/' :: rest ∧ out = '/' :: rest := by
  constructor
  · rintro ⟨post, rfl, ⟨rfl, rfl⟩ | ⟨hhead, rfl⟩⟩
    · exact .inl ⟨by simp, rfl⟩
    · obtain ⟨rest, rfl⟩ : ∃ rest, out = '/' :: rest := by
        cases out with
        | nil => cases hhead
        | cons c rest => exact ⟨rest, by rw [Option.some.inj hhead]⟩
      exact .inr ⟨rest, rfl, rfl⟩
  · rintro (⟨rfl, rfl⟩ | ⟨rest, rfl, rfl⟩)
    · exact ⟨[], by simp, .inl ⟨rfl, rfl⟩⟩
    · exact ⟨'/' :: rest, rfl, .inr ⟨rfl, rfl⟩⟩

theorem exists_stripsTo_iff {path seg : Str} :
    (∃ out, StripsTo path seg out) ↔ path = '/' :: seg ∨ '/' :: seg ++ ['/'] <+: path := by
  simp only [stripsTo_iff, exists_or, exists_and_left, exists_eq, and_true]
  refine or_congr_right ⟨fun ⟨_, rest, hpath, _⟩ => ⟨rest, by simp [hpath]⟩, fun ⟨rest, hpath⟩ => ?_⟩
  exact ⟨_, rest, by simp [← hpath], rfl⟩

theorem StripsTo.restored {path seg out : Str} (h : StripsTo path seg out) :
    '/' :: seg ++ out = path ∨ path = '/' :: seg ∧ '/' :: seg ++ out = path ++ ['/'] := by
  rcases stripsTo_iff.mp h with ⟨rfl, rfl⟩ | ⟨rest, rfl, rfl⟩
  · exact .inr ⟨rfl, rfl⟩
  · exact .inl rfl

theorem StripsTo.head? {path seg out : Str} (h : StripsTo path seg out) : out.head? = some '/' := by
  rcases stripsTo_iff.mp h with ⟨-, rfl⟩ | ⟨rest, -, rfl⟩ <;> rfl

theorem StripsTo.not_mem {path seg out : Str} (h : StripsTo path seg out) (hpath : '?' ∉ path) : '?' ∉ out := by
  rcases stripsTo_iff.mp h with ⟨-, rfl⟩ | ⟨rest, rfl, rfl⟩
  · decide
  · exact fun hmem => hpath (List.mem_append_right _ hmem)

/-- Exactly the leading segment is taken out of the path, the query stays byte for byte, and slicing never fails. -/
theorem stripFirstPathSegment_exact (pathAndQuery segment : Str) :
    ∃ rewritten, stripFirstPathSegment pathAndQuery segment = .ok rewritten ∧
      (rewritten.isSome = true ↔
        pathPart pathAndQuery = '/' :: segment ∨ '/' :: segment ++ ['/'] <+: pathPart pathAndQuery) ∧
      ∀ out, rewritten = some out →
        (pathPart pathAndQuery = '/' :: segment ∧ out = '/' :: queryPart pathAndQuery ∨
          ∃ rest, pathPart pathAndQuery = '/' :: segment ++ '/' :: rest ∧ out = '/' :: rest ++ queryPart pathAndQuery) ∧
        out.head? = some '/' ∧ queryPart out = queryPart pathAndQuery ∧
        ('/' :: segment ++ pathPart out = pathPart pathAndQuery ∨
          pathPart pathAndQuery = '/' :: segment ∧ '/' :: segment ++ pathPart out = pathPart pathAndQuery ++ ['/']) := by
  have hpath := not_mem_pathPart pathAndQuery
  obtain ⟨query, htext⟩ := exists_querySuffix pathAndQuery
  have hquery : queryPart pathAndQuery = querySuffix query := by
    have h := queryPart_append hpath query
    rwa [← htext] at h
  rw [← exists_stripsTo_iff, hquery]
  have hspec := stripFirstPathSegment_spec hpath query segment
  rw [← htext] at hspec
  rcases hspec with ⟨out, hto, hout⟩ | ⟨hnone, hout⟩
  · refine ⟨_, hout, iff_of_true rfl ⟨out, hto⟩, fun out' hout' => ?_⟩
    obtain rfl := Option.some.inj hout'
    have hmark := hto.not_mem hpath
    rw [pathPart_append hmark, queryPart_append hmark]
    refine ⟨?_, ?_, rfl, hto.restored⟩
    · rcases stripsTo_iff.mp hto with ⟨hp, rfl⟩ | ⟨rest, hp, rfl⟩
      · exact .inl ⟨hp, rfl⟩
      · exact .inr ⟨rest, hp, rfl⟩
    · rw [List.head?_append, hto.head?]
      rfl
  · refine ⟨none, hout, iff_of_false (by simp) fun ⟨out, h⟩ => hnone out h, fun out h => ?_⟩
    cases h

/-! ## The request around the path -/

/-- `Uri::query`. -/
def Uri.query (uri : Uri) : Option Str := uri.pathAndQuery.bind PathAndQuery.query

/-- The path of the URI may lose its leading rewrite segment, and nothing else of the request changes. -/
structure OnlyPathChanges (ctx : RouterCtx) (old new : RequestHeader) : Prop where
  scheme : new.uri.scheme = old.uri.scheme
  authority : new.uri.authority = old.uri.authority
  query : new.uri.query = old.uri.query
  path : new.uri.path = old.uri.path ∨
    ∃ seg, ctx.pathRewriteSegment = some seg ∧ StripsTo old.uri.path seg new.uri.path
  headers : new.headers = old.headers

/-- The request has the rewrite segment in front of its path. -/
def LeadsWithSegment (ctx : RouterCtx) (request : RequestHeader) : Prop :=
  ∃ seg pq out, ctx.pathRewriteSegment = some seg ∧ request.uri.pathAndQuery = some pq ∧
    StripsTo (pathPart pq.asStr) seg out

/-- A text without a path is the query of a URI without a path. -/
theorem pathPart_asStr (pq : PathAndQuery) : pathPart pq.asStr = pq.pathStr ∨ pathPart pq.asStr = [] := by
  by_cases hne : pathPart pq.asStr = []
  · exact .inr hne
  · obtain ⟨query, htext⟩ := exists_querySuffix pq.asStr
    exact .inl (pathStr_of_asStr (not_mem_pathPart _) hne htext).symm

theorem queryPart_asStr (pq : PathAndQuery) : queryPart pq.asStr = querySuffix pq.query := by
  unfold PathAndQuery.asStr
  cases pq.query with
  | some q => exact queryPart_append pq.path_ok (some q)
  | none =>
      have hmark : '?' ∉ if pq.path = [] then ['/'] else pq.path := by
        split
        · decide
        · exact pq.path_ok
      simpa [querySuffix] using queryPart_append hmark none

theorem querySuffix_inj {q q' : Option Str} (h : querySuffix q = querySuffix q') : q = q' := by
  cases q <;> cases q' <;> simp_all [querySuffix]

/-- What the filter does: nothing without the segment in front, else a URI of the stripped text alone. -/
theorem upstreamRequestFilter_ok {builder : UriBuilder} {ctx : RouterCtx} {old new : RequestHeader}
    (h : upstreamRequestFilter builder ctx old = .ok new) :
    new = old ∧ ¬ LeadsWithSegment ctx old ∨
      ∃ seg pq out uri, ctx.pathRewriteSegment = some seg ∧ old.uri.pathAndQuery = some pq ∧
        StripsTo (pathPart pq.asStr) seg out ∧ builder.build (out ++ queryPart pq.asStr) = .ok uri ∧
        new = { old with uri := uri } := by
  unfold upstreamRequestFilter at h
  split at h
  · rename_i seg pq hseg hpq
    obtain ⟨query, htext⟩ := exists_querySuffix pq.asStr
    have hquery : queryPart pq.asStr = querySuffix query := by
      have hq := queryPart_append (not_mem_pathPart pq.asStr) query
      rwa [← htext] at hq
    have hspec := stripFirstPathSegment_spec (not_mem_pathPart pq.asStr) query seg
    rw [← htext] at hspec
    rcases hspec with ⟨out, hto, hout⟩ | ⟨hnone, hout⟩
    · simp only [hout] at h
      cases hbuild : builder.build (out ++ querySuffix query) with
      | error e => simp [hbuild] at h
      | ok uri =>
          simp only [hbuild] at h
          exact .inr ⟨seg, pq, out, uri, hseg, hpq, hto, by rw [hquery, hbuild], (Except.ok.inj h).symm⟩
    · rw [hout] at h
      refine .inl ⟨(Except.ok.inj h).symm, fun ⟨seg', pq', out, hseg', hpq', hto⟩ => ?_⟩
      obtain rfl := Option.some.inj (hseg.symm.trans hseg')
      obtain rfl := Option.some.inj (hpq.symm.trans hpq')
      exact hnone out hto
  · rename_i hnone
    refine .inl ⟨(Except.ok.inj h).symm, fun ⟨seg, pq, _, hseg, hpq, _⟩ => hnone seg pq hseg hpq⟩

/-- A URI that is built of a stripped text keeps the query and has the stripped path. -/
theorem built_pathAndQuery {builder : UriBuilder} {pq : PathAndQuery} {seg out : Str} {uri : Uri}
    (hto : StripsTo (pathPart pq.asStr) seg out) (hbuild : builder.build (out ++ queryPart pq.asStr) = .ok uri) :
    uri.path = out ∧ uri.query = pq.query := by
  obtain ⟨-, -, hcarried⟩ := builder.carries _ _ hbuild
  obtain ⟨pq', hpq', htext⟩ := Option.map_eq_some_iff.mp hcarried
  rw [queryPart_asStr] at htext
  have hmark := hto.not_mem (not_mem_pathPart _)
  have hne : out ≠ [] := fun hnil => by
    have := hto.head?
    rw [hnil] at this
    cases this
  constructor
  · rw [Uri.path, hpq']
    exact pathStr_of_asStr hmark hne htext
  · have hsuffix := queryPart_asStr pq'
    rw [htext, queryPart_append hmark] at hsuffix
    rw [Uri.query, hpq']
    exact (querySuffix_inj hsuffix).symm

/-- Only the path changes exactly when nothing is stripped or the URI has neither a scheme nor an authority. -/
theorem onlyPathChanges_iff (builder : UriBuilder) (ctx : RouterCtx) {old new : RequestHeader}
    (h : upstreamRequestFilter builder ctx old = .ok new) :
    OnlyPathChanges ctx old new ↔
      ¬ LeadsWithSegment ctx old ∨ old.uri.scheme = none ∧ old.uri.authority = none := by
  rcases upstreamRequestFilter_ok h with ⟨rfl, hnot⟩ | ⟨seg, pq, out, uri, hseg, hpq, hto, hbuild, rfl⟩
  · exact iff_of_true ⟨rfl, rfl, rfl, .inl rfl, rfl⟩ (.inl hnot)
  · obtain ⟨hscheme, hauthority, -⟩ := builder.carries _ _ hbuild
    obtain ⟨hpath, hquery⟩ := built_pathAndQuery hto hbuild
    constructor
    · intro hkeeps
      exact .inr ⟨hkeeps.scheme.symm.trans hscheme, hkeeps.authority.symm.trans hauthority⟩
    · rintro (hnot | ⟨hs, ha⟩)
      · exact absurd ⟨seg, pq, out, hseg, hpq, hto⟩ hnot
      · have hold : old.uri.path = pathPart pq.asStr := by
          rcases pathPart_asStr pq with hstr | hnil
          · rw [Uri.path, hpq, hstr]
          · rw [hnil] at hto
            rcases stripsTo_iff.mp hto with ⟨habsurd, -⟩ | ⟨rest, habsurd, -⟩ <;> cases habsurd
        refine ⟨hscheme.trans hs.symm, hauthority.trans ha.symm, ?_, .inr ⟨seg, hseg, ?_⟩, rfl⟩
        · rw [hquery, Uri.query, hpq]
          rfl
        · rw [hold, hpath]
          exact hto

/-- The context of a request that was routed by the path name `auth`. -/
def authCtx : RouterCtx := { RouterCtx.default with appName := some (Str.lit "login"), pathRewriteSegment := some (Str.lit "auth") }

/-- The request for `/auth/x?id=1`, with a scheme and an authority or without them. -/
def authRequest (scheme authority : Option Str) : RequestHeader where
  uri := ⟨scheme, authority, some ⟨Str.lit "/auth/x", some (Str.lit "id=1"), by decide⟩⟩
  headers := [(Str.lit "accept", Str.bytes (Str.lit "*/*"))]

/-- In its HTTP/2 form the request loses its scheme and its authority with the segment. -/
theorem rewrite_drops_authority :
    ∃ new, upstreamRequestFilter printableBuilder authCtx
        (authRequest (some (Str.lit "https")) (some (Str.lit "a.test"))) = .ok new ∧
      new.uri.scheme = none ∧ new.uri.authority = none ∧
      ¬ OnlyPathChanges authCtx (authRequest (some (Str.lit "https")) (some (Str.lit "a.test"))) new := by
  refine ⟨_, rfl, rfl, rfl, fun h => ?_⟩
  have hscheme := h.scheme
  revert hscheme
  decide

theorem onlyPathChanges_sample :
    ∃ new, upstreamRequestFilter printableBuilder authCtx (authRequest none none) = .ok new ∧
      new.uri.path = Str.lit "/x" ∧ OnlyPathChanges authCtx (authRequest none none) new := by
  have hfilter : upstreamRequestFilter printableBuilder authCtx (authRequest none none) = .ok _ := rfl
  exact ⟨_, hfilter, by decide, (onlyPathChanges_iff printableBuilder authCtx hfilter).mpr (.inr ⟨rfl, rfl⟩)⟩

end NeemataProxy.Routing
