import NeemataProxy.Router.Filter

/-!
# Path rewriting (`strip_first_path_segment`, `upstream_request_filter` in `src/router.rs`)
-/

namespace NeemataProxy.Routing

open Lib

/-- `None` leaves the path as it is. -/
def stripFirstPathSegment (pathAndQuery segment : Str) : Except Panic (Option Str) :=
  let (path, query) :=
    match Str.splitOnce '?' pathAndQuery with
    | some (p, q) => (p, some q)
    | none => (pathAndQuery, none)
  let prefixLen := Str.len segment + 1
  if path.head? ≠ some '/' || Str.len path < prefixLen then .ok none
  else do
    let afterSlash ← Str.sliceFrom 1 path
    if !segment.isPrefixOf afterSlash then return none
    let remainder ← Str.sliceFrom prefixLen path
    let rewritten :=
      if remainder = [] then some (Str.lit "/")
      else if remainder.head? = some '/' then some remainder
      else none
    return rewritten.map (fun rewrittenPath =>
      match query with
      | none => rewrittenPath
      | some q => rewrittenPath ++ '?' :: q)

/-- `Uri::builder().path_and_query(text).build()` of the `http` crate: a text that some path and query has, that
starts with a slash and has only allowed characters is taken over as it is, with no scheme and no authority. -/
structure UriBuilder where
  allowed : Char → Bool
  build : Str → Except Str Uri
  accepts : ∀ pq : PathAndQuery, pq.asStr.head? = some '/' → pq.asStr.all allowed → Str.len pq.asStr < 65535 →
    ∃ uri, build pq.asStr = .ok uri
  carries : ∀ text uri, build text = .ok uri →
    uri.scheme = none ∧ uri.authority = none ∧ uri.pathAndQuery.map PathAndQuery.asStr = some text

/-- The path and query of a request is one that the `http` crate has accepted. -/
def UriBuilder.Accepted (builder : UriBuilder) (uri : Uri) : Prop :=
  ∀ pq, uri.pathAndQuery = some pq → pq.asStr.all builder.allowed ∧ Str.len pq.asStr < 65535

def upstreamRequestFilter (builder : UriBuilder) (ctx : RouterCtx) (upstreamRequest : RequestHeader) :
    Except Abort RequestHeader :=
  match ctx.pathRewriteSegment, upstreamRequest.uri.pathAndQuery with
  | some seg, some pq =>
      match stripFirstPathSegment pq.asStr seg with
      | .error p => .error (.panic p)
      | .ok none => .ok upstreamRequest
      | .ok (some newPathAndQuery) =>
          match builder.build newPathAndQuery with
          | .error _ => .error (.error (.explain .internalError (Str.lit "failed to rewrite upstream uri")))
          | .ok uri => .ok { upstreamRequest with uri := uri }
  | _, _ => .ok upstreamRequest

/-! ## What is stripped -/

/-- The text after the path: the query with its question mark. -/
def querySuffix (query : Option Str) : Str :=
  match query with
  | some q => '?' :: q
  | none => []

/-- The path without its leading segment, when it has it. -/
def StripsTo (path seg out : Str) : Prop :=
  ∃ post, path = '/' :: seg ++ post ∧ (post = [] ∧ out = ['/'] ∨ post.head? = some '/' ∧ out = post)

theorem splitOnce_query {path : Str} (hpath : '?' ∉ path) (query : Option Str) :
    (match Str.splitOnce '?' (path ++ querySuffix query) with
      | some (p, q) => (p, some q)
      | none => (path ++ querySuffix query, none)) = (path, query) := by
  cases query with
  | none =>
      have h : Str.splitOnce '?' (path ++ querySuffix none) = none :=
        Str.splitOnce_eq_none.mpr (by simpa [querySuffix] using hpath)
      simp only [h]
      simp [querySuffix]
  | some q =>
      have h : Str.splitOnce '?' (path ++ querySuffix (some q)) = some (path, q) :=
        Str.splitOnce_eq_some.mpr ⟨hpath, rfl⟩
      simp only [h]

/-- Exactly the leading segment of the path is removed, and slicing never fails. -/
theorem stripFirstPathSegment_spec {path : Str} (hpath : '?' ∉ path) (query : Option Str) (seg : Str) :
    (∃ out, StripsTo path seg out ∧
        stripFirstPathSegment (path ++ querySuffix query) seg = .ok (some (out ++ querySuffix query))) ∨
      (∀ out, ¬ StripsTo path seg out) ∧ stripFirstPathSegment (path ++ querySuffix query) seg = .ok none := by
  have hslice : ∀ rest : Str, Str.sliceFrom 1 ('/' :: rest) = .ok rest := fun rest =>
    Str.sliceFrom_append ['/'] rest
  have hdef : stripFirstPathSegment (path ++ querySuffix query) seg =
      (if path.head? ≠ some '/' || Str.len path < Str.len seg + 1 then Except.ok none
      else do
        let afterSlash ← Str.sliceFrom 1 path
        if !seg.isPrefixOf afterSlash then return none
        let remainder ← Str.sliceFrom (Str.len seg + 1) path
        let rewritten :=
          if remainder = [] then some (Str.lit "/")
          else if remainder.head? = some '/' then some remainder
          else none
        return rewritten.map (fun rewrittenPath => rewrittenPath ++ querySuffix query)) := by
    unfold stripFirstPathSegment
    rw [splitOnce_query hpath query]
    cases query <;> simp [querySuffix]
  by_cases hseg : ∃ post, path = '/' :: seg ++ post
  · obtain ⟨post, rfl⟩ := hseg
    have hlen : ¬ Str.len ('/' :: seg ++ post) < Str.len seg + 1 := by
      simp [show Char.utf8Size '/' = 1 from rfl]; omega
    have hrem : Str.sliceFrom (Str.len seg + 1) ('/' :: seg ++ post) = .ok post := by
      have h := Str.sliceFrom_append ('/' :: seg) post
      rwa [Str.len_cons, show Char.utf8Size '/' = 1 from rfl, Nat.add_comm] at h
    have hpre : seg.isPrefixOf (seg ++ post) = true := by simp
    rw [hdef, if_neg (by simpa using hlen), List.cons_append, hslice]
    rw [List.cons_append] at hrem
    simp only [Except.bind, bind, hpre, Bool.not_true, Bool.false_eq_true, ↓reduceIte, hrem, pure, Except.pure]
    by_cases hpost : post = []
    · subst hpost
      exact .inl ⟨['/'], ⟨[], by simp, .inl ⟨rfl, rfl⟩⟩, rfl⟩
    · by_cases hhead : post.head? = some '/'
      · exact .inl ⟨post, ⟨post, by simp, .inr ⟨hhead, rfl⟩⟩, by simp [hpost, hhead]⟩
      · refine .inr ⟨?_, by simp [hpost, hhead]⟩
        rintro out ⟨post', h, h'⟩
        simp only [List.cons_append, List.cons.injEq, true_and, List.append_cancel_left_eq] at h
        subst h
        exact h'.elim (fun h => hpost h.1) (fun h => hhead h.1)
  · refine .inr ⟨fun out h => hseg (h.imp fun _ h => h.1), ?_⟩
    rw [hdef]
    split
    · rfl
    · rename_i hcond
      obtain ⟨rest, rfl⟩ : ∃ rest, path = '/' :: rest := by
        cases path with
        | nil => simp at hcond
        | cons d rest => exact ⟨rest, by simp at hcond; simp [hcond.1]⟩
      have hpre : seg.isPrefixOf rest = false := by
        by_contra hp
        obtain ⟨post, rfl⟩ := (by simpa using hp : seg <+: rest)
        exact hseg ⟨post, rfl⟩
      simp [hslice, bind, Except.bind, hpre, pure, Except.pure]

end NeemataProxy.Routing
