import NeemataProxy.Proxy.Ledger

/-!
# Coherence of upstreams, pools and the routing table

The pools of an application are those that its last successful rebuild made of its present upstreams, and the routing
table is the one made from all pools.
-/

namespace NeemataProxy

open Lib Routing Options

/-! ## Definitions -/

/-- What the last successful rebuild of an application met. -/
def lastRebuild (history : List UpdateRecord) (app : Str) : Option RebuildEnv :=
  history.foldl (fun last r => if r.request.appName = app ∧ r.result = .ok () then r.env.toOption else last) none

/-- The pools of an application match its upstreams. -/
structure AppCoherent (options : ProxyOptionsParsed) (app : Str) (current : Set PortUpstream) (last : Option RebuildEnv)
    (poolOf : TransportKind → Option PoolConfig) : Prop where
  pools : ∀ t, (poolOf t).isSome = true ↔ ∃ u ∈ current, u.transport = t
  secure : ∀ t pool, poolOf t = some pool → ∀ u ∈ current, u.transport = t → u.secure = pool.secure
  hostname : ∀ u ∈ current, u.secure = true →
    ∃ a ∈ options.applications, a.name = app ∧ ∃ hostname, verifyHostnameForSecureUpstream a = .ok hostname
  addrs : ∀ t pool, poolOf t = some pool → ∃ env, last = some env ∧
    ∀ a, a ∈ pool.lb.addrs ↔ ∃ u ∈ current, u.transport = t ∧ ∃ l, env.resolve u = .ok l ∧ a ∈ l
  backends : ∀ t pool, poolOf t = some pool → pool.backends = pool.lb.addrs.image SocketAddr.toStr

structure Coherent (options : ProxyOptionsParsed) (last : Str → Option RebuildEnv) (c : Catalog) : Prop where
  applications : ∀ app, (c.upstreams app).isSome = true ↔ ∃ a ∈ options.applications, a.name = app
  app : ∀ app current, c.upstreams app = some current → AppCoherent options app current (last app) fun t => c.pools.get (app, t)
  stray : ∀ app t, c.upstreams app = none → c.pools.get (app, t) = none
  config : c.config = buildRouterConfig options c.pools

/-! ## A new proxy -/

theorem get_foldl_insert_empty (applications : List ApplicationOptionsParsed) (m : UpstreamsByApp) (app : Str) :
    (applications.foldl (fun m a => m.insert a.name .empty) m).get app =
      if ∃ a ∈ applications, a.name = app then some .empty else m.get app := by
  induction applications generalizing m with
  | nil => simp
  | cons a applications ih =>
      rw [List.foldl_cons, ih, HashMap.get_insert]
      by_cases h : app = a.name
      · simp [h]
      · simp [h, Ne.symm h]

theorem Coherent.new (parsed : ProxyOptionsParsed) :
    Coherent parsed (fun _ => none) (World.new parsed).shared.catalog := by
  have hget : ∀ app, (World.new parsed).shared.catalog.upstreams app =
      if ∃ a ∈ parsed.applications, a.name = app then some ∅ else none := by
    intro app
    simp only [Catalog.upstreams, World.new, Shared.new, Shared.catalog, get_foldl_insert_empty]
    split
    · simp [HashSet.contains]
    · rfl
  refine ⟨fun app => ?_, fun app current h => ?_, fun app t _ => rfl, rfl⟩
  · rw [hget]; split <;> simp_all
  · obtain rfl : current = ∅ := by
      rw [hget] at h
      split at h
      · exact (Option.some.inj h).symm
      · simp at h
    have hnone : ∀ t, (World.new parsed).shared.catalog.pools.get (app, t) = none := fun _ => rfl
    constructor <;> simp [hnone]

/-! ## One update -/

theorem appCoherent_of_rebuilt {options : ProxyOptionsParsed} {env : RebuildEnv} {rebuild : Nat}
    {app : ApplicationOptionsParsed} {upstreams : HashSet PortUpstream} {rebuilt : Rebuilt}
    (happ : app ∈ options.applications) (h : RebuiltSpec env rebuild app upstreams rebuilt) :
    AppCoherent options app.name {u | upstreams.contains u = true} (some env) fun t => rebuilt.newPools.get t := by
  have hpool : ∀ u, upstreams.contains u = true → ∃ pool, rebuilt.newPools.get u.transport = some pool := by
    intro u hu
    cases hget : rebuilt.newPools.get u.transport with
    | none => exact absurd rfl (h.missing _ hget u hu)
    | some pool => exact ⟨pool, rfl⟩
  refine ⟨fun t => ⟨fun hsome => ?_, ?_⟩, fun t pool hget u hu ht => (h.built t pool hget).secure u ⟨hu, ht⟩,
    fun u hu hs => ?_, fun t pool hget => ⟨env, rfl, fun a => ?_⟩, fun t pool hget => (h.built t pool hget).backends⟩
  · obtain ⟨pool, hget⟩ := Option.isSome_iff_exists.mp hsome
    obtain ⟨u, hu, ht⟩ := (h.built t pool hget).inhabited
    exact ⟨u, hu, ht⟩
  · rintro ⟨u, hu, rfl⟩
    exact Option.isSome_iff_exists.mpr (hpool u hu)
  · obtain ⟨pool, hget⟩ := hpool u hu
    have hbuilt := h.built u.transport pool hget
    exact ⟨app, happ, rfl, pool.verifyHostname, hbuilt.hostname ((hbuilt.secure u ⟨hu, rfl⟩) ▸ hs)⟩
  · rw [(h.built t pool hget).addrs a]
    exact ⟨fun ⟨u, ⟨hu, ht⟩, hl⟩ => ⟨u, hu, ht, hl⟩, fun ⟨u, hu, ht, hl⟩ => ⟨u, ⟨hu, ht⟩, hl⟩⟩

theorem Coherent.congr {options : ProxyOptionsParsed} {last : Str → Option RebuildEnv} {c c' : Catalog}
    (h : Coherent options last c) (hsame : SameTables c c') : Coherent options last c' := by
  obtain ⟨hupstreams, hpools, hconfig⟩ := hsame
  have hget : ∀ app, c'.upstreams app = c.upstreams app := fun app => by rw [Catalog.upstreams, hupstreams]; rfl
  refine ⟨fun app => ?_, fun app current hc => ?_, fun app t hc => ?_, ?_⟩
  · rw [hget]; exact h.applications app
  · rw [hpools]; exact h.app app current (hget app ▸ hc)
  · rw [hpools]; exact h.stray app t (hget app ▸ hc)
  · rw [hconfig, hpools]; exact h.config

/-- An update that succeeds replaces the upstreams and the pools of its application. -/
theorem Coherent.applyUpdate {options : ProxyOptionsParsed} {last : Str → Option RebuildEnv} {c : Catalog}
    (h : Coherent options last c) {req : UpdateRequest} {env : Except Str RebuildEnv}
    {order : IterOrder (TransportKind × PoolConfig)}
    (hok : (NeemataProxy.applyUpdate options req env order c).2 = .ok ()) :
    Coherent options (Function.update last req.appName env.toOption)
      (NeemataProxy.applyUpdate options req env order c).1 := by
  obtain ⟨next, current, rebuilt, services, env', hprepare, rfl, hrebuilt, hcommit⟩ := applyUpdate_ok hok
  generalize (NeemataProxy.applyUpdate options req (.ok env') order c).1 = c' at hcommit ⊢
  have happ := List.mem_of_find?_eq_some hprepare.app
  have hname : next.appDef.name = req.appName := by simpa using List.find?_some hprepare.app
  have hself : c'.upstreams req.appName = some {u | next.upstreams.contains u = true} := by
    simp [Catalog.upstreams, hcommit.upstreams, HashMap.get_insert]
  have hother : ∀ app, app ≠ req.appName → c'.upstreams app = c.upstreams app := fun app hne => by
    simp [Catalog.upstreams, hcommit.upstreams, HashMap.get_insert, hne]
  refine ⟨fun app => ?_, fun app current' hc => ?_, fun app t hc => ?_, hcommit.config⟩
  · by_cases heq : app = req.appName
    · subst heq
      exact ⟨fun _ => ⟨next.appDef, happ, hname⟩, fun _ => by simp [hself]⟩
    · rw [hother app heq]
      exact h.applications app
  · by_cases heq : app = req.appName
    · subst heq
      obtain rfl := Option.some.inj (hself.symm.trans hc)
      have hcoherent := appCoherent_of_rebuilt happ hrebuilt
      rw [hname] at hcoherent
      simpa [hcommit.pools, Except.toOption] using hcoherent
    · rw [Function.update_of_ne heq]
      simpa [hcommit.pools, heq] using h.app app current' (hother app heq ▸ hc)
  · by_cases heq : app = req.appName
    · subst heq
      simp [hself] at hc
    · rw [hcommit.pools, if_neg heq]
      exact h.stray app t (hother app heq ▸ hc)

/-! ## All updates -/

theorem lastRebuild_append (history : List UpdateRecord) (r : UpdateRecord) :
    lastRebuild (history ++ [r]) =
      if r.result = .ok () then Function.update (lastRebuild history) r.request.appName r.env.toOption
      else lastRebuild history := by
  funext app
  rw [lastRebuild, List.foldl_append]
  simp only [List.foldl_cons, List.foldl_nil]
  by_cases hok : r.result = .ok ()
  · by_cases happ : r.request.appName = app
    · subst happ; simp [hok]
    · simp [hok, happ, Function.update_of_ne (Ne.symm happ), lastRebuild]
  · simp [hok, lastRebuild]

/-- The updates keep the tables coherent when they are run one at a time. -/
theorem Coherent.runUpdates {options : ProxyOptionsParsed} {c : Catalog} (h : Coherent options (fun _ => none) c)
    {history : List UpdateRecord}
    (hresults : (NeemataProxy.runUpdates options c history).2 = history.map UpdateRecord.result) :
    Coherent options (lastRebuild history) (NeemataProxy.runUpdates options c history).1 := by
  refine runUpdates_invariant (P := fun history c => Coherent options (lastRebuild history) c) h (fun history r c h hr => ?_)
    hresults
  rw [lastRebuild_append]
  split
  · rename_i hok
    exact h.applyUpdate (hr.trans hok)
  · rename_i hne
    cases hresult : r.result with
    | ok u => exact absurd hresult hne
    | error err => exact h.congr (applyUpdate_error (hr.trans hresult))

end NeemataProxy
