import NeemataProxy.Proxy.Lemmas.Updates

/-!
# When a rebuild succeeds
-/

namespace NeemataProxy

open Lib Routing Options

/-- The upstreams agree on being secure, and when they are, the application has a hostname to verify. -/
structure Uniform (app : ApplicationOptionsParsed) (upstreams : PortUpstream → Prop) : Prop where
  secure : ∀ u v, upstreams u → upstreams v → u.secure = v.secure
  hostname : ∀ u, upstreams u → u.secure = true → ∃ hostname, verifyHostnameForSecureUpstream app = .ok hostname

/-- Each of the upstreams resolves, they have an address between them, and Pingora makes a balancer of their addresses. -/
structure Resolves (env : RebuildEnv) (upstreams : PortUpstream → Prop) : Prop where
  each : ∀ u, upstreams u → ∃ l, env.resolve u = .ok l
  balanced : ∃ addrs : Finset SocketAddr, addrs.Nonempty ∧
    (∀ a, a ∈ addrs ↔ ∃ u, upstreams u ∧ ∃ l, env.resolve u = .ok l ∧ a ∈ l) ∧ env.buildLb addrs = .ok ()

theorem Uniform.congr {app : ApplicationOptionsParsed} {P Q : PortUpstream → Prop} (h : Uniform app P)
    (hPQ : ∀ u, P u ↔ Q u) : Uniform app Q := by
  obtain rfl : P = Q := funext fun u => propext (hPQ u)
  exact h

theorem Resolves.congr {env : RebuildEnv} {P Q : PortUpstream → Prop} (h : Resolves env P) (hPQ : ∀ u, P u ↔ Q u) :
    Resolves env Q := by
  obtain rfl : P = Q := funext fun u => propext (hPQ u)
  exact h

/-! ## One pool -/

theorem resolveUpstreams_isOk_iff {resolve : PortUpstream → Except Str (List SocketAddr)} {list : List PortUpstream} :
    (∃ addrs, resolveUpstreams resolve list = .ok addrs) ↔ ∀ u ∈ list, ∃ l, resolve u = .ok l := by
  induction list with
  | nil => simp [resolveUpstreams]
  | cons u us ih =>
      rw [List.forall_mem_cons, ← ih]
      simp only [resolveUpstreams]
      cases resolve u with
      | error e => simp
      | ok iter => cases resolveUpstreams resolve us <;> simp [Except.map]

theorem buildPool_isOk_iff {env : RebuildEnv} {app : ApplicationOptionsParsed} {interval rebuild : Nat} {t : TransportKind}
    {first : PortUpstream} {list : List PortUpstream} (hfirst : first ∈ list) :
    (∃ pool, buildPool env app interval rebuild t first list = .ok pool) ↔
      Uniform app (· ∈ list) ∧ Resolves env (· ∈ list) := by
  rw [buildPool_eq]
  constructor
  · rintro ⟨pool, h⟩
    split at h
    · cases h
    · rename_i hsecure
      have hsecure : ∀ u ∈ list, u.secure = first.secure := by simpa using hsecure
      obtain ⟨hostname, hhost, h⟩ := exists_of_bind_eq_ok h
      obtain ⟨addrs, haddrs, h⟩ := exists_of_bind_eq_ok h
      split at h
      · cases h
      · rename_i hne
        split at h
        · cases h
        · rename_i hlb
          refine ⟨⟨fun u v hu hv => (hsecure u hu).trans (hsecure v hv).symm, fun u hu hs => ⟨hostname, ?_⟩⟩,
            resolveUpstreams_isOk_iff.mp ⟨addrs, haddrs⟩, addrs.toFinset, ?_, fun a => ?_, hlb⟩
          · rwa [if_pos ((hsecure u hu).symm.trans hs)] at hhost
          · exact List.toFinset_nonempty_iff addrs |>.mpr hne
          · rw [List.mem_toFinset, mem_resolveUpstreams haddrs]
  · rintro ⟨huniform, heach, finset, hnonempty, hmem, hlb⟩
    have hsecure : ¬ (list.any fun u => u.secure ≠ first.secure) = true := by
      simpa using fun u hu => huniform.secure u first hu hfirst
    rw [if_neg hsecure]
    obtain ⟨addrs, haddrs⟩ := resolveUpstreams_isOk_iff.mpr heach
    obtain rfl : finset = addrs.toFinset := by
      ext a
      rw [hmem, List.mem_toFinset, mem_resolveUpstreams haddrs]
    have hne : addrs ≠ [] := (List.toFinset_nonempty_iff addrs).mp hnonempty
    obtain ⟨hostname, hhost⟩ : ∃ hostname,
        (if first.secure then verifyHostnameForSecureUpstream app else .ok []) = .ok hostname := by
      by_cases hs : first.secure = true
      · rw [if_pos hs]
        exact huniform.hostname first hfirst hs
      · rw [if_neg hs]
        exact ⟨[], rfl⟩
    rw [hhost, haddrs]
    simp only [Except.bind, if_neg hne, hlb]
    exact ⟨_, rfl⟩

/-! ## All pools -/

theorem buildPools_isOk_iff {env : RebuildEnv} {app : ApplicationOptionsParsed} {interval rebuild : Nat}
    {groups : List (TransportKind × List PortUpstream)} {newPools : HashMap TransportKind PoolConfig} :
    (∃ result, buildPools env app interval rebuild groups newPools = .ok result) ↔
      ∀ t u us, (t, u :: us) ∈ groups → ∃ pool, buildPool env app interval rebuild t u (u :: us) = .ok pool := by
  induction groups generalizing newPools with
  | nil => simp [buildPools]
  | cons g groups ih =>
      obtain ⟨t, list⟩ := g
      cases list with
      | nil => simpa [buildPools] using ih
      | cons u us =>
          simp only [buildPools]
          cases hpool : buildPool env app interval rebuild t u (u :: us) with
          | error e =>
              constructor
              · rintro ⟨result, h⟩
                cases h
              · intro h
                obtain ⟨pool, hok⟩ := h t u us List.mem_cons_self
                cases hpool.symm.trans hok
          | ok pool =>
              rw [ih]
              refine ⟨fun h t' u' us' hmem => ?_, fun h t' u' us' hmem => h t' u' us' (List.mem_cons_of_mem _ hmem)⟩
              rcases List.mem_cons.mp hmem with heq | hmem
              · cases heq
                exact ⟨pool, hpool⟩
              · exact h t' u' us' hmem

/-- A rebuild succeeds exactly when each transport that has upstreams gets its pool. -/
theorem rebuildAppPools_isOk_iff {env : RebuildEnv} {rebuild interval : Nat} {app : ApplicationOptionsParsed}
    {upstreams : HashSet PortUpstream} :
    (∃ rebuilt, rebuildAppPools env rebuild app upstreams interval = .ok rebuilt) ↔
      ∀ v, upstreams.contains v = true →
        Uniform app (fun u => upstreams.contains u = true ∧ u.transport = v.transport) ∧
        Resolves env fun u => upstreams.contains u = true ∧ u.transport = v.transport := by
  rw [rebuildAppPools_eq]
  constructor
  · rintro ⟨rebuilt, h⟩ v hv
    obtain ⟨newPools, hpools, -⟩ := exists_of_bind_eq_ok h
    obtain ⟨list, hin, hmem⟩ := exists_mem_rebuildGroups env hv
    have hgroup := mem_of_mem_rebuildGroups hin
    cases list with
    | nil => cases hmem
    | cons u us =>
        obtain ⟨huniform, hresolves⟩ :=
          (buildPool_isOk_iff List.mem_cons_self).mp (buildPools_isOk_iff.mp ⟨newPools, hpools⟩ _ u us hin)
        exact ⟨huniform.congr hgroup, hresolves.congr hgroup⟩
  · intro h
    obtain ⟨newPools, hpools⟩ : ∃ newPools,
        buildPools env app interval rebuild (rebuildGroups env upstreams) .empty = .ok newPools := by
      refine buildPools_isOk_iff.mpr fun t u us hin => ?_
      have hgroup := mem_of_mem_rebuildGroups hin
      obtain ⟨hu, rfl⟩ := (hgroup u).mp List.mem_cons_self
      obtain ⟨huniform, hresolves⟩ := h u hu
      exact (buildPool_isOk_iff List.mem_cons_self).mpr
        ⟨huniform.congr fun v => (hgroup v).symm, hresolves.congr fun v => (hgroup v).symm⟩
    rw [hpools]
    exact ⟨_, rfl⟩

/-! ## A whole update -/

theorem applyUpdate_isOk_iff {options : ProxyOptionsParsed} {env : Except Str RebuildEnv}
    {order : IterOrder (TransportKind × PoolConfig)} {c : Catalog} {req : UpdateRequest} {next : Snapshot}
    (hprepare : prepareUpdate options c.upstreamsByApp req = .ok next) :
    (applyUpdate options req env order c).2 = .ok () ↔ ∃ env', env = .ok env' ∧
      ∃ rebuilt, rebuildAppPools env' c.rebuilds next.appDef next.upstreams next.healthCheckIntervalMs = .ok rebuilt := by
  obtain ⟨set, hspec⟩ := prepareUpdate_spec hprepare
  simp only [applyUpdate, hprepare, rebuildUpdate]
  cases env with
  | error e => simp
  | ok env' =>
      cases hrebuild : rebuildAppPools env' c.rebuilds next.appDef next.upstreams next.healthCheckIntervalMs with
      | error e => simp [hrebuild]
      | ok rebuilt => simp [hrebuild, commitUpdate, hspec.found]

end NeemataProxy
