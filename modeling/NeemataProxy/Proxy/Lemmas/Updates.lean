import NeemataProxy.Proxy.Updates

/-!
# What an update does

A rebuild makes one pool for each transport that has upstreams, a commit replaces the pools of the application by
these, and an update as a whole adds or removes one upstream or leaves everything as it is.
-/

namespace NeemataProxy

open Lib Routing Options

/-! ## Grouping -/

theorem get_foldl_pushUpstream (l : List PortUpstream) (m : HashMap TransportKind (List PortUpstream))
    (t : TransportKind) : ((l.foldl pushUpstream m).get t).getD [] =
      (m.get t).getD [] ++ l.filter (fun u => u.transport = t) := by
  induction l generalizing m with
  | nil => simp
  | cons u l ih =>
      rw [List.foldl_cons, ih, pushUpstream, HashMap.get_insert]
      by_cases h : t = u.transport
      · subst h; simp
      · simp [h, Ne.symm h]

theorem groupByTransport_getD (l : List PortUpstream) (t : TransportKind) :
    ((groupByTransport l).get t).getD [] = l.filter (fun u => u.transport = t) := by
  simp [groupByTransport, get_foldl_pushUpstream]

/-! ## One pool -/

theorem mem_resolveUpstreams {resolve : PortUpstream → Except Str (List SocketAddr)} {list : List PortUpstream}
    {addrs : List SocketAddr} (h : resolveUpstreams resolve list = .ok addrs) (a : SocketAddr) :
    a ∈ addrs ↔ ∃ u ∈ list, ∃ l, resolve u = .ok l ∧ a ∈ l := by
  induction list generalizing addrs with
  | nil =>
      obtain rfl := Except.ok.inj h
      simp
  | cons u us ih =>
      simp only [resolveUpstreams] at h
      split at h
      · simp at h
      · rename_i iter hu
        cases hus : resolveUpstreams resolve us with
        | error e => simp [hus, Except.map] at h
        | ok rest =>
            obtain rfl : iter ++ rest = addrs := by simpa [hus, Except.map] using h
            simp [ih hus, hu]

/-- What a pool has to do with the upstreams it was built from. -/
structure PoolBuilt (env : RebuildEnv) (rebuild : Nat) (app : ApplicationOptionsParsed) (t : TransportKind)
    (upstreams : PortUpstream → Prop) (pool : PoolConfig) : Prop where
  inhabited : ∃ u, upstreams u
  secure : ∀ u, upstreams u → u.secure = pool.secure
  hostname : pool.secure = true → verifyHostnameForSecureUpstream app = .ok pool.verifyHostname
  unverified : pool.secure = false → pool.verifyHostname = []
  id : pool.lb.id = (rebuild, t)
  addrs : ∀ a, a ∈ pool.lb.addrs ↔ ∃ u, upstreams u ∧ ∃ l, env.resolve u = .ok l ∧ a ∈ l
  backends : pool.backends = pool.lb.addrs.image SocketAddr.toStr

/-- The steps of `buildPool`, with the choice of the hostname as one of them. -/
theorem buildPool_eq (env : RebuildEnv) (app : ApplicationOptionsParsed) (interval rebuild : Nat) (t : TransportKind)
    (first : PortUpstream) (list : List PortUpstream) :
    buildPool env app interval rebuild t first list =
      if list.any (fun u => u.secure ≠ first.secure) then
        .error (invalidProxyOptions (Str.lit
          "Mixing secure and insecure upstreams within the same (app, transport) pool is not supported"))
      else
        (if first.secure then verifyHostnameForSecureUpstream app else .ok []).bind fun hostname =>
          (resolveUpstreams env.resolve list).bind fun addrs =>
            if addrs = [] then .error (failedToResolve first (Str.lit "no addresses were returned"))
            else
              match env.buildLb addrs.toFinset with
              | .error e => .error (invalidProxyOptions (Str.lit "Failed to build load balancer: " ++ e))
              | .ok () => .ok ⟨⟨(rebuild, t), addrs.toFinset, if first.secure then .tls hostname else .plain, interval⟩,
                  first.secure, hostname, (addrs.map SocketAddr.toStr).toFinset⟩ := by
  unfold buildPool
  cases first.secure <;> rfl

theorem buildPool_built {env : RebuildEnv} {app : ApplicationOptionsParsed} {interval rebuild : Nat} {t : TransportKind}
    {first : PortUpstream} {list : List PortUpstream} {pool : PoolConfig} (hfirst : first ∈ list)
    (h : buildPool env app interval rebuild t first list = .ok pool) :
    PoolBuilt env rebuild app t (· ∈ list) pool := by
  rw [buildPool_eq] at h
  split at h
  · simp at h
  · rename_i hsecure
    obtain ⟨hostname, hhost, h⟩ := exists_of_bind_eq_ok h
    obtain ⟨addrs, haddrs, h⟩ := exists_of_bind_eq_ok h
    split at h
    · simp at h
    · split at h
      · simp at h
      · obtain rfl := Except.ok.inj h
        refine ⟨⟨first, hfirst⟩, fun u hu => ?_, fun hs => ?_, fun hs => ?_, rfl, fun a => ?_, ?_⟩
        · simp only [List.any_eq_true, not_exists, not_and] at hsecure
          simpa using hsecure u hu
        · rwa [if_pos hs] at hhost
        · rw [if_neg (ne_true_of_eq_false hs)] at hhost
          exact (Except.ok.inj hhost).symm
        · simp [mem_resolveUpstreams haddrs]
        · ext x; simp

/-! ## All pools -/

theorem buildPools_get {env : RebuildEnv} {app : ApplicationOptionsParsed} {interval rebuild : Nat}
    {groups : List (TransportKind × List PortUpstream)} {newPools result : HashMap TransportKind PoolConfig}
    (hnodup : (groups.map Prod.fst).Nodup) (h : buildPools env app interval rebuild groups newPools = .ok result)
    (t : TransportKind) :
    (∃ u us pool, (t, u :: us) ∈ groups ∧ result.get t = some pool ∧
        buildPool env app interval rebuild t u (u :: us) = .ok pool) ∨
      result.get t = newPools.get t ∧ ∀ list, (t, list) ∈ groups → list = [] := by
  induction groups generalizing newPools with
  | nil =>
      obtain rfl := Except.ok.inj h
      exact .inr ⟨rfl, by simp⟩
  | cons g groups ih =>
      obtain ⟨t', list⟩ := g
      rw [List.map_cons, List.nodup_cons] at hnodup
      cases list with
      | nil =>
          rcases ih hnodup.2 h with ⟨u, us, pool, hmem, hrest⟩ | ⟨hget, hempty⟩
          · exact .inl ⟨u, us, pool, List.mem_cons_of_mem _ hmem, hrest⟩
          · refine .inr ⟨hget, fun list hlist => ?_⟩
            rcases List.mem_cons.mp hlist with heq | hmem
            · exact (Prod.mk.inj heq).2
            · exact hempty list hmem
      | cons u us =>
          simp only [buildPools] at h
          split at h
          · simp at h
          · rename_i pool hpool
            rcases ih hnodup.2 h with ⟨u', us', pool', hmem, hrest⟩ | ⟨hget, hempty⟩
            · exact .inl ⟨u', us', pool', List.mem_cons_of_mem _ hmem, hrest⟩
            · rw [HashMap.get_insert] at hget
              by_cases ht : t = t'
              · subst ht
                exact .inl ⟨u, us, pool, List.mem_cons_self, by simpa using hget, hpool⟩
              · refine .inr ⟨by simpa [ht] using hget, fun list hlist => ?_⟩
                rcases List.mem_cons.mp hlist with heq | hmem
                · exact absurd (Prod.mk.inj heq).1 ht
                · exact hempty list hmem

theorem PoolBuilt.congr {env : RebuildEnv} {rebuild : Nat} {app : ApplicationOptionsParsed} {t : TransportKind}
    {P Q : PortUpstream → Prop} {pool : PoolConfig} (h : PoolBuilt env rebuild app t P pool) (hPQ : ∀ u, P u ↔ Q u) :
    PoolBuilt env rebuild app t Q pool := by
  obtain rfl : P = Q := funext fun u => propext (hPQ u)
  exact h

theorem contains_iff_mem_visit (order : IterOrder (PortUpstream × Unit)) (upstreams : HashSet PortUpstream)
    (u : PortUpstream) : u ∈ (order.visit upstreams.entries).map Prod.fst ↔ upstreams.contains u = true := by
  rw [HashSet.contains, Option.isSome_iff_exists, List.mem_map]
  simp only [(order.perm _).mem_iff, HashMap.get_eq_some]
  constructor
  · rintro ⟨e, he, rfl⟩
    exact ⟨(), he⟩
  · rintro ⟨x, hx⟩
    exact ⟨(u, x), hx, rfl⟩

/-- The groups that a rebuild goes through. -/
def rebuildGroups (env : RebuildEnv) (upstreams : HashSet PortUpstream) : List (TransportKind × List PortUpstream) :=
  env.groupOrder.visit (groupByTransport ((env.upstreamOrder.visit upstreams.entries).map Prod.fst)).entries

section Groups

variable {env : RebuildEnv} {upstreams : HashSet PortUpstream} {t : TransportKind} {list : List PortUpstream}

theorem mem_rebuildGroups : (t, list) ∈ rebuildGroups env upstreams ↔
    (groupByTransport ((env.upstreamOrder.visit upstreams.entries).map Prod.fst)).get t = some list := by
  rw [rebuildGroups, (env.groupOrder.perm _).mem_iff, HashMap.get_eq_some]

theorem nodup_rebuildGroups (env : RebuildEnv) (upstreams : HashSet PortUpstream) :
    ((rebuildGroups env upstreams).map Prod.fst).Nodup :=
  (((env.groupOrder.perm _).map _).nodup_iff).mpr (HashMap.nodup _)

theorem mem_of_mem_rebuildGroups (h : (t, list) ∈ rebuildGroups env upstreams) (u : PortUpstream) :
    u ∈ list ↔ upstreams.contains u = true ∧ u.transport = t := by
  have hget := groupByTransport_getD ((env.upstreamOrder.visit upstreams.entries).map Prod.fst) t
  rw [mem_rebuildGroups.mp h, Option.getD_some] at hget
  rw [hget, List.mem_filter, contains_iff_mem_visit, decide_eq_true_eq]

theorem exists_mem_rebuildGroups (env : RebuildEnv) {u : PortUpstream} (hu : upstreams.contains u = true) :
    ∃ list, (u.transport, list) ∈ rebuildGroups env upstreams ∧ u ∈ list := by
  have hget := groupByTransport_getD ((env.upstreamOrder.visit upstreams.entries).map Prod.fst) u.transport
  have hmem := (contains_iff_mem_visit env.upstreamOrder upstreams u).mpr hu
  cases hg : (groupByTransport ((env.upstreamOrder.visit upstreams.entries).map Prod.fst)).get u.transport with
  | none =>
      rw [hg, Option.getD_none, eq_comm, List.filter_eq_nil_iff] at hget
      exact absurd (decide_eq_true rfl) (hget u hmem)
  | some list =>
      have hin := mem_rebuildGroups.mpr hg
      exact ⟨list, hin, (mem_of_mem_rebuildGroups hin u).mpr ⟨hu, rfl⟩⟩

theorem rebuildAppPools_eq (env : RebuildEnv) (rebuild interval : Nat) (app : ApplicationOptionsParsed)
    (upstreams : HashSet PortUpstream) : rebuildAppPools env rebuild app upstreams interval =
      (buildPools env app interval rebuild (rebuildGroups env upstreams) .empty).bind fun newPools =>
        .ok ⟨newPools, [.http1, .http2, .ws].filter (fun t => (newPools.get t).isNone)⟩ := rfl

end Groups

/-- The pools that a rebuild makes are those of the transports that have upstreams. -/
structure RebuiltSpec (env : RebuildEnv) (rebuild : Nat) (app : ApplicationOptionsParsed)
    (upstreams : HashSet PortUpstream) (rebuilt : Rebuilt) : Prop where
  built : ∀ t pool, rebuilt.newPools.get t = some pool →
    PoolBuilt env rebuild app t (fun u => upstreams.contains u = true ∧ u.transport = t) pool
  missing : ∀ t, rebuilt.newPools.get t = none → ∀ u, upstreams.contains u = true → u.transport ≠ t
  removed : ∀ t, t ∈ rebuilt.removed ↔ rebuilt.newPools.get t = none

theorem rebuildAppPools_spec {env : RebuildEnv} {rebuild interval : Nat} {app : ApplicationOptionsParsed}
    {upstreams : HashSet PortUpstream} {rebuilt : Rebuilt}
    (h : rebuildAppPools env rebuild app upstreams interval = .ok rebuilt) :
    RebuiltSpec env rebuild app upstreams rebuilt := by
  rw [rebuildAppPools_eq] at h
  obtain ⟨newPools, hpools, h⟩ := exists_of_bind_eq_ok h
  obtain rfl := Except.ok.inj h
  have hnodup := nodup_rebuildGroups env upstreams
  refine ⟨fun t pool hpool => ?_, fun t hnone u hu ht => ?_, fun t => ?_⟩
  · rcases buildPools_get hnodup hpools t with ⟨u, us, pool', hin, hget, hbuild⟩ | ⟨hget, -⟩
    · obtain rfl := Option.some.inj (hpool.symm.trans hget)
      exact (buildPool_built List.mem_cons_self hbuild).congr (mem_of_mem_rebuildGroups hin)
    · simp [hget] at hpool
  · subst ht
    rcases buildPools_get hnodup hpools u.transport with ⟨u', us, pool', hin, hget, hbuild⟩ | ⟨-, hempty⟩
    · simp [hget] at hnone
    · obtain ⟨list, hin, hmem⟩ := exists_mem_rebuildGroups env hu
      simp [hempty list hin] at hmem
  · cases t <;> simp [List.mem_filter]

/-! ## The commit -/

section Commit

variable {app app' : Str} {t : TransportKind} {pool : PoolConfig}

theorem insertPools_get_of_not_mem {l : List (TransportKind × PoolConfig)} {pools : Pools}
    (h : app' = app → t ∉ l.map Prod.fst) : (insertPools app l pools).1.get (app', t) = pools.get (app', t) := by
  induction l generalizing pools with
  | nil => rfl
  | cons e l ih =>
      simp only [insertPools]
      rw [ih fun ha hmem => h ha (List.mem_cons_of_mem _ hmem), HashMap.get_insert, if_neg]
      rintro heq
      obtain ⟨ha, rfl⟩ := Prod.mk.inj heq
      exact h ha List.mem_cons_self

theorem insertPools_get_of_mem {l : List (TransportKind × PoolConfig)} {pools : Pools} (hnodup : (l.map Prod.fst).Nodup)
    (h : (t, pool) ∈ l) : (insertPools app l pools).1.get (app, t) = some pool := by
  induction l generalizing pools with
  | nil => simp at h
  | cons e l ih =>
      rw [List.map_cons, List.nodup_cons] at hnodup
      simp only [insertPools]
      rcases List.mem_cons.mp h with rfl | h
      · rw [insertPools_get_of_not_mem fun _ => hnodup.1, HashMap.get_insert, if_pos rfl]
      · exact ih hnodup.2 h

theorem mem_insertPools_services {l : List (TransportKind × PoolConfig)} {pools : Pools} {u : ServiceUpdate} :
    u ∈ (insertPools app l pools).2 ↔ ∃ t pool, (t, pool) ∈ l ∧ u = .upsert (lbServiceName app t) pool.lb := by
  induction l generalizing pools with
  | nil => simp [insertPools]
  | cons e l ih =>
      simp only [insertPools, List.mem_cons, ih]
      constructor
      · rintro (rfl | ⟨t, pool, hmem, rfl⟩)
        · exact ⟨e.1, e.2, .inl rfl, rfl⟩
        · exact ⟨t, pool, .inr hmem, rfl⟩
      · rintro ⟨t, pool, rfl | hmem, rfl⟩
        · exact .inl rfl
        · exact .inr ⟨t, pool, hmem, rfl⟩

theorem removePools_get (l : List TransportKind) (pools : Pools) : (removePools app l pools).1.get (app', t) =
    if app' = app ∧ t ∈ l then none else pools.get (app', t) := by
  induction l generalizing pools with
  | nil => simp [removePools]
  | cons t' l ih =>
      simp only [removePools, ih, HashMap.get_remove, Prod.mk.injEq, List.mem_cons]
      grind

theorem mem_removePools_services {l : List TransportKind} {pools : Pools} {u : ServiceUpdate} :
    u ∈ (removePools app l pools).2 ↔ ∃ t ∈ l, (pools.get (app, t)).isSome = true ∧ u = .remove (lbServiceName app t) := by
  induction l generalizing pools with
  | nil => simp [removePools]
  | cons t' l ih =>
      have hrest : u ∈ (removePools app l (pools.remove (app, t'))).2 ↔
          ∃ t ∈ l, t ≠ t' ∧ (pools.get (app, t)).isSome = true ∧ u = .remove (lbServiceName app t) := by
        simp only [ih, HashMap.get_remove, Prod.mk.injEq, true_and]
        refine exists_congr fun t => and_congr_right fun _ => ?_
        by_cases ht : t = t' <;> simp [ht]
      simp only [removePools]
      by_cases hsome : (pools.get (app, t')).isSome = true
      · rw [if_pos hsome, List.mem_cons, hrest]
        constructor
        · rintro (rfl | ⟨t, hmem, -, h⟩)
          · exact ⟨t', List.mem_cons_self, hsome, rfl⟩
          · exact ⟨t, List.mem_cons_of_mem _ hmem, h⟩
        · rintro ⟨t, hmem, hs, rfl⟩
          by_cases ht : t = t'
          · exact .inl (ht ▸ rfl)
          · exact .inr ⟨t, (List.mem_cons.mp hmem).resolve_left ht, ht, hs, rfl⟩
      · rw [if_neg hsome, hrest]
        constructor
        · rintro ⟨t, hmem, -, h⟩
          exact ⟨t, List.mem_cons_of_mem _ hmem, h⟩
        · rintro ⟨t, hmem, hs, rfl⟩
          have ht : t ≠ t' := fun ht => hsome (ht ▸ hs)
          exact ⟨t, (List.mem_cons.mp hmem).resolve_left ht, ht, hs, rfl⟩

end Commit

/-- What a commit leaves: the new upstreams and pools of the application and the table made from them, and the
services that have to change. -/
structure CommitSpec (options : ProxyOptionsParsed) (req : UpdateRequest) (next : Snapshot) (rebuilt : Rebuilt)
    (c c' : Catalog) (services : List ServiceUpdate) : Prop where
  configured : (c.upstreamsByApp.get req.appName).isSome = true
  upstreams : c'.upstreamsByApp = c.upstreamsByApp.insert req.appName next.upstreams
  pools : ∀ app t, c'.pools.get (app, t) = if app = req.appName then rebuilt.newPools.get t else c.pools.get (app, t)
  config : c'.config = buildRouterConfig options c'.pools
  upserts : ∀ n lb, .upsert n lb ∈ services →
    ∃ app t pool, n = lbServiceName app t ∧ c'.pools.get (app, t) = some pool ∧ pool.lb = lb
  removes : ∀ n, .remove n ∈ services → ∃ app t, n = lbServiceName app t ∧ c'.pools.get (app, t) = none
  changed : ∀ app t, c'.pools.get (app, t) ≠ c.pools.get (app, t) →
    (∃ lb, .upsert (lbServiceName app t) lb ∈ services) ∨ .remove (lbServiceName app t) ∈ services

theorem commitUpdate_spec {options : ProxyOptionsParsed} {order : IterOrder (TransportKind × PoolConfig)}
    {req : UpdateRequest} {next : Snapshot} {rebuilt : Rebuilt} {c c' : Catalog} {services : List ServiceUpdate}
    (hremoved : ∀ t, t ∈ rebuilt.removed ↔ rebuilt.newPools.get t = none)
    (h : commitUpdate options order req next rebuilt c = .ok (c', services)) :
    CommitSpec options req next rebuilt c c' services := by
  unfold commitUpdate at h
  split at h
  · simp at h
  · rename_i current hcurrent
    obtain ⟨rfl, rfl⟩ := Prod.mk.inj (Except.ok.inj h)
    have hperm := order.perm rebuilt.newPools.entries
    generalize hl : order.visit rebuilt.newPools.entries = l at hperm
    have hnodup : (l.map Prod.fst).Nodup := (hperm.map _).nodup_iff.mpr rebuilt.newPools.nodup
    have hmem : ∀ t pool, (t, pool) ∈ l ↔ rebuilt.newPools.get t = some pool := fun t pool => by
      rw [hperm.mem_iff, HashMap.get_eq_some]
    have hpools : ∀ app t, (removePools req.appName rebuilt.removed (insertPools req.appName l c.pools).1).1.get (app, t)
        = if app = req.appName then rebuilt.newPools.get t else c.pools.get (app, t) := by
      intro app t
      rw [removePools_get]
      by_cases happ : app = req.appName
      · subst happ
        simp only [true_and, if_true, hremoved]
        cases hget : rebuilt.newPools.get t with
        | none => simp
        | some pool => rw [if_neg (by simp), insertPools_get_of_mem hnodup ((hmem t pool).mpr hget)]
      · rw [if_neg (fun h => happ h.1), if_neg happ, insertPools_get_of_not_mem fun h => absurd h happ]
    refine ⟨by simp [hcurrent], rfl, hpools, rfl, fun n lb hu => ?_, fun n hu => ?_, fun app t hne => ?_⟩
    · rcases List.mem_append.mp hu with hu | hu
      · obtain ⟨t, pool, hin, heq⟩ := mem_insertPools_services.mp hu
        obtain ⟨rfl, rfl⟩ := ServiceUpdate.upsert.inj heq
        exact ⟨req.appName, t, pool, rfl, by rw [hpools, if_pos rfl]; exact (hmem t pool).mp hin, rfl⟩
      · obtain ⟨t, -, -, heq⟩ := mem_removePools_services.mp hu
        cases heq
    · rcases List.mem_append.mp hu with hu | hu
      · obtain ⟨t, pool, -, heq⟩ := mem_insertPools_services.mp hu
        cases heq
      · obtain ⟨t, hin, -, heq⟩ := mem_removePools_services.mp hu
        obtain rfl := ServiceUpdate.remove.inj heq
        exact ⟨req.appName, t, rfl, by rw [hpools, if_pos rfl]; exact (hremoved t).mp hin⟩
    · rw [hpools] at hne
      by_cases happ : app = req.appName
      · subst happ
        rw [if_pos rfl] at hne
        cases hget : rebuilt.newPools.get t with
        | some pool =>
            exact .inl ⟨pool.lb, List.mem_append_left _ (mem_insertPools_services.mpr ⟨t, pool, (hmem t pool).mpr hget, rfl⟩)⟩
        | none =>
            refine .inr (List.mem_append_right _ (mem_removePools_services.mpr ⟨t, (hremoved t).mpr hget, ?_, rfl⟩))
            rw [insertPools_get_of_not_mem fun _ hin => ?_]
            · exact Option.isSome_iff_ne_none.mpr fun hnone => hne (hget.trans hnone.symm)
            · obtain ⟨e, he, rfl⟩ := List.mem_map.mp hin
              simp [(hmem e.1 e.2).mp he] at hget
      · simp [happ] at hne

theorem exists_commitUpdate {options : ProxyOptionsParsed} {order : IterOrder (TransportKind × PoolConfig)} {req : UpdateRequest}
    {next : Snapshot} {rebuilt : Rebuilt} {c : Catalog} {current : HashSet PortUpstream}
    (h : c.upstreamsByApp.get req.appName = some current) : ∃ r, commitUpdate options order req next rebuilt c = .ok r := by
  unfold commitUpdate
  rw [h]
  exact ⟨_, rfl⟩

/-! ## The snapshot -/

/-- An accepted request is about a configured application, and adds an upstream that it does not have or removes one
that it has. -/
structure PrepareSpec (options : ProxyOptionsParsed) (upstreamsByApp : UpstreamsByApp) (req : UpdateRequest)
    (next : Snapshot) (current : HashSet PortUpstream) : Prop where
  app : options.applications.find? (fun a => a.name = req.appName) = some next.appDef
  found : upstreamsByApp.get req.appName = some current
  present : current.contains req.upstream = true ↔ req.kind = .remove
  upstreams : next.upstreams = req.kind.apply current req.upstream
  secure : req.kind = .add → req.upstream.secure = true →
    ∃ hostname, verifyHostnameForSecureUpstream next.appDef = .ok hostname

theorem prepareUpdate_spec {options : ProxyOptionsParsed} {upstreamsByApp : UpstreamsByApp} {req : UpdateRequest}
    {next : Snapshot} (h : prepareUpdate options upstreamsByApp req = .ok next) :
    ∃ current, PrepareSpec options upstreamsByApp req next current := by
  obtain ⟨snapshot, htake, h⟩ := exists_of_bind_eq_ok h
  obtain ⟨⟨⟩, hsecure, h⟩ := exists_of_bind_eq_ok h
  obtain rfl := Except.ok.inj h
  unfold takeSnapshot at htake
  split at htake
  · rename_i appDef current happ hcurrent
    cases hcheck : req.kind.check current req.upstream with
    | error e => simp [hcheck, Except.map] at htake
    | ok u =>
        rw [hcheck] at htake
        obtain rfl := Except.ok.inj htake
        refine ⟨current, happ, hcurrent, ?_, rfl, fun hk hs => ?_⟩
        · cases hk : req.kind <;> by_cases hc : current.contains req.upstream = true <;>
            simp [UpdateKind.check, hk, hc] at hcheck ⊢
        · cases hv : verifyHostnameForSecureUpstream appDef with
          | error e => simp [checkSecure, hk, hs, hv, Except.map] at hsecure
          | ok hostname => exact ⟨hostname, rfl⟩
  · simp at htake

theorem contains_apply (kind : UpdateKind) (current : HashSet PortUpstream) (u u' : PortUpstream) :
    (kind.apply current u).contains u' = true ↔
      match kind with
      | .add => u' = u ∨ current.contains u' = true
      | .remove => u' ≠ u ∧ current.contains u' = true := by
  cases kind with
  | add => by_cases h : u' = u <;> simp [UpdateKind.apply, HashSet.contains, HashMap.get_insert, h]
  | remove => by_cases h : u' = u <;> simp [UpdateKind.apply, HashSet.contains, HashMap.get_remove, h]

/-! ## A whole update -/

/-- The upstreams of an application, as a set. -/
def Catalog.upstreams (c : Catalog) (app : Str) : Option (Set PortUpstream) :=
  (c.upstreamsByApp.get app).map (fun s => {u | s.contains u = true})

/-- The set with the upstream added or removed. -/
def UpdateKind.change (kind : UpdateKind) (current : Set PortUpstream) (u : PortUpstream) : Set PortUpstream :=
  match kind with
  | .add => insert u current
  | .remove => current \ {u}

/-- The upstreams, the pools and the table are the same. -/
structure SameTables (c c' : Catalog) : Prop where
  upstreams : c'.upstreamsByApp = c.upstreamsByApp
  pools : c'.pools = c.pools
  config : c'.config = c.config

theorem SameTables.refl (c : Catalog) : SameTables c c := ⟨rfl, rfl, rfl⟩

theorem SameTables.symm {c c' : Catalog} (h : SameTables c c') : SameTables c' c := ⟨h.1.symm, h.2.symm, h.3.symm⟩

/-- What an update with this result does: it adds an upstream that was absent or removes one that was present, and
nothing else, or it has no effect. -/
def Effect (options : ProxyOptionsParsed) (req : UpdateRequest) (result : Except JsError Unit) (c c' : Catalog) : Prop :=
  match result with
  | .ok () => (∃ app ∈ options.applications, app.name = req.appName) ∧ ∃ current, c.upstreams req.appName = some current ∧
      (req.upstream ∈ current ↔ req.kind = .remove) ∧ ∀ app, c'.upstreams app =
        if app = req.appName then some (req.kind.change current req.upstream) else c.upstreams app
  | .error _ => SameTables c c'

theorem rebuildUpdate_spec {req : UpdateRequest} {next : Snapshot} {rebuild : Nat} {env : Except Str RebuildEnv}
    {rebuilt : Rebuilt} (h : rebuildUpdate req next rebuild env = .ok rebuilt) :
    ∃ env', env = .ok env' ∧ RebuiltSpec env' rebuild next.appDef next.upstreams rebuilt := by
  unfold rebuildUpdate at h
  split at h
  · simp at h
  · exact ⟨_, rfl, rebuildAppPools_spec h⟩

/-- The steps of an update that succeeds. -/
theorem applyUpdate_ok {options : ProxyOptionsParsed} {req : UpdateRequest} {env : Except Str RebuildEnv}
    {order : IterOrder (TransportKind × PoolConfig)} {c : Catalog}
    (h : (applyUpdate options req env order c).2 = .ok ()) :
    ∃ next current rebuilt services env', PrepareSpec options c.upstreamsByApp req next current ∧ env = .ok env' ∧
      RebuiltSpec env' c.rebuilds next.appDef next.upstreams rebuilt ∧
      CommitSpec options req next rebuilt c (applyUpdate options req env order c).1 services := by
  unfold applyUpdate at h ⊢
  split at h
  · simp at h
  · rename_i next hnext
    obtain ⟨current, hprepare⟩ := prepareUpdate_spec hnext
    simp only at h ⊢
    split at h
    · simp at h
    · rename_i rebuilt hrebuilt
      obtain ⟨env', henv, hspec⟩ := rebuildUpdate_spec hrebuilt
      split at h
      · simp at h
      · rename_i r hcommit
        obtain ⟨c', services⟩ := r
        obtain ⟨h₁, h₂, h₃, h₄, h₅, h₆, h₇⟩ := commitUpdate_spec hspec.removed hcommit
        exact ⟨next, current, rebuilt, services, env', hprepare, henv, hspec, h₁, h₂, h₃, h₄, h₅, h₆, h₇⟩

theorem applyUpdate_error {options : ProxyOptionsParsed} {req : UpdateRequest} {env : Except Str RebuildEnv}
    {order : IterOrder (TransportKind × PoolConfig)} {c : Catalog} {err : JsError}
    (h : (applyUpdate options req env order c).2 = .error err) :
    SameTables c (applyUpdate options req env order c).1 := by
  unfold applyUpdate at h ⊢
  split
  · exact .refl c
  · simp only
    split
    · exact ⟨rfl, rfl, rfl⟩
    · split
      · exact ⟨rfl, rfl, rfl⟩
      · simp_all

theorem applyUpdate_effect (options : ProxyOptionsParsed) (req : UpdateRequest) (env : Except Str RebuildEnv)
    (order : IterOrder (TransportKind × PoolConfig)) (c : Catalog) :
    Effect options req (applyUpdate options req env order c).2 c (applyUpdate options req env order c).1 := by
  cases hresult : (applyUpdate options req env order c).2 with
  | error err => exact applyUpdate_error hresult
  | ok u =>
      obtain ⟨next, current, rebuilt, services, env', hprepare, -, -, hcommit⟩ := applyUpdate_ok hresult
      have happ : next.appDef.name = req.appName := by simpa using List.find?_some hprepare.app
      refine ⟨⟨_, List.mem_of_find?_eq_some hprepare.app, happ⟩, {u | current.contains u = true}, ?_, hprepare.present,
        fun app => ?_⟩
      · simp [Catalog.upstreams, hprepare.found]
      · simp only [Catalog.upstreams, hcommit.upstreams, HashMap.get_insert]
        by_cases h : app = req.appName
        · rw [if_pos h, if_pos h, Option.map_some, hprepare.upstreams]
          congr 1
          ext u
          rw [Set.mem_ofPred_eq, contains_apply]
          cases req.kind <;> simp [UpdateKind.change, and_comm]
        · rw [if_neg h, if_neg h]

theorem SameTables.eq {c c' : Catalog} (h : SameTables c c') (hrebuilds : c'.rebuilds = c.rebuilds) : c' = c := by
  cases c; cases c'
  obtain ⟨rfl, rfl, rfl⟩ := h
  exact congrArg _ hrebuilds

theorem applyUpdate_of_rebuilt {options : ProxyOptionsParsed} {req : UpdateRequest} {next : Snapshot} {rebuilt : Rebuilt}
    {env : Except Str RebuildEnv} {c c' : Catalog} (order : IterOrder (TransportKind × PoolConfig))
    (hsame : SameTables c c') (hcount : c'.rebuilds = c.rebuilds + 1)
    (hprepare : prepareUpdate options c'.upstreamsByApp req = .ok next)
    (hrebuild : rebuildUpdate req next c.rebuilds env = .ok rebuilt) :
    applyUpdate options req env order c =
      match commitUpdate options order req next rebuilt c' with
      | .error e => (c', .error e)
      | .ok r => (r.1, .ok ()) := by
  obtain rfl : c' = { c with rebuilds := c.rebuilds + 1 } :=
    SameTables.eq (c := { c with rebuilds := c.rebuilds + 1 }) ⟨hsame.1, hsame.2, hsame.3⟩ hcount
  have hprepare' : prepareUpdate options c.upstreamsByApp req = .ok next := hprepare
  cases hcommit : commitUpdate options order req next rebuilt { c with rebuilds := c.rebuilds + 1 } with
  | error e => simp only [applyUpdate, hprepare', hrebuild, hcommit]
  | ok r => simp only [applyUpdate, hprepare', hrebuild, hcommit]

end NeemataProxy
