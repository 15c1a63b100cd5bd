import NeemataProxy.Proxy.Hostnames
import NeemataProxy.Proxy.Naming

/-!
# What health tasks check

A health task runs the balancer of a pool, also after the pool has been replaced, and also when a call that should have ended it
has not. It checks addresses of the upstreams that the application had, in the way in which requests connect to them.
-/

namespace NeemataProxy

open Lib Routing Options

/-- The balancer checks the upstreams of one transport of an application, resolved by `env`. -/
structure HealthChecks (options : ProxyOptionsParsed) (app : Str) (current : Set PortUpstream) (env : RebuildEnv)
    (t : TransportKind) (lb : LoadBalancer) : Prop where
  inhabited : ∃ u ∈ current, u.transport = t
  addrs : ∀ a, a ∈ lb.addrs ↔ ∃ u ∈ current, u.transport = t ∧ ∃ l, env.resolve u = .ok l ∧ a ∈ l
  secure : ∀ u ∈ current, u.transport = t → u.secure = true → ∃ a ∈ options.applications, a.name = app ∧
    ∃ hostname, verifyHostnameForSecureUpstream a = .ok hostname ∧ lb.healthCheck = .tls hostname
  plain : ∀ u ∈ current, u.transport = t → u.secure = false → lb.healthCheck = .plain
  interval : lb.healthCheckFrequencyMs = options.healthCheckIntervalMs

variable {w₀ w w' : World} {l : Label} {c : CallId} {choice : Choice} {s s' : Shared} {pc pc' : Pc} {n : Str} {h : ServiceHandle}
  {lb : LoadBalancer}

/-! ## Pools -/

/-- The balancer of a pool checks as the pool connects. -/
structure PoolChecks (interval : Nat) (pool : PoolConfig) : Prop where
  check : pool.lb.healthCheck = if pool.secure then .tls pool.verifyHostname else .plain
  interval : pool.lb.healthCheckFrequencyMs = interval

theorem buildPool_checks {env : RebuildEnv} {app : ApplicationOptionsParsed} {interval rebuild : Nat} {t : TransportKind}
    {first : PortUpstream} {list : List PortUpstream} {pool : PoolConfig}
    (h : buildPool env app interval rebuild t first list = .ok pool) : PoolChecks interval pool := by
  rw [buildPool_eq] at h
  split at h
  · cases h
  · obtain ⟨hostname, -, h⟩ := exists_of_bind_eq_ok h
    obtain ⟨addrs, -, h⟩ := exists_of_bind_eq_ok h
    split at h
    · cases h
    · split at h
      · cases h
      · obtain rfl := Except.ok.inj h
        exact ⟨rfl, rfl⟩

theorem rebuildAppPools_checks {env : RebuildEnv} {rebuild interval : Nat} {app : ApplicationOptionsParsed}
    {upstreams : HashSet PortUpstream} {rebuilt : Rebuilt}
    (h : rebuildAppPools env rebuild app upstreams interval = .ok rebuilt) {t : TransportKind} {pool : PoolConfig}
    (hpool : rebuilt.newPools.get t = some pool) : PoolChecks interval pool := by
  rw [rebuildAppPools_eq] at h
  obtain ⟨newPools, hpools, h⟩ := exists_of_bind_eq_ok h
  obtain rfl := Except.ok.inj h
  rcases buildPools_get (nodup_rebuildGroups env upstreams) hpools t with ⟨u, us, pool', -, hget, hbuild⟩ | ⟨hget, -⟩
  · obtain rfl := Option.some.inj (hpool.symm.trans hget)
    exact buildPool_checks hbuild
  · rw [hpool] at hget
    cases hget

theorem interval_of_prepareUpdate {options : ProxyOptionsParsed} {upstreamsByApp : UpstreamsByApp} {req : UpdateRequest}
    {next : Snapshot} (h : prepareUpdate options upstreamsByApp req = .ok next) :
    next.healthCheckIntervalMs = options.healthCheckIntervalMs := by
  obtain ⟨snapshot, htake, h⟩ := exists_of_bind_eq_ok h
  obtain ⟨-, -, h⟩ := exists_of_bind_eq_ok h
  obtain rfl := Except.ok.inj h
  unfold takeSnapshot at htake
  split at htake
  · rename_i appDef current _ _
    cases hcheck : req.kind.check current req.upstream with
    | error err =>
        rw [hcheck] at htake
        cases htake
    | ok u =>
        rw [hcheck] at htake
        obtain rfl := Except.ok.inj htake
        rfl
  · cases htake

theorem applyUpdate_checks {options : ProxyOptionsParsed} {req : UpdateRequest} {env : Except Str RebuildEnv}
    {order : IterOrder (TransportKind × PoolConfig)} {c : Catalog}
    (h : ∀ k pool, c.pools.get k = some pool → PoolChecks options.healthCheckIntervalMs pool) :
    ∀ k pool, (applyUpdate options req env order c).1.pools.get k = some pool →
      PoolChecks options.healthCheckIntervalMs pool := by
  unfold applyUpdate
  split
  · exact h
  · rename_i next hprepare
    simp only
    split
    · exact h
    · rename_i rebuilt hrebuilt
      split
      · exact h
      · rename_i r hcommit
        obtain ⟨c', services⟩ := r
        obtain ⟨env', henv, hspec⟩ := rebuildUpdate_spec hrebuilt
        rintro ⟨app, t⟩ pool hpool
        rw [(commitUpdate_spec hspec.removed hcommit).pools] at hpool
        split at hpool
        · subst henv
          have hchecks := rebuildAppPools_checks hrebuilt hpool
          rwa [interval_of_prepareUpdate hprepare] at hchecks
        · exact h _ pool hpool

/-! ## What calls spawn -/

/-- The call has still to spawn a health task for the balancer, to be registered under this name. -/
def Pc.Spawns (n : Str) (lb : LoadBalancer) : Pc → Prop
  | .startSetup _ lbTasks | .startRegister _ _ lbTasks _ => (n, lb) ∈ lbTasks
  | .updateServices _ todo _ => .upsert n lb ∈ todo
  | _ => False

theorem spawns_withHands {hands : Hands} : (pc.withHands hands).Spawns n lb ↔ pc.Spawns n lb := by
  cases pc <;> exact Iff.rfl

theorem wants_of_lbTasks {order : IterOrder ((Str × TransportKind) × PoolConfig)} (hmem : (n, lb) ∈ s.lbTasks order) :
    s.inner.pools.Wants n lb := by
  obtain ⟨e, he, heq⟩ := List.mem_map.mp hmem
  obtain ⟨rfl, rfl⟩ := Prod.mk.inj heq
  exact ⟨e.1.1, e.1.2, e.2, rfl, HashMap.get_eq_some.mpr ((order.perm _).mem_iff.mp he), rfl⟩

/-- What a call comes to spawn is wanted when it does. -/
theorem spawns_act {c₀ : Catalog} (hact : Act s c choice pc s' pc') (hknows : s.ledger.Knows c₀ c pc.stage)
    (h : pc'.Spawns n lb) : pc.Spawns n lb ∨ s'.inner.pools.Wants n lb := by
  cases hact with
  | startBegun => exact .inr (wants_of_lbTasks h)
  | setupDone => exact .inl h
  | inserted | signalled | awaited => exact .inl (spawns_withHands.mp h)
  | healthSpawned | updateSpawned | updateRemoved => exact .inl (List.mem_cons_of_mem _ h)
  | @committed req next env result catalog services hcommit =>
      obtain ⟨env', -, hrebuilt⟩ := rebuildUpdate_spec hknows.2.2.2.2
      have hmem : ServiceUpdate.upsert n lb ∈ if s.inner.state = .running then services else [] := h
      split at hmem
      · exact .inr ((commitUpdate_spec hrebuilt.removed hcommit).upserts n lb hmem)
      · cases hmem
  | _ => exact h.elim

/-- A health task that is there after a step was there before, or the call has just spawned it. -/
theorem serviceOf_act (hact : Act s c choice pc s' pc') (hservice : s'.server.serviceOf h = some (.health lb)) :
    s.server.serviceOf h = some (.health lb) ∨
      (h = s.server.nextHandle ∧ ∃ n, pc.Spawns n lb ∧ pc'.hands.spawned = some (n, h)) := by
  cases hact with
  | healthSpawned attempt addr name lb' lbTasks | updateSpawned req name lb' todo =>
      have hspawn := s.server.serviceOf_spawn (.health lb') h
      split at hspawn
      · rename_i hnew
        obtain rfl : lb' = lb := by simpa using hspawn.symm.trans hservice
        exact .inr ⟨hnew, name, List.mem_cons_self, by rw [hnew]; rfl⟩
      · exact .inl (hspawn.symm.trans hservice)
  | listenerSpawned attempt addr =>
      have hspawn := s.server.serviceOf_spawn (.listener attempt addr) h
      split at hspawn
      · cases hspawn.symm.trans hservice
      · exact .inl (hspawn.symm.trans hservice)
  | signalled => exact .inl ((s.server.serviceOf_signal _ h).symm.trans hservice)
  | stopBegunWaiting | stopBegun =>
      rw [server_beginStop] at hservice
      exact .inl hservice
  | stopEnded =>
      rw [server_endStop] at hservice
      exact .inl hservice
  | setupFailed =>
      rw [Shared.failStart, server_notifyStart] at hservice
      exact .inl hservice
  | finalised | cancelled =>
      rw [server_notifyStart] at hservice
      exact .inl hservice
  | _ => exact .inl hservice

/-! ## What tasks run -/

/-- The pool that the name is of had this balancer in a state between the two. -/
def Wanted (w₀ w : World) (n : Str) (lb : LoadBalancer) : Prop :=
  ∃ w₁, Reach Steps Free w₀ w₁ ∧ Reach Steps Free w₁ w ∧ w₁.shared.inner.pools.Wants n lb

theorem Wanted.step (h : Wanted w₀ w n lb) (hstep : Steps w l w') : Wanted w₀ w' n lb := by
  obtain ⟨w₁, hbefore, hafter, hwants⟩ := h
  exact ⟨w₁, hbefore, hafter.tail trivial hstep, hwants⟩

/-- A health task is registered under one name at most, and the pool of this name had its balancer. -/
structure Serves (w₀ w : World) (h : ServiceHandle) (n : Str) (lb : LoadBalancer) : Prop where
  wanted : Wanted w₀ w n lb
  registered : ∀ m, w.shared.server.services.get m = some h → m = n
  spawned : ∀ c m, (w.calls c).hands.spawned = some (m, h) → m = n

/-- All health tasks, and all that calls have still to spawn, are of pools that there were. -/
structure Ordered (w₀ w : World) : Prop where
  tasks : ∀ h lb, w.shared.server.serviceOf h = some (.health lb) → ∃ n, Serves w₀ w h n lb
  calls : ∀ c n lb, (w.calls c).Spawns n lb → Wanted w₀ w n lb

theorem Serves.step (hserves : Serves w₀ w h n lb) (hknown : w.shared.server.serviceOf h = some (.health lb))
    (hstep : Steps w l w') : Serves w₀ w' h n lb := by
  refine ⟨hserves.wanted.step hstep, ?_, ?_⟩
  all_goals rcases step_cases hstep with ⟨c, choice, s', pc', -, hact, rfl⟩ | ⟨t, -, -, rfl⟩
  · intro m hget
    exact ((act_handStep hact).services hget).elim (hserves.registered m) (hserves.spawned c m)
  · exact hserves.registered
  · refine forall_update (P := fun pc => ∀ m, pc.hands.spawned = some (m, h) → m = n) (fun m hspawned => ?_)
      fun c' _ => hserves.spawned c'
    exact ((act_handStep hact).spawned_of hspawned).elim (hserves.spawned c m)
      fun hnew => absurd hnew (Server.ne_nextHandle hknown)
  · exact hserves.spawned

/-- A new task is nowhere yet but in the hands of its call. -/
theorem serves_of_spawned (howned : Owned w.shared.server w.hands) (hact : Act w.shared c choice (w.calls c) s' pc')
    (hwanted : Wanted w₀ ⟨s', Function.update w.calls c pc'⟩ n lb) (hspawned : pc'.hands.spawned = some (n, h))
    (hnew : h = w.shared.server.nextHandle) : Serves w₀ ⟨s', Function.update w.calls c pc'⟩ h n lb := by
  have hunknown : w.shared.server.statusOf h = none := by rw [hnew, Server.statusOf_nextHandle]
  have hfree : ∀ c' m, (w.calls c').hands.spawned ≠ some (m, h) := fun c' m hm =>
    (howned.inHands (c := c') (Hands.mem_handles_of_spawned hm)).1 hunknown
  refine ⟨hwanted, fun m hget => ?_, ?_⟩
  · rcases (act_handStep hact).services hget with hold | hold
    · have hrunning := howned.registered hold
      rw [hunknown] at hrunning
      cases hrunning
    · exact absurd hold (hfree c m)
  · refine forall_update (P := fun pc => ∀ m, pc.hands.spawned = some (m, h) → m = n) (fun m hm => ?_)
      fun c' _ m hm => absurd hm (hfree c' m)
    exact (Prod.mk.inj (Option.some.inj (hm.symm.trans hspawned))).1

theorem Ordered.step {c₀ : Catalog} (h : Ordered w₀ w) (hrun : Reach Steps Free w₀ w) (hled : Ledgered c₀ w)
    (howned : Owned w.shared.server w.hands) (hstep : Steps w l w') : Ordered w₀ w' := by
  have hrun' : Reach Steps Free w₀ w' := hrun.tail trivial hstep
  rcases step_cases hstep with ⟨c, choice, s', pc', -, hact, heq⟩ | ⟨t, -, -, heq⟩
  · refine ⟨fun t lb ht => ?_, ?_⟩
    · have hservice : s'.server.serviceOf t = some (.health lb) := by rw [heq] at ht; exact ht
      rcases serviceOf_act hact hservice with hold | ⟨hnew, n, hspawns, hspawned⟩
      · obtain ⟨n, hserves⟩ := h.tasks t lb hold
        exact ⟨n, hserves.step hold hstep⟩
      · have hwanted := (h.calls c n lb hspawns).step hstep
        rw [heq] at hwanted ⊢
        exact ⟨n, serves_of_spawned howned hact hwanted hspawned hnew⟩
    · intro c' n lb hspawns
      by_cases hc : c' = c
      · subst hc
        have hspawns' : pc'.Spawns n lb := by simpa [heq] using hspawns
        rcases spawns_act hact (hled.knows c') hspawns' with hold | hwants
        · exact (h.calls c' n lb hold).step hstep
        · exact ⟨w', hrun', .refl, by rw [heq]; exact hwants⟩
      · have hold : (w.calls c').Spawns n lb := by simpa [heq, hc] using hspawns
        exact (h.calls c' n lb hold).step hstep
  · refine ⟨fun h' lb ht => ?_, fun c' n lb hspawns => ?_⟩
    · have hold : w.shared.server.serviceOf h' = some (.health lb) := by
        rw [heq] at ht
        exact (w.shared.server.serviceOf_setStatus t h' .terminated).symm.trans ht
      obtain ⟨n, hserves⟩ := h.tasks h' lb hold
      exact ⟨n, hserves.step hold hstep⟩
    · have hold : (w.calls c').Spawns n lb := by rw [heq] at hspawns; exact hspawns
      exact (h.calls c' n lb hold).step hstep

/-! ## Runs -/

theorem Ordered.new (parsed : ProxyOptionsParsed) : Ordered (.new parsed) (.new parsed) :=
  ⟨fun _ _ hservice => (by cases hservice), fun _ _ _ hspawns => False.elim hspawns⟩

theorem ordered_of_reach {parsed : ProxyOptionsParsed} (hrun : Reach Steps Free (.new parsed) w) : Ordered (.new parsed) w := by
  induction hrun with
  | refl => exact .new parsed
  | tail hrun _ hstep ih =>
      exact ih.step hrun ((Ledgered.new parsed).reach hrun) ((Handled.new parsed).reach hrun).owned hstep

theorem checks_of_reach {parsed : ProxyOptionsParsed} (hrun : Reach Steps Free (.new parsed) w) :
    ∀ k pool, w.shared.inner.pools.get k = some pool → PoolChecks parsed.healthCheckIntervalMs pool := by
  have hoptions : w.shared.inner.options = parsed := options_of_reach hrun
  obtain ⟨hresults, htables⟩ := ((Ledgered.new parsed).reach hrun).replayed hoptions
  have hpools := runUpdates_invariant
    (P := fun _ c => ∀ k pool, c.pools.get k = some pool → PoolChecks parsed.healthCheckIntervalMs pool)
    (fun _ _ hpool => by cases hpool) (fun _ _ _ h _ => applyUpdate_checks h) hresults
  rwa [← htables.pools] at hpools

/-- The balancer of a pool checks what its upstreams ask for. -/
theorem healthChecks_of_pool {parsed : ProxyOptionsParsed} (hrun : Reach Steps Free (.new parsed) w) {app : Str}
    {t : TransportKind} {pool : PoolConfig} (hpool : w.shared.inner.pools.get (app, t) = some pool) :
    ∃ current env, w.shared.catalog.upstreams app = some current ∧ lastRebuild w.shared.history app = some env ∧
      HealthChecks parsed app current env t pool.lb := by
  have hcoherent := tables_coherent_of_reach parsed hrun
  rw [options_of_reach hrun] at hcoherent
  obtain ⟨current, hcurrent⟩ : ∃ current, w.shared.catalog.upstreams app = some current := by
    refine Option.ne_none_iff_exists'.mp fun hnone => ?_
    have hstray : w.shared.inner.pools.get (app, t) = none := hcoherent.stray app t hnone
    rw [hpool] at hstray
    cases hstray
  have happ := hcoherent.app app current hcurrent
  obtain ⟨env, henv, haddrs⟩ := happ.addrs t pool hpool
  obtain ⟨a, ha, hname, hverify, -⟩ := verified_of_reach parsed hrun app t pool hpool
  have hchecks := checks_of_reach hrun (app, t) pool hpool
  have hcheck := hchecks.check
  refine ⟨current, env, hcurrent, henv, (happ.pools t).mp (Option.isSome_iff_exists.mpr ⟨pool, hpool⟩), haddrs, ?_, ?_,
    hchecks.interval⟩
  · intro u hu ht hsecure
    have hs : pool.secure = true := (happ.secure t pool hpool u hu ht).symm.trans hsecure
    rw [if_pos hs] at hcheck
    exact ⟨a, ha, hname, pool.verifyHostname, hverify hs, hcheck⟩
  · intro u hu ht hplain
    have hs : pool.secure = false := (happ.secure t pool hpool u hu ht).symm.trans hplain
    rw [if_neg (by rw [hs]; exact Bool.false_ne_true)] at hcheck
    exact hcheck

/-- In every run each health task that has ever been spawned, whatever has become of it, checks upstreams that an application
had in an earlier state, resolved as then, in the way in which requests connect to them; it is registered under the name of
their pool or not at all. -/
theorem health_tasks_check {options : ProxyOptions} (hnew : Proxy.new options = .ok w₀) (hrun : Reach Steps Free w₀ w)
    (htask : w.shared.server.serviceOf h = some (.health lb)) :
    ∃ w₁ app t current env, Reach Steps Free w₀ w₁ ∧ Reach Steps Free w₁ w ∧
      w₁.shared.catalog.upstreams app = some current ∧ lastRebuild w₁.shared.history app = some env ∧
      HealthChecks w₀.shared.inner.options app current env t lb ∧
      ∀ n, w.shared.server.services.get n = some h → n = lbServiceName app t := by
  obtain ⟨parsed, -, rfl⟩ := proxy_new hnew
  obtain ⟨n, ⟨w₁, hbefore, hafter, app, t, pool, rfl, hpool, rfl⟩, hregistered, -⟩ := (ordered_of_reach hrun).tasks h lb htask
  obtain ⟨current, env, hcurrent, henv, hchecks⟩ := healthChecks_of_pool hbefore hpool
  exact ⟨w₁, app, t, current, env, hbefore, hafter, hcurrent, henv, hchecks, hregistered⟩

/-- Call 2 has replaced task 0, and task 0 still checks the upstream that its pool was built from. -/
theorem health_tasks_check_sample :
    ∃ w lb, Reach Steps Free (World.new sampleParsed) w ∧ w.shared.server.serviceOf 0 = some (.health lb) ∧
      w.shared.server.services.get (lbServiceName (Str.lit "app") .http1) = some 3 ∧
      ∃ w₁ app t current env, Reach Steps Free (World.new sampleParsed) w₁ ∧ Reach Steps Free w₁ w ∧
        w₁.shared.catalog.upstreams app = some current ∧ lastRebuild w₁.shared.history app = some env ∧
        HealthChecks sampleParsed app current env t lb := by
  obtain ⟨w, hrun, -, hcheck⟩ := reach_of_check Free Free (additionRun ++ steps 2 9) sampleParsed 3
    (fun w => w.shared.server.services.get (lbServiceName (Str.lit "app") .http1) = some 3 ∧
      w.shared.server.serviceOf 0 =
        some (.health ⟨(0, .http1), {⟨Str.lit "127.0.0.1", false, 8080⟩}, .plain, 5000⟩))
    (fun _ _ _ => id) (by decide) (by decide +kernel)
  obtain ⟨hregistered, htask⟩ := of_decide_eq_true hcheck
  obtain ⟨w₁, app, t, current, env, hbefore, hafter, hcurrent, henv, hchecks, -⟩ := health_tasks_check sample_new hrun htask
  exact ⟨w, _, hrun, htask, hregistered, w₁, app, t, current, env, hbefore, hafter, hcurrent, henv, hchecks⟩

end NeemataProxy
