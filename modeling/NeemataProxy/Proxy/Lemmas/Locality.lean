import NeemataProxy.Proxy.Hostnames
import NeemataProxy.Proxy.Lemmas.Completion
import NeemataProxy.Proxy.Lemmas.Health
import NeemataProxy.Proxy.Removal

/-!
# How far an update reaches

An update rebuilds all pools of its application. It leaves the pools of other applications and the services of other names alone,
and a pool of another transport is replaced by one of the same upstreams.
-/

namespace NeemataProxy

open Lib Routing Options

/-- The health task of some pool of the application. -/
def ServiceOf (app n : Str) : Prop := ∃ t, n = lbServiceName app t

/-- What a step of an update of the application leaves alone. -/
structure LocalTo (app : Str) (w w' : World) : Prop where
  pools : ∀ app' t, app' ≠ app → w'.shared.inner.pools.get (app', t) = w.shared.inner.pools.get (app', t)
  services : ∀ n, ¬ ServiceOf app n → w'.shared.server.services.get n = w.shared.server.services.get n
  tasks : ∀ n h, ¬ ServiceOf app n → w.shared.server.services.get n = some h →
    w'.shared.server.statusOf h = w.shared.server.statusOf h ∧ w'.shared.server.serviceOf h = w.shared.server.serviceOf h

variable {w w' : World} {l : Label} {c : CallId} {choice : Choice} {s s' : Shared} {pc pc' : Pc} {req : UpdateRequest} {app : Str}

/-! ## The services of an update -/

/-- The commit leaves other applications alone, and asks for services of its own application only. -/
theorem commitUpdate_local {options : ProxyOptionsParsed} {order : IterOrder (TransportKind × PoolConfig)} {next : Snapshot}
    {rebuilt : Rebuilt} {c c' : Catalog} {services : List ServiceUpdate}
    (h : commitUpdate options order req next rebuilt c = .ok (c', services)) :
    (∀ app' t, app' ≠ req.appName → c'.pools.get (app', t) = c.pools.get (app', t)) ∧
      ∀ u ∈ services, ServiceOf req.appName u.name := by
  unfold commitUpdate at h
  split at h
  · cases h
  · obtain ⟨rfl, rfl⟩ := Prod.mk.inj (Except.ok.inj h)
    refine ⟨fun app' t hne => ?_, fun u hu => ?_⟩
    · rw [removePools_get, if_neg fun hin => hne hin.1, insertPools_get_of_not_mem fun heq => absurd heq hne]
    · rcases List.mem_append.mp hu with hu | hu
      · obtain ⟨t, pool, -, rfl⟩ := mem_insertPools_services.mp hu
        exact ⟨t, rfl⟩
      · obtain ⟨t, -, -, rfl⟩ := mem_removePools_services.mp hu
        exact ⟨t, rfl⟩

/-- An update that has been committed deals with services of its application only. -/
def Pc.Confined : Pc → Prop
  | .updateServices req todo hands =>
      (∀ u ∈ todo, ServiceOf req.appName u.name) ∧ ∀ n h, hands.spawned = some (n, h) → ServiceOf req.appName n
  | _ => True

theorem Pc.Confined.withHands (h : pc.Confined) {hands : Hands} (hnone : hands.spawned = none) : (pc.withHands hands).Confined := by
  cases pc with
  | updateServices req todo _ =>
      refine ⟨h.1, fun n t ht => ?_⟩
      rw [hnone] at ht
      cases ht
  | _ => trivial

theorem Pc.Confined.act (h : pc.Confined) (hact : Act s c choice pc s' pc') : pc'.Confined := by
  cases hact with
  | inserted | awaited => exact h.withHands rfl
  | signalled => exact h.withHands rfl
  | committed env hcommit =>
      refine ⟨fun u hu => ?_, nofun⟩
      split at hu
      · exact (commitUpdate_local hcommit).2 u hu
      · cases hu
  | updateSpawned req name lb todo =>
      refine ⟨fun u hu => h.1 u (List.mem_cons_of_mem _ hu), fun n t ht => ?_⟩
      obtain ⟨rfl, -⟩ := Prod.mk.inj (Option.some.inj ht)
      exact h.1 _ List.mem_cons_self
  | updateRemoved req name todo => exact ⟨fun u hu => h.1 u (List.mem_cons_of_mem _ hu), nofun⟩
  | _ => trivial

theorem confined_of_reach {parsed : ProxyOptionsParsed} (hrun : Reach Steps Free (.new parsed) w) (c : CallId) :
    (w.calls c).Confined := by
  induction hrun with
  | refl => trivial
  | tail _ _ hstep ih =>
      rcases own_or_kept hstep c with hcalls | ⟨choice, hact⟩
      · rw [hcalls]
        exact ih
      · exact ih.act hact

/-! ## Every step of an update -/

theorem otherPools_act (hact : Act s c choice pc s' pc') (hreq : pc.stage.request = some req) {app' : Str} (t : TransportKind)
    (hne : app' ≠ req.appName) : s'.inner.pools.get (app', t) = s.inner.pools.get (app', t) := by
  rcases pools_act hact with hsame | ⟨req', next, env, rebuilt, rfl⟩
  · rw [hsame]
  · obtain rfl := Option.some.inj hreq
    cases hact with
    | inserted hhands | signalled hhands | awaited hhands => cases hhands
    | commitFailed => rfl
    | committed env hcommit => exact (commitUpdate_local hcommit).1 app' t hne

theorem Pc.Confined.spawned (h : pc.Confined) (hreq : pc.stage.request = some req) {n : Str} {t : ServiceHandle}
    (hspawned : pc.hands.spawned = some (n, t)) : ServiceOf req.appName n := by
  cases pc with
  | updateServices req' todo hands =>
      obtain rfl := Option.some.inj hreq
      exact h.2 n t hspawned
  | updateLock | updateSnapshot | updateRebuild | updateCommit => cases hspawned
  | _ => cases hreq

theorem otherServices_act (hact : Act s c choice pc s' pc') (hconfined : pc.Confined) (hreq : pc.stage.request = some req) {n : Str}
    (hn : ¬ ServiceOf req.appName n) : s'.server.services.get n = s.server.services.get n := by
  rcases name_act hact n with hsame | ⟨t, hspawned, -⟩ | ⟨req', todo, hands, rfl, -⟩ | ⟨seen, hrole, -⟩
  · exact hsame
  · exact absurd (hconfined.spawned hreq hspawned) hn
  · obtain rfl := Option.some.inj hreq
    exact absurd (hconfined.1 _ List.mem_cons_self) hn
  · cases pc with
    | startCancel | startCancelling | stopWaitStart | stopAll | stopping => cases hreq
    | _ => cases hrole

/-- A task that is registered keeps its status in every step of a call. -/
theorem Owned.statusOf_handStep {server server' : Server} {hands : CallId → Hands} {hs : Hands} (h : Owned server hands)
    (hstep : HandStep server (hands c) server' hs) {n : Str} {t : ServiceHandle} (hget : server.services.get n = some t) :
    server'.statusOf t = server.statusOf t := by
  generalize hpre : hands c = pre at hstep
  cases hstep with
  | spawned name service =>
      have hne : t ≠ server.nextHandle := by
        rintro rfl
        cases (h.registered hget).symm.trans server.statusOf_nextHandle
      rw [Server.statusOf_spawn, if_neg hne]
  | signalled t' rest =>
      have hne : t ≠ t' := by
        rintro rfl
        exact (h.inHands (c := c) (by rw [hpre]; exact List.mem_cons_self)).2 n hget
      rw [Server.statusOf_signal, if_neg fun hand => hne hand.1]
  | _ => rfl

theorem exists_serviceOf {server : Server} {t : ServiceHandle} {status : TaskStatus} (h : server.statusOf t = some status) :
    ∃ x, server.serviceOf t = some x := by
  obtain ⟨task, htask, -⟩ := Option.map_eq_some_iff.mp h
  exact ⟨task.service, Option.map_eq_some_iff.mpr ⟨task, htask, rfl⟩⟩

theorem localTo_act (howned : Owned w.shared.server w.hands) (hconfined : (w.calls c).Confined)
    (hact : Act w.shared c choice (w.calls c) s' pc') (hreq : (w.calls c).stage.request = some req) :
    LocalTo req.appName w ⟨s', Function.update w.calls c pc'⟩ := by
  refine ⟨fun app' t hne => otherPools_act hact hreq t hne, fun n hn => otherServices_act hact hconfined hreq hn, ?_⟩
  intro n t _ hget
  obtain ⟨x, hx⟩ := exists_serviceOf (howned.registered hget)
  exact ⟨howned.statusOf_handStep (act_handStep hact) hget, ((act_handStep hact).serviceOf hx).trans hx.symm⟩

/-! ## Balancers are numbered -/

/-- The balancers of the pools come from rebuilds before. -/
def Catalog.Numbered (c : Catalog) : Prop := ∀ app t pool, c.pools.get (app, t) = some pool → pool.lb.id.1 < c.rebuilds

theorem Catalog.Numbered.mono {cat cat' : Catalog} (h : cat.Numbered) (hpools : cat'.pools = cat.pools)
    (hle : cat.rebuilds ≤ cat'.rebuilds) : cat'.Numbered := by
  intro app t pool hpool
  rw [hpools] at hpool
  exact Nat.lt_of_lt_of_le (h app t pool hpool) hle

theorem rebuilds_applyUpdate (options : ProxyOptionsParsed) (req : UpdateRequest) (env : Except Str RebuildEnv)
    (order : IterOrder (TransportKind × PoolConfig)) (cat : Catalog) :
    cat.rebuilds ≤ (applyUpdate options req env order cat).1.rebuilds ∧
      ((applyUpdate options req env order cat).2 = .ok () →
        (applyUpdate options req env order cat).1.rebuilds = cat.rebuilds + 1) := by
  unfold applyUpdate
  split
  · exact ⟨Nat.le_refl _, nofun⟩
  · dsimp only
    split
    · exact ⟨Nat.le_succ _, nofun⟩
    · split
      · exact ⟨Nat.le_succ _, nofun⟩
      · rename_i r hcommit
        have hcount : r.1.rebuilds = cat.rebuilds + 1 := by rw [commitUpdate_eta hcommit]
        exact ⟨by rw [hcount]; exact Nat.le_succ _, fun _ => hcount⟩

theorem Catalog.Numbered.applyUpdate {options : ProxyOptionsParsed} {req : UpdateRequest} {env : Except Str RebuildEnv}
    {order : IterOrder (TransportKind × PoolConfig)} {cat : Catalog} (h : cat.Numbered) :
    (applyUpdate options req env order cat).1.Numbered := by
  obtain ⟨hle, hcount⟩ := rebuilds_applyUpdate options req env order cat
  cases hresult : (NeemataProxy.applyUpdate options req env order cat).2 with
  | error err => exact h.mono (applyUpdate_error hresult).pools hle
  | ok u =>
      obtain ⟨next, current, rebuilt, services, env', -, -, hrebuilt, hcommit⟩ := applyUpdate_ok hresult
      intro app t pool hpool
      rw [hcommit.pools] at hpool
      split at hpool
      · rw [(hrebuilt.built t pool hpool).id, hcount hresult]
        exact Nat.lt_succ_self _
      · exact Nat.lt_of_lt_of_le (h app t pool hpool) hle

theorem Ledgered.numbered {parsed : ProxyOptionsParsed} (hled : Ledgered (World.new parsed).shared.catalog w)
    (hoptions : w.shared.inner.options = parsed) :
    ∀ app t pool, w.shared.inner.pools.get (app, t) = some pool →
      pool.lb.id.1 < (w.shared.ledger.replay (World.new parsed).shared.catalog).1.rebuilds := by
  have hnew : (World.new parsed).shared.catalog.Numbered := by
    intro app t pool hpool
    cases hpool
  obtain ⟨hresults, htables⟩ := hled.replayed hoptions
  have hnumbered := runUpdates_invariant (P := fun _ c => c.Numbered) hnew (fun _ _ _ h _ => h.applyUpdate) hresults
  intro app t pool hpool
  have hreplay : w.shared.ledger.options = parsed := hoptions
  rw [Ledger.replay, hreplay]
  exact hnumbered app t pool (by rw [← htables.pools]; exact hpool)

/-! ## The pools of the other transports -/

/-- A pool is replaced by one of the same upstreams, if there is one. -/
inductive Renewed (env : RebuildEnv) (upstreams : PortUpstream → Prop) : Option PoolConfig → Option PoolConfig → Prop where
  | absent (hnone : ¬ ∃ u, upstreams u) : Renewed env upstreams none none
  | present {old new : PoolConfig} (hsome : ∃ u, upstreams u) (hsecure : new.secure = old.secure)
      (hhostname : new.verifyHostname = old.verifyHostname)
      (haddrs : ∀ a, a ∈ new.lb.addrs ↔ ∃ u, upstreams u ∧ ∃ l, env.resolve u = .ok l ∧ a ∈ l)
      (hbackends : new.backends = new.lb.addrs.image SocketAddr.toStr) (hlb : new.lb ≠ old.lb) :
      Renewed env upstreams (some old) (some new)

theorem Verified.hostname_eq {options : ProxyOptionsParsed} {pools pools' : Pools} (h : Verified options pools)
    (h' : Verified options pools') (hnames : (options.applications.map ApplicationOptionsParsed.name).Nodup) {t : TransportKind}
    {old new : PoolConfig} (hold : pools.get (app, t) = some old) (hnew : pools'.get (app, t) = some new)
    (hsecure : new.secure = old.secure) : new.verifyHostname = old.verifyHostname := by
  obtain ⟨a, ha, hname, hs, hu⟩ := h app t old hold
  obtain ⟨a', ha', hname', hs', hu'⟩ := h' app t new hnew
  obtain rfl := List.inj_on_of_nodup_map hnames ha ha' (hname.trans hname'.symm)
  cases hwas : old.secure with
  | false => rw [hu hwas, hu' (hsecure.trans hwas)]
  | true => exact Except.ok.inj ((hs' (hsecure.trans hwas)).symm.trans (hs hwas))

/-- The commit of an update that is recorded as a success. -/
theorem committed_of_recorded {r : UpdateRecord} (hact : Act s c choice pc s' pc') (hhistory : s'.history = s.history ++ [r])
    (hok : r.result = .ok ()) : ∃ next rebuilt catalog services, r.call = c ∧ pc = .updateCommit r.request next r.env rebuilt ∧
      commitUpdate s.inner.options r.order r.request next rebuilt s.catalog = .ok (catalog, services) ∧
      s'.inner.pools = catalog.pools ∧
      pc' = .updateServices r.request (if s.inner.state = .running then services else []) .empty := by
  have hkept : s'.history ≠ s.history := by
    rw [hhistory]
    simp
  have hone : ∀ r₀, s'.history = s.history ++ [r₀] → r₀ = r := fun r₀ h =>
    List.singleton_inj.mp (List.append_cancel_left (h.symm.trans hhistory))
  cases hact with
  | committed env hcommit =>
      obtain rfl := hone _ rfl
      exact ⟨_, _, _, _, rfl, rfl, hcommit, rfl, rfl⟩
  | snapshotFailed | rebuildFailed | commitFailed =>
      obtain rfl := hone _ rfl
      cases hok
  | setupFailed | finalised | cancelled => exact absurd (congrArg Ledger.history (ledger_notifyStart _ _)) hkept
  | stopBegunWaiting | stopBegun => exact absurd (congrArg Ledger.history (ledger_beginStop _)) hkept
  | stopEnded => exact absurd (congrArg Ledger.history (ledger_endStop _)) hkept
  | _ => exact absurd rfl hkept

theorem contains_apply_other {kind : UpdateKind} {current : HashSet PortUpstream} {u u' : PortUpstream}
    (h : u'.transport ≠ u.transport) : (kind.apply current u).contains u' = true ↔ current.contains u' = true := by
  have hne : u' ≠ u := fun heq => h (congrArg PortUpstream.transport heq)
  rw [contains_apply]
  cases kind with
  | add => exact or_iff_right hne
  | remove => exact and_iff_right hne

/-- The pool of a transport whose upstreams stay the same. -/
theorem renewed_of_rebuilt {options : ProxyOptionsParsed} {last : Option RebuildEnv} {current : Set PortUpstream}
    {poolOf : TransportKind → Option PoolConfig} {env : RebuildEnv} {rebuild : Nat} {a : ApplicationOptionsParsed}
    {upstreams : HashSet PortUpstream} {rebuilt : Rebuilt} {t : TransportKind}
    (hcoherent : AppCoherent options app current last poolOf)
    (hrebuilt : RebuiltSpec env rebuild a upstreams rebuilt)
    (hsame : ∀ u, (upstreams.contains u = true ∧ u.transport = t) ↔ u ∈ current ∧ u.transport = t)
    (hhostname : ∀ old new, poolOf t = some old → rebuilt.newPools.get t = some new → new.secure = old.secure →
      new.verifyHostname = old.verifyHostname)
    (hnumbered : ∀ old, poolOf t = some old → old.lb.id.1 < rebuild) :
    Renewed env (fun u => u ∈ current ∧ u.transport = t) (poolOf t) (rebuilt.newPools.get t) := by
  have hinhabited := hcoherent.pools t
  cases hold : poolOf t with
  | none =>
      have hnone : ¬ ∃ u, u ∈ current ∧ u.transport = t := fun hu => by
        have hsome := hinhabited.mpr hu
        rw [hold] at hsome
        cases hsome
      have hmissing : rebuilt.newPools.get t = none := by
        refine Option.eq_none_iff_forall_ne_some.mpr fun pool hpool => ?_
        obtain ⟨u, hu⟩ := (hrebuilt.built t pool hpool).inhabited
        exact hnone ⟨u, (hsame u).mp hu⟩
      rw [hmissing]
      exact .absent hnone
  | some old =>
      obtain ⟨u, hu⟩ := hinhabited.mp (Option.isSome_iff_exists.mpr ⟨old, hold⟩)
      cases hnew : rebuilt.newPools.get t with
      | none => exact absurd hu.2 (hrebuilt.missing t hnew u ((hsame u).mpr hu).1)
      | some new =>
          have hbuilt := (hrebuilt.built t new hnew).congr hsame
          have hsecure : new.secure = old.secure := (hbuilt.secure u hu).symm.trans (hcoherent.secure t old hold u hu.1 hu.2)
          -- the balancers of this rebuild are numbered after those of all pools
          have hlb : new.lb ≠ old.lb := fun heq => by
            have hlt := hnumbered old hold
            rw [← heq, hbuilt.id] at hlt
            exact Nat.lt_irrefl _ hlt
          exact .present ⟨u, hu⟩ hsecure (hhostname old new hold hnew hsecure) hbuilt.addrs hbuilt.backends hlb

theorem CommitSpec.upsert_of_changed {options : ProxyOptionsParsed} {next : Snapshot} {rebuilt : Rebuilt} {cat cat' : Catalog}
    {services : List ServiceUpdate} (h : CommitSpec options req next rebuilt cat cat' services) {t : TransportKind}
    {pool : PoolConfig} (hpool : cat'.pools.get (app, t) = some pool)
    (hchanged : cat'.pools.get (app, t) ≠ cat.pools.get (app, t)) : .upsert (lbServiceName app t) pool.lb ∈ services := by
  rcases h.changed app t hchanged with ⟨lb, hupsert⟩ | hremove
  · have hwants : cat'.pools.Wants (lbServiceName app t) lb := h.upserts _ _ hupsert
    obtain ⟨pool', hpool', rfl⟩ := hwants.get
    obtain rfl := Option.some.inj (hpool.symm.trans hpool')
    exact hupsert
  · have hunwanted : cat'.pools.Unwanted (lbServiceName app t) := h.removes _ hremove
    cases hpool.symm.trans hunwanted.get

theorem Renewed.ne {env : RebuildEnv} {upstreams : PortUpstream → Prop} {old : Option PoolConfig} {new : PoolConfig}
    (h : Renewed env upstreams old (some new)) : some new ≠ old := by
  cases h with
  | present _ _ _ _ _ hlb => exact fun heq => hlb (congrArg PoolConfig.lb (Option.some.inj heq))

/-- A commit renews the pools of the other transports, and asks for their health tasks. -/
theorem siblings_renewed {parsed : ProxyOptionsParsed} {next : Snapshot} {env : Except Str RebuildEnv} {rebuilt : Rebuilt}
    {order : IterOrder (TransportKind × PoolConfig)} {catalog : Catalog} {services : List ServiceUpdate}
    (hled : Ledgered (World.new parsed).shared.catalog w) (hoptions : w.shared.inner.options = parsed)
    (hnames : (parsed.applications.map ApplicationOptionsParsed.name).Nodup) (hverified : Verified parsed w.shared.inner.pools)
    (hverified' : Verified parsed catalog.pools) (hpc : w.calls c = .updateCommit req next env rebuilt)
    (hcommit : commitUpdate parsed order req next rebuilt w.shared.catalog = .ok (catalog, services)) :
    ∃ env' current, env = .ok env' ∧ w.shared.catalog.upstreams req.appName = some current ∧
      ∀ t, t ≠ req.upstream.transport →
        Renewed env' (fun u => u ∈ current ∧ u.transport = t) (w.shared.inner.pools.get (req.appName, t))
          (catalog.pools.get (req.appName, t)) ∧
        ∀ pool, catalog.pools.get (req.appName, t) = some pool → .upsert (lbServiceName req.appName t) pool.lb ∈ services := by
  have hknows := hled.knows c
  simp only [World.stages, hpc, Pc.stage] at hknows
  obtain ⟨-, -, -, hprepare, hrebuild⟩ := hknows
  obtain ⟨set, hprepared⟩ := prepareUpdate_spec hprepare
  obtain ⟨env', rfl, hrebuilt⟩ := rebuildUpdate_spec hrebuild
  have hspec := commitUpdate_spec hrebuilt.removed hcommit
  have hcurrent : w.shared.catalog.upstreams req.appName = some {u | set.contains u = true} :=
    congrArg (Option.map fun s : HashSet PortUpstream => {u | s.contains u = true}) hprepared.found
  refine ⟨env', _, rfl, hcurrent, fun t ht => ?_⟩
  have hget : catalog.pools.get (req.appName, t) = rebuilt.newPools.get t := (hspec.pools _ _).trans (if_pos rfl)
  have hrenewed : Renewed env' (fun u => set.contains u = true ∧ u.transport = t) (w.shared.inner.pools.get (req.appName, t))
      (rebuilt.newPools.get t) := by
    refine renewed_of_rebuilt ((hled.coherent hoptions).app _ _ hcurrent) hrebuilt (fun u => ?_) (fun old new hold hnew => ?_)
      fun old hold => hled.numbered hoptions _ _ old hold
    · refine and_congr_left fun hu => ?_
      rw [hprepared.upstreams]
      exact contains_apply_other (by rw [hu]; exact ht)
    · exact hverified.hostname_eq hverified' hnames hold (hget.trans hnew)
  rw [hget]
  refine ⟨hrenewed, fun pool hnew => hspec.upsert_of_changed (hget.trans hnew) ?_⟩
  rw [hget, hnew]
  rw [hnew] at hrenewed
  exact hrenewed.ne

/-! ## Health tasks -/

/-- The update is going to register a health task of the balancer. -/
def Pc.Registers (server : Server) (n : Str) (lb : LoadBalancer) : Pc → Prop
  | .updateServices _ todo hands =>
      .upsert n lb ∈ todo ∨ ∃ t, hands.spawned = some (n, t) ∧ server.serviceOf t = some (.health lb)
  | _ => False

theorem Pc.Registers.mono {server server' : Server} {n : Str} {lb : LoadBalancer} (h : pc.Registers server n lb)
    (hs : ∀ t x, server.serviceOf t = some x → server'.serviceOf t = some x) : pc.Registers server' n lb := by
  cases pc with
  | updateServices req todo hands => exact h.imp id fun ⟨t, hspawned, hx⟩ => ⟨t, hspawned, hs t _ hx⟩
  | _ => exact h

theorem registers_act (hact : Act s c choice pc s' pc') {n : Str} {lb : LoadBalancer} (h : pc.Registers s.server n lb) :
    pc'.Registers s'.server n lb ∨ s'.server.Runs n lb := by
  have hmono := fun t x => (act_handStep hact).serviceOf (h := t) (x := x)
  cases hact with
  | @inserted _ name t' hhands =>
      cases pc with
      | updateServices req todo hands =>
          rcases h with hin | ⟨t, hspawned, hx⟩
          · exact .inl (.inl hin)
          · obtain ⟨rfl, rfl⟩ := Prod.mk.inj (Option.some.inj (hspawned.symm.trans hhands))
            exact .inr ⟨t, by simp [Shared.onServer, HashMap.get_insert], hmono _ _ hx⟩
      | _ => exact h.elim
  | signalled hhands | awaited hhands =>
      cases pc with
      | updateServices req todo hands =>
          rcases h with hin | ⟨t, hspawned, -⟩
          · exact .inl (.inl hin)
          · simp [show hands = _ from hhands] at hspawned
      | _ => exact h.elim
  | updateSpawned req name lb' todo =>
      rcases h with hin | ⟨t, hspawned, -⟩
      · rcases List.mem_cons.mp hin with heq | hin
        · obtain ⟨rfl, rfl⟩ := ServiceUpdate.upsert.inj heq
          exact .inl (.inr ⟨_, rfl, Server.serviceOf_nextHandle _ _⟩)
        · exact .inl (.inl hin)
      · cases hspawned
  | updateRemoved req name todo =>
      rcases h with hin | ⟨t, hspawned, -⟩
      · rcases List.mem_cons.mp hin with heq | hin
        · cases heq
        · exact .inl (.inl hin)
      · cases hspawned
  | updateEnded req =>
      rcases h with hin | ⟨t, hspawned, -⟩
      · cases hin
      · cases hspawned
  | _ => exact h.elim

theorem serviceOf_step (hstep : step w l = some w') (t : ServiceHandle) (x : Service)
    (hx : w.shared.server.serviceOf t = some x) : w'.shared.server.serviceOf t = some x := by
  rcases step_cases hstep with ⟨c, choice, s', pc', -, hact, rfl⟩ | ⟨t', -, -, rfl⟩
  · exact (act_handStep hact).serviceOf hx
  · exact (Server.serviceOf_setStatus ..).trans hx

/-- A task that an update is going to register is registered before the update ends. -/
theorem runs_of_registers {n : Str} {lb : LoadBalancer} (h : (w.calls c).Registers w.shared.server n lb)
    (hrun : Reach Steps Free w w') {result : Except JsError Unit} (hdone : w'.calls c = .done result) :
    ∃ w₁, Reach Steps Free w w₁ ∧ Reach Steps Free w₁ w' ∧ w₁.shared.server.Runs n lb := by
  have hkept : (w'.calls c).Registers w'.shared.server n lb ∨
      ∃ w₁, Reach Steps Free w w₁ ∧ Reach Steps Free w₁ w' ∧ w₁.shared.server.Runs n lb := by
    clear hdone
    induction hrun with
    | refl => exact .inl h
    | @tail w₂ w₃ l hrun _ hstep ih =>
        rcases ih with hregisters | ⟨w₁, hbefore, hafter, hruns⟩
        · rcases own_or_kept hstep c with hcalls | ⟨choice, hact⟩
          · rw [hcalls]
            exact .inl (hregisters.mono fun t x => serviceOf_step hstep t x)
          · exact (registers_act hact hregisters).imp id fun hruns => ⟨w₃, hrun.tail trivial hstep, .refl, hruns⟩
        · exact .inr ⟨w₁, hbefore, hafter.tail trivial hstep, hruns⟩
  rcases hkept with hregisters | hruns
  · rw [hdone] at hregisters
    exact hregisters.elim
  · exact hruns

end NeemataProxy
