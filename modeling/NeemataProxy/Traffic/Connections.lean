import NeemataProxy.Proxy.Hostnames
import NeemataProxy.Traffic.Answers
import NeemataProxy.Traffic.Lemmas.Traced

/-!
# Connections to upstreams

A peer is what Pingora connects to. It carries the flag of its upstream, the hostname that its application verifies, the HTTP
version of its transport and the timeouts of the options, however the address was chosen.
-/

namespace NeemataProxy

open Lib Routing Options

/-- The connection that an upstream of an application asks for. -/
structure Connection (options : ProxyOptionsParsed) (app : Str) (u : PortUpstream) (peer : HttpPeer) : Prop where
  tls : peer.tls = u.secure
  verified : u.secure = true → ∃ a ∈ options.applications, a.name = app ∧ verifyHostnameForSecureUpstream a = .ok peer.sni
  unverified : u.secure = false → peer.sni = []
  version : peer.minHttpVersion = peer.maxHttpVersion ∧ (peer.maxHttpVersion = 2 ↔ u.transport = .http2)
  connect : peer.connectionTimeout = some options.timeouts.upstreamConnectTimeoutMs ∧
    peer.totalConnectionTimeout = some options.timeouts.upstreamConnectTimeoutMs
  read : peer.readTimeout = some options.timeouts.upstreamReadTimeoutMs
  write : peer.writeTimeout = some options.timeouts.upstreamWriteTimeoutMs

/-- The peer is an upstream of the application that owns the request, of the transport that the request asks for, in `s`; the
connection is the one that this upstream asks for. -/
def ConnectsTo (options : ProxyOptionsParsed) (s : Shared) (session : Session) (peer : HttpPeer) : Prop :=
  ∃ host route current u env addrs, extractHost session = .ok host ∧
    Dispatch (Owns options.applications) host (extractFirstPathSegment session) (some route) ∧
    s.catalog.upstreams route.appName = some current ∧ u ∈ current ∧
    u.transport = askedTransport current session.isUpgradeReq ∧
    lastRebuild s.history route.appName = some env ∧ env.resolve u = .ok addrs ∧ (∃ a ∈ addrs, peer.address = a.toStr) ∧
    Connection options route.appName u peer

variable {options : ProxyOptionsParsed} {parsed : ProxyOptionsParsed} {hash : AffinityMapKey → UInt64} {t t' : Traffic}
  {r : RequestId} {l : TrafficLabel} {router : Router} {req : Request}

/-! ## Pools -/

theorem Ledgered.verified {w : World} (hled : Ledgered (World.new parsed).shared.catalog w)
    (hoptions : w.shared.inner.options = parsed) : Verified parsed w.shared.catalog.pools := by
  obtain ⟨hresults, htables⟩ := hled.replayed hoptions
  have hnew : Verified parsed (World.new parsed).shared.catalog.pools := fun app t pool hpool => by cases hpool
  rw [htables.pools]
  exact runUpdates_invariant (P := fun _ c => Verified parsed c.pools) hnew (fun _ _ _ h _ => h.applyUpdate) hresults

/-- The upstreams of a pool ask for the connection that its peers get. -/
theorem connection_of_pool {app : Str} {current : Set PortUpstream} {last : Option RebuildEnv} {pools : Pools}
    (h : AppCoherent options app current last fun t => pools.get (app, t)) (hverified : Verified options pools)
    {isUpgrade : Bool} {pool : PoolConfig} (hpool : pools.get (app, askedTransport current isUpgrade) = some pool)
    {u : PortUpstream} (hu : u ∈ current) (ht : u.transport = askedTransport current isUpgrade) (address : Str) :
    Connection options app u
      (peerFor (pool.resolved isUpgrade (decide (askedTransport current isUpgrade = .http2))) options.timeouts address) := by
  have hsecure := h.secure _ _ hpool u hu ht
  obtain ⟨a, ha, hname, hverify, hplain⟩ := hverified _ _ _ hpool
  refine ⟨hsecure.symm, fun hs => ⟨a, ha, hname, hverify (hsecure ▸ hs)⟩, fun hs => hplain (hsecure ▸ hs), ⟨rfl, ?_⟩,
    ⟨rfl, rfl⟩, rfl, rfl⟩
  rw [ht]
  by_cases hhttp2 : askedTransport current isUpgrade = .http2 <;> simp [peerFor, PoolConfig.resolved, hhttp2]

/-! ## Peers -/

/-- The peer of a request is made from its pool, and the pools that it loaded are verified. -/
structure Request.Peered (parsed : ProxyOptionsParsed) (req : Request) : Prop where
  peer : ∀ peer, req.phase = .connect peer → ∃ resolved address, req.ctx.resolvedPool = some resolved ∧
    peer = peerFor resolved parsed.timeouts address
  loaded : ∀ s, req.loaded = some s → Verified parsed s.catalog.pools

theorem connect_lookup {resolved : ResolvedPool} (hpool : (t.requests r).ctx.resolvedPool = some resolved)
    {now : Nat} {ord : IterOrder (AffinityMapKey × AffinityEntry)} {peer : HttpPeer}
    (h : (t.lookupStep hash (t.requests r) now ord).2.phase = .connect peer) :
    ∃ address, peer = peerFor resolved t.router.timeouts address := by
  simp only [Traffic.lookupStep, upstreamPeerLookup, hpool] at h
  split at h
  · cases h
  · rename_i resolved' address hmapped
    obtain rfl := Phase.connect.inj h
    refine ⟨address, ?_⟩
    split at hmapped
    · simp only at hmapped
      split at hmapped
      · obtain ⟨rfl, rfl⟩ := PeerLookup.mapped.inj hmapped
        rfl
      · cases hmapped
    · cases hmapped
  · cases h

theorem peered_act (hsound : t.Sound parsed) (hconfigured : t.Configured parsed) (h : (t.requests r).Peered parsed)
    (hact : Traffic.Act hash t r l router req) : req.Peered parsed := by
  have hreq := hsound.requests r
  cases hact with
  | filtered now session =>
      refine ⟨fun peer hphase => ?_, fun s hs => ?_⟩
      · simp only [Traffic.filterStep] at hphase
        split at hphase <;> cases hphase
      · obtain rfl := Option.some.inj hs
        exact hsound.ledgered.verified hsound.options
  | lookedUp now ord hphase =>
      have hextends := extends_lookup hash t r now ord
      refine ⟨fun peer hconnect => ?_, fun s hs => h.loaded s (hextends.loaded.symm.trans hs)⟩
      simp only [Request.Sound, hphase] at hreq
      obtain ⟨resolved, hrouted⟩ := hreq
      obtain ⟨address, rfl⟩ := connect_lookup hrouted.pool hconnect
      exact ⟨resolved, address, hextends.resolvedPool.trans hrouted.pool, by rw [hconfigured.timeouts]⟩
  | @selected resolved selected =>
      refine ⟨fun peer hconnect => ?_, fun s hs => h.loaded s ((extends_select _ resolved selected).loaded.symm.trans hs)⟩
      cases selected <;> cases hconnect
  | @bound resolved selected now ord hphase =>
      simp only [Request.Sound, hphase] at hreq
      refine ⟨fun peer hconnect => ?_, h.loaded⟩
      obtain rfl := Phase.connect.inj hconnect
      exact ⟨resolved, selected, hreq.1.pool, by rw [← hconfigured.timeouts]; rfl⟩
  | failed e =>
      refine ⟨fun peer hconnect => ?_, fun s hs => h.loaded s ((extends_fail hash t r e).loaded.symm.trans hs)⟩
      simp only [Traffic.failStep] at hconnect
      split at hconnect <;> cases hconnect
  | retried => exact ⟨fun peer hconnect => (by cases hconnect), h.loaded⟩

theorem peered_of_reach (hrun : Reach (Traffic.Steps hash) Traffic.Selects (.new parsed) t) (r : RequestId) :
    (t.requests r).Peered parsed := by
  have hnew : Request.new.Peered parsed := ⟨fun _ hphase => (by cases hphase), fun _ hloaded => (by cases hloaded)⟩
  refine requests_of_reach hnew (fun t r l router req hrun _ hact h => ?_) hrun r
  exact peered_act ((Traffic.Sound.new parsed).reach hrun) (Traffic.Configured.reach hrun) h hact

/-! ## Every connection -/

/-- A request whose pool has the peer's address is owed the connection that it gets. -/
theorem connectsTo_of_routed {resolved : ResolvedPool} {address : Str} (hdistinct : Distinct parsed.applications)
    (hrouted : req.Routed parsed resolved) (hmem : address ∈ resolved.backends)
    (hverified : ∀ s, req.loaded = some s → Verified parsed s.catalog.pools) :
    ∃ s session, req.loaded = some s ∧ req.session = some session ∧
      ConnectsTo parsed s session (peerFor resolved parsed.timeouts address) := by
  obtain ⟨s, session, host, route, pools, pool, isHttp2, hloaded, hsession, hcoherent, hhost, hroute, -, hpools, hchoose, rfl⟩ :=
    hrouted.source
  have hconfig : s.router.config = buildRouterConfig parsed s.catalog.pools := hcoherent.config
  rw [hconfig] at hroute hpools
  have hdispatch := (dispatch_iff hdistinct s.catalog.pools).mpr hroute
  rw [get_apps_buildRouterConfig, if_pos hdispatch.application] at hpools
  obtain ⟨current, hcurrent⟩ := Option.isSome_iff_exists.mp ((hcoherent.applications _).mpr hdispatch.application)
  have happ := hcoherent.app _ _ hcurrent
  obtain rfl := Option.some.inj hpools
  rw [choosePool_asked happ] at hchoose
  obtain ⟨hpool, rfl⟩ := Prod.mk.inj hchoose
  have hbackends : address ∈ pool.backends := hmem
  rw [happ.backends _ _ hpool, Finset.mem_image] at hbackends
  obtain ⟨a, ha, haddress⟩ := hbackends
  obtain ⟨env, henv, haddrs⟩ := happ.addrs _ _ hpool
  obtain ⟨u, hu, ht, addrs, hresolve, hin⟩ := (haddrs a).mp ha
  exact ⟨s, session, hloaded, hsession, host, route, current, u, env, addrs, hhost, hdispatch, hcurrent, hu, ht, henv, hresolve,
    ⟨a, hin, haddress.symm⟩, connection_of_pool happ (hverified s hloaded) hpool hu ht address⟩

theorem connectsTo_of_connect (hdistinct : Distinct parsed.applications)
    (hrun : Reach (Traffic.Steps hash) Traffic.Selects (.new parsed) t) {peer : HttpPeer}
    (hphase : (t.requests r).phase = .connect peer) :
    ∃ s session, (t.requests r).loaded = some s ∧ (t.requests r).session = some session ∧ ConnectsTo parsed s session peer := by
  have hreq := ((Traffic.Sound.new parsed).reach hrun).requests r
  have hpeered := peered_of_reach hrun r
  obtain ⟨resolved, address, hpool, rfl⟩ := hpeered.peer peer hphase
  simp only [Request.Sound, hphase] at hreq
  obtain ⟨resolved', hrouted, hmem⟩ := hreq
  obtain rfl := Option.some.inj (hpool.symm.trans hrouted.pool)
  exact connectsTo_of_routed hdistinct hrouted hmem hpeered.loaded

/-- Whatever the balancer and the store have decided, a request connects to an upstream that it is owed, in the way that the
upstream asks for: never in plain text to a secure one, and never under the hostname of another application. -/
theorem peers_connect (hash : AffinityMapKey → UInt64) {options : ProxyOptions} {w₀ : World} (hnew : Proxy.new options = .ok w₀)
    {t : Traffic} (hrun : Reach (Traffic.Steps hash) Traffic.Selects ⟨w₀, fun _ => .new⟩ t) {r : RequestId} {peer : HttpPeer}
    (hphase : (t.requests r).phase = .connect peer) :
    ∃ s session, (t.requests r).loaded = some s ∧ (t.requests r).session = some session ∧
      ConnectsTo w₀.shared.inner.options s session peer := by
  obtain ⟨parsed, hparsed, rfl⟩ := proxy_new hnew
  exact connectsTo_of_connect (distinct_of_parse hparsed) hrun hphase

/-- A request with a peer. -/
theorem peers_connect_sample :
    ∃ t peer, Reach (Traffic.Steps sampleHash) Traffic.Selects ⟨World.new stickyParsed, fun _ => .new⟩ t ∧
      (t.requests 0).phase = .connect peer ∧ ∃ s session, (t.requests 0).loaded = some s ∧
      (t.requests 0).session = some session ∧ ConnectsTo stickyParsed s session peer := by
  obtain ⟨t, hrun, hcheck⟩ := traffic_of_check sampleHash Traffic.Selects (.new stickyParsed)
    (addUpstreams [8080, 8081] ++ [.requestFilter 0 0 clientSession, .lookup 0 1 .stored, .select 0 (some (addrAt 8080)),
      .bind 0 2 .stored])
    (fun t => t.at 0 8080) (by decide +kernel)
  obtain ⟨peer, hphase, -⟩ := connect_of_at hcheck
  exact ⟨t, peer, hrun, hphase, peers_connect sampleHash sticky_new hrun hphase⟩

end NeemataProxy
