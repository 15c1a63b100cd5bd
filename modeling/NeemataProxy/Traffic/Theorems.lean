import NeemataProxy.Traffic.Lemmas.Traced
import NeemataProxy.Traffic.Runs

/-!
# Theorems about requests on a proxy
-/

namespace NeemataProxy

open Lib Routing Options

/-! ## Every peer is one of the pool -/

/-- What `upstream_peer` returns in a run that has come to `t`, and goes on from there. -/
structure PeersSafe (hash : AffinityMapKey → UInt64) (t : Traffic) : Prop where
  /-- A peer is an upstream of the application that the request matched, of its transport, in the configuration that
  `request_filter` loaded. -/
  resolved : ∀ r peer, (t.requests r).phase = .connect peer → ∃ s session, (t.requests r).loaded = some s ∧
    (t.requests r).session = some session ∧ Reaches s session peer.address
  /-- A request that has not arrived yet loads a configuration that is in place from now on, not an older one. -/
  fresh : ∀ r t' s, (t.requests r).phase = .arriving → Reach (Traffic.Steps hash) Traffic.Selects t t' →
    (t'.requests r).loaded = some s → ∃ t₁, Reach (Traffic.Steps hash) Traffic.Selects t t₁ ∧
      Reach (Traffic.Steps hash) Traffic.Selects t₁ t' ∧ s = t₁.world.shared
  /-- A peer that the store decides was given to a request of the same application, transport and affinity key. -/
  separate : ∀ r now ord t' peer, t.step hash (.lookup r now ord) = some t' → (t'.requests r).phase = .connect peer →
    ∃ k r', (t.requests r).key = some k ∧ (t.requests r').key = some k ∧ peer.address ∈ (t.requests r').selected

/-- In every run of calls and requests, every peer is an address of an upstream of the matched application and of the wanted
transport in the configuration that the request has loaded, whatever the store holds. -/
theorem peers_safe (hash : AffinityMapKey → UInt64) {options : ProxyOptions} {w₀ : World} (hnew : Proxy.new options = .ok w₀)
    {t : Traffic} (hrun : Reach (Traffic.Steps hash) Traffic.Selects ⟨w₀, fun _ => .new⟩ t) : PeersSafe hash t := by
  obtain ⟨parsed, hnew⟩ := traffic_new hnew
  rw [hnew] at hrun
  have hsound := (Traffic.Sound.new parsed).reach hrun
  have htraced := (Traffic.Traced.new hash parsed).reach (.new parsed) hrun
  refine ⟨fun r peer hphase => ?_, fun r t' s harriving hrun' hloaded => loaded_of_reach hsound harriving hrun' hloaded,
    fun r now ord t' peer hstep hphase => ?_⟩
  · have hreq := hsound.requests r
    simp only [Request.Sound, hphase] at hreq
    obtain ⟨resolved, hrouted, haddress⟩ := hreq
    exact hrouted.reaches haddress
  · have hreq := hsound.requests r
    simp only [Traffic.step] at hstep
    split at hstep
    · rename_i hbefore
      obtain rfl := Option.some.inj hstep
      simp only [Request.Sound, hbefore] at hreq
      obtain ⟨resolved, hrouted⟩ := hreq
      simp only [Traffic.set, Function.update_self] at hphase
      rcases lookup_cases hash hrouted now ord with hselect | ⟨st, k, e, hsticky, hkey, hentry, -, -, timeouts, hconnect⟩
      · rw [hselect] at hphase
        cases hphase
      · obtain ⟨r', hkey', hselected⟩ := htraced st hsticky k e hentry
        rw [hconnect] at hphase
        obtain rfl := Phase.connect.inj hphase
        exact ⟨k, r', hkey, hkey', hselected⟩
    · cases hstep

/-- A request that has its peer from the balancer, and a second one for which the store decides. -/
theorem peers_safe_sample :
    ∃ t, Reach (Traffic.Steps sampleHash) Traffic.Selects ⟨World.new stickyParsed, fun _ => .new⟩ t ∧
      t.at 0 8080 = true ∧ t.at 1 8080 = true ∧ PeersSafe sampleHash t := by
  obtain ⟨t, hrun, hcheck⟩ := traffic_of_check sampleHash Traffic.Selects (.new stickyParsed)
    (addUpstreams [8080, 8081] ++ [.requestFilter 0 0 clientSession, .requestFilter 1 0 clientSession, .lookup 0 1 .stored,
      .select 0 (some (addrAt 8080)), .bind 0 2 .stored, .lookup 1 3 .stored])
    (fun t => t.at 0 8080 && t.at 1 8080) (by decide +kernel)
  rw [Bool.and_eq_true] at hcheck
  exact ⟨t, hrun, hcheck.1, hcheck.2, peers_safe sampleHash sticky_new hrun⟩

/-! ## Connect failures -/

/-- The step from `t` to `t'` removes no binding to an address other than that of `peer`. -/
def UndoesOnly (hash : AffinityMapKey → UInt64) (peer : HttpPeer) (t t' : Traffic) : Prop :=
  ∀ st k e, t.router.sticky = some st → st.toMap hash k = some e → e.value ≠ peer.address →
    ∃ st', t'.router.sticky = some st' ∧ st'.toMap hash k = some e

/-- The store binds the key of the request to `peer` or to nothing. -/
def BoundTo (hash : AffinityMapKey → UInt64) (t : Traffic) (r : RequestId) (peer : HttpPeer) : Prop :=
  ∀ a, t.binding hash r = some a → a = peer.address

/-- A connect failure undoes only the binding to its own peer exactly when the store binds the key to that peer, or to nothing,
at that time. -/
theorem failToConnect_undoesOnly_iff (hash : AffinityMapKey → UInt64) {options : ProxyOptions} {w₀ : World}
    (hnew : Proxy.new options = .ok w₀) {t t' : Traffic}
    (hrun : Reach (Traffic.Steps hash) Traffic.Selects ⟨w₀, fun _ => .new⟩ t) {r : RequestId} {peer : HttpPeer} {e : Error}
    (hphase : (t.requests r).phase = .connect peer) (hstep : t.step hash (.failToConnect r e) = some t') :
    UndoesOnly hash peer t t' ↔ BoundTo hash t r peer := by
  obtain ⟨parsed, hnew⟩ := traffic_new hnew
  rw [hnew] at hrun
  have hstore := ((Traffic.Sound.new parsed).reach hrun).storeStep hstep
  generalize hbefore : t.router.sticky = before at hstore
  generalize hafter : t'.router.sticky = after at hstore
  generalize hcall : t.storeCall (.failToConnect r e) = call at hstore
  simp only [UndoesOnly, BoundTo, binding_eq_some]
  rw [hbefore, hafter]
  cases hstore with
  | disabled =>
      constructor
      · rintro - a ⟨st, k, entry, hst, -⟩
        cases hst
      · intro _ st k entry hst
        cases hst
  | @kept st st' hshards hconfig =>
      have hkey : (t.requests r).key = none := Option.map_eq_none_iff.mp hcall
      constructor
      · rintro - a ⟨st₀, k, entry, -, hsome, -⟩
        rw [hkey] at hsome
        cases hsome
      · intro _ st₀ k entry hst hentry _
        refine ⟨st', rfl, ?_⟩
        obtain rfl := Option.some.inj hst
        rw [toMap_of_shards hash hshards]
        exact hentry
  | called st c =>
      obtain ⟨k, hkey, rfl⟩ := Option.map_eq_some_iff.mp hcall
      have hmap := exec_remove hash st 0 .stored k
      constructor
      · rintro honly a ⟨st₀, k', entry, hst, hkey', hentry, rfl⟩
        obtain rfl := Option.some.inj hst
        obtain rfl := Option.some.inj (hkey.symm.trans hkey')
        by_contra hne
        obtain ⟨st', hst', hkept⟩ := honly st k entry rfl hentry hne
        obtain rfl := Option.some.inj hst'
        rw [hmap] at hkept
        simp [TtlMap.exec, TtlMap.Op.key, TtlMap.Op.onEntry] at hkept
      · intro hbound st₀ k' entry hst hentry hne
        obtain rfl := Option.some.inj hst
        refine ⟨_, rfl, ?_⟩
        have hother : k' ≠ k := fun heq => hne (hbound _ ⟨st, k', entry, rfl, heq ▸ hkey, hentry, rfl⟩)
        rw [hmap]
        exact (Function.update_of_ne hother _ _).trans hentry

def connectRefused : Error := .explain .other (Str.lit "connection refused")

/-- Two requests with one key get the same peer. -/
def sharedPeerRun : List TrafficLabel :=
  addUpstreams [8080, 8081] ++ [.requestFilter 0 0 clientSession, .requestFilter 1 0 clientSession, .lookup 0 1 .stored,
    .select 0 (some (addrAt 8080)), .bind 0 2 .stored, .lookup 1 3 .stored]

/-- The first failure undoes the binding to the peer that failed. -/
theorem failToConnect_undoesOnly_sample :
    ∃ t t' peer, Reach (Traffic.Steps sampleHash) Traffic.Selects ⟨World.new stickyParsed, fun _ => .new⟩ t ∧
      (t.requests 1).phase = .connect peer ∧ t.step sampleHash (.failToConnect 1 connectRefused) = some t' ∧
      UndoesOnly sampleHash peer t t' := by
  obtain ⟨t, hrun, hcheck⟩ := traffic_of_check sampleHash Traffic.Selects (.new stickyParsed) sharedPeerRun
    (fun t => t.at 1 8080 && t.binding sampleHash 1 == some (addrAt 8080).toStr &&
      (t.step sampleHash (.failToConnect 1 connectRefused)).isSome) (by decide +kernel)
  simp only [Bool.and_eq_true, beq_iff_eq] at hcheck
  obtain ⟨⟨hat, hbinding⟩, hstep⟩ := hcheck
  obtain ⟨peer, hphase, hpeer⟩ := connect_of_at hat
  obtain ⟨t', hstep⟩ := Option.isSome_iff_exists.mp hstep
  refine ⟨t, t', peer, hrun, hphase, hstep, (failToConnect_undoesOnly_iff sampleHash sticky_new hrun hphase hstep).mpr ?_⟩
  intro a ha
  exact (Option.some.inj (hbinding.symm.trans ha)).symm.trans hpeer.symm

/-- The second request fails to connect, asks again and is bound to the other upstream; then the first one fails, and the new
binding is gone. -/
theorem failToConnect_removes_other :
    ∃ t t' peer, Proxy.new stickyOptions = .ok (World.new stickyParsed) ∧
      Reach (Traffic.Steps sampleHash) Traffic.Selects ⟨World.new stickyParsed, fun _ => .new⟩ t ∧
      (t.requests 0).phase = .connect peer ∧ t.step sampleHash (.failToConnect 0 connectRefused) = some t' ∧
      ¬ UndoesOnly sampleHash peer t t' := by
  obtain ⟨t, hrun, hcheck⟩ := traffic_of_check sampleHash Traffic.Selects (.new stickyParsed)
    (sharedPeerRun ++ [.failToConnect 1 connectRefused, .lookup 1 4 .stored, .select 1 (some (addrAt 8081)), .bind 1 5 .stored])
    (fun t => t.at 0 8080 && t.at 1 8081 && t.binding sampleHash 0 == some (addrAt 8081).toStr &&
      (t.step sampleHash (.failToConnect 0 connectRefused)).any fun t' =>
        (t'.requests 0).key == (t.requests 0).key && t'.binding sampleHash 0 == none) (by decide +kernel)
  simp only [Bool.and_eq_true, beq_iff_eq] at hcheck
  obtain ⟨⟨⟨hat, -⟩, hbinding⟩, hany⟩ := hcheck
  obtain ⟨peer, hphase, hpeer⟩ := connect_of_at hat
  obtain ⟨t', hstep, hafter⟩ := (Option.any_eq_true _ _).mp hany
  simp only [Bool.and_eq_true, beq_iff_eq] at hafter
  refine ⟨t, t', peer, sticky_new, hrun, hphase, hstep, fun honly => ?_⟩
  obtain ⟨st, k, e, hsticky, hkey, hentry, hvalue⟩ := binding_eq_some.mp hbinding
  have hne : e.value ≠ peer.address := by
    rw [hvalue, hpeer]
    decide
  obtain ⟨st', hsticky', hentry'⟩ := honly st k e hsticky hentry hne
  have hsome := binding_eq_some.mpr ⟨st', k, e, hsticky', hafter.1.trans hkey, hentry', rfl⟩
  rw [hafter.2] at hsome
  cases hsome

end NeemataProxy
