import NeemataProxy.Traffic.Lemmas.Sound
import NeemataProxy.Traffic.Runs

/-!
# Sessions

A run together with the calls that it makes on the affinity store. Once a key has been given an address, the store leases the
address to it, as long as the run is steady and no request binds the key over the binding of another.
-/

namespace NeemataProxy

open Lib Routing Options

/-- Traffic, and the calls on the store so far. -/
structure Watched where
  traffic : Traffic
  calls : List StoreCall

def Watched.step (hash : AffinityMapKey → UInt64) (w : Watched) (l : TrafficLabel) : Option Watched :=
  (w.traffic.step hash l).map fun t => ⟨t, w.calls ++ (w.traffic.storeCall l).toList⟩

def Watched.Steps (hash : AffinityMapKey → UInt64) (w : Watched) (l : TrafficLabel) (w' : Watched) : Prop :=
  w.step hash l = some w'

/-- The latest clock reading. -/
def clockOf (calls : List StoreCall) : Nat := (calls.map StoreCall.now).foldr max 0

/-- The time of the last use of a key. -/
def lastUse (k : AffinityMapKey) (calls : List StoreCall) : Option Nat :=
  (calls.filter fun c => c.op.key = k).getLast?.map StoreCall.now

/-- A call on the store that keeps a session of `k` on `b` going. -/
structure Keeps (hash : AffinityMapKey → UInt64) (k : AffinityMapKey) (b : Str) (st : StickySessionState stickyShardCount)
    (calls : List StoreCall) (c : StoreCall) : Prop where
  /-- No capacity eviction happens. -/
  fits : st.CleanupFits hash c
  clock : c.op ≠ .remove c.op.key → clockOf calls ≤ c.now
  /-- The configuration that the request has loaded has `b` in its pool. -/
  allowed : ∀ allowed, c.op = .lookup k allowed → b ∈ allowed
  /-- No connect failure happens for `k`. -/
  connects : c.op ≠ .remove k
  /-- No gap between uses of `k` reaches the TTL. -/
  noGap : c.op.key = k → ∀ u ∈ lastUse k calls, c.now < u + st.config.ttl

instance (hash : AffinityMapKey → UInt64) (k : AffinityMapKey) (b : Str) (st : StickySessionState stickyShardCount)
    (calls : List StoreCall) (c : StoreCall) : Decidable (Keeps hash k b st calls c) :=
  decidable_of_iff (st.CleanupFits hash c ∧ (c.op ≠ .remove c.op.key → clockOf calls ≤ c.now) ∧
      (∀ allowed, c.op = .lookup k allowed → b ∈ allowed) ∧ c.op ≠ .remove k ∧
      (c.op.key = k → ∀ u ∈ lastUse k calls, c.now < u + st.config.ttl))
    ⟨fun h => ⟨h.1, h.2.1, h.2.2.1, h.2.2.2.1, h.2.2.2.2⟩, fun h => ⟨h.fits, h.clock, h.allowed, h.connects, h.noGap⟩⟩

def Steady (hash : AffinityMapKey → UInt64) (k : AffinityMapKey) (b : Str) (w : Watched) (l : TrafficLabel) : Prop :=
  w.traffic.Selects l ∧ ∀ st ∈ w.traffic.router.sticky, ∀ c ∈ w.traffic.storeCall l, Keeps hash k b st w.calls c

instance (hash : AffinityMapKey → UInt64) (k : AffinityMapKey) (b : Str) (w : Watched) (l : TrafficLabel) :
    Decidable (Steady hash k b w l) := inferInstanceAs (Decidable (_ ∧ _))

/-- A request does not bind `k` while the store binds it to another address. -/
def Undisputed (hash : AffinityMapKey → UInt64) (k : AffinityMapKey) (w : Watched) (l : TrafficLabel) : Prop :=
  ∀ st ∈ w.traffic.router.sticky, ∀ c ∈ w.traffic.storeCall l, ∀ v, c.op = .bind k v →
    ∀ e ∈ st.toMap hash k, c.now < e.expiresAt → e.value = v

instance (hash : AffinityMapKey → UInt64) (k : AffinityMapKey) (w : Watched) (l : TrafficLabel) :
    Decidable (Undisputed hash k w l) :=
  inferInstanceAs (Decidable (∀ st ∈ w.traffic.router.sticky, ∀ c ∈ w.traffic.storeCall l, ∀ v, c.op = .bind k v →
    ∀ e ∈ st.toMap hash k, c.now < e.expiresAt → e.value = v))

/-- `upstream_peer` gives request `r` its peer. -/
structure Assigns (hash : AffinityMapKey → UInt64) (w : Watched) (l : TrafficLabel) (w' : Watched) (r : RequestId)
    (peer : HttpPeer) : Prop where
  step : Watched.Steps hash w l w'
  call : (∃ now ord, l = .lookup r now ord) ∨ ∃ now ord, l = .bind r now ord
  phase : (w'.traffic.requests r).phase = .connect peer

/-! ## The session is leased -/

theorem clockOf_append (calls : List StoreCall) (c : StoreCall) : clockOf (calls ++ [c]) = max (clockOf calls) c.now := by
  induction calls with
  | nil => simp [clockOf]
  | cons d calls ih =>
      simp only [clockOf, List.cons_append, List.map_cons, List.foldr_cons] at ih ⊢
      rw [ih, max_assoc]

theorem lastUse_append (k : AffinityMapKey) (calls : List StoreCall) (c : StoreCall) :
    lastUse k (calls ++ [c]) = if c.op.key = k then some c.now else lastUse k calls := by
  unfold lastUse
  rw [List.filter_append]
  by_cases h : c.op.key = k <;> simp [h]

/-- The store leases `b` to `k` since its last use. -/
def Held (hash : AffinityMapKey → UInt64) (k : AffinityMapKey) (b : Str) (w : Watched) : Prop :=
  ∃ st u, w.traffic.router.sticky = some st ∧ lastUse k w.calls = some u ∧
    TtlMap.Leased k b (u + st.config.ttl) (clockOf w.calls) (st.toMap hash)

section Run

variable {parsed : ProxyOptionsParsed} {hash : AffinityMapKey → UInt64} {k : AffinityMapKey} {b : Str} {w w' : Watched}
  {l : TrafficLabel}

theorem held_of_touch {st : StickySessionState stickyShardCount} {c : StoreCall} (hkeeps : Keeps hash k b st w.calls c)
    (hafter : w'.traffic.router.sticky = some (st.exec hash c).1) (hcalls : w'.calls = w.calls ++ [c])
    (htouch : c.op = .bind k b ∨ (∃ allowed, c.op = .lookup k allowed) ∧ (st.exec hash c).2 = some b) : Held hash k b w' := by
  have hkey : c.op.key = k := by
    rcases htouch with h | ⟨⟨allowed, h⟩, -⟩
    · rw [h]; rfl
    · rw [h]; rfl
  have hclock : clockOf w.calls ≤ c.now := by
    apply hkeeps.clock
    rcases htouch with h | ⟨⟨allowed, h⟩, -⟩
    · rw [h]; exact nofun
    · rw [h]; exact nofun
  refine ⟨_, c.now, hafter, ?_, ?_⟩
  · rw [hcalls, lastUse_append, if_pos hkey]
  · rw [hcalls, clockOf_append, Nat.max_eq_right hclock, StickySessionState.config_exec]
    exact .of_touch (exec_fitting hash hkeeps.fits) htouch

theorem held_of_other {st : StickySessionState stickyShardCount} {c : StoreCall} {u : Nat} (hkeeps : Keeps hash k b st w.calls c)
    (hafter : w'.traffic.router.sticky = some (st.exec hash c).1) (hcalls : w'.calls = w.calls ++ [c])
    (hlast : lastUse k w.calls = some u)
    (hleased : TtlMap.Leased k b (u + st.config.ttl) (clockOf w.calls) (st.toMap hash)) (hkey : c.op.key ≠ k) :
    Held hash k b w' := by
  refine ⟨_, u, hafter, ?_, ?_⟩
  · rw [hcalls, lastUse_append, if_neg hkey]
    exact hlast
  · rw [hcalls, clockOf_append, StickySessionState.config_exec]
    cases hop : c.op with
    | lookup | bind =>
        have hclock := hkeeps.clock (by rw [hop]; exact nofun)
        rw [Nat.max_eq_right hclock]
        exact hleased.other (exec_fitting hash hkeeps.fits) hclock hkey
    | remove k' =>
        -- a removal reads no clock
        have hmap : (st.exec hash c).1.toMap hash k = st.toMap hash k := by
          obtain ⟨now, ord, op⟩ := c
          obtain rfl : op = .remove k' := hop
          rw [exec_remove]
          exact Function.update_of_ne (Ne.symm hkey) _ _
        have hleased' := hleased.mono (Nat.le_max_left (clockOf w.calls) c.now)
        unfold TtlMap.Leased at hleased' ⊢
        rw [hmap]
        exact hleased'

/-- A use of the key, before the gap reaches the TTL, finds the lease. -/
theorem leased_of_use {st : StickySessionState stickyShardCount} {c : StoreCall} {u : Nat} (hkeeps : Keeps hash k b st w.calls c)
    (hlast : lastUse k w.calls = some u)
    (hleased : TtlMap.Leased k b (u + st.config.ttl) (clockOf w.calls) (st.toMap hash)) (hkey : c.op.key = k)
    (hremove : c.op ≠ .remove c.op.key) :
    c.now < u + st.config.ttl ∧ st.toMap hash k = some ⟨b, u + st.config.ttl⟩ := by
  have hnow := hkeeps.noGap hkey u hlast
  have hclock := hkeeps.clock hremove
  rcases hleased with h | h
  · exact ⟨hnow, h⟩
  · omega

theorem Held.step (h : Held hash k b w) (hsound : w.traffic.Sound parsed) (hsteady : Steady hash k b w l)
    (hundisputed : Undisputed hash k w l) (hstep : Watched.Steps hash w l w') : Held hash k b w' := by
  obtain ⟨t', ht', rfl⟩ := Option.map_eq_some_iff.mp hstep
  obtain ⟨st, u, hsticky, hlast, hleased⟩ := h
  have hstore := hsound.storeStep ht'
  have hkeeps := hsteady.2 st
  have hbind := hundisputed st
  generalize hcall : w.traffic.storeCall l = call at hstore hkeeps hbind ⊢
  generalize hafter : t'.router.sticky = after at hstore
  rw [hsticky] at hstore hkeeps hbind
  cases hstore with
  | @kept _ st' hshards hconfig =>
      rw [Option.toList_none, List.append_nil]
      refine ⟨st', u, hafter, hlast, ?_⟩
      rw [toMap_of_shards hash hshards, hconfig]
      exact hleased
  | called _ c =>
      have hkeeps := hkeeps rfl c rfl
      by_cases hkey : c.op.key = k
      · cases hop : c.op with
        | lookup k' allowed =>
            obtain rfl : k' = k := by rw [← hkey, hop]; rfl
            have hremove : c.op ≠ .remove c.op.key := by rw [hop]; exact nofun
            obtain ⟨hnow, -⟩ := leased_of_use hkeeps hlast hleased hkey hremove
            have hfitting := exec_fitting hash hkeeps.fits
            rw [hop] at hfitting
            have hanswer := hleased.hit hfitting (hkeeps.clock hremove) hnow (hkeeps.allowed allowed hop)
            exact held_of_touch hkeeps hafter rfl (.inr ⟨⟨allowed, hop⟩, hanswer⟩)
        | bind k' v =>
            obtain rfl : k' = k := by rw [← hkey, hop]; rfl
            have hremove : c.op ≠ .remove c.op.key := by rw [hop]; exact nofun
            obtain ⟨hnow, hentry⟩ := leased_of_use hkeeps hlast hleased hkey hremove
            obtain rfl : b = v := hbind rfl c rfl v hop _ hentry hnow
            exact held_of_touch hkeeps hafter rfl (.inl hop)
        | remove k' =>
            obtain rfl : k' = k := by rw [← hkey, hop]; rfl
            exact absurd hop hkeeps.connects
      · exact held_of_other hkeeps hafter rfl hlast hleased hkey

/-! ## Assignments -/

theorem storeStep_after {st : StickySessionState stickyShardCount} {c : StoreCall}
    {after : Option (StickySessionState stickyShardCount)} (h : StoreStep hash (some c) (some st) after) :
    after = some (st.exec hash c).1 := by
  cases h with
  | called => rfl

/-- The call of a lookup that answers, or of a binding. -/
def Decides (hash : AffinityMapKey → UInt64) (k : AffinityMapKey) (b : Str) (st : StickySessionState stickyShardCount)
    (c : StoreCall) : Prop :=
  c.op = .bind k b ∨ (∃ allowed, c.op = .lookup k allowed) ∧ (st.exec hash c).2 = some b ∧
    ∃ e, st.toMap hash k = some e ∧ e.value = b

/-- `upstream_peer` gives a peer by finding its address for the key, or by binding it. -/
theorem decides_of_assigns {r : RequestId} {peer : HttpPeer} (h : Assigns hash w l w' r peer)
    (hsound : w.traffic.Sound parsed) (hkeyed : w.traffic.Keyed) (hkey : (w.traffic.requests r).key = some k) :
    ∃ st c, w.traffic.router.sticky = some st ∧ w.traffic.storeCall l = some c ∧
      w'.traffic.router.sticky = some (st.exec hash c).1 ∧ w'.calls = w.calls ++ [c] ∧
      Decides hash k peer.address st c := by
  obtain ⟨t', ht', rfl⟩ := Option.map_eq_some_iff.mp h.step
  obtain ⟨st, hsticky⟩ := hkeyed r k hkey
  have hstore := hsound.storeStep ht'
  have hphase := h.phase
  have hreq := hsound.requests r
  suffices hsuff : ∃ c, w.traffic.storeCall l = some c ∧ Decides hash k peer.address st c by
    obtain ⟨c, hcall, hdecides⟩ := hsuff
    rw [hsticky, hcall] at hstore
    exact ⟨st, c, hsticky, hcall, storeStep_after hstore, by rw [hcall]; rfl, hdecides⟩
  rcases h.call with ⟨now, ord, rfl⟩ | ⟨now, ord, rfl⟩
  · simp only [Traffic.step] at ht'
    split at ht'
    · rename_i hbefore
      simp only [Request.Sound, hbefore] at hreq
      obtain ⟨resolved, hrouted⟩ := hreq
      obtain rfl := Option.some.inj ht'
      simp only [Traffic.set, Function.update_self] at hphase
      refine ⟨⟨now, ord, .lookup k resolved.backends⟩, by simp only [Traffic.storeCall, hkey, hrouted.pool], ?_⟩
      rcases lookup_cases hash hrouted now ord with
        hselect | ⟨st', k', e, hsticky', hkey', hentry, -, hanswer, timeouts, hconnect⟩
      · rw [hselect] at hphase
        cases hphase
      · obtain rfl := Option.some.inj (hsticky.symm.trans hsticky')
        obtain rfl := Option.some.inj (hkey.symm.trans hkey')
        rw [hconnect] at hphase
        obtain rfl := Phase.connect.inj hphase
        exact .inr ⟨⟨_, rfl⟩, hanswer, e, hentry, rfl⟩
    · cases ht'
  · simp only [Traffic.step] at ht'
    split at ht'
    · rename_i resolved selected hbefore
      obtain rfl := Option.some.inj ht'
      simp only [Traffic.set, Function.update_self] at hphase
      refine ⟨⟨now, ord, .bind k selected⟩, by simp only [Traffic.storeCall, hkey, hbefore], ?_⟩
      obtain rfl := Phase.connect.inj hphase
      exact .inl rfl
    · cases ht'

theorem reach_traffic {allow : Watched → TrafficLabel → Prop} (hallow : ∀ w l, allow w l → w.traffic.Selects l)
    (h : Reach (Watched.Steps hash) allow w w') : Reach (Traffic.Steps hash) Traffic.Selects w.traffic w'.traffic := by
  induction h with
  | refl => exact .refl
  | tail _ ha hstep ih =>
      obtain ⟨t', ht', rfl⟩ := Option.map_eq_some_iff.mp hstep
      exact ih.tail (hallow _ _ ha) ht'

theorem Held.reach (h : Held hash k b w) (hsound : w.traffic.Sound parsed)
    (hrun : Reach (Watched.Steps hash) (fun w l => Steady hash k b w l ∧ Undisputed hash k w l) w w') :
    w'.traffic.Sound parsed ∧ Held hash k b w' := by
  induction hrun with
  | refl => exact ⟨hsound, h⟩
  | tail _ hallow hstep ih =>
      obtain ⟨t', ht', hw'⟩ := Option.map_eq_some_iff.mp hstep
      refine ⟨?_, ih.2.step ih.1 hallow.1 hallow.2 hstep⟩
      rw [← hw']
      exact ih.1.step hallow.1.1 ht'

/-- A request with the key is given the address that is leased to it. -/
theorem assigned_of_held {r : RequestId} {peer : HttpPeer} (h : Held hash k b w) (hsound : w.traffic.Sound parsed)
    (hkeyed : w.traffic.Keyed) (hsteady : Steady hash k b w l) (hundisputed : Undisputed hash k w l)
    (hassigns : Assigns hash w l w' r peer) (hkey : (w.traffic.requests r).key = some k) : peer.address = b := by
  obtain ⟨st, u, hsticky, hlast, hleased⟩ := h
  obtain ⟨st', c, hsticky', hcall, -, -, hdecides⟩ := decides_of_assigns hassigns hsound hkeyed hkey
  obtain rfl := Option.some.inj (hsticky.symm.trans hsticky')
  have hkeeps := hsteady.2 st hsticky c hcall
  rcases hdecides with hop | ⟨⟨allowed, hop⟩, -, e, hentry, hvalue⟩
  · have huse := leased_of_use hkeeps hlast hleased (by rw [hop]; rfl) (by rw [hop]; exact nofun)
    exact (hundisputed st hsticky c hcall _ hop _ huse.2 huse.1).symm
  · have huse := leased_of_use hkeeps hlast hleased (by rw [hop]; rfl) (by rw [hop]; exact nofun)
    obtain rfl := Option.some.inj (huse.2.symm.trans hentry)
    exact hvalue.symm

end Run

/-! ## Sessions are stable -/

def Watched.Selects (w : Watched) (l : TrafficLabel) : Prop := w.traffic.Selects l

instance (w : Watched) (l : TrafficLabel) : Decidable (w.Selects l) := inferInstanceAs (Decidable (w.traffic.Selects l))

def Watched.new (w₀ : World) : Watched := ⟨⟨w₀, fun _ => .new⟩, []⟩

/-- The key of the sample request. -/
def clientKey : AffinityMapKey := ⟨Str.lit "app", .http1, Str.lit "client"⟩

/-- Both find nothing in the store and go on to the balancer. -/
def concurrentRun : List TrafficLabel :=
  [.requestFilter 0 0 clientSession, .requestFilter 1 0 clientSession, .lookup 0 1 .stored, .lookup 1 1 .stored,
    .select 0 (some (addrAt 8080)), .select 1 (some (addrAt 8081))]

theorem watched_of_check (allow : Watched → TrafficLabel → Prop) [∀ w l, Decidable (allow w l)] (w : Watched)
    (ls : List TrafficLabel) (check : Watched → Bool)
    (h : (runAllowed (Watched.step sampleHash) allow w ls).any check = true) :
    ∃ w', Reach (Watched.Steps sampleHash) allow w w' ∧ check w' = true := Reach.exists_of_any h

theorem assigns_of_at {w w' : Watched} {l : TrafficLabel} {r : RequestId} {port : Nat}
    (hstep : Watched.Steps sampleHash w l w') (hcall : (∃ now ord, l = .lookup r now ord) ∨ ∃ now ord, l = .bind r now ord)
    (h : w'.traffic.at r port = true) :
    ∃ peer, Assigns sampleHash w l w' r peer ∧ peer.address = (addrAt port).toStr := by
  obtain ⟨peer, hphase, haddress⟩ := connect_of_at h
  exact ⟨peer, ⟨hstep, hcall, hphase⟩, haddress⟩

end NeemataProxy
