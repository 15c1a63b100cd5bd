import NeemataProxy.Router.Lemmas.Store
import NeemataProxy.Traffic.Lemmas.Requests

/-!
# What requests do to the affinity store
-/

namespace NeemataProxy

open Lib Routing Options

/-! ## The calls of a request -/

/-- The key under which a request is stored. -/
def Request.key (req : Request) : Option AffinityMapKey :=
  match req.ctx.appName, req.ctx.resolvedPool, req.ctx.affinityKey with
  | some appName, some resolved, some affinityKey => some ⟨appName, resolved.transport, affinityKey⟩
  | _, _, _ => none

theorem Request.Extends.key {req req' : Request} (h : req.Extends req') : req'.key = req.key := by
  simp only [Request.key, h.appName, h.resolvedPool, h.affinityKey]

/-- The address that the store binds the key of a request to. -/
def Traffic.binding (hash : AffinityMapKey → UInt64) (t : Traffic) (r : RequestId) : Option Str :=
  t.router.sticky.bind fun st => (t.requests r).key.bind fun k => (st.toMap hash k).map Stamped.value

theorem binding_eq_some {hash : AffinityMapKey → UInt64} {t : Traffic} {r : RequestId} {a : Str} :
    t.binding hash r = some a ↔ ∃ st k e, t.router.sticky = some st ∧ (t.requests r).key = some k ∧
      st.toMap hash k = some e ∧ e.value = a := by
  simp [Traffic.binding, Option.bind_eq_some_iff]

/-- The call that a step makes on the store, when there is one. -/
def Traffic.storeCall (t : Traffic) : TrafficLabel → Option StoreCall
  | .lookup r now ord =>
      match (t.requests r).key, (t.requests r).ctx.resolvedPool with
      | some k, some resolved => some ⟨now, ord, .lookup k resolved.backends⟩
      | _, _ => none
  | .bind r now ord =>
      match (t.requests r).key, (t.requests r).phase with
      | some k, .bind _ selected => some ⟨now, ord, .bind k selected⟩
      | _, _ => none
  | .failToConnect r _ => (t.requests r).key.map fun k => ⟨0, .stored, .remove k⟩
  | _ => none

/-- The store before and after a step that makes this call on it. -/
inductive StoreStep (hash : AffinityMapKey → UInt64) :
    Option StoreCall → Option (StickySessionState stickyShardCount) → Option (StickySessionState stickyShardCount) → Prop where
  | disabled (call : Option StoreCall) : StoreStep hash call none none
  | kept {st st' : StickySessionState stickyShardCount} (hshards : st'.shards = st.shards) (hconfig : st'.config = st.config) :
      StoreStep hash none (some st) (some st')
  | called (st : StickySessionState stickyShardCount) (c : StoreCall) :
      StoreStep hash (some c) (some st) (some (st.exec hash c).1)

section Steps

variable {hash : AffinityMapKey → UInt64} {t t' : Traffic} {r : RequestId} {l : TrafficLabel} {router : Router} {req : Request}

theorem StoreStep.refl (o : Option (StickySessionState stickyShardCount)) : StoreStep hash none o o := by
  cases o with
  | none => exact .disabled none
  | some st => exact .kept rfl rfl

theorem key_of_routed {parsed : ProxyOptionsParsed} {resolved : ResolvedPool} (h : req.Routed parsed resolved) :
    req.key = req.ctx.affinityKey.bind fun affinityKey =>
      req.ctx.appName.map fun appName => ⟨appName, resolved.transport, affinityKey⟩ := by
  unfold Request.key
  rw [h.pool]
  cases req.ctx.appName <;> cases req.ctx.affinityKey <;> rfl

/-- The store that is asked for a request is asked for its key. -/
theorem stickyTarget_of_routed {parsed : ProxyOptionsParsed} {resolved : ResolvedPool} (h : req.Routed parsed resolved)
    (router : Router) : (router.sticky = none ∧ stickyTarget router req.ctx = none) ∨
      (req.key = none ∧ stickyTarget router req.ctx = none) ∨
      ∃ st appName affinityKey, router.sticky = some st ∧ req.key = some ⟨appName, resolved.transport, affinityKey⟩ ∧
        stickyTarget router req.ctx = some (st, appName, affinityKey) := by
  rw [key_of_routed h]
  unfold stickyTarget
  cases router.sticky with
  | none => exact .inl ⟨rfl, rfl⟩
  | some st =>
      cases req.ctx.appName with
      | none => cases req.ctx.affinityKey <;> exact .inr (.inl ⟨rfl, rfl⟩)
      | some appName =>
          cases req.ctx.affinityKey with
          | none => exact .inr (.inl ⟨rfl, rfl⟩)
          | some affinityKey => exact .inr (.inr ⟨st, appName, affinityKey, rfl, rfl, rfl⟩)

/-- Where a lookup leads: to the balancer, or to the address of an entry that the store holds for the key. -/
theorem lookup_cases (hash : AffinityMapKey → UInt64) {parsed : ProxyOptionsParsed} {resolved : ResolvedPool}
    (h : (t.requests r).Routed parsed resolved) (now : Nat) (ord : IterOrder (AffinityMapKey × AffinityEntry)) :
    (t.lookupStep hash (t.requests r) now ord).2.phase = .select resolved ∨
      ∃ st k e, t.router.sticky = some st ∧ (t.requests r).key = some k ∧ st.toMap hash k = some e ∧
        TtlMap.Hit now resolved.backends e ∧
        (st.exec hash ⟨now, ord, .lookup k resolved.backends⟩).2 = some e.value ∧ ∃ timeouts,
        (t.lookupStep hash (t.requests r) now ord).2.phase = .connect (peerFor resolved timeouts e.value) := by
  simp only [Traffic.lookupStep, upstreamPeerLookup, h.pool]
  rcases stickyTarget_of_routed h t.router with ⟨-, htarget⟩ | ⟨-, htarget⟩ | ⟨st, app, key, hsticky, hkey, htarget⟩
  · exact .inl (by simp only [htarget])
  · exact .inl (by simp only [htarget])
  · simp only [htarget]
    cases hanswer : (st.lookup hash ord now app resolved.transport key resolved.backends).2 with
    | none => exact .inl rfl
    | some mapped =>
        obtain ⟨-, hout⟩ := exec_lookup hash st now ord ⟨app, resolved.transport, key⟩ resolved.backends
        obtain ⟨e, he, rfl, hhit⟩ := TtlMap.exec_lookup_eq_some (hout.symm.trans hanswer)
        exact .inr ⟨st, _, e, hsticky, hkey, maybeCleanup_sub hash ord now _ st _ _ he, hhit, hanswer, _, rfl⟩

/-! ## The store -/

theorem storeStep_lookup {parsed : ProxyOptionsParsed} {resolved : ResolvedPool}
    (h : (t.requests r).Routed parsed resolved) (now : Nat) (ord : IterOrder (AffinityMapKey × AffinityEntry)) :
    StoreStep hash (t.storeCall (.lookup r now ord)) t.router.sticky
      (t.lookupStep hash (t.requests r) now ord).1.sticky := by
  simp only [Traffic.storeCall, Traffic.lookupStep, upstreamPeerLookup, h.pool]
  rcases stickyTarget_of_routed h t.router with ⟨hsticky, htarget⟩ | ⟨hkey, htarget⟩ | ⟨st, app, key, hsticky, hkey, htarget⟩
  · simp only [htarget, hsticky]; exact .disabled _
  · simp only [htarget, hkey]; exact .refl _
  · simp only [htarget, hkey, hsticky]
    exact .called st ⟨now, ord, .lookup ⟨app, resolved.transport, key⟩ resolved.backends⟩

theorem storeStep_bind {parsed : ProxyOptionsParsed} {resolved : ResolvedPool} {selected : Str}
    (h : (t.requests r).Routed parsed resolved) (hphase : (t.requests r).phase = .bind resolved selected) (now : Nat)
    (ord : IterOrder (AffinityMapKey × AffinityEntry)) :
    StoreStep hash (t.storeCall (.bind r now ord)) t.router.sticky
      (t.bindStep hash (t.requests r) now ord resolved selected).1.sticky := by
  simp only [Traffic.storeCall, Traffic.bindStep, upstreamPeerBind, hphase]
  rcases stickyTarget_of_routed h t.router with ⟨hsticky, htarget⟩ | ⟨hkey, htarget⟩ | ⟨st, app, key, hsticky, hkey, htarget⟩
  · simp only [htarget, hsticky]; exact .disabled _
  · simp only [htarget, hkey]; exact .refl _
  · simp only [htarget, hkey, hsticky]
    exact .called st ⟨now, ord, .bind ⟨app, resolved.transport, key⟩ selected⟩

theorem storeStep_fail {parsed : ProxyOptionsParsed} {resolved : ResolvedPool}
    (h : (t.requests r).Routed parsed resolved) (e : Error) :
    StoreStep hash (t.storeCall (.failToConnect r e)) t.router.sticky (t.failStep hash (t.requests r) e).1.sticky := by
  simp only [Traffic.storeCall, Traffic.failStep, failToConnect, h.transport]
  rcases stickyTarget_of_routed h t.router with ⟨hsticky, htarget⟩ | ⟨hkey, htarget⟩ | ⟨st, app, key, hsticky, hkey, htarget⟩
  · simp only [htarget, hsticky]; exact .disabled _
  · simp only [htarget, hkey]; exact .refl _
  · simp only [htarget, hkey, hsticky, Option.map_some]
    split <;> exact .called st ⟨0, .stored, .remove ⟨app, resolved.transport, key⟩⟩

/-- `request_filter` makes at most a new key. -/
theorem storeStep_filter (t : Traffic) (now : Nat) (session : Session) :
    StoreStep hash none t.router.sticky (t.filterStep now session).1.sticky := by
  rcases requestFilter_cases (Prod.eta (requestFilter now t.router session .default)).symm with
    ⟨hrouter, -⟩ | ⟨host, route, -, -, hrouter, -⟩
  · simp only [Traffic.filterStep, hrouter]
    exact .refl _
  · simp only [Traffic.filterStep, hrouter, assigned, assignAffinity]
    split
    · rename_i st _ _ hsticky _ _
      rw [hsticky]
      split <;> exact .kept rfl rfl
    · exact .refl _

end Steps

end NeemataProxy
