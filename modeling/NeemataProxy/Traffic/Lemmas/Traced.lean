import NeemataProxy.Traffic.Lemmas.Sound

/-!
# Who has made an entry

Every entry of the store goes back to a request with its key, and every configuration that a request has loaded to a state
of the proxy in which the request was filtered.
-/

namespace NeemataProxy

open Lib Routing Options

variable {parsed : ProxyOptionsParsed} {hash : AffinityMapKey → UInt64} {t t' : Traffic} {r : RequestId} {l : TrafficLabel}


/-- Every entry of the store has been bound by a request with its key, to an address that the balancer of the request gave. -/
def Traffic.Traced (hash : AffinityMapKey → UInt64) (t : Traffic) : Prop :=
  ∀ st, t.router.sticky = some st → ∀ k e, st.toMap hash k = some e →
    ∃ r, (t.requests r).key = some k ∧ e.value ∈ (t.requests r).selected

theorem extends_step (hstep : t.step hash l = some t') (r : RequestId) :
    (t.requests r).phase = .arriving ∨ (t.requests r).Extends (t'.requests r) := by
  rcases Traffic.step_cases hash hstep with ⟨pl, w, -, -, rfl⟩ | ⟨r', router, req, hact, rfl⟩
  · exact .inr (.refl _)
  · by_cases hr : r = r'
    · subst hr
      simp only [Traffic.set, Function.update_self]
      exact extends_act hact
    · simp only [Traffic.set, Function.update_of_ne hr]
      exact .inr (.refl _)

/-- A request that has a key has been filtered. -/
theorem Traffic.Sound.extends (h : t.Sound parsed) (hstep : t.step hash l = some t') {r : RequestId} {k : AffinityMapKey}
    (hkey : (t.requests r).key = some k) : (t.requests r).Extends (t'.requests r) := by
  rcases extends_step hstep r with hphase | hextends
  · have hreq := h.requests r
    simp only [Request.Sound, hphase] at hreq
    rw [hreq] at hkey
    cases hkey
  · exact hextends

theorem storeCall_bind {c : StoreCall} {k : AffinityMapKey} {v : Str} (h : t.storeCall l = some c) (hop : c.op = .bind k v) :
    ∃ r resolved, (t.requests r).key = some k ∧ (t.requests r).phase = .bind resolved v := by
  cases l with
  | bind r now ord =>
      simp only [Traffic.storeCall] at h
      split at h
      · rename_i k' resolved selected hkey hphase
        obtain rfl := Option.some.inj h
        obtain ⟨rfl, rfl⟩ := TtlMap.Op.bind.inj hop
        exact ⟨r, _, hkey, hphase⟩
      · cases h
  | lookup r now ord =>
      simp only [Traffic.storeCall] at h
      split at h
      · obtain rfl := Option.some.inj h
        cases hop
      · cases h
  | failToConnect r e =>
      obtain ⟨k', -, rfl⟩ := Option.map_eq_some_iff.mp h
      cases hop
  | proxy | requestFilter | select | retry => cases h

theorem Traffic.Traced.step (h : t.Traced hash) (hsound : t.Sound parsed) (hstep : t.step hash l = some t') :
    t'.Traced hash := by
  intro st' hst' k e hentry
  have hgrown : ∀ v, (∃ r, (t.requests r).key = some k ∧ v ∈ (t.requests r).selected) →
      ∃ r, (t'.requests r).key = some k ∧ v ∈ (t'.requests r).selected := by
    rintro v ⟨r, hkey, hv⟩
    have hextends := hsound.extends hstep hkey
    exact ⟨r, hextends.key.trans hkey, hextends.selected v hv⟩
  have hstore := hsound.storeStep hstep
  generalize hsticky : t.router.sticky = before at hstore
  generalize hcall : t.storeCall l = call at hstore
  rw [hst'] at hstore
  cases hstore with
  | @kept st _ hshards hconfig =>
      have hmap : st.toMap hash k = some e := by
        rw [← toMap_of_shards hash hshards]
        exact hentry
      exact hgrown _ (h st hsticky k e hmap)
  | called st c =>
      rcases value_of_exec hash hentry with ⟨e₀, he₀, hvalue⟩ | hbind
      · exact hgrown _ (hvalue ▸ h st hsticky k e₀ he₀)
      · obtain ⟨r, resolved, hkey, hphase⟩ := storeCall_bind hcall hbind
        have hreq := hsound.requests r
        simp only [Request.Sound, hphase] at hreq
        exact hgrown _ ⟨r, hkey, hreq.2.2⟩

theorem Traffic.Traced.new (hash : AffinityMapKey → UInt64) (parsed : ProxyOptionsParsed) : (Traffic.new parsed).Traced hash := by
  intro st hst k e hentry
  have hst' : (Shared.new parsed).router.sticky = some st := hst
  simp only [Shared.new, Router.update, Router.new] at hst'
  split at hst'
  · obtain rfl := Option.some.inj hst'
    simp [StickySessionState.toMap, shardMap, StickySessionState.entries, StickySessionState.new] at hentry
  · cases hst'

theorem Traffic.Traced.reach (h : t.Traced hash) (hsound : t.Sound parsed)
    (hrun : Reach (Traffic.Steps hash) Traffic.Selects t t') : t'.Traced hash :=
  (hrun.invariant (P := fun t => t.Sound parsed ∧ t.Traced hash) ⟨hsound, h⟩
    fun _ _ _ ⟨hsound, h⟩ hselects hstep => ⟨hsound.step hselects hstep, h.step hsound hstep⟩).2

theorem loaded_step (hstep : t.step hash l = some t') (r : RequestId) :
    (t'.requests r).loaded = (t.requests r).loaded ∨ (t'.requests r).loaded = some t.world.shared := by
  rcases Traffic.step_cases hash hstep with ⟨pl, w, -, -, rfl⟩ | ⟨r', router, req, hact, rfl⟩
  · exact .inl rfl
  · by_cases hr : r = r'
    · subst hr
      simp only [Traffic.set, Function.update_self]
      cases hact with
      | filtered => exact .inr rfl
      | lookedUp now ord => exact .inl (extends_lookup hash t r now ord).loaded
      | selected => exact .inl (extends_select _ _ _).loaded
      | failed e => exact .inl (extends_fail hash t r e).loaded
      | bound | retried => exact .inl rfl
    · exact .inl (congrArg Request.loaded (Function.update_of_ne hr _ _))

/-- A request that has not arrived yet loads a state that comes later. -/
theorem loaded_of_reach (hsound : t.Sound parsed) (harriving : (t.requests r).phase = .arriving)
    (hrun : Reach (Traffic.Steps hash) Traffic.Selects t t') {s : Shared} (hloaded : (t'.requests r).loaded = some s) :
    ∃ t₁, Reach (Traffic.Steps hash) Traffic.Selects t t₁ ∧ Reach (Traffic.Steps hash) Traffic.Selects t₁ t' ∧
      s = t₁.world.shared := by
  induction hrun with
  | refl =>
      have hreq := hsound.requests r
      simp only [Request.Sound, harriving] at hreq
      rw [hreq] at hloaded
      cases hloaded
  | @tail t₁ t₂ l hrun hselects hstep ih =>
      rcases loaded_step hstep r with h | h
      · obtain ⟨t₀, hbefore, hafter, hs⟩ := ih (h.symm.trans hloaded)
        exact ⟨t₀, hbefore, .tail hafter hselects hstep, hs⟩
      · exact ⟨t₁, hrun, .tail .refl hselects hstep, Option.some.inj (hloaded.symm.trans h)⟩

end NeemataProxy
