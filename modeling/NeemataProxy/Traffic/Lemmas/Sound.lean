import NeemataProxy.Traffic.Lemmas.Store

/-!
# Requests stay within their pools
-/

namespace NeemataProxy

open Lib Routing Options

/-- What holds of a request by its phase. -/
def Request.Sound (parsed : ProxyOptionsParsed) (req : Request) : Prop :=
  match req.phase with
  | .arriving => req = .new
  | .upstreamPeer => ∃ resolved, req.Routed parsed resolved
  | .select resolved => req.Routed parsed resolved
  | .bind resolved selected => req.Routed parsed resolved ∧ selected ∈ resolved.backends ∧ selected ∈ req.selected
  | .connect peer => ∃ resolved, req.Routed parsed resolved ∧ peer.address ∈ resolved.backends
  | .ended => True

structure Traffic.Sound (parsed : ProxyOptionsParsed) (t : Traffic) : Prop where
  options : t.world.shared.inner.options = parsed
  ledgered : Ledgered (World.new parsed).shared.catalog t.world
  requests : ∀ r, (t.requests r).Sound parsed

theorem Traffic.Sound.new (parsed : ProxyOptionsParsed) : (Traffic.new parsed).Sound parsed :=
  ⟨rfl, Ledgered.new parsed, fun _ => rfl⟩

variable {parsed : ProxyOptionsParsed} {hash : AffinityMapKey → UInt64} {t t' : Traffic} {r : RequestId} {l : TrafficLabel}
  {router : Router} {req : Request}

theorem sound_lookup (h : ∃ resolved, (t.requests r).Routed parsed resolved) (now : Nat)
    (ord : IterOrder (AffinityMapKey × AffinityEntry)) : (t.lookupStep hash (t.requests r) now ord).2.Sound parsed := by
  obtain ⟨resolved, hrouted⟩ := h
  have hextends := (extends_lookup hash t r now ord).routed hrouted
  rcases lookup_cases hash hrouted now ord with hphase | ⟨st, k, e, -, -, -, hhit, -, timeouts, hphase⟩
  · simp only [Request.Sound, hphase]
    exact hextends
  · -- the store only answers with an address that the pool allows
    simp only [Request.Sound, hphase]
    exact ⟨resolved, hextends, hhit.2⟩

theorem sound_act (h : t.Sound parsed) (hact : Traffic.Act hash t r l router req) (hselects : t.Selects l) :
    req.Sound parsed := by
  have hreq := h.requests r
  cases hact with
  | filtered now session hphase =>
      unfold Request.Sound
      split
      · rename_i harriving
        simp only [Traffic.filterStep] at harriving
        split at harriving <;> cases harriving
      · exact routed_filterStep (h.ledgered.coherent h.options) ‹_›
      all_goals
        rename_i hother
        simp only [Traffic.filterStep] at hother
        split at hother <;> trivial
  | lookedUp now ord hphase =>
      simp only [Request.Sound, hphase] at hreq
      exact sound_lookup hreq now ord
  | @selected resolved selected hphase =>
      simp only [Request.Sound, hphase] at hreq
      have hrouted := (extends_select (t.requests r) resolved selected).routed hreq
      cases selected with
      | none => trivial
      | some addr =>
          refine ⟨hrouted, ?_, List.mem_append_right _ List.mem_cons_self⟩
          rw [hreq.backends]
          have haddr : (t.requests r).phase.Offers addr := hselects
          rw [hphase] at haddr
          exact Finset.mem_image_of_mem _ haddr
  | @bound resolved selected now ord hphase =>
      simp only [Request.Sound, hphase] at hreq
      exact ⟨resolved, ⟨hreq.1.pool, hreq.1.transport, hreq.1.source⟩, hreq.2.1⟩
  | @failed peer e hphase =>
      simp only [Request.Sound, hphase] at hreq
      obtain ⟨resolved, hrouted, -⟩ := hreq
      have hrouted' := (extends_fail hash t r e).routed hrouted
      unfold Request.Sound
      split
      · rename_i hother
        simp only [Traffic.failStep] at hother
        split at hother <;> cases hother
      · exact ⟨resolved, hrouted'⟩
      all_goals
        rename_i hother
        simp only [Traffic.failStep] at hother
        split at hother <;> trivial
  | retried hphase =>
      simp only [Request.Sound, hphase] at hreq
      obtain ⟨resolved, hrouted, -⟩ := hreq
      exact ⟨resolved, ⟨hrouted.pool, hrouted.transport, hrouted.source⟩⟩

theorem Traffic.Sound.step (h : t.Sound parsed) (hselects : t.Selects l) (hstep : t.step hash l = some t') :
    t'.Sound parsed := by
  rcases Traffic.step_cases hash hstep with ⟨pl, w, rfl, hw, rfl⟩ | ⟨r, router, req, hact, rfl⟩
  · refine ⟨?_, h.ledgered.step hw, h.requests⟩
    have hreach : Reach NeemataProxy.Steps Free t.world w := .tail .refl trivial hw
    exact (options_of_reach hreach).trans h.options
  · refine ⟨h.options, ?_, fun r' => ?_⟩
    · have hledgered := h.ledgered
      unfold Ledgered at hledgered ⊢
      rw [ledger_act_request hact]
      exact hledgered
    by_cases hr : r' = r
    · subst hr
      simp only [Traffic.set, Function.update_self]
      exact sound_act h hact hselects
    · simp only [Traffic.set, Function.update_of_ne hr]
      exact h.requests r'

theorem Traffic.Sound.reach (h : t.Sound parsed) (hrun : Reach (Traffic.Steps hash) Traffic.Selects t t') :
    t'.Sound parsed :=
  hrun.invariant h fun _ _ _ h hselects hstep => h.step hselects hstep

theorem Traffic.Sound.storeStep (h : t.Sound parsed) (hstep : t.step hash l = some t') :
    StoreStep hash (t.storeCall l) t.router.sticky t'.router.sticky := by
  rcases Traffic.step_cases hash hstep with ⟨pl, w, rfl, hw, rfl⟩ | ⟨r, router, req, hact, rfl⟩
  · obtain ⟨config, hrouter⟩ := router_step hw
    have hsticky : w.shared.router.sticky = t.world.shared.router.sticky := by rw [hrouter]; rfl
    simp only [Traffic.storeCall, Traffic.router, hsticky]
    exact .refl _
  · have hreq := h.requests r
    cases hact with
    | filtered now session => exact storeStep_filter t now session
    | lookedUp now ord hphase =>
        simp only [Request.Sound, hphase] at hreq
        obtain ⟨resolved, hrouted⟩ := hreq
        exact storeStep_lookup hrouted now ord
    | selected => exact .refl _
    | bound now ord hphase =>
        simp only [Request.Sound, hphase] at hreq
        exact storeStep_bind hreq.1 hphase now ord
    | failed e hphase =>
        simp only [Request.Sound, hphase] at hreq
        obtain ⟨resolved, hrouted, -⟩ := hreq
        exact storeStep_fail hrouted e
    | retried => exact .refl _

/-! ## Keys and the store -/

/-- A request only has a key when there is a store. -/
def Traffic.Keyed (t : Traffic) : Prop := ∀ r k, (t.requests r).key = some k → ∃ st, t.router.sticky = some st

theorem affinityKey_of_key {req : Request} {k : AffinityMapKey} (h : req.key = some k) :
    req.ctx.affinityKey = some k.affinityKey := by
  unfold Request.key at h
  split at h
  · rename_i happ hpool haffinity
    rw [haffinity, ← Option.some.inj h]
  · cases h

theorem sticky_of_filterStep {now : Nat} {session : Session} {k : AffinityMapKey}
    (h : (t.filterStep now session).2.key = some k) : ∃ st, t.router.sticky = some st := by
  obtain ⟨ctx, hnone, hassign, -⟩ :=
    requestFilter_affinityKey (Prod.eta (requestFilter now t.router session .default)).symm (affinityKey_of_key h)
  cases hsticky : t.router.sticky with
  | none =>
      rw [hsticky] at hassign
      exact absurd (hnone.symm.trans hassign) nofun
  | some st => exact ⟨st, rfl⟩

theorem StoreStep.some {call : Option StoreCall} {before after : Option (StickySessionState stickyShardCount)}
    (h : StoreStep hash call before after) {st : StickySessionState stickyShardCount} (hbefore : before = some st) :
    ∃ st', after = some st' := by
  subst hbefore
  cases h with
  | kept => exact ⟨_, rfl⟩
  | called => exact ⟨_, rfl⟩

theorem Traffic.Keyed.step (h : t.Keyed) (hsound : t.Sound parsed) (hstep : t.step hash l = some t') : t'.Keyed := by
  intro r k hkey
  have hstore := hsound.storeStep hstep
  have hbefore : ∃ st, t.router.sticky = some st := by
    rcases Traffic.step_cases hash hstep with ⟨pl, w, rfl, hw, rfl⟩ | ⟨r', router, req, hact, rfl⟩
    · exact h r k hkey
    · by_cases hr : r = r'
      · subst hr
        simp only [Traffic.set, Function.update_self] at hkey
        rcases extends_act hact with hphase | hextends
        · cases hact with
          | filtered now session => exact sticky_of_filterStep hkey
          | lookedUp _ _ hother | selected _ hother | bound _ _ hother | failed _ hother | retried hother =>
              rw [hother] at hphase
              cases hphase
        · exact h r k (hextends.key.symm.trans hkey)
      · simp only [Traffic.set, Function.update_of_ne hr] at hkey
        exact h r k hkey
  obtain ⟨st, hst⟩ := hbefore
  exact hstore.some hst

theorem Traffic.Keyed.reach (h : t.Keyed) (hsound : t.Sound parsed)
    (hrun : Reach (Traffic.Steps hash) Traffic.Selects t t') : t'.Keyed :=
  (hrun.invariant (P := fun t => t.Sound parsed ∧ t.Keyed) ⟨hsound, h⟩
    fun _ _ _ ⟨hsound, h⟩ hselects hstep => ⟨hsound.step hselects hstep, h.step hsound hstep⟩).2

theorem Traffic.Keyed.new (parsed : ProxyOptionsParsed) : (Traffic.new parsed).Keyed := fun _ _ h => (nomatch h)

end NeemataProxy
