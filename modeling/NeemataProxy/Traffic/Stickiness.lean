import NeemataProxy.Router.Cookie
import NeemataProxy.Traffic.Lemmas.Traced
import NeemataProxy.Traffic.Sessions

/-!
# Clients that send the cookie back

From the response of one request to the peer of another: `response_filter` writes the key of a request into a cookie, the
client sends it back, `request_filter` reads the key again, and the store leads `upstream_peer` to the same backend.
-/

namespace NeemataProxy

open Lib Routing Options

/-- The wall clock is read as a `u128`. -/
def TrafficLabel.Clocked : TrafficLabel → Prop
  | .requestFilter _ now _ => now < 2 ^ 128
  | _ => True

instance : (l : TrafficLabel) → Decidable l.Clocked
  | .requestFilter _ now _ => inferInstanceAs (Decidable (now < 2 ^ 128))
  | .proxy _ | .lookup _ _ _ | .select _ _ | .bind _ _ _ | .failToConnect _ _ | .retry _ => isTrue trivial

/-- `response_filter` sends this cookie to the client of request `r`. -/
def Traffic.Hands (t : Traffic) (r : RequestId) (cookie : Str) : Prop :=
  ∀ response, responseFilter t.router response (t.requests r).ctx =
    .ok (response ++ [(Str.lit "set-cookie", Str.bytes cookie)])

/-- The first cookie field of a request has what the client keeps of this cookie, between visible cookies of other names. -/
def Returns (cookieName cookie : Str) (session : Session) : Prop :=
  ∃ before after : List (Str × Str), (∀ p ∈ before ++ after, OtherPair cookieName p ∧ (pairText p).all isVisible = true) ∧
    session.header (Str.lit "cookie") =
      some (Str.bytes (cookieField (before.map pairText ++ cookiePart cookie :: after.map pairText)))

/-- Both requests have been routed to the same application over the same transport. -/
structure SameDestination (req req' : Request) : Prop where
  appName : req'.ctx.appName = req.ctx.appName
  transport : req'.ctx.resolvedPool.map ResolvedPool.transport = req.ctx.resolvedPool.map ResolvedPool.transport

/-! ## There and back -/

/-- The key that a client was handed is the one that its next request has. -/
theorem extractCookieValue_of_returns {st : StickySessionState stickyShardCount} {key : Str} (hkey : SafeKey key)
    (hname : CarriedName st.config.cookieName) {session : Session}
    (h : Returns st.config.cookieName (st.cookieHeaderValue key) session) :
    extractCookieValue session st.config.cookieName = some key := by
  obtain ⟨before, after, hothers, hfield⟩ := h
  have hsemi : ';' ∉ key := fun hmem => (hkey.char hmem).2.2.1 rfl
  rw [cookiePart_cookieHeaderValue hname.separators.2 hsemi] at hfield
  have hother : ∀ text, text ∈ before.map pairText ∨ text ∈ after.map pairText →
      ';' ∉ text ∧ text.all isVisible = true ∧ cookiePairValue st.config.cookieName text = none := by
    intro text htext
    obtain ⟨p, hp, rfl⟩ : ∃ p, p ∈ before ++ after ∧ pairText p = text := by
      rcases htext with htext | htext
      · obtain ⟨p, hp, rfl⟩ := List.mem_map.mp htext
        exact ⟨p, List.mem_append_left _ hp, rfl⟩
      · obtain ⟨p, hp, rfl⟩ := List.mem_map.mp htext
        exact ⟨p, List.mem_append_right _ hp, rfl⟩
    obtain ⟨hpair, hvisible⟩ := hothers p hp
    exact ⟨by simp [pairText, hpair.name.2, hpair.value], hvisible, cookiePairValue_otherPair hpair⟩
  have hown : ';' ∉ st.config.cookieName ++ '=' :: key ∧ (st.config.cookieName ++ '=' :: key).all isVisible = true := by
    refine ⟨by simp [hname.separators.2, hsemi], ?_⟩
    rw [List.all_append, List.all_cons, hname.visible, all_isVisible_of_safeKey hkey]
    decide
  have hpieces : ∀ text ∈ before.map pairText ++ (st.config.cookieName ++ '=' :: key) :: after.map pairText,
      ';' ∉ text ∧ text.all isVisible = true := by
    intro text htext
    rcases List.mem_append.mp htext with htext | htext
    · exact ⟨(hother text (.inl htext)).1, (hother text (.inl htext)).2.1⟩
    · rcases List.mem_cons.mp htext with rfl | htext
      · exact hown
      · exact ⟨(hother text (.inr htext)).1, (hother text (.inr htext)).2.1⟩
  rw [extractCookieValue_cookieField (by simp) (fun text htext => (hpieces text htext).1) hfield,
    if_pos ((all_isVisible_cookieField _).mpr fun text htext => (hpieces text htext).2)]
  -- the pairs in front give no value under this name
  have hbefore : (before.map pairText).findSome? (cookiePairValue st.config.cookieName) = none :=
    List.findSome?_eq_none_iff.mpr fun text htext => (hother text (.inl htext)).2.2
  rw [List.findSome?_append, hbefore, Option.none_or, List.findSome?_cons, cookiePairValue_carried hname hkey]

theorem assignAffinity_of_cookie {now : Nat} {session : Session} {st : StickySessionState stickyShardCount} {key : Str}
    (h : extractCookieValue session st.config.cookieName = some key) {ctx : RouterCtx} {app : Str} {resolved : ResolvedPool}
    (happ : ctx.appName = some app) (hpool : ctx.resolvedPool = some resolved) :
    (assignAffinity now session (some st) ctx).2.affinityKey = some key := by
  simp only [assignAffinity, happ, hpool, h]

theorem checkPool_target (config : RouterConfig) (ctx : RouterCtx) :
    (checkPool config ctx).1.appName = ctx.appName ∧ (checkPool config ctx).1.resolvedPool = ctx.resolvedPool := by
  unfold checkPool
  split
  · exact ⟨rfl, rfl⟩
  · split <;> exact ⟨rfl, rfl⟩

/-! ## Requests -/

/-- A request that has a key is to be handed it, and the key is safe. -/
def Request.Cookied (req : Request) : Prop :=
  ∀ key, req.ctx.affinityKey = some key → SafeKey key ∧ req.ctx.shouldSetCookie = true

section Steps

variable {parsed : ProxyOptionsParsed} {hash : AffinityMapKey → UInt64} {t t' : Traffic} {r : RequestId} {l : TrafficLabel}
  {router : Router} {req : Request}

theorem cookied_filter (hname : ∀ st, t.router.sticky = some st → '=' ∉ st.config.cookieName) {now : Nat}
    (hnow : now < 2 ^ 128) (session : Session) : (t.filterStep now session).2.Cookied := by
  intro key hkey
  obtain ⟨ctx, hnone, hassign, hset, -⟩ :=
    requestFilter_affinityKey (Prod.eta (requestFilter now t.router session .default)).symm hkey
  cases hsticky : t.router.sticky with
  | none =>
      rw [hsticky] at hassign
      exact absurd (hnone.symm.trans hassign) (Option.some_ne_none key).symm
  | some st =>
      rw [hsticky] at hassign hset
      obtain ⟨hchoice, hset', -⟩ := keyChoice_assignAffinity (hname st hsticky) hnone hassign
      exact ⟨hchoice.safe (safeKey_generated hnow st.keyCounter.toNat_lt), hset.trans hset'⟩

theorem setCookie_act (hact : Traffic.Act hash t r l router req) (hphase : (t.requests r).phase ≠ .arriving) :
    req.ctx.shouldSetCookie = (t.requests r).ctx.shouldSetCookie := by
  cases hact with
  | filtered now session harriving => exact absurd harriving hphase
  | lookedUp now ord =>
      simp only [Traffic.lookupStep, upstreamPeerLookup]
      split
      · rfl
      · split <;> rfl
  | selected selected => cases selected <;> rfl
  | bound | retried => rfl
  | failed e =>
      simp only [Traffic.failStep, failToConnect]
      split
      · split <;> rfl
      · rfl

theorem cookied_act (h : (t.requests r).Cookied) (hname : ∀ st, t.router.sticky = some st → '=' ∉ st.config.cookieName)
    (hclocked : l.Clocked) (hact : Traffic.Act hash t r l router req) : req.Cookied := by
  by_cases hphase : (t.requests r).phase = .arriving
  · cases hact with
    | filtered now session => exact cookied_filter hname hclocked session
    | lookedUp _ _ hother | selected _ hother | bound _ _ hother | failed _ hother | retried hother =>
        rw [hother] at hphase
        cases hphase
  · intro key hkey
    rcases extends_act hact with harriving | hextends
    · exact absurd harriving hphase
    · rw [setCookie_act hact hphase]
      exact h key (hextends.affinityKey.symm.trans hkey)

theorem phase_act (hact : Traffic.Act hash t r l router req) : req.phase ≠ .arriving := by
  cases hact with
  | filtered now session =>
      simp only [Traffic.filterStep]
      split <;> intro h <;> cases h
  | lookedUp now ord =>
      simp only [Traffic.lookupStep]
      split <;> intro h <;> cases h
  | selected selected => cases selected <;> intro h <;> cases h
  | bound | retried => intro h; cases h
  | failed e =>
      simp only [Traffic.failStep]
      split <;> intro h <;> cases h

theorem Request.Extends.trans {req req' req'' : Request} (h : req.Extends req') (h' : req'.Extends req'') : req.Extends req'' :=
  ⟨h'.session.trans h.session, h'.loaded.trans h.loaded, h'.appName.trans h.appName,
    h'.resolvedPool.trans h.resolvedPool, h'.selectedTransport.trans h.selectedTransport,
    h'.affinityKey.trans h.affinityKey, fun a ha => h'.selected a (h.selected a ha)⟩

/-- What `request_filter` has given a request stays with it. -/
theorem extends_of_reach {allow : Traffic → TrafficLabel → Prop} (hphase : (t.requests r).phase ≠ .arriving)
    (hrun : Reach (Traffic.Steps hash) allow t t') :
    (t'.requests r).phase ≠ .arriving ∧ (t.requests r).Extends (t'.requests r) ∧
      (t'.requests r).ctx.shouldSetCookie = (t.requests r).ctx.shouldSetCookie := by
  induction hrun with
  | refl => exact ⟨hphase, .refl _, rfl⟩
  | @tail t₁ t₂ l _ _ hstep ih =>
      obtain ⟨hphase₁, hextends, hset⟩ := ih
      have hextends₂ := (extends_step hstep r).resolve_left hphase₁
      rcases Traffic.step_cases hash hstep with ⟨pl, w, -, -, rfl⟩ | ⟨r', router, req, hact, rfl⟩
      · exact ⟨hphase₁, hextends, hset⟩
      · refine ⟨?_, hextends.trans hextends₂, ?_⟩
        all_goals
          by_cases hr : r = r'
          · subst hr
            simp only [Traffic.set, Function.update_self]
            first | exact phase_act hact | exact (setCookie_act hact hphase₁).trans hset
          · simp only [Traffic.set, Function.update_of_ne hr]
            first | exact hphase₁ | exact hset

theorem Traffic.Sound.arrived (h : t.Sound parsed) {k : AffinityMapKey} (hkey : (t.requests r).key = some k) :
    (t.requests r).phase ≠ .arriving := by
  intro hphase
  have hreq := h.requests r
  simp only [Request.Sound, hphase] at hreq
  rw [hreq] at hkey
  cases hkey

/-! ## The configuration of the store -/

def Traffic.storeConfig (t : Traffic) : Option StickySessionConfig := t.router.sticky.map StickySessionState.config

theorem StoreStep.storeConfig {call : Option StoreCall} {before after : Option (StickySessionState stickyShardCount)}
    (h : StoreStep hash call before after) : after.map StickySessionState.config = before.map StickySessionState.config := by
  cases h with
  | disabled => rfl
  | kept hshards hconfig => simp only [Option.map_some, hconfig]
  | called st c => simp only [Option.map_some, StickySessionState.config_exec]

theorem Traffic.Sound.storeConfig (h : t.Sound parsed) (hrun : Reach (Traffic.Steps hash) Traffic.Selects t t') :
    t'.storeConfig = t.storeConfig := by
  induction hrun with
  | refl => rfl
  | tail hrun _ hstep ih => exact ((h.reach hrun).storeStep hstep).storeConfig.trans ih

/-- Every key on the way is safe, and is to be handed to its client. -/
theorem cookied_of_reach {config : StickySessionConfig} (hconfig : (Traffic.new parsed).storeConfig = some config)
    (heq : '=' ∉ config.cookieName)
    (hrun : Reach (Traffic.Steps hash) (fun t l => t.Selects l ∧ l.Clocked) (.new parsed) t) (r : RequestId) :
    (t.requests r).Cookied := by
  have hnew : Request.new.Cookied := fun key hkey => by cases hkey
  refine requests_of_reach hnew (fun t r l router req hrun hallow hact h => cookied_act h ?_ hallow.2 hact) hrun r
  -- the store keeps the configuration that it had at first
  intro st hsticky
  have hsame := (Traffic.Sound.new parsed).storeConfig (hrun.mono fun _ _ h => h.1)
  rw [hconfig, Traffic.storeConfig, hsticky] at hsame
  obtain rfl : st.config = config := Option.some.inj hsame
  exact heq

/-! ## The way there -/

theorem cookieHeaderValue_congr {st st' : StickySessionState stickyShardCount} (h : st'.config = st.config) (key : Str) :
    st'.cookieHeaderValue key = st.cookieHeaderValue key := by
  simp only [StickySessionState.cookieHeaderValue, h]

theorem hands_of_key {st : StickySessionState stickyShardCount} (hconfig : t.storeConfig = some st.config)
    (hcarried : CarriedName st.config.cookieName) {k : AffinityMapKey} (hkey : (t.requests r).key = some k)
    (hsafe : SafeKey k.affinityKey) (hset : (t.requests r).ctx.shouldSetCookie = true) :
    t.Hands r (st.cookieHeaderValue k.affinityKey) := by
  obtain ⟨st', hsticky, hsame⟩ := Option.map_eq_some_iff.mp hconfig
  intro response
  rw [← cookieHeaderValue_congr hsame]
  exact responseFilter_of_key hsticky (affinityKey_of_key hkey) hset (hsame ▸ hcarried.visible) hsafe response

/-! ## The way back -/

/-- A request that returns the cookie and is routed has the key of the cookie. -/
theorem affinityKey_of_returns {st : StickySessionState stickyShardCount} (hconfig : t.storeConfig = some st.config) {key : Str}
    (hkey : SafeKey key) (hcarried : CarriedName st.config.cookieName) {session : Session}
    (hreturns : Returns st.config.cookieName (st.cookieHeaderValue key) session) {now : Nat} {app : Str}
    {resolved : ResolvedPool} (happ : (t.filterStep now session).2.ctx.appName = some app)
    (hpool : (t.filterStep now session).2.ctx.resolvedPool = some resolved) :
    (t.filterStep now session).2.ctx.affinityKey = some key := by
  obtain ⟨st', hsticky, hsame⟩ := Option.map_eq_some_iff.mp hconfig
  have hcookie : extractCookieValue session st'.config.cookieName = some key := by
    rw [hsame]
    exact extractCookieValue_of_returns hkey hcarried hreturns
  rcases requestFilter_cases (Prod.eta (requestFilter now t.router session .default)).symm with
    ⟨-, ⟨hint, hctx⟩, -⟩ | ⟨host, route, -, -, -, hcheck⟩
  · exact absurd ((congrArg RouterCtx.appName hctx).symm.trans happ) (Option.some_ne_none app).symm
  · have hctx : (t.filterStep now session).2.ctx =
        (checkPool t.router.config (assigned now t.router session route .default).2).1 := congrArg Prod.fst hcheck
    rw [hctx] at happ hpool ⊢
    obtain ⟨happ', hpool'⟩ := checkPool_target t.router.config (assigned now t.router session route .default).2
    obtain ⟨happ'', -, hpool''⟩ := assignAffinity_ctx now session t.router.sticky
      (assignRoute t.router.config route session.isUpgradeReq .default)
    rw [(checkPool_ctx _ _).2.1, assigned, hsticky]
    exact assignAffinity_of_cookie hcookie (happ''.symm.trans (happ'.symm.trans happ))
      (hpool''.symm.trans (hpool'.symm.trans hpool))

end Steps

theorem Request.key_eq_some {req : Request} {k : AffinityMapKey} :
    req.key = some k ↔ req.ctx.appName = some k.appName ∧
      req.ctx.resolvedPool.map ResolvedPool.transport = some k.transport ∧ req.ctx.affinityKey = some k.affinityKey := by
  obtain ⟨app, transport, key⟩ := k
  unfold Request.key
  cases req.ctx.appName <;> cases req.ctx.resolvedPool <;> cases req.ctx.affinityKey <;> simp

/-! ## Visits -/

section Visits

variable {hash : AffinityMapKey → UInt64} {parsed : ProxyOptionsParsed}

theorem reach_clocked {w w' : Watched}
    (h : Reach (Watched.Steps hash) (fun w l => w.Selects l ∧ l.Clocked) w w') :
    Reach (Traffic.Steps hash) (fun t l => t.Selects l ∧ l.Clocked) w.traffic w'.traffic := by
  induction h with
  | refl => exact .refl
  | tail _ hallow hstep ih =>
      obtain ⟨t', ht', rfl⟩ := Option.map_eq_some_iff.mp hstep
      exact ih.tail hallow ht'

theorem traffic_step {w w' : Watched} {l : TrafficLabel} (h : Watched.Steps hash w l w') :
    w.traffic.step hash l = some w'.traffic := by
  obtain ⟨t', ht', rfl⟩ := Option.map_eq_some_iff.mp h
  exact ht'

theorem steady_filter (hash : AffinityMapKey → UInt64) (k : AffinityMapKey) (b : Str) (w : Watched) (r : RequestId) (now : Nat)
    (session : Session) : Steady hash k b w (.requestFilter r now session) ∧
      Undisputed hash k w (.requestFilter r now session) :=
  ⟨⟨trivial, fun _ _ _ hcall => by cases hcall⟩, fun _ _ _ hcall => by cases hcall⟩

/-- The key of a request that arrives with the cookie and goes where the first request went. -/
theorem key_of_visit {w₁ w₂ w₃ : Watched} {allow : Watched → TrafficLabel → Prop} (hallow : ∀ w l, allow w l → w.traffic.Selects l)
    {st : StickySessionState stickyShardCount} (hconfig : w₁.traffic.storeConfig = some st.config) {k : AffinityMapKey}
    (hsafe : SafeKey k.affinityKey) (hcarried : CarriedName st.config.cookieName) {req : Request} (hkey : req.key = some k)
    {r : RequestId} {now : Nat} {session : Session} (harrives : Watched.Steps hash w₁ (.requestFilter r now session) w₂)
    (hreturns : Returns st.config.cookieName (st.cookieHeaderValue k.affinityKey) session)
    (hrun : Reach (Watched.Steps hash) allow w₂ w₃) (hsame : SameDestination req (w₃.traffic.requests r)) :
    (w₃.traffic.requests r).key = some k := by
  obtain ⟨happ, htransport, -⟩ := Request.key_eq_some.mp hkey
  have happ₃ := hsame.appName.trans happ
  have htransport₃ := hsame.transport.trans htransport
  have hfiltered : w₂.traffic.requests r = (w₁.traffic.filterStep now session).2 ∧
      (w₂.traffic.requests r).phase ≠ .arriving := by
    have hstep := traffic_step harrives
    simp only [Traffic.step] at hstep
    split at hstep
    · rename_i hphase
      have hreq : w₂.traffic.requests r = (w₁.traffic.filterStep now session).2 := by
        rw [← Option.some.inj hstep]
        exact Function.update_self r _ _
      have hact : Traffic.Act hash w₁.traffic r _ _ _ := .filtered now session hphase
      refine ⟨hreq, ?_⟩
      rw [hreq]
      exact phase_act hact
    · cases hstep
  obtain ⟨-, hextends, -⟩ := extends_of_reach hfiltered.2 (reach_traffic hallow hrun)
  rw [hfiltered.1] at hextends
  obtain ⟨resolved, hpool, -⟩ := Option.map_eq_some_iff.mp htransport₃
  have hkey₂ := affinityKey_of_returns hconfig hsafe hcarried hreturns (hextends.appName.symm.trans happ₃)
    (hextends.resolvedPool.symm.trans hpool)
  exact Request.key_eq_some.mpr ⟨happ₃, htransport₃, hextends.affinityKey.trans hkey₂⟩

/-- A request that has been given a peer leaves its address leased to its key. -/
theorem held_of_assigns {w w' : Watched} {l : TrafficLabel} {r : RequestId} {peer : HttpPeer} {k : AffinityMapKey}
    (hassigns : Assigns hash w l w' r peer) (hsound : w.traffic.Sound parsed) (hkeyed : w.traffic.Keyed)
    (hkey : (w.traffic.requests r).key = some k) (hsteady : Steady hash k peer.address w l) : Held hash k peer.address w' := by
  obtain ⟨st, c, hsticky, hcall, hafter, hcalls, hdecides⟩ := decides_of_assigns hassigns hsound hkeyed hkey
  exact held_of_touch (hsteady.2 st hsticky c hcall) hafter hcalls (hdecides.imp id fun h => ⟨h.1, h.2.1⟩)

end Visits

/-! ## The theorem -/

/-- A request that is given a peer is handed a cookie, and every later request that returns the cookie and is routed to the same
application over the same transport is given the same backend, in every run that is steady, as long as no request binds the key
while the store binds it to another address. -/
theorem cookie_keeps_backend (hash : AffinityMapKey → UInt64) {options : ProxyOptions} {w₀ : World}
    (hnew : Proxy.new options = .ok w₀) {st : StickySessionState stickyShardCount} (hsticky : w₀.shared.router.sticky = some st)
    (hcarried : CarriedName st.config.cookieName) {w₁ w₂ : Watched} {l : TrafficLabel} {r : RequestId} {peer : HttpPeer}
    {k : AffinityMapKey} (hrun : Reach (Watched.Steps hash) (fun w l => w.Selects l ∧ l.Clocked) (.new w₀) w₁)
    (hassigns : Assigns hash w₁ l w₂ r peer) (hkey : (w₁.traffic.requests r).key = some k)
    (hsteady : Steady hash k peer.address w₁ l) :
    (∀ {w : Watched}, Reach (Watched.Steps hash) Watched.Selects w₁ w →
      w.traffic.Hands r (st.cookieHeaderValue k.affinityKey)) ∧
    ∀ {w₃ w₄ w₅ w₆ : Watched} {r' : RequestId} {now : Nat} {session : Session} {l' : TrafficLabel} {peer' : HttpPeer},
      Reach (Watched.Steps hash) (fun w l => Steady hash k peer.address w l ∧ Undisputed hash k w l) w₂ w₃ →
      Watched.Steps hash w₃ (.requestFilter r' now session) w₄ →
      Returns st.config.cookieName (st.cookieHeaderValue k.affinityKey) session →
      Reach (Watched.Steps hash) (fun w l => Steady hash k peer.address w l ∧ Undisputed hash k w l) w₄ w₅ →
      SameDestination (w₁.traffic.requests r) (w₅.traffic.requests r') → Assigns hash w₅ l' w₆ r' peer' →
      Steady hash k peer.address w₅ l' → Undisputed hash k w₅ l' → peer'.address = peer.address := by
  obtain ⟨parsed, hnew⟩ := traffic_new hnew
  have hclocked := reach_clocked hrun
  have hselects := reach_traffic (fun _ _ h => h.1) hrun
  simp only [Watched.new, hnew] at hclocked hselects
  have hconfig₀ : (Traffic.new parsed).storeConfig = some st.config := by
    rw [← hnew, Traffic.storeConfig, Traffic.router, hsticky]
    rfl
  have hsound := (Traffic.Sound.new parsed).reach hselects
  have hkeyed := (Traffic.Keyed.new parsed).reach (.new parsed) hselects
  have hcookied := cookied_of_reach hconfig₀ hcarried.separators.1 hclocked r
  obtain ⟨hsafe, hset⟩ := hcookied _ (affinityKey_of_key hkey)
  have hconfig₁ := ((Traffic.Sound.new parsed).storeConfig hselects).trans hconfig₀
  refine ⟨fun {w} hlater => ?_, ?_⟩
  · have hlater := reach_traffic (fun _ _ h => h) hlater
    obtain ⟨-, hextends, hset'⟩ := extends_of_reach (hsound.arrived hkey) hlater
    exact hands_of_key ((hsound.storeConfig hlater).trans hconfig₁) hcarried (hextends.key.trans hkey) hsafe (hset'.trans hset)
  · intro w₃ w₄ w₅ w₆ r' now session l' peer' hrun₃ harrives hreturns hrun₅ hsame hassigns' hsteady' hundisputed'
    have hstep := traffic_step hassigns.step
    have hsound₂ := hsound.step hsteady.1 hstep
    have hkeyed₂ := hkeyed.step hsound hstep
    have hheld₂ := held_of_assigns hassigns hsound hkeyed hkey hsteady
    have hrun := (hrun₃.tail (steady_filter hash k peer.address w₃ r' now session) harrives).trans hrun₅
    obtain ⟨hsound₅, hheld₅⟩ := hheld₂.reach hsound₂ hrun
    have hkeyed₅ := hkeyed₂.reach hsound₂ (reach_traffic (fun _ _ h => h.1.1) hrun)
    have hconfig₃ := (hsound₂.storeConfig (reach_traffic (fun _ _ h => h.1.1) hrun₃)).trans
      ((hsound.storeConfig (.tail .refl hsteady.1 hstep)).trans hconfig₁)
    have hkey' := key_of_visit (fun _ _ h => h.1.1) hconfig₃ hsafe hcarried hkey harrives hreturns hrun₅ hsame
    exact assigned_of_held hheld₅ hsound₅ hkeyed₅ hsteady' hundisputed' hassigns' hkey'

/-- A request for `/` that has the cookie of `client` and no header for the key. -/
def returningSession : Session :=
  { clientSession with
    reqHeader :=
      { clientSession.reqHeader with
        headers := [(Str.lit "host", Str.bytes (Str.lit "a")),
          (Str.lit "cookie", Str.bytes (Str.lit "id=1; nmt_affinity=client; x=y=z"))] } }

theorem returns_sample {st : StickySessionState stickyShardCount}
    (hsticky : (World.new stickyParsed).shared.router.sticky = some st) :
    CarriedName st.config.cookieName ∧
      Returns st.config.cookieName (st.cookieHeaderValue (Str.lit "client")) returningSession := by
  obtain rfl := Option.some.inj hsticky
  refine ⟨⟨by decide, by decide, fun c hc => by cases hc; decide⟩, [(Str.lit "id", Str.lit "1")],
    [(Str.lit "x", Str.lit "y=z")], fun p hp => ?_, by decide +kernel⟩
  rcases List.mem_cons.mp hp with rfl | hp
  · exact ⟨⟨by decide, by decide, fun c hc => by cases hc; decide, by decide⟩, by decide⟩
  · obtain rfl := List.mem_singleton.mp hp
    exact ⟨⟨by decide, by decide, fun c hc => by cases hc; decide, by decide⟩, by decide⟩

/-- A client that was known by its header comes back with the cookie only. -/
theorem cookie_keeps_backend_sample :
    ∃ st w₁ w₂ w₅ w₆ peer peer', (World.new stickyParsed).shared.router.sticky = some st ∧
      Reach (Watched.Steps sampleHash) (fun w l => w.Selects l ∧ l.Clocked) (.new (World.new stickyParsed)) w₁ ∧
      Assigns sampleHash w₁ (.bind 0 2 .stored) w₂ 0 peer ∧
      w₁.traffic.Hands 0 (st.cookieHeaderValue (Str.lit "client")) ∧
      Watched.Steps sampleHash w₂ (.requestFilter 1 0 returningSession) w₅ ∧
      Assigns sampleHash w₅ (.lookup 1 3 .stored) w₆ 1 peer' ∧ peer'.address = peer.address := by
  obtain ⟨w₁, hrun, h₁⟩ := watched_of_check (fun w l => w.Selects l ∧ l.Clocked) (.new (World.new stickyParsed))
    (addUpstreams [8080, 8081] ++ [.requestFilter 0 0 clientSession, .lookup 0 1 .stored, .select 0 (some (addrAt 8080))])
    (fun w₁ => (w₁.traffic.requests 0).key == some clientKey &&
      decide (Steady sampleHash clientKey (addrAt 8080).toStr w₁ (.bind 0 2 .stored)) &&
      (w₁.step sampleHash (.bind 0 2 .stored)).any fun w₂ => w₂.traffic.at 0 8080 &&
        (w₂.step sampleHash (.requestFilter 1 0 returningSession)).any fun w₅ =>
        (w₅.traffic.requests 1).ctx.appName == (w₁.traffic.requests 0).ctx.appName &&
        (w₅.traffic.requests 1).ctx.resolvedPool.map ResolvedPool.transport ==
          (w₁.traffic.requests 0).ctx.resolvedPool.map ResolvedPool.transport &&
        decide (Steady sampleHash clientKey (addrAt 8080).toStr w₅ (.lookup 1 3 .stored)) &&
        decide (Undisputed sampleHash clientKey w₅ (.lookup 1 3 .stored)) &&
        (w₅.step sampleHash (.lookup 1 3 .stored)).any fun w₆ => w₆.traffic.at 1 8080) (by decide +kernel)
  simp only [Bool.and_eq_true, beq_iff_eq, decide_eq_true_eq] at h₁
  obtain ⟨⟨hkey, hsteady⟩, h₁⟩ := h₁
  obtain ⟨w₂, hstep, h₂⟩ := (Option.any_eq_true _ _).mp h₁
  simp only [Bool.and_eq_true] at h₂
  obtain ⟨peer, hassigns, haddress⟩ := assigns_of_at hstep (.inr ⟨2, .stored, rfl⟩) h₂.1
  obtain ⟨w₅, harrives, h₅⟩ := (Option.any_eq_true _ _).mp h₂.2
  simp only [Bool.and_eq_true, beq_iff_eq, decide_eq_true_eq] at h₅
  obtain ⟨⟨⟨⟨happ, htransport⟩, hsteady'⟩, hundisputed'⟩, h₅⟩ := h₅
  obtain ⟨w₆, hstep', h₆⟩ := (Option.any_eq_true _ _).mp h₅
  obtain ⟨peer', hassigns', -⟩ := assigns_of_at hstep' (.inl ⟨3, .stored, rfl⟩) h₆
  rw [← haddress] at hsteady hsteady'
  obtain ⟨st, hsticky⟩ : ∃ st, (World.new stickyParsed).shared.router.sticky = some st := ⟨_, rfl⟩
  obtain ⟨hcarried, hreturns⟩ := returns_sample hsticky
  obtain ⟨hhands, hkeeps⟩ := cookie_keeps_backend sampleHash sticky_new hsticky hcarried hrun hassigns hkey hsteady
  exact ⟨st, w₁, w₂, w₅, w₆, peer, peer', hsticky, hrun, hassigns, hhands .refl, harrives, hassigns',
    hkeeps .refl harrives hreturns .refl ⟨happ, htransport⟩ hassigns' hsteady' hundisputed'⟩

end NeemataProxy
