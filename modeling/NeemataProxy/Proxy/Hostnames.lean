import NeemataProxy.Proxy.Lemmas.Applications
import NeemataProxy.Proxy.Lemmas.Rebuild
import NeemataProxy.Proxy.UpdateTheorems

/-!
# The hostnames that secure pools verify

The hostname of a secure pool is the `sni` of its application, which is checked when the options are parsed, or its subdomain
routing name, which is not.
-/

namespace NeemataProxy

open Lib Routing Options

/-! ## Hostname-like texts -/

/-- A label of 1 to 63 letters, digits or hyphens that neither starts nor ends with a hyphen. -/
structure HostLabel (label : Str) : Prop where
  nonempty : label ≠ []
  short : Str.len label ≤ 63
  first : label.head? ≠ some '-'
  last : label.getLast? ≠ some '-'
  chars : ∀ c ∈ label, c.isAlphanum = true ∨ c = '-'

/-- The check for a dot at either end adds nothing: such a text has an empty label. -/
theorem isHostnameLike_iff {value : Str} : isHostnameLike value = true ↔ ∀ label ∈ value.splitOn '.', HostLabel label := by
  have hends : value.head? = some '.' ∨ value.getLast? = some '.' → [] ∈ value.splitOn '.' := by
    rintro (hhead | hlast)
    · obtain ⟨rest, rfl⟩ := List.head?_eq_some_iff.mp hhead
      have hsplit : ('.' :: rest).splitOn '.' = [] :: rest.splitOn '.' := List.splitOn_append_cons_self [] rest
      rw [hsplit]
      exact List.mem_cons_self
    · obtain ⟨init, rfl⟩ := List.getLast?_eq_some_iff.mp hlast
      rw [List.splitOn_append_cons_self]
      simp
  unfold isHostnameLike
  split
  · rename_i hdot
    refine ⟨nofun, fun hlabels => ?_⟩
    exact absurd rfl (hlabels [] (hends hdot)).nonempty
  · rw [List.all_eq_true]
    refine forall_congr' fun label => forall_congr' fun _ => ?_
    simp only [Bool.and_eq_true, decide_eq_true_eq, List.all_eq_true, Bool.or_eq_true, beq_iff_eq]
    exact ⟨fun ⟨⟨⟨⟨h₁, h₂⟩, h₃⟩, h₄⟩, h₅⟩ => ⟨h₁, h₂, h₃, h₄, h₅⟩, fun ⟨h₁, h₂, h₃, h₄, h₅⟩ => ⟨⟨⟨⟨h₁, h₂⟩, h₃⟩, h₄⟩, h₅⟩⟩

/-! ## Parsed applications -/

theorem hostnameLike_of_parseApplicationSni {raw sni : Option Str} (h : parseApplicationSni raw = .ok sni) :
    ∀ name ∈ sni, isHostnameLike name = true := by
  unfold parseApplicationSni at h
  split at h
  · obtain rfl := Except.ok.inj h
    exact nofun
  · dsimp only at h
    split at h
    · cases h
    · split at h
      · cases h
      · rename_i hlike
        obtain rfl := Except.ok.inj h
        rintro name hname
        obtain rfl := Option.some.inj hname
        simpa using hlike

theorem sni_of_parse {options : ProxyOptions} {parsed : ProxyOptionsParsed} (h : parseProxyOptions options = .ok parsed)
    {a : ApplicationOptionsParsed} (ha : a ∈ parsed.applications) : ∀ name ∈ a.sni, isHostnameLike name = true := by
  obtain ⟨raw, -, hraw⟩ := mem_of_mapM_eq_ok (applications_of_parse h).1 ha
  obtain ⟨sni, hsni, hraw⟩ := exists_of_bind_eq_ok hraw
  obtain ⟨routing, -, hraw⟩ := exists_of_bind_eq_ok hraw
  obtain rfl := Except.ok.inj hraw
  exact hostnameLike_of_parseApplicationSni hsni

/-! ## The hostname of a pool -/

/-- The hostname of a pool is that of its application, or empty. -/
def Verified (options : ProxyOptionsParsed) (pools : Pools) : Prop :=
  ∀ app t pool, pools.get (app, t) = some pool → ∃ a ∈ options.applications, a.name = app ∧
    (pool.secure = true → verifyHostnameForSecureUpstream a = .ok pool.verifyHostname) ∧
    (pool.secure = false → pool.verifyHostname = [])

theorem Verified.applyUpdate {options : ProxyOptionsParsed} {req : UpdateRequest} {env : Except Str RebuildEnv}
    {order : IterOrder (TransportKind × PoolConfig)} {c : Catalog} (h : Verified options c.pools) :
    Verified options (applyUpdate options req env order c).1.pools := by
  cases hresult : (NeemataProxy.applyUpdate options req env order c).2 with
  | error err =>
      rw [(applyUpdate_error hresult).pools]
      exact h
  | ok u =>
      obtain ⟨next, current, rebuilt, services, env', hprepare, -, hrebuilt, hcommit⟩ := applyUpdate_ok hresult
      have hname : next.appDef.name = req.appName := by simpa using List.find?_some hprepare.app
      intro app t pool hpool
      rw [hcommit.pools] at hpool
      split at hpool
      · rename_i happ
        have hbuilt := hrebuilt.built t pool hpool
        exact ⟨next.appDef, List.mem_of_find?_eq_some hprepare.app, hname.trans happ.symm, hbuilt.hostname, hbuilt.unverified⟩
      · exact h app t pool hpool

theorem verified_of_reach (parsed : ProxyOptionsParsed) {w : World} (hrun : Reach Steps Free (.new parsed) w) :
    Verified parsed w.shared.inner.pools := by
  have hnew : Verified parsed (World.new parsed).shared.catalog.pools := by
    intro app t pool hpool
    cases hpool
  have hoptions : w.shared.inner.options = parsed := options_of_reach hrun
  obtain ⟨hresults, htables⟩ := ((Ledgered.new parsed).reach hrun).replayed hoptions
  have hpools := runUpdates_invariant (P := fun _ c => Verified parsed c.pools) hnew (fun _ _ _ h _ => h.applyUpdate) hresults
  rwa [← htables.pools] at hpools

/-! ## An update that runs alone -/

theorem reach_advance {w w₁ : World} {c : CallId} {choice : Choice} {s₂ : Shared} {pc₁ pc₂ : Pc} (hrun : Reach Steps Free w w₁)
    (hpc : w₁.calls c = pc₁) (hadvance : w₁.shared.advance c choice pc₁ = some (s₂, pc₂)) :
    ∃ w₂, Reach Steps Free w w₂ ∧ w₂.shared = s₂ ∧ w₂.calls c = pc₂ := by
  have hfree : Free w₁ (.advance c choice) := trivial
  obtain ⟨w₂, hrun₂, hpc₂, hshared₂⟩ := exists_advance hfree (by rw [hpc]; exact hadvance)
  exact ⟨w₂, hrun.trans hrun₂, hshared₂, hpc₂⟩

/-- A call that finds the lock free takes its update to the commit. -/
theorem update_alone {w : World} {c : CallId} {req : UpdateRequest} (choice : Choice) (hpc : w.calls c = .updateLock req)
    (hlock : w.shared.updateLock = none) {next : Snapshot} {rebuilt : Rebuilt} {catalog : Catalog} {services : List ServiceUpdate}
    (hprepare : prepareUpdate w.shared.inner.options w.shared.inner.upstreamsByApp req = .ok next)
    (hrebuild : rebuildUpdate req next w.shared.rebuilds choice.rebuild = .ok rebuilt)
    (hcommit : commitUpdate w.shared.inner.options choice.poolOrder req next rebuilt
      { w.shared.catalog with rebuilds := w.shared.rebuilds + 1 } = .ok (catalog, services)) :
    ∃ w', Reach Steps Free w w' ∧ w'.shared.inner.pools = catalog.pools := by
  have hlocked : w.shared.advance c choice (.updateLock req) =
      some ({ w.shared with updateLock := some c }, .updateSnapshot req) := by
    simp [Shared.advance, Shared.proceed, Pc.hands, hlock]
  obtain ⟨w₁, hrun₁, hshared₁, hpc₁⟩ := reach_advance .refl hpc hlocked
  have hsnapshot : w₁.shared.advance c choice (.updateSnapshot req) = some (w₁.shared, .updateRebuild req next) := by
    simp [Shared.advance, Shared.proceed, Pc.hands, Shared.snapshotStep, hshared₁, hprepare]
  obtain ⟨w₂, hrun₂, hshared₂, hpc₂⟩ := reach_advance hrun₁ hpc₁ hsnapshot
  have hrebuilt : w₂.shared.advance c choice (.updateRebuild req next) =
      some ({ w₁.shared with rebuilds := w.shared.rebuilds + 1 }, .updateCommit req next choice.rebuild rebuilt) := by
    simp [Shared.advance, Shared.proceed, Pc.hands, Shared.rebuildStep, hshared₂, hshared₁, hrebuild]
  obtain ⟨w₃, hrun₃, hshared₃, hpc₃⟩ := reach_advance hrun₂ hpc₂ hrebuilt
  have hcommitted : w₃.shared.advance c choice (.updateCommit req next choice.rebuild rebuilt) =
      some (w₃.shared.commitStep c req next choice.rebuild rebuilt choice.poolOrder) := by
    simp [Shared.advance, Shared.proceed, Pc.hands]
  have hcatalog : w₃.shared.catalog = { w.shared.catalog with rebuilds := w.shared.rebuilds + 1 } := by
    rw [hshared₃, hshared₁]
    rfl
  have hoptions : w₃.shared.inner.options = w.shared.inner.options := by rw [hshared₃, hshared₁]
  obtain ⟨w₄, hrun₄, hshared₄, -⟩ := reach_advance hrun₃ hpc₃ hcommitted
  refine ⟨w₄, hrun₄, ?_⟩
  simp only [hshared₄, hcatalog, hoptions, hcommit]

/-! ## All secure pools -/

/-- Every secure pool verifies a hostname-like name, every other pool an empty one. -/
def World.VerifiesHostnames (w : World) : Prop :=
  ∀ app t pool, w.shared.inner.pools.get (app, t) = some pool →
    (pool.secure = true → isHostnameLike pool.verifyHostname = true) ∧ (pool.secure = false → pool.verifyHostname = [])

theorem verifiesHostnames_of_verified {options : ProxyOptions} {parsed : ProxyOptionsParsed}
    (hparsed : parseProxyOptions options = .ok parsed) {w : World} (h : Verified parsed w.shared.inner.pools)
    (hnames : ∀ a ∈ parsed.applications, ∀ n, a.routing = .subdomain n → isHostnameLike n = true) : w.VerifiesHostnames := by
  intro app t pool hpool
  obtain ⟨a, ha, -, hsecure, hinsecure⟩ := h app t pool hpool
  refine ⟨fun hs => ?_, hinsecure⟩
  have hhost := hsecure hs
  unfold verifyHostnameForSecureUpstream at hhost
  split at hhost
  · rename_i n hrouting
    obtain rfl := Except.ok.inj hhost
    exact hnames a ha _ hrouting
  all_goals
    split at hhost
    · cases hhost
    · rename_i sni hsni
      obtain rfl := Except.ok.inj hhost
      exact sni_of_parse hparsed ha _ hsni

/-- A secure upstream on the loopback address. -/
def secureUpstream : PortUpstreamOptions := ⟨Str.lit "port", Str.lit "http", true, Str.lit "127.0.0.1", 8080⟩

def secureRequest (appName : Str) : UpdateRequest := ⟨.add, appName, ⟨.http1, true, Str.lit "127.0.0.1", 8080⟩⟩

theorem begin_secure (parsed : ProxyOptionsParsed) (appName : Str) :
    Steps (.new parsed) (begins 0 (.addUpstream appName (.port secureUpstream)))
      ⟨(World.new parsed).shared, Function.update (World.new parsed).calls 0 (.updateLock (secureRequest appName))⟩ := rfl

theorem prepareUpdate_secure {parsed : ProxyOptionsParsed} (hdistinct : Distinct parsed.applications)
    {a : ApplicationOptionsParsed} (ha : a ∈ parsed.applications) {hostname : Str}
    (hhost : verifyHostnameForSecureUpstream a = .ok hostname) :
    ∃ next, prepareUpdate parsed (World.new parsed).shared.inner.upstreamsByApp (secureRequest a.name) = .ok next ∧
      next.appDef = a ∧ ∀ v, next.upstreams.contains v = true ↔ v = (secureRequest a.name).upstream := by
  generalize hreq : secureRequest a.name = req
  have hname : req.appName = a.name := by rw [← hreq]; rfl
  have hkind : req.kind = .add := by rw [← hreq]; rfl
  have hsecure : req.upstream.secure = true := by rw [← hreq]; rfl
  have hfind : parsed.applications.find? (fun b => b.name = req.appName) = some a := by
    cases hb : parsed.applications.find? (fun b => b.name = req.appName) with
    | none => simpa [hname] using List.find?_eq_none.mp hb a ha
    | some b =>
        have hsame : b.name = req.appName := by simpa using List.find?_some hb
        rw [List.inj_on_of_nodup_map hdistinct.names (List.mem_of_find?_eq_some hb) ha (hsame.trans hname)]
  have hget : (World.new parsed).shared.inner.upstreamsByApp.get req.appName = some .empty := by
    have happ : ∃ b ∈ parsed.applications, b.name = req.appName := ⟨a, ha, hname.symm⟩
    exact (get_foldl_insert_empty parsed.applications .empty req.appName).trans (if_pos happ)
  refine ⟨⟨a, parsed.healthCheckIntervalMs, UpdateKind.add.apply .empty req.upstream⟩, ?_, rfl, fun v => ?_⟩
  · simp [prepareUpdate, takeSnapshot, hfind, hget, hkind, hsecure, UpdateKind.check, checkSecure, hhost, HashSet.contains,
      Except.map, bind, Except.bind, pure, Except.pure]
  · rw [contains_apply]
    simp [HashSet.contains]

/-- A secure upstream can be added to an application of a new proxy that has a hostname. -/
theorem secure_pool_of_application {parsed : ProxyOptionsParsed} (hdistinct : Distinct parsed.applications)
    {a : ApplicationOptionsParsed} (ha : a ∈ parsed.applications) {hostname : Str}
    (hhost : verifyHostnameForSecureUpstream a = .ok hostname) :
    ∃ w pool, Reach Steps Free (.new parsed) w ∧ w.shared.inner.pools.get (a.name, .http1) = some pool ∧ pool.secure = true ∧
      pool.verifyHostname = hostname := by
  obtain ⟨next, hprepare, rfl, hnext⟩ := prepareUpdate_secure hdistinct ha hhost
  obtain ⟨env, henv⟩ : ∃ env, sampleChoice.rebuild = .ok env := ⟨_, rfl⟩
  obtain ⟨rebuilt, hrebuild⟩ : ∃ rebuilt,
      rebuildAppPools env 0 next.appDef next.upstreams next.healthCheckIntervalMs = .ok rebuilt := by
    refine rebuildAppPools_isOk_iff.mpr fun v hv => ?_
    obtain rfl := (hnext v).mp hv
    refine ⟨⟨fun u u' hu hu' => ?_, fun u hu hs => ⟨hostname, hhost⟩⟩, ⟨fun u hu => ?_, ?_⟩⟩
    · rw [(hnext u).mp hu.1, (hnext u').mp hu'.1]
    · obtain rfl := Except.ok.inj henv
      exact ⟨_, rfl⟩
    · obtain rfl := Except.ok.inj henv
      refine ⟨{⟨Str.lit "127.0.0.1", false, 8080⟩}, Finset.singleton_nonempty _, fun addr => ?_, rfl⟩
      have hmem : ∀ u, next.upstreams.contains u = true ∧ u.transport = (secureRequest next.appDef.name).upstream.transport ↔
          u = (secureRequest next.appDef.name).upstream := fun u => by
        rw [hnext u]
        exact ⟨And.left, fun hu => ⟨hu, by rw [hu]⟩⟩
      simp only [hmem]
      simp [secureRequest]
  have hspec := rebuildAppPools_spec hrebuild
  obtain ⟨pool, hpool⟩ : ∃ pool, rebuilt.newPools.get .http1 = some pool := by
    cases hget : rebuilt.newPools.get .http1 with
    | none => exact absurd rfl (hspec.missing .http1 hget _ ((hnext _).mpr rfl))
    | some pool => exact ⟨pool, rfl⟩
  have hbuilt := hspec.built .http1 pool hpool
  have hsecure : pool.secure = true := (hbuilt.secure _ ⟨(hnext _).mpr rfl, rfl⟩).symm
  obtain ⟨current, hprepared⟩ := prepareUpdate_spec hprepare
  obtain ⟨⟨catalog, services⟩, hcommit⟩ : ∃ r, commitUpdate parsed sampleChoice.poolOrder (secureRequest next.appDef.name)
      next rebuilt { (World.new parsed).shared.catalog with rebuilds := 1 } = .ok r := exists_commitUpdate hprepared.found
  have hget : catalog.pools.get (next.appDef.name, .http1) = some pool :=
    ((commitUpdate_spec hspec.removed hcommit).pools _ _).trans ((if_pos rfl).trans hpool)
  let w₁ : World :=
    ⟨(World.new parsed).shared, Function.update (World.new parsed).calls 0 (.updateLock (secureRequest next.appDef.name))⟩
  have hbegun : Reach Steps Free (.new parsed) w₁ := .tail .refl trivial (begin_secure parsed next.appDef.name)
  obtain ⟨w, hrun, hpools⟩ := update_alone (w := w₁) sampleChoice (Function.update_self ..) rfl hprepare
    (by rw [henv]; exact hrebuild) hcommit
  refine ⟨w, pool, hbegun.trans hrun, by rw [hpools, hget], hsecure, ?_⟩
  exact (Except.ok.inj (hhost.symm.trans (hbuilt.hostname hsecure))).symm

/-- Every secure pool of every run verifies a hostname-like name exactly when the subdomain names of all applications are so. -/
theorem secureHostnames_iff {options : ProxyOptions} {w₀ : World} (hnew : Proxy.new options = .ok w₀) :
    (∀ w, Reach Steps Free w₀ w → w.VerifiesHostnames) ↔
      ∀ a ∈ w₀.shared.inner.options.applications, ∀ n, a.routing = .subdomain n → isHostnameLike n = true := by
  obtain ⟨parsed, hparsed, rfl⟩ := proxy_new hnew
  constructor
  · intro h a ha n hrouting
    have hhost : verifyHostnameForSecureUpstream a = .ok n := by
      unfold verifyHostnameForSecureUpstream
      rw [hrouting]
    obtain ⟨w, pool, hrun, hpool, hsecure, rfl⟩ := secure_pool_of_application (distinct_of_parse hparsed) ha hhost
    exact (h w hrun _ _ pool hpool).1 hsecure
  · intro hnames w hrun
    exact verifiesHostnames_of_verified hparsed (verified_of_reach parsed hrun) hnames

/-! ## Two subdomain names -/

/-- One application with subdomain routing. -/
def namedOptions (name : Str) : ProxyOptions :=
  { sampleOptions with applications := [⟨Str.lit "app", .subdomain (some name), none⟩] }

def namedParsed (name : Str) : ProxyOptionsParsed :=
  { sampleParsed with applications := [⟨Str.lit "app", .subdomain name, none⟩] }

theorem secureHostnames_sample :
    ∃ w₀, Proxy.new (namedOptions (Str.lit "example.com")) = .ok w₀ ∧ ∀ w, Reach Steps Free w₀ w → w.VerifiesHostnames := by
  have hnew : Proxy.new (namedOptions (Str.lit "example.com")) =
      .ok (World.new (namedParsed (Str.lit "example.com"))) := rfl
  refine ⟨_, hnew, (secureHostnames_iff hnew).mpr fun a ha n hrouting => ?_⟩
  obtain rfl := List.mem_singleton.mp ha
  obtain rfl := ApplicationRoutingParsed.subdomain.inj hrouting
  decide

/-- A routing name with an underscore is accepted and becomes the hostname of a secure pool. -/
theorem secure_pool_without_hostname :
    ∃ w pool, Proxy.new (namedOptions (Str.lit "my_app.example.com")) =
        .ok (World.new (namedParsed (Str.lit "my_app.example.com"))) ∧
      Reach Steps Free (World.new (namedParsed (Str.lit "my_app.example.com"))) w ∧
      w.shared.inner.pools.get (Str.lit "app", .http1) = some pool ∧ pool.secure = true ∧
      pool.verifyHostname = Str.lit "my_app.example.com" ∧ isHostnameLike pool.verifyHostname = false := by
  have hparsed : parseProxyOptions (namedOptions (Str.lit "my_app.example.com")) =
      .ok (namedParsed (Str.lit "my_app.example.com")) := rfl
  obtain ⟨w, pool, hrun, hpool, hsecure, hname⟩ :=
    secure_pool_of_application (distinct_of_parse hparsed) List.mem_cons_self rfl
  refine ⟨w, pool, rfl, hrun, hpool, hsecure, hname, ?_⟩
  rw [hname]
  decide

end NeemataProxy
