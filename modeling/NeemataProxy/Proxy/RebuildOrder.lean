import NeemataProxy.Proxy.Locality

/-!
# Rebuilds in another order

A rebuild goes through the upstreams and the groups of them in the order of the hash maps. The order decides which of several
errors is reported, but not whether there is one, nor what is built.
-/

namespace NeemataProxy

open Lib Routing Options

/-- The same environment with other orders of iteration. -/
def RebuildEnv.inOrder (env : RebuildEnv) (upstreamOrder : IterOrder (PortUpstream × Unit))
    (groupOrder : IterOrder (TransportKind × List PortUpstream)) : RebuildEnv :=
  { env with
    upstreamOrder := upstreamOrder
    groupOrder := groupOrder }

/-- Two rebuilds of the upstreams that cannot be told apart but by the message of their errors. -/
inductive Alike (upstreams : HashSet PortUpstream) : Except JsError Rebuilt → Except JsError Rebuilt → Prop where
  | built {r r' : Rebuilt} (pools : ∀ t, r'.newPools.get t = r.newPools.get t) (removed : r'.removed = r.removed)
      (missing : ∀ t, t ∈ r.removed ↔ ∀ u, upstreams.contains u = true → u.transport ≠ t) : Alike upstreams (.ok r) (.ok r')
  | failed {e e' : JsError} (code : e'.code = e.code) : Alike upstreams (.error e) (.error e')

variable {env env' : RebuildEnv} {app : ApplicationOptionsParsed} {interval rebuild : Nat} {t : TransportKind}
  {upstreams : HashSet PortUpstream} {rebuilt : Rebuilt} {e : JsError}

/-! ## One pool -/

/-- The pool depends on the set of its upstreams only. -/
theorem buildPool_congr {first first' : PortUpstream} {list list' : List PortUpstream} {pool : PoolConfig}
    (hfirst' : first' ∈ list') (hmem : ∀ u, u ∈ list' ↔ u ∈ list)
    (h : buildPool env app interval rebuild t first list = .ok pool) :
    buildPool env app interval rebuild t first' list' = .ok pool := by
  rw [buildPool_eq] at h ⊢
  split at h
  · cases h
  · rename_i hsecure
    have hsame : ∀ u ∈ list, u.secure = first.secure := by simpa using hsecure
    have hfirsts : first'.secure = first.secure := hsame first' ((hmem first').mp hfirst')
    have hsecure' : ¬ (list'.any fun u => u.secure ≠ first'.secure) = true := by
      simpa [hfirsts] using fun u hu => hsame u ((hmem u).mp hu)
    obtain ⟨hostname, hhost, h⟩ := exists_of_bind_eq_ok h
    obtain ⟨addrs, haddrs, h⟩ := exists_of_bind_eq_ok h
    have heach := resolveUpstreams_isOk_iff.mp ⟨addrs, haddrs⟩
    obtain ⟨addrs', haddrs'⟩ := resolveUpstreams_isOk_iff.mpr fun u hu => heach u ((hmem u).mp hu)
    have haddr : ∀ a, a ∈ addrs' ↔ a ∈ addrs := fun a => by
      rw [mem_resolveUpstreams haddrs, mem_resolveUpstreams haddrs']
      simp only [hmem]
    have hset : addrs'.toFinset = addrs.toFinset := by
      ext a
      rw [List.mem_toFinset, List.mem_toFinset, haddr]
    have hbackends : (addrs'.map SocketAddr.toStr).toFinset = (addrs.map SocketAddr.toStr).toFinset := by
      ext x
      simp only [List.mem_toFinset, List.mem_map, haddr]
    have hnil : addrs' = [] ↔ addrs = [] := by
      rw [← List.toFinset_eq_empty_iff, hset, List.toFinset_eq_empty_iff]
    rw [if_neg hsecure', hfirsts, hhost, haddrs']
    simp only [Except.bind, hnil, hset, hbackends]
    split at h
    · cases h
    · rename_i hne
      rw [if_neg hne]
      split at h
      · cases h
      · exact h

theorem buildPool_inOrder (env : RebuildEnv) (o : IterOrder (PortUpstream × Unit))
    (g : IterOrder (TransportKind × List PortUpstream)) : buildPool (env.inOrder o g) = buildPool env := rfl

/-! ## All pools -/

/-- In another order there are the same groups. -/
theorem exists_rebuildGroup {u : PortUpstream} {us : List PortUpstream} (hin : (t, u :: us) ∈ rebuildGroups env upstreams) :
    ∃ u' us', (t, u' :: us') ∈ rebuildGroups env' upstreams := by
  obtain ⟨hu, rfl⟩ := (mem_of_mem_rebuildGroups hin u).mp List.mem_cons_self
  obtain ⟨list, hin', hmem⟩ := exists_mem_rebuildGroups env' hu
  cases list with
  | nil => cases hmem
  | cons u' us' => exact ⟨u', us', hin'⟩

theorem newPools_get_iff (h : rebuildAppPools env rebuild app upstreams interval = .ok rebuilt) {pool : PoolConfig} :
    rebuilt.newPools.get t = some pool ↔
      ∃ u us, (t, u :: us) ∈ rebuildGroups env upstreams ∧ buildPool env app interval rebuild t u (u :: us) = .ok pool := by
  rw [rebuildAppPools_eq] at h
  obtain ⟨newPools, hpools, h⟩ := exists_of_bind_eq_ok h
  obtain rfl := Except.ok.inj h
  rcases buildPools_get (nodup_rebuildGroups env upstreams) hpools t with ⟨u, us, pool', hin, hget, hbuild⟩ | ⟨hget, hempty⟩
  · rw [hget, Option.some.injEq]
    refine ⟨fun heq => ⟨u, us, hin, heq ▸ hbuild⟩, fun ⟨u', us', hin', hbuild'⟩ => ?_⟩
    have hlist := Option.some.inj ((mem_rebuildGroups.mp hin).symm.trans (mem_rebuildGroups.mp hin'))
    obtain ⟨rfl, rfl⟩ := List.cons.inj hlist
    exact Except.ok.inj (hbuild.symm.trans hbuild')
  · rw [hget, HashMap.get_empty]
    refine ⟨nofun, fun ⟨u, us, hin, _⟩ => ?_⟩
    cases hempty _ hin

theorem removed_of_rebuilt (h : rebuildAppPools env rebuild app upstreams interval = .ok rebuilt) :
    rebuilt.removed = [.http1, .http2, .ws].filter fun t => (rebuilt.newPools.get t).isNone := by
  rw [rebuildAppPools_eq] at h
  obtain ⟨newPools, -, h⟩ := exists_of_bind_eq_ok h
  obtain rfl := Except.ok.inj h
  rfl

section Orders

variable {o o' : IterOrder (PortUpstream × Unit)} {g g' : IterOrder (TransportKind × List PortUpstream)}

/-- Whatever the order, each group has the pool that was built. -/
theorem group_built (h : rebuildAppPools (env.inOrder o g) rebuild app upstreams interval = .ok rebuilt) {u : PortUpstream}
    {us : List PortUpstream} (hin : (t, u :: us) ∈ rebuildGroups (env.inOrder o' g') upstreams) :
    ∃ pool, rebuilt.newPools.get t = some pool ∧
      buildPool (env.inOrder o' g') app interval rebuild t u (u :: us) = .ok pool := by
  obtain ⟨hu, ht⟩ := (mem_of_mem_rebuildGroups hin u).mp List.mem_cons_self
  have hget : rebuilt.newPools.get t ≠ none := fun hnone => (rebuildAppPools_spec h).missing t hnone u hu ht
  obtain ⟨pool, hpool⟩ := Option.ne_none_iff_exists'.mp hget
  obtain ⟨u', us', hin', hbuild⟩ := (newPools_get_iff h).mp hpool
  refine ⟨pool, hpool, ?_⟩
  rw [buildPool_inOrder] at hbuild ⊢
  exact buildPool_congr List.mem_cons_self
    (fun v => (mem_of_mem_rebuildGroups hin v).trans (mem_of_mem_rebuildGroups hin' v).symm) hbuild

/-- What can be rebuilt in one order can be rebuilt in another, with the same pools. -/
theorem exists_rebuilt (h : rebuildAppPools (env.inOrder o g) rebuild app upstreams interval = .ok rebuilt)
    (o' : IterOrder (PortUpstream × Unit)) (g' : IterOrder (TransportKind × List PortUpstream)) :
    ∃ rebuilt', rebuildAppPools (env.inOrder o' g') rebuild app upstreams interval = .ok rebuilt' ∧
      ∀ t, rebuilt'.newPools.get t = rebuilt.newPools.get t := by
  obtain ⟨newPools, hnew⟩ : ∃ newPools, buildPools (env.inOrder o' g') app interval rebuild
      (rebuildGroups (env.inOrder o' g') upstreams) .empty = .ok newPools :=
    buildPools_isOk_iff.mpr fun t u us hin => (group_built h hin).imp fun pool hpool => hpool.2
  have hok : rebuildAppPools (env.inOrder o' g') rebuild app upstreams interval =
      .ok ⟨newPools, [.http1, .http2, .ws].filter fun t => (newPools.get t).isNone⟩ := by
    rw [rebuildAppPools_eq, hnew]
    rfl
  refine ⟨_, hok, fun t => Option.ext fun pool => ?_⟩
  rw [newPools_get_iff hok]
  constructor
  · rintro ⟨u, us, hin, hbuild⟩
    obtain ⟨pool', hget, hbuild'⟩ := group_built h hin
    rw [hget, Except.ok.inj (hbuild.symm.trans hbuild')]
  · intro hget
    obtain ⟨u, us, hin, -⟩ := (newPools_get_iff h).mp hget
    obtain ⟨u', us', hin'⟩ := exists_rebuildGroup hin
    obtain ⟨pool', hget', hbuild⟩ := group_built h hin'
    obtain rfl := Option.some.inj (hget.symm.trans hget')
    exact ⟨u', us', hin', hbuild⟩

end Orders

/-! ## Errors -/

theorem code_of_resolveUpstreams {resolve : PortUpstream → Except Str (List SocketAddr)} {list : List PortUpstream}
    (h : resolveUpstreams resolve list = .error e) : e.code = .invalidProxyOptions := by
  induction list with
  | nil => cases h
  | cons u us ih =>
      simp only [resolveUpstreams] at h
      split at h
      · obtain rfl := Except.error.inj h
        rfl
      · cases hus : resolveUpstreams resolve us with
        | error err =>
            rw [hus] at h
            obtain rfl := Except.error.inj h
            exact ih hus
        | ok addrs =>
            rw [hus] at h
            cases h

/-- Where hostnames are known, all that can go wrong has one code. -/
theorem code_of_buildPool {first : PortUpstream} {list : List PortUpstream}
    (hhost : first.secure = true → ∃ hostname, verifyHostnameForSecureUpstream app = .ok hostname)
    (h : buildPool env app interval rebuild t first list = .error e) : e.code = .invalidProxyOptions := by
  rw [buildPool_eq] at h
  split at h
  · obtain rfl := Except.error.inj h
    rfl
  · rcases error_of_bind_eq_error h with h | ⟨hostname, -, h⟩
    · split at h
      · rename_i hsecure
        obtain ⟨hostname, hok⟩ := hhost hsecure
        cases hok.symm.trans h
      · cases h
    · rcases error_of_bind_eq_error h with h | ⟨addrs, -, h⟩
      · exact code_of_resolveUpstreams h
      · split at h
        · obtain rfl := Except.error.inj h
          rfl
        · split at h
          · obtain rfl := Except.error.inj h
            rfl
          · cases h

/-- The loop stops at a group whose pool cannot be built. -/
theorem error_of_buildPools {groups : List (TransportKind × List PortUpstream)} {newPools : HashMap TransportKind PoolConfig}
    (h : buildPools env app interval rebuild groups newPools = .error e) :
    ∃ t u us, (t, u :: us) ∈ groups ∧ buildPool env app interval rebuild t u (u :: us) = .error e := by
  induction groups generalizing newPools with
  | nil => cases h
  | cons group groups ih =>
      obtain ⟨t, list⟩ := group
      cases list with
      | nil =>
          obtain ⟨t', u, us, hin, herr⟩ := ih h
          exact ⟨t', u, us, List.mem_cons_of_mem _ hin, herr⟩
      | cons u us =>
          simp only [buildPools] at h
          split at h
          · rename_i herr
            obtain rfl := Except.error.inj h
            exact ⟨t, u, us, List.mem_cons_self, herr⟩
          · obtain ⟨t', u', us', hin, herr⟩ := ih h
            exact ⟨t', u', us', List.mem_cons_of_mem _ hin, herr⟩

/-- The application has a hostname for all secure upstreams. -/
def HostnameKnown (app : ApplicationOptionsParsed) (upstreams : HashSet PortUpstream) : Prop :=
  ∀ u, upstreams.contains u = true → u.secure = true → ∃ hostname, verifyHostnameForSecureUpstream app = .ok hostname

theorem code_of_rebuildAppPools (hknown : HostnameKnown app upstreams)
    (h : rebuildAppPools env rebuild app upstreams interval = .error e) : e.code = .invalidProxyOptions := by
  rw [rebuildAppPools_eq] at h
  rcases error_of_bind_eq_error h with h | ⟨newPools, -, h⟩
  · obtain ⟨t, u, us, hin, herr⟩ := error_of_buildPools h
    have hu := ((mem_of_mem_rebuildGroups hin u).mp List.mem_cons_self).1
    exact code_of_buildPool (hknown u hu) herr
  · cases h

theorem alike_of_hostnameKnown (hknown : HostnameKnown app upstreams) (o o' : IterOrder (PortUpstream × Unit))
    (g g' : IterOrder (TransportKind × List PortUpstream)) :
    Alike upstreams (rebuildAppPools (env.inOrder o g) rebuild app upstreams interval)
      (rebuildAppPools (env.inOrder o' g') rebuild app upstreams interval) := by
  cases hresult : rebuildAppPools (env.inOrder o g) rebuild app upstreams interval with
  | ok rebuilt =>
      obtain ⟨rebuilt', hresult', hpools⟩ := exists_rebuilt hresult o' g'
      have hspec := rebuildAppPools_spec hresult
      rw [hresult']
      refine .built hpools ?_ fun t => ?_
      · rw [removed_of_rebuilt hresult, removed_of_rebuilt hresult']
        simp only [hpools]
      · rw [hspec.removed]
        refine ⟨hspec.missing t, fun hnone => Option.eq_none_iff_forall_ne_some.mpr fun pool hpool => ?_⟩
        obtain ⟨u, hu, ht⟩ := (hspec.built t pool hpool).inhabited
        exact hnone u hu ht
  | error err =>
      cases hresult' : rebuildAppPools (env.inOrder o' g') rebuild app upstreams interval with
      | ok rebuilt =>
          obtain ⟨rebuilt', hok, -⟩ := exists_rebuilt hresult' o g
          cases hok.symm.trans hresult
      | error err' =>
          have hcode := code_of_rebuildAppPools hknown hresult
          exact .failed ((code_of_rebuildAppPools hknown hresult').trans hcode.symm)

/-! ## Reachable states -/

/-- In this state the rebuild of the request is due: its checks pass, or a call has made them before. -/
inductive Rebuilds (w : World) (req : UpdateRequest) (next : Snapshot) : Prop where
  | checked (h : prepareUpdate w.shared.inner.options w.shared.inner.upstreamsByApp req = .ok next)
  | inFlight {c : CallId} (h : w.calls c = .updateRebuild req next)

/-- What a call has prepared is what it would prepare now. -/
theorem Rebuilds.prepared {c₀ : Catalog} {w : World} {req : UpdateRequest} {next : Snapshot} (h : Rebuilds w req next)
    (hled : Ledgered c₀ w) : prepareUpdate w.shared.inner.options w.shared.inner.upstreamsByApp req = .ok next := by
  cases h with
  | checked h => exact h
  | @inFlight c h =>
      have hknows := hled.knows c
      simp only [World.stages, h, Pc.stage] at hknows
      exact hknows.2.2.2

/-- All secure upstreams have been checked, those that are there and the one that is added. -/
theorem hostnameKnown_of_prepared {options : ProxyOptionsParsed} {last : Str → Option RebuildEnv} {c : Catalog}
    {req : UpdateRequest} {next : Snapshot} (hcoherent : Coherent options last c)
    (hnames : (options.applications.map ApplicationOptionsParsed.name).Nodup)
    (hprepare : prepareUpdate options c.upstreamsByApp req = .ok next) : HostnameKnown next.appDef next.upstreams := by
  obtain ⟨current, hspec⟩ := prepareUpdate_spec hprepare
  have ha := List.mem_of_find?_eq_some hspec.app
  have hname : next.appDef.name = req.appName := by simpa using List.find?_some hspec.app
  have hcurrent : c.upstreams req.appName = some {u | current.contains u = true} := by
    rw [Catalog.upstreams, hspec.found]
    rfl
  have hold : ∀ u, current.contains u = true → u.secure = true →
      ∃ hostname, verifyHostnameForSecureUpstream next.appDef = .ok hostname := fun u hu hs => by
    obtain ⟨a, ha', hname', hostname, hok⟩ := (hcoherent.app _ _ hcurrent).hostname u hu hs
    rw [← List.inj_on_of_nodup_map hnames ha' ha (hname'.trans hname.symm)]
    exact ⟨hostname, hok⟩
  intro u hu hs
  rw [hspec.upstreams, contains_apply] at hu
  cases hkind : req.kind with
  | add =>
      rw [hkind] at hu
      rcases hu with rfl | hu
      · exact hspec.secure hkind hs
      · exact hold u hu hs
  | remove =>
      rw [hkind] at hu
      exact hold u hu.2 hs

/-- In every reachable state the rebuild for an upstream that is added or removed does not depend on the order of iteration. -/
theorem rebuild_orderless {options : ProxyOptions} {w₀ w : World} (hnew : Proxy.new options = .ok w₀)
    (hrun : Reach Steps Free w₀ w) {req : UpdateRequest} {next : Snapshot} (hdue : Rebuilds w req next) (env : RebuildEnv)
    (rebuild : Nat) (o o' : IterOrder (PortUpstream × Unit)) (g g' : IterOrder (TransportKind × List PortUpstream)) :
    Alike next.upstreams
      (rebuildAppPools (env.inOrder o g) rebuild next.appDef next.upstreams next.healthCheckIntervalMs)
      (rebuildAppPools (env.inOrder o' g') rebuild next.appDef next.upstreams next.healthCheckIntervalMs) := by
  obtain ⟨parsed, hparsed, rfl⟩ := proxy_new hnew
  have hled := (Ledgered.new parsed).reach hrun
  have hoptions : w.shared.inner.options = parsed := options_of_reach hrun
  have hprepared := hdue.prepared hled
  rw [hoptions] at hprepared
  exact alike_of_hostnameKnown
    (hostnameKnown_of_prepared (hled.coherent hoptions) (distinct_of_parse hparsed).names hprepared) o o' g g'

/-! ## Two orders of three upstreams -/

/-- Every upstream resolves to itself. -/
def selfResolving : RebuildEnv := ⟨fun u => .ok [⟨u.hostname, false, u.port⟩], fun _ => .ok (), .stored, .stored⟩

/-- The maps as they are stored, and backwards. -/
theorem rebuild_orderless_sample :
    ∃ w next, Reach Steps Free (World.new sampleParsed) w ∧ Rebuilds w sampleAddition next ∧
      next.upstreams.entries.length = 3 ∧
      (rebuildAppPools selfResolving 2 next.appDef next.upstreams next.healthCheckIntervalMs).isOk = true ∧
      Alike next.upstreams
        (rebuildAppPools (selfResolving.inOrder .stored .stored) 2 next.appDef next.upstreams next.healthCheckIntervalMs)
        (rebuildAppPools (selfResolving.inOrder ⟨List.reverse, List.reverse_perm⟩ ⟨List.reverse, List.reverse_perm⟩) 2
          next.appDef next.upstreams next.healthCheckIntervalMs) := by
  obtain ⟨w, hrun, -, hcheck⟩ := reach_of_check Free Free removalRun sampleParsed 3
    (fun w => (prepareUpdate w.shared.inner.options w.shared.inner.upstreamsByApp sampleAddition).toOption.any fun next =>
      next.upstreams.entries.length = 3 &&
        (rebuildAppPools selfResolving 2 next.appDef next.upstreams next.healthCheckIntervalMs).isOk)
    (fun _ _ _ => id) (by decide) (by decide +kernel)
  cases hprepare : prepareUpdate w.shared.inner.options w.shared.inner.upstreamsByApp sampleAddition with
  | error err =>
      rw [hprepare] at hcheck
      cases hcheck
  | ok next =>
      rw [hprepare] at hcheck
      simp only [Except.toOption, Option.any_some, Bool.and_eq_true, decide_eq_true_eq] at hcheck
      have hdue : Rebuilds w sampleAddition next := .checked hprepare
      exact ⟨w, next, hrun, hdue, hcheck.1, hcheck.2, rebuild_orderless sample_new hrun hdue selfResolving 2 _ _ _ _⟩

end NeemataProxy
