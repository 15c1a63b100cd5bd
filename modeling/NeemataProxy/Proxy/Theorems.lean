import NeemataProxy.Proxy.Lemmas.Health
import NeemataProxy.Proxy.Lemmas.Release
import NeemataProxy.Proxy.Lemmas.RouterConfig
import NeemataProxy.Proxy.UpdateTheorems

/-!
# Theorems about the calls on a proxy
-/

namespace NeemataProxy

open Lib Routing Options

/-! ## Consistency between calls -/

/-- A stopped proxy runs nothing and has no address, a running one serves at its address. -/
structure Consistent (w : World) : Prop where
  state : w.shared.inner.state = .stopped ∨ w.shared.inner.state = .running
  stopped : w.shared.inner.state = .stopped → w.shared.inner.listenAddress = none ∧
    (∀ n, w.shared.server.services.get n = none) ∧
    ∀ h status, w.shared.server.statusOf h = some status → status = .terminated
  running : w.shared.inner.state = .running → ∃ h attempt addr,
    w.shared.server.services.get mainServiceName = some h ∧ w.shared.server.statusOf h = some .running ∧
    w.shared.server.serviceOf h = some (.listener attempt addr) ∧ w.shared.inner.listenAddress = some addr

/-- `Stopped` is written afresh, updates register health tasks only while the proxy runs, and setup tasks complete. -/
structure Orderly (w : World) (l : Label) : Prop where
  ends : EndsFresh w l
  upserts : UpsertsWhileRunning (fun _ => True) w l
  setups : SetupCompletes w l

instance (w : World) (l : Label) : Decidable (Orderly w l) :=
  decidable_of_iff (EndsFresh w l ∧ UpsertsWhileRunning (fun _ => True) w l ∧ SetupCompletes w l)
    ⟨fun h => ⟨h.1, h.2.1, h.2.2⟩, fun h => ⟨h.ends, h.upserts, h.setups⟩⟩

theorem live_step {w w' : World} {l : Label} (hsound : Sound w) (h : w.lifecycle.Live) (hfresh : EndsFresh w l)
    (hsetup : SetupCompletes w l) (hstep : step w l = some w') : w'.lifecycle.Live := by
  rcases step_cases hstep with ⟨c, choice, s', pc', hl, hact, rfl⟩ | ⟨t, rfl, ht, rfl⟩
  · rw [lifecycle_mk_update]
    rcases lifecycle_act rfl hsound.life hact (hfresh.of_call hl) with heq | hlife
    · rw [heq]; exact h
    · have hlossy : ¬ ∃ attempt lbTasks e, w.calls c = .startSetup attempt lbTasks ∧ choice.setup = .error e := by
        rintro ⟨attempt, lbTasks, e, hpc, he⟩
        have hok := hsetup (c, choice) hl (by rw [hpc]; rfl)
        simp [he, Except.isOk, Except.toBool] at hok
      rw [eq_false hlossy] at hlife
      exact h.step hsound.life hlife
  · exact h

theorem Serving.new (parsed : ProxyOptionsParsed) : Serving (World.new parsed) :=
  ⟨fun h => by simp [World.new, Shared.new] at h, fun h => by simp [World.new] at h⟩

theorem Swept.new (N : Str → Prop) (parsed : ProxyOptionsParsed) : Swept N (World.new parsed) :=
  fun _ n h hn => by simp [World.new, Shared.new, Server.new] at hn

/-- Nobody holds a service between calls, so every task that has not terminated is registered. -/
theorem Sound.registered_of_quiescent {w : World} (h : Sound w) (hq : w.Quiescent) {t : ServiceHandle}
    (ht : w.shared.server.statusOf t = some .running ∨ w.shared.server.statusOf t = some .signalled) :
    ∃ n, w.shared.server.services.get n = some t := by
  refine (h.owned.covered ht).resolve_right ?_
  rintro ⟨c, hc⟩
  have := hq c
  cases hpc : w.calls c <;> simp [World.hands, hpc, Pc.hands] at hc <;> simp [hpc, Pc.quiet] at this

/-- In a run in which `Stopped` is written afresh, updates register health tasks only while the proxy runs and every
setup task completes, the proxy is consistent whenever no call is in flight. -/
theorem consistent_of_quiescent {options : ProxyOptions} {w₀ w : World} (hnew : Proxy.new options = .ok w₀)
    (hrun : Reach Steps Orderly w₀ w) (hq : w.Quiescent) : Consistent w := by
  obtain ⟨parsed, -, rfl⟩ := proxy_new hnew
  have hinv : Sound w ∧ Serving w ∧ Swept (fun _ => True) w ∧ AddressKept w ∧ w.lifecycle.Live := by
    refine hrun.invariant (P := fun w => Sound w ∧ Serving w ∧ Swept (fun _ => True) w ∧ AddressKept w ∧ w.lifecycle.Live)
      ⟨.new parsed, .new parsed, .new _ parsed, fun _ => rfl, ⟨nofun, nofun⟩⟩ ?_
    rintro w l w' ⟨hsound, hserving, hswept, haddr, hlive⟩ hl hstep
    exact ⟨hsound.step hl.ends hstep, hserving.step hsound hl.ends hstep, hswept.step hsound hl.ends hl.upserts hstep,
      haddr.step hstep, live_step hsound hlive hl.ends hl.setups hstep⟩
  obtain ⟨hsound, hserving, hswept, haddr, hlive⟩ := hinv
  have hrole : ∀ c, (w.calls c).role = .bystander := fun c => by
    have := hq c
    cases hpc : w.calls c <;> simp_all [Pc.quiet, Pc.role]
  refine ⟨?_, fun hs => ⟨haddr (.inl hs), fun n => ?_, fun h status hstatus => ?_⟩, fun hr => ?_⟩
  · cases hstate : w.shared.inner.state with
    | stopped => exact .inl rfl
    | running => exact .inr rfl
    | starting =>
        obtain ⟨c, a, ha⟩ := hlive.starting hstate
        exact absurd ((hrole c).symm.trans ha) (by simp)
    | stopping =>
        obtain ⟨c, ha | ⟨rx, ha⟩⟩ := hlive.stopping hstate
        · exact absurd ((hrole c).symm.trans ha) (by simp)
        · exact absurd ((hrole c).symm.trans ha) (by simp)
  · cases hn : w.shared.server.services.get n with
    | none => rfl
    | some h => exact absurd trivial (hswept (.inl hs) n h hn)
  · by_contra hne
    obtain ⟨n, hn⟩ := hsound.registered_of_quiescent hq (t := h) (by cases status <;> simp_all)
    exact hswept (.inl hs) n h hn trivial
  · rcases hserving.running hr with ⟨c, hc⟩ | ⟨attempt, addr, ha, t, ht, hx⟩
    · rw [hrole c] at hc
      exact hc.elim
    · exact ⟨t, attempt, addr, ht, hsound.owned.registered ht, hx, ha⟩

/-- A start on its own. -/
theorem consistent_of_quiescent_sample :
    ∃ w, Reach Steps Orderly (World.new sampleParsed) w ∧ w.shared.inner.state = .running ∧ Consistent w := by
  obtain ⟨w, hrun, hidle, hcheck⟩ := reach_of_check Orderly Orderly (begins 0 .start :: steps 0 5) sampleParsed 1
    (fun w => w.shared.inner.state = .running ∧ ∀ c ∈ List.range 1, (w.calls c).quiet = true)
    (fun _ _ _ => id) (by decide) (by decide +kernel)
  rw [decide_eq_true_eq] at hcheck
  exact ⟨w, hrun, hcheck.1, consistent_of_quiescent sample_new hrun (quiescent_of_check hidle hcheck.2)⟩

/-- A start that a stop has cancelled, and a second start: the first one writes `Stopped` over the second. -/
def cancelledStartRun : List Label :=
  [begins 0 .start, begins 1 .stop] ++ steps 0 4 ++ steps 1 2 ++ steps 0 1 ++ steps 1 1 ++ [.taskEnds 0] ++ steps 1 2
    ++ [begins 2 .start] ++ steps 2 4 ++ steps 0 1 ++ steps 2 1

theorem inconsistent_after_cancelled_start :
    ∃ w, Proxy.new sampleOptions = .ok (World.new sampleParsed) ∧ Reach Steps SetupCompletes (World.new sampleParsed) w ∧
      w.Quiescent ∧ ¬ Consistent w := by
  obtain ⟨w, hrun, hidle, hcheck⟩ := reach_of_check SetupCompletes SetupCompletes cancelledStartRun sampleParsed 3
    (fun w => w.shared.inner.state = .stopped ∧ w.shared.server.services.get mainServiceName ≠ none ∧
      ∀ c ∈ List.range 3, (w.calls c).quiet = true)
    (fun _ _ _ => id) (by decide) (by decide +kernel)
  rw [decide_eq_true_eq] at hcheck
  exact ⟨w, sample_new, hrun, quiescent_of_check hidle hcheck.2.2,
    fun h => hcheck.2.1 ((h.stopped hcheck.1).2.1 mainServiceName)⟩

/-! ## Stops and listeners -/

/-- `Stopped` is written afresh, and no stop finishes while another call is in a `stop_all`. -/
structure Releasing (w : World) (l : Label) : Prop where
  ends : EndsFresh w l
  alone : StopsAlone w l

/-- In a run in which no stop finishes while another call is in a `stop_all`, and `Stopped` is written afresh, a stop
resolves only after the listeners of all attempts before it have terminated. -/
theorem stop_releases {options : ProxyOptions} {w₀ w w' : World} {l : Label} {seen : Nat}
    (hnew : Proxy.new options = .ok w₀) (hrun : Reach Steps Releasing w₀ w) (hl : Releasing w l)
    (hstep : step w l = some w') (hstop : StopResolves w l w' seen) : w'.shared.server.Released seen := by
  obtain ⟨parsed, -, rfl⟩ := proxy_new hnew
  have hinv : Sound w ∧ Swept (· = mainServiceName) w ∧ Notified w := by
    refine hrun.invariant (P := fun w => Sound w ∧ Swept (· = mainServiceName) w ∧ Notified w)
      ⟨.new parsed, .new _ parsed, .new parsed⟩ ?_
    rintro w l w' ⟨hsound, hswept, hnotified⟩ hl hstep
    exact ⟨hsound.step hl.ends hstep, hswept.step hsound hl.ends (hsound.upserts l) hstep,
      hnotified.step hsound hswept hl.ends hl.alone hstep⟩
  obtain ⟨hsound, hswept, hnotified⟩ := hinv
  have hdown : Down w seen := by
    rcases stopResolves_cases hsound hstep hstop with ⟨hf, hle⟩ | ⟨c, rx, hwait, hready⟩
    · exact (hsound.down_of_finishes hswept hl.ends hl.alone hf).le hle
    · exact (hnotified.waiting hwait).2 hready
  exact (hdown.step hstep).released

/-- `Releasing` when only the calls below `n` have begun. -/
def ReleasingBelow (n : Nat) (w : World) (l : Label) : Prop :=
  EndsFresh w l ∧ (w.finishesStop l = true → ∀ c ∈ List.range n, (w.calls c).shuttingDown = [])

instance (n : Nat) (w : World) (l : Label) : Decidable (ReleasingBelow n w l) := inferInstanceAs (Decidable (_ ∧ _))

theorem releasing_of_below {n : Nat} {w : World} {l : Label} (hidle : ∀ c, n ≤ c → w.calls c = .idle)
    (h : ReleasingBelow n w l) : Releasing w l := by
  refine ⟨h.1, fun hf c => ?_⟩
  by_cases hc : c < n
  · exact h.2 hf c (List.mem_range.mpr hc)
  · rw [hidle c (Nat.le_of_not_lt hc)]
    rfl

/-- The last step of a stop of a running proxy. -/
theorem stop_releases_sample :
    ∃ w w', Reach Steps Releasing (World.new sampleParsed) w ∧ step w (.advance 1 sampleChoice) = some w' ∧
      StopResolves w (.advance 1 sampleChoice) w' 1 ∧ w'.shared.server.Released 1 := by
  obtain ⟨w, hrun, hidle, hcheck⟩ := reach_of_check Releasing (ReleasingBelow 2)
    (begins 0 .start :: steps 0 5 ++ begins 1 .stop :: steps 1 2 ++ .taskEnds 0 :: steps 1 1) sampleParsed 2
    (fun w => ReleasingBelow 2 w (.advance 1 sampleChoice) ∧ w.stopSeen (.advance 1 sampleChoice) = some 1 ∧
      (step w (.advance 1 sampleChoice)).any (fun w' => (w'.calls 1).resolved) = true)
    (fun _ _ => releasing_of_below) (by decide) (by decide +kernel)
  obtain ⟨hl, hseen, hany⟩ := of_decide_eq_true hcheck
  cases hstep : step w (.advance 1 sampleChoice) with
  | none => simp [hstep] at hany
  | some w' =>
      rw [hstep] at hany
      have hstop : StopResolves w (.advance 1 sampleChoice) w' 1 := ⟨hseen, (1, sampleChoice), rfl, hany⟩
      exact ⟨w, w', hrun, hstep, hstop, stop_releases sample_new hrun (releasing_of_below hidle hl) hstep hstop⟩

/-- A stop cancels a start; the cancelled start takes the services first, and the stop resolves before the listener
has terminated. -/
theorem stop_resolves_before_release :
    ∃ w w', Proxy.new sampleOptions = .ok (World.new sampleParsed) ∧
      Reach Steps (fun w l => EndsFresh w l ∧ SetupCompletes w l) (World.new sampleParsed) w ∧
      step w (.advance 1 sampleChoice) = some w' ∧ StopResolves w (.advance 1 sampleChoice) w' 1 ∧
      ¬ w'.shared.server.Released 1 := by
  obtain ⟨w, hrun, -, hcheck⟩ := reach_of_check _ (fun w l => EndsFresh w l ∧ SetupCompletes w l)
    ([begins 0 .start, begins 1 .stop] ++ steps 0 5 ++ steps 1 2) sampleParsed 2
    (fun w => w.stopSeen (.advance 1 sampleChoice) = some 1 ∧
      (step w (.advance 1 sampleChoice)).any (fun w' => (w'.calls 1).resolved &&
        w'.shared.server.serviceOf 0 = some (.listener 0 ⟨Str.lit "127.0.0.1", 4000⟩) &&
        w'.shared.server.statusOf 0 = some .running) = true)
    (fun _ _ _ => id) (by decide) (by decide +kernel)
  obtain ⟨hseen, hany⟩ := of_decide_eq_true hcheck
  cases hstep : step w (.advance 1 sampleChoice) with
  | none => simp [hstep] at hany
  | some w' =>
      simp only [hstep, Option.any_some, Bool.and_eq_true, decide_eq_true_eq] at hany
      obtain ⟨⟨hdone, hservice⟩, hstatus⟩ := hany
      refine ⟨w, w', sample_new, hrun, hstep, ⟨hseen, (1, sampleChoice), rfl, hdone⟩, fun h => ?_⟩
      have hterm := h 0 0 _ hservice Nat.zero_lt_one
      simp [hstatus] at hterm

/-! ## Health tasks and pools -/

/-- The services other than the listener are one for each pool, and each checks the balancer that the pool and the
routing table hold. -/
structure HealthMatches (w : World) : Prop where
  named : ∀ n h, w.shared.server.services.get n = some h → n ≠ mainServiceName →
    ∃ app t pool, n = lbServiceName app t ∧ w.shared.inner.pools.get (app, t) = some pool
  checked : ∀ app t pool, w.shared.inner.pools.get (app, t) = some pool →
    ∃ h, w.shared.server.services.get (lbServiceName app t) = some h ∧ w.shared.server.statusOf h = some .running ∧
      w.shared.server.serviceOf h = some (.health pool.lb) ∧
      ∃ pools, w.shared.router.config.apps.get app = some pools ∧ pools.pool t = some pool

/-- `Stopped` is written afresh, updates register health tasks only while the proxy runs, and commit only while it is
not starting. -/
structure Attended (w : World) (l : Label) : Prop where
  ends : EndsFresh w l
  upserts : UpsertsWhileRunning (fun _ => True) w l
  commits : CommitsOutsideStarting w l

instance (w : World) (l : Label) : Decidable (Attended w l) :=
  decidable_of_iff (EndsFresh w l ∧ UpsertsWhileRunning (fun _ => True) w l ∧ CommitsOutsideStarting w l)
    ⟨fun h => ⟨h.1, h.2.1, h.2.2⟩, fun h => ⟨h.ends, h.upserts, h.commits⟩⟩

theorem healthMatches_of_matches {w : World} (hsound : Sound w)
    (hcoherent : Coherent w.shared.inner.options (lastRebuild w.shared.history) w.shared.catalog)
    (hmatches : ∀ app t, w.shared.server.Matches w.shared.inner.pools app t) : HealthMatches w := by
  refine ⟨fun n h hn hne => ?_, fun app t pool hpool => ?_⟩
  · rcases hsound.fits hn with ⟨rfl, -⟩ | ⟨⟨app, t, rfl⟩, -⟩
    · exact absurd rfl hne
    · have hm := hmatches app t
      unfold Server.Matches at hm
      split at hm
      · exact ⟨app, t, _, rfl, ‹_›⟩
      · simp [hm] at hn
  · have hm := hmatches app t
    rw [Server.Matches, hpool] at hm
    obtain ⟨h, hget, hservice⟩ := hm
    refine ⟨h, hget, hsound.owned.registered hget, hservice, appPools w.shared.inner.pools app, ?_, ?_⟩
    · have happ : ∃ a ∈ w.shared.inner.options.applications, a.name = app := by
        refine (hcoherent.applications app).mp (Option.isSome_iff_ne_none.mpr fun hnone => ?_)
        have := hcoherent.stray app t hnone
        simp [Shared.catalog, hpool] at this
      have hconfig : w.shared.router.config = buildRouterConfig w.shared.inner.options w.shared.inner.pools :=
        hcoherent.config
      rw [hconfig, get_apps_buildRouterConfig, if_pos happ]
    · rw [pool_appPools, hpool]

/-- In a run in which `Stopped` is written afresh, updates register health tasks only while the proxy runs and commit
only while it is not starting, each pool of a running proxy has its health task whenever no call is in flight. -/
theorem healthMatches_of_quiescent {options : ProxyOptions} {w₀ w : World} (hnew : Proxy.new options = .ok w₀)
    (hrun : Reach Steps Attended w₀ w) (hq : w.Quiescent) (hrunning : w.shared.inner.state = .running) :
    HealthMatches w := by
  obtain ⟨parsed, -, rfl⟩ := proxy_new hnew
  have hinv : Sound w ∧ Swept (fun _ => True) w ∧ Ledgered (World.new parsed).shared.catalog w ∧ Healthy w := by
    refine hrun.invariant (P := fun w => Sound w ∧ Swept (fun _ => True) w ∧
      Ledgered (World.new parsed).shared.catalog w ∧ Healthy w) ⟨.new parsed, .new _ parsed, .new parsed, .new parsed⟩ ?_
    rintro w l w' ⟨hsound, hswept, hled, hhealthy⟩ hl hstep
    exact ⟨hsound.step hl.ends hstep, hswept.step hsound hl.ends hl.upserts hstep, hled.step hstep,
      hhealthy.step hsound hswept hled hl.ends hl.commits hstep⟩
  obtain ⟨hsound, -, -, hhealthy⟩ := hinv
  have hfree : Reach Steps Free (World.new parsed) w := hrun.mono fun _ _ _ => trivial
  refine healthMatches_of_matches hsound (tables_coherent_of_reach parsed hfree) fun app t => ?_
  rcases hhealthy.running hrunning with ⟨c, hstale⟩ | hmatch
  · have := hq c
    cases hpc : w.calls c <;> simp_all [Pc.quiet, Pc.role, Role.Stale]
  · refine (hmatch app t).resolve_right ?_
    rintro ⟨c, hpending⟩
    have := hq c
    cases hpc : w.calls c <;> simp_all [Pc.quiet, Pc.Pending]

/-- An upstream that is added before the proxy starts. -/
theorem healthMatches_of_quiescent_sample :
    ∃ w, Reach Steps Attended (World.new sampleParsed) w ∧ w.shared.inner.pools.len = 1 ∧ HealthMatches w := by
  obtain ⟨w, hrun, hidle, hcheck⟩ := reach_of_check Attended Attended
    (begins 0 (.addUpstream (Str.lit "app") sampleUpstream) :: steps 0 5 ++ begins 1 .start :: steps 1 7) sampleParsed 2
    (fun w => w.shared.inner.state = .running ∧ w.shared.inner.pools.len = 1 ∧ ∀ c ∈ List.range 2, (w.calls c).quiet = true)
    (fun _ _ _ => id) (by decide) (by decide +kernel)
  rw [decide_eq_true_eq] at hcheck
  exact ⟨w, hrun, hcheck.2.1,
    healthMatches_of_quiescent sample_new hrun (quiescent_of_check hidle hcheck.2.2) hcheck.1⟩

/-- An upstream that is added while the proxy is starting gets no health task. -/
theorem pool_without_health_task :
    ∃ w, Proxy.new sampleOptions = .ok (World.new sampleParsed) ∧ Reach Steps Orderly (World.new sampleParsed) w ∧
      w.Quiescent ∧ w.shared.inner.state = .running ∧ ¬ HealthMatches w := by
  obtain ⟨w, hrun, hidle, hcheck⟩ := reach_of_check Orderly Orderly
    (begins 0 .start :: begins 1 (.addUpstream (Str.lit "app") sampleUpstream) :: steps 1 5 ++ steps 0 5) sampleParsed 2
    (fun w => w.shared.inner.state = .running ∧ (w.shared.inner.pools.get (Str.lit "app", .http1)).isSome = true ∧
      w.shared.server.services.get (lbServiceName (Str.lit "app") .http1) = none ∧
      ∀ c ∈ List.range 2, (w.calls c).quiet = true)
    (fun _ _ _ => id) (by decide) (by decide +kernel)
  rw [decide_eq_true_eq] at hcheck
  obtain ⟨hstate, hpool, hnone, hquiet⟩ := hcheck
  refine ⟨w, sample_new, hrun, quiescent_of_check hidle hquiet, hstate, fun h => ?_⟩
  obtain ⟨pool, hpool⟩ := Option.isSome_iff_exists.mp hpool
  obtain ⟨t, ht, -⟩ := h.checked _ _ pool hpool
  simp [hnone] at ht

end NeemataProxy
