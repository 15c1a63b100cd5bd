import NeemataProxy.Proxy.Joined
import NeemataProxy.Proxy.Lemmas.Completion

/-!
# A start whose setup fails

An error of `build_start_resources` takes the proxy back to `Stopped` and answers the start notifier. A setup task that does not
complete rejects the call and leaves both as they are.
-/

namespace NeemataProxy

open Lib Options

/-- No call of `start` begins. -/
def NoStart (_ : World) : Label → Prop
  | .begin _ .start _ => False
  | _ => True

/-- A call of `stop` ends at once, and a call of `start` begins an attempt. -/
structure World.AtRest (w : World) : Prop where
  stops : ∀ c choice, w.calls c = .idle → ∃ w', step w (.begin c .stop choice) = some w' ∧ w'.calls c = .done (.ok ())
  starts : ∀ c choice, w.calls c = .idle →
    ∃ w' lbTasks, step w (.begin c .start choice) = some w' ∧ w'.calls c = .startSetup w.shared.starts.length lbTasks

/-- What a failed start leaves behind: a proxy that is stopped, whose calls complete and which can be started again. -/
structure World.Recovered (w : World) : Prop where
  stopped : w.shared.inner.state = .stopped
  unbound : w.shared.inner.listenAddress = none
  answered : w.shared.inner.startNotifier = none
  joined : ∀ c rx, w.calls c = .startWait rx → w.Completes c
  waiting : ∀ c seen, (w.calls c).stopSeen = some seen → w.Completes c
  later : ∀ w', Reach Steps NoStart w w' → w'.AtRest

/-- The step leaves the state of the proxy as it is. -/
def KeepsState (w : World) (l : Label) : Prop := ∀ w' ∈ step w l, w'.shared.inner.state = w.shared.inner.state

instance (w : World) (l : Label) : Decidable (KeepsState w l) :=
  inferInstanceAs (Decidable (∀ w' ∈ step w l, w'.shared.inner.state = w.shared.inner.state))

variable {w w' : World} {c : CallId} {choice : Choice}

/-! ## Back in `Stopped` -/

theorem waitForStartReady_of_none {s : Shared} (h : s.inner.startNotifier = none) (rx : Nat) : s.waitForStartReady rx ≠ none := by
  unfold Shared.waitForStartReady
  rw [h]
  split <;> exact nofun

theorem freed_of_none {s : Shared} {pc : Pc} (h : s.inner.startNotifier = none) (hstops : pc.stops = true) : s.Freed pc :=
  ⟨hstops, fun rx _ => waitForStartReady_of_none h rx⟩

theorem ending_of_stopSeen (hwaiting : Waiting w) (h : w.shared.inner.startNotifier = none) {seen : Nat}
    (hseen : (w.calls c).stopSeen = some seen) : w.Ending c := by
  cases hpc : w.calls c with
  | stopWaitStart rx seen => exact .stop (freed_of_none h (by rw [hpc]; rfl))
  | stopAll seen => exact .stop (freed_of_none h (by rw [hpc]; rfl))
  | stopping seen hands => exact .stop (freed_of_none h (by rw [hpc]; rfl))
  | stopWait rx seen =>
      by_cases hnotifier : w.shared.inner.stopNotifier = some rx
      · obtain ⟨-, c', hstops⟩ := hwaiting.owned rx hnotifier
        exact .joined hpc (.inr ⟨c', freed_of_none h hstops⟩)
      · refine .joined hpc (.inl ?_)
        unfold Shared.waitForStopReady
        rw [if_neg hnotifier]
        split <;> exact nofun
  | _ =>
      rw [hpc] at hseen
      cases hseen

theorem step_begin {call : JsCall} {s' : Shared} {pc' : Pc} (hidle : w.calls c = .idle)
    (h : w.shared.begin call choice = (s', pc')) :
    step w (.begin c call choice) = some ⟨s', Function.update w.calls c pc'⟩ := by
  simp [step, hidle, h]

theorem atRest_of_stopped (hstate : w.shared.inner.state = .stopped) : w.AtRest where
  stops c choice hidle := by
    have hstop : w.shared.begin .stop choice =
        ({ w.shared with inner := { w.shared.inner with listenAddress := none } }, .done (.ok ())) := by
      unfold Shared.begin Shared.stop
      rw [hstate]
    exact ⟨_, step_begin hidle hstop, Function.update_self ..⟩
  starts c choice hidle := by
    have hstart : w.shared.begin .start choice =
        (w.shared.beginStart, .startSetup w.shared.starts.length (w.shared.lbTasks choice.lbOrder)) := by
      unfold Shared.begin Shared.start
      rw [hstate]
    exact ⟨_, _, step_begin hidle hstart, Function.update_self ..⟩

theorem stopped_act {s s' : Shared} {pc pc' : Pc} (hact : Act s c choice pc s' pc') (hidle : pc ≠ .idle)
    (hstate : s.inner.state = .stopped) : s'.inner.state = .stopped := by
  cases hact with
  | startBegun | stopBegunWaiting | stopBegun => cases hidle rfl
  | finalised attempt addr hbegun =>
      rw [hstate] at hbegun
      rcases hbegun with hbegun | hbegun <;> cases hbegun
  | setupFailed => exact state_notifyStart _ _
  | cancelled => exact (state_notifyStart _ _).trans hstate
  | stopEnded => exact state_endStop s
  | cancelEnded => rfl
  | _ => exact hstate

theorem stopped_begin {s : Shared} {call : JsCall} (hcall : call ≠ .start) (hstate : s.inner.state = .stopped) :
    (s.begin call choice).1.inner.state = .stopped := by
  cases call with
  | start => cases hcall rfl
  | stop =>
      unfold Shared.begin Shared.stop
      simp only [hstate]
  | addUpstream appName upstream | removeUpstream appName upstream =>
      simp only [Shared.begin]
      split <;> exact hstate

/-- Only a call of `start` leaves `Stopped`. -/
theorem stopped_step {l : Label} (hstep : step w l = some w') (hallow : NoStart w l)
    (hstate : w.shared.inner.state = .stopped) : w'.shared.inner.state = .stopped := by
  cases l with
  | begin c call choice =>
      have hcall : call ≠ .start := by
        rintro rfl
        exact hallow
      simp only [step, idle_of_begin hstep, Option.some.injEq] at hstep
      rw [← hstep]
      exact stopped_begin hcall hstate
  | advance c choice =>
      obtain ⟨⟨s', pc'⟩, hadvance, rfl⟩ := Option.map_eq_some_iff.mp hstep
      refine stopped_act (advance_act hadvance) (fun hidle => ?_) hstate
      rw [hidle] at hadvance
      cases hadvance
  | taskEnds t =>
      simp only [step, Option.ite_none_right_eq_some, Option.some.injEq] at hstep
      rw [← hstep.2]
      exact hstate

theorem recovered_of_stopped (hwaited : Waited w) (hstate : w.shared.inner.state = .stopped)
    (haddress : w.shared.inner.listenAddress = none) (hnotifier : w.shared.inner.startNotifier = none) : w.Recovered where
  stopped := hstate
  unbound := haddress
  answered := hnotifier
  joined c rx hpc := completes_of_ending hwaited (.start hpc (waitForStartReady_of_none hnotifier rx))
  waiting c seen hseen := completes_of_ending hwaited (ending_of_stopSeen hwaited.waiting hnotifier hseen)
  later w' hrun := by
    have hstopped : w'.shared.inner.state = .stopped := by
      induction hrun with
      | refl => exact hstate
      | tail _ hallow hstep ih => exact stopped_step hstep hallow ih
    exact atRest_of_stopped hstopped

/-! ## The two ways to fail -/

theorem failStart_inner (s : Shared) (err : JsError) : (s.failStart err).inner.state = .stopped ∧
    (s.failStart err).inner.listenAddress = none ∧ (s.failStart err).inner.startNotifier = none :=
  ⟨state_notifyStart _ _, listenAddress_notifyStart _ _, startNotifier_notifyStart _ _⟩

theorem works_of_buildStartResources {env : SetupEnv} {listen : Str} {tls : Option ListenerTlsOptionsParsed}
    {addr : BoundListenAddress} (h : Shared.buildStartResources env listen tls = .ok addr) : env.Works tls := by
  obtain ⟨bind, localAddr, setNonblocking, tlsSettings⟩ := env
  cases bind with
  | error e => cases h
  | ok =>
    cases localAddr with
    | error e => cases h
    | ok addr =>
      cases setNonblocking with
      | error e => cases h
      | ok =>
        cases tls with
        | none => exact ⟨rfl, rfl, rfl, nofun⟩
        | some tls =>
          cases tlsSettings with
          | error e => cases h
          | ok => exact ⟨rfl, rfl, rfl, fun _ => rfl⟩

/-- A setup that completes with an error takes the proxy back to `Stopped`; one that does not complete only rejects the call. -/
theorem setupStart_fails {s : Shared} (hfails : ¬ choice.SetupWorks s.inner.options.tls) (a : Nat)
    (lbTasks : List (Str × LoadBalancer)) :
    ∃ err, s.setupStart a lbTasks choice.setup =
      (if choice.setup.isOk then s.failStart err else s, .done (.error err)) := by
  cases hsetup : choice.setup with
  | error e => exact ⟨_, rfl⟩
  | ok env =>
      have hbroken : ¬ env.Works s.inner.options.tls := fun hworks =>
        hfails ⟨env, by simp [hsetup, Except.toOption], hworks⟩
      cases hbuild : Shared.buildStartResources env s.inner.options.listen s.inner.options.tls with
      | error err => exact ⟨err, by simp [Shared.setupStart, hbuild, Except.isOk, Except.toBool]⟩
      | ok addr => exact absurd (works_of_buildStartResources hbuild) hbroken

theorem keepsState_reach {w₂ w₃ : World} (hrun : Reach Steps KeepsState w₂ w₃) :
    w₃.shared.inner.state = w₂.shared.inner.state := by
  induction hrun with
  | refl => rfl
  | tail _ hkeeps hstep ih => exact (hkeeps _ hstep).trans ih

theorem starting_of_begins {a : Nat} (h : BeginsAttempt w c a w') : w'.shared.inner.state = .starting := by
  obtain ⟨choice, lbTasks, hstep, hcalls⟩ := h
  have hact := own_or_kept hstep c
  rw [hcalls, idle_of_begin hstep] at hact
  rcases hact with hact | ⟨choice', hact⟩
  · cases hact
  · generalize hpc' : Pc.startSetup a lbTasks = pc' at hact
    generalize w'.shared = s' at hact
    cases hact with
    | startBegun => rfl
    | _ => cases hpc'

/-- A start attempt whose setup fails, while no other call changes the state, rejects, and leaves a recovered proxy exactly when its
setup task completes. -/
theorem failedStart_recovers_iff {options : ProxyOptions} {w₀ : World} (hnew : Proxy.new options = .ok w₀) {o : CallId} {a : Nat}
    {w₁ w₂ w₃ w₄ : World} (hrun₁ : Reach Steps Free w₀ w₁) (hbegins : BeginsAttempt w₁ o a w₂)
    (hrun₂ : Reach Steps KeepsState w₂ w₃) {lbTasks : List (Str × LoadBalancer)} (hsetup : w₃.calls o = .startSetup a lbTasks)
    {choice : Choice} (hfails : ¬ choice.SetupWorks w₃.shared.inner.options.tls) (hstep : step w₃ (.advance o choice) = some w₄) :
    (∃ err, w₄.calls o = .done (.error err)) ∧ (w₄.Recovered ↔ choice.setup.isOk = true) := by
  obtain ⟨parsed, -, rfl⟩ := proxy_new hnew
  have hstate : w₃.shared.inner.state = .starting := (keepsState_reach hrun₂).trans (starting_of_begins hbegins)
  have hwaited : Waited w₄ := by
    obtain ⟨choice₁, lbTasks₁, hstep₁, -⟩ := hbegins
    have hrun₃ : Reach Steps Free (World.new parsed) w₃ :=
      (hrun₁.tail trivial hstep₁).trans (hrun₂.mono fun _ _ _ => trivial)
    exact (Waited.new parsed).reach (hrun₃.tail trivial hstep)
  obtain ⟨err, hfailed⟩ := setupStart_fails hfails a lbTasks
  have hw₄ := step_setup rfl hsetup hstep
  rw [hfailed] at hw₄
  refine ⟨⟨err, by rw [hw₄]; exact Function.update_self ..⟩, fun hrecovered => ?_, fun hok => ?_⟩
  · by_contra hlost
    have hstopped := hrecovered.stopped
    rw [hw₄, if_neg hlost, hstate] at hstopped
    cases hstopped
  · rw [if_pos hok] at hw₄
    obtain ⟨hstopped, hunbound, hanswered⟩ := failStart_inner w₃.shared err
    exact recovered_of_stopped hwaited (by rw [hw₄]; exact hstopped) (by rw [hw₄]; exact hunbound) (by rw [hw₄]; exact hanswered)

/-! ## A taken port, and a setup task that does not complete -/

/-- Call 0 begins the first attempt and takes the step of its setup. -/
theorem one_start (choice : Choice) (check : World → Bool)
    (h : ((step (.new sampleParsed) (begins 0 .start)).any fun w₂ => (w₂.calls 0).begun 0 &&
      (step w₂ (.advance 0 choice)).any check) = true) :
    ∃ w₂ w₄, BeginsAttempt (.new sampleParsed) 0 0 w₂ ∧ step w₂ (.advance 0 choice) = some w₄ ∧ check w₄ = true := by
  obtain ⟨w₂, hbegins, h₂⟩ := (Option.any_eq_true _ _).mp h
  rw [Bool.and_eq_true] at h₂
  obtain ⟨w₄, hstep, hcheck⟩ := (Option.any_eq_true _ _).mp h₂.2
  exact ⟨w₂, w₄, begins_of_begun hbegins h₂.1, hstep, hcheck⟩

/-- The port is taken. -/
theorem failedStart_recovers_sample :
    ∃ w₂ w₄, BeginsAttempt (.new sampleParsed) 0 0 w₂ ∧ step w₂ (.advance 0 portTaken) = some w₄ ∧ w₄.Recovered := by
  obtain ⟨w₂, w₄, hbegins, hstep, -⟩ := one_start portTaken (fun _ => true) (by decide +kernel)
  have hfails : ¬ portTaken.SetupWorks w₂.shared.inner.options.tls := by
    rintro ⟨env, henv, hbind, -⟩
    obtain rfl := Option.some.inj henv
    cases hbind
  obtain ⟨choice, lbTasks, -, hsetup⟩ := id hbegins
  exact ⟨w₂, w₄, hbegins, hstep, (failedStart_recovers_iff sample_new .refl hbegins .refl hsetup hfails hstep).2.mpr rfl⟩

/-- The setup task panics. -/
def setupPanics : Choice := { sampleChoice with setup := .error (Str.lit "task 7 panicked") }

/-- The start rejects, and the state stays `Starting` with a notifier that nobody will answer. -/
theorem lost_setup_leaves_starting :
    ∃ w₂ w₄ err, Proxy.new sampleOptions = .ok (World.new sampleParsed) ∧ BeginsAttempt (.new sampleParsed) 0 0 w₂ ∧
      step w₂ (.advance 0 setupPanics) = some w₄ ∧ w₄.calls 0 = .done (.error err) ∧ w₄.shared.inner.state = .starting ∧
      w₄.shared.inner.startNotifier = some 0 ∧ w₄.shared.waitForStartReady 0 = none ∧ ¬ w₄.Recovered := by
  obtain ⟨w₂, w₄, hbegins, hstep, hcheck⟩ := one_start setupPanics
    (fun w => (w.calls 0).failure = some .genericFailure ∧ w.shared.inner.state = .starting ∧
      w.shared.inner.startNotifier = some 0 ∧ (w.shared.waitForStartReady 0).isNone) (by decide +kernel)
  obtain ⟨hfailure, hstarting, hnotifier, hblocked⟩ := of_decide_eq_true hcheck
  obtain ⟨err, hdone, -⟩ := failure_eq_some hfailure
  refine ⟨w₂, w₄, err, sample_new, hbegins, hstep, hdone, hstarting, hnotifier, Option.isNone_iff_eq_none.mp hblocked,
    fun hrecovered => ?_⟩
  rw [hrecovered.stopped] at hstarting
  cases hstarting

end NeemataProxy
