import NeemataProxy.Proxy.FailedStart
import NeemataProxy.Proxy.Progress
import NeemataProxy.Proxy.Theorems

/-!
# One call makes the proxy consistent again

Concurrent calls can leave services behind: a proxy at rest may say that it is stopped and still listen. A start of a stopped proxy
or a stop of a running one puts this right when it is left alone.
-/

namespace NeemataProxy

open Lib Options

/-- Call `c` has started the proxy that was stopped in `w`. -/
structure World.Started (w w' : World) (c : CallId) : Prop where
  resting : w'.Resting
  returned : w'.calls c = .done (.ok ())
  running : w'.shared.inner.state = .running
  consistent : Consistent w'
  healthy : (∀ n, w.shared.server.services.get n = none) → HealthMatches w'

/-- Call `c` has stopped the proxy. -/
structure World.StoppedBy (w : World) (c : CallId) : Prop where
  resting : w.Resting
  returned : w.calls c = .done (.ok ())
  stopped : w.shared.inner.state = .stopped
  consistent : Consistent w

variable {w w' : World} {l : Label} {c : CallId} {choice : Choice} {s s' : Shared} {pc pc' : Pc}

/-! ## At rest -/

theorem Pc.role_of_quiet (h : pc.quiet = true) : pc.role = .bystander := by
  cases pc with
  | idle | done => rfl
  | _ => cases h

/-- A proxy at rest is sound, whatever the calls before have done. -/
theorem World.Resting.sound (hrest : w.Resting) (howned : Owned w.shared.server w.hands) (hfitted : Fitted w) : Sound w := by
  have hrole : ∀ c, w.lifecycle.roles c = .bystander := fun c => Pc.role_of_quiet (hrest.quiet c)
  have hnotifier : w.lifecycle.notifier = none := hrest.started
  refine ⟨⟨?_, ?_, ?_, ?_, ?_, ?_, ?_, ?_, ?_⟩, howned, hfitted.formed, hfitted.fits⟩
  · intro c a h; simp [hrole] at h
  · intro c c' a a' h; simp [hrole] at h
  · intro a h; simp [hnotifier] at h
  · rintro a ⟨result, h⟩; exact (List.getElem?_eq_some_iff.mp h).1
  · intro c rx seen h; simp [hrole] at h
  · intro c seen h; simp [hrole] at h
  · intro c rx h; simp [hrole] at h
  · intro c h; simp [hrole] at h
  · intro c h; simp [hrole] at h

theorem World.Resting.serving (hrest : w.Resting) (hstate : w.shared.inner.state = .stopped) : Serving w := by
  refine ⟨fun hrunning => ?_, fun {c _ _ _} hpc _ => ?_⟩
  · cases hstate.symm.trans hrunning
  · have hquiet := hrest.quiet c
    rw [hpc] at hquiet
    cases hquiet

theorem World.Resting.healthy (hrest : w.Resting) (hstate : w.shared.inner.state = .stopped) : Healthy w := by
  refine ⟨fun c => ?_, fun hstarting => ?_, fun hrunning => ?_⟩
  · have hquiet := hrest.quiet c
    cases hpc : w.calls c with
    | updateServices =>
        rw [hpc] at hquiet
        cases hquiet
    | _ => trivial
  · cases hstate.symm.trans hstarting
  · cases hstate.symm.trans hrunning

/-- Nothing is registered that has to be cleared away. -/
theorem World.Resting.swept (hrest : w.Resting) (hempty : w.shared.inner.state = .stopped → ∀ n, w.shared.server.services.get n = none) :
    Swept (fun _ => True) w := by
  rintro (hstate | ⟨c, hcleared⟩) n h hget -
  · cases (hempty hstate n).symm.trans hget
  · have hrole := Pc.role_of_quiet (hrest.quiet c)
    rcases hcleared.role with ⟨a, ha⟩ | ha <;> cases hrole.symm.trans ha

theorem fitted_of_reach {parsed : ProxyOptionsParsed} {allow : World → Label → Prop} (hrun : Reach Steps allow (.new parsed) w) :
    Fitted w :=
  hrun.invariant (P := Fitted) ⟨(Sound.new parsed).formed, (Sound.new parsed).fits⟩ fun _ _ _ h _ hstep => h.step hstep

theorem addressKept_of_reach {parsed : ProxyOptionsParsed} {allow : World → Label → Prop}
    (hrun : Reach Steps allow (.new parsed) w) : AddressKept w :=
  hrun.invariant (P := AddressKept) (fun _ => rfl) fun _ _ _ h _ hstep => h.step hstep

/-! ## A call on its own -/

/-- Call `c` is on its own, and nobody is going to stop what it has not seen. -/
structure Lone (c : CallId) (w : World) : Prop where
  sound : Sound w
  fresh : ¬ w.Stale
  others : ∀ c', c' ≠ c → (w.calls c').quiet = true

theorem closing_of_endsSince {seen : Nat} (h : pc.endsSince = some seen) : pc.role = .closing seen := by
  cases pc with
  | startCancelling attempt hands | stopping attempt hands =>
      simp only [Pc.endsSince] at h
      split at h
      · exact congrArg Role.closing (Option.some.inj h)
      · cases h
  | _ => cases h

theorem endsFresh_of_fresh (hsound : Sound w) (hfresh : ¬ w.Stale) (l : Label) : EndsFresh w l := by
  intro p _ seen hends
  have hrole := closing_of_endsSince hends
  have hle : seen ≤ w.shared.starts.length := hsound.life.closing (c := p.1) hrole
  refine .inr (Nat.le_antisymm hle (Nat.le_of_not_lt fun hlt => hfresh ⟨p.1, ?_⟩))
  rw [hrole]
  exact hlt

theorem attempts_continue (hact : Act s c choice pc s' pc') (hbegun : pc ≠ .idle) : s'.starts.length = s.starts.length := by
  cases hact with
  | startBegun | stopBegunWaiting | stopBegun => exact absurd rfl hbegun
  | stopEnded => rw [starts_endStop]
  | setupFailed => rw [Shared.failStart, starts_notifyStart]
  | finalised | cancelled => rw [starts_notifyStart]
  | _ => rfl

/-- Only a new attempt makes calls stale. -/
theorem fresh_act (hsound : Sound w) (hfresh : ¬ w.Stale) (hact : Act w.shared c choice (w.calls c) s' pc')
    (hbegun : w.calls c ≠ .idle) : ¬ World.Stale ⟨s', Function.update w.calls c pc'⟩ := by
  rintro ⟨c', hstale⟩
  simp only [attempts_continue hact hbegun] at hstale
  by_cases hc : c' = c
  · subst hc
    simp only [Function.update_self] at hstale
    have hkept : pc'.role = (w.calls c').role → False := fun hrole => hfresh ⟨c', hrole ▸ hstale⟩
    have hlife := fun a => hsound.life.opening (c := c') (a := a)
    generalize hpc : w.calls c' = pc at hact hkept hbegun
    cases hact with
    | inserted | signalled | awaited => exact hkept (role_withHands _ _)
    | cancelTook | stopTook => exact hkept rfl
    | startAwaited seen hr => exact hfresh ⟨c', by rw [hpc]; exact hstale⟩
    | cancelled attempt addr hstate =>
        have hnewest : attempt + 1 = w.shared.starts.length := (hlife attempt (congrArg Pc.role hpc)).1
        exact absurd hnewest (Nat.ne_of_lt hstale)
    | stopBegunWaiting | stopBegun => exact hbegun rfl
    | _ => exact hstale.elim
  · simp only [Function.update_of_ne hc] at hstale
    exact hfresh ⟨c', hstale⟩

/-- Whoever takes a step on its own is the call. -/
theorem Lone.own (h : Lone c w) (hcontinues : Continues w l) (hstep : step w l = some w') :
    (∃ choice s' pc', l.call = some (c, choice) ∧ w.calls c ≠ .idle ∧ Act w.shared c choice (w.calls c) s' pc' ∧
      w' = ⟨s', Function.update w.calls c pc'⟩) ∨
    ∃ t, w' = { w with shared := w.shared.onServer (w.shared.server.setStatus t .terminated) } := by
  cases l with
  | begin c' call choice => exact hcontinues.elim
  | advance c' choice =>
      rcases step_cases hstep with ⟨c'', choice', s', pc', hl, hact, rfl⟩ | ⟨t, hl, -⟩
      · obtain ⟨rfl, rfl⟩ := Prod.mk.inj (Option.some.inj hl)
        have hbegun := begun_of_advance hstep
        by_cases hc : c' = c
        · subst hc
          exact .inl ⟨choice, s', pc', rfl, hbegun, hact, rfl⟩
        · have hquiet := h.others c' hc
          cases hpc : w.calls c' with
          | idle => exact absurd hpc hbegun
          | done result => exact absurd (hpc ▸ hact) not_act_done
          | _ =>
              rw [hpc] at hquiet
              cases hquiet
      · cases hl
  | taskEnds t =>
      rcases step_cases hstep with ⟨c', choice', s', pc', hl, -⟩ | ⟨t', -, -, rfl⟩
      · cases hl
      · exact .inr ⟨t', rfl⟩

theorem Lone.step (h : Lone c w) (hcontinues : Continues w l) (hstep : NeemataProxy.step w l = some w') : Lone c w' := by
  have hsound := h.sound.step (endsFresh_of_fresh h.sound h.fresh l) hstep
  rcases h.own hcontinues hstep with ⟨choice, s', pc', -, hbegun, hact, rfl⟩ | ⟨t, rfl⟩
  · refine ⟨hsound, fresh_act h.sound h.fresh hact hbegun, fun c' hc' => ?_⟩
    simp only [Function.update_of_ne hc']
    exact h.others c' hc'
  · exact ⟨hsound, h.fresh, h.others⟩

theorem fresh_begin (hact : Act s c choice .idle s' pc') : ¬ pc'.role.Stale s'.starts.length := by
  generalize hpc : Pc.idle = pc at hact
  cases hact with
  | stopBegunWaiting | stopBegun =>
      rw [starts_beginStop]
      exact Nat.lt_irrefl _
  | inserted hhands | signalled hhands | awaited hhands =>
      subst hpc
      simp [Pc.hands, Hands.empty] at hhands
  | startAwaited | cancelTook | stopTook | cancelled => cases hpc
  | _ => exact id

theorem idle_of_label {call : JsCall} (hstep : step w (.begin c call choice) = some w') :
    ∀ p ∈ (Label.begin c call choice).call, w.calls p.1 = .idle := by
  intro p hp
  obtain rfl := Option.some.inj hp
  exact idle_of_begin hstep

theorem endsFresh_begin {call : JsCall} (hstep : step w (.begin c call choice) = some w') :
    EndsFresh w (.begin c call choice) := by
  intro p hp seen hends
  rw [idle_of_label hstep p hp] at hends
  cases hends

/-- The call that begins at rest is on its own. -/
theorem lone_of_begin {call : JsCall} (hrest : w.Resting) (hsound : Sound w) (hstep : step w (.begin c call choice) = some w') :
    Lone c w' := by
  have hidle := idle_of_begin hstep
  have hothers : ∀ c', c' ≠ c → (w'.calls c').quiet = true := fun c' hc' => by
    rw [calls_step hstep fun p hp => by obtain rfl := Option.some.inj hp; exact hc'.symm]
    exact hrest.quiet c'
  refine ⟨hsound.step (endsFresh_begin hstep) hstep, ?_, hothers⟩
  rintro ⟨c', hstale⟩
  by_cases hc : c' = c
  · subst hc
    have hact := begin_act w.shared c' call choice
    simp only [NeemataProxy.step, hidle, Option.some.injEq] at hstep
    subst hstep
    simp only [Function.update_self] at hstale
    exact fresh_begin hact hstale
  · rw [Pc.role_of_quiet (hothers c' hc)] at hstale
    exact hstale.elim

/-! ## A start on its own -/

/-- No new call begins, and the setup of a start works. -/
def Working (w : World) (l : Label) : Prop :=
  Continues w l ∧ ∀ p ∈ l.call, (w.calls p.1).inSetup = true → p.2.SetupWorks w.shared.inner.options.tls

theorem Working.settling (h : Working w l) : Settling w l := by
  refine ⟨h.1, fun p hp hsetup => ?_⟩
  obtain ⟨env, henv, -⟩ := h.2 p hp hsetup
  cases hchoice : p.2.setup with
  | ok => rfl
  | error e =>
      rw [hchoice] at henv
      cases henv

theorem setupWorks_sample (tls : Option ListenerTlsOptionsParsed) : sampleChoice.SetupWorks tls :=
  ⟨_, rfl, rfl, rfl, rfl, fun _ => rfl⟩

/-- A setup that does not work can work instead. -/
theorem exists_working (hallow : Settling w l) (hstep : Steps w l w') : ∃ l' w'', Working w l' ∧ Steps w l' w'' := by
  cases l with
  | begin c call choice => exact hallow.1.elim
  | taskEnds t => exact ⟨.taskEnds t, w', ⟨trivial, fun p hp => by cases hp⟩, hstep⟩
  | advance c choice =>
      cases hpc : w.calls c with
      | startSetup attempt lbTasks =>
          obtain ⟨r, hr⟩ : ∃ r, w.shared.advance c sampleChoice (w.calls c) = some r := by
            rw [hpc]
            exact ⟨_, rfl⟩
          refine ⟨.advance c sampleChoice, _, ⟨trivial, fun p hp _ => ?_⟩, by rw [Steps, step, hr]; rfl⟩
          obtain rfl := Option.some.inj hp
          exact setupWorks_sample _
      | _ =>
          refine ⟨.advance c choice, w', ⟨trivial, fun p hp hsetup => ?_⟩, hstep⟩
          obtain rfl := Option.some.inj hp
          rw [hpc] at hsetup
          cases hsetup

theorem inevitable_working {P : World → Prop} (h : Inevitable Steps Settling P w) : Inevitable Steps Working P w := by
  refine h.restrict (fun w l hallow => ?_) fun w l w' hallow hstep => ?_
  · exact hallow.settling
  · exact exists_working hallow hstep

/-- How far a start is that works and that nobody interferes with. -/
inductive World.StartsAlone (w : World) (c : CallId) : Prop where
  | opening {a : Nat} (hrole : (w.calls c).role = .opening a) (hstate : w.shared.inner.state = .starting)
  | waiting {a : Nat} (hpc : w.calls c = .startWait a) (hready : w.shared.waitForStartReady a = some (.ok ()))
      (hstate : w.shared.inner.state = .running)
  | started (hpc : w.calls c = .done (.ok ())) (hstate : w.shared.inner.state = .running)

/-- The outcome that an attempt sends is the one that its own call finds. -/
theorem waitForStartReady_notifyStart {a : Nat} (hnotifier : s.inner.startNotifier = some a) (hlt : a < s.starts.length)
    (result : Except Str Unit) : (s.notifyStart result).waitForStartReady a = some (result.mapError .fromReason) := by
  simp only [Shared.notifyStart, hnotifier, Shared.waitForStartReady, List.getElem?_set_self hlt]

theorem startsAlone_act (hsound : Sound w) (h : w.StartsAlone c) (hact : Act w.shared c choice (w.calls c) s' pc')
    (hsetup : (w.calls c).inSetup = false) : World.StartsAlone ⟨s', Function.update w.calls c pc'⟩ c := by
  have hself : Function.update w.calls c pc' c = pc' := Function.update_self ..
  cases h with
  | opening hrole hstate =>
      obtain ⟨hnewest, hnotifier, -⟩ := hsound.life.opening (c := c) hrole
      have hstay : pc'.role = (w.calls c).role → s'.inner.state = w.shared.inner.state →
          World.StartsAlone ⟨s', Function.update w.calls c pc'⟩ c := fun hr hs =>
        .opening ((congrArg Pc.role hself).trans (hr.trans hrole)) (hs.trans hstate)
      generalize hpc : w.calls c = pc at hact hrole hsetup hstay
      cases hact with
      | setupDone | setupLost | setupFailed => cases hsetup
      | healthSpawned | listenerSpawned => exact hstay rfl rfl
      | inserted | signalled | awaited => exact hstay (role_withHands _ _) rfl
      | finalised attempt addr =>
          obtain rfl := Role.opening.inj hrole
          have hlt : attempt < w.shared.starts.length := Nat.lt_of_lt_of_eq (Nat.lt_succ_self attempt) hnewest
          refine .waiting hself ?_ (state_notifyStart _ _)
          exact waitForStartReady_notifyStart
            (s := { w.shared with inner := { w.shared.inner with state := .running, listenAddress := some addr } }) hnotifier hlt _
      | cancelled attempt addr hstopped =>
          rw [hstate] at hstopped
          rcases hstopped with hstopped | hstopped <;> cases hstopped
      | _ => cases hrole
  | waiting hpc hready hstate =>
      rw [hpc] at hact
      generalize hwait : Pc.startWait _ = pc at hact
      cases hact with
      | startSettled hr =>
          obtain rfl := Pc.startWait.inj hwait
          obtain rfl := Option.some.inj (hr.symm.trans hready)
          exact .started hself hstate
      | inserted hhands | signalled hhands | awaited hhands =>
          subst hwait
          simp [Pc.hands, Hands.empty] at hhands
      | _ => cases hwait
  | started hpc => exact absurd (hpc ▸ hact) not_act_done

theorem startsAlone_step (hlone : Lone c w) (h : w.StartsAlone c) (hallow : Working w l) (hstep : step w l = some w') :
    w'.StartsAlone c := by
  rcases hlone.own hallow.1 hstep with ⟨choice, s', pc', hl, -, hact, heq⟩ | ⟨t, rfl⟩
  · cases hsetup : (w.calls c).inSetup with
    | false =>
        subst heq
        exact startsAlone_act hlone.sound h hact hsetup
    | true =>
        have hworks := hallow.2 (c, choice) hl hsetup
        cases hpc : w.calls c with
        | startSetup attempt lbTasks =>
            obtain ⟨addr, hshared, hcalls⟩ := setup_works hl hpc hworks hstep
            cases h with
            | opening hrole hstate =>
                exact .opening (a := attempt) (by rw [hcalls]; rfl) ((congrArg (·.inner.state) hshared).trans hstate)
            | waiting hwait | started hwait => cases hpc.symm.trans hwait
        | _ =>
            rw [hpc] at hsetup
            cases hsetup
  · cases h with
    | opening hrole hstate => exact .opening hrole hstate
    | waiting hpc hready hstate => exact .waiting hpc hready hstate
    | started hpc hstate => exact .started hpc hstate

/-- A call that takes part in no update commits and registers nothing for one. -/
theorem notUpdating (h : w.StartsAlone c) (hlone : Lone c w) (c' : CallId) :
    (w.calls c').committing = false ∧ (w.calls c').upserting = none := by
  by_cases hc : c' = c
  · subst hc
    cases h with
    | opening hrole =>
        cases hpc : w.calls c' with
        | updateCommit | updateServices =>
            rw [hpc] at hrole
            cases hrole
        | _ => exact ⟨rfl, rfl⟩
    | waiting hpc | started hpc =>
        rw [hpc]
        exact ⟨rfl, rfl⟩
  · have hquiet := hlone.others c' hc
    cases hpc : w.calls c' with
    | updateCommit | updateServices =>
        rw [hpc] at hquiet
        cases hquiet
    | _ => exact ⟨rfl, rfl⟩

/-- The listener of a start that nobody has interfered with is there. -/
theorem consistent_of_running (hlone : Lone c w) (hserving : Serving w) (hstate : w.shared.inner.state = .running) :
    Consistent w := by
  refine ⟨.inr hstate, fun hstopped => ?_, fun _ => ?_⟩
  · cases hstate.symm.trans hstopped
  · rcases hserving.running hstate with hstale | ⟨attempt, addr, haddr, t, ht, hservice⟩
    · exact absurd hstale hlone.fresh
    · exact ⟨t, attempt, addr, ht, hlone.sound.owned.registered ht, hservice, haddr⟩

/-! ## A stop on its own -/

/-- How far a stop is that nobody interferes with. -/
inductive World.StopsAlone (w : World) (c : CallId) : Prop where
  | taking {seen : Nat} (hpc : w.calls c = .stopAll seen)
  | awaiting {seen : Nat} {hands : Hands} (hpc : w.calls c = .stopping seen hands)
  | stopped (hpc : w.calls c = .done (.ok ())) (hstate : w.shared.inner.state = .stopped)

theorem stopsAlone_act (h : w.StopsAlone c) (hact : Act w.shared c choice (w.calls c) s' pc') :
    World.StopsAlone ⟨s', Function.update w.calls c pc'⟩ c := by
  have hself : Function.update w.calls c pc' c = pc' := Function.update_self ..
  cases h with
  | taking hpc =>
      rw [hpc] at hact
      generalize hstop : Pc.stopAll _ = pc at hact
      cases hact with
      | stopTook => exact .awaiting hself
      | inserted hhands | signalled hhands | awaited hhands =>
          subst hstop
          simp [Pc.hands, Hands.empty] at hhands
      | _ => cases hstop
  | awaiting hpc =>
      rw [hpc] at hact
      generalize hstop : Pc.stopping _ _ = pc at hact
      cases hact with
      | stopEnded => exact .stopped hself (state_endStop _)
      | inserted | signalled | awaited =>
          subst hstop
          exact .awaiting hself
      | _ => cases hstop
  | stopped hpc => exact absurd (hpc ▸ hact) not_act_done

theorem stopsAlone_step (hlone : Lone c w) (h : w.StopsAlone c) (hallow : Settling w l) (hstep : step w l = some w') :
    w'.StopsAlone c := by
  rcases hlone.own hallow.1 hstep with ⟨choice, s', pc', -, -, hact, rfl⟩ | ⟨t, rfl⟩
  · exact stopsAlone_act h hact
  · cases h with
    | taking hpc => exact .taking hpc
    | awaiting hpc => exact .awaiting hpc
    | stopped hpc hstate => exact .stopped hpc hstate

/-- No update is there to register anything. -/
theorem World.StopsAlone.upserts (h : w.StopsAlone c) (hlone : Lone c w) (l : Label) :
    UpsertsWhileRunning (fun _ => True) w l := by
  intro p _ name hname _
  by_cases hp : p.1 = c
  · rw [hp] at hname
    cases h with
    | taking hpc | awaiting hpc | stopped hpc =>
        rw [hpc] at hname
        cases hname
  · have hquiet := hlone.others p.1 hp
    cases hpc : w.calls p.1 with
    | updateServices =>
        rw [hpc] at hquiet
        cases hquiet
    | _ =>
        rw [hpc] at hname
        cases hname

/-- Each pool has its health task when the start has attended to it. -/
theorem healthMatches_of_running (hlone : Lone c w) (hhealthy : Healthy w) (hquiet : w.Quiescent)
    (hcoherent : Coherent w.shared.inner.options (lastRebuild w.shared.history) w.shared.catalog)
    (hstate : w.shared.inner.state = .running) : HealthMatches w := by
  refine healthMatches_of_matches hlone.sound hcoherent fun app t => ?_
  refine ((hhealthy.running hstate).resolve_left hlone.fresh app t).resolve_right ?_
  rintro ⟨c', hpending⟩
  have hquiet' := hquiet c'
  cases hpc : w.calls c' with
  | updateServices =>
      rw [hpc] at hquiet'
      cases hquiet'
  | _ =>
      rw [hpc] at hpending
      exact hpending

/-- What a stop has found registered has terminated, and nothing else was running. -/
theorem consistent_of_stopped (hsound : Sound w) (hquiet : w.Quiescent) (hswept : Swept (fun _ => True) w) (haddr : AddressKept w)
    (hstate : w.shared.inner.state = .stopped) : Consistent w := by
  refine ⟨.inl hstate, fun _ => ⟨haddr (.inl hstate), fun n => ?_, fun t status hstatus => ?_⟩, fun hrunning => ?_⟩
  · exact Option.eq_none_iff_forall_ne_some.mpr fun t ht => hswept (.inl hstate) n t ht trivial
  · by_contra hne
    obtain ⟨n, hn⟩ := hsound.registered_of_quiescent hquiet (t := t) (by cases status <;> simp_all)
    exact hswept (.inl hstate) n t hn trivial
  · cases hstate.symm.trans hrunning

/-! ## Both -/

section Runs

variable {parsed : ProxyOptionsParsed} {w₁ : World} (hrun : Reach Steps SetupCompletes (.new parsed) w) (hrest : w.Resting)

include hrun hrest

theorem sound_of_resting : Sound w :=
  hrest.sound ((Handled.new parsed).reach (hrun.mono fun _ _ _ => trivial : Reach Steps Free _ w)).owned (fitted_of_reach hrun)

theorem started_of_reach (hstate : w.shared.inner.state = .stopped) (hbegin : step w (.begin c .start choice) = some w₁)
    (hafter : Reach Steps Working w₁ w') : Lone c w' ∧ Serving w' ∧ w'.StartsAlone c := by
  have hsound := sound_of_resting hrun hrest
  have hidle := idle_of_begin hbegin
  have hlone := lone_of_begin hrest hsound hbegin
  have hserving : Serving w₁ := (hrest.serving hstate).step hsound (endsFresh_begin hbegin) hbegin
  have hstarts : w₁.StartsAlone c := by
    simp only [step, hidle, Shared.begin, Shared.start, hstate, Option.some.injEq] at hbegin
    subst hbegin
    exact .opening (a := w.shared.starts.length) (by simp only [Function.update_self]; rfl) rfl
  refine hafter.invariant (P := fun w' => Lone c w' ∧ Serving w' ∧ w'.StartsAlone c) ⟨hlone, hserving, hstarts⟩ ?_
  rintro w l w' ⟨hlone, hserving, hstarts⟩ hallow hstep
  exact ⟨hlone.step hallow.1 hstep, hserving.step hlone.sound (endsFresh_of_fresh hlone.sound hlone.fresh l) hstep,
    startsAlone_step hlone hstarts hallow hstep⟩

/-- A start that finds the registry empty attends to all pools. -/
theorem healthy_of_reach (hstate : w.shared.inner.state = .stopped) (hempty : ∀ n, w.shared.server.services.get n = none)
    (hbegin : step w (.begin c .start choice) = some w₁) (hafter : Reach Steps Working w₁ w') : Healthy w' := by
  have hsound := sound_of_resting hrun hrest
  have hled : Ledgered (World.new parsed).shared.catalog w :=
    (Ledgered.new parsed).reach (hrun.mono fun _ _ _ => trivial : Reach Steps Free _ w)
  have hidle := idle_of_label hbegin
  have hswept : Swept (fun _ => True) w := hrest.swept fun _ => hempty
  have hup : UpsertsWhileRunning (fun _ => True) w (.begin c .start choice) := fun p hp name hname => by
    rw [hidle p hp] at hname
    cases hname
  have hcommits : CommitsOutsideStarting w (.begin c .start choice) := fun p hp hcommitting => by
    rw [hidle p hp] at hcommitting
    cases hcommitting
  have hfresh := endsFresh_begin hbegin
  have hbegun : Ledgered (World.new parsed).shared.catalog w₁ ∧ Swept (fun _ => True) w₁ ∧ Healthy w₁ :=
    ⟨hled.step hbegin, hswept.step hsound hfresh hup hbegin,
      (hrest.healthy hstate).step hsound hswept hled hfresh hcommits hbegin⟩
  have hinv : Reach Steps Working w₁ w' ∧ Ledgered (World.new parsed).shared.catalog w' ∧ Swept (fun _ => True) w' ∧
      Healthy w' := by
    refine hafter.invariant (P := fun w' => Reach Steps Working w₁ w' ∧ Ledgered (World.new parsed).shared.catalog w' ∧
      Swept (fun _ => True) w' ∧ Healthy w') ⟨.refl, hbegun⟩ ?_
    rintro w l w' ⟨hafter, hled, hswept, hhealthy⟩ hallow hstep
    obtain ⟨hlone, -, hstarts⟩ := started_of_reach hrun hrest hstate hbegin hafter
    have hfresh := endsFresh_of_fresh hlone.sound hlone.fresh l
    have hup : UpsertsWhileRunning (fun _ => True) w l := fun p _ name hname => by
      rw [(notUpdating hstarts hlone p.1).2] at hname
      cases hname
    have hcommits : CommitsOutsideStarting w l := fun p _ hcommitting => by
      rw [(notUpdating hstarts hlone p.1).1] at hcommitting
      cases hcommitting
    exact ⟨hafter.tail hallow hstep, hled.step hstep, hswept.step hlone.sound hfresh hup hstep,
      hhealthy.step hlone.sound hswept hled hfresh hcommits hstep⟩
  exact hinv.2.2.2

theorem stopped_of_reach (hstate : w.shared.inner.state = .running) (hbegin : step w (.begin c .stop choice) = some w₁)
    (hafter : Reach Steps Settling w₁ w') : Lone c w' ∧ Swept (fun _ => True) w' ∧ w'.StopsAlone c := by
  have hsound := sound_of_resting hrun hrest
  have hidle := idle_of_begin hbegin
  have hlone := lone_of_begin hrest hsound hbegin
  have hswept : Swept (fun _ => True) w₁ := by
    refine (hrest.swept fun hstopped => ?_).step hsound (endsFresh_begin hbegin) (fun p hp name hname => ?_) hbegin
    · cases hstate.symm.trans hstopped
    rw [idle_of_label hbegin p hp] at hname
    cases hname
  have hstops : w₁.StopsAlone c := by
    simp only [step, hidle, Shared.begin, Shared.stop, hstate, hrest.started, Option.some.injEq] at hbegin
    subst hbegin
    exact .taking (Function.update_self ..)
  refine hafter.invariant (P := fun w' => Lone c w' ∧ Swept (fun _ => True) w' ∧ w'.StopsAlone c) ⟨hlone, hswept, hstops⟩ ?_
  rintro w l w' ⟨hlone, hswept, hstops⟩ hallow hstep
  exact ⟨hlone.step hallow.1 hstep, hswept.step hlone.sound (endsFresh_of_fresh hlone.sound hlone.fresh l)
    (hstops.upserts hlone l) hstep, stopsAlone_step hlone hstops hallow hstep⟩

end Runs

/-- Whether a proxy of calls below `n` is at rest in this state. -/
def World.restsIn (n : Nat) (state : ProxyState) (w : World) : Bool :=
  (List.range n).all (fun c => (w.calls c).quiet) && w.shared.inner.state == state && w.shared.inner.startNotifier.isNone &&
    w.shared.inner.stopNotifier.isNone && w.shared.updateLock.isNone

theorem resting_of_check {n : Nat} {state : ProxyState} (hidle : w.Bounded n) (hstate : state = .stopped ∨ state = .running)
    (h : w.restsIn n state = true) : w.Resting ∧ w.shared.inner.state = state := by
  simp only [World.restsIn, Bool.and_eq_true, List.all_eq_true, beq_iff_eq, Option.isNone_iff_eq_none] at h
  obtain ⟨⟨⟨⟨hquiet, rfl⟩, hstarted⟩, hstopped⟩, hlock⟩ := h
  exact ⟨⟨quiescent_of_check hidle hquiet, hstate, hstarted, hstopped, hlock⟩, rfl⟩

end NeemataProxy
