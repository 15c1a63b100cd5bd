import NeemataProxy.Lib.Progress
import NeemataProxy.Proxy.Lemmas.Completion
import NeemataProxy.Proxy.Lemmas.Ledger
import NeemataProxy.Proxy.Lemmas.Work
import NeemataProxy.Proxy.Notifiers

/-!
# Every call comes to its end

Calls wait for tasks, for the outcome of a start, for the end of a stop and for the update lock. As long as no setup task is
lost, whoever is waited for can move, and no call takes steps for ever.
-/

namespace NeemataProxy

open Lib Routing Options

/-- No new call begins, and the setup tasks complete. -/
def Settling (w : World) (l : Label) : Prop := Continues w l ∧ SetupCompletes w l

variable {w w' : World} {l : Label} {c c' : CallId} {choice : Choice} {s s' : Shared} {pc pc' : Pc} {rx : Nat}

/-! ## Work -/

def World.Bounded (n : Nat) (w : World) : Prop := ∀ c, n ≤ c → w.calls c = .idle

def World.work (n : Nat) (w : World) : Nat := (∑ c ∈ Finset.range n, (w.calls c).work) + w.shared.server.work

theorem begun_of_advance (hstep : step w (.advance c choice) = some w') : w.calls c ≠ .idle := by
  intro hidle
  rw [step, hidle] at hstep
  cases hstep

theorem bounded_step {n : Nat} (h : w.Bounded n) (hstep : step w l = some w') :
    ∃ n', w'.Bounded n' := by
  rcases step_cases hstep with ⟨c, choice, s', pc', -, -, rfl⟩ | ⟨t, -, -, rfl⟩
  · refine ⟨max n (c + 1), fun c' hc' => ?_⟩
    have hne : c' ≠ c := by omega
    simpa [hne] using h c' (le_of_max_le_left hc')
  · exact ⟨n, h⟩

theorem exists_bounded {parsed : ProxyOptionsParsed} {allow : World → Label → Prop}
    (hrun : Reach Steps allow (.new parsed) w) : ∃ n, w.Bounded n := by
  refine hrun.invariant (P := fun w => ∃ n, w.Bounded n) ⟨0, fun _ _ => rfl⟩ ?_
  rintro w l w' ⟨n, hbounded⟩ - hstep
  exact bounded_step hbounded hstep

/-- The steps of calls that have begun and the ends of tasks use up work. -/
theorem work_step {n : Nat} (hbounded : w.Bounded n) (hcontinues : Continues w l) (hstep : step w l = some w') :
    w'.Bounded n ∧ w'.work n < w.work n := by
  cases l with
  | begin c call choice => exact hcontinues.elim
  | advance c choice =>
      have hbegun := begun_of_advance hstep
      have hc : c < n := Nat.lt_of_not_le fun hle => hbegun (hbounded c hle)
      rcases step_cases hstep with ⟨c', choice', s', pc', hl, hact, rfl⟩ | ⟨t, hl, -⟩
      · obtain ⟨rfl, rfl⟩ := Prod.mk.inj (Option.some.inj hl)
        refine ⟨fun c' hc' => ?_, ?_⟩
        · have hne : c' ≠ c := fun heq => Nat.not_le_of_lt hc (heq ▸ hc')
          simpa [hne] using hbounded c' hc'
        · have hwork := work_act hact hbegun
          have hsum := sum_rank_update (P := Nat) Pc.work w.calls (Finset.mem_range.mpr hc) pc'
          simp only [World.work]
          omega
      · cases hl
  | taskEnds t =>
      rcases step_cases hstep with ⟨c', choice', s', pc', hl, -⟩ | ⟨t', hl, hstatus, rfl⟩
      · cases hl
      · exact ⟨hbounded, Nat.add_lt_add_left (w.shared.server.work_terminated t' hstatus) _⟩

/-! ## Calls that can move -/

def Pc.active : Pc → Bool
  | .idle | .done _ | .startWait _ | .stopWaitStart _ _ | .stopWait _ _ | .updateLock _ => false
  | _ => true

theorem settling_sample (w : World) (c : CallId) : Settling w (.advance c sampleChoice) :=
  ⟨trivial, fun p hp _ => by obtain rfl := Option.some.inj hp; rfl⟩

theorem exists_step_of_advance (h : w.shared.advance c sampleChoice (w.calls c) ≠ none) :
    ∃ l w', Settling w l ∧ Steps w l w' := by
  obtain ⟨r, hr⟩ := Option.ne_none_iff_exists'.mp h
  exact ⟨.advance c sampleChoice, _, settling_sample w c, by rw [Steps, step, hr]; rfl⟩

/-- A call whose hands are full can go on, or the task that it waits for can end. -/
theorem exists_step_of_hands (hhandled : Handled w) (hne : (w.calls c).hands ≠ .empty) :
    ∃ l w', Settling w l ∧ Steps w l w' := by
  have hmove : (w.calls c).hands.step w.shared.server ≠ none → ∃ l w', Settling w l ∧ Steps w l w' := fun h => by
    refine exists_step_of_advance (c := c) ?_
    rw [Shared.advance, if_neg hne]
    simpa using h
  have hordered : (w.calls c).hands.Ordered w.shared.server := hhandled.owned.ordered c
  have hsent := hhandled.sent c
  have hknown : ∀ h ∈ (w.calls c).hands.handles, w.shared.server.statusOf h ≠ none := fun h hh =>
    (hhandled.owned.inHands (c := c) hh).1
  rcases hhands : (w.calls c).hands with ⟨spawned, held, sent⟩
  rw [hhands] at hmove hordered hsent hknown
  cases spawned with
  | some p => exact hmove (Option.some_ne_none _)
  | none =>
      cases held with
      | nil =>
          obtain rfl : sent = false := by simpa using hsent
          exact absurd hhands hne
      | cons h rest =>
          cases sent with
          | false => exact hmove (Option.some_ne_none _)
          | true =>
              cases hstatus : w.shared.server.statusOf h with
              | none => exact absurd hstatus (hknown h List.mem_cons_self)
              | some status =>
                  cases status with
                  | running => exact absurd hstatus (hordered.told rfl rfl)
                  | signalled => exact ⟨.taskEnds h, _, ⟨trivial, fun p hp => by cases hp⟩, by rw [Steps, step, if_pos hstatus]⟩
                  | terminated => exact hmove (by simp [Hands.step, hstatus])

theorem exists_step_of_active (hhandled : Handled w) (hactive : (w.calls c).active = true) :
    ∃ l w', Settling w l ∧ Steps w l w' := by
  by_cases hhands : (w.calls c).hands = .empty
  · refine exists_step_of_advance (c := c) ?_
    rw [Shared.advance, if_pos hhands]
    cases hpc : w.calls c with
    | startRegister attempt addr lbTasks hands => cases lbTasks <;> exact Option.some_ne_none _
    | updateServices req todo hands =>
        cases todo with
        | nil => exact Option.some_ne_none _
        | cons update todo => cases update <;> exact Option.some_ne_none _
    | idle | done | startWait | stopWaitStart | stopWait | updateLock =>
        rw [hpc] at hactive
        cases hactive
    | _ => exact Option.some_ne_none _
  · exact exists_step_of_hands hhandled hhands

/-! ## Who is waited for -/

def Stage.holdsLock : Stage → Bool
  | .checking _ | .rebuilding _ _ | .committing _ _ _ _ | .serving _ => true
  | _ => false

/-- Whoever is waited for is there: the call that runs the pending attempt, and the one that holds the lock. -/
structure Reliable (w : World) : Prop extends Waited w where
  opened : ∀ rx, w.shared.inner.startNotifier = some rx → ∃ c, (w.calls c).role = .opening rx
  locked : ∀ c, w.shared.updateLock = some c → (w.calls c).stage.holdsLock = true

theorem startNotifier_beginStop (s : Shared) : s.beginStop.inner.startNotifier = s.inner.startNotifier := by
  unfold Shared.beginStop
  split <;> rfl

theorem startNotifier_endStop (s : Shared) : s.endStop.inner.startNotifier = none := by
  unfold Shared.endStop Shared.notifyStop
  split <;> rfl

/-- A start leaves its attempt by answering the notifier, unless its setup is lost. -/
theorem opened_act (hact : Act s c choice pc s' pc') (hcompletes : pc.inSetup = true → choice.setup.isOk = true)
    (h : s'.inner.startNotifier = some rx) :
    pc'.role = .opening rx ∨ s.inner.startNotifier = some rx ∧ pc.role ≠ .opening rx := by
  have hkept : s'.inner.startNotifier = s.inner.startNotifier → pc'.role = pc.role →
      pc'.role = .opening rx ∨ s.inner.startNotifier = some rx ∧ pc.role ≠ .opening rx := fun hnotifier hrole => by
    by_cases hopening : pc.role = .opening rx
    · exact .inl (hrole.trans hopening)
    · exact .inr ⟨hnotifier.symm.trans h, hopening⟩
  cases hact with
  | startBegun =>
      obtain rfl := Option.some.inj h
      exact .inl rfl
  | setupLost attempt lbTasks err hlost =>
      have hok := hcompletes rfl
      rw [hlost] at hok
      cases hok
  | setupFailed | finalised | cancelled =>
      cases (startNotifier_notifyStart _ _).symm.trans h
  | stopEnded =>
      rw [startNotifier_endStop] at h
      cases h
  | stopBegunWaiting | stopBegun =>
      rw [startNotifier_beginStop] at h
      exact .inr ⟨h, nofun⟩
  | inserted | signalled | awaited => exact hkept rfl (role_withHands _ _)
  | cancelEnded | startAwaited => exact .inr ⟨h, nofun⟩
  | _ => exact hkept rfl rfl

/-- The lock is taken by who passes it, and kept until it is given back. -/
theorem locked_step {u u' : Ledger} {stage stage' : Stage} (hstep : Ledger.Step u c stage u' stage')
    (h : u'.lock = some c') :
    (c' = c ∧ stage'.holdsLock = true) ∨ (u.lock = some c' ∧ (stage.holdsLock = true → stage'.holdsLock = true)) := by
  cases hstep with
  | locked req hlock => exact .inl ⟨(Option.some.inj h).symm, rfl⟩
  | refused | rebuildFailed | commitFailed | released => cases h
  | ends hstage =>
      refine .inr ⟨h, fun hholds => ?_⟩
      rcases hstage with rfl | rfl <;> cases hholds
  | stay => exact .inr ⟨h, id⟩
  | bystands | called => exact .inr ⟨h, nofun⟩
  | prepared | rebuilt | committed => exact .inr ⟨h, fun _ => rfl⟩

theorem Reliable.new (parsed : ProxyOptionsParsed) : Reliable (.new parsed) := ⟨.new parsed, nofun, nofun⟩

theorem Reliable.step (h : Reliable w) (hcompletes : SetupCompletes w l) (hstep : step w l = some w') : Reliable w' := by
  have hwaited : Waited w' := h.toWaited.reach (.tail .refl trivial hstep : Reach Steps Free w w')
  rcases step_cases hstep with ⟨c, choice, s', pc', hl, hact, rfl⟩ | ⟨t, -, -, rfl⟩
  · refine ⟨hwaited, fun rx hrx => ?_, fun c' hc' => ?_⟩
    · rcases opened_act hact (hcompletes _ hl) hrx with hrole | ⟨hbefore, hrole⟩
      · exact ⟨c, by simpa using hrole⟩
      · obtain ⟨c', hc'⟩ := h.opened rx hbefore
        have hne : c' ≠ c := fun heq => hrole (heq ▸ hc')
        exact ⟨c', by simpa [hne] using hc'⟩
    · rcases locked_step (ledger_act hact) hc' with ⟨rfl, hholds⟩ | ⟨hbefore, hkept⟩
      · simpa using hholds
      · have hholds := h.locked c' hbefore
        by_cases hc : c' = c
        · subst hc
          simpa using hkept hholds
        · simpa [hc] using hholds
  · exact ⟨hwaited, h.opened, h.locked⟩

theorem Reliable.reach (h : Reliable w) (hrun : Reach Steps SetupCompletes w w') : Reliable w' :=
  hrun.invariant h fun _ _ _ h hallow hstep => h.step hallow hstep

/-! ## Nobody waits in vain -/

theorem active_of_opening (h : (w.calls c).role = .opening rx) : (w.calls c).active = true := by
  cases hpc : w.calls c with
  | startSetup | startRegister | startListen => rfl
  | _ =>
      rw [hpc] at h
      cases h

theorem active_of_holdsLock (h : (w.calls c).stage.holdsLock = true) : (w.calls c).active = true := by
  cases hpc : w.calls c with
  | updateSnapshot | updateRebuild | updateCommit | updateServices => rfl
  | _ =>
      rw [hpc] at h
      cases h

/-- The outcome of a start is there, or the call that will send it can move. -/
theorem Reliable.move_start (h : Reliable w) (rx : Nat) :
    w.shared.waitForStartReady rx ≠ none ∨ ∃ l w', Settling w l ∧ Steps w l w' := by
  by_cases hnotifier : w.shared.inner.startNotifier = some rx
  · obtain ⟨c, hrole⟩ := h.opened rx hnotifier
    exact .inr (exists_step_of_active h.handled (active_of_opening hrole))
  · refine .inl ?_
    unfold Shared.waitForStartReady
    rw [if_neg hnotifier]
    split <;> exact nofun

theorem Reliable.move_stopWaitStart {seen : Nat} (h : Reliable w) (hpc : w.calls c = .stopWaitStart rx seen) :
    ∃ l w', Settling w l ∧ Steps w l w' := by
  rcases h.move_start rx with hready | hmove
  · exact exists_step_of_advance (c := c) (by simpa [Shared.advance, Shared.proceed, hpc, Pc.hands] using hready)
  · exact hmove

/-- A stop has ended, or the call that carries it out can move. -/
theorem Reliable.move_stop (h : Reliable w) (rx : Nat) :
    w.shared.waitForStopReady rx ≠ none ∨ ∃ l w', Settling w l ∧ Steps w l w' := by
  by_cases hnotifier : w.shared.inner.stopNotifier = some rx
  · obtain ⟨-, c, hstops⟩ := h.waiting.owned rx hnotifier
    refine .inr ?_
    cases hpc : w.calls c with
    | stopWaitStart rx' seen => exact h.move_stopWaitStart hpc
    | stopAll | stopping => exact exists_step_of_active (c := c) h.handled (by rw [hpc]; rfl)
    | _ =>
        rw [hpc] at hstops
        cases hstops
  · refine .inl ?_
    unfold Shared.waitForStopReady
    rw [if_neg hnotifier]
    split <;> exact nofun

theorem Reliable.move_lock (h : Reliable w) :
    w.shared.updateLock = none ∨ ∃ l w', Settling w l ∧ Steps w l w' := by
  cases hlock : w.shared.updateLock with
  | none => exact .inl rfl
  | some c => exact .inr (exists_step_of_active h.handled (active_of_holdsLock (h.locked c hlock)))

/-- As long as a call is in flight, some call can move or a task can end. -/
theorem Reliable.move (h : Reliable w) (hflight : (w.calls c).quiet = false) : ∃ l w', Settling w l ∧ Steps w l w' := by
  cases hpc : w.calls c with
  | idle | done =>
      rw [hpc] at hflight
      cases hflight
  | startWait rx =>
      rcases h.move_start rx with hready | hmove
      · exact exists_step_of_advance (c := c) (by simpa [Shared.advance, Shared.proceed, hpc, Pc.hands] using hready)
      · exact hmove
  | stopWaitStart rx seen => exact h.move_stopWaitStart hpc
  | stopWait rx seen =>
      rcases h.move_stop rx with hready | hmove
      · exact exists_step_of_advance (c := c) (by simpa [Shared.advance, Shared.proceed, hpc, Pc.hands] using hready)
      · exact hmove
  | updateLock req =>
      rcases h.move_lock with hfree | hmove
      · exact exists_step_of_advance (c := c) (by simp [Shared.advance, Shared.proceed, hpc, Pc.hands, hfree])
      · exact hmove
  | _ => exact exists_step_of_active (c := c) h.handled (by rw [hpc]; rfl)

/-! ## Rest -/

/-- No call is in flight, and none has left anything behind that others wait for. -/
structure World.Resting (w : World) : Prop where
  quiet : w.Quiescent
  state : w.shared.inner.state = .stopped ∨ w.shared.inner.state = .running
  started : w.shared.inner.startNotifier = none
  stopped : w.shared.inner.stopNotifier = none
  unlocked : w.shared.updateLock = none

theorem Reliable.resting (h : Reliable w) (hnotified : w.shared.inner.Notified) (hquiet : w.Quiescent) : w.Resting := by
  have hactive : ∀ c, (w.calls c).active = false := fun c => by
    have hc := hquiet c
    cases hpc : w.calls c with
    | idle | done => rfl
    | _ =>
        rw [hpc] at hc
        cases hc
  have hstarted : w.shared.inner.startNotifier = none := Option.eq_none_iff_forall_not_mem.mpr fun rx hrx => by
    obtain ⟨c, hrole⟩ := h.opened rx hrx
    exact Bool.noConfusion ((hactive c).symm.trans (active_of_opening hrole))
  have hstopped : w.shared.inner.stopNotifier = none := Option.eq_none_iff_forall_not_mem.mpr fun rx hrx => by
    obtain ⟨-, c, hstops⟩ := h.waiting.owned rx hrx
    have hc := hquiet c
    cases hpc : w.calls c with
    | idle | done =>
        rw [hpc] at hstops
        cases hstops
    | _ =>
        rw [hpc] at hc
        cases hc
  refine ⟨hquiet, ?_, hstarted, hstopped, Option.eq_none_iff_forall_not_mem.mpr fun c hlock => ?_⟩
  · cases hstate : w.shared.inner.state with
    | stopped => exact .inl rfl
    | running => exact .inr rfl
    | starting => simpa [hstarted] using hnotified.starting hstate
    | stopping => simpa [hstopped] using hnotified.stopping hstate
  · exact Bool.noConfusion ((hactive c).symm.trans (active_of_holdsLock (h.locked c hlock)))

theorem notified_step (h : w.shared.inner.Notified) (hstep : step w l = some w') :
    w'.shared.inner.Notified := by
  rcases step_cases hstep with ⟨c, choice, s', pc', -, hact, rfl⟩ | ⟨t, -, -, rfl⟩
  · exact notified_act h hact
  · exact h

theorem comes_to_rest {parsed : ProxyOptionsParsed} (hrun : Reach Steps SetupCompletes (.new parsed) w) :
    Inevitable Steps Settling World.Resting w := by
  obtain ⟨n, hbounded⟩ := exists_bounded hrun
  refine Inevitable.of_rank (World.work n) (I := fun w => Reach Steps SetupCompletes (.new parsed) w ∧ w.Bounded n) ?_ ?_
    ⟨hrun, hbounded⟩
  · rintro w l w' ⟨hrun, hbounded⟩ ⟨hcontinues, hcompletes⟩ hstep
    obtain ⟨hbounded', hlt⟩ := work_step hbounded hcontinues hstep
    exact ⟨⟨hrun.tail hcompletes hstep, hbounded'⟩, hlt⟩
  · rintro w ⟨hrun, -⟩ hrest
    have hreliable := (Reliable.new parsed).reach hrun
    by_contra hstuck
    refine hrest (hreliable.resting (notified_of_reach (hrun.mono fun _ _ _ => trivial)) fun c => ?_)
    cases hflight : (w.calls c).quiet with
    | true => rfl
    | false => exact absurd (hreliable.move hflight) hstuck

/-- Whatever the order of steps, once no new call begins all calls end and leave the proxy stopped or running. -/
theorem calls_come_to_rest {options : ProxyOptions} {w₀ : World} (hnew : Proxy.new options = .ok w₀)
    (hrun : Reach Steps SetupCompletes w₀ w) : Inevitable Steps Settling World.Resting w := by
  obtain ⟨parsed, -, rfl⟩ := proxy_new hnew
  exact comes_to_rest hrun

/-- A start, a stop that waits for it, and two updates, one of which waits for the other. -/
theorem calls_come_to_rest_sample :
    ∃ w, Reach Steps SetupCompletes (World.new sampleParsed) w ∧ ¬ w.Quiescent ∧ Inevitable Steps Settling World.Resting w := by
  obtain ⟨w, hrun, -, hcheck⟩ := reach_of_check SetupCompletes SetupCompletes
    ([begins 0 .start, begins 1 .stop, begins 2 (.addUpstream (Str.lit "app") sampleUpstream),
      begins 3 (.removeUpstream (Str.lit "app") sampleUpstream)] ++ steps 2 1)
    sampleParsed 4 (fun w => !(w.calls 1).quiet) (fun _ _ _ => id) (by decide) (by decide +kernel)
  refine ⟨w, hrun, fun hquiet => ?_, calls_come_to_rest sample_new hrun⟩
  rw [hquiet 1] at hcheck
  cases hcheck

end NeemataProxy
