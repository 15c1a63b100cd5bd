import NeemataProxy.Proxy.Lemmas.StartChannel
import NeemataProxy.Proxy.Runs

/-!
# The notifiers and the address of a proxy
-/

namespace NeemataProxy

open Lib Options

structure ProxyInner.Notified (i : ProxyInner) : Prop where
  starting : i.state = .starting → i.startNotifier.isSome
  stopping : i.state = .stopping → i.stopNotifier.isSome
  running : i.state = .running → i.listenAddress.isSome
  unbound : i.state = .stopped ∨ i.state = .starting → i.listenAddress = none

theorem notified_new (parsed : ProxyOptionsParsed) : (World.new parsed).shared.inner.Notified where
  starting := nofun
  stopping := nofun
  running := nofun
  unbound _ := rfl

/-! ## Critical sections -/

section Steps

variable {s : Shared}

/-- A proxy that has just been stopped waits for nobody. -/
theorem notified_of_stopped {i : ProxyInner} (hstate : i.state = .stopped) (haddress : i.listenAddress = none) : i.Notified where
  starting h := by rw [hstate] at h; cases h
  stopping h := by rw [hstate] at h; cases h
  running h := by rw [hstate] at h; cases h
  unbound _ := haddress

/-- Answering the start notifier leaves the others alone; only `Starting` needs it. -/
theorem notified_notifyStart (h : s.inner.Notified) (hstate : s.inner.state ≠ .starting) (result : Except Str Unit) :
    (s.notifyStart result).inner.Notified where
  starting hs := absurd (by simpa using hs) hstate
  stopping hs := by simpa using h.stopping (by simpa using hs)
  running hs := by simpa using h.running (by simpa using hs)
  unbound hs := by simpa using h.unbound (by simpa using hs)

theorem notified_beginStop (s : Shared) : s.beginStop.inner.Notified := by
  unfold Shared.beginStop
  cases hstop : s.inner.stopNotifier with
  | none => exact ⟨nofun, fun _ => rfl, nofun, fun h => by rcases h with h | h <;> cases h⟩
  | some tx => exact ⟨nofun, fun _ => by simp [hstop], nofun, fun h => by rcases h with h | h <;> cases h⟩

theorem notified_endStop (s : Shared) : s.endStop.inner.Notified := by
  unfold Shared.endStop Shared.notifyStop
  split <;> exact notified_of_stopped rfl rfl

theorem notified_act {c : CallId} {choice : Choice} {pc pc' : Pc} {s' : Shared} (h : s.inner.Notified)
    (hact : Act s c choice pc s' pc') : s'.inner.Notified := by
  cases hact with
  | refused | startJoined | stopJoined | updateCalled | setupLost | setupDone | inserted | signalled | awaited | healthSpawned
  | listenerSpawned | cancelTook | startSettled | startAwaited | stopTook | stopSettled | locked | snapshotFailed
  | snapshotTaken | rebuildFailed | rebuilt | commitFailed | updateSpawned | updateRemoved | updateEnded => exact h
  | committed => exact ⟨h.starting, h.stopping, h.running, h.unbound⟩
  | startBegun => exact ⟨fun _ => rfl, nofun, nofun, fun _ => rfl⟩
  | stopFast hstate => exact notified_of_stopped hstate rfl
  | stopBegunWaiting | stopBegun => exact notified_beginStop s
  | setupFailed =>
      refine notified_notifyStart ?_ (fun h => by cases h) _
      exact notified_of_stopped rfl rfl
  | finalised =>
      refine notified_notifyStart ?_ (fun h => by cases h) _
      exact ⟨nofun, nofun, fun _ => rfl, fun h => by rcases h with h | h <;> cases h⟩
  | cancelled attempt addr hstate =>
      -- a finaliser of an earlier attempt may take the notifier of a newer one only while nothing is starting
      refine notified_notifyStart h ?_ _
      rcases hstate with hstate | hstate <;> rw [hstate] <;> exact nofun
  | cancelEnded => exact notified_of_stopped rfl rfl
  | stopEnded => exact notified_endStop s

end Steps

theorem notified_of_reach {parsed : ProxyOptionsParsed} {w : World} (hrun : Reach Steps Free (.new parsed) w) :
    w.shared.inner.Notified := by
  refine hrun.invariant (P := fun w => w.shared.inner.Notified) (notified_new parsed) ?_
  intro w l w' h _ hstep
  rcases step_cases hstep with ⟨c, choice, s', pc', -, hact, rfl⟩ | ⟨t, -, -, rfl⟩
  · exact notified_act h hact
  · exact h

/-! ## What calls find -/

def missingStartNotifier : JsError := .fromReason (Str.lit "Proxy internal error: missing start notifier")

def missingStopNotifier : JsError := .fromReason (Str.lit "Proxy internal error: missing stop notifier")

/-- Nobody who looks at the proxy now finds a notifier or an address missing. -/
structure Shared.NothingMissing (s : Shared) : Prop where
  notified : s.inner.Notified
  start : ∀ order, (s.start order).2 ≠ .done (.error missingStartNotifier)
  stop : s.stop.2 ≠ .done (.error missingStopNotifier)
  address : s.address.isSome ↔ s.inner.state = .running

theorem nothingMissing {s : Shared} (h : s.inner.Notified) : s.NothingMissing where
  notified := h
  start order := by
    unfold Shared.start
    cases hstate : s.inner.state with
    | starting =>
        obtain ⟨rx, hrx⟩ := Option.isSome_iff_exists.mp (h.starting hstate)
        simp [hrx]
    | running | stopping => simp [missingStartNotifier, JsError.fromReason]
    | stopped => simp
  stop := by
    unfold Shared.stop
    cases hstate : s.inner.state with
    | stopped => simp
    | stopping =>
        obtain ⟨rx, hrx⟩ := Option.isSome_iff_exists.mp (h.stopping hstate)
        simp [hrx]
    | starting | running => cases s.inner.startNotifier <;> simp
  address := by
    unfold Shared.address
    by_cases hstate : s.inner.state = .running
    · simp [hstate, h.running hstate]
    · simp [hstate]

/-- In every reachable state the notifiers and the address are there exactly when the state calls for them. -/
theorem nothing_missing {options : ProxyOptions} {w₀ w : World} (hnew : Proxy.new options = .ok w₀)
    (hrun : Reach Steps Free w₀ w) : w.shared.NothingMissing := by
  obtain ⟨parsed, -, rfl⟩ := proxy_new hnew
  exact nothingMissing (notified_of_reach hrun)

/-- A running proxy has its address. -/
theorem nothing_missing_sample :
    ∃ w, Reach Steps Free (World.new sampleParsed) w ∧ w.shared.inner.state = .running ∧ w.shared.NothingMissing := by
  obtain ⟨w, hrun, -, hcheck⟩ := reach_of_check Free Free (begins 0 .start :: steps 0 5) sampleParsed 1
    (fun w => w.shared.inner.state = .running) (fun _ _ _ => id) (by decide) (by decide +kernel)
  rw [decide_eq_true_eq] at hcheck
  exact ⟨w, hrun, hcheck, nothing_missing sample_new hrun⟩

end NeemataProxy
