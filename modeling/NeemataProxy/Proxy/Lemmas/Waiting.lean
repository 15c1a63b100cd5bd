import NeemataProxy.Proxy.Lemmas.Release
import NeemataProxy.Proxy.Lemmas.StartChannel
import NeemataProxy.Proxy.Runs

/-!
# Calls that wait

A call waits only for a channel that is there, and a stop channel whose sender is kept belongs to a stop in flight. A stop that
does not wait for a start any more can end with no other call taking a step.
-/

namespace NeemataProxy

open Lib

/-- A stop in flight, which will take all services and end as `Stopped`. -/
def Pc.stops : Pc → Bool
  | .stopWaitStart _ _ | .stopAll _ | .stopping _ _ => true
  | _ => false

/-- The start channel that a call waits for. -/
def Pc.awaits : Pc → Option Nat
  | .startWait rx | .stopWaitStart rx _ => some rx
  | _ => none

/-- The channels that calls wait for are there. -/
structure Waiting (w : World) : Prop where
  starts : ∀ c rx, (w.calls c).awaits = some rx → rx < w.shared.starts.length
  stops : ∀ c rx seen, w.calls c = .stopWait rx seen → rx < w.shared.stops.length
  owned : ∀ rx, w.shared.inner.stopNotifier = some rx → rx < w.shared.stops.length ∧ ∃ c, (w.calls c).stops = true

variable {w w' : World} {l : Label} {c : CallId} {choice : Choice} {s s' : Shared} {pc pc' : Pc}

theorem Waiting.new (parsed : Options.ProxyOptionsParsed) : Waiting (.new parsed) := ⟨nofun, nofun, nofun⟩

/-! ## Channels -/

theorem awaits_withHands (pc : Pc) (hands : Hands) : (pc.withHands hands).awaits = pc.awaits := by cases pc <;> rfl

theorem stops_withHands (pc : Pc) (hands : Hands) : (pc.withHands hands).stops = pc.stops := by cases pc <;> rfl

/-- A call comes to wait for the channel of the notifier, or for that of its own attempt. -/
theorem awaits_act {rx : Nat} (hact : Act s c choice pc s' pc') (h : pc'.awaits = some rx) :
    pc.awaits = some rx ∨ s.inner.startNotifier = some rx ∨ pc.role = .opening rx := by
  cases hact with
  | startJoined hstate hrx =>
      obtain rfl := Option.some.inj h
      exact .inr (.inl hrx)
  | stopBegunWaiting hstate hrx =>
      obtain rfl := Option.some.inj h
      exact .inr (.inl hrx)
  | finalised attempt addr =>
      obtain rfl := Option.some.inj h
      exact .inr (.inr rfl)
  | inserted | signalled | awaited =>
      rw [awaits_withHands] at h
      exact .inl h
  | _ => cases h

/-- What a step does to the stop channels. -/
inductive StopsStep (s s' : Shared) (stops stops' : Bool) : Prop where
  | kept (hstops : s'.stops = s.stops) (hnotifier : s'.inner.stopNotifier = s.inner.stopNotifier)
      (hcall : stops = true → stops' = true)
  | opened (hstops : s'.stops = s.stops ++ [.pending]) (hnotifier : s'.inner.stopNotifier = some s.stops.length)
      (hcall : stops' = true)
  | answered (hlength : s'.stops.length = s.stops.length) (hnotifier : s'.inner.stopNotifier = none)

theorem stops_notifyStart (s : Shared) (result : Except Str Unit) : (s.notifyStart result).stops = s.stops := by
  unfold Shared.notifyStart
  split <;> rfl

theorem stopsStep_beginStop (s : Shared) : StopsStep s s.beginStop false true := by
  unfold Shared.beginStop
  split
  · exact .kept rfl rfl nofun
  · exact .opened rfl rfl rfl

theorem state_endStop (s : Shared) : s.endStop.inner.state = .stopped := by
  unfold Shared.endStop Shared.notifyStop
  split <;> rfl

theorem stopNotifier_endStop (s : Shared) : s.endStop.inner.stopNotifier = none := by
  unfold Shared.endStop Shared.notifyStop
  split
  · rfl
  · assumption

theorem stopsStep_endStop (s : Shared) : StopsStep s s.endStop true false := by
  refine .answered ?_ (stopNotifier_endStop s)
  unfold Shared.endStop Shared.notifyStop
  split
  · exact List.length_set ..
  · rfl

theorem stopsStep_act (hact : Act s c choice pc s' pc') : StopsStep s s' pc.stops pc'.stops := by
  cases hact with
  | setupFailed | finalised | cancelled => exact .kept (stops_notifyStart _ _) (stopNotifier_notifyStart _ _) nofun
  | stopBegunWaiting | stopBegun => exact stopsStep_beginStop s
  | stopEnded => exact stopsStep_endStop s
  | inserted | signalled | awaited =>
      rw [stops_withHands]
      exact .kept rfl rfl id
  | _ => exact .kept rfl rfl fun h => h

theorem StopsStep.length_le {stops stops' : Bool} (h : StopsStep s s' stops stops') : s.stops.length ≤ s'.stops.length := by
  cases h with
  | kept hstops => rw [hstops]
  | opened hstops => simp [hstops]
  | answered hlength => rw [hlength]

theorem Waiting.act (h : Waiting w) (hnumbered : Numbered w) (hact : Act w.shared c choice (w.calls c) s' pc')
    (hle : w.shared.starts.length ≤ s'.starts.length) : Waiting ⟨s', Function.update w.calls c pc'⟩ := by
  have hstops := stopsStep_act hact
  refine ⟨fun c' rx hawaits => Nat.lt_of_lt_of_le ?_ hle, fun c' rx seen hwait => Nat.lt_of_lt_of_le ?_ hstops.length_le,
    fun rx hrx => ?_⟩
  · by_cases hc : c' = c
    · subst hc
      simp only [Function.update_self] at hawaits
      rcases awaits_act hact hawaits with hbefore | hnotifier | hrole
      · exact h.starts c' rx hbefore
      · exact (List.getElem?_eq_some_iff.mp (hnumbered.channels rx hnotifier)).1
      · exact hnumbered.begun c' rx hrole
    · simp only [Function.update_of_ne hc] at hawaits
      exact h.starts c' rx hawaits
  · by_cases hc : c' = c
    · subst hc
      simp only [Function.update_self] at hwait
      rcases waiting_act (hwait ▸ hact) with hbefore | ⟨-, hnotifier, -⟩
      · exact h.stops c' rx seen hbefore
      · exact (h.owned rx hnotifier).1
    · simp only [Function.update_of_ne hc] at hwait
      exact h.stops c' rx seen hwait
  · cases hstops with
    | kept hkept hnotifier hcall =>
        obtain ⟨hlt, c', hc'⟩ := h.owned rx (hnotifier.symm.trans hrx)
        refine ⟨hkept ▸ hlt, c', ?_⟩
        by_cases hc : c' = c
        · subst hc
          simpa using hcall hc'
        · simpa [Function.update_of_ne hc] using hc'
    | opened happend hnotifier hcall =>
        obtain rfl := Option.some.inj (hnotifier.symm.trans hrx)
        exact ⟨by simp [happend], c, by simpa using hcall⟩
    | answered _ hnotifier => cases hnotifier.symm.trans hrx

theorem Waiting.step (h : Waiting w) (hnumbered : Numbered w) (hstep : step w l = some w') : Waiting w' := by
  rcases step_cases hstep with ⟨c, choice, s', pc', -, hact, rfl⟩ | ⟨t, -, -, rfl⟩
  · exact h.act hnumbered hact (startsStep_of_step hstep).length_le
  · exact ⟨h.starts, h.stops, h.owned⟩

end NeemataProxy
