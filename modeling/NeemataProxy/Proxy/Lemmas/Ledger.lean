import NeemataProxy.Proxy.Ledger
import NeemataProxy.Proxy.Runs

/-!
# The proxy keeps its ledger

Every step of the proxy is a step of the update machine.
-/

namespace NeemataProxy

open Lib Routing Options

def Pc.stage : Pc → Stage
  | .idle => .idle
  | .updateLock req => .waiting req
  | .updateSnapshot req => .checking req
  | .updateRebuild req next => .rebuilding req next
  | .updateCommit req next env rebuilt => .committing req next env rebuilt
  | .updateServices req _ _ => .serving req
  | .done result => .ended result
  | _ => .bystander

def Shared.ledger (s : Shared) : Ledger := ⟨s.inner.options, s.catalog, s.updateLock, s.history⟩

def World.stages (w : World) : CallId → Stage := fun c => (w.calls c).stage

theorem stage_withHands (pc : Pc) (hands : Hands) : (pc.withHands hands).stage = pc.stage := by cases pc <;> rfl

theorem ledger_notifyStart (s : Shared) (result : Except Str Unit) : (s.notifyStart result).ledger = s.ledger := by
  unfold Shared.notifyStart; split <;> rfl

theorem ledger_beginStop (s : Shared) : s.beginStop.ledger = s.ledger := by unfold Shared.beginStop; split <;> rfl

theorem ledger_endStop (s : Shared) : s.endStop.ledger = s.ledger := by
  unfold Shared.endStop Shared.notifyStop; split <;> rfl

/-- What a commit leaves to be published is the new catalog. -/
theorem commitUpdate_eta {options : ProxyOptionsParsed} {order : IterOrder (TransportKind × PoolConfig)}
    {req : UpdateRequest} {next : Snapshot} {rebuilt : Rebuilt} {c c' : Catalog} {services : List ServiceUpdate}
    (h : commitUpdate options order req next rebuilt c = .ok (c', services)) :
    c' = ⟨c'.upstreamsByApp, c'.pools, c'.config, c.rebuilds⟩ := by
  unfold commitUpdate at h
  split at h
  · simp at h
  · obtain ⟨rfl, -⟩ := Prod.mk.inj (Except.ok.inj h)
    rfl

/-- A step of a call is a step of the update machine. -/
theorem ledger_act {s s' : Shared} {c : CallId} {choice : Choice} {pc pc' : Pc} (hact : Act s c choice pc s' pc') :
    Ledger.Step s.ledger c pc.stage s'.ledger pc'.stage := by
  cases hact with
  | inserted | signalled | awaited => rw [stage_withHands]; exact .stay _
  | refused | stopFast => exact .ends (.inl rfl) _
  | startJoined | startBegun | stopJoined => exact .bystands
  | stopBegunWaiting | stopBegun => rw [ledger_beginStop]; exact .bystands
  | updateCalled req => exact .called req
  | setupLost | cancelEnded | startSettled | stopSettled => exact .ends (.inr rfl) _
  | setupFailed => rw [Shared.failStart, ledger_notifyStart]; exact .ends (.inr rfl) _
  | stopEnded => rw [ledger_endStop]; exact .ends (.inr rfl) _
  | finalised | cancelled => rw [ledger_notifyStart]; exact .stay _
  | setupDone | healthSpawned | listenerSpawned | cancelTook | startAwaited | stopTook => exact .stay _
  | locked req hlock => exact .locked req hlock
  | snapshotFailed h => exact .refused _ _ h
  | snapshotTaken h => exact .prepared h
  | rebuildFailed h => exact .rebuildFailed _ _ h
  | rebuilt h => exact .rebuilt _ h
  | commitFailed env h => exact .commitFailed env _ h
  | committed env h =>
      have hstep := Ledger.Step.committed (c := c) (u := s.ledger) env _ h
      rw [commitUpdate_eta h] at hstep
      exact hstep
  | updateSpawned | updateRemoved => exact .stay _
  | updateEnded req => exact .released req

theorem stages_mk_update (w : World) (s : Shared) (c : CallId) (pc : Pc) :
    World.stages ⟨s, Function.update w.calls c pc⟩ = Function.update w.stages c pc.stage :=
  Function.comp_update Pc.stage w.calls c pc

/-- A step of the proxy is a step of the update machine, by one call, or it changes nothing there. -/
theorem ledger_step {w w' : World} {l : Label} (h : step w l = some w') :
    (∃ c choice stage', l.call = some (c, choice) ∧ Ledger.Step w.shared.ledger c (w.stages c) w'.shared.ledger stage' ∧
      w'.stages = Function.update w.stages c stage') ∨
    (l.call = none ∧ w'.shared.ledger = w.shared.ledger ∧ w'.stages = w.stages) := by
  rcases step_cases h with ⟨c, choice, s', pc', hl, hact, rfl⟩ | ⟨t, rfl, -, rfl⟩
  · exact .inl ⟨c, choice, pc'.stage, hl, ledger_act hact, stages_mk_update _ _ _ _⟩
  · exact .inr ⟨rfl, rfl, rfl⟩

/-- The ledger of a proxy says what running its updates one at a time gives. -/
def Ledgered (c₀ : Catalog) (w : World) : Prop := w.shared.ledger.Inv c₀ w.stages

theorem Ledgered.new (parsed : ProxyOptionsParsed) : Ledgered (World.new parsed).shared.catalog (World.new parsed) :=
  ⟨rfl, .refl _, List.nodup_nil, fun _ => rfl, fun _ => by simp [World.stages, World.new, Pc.stage, Ledger.Knows,
    Ledger.Unrecorded, Shared.ledger, Shared.new]⟩

theorem Ledgered.step {c₀ : Catalog} {w w' : World} {l : Label} (h : Ledgered c₀ w) (hstep : NeemataProxy.step w l = some w') :
    Ledgered c₀ w' := by
  unfold Ledgered at *
  rcases ledger_step hstep with ⟨c, choice, stage', -, hled, hstages⟩ | ⟨-, hled, hstages⟩
  · rw [hstages]; exact h.step hled
  · rw [hled, hstages]; exact h

theorem Ledgered.reach {c₀ : Catalog} {allow : World → Label → Prop} {w w' : World} (h : Ledgered c₀ w)
    (hrun : Reach Steps allow w w') : Ledgered c₀ w' :=
  hrun.invariant h fun _ _ _ h _ hstep => Ledgered.step h hstep

/-- A call that waits for its turn, or has not begun, has no record. -/
theorem Ledgered.unrecorded {c₀ : Catalog} {w : World} (h : Ledgered c₀ w) {c : CallId}
    (hpc : w.calls c = .idle ∨ ∃ req, w.calls c = .updateLock req) : ∀ r ∈ w.shared.history, r.call ≠ c := by
  have hknows := h.knows c
  rcases hpc with hpc | ⟨req, hpc⟩
  all_goals
    simp only [World.stages, hpc, Pc.stage] at hknows
    exact hknows

/-! ## What a step of the machine keeps -/

namespace Ledger

variable {c₀ : Catalog} {u u' : Ledger} {c : CallId} {stage stage' : Stage} {req : UpdateRequest}

theorem Step.options (h : Step u c stage u' stage') : u'.options = u.options := by cases h <;> rfl

theorem Step.recorded (h : Step u c stage u' stage') :
    u'.history = u.history ∨ ∃ r, r.call = c ∧ u'.history = u.history ++ [r] := by
  cases h with
  | refused | rebuildFailed | commitFailed | committed => exact .inr ⟨_, rfl, rfl⟩
  | _ => exact .inl rfl

theorem Step.history (h : Step u c stage u' stage') : ∃ later, u'.history = u.history ++ later := by
  rcases h.recorded with hsame | ⟨r, -, happend⟩
  · exact ⟨[], hsame.trans (List.append_nil _).symm⟩
  · exact ⟨[r], happend⟩

/-- An update stays in flight until it ends with the result that is on record. -/
theorem Step.request (h : Step u c stage u' stage') (hreq : stage.request = some req) (hknows : u.Knows c₀ c stage) :
    stage'.request = some req ∨
      ∃ result env order, stage' = .ended result ∧ ⟨c, req, env, order, result⟩ ∈ u'.history := by
  cases h with
  | refused env order | rebuildFailed env order | commitFailed env order =>
      obtain rfl := Option.some.inj hreq
      exact .inr ⟨_, env, order, rfl, List.mem_append_right _ List.mem_cons_self⟩
  | released =>
      obtain rfl := Option.some.inj hreq
      obtain ⟨-, -, env, order, hmem⟩ := hknows
      exact .inr ⟨_, env, order, rfl, hmem⟩
  | bystands | called => cases hreq
  | ends h => rcases h with rfl | rfl <;> cases hreq
  | _ => exact .inl hreq

/-- Only an update that succeeds changes the tables. -/
theorem Step.tables (h : Step u c stage u' stage') (hreq : stage.request = some req) (hknows : u.Knows c₀ c stage) :
    (SameTables u.catalog u'.catalog ∧ ∀ req, stage ≠ .serving req) ∨
      ∃ env order, ⟨c, req, env, order, .ok ()⟩ ∈ u'.history := by
  cases h with
  | stay =>
      cases hs : stage with
      | serving req' =>
          subst hs
          obtain rfl := Option.some.inj hreq
          exact .inr hknows.2.2
      | _ => exact .inl ⟨.refl _, by simp⟩
  | released =>
      obtain rfl := Option.some.inj hreq
      exact .inr hknows.2.2
  | committed env order =>
      obtain rfl := Option.some.inj hreq
      exact .inr ⟨env, order, List.mem_append_right _ List.mem_cons_self⟩
  | ends h => rcases h with rfl | rfl <;> cases hreq
  | bystands | called => cases hreq
  | _ => exact .inl ⟨⟨rfl, rfl, rfl⟩, by simp⟩

end Ledger

end NeemataProxy
