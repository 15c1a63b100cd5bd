import NeemataProxy.Proxy.Lemmas.Sweep

/-!
# The listener of a running proxy

From its registration on, the listener of the newest attempt stays registered until a stop of the running proxy,
unless a call is in flight that had seen only older attempts.
-/

namespace NeemataProxy

open Lib

/-- A call that is going to stop the proxy had not seen the newest attempt. -/
def Role.Stale (attempts : Nat) : Role → Prop
  | .awaiting _ seen | .closing seen => seen < attempts
  | _ => False

def World.Stale (w : World) : Prop := ∃ c, ((w.calls c).role).Stale w.shared.starts.length

/-- The listener of an attempt, bound to an address, is registered. -/
def Server.Serves (s : Server) (attempt : Nat) (addr : BoundListenAddress) : Prop :=
  ∃ h, s.services.get mainServiceName = some h ∧ s.serviceOf h = some (.listener attempt addr)

structure Serving (w : World) : Prop where
  running : w.shared.inner.state = .running → w.Stale ∨
    ∃ attempt addr, w.shared.inner.listenAddress = some addr ∧ w.shared.server.Serves attempt addr
  listening : ∀ {c attempt addr hands}, w.calls c = .startListen attempt addr hands → hands.spawned = none →
    w.Stale ∨ w.shared.server.Serves attempt addr

/-- Outside `Running` and `Stopping` no address is kept. -/
def AddressKept (w : World) : Prop :=
  w.shared.inner.state = .stopped ∨ w.shared.inner.state = .starting → w.shared.inner.listenAddress = none

/-! ## Attempts -/

theorem starts_notifyStart (s : Shared) (result : Except Str Unit) :
    (s.notifyStart result).starts.length = s.starts.length := by unfold Shared.notifyStart; split <;> simp

theorem starts_beginStop (s : Shared) : s.beginStop.starts = s.starts := by unfold Shared.beginStop; split <;> rfl

theorem starts_endStop (s : Shared) : s.endStop.starts = s.starts := by
  unfold Shared.endStop Shared.notifyStop; split <;> rfl

theorem attempts_act {s s' : Shared} {c : CallId} {choice : Choice} {pc pc' : Pc} (hact : Act s c choice pc s' pc') :
    s.starts.length ≤ s'.starts.length := by
  cases hact with
  | startBegun => simp [Shared.beginStart]
  | stopBegunWaiting | stopBegun => rw [starts_beginStop]
  | stopEnded => rw [starts_endStop]
  | setupFailed => rw [Shared.failStart, starts_notifyStart]
  | finalised | cancelled => rw [starts_notifyStart]
  | _ => exact le_refl _

/-- A stale call stays stale until it ends, and then the proxy is stopped. -/
theorem stale_act {w : World} {c : CallId} {choice : Choice} {s' : Shared} {pc pc' : Pc} (hpc : w.calls c = pc)
    (hact : Act w.shared c choice pc s' pc')
    (hfresh : ∀ seen, pc.endsSince = some seen → w.shared.inner.state = .stopped ∨ seen = w.shared.starts.length)
    (hstale : w.Stale) : World.Stale ⟨s', Function.update w.calls c pc'⟩ ∨ w.shared.inner.state = .stopped := by
  obtain ⟨c', hc'⟩ := hstale
  have hle := attempts_act hact
  have hmono : ∀ {role : Role}, role.Stale w.shared.starts.length → role.Stale s'.starts.length := by
    intro role h
    cases role with
    | awaiting rx seen => exact lt_of_lt_of_le h hle
    | closing seen => exact lt_of_lt_of_le h hle
    | _ => exact h
  by_cases h : c' = c
  · subst h
    rw [hpc] at hc'
    have hself : pc'.role.Stale w.shared.starts.length →
        World.Stale ⟨s', Function.update w.calls c' pc'⟩ := fun hs => ⟨c', by simpa using hmono hs⟩
    cases hact with
    | inserted | signalled | awaited => exact .inl (hself (by rw [role_withHands]; exact hc'))
    | cancelTook | stopTook => exact .inl (hself hc')
    | startAwaited seen hr => exact .inl (hself hc')
    | cancelEnded attempt err =>
        exact .inr ((hfresh _ (endsSince_startCancelling attempt)).resolve_right (Nat.ne_of_lt hc'))
    | stopEnded seen => exact .inr ((hfresh _ (endsSince_stopping seen)).resolve_right (Nat.ne_of_lt hc'))
    | _ => exact hc'.elim
  · exact .inl ⟨c', by simpa [Function.update_of_ne h] using hmono hc'⟩

/-! ## The listener stays registered -/

/-- Only a registration as `main_http` or a `stop_all` changes what is registered as `main_http`. -/
theorem serves_act {w : World} {c : CallId} {choice : Choice} {s' : Shared} {pc' : Pc} (h : Sound w)
    (hact : Act w.shared c choice (w.calls c) s' pc') {attempt : Nat} {addr : BoundListenAddress}
    (hserves : w.shared.server.Serves attempt addr) :
    s'.server.Serves attempt addr ∨ (∃ a, (w.calls c).role = .opening a ∧ (w.calls c).hands.spawned ≠ none) ∨
      ∃ seen, (w.calls c).role = .closing seen ∧ pc'.role = .closing seen ∧ s'.inner.state = w.shared.inner.state := by
  obtain ⟨t, ht, hservice⟩ := hserves
  have hservice' := (act_handStep hact).serviceOf hservice
  have hformed := h.formed c
  have hkeep : s'.server.services.get mainServiceName = some t → s'.server.Serves attempt addr := fun h => ⟨t, h, hservice'⟩
  generalize hpc : w.calls c = pc at *
  cases hact with
  | @inserted _ name t' hhands =>
      have hne : pc.hands.spawned ≠ none := by simp [hhands]
      cases pc with
      | startRegister => exact .inr (.inl ⟨_, rfl, hne⟩)
      | startListen => exact .inr (.inl ⟨_, rfl, hne⟩)
      | updateServices req todo hands =>
          refine .inl (hkeep ?_)
          have hne : mainServiceName ≠ name := (hformed.2.spawned name t' hhands).1.ne_main.symm
          simp [Shared.onServer, HashMap.get_insert, hne, ht]
      | startCancelling => exact absurd hformed hne
      | stopping => exact absurd hformed hne
      | _ => simp [Pc.hands, Hands.empty] at hhands
  | updateRemoved req name todo =>
      refine .inl (hkeep ?_)
      have hne : mainServiceName ≠ name := (hformed.1 _ List.mem_cons_self).ne_main.symm
      simp [Shared.onServer, HashMap.get_remove, hne, ht]
  | cancelTook => exact .inr (.inr ⟨_, rfl, rfl, rfl⟩)
  | stopTook => exact .inr (.inr ⟨_, rfl, rfl, rfl⟩)
  | setupFailed => exact .inl (hkeep (by rw [Shared.failStart, server_notifyStart]; exact ht))
  | finalised | cancelled => exact .inl (hkeep (by rw [server_notifyStart]; exact ht))
  | stopBegunWaiting | stopBegun => exact .inl (hkeep (by rw [server_beginStop]; exact ht))
  | stopEnded => exact .inl (hkeep (by rw [server_endStop]; exact ht))
  | signalled hhands => exact .inl (hkeep (by simpa [Shared.onServer] using ht))
  | _ => exact .inl (hkeep ht)

/-- A call that takes all services has seen only older attempts, or none is being settled and the proxy is not
running. -/
theorem Sound.stale_or_closed {w : World} (h : Sound w) {c : CallId} {choice : Choice} {s' : Shared} {pc' : Pc}
    (hact : Act w.shared c choice (w.calls c) s' pc') {seen : Nat} (hrole : (w.calls c).role = .closing seen)
    (hrole' : pc'.role = .closing seen) (hstate : s'.inner.state = w.shared.inner.state) :
    World.Stale ⟨s', Function.update w.calls c pc'⟩ ∨
      ((∀ c' a, (w.calls c').role ≠ .opening a) ∧ s'.inner.state ≠ .running) := by
  rcases Nat.lt_or_ge seen s'.starts.length with hlt | hge
  · exact .inl ⟨c, by simpa [hrole', Role.Stale] using hlt⟩
  · have hle := attempts_act hact
    have hseen : seen = w.lifecycle.attempts := by
      have : seen ≤ w.lifecycle.attempts := h.life.closing hrole
      simp only [World.lifecycle, Shared.lifecycle] at this ⊢
      omega
    subst hseen
    refine .inr ⟨h.life.closed (c := c) hrole, fun hrun => ?_⟩
    have := h.life.closingNewest (c := c) hrole
    simp [World.lifecycle, Shared.lifecycle, ← hstate, hrun] at this

/-- When a step does not keep the listener registered, the proxy is not running and no attempt is settled, or a stale
call has taken it. -/
theorem serves_or_stale {w : World} {c : CallId} {choice : Choice} {s' : Shared} {pc' : Pc} (h : Sound w)
    (hact : Act w.shared c choice (w.calls c) s' pc') {attempt : Nat} {addr : BoundListenAddress}
    (hserves : w.shared.server.Serves attempt addr) :
    s'.server.Serves attempt addr ∨ (∃ a, (w.calls c).role = .opening a ∧ (w.calls c).hands.spawned ≠ none) ∨
      World.Stale ⟨s', Function.update w.calls c pc'⟩ ∨
      ((∀ c' a, (w.calls c').role ≠ .opening a) ∧ s'.inner.state ≠ .running) := by
  rcases serves_act h hact hserves with hs | hs | ⟨seen, hrole, hrole', hstate⟩
  · exact .inl hs
  · exact .inr (.inl hs)
  · exact .inr (.inr (h.stale_or_closed hact hrole hrole' hstate))

/-- Only the end of a start makes the proxy run, or changes the address while it runs. -/
theorem running_act {s s' : Shared} {c : CallId} {choice : Choice} {pc pc' : Pc} (hact : Act s c choice pc s' pc')
    (hrun : s'.inner.state = .running) :
    (s.inner.state = .running ∧ s'.inner.listenAddress = s.inner.listenAddress) ∨
      ∃ attempt addr, pc = .startListen attempt addr .empty ∧ s'.inner.listenAddress = some addr ∧ s'.server = s.server := by
  cases hact with
  | startBegun => simp [Shared.beginStart] at hrun
  | stopFast hstate => simp [hstate] at hrun
  | stopBegunWaiting | stopBegun => unfold Shared.beginStop at hrun; split at hrun <;> simp at hrun
  | setupFailed => unfold Shared.failStart Shared.notifyStart at hrun; split at hrun <;> simp at hrun
  | finalised attempt addr hstate =>
      exact .inr ⟨attempt, addr, rfl, by unfold Shared.notifyStart; split <;> rfl, server_notifyStart _ _⟩
  | cancelled attempt addr hstate =>
      have h : (s.notifyStart (.error Shared.startCancelled)).inner.state = s.inner.state := by
        unfold Shared.notifyStart; split <;> rfl
      simp [h ▸ hrun] at hstate
  | cancelEnded => simp [Shared.endCancelledStart] at hrun
  | stopEnded => unfold Shared.endStop Shared.notifyStop at hrun; split at hrun <;> simp at hrun
  | _ => exact .inl ⟨hrun, rfl⟩

theorem startListen_of_withHands {pc : Pc} {hands hands' : Hands} {attempt : Nat} {addr : BoundListenAddress}
    (h : .startListen attempt addr hands' = pc.withHands hands) :
    ∃ before, pc = .startListen attempt addr before := by
  cases pc with
  | startListen attempt₀ addr₀ before =>
      obtain ⟨rfl, rfl, -⟩ := Pc.startListen.inj h
      exact ⟨before, rfl⟩
  | _ => cases h

/-- A call that has registered its listener had registered it before, or registers it with this step. -/
theorem listening_act {s s' : Shared} {c : CallId} {choice : Choice} {pc : Pc} {attempt : Nat}
    {addr : BoundListenAddress} {hands' : Hands} (hact : Act s c choice pc s' (.startListen attempt addr hands'))
    (hspawned : hands'.spawned = none) :
    ∃ hands, pc = .startListen attempt addr hands ∧
      (hands.spawned = none ∨ ∃ name t, hands.spawned = some (name, t) ∧ s'.server = s.server.insert name t) := by
  generalize hpc' : Pc.startListen attempt addr hands' = pc' at hact
  cases hact with
  | @inserted _ name t hhands =>
      obtain ⟨hands, rfl⟩ := startListen_of_withHands hpc'
      exact ⟨hands, rfl, .inr ⟨name, t, hhands, rfl⟩⟩
  | signalled hhands =>
      obtain ⟨hands, rfl⟩ := startListen_of_withHands hpc'
      exact ⟨hands, rfl, .inl (congrArg Hands.spawned hhands)⟩
  | awaited hhands hstatus =>
      obtain ⟨hands, rfl⟩ := startListen_of_withHands hpc'
      exact ⟨hands, rfl, .inl (congrArg Hands.spawned hhands)⟩
  | listenerSpawned attempt₀ addr₀ =>
      obtain ⟨-, -, rfl⟩ := Pc.startListen.inj hpc'
      simp [Hands.register] at hspawned
  | _ => cases hpc'

theorem Serving.step {w w' : World} {l : Label} (h : Serving w) (hsound : Sound w) (hfresh : EndsFresh w l)
    (hstep : NeemataProxy.step w l = some w') : Serving w' := by
  rcases step_cases hstep with ⟨c, choice, s', pc', hl, hact, rfl⟩ | ⟨t, rfl, ht, rfl⟩
  · have hopen : ∀ {c' a}, (w.calls c').role = .opening a →
        w.shared.inner.state = .starting ∨ w.shared.inner.state = .stopping := fun hrole =>
      (hsound.life.opening hrole).2.2
    have hstale : w.Stale → w.shared.inner.state ≠ .stopped → World.Stale ⟨s', Function.update w.calls c pc'⟩ :=
      fun hs hne => (stale_act rfl hact (hfresh.of_call hl) hs).resolve_right hne
    refine ⟨fun hrun => ?_, fun {c' attempt addr hands'} hc' hspawned => ?_⟩
    · rcases running_act hact hrun with ⟨hrun₀, haddr⟩ | ⟨attempt, addr, hpc, haddr, hserver⟩
      · rcases h.running hrun₀ with hs | ⟨attempt, addr, ha, hserves⟩
        · exact .inl (hstale hs (by simp [hrun₀]))
        · rcases serves_or_stale hsound hact hserves with hs | ⟨a, hrole, -⟩ | hs | ⟨-, hne⟩
          · exact .inr ⟨attempt, addr, haddr.trans ha, hs⟩
          · simpa [hrun₀] using hopen hrole
          · exact .inl hs
          · exact absurd hrun hne
      · rcases h.listening hpc rfl with hs | hserves
        · have := @hopen c attempt (by rw [hpc]; rfl)
          exact .inl (hstale hs (by rcases this with h | h <;> simp [h]))
        · exact .inr ⟨attempt, addr, haddr, by rw [hserver]; exact hserves⟩
    · -- a call that listens after the step listened before, or has just registered its listener
      have hbefore : ∀ hands, w.calls c' = .startListen attempt addr hands → hands.spawned = none →
          World.Stale ⟨s', Function.update w.calls c pc'⟩ ∨ s'.server.Serves attempt addr := by
        intro hands hpc hnone
        have hrole : (w.calls c').role = .opening attempt := by rw [hpc]; rfl
        rcases h.listening hpc hnone with hs | hserves
        · exact .inl (hstale hs (by rcases hopen hrole with h | h <;> simp [h]))
        · rcases serves_or_stale hsound hact hserves with hs | ⟨a, hrole', hne⟩ | hs | ⟨hno, -⟩
          · exact .inr hs
          · obtain rfl : c' = c := hsound.life.unique hrole hrole'
            rw [hpc] at hne
            exact absurd hnone hne
          · exact .inl hs
          · exact absurd hrole (hno c' attempt)
      by_cases hcc : c' = c
      · subst hcc
        simp only [Function.update_self] at hc'
        obtain ⟨hands, hpc, hnone | ⟨name, t, hsome, hserver⟩⟩ := listening_act (hc' ▸ hact) hspawned
        · exact hbefore hands hpc hnone
        · have hformed := hsound.formed c'
          rw [hpc] at hformed
          obtain ⟨rfl, hservice⟩ := hformed name t hsome
          exact .inr ⟨t, by simp [hserver, HashMap.get_insert], by rw [hserver]; exact hservice⟩
      · simp only [Function.update_of_ne hcc] at hc'
        exact hbefore hands' hc' hspawned
  · have hserves : ∀ {attempt addr}, w.shared.server.Serves attempt addr →
        (w.shared.server.setStatus t .terminated).Serves attempt addr := by
      rintro attempt addr ⟨t', ht', hx⟩
      exact ⟨t', ht', (Server.serviceOf_setStatus ..).trans hx⟩
    refine ⟨fun hrun => (h.running hrun).imp id ?_, fun hc hspawned => (h.listening hc hspawned).imp id hserves⟩
    rintro ⟨attempt, addr, ha, hs⟩
    exact ⟨attempt, addr, ha, hserves hs⟩

theorem AddressKept.step {w w' : World} {l : Label} (h : AddressKept w) (hstep : NeemataProxy.step w l = some w') :
    AddressKept w' := by
  unfold AddressKept at *
  rcases step_cases hstep with ⟨c, choice, s', pc', hl, hact, rfl⟩ | ⟨t, rfl, ht, rfl⟩
  · generalize w.calls c = pc at hact
    cases hact with
    | startBegun => exact fun _ => rfl
    | stopFast => exact fun _ => rfl
    | stopBegunWaiting | stopBegun => intro hs; unfold Shared.beginStop at hs; split at hs <;> simp at hs
    | setupFailed => intro _; unfold Shared.failStart Shared.notifyStart; split <;> rfl
    | finalised => intro hs; unfold Shared.notifyStart at hs; split at hs <;> simp at hs
    | cancelled attempt addr hstate =>
        unfold Shared.notifyStart
        split <;> exact h
    | cancelEnded => exact fun _ => rfl
    | stopEnded => intro _; unfold Shared.endStop Shared.notifyStop; split <;> rfl
    | _ => exact h
  · exact h

end NeemataProxy
