import NeemataProxy.Proxy.Lemmas.Serving

/-!
# The release of listeners

Once the listeners of the attempts before some number have all terminated, no call can bring one of them back.
-/

namespace NeemataProxy

open Lib

/-- Every listener of an attempt before `seen` has been told to shut down and has terminated. -/
def Server.Released (s : Server) (seen : Nat) : Prop :=
  ∀ h attempt addr, s.serviceOf h = some (.listener attempt addr) → attempt < seen → s.statusOf h = some .terminated

/-- The listeners of the attempts before `seen` have terminated, and there will be no more of them. -/
structure Down (w : World) (seen : Nat) : Prop where
  begun : seen ≤ w.shared.starts.length
  released : w.shared.server.Released seen
  opening : ∀ {c a}, (w.calls c).role = .opening a → seen ≤ a

/-! ## Listeners stay released -/

theorem HandStep.terminated {s s' : Server} {hs hs' : Hands} (hstep : HandStep s hs s' hs') {h : ServiceHandle}
    (ht : s.statusOf h = some .terminated) : s'.statusOf h = some .terminated := by
  cases hstep with
  | spawned name service =>
      have hne : h ≠ s.nextHandle := by rintro rfl; simp [s.statusOf_nextHandle] at ht
      simp [hne, ht]
  | signalled t rest =>
      rw [Server.statusOf_signal, if_neg]
      · exact ht
      · rintro ⟨rfl, hr⟩; simp [ht] at hr
  | _ => exact ht

/-- Only a call that settles its attempt spawns the listener of it. -/
theorem listener_act {s s' : Shared} {c : CallId} {choice : Choice} {pc pc' : Pc} (hact : Act s c choice pc s' pc')
    {h : ServiceHandle} {attempt : Nat} {addr : BoundListenAddress}
    (hx : s'.server.serviceOf h = some (.listener attempt addr)) :
    s.server.serviceOf h = some (.listener attempt addr) ∨ pc.role = .opening attempt := by
  cases hact with
  | listenerSpawned attempt' addr' =>
      rw [Shared.onServer, Server.serviceOf_spawn] at hx
      split at hx
      · obtain ⟨rfl, -⟩ := Service.listener.inj (Option.some.inj hx)
        exact .inr rfl
      · exact .inl hx
  | healthSpawned | updateSpawned =>
      rw [Shared.onServer, Server.serviceOf_spawn] at hx
      split at hx
      · simp at hx
      · exact .inl hx
  | signalled => rw [Shared.onServer, Server.serviceOf_signal] at hx; exact .inl hx
  | setupFailed => rw [Shared.failStart, server_notifyStart] at hx; exact .inl hx
  | finalised | cancelled => rw [server_notifyStart] at hx; exact .inl hx
  | stopBegunWaiting | stopBegun => rw [server_beginStop] at hx; exact .inl hx
  | stopEnded => rw [server_endStop] at hx; exact .inl hx
  | _ => exact .inl hx

theorem Down.step {w w' : World} {l : Label} {seen : Nat} (h : Down w seen) (hstep : NeemataProxy.step w l = some w') :
    Down w' seen := by
  rcases step_cases hstep with ⟨c, choice, s', pc', hl, hact, rfl⟩ | ⟨t, rfl, ht, rfl⟩
  · refine ⟨h.begun.trans (attempts_act hact), fun t attempt addr hx hlt => ?_, fun {c' a} hrole => ?_⟩
    · rcases listener_act hact hx with hx | hrole
      · exact (act_handStep hact).terminated (h.released t attempt addr hx hlt)
      · exact absurd hlt (Nat.not_lt_of_le (h.opening hrole))
    · by_cases hc : c' = c
      · subst hc
        simp only [Function.update_self] at hrole
        rcases opening_act hact hrole with hrole | ⟨rfl, -⟩
        · exact h.opening hrole
        · exact h.begun
      · simp only [Function.update_of_ne hc] at hrole
        exact h.opening hrole
  · refine ⟨h.begun, fun t' attempt addr hx hlt => ?_, h.opening⟩
    have hterm : w.shared.server.statusOf t' = some .terminated :=
      h.released t' attempt addr (by rwa [Shared.onServer, Server.serviceOf_setStatus] at hx) hlt
    simp only [Shared.onServer, Server.statusOf_setStatus]
    split
    · simp [ht]
    · exact hterm

theorem Down.le {w : World} {seen seen' : Nat} (h : Down w seen) (hle : seen' ≤ seen) : Down w seen' :=
  ⟨hle.trans h.begun, fun t attempt addr hx hlt => h.released t attempt addr hx (Nat.lt_of_lt_of_le hlt hle),
    fun hrole => hle.trans (h.opening hrole)⟩

/-! ## When listeners are released -/

/-- The handles that a `stop_all` has taken and still has to deal with. -/
def Pc.shuttingDown : Pc → List ServiceHandle
  | .startCancelling _ hands | .stopping _ hands => hands.held
  | _ => []

/-- A listener that has not terminated is registered, or a call is settling an attempt or shutting it down. -/
theorem Sound.listener {w : World} (h : Sound w) {t : ServiceHandle} {attempt : Nat} {addr : BoundListenAddress}
    (hx : w.shared.server.serviceOf t = some (.listener attempt addr)) :
    w.shared.server.statusOf t = some .terminated ∨ w.shared.server.services.get mainServiceName = some t ∨
      (∃ c a, (w.calls c).role = .opening a) ∨ ∃ c, t ∈ (w.calls c).shuttingDown := by
  have hnot : ∀ {lb}, w.shared.server.serviceOf t ≠ some (.health lb) := by simp [hx]
  by_cases hlive : w.shared.server.statusOf t = some .running ∨ w.shared.server.statusOf t = some .signalled
  · refine .inr ((h.owned.covered hlive).imp ?_ ?_)
    · rintro ⟨n, hn⟩
      rcases h.fits hn with ⟨rfl, -⟩ | ⟨-, lb, hlb⟩
      · exact hn
      · exact absurd hlb hnot
    · rintro ⟨c, hc⟩
      have hformed := h.formed c
      simp only [World.hands] at hc
      cases hpc : w.calls c <;> rw [hpc] at hc hformed
      case startRegister a addr' lbTasks hands => exact .inl ⟨c, a, by rw [hpc]; rfl⟩
      case startListen a addr' hands => exact .inl ⟨c, a, by rw [hpc]; rfl⟩
      case startCancelling a hands =>
          refine .inr ⟨c, ?_⟩
          rw [hpc]
          simpa [Pc.hands, Pc.shuttingDown, Hands.handles, show hands.spawned = none from hformed] using hc
      case stopping seen hands =>
          refine .inr ⟨c, ?_⟩
          rw [hpc]
          simpa [Pc.hands, Pc.shuttingDown, Hands.handles, show hands.spawned = none from hformed] using hc
      case updateServices req todo hands =>
          rcases List.mem_append.mp hc with hmem | hmem
          · obtain ⟨p, hp, rfl⟩ := Option.map_eq_some_iff.mp (Option.mem_toList.mp hmem)
            exact absurd ((hformed.2.spawned p.1 p.2 hp).2.choose_spec) hnot
          · exact absurd (hformed.2.held t hmem).choose_spec hnot
      all_goals simp [Pc.hands] at hc
  · refine .inl ?_
    obtain ⟨task, htask, -⟩ := Option.map_eq_some_iff.mp hx
    have hstatus : w.shared.server.statusOf t = some task.status := by rw [Server.statusOf, htask]; rfl
    rw [hstatus] at hlive ⊢
    cases hs : task.status <;> simp [hs] at hlive ⊢

/-- Nothing is registered, no call is settling an attempt and none is shutting something down. -/
theorem Sound.down {w : World} (h : Sound w) (hnone : w.shared.server.services.get mainServiceName = none)
    (hopen : ∀ c a, (w.calls c).role ≠ .opening a) (halone : ∀ c, (w.calls c).shuttingDown = []) :
    Down w w.shared.starts.length := by
  refine ⟨le_refl _, fun t attempt addr hx _ => ?_, fun hrole => absurd hrole (hopen _ _)⟩
  rcases h.listener hx with ht | ht | ⟨c, a, ha⟩ | ⟨c, hc⟩
  · exact ht
  · simp [hnone] at ht
  · exact absurd ha (hopen c a)
  · simp [halone c] at hc

/-- With this step a stop finds the proxy stopped, or ends its `stop_all`. -/
def World.finishesStop (w : World) : Label → Bool
  | .begin _ .stop _ => w.shared.inner.state = .stopped
  | .advance c _ =>
      match w.calls c with
      | .stopping _ hands => hands = .empty
      | _ => false
  | _ => false

/-- A stop that finds the proxy stopped or ends its `stop_all` does so while no call is in a `stop_all`. -/
def StopsAlone (w : World) (l : Label) : Prop := w.finishesStop l = true → ∀ c, (w.calls c).shuttingDown = []

theorem Sound.upserts {w : World} (h : Sound w) (l : Label) : UpsertsWhileRunning (· = mainServiceName) w l := by
  intro p _ name hname hmain
  have hformed := h.formed p.1
  cases hpc : w.calls p.1 <;> rw [hpc] at hname hformed <;> simp only [Pc.upserting, Option.mem_def, reduceCtorEq] at hname
  obtain ⟨q, hq, rfl⟩ := Option.map_eq_some_iff.mp hname
  exact absurd hmain (hformed.2.spawned q.1 q.2 hq).1.ne_main

/-- When a stop finishes alone, nothing that began before it is left. -/
theorem Sound.down_of_finishes {w : World} {l : Label} (h : Sound w) (hswept : Swept (· = mainServiceName) w)
    (hfresh : EndsFresh w l) (halone : StopsAlone w l) (hf : w.finishesStop l = true) :
    Down w w.shared.starts.length := by
  have hclear : w.Clear ∧ ∀ c a, (w.calls c).role ≠ .opening a := by
    have hstopped : w.shared.inner.state = .stopped → w.Clear ∧ ∀ c a, (w.calls c).role ≠ .opening a :=
      fun hs => ⟨.inl hs, h.life.notOpening_of_stopped hs⟩
    cases l with
    | begin c call choice =>
        cases call with
        | stop => exact hstopped (of_decide_eq_true hf)
        | _ => simp [World.finishesStop] at hf
    | advance c choice =>
        simp only [World.finishesStop] at hf
        split at hf
        · rename_i seen hands hpc
          obtain rfl := of_decide_eq_true hf
          rcases hfresh.of_call (c := c) rfl seen (by rw [hpc]; exact endsSince_stopping seen) with hs | rfl
          · exact hstopped hs
          · exact ⟨.inr ⟨c, by rw [hpc]; rfl⟩, h.life.closed (c := c) (congrArg Pc.role hpc)⟩
        · simp at hf
    | taskEnds t => simp [World.finishesStop] at hf
  refine h.down ?_ hclear.2 (halone hf)
  cases hn : w.shared.server.services.get mainServiceName with
  | none => rfl
  | some t => exact absurd rfl (hswept hclear.1 _ t hn)

/-! ## Stops that wait for another one -/

/-- A stop that waits for another one is notified when the listeners it has seen are down. -/
structure Notified (w : World) : Prop where
  notifier : ∀ {rx}, w.shared.inner.stopNotifier = some rx → w.shared.stops[rx]? = some .pending
  waiting : ∀ {c rx seen}, w.calls c = .stopWait rx seen →
    seen ≤ w.shared.starts.length ∧ (w.shared.stops[rx]? = some .ready → Down w seen)

theorem Notified.new (parsed : Options.ProxyOptionsParsed) : Notified (World.new parsed) :=
  ⟨fun h => by simp [World.new, Shared.new] at h, fun h => by simp [World.new] at h⟩

theorem ready_act {s s' : Shared} {c : CallId} {choice : Choice} {pc pc' : Pc} (hact : Act s c choice pc s' pc') {rx : Nat}
    (hready : s'.stops[rx]? = some .ready) : s.stops[rx]? = some .ready ∨ ∃ seen, pc = .stopping seen .empty := by
  cases hact with
  | stopBegunWaiting | stopBegun =>
      refine .inl ?_
      unfold Shared.beginStop at hready
      split at hready
      · exact hready
      · rw [List.getElem?_append] at hready
        split at hready
        · exact hready
        · simpa using List.mem_of_getElem? hready
  | setupFailed => unfold Shared.failStart Shared.notifyStart at hready; split at hready <;> exact .inl hready
  | finalised | cancelled => unfold Shared.notifyStart at hready; split at hready <;> exact .inl hready
  | stopEnded seen => exact .inr ⟨seen, rfl⟩
  | _ => exact .inl hready

theorem notifier_act {s s' : Shared} {c : CallId} {choice : Choice} {pc pc' : Pc} (hact : Act s c choice pc s' pc')
    (h : ∀ {rx}, s.inner.stopNotifier = some rx → s.stops[rx]? = some .pending) {rx : Nat}
    (hrx : s'.inner.stopNotifier = some rx) : s'.stops[rx]? = some .pending := by
  cases hact with
  | stopBegunWaiting | stopBegun =>
      unfold Shared.beginStop at hrx ⊢
      split at hrx
      · exact h hrx
      · obtain rfl := Option.some.inj hrx
        simp
  | setupFailed => unfold Shared.failStart Shared.notifyStart at hrx ⊢; split at hrx <;> exact h hrx
  | finalised | cancelled => unfold Shared.notifyStart at hrx ⊢; split at hrx <;> exact h hrx
  | stopEnded => unfold Shared.endStop Shared.notifyStop at hrx; split at hrx <;> simp_all
  | _ => exact h hrx

/-- A call that waits for a stop has waited for it before, or joins it with this step. -/
theorem waiting_act {s s' : Shared} {c : CallId} {choice : Choice} {pc : Pc} {rx seen : Nat}
    (hact : Act s c choice pc s' (.stopWait rx seen)) :
    pc = .stopWait rx seen ∨ seen = s.starts.length ∧ s.inner.stopNotifier = some rx ∧ s' = s := by
  generalize hpc' : Pc.stopWait rx seen = pc' at hact
  cases hact with
  | stopJoined hstate hrx =>
      obtain ⟨rfl, rfl⟩ := Pc.stopWait.inj hpc'
      exact .inr ⟨rfl, hrx, rfl⟩
  | inserted | signalled | awaited =>
      cases pc <;> cases hpc'
      exact .inl rfl
  | _ => cases hpc'

theorem Notified.step {w w' : World} {l : Label} (h : Notified w) (hsound : Sound w)
    (hswept : Swept (· = mainServiceName) w) (hfresh : EndsFresh w l) (halone : StopsAlone w l)
    (hstep : NeemataProxy.step w l = some w') : Notified w' := by
  have hdown := fun {seen} (hd : Down w seen) => hd.step hstep
  rcases step_cases hstep with ⟨c, choice, s', pc', hl, hact, rfl⟩ | ⟨t, rfl, ht, rfl⟩
  · -- a call that waited before the step
    have hold : ∀ {c' rx seen}, w.calls c' = .stopWait rx seen → seen ≤ s'.starts.length ∧
        (s'.stops[rx]? = some .ready → Down ⟨s', Function.update w.calls c pc'⟩ seen) := by
      intro c' rx seen hwait
      obtain ⟨hle, hready⟩ := h.waiting hwait
      refine ⟨hle.trans (attempts_act hact), fun hr => ?_⟩
      rcases ready_act hact hr with hr | ⟨seen', hpc⟩
      · exact hdown (hready hr)
      · refine hdown ((hsound.down_of_finishes hswept hfresh halone ?_).le hle)
        cases l with
        | begin c₀ call choice₀ =>
            obtain ⟨rfl, rfl⟩ := Prod.mk.inj (Option.some.inj hl)
            simp [NeemataProxy.step, hpc] at hstep
        | advance c₀ choice₀ =>
            obtain ⟨rfl, rfl⟩ := Prod.mk.inj (Option.some.inj hl)
            simp [World.finishesStop, hpc]
        | taskEnds t => cases hl
    refine ⟨fun hrx => notifier_act hact h.notifier hrx, fun {c' rx seen} hwait => ?_⟩
    by_cases hc : c' = c
    · subst hc
      simp only [Function.update_self] at hwait
      rcases waiting_act (hwait ▸ hact) with hpc | ⟨rfl, hrx, rfl⟩
      · exact hold hpc
      · exact ⟨le_refl _, fun hr => by simp [h.notifier hrx] at hr⟩
    · simp only [Function.update_of_ne hc] at hwait
      exact hold hwait
  · exact ⟨h.notifier, fun hwait => ⟨(h.waiting hwait).1, fun hr => hdown ((h.waiting hwait).2 hr)⟩⟩

/-! ## Stops that resolve -/

/-- The number of attempts that had begun when the stop was called that call `c` runs. -/
def Pc.stopSeen : Pc → Option Nat
  | .stopWaitStart _ seen | .stopAll seen | .stopping seen _ | .stopWait _ seen => some seen
  | _ => none

/-- The step is one of a stop before which `seen` attempts had begun. -/
def World.stopSeen (w : World) : Label → Option Nat
  | .begin _ .stop _ => some w.shared.starts.length
  | .advance c _ => (w.calls c).stopSeen
  | _ => none

/-- The promise of the call has been resolved. -/
def Pc.resolved : Pc → Bool
  | .done (.ok _) => true
  | _ => false

theorem Pc.resolved_iff {pc : Pc} : pc.resolved = true ↔ pc = .done (.ok ()) := by
  unfold resolved
  split <;> simp_all

/-- With this step the promise of a stop is resolved before which `seen` attempts had begun. -/
def StopResolves (w : World) (l : Label) (w' : World) (seen : Nat) : Prop :=
  w.stopSeen l = some seen ∧ ∃ p ∈ l.call, (w'.calls p.1).resolved = true

/-- A stop resolves when it finishes, or when it has been notified. -/
theorem stopResolves_cases {w w' : World} {l : Label} {seen : Nat} (hsound : Sound w) (hstep : step w l = some w')
    (h : StopResolves w l w' seen) :
    (w.finishesStop l = true ∧ seen ≤ w.shared.starts.length) ∨
      ∃ c rx, w.calls c = .stopWait rx seen ∧ w.shared.stops[rx]? = some .ready := by
  obtain ⟨hseen, p, hp, hdone⟩ := h
  rcases step_cases hstep with ⟨c, choice, s', pc', hl, hact, rfl⟩ | ⟨t, rfl, ht, rfl⟩
  · obtain rfl : p = (c, choice) := Option.some.inj (hp.symm.trans hl)
    simp only [Function.update_self, Pc.resolved_iff] at hdone
    subst hdone
    cases l with
    | begin c₀ call choice₀ =>
        obtain ⟨rfl, rfl⟩ := Prod.mk.inj (Option.some.inj hl)
        cases call with
        | stop =>
            have hidle : w.calls c₀ = .idle := by
              simp only [step] at hstep
              split at hstep
              · assumption
              · simp at hstep
            rw [hidle] at hact
            generalize hpc' : Pc.done (.ok ()) = pc' at hact
            cases hact with
            | stopFast hstate => exact .inl ⟨by simp [World.finishesStop, hstate], (Option.some.inj hseen).ge⟩
            | inserted hhands => simp [Pc.hands, Hands.empty] at hhands
            | signalled hhands => simp [Pc.hands, Hands.empty] at hhands
            | awaited hhands => simp [Pc.hands, Hands.empty] at hhands
            | _ => simp at hpc'
        | _ => simp [World.stopSeen] at hseen
    | advance c₀ choice₀ =>
        obtain ⟨rfl, rfl⟩ := Prod.mk.inj (Option.some.inj hl)
        simp only [World.stopSeen] at hseen
        generalize hpc : w.calls c₀ = pc at hact hseen
        generalize hpc' : Pc.done (.ok ()) = pc' at hact
        cases hact with
        | stopEnded seen' =>
            obtain rfl := Option.some.inj hseen
            refine .inl ⟨by simp [World.finishesStop, hpc], ?_⟩
            exact hsound.life.closing (c := c₀) (congrArg Pc.role hpc)
        | @stopSettled rx seen' r hr =>
            obtain rfl := Option.some.inj hseen
            obtain rfl := Pc.done.inj hpc'
            refine .inr ⟨c₀, rx, hpc, ?_⟩
            unfold Shared.waitForStopReady at hr
            split at hr
            · assumption
            · split at hr <;> simp at hr
        | inserted | signalled | awaited => cases pc <;> simp [Pc.withHands, Pc.stopSeen] at hpc' hseen
        | _ => simp [Pc.stopSeen] at hpc' hseen
    | taskEnds t => cases hl
  · simp [Label.call] at hp

end NeemataProxy
