import NeemataProxy.Proxy.Lemmas.Services

/-!
# When nothing is registered

Between the moment at which a stop takes all services and the next start attempt that registers some, the registry
is empty.
-/

namespace NeemataProxy

open Lib

def World.hands (w : World) : CallId → Hands := fun c => (w.calls c).hands

/-- What holds in every state of a run in which `Stopped` is only written afresh. -/
structure Sound (w : World) : Prop where
  life : w.lifecycle.Inv
  owned : Owned w.shared.server w.hands
  formed : ∀ c, (w.calls c).Formed w.shared.server
  fits : ∀ {n h}, w.shared.server.services.get n = some h → Fits w.shared.server n h

theorem hands_mk_update (w : World) (s : Shared) (c : CallId) (pc : Pc) :
    World.hands ⟨s, Function.update w.calls c pc⟩ = Function.update w.hands c pc.hands :=
  Function.comp_update Pc.hands w.calls c pc

theorem forall_update {P : Pc → Prop} {calls : CallId → Pc} {c : CallId} {pc : Pc} (hself : P pc)
    (hother : ∀ c', c' ≠ c → P (calls c')) (c' : CallId) : P (Function.update calls c pc c') := by
  by_cases h : c' = c
  · subst h; simpa using hself
  · simpa [h] using hother c' h

/-- Only `upsert_service` puts something into the registry. -/
theorem HandStep.services {s s' : Server} {hs hs' : Hands} (hstep : HandStep s hs s' hs') {n : Str} {h : ServiceHandle}
    (hn : s'.services.get n = some h) : s.services.get n = some h ∨ hs.spawned = some (n, h) := by
  cases hstep with
  | @inserted _ name t hspawned =>
      simp only [Server.services_insert, HashMap.get_insert] at hn
      split at hn
      · rename_i heq
        obtain rfl := Option.some.inj hn
        exact .inr (heq ▸ hspawned)
      · exact .inl hn
  | removed name =>
      simp only [Server.services_remove, HashMap.get_remove] at hn
      split at hn
      · simp at hn
      · exact .inl hn
  | took order => simp at hn
  | spawned name service => exact .inl hn
  | signalled t rest => simp only [Server.services_signal] at hn; exact .inl hn
  | _ => exact .inl hn

theorem Sound.new (parsed : Options.ProxyOptionsParsed) : Sound (World.new parsed) := by
  have hrole : ∀ c, (World.new parsed).lifecycle.roles c = .bystander := fun _ => rfl
  refine ⟨⟨?_, ?_, ?_, ?_, ?_, ?_, ?_, ?_, ?_⟩, ⟨?_, ?_, ?_, ?_, ?_, ?_, ?_⟩, fun _ => trivial, ?_⟩
  · intro c a h; simp [hrole] at h
  · intro c c' a a' h; simp [hrole] at h
  · intro a h; simp [World.lifecycle, Shared.lifecycle, World.new, Shared.new] at h
  · rintro a ⟨result, h⟩; simp [World.new, Shared.new] at h
  · intro c rx seen h; simp [hrole] at h
  · intro c seen h; simp [hrole] at h
  · intro c rx h; simp [hrole] at h
  · intro c h; simp [hrole] at h
  · intro c h; simp [hrole] at h
  · intro n h hn; simp [World.new, Shared.new, Server.new] at hn
  · intro n n' h hn; simp [World.new, Shared.new, Server.new] at hn
  · intro c h hh; simp [World.hands, World.new, Pc.hands] at hh
  · intro c c' h hh; simp [World.hands, World.new, Pc.hands] at hh
  · intro c; simp [World.hands, World.new, Pc.hands]
  · intro c; exact Hands.ordered_empty _
  · intro h hh; simp [Server.statusOf, World.new, Shared.new, Server.new] at hh
  · intro n h hn; simp [World.new, Shared.new, Server.new] at hn

theorem EndsFresh.of_call {w : World} {l : Label} {c : CallId} {choice : Choice} (h : EndsFresh w l)
    (hl : l.call = some (c, choice)) (seen : Nat) (hs : (w.calls c).endsSince = some seen) :
    w.shared.inner.state = .stopped ∨ seen = w.shared.starts.length := h (c, choice) hl seen hs

/-- Services are registered under names that fit, and no call is about to register another. -/
structure Fitted (w : World) : Prop where
  formed : ∀ c, (w.calls c).Formed w.shared.server
  fits : ∀ {n h}, w.shared.server.services.get n = some h → Fits w.shared.server n h

theorem Fitted.step {w w' : World} {l : Label} (h : Fitted w) (hstep : step w l = some w') : Fitted w' := by
  rcases step_cases hstep with ⟨c, choice, s', pc', hl, hact, rfl⟩ | ⟨t, rfl, ht, rfl⟩
  · have hhand := act_handStep hact
    have hmono := fun t x => hhand.serviceOf (h := t) (x := x)
    refine ⟨forall_update (formed_act hact (h.formed c) fun _ _ => h.fits) fun c' _ => (h.formed c').mono hmono, ?_⟩
    intro n t hn
    rcases hhand.services hn with hn | hn
    · exact (h.fits hn).mono hmono
    · exact ((h.formed c).fits hn).mono hmono
  · have hservice : ∀ h x, w.shared.server.serviceOf h = some x →
        (w.shared.server.setStatus t .terminated).serviceOf h = some x := fun h x hx => by
      rw [Server.serviceOf_setStatus]; exact hx
    exact ⟨fun c => (h.formed c).mono hservice, fun hn => (h.fits hn).mono hservice⟩

theorem Sound.step {w w' : World} {l : Label} (h : Sound w) (hfresh : EndsFresh w l) (hstep : step w l = some w') :
    Sound w' := by
  have hfitted := Fitted.step ⟨h.formed, h.fits⟩ hstep
  rcases step_cases hstep with ⟨c, choice, s', pc', hl, hact, rfl⟩ | ⟨t, rfl, ht, rfl⟩
  · refine ⟨?_, ?_, hfitted.formed, hfitted.fits⟩
    · rw [lifecycle_mk_update]
      rcases lifecycle_act rfl h.life hact (hfresh.of_call hl) with heq | hlife
      · rw [heq]; exact h.life
      · exact h.life.step hlife
    · rw [hands_mk_update]
      exact h.owned.step (act_handStep hact)
  · exact ⟨h.life, h.owned.ends ht, hfitted.formed, hfitted.fits⟩

/-! ## The empty registry -/

/-- The call has found the registry empty or emptied it, and no attempt has begun since. -/
def Pc.Cleared (attempts : Nat) : Pc → Prop
  | .startSetup _ _ => True
  | .startCancelling attempt _ => attempt + 1 = attempts
  | .stopping seen _ => seen = attempts
  | _ => False

def World.Clear (w : World) : Prop :=
  w.shared.inner.state = .stopped ∨ ∃ c, (w.calls c).Cleared w.shared.starts.length

/-- No service with a name in `N` is registered when nothing should be. -/
def Swept (N : Str → Prop) (w : World) : Prop :=
  w.Clear → ∀ n h, w.shared.server.services.get n = some h → ¬ N n

/-- The name that an update is about to register. -/
def Pc.upserting : Pc → Option Str
  | .updateServices _ _ hands => hands.spawned.map Prod.fst
  | _ => none

/-- Updates register services with a name in `N` only while the proxy is running. -/
def UpsertsWhileRunning (N : Str → Prop) (w : World) (l : Label) : Prop :=
  ∀ p ∈ l.call, ∀ name ∈ (w.calls p.1).upserting, N name → w.shared.inner.state = .running

instance (N : Str → Prop) [DecidablePred N] (w : World) (l : Label) : Decidable (UpsertsWhileRunning N w l) :=
  inferInstanceAs (Decidable (∀ p ∈ l.call, ∀ name ∈ (w.calls p.1).upserting,
    N name → w.shared.inner.state = .running))

theorem cleared_withHands {attempts : Nat} {pc : Pc} {hands : Hands} (h : (pc.withHands hands).Cleared attempts) :
    pc.Cleared attempts := by cases pc <;> exact h

/-- A call that keeps the registry clear is settling an attempt or is about to write `Stopped`. -/
theorem Pc.Cleared.role {attempts : Nat} {pc : Pc} (h : pc.Cleared attempts) :
    (∃ a, pc.role = .opening a) ∨ pc.role = .closing attempts := by
  cases pc with
  | startSetup a lbTasks => exact .inl ⟨a, rfl⟩
  | startCancelling a hands => exact .inr (congrArg Role.closing h)
  | stopping seen hands => exact .inr (congrArg Role.closing h)
  | _ => exact h.elim

theorem Sound.not_clear_of_running {w : World} (h : Sound w) (hrun : w.shared.inner.state = .running) : ¬ w.Clear := by
  rintro (hstate | ⟨c, hc⟩)
  · simp [hrun] at hstate
  · rcases hc.role with ⟨a, ha⟩ | hclose
    · have := (h.life.opening (c := c) ha).2.2
      simp [World.lifecycle, Shared.lifecycle, hrun] at this
    · have := h.life.closingNewest (c := c) hclose
      simp [World.lifecycle, Shared.lifecycle, hrun] at this

theorem Sound.not_clear_of_opening {w : World} (h : Sound w) {c : CallId} {a : Nat} (hrole : (w.calls c).role = .opening a)
    (hpc : ¬ (w.calls c).Cleared w.shared.starts.length) : ¬ w.Clear := by
  rintro (hstate | ⟨c', hc'⟩)
  · exact h.life.notOpening_of_stopped hstate c a hrole
  · rcases hc'.role with ⟨a', ha'⟩ | hclose
    · obtain rfl : c = c' := h.life.unique hrole ha'
      exact hpc hc'
    · exact h.life.closed (c := c') hclose c a hrole

/-- A registration happens only when the registry need not be clear. -/
theorem Sound.not_clear_of_spawned {N : Str → Prop} {w : World} {l : Label} (h : Sound w)
    (hup : UpsertsWhileRunning N w l) {c : CallId} {choice : Choice} (hl : l.call = some (c, choice)) {n : Str}
    {t : ServiceHandle} (hspawned : (w.calls c).hands.spawned = some (n, t)) (hn : N n) : ¬ w.Clear := by
  have hformed := h.formed c
  cases hpc : w.calls c with
  | startRegister a addr lbTasks hands =>
      exact h.not_clear_of_opening (c := c) (a := a) (by rw [hpc]; rfl) (by rw [hpc]; exact id)
  | startListen a addr hands =>
      exact h.not_clear_of_opening (c := c) (a := a) (by rw [hpc]; rfl) (by rw [hpc]; exact id)
  | updateServices req todo hands =>
      rw [hpc] at hspawned
      refine h.not_clear_of_running (hup (c, choice) hl n ?_ hn)
      rw [hpc]
      exact Option.map_eq_some_iff.mpr ⟨(n, t), hspawned, rfl⟩
  | startCancelling a hands =>
      rw [hpc] at hspawned hformed
      simp [Pc.hands, show hands.spawned = none from hformed] at hspawned
  | stopping seen hands =>
      rw [hpc] at hspawned hformed
      simp [Pc.hands, show hands.spawned = none from hformed] at hspawned
  | _ => rw [hpc] at hspawned; simp [Pc.hands, Hands.empty] at hspawned

/-- A registry that must be clear after a step had to be before it, or has just been emptied. -/
theorem clear_act {w : World} {c : CallId} {choice : Choice} {s' : Shared} {pc pc' : Pc} (hpc : w.calls c = pc)
    (hact : Act w.shared c choice pc s' pc')
    (hfresh : ∀ seen, pc.endsSince = some seen → w.shared.inner.state = .stopped ∨ seen = w.shared.starts.length)
    (hclear : World.Clear ⟨s', Function.update w.calls c pc'⟩) :
    w.Clear ∨ s'.server.services = .empty := by
  -- steps that keep the state and do not begin an attempt
  have hkeep : (s'.inner.state = .stopped → w.shared.inner.state = .stopped) →
      s'.starts.length = w.shared.starts.length →
      (pc'.Cleared w.shared.starts.length → pc.Cleared w.shared.starts.length) → w.Clear := by
    intro hstate hlen hcleared
    rcases hclear with hs | ⟨c', hc'⟩
    · exact .inl (hstate hs)
    · by_cases h : c' = c
      · subst h
        simp only [Function.update_self] at hc'
        exact .inr ⟨c', hpc ▸ hcleared (hlen ▸ hc')⟩
      · simp only [Function.update_of_ne h] at hc'
        exact .inr ⟨c', hlen ▸ hc'⟩
  cases hact with
  | cancelTook | stopTook => exact .inr rfl
  | startBegun hstate | stopFast hstate => exact .inl (.inl hstate)
  | setupFailed => exact .inl (.inr ⟨c, hpc ▸ trivial⟩)
  | cancelEnded attempt err =>
      refine .inl ((hfresh _ (endsSince_startCancelling attempt)).elim .inl fun h => .inr ⟨c, ?_⟩)
      rw [hpc]; exact h
  | stopEnded seen =>
      refine .inl ((hfresh _ (endsSince_stopping seen)).elim .inl fun h => .inr ⟨c, ?_⟩)
      rw [hpc]; exact h
  | inserted | signalled | awaited => exact .inl (hkeep id rfl cleared_withHands)
  | stopBegunWaiting hstate hrx | stopBegun hstate hrx =>
      have h : w.shared.beginStop.inner.state = .stopping ∧ w.shared.beginStop.starts = w.shared.starts := by
        unfold Shared.beginStop; split <;> exact ⟨rfl, rfl⟩
      exact .inl (hkeep (by simp [h.1]) (by rw [h.2]) id)
  | finalised attempt addr hstate =>
      refine .inl (hkeep ?_ ?_ id)
      · unfold Shared.notifyStart; split <;> simp
      · unfold Shared.notifyStart; split <;> simp
  | cancelled attempt addr hstate =>
      refine .inl (hkeep ?_ ?_ id)
      · unfold Shared.notifyStart; split <;> exact id
      · unfold Shared.notifyStart; split <;> simp
  | setupDone | setupLost => exact .inl (hkeep id rfl fun h => h.elim)
  | _ => exact .inl (hkeep id rfl id)

theorem Swept.step {N : Str → Prop} {w w' : World} {l : Label} (h : Swept N w) (hsound : Sound w)
    (hfresh : EndsFresh w l) (hup : UpsertsWhileRunning N w l) (hstep : step w l = some w') : Swept N w' := by
  rcases step_cases hstep with ⟨c, choice, s', pc', hl, hact, rfl⟩ | ⟨t, rfl, ht, rfl⟩
  · intro hclear n t hn hN
    rcases clear_act rfl hact (hfresh.of_call hl) hclear with hclear | hempty
    · rcases (act_handStep hact).services hn with hn | hspawned
      · exact h hclear n t hn hN
      · exact hsound.not_clear_of_spawned hup hl hspawned hN hclear
    · simp [hempty] at hn
  · exact h

end NeemataProxy
