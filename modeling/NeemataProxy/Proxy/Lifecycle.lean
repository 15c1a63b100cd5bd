import NeemataProxy.Proxy.Step

/-!
# The lifecycle without its services

The abstract machine keeps the state of the proxy, the start attempts and the part that each call plays for them,
and leaves out services and upstreams. In it a call writes `Stopped` at its end only when the state is `Stopped`
already or no attempt has begun in the meantime.
-/

namespace NeemataProxy

open Lib

/-- The part of a call in the lifecycle: it runs a start attempt that is not settled yet, it waits for one in order
to stop the proxy, or it is going to write `Stopped`, having seen `seen` attempts. -/
inductive Role where
  | bystander
  | opening (attempt : Nat)
  | awaiting (rx seen : Nat)
  | closing (seen : Nat)
  deriving DecidableEq, Repr

structure Lifecycle where
  state : ProxyState
  notifier : Option Nat
  attempts : Nat
  settled : Nat → Prop
  roles : CallId → Role

namespace Lifecycle

def setRole (ℓ : Lifecycle) (c : CallId) (role : Role) : Lifecycle :=
  { ℓ with roles := Function.update ℓ.roles c role }

/-- The outcome of the pending attempt is sent. -/
def notify (ℓ : Lifecycle) : Lifecycle :=
  { ℓ with notifier := none, settled := fun a => ℓ.settled a ∨ ℓ.notifier = some a }

def withState (ℓ : Lifecycle) (state : ProxyState) : Lifecycle := { ℓ with state := state }

/-- A new attempt begins. -/
def nextAttempt (ℓ : Lifecycle) : Lifecycle :=
  { ℓ with state := .starting, notifier := some ℓ.attempts, attempts := ℓ.attempts + 1 }

/-- A step of call `c`; `lossy` allows a setup task not to complete. -/
inductive Step (lossy : Prop) (ℓ : Lifecycle) (c : CallId) : Lifecycle → Prop where
  | began (hrole : ℓ.roles c = .bystander) (hstate : ℓ.state = .stopped) :
      Step lossy ℓ c (ℓ.nextAttempt.setRole c (.opening ℓ.attempts))
  | failed {a : Nat} (hrole : ℓ.roles c = .opening a) : Step lossy ℓ c ((ℓ.withState .stopped).notify.setRole c .bystander)
  | lost {a : Nat} (hlossy : lossy) (hrole : ℓ.roles c = .opening a) : Step lossy ℓ c (ℓ.setRole c .bystander)
  | finalised {a : Nat} (hrole : ℓ.roles c = .opening a) (hstate : ℓ.state = .starting ∨ ℓ.state = .running) :
      Step lossy ℓ c ((ℓ.withState .running).notify.setRole c .bystander)
  | cancelled {a : Nat} (hrole : ℓ.roles c = .opening a) (hstate : ℓ.state = .stopping ∨ ℓ.state = .stopped) :
      Step lossy ℓ c (ℓ.notify.setRole c (.closing (a + 1)))
  | stopBegunWaiting {rx : Nat} (hrole : ℓ.roles c = .bystander) (hstate : ℓ.state = .starting ∨ ℓ.state = .running)
      (hrx : ℓ.notifier = some rx) : Step lossy ℓ c ((ℓ.withState .stopping).setRole c (.awaiting rx ℓ.attempts))
  | stopBegun (hrole : ℓ.roles c = .bystander) (hstate : ℓ.state = .starting ∨ ℓ.state = .running)
      (hrx : ℓ.notifier = none) : Step lossy ℓ c ((ℓ.withState .stopping).setRole c (.closing ℓ.attempts))
  | awaited {rx seen : Nat} (hrole : ℓ.roles c = .awaiting rx seen) (hrx : ℓ.settled rx ∨ ℓ.notifier ≠ some rx) :
      Step lossy ℓ c (ℓ.setRole c (.closing seen))
  | ended {seen : Nat} {notifier : Option Nat} (hrole : ℓ.roles c = .closing seen)
      (hfresh : ℓ.state = .stopped ∨ seen = ℓ.attempts) (hnotifier : notifier = none ∨ notifier = ℓ.notifier) :
      Step lossy ℓ c ({ ℓ.withState .stopped with notifier := notifier }.setRole c .bystander)

/-! ## Invariants -/

/-- An attempt that is not settled is the newest one, and no other call has ended the state it began. -/
structure Inv (ℓ : Lifecycle) : Prop where
  opening : ∀ {c a}, ℓ.roles c = .opening a →
    a + 1 = ℓ.attempts ∧ ℓ.notifier = some a ∧ (ℓ.state = .starting ∨ ℓ.state = .stopping)
  unique : ∀ {c c' a a'}, ℓ.roles c = .opening a → ℓ.roles c' = .opening a' → c = c'
  notifier : ∀ {a}, ℓ.notifier = some a → a + 1 = ℓ.attempts ∧ ¬ ℓ.settled a
  settled : ∀ {a}, ℓ.settled a → a < ℓ.attempts
  awaiting : ∀ {c rx seen}, ℓ.roles c = .awaiting rx seen → rx + 1 = seen ∧ seen ≤ ℓ.attempts
  closing : ∀ {c seen}, ℓ.roles c = .closing seen → seen ≤ ℓ.attempts
  awaitingNewest : ∀ {c rx}, ℓ.roles c = .awaiting rx ℓ.attempts → ℓ.state = .stopping ∨ ℓ.state = .stopped
  closingNewest : ∀ {c}, ℓ.roles c = .closing ℓ.attempts → ℓ.state = .stopping ∨ ℓ.state = .stopped
  closed : ∀ {c}, ℓ.roles c = .closing ℓ.attempts → ∀ c' a, ℓ.roles c' ≠ .opening a

/-- A state between `Stopped` and `Running` has a call that will leave it. -/
structure Live (ℓ : Lifecycle) : Prop where
  starting : ℓ.state = .starting → ∃ c a, ℓ.roles c = .opening a
  stopping : ℓ.state = .stopping → ∃ c, ℓ.roles c = .closing ℓ.attempts ∨ ∃ rx, ℓ.roles c = .awaiting rx ℓ.attempts

section Fields

variable (ℓ : Lifecycle) (c c' : CallId) (role : Role) (state : ProxyState)

theorem roles_setRole : (ℓ.setRole c role).roles c' = if c' = c then role else ℓ.roles c' := by
  simp [setRole, Function.update_apply]

@[simp] theorem state_setRole : (ℓ.setRole c role).state = ℓ.state := rfl
@[simp] theorem notifier_setRole : (ℓ.setRole c role).notifier = ℓ.notifier := rfl
@[simp] theorem attempts_setRole : (ℓ.setRole c role).attempts = ℓ.attempts := rfl
@[simp] theorem settled_setRole : (ℓ.setRole c role).settled = ℓ.settled := rfl

@[simp] theorem state_notify : ℓ.notify.state = ℓ.state := rfl
@[simp] theorem notifier_notify : ℓ.notify.notifier = none := rfl
@[simp] theorem attempts_notify : ℓ.notify.attempts = ℓ.attempts := rfl
@[simp] theorem settled_notify (a : Nat) : ℓ.notify.settled a = (ℓ.settled a ∨ ℓ.notifier = some a) := rfl
@[simp] theorem roles_notify : ℓ.notify.roles = ℓ.roles := rfl

@[simp] theorem state_withState : (ℓ.withState state).state = state := rfl
@[simp] theorem notifier_withState : (ℓ.withState state).notifier = ℓ.notifier := rfl
@[simp] theorem attempts_withState : (ℓ.withState state).attempts = ℓ.attempts := rfl
@[simp] theorem settled_withState : (ℓ.withState state).settled = ℓ.settled := rfl
@[simp] theorem roles_withState : (ℓ.withState state).roles = ℓ.roles := rfl

@[simp] theorem state_nextAttempt : ℓ.nextAttempt.state = .starting := rfl
@[simp] theorem notifier_nextAttempt : ℓ.nextAttempt.notifier = some ℓ.attempts := rfl
@[simp] theorem attempts_nextAttempt : ℓ.nextAttempt.attempts = ℓ.attempts + 1 := rfl
@[simp] theorem settled_nextAttempt : ℓ.nextAttempt.settled = ℓ.settled := rfl
@[simp] theorem roles_nextAttempt : ℓ.nextAttempt.roles = ℓ.roles := rfl

end Fields

variable {ℓ ℓ' : Lifecycle} {c : CallId} {lossy : Prop}

theorem Inv.notOpening_of_stopped (h : ℓ.Inv) (hstate : ℓ.state = .stopped) (c : CallId) (a : Nat) :
    ℓ.roles c ≠ .opening a := by
  intro hrole
  have := (h.opening hrole).2.2
  simp [hstate] at this

/-- When the pending attempt is settled by the call that runs it, no attempt is left unsettled. -/
theorem Inv.notOpening_other (h : ℓ.Inv) {a : Nat} (hrole : ℓ.roles c = .opening a) (c' : CallId) (hc : c' ≠ c)
    (a' : Nat) : ℓ.roles c' ≠ .opening a' := fun hrole' => hc (h.unique hrole' hrole)

theorem Inv.step (h : ℓ.Inv) (hstep : Step lossy ℓ c ℓ') : ℓ'.Inv := by
  obtain ⟨hopen, huniq, hnot, hset, hawait, hclose, hawaitN, hcloseN, hclosed⟩ := id h
  cases hstep with
  | began hrole hstate =>
      have hno := h.notOpening_of_stopped hstate
      constructor <;> simp [roles_setRole] <;> grind
  | failed hrole =>
      have hno := h.notOpening_other hrole
      constructor <;> simp [roles_setRole] <;> grind
  | lost hlossy hrole =>
      constructor <;> simp [roles_setRole] <;> grind
  | finalised hrole hstate =>
      have hno := h.notOpening_other hrole
      constructor <;> simp [roles_setRole] <;> grind
  | cancelled hrole hstate =>
      have hno := h.notOpening_other hrole
      constructor <;> simp [roles_setRole] <;> grind
  | stopBegunWaiting hrole hstate hrx =>
      constructor <;> simp [roles_setRole] <;> grind
  | stopBegun hrole hstate hrx =>
      constructor <;> simp [roles_setRole] <;> grind
  | awaited hrole hrx =>
      constructor <;> simp [roles_setRole] <;> grind
  | ended hrole hfresh hnotifier =>
      have hno : ∀ c' a, ℓ.roles c' ≠ .opening a := by
        rcases hfresh with hstate | rfl
        · exact h.notOpening_of_stopped hstate
        · exact hclosed hrole
      constructor <;> simp [roles_setRole] <;> grind

/-- Unless a setup task is lost, a call that leaves the states between `Stopped` and `Running` settles them. -/
theorem Live.step (h : ℓ.Inv) (hlive : ℓ.Live) (hstep : Step False ℓ c ℓ') : ℓ'.Live := by
  obtain ⟨hstart, hstop⟩ := hlive
  have hopen := fun {c a} => h.opening (c := c) (a := a)
  cases hstep with
  | began hrole hstate =>
      refine ⟨fun _ => ⟨c, ℓ.attempts, by simp [roles_setRole]⟩, fun hs => by simp at hs⟩
  | failed hrole => exact ⟨fun hs => by simp at hs, fun hs => by simp at hs⟩
  | lost hlossy hrole => exact hlossy.elim
  | finalised hrole hstate => exact ⟨fun hs => by simp at hs, fun hs => by simp at hs⟩
  | cancelled hrole hstate =>
      refine ⟨fun hs => by simp [show ℓ.state = .starting from hs] at hstate, fun _ => ⟨c, .inl ?_⟩⟩
      simp [roles_setRole, (hopen hrole).1]
  | stopBegunWaiting hrole hstate hrx =>
      exact ⟨fun hs => by simp at hs, fun _ => ⟨c, .inr ⟨_, by simp [roles_setRole]; rfl⟩⟩⟩
  | stopBegun hrole hstate hrx =>
      exact ⟨fun hs => by simp at hs, fun _ => ⟨c, .inl (by simp [roles_setRole])⟩⟩
  | awaited hrole hrx =>
      constructor <;> simp [roles_setRole] <;> grind
  | ended hrole hfresh hnotifier => exact ⟨fun hs => by simp [setRole] at hs, fun hs => by simp [setRole] at hs⟩

end Lifecycle

end NeemataProxy
