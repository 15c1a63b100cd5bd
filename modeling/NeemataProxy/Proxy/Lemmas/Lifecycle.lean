import NeemataProxy.Proxy.Lifecycle

/-!
# The proxy runs through its lifecycle

Every step of the proxy is a step of the abstract lifecycle or leaves it as it is, as long as a call that writes
`Stopped` at its end finds the state `Stopped` or no newer attempt.
-/

namespace NeemataProxy

open Lib

/-- The part that a call plays in the lifecycle at a step. -/
def Pc.role : Pc → Role
  | .startSetup attempt _ | .startRegister attempt _ _ _ | .startListen attempt _ _ => .opening attempt
  | .startCancel attempt | .startCancelling attempt _ => .closing (attempt + 1)
  | .stopWaitStart rx seen => .awaiting rx seen
  | .stopAll seen | .stopping seen _ => .closing seen
  | _ => .bystander

/-- The outcome of an attempt has been sent. -/
def Shared.Settled (s : Shared) (attempt : Nat) : Prop := ∃ result, s.starts[attempt]? = some (.ready result)

def Shared.lifecycle (s : Shared) (roles : CallId → Role) : Lifecycle :=
  ⟨s.inner.state, s.inner.startNotifier, s.starts.length, s.Settled, roles⟩

def World.roles (w : World) : CallId → Role := fun c => (w.calls c).role

def World.lifecycle (w : World) : Lifecycle := w.shared.lifecycle w.roles

/-- The number of attempts that had begun when the call began which is about to write `Stopped` at its end. -/
def Pc.endsSince : Pc → Option Nat
  | .startCancelling attempt hands => if hands = .empty then some (attempt + 1) else none
  | .stopping seen hands => if hands = .empty then some seen else none
  | _ => none

/-- A call that writes `Stopped` at its end finds the state `Stopped`, or no newer attempt has begun. -/
def EndsFresh (w : World) (l : Label) : Prop :=
  ∀ p ∈ l.call, ∀ seen ∈ (w.calls p.1).endsSince,
    w.shared.inner.state = .stopped ∨ seen = w.shared.starts.length

instance (w : World) (l : Label) : Decidable (EndsFresh w l) :=
  inferInstanceAs (Decidable (∀ p ∈ l.call, ∀ seen ∈ (w.calls p.1).endsSince,
    w.shared.inner.state = .stopped ∨ seen = w.shared.starts.length))

def Pc.inSetup : Pc → Bool
  | .startSetup _ _ => true
  | _ => false

/-- The setup task of a start completes, with success or with an error. -/
def SetupCompletes (w : World) (l : Label) : Prop :=
  ∀ p ∈ l.call, (w.calls p.1).inSetup = true → p.2.setup.isOk = true

instance (w : World) (l : Label) : Decidable (SetupCompletes w l) :=
  inferInstanceAs (Decidable (∀ p ∈ l.call, (w.calls p.1).inSetup = true → p.2.setup.isOk = true))

theorem lifecycle_mk_update (w : World) (s : Shared) (c : CallId) (pc : Pc) :
    (⟨s, Function.update w.calls c pc⟩ : World).lifecycle = s.lifecycle (Function.update w.roles c pc.role) := by
  have h : World.roles ⟨s, Function.update w.calls c pc⟩ = Function.update w.roles c pc.role :=
    Function.comp_update Pc.role w.calls c pc
  rw [World.lifecycle, h]

theorem role_withHands (pc : Pc) (hands : Hands) : (pc.withHands hands).role = pc.role := by cases pc <;> rfl

/-- A call comes to work on an attempt only by beginning it. -/
theorem opening_act {s s' : Shared} {c : CallId} {choice : Choice} {pc pc' : Pc} {a : Nat} (hact : Act s c choice pc s' pc')
    (hrole : pc'.role = .opening a) :
    pc.role = .opening a ∨ a = s.starts.length ∧ s'.starts = s.starts ++ [.pending] := by
  cases hact with
  | startBegun =>
      obtain rfl := Role.opening.inj hrole
      exact .inr ⟨rfl, rfl⟩
  | setupDone | healthSpawned | listenerSpawned => exact .inl hrole
  | inserted | signalled | awaited =>
      rw [role_withHands] at hrole
      exact .inl hrole
  | _ => cases hrole

theorem settled_append_pending (s : Shared) (a : Nat) :
    (∃ result, (s.starts ++ [.pending])[a]? = some (.ready result)) ↔ s.Settled a := by
  unfold Shared.Settled
  rw [List.getElem?_append]
  split
  · rfl
  · rename_i hlen
    have hout : s.starts[a]? = none := List.getElem?_eq_none (by omega)
    simp only [hout, reduceCtorEq, exists_false, iff_false, not_exists]
    intro result h
    have := List.mem_of_getElem? h
    simp at this

theorem lifecycle_notifyStart (s : Shared) (result : Except Str Unit) (roles : CallId → Role)
    (hlen : ∀ a, s.inner.startNotifier = some a → a < s.starts.length) :
    (s.notifyStart result).lifecycle roles = (s.lifecycle roles).notify := by
  unfold Shared.notifyStart
  split
  · rename_i tx htx
    have hset : Shared.Settled
        { s with
          inner := { s.inner with startNotifier := none }
          starts := s.starts.set tx (.ready result) } = fun a => s.Settled a ∨ s.inner.startNotifier = some a := by
      funext a
      have := hlen tx htx
      simp only [Shared.Settled, List.getElem?_set, htx, Option.some.injEq, eq_iff_iff]
      by_cases h : tx = a
      · subst h; simp [this]
      · simp [h]
    simp [Shared.lifecycle, Lifecycle.notify, hset]
  · rename_i hnone
    simp [Shared.lifecycle, Lifecycle.notify, hnone]

theorem lifecycle_beginStop (s : Shared) (roles : CallId → Role) :
    s.beginStop.lifecycle roles = (s.lifecycle roles).withState .stopping := by
  unfold Shared.beginStop
  split <;> rfl

theorem lifecycle_endStop (s : Shared) (roles : CallId → Role) :
    s.endStop.lifecycle roles = { (s.lifecycle roles).withState .stopped with notifier := none } := by
  unfold Shared.endStop Shared.notifyStop
  split <;> rfl

theorem settled_or_closed {s : Shared} {rx : Nat} {r : Except JsError Unit} (h : s.waitForStartReady rx = some r) :
    s.Settled rx ∨ s.inner.startNotifier ≠ some rx := by
  unfold Shared.waitForStartReady at h
  split at h
  · exact .inl ⟨_, ‹_›⟩
  · split at h
    · simp at h
    · exact .inr ‹_›

theorem endsSince_startCancelling (attempt : Nat) : (Pc.startCancelling attempt .empty).endsSince = some (attempt + 1) := by
  simp [Pc.endsSince]

theorem endsSince_stopping (seen : Nat) : (Pc.stopping seen .empty).endsSince = some seen := by simp [Pc.endsSince]

/-- A step of a call is a step of the lifecycle, or no step of it at all. -/
theorem lifecycle_act {w : World} {c : CallId} {choice : Choice} {s' : Shared} {pc pc' : Pc} (hpc : w.calls c = pc)
    (hinv : w.lifecycle.Inv) (hact : Act w.shared c choice pc s' pc')
    (hfresh : ∀ seen, pc.endsSince = some seen → w.shared.inner.state = .stopped ∨ seen = w.shared.starts.length) :
    (s'.lifecycle (Function.update w.roles c pc'.role) = w.lifecycle) ∨
      Lifecycle.Step (∃ attempt lbTasks e, pc = .startSetup attempt lbTasks ∧ choice.setup = .error e) w.lifecycle c
        (s'.lifecycle (Function.update w.roles c pc'.role)) := by
  have hrole : w.lifecycle.roles c = pc.role := congrArg Pc.role hpc
  have hlen : ∀ a, w.shared.inner.startNotifier = some a → a < w.shared.starts.length := fun a ha => by
    have := (hinv.notifier (a := a) ha).1
    simp only [World.lifecycle, Shared.lifecycle] at this
    omega
  -- steps that keep the part of their call and what the lifecycle sees of the shared state
  have hstay : s'.lifecycle w.roles = w.lifecycle → pc'.role = pc.role →
      s'.lifecycle (Function.update w.roles c pc'.role) = w.lifecycle := by
    intro hs hr
    rw [hr, show pc.role = w.roles c from (congrArg Pc.role hpc).symm, Function.update_eq_self, hs]
  cases hact with
  | refused | startJoined | stopFast | stopJoined | updateCalled | healthSpawned | listenerSpawned | cancelTook
  | startSettled | stopTook | stopSettled | locked | snapshotFailed | snapshotTaken | rebuildFailed | rebuilt
  | commitFailed | committed | updateSpawned | updateRemoved | updateEnded | setupDone =>
      exact .inl (hstay rfl rfl)
  | inserted | signalled | awaited => exact .inl (hstay rfl (role_withHands _ _))
  | startBegun hstate =>
      have hset : w.shared.beginStart.Settled = w.shared.Settled :=
        funext fun a => propext (settled_append_pending w.shared a)
      refine .inr ?_
      have heq : w.shared.beginStart.lifecycle (Function.update w.roles c (.opening w.shared.starts.length)) =
          w.lifecycle.nextAttempt.setRole c (.opening w.lifecycle.attempts) := by
        simp [World.lifecycle, Shared.lifecycle, Lifecycle.nextAttempt, Lifecycle.setRole, hset]
        simp [Shared.beginStart]
      exact heq ▸ .began hrole hstate
  | stopBegunWaiting hstate hrx =>
      rw [lifecycle_beginStop]
      exact .inr (.stopBegunWaiting hrole hstate hrx)
  | stopBegun hstate hrx =>
      rw [lifecycle_beginStop]
      exact .inr (.stopBegun hrole hstate hrx)
  | setupLost attempt lbTasks err hlost => exact .inr (.lost ⟨attempt, lbTasks, _, rfl, hlost⟩ hrole)
  | setupFailed attempt lbTasks err =>
      rw [Shared.failStart, lifecycle_notifyStart]
      · exact .inr (.failed hrole)
      · exact hlen
  | finalised attempt addr hstate =>
      rw [lifecycle_notifyStart]
      · exact .inr (.finalised hrole hstate)
      · exact hlen
  | cancelled attempt addr hstate =>
      rw [lifecycle_notifyStart _ _ _ hlen]
      exact .inr (.cancelled hrole hstate)
  | cancelEnded attempt err =>
      exact .inr (.ended hrole (hfresh _ (endsSince_startCancelling attempt)) (.inr rfl))
  | startAwaited seen hr => exact .inr (.awaited hrole (settled_or_closed hr))
  | stopEnded seen =>
      rw [lifecycle_endStop]
      exact .inr (.ended hrole (hfresh _ (endsSince_stopping seen)) (.inl rfl))

end NeemataProxy
