import NeemataProxy.Proxy.Lemmas.Lifecycle

/-!
# The channels of start attempts

A channel is answered at most once, and is closed when its sender is dropped; what a call that waits for it gets then no longer
changes.
-/

namespace NeemataProxy

open Lib Options

/-- Nothing fails in `build_start_resources`. -/
def SetupEnv.Works (env : SetupEnv) (tls : Option ListenerTlsOptionsParsed) : Prop :=
  env.bind.isOk = true ∧ env.localAddr.isOk = true ∧ env.setNonblocking.isOk = true ∧
    (tls.isSome = true → env.tlsSettings.isOk = true)

instance (env : SetupEnv) (tls : Option ListenerTlsOptionsParsed) : Decidable (env.Works tls) :=
  inferInstanceAs (Decidable (_ ∧ _))

/-- The attempt of a call that is about to answer the start notifier. -/
def Shared.answering (s : Shared) (choice : Choice) : Pc → Option Nat
  | .startSetup attempt _ =>
      match choice.setup with
      | .ok env => if env.Works s.inner.options.tls then none else some attempt
      | .error _ => none
  | .startListen attempt _ hands => if hands = .empty then some attempt else none
  | _ => none

def World.answering (w : World) (l : Label) : Option Nat :=
  l.call.bind fun p => w.shared.answering p.2 (w.calls p.1)

theorem buildStartResources_works {env : SetupEnv} {tls : Option ListenerTlsOptionsParsed} (h : env.Works tls) (listen : Str) :
    ∃ addr, Shared.buildStartResources env listen tls = .ok addr := by
  obtain ⟨bind, localAddr, setNonblocking, tlsSettings⟩ := env
  obtain ⟨hbind, haddr, hnonblocking, htls⟩ := h
  cases bind with
  | error e => cases hbind
  | ok =>
    cases localAddr with
    | error e => cases haddr
    | ok addr =>
      cases setNonblocking with
      | error e => cases hnonblocking
      | ok =>
        cases tls with
        | none => exact ⟨_, rfl⟩
        | some tls =>
          cases tlsSettings with
          | error e => cases htls rfl
          | ok => exact ⟨_, rfl⟩

/-- The channels when the one with this sender has been answered. -/
def answerStart (starts : List StartStatus) (result : Except Str Unit) : Option Nat → List StartStatus
  | some tx => starts.set tx (.ready result)
  | none => starts

/-- What a step does to the channels; `answers` is the attempt whose call answers the notifier. -/
inductive StartsStep (s s' : Shared) : Option Nat → Prop where
  | kept (answers : Option Nat) (hstarts : s'.starts = s.starts)
      (hnotifier : s'.inner.startNotifier = s.inner.startNotifier ∨ s'.inner.startNotifier = none) : StartsStep s s' answers
  | opened (answers : Option Nat) (hstarts : s'.starts = s.starts ++ [.pending])
      (hnotifier : s'.inner.startNotifier = some s.starts.length) : StartsStep s s' answers
  | answered (a : Nat) (result : Except Str Unit) (hstarts : s'.starts = answerStart s.starts result s.inner.startNotifier)
      (hnotifier : s'.inner.startNotifier = none) : StartsStep s s' (some a)

/-- The sender of a channel that is kept has not been used. -/
def Shared.Open (s : Shared) : Prop := ∀ tx, s.inner.startNotifier = some tx → s.starts[tx]? = some .pending

theorem startNotifier_notifyStart (s : Shared) (result : Except Str Unit) :
    (s.notifyStart result).inner.startNotifier = none := by
  unfold Shared.notifyStart
  split
  · rfl
  · assumption

@[simp] theorem state_notifyStart (s : Shared) (result : Except Str Unit) :
    (s.notifyStart result).inner.state = s.inner.state := by
  unfold Shared.notifyStart
  split <;> rfl

@[simp] theorem listenAddress_notifyStart (s : Shared) (result : Except Str Unit) :
    (s.notifyStart result).inner.listenAddress = s.inner.listenAddress := by
  unfold Shared.notifyStart
  split <;> rfl

@[simp] theorem stopNotifier_notifyStart (s : Shared) (result : Except Str Unit) :
    (s.notifyStart result).inner.stopNotifier = s.inner.stopNotifier := by
  unfold Shared.notifyStart
  split <;> rfl

theorem starts_answered (s : Shared) (result : Except Str Unit) :
    (s.notifyStart result).starts = answerStart s.starts result s.inner.startNotifier := by
  unfold Shared.notifyStart
  split
  · rename_i tx htx
    rw [htx]
    rfl
  · rename_i hnone
    rw [hnone]
    rfl

/-! ## The steps of a call -/

theorem advance_of_step {w w' : World} {l : Label} {c : CallId} {choice : Choice} (hl : l.call = some (c, choice))
    (hidle : w.calls c ≠ .idle) (h : step w l = some w') :
    ∃ s' pc', w.shared.advance c choice (w.calls c) = some (s', pc') ∧ w' = ⟨s', Function.update w.calls c pc'⟩ := by
  cases l with
  | begin c' call choice' =>
      obtain ⟨rfl, rfl⟩ := Prod.mk.inj (Option.some.inj hl)
      simp only [step] at h
      cases h
  | advance c' choice' =>
      obtain ⟨rfl, rfl⟩ := Prod.mk.inj (Option.some.inj hl)
      obtain ⟨⟨s', pc'⟩, hr, h⟩ := Option.map_eq_some_iff.mp h
      exact ⟨s', pc', hr, h.symm⟩
  | taskEnds t => cases hl

theorem step_setup {w w' : World} {l : Label} {c : CallId} {choice : Choice} {attempt : Nat}
    {lbTasks : List (Str × LoadBalancer)} (hl : l.call = some (c, choice)) (hpc : w.calls c = .startSetup attempt lbTasks)
    (h : step w l = some w') :
    w' = ⟨(w.shared.setupStart attempt lbTasks choice.setup).1,
      Function.update w.calls c (w.shared.setupStart attempt lbTasks choice.setup).2⟩ := by
  obtain ⟨s', pc', hadvance, rfl⟩ := advance_of_step hl (by rw [hpc]; exact nofun) h
  rw [hpc] at hadvance
  obtain ⟨rfl, rfl⟩ := Prod.mk.inj (Option.some.inj hadvance)
  rfl

theorem startsStep_beginStop (s : Shared) (answers : Option Nat) : StartsStep s s.beginStop answers := by
  unfold Shared.beginStop
  split <;> exact .kept _ rfl (.inl rfl)

theorem startsStep_endStop (s : Shared) (answers : Option Nat) : StartsStep s s.endStop answers := by
  unfold Shared.endStop Shared.notifyStop
  split <;> exact .kept _ rfl (.inr rfl)

theorem startsStep_setup (s : Shared) (choice : Choice) (attempt : Nat) (lbTasks : List (Str × LoadBalancer)) :
    StartsStep s (s.setupStart attempt lbTasks choice.setup).1 (s.answering choice (.startSetup attempt lbTasks)) := by
  unfold Shared.setupStart Shared.answering
  cases choice.setup with
  | error e => exact .kept _ rfl (.inl rfl)
  | ok env =>
      by_cases hworks : env.Works s.inner.options.tls
      · obtain ⟨addr, haddr⟩ := buildStartResources_works hworks s.inner.options.listen
        simp only [haddr]
        exact .kept _ rfl (.inl rfl)
      · simp only [if_neg hworks]
        split
        · exact .answered attempt _ (starts_answered _ _) (startNotifier_notifyStart _ _)
        · exact .kept _ rfl (.inl rfl)

theorem startsStep_act {s s' : Shared} {c : CallId} {choice : Choice} {pc pc' : Pc} (hsetup : pc.inSetup = false)
    (hact : Act s c choice pc s' pc') : StartsStep s s' (s.answering choice pc) := by
  cases hact with
  | refused | startJoined | stopFast | stopJoined | updateCalled | inserted | signalled | awaited | healthSpawned
  | listenerSpawned | cancelTook | cancelEnded | startSettled | startAwaited | stopTook | stopSettled | locked | snapshotFailed
  | snapshotTaken | rebuildFailed | rebuilt | commitFailed | committed | updateSpawned | updateRemoved | updateEnded =>
      exact .kept _ rfl (.inl rfl)
  | setupLost | setupFailed | setupDone => cases hsetup
  | startBegun => exact .opened _ rfl rfl
  | stopBegunWaiting | stopBegun => exact startsStep_beginStop s _
  | finalised attempt addr => exact .answered attempt _ (starts_answered _ _) (startNotifier_notifyStart _ _)
  | cancelled attempt addr => exact .answered attempt _ (starts_answered _ _) (startNotifier_notifyStart _ _)
  | stopEnded => exact startsStep_endStop s _

theorem startsStep_of_step {w w' : World} {l : Label} (h : step w l = some w') :
    StartsStep w.shared w'.shared (w.answering l) := by
  rcases step_cases h with ⟨c, choice, s', pc', hl, hact, hw'⟩ | ⟨t, -, -, rfl⟩
  · simp only [World.answering, hl, Option.bind_some]
    cases hsetup : (w.calls c).inSetup with
    | false =>
        rw [hw']
        exact startsStep_act hsetup hact
    | true =>
        cases hpc : w.calls c with
        | startSetup attempt lbTasks =>
            rw [step_setup hl hpc h]
            exact startsStep_setup w.shared choice attempt lbTasks
        | _ => simp [hpc, Pc.inSetup] at hsetup
  · exact .kept _ rfl (.inl rfl)

/-! ## What waits for a channel -/

section Channel

variable {s s' : Shared} {answers : Option Nat} {a : Nat}

theorem StartsStep.length_le (h : StartsStep s s' answers) : s.starts.length ≤ s'.starts.length := by
  cases h with
  | kept _ hstarts => rw [hstarts]
  | opened _ hstarts => rw [hstarts]; simp
  | answered _ _ hstarts =>
      rw [hstarts]
      cases s.inner.startNotifier <;> simp [answerStart]

theorem StartsStep.isOpen (h : StartsStep s s' answers) (hopen : s.Open) : s'.Open := by
  intro tx htx
  cases h with
  | kept _ hstarts hnotifier =>
      rw [hstarts]
      rcases hnotifier with hnotifier | hnotifier
      · exact hopen tx (hnotifier.symm.trans htx)
      · rw [hnotifier] at htx
        cases htx
  | opened _ hstarts hnotifier =>
      obtain rfl := Option.some.inj (hnotifier.symm.trans htx)
      simp [hstarts]
  | answered _ _ _ hnotifier =>
      rw [hnotifier] at htx
      cases htx

/-- Only the call of an attempt answers its channel. -/
theorem StartsStep.pending (h : StartsStep s s' answers) (hpending : s.starts[a]? = some .pending)
    (hown : ∀ a' ∈ answers, s.inner.startNotifier = none ∨ s.inner.startNotifier = some a') (hother : answers ≠ some a) :
    s'.starts[a]? = some .pending := by
  cases h with
  | kept _ hstarts => rw [hstarts]; exact hpending
  | opened _ hstarts =>
      rw [hstarts, List.getElem?_append_left (List.getElem?_eq_some_iff.mp hpending).1]
      exact hpending
  | answered a' result hstarts =>
      rw [hstarts]
      rcases hown a' rfl with hnotifier | hnotifier
      · rw [hnotifier]
        exact hpending
      · have hne : a' ≠ a := fun heq => hother (congrArg some heq)
        rw [hnotifier]
        exact (List.getElem?_set_ne hne).trans hpending

/-- What a call that waits for the channel gets does not change. -/
theorem StartsStep.wait (h : StartsStep s s' answers) (hopen : s.Open) (hbegun : a < s.starts.length)
    {r : Except JsError Unit} (hwait : s.waitForStartReady a = some r) : s'.waitForStartReady a = some r := by
  unfold Shared.waitForStartReady at hwait ⊢
  cases h with
  | kept _ hstarts hnotifier =>
      rw [hstarts]
      split at hwait
      · exact hwait
      · split at hwait
        · cases hwait
        · rw [if_neg]
          · exact hwait
          · rcases hnotifier with hnotifier | hnotifier <;> simp [*]
  | opened _ hstarts hnotifier =>
      rw [hstarts, List.getElem?_append_left hbegun]
      split at hwait
      · exact hwait
      · split at hwait
        · cases hwait
        · rw [if_neg]
          · exact hwait
          · rw [hnotifier]
            exact fun heq => Nat.ne_of_gt hbegun (Option.some.inj heq)
  | answered _ result hstarts hnotifier =>
      have hne : s.inner.startNotifier ≠ some a := by
        intro heq
        simp [hopen a heq, heq] at hwait
      have hsame : s'.starts[a]? = s.starts[a]? := by
        rw [hstarts]
        cases htx : s.inner.startNotifier with
        | none => rfl
        | some tx => exact List.getElem?_set_ne fun heq => hne (htx.trans (congrArg some heq))
      rw [hsame, hnotifier]
      rw [if_neg hne] at hwait
      exact hwait

end Channel

/-! ## Attempts -/

/-- Every attempt at work has a channel. -/
structure Numbered (w : World) : Prop where
  channels : w.shared.Open
  begun : ∀ c a, (w.calls c).role = .opening a → a < w.shared.starts.length

section Attempts

variable {w w' : World} {l : Label} {c : CallId} {a : Nat}

theorem opening_step (h : step w l = some w') (hrole : (w'.calls c).role = .opening a) :
    (w.calls c).role = .opening a ∨ a = w.shared.starts.length ∧ w'.shared.starts = w.shared.starts ++ [.pending] := by
  rcases step_cases h with ⟨c', choice, s', pc', -, hact, rfl⟩ | ⟨t, -, -, rfl⟩
  · by_cases hc : c = c'
    · subst hc
      simp only [Function.update_self] at hrole
      exact opening_act hact hrole
    · simp only [Function.update_of_ne hc] at hrole
      exact .inl hrole
  · exact .inl hrole

theorem Numbered.step (h : Numbered w) (hstep : step w l = some w') : Numbered w' := by
  have hstarts := startsStep_of_step hstep
  refine ⟨hstarts.isOpen h.channels, fun c a hrole => ?_⟩
  rcases opening_step hstep hrole with hbefore | ⟨rfl, happend⟩
  · exact Nat.lt_of_lt_of_le (h.begun c a hbefore) hstarts.length_le
  · simp [happend]

theorem Numbered.new (parsed : ProxyOptionsParsed) : Numbered (.new parsed) := ⟨nofun, nofun⟩

end Attempts

end NeemataProxy
