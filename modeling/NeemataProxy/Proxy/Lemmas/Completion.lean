import NeemataProxy.Proxy.Lemmas.Waiting

/-!
# Calls that can complete

A call completes when, whatever happens, the calls that have begun can take it to its end; only tasks that were told to shut
down have to end for that.
-/

namespace NeemataProxy

open Lib

/-- No new call begins. -/
def Continues (_ : World) : Label → Prop
  | .begin _ _ _ => False
  | .advance _ _ | .taskEnds _ => True

/-- Only call `c` takes steps, and tasks end. -/
def Own (c : CallId) (_ : World) : Label → Prop
  | .begin _ _ _ => False
  | .advance c' _ => c' = c
  | .taskEnds _ => True

/-- The calls that have begun can take call `c` to its end. -/
def World.CanComplete (w : World) (c : CallId) : Prop :=
  ∃ w' r, Reach Steps Continues w w' ∧ w'.calls c = .done r

/-- Whatever happens, call `c` can complete. -/
def World.Completes (w : World) (c : CallId) : Prop := ∀ w', Reach Steps Free w w' → w'.CanComplete c

variable {w w' : World} {l : Label} {c c' : CallId} {choice : Choice} {s s' : Shared} {pc pc' : Pc}

theorem Own.continues (h : Own c w l) : Continues w l := by
  cases l with
  | begin c' call choice => exact h
  | advance c' choice => trivial
  | taskEnds t => trivial

theorem Own.others (hrun : Reach Steps (Own c) w w') (hc : c' ≠ c) : w'.calls c' = w.calls c' := by
  induction hrun with
  | refl => rfl
  | @tail w₁ w₂ l _ hown hstep ih =>
      refine (calls_step hstep fun p hp heq => ?_).trans ih
      cases l with
      | begin c₁ call choice => exact hown
      | advance c₁ choice =>
          obtain rfl := Option.some.inj hp
          exact hc (heq.symm.trans hown)
      | taskEnds t => cases hp

theorem own_step (h : w.shared.advance c sampleChoice (w.calls c) = some (s', pc')) :
    ∃ w', Reach Steps (Own c) w w' ∧ w'.calls c = pc' ∧ w'.shared = s' := exists_advance rfl h

/-- A call that has told a task to shut down holds it. -/
structure Handled (w : World) : Prop where
  owned : Owned w.shared.server w.hands
  sent : ∀ c, (w.calls c).hands.sent = true → (w.calls c).hands.held ≠ []

theorem HandStep.sent {s s' : Server} {hs hs' : Hands} (hstep : HandStep s hs s' hs') (h : hs.sent = true → hs.held ≠ [])
    (hsent : hs'.sent = true) : hs'.held ≠ [] := by
  cases hstep with
  | stay => exact h hsent
  | signalled t rest => exact List.cons_ne_nil _ _
  | spawned | inserted | awaited | removed | took => cases hsent

theorem Handled.new (parsed : Options.ProxyOptionsParsed) : Handled (.new parsed) :=
  ⟨(Sound.new parsed).owned, nofun⟩

theorem Handled.step (h : Handled w) (hstep : step w l = some w') : Handled w' := by
  rcases step_cases hstep with ⟨c, choice, s', pc', -, hact, rfl⟩ | ⟨t, -, ht, rfl⟩
  · refine ⟨?_, forall_update (P := fun pc => pc.hands.sent = true → pc.hands.held ≠ []) ?_ fun c' _ => h.sent c'⟩
    · rw [hands_mk_update]
      exact h.owned.step (act_handStep hact)
    · exact (act_handStep hact).sent (h.sent c)
  · exact ⟨h.owned.ends ht, h.sent⟩

theorem Handled.reach {allow : World → Label → Prop} (h : Handled w) (hrun : Reach Steps allow w w') : Handled w' :=
  hrun.invariant h fun _ _ _ h _ hstep => h.step hstep

/-! ## The hands of a call -/

theorem move_hands {hands : Hands} {server : Server} (hne : (w.calls c).hands ≠ .empty)
    (hstep : (w.calls c).hands.step w.shared.server = some (server, hands)) :
    ∃ w', Reach Steps (Own c) w w' ∧ w'.calls c = (w.calls c).withHands hands := by
  have hadvance : w.shared.advance c sampleChoice (w.calls c) =
      some (w.shared.onServer server, (w.calls c).withHands hands) := by
    simp [Shared.advance, hne, hstep]
  obtain ⟨w', hrun, hcalls, -⟩ := own_step hadvance
  exact ⟨w', hrun, hcalls⟩

theorem withHands_withHands (pc : Pc) (hands hands' : Hands) : (pc.withHands hands).withHands hands' = pc.withHands hands' := by
  cases pc <;> rfl

theorem withHands_hands (pc : Pc) : pc.withHands pc.hands = pc := by cases pc <;> rfl

theorem await_terminated {h : ServiceHandle} {rest : List ServiceHandle} (hhands : (w.calls c).hands = ⟨none, h :: rest, true⟩)
    (hstatus : w.shared.server.statusOf h = some .terminated) :
    ∃ w', Reach Steps (Own c) w w' ∧ w'.calls c = (w.calls c).withHands (.displaced rest) := by
  have hne : (w.calls c).hands ≠ .empty := by
    rw [hhands]
    exact nofun
  have hhand : (w.calls c).hands.step w.shared.server = some (w.shared.server, .displaced rest) := by
    rw [hhands]
    simp [Hands.step, hstatus]
  exact move_hands hne hhand

/-- A task that was told to shut down ends, and then the call goes on. -/
theorem await_sent (hhandled : Handled w) {h : ServiceHandle} {rest : List ServiceHandle}
    (hhands : (w.calls c).hands = ⟨none, h :: rest, true⟩) :
    ∃ w', Reach Steps (Own c) w w' ∧ w'.calls c = (w.calls c).withHands (.displaced rest) := by
  have hmem : h ∈ (w.hands c).handles := by
    rw [World.hands, hhands]
    exact List.mem_cons_self
  cases hstatus : w.shared.server.statusOf h with
  | none => exact absurd hstatus (hhandled.owned.inHands hmem).1
  | some status =>
      cases status with
      | running =>
          have hordered : (w.calls c).hands.Ordered w.shared.server := hhandled.owned.ordered c
          rw [hhands] at hordered
          exact absurd hstatus (hordered.told rfl rfl)
      | signalled =>
          let w₁ : World := { w with shared := w.shared.onServer (w.shared.server.setStatus h .terminated) }
          have hstep : Steps w (.taskEnds h) w₁ := by simp [Steps, step, hstatus, w₁]
          have hended : w₁.shared.server.statusOf h = some .terminated := by simp [w₁, Shared.onServer, hstatus]
          obtain ⟨w', hrun, hcalls⟩ := await_terminated (w := w₁) hhands hended
          exact ⟨w', (Reach.tail .refl trivial hstep).trans hrun, hcalls⟩
      | terminated => exact await_terminated hhands hstatus

theorem await_head (hhandled : Handled w) {h : ServiceHandle} {rest : List ServiceHandle} {sent : Bool}
    (hhands : (w.calls c).hands = ⟨none, h :: rest, sent⟩) :
    ∃ w', Reach Steps (Own c) w w' ∧ w'.calls c = (w.calls c).withHands (.displaced rest) := by
  cases sent with
  | true => exact await_sent hhandled hhands
  | false =>
      have hne : (w.calls c).hands ≠ .empty := by
        rw [hhands]
        exact nofun
      have hhand : (w.calls c).hands.step w.shared.server = some (w.shared.server.signal h, ⟨none, h :: rest, true⟩) := by
        rw [hhands]
        rfl
      obtain ⟨w₁, hrun₁, hcalls₁⟩ := move_hands hne hhand
      obtain ⟨w₂, hrun₂, hcalls₂⟩ := await_sent (hhandled.reach hrun₁) (by rw [hcalls₁, hands_withHands hne])
      exact ⟨w₂, hrun₁.trans hrun₂, by rw [hcalls₂, hcalls₁, withHands_withHands]⟩

theorem empty_held {held : List ServiceHandle} {sent : Bool} (hhandled : Handled w)
    (hhands : (w.calls c).hands = ⟨none, held, sent⟩) :
    ∃ w', Reach Steps (Own c) w w' ∧ w'.calls c = (w.calls c).withHands .empty := by
  induction held generalizing w sent with
  | nil =>
      have hsent := hhandled.sent c
      rw [hhands] at hsent
      obtain rfl : sent = false := by simpa using hsent
      have hempty : (w.calls c).hands = .empty := hhands
      exact ⟨w, .refl, by rw [← hempty, withHands_hands]⟩
  | cons h rest ih =>
      have hne : (w.calls c).hands ≠ .empty := by
        rw [hhands]
        exact nofun
      obtain ⟨w₁, hrun₁, hcalls₁⟩ := await_head hhandled hhands
      obtain ⟨w₂, hrun₂, hcalls₂⟩ := ih (hhandled.reach hrun₁) (by rw [hcalls₁, hands_withHands hne]; rfl)
      exact ⟨w₂, hrun₁.trans hrun₂, by rw [hcalls₂, hcalls₁, withHands_withHands]⟩

/-- A call can register what it has spawned and shut down what it holds. -/
theorem empty_hands (hhandled : Handled w) (c : CallId) :
    ∃ w', Reach Steps (Own c) w w' ∧ w'.calls c = (w.calls c).withHands .empty := by
  cases hhands : (w.calls c).hands with
  | mk spawned held sent =>
      cases spawned with
      | none => exact empty_held hhandled hhands
      | some p =>
          have hne : (w.calls c).hands ≠ .empty := by
            rw [hhands]
            exact nofun
          have hhand : (w.calls c).hands.step w.shared.server =
              some (w.shared.server.insert p.1 p.2, .displaced (w.shared.server.services.get p.1).toList) := by
            rw [hhands]
            rfl
          obtain ⟨w₁, hrun₁, hcalls₁⟩ := move_hands hne hhand
          obtain ⟨w₂, hrun₂, hcalls₂⟩ := empty_held (hhandled.reach hrun₁) (by rw [hcalls₁, hands_withHands hne]; rfl)
          exact ⟨w₂, hrun₁.trans hrun₂, by rw [hcalls₂, hcalls₁, withHands_withHands]⟩

/-! ## Stops in flight -/

/-- A stop in flight that does not wait for a start any more. -/
def Shared.Freed (s : Shared) (pc : Pc) : Prop := pc.stops = true ∧ ∀ rx, pc.awaits = some rx → s.waitForStartReady rx ≠ none

theorem stopping_ends {seen : Nat} {hands : Hands} (hhandled : Handled w) (hpc : w.calls c = .stopping seen hands) :
    ∃ w', Reach Steps (Own c) w w' ∧ w'.calls c = .done (.ok ()) ∧ w'.shared.inner.stopNotifier = none := by
  obtain ⟨w₁, hrun₁, hcalls₁⟩ := empty_hands hhandled c
  rw [hpc] at hcalls₁
  have hadvance : w₁.shared.advance c sampleChoice (w₁.calls c) = some (w₁.shared.endStop, .done (.ok ())) := by
    rw [hcalls₁]
    rfl
  obtain ⟨w₂, hrun₂, hdone, hshared⟩ := own_step hadvance
  exact ⟨w₂, hrun₁.trans hrun₂, hdone, by rw [hshared, stopNotifier_endStop]⟩

theorem stopAll_ends {seen : Nat} (hhandled : Handled w) (hpc : w.calls c = .stopAll seen) :
    ∃ w', Reach Steps (Own c) w w' ∧ w'.calls c = .done (.ok ()) ∧ w'.shared.inner.stopNotifier = none := by
  let r := w.shared.takeServices sampleChoice.serviceOrder
  have hadvance : w.shared.advance c sampleChoice (w.calls c) = some (r.1, .stopping seen r.2) := by
    rw [hpc]
    rfl
  obtain ⟨w₁, hrun₁, hcalls₁, -⟩ := own_step hadvance
  obtain ⟨w₂, hrun₂, hends⟩ := stopping_ends (hhandled.reach hrun₁) hcalls₁
  exact ⟨w₂, hrun₁.trans hrun₂, hends⟩

theorem Shared.Freed.ends (h : w.shared.Freed (w.calls c)) (hhandled : Handled w) :
    ∃ w', Reach Steps (Own c) w w' ∧ w'.calls c = .done (.ok ()) ∧ w'.shared.inner.stopNotifier = none := by
  cases hpc : w.calls c with
  | stopWaitStart rx seen =>
      obtain ⟨r, hr⟩ := Option.ne_none_iff_exists'.mp (h.2 rx (by rw [hpc]; rfl))
      have hadvance : w.shared.advance c sampleChoice (w.calls c) = some (w.shared, .stopAll seen) := by
        simp [Shared.advance, Shared.proceed, hpc, Pc.hands, hr]
      obtain ⟨w₁, hrun₁, hcalls₁, -⟩ := own_step hadvance
      obtain ⟨w₂, hrun₂, hends⟩ := stopAll_ends (hhandled.reach hrun₁) hcalls₁
      exact ⟨w₂, hrun₁.trans hrun₂, hends⟩
  | stopAll seen => exact stopAll_ends hhandled hpc
  | stopping seen hands => exact stopping_ends hhandled hpc
  | _ =>
      have hstops := h.1
      rw [hpc] at hstops
      cases hstops

theorem Shared.Freed.withHands (h : s.Freed pc) (hands : Hands) : s.Freed (pc.withHands hands) := by
  refine ⟨(stops_withHands pc hands).trans h.1, fun rx hrx => h.2 rx ?_⟩
  rw [← hrx, awaits_withHands]

/-- A stop in flight stays free, or ends and answers those that wait for it. -/
theorem Shared.Freed.act (h : s.Freed pc) (hact : Act s c choice pc s' pc') :
    (∃ hands, pc' = pc.withHands hands) ∨ s'.Freed pc' ∨ (∃ r, pc' = .done r) ∧ s'.inner.stopNotifier = none := by
  have hstops := h.1
  cases hact with
  | inserted | signalled | awaited => exact .inl ⟨_, rfl⟩
  | startAwaited seen hr => exact .inr (.inl ⟨rfl, nofun⟩)
  | stopTook seen => exact .inr (.inl ⟨rfl, nofun⟩)
  | stopEnded seen => exact .inr (.inr ⟨⟨_, rfl⟩, stopNotifier_endStop s⟩)
  | _ => cases hstops

/-- The call that takes the step is `c`, or `c` stays where it is. -/
theorem own_or_kept (hstep : step w l = some w') (c : CallId) :
    w'.calls c = w.calls c ∨ ∃ choice, Act w.shared c choice (w.calls c) w'.shared (w'.calls c) := by
  rcases step_cases hstep with ⟨c', choice, s', pc', -, hact, rfl⟩ | ⟨t, -, -, rfl⟩
  · by_cases hc : c = c'
    · subst hc
      exact .inr ⟨choice, by simpa using hact⟩
    · exact .inl (Function.update_of_ne hc ..)
  · exact .inl rfl

theorem Shared.Freed.step (h : w.shared.Freed (w.calls c)) (hwaiting : Waiting w) (hnumbered : Numbered w)
    (hstep : step w l = some w') :
    w'.shared.Freed (w'.calls c) ∨ (∃ r, w'.calls c = .done r) ∧ w'.shared.inner.stopNotifier = none := by
  have hkept : w'.shared.Freed (w.calls c) := by
    refine ⟨h.1, fun rx hrx => ?_⟩
    obtain ⟨r, hr⟩ := Option.ne_none_iff_exists'.mp (h.2 rx hrx)
    have hr' := (startsStep_of_step hstep).wait hnumbered.channels (hwaiting.starts c rx hrx) hr
    exact Option.ne_none_iff_exists'.mpr ⟨r, hr'⟩
  rcases own_or_kept hstep c with hcalls | ⟨choice, hact⟩
  · rw [hcalls]
    exact .inl hkept
  · rcases h.act hact with ⟨hands, hcalls⟩ | hended
    · rw [hcalls]
      exact .inl (hkept.withHands hands)
    · exact hended

/-! ## Calls that wait -/

/-- Call `c` has ended, or will with the calls that have begun. -/
inductive World.Ending (w : World) (c : CallId) : Prop where
  | done (r : Except JsError Unit) (hpc : w.calls c = .done r)
  | start {rx : Nat} (hpc : w.calls c = .startWait rx) (hready : w.shared.waitForStartReady rx ≠ none)
  | stop (hfreed : w.shared.Freed (w.calls c))
  | joined {rx seen : Nat} (hpc : w.calls c = .stopWait rx seen)
      (hready : w.shared.waitForStopReady rx ≠ none ∨ ∃ c', w.shared.Freed (w.calls c'))

theorem waitForStopReady_of_none (h : s.inner.stopNotifier = none) (rx : Nat) : s.waitForStopReady rx ≠ none := by
  unfold Shared.waitForStopReady
  rw [h]
  split <;> exact nofun

theorem StopsStep.wait {stops stops' : Bool} (h : StopsStep s s' stops stops') {rx : Nat} (hlt : rx < s.stops.length)
    (hready : s.waitForStopReady rx ≠ none) : s'.waitForStopReady rx ≠ none := by
  cases h with
  | kept hstops hnotifier =>
      unfold Shared.waitForStopReady at hready ⊢
      rw [hstops, hnotifier]
      exact hready
  | opened hstops hnotifier =>
      have hne : s'.inner.stopNotifier ≠ some rx := by
        rw [hnotifier]
        exact fun heq => Nat.ne_of_gt hlt (Option.some.inj heq)
      unfold Shared.waitForStopReady
      rw [if_neg hne]
      split <;> exact nofun
  | answered _ hnotifier => exact waitForStopReady_of_none hnotifier rx

theorem stopsStep_of_step (hstep : step w l = some w') : ∃ stops stops', StopsStep w.shared w'.shared stops stops' := by
  rcases step_cases hstep with ⟨c, choice, s', pc', -, hact, rfl⟩ | ⟨t, -, -, rfl⟩
  · exact ⟨_, _, stopsStep_act hact⟩
  · exact ⟨true, true, .kept rfl rfl id⟩

/-- A call that has ended, or waits for one channel and ends then. -/
def Pc.last : Pc → Bool
  | .startWait _ | .stopWait _ _ | .done _ => true
  | _ => false

theorem last_act (hact : Act s c choice pc s' pc') (hlast : pc.last = true) : pc' = pc ∨ ∃ r, pc' = .done r := by
  have hhands : ∀ hands, pc.withHands hands = pc := fun hands => by
    cases pc with
    | startWait | stopWait | done => rfl
    | _ => cases hlast
  cases hact with
  | inserted | signalled | awaited => exact .inl (hhands _)
  | startSettled | stopSettled => exact .inr ⟨_, rfl⟩
  | _ => cases hlast

theorem last_step (hstep : step w l = some w') (hlast : (w.calls c).last = true) :
    w'.calls c = w.calls c ∨ ∃ r, w'.calls c = .done r := by
  rcases own_or_kept hstep c with hcalls | ⟨choice, hact⟩
  · exact .inl hcalls
  · exact last_act hact hlast

theorem World.Ending.step (h : w.Ending c) (hwaiting : Waiting w) (hnumbered : Numbered w) (hstep : step w l = some w') :
    w'.Ending c := by
  cases h with
  | done r hpc =>
      rcases last_step (c := c) hstep (by rw [hpc]; rfl) with hcalls | ⟨r', hdone⟩
      · exact .done r (hcalls.trans hpc)
      · exact .done r' hdone
  | @start rx hpc hready =>
      rcases last_step (c := c) hstep (by rw [hpc]; rfl) with hcalls | ⟨r, hdone⟩
      · obtain ⟨r, hr⟩ := Option.ne_none_iff_exists'.mp hready
        have hr' := (startsStep_of_step hstep).wait hnumbered.channels (hwaiting.starts c rx (by rw [hpc]; rfl)) hr
        exact .start (hcalls.trans hpc) (Option.ne_none_iff_exists'.mpr ⟨r, hr'⟩)
      · exact .done r hdone
  | stop hfreed =>
      rcases hfreed.step hwaiting hnumbered hstep with hfreed | ⟨⟨r, hdone⟩, -⟩
      · exact .stop hfreed
      · exact .done r hdone
  | @joined rx seen hpc hready =>
      rcases last_step (c := c) hstep (by rw [hpc]; rfl) with hcalls | ⟨r, hdone⟩
      · refine .joined (hcalls.trans hpc) ?_
        rcases hready with hready | ⟨c', hfreed⟩
        · obtain ⟨stops, stops', hstops⟩ := stopsStep_of_step hstep
          exact .inl (hstops.wait (hwaiting.stops c rx seen hpc) hready)
        · rcases hfreed.step hwaiting hnumbered hstep with hfreed | ⟨-, hnone⟩
          · exact .inr ⟨c', hfreed⟩
          · exact .inl (waitForStopReady_of_none hnone rx)
      · exact .done r hdone

theorem canComplete_of_advance {r : Except JsError Unit}
    (h : w.shared.advance c sampleChoice (w.calls c) = some (s', .done r)) : w.CanComplete c := by
  obtain ⟨w', hrun, hdone, -⟩ := own_step h
  exact ⟨w', r, hrun.mono fun _ _ => Own.continues, hdone⟩

theorem stopWait_completes {rx seen : Nat} (hpc : w.calls c = .stopWait rx seen) (hready : w.shared.waitForStopReady rx ≠ none) :
    w.CanComplete c := by
  obtain ⟨r, hr⟩ := Option.ne_none_iff_exists'.mp hready
  have hadvance : w.shared.advance c sampleChoice (w.calls c) = some (w.shared, .done r) := by
    simp [Shared.advance, Shared.proceed, hpc, Pc.hands, hr]
  exact canComplete_of_advance hadvance

/-- The calls that have begun take an ending call to its end. -/
theorem canComplete_of_ending (h : w.Ending c) (hhandled : Handled w) : w.CanComplete c := by
  cases h with
  | done r hpc => exact ⟨w, r, .refl, hpc⟩
  | @start rx hpc hready =>
      obtain ⟨r, hr⟩ := Option.ne_none_iff_exists'.mp hready
      have hadvance : w.shared.advance c sampleChoice (w.calls c) = some (w.shared, .done r) := by
        simp [Shared.advance, Shared.proceed, hpc, Pc.hands, hr]
      exact canComplete_of_advance hadvance
  | stop hfreed =>
      obtain ⟨w', hrun, hdone, -⟩ := hfreed.ends hhandled
      exact ⟨w', _, hrun.mono fun _ _ => Own.continues, hdone⟩
  | @joined rx seen hpc hready =>
      rcases hready with hready | ⟨c', hfreed⟩
      · exact stopWait_completes hpc hready
      · -- the other stop ends first and answers this one
        have hne : c ≠ c' := by
          rintro rfl
          have hstops := hfreed.1
          rw [hpc] at hstops
          cases hstops
        obtain ⟨w₁, hrun₁, -, hnone⟩ := hfreed.ends hhandled
        have hpc₁ : w₁.calls c = .stopWait rx seen := (Own.others hrun₁ hne).trans hpc
        obtain ⟨w₂, r, hrun₂, hdone⟩ := stopWait_completes hpc₁ (waitForStopReady_of_none hnone rx)
        exact ⟨w₂, r, (hrun₁.mono fun _ _ => Own.continues).trans hrun₂, hdone⟩

/-- The invariants of all runs that matter to calls that wait. -/
structure Waited (w : World) : Prop where
  numbered : Numbered w
  waiting : Waiting w
  handled : Handled w

theorem Waited.new (parsed : Options.ProxyOptionsParsed) : Waited (.new parsed) := ⟨.new parsed, .new parsed, .new parsed⟩

theorem Waited.reach {allow : World → Label → Prop} (h : Waited w) (hrun : Reach Steps allow w w') : Waited w' :=
  hrun.invariant h fun _ _ _ h _ hstep =>
    ⟨h.numbered.step hstep, h.waiting.step h.numbered hstep, h.handled.step hstep⟩

theorem completes_of_ending (hwaited : Waited w) (h : w.Ending c) : w.Completes c := by
  intro w' hrun
  have hending : Waited w' ∧ w'.Ending c := by
    induction hrun with
    | refl => exact ⟨hwaited, h⟩
    | tail hrun _ hstep ih => exact ⟨hwaited.reach (hrun.tail trivial hstep), ih.2.step ih.1.waiting ih.1.numbered hstep⟩
  exact canComplete_of_ending hending.2 hending.1.handled

end NeemataProxy
