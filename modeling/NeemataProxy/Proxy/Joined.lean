import NeemataProxy.Proxy.Lemmas.Release
import NeemataProxy.Proxy.Lemmas.StartChannel
import NeemataProxy.Proxy.Runs

/-!
# Calls that join a start

The first call of an attempt owns it; a later call that finds the state `Starting` joins it and waits for its channel.
-/

namespace NeemataProxy

open Lib Options

/-- Both resolve, or both reject with the same code. -/
def SameOutcome : Except JsError Unit → Except JsError Unit → Prop
  | .ok _, .ok _ => True
  | .error e, .error e' => e.code = e'.code
  | _, _ => False

theorem SameOutcome.refl (r : Except JsError Unit) : SameOutcome r r := by
  cases r with
  | error e => exact rfl
  | ok => trivial

def Choice.SetupWorks (choice : Choice) (tls : Option ListenerTlsOptionsParsed) : Prop :=
  ∃ env ∈ choice.setup.toOption, env.Works tls

instance (choice : Choice) (tls : Option ListenerTlsOptionsParsed) : Decidable (choice.SetupWorks tls) :=
  inferInstanceAs (Decidable (∃ env ∈ choice.setup.toOption, env.Works tls))

/-- The setup of call `o` succeeds, and a call that answers the start notifier finds that of its own attempt, or none. -/
structure Sharing (o : CallId) (w : World) (l : Label) : Prop where
  own : ∀ a ∈ w.answering l, w.shared.inner.startNotifier = none ∨ w.shared.inner.startNotifier = some a
  works : ∀ p ∈ l.call, p.1 = o → (w.calls o).inSetup = true → p.2.SetupWorks w.shared.inner.options.tls

instance (o : CallId) (w : World) (l : Label) : Decidable (Sharing o w l) :=
  decidable_of_iff ((∀ a ∈ w.answering l, w.shared.inner.startNotifier = none ∨ w.shared.inner.startNotifier = some a) ∧
      ∀ p ∈ l.call, p.1 = o → (w.calls o).inSetup = true → p.2.SetupWorks w.shared.inner.options.tls)
    ⟨fun h => ⟨h.1, h.2⟩, fun h => ⟨h.own, h.works⟩⟩

variable {w w' : World} {l : Label} {o j c : CallId} {a : Nat} {choice : Choice} {s s' : Shared} {pc pc' : Pc}

/-! ## The owner -/

/-- What the owner of attempt `a` has done so far. -/
inductive OwnerPhase (s : Shared) (a : Nat) : Pc → Prop where
  | opening {pc : Pc} (hrole : pc.role = .opening a) (hpending : s.starts[a]? = some .pending) : OwnerPhase s a pc
  | waiting : OwnerPhase s a (.startWait a)
  | cancelled {pc : Pc} {message : Str} (hpc : pc = .startCancel a ∨ ∃ hands, pc = .startCancelling a hands)
      (hwait : s.waitForStartReady a = some (.error (.fromReason message))) : OwnerPhase s a pc
  | ended {r r' : Except JsError Unit} (hwait : s.waitForStartReady a = some r') (hsame : SameOutcome r r') :
      OwnerPhase s a (.done r)

/-- Call `o` has begun attempt `a`, and no other call works on it. -/
structure OwnsStart (o : CallId) (a : Nat) (w : World) : Prop where
  begun : a < w.shared.starts.length
  unique : ∀ c, (w.calls c).role = .opening a → c = o
  phase : OwnerPhase w.shared a (w.calls o)

theorem OwnerPhase.mono (h : OwnerPhase s a pc)
    (hpending : pc.role = .opening a → s.starts[a]? = some .pending → s'.starts[a]? = some .pending)
    (hwait : ∀ r, s.waitForStartReady a = some r → s'.waitForStartReady a = some r) : OwnerPhase s' a pc := by
  cases h with
  | opening hrole hp => exact .opening hrole (hpending hrole hp)
  | waiting => exact .waiting
  | cancelled hpc hw => exact .cancelled hpc (hwait _ hw)
  | ended hw hsame => exact .ended (hwait _ hw) hsame

theorem answering_role {n : Nat} (h : s.answering choice pc = some n) : pc.role = .opening n := by
  unfold Shared.answering at h
  split at h
  · split at h
    · split at h
      · cases h
      · obtain rfl := Option.some.inj h
        rfl
    · cases h
  · split at h
    · obtain rfl := Option.some.inj h
      rfl
    · cases h
  · cases h

/-- After a cancelled start has answered its own notifier, or found none, those who wait for the attempt get an error. -/
theorem wait_cancelled (hpending : s.starts[a]? = some .pending)
    (hown : s.inner.startNotifier = none ∨ s.inner.startNotifier = some a) :
    ∃ message, (s.notifyStart (.error Shared.startCancelled)).waitForStartReady a = some (.error (.fromReason message)) := by
  unfold Shared.waitForStartReady
  rw [starts_answered, startNotifier_notifyStart]
  rcases hown with hown | hown
  · refine ⟨Str.lit "Proxy start channel closed unexpectedly", ?_⟩
    simp [hown, answerStart, hpending]
  · have hlt := (List.getElem?_eq_some_iff.mp hpending).1
    refine ⟨Shared.startCancelled, ?_⟩
    simp [hown, answerStart, hlt, Except.mapError]

theorem cancelled_error {attempt : Nat} {hands : Hands} {r : Except JsError Unit} (hl : l.call = some (c, choice))
    (hpc : w.calls c = .startCancelling attempt hands) (hstep : step w l = some w') (hdone : w'.calls c = .done r) :
    r = .error (.fromReason Shared.startCancelled) := by
  obtain ⟨s', pc', hadvance, rfl⟩ := advance_of_step hl (by rw [hpc]; exact nofun) hstep
  simp only [Function.update_self] at hdone
  rw [hpc, Shared.advance] at hadvance
  split at hadvance
  · obtain ⟨rfl, rfl⟩ := Prod.mk.inj (Option.some.inj hadvance)
    exact (Pc.done.inj hdone).symm
  · obtain ⟨x, -, hx⟩ := Option.map_eq_some_iff.mp hadvance
    obtain ⟨rfl, rfl⟩ := Prod.mk.inj hx
    cases hdone

theorem setup_works {attempt : Nat} {lbTasks : List (Str × LoadBalancer)} (hl : l.call = some (c, choice))
    (hpc : w.calls c = .startSetup attempt lbTasks) (hworks : choice.SetupWorks w.shared.inner.options.tls)
    (hstep : step w l = some w') :
    ∃ addr, w'.shared = w.shared ∧ w'.calls c = .startRegister attempt addr lbTasks .empty := by
  obtain ⟨env, hsetup, hworks⟩ := hworks
  obtain ⟨addr, haddr⟩ := buildStartResources_works hworks w.shared.inner.options.listen
  cases hchoice : choice.setup with
  | error e => simp [hchoice, Except.toOption] at hsetup
  | ok env' =>
      obtain rfl : env' = env := by simpa [hchoice, Except.toOption] using hsetup
      refine ⟨addr, ?_, ?_⟩
      · rw [step_setup hl hpc hstep]
        simp [Shared.setupStart, hchoice, haddr]
      · rw [step_setup hl hpc hstep]
        simp [Shared.setupStart, hchoice, haddr]

theorem ownerPhase_advance (h : OwnerPhase w.shared a (w.calls o)) (hsharing : Sharing o w l)
    (hl : l.call = some (o, choice)) (hstarts : StartsStep w.shared w'.shared (w.answering l)) (hopen : w.shared.Open)
    (hbegun : a < w.shared.starts.length) (hstep : step w l = some w') : OwnerPhase w'.shared a (w'.calls o) := by
  have hwait := fun r => hstarts.wait (r := r) hopen hbegun
  rcases step_cases hstep with ⟨c, choice', s', pc', hl', hact, hw'⟩ | ⟨t, rfl, -, -⟩
  swap
  · cases hl
  obtain ⟨rfl, rfl⟩ := Prod.mk.inj (Option.some.inj (hl.symm.trans hl'))
  have hcalls : w'.calls o = pc' := by simp [hw']
  have hshared : w'.shared = s' := by rw [hw']
  generalize hpc : w.calls o = pc at h hact
  cases h with
  | opening hrole hpending =>
      cases hsetup : pc.inSetup with
      | true =>
          cases pc with
          | startSetup attempt lbTasks =>
              obtain ⟨addr, hshared, hcalls⟩ := setup_works hl hpc (hsharing.works _ hl rfl (by rw [hpc]; rfl)) hstep
              rw [hshared, hcalls]
              exact .opening hrole hpending
          | _ => cases hsetup
      | false =>
          have hown : ∀ n ∈ w.shared.answering choice pc,
              w.shared.inner.startNotifier = none ∨ w.shared.inner.startNotifier = some n := fun n hn =>
            hsharing.own n (by simpa [World.answering, hl, hpc] using hn)
          rw [hcalls, hshared]
          cases hact with
          | setupLost | setupFailed | setupDone => cases hsetup
          | inserted | signalled | awaited => exact .opening ((role_withHands _ _).trans hrole) hpending
          | healthSpawned | listenerSpawned => exact .opening hrole hpending
          | finalised attempt addr =>
              obtain rfl := Role.opening.inj hrole
              exact .waiting
          | cancelled attempt addr =>
              obtain rfl := Role.opening.inj hrole
              obtain ⟨message, hmessage⟩ := wait_cancelled hpending (hown attempt (by simp [Shared.answering]))
              exact .cancelled (.inl rfl) hmessage
          | _ => cases hrole
  | waiting =>
      rw [hcalls, hshared]
      cases hact with
      | inserted | signalled | awaited => exact .waiting
      | startSettled hr => exact .ended hr (.refl _)
  | @cancelled _ message hcancel hmessage =>
      have hmessage := hwait _ hmessage
      rcases hcancel with rfl | ⟨hands, rfl⟩
      · rw [hcalls]
        cases hact with
        | inserted | signalled | awaited => exact .cancelled (.inl rfl) hmessage
        | cancelTook => exact .cancelled (.inr ⟨_, rfl⟩) hmessage
      · cases hact with
        | inserted | signalled | awaited =>
            rw [hcalls]
            exact .cancelled (.inr ⟨_, rfl⟩) hmessage
        | cancelEnded attempt err =>
            rw [hcalls, cancelled_error hl hpc hstep hcalls]
            exact .ended hmessage rfl
  | ended hr hsame =>
      rw [hcalls]
      cases hact with
      | inserted | signalled | awaited => exact .ended (hwait _ hr) hsame

theorem OwnsStart.step (h : OwnsStart o a w) (hnumbered : Numbered w) (hsharing : Sharing o w l) (hstep : step w l = some w') :
    OwnsStart o a w' := by
  have hstarts := startsStep_of_step hstep
  refine ⟨Nat.lt_of_lt_of_le h.begun hstarts.length_le, fun c hrole => ?_, ?_⟩
  · rcases opening_step hstep hrole with hbefore | ⟨rfl, -⟩
    · exact h.unique c hbefore
    · exact absurd h.begun (Nat.lt_irrefl _)
  · by_cases ho : ∃ choice, l.call = some (o, choice)
    · obtain ⟨choice, hl⟩ := ho
      exact ownerPhase_advance h.phase hsharing hl hstarts hnumbered.channels h.begun hstep
    · have hcalls : w'.calls o = w.calls o := calls_step hstep fun p hp heq => ho ⟨p.2, by rw [hp, ← heq]⟩
      rw [hcalls]
      refine h.phase.mono (fun _ hpending => ?_) fun r => hstarts.wait hnumbered.channels h.begun
      refine hstarts.pending hpending hsharing.own fun hanswers => ho ?_
      obtain ⟨p, hp, hanswers⟩ := Option.bind_eq_some_iff.mp hanswers
      have hp₁ := h.unique p.1 (answering_role hanswers)
      exact ⟨p.2, by rw [hp, ← hp₁]⟩

/-! ## A joiner -/

/-- Call `j` waits for attempt `a`, or has got what those get who wait for it. -/
def JoinedStart (j : CallId) (a : Nat) (w : World) : Prop :=
  w.calls j = .startWait a ∨ ∃ r, w.calls j = .done r ∧ w.shared.waitForStartReady a = some r

theorem JoinedStart.step (h : JoinedStart j a w) (hnumbered : Numbered w) (hbegun : a < w.shared.starts.length)
    (hstep : step w l = some w') : JoinedStart j a w' := by
  have hwait := fun r => (startsStep_of_step hstep).wait (r := r) hnumbered.channels hbegun
  have hstay : w'.calls j = w.calls j → JoinedStart j a w' := fun hcalls => by
    unfold JoinedStart
    rw [hcalls]
    exact h.imp id fun ⟨r, hdone, hr⟩ => ⟨r, hdone, hwait r hr⟩
  rcases step_cases hstep with ⟨c, choice, s', pc', -, hact, hw'⟩ | ⟨t, -, -, rfl⟩
  · by_cases hj : j = c
    · subst hj
      have hcalls : w'.calls j = pc' := by simp [hw']
      generalize hpc : w.calls j = pc at hact
      rcases h with h | ⟨r, h, -⟩
      · obtain rfl : pc = .startWait a := hpc.symm.trans h
        cases hact with
        | inserted | signalled | awaited => exact hstay (hcalls.trans hpc.symm)
        | startSettled hr => exact .inr ⟨_, hcalls, hwait _ hr⟩
      · obtain rfl : pc = .done r := hpc.symm.trans h
        cases hact with
        | inserted | signalled | awaited => exact hstay (hcalls.trans hpc.symm)
    · exact hstay (by simp [hw', Function.update_of_ne hj])
  · exact hstay rfl

/-! ## They settle alike -/

/-- Call `c` begins attempt `a`. -/
def BeginsAttempt (w : World) (c : CallId) (a : Nat) (w' : World) : Prop :=
  ∃ choice lbTasks, step w (.begin c .start choice) = some w' ∧ w'.calls c = .startSetup a lbTasks

/-- Call `c` finds attempt `a` under way and waits for it. -/
def JoinsAttempt (w : World) (c : CallId) (a : Nat) (w' : World) : Prop :=
  ∃ choice, step w (.begin c .start choice) = some w' ∧ w'.calls c = .startWait a

/-- Call `c`, which waits for attempt `a`, settles with `r`: it has done so, or its next step does. -/
def World.Settles (w : World) (c : CallId) (a : Nat) (r : Except JsError Unit) : Prop :=
  w.calls c = .done r ∨ w.calls c = .startWait a ∧ w.shared.waitForStartReady a = some r

theorem idle_of_begin {call : JsCall} (h : step w (.begin c call choice) = some w') : w.calls c = .idle := by
  simp only [step] at h
  split at h
  · assumption
  · cases h

theorem sharing_begin {call : JsCall} (hidle : w.calls c = .idle) : Sharing o w (.begin c call choice) where
  own := by simp [World.answering, Label.call, hidle, Shared.answering]
  works := by
    intro p hp hpo hsetup
    obtain rfl := Option.some.inj hp
    obtain rfl : c = o := hpo
    rw [hidle] at hsetup
    cases hsetup

theorem Numbered.reach (h : Numbered w) {allow : World → Label → Prop} (hrun : Reach Steps allow w w') : Numbered w' :=
  hrun.invariant h fun _ _ _ h _ hstep => h.step hstep

theorem owned_of_begins (h : Numbered w) (hbegins : BeginsAttempt w o a w') : OwnsStart o a w' := by
  obtain ⟨choice, lbTasks, hstep, hcalls⟩ := hbegins
  have hidle := idle_of_begin hstep
  have hrole : (w'.calls o).role = .opening a := by rw [hcalls]; rfl
  rcases opening_step hstep hrole with hbefore | ⟨rfl, happend⟩
  · rw [hidle] at hbefore
    cases hbefore
  · refine ⟨by simp [happend], fun c hc => ?_, .opening hrole (by simp [happend])⟩
    by_contra hne
    rw [calls_step hstep fun p hp heq => hne ?_] at hc
    · exact absurd (h.begun c _ hc) (Nat.lt_irrefl _)
    · obtain rfl := Option.some.inj hp
      exact heq.symm

theorem OwnsStart.reach (h : OwnsStart o a w) (hnumbered : Numbered w) (hrun : Reach Steps (Sharing o) w w') :
    Numbered w' ∧ OwnsStart o a w' := by
  induction hrun with
  | refl => exact ⟨hnumbered, h⟩
  | tail _ hsharing hstep ih => exact ⟨ih.1.step hstep, ih.2.step ih.1 hsharing hstep⟩

theorem JoinedStart.reach (h : JoinedStart j a w) (howned : OwnsStart o a w) (hnumbered : Numbered w)
    (hrun : Reach Steps (Sharing o) w w') : JoinedStart j a w' := by
  induction hrun with
  | refl => exact h
  | tail hrun _ hstep ih =>
      obtain ⟨hnumbered, howned⟩ := howned.reach hnumbered hrun
      exact ih.step hnumbered howned.begun hstep

/-- A call that joins an attempt settles as the call that owns the attempt does, in every run in which the owner's setup succeeds
and no call answers the notifier of another attempt. -/
theorem joined_shares_outcome {options : ProxyOptions} {w₀ : World} (hnew : Proxy.new options = .ok w₀) {o j : CallId} {a : Nat}
    {w₁ w₂ w₃ w₄ w₅ : World} (hrun₁ : Reach Steps (Sharing o) w₀ w₁) (hbegins : BeginsAttempt w₁ o a w₂)
    (hrun₂ : Reach Steps (Sharing o) w₂ w₃) (hjoins : JoinsAttempt w₃ j a w₄) (hrun₃ : Reach Steps (Sharing o) w₄ w₅)
    {r : Except JsError Unit} (hdone : w₅.calls o = .done r) : ∃ r', w₅.Settles j a r' ∧ SameOutcome r r' := by
  obtain ⟨parsed, -, rfl⟩ := proxy_new hnew
  have hnumbered₁ := (Numbered.new parsed).reach hrun₁
  have hnumbered₂ : Numbered w₂ := by
    obtain ⟨choice, lbTasks, hstep, -⟩ := hbegins
    exact hnumbered₁.step hstep
  obtain ⟨hnumbered₃, howned₃⟩ := (owned_of_begins hnumbered₁ hbegins).reach hnumbered₂ hrun₂
  obtain ⟨choice, hstep, hwaits⟩ := hjoins
  have hnumbered₄ := hnumbered₃.step hstep
  have howned₄ := howned₃.step hnumbered₃ (sharing_begin (idle_of_begin hstep)) hstep
  obtain ⟨-, howned₅⟩ := howned₄.reach hnumbered₄ hrun₃
  have hjoined₅ : JoinedStart j a w₅ := JoinedStart.reach (.inl hwaits) howned₄ hnumbered₄ hrun₃
  have hphase := howned₅.phase
  rw [hdone] at hphase
  cases hphase with
  | opening hrole => cases hrole
  | cancelled hpc => rcases hpc with hpc | ⟨hands, hpc⟩ <;> cases hpc
  | ended hwait hsame =>
      refine ⟨_, ?_, hsame⟩
      rcases hjoined₅ with hwaiting | ⟨r', hended, hr'⟩
      · exact .inr ⟨hwaiting, hwait⟩
      · obtain rfl := Option.some.inj (hwait.symm.trans hr')
        exact .inl hended

/-! ## Two starts -/

def Pc.begun (attempt : Nat) : Pc → Bool
  | .startSetup a _ => a = attempt
  | _ => false

def Pc.joined (attempt : Nat) : Pc → Bool
  | .startWait a => a = attempt
  | _ => false

/-- The code with which a call has failed. -/
def Pc.failure : Pc → Option ErrorCode
  | .done (.error e) => some e.code
  | _ => none

theorem failure_eq_some {code : ErrorCode} (h : pc.failure = some code) : ∃ e, pc = .done (.error e) ∧ e.code = code := by
  unfold Pc.failure at h
  split at h
  · exact ⟨_, rfl, Option.some.inj h⟩
  · cases h

theorem begins_of_begun (hstep : step w (begins c .start) = some w') (h : (w'.calls c).begun a = true) :
    BeginsAttempt w c a w' := by
  unfold Pc.begun at h
  split at h
  · rename_i a' lbTasks hcalls
    obtain rfl := of_decide_eq_true h
    exact ⟨sampleChoice, lbTasks, hstep, hcalls⟩
  · cases h

theorem joins_of_joined (hstep : step w (begins c .start) = some w') (h : (w'.calls c).joined a = true) :
    JoinsAttempt w c a w' := by
  unfold Pc.joined at h
  split at h
  · rename_i a' hcalls
    obtain rfl := of_decide_eq_true h
    exact ⟨sampleChoice, hstep, hcalls⟩
  · cases h

/-- Call 0 begins the first attempt and call 1 joins it; then the calls go on as `ls` says. -/
theorem two_starts (allow : World → Label → Prop) [∀ w l, Decidable (allow w l)] (ls : List Label) (check : World → Bool)
    (h : ((step (.new sampleParsed) (begins 0 .start)).any fun w₂ => (w₂.calls 0).begun 0 &&
      (step w₂ (begins 1 .start)).any fun w₄ => (w₄.calls 1).joined 0 && (runAllowed step allow w₄ ls).any check) = true) :
    ∃ w₂ w₄ w₅, BeginsAttempt (.new sampleParsed) 0 0 w₂ ∧ JoinsAttempt w₂ 1 0 w₄ ∧ Reach Steps allow w₄ w₅ ∧
      check w₅ = true := by
  obtain ⟨w₂, hbegins, h₂⟩ := (Option.any_eq_true _ _).mp h
  rw [Bool.and_eq_true] at h₂
  obtain ⟨w₄, hjoins, h₄⟩ := (Option.any_eq_true _ _).mp h₂.2
  rw [Bool.and_eq_true] at h₄
  obtain ⟨w₅, hrun, hcheck⟩ := Reach.exists_of_any h₄.2
  exact ⟨w₂, w₄, w₅, begins_of_begun hbegins h₂.1, joins_of_joined hjoins h₄.1, hrun, hcheck⟩

/-- Both starts succeed. -/
theorem joined_shares_outcome_sample :
    ∃ w₂ w₄ w₅ r r', BeginsAttempt (World.new sampleParsed) 0 0 w₂ ∧ JoinsAttempt w₂ 1 0 w₄ ∧
      Reach Steps (Sharing 0) w₄ w₅ ∧ w₅.calls 0 = .done r ∧ w₅.Settles 1 0 r' ∧ SameOutcome r r' := by
  obtain ⟨w₂, w₄, w₅, hbegins, hjoins, hrun, hcheck⟩ := two_starts (Sharing 0) (steps 0 5) (fun w => (w.calls 0).resolved)
    (by decide +kernel)
  have hdone := Pc.resolved_iff.mp hcheck
  obtain ⟨r', hsettles, hsame⟩ := joined_shares_outcome sample_new .refl hbegins .refl hjoins hrun hdone
  exact ⟨w₂, w₄, w₅, .ok (), r', hbegins, hjoins, hrun, hdone, hsettles, hsame⟩

/-- The port is taken. -/
def portTaken : Choice :=
  { sampleChoice with
    setup := .ok ⟨.error (Str.lit "Address already in use"), .ok ⟨Str.lit "127.0.0.1", false, 4000⟩, .ok (), .ok ()⟩ }

/-- The owner rejects with the code of the failed bind, the joiner with the general one. -/
theorem joined_start_loses_code :
    ∃ w₂ w₄ w₅ e e', Proxy.new sampleOptions = .ok (World.new sampleParsed) ∧
      BeginsAttempt (World.new sampleParsed) 0 0 w₂ ∧ JoinsAttempt w₂ 1 0 w₄ ∧ Reach Steps Free w₄ w₅ ∧
      w₅.calls 0 = .done (.error e) ∧ w₅.calls 1 = .done (.error e') ∧ e.code = .listenBindFailed ∧
      e'.code = .genericFailure ∧ ¬ SameOutcome (.error e) (.error e') := by
  obtain ⟨w₂, w₄, w₅, hbegins, hjoins, hrun, hcheck⟩ := two_starts Free [.advance 0 portTaken, .advance 1 sampleChoice]
    (fun w => (w.calls 0).failure = some .listenBindFailed ∧ (w.calls 1).failure = some .genericFailure) (by decide +kernel)
  rw [decide_eq_true_eq] at hcheck
  obtain ⟨e, hdone, hcode⟩ := failure_eq_some hcheck.1
  obtain ⟨e', hdone', hcode'⟩ := failure_eq_some hcheck.2
  refine ⟨w₂, w₄, w₅, e, e', sample_new, hbegins, hjoins, hrun, hdone, hdone', hcode, hcode', fun hsame => ?_⟩
  have hsame : e.code = e'.code := hsame
  rw [hcode, hcode'] at hsame
  cases hsame

end NeemataProxy
