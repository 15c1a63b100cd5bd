import NeemataProxy.Proxy.Locality

/-!
# The names of services

The name of a health task holds the name of its application as it is, and is the name of no other pool and not that of the
listener. So a call that registers or removes the health task of a pool shuts down at most the task that the pool had before.
-/

namespace NeemataProxy

open Lib Routing Options

variable {w w' : World} {l : Label} {c : CallId} {choice : Choice} {s s' : Shared} {pc pc' : Pc} {n : Str} {h : ServiceHandle}
  {N : Str → Prop}

/-! ## A task has one name -/

/-- The task is registered under such names only, and no call is about to register it. -/
structure NamedWithin (N : Str → Prop) (h : ServiceHandle) (w : World) : Prop where
  registered : ∀ n, w.shared.server.services.get n = some h → N n
  unspawned : ∀ c n, (w.calls c).hands.spawned ≠ some (n, h)
  known : ∃ x, w.shared.server.serviceOf h = some x

theorem namedWithin_of_registered (howned : Owned w.shared.server w.hands) (hget : w.shared.server.services.get n = some h) :
    NamedWithin (· = n) h w :=
  ⟨fun _ hm => howned.oneName hm hget, fun _ _ hspawned => (howned.inHands (Hands.mem_handles_of_spawned hspawned)).2 n hget,
    exists_serviceOf (howned.registered hget)⟩

theorem namedWithin_of_held (howned : Owned w.shared.server w.hands) (hheld : h ∈ (w.calls c).hands.held)
    (hnone : (w.calls c).hands.spawned = none) : NamedWithin (fun _ => False) h w := by
  have hin : h ∈ (w.hands c).handles := Hands.mem_handles_of_held hheld
  obtain ⟨hknown, hgone⟩ := howned.inHands hin
  obtain ⟨status, hstatus⟩ := Option.ne_none_iff_exists'.mp hknown
  refine ⟨hgone, fun c' m hspawned => ?_, exists_serviceOf hstatus⟩
  obtain rfl := howned.oneCall hin (Hands.mem_handles_of_spawned hspawned)
  rw [hnone] at hspawned
  cases hspawned

/-- Only a new task is about to be registered. -/
theorem HandStep.spawned_of {server server' : Server} {hs hs' : Hands} (hstep : HandStep server hs server' hs')
    (hspawned : hs'.spawned = some (n, h)) : hs.spawned = some (n, h) ∨ h = server.nextHandle := by
  cases hstep with
  | stay => exact .inl hspawned
  | spawned name service =>
      obtain ⟨-, rfl⟩ := Prod.mk.inj (Option.some.inj hspawned)
      exact .inr rfl
  | inserted | signalled | awaited | removed | took => cases hspawned

theorem NamedWithin.step (hnamed : NamedWithin N h w) (hstep : Steps w l w') : NamedWithin N h w' := by
  have hknown := hnamed.known.imp fun x hx => serviceOf_step hstep h x hx
  obtain ⟨x, hx⟩ := hnamed.known
  rcases step_cases hstep with ⟨c, choice, s', pc', -, hact, rfl⟩ | ⟨t, -, -, rfl⟩
  · have hhand := act_handStep hact
    refine ⟨fun n hn => ?_, forall_update (P := fun pc => ∀ n, pc.hands.spawned ≠ some (n, h)) (fun n hspawned => ?_)
      fun c' _ => hnamed.unspawned c', hknown⟩
    · exact (hhand.services hn).elim (hnamed.registered n) fun hspawned => absurd hspawned (hnamed.unspawned c n)
    · exact (hhand.spawned_of hspawned).elim (hnamed.unspawned c n) (Server.ne_nextHandle hx)
  · exact ⟨hnamed.registered, hnamed.unspawned, hknown⟩

theorem NamedWithin.reach {allow : World → Label → Prop} (hnamed : NamedWithin N h w) (hrun : Reach Steps allow w w') :
    NamedWithin N h w' :=
  hrun.invariant hnamed fun _ _ _ hnamed _ hstep => hnamed.step hstep

/-! ## Registering and removing -/

/-- The access of `upsert_service` or `remove_service` for the name is the next step of the call. -/
def Pc.Deals (n : Str) (pc : Pc) : Prop :=
  (∃ h, pc.hands.spawned = some (n, h)) ∨ ∃ req todo, pc = .updateServices req (.remove n :: todo) .empty

/-- The call has not yet dealt with all that it has taken out. -/
def Busy (c : CallId) (w : World) (_ : Label) : Prop := (w.calls c).hands ≠ .empty

/-- The access takes out what is registered under its name, and leaves other names and all tasks alone. -/
theorem deals_act (hact : Act s c choice pc s' pc') (hdeals : pc.Deals n) :
    pc'.hands = .displaced (s.server.services.get n).toList ∧
      (∀ n', n' ≠ n → s'.server.services.get n' = s.server.services.get n') ∧
      ∀ t, s'.server.statusOf t = s.server.statusOf t := by
  rcases hdeals with ⟨t, hspawned⟩ | ⟨req, todo, rfl⟩
  · cases hact with
    | inserted hhands =>
        obtain ⟨rfl, rfl⟩ := Prod.mk.inj (Option.some.inj (hhands.symm.trans hspawned))
        refine ⟨hands_withHands (fun hempty => ?_) _, fun n' hne => ?_, fun _ => rfl⟩
        · rw [hempty] at hspawned
          cases hspawned
        · simp [Shared.onServer, HashMap.get_insert, hne]
    | signalled hhands | awaited hhands =>
        rw [hhands] at hspawned
        cases hspawned
    | _ => cases hspawned
  · cases hact with
    | updateRemoved => exact ⟨rfl, fun n' hne => by simp [Shared.onServer, HashMap.get_remove, hne], fun _ => rfl⟩
    | inserted hhands | signalled hhands | awaited hhands => cases hhands

/-- A step of a call that has taken out services shuts down none but these. -/
theorem HandStep.shutsDown {server server' : Server} {hs hs' : Hands} (hstep : HandStep server hs server' hs')
    (hnone : hs.spawned = none) (hbusy : hs ≠ .empty) :
    hs'.spawned = none ∧ (∀ t ∈ hs'.held, t ∈ hs.held) ∧ ∀ t, server'.statusOf t ≠ server.statusOf t → t ∈ hs.held := by
  cases hstep with
  | stay => exact ⟨hnone, fun t ht => ht, fun t hne => absurd rfl hne⟩
  | signalled t rest =>
      refine ⟨rfl, fun t' ht' => ht', fun t' hne => ?_⟩
      by_contra hnot
      have hother : t' ≠ t := fun heq => hnot (heq ▸ List.mem_cons_self)
      rw [Server.statusOf_signal, if_neg fun hand => hother hand.1] at hne
      exact hne rfl
  | awaited rest hstatus => exact ⟨rfl, fun t ht => List.mem_cons_of_mem _ ht, fun t hne => absurd rfl hne⟩
  | inserted hspawned =>
      rw [hnone] at hspawned
      cases hspawned
  | spawned | removed | took => exact absurd rfl hbusy

/-- As long as it is busy, the call holds nothing else than it has taken out. -/
theorem held_of_busy {old : List ServiceHandle} (hhands : (w.calls c).hands = .displaced old)
    (hrun : Reach Steps (Busy c) w w') : (w'.calls c).hands.spawned = none ∧ ∀ t ∈ (w'.calls c).hands.held, t ∈ old := by
  induction hrun with
  | refl =>
      rw [hhands]
      exact ⟨rfl, fun t ht => ht⟩
  | tail _ hbusy hstep ih =>
      rcases own_or_kept hstep c with hcalls | ⟨choice, hact⟩
      · rw [hcalls]
        exact ih
      · obtain ⟨hnone, hheld, -⟩ := (act_handStep hact).shutsDown ih.1 hbusy
        exact ⟨hnone, fun t ht => ih.2 t (hheld t ht)⟩

/-! ## What is shut down -/

/-- A state of the run that leads to `w`, or of one that goes on from `w₁`. -/
def Around (w₀ w w₁ u : World) : Prop := (Reach Steps Free w₀ u ∧ Reach Steps Free u w) ∨ Reach Steps Free w₁ u

/-- The health task that the pool had at `w`; at no time is it that of another pool, or the listener. -/
structure OwnTask (w₀ : World) (app : Str) (t : TransportKind) (w w₁ : World) (h : ServiceHandle) : Prop where
  registered : w.shared.server.services.get (lbServiceName app t) = some h
  health : RunsHealth w.shared.server h
  notListener : ∀ u, Around w₀ w w₁ u → u.shared.server.services.get mainServiceName ≠ some h
  noOtherPool : ∀ u app' t', Around w₀ w w₁ u → u.shared.server.services.get (lbServiceName app' t') = some h →
    app' = app ∧ t' = t

/-- Call `c` registers or removes the health task of the pool, beginning with the step from `w` to `w₁`. -/
structure Isolated (w₀ : World) (c : CallId) (app : Str) (t : TransportKind) (w w₁ : World) : Prop where
  listener : w₁.shared.server.services.get mainServiceName = w.shared.server.services.get mainServiceName
  otherPools : ∀ app' t', ¬ (app' = app ∧ t' = t) →
    w₁.shared.server.services.get (lbServiceName app' t') = w.shared.server.services.get (lbServiceName app' t')
  access : ∀ h, w₁.shared.server.statusOf h = w.shared.server.statusOf h
  shutsDown : ∀ v l v' h, Reach Steps (Busy c) w₁ v → Busy c v l → StepOf c v l v' →
    v'.shared.server.statusOf h ≠ v.shared.server.statusOf h → OwnTask w₀ app t w w₁ h

theorem lbServiceName_eq_iff {app app' : Str} {t t' : TransportKind} :
    lbServiceName app t = lbServiceName app' t' ↔ app = app' ∧ t = t' :=
  ⟨lbServiceName_inj, fun ⟨happ, ht⟩ => by rw [happ, ht]⟩

theorem isolated_of_deals {parsed : ProxyOptionsParsed} (hrun : Reach Steps Free (.new parsed) w) {app : Str}
    {t : TransportKind} (hdeals : (w.calls c).Deals (lbServiceName app t)) (hstep : StepOf c w l w') :
    Isolated (.new parsed) c app t w w' := by
  have hfitted : Fitted w :=
    hrun.invariant ⟨(Sound.new parsed).formed, (Sound.new parsed).fits⟩ fun _ _ _ hfitted _ hstep => hfitted.step hstep
  have hhandled := (Handled.new parsed).reach hrun
  have hhandled' := hhandled.step hstep.1
  obtain ⟨choice, hact, -⟩ := hstep.act
  obtain ⟨hhands, hother, hstatus⟩ := deals_act hact hdeals
  have hnone : (w'.calls c).hands.spawned = none := by rw [hhands]; rfl
  refine ⟨hother _ (lbServiceName_ne_main app t).symm, fun app' t' hne => hother _ fun heq => hne (lbServiceName_inj heq),
    hstatus, fun v l v' h hbusy hstill hown hchanged => ?_⟩
  obtain ⟨choice', hact', -⟩ := hown.act
  obtain ⟨hspawned, hheld⟩ := held_of_busy hhands hbusy
  have hold := hheld h (((act_handStep hact').shutsDown hspawned hstill).2.2 h hchanged)
  have hget : w.shared.server.services.get (lbServiceName app t) = some h := Option.mem_toList.mp hold
  -- before the access it had this name only, and behind it has none
  have hnames : ∀ u n, Around (.new parsed) w w' u → u.shared.server.services.get n = some h → n = lbServiceName app t := by
    rintro u n (⟨hbefore, hafter⟩ | hafter) hn
    · have hnamed := namedWithin_of_registered ((Handled.new parsed).reach hbefore).owned hn
      exact ((hnamed.reach hafter).registered _ hget).symm
    · have hgone : h ∈ (w'.calls c).hands.held := by rw [hhands]; exact hold
      exact (((namedWithin_of_held hhandled'.owned hgone hnone).reach hafter).registered n hn).elim
  exact ⟨hget, (hfitted.fits hget).runsHealth ⟨app, t, rfl⟩,
    fun u hu hmain => lbServiceName_ne_main app t (hnames u _ hu hmain).symm,
    fun u app' t' hu hn => lbServiceName_inj (hnames u _ hu hn)⟩

/-- Services of different pools have different names, which are not that of the listener. So registering or removing the health
task of a pool shuts down neither the listener nor the task of another pool. -/
theorem serviceNames_isolated :
    (∀ app app' t t', lbServiceName app t = lbServiceName app' t' ↔ app = app' ∧ t = t') ∧
      (∀ app t, lbServiceName app t ≠ mainServiceName) ∧
      ∀ {options : ProxyOptions} {w₀ w w₁ : World} {c : CallId} {l : Label} {app : Str} {t : TransportKind},
        Proxy.new options = .ok w₀ → Reach Steps Free w₀ w → (w.calls c).Deals (lbServiceName app t) →
          StepOf c w l w₁ → Isolated w₀ c app t w w₁ := by
  refine ⟨fun app app' t t' => lbServiceName_eq_iff, lbServiceName_ne_main, fun hnew hrun hdeals hstep => ?_⟩
  obtain ⟨parsed, -, rfl⟩ := proxy_new hnew
  exact isolated_of_deals hrun hdeals hstep

/-- Call 2 is about to replace task 0, which belongs to the pool that it has rebuilt. -/
theorem serviceNames_isolated_sample :
    ∃ w w₁, Reach Steps Free (World.new sampleParsed) w ∧ StepOf 2 w (.advance 2 sampleChoice) w₁ ∧
      w.shared.server.services.get (lbServiceName (Str.lit "app") .http1) = some 0 ∧
      (w₁.calls 2).hands.held = [0] ∧ Isolated (World.new sampleParsed) 2 (Str.lit "app") .http1 w w₁ := by
  obtain ⟨w, hrun, -, hcheck⟩ := reach_of_check Free Free (additionRun ++ steps 2 7) sampleParsed 3
    (fun w => (w.calls 2).hands.spawned = some (lbServiceName (Str.lit "app") .http1, 3) &&
      w.shared.server.services.get (lbServiceName (Str.lit "app") .http1) = some 0 &&
      (step w (.advance 2 sampleChoice)).any fun w₁ => (w₁.calls 2).hands.held = [0])
    (fun _ _ _ => id) (by decide) (by decide +kernel)
  simp only [Bool.and_eq_true, decide_eq_true_eq] at hcheck
  obtain ⟨⟨hspawned, hget⟩, hany⟩ := hcheck
  obtain ⟨w₁, hnext, hheld⟩ := (Option.any_eq_true _ _).mp hany
  have hstep : StepOf 2 w (.advance 2 sampleChoice) w₁ := ⟨hnext, sampleChoice, rfl⟩
  exact ⟨w, w₁, hrun, hstep, hget, of_decide_eq_true hheld,
    serviceNames_isolated.2.2 sample_new hrun (.inl ⟨3, hspawned⟩) hstep⟩

end NeemataProxy
