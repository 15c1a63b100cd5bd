import NeemataProxy.Proxy.World

/-!
# The steps of calls as a relation

`Act` lists what one step of a call can do to the shared state and where the call goes; `step_cases` says that
`step` does nothing else.
-/

namespace NeemataProxy

open Lib Routing Options

/-- A step of call `c` from `pc` to `pc'`. -/
inductive Act (s : Shared) (c : CallId) (choice : Choice) : Pc → Shared → Pc → Prop where
  | refused (err : JsError) : Act s c choice .idle s (.done (.error err))
  | startJoined {rx : Nat} (hstate : s.inner.state = .starting) (hrx : s.inner.startNotifier = some rx) :
      Act s c choice .idle s (.startWait rx)
  | startBegun (hstate : s.inner.state = .stopped) :
      Act s c choice .idle s.beginStart (.startSetup s.starts.length (s.lbTasks choice.lbOrder))
  | stopFast (hstate : s.inner.state = .stopped) :
      Act s c choice .idle { s with inner := { s.inner with listenAddress := none } } (.done (.ok ()))
  | stopJoined {rx : Nat} (hstate : s.inner.state = .stopping) (hrx : s.inner.stopNotifier = some rx) :
      Act s c choice .idle s (.stopWait rx s.starts.length)
  | stopBegunWaiting {rx : Nat} (hstate : s.inner.state = .starting ∨ s.inner.state = .running)
      (hrx : s.inner.startNotifier = some rx) : Act s c choice .idle s.beginStop (.stopWaitStart rx s.starts.length)
  | stopBegun (hstate : s.inner.state = .starting ∨ s.inner.state = .running) (hrx : s.inner.startNotifier = none) :
      Act s c choice .idle s.beginStop (.stopAll s.starts.length)
  | updateCalled (req : UpdateRequest) : Act s c choice .idle s (.updateLock req)
  | setupLost (attempt : Nat) (lbTasks : List (Str × LoadBalancer)) (err : JsError) {e : Str}
      (hlost : choice.setup = .error e) :
      Act s c choice (.startSetup attempt lbTasks) s (.done (.error err))
  | setupFailed (attempt : Nat) (lbTasks : List (Str × LoadBalancer)) (err : JsError) :
      Act s c choice (.startSetup attempt lbTasks) (s.failStart err) (.done (.error err))
  | setupDone (attempt : Nat) (lbTasks : List (Str × LoadBalancer)) (addr : BoundListenAddress) :
      Act s c choice (.startSetup attempt lbTasks) s (.startRegister attempt addr lbTasks .empty)
  | inserted {pc : Pc} {name : Str} {h : ServiceHandle} (hhands : pc.hands.spawned = some (name, h)) :
      Act s c choice pc (s.onServer (s.server.insert name h))
        (pc.withHands (.displaced (s.server.services.get name).toList))
  | signalled {pc : Pc} {h : ServiceHandle} {rest : List ServiceHandle} (hhands : pc.hands = ⟨none, h :: rest, false⟩) :
      Act s c choice pc (s.onServer (s.server.signal h)) (pc.withHands ⟨none, h :: rest, true⟩)
  | awaited {pc : Pc} {h : ServiceHandle} {rest : List ServiceHandle} (hhands : pc.hands = ⟨none, h :: rest, true⟩)
      (hstatus : s.server.statusOf h = some .terminated) : Act s c choice pc s (pc.withHands (.displaced rest))
  | healthSpawned (attempt : Nat) (addr : BoundListenAddress) (name : Str) (lb : LoadBalancer)
      (lbTasks : List (Str × LoadBalancer)) :
      Act s c choice (.startRegister attempt addr ((name, lb) :: lbTasks) .empty) (s.onServer (s.server.spawn (.health lb)))
        (.startRegister attempt addr lbTasks (.register name s.server.nextHandle))
  | listenerSpawned (attempt : Nat) (addr : BoundListenAddress) :
      Act s c choice (.startRegister attempt addr [] .empty) (s.onServer (s.server.spawn (.listener attempt addr)))
        (.startListen attempt addr (.register mainServiceName s.server.nextHandle))
  | finalised (attempt : Nat) (addr : BoundListenAddress)
      (hstate : s.inner.state = .starting ∨ s.inner.state = .running) :
      Act s c choice (.startListen attempt addr .empty)
        ({ s with inner := { s.inner with state := .running, listenAddress := some addr } }.notifyStart (.ok ()))
        (.startWait attempt)
  | cancelled (attempt : Nat) (addr : BoundListenAddress)
      (hstate : s.inner.state = .stopping ∨ s.inner.state = .stopped) :
      Act s c choice (.startListen attempt addr .empty) (s.notifyStart (.error Shared.startCancelled)) (.startCancel attempt)
  | cancelTook (attempt : Nat) :
      Act s c choice (.startCancel attempt) (s.takeServices choice.serviceOrder).1
        (.startCancelling attempt (s.takeServices choice.serviceOrder).2)
  | cancelEnded (attempt : Nat) (err : JsError) :
      Act s c choice (.startCancelling attempt .empty) s.endCancelledStart (.done (.error err))
  | startSettled {rx : Nat} {r : Except JsError Unit} (hr : s.waitForStartReady rx = some r) :
      Act s c choice (.startWait rx) s (.done r)
  | startAwaited {rx : Nat} (seen : Nat) {r : Except JsError Unit} (hr : s.waitForStartReady rx = some r) :
      Act s c choice (.stopWaitStart rx seen) s (.stopAll seen)
  | stopTook (seen : Nat) :
      Act s c choice (.stopAll seen) (s.takeServices choice.serviceOrder).1
        (.stopping seen (s.takeServices choice.serviceOrder).2)
  | stopEnded (seen : Nat) : Act s c choice (.stopping seen .empty) s.endStop (.done (.ok ()))
  | stopSettled {rx : Nat} (seen : Nat) {r : Except JsError Unit} (hr : s.waitForStopReady rx = some r) :
      Act s c choice (.stopWait rx seen) s (.done r)
  | locked (req : UpdateRequest) (hlock : s.updateLock = none) :
      Act s c choice (.updateLock req) { s with updateLock := some c } (.updateSnapshot req)
  | snapshotFailed {req : UpdateRequest} {err : JsError}
      (h : prepareUpdate s.inner.options s.inner.upstreamsByApp req = .error err) :
      Act s c choice (.updateSnapshot req) (s.endUpdate c req choice.rebuild choice.poolOrder err).1 (.done (.error err))
  | snapshotTaken {req : UpdateRequest} {next : Snapshot}
      (h : prepareUpdate s.inner.options s.inner.upstreamsByApp req = .ok next) :
      Act s c choice (.updateSnapshot req) s (.updateRebuild req next)
  | rebuildFailed {req : UpdateRequest} {next : Snapshot} {err : JsError}
      (h : rebuildUpdate req next s.rebuilds choice.rebuild = .error err) :
      Act s c choice (.updateRebuild req next)
        (Shared.endUpdate { s with rebuilds := s.rebuilds + 1 } c req choice.rebuild choice.poolOrder err).1
        (.done (.error err))
  | rebuilt {req : UpdateRequest} {next : Snapshot} {result : Rebuilt}
      (h : rebuildUpdate req next s.rebuilds choice.rebuild = .ok result) :
      Act s c choice (.updateRebuild req next) { s with rebuilds := s.rebuilds + 1 }
        (.updateCommit req next choice.rebuild result)
  | commitFailed {req : UpdateRequest} {next : Snapshot} (env : Except Str RebuildEnv) {result : Rebuilt}
      {err : JsError} (h : commitUpdate s.inner.options choice.poolOrder req next result s.catalog = .error err) :
      Act s c choice (.updateCommit req next env result) (s.endUpdate c req env choice.poolOrder err).1
        (.done (.error err))
  | committed {req : UpdateRequest} {next : Snapshot} (env : Except Str RebuildEnv) {result : Rebuilt}
      {catalog : Catalog} {services : List ServiceUpdate}
      (h : commitUpdate s.inner.options choice.poolOrder req next result s.catalog = .ok (catalog, services)) :
      Act s c choice (.updateCommit req next env result)
        { s with
          inner := { s.inner with upstreamsByApp := catalog.upstreamsByApp, pools := catalog.pools }
          router := s.router.update catalog.config
          history := s.history ++ [⟨c, req, env, choice.poolOrder, .ok ()⟩] }
        (.updateServices req (if s.inner.state = .running then services else []) .empty)
  | updateSpawned (req : UpdateRequest) (name : Str) (lb : LoadBalancer) (todo : List ServiceUpdate) :
      Act s c choice (.updateServices req (.upsert name lb :: todo) .empty) (s.onServer (s.server.spawn (.health lb)))
        (.updateServices req todo (.register name s.server.nextHandle))
  | updateRemoved (req : UpdateRequest) (name : Str) (todo : List ServiceUpdate) :
      Act s c choice (.updateServices req (.remove name :: todo) .empty) (s.onServer (s.server.remove name))
        (.updateServices req todo (.displaced (s.server.services.get name).toList))
  | updateEnded (req : UpdateRequest) : Act s c choice (.updateServices req [] .empty) s.releaseLock (.done (.ok ()))

/-! ## `step` does nothing else -/

theorem begin_act (s : Shared) (c : CallId) (call : JsCall) (choice : Choice) :
    Act s c choice .idle (s.begin call choice).1 (s.begin call choice).2 := by
  cases call with
  | start =>
      simp only [Shared.begin, Shared.start]
      split
      · split
        · exact .refused _
        · exact .startJoined ‹_› ‹_›
      · exact .refused _
      · exact .refused _
      · exact .startBegun ‹_›
  | stop =>
      simp only [Shared.begin, Shared.stop]
      split
      · exact .stopFast ‹_›
      · split
        · exact .refused _
        · exact .stopJoined ‹_› ‹_›
      · split
        · exact .stopBegunWaiting (.inl ‹_›) ‹_›
        · exact .stopBegun (.inl ‹_›) ‹_›
      · split
        · exact .stopBegunWaiting (.inr ‹_›) ‹_›
        · exact .stopBegun (.inr ‹_›) ‹_›
  | addUpstream appName upstream =>
      simp only [Shared.begin]
      split
      · exact .refused _
      · exact .updateCalled _
  | removeUpstream appName upstream =>
      simp only [Shared.begin]
      split
      · exact .refused _
      · exact .updateCalled _

theorem proceed_act {s s' : Shared} {c : CallId} {choice : Choice} {pc pc' : Pc} (hhands : pc.hands = .empty)
    (h : s.proceed c choice pc = some (s', pc')) : Act s c choice pc s' pc' := by
  cases pc with
  | idle => simp [Shared.proceed] at h
  | done r => simp [Shared.proceed] at h
  | startSetup attempt lbTasks =>
      simp only [Shared.proceed, Shared.setupStart, Option.some.injEq] at h
      split at h
      · obtain ⟨rfl, rfl⟩ := Prod.mk.inj h; exact .setupLost _ _ _ ‹_›
      · split at h
        · obtain ⟨rfl, rfl⟩ := Prod.mk.inj h; exact .setupFailed ..
        · obtain ⟨rfl, rfl⟩ := Prod.mk.inj h; exact .setupDone ..
  | startRegister attempt addr lbTasks hands =>
      obtain rfl : hands = .empty := hhands
      cases lbTasks with
      | nil =>
          obtain ⟨rfl, rfl⟩ := Prod.mk.inj (Option.some.inj h); exact .listenerSpawned ..
      | cons p lbTasks =>
          obtain ⟨rfl, rfl⟩ := Prod.mk.inj (Option.some.inj h); exact .healthSpawned ..
  | startListen attempt addr hands =>
      obtain rfl : hands = .empty := hhands
      simp only [Shared.proceed, Shared.finaliseStart, Option.some.injEq] at h
      split at h
      · obtain ⟨rfl, rfl⟩ := Prod.mk.inj h; exact .finalised _ _ (.inl ‹_›)
      · obtain ⟨rfl, rfl⟩ := Prod.mk.inj h; exact .finalised _ _ (.inr ‹_›)
      · obtain ⟨rfl, rfl⟩ := Prod.mk.inj h; exact .cancelled _ _ (.inl ‹_›)
      · obtain ⟨rfl, rfl⟩ := Prod.mk.inj h; exact .cancelled _ _ (.inr ‹_›)
  | startCancel attempt =>
      obtain ⟨rfl, rfl⟩ := Prod.mk.inj (Option.some.inj h); exact .cancelTook ..
  | startCancelling attempt hands =>
      obtain rfl : hands = .empty := hhands
      obtain ⟨rfl, rfl⟩ := Prod.mk.inj (Option.some.inj h); exact .cancelEnded ..
  | startWait rx =>
      obtain ⟨r, hr, h⟩ := Option.map_eq_some_iff.mp h
      obtain ⟨rfl, rfl⟩ := Prod.mk.inj h; exact .startSettled hr
  | stopWaitStart rx seen =>
      obtain ⟨r, hr, h⟩ := Option.map_eq_some_iff.mp h
      obtain ⟨rfl, rfl⟩ := Prod.mk.inj h; exact .startAwaited _ hr
  | stopAll seen =>
      obtain ⟨rfl, rfl⟩ := Prod.mk.inj (Option.some.inj h); exact .stopTook ..
  | stopping seen hands =>
      obtain rfl : hands = .empty := hhands
      obtain ⟨rfl, rfl⟩ := Prod.mk.inj (Option.some.inj h); exact .stopEnded ..
  | stopWait rx seen =>
      obtain ⟨r, hr, h⟩ := Option.map_eq_some_iff.mp h
      obtain ⟨rfl, rfl⟩ := Prod.mk.inj h; exact .stopSettled _ hr
  | updateLock req =>
      simp only [Shared.proceed] at h
      split at h
      · obtain ⟨rfl, rfl⟩ := Prod.mk.inj (Option.some.inj h); exact .locked _ ‹_›
      · simp at h
  | updateSnapshot req =>
      simp only [Shared.proceed, Shared.snapshotStep, Option.some.injEq] at h
      split at h
      · obtain ⟨rfl, rfl⟩ := Prod.mk.inj h; exact .snapshotFailed ‹_›
      · obtain ⟨rfl, rfl⟩ := Prod.mk.inj h; exact .snapshotTaken ‹_›
  | updateRebuild req next =>
      simp only [Shared.proceed, Shared.rebuildStep, Option.some.injEq] at h
      split at h
      · obtain ⟨rfl, rfl⟩ := Prod.mk.inj h; exact .rebuildFailed ‹_›
      · obtain ⟨rfl, rfl⟩ := Prod.mk.inj h; exact .rebuilt ‹_›
  | updateCommit req next env rebuilt =>
      simp only [Shared.proceed, Shared.commitStep, Option.some.injEq] at h
      split at h
      · obtain ⟨rfl, rfl⟩ := Prod.mk.inj h; exact .commitFailed _ ‹_›
      · obtain ⟨rfl, rfl⟩ := Prod.mk.inj h; exact .committed _ ‹_›
  | updateServices req todo hands =>
      obtain rfl : hands = .empty := hhands
      cases todo with
      | nil => obtain ⟨rfl, rfl⟩ := Prod.mk.inj (Option.some.inj h); exact .updateEnded _
      | cons t todo =>
          cases t with
          | upsert name lb => obtain ⟨rfl, rfl⟩ := Prod.mk.inj (Option.some.inj h); exact .updateSpawned ..
          | remove name => obtain ⟨rfl, rfl⟩ := Prod.mk.inj (Option.some.inj h); exact .updateRemoved ..

theorem advance_act {s s' : Shared} {c : CallId} {choice : Choice} {pc pc' : Pc}
    (h : s.advance c choice pc = some (s', pc')) : Act s c choice pc s' pc' := by
  unfold Shared.advance at h
  split at h
  · exact proceed_act ‹_› h
  · obtain ⟨r, hr, h⟩ := Option.map_eq_some_iff.mp h
    obtain ⟨rfl, rfl⟩ := Prod.mk.inj h
    unfold Hands.step at hr
    split at hr
    · obtain rfl := Option.some.inj hr; exact .inserted ‹_›
    · simp at hr
    · split at hr
      · split at hr
        · obtain rfl := Option.some.inj hr
          exact .awaited (Hands.ext ‹_› ‹_› ‹_›) ‹_›
        · simp at hr
      · obtain rfl := Option.some.inj hr
        exact .signalled (Hands.ext ‹_› ‹_› (Bool.eq_false_of_not_eq_true ‹_›))

/-- The call that takes the step, and what the outside decides. -/
def Label.call : Label → Option (CallId × Choice)
  | .begin c _ choice | .advance c choice => some (c, choice)
  | .taskEnds _ => none

/-- A step is a step of one call, or the end of a task that was told to shut down. -/
theorem step_cases {w w' : World} {l : Label} (h : step w l = some w') :
    (∃ c choice s' pc', l.call = some (c, choice) ∧ Act w.shared c choice (w.calls c) s' pc' ∧
      w' = ⟨s', Function.update w.calls c pc'⟩) ∨
    ∃ h, l = .taskEnds h ∧ w.shared.server.statusOf h = some .signalled ∧
      w' = { w with shared := w.shared.onServer (w.shared.server.setStatus h .terminated) } := by
  cases l with
  | begin c call choice =>
      simp only [step] at h
      split at h
      · rename_i hidle
        obtain rfl := Option.some.inj h
        exact .inl ⟨c, choice, _, _, rfl, hidle ▸ begin_act _ _ _ _, rfl⟩
      · simp at h
  | advance c choice =>
      obtain ⟨r, hr, h⟩ := Option.map_eq_some_iff.mp h
      exact .inl ⟨c, choice, _, _, rfl, advance_act hr, h.symm⟩
  | taskEnds t =>
      simp only [step] at h
      split at h
      · obtain rfl := Option.some.inj h; exact .inr ⟨t, rfl, ‹_›, rfl⟩
      · simp at h

end NeemataProxy
