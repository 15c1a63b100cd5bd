import NeemataProxy.Proxy.Lemmas.Locality

/-!
# How far an update reaches

A rebuild makes new pools for all transports of its application. So an update leaves other applications alone, but replaces the
pools of the other transports of its own application together with their health tasks.
-/

namespace NeemataProxy

open Lib Options

/-- Call `c` takes the step. -/
def StepOf (c : CallId) (w : World) (l : Label) (w' : World) : Prop := Steps w l w' ∧ ∃ choice, l.call = some (c, choice)

/-- What the successful update of call `c` does between `w`, where it waits for its turn, and `w'`, where it has ended. -/
structure UpdatedLocally (c : CallId) (req : UpdateRequest) (w w' : World) : Prop where
  keeps : ∀ v l v', Reach Steps Free w v → StepOf c v l v' → LocalTo req.appName v v'
  /-- One step renews the pools, and no other step of the update touches one. -/
  renewed : ∃ w₁ l w₂ env order current, Reach Steps Free w w₁ ∧ StepOf c w₁ l w₂ ∧ Reach Steps Free w₂ w' ∧
    w₂.shared.history = w₁.shared.history ++ [⟨c, req, .ok env, order, .ok ()⟩] ∧
    (∀ v l v', Reach Steps Free w v → StepOf c v l v' → Reach Steps Free v' w' →
      v'.shared.inner.pools = v.shared.inner.pools ∨ v'.shared.history = v.shared.history ++ [⟨c, req, .ok env, order, .ok ()⟩]) ∧
    w₁.shared.catalog.upstreams req.appName = some current ∧
    ∀ t, t ≠ req.upstream.transport →
      Renewed env (fun u => u ∈ current ∧ u.transport = t) (w₁.shared.inner.pools.get (req.appName, t))
        (w₂.shared.inner.pools.get (req.appName, t)) ∧
      -- while the proxy runs, each of the new pools gets a health task of its own
      (w₁.shared.inner.state = .running → ∀ pool, w₂.shared.inner.pools.get (req.appName, t) = some pool →
        ∃ w₃, Reach Steps Free w₂ w₃ ∧ Reach Steps Free w₃ w' ∧
          w₃.shared.server.Runs (lbServiceName req.appName t) pool.lb)

variable {w w' : World} {l : Label} {c : CallId} {req : UpdateRequest}

theorem StepOf.act (h : StepOf c w l w') : ∃ choice, Act w.shared c choice (w.calls c) w'.shared (w'.calls c) ∧
    w' = ⟨w'.shared, Function.update w.calls c (w'.calls c)⟩ := by
  obtain ⟨hstep, choice, hl⟩ := h
  rcases step_cases hstep with ⟨c', choice', s', pc', hl', hact, rfl⟩ | ⟨t, rfl, -, -⟩
  · obtain ⟨rfl, rfl⟩ := Prod.mk.inj (Option.some.inj (hl.symm.trans hl'))
    exact ⟨choice, by simpa using hact, by simp⟩
  · cases hl

theorem recorded_of_pools_ne {s s' : Shared} {choice : Choice} {pc pc' : Pc} (hact : Act s c choice pc s' pc')
    (hne : s'.inner.pools ≠ s.inner.pools) : ∃ req env order, s'.history = s.history ++ [⟨c, req, env, order, .ok ()⟩] := by
  rcases pools_act hact with hsame | ⟨req, next, env, rebuilt, rfl⟩
  · exact absurd hsame hne
  · cases hact with
    | inserted hhands | signalled hhands | awaited hhands => cases hhands
    | commitFailed => exact absurd rfl hne
    | committed env hcommit => exact ⟨_, _, _, rfl⟩

theorem exists_commit {c₀ : Catalog} (hled : Ledgered c₀ w) (hcall : w.calls c = .updateLock req) (hrun : Reach Steps Free w w')
    (hdone : w'.calls c = .done (.ok ())) : ∃ w₁ l w₂ env order, Reach Steps Free w w₁ ∧ StepOf c w₁ l w₂ ∧
      Reach Steps Free w₂ w' ∧ w₂.shared.history = w₁.shared.history ++ [⟨c, req, env, order, .ok ()⟩] := by
  have hfresh := hled.unrecorded (.inr ⟨_, hcall⟩)
  obtain ⟨env, order, hmem⟩ := completed_of_reach hled hrun (by rw [hcall]; rfl) hdone
  obtain ⟨w₁, l, w₂, hbefore, -, hstep, hafter, hhistory⟩ := exists_recording_step hrun (fun hin => hfresh _ hin rfl) hmem
  refine ⟨w₁, l, w₂, env, order, hbefore, ⟨hstep, ?_⟩, hafter, hhistory⟩
  rcases step_cases hstep with ⟨c', choice, s', pc', hl, hact, rfl⟩ | ⟨t, -, -, rfl⟩
  · obtain ⟨_, _, _, _, rfl, -⟩ := committed_of_recorded hact hhistory rfl
    exact ⟨choice, hl⟩
  · simp [Shared.onServer] at hhistory

/-- A call has one record, so it changes the pools once. -/
theorem pools_or_recorded {c₀ : Catalog} {v v' : World} {r : UpdateRecord} (hled' : Ledgered c₀ w') (hstep : StepOf c v l v')
    (hrest : Reach Steps Free v' w') (hmem : r ∈ w'.shared.history) (hcall : r.call = c) :
    v'.shared.inner.pools = v.shared.inner.pools ∨ v'.shared.history = v.shared.history ++ [r] := by
  obtain ⟨choice, hact, -⟩ := hstep.act
  refine Classical.or_iff_not_imp_left.mpr fun hne => ?_
  obtain ⟨req, env, order, happend⟩ := recorded_of_pools_ne hact hne
  obtain ⟨later, hlater⟩ := history_of_reach hrest
  have hmem' : (⟨c, req, env, order, .ok ()⟩ : UpdateRecord) ∈ w'.shared.history := by
    rw [hlater, happend]
    simp
  rw [happend, List.inj_on_of_nodup_map hled'.once hmem' hmem hcall.symm]

/-- An update that succeeds keeps to its application, but renews all pools of it. -/
theorem update_local {options : ProxyOptions} {w₀ : World} (hnew : Proxy.new options = .ok w₀) (hrun : Reach Steps Free w₀ w)
    (hcall : w.calls c = .updateLock req) (hrun' : Reach Steps Free w w') (hdone : w'.calls c = .done (.ok ())) :
    UpdatedLocally c req w w' := by
  obtain ⟨parsed, hparsed, rfl⟩ := proxy_new hnew
  have hled := (Ledgered.new parsed).reach hrun
  have hreq : (w.calls c).stage.request = some req := by
    rw [hcall]
    rfl
  refine ⟨fun v l v' hreach hstep => ?_, ?_⟩
  · obtain ⟨choice, hact, hv'⟩ := hstep.act
    rcases request_or_done_of_reach hled hreach hreq with hflight | ⟨result, -, -, hended, -⟩
    · have howned := ((Handled.new parsed).reach (hrun.trans hreach)).owned
      rw [hv']
      exact localTo_act howned (confined_of_reach (hrun.trans hreach) c) hact hflight
    · exact absurd (hended ▸ hact) not_act_done
  · obtain ⟨w₁, l, w₂, env, order, hbefore, hstep, hafter, hhistory⟩ := exists_commit hled hcall hrun' hdone
    have hoptions : w₁.shared.inner.options = parsed := (options_of_reach hbefore).trans (options_of_reach hrun)
    obtain ⟨choice, hact, -⟩ := hstep.act
    obtain ⟨next, rebuilt, catalog, services, -, hpc, hcommit, hpools, hpc'⟩ := committed_of_recorded hact hhistory rfl
    rw [hoptions] at hcommit
    have hverified := verified_of_reach parsed (hrun.trans hbefore)
    have hverified' := verified_of_reach parsed ((hrun.trans hbefore).tail trivial hstep.1)
    rw [hpools] at hverified'
    obtain ⟨env, current, rfl, hcurrent, hsiblings⟩ :=
      siblings_renewed (hled.reach hbefore) hoptions (distinct_of_parse hparsed).names hverified hverified' hpc hcommit
    have hmem : (⟨c, req, .ok env, order, .ok ()⟩ : UpdateRecord) ∈ w'.shared.history := by
      obtain ⟨later, hlater⟩ := history_of_reach hafter
      rw [hlater, hhistory]
      simp
    refine ⟨w₁, l, w₂, env, order, current, hbefore, hstep, hafter, hhistory,
      fun v l v' _ hstep hrest => pools_or_recorded (hled.reach hrun') hstep hrest hmem rfl, hcurrent, fun t ht => ?_⟩
    obtain ⟨hrenewed, hupsert⟩ := hsiblings t ht
    rw [hpools]
    refine ⟨hrenewed, fun hrunning pool hpool => runs_of_registers ?_ hafter hdone⟩
    rw [hpc', if_pos hrunning]
    exact .inl (hupsert pool hpool)

/-! ## A second transport -/

def sampleWebsocket : UpstreamOptions :=
  .port ⟨Str.lit "port", Str.lit "ws", false, Str.lit "127.0.0.1", 8080⟩

/-- The request to add it. -/
def sampleAddition : UpdateRequest := ⟨.add, Str.lit "app", ⟨.ws, false, Str.lit "127.0.0.1", 8080⟩⟩

/-- The proxy runs with one upstream, and call 2 is about to add one of another transport. -/
def additionRun : List Label :=
  begins 0 (.addUpstream (Str.lit "app") sampleUpstream) :: steps 0 5 ++ begins 1 .start :: steps 1 7 ++
    [begins 2 (.addUpstream (Str.lit "app") sampleWebsocket)]

/-- The call commits, registers two health tasks and waits for the task that it has replaced. -/
def additionEnd : List Label := steps 2 9 ++ .taskEnds 0 :: steps 2 2

theorem update_local_sample :
    ∃ w w', Reach Steps Free (World.new sampleParsed) w ∧ w.shared.inner.state = .running ∧ Reach Steps Free w w' ∧
      w'.calls 2 = .done (.ok ()) ∧ UpdatedLocally 2 sampleAddition w w' := by
  obtain ⟨w, hrun, -, hcheck⟩ := reach_of_check Free Free additionRun sampleParsed 3
    (fun w => (w.calls 2).waitsFor sampleAddition && w.shared.inner.state == .running &&
      (runAllowed step Free w additionEnd).any fun w' => (w'.calls 2).resolved)
    (fun _ _ _ => id) (by decide) (by decide +kernel)
  simp only [Bool.and_eq_true, beq_iff_eq] at hcheck
  obtain ⟨⟨hcall, hrunning⟩, hany⟩ := hcheck
  obtain ⟨w', hrun', hdone⟩ := Reach.exists_of_any hany
  have hdone := Pc.resolved_iff.mp hdone
  exact ⟨w, w', hrun, hrunning, hrun', hdone, update_local sample_new hrun (waitsFor_iff.mp hcall) hrun' hdone⟩

instance (c : CallId) (w : World) (l : Label) : Decidable (Own c w l) :=
  match l with
  | .begin _ _ _ => isFalse id
  | .advance c' _ => inferInstanceAs (Decidable (c' = c))
  | .taskEnds _ => isTrue trivial

/-- The pool of the first transport has another balancer and another health task after that. -/
theorem sibling_pool_replaced :
    ∃ w w' old new, Proxy.new sampleOptions = .ok (World.new sampleParsed) ∧ Reach Steps Free (World.new sampleParsed) w ∧
      w.calls 2 = .updateLock sampleAddition ∧ Reach Steps (Own 2) w w' ∧ w'.calls 2 = .done (.ok ()) ∧
      TransportKind.http1 ≠ sampleAddition.upstream.transport ∧
      w.shared.inner.pools.get (Str.lit "app", .http1) = some old ∧ w'.shared.inner.pools.get (Str.lit "app", .http1) = some new ∧
      new.lb ≠ old.lb ∧ w'.shared.server.services.get (lbServiceName (Str.lit "app") .http1) ≠
        w.shared.server.services.get (lbServiceName (Str.lit "app") .http1) := by
  obtain ⟨w, hrun, -, hcheck⟩ := reach_of_check Free Free additionRun sampleParsed 3
    (fun w => (w.calls 2).waitsFor sampleAddition && (runAllowed step (Own 2) w additionEnd).any fun w' =>
      (w'.calls 2).resolved && ((w.shared.inner.pools.get (Str.lit "app", .http1)).any fun old =>
        (w'.shared.inner.pools.get (Str.lit "app", .http1)).any fun new => new.lb.id != old.lb.id) &&
      w'.shared.server.services.get (lbServiceName (Str.lit "app") .http1) !=
        w.shared.server.services.get (lbServiceName (Str.lit "app") .http1))
    (fun _ _ _ => id) (by decide) (by decide +kernel)
  rw [Bool.and_eq_true] at hcheck
  obtain ⟨w', hrun', hends⟩ := Reach.exists_of_any hcheck.2
  simp only [Bool.and_eq_true, bne_iff_ne] at hends
  obtain ⟨⟨hdone, hpools⟩, htask⟩ := hends
  obtain ⟨old, hold, hpools⟩ := (Option.any_eq_true _ _).mp hpools
  obtain ⟨new, hnew, hid⟩ := (Option.any_eq_true _ _).mp hpools
  refine ⟨w, w', old, new, sample_new, hrun, waitsFor_iff.mp hcheck.1, hrun', Pc.resolved_iff.mp hdone,
    by decide, hold, hnew, fun heq => ?_, htask⟩
  exact absurd (congrArg LoadBalancer.id heq) (bne_iff_ne.mp hid)

end NeemataProxy
