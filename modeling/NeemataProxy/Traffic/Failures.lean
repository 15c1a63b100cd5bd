import NeemataProxy.Router.Failure
import NeemataProxy.Traffic.Lemmas.Sound
import NeemataProxy.Traffic.Runs

/-!
# Requests that fail behind `request_filter`

`fail_to_proxy` prefers the failure hint in the context to the error. In no run is there a hint from an earlier try, and the
hint of a missing pool is never set behind `request_filter`.
-/

namespace NeemataProxy

open Lib Routing Options

/-- The error with which a step of a request behind `request_filter` ends, and the context that `fail_to_proxy` gets then. -/
def Traffic.failure (hash : AffinityMapKey → UInt64) (t : Traffic) : TrafficLabel → Option (RouterCtx × Abort)
  | .lookup r now ord =>
      let l := upstreamPeerLookup hash ord now t.router (t.requests r).ctx
      match l.2.2 with
      | .failed a => some (l.2.1, a)
      | .mapped _ _ | .select _ => none
  | .select r selected =>
      let s := upstreamPeerSelect (t.requests r).ctx selected
      match s.2 with
      | .error a => some (s.1, a)
      | .ok _ => none
  | .failToConnect r e =>
      let f := failToConnect hash t.router (t.requests r).ctx e
      if f.2.2.retry then none else some (f.2.1, .error f.2.2)
  | _ => none

variable {parsed : ProxyOptionsParsed} {hash : AffinityMapKey → UInt64} {t t' : Traffic} {r : RequestId} {l : TrafficLabel}
  {router : Router} {req : Request}

/-! ## No stale hints -/

/-- A request that goes on has no failure hint. -/
def Request.Unhinted (req : Request) : Prop :=
  match req.phase with
  | .ended => True
  | _ => req.ctx.failureHint = none

theorem hint_assigned (now : Nat) (router : Router) (session : Session) (route : ResolvedRoute) :
    (assigned now router session route .default).2.failureHint = none := by
  have hroute : (assignRoute router.config route session.isUpgradeReq .default).failureHint = none := by
    unfold assignRoute
    simp only
    split
    · split <;> rfl
    · rfl
  unfold assigned assignAffinity
  split <;> exact hroute

theorem unhinted_filter (t : Traffic) (now : Nat) (session : Session) : (t.filterStep now session).2.Unhinted := by
  unfold Request.Unhinted
  split
  · trivial
  · rename_i hphase
    have hok : (requestFilter now t.router session .default).2.2.2 = .ok false := by
      simp only [Traffic.filterStep] at hphase
      split at hphase
      · assumption
      · exact absurd rfl hphase
    rcases requestFilter_cases (Prod.eta _).symm with ⟨-, -, hne⟩ | ⟨host, route, -, -, -, hcheck⟩
    · exact absurd hok hne
    · have hctx : ((requestFilter now t.router session .default).2.2.1, .ok false) = checkPool t.router.config
          (assigned now t.router session route .default).2 := by rw [← hcheck]; exact Prod.ext rfl hok.symm
      obtain ⟨resolved, -, hctx⟩ := checkPool_ok hctx
      exact (congrArg RouterCtx.failureHint hctx).trans (hint_assigned now t.router session route)

theorem hint_failToConnect (router : Router) (ctx : RouterCtx) (e : Error) :
    (failToConnect hash router ctx e).2.1.failureHint = ctx.failureHint := by
  unfold failToConnect
  split
  · split <;> rfl
  · rfl

/-- The lookup of a request that has a pool leaves its context alone and does not fail. -/
theorem lookup_of_pool {now : Nat} {ord : IterOrder (AffinityMapKey × AffinityEntry)} {ctx : RouterCtx} {resolved : ResolvedPool}
    (h : ctx.resolvedPool = some resolved) : (upstreamPeerLookup hash ord now router ctx).2.1 = ctx ∧
      ∀ a, (upstreamPeerLookup hash ord now router ctx).2.2 ≠ .failed a := by
  simp only [upstreamPeerLookup, h]
  split
  · refine ⟨rfl, fun a hfailed => ?_⟩
    dsimp only at hfailed
    split at hfailed <;> cases hfailed
  · exact ⟨rfl, fun a hfailed => by cases hfailed⟩

/-- Behind `request_filter` a request has a pool. -/
theorem Request.Sound.pool (h : req.Sound parsed) (hphase : req.phase = .upstreamPeer) :
    ∃ resolved, req.ctx.resolvedPool = some resolved := by
  simp only [Request.Sound, hphase] at h
  obtain ⟨resolved, hrouted⟩ := h
  exact ⟨resolved, hrouted.pool⟩

theorem Request.Unhinted.hint (h : req.Unhinted) (hphase : req.phase ≠ .ended) : req.ctx.failureHint = none := by
  unfold Request.Unhinted at h
  split at h
  · exact absurd ‹_› hphase
  · exact h

theorem Request.Unhinted.of_hint (h : req.ctx.failureHint = none) : req.Unhinted := by
  unfold Request.Unhinted
  split
  · trivial
  · exact h

theorem unhinted_act (h : (t.requests r).Unhinted) (hsound : (t.requests r).Sound parsed)
    (hact : Traffic.Act hash t r l router req) : req.Unhinted := by
  cases hact with
  | filtered now session => exact unhinted_filter t now session
  | lookedUp now ord hphase =>
      obtain ⟨resolved, hpool⟩ := hsound.pool hphase
      refine .of_hint ?_
      exact (congrArg RouterCtx.failureHint (lookup_of_pool hpool).1).trans (h.hint (by rw [hphase]; exact nofun))
  | selected selected hphase =>
      cases selected with
      | none => trivial
      | some addr => exact .of_hint (h.hint (by rw [hphase]; exact nofun))
  | bound now ord hphase => exact .of_hint (h.hint (by rw [hphase]; exact nofun))
  | failed e hphase =>
      exact .of_hint ((hint_failToConnect t.router (t.requests r).ctx e).trans (h.hint (by rw [hphase]; exact nofun)))
  | retried hphase => exact .of_hint (h.hint (by rw [hphase]; exact nofun))

theorem unhinted_of_reach (hrun : Reach (Traffic.Steps hash) Traffic.Selects (.new parsed) t) (r : RequestId) :
    (t.requests r).Unhinted := by
  have hnew : Request.new.Unhinted := rfl
  refine requests_of_reach hnew (fun t r l router req hrun _ hact h => ?_) hrun r
  exact unhinted_act h (((Traffic.Sound.new parsed).reach hrun).requests r) hact

/-! ## What is answered -/

theorem failToConnect_error (router : Router) (ctx : RouterCtx) (e : Error)
    (h : (failToConnect hash router ctx e).2.2.retry = false) : (failToConnect hash router ctx e).2.2 = e := by
  unfold failToConnect at h ⊢
  split
  · rename_i htarget htransport
    simp only [htarget, htransport] at h
    split
    · rfl
    · rename_i hattempted
      rw [if_neg hattempted] at h
      cases h
  · rfl

/-- A request that has been routed fails in two ways only: its balancer has no healthy upstream, and the answer is 503, or it
cannot connect and is not let try again, and the answer goes by that error alone. -/
inductive FailsWith : TrafficLabel → Error → Nat → Prop where
  | unhealthy (r : RequestId) (e : Error) : FailsWith (.select r none) e 503
  | unconnected (r : RequestId) (e : Error) : FailsWith (.failToConnect r e) e (failureCode none e)

theorem failsWith_of_reach (hrun : Reach (Traffic.Steps hash) Traffic.Selects (.new parsed) t)
    (hstep : t.step hash l = some t') {ctx : RouterCtx} {a : Abort} (hfailure : t.failure hash l = some (ctx, a)) :
    ∃ e, a = .error e ∧ FailsWith l e (failureCode ctx.failureHint e) := by
  have hsound := (Traffic.Sound.new parsed).reach hrun
  rcases Traffic.step_cases hash hstep with ⟨pl, w, rfl, -, -⟩ | ⟨r, router, req, hact, -⟩
  · cases hfailure
  · cases hact with
    | filtered | bound | retried => cases hfailure
    | lookedUp now ord hphase =>
        obtain ⟨resolved, hpool⟩ := (hsound.requests r).pool hphase
        simp only [Traffic.failure] at hfailure
        split at hfailure
        · rename_i hfailed
          exact absurd hfailed ((lookup_of_pool hpool).2 _)
        all_goals cases hfailure
    | selected selected =>
        cases selected with
        | none =>
            obtain ⟨rfl, rfl⟩ := Prod.mk.inj (Option.some.inj hfailure)
            exact ⟨_, rfl, .unhealthy r _⟩
        | some addr => cases hfailure
    | failed e hphase =>
        have hhint := (unhinted_of_reach hrun r).hint (by rw [hphase]; exact nofun)
        simp only [Traffic.failure] at hfailure
        split at hfailure
        · cases hfailure
        · rename_i hretry
          obtain ⟨rfl, rfl⟩ := Prod.mk.inj (Option.some.inj hfailure)
          refine ⟨_, rfl, ?_⟩
          rw [hint_failToConnect, hhint, failToConnect_error _ _ _ (Bool.eq_false_of_not_eq_true hretry)]
          exact .unconnected r e

end NeemataProxy
