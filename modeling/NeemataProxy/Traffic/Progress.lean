import NeemataProxy.Proxy.Progress
import NeemataProxy.Traffic.Runs

/-!
# Every request comes to a peer or to its end

Calls and requests share the proxy, and neither can hold the other up. A connect failure lets a request try again once, so that
no request goes round for ever.
-/

namespace NeemataProxy

open Lib Routing Options

variable {hash : AffinityMapKey → UInt64} {t t' : Traffic} {r : RequestId} {l : TrafficLabel} {router : Router} {req : Request}

def Traffic.Completes (t : Traffic) : TrafficLabel → Prop
  | .proxy l => SetupCompletes t.world l
  | _ => True

instance (t : Traffic) : (l : TrafficLabel) → Decidable (t.Completes l)
  | .proxy l => inferInstanceAs (Decidable (SetupCompletes t.world l))
  | .requestFilter _ _ _ | .lookup _ _ _ | .select _ _ | .bind _ _ _ | .failToConnect _ _ | .retry _ => isTrue trivial

/-- No new call begins and no new request arrives; the setup tasks complete, and no error lets a request try again by itself. -/
def Traffic.Settling (t : Traffic) : TrafficLabel → Prop
  | .proxy l => NeemataProxy.Settling t.world l
  | .requestFilter _ _ _ | .retry _ => False
  | .lookup _ _ _ | .select _ _ | .bind _ _ _ => True
  | .failToConnect _ e => e.retry = false

/-! ## The rank of a request -/

def Phase.rank : Phase → Nat
  | .arriving | .ended => 0
  | .connect _ => 1
  | .bind _ _ => 2
  | .select _ => 3
  | .upstreamPeer => 4

/-- The steps that a retry which is still to come gives a request. -/
def retrySteps (attempted : Bool) : Nat := if attempted then 0 else 4

def Request.rank (req : Request) : Nat := req.phase.rank + retrySteps req.ctx.stickyRetryAttempted

theorem attempted_lookup (t : Traffic) (r : RequestId) (now : Nat) (ord : IterOrder (AffinityMapKey × AffinityEntry)) :
    (t.lookupStep hash (t.requests r) now ord).2.ctx.stickyRetryAttempted = (t.requests r).ctx.stickyRetryAttempted := by
  simp only [Traffic.lookupStep, upstreamPeerLookup]
  split
  · rfl
  · split <;> rfl

theorem rank_lookup (t : Traffic) (r : RequestId) (now : Nat) (ord : IterOrder (AffinityMapKey × AffinityEntry)) :
    (t.lookupStep hash (t.requests r) now ord).2.phase.rank < 4 := by
  simp only [Traffic.lookupStep]
  split <;> simp [Phase.rank]

/-- A connect failure leaves it at the first failure, or lets a request try again for the only time. -/
theorem failToConnect_cases (router : Router) (ctx : RouterCtx) {e : Error} (he : e.retry = false) :
    ((failToConnect hash router ctx e).2.2.retry = false ∧ (failToConnect hash router ctx e).2.1 = ctx) ∨
      ((failToConnect hash router ctx e).2.2.retry = true ∧ ctx.stickyRetryAttempted = false ∧
        (failToConnect hash router ctx e).2.1.stickyRetryAttempted = true) := by
  unfold failToConnect
  split
  · split
    · exact .inl ⟨he, rfl⟩
    · rename_i hattempted
      exact .inr ⟨rfl, Bool.eq_false_of_not_eq_true hattempted, rfl⟩
  · exact .inl ⟨he, rfl⟩

theorem rank_act (hact : Traffic.Act hash t r l router req) (hsettling : t.Settling l) : req.rank < (t.requests r).rank := by
  cases hact with
  | filtered | retried => exact hsettling.elim
  | lookedUp now ord hphase =>
      simp only [Request.rank, hphase, attempted_lookup]
      exact Nat.add_lt_add_right (rank_lookup t r now ord) _
  | selected selected hphase =>
      simp only [Request.rank, hphase]
      cases selected with
      | none => exact Nat.add_lt_add_right (Nat.zero_lt_succ 2) _
      | some addr => exact Nat.add_lt_add_right (Nat.lt_succ_self 2) _
  | bound now ord hphase =>
      simp only [Request.rank, hphase]
      exact Nat.add_lt_add_right Nat.one_lt_two _
  | failed e hphase =>
      simp only [Request.rank, hphase, Traffic.failStep]
      rcases failToConnect_cases t.router (t.requests r).ctx hsettling with ⟨hretry, hkept⟩ | ⟨hretry, hbefore, hafter⟩
      · rw [hretry, hkept]
        exact Nat.add_lt_add_right Nat.zero_lt_one _
      · rw [hretry, hbefore, hafter]
        exact Nat.lt_succ_self 4

/-! ## Calls and requests -/

/-- Calls see nothing of what requests do to the router. -/
theorem Reliable.set (h : Reliable t.world) (r : RequestId) (router : Router) (req : Request) :
    Reliable (t.set r router req).world where
  numbered := ⟨h.numbered.1, h.numbered.2⟩
  waiting := ⟨h.waiting.starts, h.waiting.stops, h.waiting.owned⟩
  handled := ⟨h.handled.owned, h.handled.sent⟩
  opened := h.opened
  locked := h.locked

structure Traffic.Reliable (t : Traffic) : Prop where
  calls : NeemataProxy.Reliable t.world
  notified : t.world.shared.inner.Notified

theorem Traffic.Reliable.step (h : t.Reliable) (hcompletes : t.Completes l) (hstep : t.step hash l = some t') : t'.Reliable := by
  rcases Traffic.step_cases hash hstep with ⟨pl, w, rfl, hw, rfl⟩ | ⟨r, router, req, hact, rfl⟩
  · exact ⟨h.calls.step hcompletes hw, notified_step h.notified hw⟩
  · exact ⟨h.calls.set r router req, h.notified⟩

theorem Traffic.Reliable.new (parsed : ProxyOptionsParsed) : (Traffic.new parsed).Reliable := ⟨.new parsed, notified_new parsed⟩

/-- The calls from `n` on have not begun, and the requests from `m` on have not arrived. -/
structure Traffic.Bounded (n m : Nat) (t : Traffic) : Prop where
  calls : t.world.Bounded n
  requests : ∀ r, m ≤ r → (t.requests r).phase = .arriving

theorem Traffic.exists_bounded {parsed : ProxyOptionsParsed} {allow : Traffic → TrafficLabel → Prop}
    (hrun : Reach (Traffic.Steps hash) allow (.new parsed) t) : ∃ n m, t.Bounded n m := by
  refine hrun.invariant (P := fun t => ∃ n m, Traffic.Bounded n m t) ⟨0, 0, fun _ _ => rfl, fun _ _ => rfl⟩ ?_
  rintro t l t' ⟨n, m, hbounded⟩ - hstep
  rcases Traffic.step_cases hash hstep with ⟨pl, w, -, hw, rfl⟩ | ⟨r, router, req, -, rfl⟩
  · obtain ⟨n', hn'⟩ := bounded_step hbounded.calls hw
    exact ⟨n', m, hn', hbounded.requests⟩
  · refine ⟨n, max m (r + 1), hbounded.calls, fun r' hr' => ?_⟩
    have hne : r' ≠ r := by omega
    simpa [Traffic.set, hne] using hbounded.requests r' (le_of_max_le_left hr')

def Traffic.work (n m : Nat) (t : Traffic) : Nat := t.world.work n + ∑ r ∈ Finset.range m, (t.requests r).rank

theorem Traffic.work_step {n m : Nat} (hbounded : t.Bounded n m) (hsettling : t.Settling l) (hstep : t.step hash l = some t') :
    t'.Bounded n m ∧ t'.work n m < t.work n m := by
  rcases Traffic.step_cases hash hstep with ⟨pl, w, rfl, hw, rfl⟩ | ⟨r, router, req, hact, rfl⟩
  · obtain ⟨hcalls, hlt⟩ := NeemataProxy.work_step hbounded.calls hsettling.1 hw
    exact ⟨⟨hcalls, hbounded.requests⟩, Nat.add_lt_add_right hlt _⟩
  · have hrank := rank_act hact hsettling
    have hphase : (t.requests r).phase ≠ .arriving := fun harriving => by
      cases hact with
      | filtered => exact hsettling
      | lookedUp _ _ hphase | selected _ hphase | bound _ _ hphase | failed _ hphase | retried hphase =>
          cases hphase.symm.trans harriving
    have hr : r < m := Nat.lt_of_not_le fun hle => hphase (hbounded.requests r hle)
    refine ⟨⟨hbounded.calls, fun r' hr' => ?_⟩, ?_⟩
    · have hne : r' ≠ r := fun heq => Nat.not_le_of_lt hr (heq ▸ hr')
      exact (congrArg Request.phase (Function.update_of_ne hne req t.requests)).trans (hbounded.requests r' hr')
    · have hsum := sum_rank_update (P := Nat) Request.rank t.requests (Finset.mem_range.mpr hr) req
      refine Nat.add_lt_add_left ?_ _
      simp only [Traffic.set]
      omega

/-! ## Rest -/

/-- The request has not arrived, has a peer or has ended. -/
def Phase.rests : Phase → Bool
  | .arriving | .connect _ | .ended => true
  | .upstreamPeer | .select _ | .bind _ _ => false

structure Traffic.AtRest (t : Traffic) : Prop where
  calls : t.world.Resting
  requests : ∀ r, (t.requests r).phase.rests = true

theorem exists_step_of_request (h : (t.requests r).phase.rests = false) :
    ∃ l t', t.Settling l ∧ t.step hash l = some t' := by
  cases hphase : (t.requests r).phase with
  | upstreamPeer => exact ⟨.lookup r 0 .stored, _, trivial, by rw [Traffic.step, hphase]⟩
  | select resolved => exact ⟨.select r none, _, trivial, by rw [Traffic.step, hphase]⟩
  | bind resolved selected => exact ⟨.bind r 0 .stored, _, trivial, by rw [Traffic.step, hphase]⟩
  | arriving | connect | ended =>
      rw [hphase] at h
      cases h

theorem Traffic.Reliable.move (h : t.Reliable) (hrest : ¬ t.AtRest) : ∃ l t', t.Settling l ∧ t.step hash l = some t' := by
  by_cases hrequests : ∀ r, (t.requests r).phase.rests = true
  · by_cases hquiet : t.world.Quiescent
    · exact absurd ⟨h.calls.resting h.notified hquiet, hrequests⟩ hrest
    · obtain ⟨c, hc⟩ := not_forall.mp hquiet
      obtain ⟨l, w, hsettling, hstep⟩ := h.calls.move (Bool.eq_false_of_not_eq_true hc)
      have hw : NeemataProxy.step t.world l = some w := hstep
      exact ⟨.proxy l, _, hsettling, by rw [Traffic.step, hw]; rfl⟩
  · obtain ⟨r, hr⟩ := not_forall.mp hrequests
    exact exists_step_of_request (Bool.eq_false_of_not_eq_true hr)

theorem completes_of_settling (h : t.Settling l) : t.Completes l := by
  cases l with
  | proxy l => exact h.2
  | _ => trivial

/-- Whatever the order of steps, once no new call begins and no new request arrives, all calls end and every request has its
peer or its end. -/
theorem traffic_comes_to_rest (hash : AffinityMapKey → UInt64) {options : ProxyOptions} {w₀ : World}
    (hnew : Proxy.new options = .ok w₀) {t : Traffic}
    (hrun : Reach (Traffic.Steps hash) Traffic.Completes ⟨w₀, fun _ => .new⟩ t) :
    Inevitable (Traffic.Steps hash) Traffic.Settling Traffic.AtRest t := by
  obtain ⟨parsed, -, rfl⟩ := proxy_new hnew
  have hreliable : t.Reliable := hrun.invariant (.new parsed) fun _ _ _ h hcompletes hstep => h.step hcompletes hstep
  obtain ⟨n, m, hbounded⟩ := Traffic.exists_bounded hrun
  refine Inevitable.of_rank (Traffic.work n m) (I := fun t => t.Reliable ∧ t.Bounded n m) ?_ ?_ ⟨hreliable, hbounded⟩
  · rintro t l t' ⟨hreliable, hbounded⟩ hsettling hstep
    obtain ⟨hbounded', hlt⟩ := Traffic.work_step hbounded hsettling hstep
    exact ⟨⟨hreliable.step (completes_of_settling hsettling) hstep, hbounded'⟩, hlt⟩
  · rintro t ⟨hreliable, -⟩ hrest
    exact hreliable.move hrest

/-- Two requests that look for peers while a start, a stop and an update are in flight. -/
theorem traffic_comes_to_rest_sample :
    ∃ t, Reach (Traffic.Steps sampleHash) Traffic.Completes ⟨World.new stickyParsed, fun _ => .new⟩ t ∧ ¬ t.AtRest ∧
      Inevitable (Traffic.Steps sampleHash) Traffic.Settling Traffic.AtRest t := by
  obtain ⟨t, hrun, hcheck⟩ := traffic_of_check sampleHash Traffic.Completes (.new stickyParsed)
    (addUpstreams [8080, 8081] ++ ([begins 2 .start, begins 3 .stop,
      begins 4 (.removeUpstream (Str.lit "app") (upstreamAt 8080))].map TrafficLabel.proxy) ++
      [.requestFilter 0 0 clientSession, .requestFilter 1 0 clientSession, .lookup 0 1 .stored])
    (fun t => !(t.requests 0).phase.rests) (by decide +kernel)
  refine ⟨t, hrun, fun hrest => ?_, traffic_comes_to_rest sampleHash sticky_new hrun⟩
  rw [hrest.requests 0] at hcheck
  cases hcheck

end NeemataProxy
