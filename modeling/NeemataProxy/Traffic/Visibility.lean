import NeemataProxy.Proxy.Lemmas.Release
import NeemataProxy.Proxy.Membership
import NeemataProxy.Traffic.Connections

/-!
# What requests see of updates

An update has reached the requests by the time its promise resolves: those that arrive later no longer go to an upstream that
has been removed, and find one that has been added.
-/

namespace NeemataProxy

open Lib Routing Options

/-- From the record of call `c` on, all updates that have taken effect on the upstream of `req` are of its kind. -/
def Stands (c : CallId) (req : UpdateRequest) (history : List UpdateRecord) : Prop :=
  ∀ kind ∈ effective req.appName req.upstream (history.dropWhile (·.call ≠ c)), kind = req.kind

instance (c : CallId) (req : UpdateRequest) (history : List UpdateRecord) : Decidable (Stands c req history) :=
  inferInstanceAs (Decidable (∀ kind ∈ effective req.appName req.upstream (history.dropWhile (·.call ≠ c)), kind = req.kind))

variable {parsed : ProxyOptionsParsed} {hash : AffinityMapKey → UInt64} {t t' : Traffic} {w w' : World} {c : CallId}
  {req : UpdateRequest} {history later : List UpdateRecord} {r : UpdateRecord}

/-! ## Records -/

theorem effective_cons_self (hresult : r.result = .ok ()) (later : List UpdateRecord) :
    effective r.request.appName r.request.upstream (r :: later) =
      r.request.kind :: effective r.request.appName r.request.upstream later := by
  simp [effective, hresult]

/-- The records from the one of a call on. -/
theorem dropWhile_call {before after : List UpdateRecord} (honce : ((before ++ r :: after).map UpdateRecord.call).Nodup) :
    (before ++ r :: after).dropWhile (·.call ≠ r.call) = r :: after := by
  rw [List.map_append, List.map_cons] at honce
  have hne : ∀ r' ∈ before, decide (r'.call ≠ r.call) = true := fun r' hr' => by
    have hdisjoint := (List.nodup_append.mp honce).2.2 _ (List.mem_map_of_mem hr') _ List.mem_cons_self
    exact decide_eq_true hdisjoint
  rw [List.dropWhile_append_of_pos hne]
  simp

/-- Kinds that take turns and are all the same are at most one. -/
theorem eq_nil_of_isChain {kind : UpdateKind} {kinds : List UpdateKind} (hchain : (kind :: kinds).IsChain (· ≠ ·))
    (hsame : ∀ k ∈ kinds, k = kind) : kinds = [] := by
  cases kinds with
  | nil => rfl
  | cons k rest => exact absurd (hsame k List.mem_cons_self).symm (List.isChain_cons_cons.mp hchain).1

/-- An update that stands says whether its upstream is there. -/
theorem has_of_stands {present : Prop} (honce : ((history ++ later).map UpdateRecord.call).Nodup) (hr : r ∈ history)
    (hresult : r.result = .ok ()) (hstands : Stands r.call r.request (history ++ later))
    (hturns : TakeTurns (effective r.request.appName r.request.upstream history) present) :
    present ↔ r.request.kind = .add := by
  obtain ⟨before, after, rfl⟩ := List.append_of_mem hr
  rw [List.append_assoc, List.cons_append] at honce
  rw [Stands, List.append_assoc, List.cons_append, dropWhile_call honce, effective_cons_self hresult, effective_append] at hstands
  rw [effective_append, effective_cons_self hresult] at hturns
  -- nothing but the update itself has taken effect
  have hafter : effective r.request.appName r.request.upstream after = [] :=
    eq_nil_of_isChain (List.isChain_append.mp hturns.alternate).2.1 fun kind hkind =>
      hstands kind (List.mem_cons_of_mem _ (List.mem_append_left _ hkind))
  have hlast := hturns.last
  rw [hafter, List.getLast?_concat, Option.some.injEq] at hlast
  exact hlast.symm

/-! ## Calls among requests -/

/-- The call is in flight with its request, or it has ended with the result on record. -/
def World.Tracks (w : World) (c : CallId) (req : UpdateRequest) : Prop :=
  (w.calls c).stage.request = some req ∨
    ∃ result env order, w.calls c = .done result ∧ ⟨c, req, env, order, result⟩ ∈ w.shared.history

theorem World.Tracks.step {c₀ : Catalog} {l : Label} (h : w.Tracks c req) (hled : Ledgered c₀ w)
    (hstep : NeemataProxy.step w l = some w') : w'.Tracks c req := by
  have hrun : Reach NeemataProxy.Steps Free w w' := .tail .refl trivial hstep
  rcases h with hreq | ⟨result, env, order, hdone, hmem⟩
  · exact request_or_done_of_reach hled hrun hreq
  · obtain ⟨later, hlater⟩ := history_of_reach hrun
    refine .inr ⟨result, env, order, ?_, hlater ▸ List.mem_append_left later hmem⟩
    rcases step_cases hstep with ⟨c', choice, s', pc', -, hact, rfl⟩ | ⟨task, -, -, rfl⟩
    · by_cases hc : c = c'
      · subst hc
        exact absurd (hdone ▸ hact) not_act_done
      · exact (Function.update_of_ne hc _ _).trans hdone
    · exact hdone

theorem Traffic.Sound.tracks (hsound : t.Sound parsed) (htracks : t.world.Tracks c req)
    (hrun : Reach (Traffic.Steps hash) Traffic.Selects t t') : t'.world.Tracks c req := by
  induction hrun with
  | refl => exact htracks
  | tail hrun _ hstep ih =>
      rcases Traffic.step_cases hash hstep with ⟨l, w, -, hw, rfl⟩ | ⟨r, router, req', -, rfl⟩
      · exact ih.step (hsound.reach hrun).ledgered hw
      · exact ih

theorem Traffic.history_of_reach {allow : Traffic → TrafficLabel → Prop} (hrun : Reach (Traffic.Steps hash) allow t t') :
    ∃ later, t'.world.shared.history = t.world.shared.history ++ later := by
  induction hrun with
  | refl => exact ⟨[], (List.append_nil _).symm⟩
  | tail _ _ hstep ih =>
      rcases Traffic.step_cases hash hstep with ⟨l, w, -, hw, rfl⟩ | ⟨r, router, req', -, rfl⟩
      · obtain ⟨later, hlater⟩ := ih
        obtain ⟨later', hlater'⟩ := NeemataProxy.history_of_reach (.tail .refl trivial hw)
        exact ⟨later ++ later', by rw [hlater', hlater, List.append_assoc]⟩
      · exact ih

/-- A call that has returned has its record. -/
theorem Traffic.Sound.recorded (hsound : t.Sound parsed) (hreq : (t.world.calls c).stage.request = some req)
    (hrun : Reach (Traffic.Steps hash) Traffic.Selects t t') {result : Except JsError Unit}
    (hdone : t'.world.calls c = .done result) : ∃ env order, ⟨c, req, env, order, result⟩ ∈ t'.world.shared.history := by
  rcases hsound.tracks (.inl hreq) hrun with hreq' | ⟨result', env, order, hdone', hmem⟩
  · rw [hdone] at hreq'
    cases hreq'
  · obtain rfl := Pc.done.inj (hdone.symm.trans hdone')
    exact ⟨env, order, hmem⟩

/-- While an update stands its upstream is there, or is not there, in every state. -/
theorem Traffic.Sound.has (hsound : t.Sound parsed) {env : Except Str RebuildEnv} {order : IterOrder (TransportKind × PoolConfig)}
    (hmem : ⟨c, req, env, order, .ok ()⟩ ∈ t.world.shared.history) (hrun : Reach (Traffic.Steps hash) Traffic.Selects t t')
    {t'' : Traffic} (hafter : Reach (Traffic.Steps hash) Traffic.Selects t' t'') (hstands : Stands c req t''.world.shared.history) :
    t'.world.shared.catalog.Has req.appName req.upstream ↔ req.kind = .add := by
  have hsound' := hsound.reach hrun
  have honce : (t''.world.shared.history.map UpdateRecord.call).Nodup := (hsound'.reach hafter).ledgered.once
  obtain ⟨since, hsince⟩ := Traffic.history_of_reach hrun
  obtain ⟨later, hlater⟩ := Traffic.history_of_reach hafter
  rw [hlater] at honce hstands
  exact has_of_stands honce (hsince ▸ List.mem_append_left since hmem) rfl hstands
    (hsound'.ledgered.turns hsound'.options _ _)

/-! ## Requests -/

/-- Where there is an upstream that can serve the request, there is one of the transport that the request asks for. -/
theorem exists_asked {current : Set PortUpstream} {u : PortUpstream} (hu : u ∈ current) {isUpgrade : Bool}
    (htransport : u.transport = .ws ↔ isUpgrade = true) : ∃ u' ∈ current, u'.transport = askedTransport current isUpgrade := by
  unfold askedTransport
  split
  · exact ⟨u, hu, htransport.mpr ‹_›⟩
  · rename_i hplain
    split
    · assumption
    · rename_i hhttp2
      refine ⟨u, hu, ?_⟩
      cases ht : u.transport with
      | http1 => rfl
      | http2 => exact absurd ⟨u, hu, ht⟩ hhttp2
      | ws => exact absurd (htransport.mp ht) hplain

theorem arriving_of_step {r : RequestId} {now : Nat} {session : Session}
    (hstep : Traffic.Steps hash t (.requestFilter r now session) t') : (t.requests r).phase = .arriving := by
  simp only [Traffic.Steps, Traffic.step] at hstep
  split at hstep
  · assumption
  · cases hstep

def upstreamOn (port : Nat) : PortUpstream := ⟨.http1, false, Str.lit "127.0.0.1", port⟩

end NeemataProxy
