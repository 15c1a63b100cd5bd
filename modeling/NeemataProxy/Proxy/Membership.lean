import NeemataProxy.Proxy.UpdateTheorems

/-!
# Which upstreams are configured

The calls that take effect on one upstream of one application alternate, and the last of them says whether it is there.
Whatever JavaScript passes, only upstreams with a port and a hostname get that far.
-/

namespace NeemataProxy

open Lib Routing Options

/-- What `parse_port_upstream` guarantees. -/
structure PortUpstream.Valid (u : PortUpstream) : Prop where
  port : 1 ≤ u.port ∧ u.port ≤ 65535
  hostname : u.hostname ≠ []

def Catalog.Has (c : Catalog) (app : Str) (u : PortUpstream) : Prop := ∃ current, c.upstreams app = some current ∧ u ∈ current

/-- The updates on an upstream of an application that have taken effect, in their order. -/
def effective (app : Str) (u : PortUpstream) (history : List UpdateRecord) : List UpdateKind :=
  history.filterMap fun r =>
    match r.result with
    | .ok () => if r.request.appName = app ∧ r.request.upstream = u then some r.request.kind else none
    | .error _ => none

/-- Updates of one thing that take turns, the first one an addition, and whether they leave it there. -/
structure TakeTurns (kinds : List UpdateKind) (present : Prop) : Prop where
  alternate : kinds.IsChain (· ≠ ·)
  first : kinds.head? ≠ some .remove
  last : kinds.getLast? = some .add ↔ present

/-! ## Turns -/

theorem TakeTurns.nil {present : Prop} (h : ¬ present) : TakeTurns [] present :=
  ⟨List.isChain_nil, nofun, ⟨nofun, fun hp => absurd hp h⟩⟩

theorem TakeTurns.congr {kinds : List UpdateKind} {present present' : Prop} (h : TakeTurns kinds present)
    (hiff : present ↔ present') : TakeTurns kinds present' :=
  ⟨h.alternate, h.first, h.last.trans hiff⟩

theorem TakeTurns.snoc {kinds : List UpdateKind} {present present' : Prop} (h : TakeTurns kinds present) {kind : UpdateKind}
    (hturn : present ↔ kind = .remove) (hafter : present' ↔ kind = .add) : TakeTurns (kinds ++ [kind]) present' := by
  refine ⟨List.isChain_append.mpr ⟨h.alternate, List.isChain_singleton _, fun last hlast next hnext => ?_⟩, ?_, ?_⟩
  · obtain rfl : kind = next := by simpa using hnext
    rintro rfl
    cases last with
    | add => exact absurd (hturn.mp (h.last.mp hlast)) nofun
    | remove => exact absurd (h.last.mpr (hturn.mpr rfl)) (by rw [hlast]; exact nofun)
  · cases kinds with
    | nil =>
        intro hremove
        obtain rfl : kind = .remove := by simpa using hremove
        exact absurd (h.last.mpr (hturn.mpr rfl)) nofun
    | cons first rest => exact h.first
  · rw [List.getLast?_concat, Option.some.injEq]
    exact hafter.symm

/-! ## One update -/

theorem effective_append (app : Str) (u : PortUpstream) (history later : List UpdateRecord) :
    effective app u (history ++ later) = effective app u history ++ effective app u later := List.filterMap_append

theorem effective_snoc (app : Str) (u : PortUpstream) (history : List UpdateRecord) (r : UpdateRecord) :
    effective app u (history ++ [r]) =
      effective app u history ++
        (match r.result with
        | .ok () => if r.request.appName = app ∧ r.request.upstream = u then [r.request.kind] else []
        | .error _ => []) := by
  rw [effective_append, List.append_cancel_left_eq, effective, List.filterMap_cons]
  split <;> split <;> simp_all

theorem SameTables.has {c c' : Catalog} (h : SameTables c c') (app : Str) (u : PortUpstream) : c'.Has app u ↔ c.Has app u := by
  unfold Catalog.Has Catalog.upstreams
  rw [h.upstreams]

/-- An update adds or removes its own upstream and leaves all others. -/
theorem Effect.has {options : ProxyOptionsParsed} {req : UpdateRequest} {c c' : Catalog} (h : Effect options req (.ok ()) c c')
    (app : Str) (u : PortUpstream) :
    if req.appName = app ∧ req.upstream = u then (c.Has app u ↔ req.kind = .remove) ∧ (c'.Has app u ↔ req.kind = .add)
    else (c'.Has app u ↔ c.Has app u) := by
  obtain ⟨-, current, hcurrent, hturn, hchange⟩ := h
  have hafter : c'.upstreams req.appName = some (req.kind.change current req.upstream) := by rw [hchange, if_pos rfl]
  split
  · rename_i hown
    obtain ⟨rfl, rfl⟩ := hown
    refine ⟨⟨fun ⟨set, hset, hmem⟩ => ?_, fun hremove => ⟨current, hcurrent, hturn.mpr hremove⟩⟩,
      ⟨fun ⟨set, hset, hmem⟩ => ?_, fun hadd => ⟨_, hafter, ?_⟩⟩⟩
    · obtain rfl := Option.some.inj (hcurrent.symm.trans hset)
      exact hturn.mp hmem
    · obtain rfl := Option.some.inj (hafter.symm.trans hset)
      cases hkind : req.kind with
      | add => rfl
      | remove => simp [hkind, UpdateKind.change] at hmem
    · simp [hadd, UpdateKind.change]
  · rename_i hother
    by_cases happ : app = req.appName
    · subst happ
      have hne : u ≠ req.upstream := fun heq => hother ⟨rfl, heq.symm⟩
      have hmem : u ∈ req.kind.change current req.upstream ↔ u ∈ current := by
        cases req.kind <;> simp [UpdateKind.change, hne]
      simp only [Catalog.Has, hafter, hcurrent, Option.some.injEq, exists_eq_left', hmem]
    · simp only [Catalog.Has, hchange, if_neg happ]

theorem takeTurns_update {options : ProxyOptionsParsed} {app : Str} {u : PortUpstream} {history : List UpdateRecord}
    {r : UpdateRecord} {c c' : Catalog} (h : TakeTurns (effective app u history) (c.Has app u))
    (heffect : Effect options r.request r.result c c') : TakeTurns (effective app u (history ++ [r])) (c'.Has app u) := by
  rw [effective_snoc]
  cases hresult : r.result with
  | error err =>
      rw [hresult] at heffect
      rw [List.append_nil]
      exact h.congr (SameTables.has heffect app u).symm
  | ok done =>
      rw [hresult] at heffect
      have hhas := Effect.has heffect app u
      dsimp only
      split at hhas
      · rw [if_pos ‹_›]
        exact h.snoc hhas.1 hhas.2
      · rw [if_neg ‹_›, List.append_nil]
        exact h.congr hhas.symm

/-! ## Where requests come from -/

theorem valid_of_parse {upstream : UpstreamOptions} {u : PortUpstream} (h : parsePortUpstream upstream = .ok u) : u.Valid := by
  cases upstream with
  | unix unix =>
      simp only [parsePortUpstream] at h
      split at h <;> cases h
  | port port =>
      simp only [parsePortUpstream] at h
      split at h
      · cases h
      · obtain ⟨transport, -, h⟩ := exists_of_bind_eq_ok h
        split at h
        · cases h
        · rename_i hport
          split at h
          · cases h
          · rename_i hname
            obtain rfl := Except.ok.inj h
            exact ⟨by dsimp only; omega, hname⟩

theorem valid_of_begin {s : Shared} {call : JsCall} {choice : Choice} {req : UpdateRequest}
    (h : (s.begin call choice).2.stage.request = some req) : req.upstream.Valid := by
  cases call with
  | addUpstream app upstream | removeUpstream app upstream =>
      simp only [Shared.begin] at h
      split at h
      · cases h
      · rename_i u hparse
        obtain rfl := Option.some.inj h
        exact valid_of_parse hparse
  | start =>
      simp only [Shared.begin, Shared.start] at h
      split at h
      · split at h <;> cases h
      all_goals cases h
  | stop =>
      simp only [Shared.begin, Shared.stop] at h
      split at h
      · cases h
      · split at h <;> cases h
      all_goals split at h <;> cases h

/-- A step keeps the request of its call, and records nothing else. -/
theorem Ledger.Step.origin {u u' : Ledger} {c : CallId} {stage stage' : Stage} (h : Ledger.Step u c stage u' stage') :
    (stage ≠ .idle → ∀ req, stage'.request = some req → stage.request = some req) ∧
      ∀ r ∈ u'.history, r ∈ u.history ∨ stage.request = some r.request := by
  cases h with
  | refused | rebuildFailed | commitFailed | committed =>
      refine ⟨fun _ req hreq => ?_, fun r hr => ?_⟩
      · first | exact hreq | cases hreq
      · rcases List.mem_append.mp hr with hr | hr
        · exact .inl hr
        · obtain rfl := List.mem_singleton.mp hr
          exact .inr rfl
  | bystands | called => exact ⟨fun hidle => absurd rfl hidle, fun r hr => .inl hr⟩
  | ends | released => exact ⟨fun _ req hreq => (by cases hreq), fun r hr => .inl hr⟩
  | _ => exact ⟨fun _ req hreq => hreq, fun r hr => .inl hr⟩

/-- Every request, in flight or on record, has passed `parse_port_upstream`. -/
structure World.Vetted (w : World) : Prop where
  flight : ∀ c req, (w.calls c).stage.request = some req → req.upstream.Valid
  record : ∀ r ∈ w.shared.history, r.request.upstream.Valid

theorem World.Vetted.step {w w' : World} {l : Label} (h : w.Vetted) (hstep : NeemataProxy.step w l = some w') : w'.Vetted := by
  rcases step_cases hstep with ⟨c, choice, s', pc', hl, hact, rfl⟩ | ⟨t, -, -, rfl⟩
  · obtain ⟨hkept, hrecorded⟩ := (ledger_act hact).origin
    refine ⟨fun c' req hreq => ?_, fun r hr => ?_⟩
    · by_cases hc : c' = c
      · subst hc
        simp only [Function.update_self] at hreq
        by_cases hidle : (w.calls c').stage = .idle
        · -- the call begins with this step
          have hpc : w.calls c' = .idle := by
            cases hpc : w.calls c' <;> simp [hpc, Pc.stage] at hidle
            rfl
          cases l with
          | begin c'' call choice' =>
              obtain ⟨rfl, rfl⟩ := Prod.mk.inj (Option.some.inj hl)
              simp only [NeemataProxy.step, hpc, Option.some.injEq, World.mk.injEq] at hstep
              have hsame := congrFun hstep.2 c''
              rw [Function.update_self, Function.update_self] at hsame
              exact valid_of_begin (hsame ▸ hreq)
          | advance c'' choice' =>
              obtain ⟨rfl, rfl⟩ := Prod.mk.inj (Option.some.inj hl)
              rw [NeemataProxy.step, hpc] at hstep
              cases hstep
          | taskEnds t => cases hl
        · exact h.flight c' req (hkept hidle req hreq)
      · simp only [Function.update_of_ne hc] at hreq
        exact h.flight c' req hreq
    · rcases hrecorded r hr with hr | hr
      · exact h.record r hr
      · exact h.flight c _ hr
  · exact ⟨h.flight, h.record⟩

/-! ## Runs -/

theorem vetted_of_reach {parsed : ProxyOptionsParsed} {allow : World → Label → Prop} {w : World}
    (hrun : Reach Steps allow (.new parsed) w) : w.Vetted :=
  hrun.invariant (P := World.Vetted) ⟨fun _ _ hreq => (by cases hreq), fun _ hr => (by cases hr)⟩
    fun _ _ _ h _ hstep => h.step hstep

theorem not_has_new (parsed : ProxyOptionsParsed) (app : Str) (u : PortUpstream) :
    ¬ (World.new parsed).shared.catalog.Has app u := by
  rintro ⟨current, hcurrent, hmem⟩
  have hget : (World.new parsed).shared.catalog.upstreamsByApp.get app = _ :=
    get_foldl_insert_empty parsed.applications .empty app
  rw [Catalog.upstreams, hget] at hcurrent
  split at hcurrent
  · obtain rfl := Option.some.inj hcurrent
    simp [HashSet.contains] at hmem
  · cases hcurrent

theorem Ledgered.turns {parsed : ProxyOptionsParsed} {w : World} (hled : Ledgered (World.new parsed).shared.catalog w)
    (hoptions : w.shared.inner.options = parsed) (app : Str) (u : PortUpstream) :
    TakeTurns (effective app u w.shared.history) (w.shared.catalog.Has app u) := by
  obtain ⟨hresults, htables⟩ := hled.replayed hoptions
  have hturns := runUpdates_invariant (P := fun history c => TakeTurns (effective app u history) (c.Has app u))
    (.nil (not_has_new parsed app u))
    (fun history r c h hresult => takeTurns_update h (hresult ▸ applyUpdate_effect parsed r.request r.env r.order c)) hresults
  exact hturns.congr (htables.has app u).symm

theorem TakeTurns.exists_record {history : List UpdateRecord} {app : Str} {u : PortUpstream} {present : Prop}
    (h : TakeTurns (effective app u history) present) (hpresent : present) :
    ∃ r ∈ history, r.result = .ok () ∧ r.request = ⟨.add, app, u⟩ := by
  obtain ⟨r, hr, hkind⟩ := List.mem_filterMap.mp (List.mem_of_getLast? (h.last.mpr hpresent))
  refine ⟨r, hr, ?_⟩
  split at hkind
  · split at hkind
    · rename_i hresult hown
      obtain ⟨rfl, rfl⟩ := hown
      refine ⟨hresult, ?_⟩
      rw [← Option.some.inj hkind]
    · cases hkind
  · cases hkind

/-- In every run the updates that take effect on an upstream of an application take turns, the last of them says whether the
upstream is configured, and what is configured was added by a call of the run that `parse_port_upstream` has let through. -/
theorem upstreams_accounted {options : ProxyOptions} {w₀ w : World} (hnew : Proxy.new options = .ok w₀)
    (hrun : Reach Steps Free w₀ w) (app : Str) (u : PortUpstream) :
    TakeTurns (effective app u w.shared.history) (w.shared.catalog.Has app u) ∧
      (w.shared.catalog.Has app u → u.Valid ∧ ∃ r ∈ w.shared.history, r.result = .ok () ∧ r.request = ⟨.add, app, u⟩) := by
  obtain ⟨parsed, -, rfl⟩ := proxy_new hnew
  have hturns := ((Ledgered.new parsed).reach hrun).turns (options_of_reach hrun) app u
  refine ⟨hturns, fun hhas => ?_⟩
  obtain ⟨r, hr, hresult, hrequest⟩ := hturns.exists_record hhas
  have hvalid := (vetted_of_reach hrun).record r hr
  rw [hrequest] at hvalid
  exact ⟨hvalid, r, hr, hresult, hrequest⟩

/-- An upstream that is added, added again, removed and added: the second addition does not count. -/
theorem upstreams_accounted_sample : ∃ w, Reach Steps Free (World.new sampleParsed) w ∧ w.shared.history.length = 4 ∧
    effective (Str.lit "app") ⟨.http1, false, Str.lit "127.0.0.1", 8080⟩ w.shared.history = [.add, .remove, .add] ∧
    w.shared.catalog.Has (Str.lit "app") ⟨.http1, false, Str.lit "127.0.0.1", 8080⟩ := by
  obtain ⟨w, hrun, -, hcheck⟩ := reach_of_check Free Free
    ([begins 0 (.addUpstream (Str.lit "app") sampleUpstream), begins 1 (.addUpstream (Str.lit "app") sampleUpstream),
        begins 2 (.removeUpstream (Str.lit "app") sampleUpstream), begins 3 (.addUpstream (Str.lit "app") sampleUpstream)] ++
      steps 0 5 ++ steps 1 2 ++ steps 2 5 ++ steps 3 5) sampleParsed 4
    (fun w => w.shared.history.length = 4 ∧
      effective (Str.lit "app") ⟨.http1, false, Str.lit "127.0.0.1", 8080⟩ w.shared.history = [.add, .remove, .add])
    (fun _ _ _ => id) (by decide) (by decide +kernel)
  obtain ⟨hlength, heffective⟩ := of_decide_eq_true hcheck
  have hturns := (upstreams_accounted sample_new hrun (Str.lit "app") ⟨.http1, false, Str.lit "127.0.0.1", 8080⟩).1
  rw [heffective] at hturns
  exact ⟨w, hrun, hlength, heffective, hturns.last.mp rfl⟩

end NeemataProxy
