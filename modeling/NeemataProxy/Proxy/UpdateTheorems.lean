import NeemataProxy.Proxy.Coherence
import NeemataProxy.Proxy.Lemmas.Ledger

/-!
# Theorems about updates
-/

namespace NeemataProxy

open Lib Routing Options

/-! ## Updates take effect one at a time -/

theorem runUpdates_append_list (options : ProxyOptionsParsed) (c : Catalog) (rs rs' : List UpdateRecord) :
    runUpdates options c (rs ++ rs') =
      let before := runUpdates options c rs
      let after := runUpdates options before.1 rs'
      (after.1, before.2 ++ after.2) := by
  induction rs generalizing c with
  | nil => rfl
  | cons r rs ih => simp [runUpdates, ih]

/-- When the updates have the recorded results, each of them has the effect that goes with its result. -/
theorem effect_of_results {options : ProxyOptionsParsed} {c : Catalog} {before after : List UpdateRecord}
    {r : UpdateRecord} (h : (runUpdates options c (before ++ r :: after)).2 =
      (before ++ r :: after).map UpdateRecord.result) :
    Effect options r.request r.result (runUpdates options c before).1 (runUpdates options c (before ++ [r])).1 := by
  have hlen : ∀ (rs : List UpdateRecord) (c : Catalog), (runUpdates options c rs).2.length = rs.length := by
    intro rs
    induction rs with
    | nil => exact fun _ => rfl
    | cons r rs ih => exact fun c => congrArg (· + 1) (ih _)
  rw [runUpdates_append_list, List.map_append] at h
  have hafter := (List.append_inj h (by rw [hlen, List.length_map])).2
  rw [runUpdates_append]
  have hr : (applyUpdate options r.request r.env r.order (runUpdates options c before).1).2 = r.result :=
    (List.cons.inj hafter).1
  rw [← hr]
  exact applyUpdate_effect options r.request r.env r.order _

/-- The recorded updates of a run from `w₀` to `w`, run one at a time, have the recorded results and give the present
tables; the order is one in which they took place. -/
structure Linearized (options : ProxyOptionsParsed) (w₀ w : World) : Prop where
  results : (runUpdates options w₀.shared.catalog w.shared.history).2 = w.shared.history.map UpdateRecord.result
  tables : SameTables (runUpdates options w₀.shared.catalog w.shared.history).1 w.shared.catalog
  /-- Each of them has the effect that goes with its result. -/
  effects : ∀ before r after, w.shared.history = before ++ r :: after → Effect options r.request r.result
    (runUpdates options w₀.shared.catalog before).1 (runUpdates options w₀.shared.catalog (before ++ [r])).1
  /-- A call takes effect at most once, and not before it begins. -/
  once : (w.shared.history.map UpdateRecord.call).Nodup
  unbegun : ∀ c, w.calls c = .idle → ∀ r ∈ w.shared.history, r.call ≠ c
  /-- What has taken effect stays so, and a call that was in flight and has ended has taken effect in between. -/
  lasting : ∀ w', Reach Steps Free w w' → ∃ later, w'.shared.history = w.shared.history ++ later
  completed : ∀ w' c req result, Reach Steps Free w w' → (w.calls c).stage.request = some req →
    w'.calls c = .done result → ∃ env order, ⟨c, req, env, order, result⟩ ∈ w'.shared.history
  /-- The steps of an update that fails in the end leave the tables and the services alone. -/
  begun : ∀ c choice w' app upstream, step w (.begin c (.addUpstream app upstream) choice) = some w' ∨
    step w (.begin c (.removeUpstream app upstream) choice) = some w' → w'.shared = w.shared
  failed : ∀ l w₁ w' req err, step w l = some w₁ → Reach Steps Free w₁ w' → ∀ p ∈ l.call,
    (w.calls p.1).stage.request = some req → w'.calls p.1 = .done (.error err) →
    SameTables w.shared.catalog w₁.shared.catalog ∧ w₁.shared.server = w.shared.server

theorem begin_update_shared {w w' : World} {c : CallId} {choice : Choice} {app : Str} {upstream : UpstreamOptions}
    (h : step w (.begin c (.addUpstream app upstream) choice) = some w' ∨
      step w (.begin c (.removeUpstream app upstream) choice) = some w') : w'.shared = w.shared := by
  rcases h with h | h
  all_goals
    simp only [step] at h
    split at h
    · obtain rfl := Option.some.inj h
      simp only [Shared.begin]
      split <;> rfl
    · simp at h

/-- Of the steps of an update only those after its commit touch a service. -/
theorem server_act_of_request {s s' : Shared} {c : CallId} {choice : Choice} {pc pc' : Pc} {req : UpdateRequest}
    (hact : Act s c choice pc s' pc') (hreq : pc.stage.request = some req) (hserving : ∀ req, pc.stage ≠ .serving req) :
    s'.server = s.server := by
  cases hact with
  | inserted hhands | signalled hhands =>
      cases pc with
      | updateServices req' todo hands => exact absurd rfl (hserving req')
      | updateLock | updateSnapshot | updateRebuild | updateCommit => simp [Pc.hands, Hands.empty] at hhands
      | _ => cases hreq
  | updateSpawned req' | updateRemoved req' => exact absurd rfl (hserving req')
  | healthSpawned | listenerSpawned | cancelTook | stopTook | setupFailed | finalised | cancelled | stopBegunWaiting
  | stopBegun | stopEnded => cases hreq
  | _ => rfl

theorem stage_eq_ended {pc : Pc} {result : Except JsError Unit} (h : pc.stage = .ended result) : pc = .done result := by
  cases pc <;> first | exact congrArg Pc.done (Stage.ended.inj h) | cases h

theorem not_act_done {s s' : Shared} {c : CallId} {choice : Choice} {result : Except JsError Unit} {pc' : Pc} :
    ¬ Act s c choice (.done result) s' pc' := by
  generalize hpc : Pc.done result = pc
  intro hact
  cases hact with
  | inserted hhands | signalled hhands | awaited hhands => subst hpc; simp [Pc.hands, Hands.empty] at hhands
  | _ => cases hpc

/-- An update stays in flight until it has ended with the result that is on record. -/
theorem request_or_done_of_reach {c₀ : Catalog} {w w' : World} {c : CallId} {req : UpdateRequest} (hled : Ledgered c₀ w)
    (hrun : Reach Steps Free w w') (hreq : (w.calls c).stage.request = some req) :
    (w'.calls c).stage.request = some req ∨
      ∃ result env order, w'.calls c = .done result ∧ ⟨c, req, env, order, result⟩ ∈ w'.shared.history := by
  induction hrun with
  | refl => exact .inl hreq
  | @tail w₁ w₂ l hrun _ hstep ih =>
      rcases step_cases hstep with ⟨c', choice, s', pc', -, hact, rfl⟩ | ⟨t, rfl, -, rfl⟩
      · have hgrow : ∀ r ∈ w₁.shared.history, r ∈ s'.history := fun r hr => by
          obtain ⟨later, hlater⟩ := (ledger_act hact).history
          exact (show s'.history = _ from hlater) ▸ List.mem_append_left later hr
        by_cases hc : c = c'
        · subst hc
          simp only [Function.update_self]
          rcases ih with hreq | ⟨result, env, order, hdone, -⟩
          · refine ((ledger_act hact).request hreq ((hled.reach hrun).knows c)).imp id ?_
            rintro ⟨result, env, order, hended, hmem⟩
            exact ⟨result, env, order, stage_eq_ended hended, hmem⟩
          · exact absurd (hdone ▸ hact) not_act_done
        · simp only [Function.update_of_ne hc]
          exact ih.imp id fun ⟨result, env, order, hdone, hmem⟩ => ⟨result, env, order, hdone, hgrow _ hmem⟩
      · exact ih

theorem completed_of_reach {c₀ : Catalog} {w w' : World} {c : CallId} {req : UpdateRequest} {result : Except JsError Unit}
    (hled : Ledgered c₀ w) (hrun : Reach Steps Free w w') (hreq : (w.calls c).stage.request = some req)
    (hdone : w'.calls c = .done result) : ∃ env order, ⟨c, req, env, order, result⟩ ∈ w'.shared.history := by
  rcases request_or_done_of_reach hled hrun hreq with hreq' | ⟨result', env, order, hdone', hmem⟩
  · rw [hdone] at hreq'
    cases hreq'
  · obtain rfl := Pc.done.inj (hdone.symm.trans hdone')
    exact ⟨env, order, hmem⟩

theorem history_of_reach {w w' : World} (hrun : Reach Steps Free w w') :
    ∃ later, w'.shared.history = w.shared.history ++ later := by
  refine hrun.invariant (P := fun w' => ∃ later, w'.shared.history = w.shared.history ++ later)
    ⟨[], (List.append_nil _).symm⟩ ?_
  rintro w₁ l w₂ ⟨later, hlater⟩ - hstep
  rcases ledger_step hstep with ⟨c, choice, stage', -, hled, -⟩ | ⟨-, hled, -⟩
  · obtain ⟨later', hlater'⟩ := hled.history
    exact ⟨later ++ later', by rw [← List.append_assoc, ← hlater]; exact hlater'⟩
  · exact ⟨later, by rw [← hlater]; exact congrArg Ledger.history hled⟩

/-- What has come on record has done so in one step. -/
theorem exists_recording_step {allow : World → Label → Prop} {w w' : World} {r : UpdateRecord} (hrun : Reach Steps allow w w')
    (hfresh : r ∉ w.shared.history) (hmem : r ∈ w'.shared.history) :
    ∃ w₁ l w₂, Reach Steps allow w w₁ ∧ allow w₁ l ∧ step w₁ l = some w₂ ∧ Reach Steps allow w₂ w' ∧
      w₂.shared.history = w₁.shared.history ++ [r] := by
  induction hrun with
  | refl => exact absurd hmem hfresh
  | @tail w₁ w₂ l hrun hallow hstep ih =>
      by_cases hin : r ∈ w₁.shared.history
      · obtain ⟨v₁, l', v₂, hbefore, hallow', hrecord, hafter, happend⟩ := ih hin
        exact ⟨v₁, l', v₂, hbefore, hallow', hrecord, hafter.tail hallow hstep, happend⟩
      · refine ⟨w₁, l, w₂, hrun, hallow, hstep, .refl, ?_⟩
        rcases ledger_step hstep with ⟨c, choice, stage', -, hled, -⟩ | ⟨-, hled, -⟩
        · rcases hled.recorded with hsame | ⟨r', -, happend⟩
          · exact absurd ((show w₂.shared.history = w₁.shared.history from hsame) ▸ hmem) hin
          · have hhistory : w₂.shared.history = w₁.shared.history ++ [r'] := happend
            rw [hhistory] at hmem
            rw [List.mem_singleton.mp ((List.mem_append.mp hmem).resolve_left hin), hhistory]
        · exact absurd ((show w₂.shared.history = w₁.shared.history from congrArg Ledger.history hled) ▸ hmem) hin

theorem options_of_reach {allow : World → Label → Prop} {w w' : World} (hrun : Reach Steps allow w w') :
    w'.shared.inner.options = w.shared.inner.options := by
  refine hrun.invariant (P := fun w' => w'.shared.inner.options = w.shared.inner.options) rfl ?_
  rintro w₁ l w₂ h - hstep
  rcases ledger_step hstep with ⟨c, choice, stage', -, hled, -⟩ | ⟨-, hled, -⟩
  · exact hled.options.trans h
  · exact (congrArg Ledger.options hled).trans h

/-- An update that fails in the end touches nothing with any of its steps: what touches something is on record as a
success, and a call has one record. -/
theorem untouched_of_failed {c₀ : Catalog} {w w₁ w' : World} {l : Label} {p : CallId × Choice} {req : UpdateRequest}
    {err : JsError} (hled : Ledgered c₀ w) (hstep : step w l = some w₁) (hrun : Reach Steps Free w₁ w') (hp : p ∈ l.call)
    (hreq : (w.calls p.1).stage.request = some req) (hdone : w'.calls p.1 = .done (.error err)) :
    SameTables w.shared.catalog w₁.shared.catalog ∧ w₁.shared.server = w.shared.server := by
  have hall : Reach Steps Free w w' := (Reach.tail .refl trivial hstep).trans hrun
  obtain ⟨env, order, herr⟩ := completed_of_reach hled hall hreq hdone
  have honce := (hled.reach hall).once
  obtain ⟨later, hlater⟩ := history_of_reach hrun
  rcases step_cases hstep with ⟨c, choice, s', pc', hl, hact, rfl⟩ | ⟨t, rfl, -, rfl⟩
  · obtain rfl := Option.some.inj (hp.symm.trans hl)
    rcases (ledger_act hact).tables hreq (hled.knows c) with ⟨hsame, hserving⟩ | ⟨env', order', hok⟩
    · exact ⟨hsame, server_act_of_request hact hreq hserving⟩
    · have hok' : (⟨c, req, env', order', .ok ()⟩ : UpdateRecord) ∈ w'.shared.history :=
        hlater ▸ List.mem_append_left later hok
      have heq := List.inj_on_of_nodup_map honce herr hok' rfl
      cases congrArg UpdateRecord.result heq
  · simp [Label.call] at hp

/-- The recorded updates, run one at a time, have the recorded results and give the present tables. -/
theorem Ledgered.replayed {c₀ : Catalog} {w : World} {parsed : ProxyOptionsParsed} (hled : Ledgered c₀ w)
    (hoptions : w.shared.inner.options = parsed) :
    (runUpdates parsed c₀ w.shared.history).2 = w.shared.history.map UpdateRecord.result ∧
      SameTables (runUpdates parsed c₀ w.shared.history).1 w.shared.catalog := by
  have hledger : w.shared.ledger.options = parsed := hoptions
  have hresults := hled.results
  have htables := hled.tables
  simp only [Ledger.replay, hledger] at hresults htables
  exact ⟨hresults, htables⟩

theorem Ledgered.coherent {parsed : ProxyOptionsParsed} {w : World} (hled : Ledgered (World.new parsed).shared.catalog w)
    (hoptions : w.shared.inner.options = parsed) :
    Coherent parsed (lastRebuild w.shared.history) w.shared.catalog := by
  obtain ⟨hresults, htables⟩ := hled.replayed hoptions
  exact ((Coherent.new parsed).runUpdates hresults).congr htables

theorem tables_coherent_of_reach (parsed : ProxyOptionsParsed) {w : World} (hrun : Reach Steps Free (World.new parsed) w) :
    Coherent w.shared.inner.options (lastRebuild w.shared.history) w.shared.catalog := by
  have hoptions : w.shared.inner.options = parsed := options_of_reach hrun
  rw [hoptions]
  exact ((Ledgered.new parsed).reach hrun).coherent hoptions

/-- In every run the pools are those of the last successful rebuilds, and the routing table is made from them. -/
theorem tables_coherent {options : ProxyOptions} {w₀ w : World} (hnew : Proxy.new options = .ok w₀)
    (hrun : Reach Steps Free w₀ w) :
    Coherent w.shared.inner.options (lastRebuild w.shared.history) w.shared.catalog := by
  obtain ⟨parsed, -, rfl⟩ := proxy_new hnew
  exact tables_coherent_of_reach parsed hrun

/-- An upstream of the sample application. -/
theorem tables_coherent_sample :
    ∃ w, Reach Steps Free (World.new sampleParsed) w ∧ w.shared.inner.pools.len = 1 ∧
      Coherent w.shared.inner.options (lastRebuild w.shared.history) w.shared.catalog := by
  obtain ⟨w, hrun, -, hcheck⟩ := reach_of_check Free Free
    (begins 0 (.addUpstream (Str.lit "app") sampleUpstream) :: steps 0 5) sampleParsed 1
    (fun w => w.shared.inner.pools.len = 1) (fun _ _ _ => id) (by decide) (by decide +kernel)
  exact ⟨w, hrun, of_decide_eq_true hcheck, tables_coherent sample_new hrun⟩

end NeemataProxy
