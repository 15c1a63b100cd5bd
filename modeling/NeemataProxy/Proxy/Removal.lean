import NeemataProxy.Proxy.Lemmas.Applications
import NeemataProxy.Proxy.Lemmas.Rebuild
import NeemataProxy.Proxy.Lemmas.Release
import NeemataProxy.Proxy.UpdateTheorems

/-!
# Removing an upstream

A removal rebuilds all pools of its application. The present upstreams have been accepted, so it can only fail where the rebuild
asks the outside.
-/

namespace NeemataProxy

open Lib Routing Options

/-- Every upstream resolves, and each transport that has upstreams gets a balancer of at least one address. -/
def Rebuildable (env : RebuildEnv) (upstreams : Set PortUpstream) : Prop :=
  ∀ v ∈ upstreams, Resolves env fun u => u ∈ upstreams ∧ u.transport = v.transport

/-- What a removal of `u` with this result, whose rebuild meets `env`, makes of the tables. -/
structure Removal (options : ProxyOptionsParsed) (app : Str) (u : PortUpstream) (env : Except Str RebuildEnv)
    (result : Except JsError Unit) (current : Set PortUpstream) (c c' : Catalog) : Prop where
  /-- It succeeds exactly when the pools of the other upstreams can be rebuilt. -/
  succeeds : result = .ok () ↔ ∃ env', env = .ok env' ∧ Rebuildable env' (current \ {u})
  /-- Then it deletes exactly `u`, and the pools of the application are made from the others. -/
  upstreams : result = .ok () → ∀ app', c'.upstreams app' = if app' = app then some (current \ {u}) else c.upstreams app'
  pools : result = .ok () → AppCoherent options app (current \ {u}) env.toOption fun t => c'.pools.get (app, t)
  others : result = .ok () → ∀ app' t, app' ≠ app → c'.pools.get (app', t) = c.pools.get (app', t)
  config : result = .ok () → c'.config = buildRouterConfig options c'.pools
  /-- Otherwise it leaves everything as it is. -/
  failed : ∀ err, result = .error err → SameTables c c'

section Tables

variable {options : ProxyOptionsParsed} {last : Str → Option RebuildEnv} {app : Str} {u : PortUpstream}
  {env : Except Str RebuildEnv} {order : IterOrder (TransportKind × PoolConfig)} {current : Set PortUpstream}
  {c c₁ c₂ : Catalog} {result : Except JsError Unit}

theorem Removal.congr {c' c₁' : Catalog} (h : Removal options app u env result current c c') (hbefore : SameTables c c₁)
    (hafter : SameTables c' c₁') : Removal options app u env result current c₁ c₁' := by
  obtain ⟨hupstreams, hpools, hconfig⟩ := hbefore
  obtain ⟨hupstreams', hpools', hconfig'⟩ := hafter
  constructor
  · exact h.succeeds
  · simpa only [Catalog.upstreams, hupstreams, hupstreams'] using h.upstreams
  · simpa only [hpools'] using h.pools
  · simpa only [hpools, hpools'] using h.others
  · simpa only [hpools', hconfig'] using h.config
  · intro err herr
    obtain ⟨hu, hp, hc⟩ := h.failed err herr
    exact ⟨by rw [hupstreams, hupstreams', hu], by rw [hpools, hpools', hp], by rw [hconfig, hconfig', hc]⟩

/-! ## One removal -/

/-- The upstreams of a transport never stand in the way of a rebuild. -/
theorem AppCoherent.uniform {lastOf : Option RebuildEnv} {poolOf : TransportKind → Option PoolConfig}
    {a : ApplicationOptionsParsed} (h : AppCoherent options a.name current lastOf poolOf)
    (hnames : (options.applications.map ApplicationOptionsParsed.name).Nodup) (ha : a ∈ options.applications) (t : TransportKind) :
    Uniform a fun v => v ∈ current ∧ v.transport = t where
  secure := by
    rintro v v' ⟨hv, rfl⟩ ⟨hv', ht⟩
    obtain ⟨pool, hpool⟩ := Option.isSome_iff_exists.mp ((h.pools v.transport).mpr ⟨v, hv, rfl⟩)
    rw [h.secure _ pool hpool v hv rfl, h.secure _ pool hpool v' hv' ht]
  hostname := by
    rintro v ⟨hv, -⟩ hs
    obtain ⟨a', ha', hname, hostname, hok⟩ := h.hostname v hv hs
    rw [← List.inj_on_of_nodup_map hnames ha' ha hname]
    exact ⟨hostname, hok⟩

theorem Uniform.mono {a : ApplicationOptionsParsed} {P Q : PortUpstream → Prop} (h : Uniform a Q) (hPQ : ∀ v, P v → Q v) :
    Uniform a P :=
  ⟨fun v v' hv hv' => h.secure v v' (hPQ v hv) (hPQ v' hv'), fun v hv => h.hostname v (hPQ v hv)⟩

theorem prepareUpdate_remove (hcoherent : Coherent options last c) (hcurrent : c.upstreams app = some current)
    (hmem : u ∈ current) : ∃ next, prepareUpdate options c.upstreamsByApp ⟨.remove, app, u⟩ = .ok next ∧
      next.appDef ∈ options.applications ∧ next.appDef.name = app ∧
      ∀ v, next.upstreams.contains v = true ↔ v ∈ current ∧ v ≠ u := by
  obtain ⟨set, hset, rfl⟩ := Option.map_eq_some_iff.mp hcurrent
  have happ : (options.applications.find? fun a => a.name = app).isSome = true := by
    obtain ⟨a, ha, hname⟩ := (hcoherent.applications app).mp (by rw [hcurrent]; rfl)
    exact List.find?_isSome.mpr ⟨a, ha, decide_eq_true hname⟩
  obtain ⟨a, ha⟩ := Option.isSome_iff_exists.mp happ
  have hcontains : set.contains u = true := hmem
  refine ⟨⟨a, options.healthCheckIntervalMs, UpdateKind.remove.apply set u⟩, ?_, List.mem_of_find?_eq_some ha,
    by simpa using List.find?_some ha, fun v => ?_⟩
  · simp [prepareUpdate, takeSnapshot, ha, hset, UpdateKind.check, hcontains, checkSecure, Except.map, bind, Except.bind,
      pure, Except.pure]
  · exact (contains_apply .remove set u v).trans and_comm

theorem removal_applyUpdate (env : Except Str RebuildEnv) (order : IterOrder (TransportKind × PoolConfig))
    (hcoherent : Coherent options last c)
    (hnames : (options.applications.map ApplicationOptionsParsed.name).Nodup) (hcurrent : c.upstreams app = some current)
    (hmem : u ∈ current) : Removal options app u env (applyUpdate options ⟨.remove, app, u⟩ env order c).2 current c
      (applyUpdate options ⟨.remove, app, u⟩ env order c).1 := by
  obtain ⟨next, hprepare, ha, rfl, hnext⟩ := prepareUpdate_remove hcoherent hcurrent hmem
  have heffect := applyUpdate_effect options ⟨.remove, next.appDef.name, u⟩ env order c
  have hupstreams : (applyUpdate options ⟨.remove, next.appDef.name, u⟩ env order c).2 = .ok () → ∀ app',
      (applyUpdate options ⟨.remove, next.appDef.name, u⟩ env order c).1.upstreams app' =
        if app' = next.appDef.name then some (current \ {u}) else c.upstreams app' := by
    intro hok
    rw [hok] at heffect
    obtain ⟨-, current', hcurrent', -, hafter⟩ := heffect
    obtain rfl := Option.some.inj (hcurrent.symm.trans hcurrent')
    exact hafter
  refine ⟨?_, hupstreams, fun hok => ?_, fun hok app' t hne => ?_, fun hok => ?_, fun err herr => applyUpdate_error herr⟩
  · rw [applyUpdate_isOk_iff hprepare]
    refine exists_congr fun env' => and_congr_right fun _ => ?_
    rw [rebuildAppPools_isOk_iff]
    have hsame : ∀ v t, (next.upstreams.contains v = true ∧ v.transport = t) ↔ v ∈ current \ {u} ∧ v.transport = t :=
      fun v t => and_congr_left fun _ => hnext v
    refine forall_congr' fun v => ?_
    rw [hnext v]
    refine forall_congr' fun _ => ?_
    have huniform := ((hcoherent.app _ _ hcurrent).uniform hnames ha v.transport).mono
      fun v' (h : next.upstreams.contains v' = true ∧ v'.transport = v.transport) => ⟨((hnext v').mp h.1).1, h.2⟩
    exact ⟨fun h => h.2.congr fun v' => hsame v' _, fun h => ⟨huniform, h.congr fun v' => (hsame v' _).symm⟩⟩
  · have hafter := (hcoherent.applyUpdate hok).app next.appDef.name (current \ {u}) ((hupstreams hok _).trans (if_pos rfl))
    simpa using hafter
  · obtain ⟨next', current', rebuilt, services, env', -, -, -, hcommit⟩ := applyUpdate_ok hok
    rw [hcommit.pools, if_neg hne]
  · exact (hcoherent.applyUpdate hok).config

end Tables

/-! ## Removals in a run -/

/-- The rebuild of call `c` meets `env`. -/
def Meets (c : CallId) (env : Except Str RebuildEnv) (_ : World) (l : Label) : Prop :=
  ∀ p ∈ l.call, p.1 = c → p.2.rebuild = env

/-- What the rebuild of a call has met, until its commit. -/
def Pc.met : Pc → Option (Except Str RebuildEnv)
  | .updateCommit _ _ env _ => some env
  | _ => none

theorem met_withHands (pc : Pc) (hands : Hands) : (pc.withHands hands).met = pc.met := by cases pc <;> rfl

section Run

variable {c₀ : Catalog} {w w' w₁ w₂ : World} {l : Label} {c : CallId} {choice : Choice} {s s' : Shared} {pc pc' : Pc}
  {req : UpdateRequest} {env : Except Str RebuildEnv} {r : UpdateRecord}

/-- An update is recorded with what its rebuild has met. -/
theorem met_act (hact : Act s c choice pc s' pc') (hmet : ∀ e ∈ pc.met, e = choice.rebuild) :
    (∀ e ∈ pc'.met, e = choice.rebuild) ∧ ∀ r, s'.history = s.history ++ [r] → r.env = choice.rebuild := by
  have hsame : s'.history = s.history → ∀ r, s'.history = s.history ++ [r] → r.env = choice.rebuild := by
    intro heq r hr
    rw [heq] at hr
    simp at hr
  have hone : ∀ r₀, s'.history = s.history ++ [r₀] → r₀.env = choice.rebuild →
      ∀ r, s'.history = s.history ++ [r] → r.env = choice.rebuild := by
    intro r₀ heq hr₀ r hr
    rw [← hr₀, List.singleton_inj.mp (List.append_cancel_left (hr.symm.trans heq))]
  cases hact with
  | inserted | signalled | awaited => exact ⟨by rwa [met_withHands], hsame rfl⟩
  | snapshotFailed | rebuildFailed => exact ⟨nofun, hone _ rfl rfl⟩
  | commitFailed env => exact ⟨nofun, hone _ rfl (hmet env rfl)⟩
  | committed env => exact ⟨nofun, hone _ rfl (hmet env rfl)⟩
  | rebuilt => exact ⟨fun e he => (Option.some.inj he).symm, hsame rfl⟩
  | setupFailed => exact ⟨nofun, hsame (congrArg Ledger.history (ledger_notifyStart _ _))⟩
  | finalised => exact ⟨nofun, hsame (congrArg Ledger.history (ledger_notifyStart _ _))⟩
  | cancelled => exact ⟨nofun, hsame (congrArg Ledger.history (ledger_notifyStart _ _))⟩
  | stopBegunWaiting | stopBegun => exact ⟨nofun, hsame (congrArg Ledger.history (ledger_beginStop _))⟩
  | stopEnded => exact ⟨nofun, hsame (congrArg Ledger.history (ledger_endStop _))⟩
  | _ => exact ⟨nofun, hsame rfl⟩

theorem reach_free {allow : World → Label → Prop} (hrun : Reach Steps allow w w') : Reach Steps Free w w' :=
  hrun.mono fun _ _ _ => trivial

theorem met_of_reach (hmet : ∀ e ∈ (w.calls c).met, e = env) (hrun : Reach Steps (Meets c env) w w') :
    ∀ e ∈ (w'.calls c).met, e = env := by
  induction hrun with
  | refl => exact hmet
  | @tail w₁ w₂ l _ hallow hstep ih =>
      rcases step_cases hstep with ⟨c', choice, s', pc', hl, hact, rfl⟩ | ⟨t, -, -, rfl⟩
      · by_cases hc : c' = c
        · subst hc
          have hchoice : choice.rebuild = env := hallow _ hl rfl
          rw [← hchoice] at ih ⊢
          simpa using (met_act hact ih).1
        · simpa [Function.update_of_ne (Ne.symm hc)] using ih
      · exact ih

theorem env_of_recorded (hmet : ∀ e ∈ (w₁.calls r.call).met, e = env) (hallow : Meets r.call env w₁ l)
    (hstep : NeemataProxy.step w₁ l = some w₂) (hhistory : w₂.shared.history = w₁.shared.history ++ [r]) : r.env = env := by
  rcases step_cases hstep with ⟨c', choice, s', pc', hl, hact, rfl⟩ | ⟨t, -, -, rfl⟩
  · have hcall : c' = r.call := by
      rcases (ledger_act hact).recorded with hsame | ⟨r', hr', happend⟩
      · rw [show s'.history = w₁.shared.history from hsame] at hhistory
        simp at hhistory
      · have hsame : w₁.shared.history ++ [r'] = w₁.shared.history ++ [r] := happend.symm.trans hhistory
        rw [← hr', List.singleton_inj.mp (List.append_cancel_left hsame)]
    subst hcall
    have hchoice : choice.rebuild = env := hallow _ hl rfl
    rw [← hchoice] at hmet ⊢
    exact (met_act hact hmet).2 r hhistory
  · simp [Shared.onServer] at hhistory

/-- The step that records an update makes of the tables what the update makes of them when it runs alone. -/
theorem applied_of_recorded {parsed : ProxyOptionsParsed} (hled₁ : Ledgered c₀ w₁) (hled₂ : Ledgered c₀ w₂)
    (hoptions₁ : w₁.shared.inner.options = parsed) (hoptions₂ : w₂.shared.inner.options = parsed)
    (hrecord : w₂.shared.history = w₁.shared.history ++ [r]) :
    ∃ before, SameTables before w₁.shared.catalog ∧
      (applyUpdate parsed r.request r.env r.order before).2 = r.result ∧
      SameTables (applyUpdate parsed r.request r.env r.order before).1 w₂.shared.catalog := by
  obtain ⟨-, htables₁⟩ := hled₁.replayed hoptions₁
  obtain ⟨hresults, htables₂⟩ := hled₂.replayed hoptions₂
  simp only [hrecord, runUpdates_append, List.map_append] at hresults htables₂
  exact ⟨_, htables₁, (List.cons.inj (List.append_inj' hresults rfl).2).1, htables₂⟩

end Run

/-- A removal that has ended took effect, or failed, in one step of the run, and if its upstream was in the set then, the tables
are those that the removal alone makes of them. -/
theorem removal_outcome {options : ProxyOptions} {w₀ w w' : World} (hnew : Proxy.new options = .ok w₀)
    (hrun : Reach Steps Free w₀ w) {c : CallId} {app : Str} {u : PortUpstream}
    (hcall : w.calls c = .updateLock ⟨.remove, app, u⟩) {env : Except Str RebuildEnv}
    (hrun' : Reach Steps (Meets c env) w w') {result : Except JsError Unit} (hdone : w'.calls c = .done result) :
    ∃ w₁ l w₂ order, Reach Steps Free w w₁ ∧ NeemataProxy.step w₁ l = some w₂ ∧ Reach Steps Free w₂ w' ∧
      w₂.shared.history = w₁.shared.history ++ [⟨c, ⟨.remove, app, u⟩, env, order, result⟩] ∧
      ∀ current, w₁.shared.catalog.upstreams app = some current → u ∈ current →
        Removal w₀.shared.inner.options app u env result current w₁.shared.catalog w₂.shared.catalog := by
  obtain ⟨parsed, hparsed, rfl⟩ := proxy_new hnew
  have hled := (Ledgered.new parsed).reach hrun
  have hfresh := hled.unrecorded (.inr ⟨_, hcall⟩)
  obtain ⟨env₁, order, hmem⟩ := completed_of_reach hled (reach_free hrun') (by rw [hcall]; rfl) hdone
  obtain ⟨w₁, l, w₂, hbefore, hallow, hstep, hafter, hhistory⟩ := exists_recording_step hrun' (fun hin => hfresh _ hin rfl) hmem
  have hmet : ∀ e ∈ (w.calls c).met, e = env := fun e he => by
    rw [hcall] at he
    cases he
  obtain rfl : env₁ = env := env_of_recorded (met_of_reach hmet hbefore) hallow hstep hhistory
  have hled₁ := hled.reach hbefore
  have hled₂ := hled₁.step hstep
  have hoptions₁ : w₁.shared.inner.options = parsed := (options_of_reach hbefore).trans (options_of_reach hrun)
  have hreach : Reach Steps Free w₁ w₂ := .tail .refl trivial hstep
  have hoptions₂ : w₂.shared.inner.options = parsed := (options_of_reach hreach).trans hoptions₁
  refine ⟨w₁, l, w₂, order, reach_free hbefore, hstep, reach_free hafter, hhistory, fun current hcurrent hin => ?_⟩
  obtain ⟨before, hsame, hresult, hsame'⟩ := applied_of_recorded hled₁ hled₂ hoptions₁ hoptions₂ hhistory
  have hcoherent := (hled₁.coherent hoptions₁).congr hsame.symm
  have hcurrent' : before.upstreams app = some current := by
    rw [Catalog.upstreams, ← hsame.upstreams]
    exact hcurrent
  have hremoval := removal_applyUpdate env₁ order hcoherent (distinct_of_parse hparsed).names hcurrent' hin
  rw [hresult] at hremoval
  exact hremoval.congr hsame hsame'

/-! ## A removal with a sibling -/

def sampleSibling : UpstreamOptions :=
  .port ⟨Str.lit "port", Str.lit "http", false, Str.lit "127.0.0.1", 8081⟩

/-- The request to remove the sample upstream. -/
def sampleRemoval : UpdateRequest := ⟨.remove, Str.lit "app", ⟨.http1, false, Str.lit "127.0.0.1", 8080⟩⟩

/-- Both upstreams have been added, and call 2 is about to remove the first of them. -/
def removalRun : List Label :=
  begins 0 (.addUpstream (Str.lit "app") sampleUpstream) :: steps 0 5 ++
    begins 1 (.addUpstream (Str.lit "app") sampleSibling) :: steps 1 5 ++
    [begins 2 (.removeUpstream (Str.lit "app") sampleUpstream)]

def Pc.waitsFor (req : UpdateRequest) : Pc → Bool
  | .updateLock req' => req' = req
  | _ => false

theorem waitsFor_iff {req : UpdateRequest} {pc : Pc} : pc.waitsFor req = true ↔ pc = .updateLock req := by
  unfold Pc.waitsFor
  split <;> simp_all

theorem reach_meets {c : CallId} {env : Except Str RebuildEnv} {ls : List Label} (hls : ∀ l ∈ ls, ∀ w, Meets c env w l)
    {w w' : World} (h : runAllowed step Free w ls = some w') : Reach Steps (Meets c env) w w' := by
  induction ls generalizing w with
  | nil =>
      obtain rfl := Option.some.inj h
      exact .refl
  | cons l ls ih =>
      simp only [runAllowed] at h
      split at h
      · obtain ⟨w₁, h₁, h₂⟩ := Option.bind_eq_some_iff.mp h
        have hfirst : Reach Steps (Meets c env) w w₁ := .tail .refl (hls l List.mem_cons_self w) h₁
        exact hfirst.trans (ih (fun l' hl' => hls l' (List.mem_cons_of_mem _ hl')) h₂)
      · cases h

/-- The first upstream is removed while the other one still resolves. -/
theorem removal_outcome_sample :
    ∃ w w' w₁ w₂, Reach Steps Free (World.new sampleParsed) w ∧ Reach Steps (Meets 2 sampleChoice.rebuild) w w' ∧
      w'.calls 2 = .done (.ok ()) ∧ Reach Steps Free w w₁ ∧ Reach Steps Free w₂ w' ∧
      ∀ current, w₁.shared.catalog.upstreams (Str.lit "app") = some current → sampleRemoval.upstream ∈ current →
        Removal sampleParsed (Str.lit "app") sampleRemoval.upstream sampleChoice.rebuild (.ok ()) current w₁.shared.catalog
          w₂.shared.catalog := by
  obtain ⟨w, hrun, -, hcheck⟩ := reach_of_check Free Free removalRun sampleParsed 3
    (fun w => (w.calls 2).waitsFor sampleRemoval && (runAllowed step Free w (steps 2 5)).any fun w' => (w'.calls 2).resolved)
    (fun _ _ _ => id) (by decide) (by decide +kernel)
  rw [Bool.and_eq_true] at hcheck
  obtain ⟨w', hrun', hdone⟩ := (Option.any_eq_true _ _).mp hcheck.2
  have hmeets : Reach Steps (Meets 2 sampleChoice.rebuild) w w' := by
    refine reach_meets (fun l hl w p hp _ => ?_) hrun'
    rw [List.eq_of_mem_replicate hl] at hp
    rw [← Option.some.inj hp]
  have hdone := Pc.resolved_iff.mp hdone
  obtain ⟨w₁, l, w₂, order, hbefore, -, hafter, -, hremoval⟩ :=
    removal_outcome sample_new hrun (waitsFor_iff.mp hcheck.1) hmeets hdone
  exact ⟨w, w', w₁, w₂, hrun, hmeets, hdone, hbefore, hafter, hremoval⟩

/-- The other upstream no longer resolves. -/
def siblingGone : Choice :=
  { sampleChoice with
    rebuild := .ok ⟨fun u => if u.port = 8081 then .error (Str.lit "not known") else .ok [⟨u.hostname, false, u.port⟩],
      fun _ => .ok (), .stored, .stored⟩ }

def Pc.rejected : Pc → Bool
  | .done (.error _) => true
  | _ => false

theorem rejected_iff {pc : Pc} : pc.rejected = true ↔ ∃ err, pc = .done (.error err) := by
  unfold Pc.rejected
  split <;> simp_all

/-- The first upstream cannot be removed then. -/
theorem removal_refused :
    ∃ w w' current err, Proxy.new sampleOptions = .ok (World.new sampleParsed) ∧ Reach Steps Free (World.new sampleParsed) w ∧
      w.shared.catalog.upstreams (Str.lit "app") = some current ∧ sampleRemoval.upstream ∈ current ∧
      w.shared.updateLock = none ∧ w.calls 2 = .updateLock sampleRemoval ∧
      Reach Steps (Meets 2 siblingGone.rebuild) w w' ∧ w'.calls 2 = .done (.error err) := by
  obtain ⟨w, hrun, -, hcheck⟩ := reach_of_check Free Free removalRun sampleParsed 3
    (fun w => (w.calls 2).waitsFor sampleRemoval && w.shared.updateLock == none &&
      ((w.shared.inner.upstreamsByApp.get (Str.lit "app")).any fun set => set.contains sampleRemoval.upstream) &&
      (runAllowed step Free w (List.replicate 3 (.advance 2 siblingGone))).any fun w' => (w'.calls 2).rejected)
    (fun _ _ _ => id) (by decide) (by decide +kernel)
  simp only [Bool.and_eq_true, beq_iff_eq] at hcheck
  obtain ⟨⟨⟨hcall, hlock⟩, hset⟩, hany⟩ := hcheck
  obtain ⟨set, hget, hmem⟩ := (Option.any_eq_true _ _).mp hset
  obtain ⟨w', hrun', hrejected⟩ := (Option.any_eq_true _ _).mp hany
  obtain ⟨err, hdone⟩ := rejected_iff.mp hrejected
  refine ⟨w, w', {u | set.contains u = true}, err, sample_new, hrun, ?_, hmem, hlock, waitsFor_iff.mp hcall, ?_, hdone⟩
  · have hcatalog : w.shared.catalog.upstreamsByApp.get (Str.lit "app") = some set := hget
    rw [Catalog.upstreams, hcatalog]
    rfl
  · refine reach_meets (fun l hl w p hp _ => ?_) hrun'
    rw [List.eq_of_mem_replicate hl] at hp
    rw [← Option.some.inj hp]

end NeemataProxy
