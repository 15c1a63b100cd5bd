import NeemataProxy.Proxy.World
import NeemataProxy.Proxy.Lemmas.Updates

/-!
# Updates without the lifecycle

The abstract machine keeps what updates read and write and the stage of each call in its update, and leaves out the
state of the proxy and its services. The invariant says that the recorded updates, run one at a time, give the
recorded results and the present tables.
-/

namespace NeemataProxy

open Lib Routing Options

/-! ## One at a time -/

/-- The updates run one after the other. -/
def runUpdates (options : ProxyOptionsParsed) : Catalog → List UpdateRecord → Catalog × List (Except JsError Unit)
  | c, [] => (c, [])
  | c, r :: rs =>
      let one := applyUpdate options r.request r.env r.order c
      let rest := runUpdates options one.1 rs
      (rest.1, one.2 :: rest.2)

theorem runUpdates_append (options : ProxyOptionsParsed) (c : Catalog) (rs : List UpdateRecord) (r : UpdateRecord) :
    runUpdates options c (rs ++ [r]) =
      let before := runUpdates options c rs
      let one := applyUpdate options r.request r.env r.order before.1
      (one.1, before.2 ++ [one.2]) := by
  induction rs generalizing c with
  | nil => rfl
  | cons r' rs ih => simp [runUpdates, ih]

/-- What holds at first and is kept by every update with its recorded result holds after all of them. -/
theorem runUpdates_invariant {options : ProxyOptionsParsed} {P : List UpdateRecord → Catalog → Prop} {c : Catalog}
    (hinit : P [] c) (hstep : ∀ history r c, P history c → (applyUpdate options r.request r.env r.order c).2 = r.result →
      P (history ++ [r]) (applyUpdate options r.request r.env r.order c).1) {history : List UpdateRecord}
    (hresults : (runUpdates options c history).2 = history.map UpdateRecord.result) :
    P history (runUpdates options c history).1 := by
  induction history using List.reverseRecOn with
  | nil => exact hinit
  | append_singleton history r ih =>
      rw [runUpdates_append] at hresults ⊢
      rw [List.map_append] at hresults
      obtain ⟨hbefore, hone⟩ := List.append_inj' hresults rfl
      exact hstep history r _ (ih hbefore) (List.cons.inj hone).1

/-! ## The machine -/

structure Ledger where
  options : ProxyOptionsParsed
  catalog : Catalog
  lock : Option CallId
  history : List UpdateRecord

/-- How far a call is in its update. -/
inductive Stage where
  | idle
  | bystander
  | waiting (req : UpdateRequest)
  | checking (req : UpdateRequest)
  | rebuilding (req : UpdateRequest) (next : Snapshot)
  | committing (req : UpdateRequest) (next : Snapshot) (env : Except Str RebuildEnv) (rebuilt : Rebuilt)
  | serving (req : UpdateRequest)
  | ended (result : Except JsError Unit)

/-- The request of an update in flight. -/
def Stage.request : Stage → Option UpdateRequest
  | .waiting req | .checking req | .rebuilding req _ | .committing req _ _ _ | .serving req => some req
  | _ => none

namespace Ledger

/-- A failed update is recorded and gives the lock back. -/
def fail (u : Ledger) (r : UpdateRecord) : Ledger := { u with lock := none, history := u.history ++ [r] }

def countRebuild (u : Ledger) : Ledger := { u with catalog := { u.catalog with rebuilds := u.catalog.rebuilds + 1 } }

/-- A step of call `c` from one stage to another. -/
inductive Step (u : Ledger) (c : CallId) : Stage → Ledger → Stage → Prop where
  | stay (stage : Stage) : Step u c stage u stage
  | bystands : Step u c .idle u .bystander
  | ends {stage : Stage} (h : stage = .idle ∨ stage = .bystander) (result : Except JsError Unit) :
      Step u c stage u (.ended result)
  | called (req : UpdateRequest) : Step u c .idle u (.waiting req)
  | locked (req : UpdateRequest) (hlock : u.lock = none) :
      Step u c (.waiting req) { u with lock := some c } (.checking req)
  | refused {req : UpdateRequest} {err : JsError} (env : Except Str RebuildEnv)
      (order : IterOrder (TransportKind × PoolConfig))
      (h : prepareUpdate u.options u.catalog.upstreamsByApp req = .error err) :
      Step u c (.checking req) (u.fail ⟨c, req, env, order, .error err⟩) (.ended (.error err))
  | prepared {req : UpdateRequest} {next : Snapshot}
      (h : prepareUpdate u.options u.catalog.upstreamsByApp req = .ok next) :
      Step u c (.checking req) u (.rebuilding req next)
  | rebuildFailed {req : UpdateRequest} {next : Snapshot} {err : JsError} (env : Except Str RebuildEnv)
      (order : IterOrder (TransportKind × PoolConfig)) (h : rebuildUpdate req next u.catalog.rebuilds env = .error err) :
      Step u c (.rebuilding req next) (u.countRebuild.fail ⟨c, req, env, order, .error err⟩) (.ended (.error err))
  | rebuilt {req : UpdateRequest} {next : Snapshot} {result : Rebuilt} (env : Except Str RebuildEnv)
      (h : rebuildUpdate req next u.catalog.rebuilds env = .ok result) :
      Step u c (.rebuilding req next) u.countRebuild (.committing req next env result)
  | commitFailed {req : UpdateRequest} {next : Snapshot} {result : Rebuilt} {err : JsError} (env : Except Str RebuildEnv)
      (order : IterOrder (TransportKind × PoolConfig))
      (h : commitUpdate u.options order req next result u.catalog = .error err) :
      Step u c (.committing req next env result) (u.fail ⟨c, req, env, order, .error err⟩) (.ended (.error err))
  | committed {req : UpdateRequest} {next : Snapshot} {result : Rebuilt} {catalog : Catalog}
      {services : List ServiceUpdate} (env : Except Str RebuildEnv) (order : IterOrder (TransportKind × PoolConfig))
      (h : commitUpdate u.options order req next result u.catalog = .ok (catalog, services)) :
      Step u c (.committing req next env result)
        { u with catalog := catalog, history := u.history ++ [⟨c, req, env, order, .ok ()⟩] } (.serving req)
  | released (req : UpdateRequest) : Step u c (.serving req) { u with lock := none } (.ended (.ok ()))

/-! ## The invariant -/

/-- The recorded updates, run one at a time. -/
def replay (c₀ : Catalog) (u : Ledger) : Catalog × List (Except JsError Unit) := runUpdates u.options c₀ u.history

def Unrecorded (u : Ledger) (c : CallId) : Prop := ∀ r ∈ u.history, r.call ≠ c

/-- All rebuilds so far belong to recorded updates. -/
def Settled (c₀ : Catalog) (u : Ledger) : Prop := u.catalog.rebuilds = (u.replay c₀).1.rebuilds

/-- What a call knows at its stage: a call that has passed the lock holds it, and what it has read and computed is what
it would read and compute now. -/
def Knows (c₀ : Catalog) (u : Ledger) (c : CallId) : Stage → Prop
  | .idle | .waiting _ => u.Unrecorded c
  | .checking _ => u.lock = some c ∧ u.Unrecorded c ∧ u.Settled c₀
  | .rebuilding req next => u.lock = some c ∧ u.Unrecorded c ∧ u.Settled c₀ ∧
      prepareUpdate u.options u.catalog.upstreamsByApp req = .ok next
  | .committing req next env rebuilt => u.lock = some c ∧ u.Unrecorded c ∧
      u.catalog.rebuilds = (u.replay c₀).1.rebuilds + 1 ∧
      prepareUpdate u.options u.catalog.upstreamsByApp req = .ok next ∧
      rebuildUpdate req next (u.replay c₀).1.rebuilds env = .ok rebuilt
  | .serving req => u.lock = some c ∧ u.Settled c₀ ∧ ∃ env order, ⟨c, req, env, order, .ok ()⟩ ∈ u.history
  | .bystander | .ended _ => True

structure Inv (c₀ : Catalog) (u : Ledger) (stages : CallId → Stage) : Prop where
  results : (u.replay c₀).2 = u.history.map UpdateRecord.result
  tables : SameTables (u.replay c₀).1 u.catalog
  once : (u.history.map UpdateRecord.call).Nodup
  free : u.lock = none → u.Settled c₀
  knows : ∀ c, u.Knows c₀ c (stages c)

variable {c₀ : Catalog} {u u' : Ledger} {c c' : CallId} {stages : CallId → Stage} {stage stage' : Stage}

theorem Unrecorded.append {r : UpdateRecord} (h : u.Unrecorded c) (hr : r.call ≠ c) :
    ∀ r' ∈ u.history ++ [r], r'.call ≠ c := by
  intro r' hr'
  rcases List.mem_append.mp hr' with hmem | hmem
  · exact h r' hmem
  · exact List.mem_singleton.mp hmem ▸ hr

/-- A call that does not hold the lock knows only that it has no record. -/
theorem Knows.of_unlocked (h : u.Knows c₀ c stage) (hlock : u.lock ≠ some c)
    (hrecord : u.Unrecorded c → u'.Unrecorded c) : u'.Knows c₀ c stage := by
  cases stage with
  | idle | waiting => exact hrecord h
  | bystander | ended => trivial
  | checking | rebuilding | committing | serving => exact absurd h.1 hlock

theorem knows_update (hself : u'.Knows c₀ c stage') (hother : ∀ c', c' ≠ c → u'.Knows c₀ c' (stages c')) (c' : CallId) :
    u'.Knows c₀ c' (Function.update stages c stage' c') := by
  by_cases h : c' = c
  · subst h; simpa using hself
  · simpa [h] using hother c' h

theorem replay_append (c₀ : Catalog) (u : Ledger) (r : UpdateRecord) (catalog : Catalog) (lock : Option CallId) :
    replay c₀ { u with catalog := catalog, lock := lock, history := u.history ++ [r] } =
      let one := applyUpdate u.options r.request r.env r.order (u.replay c₀).1
      (one.1, (u.replay c₀).2 ++ [one.2]) := runUpdates_append _ _ _ _

theorem Inv.recorded (h : u.Inv c₀ stages) (r : UpdateRecord) (catalog : Catalog) {lock : Option CallId}
    (hlock : u.lock = some r.call) (hcall : u.Unrecorded r.call)
    (hone : applyUpdate u.options r.request r.env r.order (u.replay c₀).1 = (catalog, r.result))
    (hself : Knows c₀ { u with catalog := catalog, lock := lock, history := u.history ++ [r] } r.call stage') :
    Inv c₀ { u with catalog := catalog, lock := lock, history := u.history ++ [r] }
      (Function.update stages r.call stage') := by
  have hreplay := replay_append c₀ u r catalog lock
  simp only [hone] at hreplay
  refine ⟨?_, ?_, ?_, fun _ => ?_, knows_update hself fun c' hc' => ?_⟩
  · rw [hreplay, h.results, List.map_append]
    rfl
  · rw [hreplay]
    exact .refl _
  · rw [List.map_append, List.nodup_append]
    refine ⟨h.once, List.nodup_singleton _, ?_⟩
    rintro x hx y hy rfl
    obtain ⟨r', hr', rfl⟩ := List.mem_map.mp hx
    exact hcall r' hr' (List.mem_singleton.mp hy)
  · rw [Settled, hreplay]
  · refine (h.knows c').of_unlocked (by simp [hlock, Ne.symm hc']) fun hrec => hrec.append (Ne.symm hc')

theorem Inv.step (h : u.Inv c₀ stages) (hstep : Step u c (stages c) u' stage') :
    u'.Inv c₀ (Function.update stages c stage') := by
  have hknows := h.knows c
  generalize hstage : stages c = stage at hstep hknows
  -- the call moves on and nothing else changes
  have hmove : ∀ {stage'}, u.Knows c₀ c stage' → u.Inv c₀ (Function.update stages c stage') := fun hself =>
    ⟨h.results, h.tables, h.once, h.free, knows_update hself fun c' _ => h.knows c'⟩
  cases hstep with
  | stay => rw [← hstage, Function.update_eq_self]; exact h
  | bystands | ends => exact hmove trivial
  | called req => exact hmove hknows
  | prepared hprepare => exact hmove ⟨hknows.1, hknows.2.1, hknows.2.2, hprepare⟩
  | locked req hlock =>
      refine ⟨h.results, h.tables, h.once, fun hl => by simp at hl, knows_update ?_ fun c' hc' => ?_⟩
      · exact ⟨rfl, hknows, h.free hlock⟩
      · exact (h.knows c').of_unlocked (by simp [hlock]) id
  | released req =>
      refine ⟨h.results, h.tables, h.once, fun _ => hknows.2.1, knows_update trivial fun c' hc' => ?_⟩
      exact (h.knows c').of_unlocked (by simp [hknows.1, Ne.symm hc']) id
  | @rebuilt req next result env hrebuild =>
      obtain ⟨hlock, hrec, hsettled, hprepare⟩ := hknows
      refine ⟨h.results, ⟨h.tables.1, h.tables.2, h.tables.3⟩, h.once, fun hl => ?_, knows_update ?_ fun c' hc' => ?_⟩
      · simp [countRebuild, hlock] at hl
      · exact ⟨hlock, hrec, congrArg (· + 1) hsettled, hprepare, hsettled ▸ hrebuild⟩
      · exact (h.knows c').of_unlocked (by simp [hlock, Ne.symm hc']) id
  | @refused req err env order hprepare =>
      obtain ⟨hlock, hrec, hsettled⟩ := hknows
      refine h.recorded ⟨c, req, env, order, .error err⟩ u.catalog hlock hrec ?_ trivial
      have hcatalog := h.tables.eq hsettled
      simp only [applyUpdate]
      rw [← hcatalog, hprepare]
  | @rebuildFailed req next err env order hrebuild =>
      obtain ⟨hlock, hrec, hsettled, hprepare⟩ := hknows
      refine h.recorded ⟨c, req, env, order, .error err⟩ u.countRebuild.catalog hlock hrec
        ?_ trivial
      have hcatalog := h.tables.eq hsettled
      simp only [applyUpdate]
      rw [← hcatalog, hprepare]
      simp only [hrebuild, countRebuild]
  | @commitFailed req next result err env order hcommit =>
      obtain ⟨hlock, hrec, hcount, hprepare, hrebuild⟩ := hknows
      refine h.recorded ⟨c, req, env, order, .error err⟩ u.catalog hlock hrec ?_ trivial
      simp only
      rw [applyUpdate_of_rebuilt order h.tables hcount hprepare hrebuild, hcommit]
  | @committed req next result catalog services env order hcommit =>
      obtain ⟨hlock, hrec, hcount, hprepare, hrebuild⟩ := hknows
      have hone : applyUpdate u.options req env order (u.replay c₀).1 = (catalog, .ok ()) := by
        rw [applyUpdate_of_rebuilt order h.tables hcount hprepare hrebuild, hcommit]
      refine h.recorded ⟨c, req, env, order, .ok ()⟩ catalog hlock hrec hone ?_
      refine ⟨hlock, ?_, env, order, by simp⟩
      have hreplay := replay_append c₀ u ⟨c, req, env, order, .ok ()⟩ catalog u.lock
      simp only [hone] at hreplay
      rw [Settled, hreplay]

end Ledger

end NeemataProxy
