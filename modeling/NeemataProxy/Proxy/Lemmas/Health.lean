import NeemataProxy.Proxy.Lemmas.Ledger
import NeemataProxy.Proxy.Lemmas.Serving

/-!
# Health tasks and pools

While the proxy runs, each pool has the health task of its balancer registered, up to what the update that holds the
lock is still going to change.
-/

namespace NeemataProxy

open Lib Routing Options

/-! ## Definitions -/

def Server.Runs (s : Server) (n : Str) (lb : LoadBalancer) : Prop :=
  ∃ h, s.services.get n = some h ∧ s.serviceOf h = some (.health lb)

/-- What is registered for a pool is what the pool wants. -/
def Server.Matches (s : Server) (pools : Pools) (app : Str) (t : TransportKind) : Prop :=
  match pools.get (app, t) with
  | some pool => s.Runs (lbServiceName app t) pool.lb
  | none => s.services.get (lbServiceName app t) = none

/-- The balancer is the one of the pool that the service is named after. -/
def Pools.Wants (pools : Pools) (n : Str) (lb : LoadBalancer) : Prop :=
  ∃ app t pool, n = lbServiceName app t ∧ pools.get (app, t) = some pool ∧ pool.lb = lb

/-- The service is named after no pool. -/
def Pools.Unwanted (pools : Pools) (n : Str) : Prop := ∃ app t, n = lbServiceName app t ∧ pools.get (app, t) = none

/-- The health task that a call has spawned is wanted. -/
def SpawnWanted (s : Server) (pools : Pools) (hands : Hands) : Prop :=
  ∀ n h, hands.spawned = some (n, h) → n = mainServiceName ∨ ∃ lb, s.serviceOf h = some (.health lb) ∧ pools.Wants n lb

/-- What an update is still going to do fits the pools. -/
structure TodoFits (s : Server) (pools : Pools) (todo : List ServiceUpdate) (hands : Hands) : Prop where
  upserts : ∀ n lb, .upsert n lb ∈ todo → pools.Wants n lb
  removes : ∀ n, .remove n ∈ todo → pools.Unwanted n
  spawned : SpawnWanted s pools hands

def Pc.Fitting (s : Server) (pools : Pools) : Pc → Prop
  | .updateServices _ todo hands => TodoFits s pools todo hands
  | _ => True

/-- The update is going to register or to remove the service. -/
def Pc.Pending (n : Str) : Pc → Prop
  | .updateServices _ todo hands => (∃ u ∈ todo, u.name = n) ∨ ∃ h, hands.spawned = some (n, h)
  | _ => False

/-- The health tasks that a start has still to spawn. -/
def Pc.assigned : Pc → List (Str × LoadBalancer)
  | .startSetup _ lbTasks | .startRegister _ _ lbTasks _ => lbTasks
  | _ => []

/-- A start attempt has registered the health tasks of all pools but those it has still to register. -/
structure Attending (s : Server) (pools : Pools) (pc : Pc) : Prop where
  covered : ∀ app t, s.Matches pools app t ∨ (∃ h, pc.hands.spawned = some (lbServiceName app t, h)) ∨
    ∃ lb, (lbServiceName app t, lb) ∈ pc.assigned
  assigned : ∀ n lb, (n, lb) ∈ pc.assigned → pools.Wants n lb
  spawned : SpawnWanted s pools pc.hands

def Pc.committing : Pc → Bool
  | .updateCommit _ _ _ _ => true
  | _ => false

/-- An update does not commit while the proxy is starting. -/
def CommitsOutsideStarting (w : World) (l : Label) : Prop :=
  ∀ p ∈ l.call, (w.calls p.1).committing = true → w.shared.inner.state ≠ .starting

instance (w : World) (l : Label) : Decidable (CommitsOutsideStarting w l) :=
  inferInstanceAs (Decidable (∀ p ∈ l.call, (w.calls p.1).committing = true → w.shared.inner.state ≠ .starting))

structure Healthy (w : World) : Prop where
  fitting : ∀ c, (w.calls c).Fitting w.shared.server w.shared.inner.pools
  starting : w.shared.inner.state = .starting → w.Stale ∨
    ∀ c a, (w.calls c).role = .opening a → Attending w.shared.server w.shared.inner.pools (w.calls c)
  running : w.shared.inner.state = .running → w.Stale ∨
    ∀ app t, w.shared.server.Matches w.shared.inner.pools app t ∨ ∃ c, (w.calls c).Pending (lbServiceName app t)

/-! ## What the pools want -/

theorem Pools.Wants.get {pools : Pools} {app : Str} {t : TransportKind} {lb : LoadBalancer}
    (h : pools.Wants (lbServiceName app t) lb) : ∃ pool, pools.get (app, t) = some pool ∧ pool.lb = lb := by
  obtain ⟨app', t', pool, hn, hpool, hlb⟩ := h
  obtain ⟨rfl, rfl⟩ := lbServiceName_inj hn
  exact ⟨pool, hpool, hlb⟩

theorem Pools.Unwanted.get {pools : Pools} {app : Str} {t : TransportKind} (h : pools.Unwanted (lbServiceName app t)) :
    pools.get (app, t) = none := by
  obtain ⟨app', t', hn, hnone⟩ := h
  obtain ⟨rfl, rfl⟩ := lbServiceName_inj hn
  exact hnone

theorem matches_of_wants {s : Server} {pools : Pools} {app : Str} {t : TransportKind} {lb : LoadBalancer}
    (h : pools.Wants (lbServiceName app t) lb) (hruns : s.Runs (lbServiceName app t) lb) : s.Matches pools app t := by
  obtain ⟨pool, hpool, rfl⟩ := h.get
  rw [Server.Matches, hpool]
  exact hruns

/-! ## The registry under one step -/

theorem runs_of_kept {s s' : Server} {n : Str} {lb : LoadBalancer} (hget : s'.services.get n = s.services.get n)
    (hs : ∀ h x, s.serviceOf h = some x → s'.serviceOf h = some x) (h : s.Runs n lb) : s'.Runs n lb := by
  obtain ⟨t, ht, hx⟩ := h
  exact ⟨t, hget.trans ht, hs t _ hx⟩

theorem matches_of_kept {s s' : Server} {pools : Pools} {app : Str} {t : TransportKind}
    (hget : s'.services.get (lbServiceName app t) = s.services.get (lbServiceName app t))
    (hs : ∀ h x, s.serviceOf h = some x → s'.serviceOf h = some x) (h : s.Matches pools app t) : s'.Matches pools app t := by
  unfold Server.Matches at *
  split at h
  · exact runs_of_kept hget hs h
  · exact hget.trans h

theorem SpawnWanted.mono {s s' : Server} {pools : Pools} {hands : Hands}
    (hs : ∀ h x, s.serviceOf h = some x → s'.serviceOf h = some x) (h : SpawnWanted s pools hands) :
    SpawnWanted s' pools hands := by
  intro n t ht
  exact (h n t ht).imp id fun ⟨lb, hx, hw⟩ => ⟨lb, hs _ _ hx, hw⟩

theorem spawnWanted_of_none {s : Server} {pools : Pools} {hands : Hands} (h : hands.spawned = none) :
    SpawnWanted s pools hands := fun n t ht => by simp [h] at ht

theorem spawnWanted_register {s : Server} {pools : Pools} {n : Str} {lb : LoadBalancer} (h : pools.Wants n lb) :
    SpawnWanted (s.spawn (.health lb)) pools (.register n s.nextHandle) := by
  intro n' t ht
  obtain ⟨rfl, rfl⟩ := Prod.mk.inj (Option.some.inj ht)
  exact .inr ⟨lb, Server.serviceOf_nextHandle _ _, h⟩

/-- What happens to the service of a name in one step of a call. -/
theorem name_act {s s' : Shared} {c : CallId} {choice : Choice} {pc pc' : Pc} (hact : Act s c choice pc s' pc') (n : Str) :
    s'.server.services.get n = s.server.services.get n ∨
      (∃ h, pc.hands.spawned = some (n, h) ∧ s'.server.services.get n = some h) ∨
      (∃ req todo hands, pc = .updateServices req (.remove n :: todo) hands ∧ s'.server.services.get n = none) ∨
      ∃ seen, pc.role = .closing seen ∧ pc'.role = .closing seen ∧ s'.inner.state = s.inner.state := by
  cases hact with
  | @inserted _ name h hhands =>
      by_cases heq : n = name
      · subst heq
        exact .inr (.inl ⟨h, hhands, by simp [Shared.onServer, HashMap.get_insert]⟩)
      · exact .inl (by simp [Shared.onServer, HashMap.get_insert, heq])
  | updateRemoved req name todo =>
      by_cases heq : n = name
      · subst heq
        exact .inr (.inr (.inl ⟨req, todo, .empty, rfl, by simp [Shared.onServer, HashMap.get_remove]⟩))
      · exact .inl (by simp [Shared.onServer, HashMap.get_remove, heq])
  | cancelTook => exact .inr (.inr (.inr ⟨_, rfl, rfl, rfl⟩))
  | stopTook => exact .inr (.inr (.inr ⟨_, rfl, rfl, rfl⟩))
  | signalled => exact .inl (by simp [Shared.onServer])
  | setupFailed => exact .inl (by rw [Shared.failStart, server_notifyStart])
  | finalised | cancelled => exact .inl (by rw [server_notifyStart])
  | stopBegunWaiting | stopBegun => exact .inl (by rw [server_beginStop])
  | stopEnded => exact .inl (by rw [server_endStop])
  | _ => exact .inl rfl

/-- A call that registers what is wanted and removes what is not keeps a match, unless it takes all services. -/
theorem matches_act {s s' : Shared} {c : CallId} {choice : Choice} {pc pc' : Pc} (hact : Act s c choice pc s' pc')
    {pools : Pools} (hspawned : SpawnWanted s.server pools pc.hands) (hfitting : pc.Fitting s.server pools) {app : Str}
    {t : TransportKind} (h : s.server.Matches pools app t) :
    s'.server.Matches pools app t ∨ ∃ seen, pc.role = .closing seen ∧ pc'.role = .closing seen ∧
      s'.inner.state = s.inner.state := by
  have hmono := fun t x => (act_handStep hact).serviceOf (h := t) (x := x)
  rcases name_act hact (lbServiceName app t) with hget | ⟨t', ht, hget⟩ | ⟨req, todo, hands, rfl, hget⟩ | hclose
  · exact .inl (matches_of_kept hget hmono h)
  · rcases hspawned _ _ ht with hmain | ⟨lb, hx, hwants⟩
    · exact absurd hmain (lbServiceName_ne_main app t)
    · exact .inl (matches_of_wants hwants ⟨t', hget, hmono _ _ hx⟩)
  · refine .inl ?_
    rw [Server.Matches, (hfitting.removes _ List.mem_cons_self).get]
    exact hget
  · exact .inr hclose

/-- What an update was going to change it still is, or has changed. -/
theorem pending_act {s s' : Shared} {c : CallId} {choice : Choice} {pc pc' : Pc} (hact : Act s c choice pc s' pc')
    {pools : Pools} (hfitting : pc.Fitting s.server pools) {app : Str} {t : TransportKind}
    (h : pc.Pending (lbServiceName app t)) : pc'.Pending (lbServiceName app t) ∨ s'.server.Matches pools app t := by
  have hmono := fun t x => (act_handStep hact).serviceOf (h := t) (x := x)
  cases hact with
  | @inserted _ name h' hhands =>
      cases pc with
      | updateServices req todo hands =>
          rcases h with hu | ⟨h, hspawned⟩
          · exact .inl (.inl hu)
          · have hget : (s.onServer (s.server.insert name h')).server.services.get (lbServiceName app t) = some h := by
              obtain ⟨rfl, rfl⟩ := Prod.mk.inj (Option.some.inj (hspawned.symm.trans hhands))
              simp [Shared.onServer, HashMap.get_insert]
            rcases hfitting.spawned _ _ hspawned with hmain | ⟨lb, hx, hwants⟩
            · exact absurd hmain (lbServiceName_ne_main app t)
            · exact .inr (matches_of_wants hwants ⟨h, hget, hmono _ _ hx⟩)
      | _ => exact h.elim
  | signalled hhands | awaited hhands =>
      cases pc with
      | updateServices req todo hands =>
          rcases h with hu | ⟨h, hspawned⟩
          · exact .inl (.inl hu)
          · simp [show hands = _ from hhands] at hspawned
      | _ => exact h.elim
  | updateSpawned req name lb todo =>
      refine .inl ?_
      rcases h with ⟨u, hu, hname⟩ | ⟨h, hspawned⟩
      · rcases List.mem_cons.mp hu with rfl | hu
        · exact .inr ⟨_, by rw [← hname]; rfl⟩
        · exact .inl ⟨u, hu, hname⟩
      · simp [Hands.empty] at hspawned
  | updateRemoved req name todo =>
      rcases h with ⟨u, hu, hname⟩ | ⟨h, hspawned⟩
      · rcases List.mem_cons.mp hu with rfl | hu
        · refine .inr ?_
          obtain rfl : name = lbServiceName app t := hname
          rw [Server.Matches, (hfitting.removes _ List.mem_cons_self).get]
          simp [Shared.onServer, HashMap.get_remove]
        · exact .inl (.inl ⟨u, hu, hname⟩)
      · simp [Hands.empty] at hspawned
  | updateEnded req =>
      rcases h with ⟨u, hu, -⟩ | ⟨h, hspawned⟩
      · simp at hu
      · simp [Hands.empty] at hspawned
  | _ => exact h.elim

/-! ## Updates fit the pools -/

theorem pools_notifyStart (s : Shared) (result : Except Str Unit) : (s.notifyStart result).inner.pools = s.inner.pools :=
  congrArg (fun u => u.catalog.pools) (ledger_notifyStart s result)

/-- Only a commit changes the pools. -/
theorem pools_act {s s' : Shared} {c : CallId} {choice : Choice} {pc pc' : Pc} (hact : Act s c choice pc s' pc') :
    s'.inner.pools = s.inner.pools ∨ ∃ req next env rebuilt, pc = .updateCommit req next env rebuilt := by
  cases hact with
  | setupFailed => exact .inl (pools_notifyStart _ _)
  | finalised | cancelled => exact .inl (pools_notifyStart _ _)
  | stopBegunWaiting | stopBegun => exact .inl (congrArg (fun u => u.catalog.pools) (ledger_beginStop s))
  | stopEnded => exact .inl (congrArg (fun u => u.catalog.pools) (ledger_endStop s))
  | committed => exact .inr ⟨_, _, _, _, rfl⟩
  | _ => exact .inl rfl

theorem Pc.Fitting.mono {s s' : Server} {pools : Pools} {pc : Pc} (h : pc.Fitting s pools)
    (hs : ∀ h x, s.serviceOf h = some x → s'.serviceOf h = some x) : pc.Fitting s' pools := by
  cases pc with
  | updateServices req todo hands => exact ⟨h.upserts, h.removes, h.spawned.mono hs⟩
  | _ => trivial

theorem Pc.Fitting.withHands {s : Server} {pools : Pools} {pc : Pc} (h : pc.Fitting s pools) {hands : Hands}
    (hnone : hands.spawned = none) : (pc.withHands hands).Fitting s pools := by
  cases pc with
  | updateServices req todo _ => exact ⟨h.upserts, h.removes, spawnWanted_of_none hnone⟩
  | _ => trivial

theorem TodoFits.tail {s : Server} {pools : Pools} {u : ServiceUpdate} {todo : List ServiceUpdate} {hands hands' : Hands}
    {s' : Server} (h : TodoFits s pools (u :: todo) hands) (hspawned : SpawnWanted s' pools hands') :
    TodoFits s' pools todo hands' :=
  ⟨fun n lb hu => h.upserts n lb (List.mem_cons_of_mem _ hu), fun n hu => h.removes n (List.mem_cons_of_mem _ hu), hspawned⟩

theorem fitting_act {s s' : Shared} {c : CallId} {choice : Choice} {pc pc' : Pc} (hact : Act s c choice pc s' pc')
    {c₀ : Catalog} (hknows : s.ledger.Knows c₀ c pc.stage) (h : pc.Fitting s.server s.inner.pools) :
    pc'.Fitting s'.server s'.inner.pools := by
  have hmono := fun t x => (act_handStep hact).serviceOf (h := t) (x := x)
  cases hact with
  | inserted | signalled => exact (h.withHands rfl).mono hmono
  | awaited => exact h.withHands rfl
  | @committed req next env result catalog services hcommit =>
      obtain ⟨env', -, hrebuilt⟩ := rebuildUpdate_spec hknows.2.2.2.2
      have hspec := commitUpdate_spec hrebuilt.removed hcommit
      have htodo : ∀ u, u ∈ (if s.inner.state = .running then services else []) → u ∈ services := fun u hu => by
        split at hu
        · exact hu
        · simp at hu
      exact ⟨fun n lb hu => hspec.upserts n lb (htodo _ hu), fun n hu => hspec.removes n (htodo _ hu), spawnWanted_of_none rfl⟩
  | updateSpawned req name lb todo => exact h.tail (spawnWanted_register (h.upserts _ _ List.mem_cons_self))
  | updateRemoved req name todo => exact h.tail (spawnWanted_of_none rfl)
  | _ => trivial

/-- The call that commits is the only one that has passed the lock. -/
theorem Ledgered.unique {c₀ : Catalog} {w : World} (h : Ledgered c₀ w) {c c' : CallId} {req req' : UpdateRequest}
    {next : Snapshot} {env : Except Str RebuildEnv} {rebuilt : Rebuilt} {todo : List ServiceUpdate} {hands : Hands}
    (hc : w.calls c = .updateCommit req next env rebuilt) (hc' : w.calls c' = .updateServices req' todo hands) : False := by
  have hk := h.knows c
  have hk' := h.knows c'
  simp only [World.stages, hc, hc', Pc.stage] at hk hk'
  obtain rfl : c = c' := Option.some.inj (hk.1.symm.trans hk'.1)
  simp [hc] at hc'

/-! ## Starts attend to the pools -/

theorem attending_begun {s : Shared} {order : IterOrder ((Str × TransportKind) × PoolConfig)} {attempt : Nat}
    (hempty : ∀ app t, s.server.services.get (lbServiceName app t) = none) :
    Attending s.server s.inner.pools (.startSetup attempt (s.lbTasks order)) := by
  have hmem : ∀ n lb, (n, lb) ∈ s.lbTasks order ↔ s.inner.pools.Wants n lb := by
    intro n lb
    simp only [Shared.lbTasks, List.mem_map, (order.perm _).mem_iff, Prod.mk.injEq, Pools.Wants, HashMap.get_eq_some]
    constructor
    · rintro ⟨e, he, rfl, rfl⟩
      exact ⟨e.1.1, e.1.2, e.2, rfl, he, rfl⟩
    · rintro ⟨app, t, pool, rfl, he, rfl⟩
      exact ⟨_, he, rfl, rfl⟩
  refine ⟨fun app t => ?_, fun n lb h => (hmem n lb).mp h, spawnWanted_of_none rfl⟩
  cases hpool : s.inner.pools.get (app, t) with
  | none =>
      refine .inl ?_
      rw [Server.Matches, hpool]
      exact hempty app t
  | some pool => exact .inr (.inr ⟨pool.lb, (hmem _ _).mpr ⟨app, t, pool, rfl, hpool, rfl⟩⟩)

/-- A start attempt goes on attending to the pools with its own steps. -/
theorem attending_act {s s' : Shared} {c : CallId} {choice : Choice} {pc pc' : Pc} {a : Nat}
    (hact : Act s c choice pc s' pc') (hstate : s.inner.state = .starting) (hrole : pc'.role = .opening a)
    (h : Attending s.server s.inner.pools pc) : Attending s'.server s.inner.pools pc' := by
  have hmono := fun t x => (act_handStep hact).serviceOf (h := t) (x := x)
  -- the steps that keep what is spawned and what is assigned
  cases hact with
  | setupDone => exact ⟨h.covered, h.assigned, h.spawned⟩
  | @inserted _ name t hhands =>
      have hassigned : (pc.withHands (.displaced (s.server.services.get name).toList)).assigned = pc.assigned := by
        cases pc <;> rfl
      have hspawned : (pc.withHands (.displaced (s.server.services.get name).toList)).hands.spawned = none := by
        rw [hands_withHands (by rintro h; simp [h, Hands.empty] at hhands)]
        rfl
      refine ⟨fun app t' => ?_, by rw [hassigned]; exact h.assigned, spawnWanted_of_none hspawned⟩
      rw [hassigned]
      by_cases heq : lbServiceName app t' = name
      · subst heq
        rcases h.spawned _ _ hhands with hmain | ⟨lb, hx, hwants⟩
        · exact absurd hmain (lbServiceName_ne_main app t')
        · exact .inl (matches_of_wants hwants ⟨t, by simp [Shared.onServer, HashMap.get_insert], hmono _ _ hx⟩)
      · rcases h.covered app t' with hm | ⟨t'', ht⟩ | hin
        · exact .inl (matches_of_kept (by simp [Shared.onServer, HashMap.get_insert, heq]) hmono hm)
        · exact absurd (congrArg Prod.fst (Option.some.inj (ht.symm.trans hhands))) heq
        · exact .inr (.inr hin)
  | signalled hhands | awaited hhands =>
      refine ⟨fun app t => ?_, ?_, spawnWanted_of_none ?_⟩
      · rcases h.covered app t with hm | ⟨t', ht⟩ | hin
        · exact .inl (matches_of_kept (by simp [Shared.onServer]) hmono hm)
        · simp [hhands] at ht
        · exact .inr (.inr (by cases pc <;> exact hin))
      · have hassigned := h.assigned
        cases pc <;> exact hassigned
      · have hne : pc.hands ≠ .empty := by rw [hhands]; simp [Hands.empty]
        simp [hands_withHands hne, Hands.displaced]
  | healthSpawned attempt addr name lb lbTasks =>
      refine ⟨fun app t => ?_, fun n lb' hin => h.assigned n lb' (List.mem_cons_of_mem _ hin),
        spawnWanted_register (h.assigned name lb List.mem_cons_self)⟩
      rcases h.covered app t with hm | ⟨t', ht⟩ | ⟨lb', hin⟩
      · exact .inl (matches_of_kept (s := s.server) rfl hmono hm)
      · simp [Pc.hands, Hands.empty] at ht
      · rcases List.mem_cons.mp hin with heq | hin
        · obtain ⟨rfl, rfl⟩ := Prod.mk.inj heq
          exact .inr (.inl ⟨_, rfl⟩)
        · exact .inr (.inr ⟨lb', hin⟩)
  | listenerSpawned attempt addr =>
      refine ⟨fun app t => ?_, fun n lb' hin => by simp [Pc.assigned] at hin, fun n t ht => ?_⟩
      · rcases h.covered app t with hm | ⟨t', ht⟩ | ⟨lb', hin⟩
        · exact .inl (matches_of_kept (s := s.server) rfl hmono hm)
        · simp [Pc.hands, Hands.empty] at ht
        · simp [Pc.assigned] at hin
      · exact .inl (Prod.mk.inj (Option.some.inj ht)).1.symm
  | startBegun hstopped => simp [hstate] at hstopped
  | _ => cases hrole

/-- The steps of another call leave a start attempt attending, unless they take all services. -/
theorem attending_other {s s' : Shared} {c : CallId} {choice : Choice} {pc pc' pc₁ : Pc}
    (hact : Act s c choice pc s' pc') (hspawned : SpawnWanted s.server s.inner.pools pc.hands)
    (hfitting : pc.Fitting s.server s.inner.pools) (h : Attending s.server s.inner.pools pc₁) :
    Attending s'.server s.inner.pools pc₁ ∨ ∃ seen, pc.role = .closing seen ∧ pc'.role = .closing seen ∧
      s'.inner.state = s.inner.state := by
  by_cases hclose : ∃ seen, pc.role = .closing seen ∧ pc'.role = .closing seen ∧ s'.inner.state = s.inner.state
  · exact .inr hclose
  · refine .inl ⟨fun app t => ?_, h.assigned, h.spawned.mono fun t x => (act_handStep hact).serviceOf (h := t) (x := x)⟩
    exact (h.covered app t).imp (fun hm => (matches_act hact hspawned hfitting hm).resolve_right hclose) id

/-! ## Runs -/

/-- A call that settles no attempt spawns only what is wanted. -/
theorem spawnWanted_of_fitting {w : World} {pools : Pools} {c : CallId} (hsound : Sound w)
    (hfitting : (w.calls c).Fitting w.shared.server pools) (hrole : ∀ a, (w.calls c).role ≠ .opening a) :
    SpawnWanted w.shared.server pools (w.calls c).hands := by
  have hformed := hsound.formed c
  cases hpc : w.calls c <;> rw [hpc] at hfitting hrole hformed
  case startRegister a addr lbTasks hands => exact absurd rfl (hrole a)
  case startListen a addr hands => exact absurd rfl (hrole a)
  case startCancelling a hands => exact spawnWanted_of_none hformed
  case stopping seen hands => exact spawnWanted_of_none hformed
  case updateServices req todo hands => exact hfitting.spawned
  all_goals exact spawnWanted_of_none rfl

/-- Only the beginning of a start makes the proxy start. -/
theorem starting_act {s s' : Shared} {c : CallId} {choice : Choice} {pc pc' : Pc} (hact : Act s c choice pc s' pc')
    (hstate : s'.inner.state = .starting) : s.inner.state = .starting ∨
      s.inner.state = .stopped ∧ s' = s.beginStart ∧ pc' = .startSetup s.starts.length (s.lbTasks choice.lbOrder) := by
  cases hact with
  | startBegun hstopped => exact .inr ⟨hstopped, rfl, rfl⟩
  | stopFast hstopped => simp [hstopped] at hstate
  | stopBegunWaiting | stopBegun => unfold Shared.beginStop at hstate; split at hstate <;> simp at hstate
  | setupFailed => unfold Shared.failStart Shared.notifyStart at hstate; split at hstate <;> simp at hstate
  | finalised => unfold Shared.notifyStart at hstate; split at hstate <;> simp at hstate
  | cancelled attempt addr hs =>
      have h : (s.notifyStart (.error Shared.startCancelled)).inner.state = s.inner.state := by
        unfold Shared.notifyStart; split <;> rfl
      rw [h] at hstate
      simp [hstate] at hs
  | cancelEnded => simp [Shared.endCancelledStart] at hstate
  | stopEnded => unfold Shared.endStop Shared.notifyStop at hstate; split at hstate <;> simp at hstate
  | _ => exact .inl hstate

theorem Healthy.new (parsed : ProxyOptionsParsed) : Healthy (World.new parsed) :=
  ⟨fun _ => trivial, fun h => by simp [World.new, Shared.new] at h, fun h => by simp [World.new, Shared.new] at h⟩

/-- While the proxy starts, the pools stay as they are and the start attempt goes on attending to them. -/
theorem Healthy.starting_step {w : World} {l : Label} {c : CallId} {choice : Choice} {s' : Shared} {pc' : Pc}
    (h : Healthy w) (hsound : Sound w) (hswept : Swept (fun _ => True) w) (hfresh : EndsFresh w l)
    (hcommits : CommitsOutsideStarting w l) (hl : l.call = some (c, choice))
    (hact : Act w.shared c choice (w.calls c) s' pc') (hstate : s'.inner.state = .starting) :
    World.Stale ⟨s', Function.update w.calls c pc'⟩ ∨ ∀ c₁ a, (Function.update w.calls c pc' c₁).role = .opening a →
      Attending s'.server s'.inner.pools (Function.update w.calls c pc' c₁) := by
  rcases starting_act hact hstate with hstarting | ⟨hstopped, rfl, rfl⟩
  · have hpools : s'.inner.pools = w.shared.inner.pools :=
      (pools_act hact).resolve_right fun ⟨_, _, _, _, hpc⟩ => hcommits (c, choice) hl (by rw [hpc]; rfl) hstarting
    rcases h.starting hstarting with hstale | hattend
    · exact .inl ((stale_act rfl hact (hfresh.of_call hl) hstale).resolve_right (by simp [hstarting]))
    · refine Classical.or_iff_not_imp_left.mpr fun hstale c₁ a hrole => ?_
      rw [hpools]
      by_cases hc : c₁ = c
      · subst hc
        simp only [Function.update_self] at hrole ⊢
        have hrole₀ : (w.calls c₁).role = .opening a ∨ w.shared.inner.state = .stopped := by
          generalize w.calls c₁ = pc at hact
          cases hact with
          | inserted | signalled | awaited => rw [role_withHands] at hrole; exact .inl hrole
          | startBegun hstopped => exact .inr hstopped
          | setupDone | healthSpawned | listenerSpawned => exact .inl hrole
          | _ => cases hrole
        exact attending_act hact hstarting hrole (hattend c₁ a (hrole₀.resolve_right (by simp [hstarting])))
      · simp only [Function.update_of_ne hc] at hrole ⊢
        have hnot : ∀ a', (w.calls c).role ≠ .opening a' := fun a' hrole' => hc (hsound.life.unique hrole hrole')
        rcases attending_other hact (spawnWanted_of_fitting hsound (h.fitting c) hnot) (h.fitting c) (hattend c₁ a hrole)
          with hdone | ⟨seen, hclose, hclose', hs⟩
        · exact hdone
        · rcases hsound.stale_or_closed hact hclose hclose' hs with hs | ⟨hno, -⟩
          · exact absurd hs hstale
          · exact absurd hrole (hno c₁ a)
  · refine .inr fun c₁ a hrole => ?_
    by_cases hc : c₁ = c
    · subst hc
      simp only [Function.update_self]
      exact attending_begun (s := w.shared) fun app t =>
        Option.eq_none_iff_forall_ne_some.mpr fun t' hget => hswept (.inl hstopped) _ _ hget trivial
    · simp only [Function.update_of_ne hc] at hrole
      exact absurd hrole (hsound.life.notOpening_of_stopped hstopped c₁ a)

/-- While the proxy runs, a service that does not match its pool is going to be changed. -/
theorem Healthy.running_step {c₀ : Catalog} {w : World} {l : Label} {c : CallId} {choice : Choice} {s' : Shared} {pc' : Pc}
    (h : Healthy w) (hsound : Sound w) (hled : Ledgered c₀ w) (hfresh : EndsFresh w l) (hl : l.call = some (c, choice))
    (hact : Act w.shared c choice (w.calls c) s' pc') (hstate : s'.inner.state = .running) :
    World.Stale ⟨s', Function.update w.calls c pc'⟩ ∨ ∀ app t, s'.server.Matches s'.inner.pools app t ∨
      ∃ c₁, (Function.update w.calls c pc' c₁).Pending (lbServiceName app t) := by
  rcases running_act hact hstate with ⟨hrun, -⟩ | ⟨attempt, addr, hpc, -, hserver⟩
  · rcases h.running hrun with hstale | hmatch
    · exact .inl ((stale_act rfl hact (hfresh.of_call hl) hstale).resolve_right (by simp [hrun]))
    · refine Classical.or_iff_not_imp_left.mpr fun hstale app t => ?_
      have hnot : ∀ a, (w.calls c).role ≠ .opening a := fun a hrole => by
        have := (hsound.life.opening (c := c) hrole).2.2
        simp [World.lifecycle, Shared.lifecycle, hrun] at this
      have hspawned := spawnWanted_of_fitting hsound (h.fitting c) hnot
      rcases pools_act hact with hpools | ⟨req, next, env, rebuilt, hpc⟩
      · rw [hpools]
        rcases hmatch app t with hm | ⟨c₁, hpending⟩
        · refine .inl ((matches_act hact hspawned (h.fitting c) hm).resolve_right ?_)
          rintro ⟨seen, hclose, hclose', hs⟩
          exact (hsound.stale_or_closed hact hclose hclose' hs).elim hstale fun hno => hno.2 hstate
        · by_cases hc : c₁ = c
          · subst hc
            rcases pending_act hact (h.fitting c₁) hpending with hp | hm
            · exact .inr ⟨c₁, by simpa using hp⟩
            · exact .inl hm
          · exact .inr ⟨c₁, by simpa [Function.update_of_ne hc] using hpending⟩
      · -- a commit: what it does not list is as it was, and no other update has anything left to do
        have hold : w.shared.server.Matches w.shared.inner.pools app t := by
          refine (hmatch app t).resolve_right ?_
          rintro ⟨c₁, hpending⟩
          cases hpc₁ : w.calls c₁ <;> rw [hpc₁] at hpending
          case updateServices req' todo hands => exact hled.unique hpc hpc₁
          all_goals exact hpending
        have hknows := hled.knows c
        simp only [World.stages, hpc, Pc.stage] at hknows
        obtain ⟨env', -, hrebuilt⟩ := rebuildUpdate_spec hknows.2.2.2.2
        rw [hpc] at hact
        cases hact with
        | @committed _ _ _ _ catalog services hcommit =>
            have hspec := commitUpdate_spec hrebuilt.removed hcommit
            rw [if_pos hrun]
            by_cases hsame : catalog.pools.get (app, t) = w.shared.inner.pools.get (app, t)
            · refine .inl ?_
              rw [Server.Matches, hsame]
              exact hold
            · refine .inr ⟨c, ?_⟩
              simp only [Function.update_self]
              rcases hspec.changed app t hsame with ⟨lb, hu⟩ | hu
              · exact .inl ⟨_, hu, rfl⟩
              · exact .inl ⟨_, hu, rfl⟩
        | commitFailed => exact .inl hold
        | inserted hhands | signalled hhands | awaited hhands => simp [Pc.hands, Hands.empty] at hhands
  · -- the end of a start that has attended to all pools
    have hstarting : w.shared.inner.state = .starting := by
      have hopen := (hsound.life.opening (c := c) (a := attempt) (congrArg Pc.role hpc)).2.2
      rw [hpc] at hact
      cases hact with
      | finalised _ _ hs =>
          simp only [World.lifecycle, Shared.lifecycle] at hopen
          rcases hs with hs | hs <;> simp_all
      | cancelled _ _ hs =>
          have heq : (w.shared.notifyStart (.error Shared.startCancelled)).inner.state = w.shared.inner.state := by
            unfold Shared.notifyStart; split <;> rfl
          rw [heq] at hstate
          simp [hstate] at hs
      | inserted hhands | signalled hhands | awaited hhands => simp [Pc.hands, Hands.empty] at hhands
    rcases h.starting hstarting with hstale | hattend
    · exact .inl ((stale_act rfl hact (hfresh.of_call hl) hstale).resolve_right (by simp [hstarting]))
    · have hall := hattend c attempt (congrArg Pc.role hpc)
      have hpools : s'.inner.pools = w.shared.inner.pools :=
        (pools_act hact).resolve_right (by rintro ⟨req, next, env, rebuilt, hcommit⟩; simp [hpc] at hcommit)
      refine .inr fun app t => .inl ?_
      rw [hpools, hserver]
      rcases hall.covered app t with hm | ⟨t', ht⟩ | ⟨lb, hin⟩
      · exact hm
      · simp [hpc, Pc.hands, Hands.empty] at ht
      · simp [hpc, Pc.assigned] at hin

theorem Healthy.step {c₀ : Catalog} {w w' : World} {l : Label} (h : Healthy w) (hsound : Sound w)
    (hswept : Swept (fun _ => True) w) (hled : Ledgered c₀ w) (hfresh : EndsFresh w l)
    (hcommits : CommitsOutsideStarting w l) (hstep : NeemataProxy.step w l = some w') : Healthy w' := by
  rcases step_cases hstep with ⟨c, choice, s', pc', hl, hact, rfl⟩ | ⟨t, rfl, ht, rfl⟩
  · refine ⟨fun c₁ => ?_, h.starting_step hsound hswept hfresh hcommits hl hact, h.running_step hsound hled hfresh hl hact⟩
    by_cases hc : c₁ = c
    · subst hc
      simp only [Function.update_self]
      exact fitting_act hact (hled.knows c₁) (h.fitting c₁)
    · simp only [Function.update_of_ne hc]
      have hmono := fun t x => (act_handStep hact).serviceOf (h := t) (x := x)
      rcases pools_act hact with hpools | ⟨req, next, env, rebuilt, hpc⟩
      · rw [hpools]
        exact (h.fitting c₁).mono hmono
      · cases hpc₁ : w.calls c₁ with
        | updateServices req' todo hands => exact (hled.unique hpc hpc₁).elim
        | _ => trivial
  · have hservice : ∀ h x, w.shared.server.serviceOf h = some x →
        (w.shared.server.setStatus t .terminated).serviceOf h = some x := fun h x hx => by
      rw [Server.serviceOf_setStatus]; exact hx
    have hmatches : ∀ {app t'}, w.shared.server.Matches w.shared.inner.pools app t' →
        (w.shared.server.setStatus t .terminated).Matches w.shared.inner.pools app t' := matches_of_kept rfl hservice
    exact ⟨fun c => (h.fitting c).mono hservice,
      fun hs => (h.starting hs).imp id fun hattend c a hrole =>
        let hc := hattend c a hrole
        ⟨fun app t => (hc.covered app t).imp hmatches id, hc.assigned, hc.spawned.mono hservice⟩,
      fun hs => (h.running hs).imp id fun hm app t => (hm app t).imp hmatches id⟩

end NeemataProxy
