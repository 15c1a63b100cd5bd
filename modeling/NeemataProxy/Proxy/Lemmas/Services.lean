import NeemataProxy.Proxy.Lemmas.Handles
import NeemataProxy.Proxy.Lemmas.Lifecycle

/-!
# What runs under which name

The listener is registered as `main_http` and health tasks under the names of their pools, which never collide.
-/

namespace NeemataProxy

open Lib Routing

/-! ## Service names -/

theorem lbServiceName_getLast (app : Str) (transport : TransportKind) :
    (lbServiceName app transport).getLast? = some (match transport with | .http1 => 'p' | .http2 => '2' | .ws => 's') := by
  cases transport <;> simp only [lbServiceName] <;> rw [List.getLast?_append] <;> rfl

theorem lbServiceName_inj {app app' : Str} {transport transport' : TransportKind}
    (h : lbServiceName app transport = lbServiceName app' transport') : app = app' ∧ transport = transport' := by
  have hlast := congrArg List.getLast? h
  rw [lbServiceName_getLast, lbServiceName_getLast] at hlast
  obtain rfl : transport = transport' := by cases transport <;> cases transport' <;> simp at hlast ⊢
  refine ⟨?_, rfl⟩
  cases transport <;> exact List.append_cancel_left (List.append_cancel_right h)

theorem lbServiceName_ne_main (app : Str) (transport : TransportKind) : lbServiceName app transport ≠ mainServiceName := by
  intro h
  have hhead : (lbServiceName app transport).head? = some 'l' := by
    cases transport <;> rfl
  rw [h] at hhead
  exact absurd hhead (by decide)

/-- The name of the health task of some pool. -/
def IsLbName (name : Str) : Prop := ∃ app transport, name = lbServiceName app transport

theorem IsLbName.ne_main {name : Str} (h : IsLbName name) : name ≠ mainServiceName := by
  obtain ⟨app, transport, rfl⟩ := h
  exact lbServiceName_ne_main app transport

/-! ## What tasks run -/

def Server.serviceOf (s : Server) (h : ServiceHandle) : Option Service := s.tasks[h]?.map ServiceTask.service

theorem Server.serviceOf_setStatus (s : Server) (h h' : ServiceHandle) (status : TaskStatus) :
    (s.setStatus h status).serviceOf h' = s.serviceOf h' := by
  unfold serviceOf setStatus
  simp only [List.getElem?_modify]
  by_cases heq : h = h'
  · subst heq; cases s.tasks[h]? <;> simp
  · simp [heq]

theorem Server.serviceOf_signal (s : Server) (h h' : ServiceHandle) : (s.signal h).serviceOf h' = s.serviceOf h' := by
  unfold signal
  split
  · exact s.serviceOf_setStatus h h' _
  · rfl

theorem Server.serviceOf_spawn (s : Server) (service : Service) (h : ServiceHandle) :
    (s.spawn service).serviceOf h = if h = s.nextHandle then some service else s.serviceOf h := by
  rw [serviceOf, tasks_spawn]
  split <;> rfl

theorem Server.serviceOf_nextHandle (s : Server) (service : Service) :
    (s.spawn service).serviceOf s.nextHandle = some service := by simp [serviceOf_spawn]

theorem Server.ne_nextHandle {s : Server} {h : ServiceHandle} {x : Service} (hx : s.serviceOf h = some x) :
    h ≠ s.nextHandle := by
  rintro rfl
  simp [serviceOf, nextHandle] at hx

/-- A task goes on running what it was spawned for. -/
theorem HandStep.serviceOf {s s' : Server} {hs hs' : Hands} (hstep : HandStep s hs s' hs') {h : ServiceHandle}
    {x : Service} (hx : s.serviceOf h = some x) : s'.serviceOf h = some x := by
  cases hstep with
  | spawned name service => rw [Server.serviceOf_spawn, if_neg (Server.ne_nextHandle hx)]; exact hx
  | signalled => rw [Server.serviceOf_signal]; exact hx
  | _ => exact hx

/-! ## What calls register -/

def ServiceUpdate.name : ServiceUpdate → Str
  | .upsert name _ | .remove name => name

/-- The service may be registered under the name. -/
def Fits (s : Server) (name : Str) (h : ServiceHandle) : Prop :=
  (name = mainServiceName ∧ ∃ attempt addr, s.serviceOf h = some (.listener attempt addr)) ∨
    (IsLbName name ∧ ∃ lb, s.serviceOf h = some (.health lb))

def RunsHealth (s : Server) (h : ServiceHandle) : Prop := ∃ lb, s.serviceOf h = some (.health lb)

/-- The call is dealing with health tasks. -/
structure HealthHands (s : Server) (hands : Hands) : Prop where
  spawned : ∀ n h, hands.spawned = some (n, h) → IsLbName n ∧ RunsHealth s h
  held : ∀ h ∈ hands.held, RunsHealth s h

/-- A call only registers services under names that fit. -/
def Pc.Formed (s : Server) : Pc → Prop
  | .startSetup _ lbTasks => ∀ p ∈ lbTasks, IsLbName p.1
  | .startRegister _ _ lbTasks hands => (∀ p ∈ lbTasks, IsLbName p.1) ∧ HealthHands s hands
  | .startListen attempt addr hands =>
      ∀ n h, hands.spawned = some (n, h) → n = mainServiceName ∧ s.serviceOf h = some (.listener attempt addr)
  | .startCancelling _ hands | .stopping _ hands => hands.spawned = none
  | .updateServices _ todo hands => (∀ u ∈ todo, IsLbName u.name) ∧ HealthHands s hands
  | _ => True

theorem Pc.Formed.fits {s : Server} {pc : Pc} (h : pc.Formed s) {n : Str} {t : ServiceHandle}
    (hspawned : pc.hands.spawned = some (n, t)) : Fits s n t := by
  cases pc with
  | startRegister attempt addr lbTasks hands => exact .inr (h.2.spawned n t hspawned)
  | startListen attempt addr hands => exact .inl ⟨(h n t hspawned).1, _, _, (h n t hspawned).2⟩
  | startCancelling attempt hands => simp [show hands.spawned = none from h, Pc.hands] at hspawned
  | stopping seen hands => simp [show hands.spawned = none from h, Pc.hands] at hspawned
  | updateServices req todo hands => exact .inr (h.2.spawned n t hspawned)
  | _ => simp [Pc.hands, Hands.empty] at hspawned

theorem HealthHands.mono {s s' : Server} {hands : Hands} (hs : ∀ h x, s.serviceOf h = some x → s'.serviceOf h = some x)
    (h : HealthHands s hands) : HealthHands s' hands :=
  ⟨fun n t ht => ⟨(h.spawned n t ht).1, (h.spawned n t ht).2.imp fun _ hx => hs _ _ hx⟩,
    fun t ht => (h.held t ht).imp fun _ hx => hs _ _ hx⟩

theorem Pc.Formed.mono {s s' : Server} {pc : Pc} (hs : ∀ h x, s.serviceOf h = some x → s'.serviceOf h = some x)
    (h : pc.Formed s) : pc.Formed s' := by
  cases pc with
  | startRegister attempt addr lbTasks hands => exact ⟨h.1, h.2.mono hs⟩
  | startListen attempt addr hands => exact fun n t ht => ⟨(h n t ht).1, hs _ _ (h n t ht).2⟩
  | updateServices req todo hands => exact ⟨h.1, h.2.mono hs⟩
  | _ => exact h

theorem Pc.Formed.withHands {s : Server} {pc : Pc} (h : pc.Formed s) {hands : Hands} (hnone : hands.spawned = none)
    (hheld : HealthHands s pc.hands → ∀ t ∈ hands.held, RunsHealth s t) : (pc.withHands hands).Formed s := by
  cases pc with
  | startRegister attempt addr lbTasks _ => exact ⟨h.1, fun n t ht => by simp [hnone] at ht, hheld h.2⟩
  | startListen attempt addr _ => exact fun n t ht => by simp [hnone] at ht
  | startCancelling attempt _ => exact hnone
  | stopping seen _ => exact hnone
  | updateServices req todo _ => exact ⟨h.1, fun n t ht => by simp [hnone] at ht, hheld h.2⟩
  | _ => exact h

theorem Fits.runsHealth {s : Server} {n : Str} {h : ServiceHandle} (hf : Fits s n h) (hn : IsLbName n) : RunsHealth s h := by
  rcases hf with ⟨rfl, -⟩ | ⟨-, hx⟩
  · exact absurd rfl hn.ne_main
  · exact hx

theorem Fits.mono {s s' : Server} {n : Str} {h : ServiceHandle}
    (hs : ∀ h x, s.serviceOf h = some x → s'.serviceOf h = some x) (hf : Fits s n h) : Fits s' n h := by
  rcases hf with ⟨hn, a, addr, hx⟩ | ⟨hn, lb, hx⟩
  · exact .inl ⟨hn, a, addr, hs _ _ hx⟩
  · exact .inr ⟨hn, lb, hs _ _ hx⟩

theorem insertPools_names (app : Str) (l : List (TransportKind × PoolConfig)) (pools : Pools) :
    ∀ u ∈ (insertPools app l pools).2, IsLbName u.name := by
  induction l generalizing pools with
  | nil => simp [insertPools]
  | cons p l ih =>
      intro u hu
      simp only [insertPools, List.mem_cons] at hu
      rcases hu with rfl | hu
      · exact ⟨app, p.1, rfl⟩
      · exact ih _ u hu

theorem removePools_names (app : Str) (l : List TransportKind) (pools : Pools) :
    ∀ u ∈ (removePools app l pools).2, IsLbName u.name := by
  induction l generalizing pools with
  | nil => simp [removePools]
  | cons t l ih =>
      intro u hu
      simp only [removePools] at hu
      split at hu
      · rcases List.mem_cons.mp hu with rfl | hu
        · exact ⟨app, t, rfl⟩
        · exact ih _ u hu
      · exact ih _ u hu

theorem commitUpdate_names {options : Options.ProxyOptionsParsed} {order : IterOrder (TransportKind × PoolConfig)}
    {req : UpdateRequest} {next : Snapshot} {rebuilt : Rebuilt} {c c' : Catalog} {services : List ServiceUpdate}
    (h : commitUpdate options order req next rebuilt c = .ok (c', services)) : ∀ u ∈ services, IsLbName u.name := by
  unfold commitUpdate at h
  split at h
  · simp at h
  · obtain ⟨-, rfl⟩ := Prod.mk.inj (Except.ok.inj h)
    intro u hu
    rcases List.mem_append.mp hu with hu | hu
    · exact insertPools_names _ _ _ u hu
    · exact removePools_names _ _ _ u hu

theorem lbTasks_names (s : Shared) (order : IterOrder ((Str × TransportKind) × PoolConfig)) :
    ∀ p ∈ s.lbTasks order, IsLbName p.1 := by
  intro p hp
  obtain ⟨e, -, rfl⟩ := List.mem_map.mp hp
  exact ⟨_, _, rfl⟩

theorem formed_act {s s' : Shared} {c : CallId} {choice : Choice} {pc pc' : Pc} (hact : Act s c choice pc s' pc')
    (h : pc.Formed s.server) (hfits : ∀ n t, s.server.services.get n = some t → Fits s.server n t) :
    pc'.Formed s'.server := by
  have hmono := fun t x => (act_handStep hact).serviceOf (h := t) (x := x)
  have hnew : ∀ name lb, IsLbName name → HealthHands (s.server.spawn (.health lb)) (.register name s.server.nextHandle) := by
    refine fun name lb hname => ⟨fun n t ht => ?_, by simp [Hands.register]⟩
    obtain ⟨rfl, rfl⟩ := Prod.mk.inj (Option.some.inj ht)
    exact ⟨hname, lb, Server.serviceOf_nextHandle _ _⟩
  have hold : ∀ name, IsLbName name → HealthHands s.server (.displaced (s.server.services.get name).toList) := by
    refine fun name hname => ⟨fun n t ht => by simp [Hands.displaced] at ht, fun t ht => ?_⟩
    exact (hfits name t (Option.mem_toList.mp ht)).runsHealth hname
  have hempty : HealthHands s.server .empty :=
    ⟨fun n t ht => by simp [Hands.empty] at ht, fun t ht => by simp [Hands.empty] at ht⟩
  cases hact with
  | startBegun => exact lbTasks_names s _
  | setupDone attempt lbTasks addr => exact ⟨h, hempty⟩
  | @inserted _ name t hhands =>
      refine (h.withHands rfl fun hhealth t' ht' => ?_).mono hmono
      exact (hold name (hhealth.spawned name t hhands).1).held t' ht'
  | signalled hhands =>
      refine (h.withHands rfl fun hhealth t' ht' => hhealth.held t' ?_).mono hmono
      rw [hhands]; exact ht'
  | awaited hhands hstatus =>
      refine h.withHands rfl fun hhealth t' ht' => hhealth.held t' ?_
      rw [hhands]; exact List.mem_cons_of_mem _ ht'
  | healthSpawned attempt addr name lb lbTasks =>
      exact ⟨fun p hp => h.1 p (List.mem_cons_of_mem _ hp), hnew name lb (h.1 _ List.mem_cons_self)⟩
  | listenerSpawned attempt addr =>
      intro n t ht
      obtain ⟨rfl, rfl⟩ := Prod.mk.inj (Option.some.inj ht)
      exact ⟨rfl, Server.serviceOf_nextHandle _ _⟩
  | cancelTook attempt => rfl
  | stopTook seen => rfl
  | committed env hcommit =>
      refine ⟨fun u hu => ?_, hempty⟩
      split at hu
      · exact commitUpdate_names hcommit u hu
      · simp at hu
  | updateSpawned req name lb todo =>
      exact ⟨fun u hu => h.1 u (List.mem_cons_of_mem _ hu), hnew name lb (h.1 _ List.mem_cons_self)⟩
  | updateRemoved req name todo =>
      exact ⟨fun u hu => h.1 u (List.mem_cons_of_mem _ hu), (hold name (h.1 _ List.mem_cons_self)).mono hmono⟩
  | _ => trivial

end NeemataProxy
