import NeemataProxy.Proxy.Lemmas.Handles
import NeemataProxy.Proxy.Lemmas.Updates
import NeemataProxy.Proxy.Runs

/-!
# The work that is left

How many steps the calls in flight can still take: every step of a call that has begun, and every end of a task, uses up
some of them, whatever the other calls do.
-/

namespace NeemataProxy

open Lib Routing Options

/-! ## The registry -/

def Server.work (s : Server) : Nat := 3 * s.services.len + s.tasks.countP fun t => t.status = .signalled

namespace Server

variable (s : Server) (name : Str) (h : ServiceHandle)

theorem len_insert : (s.services.insert name h).len + (s.services.get name).toList.length = s.services.len + 1 := by
  have hinsert : (s.services.insert name h).len = (s.services.remove name).len + 1 := rfl
  cases hget : s.services.get name with
  | none =>
      have hkeep : (s.services.remove name).len = s.services.len := by
        refine congrArg List.length (List.filter_eq_self.mpr fun e he => ?_)
        have hne : e.1 ≠ name := fun heq => by
          cases hget.symm.trans (HashMap.get_eq_some.mpr (heq ▸ he : (name, e.2) ∈ s.services.entries))
        simpa using hne
      simp [hinsert, hkeep]
  | some t =>
      have hone := HashMap.len_remove_of_get hget
      simp only [hinsert, Option.toList_some, List.length_singleton]
      omega

theorem len_remove : (s.services.remove name).len + (s.services.get name).toList.length = s.services.len := by
  have hinsert : (s.services.insert name 0).len = (s.services.remove name).len + 1 := rfl
  have hlen := s.len_insert name 0
  omega

theorem work_spawn (service : Service) : (s.spawn service).work = s.work := by
  simp [work, spawn]

theorem work_insert : (s.insert name h).work + 3 * (s.services.get name).toList.length = s.work + 3 := by
  have hlen := s.len_insert name h
  simp only [work, insert]
  omega

theorem work_remove : (s.remove name).work + 3 * (s.services.get name).toList.length = s.work := by
  have hlen := s.len_remove name
  simp only [work, remove]
  omega

theorem work_take : s.take.work + 3 * s.services.len = s.work := by
  simp only [work, take, HashMap.len_empty]
  omega

theorem countP_setStatus {t : ServiceTask} (ht : s.tasks[h]? = some t) (status : TaskStatus) :
    (s.setStatus h status).tasks.countP (fun t => t.status = .signalled) + (if t.status = .signalled then 1 else 0) =
      s.tasks.countP (fun t => t.status = .signalled) + if status = .signalled then 1 else 0 := by
  obtain ⟨hlt, rfl⟩ := List.getElem?_eq_some_iff.mp ht
  have hset : (s.setStatus h status).tasks = s.tasks.set h { s.tasks[h] with status := status } := by
    simp [setStatus, List.modify_eq_set_getElem?, ht]
  have hpos : s.tasks[h].status = .signalled → 0 < s.tasks.countP fun t => t.status = .signalled := fun hs =>
    List.countP_pos_iff.mpr ⟨_, List.getElem_mem hlt, by simpa using hs⟩
  rw [hset, List.countP_set hlt]
  by_cases hs : s.tasks[h].status = .signalled
  · have := hpos hs
    simp only [hs, decide_true, if_true, decide_eq_true_eq]
    omega
  · simp [hs]

theorem work_signal : (s.signal h).work ≤ s.work + 1 := by
  unfold signal
  split
  · rename_i hstatus
    obtain ⟨t, ht, -⟩ := Option.map_eq_some_iff.mp hstatus
    have hcount := s.countP_setStatus h ht .signalled
    simp only [work, services_setStatus, if_true] at hcount ⊢
    omega
  · omega

theorem work_terminated (hstatus : s.statusOf h = some .signalled) : (s.setStatus h .terminated).work < s.work := by
  obtain ⟨t, ht, hsignalled⟩ := Option.map_eq_some_iff.mp hstatus
  have hcount := s.countP_setStatus h ht .terminated
  simp only [work, services_setStatus, hsignalled, if_true, reduceCtorEq, if_false] at hcount ⊢
  omega

end Server

/-! ## Calls -/

def Hands.work (hands : Hands) : Nat :=
  (if hands.spawned.isSome then 4 else 0) +
    match hands.held, hands.sent with
    | [], _ => 0
    | _ :: rest, false => 3 * rest.length + 3
    | _ :: rest, true => 3 * rest.length + 1

theorem Hands.work_displaced (held : List ServiceHandle) : (Hands.displaced held).work = 3 * held.length := by
  cases held <;> simp [work, displaced, Nat.mul_add]

/-- An update registers and removes at most six services. -/
def Pc.work : Pc → Nat
  | .idle | .done _ => 0
  | .startSetup _ lbTasks => 9 + 5 * lbTasks.length
  | .startRegister _ _ lbTasks hands => 8 + 5 * lbTasks.length + hands.work
  | .startListen _ _ hands => 3 + hands.work
  | .startCancel _ => 2
  | .startCancelling _ hands => 1 + hands.work
  | .startWait _ => 1
  | .stopWaitStart _ _ => 3
  | .stopAll _ => 2
  | .stopping _ hands => 1 + hands.work
  | .stopWait _ _ => 1
  | .updateLock _ => 35
  | .updateSnapshot _ => 34
  | .updateRebuild _ _ => 33
  | .updateCommit _ _ _ rebuilt => 2 + 5 * (rebuilt.newPools.len + rebuilt.removed.length)
  | .updateServices _ todo hands => 1 + 5 * todo.length + hands.work

theorem work_withHands (pc : Pc) (h : pc.hands ≠ .empty) (hands : Hands) :
    (pc.withHands hands).work + pc.hands.work = pc.work + hands.work := by
  cases pc with
  | startRegister | startListen | startCancelling | stopping | updateServices =>
      simp only [Pc.withHands, Pc.hands, Pc.work]
      omega
  | _ => exact absurd rfl h

/-! ## Updates -/

theorem TransportKind.length_le {l : List TransportKind} (h : l.Nodup) : l.length ≤ 3 := by
  have hsub : l ⊆ [.http1, .http2, .ws] := fun t _ => by cases t <;> simp
  simpa using (List.subperm_of_subset h hsub).length_le

theorem TransportKind.len_le {α : Type} (m : HashMap TransportKind α) : m.len ≤ 3 := by
  have hlen := TransportKind.length_le m.nodup
  rwa [List.length_map] at hlen

theorem length_removed_le {req : UpdateRequest} {next : Snapshot} {rebuild : Nat} {env : Except Str RebuildEnv}
    {rebuilt : Rebuilt} (h : rebuildUpdate req next rebuild env = .ok rebuilt) : rebuilt.removed.length ≤ 3 := by
  unfold rebuildUpdate at h
  split at h
  · cases h
  · rw [rebuildAppPools_eq] at h
    obtain ⟨newPools, -, h⟩ := exists_of_bind_eq_ok h
    obtain rfl := Except.ok.inj h
    exact List.length_filter_le (fun t => (newPools.get t).isNone) [.http1, .http2, .ws]

theorem length_insertPools (app : Str) (l : List (TransportKind × PoolConfig)) (pools : Pools) :
    (insertPools app l pools).2.length = l.length := by
  induction l generalizing pools with
  | nil => rfl
  | cons p l ih => simp [insertPools, ih]

theorem length_removePools_le (app : Str) (l : List TransportKind) (pools : Pools) :
    (removePools app l pools).2.length ≤ l.length := by
  induction l generalizing pools with
  | nil => exact Nat.le_refl _
  | cons t l ih =>
      have hrest := ih (pools.remove (app, t))
      simp only [removePools, List.length_cons]
      split
      · exact Nat.succ_le_succ hrest
      · exact Nat.le_succ_of_le hrest

theorem length_services_le {options : ProxyOptionsParsed} {order : IterOrder (TransportKind × PoolConfig)}
    {req : UpdateRequest} {next : Snapshot} {rebuilt : Rebuilt} {c c' : Catalog} {services : List ServiceUpdate}
    (h : commitUpdate options order req next rebuilt c = .ok (c', services)) :
    services.length ≤ rebuilt.newPools.len + rebuilt.removed.length := by
  unfold commitUpdate at h
  split at h
  · cases h
  · obtain ⟨-, rfl⟩ := Prod.mk.inj (Except.ok.inj h)
    have hinsert := length_insertPools req.appName (order.visit rebuilt.newPools.entries) c.pools
    rw [(order.perm _).length_eq] at hinsert
    rw [List.length_append, hinsert]
    exact Nat.add_le_add_left (length_removePools_le _ _ _) _

/-! ## Steps -/

variable {s s' : Shared} {c : CallId} {choice : Choice} {pc pc' : Pc}

/-- A step of a call that has begun uses up work. -/
theorem work_act (hact : Act s c choice pc s' pc') (hbegun : pc ≠ .idle) :
    pc'.work + s'.server.work < pc.work + s.server.work := by
  cases hact with
  | refused | startJoined | startBegun | stopFast | stopJoined | stopBegunWaiting | stopBegun | updateCalled =>
      exact absurd rfl hbegun
  | setupLost | setupDone | startSettled | startAwaited | stopSettled | locked | snapshotFailed | snapshotTaken
  | rebuildFailed | commitFailed | updateEnded =>
      simp only [Pc.work, Shared.endUpdate, Shared.releaseLock, Hands.work, Hands.empty, Option.isSome_none,
        Bool.false_eq_true, if_false]
      omega
  | setupFailed => rw [Shared.failStart, server_notifyStart]; simp [Pc.work]
  | finalised | cancelled => rw [server_notifyStart]; simp [Pc.work, Hands.work, Hands.empty]
  | cancelEnded => simp [Pc.work, Hands.work, Hands.empty, Shared.endCancelledStart]
  | stopEnded => rw [server_endStop]; simp [Pc.work, Hands.work, Hands.empty]
  | @inserted _ name h hhands =>
      have hwork := work_withHands pc (by rintro heq; simp [heq, Hands.empty] at hhands)
        (.displaced (s.server.services.get name).toList)
      have hserver := s.server.work_insert name h
      have hspawned : 4 ≤ pc.hands.work := by
        rw [Hands.work, hhands]
        exact Nat.le_add_right _ _
      rw [Hands.work_displaced] at hwork
      simp only [Shared.onServer]
      omega
  | @signalled _ h rest hhands =>
      have hwork := work_withHands pc (by rw [hhands]; simp [Hands.empty]) ⟨none, h :: rest, true⟩
      have hserver := s.server.work_signal h
      simp only [hhands, Hands.work, Option.isSome_none, Bool.false_eq_true, if_false] at hwork
      simp only [Shared.onServer]
      omega
  | @awaited _ h rest hhands hstatus =>
      have hwork := work_withHands pc (by rw [hhands]; simp [Hands.empty]) (.displaced rest)
      rw [Hands.work_displaced, hhands] at hwork
      simp only [Hands.work, Option.isSome_none, Bool.false_eq_true, if_false] at hwork
      omega
  | healthSpawned | listenerSpawned | updateSpawned =>
      simp only [Pc.work, Shared.onServer, Server.work_spawn, Hands.work, Hands.register, Hands.empty, List.length_cons,
        List.length_nil, Option.isSome_some, Option.isSome_none, Bool.false_eq_true, if_true, if_false]
      omega
  | cancelTook | stopTook =>
      have hserver := s.server.work_take
      have hvisit : (choice.serviceOrder.visit s.server.services.entries).length = s.server.services.len :=
        (choice.serviceOrder.perm _).length_eq
      simp only [Pc.work, Shared.takeServices, Hands.work_displaced, List.length_map, hvisit]
      omega
  | @rebuilt req next result h =>
      have hpools := TransportKind.len_le result.newPools
      have hremoved := length_removed_le h
      simp only [Pc.work]
      omega
  | committed env h =>
      have hlen := length_services_le h
      simp only [Pc.work, Hands.work, Hands.empty, Option.isSome_none, Bool.false_eq_true, if_false]
      split
      · omega
      · simp only [List.length_nil]
        omega
  | updateRemoved req name todo =>
      have hserver := s.server.work_remove name
      simp only [Pc.work, Shared.onServer, Hands.work_displaced, List.length_cons]
      omega

end NeemataProxy
