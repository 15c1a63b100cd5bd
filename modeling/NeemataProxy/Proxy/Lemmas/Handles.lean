import NeemataProxy.Proxy.Step

/-!
# Who is responsible for a service

Every service handle is in the registry under one name or in the hands of one call, and a task that has not
terminated is never out of both.
-/

namespace NeemataProxy

open Lib

/-! ## Tasks -/

namespace Server

variable (s : Server) (h h' : ServiceHandle)

theorem tasks_spawn (service : Service) :
    (s.spawn service).tasks[h]? = if h = s.nextHandle then some ⟨service, .running⟩ else s.tasks[h]? := by
  unfold spawn nextHandle
  rw [List.getElem?_append]
  by_cases hlt : h < s.tasks.length
  · simp [hlt, Nat.ne_of_lt hlt]
  · have hge : s.tasks.length ≤ h := Nat.le_of_not_lt hlt
    by_cases heq : h = s.tasks.length
    · simp [heq]
    · have hpos : 1 ≤ h - s.tasks.length := Nat.sub_pos_of_lt (Nat.lt_of_le_of_ne hge (Ne.symm heq))
      simp [hlt, heq, List.getElem?_eq_none (l := [_]) hpos]

@[simp] theorem statusOf_spawn (service : Service) :
    (s.spawn service).statusOf h = if h = s.nextHandle then some .running else s.statusOf h := by
  rw [statusOf, tasks_spawn]
  split <;> rfl

@[simp] theorem statusOf_setStatus (status : TaskStatus) :
    (s.setStatus h status).statusOf h' = if h' = h then (s.statusOf h).map (fun _ => status) else s.statusOf h' := by
  unfold statusOf setStatus
  simp only [List.getElem?_modify]
  by_cases heq : h' = h
  · subst heq; cases s.tasks[h']? <;> simp
  · simp [heq, Ne.symm heq]

theorem statusOf_signal :
    (s.signal h).statusOf h' = if h' = h ∧ s.statusOf h = some .running then some .signalled else s.statusOf h' := by
  unfold signal
  by_cases hr : s.statusOf h = some .running
  · by_cases heq : h' = h <;> simp [hr, heq]
  · simp [hr]

@[simp] theorem statusOf_insert (name : Str) : (s.insert name h).statusOf h' = s.statusOf h' := rfl
@[simp] theorem statusOf_remove (name : Str) : (s.remove name).statusOf h' = s.statusOf h' := rfl
@[simp] theorem statusOf_take : s.take.statusOf h' = s.statusOf h' := rfl

@[simp] theorem services_spawn (service : Service) : (s.spawn service).services = s.services := rfl
@[simp] theorem services_setStatus (status : TaskStatus) : (s.setStatus h status).services = s.services := rfl
@[simp] theorem services_insert (name : Str) : (s.insert name h).services = s.services.insert name h := rfl
@[simp] theorem services_remove (name : Str) : (s.remove name).services = s.services.remove name := rfl
@[simp] theorem services_take : s.take.services = .empty := rfl

@[simp] theorem services_signal : (s.signal h).services = s.services := by unfold signal; split <;> rfl

theorem statusOf_nextHandle : s.statusOf s.nextHandle = none := by simp [statusOf, nextHandle]

end Server

/-! ## Hands -/

@[simp] theorem Hands.handles_empty : Hands.empty.handles = [] := rfl
@[simp] theorem Hands.handles_register (name : Str) (h : ServiceHandle) : (Hands.register name h).handles = [h] := rfl
@[simp] theorem Hands.handles_displaced (held : List ServiceHandle) : (Hands.displaced held).handles = held := rfl
@[simp] theorem Hands.handles_mk_none (held : List ServiceHandle) (sent : Bool) :
    Hands.handles ⟨none, held, sent⟩ = held := rfl

/-- What one step of a call does to the registry, the tasks and the hands of the call. -/
inductive HandStep (s : Server) : Hands → Server → Hands → Prop where
  | stay (hands : Hands) : HandStep s hands s hands
  | spawned (name : Str) (service : Service) : HandStep s .empty (s.spawn service) (.register name s.nextHandle)
  | inserted {hands : Hands} {name : Str} {h : ServiceHandle} (hspawned : hands.spawned = some (name, h)) :
      HandStep s hands (s.insert name h) (.displaced (s.services.get name).toList)
  | signalled (h : ServiceHandle) (rest : List ServiceHandle) :
      HandStep s ⟨none, h :: rest, false⟩ (s.signal h) ⟨none, h :: rest, true⟩
  | awaited {h : ServiceHandle} (rest : List ServiceHandle) (hstatus : s.statusOf h = some .terminated) :
      HandStep s ⟨none, h :: rest, true⟩ s (.displaced rest)
  | removed (name : Str) : HandStep s .empty (s.remove name) (.displaced (s.services.get name).toList)
  | took (order : IterOrder (Str × ServiceHandle)) :
      HandStep s .empty s.take (.displaced ((order.visit s.services.entries).map Prod.snd))

theorem hands_withHands {pc : Pc} (h : pc.hands ≠ .empty) (hands : Hands) : (pc.withHands hands).hands = hands := by
  cases pc <;> first | rfl | exact absurd rfl h

theorem server_notifyStart (s : Shared) (result : Except Str Unit) : (s.notifyStart result).server = s.server := by
  unfold Shared.notifyStart; split <;> rfl

theorem server_beginStop (s : Shared) : s.beginStop.server = s.server := by unfold Shared.beginStop; split <;> rfl

theorem server_endStop (s : Shared) : s.endStop.server = s.server := by
  unfold Shared.endStop Shared.notifyStop; split <;> rfl

theorem act_handStep {s s' : Shared} {c : CallId} {choice : Choice} {pc pc' : Pc} (h : Act s c choice pc s' pc') :
    HandStep s.server pc.hands s'.server pc'.hands := by
  cases h with
  | inserted hhands =>
      rw [hands_withHands (by rintro h; simp [h, Hands.empty] at hhands)]
      exact .inserted hhands
  | signalled hhands =>
      rw [hands_withHands (by rw [hhands]; simp [Hands.empty]), hhands]
      exact .signalled _ _
  | awaited hhands hstatus =>
      rw [hands_withHands (by rw [hhands]; simp [Hands.empty]), hhands]
      exact .awaited _ hstatus
  | healthSpawned => exact .spawned _ _
  | listenerSpawned => exact .spawned _ _
  | updateSpawned => exact .spawned _ _
  | cancelTook => exact .took _
  | stopTook => exact .took _
  | updateRemoved => exact .removed _
  | setupFailed => rw [Shared.failStart, server_notifyStart]; exact .stay _
  | finalised | cancelled => rw [server_notifyStart]; exact .stay _
  | stopBegunWaiting | stopBegun => rw [server_beginStop]; exact .stay _
  | stopEnded => rw [server_endStop]; exact .stay _
  | _ => exact .stay _

/-! ## Ownership -/

/-- A service about to be registered is running and comes alone; of the handles to be shut down only the first has
been told to, and only when the hands say so. -/
structure Hands.Ordered (s : Server) (hands : Hands) : Prop where
  spawned : ∀ {n h}, hands.spawned = some (n, h) → s.statusOf h = some .running ∧ hands.held = []
  unsent : ∀ {h}, h ∈ hands.held → hands.sent = false → s.statusOf h = some .running
  behind : ∀ {h}, h ∈ hands.held.tail → s.statusOf h = some .running
  told : ∀ {h}, hands.held.head? = some h → hands.sent = true → s.statusOf h ≠ some .running

structure Owned (s : Server) (hands : CallId → Hands) : Prop where
  registered : ∀ {n h}, s.services.get n = some h → s.statusOf h = some .running
  oneName : ∀ {n n' h}, s.services.get n = some h → s.services.get n' = some h → n = n'
  inHands : ∀ {c h}, h ∈ (hands c).handles → s.statusOf h ≠ none ∧ ∀ n, s.services.get n ≠ some h
  oneCall : ∀ {c c' h}, h ∈ (hands c).handles → h ∈ (hands c').handles → c = c'
  nodup : ∀ c, (hands c).handles.Nodup
  ordered : ∀ c, (hands c).Ordered s
  covered : ∀ {h}, s.statusOf h = some .running ∨ s.statusOf h = some .signalled →
    (∃ n, s.services.get n = some h) ∨ ∃ c, h ∈ (hands c).handles

theorem Hands.mem_handles_of_held {hands : Hands} {h : ServiceHandle} (hh : h ∈ hands.held) : h ∈ hands.handles := by
  simp [handles, hh]

theorem Hands.mem_handles_of_spawned {hands : Hands} {n : Str} {h : ServiceHandle} (hh : hands.spawned = some (n, h)) :
    h ∈ hands.handles := by simp [handles, hh]

theorem Hands.ordered_empty (s : Server) : Hands.empty.Ordered s := by constructor <;> simp [empty]

/-- Only the statuses of its own handles matter to a call. -/
theorem Hands.Ordered.congr {s s' : Server} {hands : Hands} (h : hands.Ordered s)
    (hs : ∀ h ∈ hands.handles, s'.statusOf h = s.statusOf h) : hands.Ordered s' := by
  constructor
  · intro n h' hh
    rw [hs h' (mem_handles_of_spawned hh)]
    exact h.spawned hh
  · intro h' hh hsent
    rw [hs h' (mem_handles_of_held hh)]
    exact h.unsent hh hsent
  · intro h' hh
    rw [hs h' (mem_handles_of_held (List.mem_of_mem_tail hh))]
    exact h.behind hh
  · intro h' hh hsent
    rw [hs h' (mem_handles_of_held (List.mem_of_mem_head? hh))]
    exact h.told hh hsent

theorem Hands.ordered_displaced {s : Server} {held : List ServiceHandle} (h : ∀ t ∈ held, s.statusOf t = some .running) :
    (Hands.displaced held).Ordered s := by
  constructor
  · simp [displaced]
  · exact fun hh _ => h _ hh
  · exact fun hh => h _ (List.mem_of_mem_tail hh)
  · simp [displaced]

variable {s s' : Server} {hands : CallId → Hands} {c : CallId} {hs : Hands}

theorem handles_update (c' : CallId) :
    (Function.update hands c hs c').handles = if c' = c then hs.handles else (hands c').handles := by
  by_cases h : c' = c
  · subst h; simp
  · simp [h]

theorem ordered_update (hself : hs.Ordered s') (hother : ∀ c', c' ≠ c → (hands c').Ordered s') (c' : CallId) :
    (Function.update hands c hs c').Ordered s' := by
  by_cases h : c' = c
  · subst h; simpa using hself
  · simpa [h] using hother c' h

theorem Owned.step (h : Owned s hands) (hstep : HandStep s (hands c) s' hs) : Owned s' (Function.update hands c hs) := by
  obtain ⟨hreg, hname, hin, hcall, hnodup, hord, hcov⟩ := id h
  generalize hpre : hands c = pre at hstep
  cases hstep with
  | stay =>
      rw [← hpre, Function.update_eq_self]
      exact h
  | spawned name service =>
      have hnext := s.statusOf_nextHandle
      have hreg' : ∀ n, s.services.get n ≠ some s.nextHandle := fun n hn => by simp [hreg hn] at hnext
      have hin' : ∀ c', s.nextHandle ∉ (hands c').handles := fun c' hc => (hin hc).1 hnext
      have hempty : (hands c).handles = [] := by rw [hpre]; rfl
      refine ⟨?_, ?_, ?_, ?_, ?_, ordered_update ?_ fun c' _ => (hord c').congr ?_, ?_⟩
      · simp only [Server.statusOf_spawn, Server.services_spawn]; grind
      · simp only [Server.services_spawn]; grind
      · simp only [handles_update, Server.statusOf_spawn, Server.services_spawn]; grind [Hands.handles_register]
      · simp only [handles_update]; grind [Hands.handles_register]
      · simp only [handles_update]; grind [Hands.handles_register]
      · constructor <;> simp [Hands.register]
      · simp only [Server.statusOf_spawn]; grind
      · simp only [handles_update, Server.statusOf_spawn, Server.services_spawn]; grind [Hands.handles_register]
  | @inserted _ name t hspawned =>
      have ht : t ∈ (hands c).handles := hpre ▸ Hands.mem_handles_of_spawned hspawned
      have hempty : (hands c).handles = [t] := by
        simp [Hands.handles, hpre, hspawned, ((hpre ▸ hord c : Hands.Ordered s _).spawned hspawned).2]
      have hrun := (hord c).spawned (hpre ▸ hspawned)
      refine ⟨?_, ?_, ?_, ?_, ?_, ordered_update (Hands.ordered_displaced ?_) fun c' _ => (hord c').congr ?_, ?_⟩
      · simp only [Server.statusOf_insert, Server.services_insert, HashMap.get_insert]; grind
      · simp only [Server.services_insert, HashMap.get_insert]; grind
      · simp only [handles_update, Server.statusOf_insert, Server.services_insert, HashMap.get_insert]
        grind [Hands.handles_displaced]
      · simp only [handles_update, Hands.handles_displaced]; grind
      · simp only [handles_update, Hands.handles_displaced]; grind
      · exact fun t ht => hreg (by simpa using ht)
      · simp
      · simp only [handles_update, Server.statusOf_insert, Server.services_insert, HashMap.get_insert,
          Hands.handles_displaced]
        grind
  | signalled t rest =>
      have hhead : (hands c).held = t :: rest := by rw [hpre]
      have hhandles : (hands c).handles = t :: rest := by rw [hpre]; rfl
      have hrun : s.statusOf t = some .running := (hord c).unsent (by simp [hhead]) (by rw [hpre])
      have hnot : t ∉ rest := (List.nodup_cons.mp (hhandles ▸ hnodup c)).1
      refine ⟨?_, ?_, ?_, ?_, ?_, ordered_update ?_ fun c' hc => (hord c').congr fun t' ht' => ?_, ?_⟩
      · simp only [Server.statusOf_signal, Server.services_signal]; grind
      · simp only [Server.services_signal]; exact fun {n n' t} h₁ h₂ => hname h₁ h₂
      · simp only [handles_update, Server.statusOf_signal, Server.services_signal]; grind [Hands.handles_mk_none]
      · simp only [handles_update]; grind [Hands.handles_mk_none]
      · simp only [handles_update]; grind [Hands.handles_mk_none]
      · have hbehind : ∀ t' ∈ rest, s.statusOf t' = some .running := fun t' ht' => (hord c).behind (by simp [hhead, ht'])
        constructor <;> simp [Server.statusOf_signal] <;> grind
      · rw [Server.statusOf_signal, if_neg]
        rintro ⟨rfl, -⟩
        exact hc (hcall ht' (by simp [hhandles]))
      · simp only [handles_update, Server.statusOf_signal, Server.services_signal]; grind [Hands.handles_mk_none]
  | @awaited t rest hstatus =>
      have hhandles : (hands c).handles = t :: rest := by rw [hpre]; rfl
      have hbehind : ∀ t' ∈ rest, s.statusOf t' = some .running := fun t' ht' => (hord c).behind (by simp [hpre, ht'])
      refine ⟨hreg, hname, ?_, ?_, ?_, ordered_update (Hands.ordered_displaced hbehind) fun c' _ => hord c', ?_⟩
      · simp only [handles_update, Hands.handles_displaced]; grind
      · simp only [handles_update, Hands.handles_displaced]; grind
      · simp only [handles_update, Hands.handles_displaced]; grind
      · simp only [handles_update, Hands.handles_displaced]; grind
  | removed name =>
      have hhandles : (hands c).handles = [] := by rw [hpre]; rfl
      refine ⟨?_, ?_, ?_, ?_, ?_, ordered_update (Hands.ordered_displaced ?_) fun c' _ => (hord c').congr ?_, ?_⟩
      · simp only [Server.statusOf_remove, Server.services_remove, HashMap.get_remove]; grind
      · simp only [Server.services_remove, HashMap.get_remove]; grind
      · simp only [handles_update, Server.statusOf_remove, Server.services_remove, HashMap.get_remove,
          Hands.handles_displaced]
        grind
      · simp only [handles_update, Hands.handles_displaced]; grind
      · simp only [handles_update, Hands.handles_displaced]; grind
      · simp only [Server.statusOf_remove]; grind
      · simp
      · simp only [handles_update, Server.statusOf_remove, Server.services_remove, HashMap.get_remove,
          Hands.handles_displaced]
        grind
  | took order =>
      have hhandles : (hands c).handles = [] := by rw [hpre]; rfl
      have hmem : ∀ t, t ∈ (order.visit s.services.entries).map Prod.snd ↔ ∃ n, s.services.get n = some t := by
        intro t
        simp only [List.mem_map, (order.perm _).mem_iff, HashMap.get_eq_some]
        constructor
        · rintro ⟨e, he, rfl⟩
          exact ⟨e.1, he⟩
        · rintro ⟨n, hn⟩
          exact ⟨(n, t), hn, rfl⟩
      have hnd : ((order.visit s.services.entries).map Prod.snd).Nodup := by
        refine (List.Perm.nodup_iff ((order.perm _).map _)).mpr ?_
        refine (List.nodup_map_iff_inj_on s.services.nodup.of_map).mpr ?_
        intro x hx y hy hxy
        have hn := hname (HashMap.get_eq_some.mpr hx) (hxy ▸ HashMap.get_eq_some.mpr hy)
        exact Prod.ext hn hxy
      refine ⟨?_, ?_, ?_, ?_, ?_, ordered_update (Hands.ordered_displaced ?_) fun c' _ => (hord c').congr ?_, ?_⟩
      · simp
      · simp
      · simp only [handles_update, Server.statusOf_take, Server.services_take, HashMap.get_empty]
        grind [Hands.handles_displaced]
      · simp only [handles_update, Hands.handles_displaced]; grind
      · simp only [handles_update, Hands.handles_displaced]; grind
      · simp only [Server.statusOf_take]; grind
      · simp
      · simp only [handles_update, Server.statusOf_take, Server.services_take, HashMap.get_empty, Hands.handles_displaced]
        grind

theorem Owned.ends (h : Owned s hands) {t : ServiceHandle} (ht : s.statusOf t = some .signalled) :
    Owned (s.setStatus t .terminated) hands := by
  obtain ⟨hreg, hname, hin, hcall, hnodup, hord, hcov⟩ := id h
  refine ⟨?_, hname, ?_, hcall, hnodup, fun c => ?_, ?_⟩
  · simp only [Server.statusOf_setStatus, Server.services_setStatus]; grind
  · simp only [Server.statusOf_setStatus, Server.services_setStatus]; grind
  · obtain ⟨h₁, h₂, h₃, h₄⟩ := hord c
    constructor <;> simp only [Server.statusOf_setStatus] <;> grind
  · simp only [Server.statusOf_setStatus, Server.services_setStatus]; grind

end NeemataProxy
