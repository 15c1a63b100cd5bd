import NeemataProxy.Lib.Lts
import NeemataProxy.Proxy.Lemmas.Handles

/-!
# Any calls on the service registry

`src/server.rs` on its own: any number of callers upsert, remove and stop services, and tasks end when they like. A call
begins with its access to the registry, and from then on signals and awaits what it took out, one step each.
-/

namespace NeemataProxy

open Lib

/-! ## The system -/

/-- A call of `upsert_service`, `remove_service` or `stop_all`; the last visits the services in some order. -/
inductive RegistryOp where
  | upsertService (name : Str) (h : ServiceHandle)
  | removeService (name : Str)
  | stopAll (order : IterOrder (Str × ServiceHandle))

/-- The handle that a call passes, with its name. -/
def RegistryOp.passes : RegistryOp → List (Str × ServiceHandle)
  | .upsertService name h => [(name, h)]
  | .removeService _ => []
  | .stopAll _ => []

/-- The access to the registry: what is left of it, and the handles that are taken out. -/
def RegistryOp.access (s : Server) : RegistryOp → Server × List ServiceHandle
  | .upsertService name h => (s.insert name h, (s.services.get name).toList)
  | .removeService name => (s.remove name, (s.services.get name).toList)
  | .stopAll order => (s.take, (order.visit s.services.entries).map Prod.snd)

/-- A call behind its access to the registry, with all that it displaced, signalled and awaited. -/
structure RegistryCall where
  hands : Hands
  displaced : List ServiceHandle
  signalled : List ServiceHandle
  awaited : List ServiceHandle

def RegistryCall.begin (taken : List ServiceHandle) : RegistryCall := ⟨.displaced taken, taken, [], []⟩

/-- The call after a step of its hands, which signals or awaits the first handle that it holds. -/
def RegistryCall.moved (call : RegistryCall) (hands : Hands) : RegistryCall :=
  if call.hands.sent then { call with hands := hands, awaited := call.awaited ++ call.hands.held.take 1 }
  else { call with hands := hands, signalled := call.signalled ++ call.hands.held.take 1 }

structure Registry where
  server : Server
  calls : CallId → Option RegistryCall
  /-- The handles that have been passed to `upsert_service`, with their names. -/
  passed : List (Str × ServiceHandle)

inductive RegistryLabel where
  | spawn (service : Service)
  | call (c : CallId) (op : RegistryOp)
  | advance (c : CallId)
  | ended (h : ServiceHandle)

namespace Registry

def new : Registry := ⟨.new, fun _ => none, []⟩

/-- A handle is moved into a call, so it is that of a task and has not been passed before. -/
def fresh (w : Registry) (op : RegistryOp) : Bool :=
  op.passes.all fun p => (w.server.statusOf p.2).isSome && p.2 ∉ w.passed.map Prod.snd

def next (w : Registry) : RegistryLabel → Option Registry
  | .spawn service => some { w with server := w.server.spawn service }
  | .call c op =>
      if (w.calls c).isNone && w.fresh op then
        let r := op.access w.server
        some
          { server := r.1
            calls := Function.update w.calls c (some (.begin r.2))
            passed := w.passed ++ op.passes }
      else none
  | .advance c =>
      match w.calls c with
      | some call =>
          (call.hands.step w.server).map fun r =>
            { w with server := r.1, calls := Function.update w.calls c (some (call.moved r.2)) }
      | none => none
  | .ended h => some { w with server := w.server.setStatus h .terminated }

def Steps (w w' : Registry) : Prop := Reach (fun w l w' => w.next l = some w') (fun _ _ => True) w w'

/-- The handles that a call took out of the registry, signalled and awaited, each in its order. -/
def displaced (w : Registry) (c : CallId) : List ServiceHandle := (w.calls c).elim [] RegistryCall.displaced

def signalled (w : Registry) (c : CallId) : List ServiceHandle := (w.calls c).elim [] RegistryCall.signalled

def awaited (w : Registry) (c : CallId) : List ServiceHandle := (w.calls c).elim [] RegistryCall.awaited

/-- The call has handles to deal with, or has dealt with all of them. -/
def InFlight (w : Registry) (c : CallId) : Prop := ∃ call, w.calls c = some call ∧ call.hands.held ≠ []

def Returned (w : Registry) (c : CallId) : Prop := ∃ call, w.calls c = some call ∧ call.hands.held = []

/-! ## The invariant -/

/-- What a call displaced is what it awaited and what it holds, and it signals one handle ahead of the wait. -/
structure Consistent (call : RegistryCall) : Prop where
  spawned : call.hands.spawned = none
  displaced : call.displaced = call.awaited ++ call.hands.held
  signalled : call.signalled = call.awaited ++ if call.hands.sent then call.hands.held.take 1 else []

structure Inv (w : Registry) : Prop where
  calls : ∀ c call, w.calls c = some call → Consistent call
  once : (w.passed.map Prod.snd).Nodup
  registered : ∀ n h, w.server.services.get n = some h → (n, h) ∈ w.passed
  displaced : ∀ c, ∀ h ∈ w.displaced c, h ∈ w.passed.map Prod.snd ∧ ∀ n, w.server.services.get n ≠ some h
  oneCall : ∀ c c' h, h ∈ w.displaced c → h ∈ w.displaced c' → c = c'
  nodup : ∀ c, (w.displaced c).Nodup
  covered : ∀ n h, (n, h) ∈ w.passed → w.server.services.get n = some h ∨ ∃ c, h ∈ w.displaced c

theorem inv_new : Inv new := by
  constructor
  · intro c call h
    cases h
  · exact List.nodup_nil
  · intro n h hget
    cases hget
  · exact fun c h hmem => absurd hmem List.not_mem_nil
  · exact fun c c' h hmem => absurd hmem List.not_mem_nil
  · exact fun c => List.nodup_nil
  · exact fun n h hmem => absurd hmem List.not_mem_nil

theorem Inv.oneName {w : Registry} (h : Inv w) {n n' : Str} {t : ServiceHandle} (hn : (n, t) ∈ w.passed)
    (hn' : (n', t) ∈ w.passed) : n = n' :=
  congrArg Prod.fst (List.inj_on_of_nodup_map h.once hn hn' rfl)

/-- Steps that leave the registry alone and displace nothing. -/
theorem Inv.congr {w w' : Registry} (h : Inv w) (hcalls : ∀ c call, w'.calls c = some call → Consistent call)
    (hpassed : w'.passed = w.passed) (hservices : w'.server.services = w.server.services)
    (hdisplaced : ∀ c, w'.displaced c = w.displaced c) : Inv w' := by
  refine ⟨hcalls, ?_, ?_, ?_, ?_, ?_, ?_⟩
  · rw [hpassed]
    exact h.once
  · rw [hpassed, hservices]
    exact h.registered
  · intro c
    rw [hdisplaced, hpassed, hservices]
    exact h.displaced c
  · intro c c'
    rw [hdisplaced, hdisplaced]
    exact h.oneCall c c'
  · intro c
    rw [hdisplaced]
    exact h.nodup c
  · intro n t hmem
    rw [hservices]
    rw [hpassed] at hmem
    simpa only [hdisplaced] using h.covered n t hmem

/-! ## The access -/

/-- An access takes services out, each of them once, and puts in the one that it passes. -/
structure Accessed (w : Registry) (op : RegistryOp) : Prop where
  taken : ∀ h ∈ (op.access w.server).2, ∃ n, w.server.services.get n = some h
  nodup : (op.access w.server).2.Nodup
  left : ∀ n h, (op.access w.server).1.services.get n = some h →
    w.server.services.get n = some h ∧ h ∉ (op.access w.server).2 ∨ (n, h) ∈ op.passes
  put : ∀ p ∈ op.passes, (op.access w.server).1.services.get p.1 = some p.2
  kept : ∀ n h, w.server.services.get n = some h →
    (op.access w.server).1.services.get n = some h ∨ h ∈ (op.access w.server).2

theorem Inv.accessed {w : Registry} (h : Inv w) (op : RegistryOp) : Accessed w op := by
  have hother : ∀ name n t, w.server.services.get n = some t → n ≠ name → t ∉ (w.server.services.get name).toList := by
    intro name n t hget hne hmem
    exact hne (h.oneName (h.registered n t hget) (h.registered name t (Option.mem_toList.mp hmem)))
  have hnodup : ∀ name, (w.server.services.get name).toList.Nodup := fun name => by
    cases w.server.services.get name <;> simp
  cases op with
  | upsertService name t =>
      refine ⟨fun t' ht' => ⟨name, Option.mem_toList.mp ht'⟩, hnodup name, fun n t' hget => ?_, fun p hp => ?_, fun n t' hget => ?_⟩
      · simp only [RegistryOp.access, Server.services_insert, HashMap.get_insert] at hget ⊢
        by_cases hn : n = name
        · rw [if_pos hn] at hget
          exact .inr (by rw [hn, Option.some.inj hget]; exact List.mem_singleton_self _)
        · rw [if_neg hn] at hget
          exact .inl ⟨hget, hother name n t' hget hn⟩
      · obtain rfl := List.mem_singleton.mp hp
        simp [RegistryOp.access, HashMap.get_insert]
      · simp only [RegistryOp.access, Server.services_insert, HashMap.get_insert]
        by_cases hn : n = name
        · exact .inr (by rw [← hn, hget]; exact List.mem_singleton_self _)
        · exact .inl (by rw [if_neg hn, hget])
  | removeService name =>
      refine ⟨fun t' ht' => ⟨name, Option.mem_toList.mp ht'⟩, hnodup name, fun n t' hget => ?_,
        fun p hp => absurd hp List.not_mem_nil, fun n t' hget => ?_⟩
      · simp only [RegistryOp.access, Server.services_remove, HashMap.get_remove] at hget ⊢
        by_cases hn : n = name
        · rw [if_pos hn] at hget
          cases hget
        · rw [if_neg hn] at hget
          exact .inl ⟨hget, hother name n t' hget hn⟩
      · simp only [RegistryOp.access, Server.services_remove, HashMap.get_remove]
        by_cases hn : n = name
        · exact .inr (by rw [← hn, hget]; exact List.mem_singleton_self _)
        · exact .inl (by rw [if_neg hn, hget])
  | stopAll order =>
      have hmem : ∀ t, t ∈ (order.visit w.server.services.entries).map Prod.snd ↔ ∃ n, w.server.services.get n = some t := by
        intro t
        simp [(order.perm _).mem_iff, HashMap.get_eq_some]
      refine ⟨fun t ht => (hmem t).mp ht, ?_, fun n t hget => ?_, fun p hp => absurd hp List.not_mem_nil,
        fun n t hget => .inr ((hmem t).mpr ⟨n, hget⟩)⟩
      · refine ((order.perm w.server.services.entries).map Prod.snd).nodup_iff.mpr ?_
        refine (List.nodup_map_iff_inj_on w.server.services.nodup.of_map).mpr fun p hp q hq heq => ?_
        have hp' := h.registered p.1 p.2 (HashMap.get_eq_some.mpr hp)
        have hq' := h.registered q.1 q.2 (HashMap.get_eq_some.mpr hq)
        exact List.inj_on_of_nodup_map h.once hp' hq' heq
      · cases hget

/-! ## The steps -/

theorem displaced_update (w : Registry) (server : Server) (passed : List (Str × ServiceHandle)) (c c' : CallId)
    (call : RegistryCall) : displaced ⟨server, Function.update w.calls c (some call), passed⟩ c' =
      if c' = c then call.displaced else w.displaced c' := by
  unfold displaced
  by_cases h : c' = c
  · subst h
    simp
  · simp [h]

theorem consistent_update {w : Registry} (h : ∀ c call, w.calls c = some call → Consistent call) {c : CallId}
    {call : RegistryCall} (hcall : Consistent call) (c' : CallId) (call' : RegistryCall)
    (hc' : Function.update w.calls c (some call) c' = some call') : Consistent call' := by
  by_cases heq : c' = c
  · subst heq
    rw [Function.update_self] at hc'
    exact Option.some.inj hc' ▸ hcall
  · rw [Function.update_of_ne heq] at hc'
    exact h c' call' hc'

theorem consistent_begin (taken : List ServiceHandle) : Consistent (.begin taken) := ⟨rfl, rfl, rfl⟩

/-- A step of its hands moves the first handle of a call from held to signalled to awaited. -/
theorem Consistent.moved {s s' : Server} {call : RegistryCall} {hands : Hands} (h : Consistent call)
    (hstep : call.hands.step s = some (s', hands)) :
    Consistent (call.moved hands) ∧ (call.moved hands).displaced = call.displaced ∧ s'.services = s.services := by
  obtain ⟨⟨spawned, held, sent⟩, displaced, signalled, awaited⟩ := call
  obtain ⟨hspawned, hdisplaced, hsignalled⟩ := h
  simp only at hspawned hdisplaced hsignalled
  subst hspawned
  cases held with
  | nil => cases hstep
  | cons t rest =>
      cases sent with
      | false =>
          obtain ⟨rfl, rfl⟩ := Prod.mk.inj (Option.some.inj hstep)
          refine ⟨⟨rfl, hdisplaced, ?_⟩, rfl, s.services_signal t⟩
          simpa [RegistryCall.moved] using hsignalled
      | true =>
          simp only [Hands.step, if_true] at hstep
          split at hstep
          · obtain ⟨rfl, rfl⟩ := Prod.mk.inj (Option.some.inj hstep)
            refine ⟨⟨rfl, ?_, ?_⟩, rfl, rfl⟩
            · simpa [RegistryCall.moved, Hands.displaced] using hdisplaced
            · simpa [RegistryCall.moved, Hands.displaced] using hsignalled
          · cases hstep

theorem Inv.call {w : Registry} (h : Inv w) {c : CallId} {op : RegistryOp} (hnone : w.calls c = none)
    (hfresh : w.fresh op = true) :
    Inv ⟨(op.access w.server).1, Function.update w.calls c (some (.begin (op.access w.server).2)), w.passed ++ op.passes⟩ := by
  have hacc := h.accessed op
  have hnew : ∀ p ∈ op.passes, p.2 ∉ w.passed.map Prod.snd := fun p hp => by
    have := List.all_eq_true.mp hfresh p hp
    simp only [Bool.and_eq_true, decide_eq_true_eq] at this
    exact this.2
  have hnodisplaced : w.displaced c = [] := by rw [Registry.displaced, hnone]; rfl
  -- what is taken out was passed before and is not displaced yet
  have htaken : ∀ t ∈ (op.access w.server).2, t ∈ w.passed.map Prod.snd ∧ ∀ c', t ∉ w.displaced c' := fun t ht => by
    obtain ⟨n, hn⟩ := hacc.taken t ht
    exact ⟨List.mem_map.mpr ⟨(n, t), h.registered n t hn, rfl⟩, fun c' hc' => (h.displaced c' t hc').2 n hn⟩
  have hgone : ∀ t, t ∈ w.passed.map Prod.snd →
      (t ∈ (op.access w.server).2 ∨ ∀ n, w.server.services.get n ≠ some t) →
      ∀ n, (op.access w.server).1.services.get n ≠ some t := fun t hpassed hor n hget => by
    rcases hacc.left n t hget with ⟨hold, hnot⟩ | hput
    · exact hor.elim hnot fun hno => hno n hold
    · exact hnew _ hput hpassed
  constructor
  · exact consistent_update h.calls (consistent_begin _)
  · rw [List.map_append, List.nodup_append]
    refine ⟨h.once, ?_, fun t ht t' ht' heq => ?_⟩
    · cases op <;> simp [RegistryOp.passes]
    · obtain ⟨p, hp, rfl⟩ := List.mem_map.mp ht'
      exact hnew p hp (heq ▸ ht)
  · intro n t hget
    rcases hacc.left n t hget with ⟨hold, -⟩ | hput
    · exact List.mem_append_left _ (h.registered n t hold)
    · exact List.mem_append_right _ hput
  · intro c' t hmem
    rw [displaced_update] at hmem
    rw [List.map_append, List.mem_append]
    split at hmem
    · exact ⟨.inl (htaken t hmem).1, hgone t (htaken t hmem).1 (.inl hmem)⟩
    · obtain ⟨hpassed, hno⟩ := h.displaced c' t hmem
      exact ⟨.inl hpassed, hgone t hpassed (.inr hno)⟩
  · intro c₁ c₂ t h₁ h₂
    rw [displaced_update] at h₁ h₂
    split at h₁ <;> split at h₂
    · rename_i hc₁ hc₂
      exact hc₁.trans hc₂.symm
    · exact absurd h₂ ((htaken t h₁).2 c₂)
    · exact absurd h₁ ((htaken t h₂).2 c₁)
    · exact h.oneCall c₁ c₂ t h₁ h₂
  · intro c'
    rw [displaced_update]
    split
    · exact hacc.nodup
    · exact h.nodup c'
  · intro n t hmem
    simp only [displaced_update]
    rcases List.mem_append.mp hmem with hmem | hmem
    · rcases h.covered n t hmem with hget | ⟨c', hc'⟩
      · rcases hacc.kept n t hget with hget | hout
        · exact .inl hget
        · exact .inr ⟨c, by rw [if_pos rfl]; exact hout⟩
      · have hne : c' ≠ c := fun heq => by simp [heq, hnodisplaced] at hc'
        exact .inr ⟨c', by rw [if_neg hne]; exact hc'⟩
    · exact .inl (hacc.put _ hmem)

theorem Inv.step {w w' : Registry} (h : Inv w) {l : RegistryLabel} (hstep : w.next l = some w') : Inv w' := by
  cases l with
  | spawn service =>
      obtain rfl := Option.some.inj hstep
      exact h.congr h.calls rfl rfl fun _ => rfl
  | call c op =>
      simp only [next, Bool.and_eq_true, Option.isNone_iff_eq_none] at hstep
      split at hstep
      · rename_i hcond
        obtain rfl := Option.some.inj hstep
        exact h.call hcond.1 hcond.2
      · cases hstep
  | advance c =>
      simp only [next] at hstep
      split at hstep
      · rename_i call hcall
        obtain ⟨⟨server, hands⟩, hhands, rfl⟩ := Option.map_eq_some_iff.mp hstep
        obtain ⟨hconsistent, hdisplaced, hservices⟩ := (h.calls c call hcall).moved hhands
        refine h.congr (consistent_update h.calls hconsistent) rfl hservices fun c' => ?_
        rw [displaced_update]
        split
        · rename_i heq
          rw [hdisplaced, heq, Registry.displaced, hcall]
          rfl
        · rfl
      · cases hstep
  | ended t =>
      obtain rfl := Option.some.inj hstep
      exact h.congr h.calls rfl rfl fun _ => rfl

theorem inv_steps {w : Registry} (h : Steps new w) : Inv w :=
  Reach.invariant (P := Inv) inv_new (fun _ _ _ hinv _ hstep => hinv.step hstep) h

/-! ## The theorem -/

/-- Every handle that was passed is in the registry under its name, or was displaced by exactly one call, which signals
and awaits it once. -/
structure Conserved (w : Registry) : Prop where
  owned : ∀ n h, (n, h) ∈ w.passed →
    (w.server.services.get n = some h ∧ ∀ c, h ∉ w.displaced c) ∨
      ((∀ n', w.server.services.get n' ≠ some h) ∧ ∃! c, h ∈ w.displaced c)
  registered : ∀ n h, w.server.services.get n = some h → (n, h) ∈ w.passed
  atMostOnce : ∀ c, (w.displaced c).Nodup ∧ w.signalled c <+: w.displaced c ∧ w.awaited c <+: w.signalled c
  returned : ∀ c, w.Returned c → w.signalled c = w.displaced c ∧ w.awaited c = w.displaced c
  quiet : (∀ c, ¬ w.InFlight c) → ∀ h ∈ w.passed.map Prod.snd,
    ((∀ c, h ∉ w.signalled c) ↔ ∃ n, w.server.services.get n = some h)
  oneName : ∀ n n' h, w.server.services.get n = some h → w.server.services.get n' = some h → n = n'

/-- Two calls register services under one name while a third stops all services. -/
def sampleRun : List RegistryLabel :=
  let service : Service := .listener 0 ⟨Str.lit "127.0.0.1", 80⟩
  [.spawn service, .spawn service, .call 0 (.upsertService (Str.lit "a") 0), .call 1 (.upsertService (Str.lit "a") 1),
    .call 2 (.stopAll .stored), .advance 2, .advance 1, .ended 0, .advance 1]

end Registry

end NeemataProxy
