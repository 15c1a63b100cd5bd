import NeemataProxy.Lib.Sliding
import NeemataProxy.Router.Locking

/-!
# Sliding expiration under concurrent calls

A call reads the clock when it begins, and sets the expiry of its entry in a later step. In between, other calls with later
readings may use the same entry; what they have put off, the delayed call puts forward again.
-/

namespace NeemataProxy.Routing

open Lib
open StickySessionState (shardIndexForKey)

variable {n : Nat}

/-! ## Timed runs -/

/-- The key whose expiry an action sets, with the reading that the TTL is added to: of the entry that a lookup finds, or of
the one that is bound. -/
def StoreAct.touch (st : StickySessionState n) : StoreAct n → Option (AffinityMapKey × Nat)
  | .find i now k allowed =>
      (StickySessionState.lookupEntry st.config.ttl now k allowed (st.entries i)).2.map fun _ => (k, now)
  | .insert _ now k _ => some (k, now)
  | .count _ | .cleanupIfDue _ _ | .evict _ _ | .erase _ _ => none

/-- The calls on a store, the clock, and for each key the readings of the calls that have used its entry since it is there,
whether they have returned or not. -/
structure TimedStore (n : Nat) where
  calls : LockedStore n
  clock : Nat
  uses : TtlMap.Uses AffinityMapKey

inductive TimedLabel where
  /-- The call reads the clock. -/
  | begin (c : CallNo) (call : StoreCall)
  | step (c : CallNo)

namespace TimedStore

def new (config : StickySessionConfig) : TimedStore n := ⟨LockedStore.idle (.new n config), 0, fun _ => []⟩

def store (w : TimedStore n) : StickySessionState n := w.calls.shared.store

/-- What the next step of a call touches. -/
def touch (w : TimedStore n) (c : CallNo) : Option (AffinityMapKey × Nat) :=
  match w.calls.program c with
  | .act a :: _ => a.touch w.store
  | _ => none

/-- The lookup that the next step of a call is. -/
def looksUp (w : TimedStore n) (c : CallNo) : Option (Nat × AffinityMapKey × Finset Str) :=
  match w.calls.program c with
  | .act (.find _ now k allowed) :: _ => some (now, k, allowed)
  | _ => none

variable [NeZero n] (hash : AffinityMapKey → UInt64)

/-- The clock never goes back. -/
def step (w : TimedStore n) : TimedLabel → Option (TimedStore n)
  | .begin c call =>
      if w.clock ≤ call.now then
        (w.calls.stepOf SharedStore.exec (.begin c (call.program hash))).map fun calls =>
          { w with calls := calls, clock := call.now }
      else none
  | .step c =>
      (w.calls.next SharedStore.exec c).map fun calls =>
        ⟨calls, w.clock, w.uses.after (w.touch c) (calls.shared.store.toMap hash)⟩

def Steps (w : TimedStore n) (l : TimedLabel) (w' : TimedStore n) : Prop := w.step hash l = some w'

/-- A step that touches an entry has the reading of no earlier call than those that have used the entry before. -/
def OnTime (w : TimedStore n) : TimedLabel → Prop
  | .begin _ _ => True
  | .step c => TtlMap.InOrder w.uses (w.touch c)

instance (w : TimedStore n) (l : TimedLabel) : Decidable (w.OnTime l) :=
  match l with
  | .begin _ _ => isTrue trivial
  | .step c => inferInstanceAs (Decidable (TtlMap.InOrder w.uses (w.touch c)))

/-- Every entry expires a TTL or more after each call that has used it. -/
def Sliding (w : TimedStore n) : Prop := TtlMap.Outlasts w.store.config.ttl (w.store.toMap hash) w.uses

end TimedStore

/-- The action takes the entry of `k` away whenever it expires: it removes it, does not allow its backend, or finds more
unexpired entries than the capacity. -/
def StoreAct.Discards (st : StickySessionState n) (k : AffinityMapKey) (e : Stamped Str) : StoreAct n → Prop
  | .erase _ k' => k' = k
  | .find _ _ k' allowed => k' = k ∧ e.value ∉ allowed
  | .evict now _ => now < e.expiresAt ∧ st.config.maxEntries < totalLen (sweep now st.entries)
  | .count _ | .cleanupIfDue _ _ | .insert _ _ _ _ => False

/-- The reading with which an action compares the expiry of the entry of `k`. -/
def StoreAct.judges (k : AffinityMapKey) : StoreAct n → Option Nat
  | .find _ now k' _ => if k' = k then some now else none
  | .evict now _ => some now
  | .count _ | .cleanupIfDue _ _ | .insert _ _ _ _ | .erase _ _ => none

section Sliding

variable [NeZero n] (hash : AffinityMapKey → UInt64)

/-- The step of a call treats no entry as expired within the TTL of a call that has used it. -/
structure TimedStore.Honours (w : TimedStore n) (c : CallNo) (w' : TimedStore n) : Prop where
  gone : ∀ k e, w.store.toMap hash k = some e → w'.store.toMap hash k = none →
    ∃ a rest, w.calls.program c = .act a :: rest ∧
      (a.Discards w.store k e ∨ ∃ now, a.judges k = some now ∧ ∀ r ∈ w.uses k, r + w.store.config.ttl ≤ now)
  found : ∀ now k allowed e, w.looksUp c = some (now, k, allowed) → w.store.toMap hash k = some e →
    (∃ r ∈ w.uses k, now < r + w.store.config.ttl) → e.value ∈ allowed → w'.calls.shared.answer c = some e.value

/-! ## What an action does to the map -/

/-- The action works on the shard of its key. -/
def StoreAct.Homed (a : StoreAct n) : Prop :=
  match a with
  | .find i _ k _ | .insert i _ k _ | .erase i k => i = shardIndexForKey hash k
  | .count _ | .cleanupIfDue _ _ | .evict _ _ => True

/-- The call of the map that an action is; removals read no clock. -/
def StoreAct.call : StoreAct n → Option (Nat × TtlMap.Op AffinityMapKey Str)
  | .find _ now k allowed => some (now, .lookup k allowed)
  | .insert _ now k backend => some (now, .bind k backend)
  | .erase _ k => some (0, .remove k)
  | .count _ | .cleanupIfDue _ _ | .evict _ _ => none

variable {hash} {s : SharedStore n} {c : CallNo} {a : StoreAct n}

omit [NeZero n] in
theorem config_exec : (s.exec c a).1.store.config = s.store.config := by cases a <;> rfl

/-- An action on the entry of a key is one call of the map, and the use that it records is the touch of that call. -/
theorem exec_call (h : a.Homed hash) {now : Nat} {op : TtlMap.Op AffinityMapKey Str} (hcall : a.call = some (now, op)) :
    let r := TtlMap.exec s.store.config.ttl now (s.store.toMap hash) op
    (s.exec c a).1.store.toMap hash = r.1 ∧ a.touch s.store = op.touchAt now r.2 ∧
      ∀ k allowed, op = .lookup k allowed → (s.exec c a).1.answer c = r.2 := by
  cases a with
  | find i t k allowed =>
      obtain rfl : i = shardIndexForKey hash k := h
      obtain ⟨rfl, rfl⟩ := Prod.mk.inj (Option.some.inj hcall)
      obtain ⟨hget, hanswer, hother⟩ :=
        lookupEntry_spec s.store.config.ttl t k allowed (s.store.entries (shardIndexForKey hash k))
      have hmap := shardMap_update hash s.store.entries k _ hother
      rw [hget] at hmap
      refine ⟨hmap, ?_, fun _ _ _ => (Function.update_self ..).trans hanswer⟩
      rw [StoreAct.touch, hanswer]
      cases hr : (TtlMap.exec s.store.config.ttl t (s.store.toMap hash) (.lookup k allowed)).2 <;>
        simp only [TtlMap.exec, TtlMap.Op.key, StickySessionState.toMap, shardMap] at hr <;>
        simp [hr, TtlMap.Op.touchAt, TtlMap.Op.touched]
  | insert i t k backend =>
      obtain rfl : i = shardIndexForKey hash k := h
      obtain ⟨rfl, rfl⟩ := Prod.mk.inj (Option.some.inj hcall)
      exact ⟨toMap_bound hash s.store t k backend, rfl, fun k' allowed hlookup => by cases hlookup⟩
  | erase i k =>
      obtain rfl : i = shardIndexForKey hash k := h
      obtain ⟨rfl, rfl⟩ := Prod.mk.inj (Option.some.inj hcall)
      exact ⟨exec_remove hash s.store 0 .stored k, rfl, fun k' allowed hlookup => by cases hlookup⟩
  | _ => cases hcall

variable (hash) in
/-- Every other action touches nothing; a cleanup loses entries that have expired, or when there are too many. -/
theorem exec_other (hcall : a.call = none) :
    a.touch s.store = none ∧ TtlMap.Sub ((s.exec c a).1.store.toMap hash) (s.store.toMap hash) ∧
      ∀ k e, s.store.toMap hash k = some e → (s.exec c a).1.store.toMap hash k = none →
        ∃ now, a.judges k = some now ∧ (e.expiresAt ≤ now ∨ a.Discards s.store k e) := by
  cases a with
  | count i =>
      have hsame : ((s.exec c (.count i)).1.store.toMap hash) = s.store.toMap hash := by
        change shardMap hash (s.store.shouldCleanup i).1.entries = _
        rw [StickySessionState.entries_shouldCleanup]
        rfl
      rw [hsame]
      exact ⟨rfl, .refl _, fun k e hk hgone => absurd (hk.symm.trans hgone) nofun⟩
  | cleanupIfDue now ord => exact ⟨rfl, .refl _, fun k e hk hgone => absurd (hk.symm.trans hgone) nofun⟩
  | evict now ord =>
      refine ⟨rfl, cleanup_sub hash ord s.store.config.maxEntries now s.store.entries, fun k e hk hgone => ⟨now, rfl, ?_⟩⟩
      by_contra hnot
      obtain ⟨hlive, hkept⟩ := not_or.mp hnot
      have hlive : now < e.expiresAt := Nat.lt_of_not_le hlive
      have hfit : totalLen (sweep now s.store.entries) ≤ s.store.config.maxEntries :=
        Nat.le_of_not_lt fun hover => hkept ⟨hlive, hover⟩
      cases (cleanup_covers hash hfit k e hk hlive).symm.trans hgone
  | _ => cases hcall

/-! ## Runs -/

/-- Every action of a call works on the shard of its key. -/
def LockedStore.Homed (hash : AffinityMapKey → UInt64) (w : LockedStore n) : Prop :=
  ∀ c a, .act a ∈ w.program c → a.Homed hash

theorem homed_program (call : StoreCall) (h : .act a ∈ (call.program hash : StoreProgram n)) : a.Homed hash := by
  obtain ⟨now, ord, op⟩ := call
  cases op <;> simp only [StoreCall.program, List.mem_cons, List.not_mem_nil, LockInstr.act.injEq, reduceCtorEq,
    false_or, or_false] at h
  · rcases h with rfl | rfl | rfl <;> simp [StoreAct.Homed]
  · rcases h with rfl | rfl | rfl <;> simp [StoreAct.Homed]
  · subst h
    rfl

theorem homed_exec {b : StoreAct n} (h : .act b ∈ (s.exec c a).2) : b.Homed hash := by
  cases a with
  | cleanupIfDue now ord =>
      simp only [SharedStore.exec] at h
      split at h
      · obtain rfl : b = .evict now ord := by simpa [cleanupProgram] using h
        trivial
      · simp at h
  | _ => simp [SharedStore.exec] at h

variable {w w' : TimedStore n} {l : TimedLabel}

/-- A call that begins has only read the clock. -/
theorem begin_cases {call : StoreCall} (hstep : w.Steps hash (.begin c call) w') :
    w' = ⟨{ w.calls with program := Function.update w.calls.program c (call.program hash) }, call.now, w.uses⟩ := by
  simp only [TimedStore.Steps, TimedStore.step] at hstep
  split at hstep
  · obtain ⟨calls, hcalls, rfl⟩ := Option.map_eq_some_iff.mp hstep
    simp only [LockState.stepOf] at hcalls
    split at hcalls
    · obtain rfl := Option.some.inj hcalls
      rfl
    · cases hcalls
  · cases hstep

theorem homed_step (h : w.calls.Homed hash) (hstep : w.Steps hash l w') : w'.calls.Homed hash := by
  intro c a hmem
  cases l with
  | begin c' call =>
      obtain rfl := begin_cases hstep
      by_cases hc : c = c'
      · subst hc
        exact homed_program call (by simpa using hmem)
      · exact h c a (by simpa [hc] using hmem)
  | step c' =>
      obtain ⟨calls, hcalls, rfl⟩ := Option.map_eq_some_iff.mp hstep
      rcases LockState.mem_program_next hcalls hmem with hold | ⟨b, hnew⟩
      · exact h c a hold
      · exact homed_exec hnew

/-- A step of a call acts on the store, or leaves it and touches nothing. -/
theorem step_cases_of_call (hstep : w.Steps hash (.step c) w') :
    ((∀ a rest, w.calls.program c ≠ .act a :: rest) ∧ w'.calls.shared = w.calls.shared ∧ w.touch c = none ∨
      ∃ a rest, w.calls.program c = .act a :: rest ∧ w'.calls.shared = (w.calls.shared.exec c a).1 ∧
        w.touch c = a.touch w.store) ∧
    w'.uses = w.uses.after (w.touch c) (w'.store.toMap hash) := by
  obtain ⟨calls, hcalls, rfl⟩ := Option.map_eq_some_iff.mp hstep
  refine ⟨?_, rfl⟩
  rcases LockState.next_cases hcalls with ⟨i, rest, hprogram, -, rfl⟩ | ⟨i, rest, hprogram, rfl⟩ | ⟨a, rest, hprogram, rfl⟩
  · exact .inl ⟨by simp [hprogram], rfl, by simp [TimedStore.touch, hprogram]⟩
  · exact .inl ⟨by simp [hprogram], rfl, by simp [TimedStore.touch, hprogram]⟩
  · exact .inr ⟨a, rest, hprogram, rfl, by simp [TimedStore.touch, hprogram]⟩

omit [NeZero n] in
theorem looksUp_eq_some {now : Nat} {k : AffinityMapKey} {allowed : Finset Str} :
    w.looksUp c = some (now, k, allowed) ↔ ∃ i rest, w.calls.program c = .act (.find i now k allowed) :: rest := by
  unfold TimedStore.looksUp
  split
  · rename_i hprogram
    simp [hprogram, and_assoc]
  · rename_i hno
    exact ⟨nofun, fun ⟨i, rest, hprogram⟩ => absurd hprogram (hno _ _ _ _ _)⟩

theorem config_step (hstep : w.Steps hash l w') : w'.store.config = w.store.config := by
  cases l with
  | begin c call =>
      obtain rfl := begin_cases hstep
      rfl
  | step c =>
      rcases (step_cases_of_call hstep).1 with ⟨-, hshared, -⟩ | ⟨a, rest, -, hshared, -⟩
      · rw [TimedStore.store, hshared]
        rfl
      · rw [TimedStore.store, hshared]
        exact config_exec

/-- A step keeps every entry beyond its uses exactly when it is on time. -/
theorem sliding_next (hhomed : w.calls.Homed hash) (h : w.Sliding hash) (hstep : w.Steps hash (.step c) w') :
    w'.Sliding hash ↔ w.OnTime (.step c) := by
  obtain ⟨hcases, huses⟩ := step_cases_of_call hstep
  have hidle : ∀ {st : StickySessionState n}, TtlMap.Sub (st.toMap hash) (w.store.toMap hash) → w.touch c = none →
      (TtlMap.Outlasts w.store.config.ttl (st.toMap hash) (w.uses.after (w.touch c) (st.toMap hash)) ↔
        w.OnTime (.step c)) := fun hsub htouch => by
    rw [TimedStore.OnTime, htouch]
    exact ⟨fun _ => nofun, fun _ => h.sub hsub⟩
  rw [TimedStore.Sliding, config_step hstep, huses]
  rcases hcases with ⟨-, hshared, htouch⟩ | ⟨a, rest, hprogram, hshared, htouch⟩
  · rw [show w'.store = w.store from congrArg SharedStore.store hshared]
    exact hidle (.refl _) htouch
  · rw [show w'.store = (w.calls.shared.exec c a).1.store from congrArg SharedStore.store hshared]
    cases hcall : a.call with
    | none =>
        obtain ⟨hnone, hsub, -⟩ := exec_other hash (s := w.calls.shared) (c := c) hcall
        exact hidle hsub (htouch.trans hnone)
    | some call =>
        obtain ⟨now, op⟩ := call
        have hact : a.Homed hash := hhomed c a (hprogram ▸ List.mem_cons_self)
        obtain ⟨hmap, htouched, -⟩ := exec_call (s := w.calls.shared) (c := c) hact hcall
        rw [TimedStore.OnTime, htouch, show a.touch w.store = _ from htouched, hmap]
        exact TtlMap.Outlasts.exec_iff h

/-- As long as entries outlast their uses, none is treated as expired too early. -/
theorem honours_next (hhomed : w.calls.Homed hash) (h : w.Sliding hash) (hstep : w.Steps hash (.step c) w') :
    w.Honours hash c w' := by
  obtain ⟨hcases, -⟩ := step_cases_of_call hstep
  refine ⟨fun k e hk hgone => ?_, fun now k allowed e hlooksUp hk huse hallowed => ?_⟩
  · have hdue : ∀ {now : Nat}, e.expiresAt ≤ now → ∀ r ∈ w.uses k, r + w.store.config.ttl ≤ now :=
      fun hnow r hr => (h k e hk r hr).trans hnow
    rcases hcases with ⟨-, hshared, -⟩ | ⟨a, rest, hprogram, hshared, -⟩
    · rw [show w'.store = w.store from congrArg SharedStore.store hshared] at hgone
      cases hk.symm.trans hgone
    · rw [show w'.store = (w.calls.shared.exec c a).1.store from congrArg SharedStore.store hshared] at hgone
      refine ⟨a, rest, hprogram, ?_⟩
      cases hcall : a.call with
      | none =>
          obtain ⟨-, -, hlost⟩ := exec_other hash (s := w.calls.shared) (c := c) hcall
          obtain ⟨now, hjudges, hexpired | hdiscards⟩ := hlost k e hk hgone
          · exact .inr ⟨now, hjudges, hdue hexpired⟩
          · exact .inl hdiscards
      | some call =>
          obtain ⟨now, op⟩ := call
          rw [(exec_call (s := w.calls.shared) (c := c) (hhomed c a (hprogram ▸ List.mem_cons_self)) hcall).1] at hgone
          rcases TtlMap.gone_of_exec hk hgone with rfl | ⟨allowed, rfl, hreason⟩
          · cases a <;> cases hcall
            exact .inl rfl
          · cases a <;> cases hcall
            rcases hreason with hdisallowed | hexpired
            · exact .inl ⟨rfl, hdisallowed⟩
            · exact .inr ⟨now, if_pos rfl, hdue hexpired⟩
  · obtain ⟨r, hr, hnow⟩ := huse
    have hhit : TtlMap.Hit now allowed e := ⟨hnow.trans_le (h k e hk r hr), hallowed⟩
    obtain ⟨i, rest, hprogram⟩ := looksUp_eq_some.mp hlooksUp
    rcases hcases with ⟨hno, -, -⟩ | ⟨a, rest', hprogram', hshared, -⟩
    · exact absurd hprogram (hno _ _)
    · obtain rfl : a = .find i now k allowed := by
        rw [hprogram] at hprogram'
        injection hprogram' with hinstr
        injection hinstr with hact
        exact hact.symm
      have hact := hhomed c _ (hprogram ▸ List.mem_cons_self)
      rw [hshared, (exec_call (s := w.calls.shared) (c := c) hact rfl).2.2 k allowed rfl]
      have hentry : w.calls.shared.store.toMap hash k = some e := hk
      simp [TtlMap.exec, TtlMap.Op.key, hentry, TtlMap.Op.onEntry, hhit]

/-- In a run whose calls use each entry in the order of their readings, every entry outlasts its uses by the TTL and is not
treated as expired before; the first step out of order puts an expiry forward. -/
theorem sliding_expiration (config : StickySessionConfig)
    (h : Reach (TimedStore.Steps hash) TimedStore.OnTime (TimedStore.new config : TimedStore n) w) :
    w.Sliding hash ∧ ∀ c w', w.Steps hash (.step c) w' →
      w.Honours hash c w' ∧ (w'.Sliding hash ↔ w.OnTime (.step c)) := by
  have hinv : w.calls.Homed hash ∧ w.Sliding hash := by
    refine Reach.invariant (P := fun w : TimedStore n => w.calls.Homed hash ∧ w.Sliding hash) ?_ ?_ h
    · exact ⟨fun c a hmem => by simp [TimedStore.new, LockedStore.idle] at hmem, fun k e _ r hr => by
        simp [TimedStore.new] at hr⟩
    · rintro w l w' ⟨hhomed, hsliding⟩ hontime hstep
      refine ⟨homed_step hhomed hstep, ?_⟩
      cases l with
      | begin c call =>
          obtain rfl := begin_cases hstep
          exact hsliding
      | step c => exact (sliding_next hhomed hsliding hstep).mpr hontime
  exact ⟨hinv.2, fun c w' hstep => ⟨honours_next hinv.1 hinv.2 hstep, sliding_next hinv.1 hinv.2 hstep⟩⟩

end Sliding

/-! ## Two calls on one session -/

def slidingConfig : StickySessionConfig :=
  ⟨true, Str.lit "nmt_affinity", Str.lit "x-nmt-affinity-key", 20, 10, false⟩

def slidingKey : AffinityMapKey := ⟨Str.lit "app", .http1, Str.lit "client"⟩

def bindCall (now : Nat) : StoreCall := ⟨now, .stored, .bind slidingKey (Str.lit "127.0.0.1:3000")⟩

def lookupCall (now : Nat) : StoreCall := ⟨now, .stored, .lookup slidingKey {Str.lit "127.0.0.1:3000"}⟩

/-- Call `c` takes `k` steps. -/
def callSteps (c : CallNo) (k : Nat) : List TimedLabel := List.replicate k (.step c)

/-- Call 0 reads the clock before call 1 and binds after it; then call 2 is about to look the key up. -/
def delayedRun : List TimedLabel :=
  .begin 0 (bindCall 0) :: .begin 1 (bindCall 10) ::
    (callSteps 1 134 ++ callSteps 0 5 ++ .begin 2 (lookupCall 25) :: callSteps 2 3)

/-- The session that was used at 10 expires at 20, and the lookup at 25 does not find it. -/
theorem delayed_bind_shortens : ∃ w w' : TimedStore stickyShardCount,
    Reach (TimedStore.Steps fun _ => 0) (fun _ _ => True) (TimedStore.new slidingConfig) w ∧
      w.calls.program 0 = [] ∧ w.calls.program 1 = [] ∧ w.uses slidingKey = [0, 10] ∧
      (w.store.toMap (fun _ => 0) slidingKey).map Stamped.expiresAt = some 20 ∧ ¬ w.Sliding (fun _ => 0) ∧
      w.looksUp 2 = some (25, slidingKey, {Str.lit "127.0.0.1:3000"}) ∧
      w.Steps (fun _ => 0) (.step 2) w' ∧ w'.calls.shared.answer 2 = none ∧ ¬ w.Honours (fun _ => 0) 2 w' := by
  have hrun : (runAllowed (TimedStore.step (n := stickyShardCount) fun _ => 0) (fun _ _ => True)
      (TimedStore.new slidingConfig) delayedRun).any (fun w => (w.calls.program 0).isEmpty && (w.calls.program 1).isEmpty &&
        w.uses slidingKey == [0, 10] && w.store.config.ttl == 20 &&
        (w.store.toMap (fun _ => 0) slidingKey).map (fun e => (e.value, e.expiresAt)) == some (Str.lit "127.0.0.1:3000", 20) &&
        w.looksUp 2 == some (25, slidingKey, {Str.lit "127.0.0.1:3000"}) &&
        (w.step (fun _ => 0) (.step 2)).any fun w' => w'.calls.shared.answer 2 == none) = true := by
    decide +kernel
  obtain ⟨w, hw, hcheck⟩ := Reach.exists_of_any hrun
  simp only [Bool.and_eq_true, List.isEmpty_iff, beq_iff_eq] at hcheck
  obtain ⟨⟨⟨⟨⟨⟨h₀, h₁⟩, huses⟩, httl⟩, hentry⟩, hlooksUp⟩, hany⟩ := hcheck
  obtain ⟨w', hstep, hanswer⟩ := (Option.any_eq_true _ _).mp hany
  obtain ⟨e, he, hpair⟩ := Option.map_eq_some_iff.mp hentry
  obtain ⟨hvalue, hexpires⟩ := Prod.mk.inj hpair
  have hused : 10 ∈ w.uses slidingKey := by rw [huses]; simp
  refine ⟨w, w', hw, h₀, h₁, huses, by rw [he, Option.map_some, hexpires], fun h => ?_, hlooksUp, hstep,
    by simpa using hanswer, fun h => ?_⟩
  · have := h slidingKey e he 10 hused
    omega
  · have := h.found 25 slidingKey _ e hlooksUp he ⟨10, hused, by omega⟩ (by rw [hvalue]; exact Finset.mem_singleton_self _)
    rw [this] at hanswer
    simp at hanswer

/-- In the order of their readings the two calls keep the session: a lookup at 25 finds it. -/
def orderedRun : List TimedLabel :=
  .begin 0 (bindCall 0) :: .begin 1 (bindCall 10) ::
    (callSteps 0 134 ++ callSteps 1 5 ++ .begin 2 (lookupCall 25) :: callSteps 2 3)

theorem sliding_expiration_sample : ∃ w w' : TimedStore stickyShardCount,
    w.looksUp 2 = some (25, slidingKey, {Str.lit "127.0.0.1:3000"}) ∧ w.uses slidingKey = [10, 0] ∧ w.Sliding (fun _ => 0) ∧
      w.Steps (fun _ => 0) (.step 2) w' ∧ w.Honours (fun _ => 0) 2 w' ∧ w'.Sliding (fun _ => 0) := by
  have hrun : (runAllowed (TimedStore.step (n := stickyShardCount) fun _ => 0) TimedStore.OnTime
      (TimedStore.new slidingConfig) orderedRun).any (fun w => w.looksUp 2 == some (25, slidingKey, {Str.lit "127.0.0.1:3000"}) &&
        w.uses slidingKey == [10, 0] && decide (w.OnTime (.step 2)) && (w.step (fun _ => 0) (.step 2)).isSome) = true := by
    decide +kernel
  obtain ⟨w, hw, hcheck⟩ := Reach.exists_of_any hrun
  simp only [Bool.and_eq_true, beq_iff_eq, decide_eq_true_eq] at hcheck
  obtain ⟨⟨⟨hlooksUp, huses⟩, hontime⟩, hsome⟩ := hcheck
  obtain ⟨w', hstep⟩ := Option.isSome_iff_exists.mp hsome
  obtain ⟨hsliding, hnext⟩ := sliding_expiration slidingConfig hw
  obtain ⟨hhonours, hiff⟩ := hnext 2 w' hstep
  exact ⟨w, w', hlooksUp, huses, hsliding, hstep, hhonours, hiff.mpr hontime⟩

end NeemataProxy.Routing
