import NeemataProxy.Lib.Locks
import NeemataProxy.Router.Lemmas.Store

/-!
# Concurrent calls on the affinity store

The mutexes of the shards. Each call is the sequence of its steps in `src/router.rs`: it takes and releases shards, counts
itself, and works on the entries. `cleanup_global` takes all shards in their order, and every call that enters it has
released its own shard before.
-/

namespace NeemataProxy.Routing

open Lib
open StickySessionState (shardIndexForKey)

/-! ## Calls as programs -/

/-- What a call does between the steps on the mutexes. -/
inductive StoreAct (n : Nat) where
  /-- `should_cleanup`. -/
  | count (i : Fin n)
  /-- `cleanup_global`, when the counter asked for it. -/
  | cleanupIfDue (now : Nat) (ord : IterOrder (AffinityMapKey × AffinityEntry))
  /-- What `cleanup_global` does to the locked entries. -/
  | evict (now : Nat) (ord : IterOrder (AffinityMapKey × AffinityEntry))
  /-- The `match` of `lookup`. -/
  | find (i : Fin n) (now : Nat) (k : AffinityMapKey) (allowed : Finset Str)
  /-- `entries.insert`. -/
  | insert (i : Fin n) (now : Nat) (k : AffinityMapKey) (backend : Str)
  /-- `entries.remove`. -/
  | erase (i : Fin n) (k : AffinityMapKey)

abbrev StoreProgram (n : Nat) := LockProgram (Fin n) (StoreAct n)

abbrev CallNo := Nat

/-- The store, and what each call has found out: whether a cleanup is due, and its answer. -/
structure SharedStore (n : Nat) where
  store : StickySessionState n
  due : CallNo → Bool
  answer : CallNo → Option Str

section Programs

variable {n : Nat}

/-- `cleanup_global`: all shards are locked in order, and unlocked when the guards are dropped. -/
def cleanupProgram (now : Nat) (ord : IterOrder (AffinityMapKey × AffinityEntry)) : StoreProgram n :=
  (List.finRange n).map .acquire ++ (.act (.evict now ord) :: ((List.finRange n).map .release ++ []))

def SharedStore.exec (s : SharedStore n) (c : CallNo) : StoreAct n → SharedStore n × StoreProgram n
  | .count i =>
      let r := s.store.shouldCleanup i
      ({ s with store := r.1, due := Function.update s.due c r.2 }, [])
  | .cleanupIfDue now ord => (s, if s.due c then cleanupProgram now ord else [])
  | .evict now ord => ({ s with store := s.store.cleanupGlobal ord now }, [])
  | .find i now k allowed =>
      let l := StickySessionState.lookupEntry s.store.config.ttl now k allowed (s.store.entries i)
      ({ s with store := s.store.setEntries i l.1, answer := Function.update s.answer c l.2 }, [])
  | .insert i now k backend =>
      ({ s with store := s.store.setEntries i ((s.store.entries i).insert k ⟨backend, now + s.store.config.ttl⟩) }, [])
  | .erase i k => ({ s with store := s.store.setEntries i ((s.store.entries i).remove k) }, [])

variable [NeZero n] (hash : AffinityMapKey → UInt64)

/-- The program of a call on the store. -/
def StoreCall.program (call : StoreCall) : StoreProgram n :=
  match call.op with
  | .lookup k allowed =>
      let i := shardIndexForKey hash k
      [.act (.count i), .act (.cleanupIfDue call.now call.ord), .acquire i, .act (.find i call.now k allowed), .release i]
  | .bind k backend =>
      let i := shardIndexForKey hash k
      [.acquire i, .act (.insert i call.now k backend), .act (.count i), .release i,
        .act (.cleanupIfDue call.now call.ord)]
  | .remove k =>
      let i := shardIndexForKey hash k
      [.acquire i, .act (.erase i k), .release i]

/-- The programs that run on a store: those of its calls, and `cleanup_global` by itself. -/
inductive StoreProgram.OfCall : StoreProgram n → Prop where
  | call (c : StoreCall) : OfCall (c.program hash)
  | cleanup (now : Nat) (ord : IterOrder (AffinityMapKey × AffinityEntry)) : OfCall (cleanupProgram now ord)

end Programs

/-! ## Runs -/

abbrev LockedStore (n : Nat) := LockState CallNo (Fin n) (StoreAct n) (SharedStore n)

section Runs

variable {n : Nat} [NeZero n] (hash : AffinityMapKey → UInt64)

/-- A store that no call works on. -/
def LockedStore.idle (st : StickySessionState n) : LockedStore n :=
  ⟨⟨st, fun _ => false, fun _ => none⟩, fun _ => none, fun _ => []⟩

/-- Calls may begin at any time, each with the program of its function, and take their steps in any order. -/
def LockedStore.allow (_ : LockedStore n) : LockLabel CallNo (Fin n) (StoreAct n) → Prop
  | .begin _ program => StoreProgram.OfCall hash program
  | .step _ => True

def LockedStore.Steps (w w' : LockedStore n) : Prop :=
  Reach (fun w l w' => w.stepOf SharedStore.exec l = some w') (LockedStore.allow hash) w w'

/-! ## The order of the shards -/

/-- The shards that an action needs: entries are only touched in locked shards, and a cleanup begins with none. -/
def StoreAct.needs : StoreAct n → Finset (Fin n) → Prop
  | .count _, _ => True
  | .cleanupIfDue _ _, held => held = ∅
  | .evict _ _, held => held = Finset.univ
  | .find i _ _ _, held => i ∈ held
  | .insert i _ _ _, held => i ∈ held
  | .erase i _, held => i ∈ held

omit [NeZero n] in
theorem ascending_cleanup_append (now : Nat) (ord : IterOrder (AffinityMapKey × AffinityEntry)) {rest : StoreProgram n}
    (h : Ascending StoreAct.needs ∅ rest) : Ascending StoreAct.needs ∅ (cleanupProgram now ord ++ rest) := by
  have hall : (∅ : Finset (Fin n)) ∪ (List.finRange n).toFinset = Finset.univ := by ext; simp
  have hnone : (Finset.univ : Finset (Fin n)) \ (List.finRange n).toFinset = ∅ := by ext; simp
  rw [cleanupProgram, List.append_assoc, List.cons_append, List.append_nil]
  refine ascending_acquire_append (List.pairwise_lt_finRange n) (fun l hl => absurd hl (Finset.notMem_empty l)) ?_
  rw [hall]
  refine ⟨rfl, ascending_release_append (List.nodup_finRange n) (fun l _ => Finset.mem_univ l) ?_⟩
  rwa [hnone]

theorem ascending_program (call : StoreCall) :
    Ascending StoreAct.needs ∅ (call.program hash : StoreProgram n) := by
  obtain ⟨now, ord, op⟩ := call
  cases op with
  | lookup k allowed => simp [StoreCall.program, Ascending, StoreAct.needs]
  | bind k backend => simp [StoreCall.program, Ascending, StoreAct.needs]
  | remove k => simp [StoreCall.program, Ascending, StoreAct.needs]

theorem ascending_ofCall {program : StoreProgram n} (h : StoreProgram.OfCall hash program) :
    Ascending StoreAct.needs ∅ program := by
  cases h with
  | call c => exact ascending_program hash c
  | cleanup now ord =>
      have h : Ascending StoreAct.needs ∅ (cleanupProgram (n := n) now ord ++ []) := ascending_cleanup_append now ord rfl
      rwa [List.append_nil] at h

omit [NeZero n] in
/-- Only a cleanup that is due puts further steps in front, and then no shard is held. -/
theorem ascending_exec (s : SharedStore n) (c : CallNo) (a : StoreAct n) (held : Finset (Fin n)) (rest : StoreProgram n)
    (hneeds : a.needs held) (hrest : Ascending StoreAct.needs held rest) :
    Ascending StoreAct.needs held ((s.exec c a).2 ++ rest) := by
  cases a with
  | cleanupIfDue now ord =>
      obtain rfl : held = ∅ := hneeds
      simp only [SharedStore.exec]
      split
      · exact ascending_cleanup_append now ord hrest
      · exact hrest
  | _ => exact hrest

theorem disciplined_steps {st : StickySessionState n} {w : LockedStore n}
    (h : LockedStore.Steps hash (LockedStore.idle st) w) : w.Disciplined StoreAct.needs := by
  have hidle : (LockedStore.idle st).Disciplined StoreAct.needs := fun c => by
    change (LockedStore.idle st).held c = ∅
    ext i
    rw [LockState.mem_held]
    simp [LockedStore.idle]
  refine Reach.invariant (P := fun w : LockedStore n => w.Disciplined StoreAct.needs) hidle ?_ h
  intro w l w' hdisciplined hallow hstep
  cases l with
  | begin c program => exact hdisciplined.begin (ascending_ofCall hash hallow) hstep
  | step c => exact hdisciplined.next ascending_exec hstep

/-! ## One call by itself -/

/-- A store whose shards are all free. -/
def LockedStore.free (s : SharedStore n) (program : CallNo → StoreProgram n) : LockedStore n := ⟨s, fun _ => none, program⟩

omit [NeZero n] in
/-- A section under one shard does what its action does. -/
theorem alone_section {s : SharedStore n} {program : CallNo → StoreProgram n} {c : CallNo} {i : Fin n} {rest : StoreProgram n}
    (s' : SharedStore n) (body : StoreProgram n) (hprogram : program c = .acquire i :: (body ++ .release i :: rest))
    (hbody : ∀ owner : Fin n → Option CallNo, ∀ program' : CallNo → StoreProgram n,
      program' c = body ++ .release i :: rest →
      LockState.Alone SharedStore.exec c ⟨s, owner, program'⟩ ⟨s', owner, Function.update program' c (.release i :: rest)⟩) :
    LockState.Alone SharedStore.exec c (LockedStore.free s program) (LockedStore.free s' (Function.update program c rest)) := by
  have hacquire : LockState.Alone SharedStore.exec c (LockedStore.free s program) _ :=
    LockState.alone_acquire [i] _ (List.nodup_singleton i) (fun _ _ => rfl) hprogram
  refine hacquire.trans ((hbody _ _ (by simp)).trans ?_)
  have hrelease : LockState.Alone SharedStore.exec c ⟨s', fun l => if l ∈ [i] then some c else none,
      Function.update (Function.update program c (body ++ .release i :: rest)) c (.release i :: rest)⟩ _ :=
    LockState.alone_release [i] rest (by simp)
  have howner : (fun l => if l ∈ [i] then none else if l ∈ [i] then some c else none) = fun _ : Fin n => none := by
    funext l
    split <;> rfl
  simp only [howner, Function.update_idem] at hrelease ⊢
  exact hrelease

omit [NeZero n] in
/-- A cleanup that is due takes all shards, evicts, and gives all shards back. -/
theorem alone_cleanupIfDue {s : SharedStore n} {program : CallNo → StoreProgram n} {c : CallNo} {now : Nat}
    {ord : IterOrder (AffinityMapKey × AffinityEntry)} {rest : StoreProgram n}
    (hprogram : program c = .act (.cleanupIfDue now ord) :: rest) :
    LockState.Alone SharedStore.exec c (LockedStore.free s program)
      (LockedStore.free { s with store := if s.due c then s.store.cleanupGlobal ord now else s.store }
        (Function.update program c rest)) := by
  have hfirst : LockState.next SharedStore.exec (LockedStore.free s program) c = some (LockedStore.free s
      (Function.update program c ((if s.due c then cleanupProgram now ord else []) ++ rest))) := by
    simp only [LockState.next, LockedStore.free, hprogram, SharedStore.exec]
    rfl
  refine .trans (.single hfirst) ?_
  by_cases hdue : s.due c = true
  · simp only [hdue, if_true]
    have hlocked : LockState.Alone SharedStore.exec c
        (LockedStore.free s (Function.update program c (cleanupProgram now ord ++ rest))) _ :=
      LockState.alone_acquire (List.finRange n) (.act (.evict now ord) :: ((List.finRange n).map .release ++ rest))
        (List.nodup_finRange n) (fun _ _ => rfl) (by simp [LockedStore.free, cleanupProgram])
    refine hlocked.trans (.trans (LockState.alone_act (Function.update_self ..) rfl) ?_)
    have hreleased : LockState.Alone SharedStore.exec c
        ⟨{ s with store := s.store.cleanupGlobal ord now }, fun l => if l ∈ List.finRange n then some c else none,
          Function.update program c ((List.finRange n).map .release ++ rest)⟩ _ :=
      LockState.alone_release (List.finRange n) rest (by simp)
    simpa [LockedStore.free, SharedStore.exec] using hreleased
  · simp only [hdue, Bool.false_eq_true, if_false, List.nil_append]
    exact .refl

/-- Alone, the program of a call does what the function does and gives its answer. -/
theorem alone_call (s : SharedStore n) {program : CallNo → StoreProgram n} {c : CallNo} (call : StoreCall)
    (hprogram : program c = call.program hash) :
    ∃ s', LockState.Alone SharedStore.exec c (LockedStore.free s program) (LockedStore.free s' (Function.update program c [])) ∧
      s'.store = (s.store.exec hash call).1 ∧
      ∀ k allowed, call.op = .lookup k allowed → s'.answer c = (s.store.exec hash call).2 := by
  obtain ⟨now, ord, op⟩ := call
  cases op with
  | lookup k allowed =>
      let i : Fin n := shardIndexForKey hash k
      let counted := (s.exec c (.count i)).1
      let cleaned : SharedStore n :=
        { counted with store := if counted.due c then counted.store.cleanupGlobal ord now else counted.store }
      let rest : StoreProgram n := [.acquire i, .act (.find i now k allowed), .release i]
      have hcount : LockState.Alone SharedStore.exec c (LockedStore.free s program) (LockedStore.free counted _) :=
        LockState.alone_act hprogram rfl
      have hcleanup : LockState.Alone SharedStore.exec c (LockedStore.free counted _) (LockedStore.free cleaned _) :=
        alone_cleanupIfDue (Function.update_self c (.act (.cleanupIfDue now ord) :: rest) program)
      have hsection := alone_section (cleaned.exec c (.find i now k allowed)).1 [.act (.find i now k allowed)]
        (Function.update_self c rest (Function.update program c (.act (.cleanupIfDue now ord) :: rest)))
        fun owner program' hbody => LockState.alone_act (w := ⟨cleaned, owner, program'⟩) hbody rfl
      have hall := (hcount.trans hcleanup).trans hsection
      simp only [Function.update_idem] at hall
      have hdue : counted.due c = (s.store.shouldCleanup i).2 := Function.update_self ..
      have hstore : cleaned.store = s.store.maybeCleanup ord now i := by
        simp only [cleaned, hdue]
        rfl
      refine ⟨_, hall, ?_, fun _ _ _ => ?_⟩
      · simp only [SharedStore.exec, hstore, StickySessionState.config_maybeCleanup]
        rfl
      · simp only [SharedStore.exec, hstore, StickySessionState.config_maybeCleanup, Function.update_self]
        rfl
  | bind k backend =>
      let i : Fin n := shardIndexForKey hash k
      let inserted := (s.exec c (.insert i now k backend)).1
      let counted := (inserted.exec c (.count i)).1
      let rest : StoreProgram n := [.release i, .act (.cleanupIfDue now ord)]
      have hsection := alone_section counted [.act (.insert i now k backend), .act (.count i)]
        hprogram fun owner program' hbody => by
          have hinsert : LockState.Alone SharedStore.exec c ⟨s, owner, program'⟩
              ⟨inserted, owner, Function.update program' c (.act (.count i) :: rest)⟩ := LockState.alone_act hbody rfl
          have hcount : LockState.Alone SharedStore.exec c
              ⟨inserted, owner, Function.update program' c (.act (.count i) :: rest)⟩ ⟨counted, owner, _⟩ :=
            LockState.alone_act (Function.update_self c (.act (.count i) :: rest) program') rfl
          have hboth := hinsert.trans hcount
          simp only [Function.update_idem] at hboth
          exact hboth
      have hcleanup : LockState.Alone SharedStore.exec c (LockedStore.free counted _)
          (LockedStore.free _ (Function.update _ c [])) :=
        alone_cleanupIfDue (Function.update_self c [.act (.cleanupIfDue now ord)] program)
      have hall := hsection.trans hcleanup
      simp only [Function.update_idem] at hall
      have hdue : counted.due c = (inserted.store.shouldCleanup i).2 := Function.update_self ..
      refine ⟨_, hall, ?_, fun _ _ h => by cases h⟩
      simp only [hdue]
      rfl
  | remove k =>
      let i : Fin n := shardIndexForKey hash k
      have hsection := alone_section (s.exec c (.erase i k)).1 [.act (.erase i k)] hprogram
        fun owner program' hbody => LockState.alone_act (w := ⟨s, owner, program'⟩) hbody rfl
      exact ⟨_, hsection, rfl, fun _ _ h => by cases h⟩

/-- From any store and any counters, whatever calls run in whatever order: some unfinished call can take a step, and no
call waits for a mutex that it holds. -/
theorem store_never_deadlocks {st : StickySessionState n} {w : LockedStore n}
    (h : LockedStore.Steps hash (LockedStore.idle st) w) :
    ((∃ c, w.Unfinished c) → ∃ c, w.Unfinished c ∧ ¬ w.Blocked c ∧ ∃ w', w.next SharedStore.exec c = some w') ∧
      ∀ c, ¬ w.WaitsForOwn c := by
  have hdisciplined := disciplined_steps hash h
  refine ⟨fun hsome => ?_, hdisciplined.not_waitsForOwn⟩
  obtain ⟨c, hc, hfree⟩ := hdisciplined.exists_not_blocked hsome
  exact ⟨c, hc, hfree, LockState.exists_next hc hfree⟩

end Runs

/-- While one call holds the first shard, a cleanup waits for it, and the other call can go on. -/
theorem store_never_deadlocks_sample :
    ∃ w : LockedStore 2, LockedStore.Steps (fun _ => 0) (LockedStore.idle (.new 2 ⟨true, [], [], 1, 1, false⟩)) w ∧
      w.Unfinished 0 ∧ w.Blocked 1 ∧ ∃ c, w.Unfinished c ∧ ¬ w.Blocked c := by
  let st : StickySessionState 2 := .new 2 ⟨true, [], [], 1, 1, false⟩
  let call : StoreCall := ⟨0, .stored, .remove ⟨[], .http1, []⟩⟩
  have hidle : LockedStore.Steps (fun _ => 0) (LockedStore.idle st) (LockedStore.idle st) := .refl
  have hremove : LockedStore.Steps (fun _ => 0) (LockedStore.idle st) _ :=
    hidle.tail (l := .begin 0 (call.program fun _ => 0)) (StoreProgram.OfCall.call call) rfl
  have hcleanup : LockedStore.Steps (fun _ => 0) (LockedStore.idle st) _ :=
    hremove.tail (l := .begin 1 (cleanupProgram 0 .stored)) (StoreProgram.OfCall.cleanup 0 .stored) rfl
  have hlocked : LockedStore.Steps (fun _ => 0) (LockedStore.idle st) _ := hcleanup.tail (l := .step 0) trivial rfl
  have hunfinished : ∀ {w : LockedStore 2} {instr rest}, w.program 0 = instr :: rest → w.Unfinished 0 := fun h hnil => by
    rw [h] at hnil
    cases hnil
  obtain ⟨c, hc, hfree, -⟩ := (store_never_deadlocks (fun _ => 0) hlocked).1 ⟨0, hunfinished rfl⟩
  exact ⟨_, hlocked, hunfinished rfl, ⟨0, _, 0, rfl, rfl⟩, c, hc, hfree⟩

end NeemataProxy.Routing
