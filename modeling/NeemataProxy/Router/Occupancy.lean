import NeemataProxy.Lib.Debts
import NeemataProxy.Lib.Finishing
import NeemataProxy.Router.Lemmas.Capacity
import NeemataProxy.Router.Locking

/-!
# The size of the store under concurrent calls

Between the count that asks for a cleanup and the eviction, other calls may bind. A call that has been told to clean up and
has not done so yet accounts for a whole period of its shard; and every call returns, so that such debts are paid.
-/

namespace NeemataProxy.Routing

open Lib
open StickySessionState (shardIndexForKey)

variable {n : Nat}

/-! ## What a call owes -/

/-- What a call may have added that its shard does not account for: the entry that it has bound and not counted, or the 128
of a period that ended with the cleanup it is due to do. -/
def owed (due : Bool) : StoreProgram n → Nat
  | [] => 0
  | .act (.count _) :: _ => 1
  | .act (.insert _ _ _ _) :: _ => 0
  | .act (.cleanupIfDue _ _) :: _ => if due then 128 else 0
  | .act (.evict _ _) :: _ => 128
  | .act (.find _ _ _ _) :: rest | .act (.erase _ _) :: rest | .acquire _ :: rest | .release _ :: rest => owed due rest

/-- What is bound is counted next, and a count is followed by the cleanup that it may ask for. -/
def Paired : StoreProgram n → Prop
  | [] => True
  | .act (.insert _ _ _ _) :: rest => (∀ due, owed due rest = 1) ∧ Paired rest
  | .act (.count _) :: rest => owed true rest = 128 ∧ Paired rest
  | .act _ :: rest | .acquire _ :: rest | .release _ :: rest => Paired rest

theorem owed_le (due : Bool) (program : StoreProgram n) : owed due program ≤ 128 := by
  fun_induction owed due program <;> omega

theorem owed_cleanup (due : Bool) (now : Nat) (ord : IterOrder (AffinityMapKey × AffinityEntry)) (rest : StoreProgram n) :
    owed due (cleanupProgram now ord ++ rest) = 128 := by
  have hacquires : ∀ (ls : List (Fin n)) (tail : StoreProgram n), owed due (ls.map .acquire ++ tail) = owed due tail :=
    fun ls tail => by
      induction ls with
      | nil => rfl
      | cons l ls ih => exact ih
  rw [cleanupProgram, List.append_assoc, hacquires]
  rfl

theorem paired_cleanup (now : Nat) (ord : IterOrder (AffinityMapKey × AffinityEntry)) {rest : StoreProgram n}
    (h : Paired rest) : Paired (cleanupProgram now ord ++ rest) := by
  have hacquires : ∀ (ls : List (Fin n)) {tail : StoreProgram n}, Paired tail → Paired (ls.map .acquire ++ tail) :=
    fun ls tail htail => by
      induction ls with
      | nil => exact htail
      | cons l ls ih => exact ih
  have hreleases : ∀ (ls : List (Fin n)) {tail : StoreProgram n}, Paired tail → Paired (ls.map .release ++ tail) :=
    fun ls tail htail => by
      induction ls with
      | nil => exact htail
      | cons l ls ih => exact ih
  rw [cleanupProgram, List.append_assoc]
  refine hacquires _ (show Paired ((List.finRange n).map .release ++ [] ++ rest) from ?_)
  rw [List.append_nil]
  exact hreleases _ h

theorem paired_program [NeZero n] (hash : AffinityMapKey → UInt64) {program : StoreProgram n}
    (h : StoreProgram.OfCall hash program) : Paired program := by
  cases h with
  | call c =>
      obtain ⟨now, ord, op⟩ := c
      cases op <;> simp [StoreCall.program, Paired, owed]
  | cleanup now ord =>
      have hnil : Paired ([] : StoreProgram n) := trivial
      have h := paired_cleanup now ord hnil
      rwa [List.append_nil] at h

/-! ## Steps -/

namespace StickySessionState

/-- A count moves the phase of its shard on. -/
theorem slack_shouldCleanup (st : StickySessionState n) (i : Fin n) :
    (st.shouldCleanup i).1.slack + phase (st.counters i) = st.slack + phase (st.counters i + 1) := by
  have hafter : (st.shouldCleanup i).1.slack =
      ∑ j, phase (Function.update st.counters i (st.counters i + 1) j) := by
    rw [slack, counters_shouldCleanup]
  rw [hafter, slack]
  exact sum_rank_update phase st.counters (Finset.mem_univ i) _

end StickySessionState

theorem phase_of_due {c : UInt64} (h : c.toNat % 128 = 0) : phase c = 127 ∧ phase (c + 1) = 0 := by
  have hadd : (c + 1).toNat = (c.toNat + 1) % 2 ^ 64 := by simp [UInt64.toNat_add]
  unfold phase
  rw [hadd]
  omega

theorem totalLen_update_le (s : Fin n → Entries) (i : Fin n) {m : Entries} (h : m.len ≤ (s i).len) :
    totalLen (Function.update s i m) ≤ totalLen s := by
  have hlen := totalLen_update s i m
  omega

/-- The size of a store, against its capacity and what its shards account for. -/
theorem amortised_store : LockState.Amortised (P := CallNo) (SharedStore.exec (n := n)) (fun s => totalLen s.store.entries)
    (fun s => s.store.config.maxEntries + s.store.slack) (fun s c program => owed (s.due c) program) Paired where
  nil _ _ := rfl
  acquire _ _ _ _ := le_rfl
  release _ _ _ _ := le_rfl
  act s c a rest hpaired := by
    cases a with
    | count i =>
        obtain ⟨howed, -⟩ := hpaired
        have hslack := s.store.slack_shouldCleanup i
        have hsize : totalLen (s.exec c (.count i)).1.store.entries = totalLen s.store.entries :=
          congrArg totalLen (StickySessionState.entries_shouldCleanup s.store i)
        simp only [hsize]
        refine .inr ?_
        by_cases hdue : (s.store.counters i).toNat % 128 = 0
        · -- the period of the shard ends, and the call owes it until it has cleaned up
          have hflag : (s.exec c (.count i)).1.due c = true :=
            (Function.update_self ..).trans ((StickySessionState.shouldCleanup_snd ..).trans (decide_eq_true hdue))
          have hafter : owed ((s.exec c (.count i)).1.due c) ((s.exec c (.count i)).2 ++ rest) = 128 := by
            rw [hflag]
            exact howed
          have hphase := phase_of_due hdue
          simp only [hafter, owed]
          change totalLen s.store.entries + (s.store.config.maxEntries + s.store.slack) + 1 ≤
            totalLen s.store.entries + (s.store.config.maxEntries + (s.store.shouldCleanup i).1.slack) + 128
          omega
        · have hphase := phase_succ hdue
          change totalLen s.store.entries + (s.store.config.maxEntries + s.store.slack) + 1 ≤
            totalLen s.store.entries + (s.store.config.maxEntries + (s.store.shouldCleanup i).1.slack) + _
          omega
    | cleanupIfDue now ord =>
        refine .inr ?_
        simp only [SharedStore.exec, owed]
        split
        · rw [owed_cleanup]
        · simp
    | evict now ord =>
        refine .inl ?_
        change totalLen (cleanupEntries ord s.store.config.maxEntries now s.store.entries) ≤ _
        rw [totalLen_cleanupEntries]
        exact (min_le_left _ _).trans (Nat.le_add_right _ _)
    | find i now k allowed =>
        have hle := totalLen_update_le s.store.entries i
          (StickySessionState.len_lookupEntry_le s.store.config.ttl now k allowed (s.store.entries i))
        exact .inr (Nat.add_le_add_right (Nat.add_le_add_right hle _) _)
    | insert i now k backend =>
        obtain ⟨howed, -⟩ := hpaired
        have hlen := totalLen_update s.store.entries i
          ((s.store.entries i).insert k ⟨backend, now + s.store.config.ttl⟩)
        have hle := (s.store.entries i).len_insert_le k ⟨backend, now + s.store.config.ttl⟩
        have hafter : owed (s.due c) rest = 1 := howed _
        refine .inr ?_
        change totalLen (Function.update s.store.entries i _) + (s.store.config.maxEntries + s.store.slack) + 0 ≤
          totalLen s.store.entries + (s.store.config.maxEntries + s.store.slack) + owed (s.due c) rest
        omega
    | erase i k =>
        have hle := totalLen_update_le s.store.entries i (HashMap.len_remove_le (s.store.entries i) k)
        exact .inr (Nat.add_le_add_right (Nat.add_le_add_right hle _) _)
  other s c a q program hq := by
    cases a with
    | count i => simp [SharedStore.exec, hq]
    | _ => rfl
  tail instr rest h := by
    cases instr with
    | act a => cases a <;> first | exact h | exact h.2
    | _ => exact h
  front s c a rest h := by
    cases a with
    | cleanupIfDue now ord =>
        simp only [SharedStore.exec]
        split
        · exact paired_cleanup now ord h
        · exact h
    | _ => exact h

/-! ## Runs -/

section Runs

variable [NeZero n] {hash : AffinityMapKey → UInt64}

theorem config_of_steps {st : StickySessionState n} {w : LockedStore n}
    (h : LockedStore.Steps hash (LockedStore.idle st) w) : w.shared.store.config = st.config := by
  refine Reach.invariant (P := fun w : LockedStore n => w.shared.store.config = st.config) rfl ?_ h
  intro w l w' hw _ hstep
  cases l with
  | begin c program =>
      simp only [LockState.stepOf] at hstep
      split at hstep
      · obtain rfl := Option.some.inj hstep
        exact hw
      · cases hstep
  | step c =>
      rcases LockState.next_cases hstep with ⟨_, _, -, -, rfl⟩ | ⟨_, _, -, rfl⟩ | ⟨a, _, -, rfl⟩
      · exact hw
      · exact hw
      · cases a <;> exact hw

theorem within_of_steps {config : StickySessionConfig} {w : LockedStore n}
    (h : LockedStore.Steps hash (LockedStore.idle (.new n config)) w) {calls : Finset CallNo}
    (hcalls : ∀ c, w.Unfinished c → c ∈ calls) :
    totalLen w.shared.store.entries ≤
      config.maxEntries + n * 127 + ∑ c ∈ calls, owed (w.shared.due c) (w.program c) := by
  have hempty : totalLen (StickySessionState.new n config).entries = 0 := by
    simp [totalLen, StickySessionState.entries, StickySessionState.new]
  have hwithin := LockState.within_of_reach amortised_store (fun _ _ _ hprogram => paired_program hash hprogram) trivial
    (hempty.trans_le (Nat.zero_le _)) h calls hcalls
  have hslack := w.shared.store.slack_le
  simp only [config_of_steps h, StickySessionState.new] at hwithin
  omega

/-- Whatever calls run in whatever order, the store holds at most its capacity, 127 entries for each shard, and 128 for each
call that has not returned. -/
theorem store_bounded_concurrently (config : StickySessionConfig) {w : LockedStore n}
    (h : LockedStore.Steps hash (LockedStore.idle (.new n config)) w) (calls : Finset CallNo)
    (hcalls : ∀ c, w.Unfinished c → c ∈ calls) :
    totalLen w.shared.store.entries ≤ config.maxEntries + n * 127 + 128 * calls.card := by
  have hwithin := within_of_steps h hcalls
  have howed := Finset.sum_le_card_nsmul calls (fun c => owed (w.shared.due c) (w.program c)) 128
    fun c _ => owed_le (w.shared.due c) (w.program c)
  rw [smul_eq_mul] at howed
  omega

/-! ## Every call returns -/

/-- A cleanup that may become due weighs more than the steps of the cleanup. -/
def storeWeight : LockInstr (Fin n) (StoreAct n) → Nat
  | .act (.cleanupIfDue _ _) => 2 * n + 2
  | .act _ | .acquire _ | .release _ => 1

omit [NeZero n] in
theorem weighs_store : LockState.Weighs (P := CallNo) (SharedStore.exec (n := n)) storeWeight where
  positive instr := by
    cases instr with
    | act a => cases a <;> simp [storeWeight]
    | _ => exact Nat.one_pos
  front s c a := by
    cases a with
    | cleanupIfDue now ord =>
        have hones : ∀ (f : Fin n → LockInstr (Fin n) (StoreAct n)) (ls : List (Fin n)), (∀ l, storeWeight (f l) = 1) →
            ((ls.map f).map storeWeight).sum = ls.length := fun f ls hf => by
          induction ls with
          | nil => rfl
          | cons l ls ih => simp only [List.map_cons, List.sum_cons, List.length_cons, hf, ih]; omega
        have hall : LockState.programWeight storeWeight (cleanupProgram (n := n) now ord) = 2 * n + 1 := by
          simp only [LockState.programWeight, cleanupProgram, List.append_nil, List.map_append, List.sum_append,
            List.map_cons, List.sum_cons]
          rw [hones .acquire _ fun _ => rfl, hones .release _ fun _ => rfl, List.length_finRange,
            show storeWeight (.act (.evict now ord) : LockInstr (Fin n) (StoreAct n)) = 1 from rfl]
          omega
        simp only [SharedStore.exec, storeWeight]
        split
        · omega
        · simp [LockState.programWeight]
    | _ => simp [SharedStore.exec, LockState.programWeight, storeWeight]

theorem finite_of_steps {st : StickySessionState n} {w : LockedStore n}
    (h : LockedStore.Steps hash (LockedStore.idle st) w) : w.Finite :=
  Reach.invariant (P := fun w : LockedStore n => w.Finite) ⟨∅, fun _ hc => (hc rfl).elim⟩
    (fun _ _ _ hw _ hstep => hw.step hstep) h

/-- Whatever calls have begun and however far they are, when no further call begins all of them return, whatever the order
of their steps; all mutexes are free then, and the store is within its capacity and what its shards account for. -/
theorem store_calls_return (config : StickySessionConfig) {w : LockedStore n}
    (h : LockedStore.Steps hash (LockedStore.idle (.new n config)) w) :
    Inevitable (fun (w : LockedStore n) l w' => w.stepOf SharedStore.exec l = some w') (fun _ l => ∃ c, l = .step c)
      (fun w => w.AtRest ∧ totalLen w.shared.store.entries ≤ config.maxEntries + n * 127) w := by
  have hrest := (disciplined_steps hash h).finishes weighs_store ascending_exec (finite_of_steps h)
  refine hrest.reached.mono fun w' ⟨hatRest, hrun⟩ => ⟨hatRest, ?_⟩
  have hsteps : LockedStore.Steps hash (LockedStore.idle (.new n config)) w' :=
    Reach.trans h (hrun.mono fun _ _ ⟨_, hl⟩ => hl ▸ trivial)
  have hnone : ∀ c, w'.Unfinished c → c ∈ (∅ : Finset CallNo) := fun c hc => absurd (hatRest.programs c) hc
  exact within_of_steps hsteps hnone

end Runs

def boundlessConfig : StickySessionConfig := ⟨true, [], [], 1, 0, false⟩

def emptyBind : StoreCall := ⟨0, .stored, .bind ⟨[], .http1, []⟩ []⟩

theorem steps_bind : LockedStore.Steps (fun _ => 0) (LockedStore.idle (.new 2 boundlessConfig))
    ⟨⟨.new 2 boundlessConfig, fun _ => false, fun _ => none⟩, fun _ => none,
      Function.update (fun _ => []) 0 (emptyBind.program fun _ => 0)⟩ :=
  Reach.tail (l := .begin 0 (emptyBind.program fun _ => 0)) .refl (StoreProgram.OfCall.call emptyBind) rfl

/-- A bind that is not counted yet, on a store without any capacity. -/
theorem store_bounded_concurrently_sample :
    ∃ w : LockedStore 2, LockedStore.Steps (fun _ => 0) (LockedStore.idle (.new 2 boundlessConfig)) w ∧
      w.Unfinished 0 ∧ totalLen w.shared.store.entries = 1 ∧ totalLen w.shared.store.entries ≤ 0 + 2 * 127 + 128 * 1 := by
  have hlocked : LockedStore.Steps (fun _ => 0) (LockedStore.idle (.new 2 boundlessConfig)) _ :=
    steps_bind.tail (l := .step 0) trivial rfl
  have hbound : LockedStore.Steps (fun _ => 0) (LockedStore.idle (.new 2 boundlessConfig)) _ :=
    hlocked.tail (l := .step 0) trivial rfl
  refine ⟨_, hbound, List.cons_ne_nil _ _, by decide, store_bounded_concurrently boundlessConfig hbound {0} fun c hc => ?_⟩
  by_contra hne
  exact hc (by simp_all)

theorem store_calls_return_sample :
    ∃ w : LockedStore 2, w.Unfinished 0 ∧
      Inevitable (fun (w : LockedStore 2) l w' => w.stepOf SharedStore.exec l = some w') (fun _ l => ∃ c, l = .step c)
        (fun w => w.AtRest ∧ totalLen w.shared.store.entries ≤ 0 + 2 * 127) w := by
  refine ⟨_, ?_, store_calls_return boundlessConfig steps_bind⟩
  exact List.cons_ne_nil _ _

end NeemataProxy.Routing
