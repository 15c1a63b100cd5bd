import NeemataProxy.Lib.Linearize
import NeemataProxy.Router.Lemmas.Recency
import NeemataProxy.Router.Sliding

/-!
# The affinity store is linearizable

Whatever the interleaving at the mutexes of the shards, the calls take effect one by one on a single map whose entries
expire: each once, after it has begun and before it returns. In between, cleanups evict.
-/

namespace NeemataProxy.Routing

open Lib
open StickySessionState (shardIndexForKey)

variable {n : Nat}

def StoreAct.reading : StoreAct n → Option Nat
  | .cleanupIfDue now _ | .evict now _ | .find _ now _ _ | .insert _ now _ _ => some now
  | .count _ | .erase _ _ => none

/-- The answer of an action: that of a lookup. -/
def StoreAct.result (s : SharedStore n) (c : CallNo) : StoreAct n → Option Str
  | .find _ _ _ _ => s.answer c
  | .count _ | .cleanupIfDue _ _ | .evict _ _ | .insert _ _ _ _ | .erase _ _ => none

/-- What an action does to one map with a TTL and a capacity, and what it answers. -/
def StoreAct.Meaning (config : StickySessionConfig) (m : TtlMap AffinityMapKey Str) (a : StoreAct n) (answer : Option Str)
    (m' : TtlMap AffinityMapKey Str) : Prop :=
  match a with
  | .find _ now k allowed => TtlMap.exec config.ttl now m (.lookup k allowed) = (m', answer)
  | .insert _ now k backend => TtlMap.exec config.ttl now m (.bind k backend) = (m', answer)
  | .erase _ k => TtlMap.exec config.ttl 0 m (.remove k) = (m', answer)
  | .evict now _ => TtlMap.Evicts config.maxEntries now m m' ∧ answer = none
  | .count _ | .cleanupIfDue _ _ => m' = m ∧ answer = none

/-- The effect of a call on the map; removals read no clock. -/
def StoreCall.effect (call : StoreCall) : Nat × TtlMap.Op AffinityMapKey Str :=
  match call.op with
  | .lookup k allowed => (call.now, .lookup k allowed)
  | .bind k backend => (call.now, .bind k backend)
  | .remove k => (0, .remove k)

/-- The calls on the store, with what they have done so far. -/
abbrev RecordedStore (n : Nat) := Recorded CallNo StoreCall (Fin n) (StoreAct n) (SharedStore n) (Option Str)

namespace RecordedStore

def new (config : StickySessionConfig) : RecordedStore n := .idle ⟨.new n config, fun _ => false, fun _ => none⟩

variable [NeZero n] (hash : AffinityMapKey → UInt64)

def step (w : RecordedStore n) (l : CallLabel CallNo StoreCall) : Option (RecordedStore n) :=
  Recorded.step (StoreCall.program hash) SharedStore.exec StoreAct.result w l

def Steps : RecordedStore n → RecordedStore n → Prop :=
  Recorded.Steps (StoreCall.program hash) SharedStore.exec StoreAct.result

def toMap (w : RecordedStore n) : TtlMap AffinityMapKey Str := w.state.shared.store.toMap hash

/-- The calls of `c` are those that have taken effect, in their order, and at most one that still has to. -/
structure Settles (w : RecordedStore n) (c : CallNo) : Prop where
  once : (w.begun c).map StoreCall.effect =
    w.effects StoreAct.call c ++ pending StoreAct.call (w.state.program c)
  /-- An action works with the reading of a call that its process has begun. -/
  reading : ∀ a answer now, (c, a, answer) ∈ w.log → a.reading = some now → ∃ call ∈ w.begun c, call.now = now

end RecordedStore

section Linearizable

variable [NeZero n] {hash : AffinityMapKey → UInt64}

/-! ## One action -/

variable (hash) in
/-- The action is one of a call: it works on the shard of its key, with the reading of the call. -/
def StoreAct.Of (call : StoreCall) (a : StoreAct n) : Prop :=
  a.Homed hash ∧ ∀ now, a.reading = some now → call.now = now

theorem of_program (call : StoreCall) (a : StoreAct n) (h : .act a ∈ (call.program hash : StoreProgram n)) :
    a.Of hash call := by
  refine ⟨homed_program call h, fun now hnow => ?_⟩
  obtain ⟨now', ord, op⟩ := call
  cases op <;> simp only [StoreCall.program, List.mem_cons, List.not_mem_nil, LockInstr.act.injEq, reduceCtorEq,
    false_or, or_false] at h
  · rcases h with rfl | rfl | rfl <;> simp_all [StoreAct.reading]
  · rcases h with rfl | rfl | rfl <;> simp_all [StoreAct.reading]
  · subst h
    cases hnow

theorem of_exec (s : SharedStore n) (c : CallNo) (call : StoreCall) (a b : StoreAct n) (ha : a.Of hash call)
    (h : .act b ∈ (s.exec c a).2) : b.Of hash call := by
  refine ⟨homed_exec h, fun now hnow => ?_⟩
  cases a with
  | cleanupIfDue now' ord =>
      simp only [SharedStore.exec] at h
      split at h
      · obtain rfl : b = .evict now' ord := by simpa [cleanupProgram] using h
        obtain rfl : now' = now := Option.some.inj hnow
        exact ha.2 now' rfl
      · simp at h
  | _ => simp [SharedStore.exec] at h

omit [NeZero n] in
/-- What a cleanup that is due puts in front has no effect of its own. -/
theorem pending_exec (s : SharedStore n) (c : CallNo) (a : StoreAct n) :
    pending StoreAct.call (s.exec c a).2 = [] := by
  have hacquires : ∀ ls : List (Fin n), pending (StoreAct.call (n := n)) (ls.map .acquire) = [] := fun ls => by
    induction ls with
    | nil => rfl
    | cons l ls ih => exact ih
  have hreleases : ∀ ls : List (Fin n), pending (StoreAct.call (n := n)) (ls.map .release) = [] := fun ls => by
    induction ls with
    | nil => rfl
    | cons l ls ih => exact ih
  cases a with
  | cleanupIfDue now ord =>
      simp only [SharedStore.exec]
      split
      · rw [cleanupProgram, Recorded.pending_append, hacquires, List.append_nil]
        exact hreleases _
      · rfl
  | _ => rfl

theorem pending_program (call : StoreCall) :
    pending StoreAct.call (call.program hash : StoreProgram n) = [call.effect] := by
  obtain ⟨now, ord, op⟩ := call
  cases op <;> rfl

/-- The store has its configuration, keeps every entry in its shard, and stands for the map. -/
structure Represents (hash : AffinityMapKey → UInt64) (config : StickySessionConfig) (s : SharedStore n)
    (m : TtlMap AffinityMapKey Str) : Prop where
  config_eq : s.store.config = config
  home : s.store.Home hash
  map_eq : s.store.toMap hash = m

theorem home_act {s : SharedStore n} (h : s.store.Home hash) (c : CallNo) {a : StoreAct n} (ha : a.Homed hash) :
    (s.exec c a).1.store.Home hash := by
  cases a with
  | find i now k allowed =>
      obtain rfl : i = shardIndexForKey hash k := ha
      refine home_setEntries hash h k fun k' hk e he => ?_
      rwa [(lookupEntry_spec _ _ _ _ _).2.2 k' hk] at he
  | insert i now k backend =>
      obtain rfl : i = shardIndexForKey hash k := ha
      exact home_bound hash h now k backend
  | erase i k =>
      obtain rfl : i = shardIndexForKey hash k := ha
      refine home_setEntries hash h k fun k' hk e he => ?_
      rwa [HashMap.get_remove, if_neg hk] at he
  | evict now ord => exact fun i k e he => h i k e (get_cleanupEntries he).1
  | count i =>
      intro j k e he
      rw [show (s.exec c (.count i)).1.store = (s.store.shouldCleanup i).1 from rfl,
        StickySessionState.entries_shouldCleanup] at he
      exact h j k e he
  | cleanupIfDue now ord => exact h

/-- An action of a call does to the map what it means, and answers accordingly. -/
theorem meaning_of_exec {config : StickySessionConfig} (s : SharedStore n) (c : CallNo) (call : StoreCall)
    (a : StoreAct n) (m : TtlMap AffinityMapKey Str) (ha : a.Of hash call) (h : Represents hash config s m) :
    ∃ m', a.Meaning config m (a.result (s.exec c a).1 c) m' ∧ Represents hash config (s.exec c a).1 m' := by
  obtain ⟨rfl, hhome, rfl⟩ := h
  refine ⟨(s.exec c a).1.store.toMap hash, ?_, config_exec, home_act hhome c ha.1, rfl⟩
  cases a with
  | find i now k allowed =>
      have hcall : (StoreAct.find i now k allowed).call = some (now, .lookup k allowed) := rfl
      obtain ⟨hmap, -, hanswer⟩ := exec_call (s := s) (c := c) ha.1 hcall
      exact Prod.ext hmap.symm (hanswer k allowed rfl).symm
  | insert i now k backend =>
      have hcall : (StoreAct.insert i now k backend).call = some (now, .bind k backend) := rfl
      obtain ⟨hmap, -, -⟩ := exec_call (s := s) (c := c) ha.1 hcall
      exact Prod.ext hmap.symm rfl
  | erase i k =>
      have hcall : (StoreAct.erase i k).call = some (0, .remove k) := rfl
      obtain ⟨hmap, -, -⟩ := exec_call (s := s) (c := c) ha.1 hcall
      exact Prod.ext hmap.symm rfl
  | evict now ord => exact ⟨cleanup_evicts hash s.store.config.maxEntries now hhome, rfl⟩
  | count i =>
      refine ⟨?_, rfl⟩
      change shardMap hash (s.store.shouldCleanup i).1.entries = _
      rw [StickySessionState.entries_shouldCleanup]
      rfl
  | cleanupIfDue now ord => exact ⟨rfl, rfl⟩

/-! ## Runs -/

/-- In the order of their actions, calls and cleanups are a run of one expiring map from empty to what the store holds, with
the answers that they give; each call has its place after it has begun and before it has returned. -/
theorem store_linearizable (config : StickySessionConfig) {w : RecordedStore n}
    (h : RecordedStore.Steps hash (RecordedStore.new config) w) :
    SpecRun (fun m a answer m' => StoreAct.Meaning config m a answer m') TtlMap.empty (w.log.map Prod.snd) (w.toMap hash) ∧
      (∀ c, w.Settles c) ∧ ∀ w', RecordedStore.Steps hash w w' → w.log <+: w'.log := by
  refine ⟨?_, fun c => ⟨?_, fun a answer now hlog hnow => ?_⟩, fun w' h' => Recorded.log_prefix h'⟩
  · have hinit : Represents hash config (⟨.new n config, fun _ => false, fun _ => none⟩ : SharedStore n) TtlMap.empty := by
      refine ⟨rfl, fun i k e he => ?_, ?_⟩
      · simp [StickySessionState.entries, StickySessionState.new] at he
      · funext k
        simp [StickySessionState.toMap, shardMap, StickySessionState.entries, StickySessionState.new, TtlMap.empty]
    obtain ⟨m, hrun, hrep⟩ := Recorded.log_specRun of_program of_exec meaning_of_exec hinit h
    obtain rfl := hrep.map_eq
    exact hrun
  · have haccounted := Recorded.accounted pending_exec h c
    simpa only [pending_program, ← List.map_eq_flatMap] using haccounted
  · obtain ⟨call, hcall, -, hreading⟩ := (Recorded.stemmed of_program of_exec h).log c a answer hlog
    exact ⟨call, hcall, hreading now hnow⟩

end Linearizable

/-- A lookup counts itself, waits with its cleanup for the shard of a bind, and then finds what has been bound. -/
def interleavedRun : List (CallLabel CallNo StoreCall) :=
  [.begin 0 (bindCall 1), .begin 1 (lookupCall 2), .step 1, .step 0, .step 1, .step 0, .step 0, .step 0] ++
    List.replicate 8 (.step 1) ++ [.step 0]

theorem store_linearizable_sample : ∃ w : RecordedStore 2,
    w.log.map (fun r => (r.1, r.2.2)) =
        [(1, none), (1, none), (0, none), (0, none), (1, none), (1, some (Str.lit "127.0.0.1:3000")), (0, none)] ∧
      SpecRun (fun m a answer m' => StoreAct.Meaning slidingConfig m a answer m') TtlMap.empty (w.log.map Prod.snd)
        (w.toMap fun _ => 0) ∧ w.Settles 0 ∧ w.Settles 1 := by
  have hrun : (runAllowed (RecordedStore.step (n := 2) fun _ => 0) (fun _ _ => True) (RecordedStore.new slidingConfig)
      interleavedRun).any (fun w => w.log.map (fun r => (r.1, r.2.2)) ==
        [(1, none), (1, none), (0, none), (0, none), (1, none), (1, some (Str.lit "127.0.0.1:3000")), (0, none)]) = true := by
    decide +kernel
  obtain ⟨w, hw, hcheck⟩ := Reach.exists_of_any hrun
  obtain ⟨hspec, hsettles, -⟩ := store_linearizable slidingConfig hw
  exact ⟨w, by simpa using hcheck, hspec, hsettles 0, hsettles 1⟩

end NeemataProxy.Routing
