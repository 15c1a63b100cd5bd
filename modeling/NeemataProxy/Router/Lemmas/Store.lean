import NeemataProxy.Lib.Lease
import NeemataProxy.Router.Lemmas.Cleanup
import NeemataProxy.Router.Store

/-!
# One call on the store

Each call is one call on the map that the store stands for, before which (`lookup`) or after which (`bind`) a
cleanup may lose entries. The size of the store and the phases of the counters are tracked separately.
-/

namespace NeemataProxy.Routing

open Lib

variable {n : Nat}

namespace StickySessionState

/-! ## Fields -/

section Fields

variable (st : StickySessionState n) (s : Fin n → Entries) (i : Fin n) (m : Entries)
  (ord : IterOrder (AffinityMapKey × AffinityEntry)) (now : Nat)

@[simp] theorem entries_withEntries : (st.withEntries s).entries = s := rfl

@[simp] theorem counters_withEntries : (st.withEntries s).counters = st.counters := rfl

@[simp] theorem config_withEntries : (st.withEntries s).config = st.config := rfl

@[simp] theorem entries_setEntries : (st.setEntries i m).entries = Function.update st.entries i m := rfl

@[simp] theorem counters_setEntries : (st.setEntries i m).counters = st.counters := rfl

@[simp] theorem config_setEntries : (st.setEntries i m).config = st.config := rfl

@[simp] theorem entries_cleanupGlobal :
    (st.cleanupGlobal ord now).entries = cleanupEntries ord st.config.maxEntries now st.entries := rfl

@[simp] theorem counters_cleanupGlobal : (st.cleanupGlobal ord now).counters = st.counters := rfl

@[simp] theorem config_cleanupGlobal : (st.cleanupGlobal ord now).config = st.config := rfl

@[simp] theorem config_shouldCleanup : (st.shouldCleanup i).1.config = st.config := rfl

@[simp] theorem entries_shouldCleanup : (st.shouldCleanup i).1.entries = st.entries := by
  funext j
  by_cases h : j = i
  · subst h; simp [shouldCleanup, entries]
  · simp [shouldCleanup, entries, h]

@[simp] theorem counters_shouldCleanup :
    (st.shouldCleanup i).1.counters = Function.update st.counters i (st.counters i + 1) := by
  funext j
  by_cases h : j = i
  · subst h; simp [shouldCleanup, counters]
  · simp [shouldCleanup, counters, h]

theorem shouldCleanup_snd : (st.shouldCleanup i).2 = decide ((st.counters i).toNat % 128 = 0) := rfl

end Fields

/-- The store after `should_cleanup` and, when it says so, `cleanup_global`. -/
def maybeCleanup (ord : IterOrder (AffinityMapKey × AffinityEntry)) (now : Nat) (i : Fin n)
    (st : StickySessionState n) : StickySessionState n :=
  if (st.shouldCleanup i).2 then (st.shouldCleanup i).1.cleanupGlobal ord now else (st.shouldCleanup i).1

@[simp] theorem config_maybeCleanup (ord : IterOrder (AffinityMapKey × AffinityEntry)) (now : Nat) (i : Fin n)
    (st : StickySessionState n) : (st.maybeCleanup ord now i).config = st.config := by
  unfold maybeCleanup; split <;> simp

theorem entries_maybeCleanup (ord : IterOrder (AffinityMapKey × AffinityEntry)) (now : Nat) (i : Fin n)
    (st : StickySessionState n) : (st.maybeCleanup ord now i).entries
      = if (st.counters i).toNat % 128 = 0 then cleanupEntries ord st.config.maxEntries now st.entries
        else st.entries := by
  unfold maybeCleanup
  rw [shouldCleanup_snd]
  by_cases h : (st.counters i).toNat % 128 = 0 <;> simp [h]

theorem counters_maybeCleanup (ord : IterOrder (AffinityMapKey × AffinityEntry)) (now : Nat) (i : Fin n)
    (st : StickySessionState n) :
    (st.maybeCleanup ord now i).counters = Function.update st.counters i (st.counters i + 1) := by
  unfold maybeCleanup; split <;> simp

variable [NeZero n] (hash : AffinityMapKey → UInt64)

theorem lookup_eq (ord : IterOrder (AffinityMapKey × AffinityEntry)) (now : Nat) (k : AffinityMapKey)
    (allowed : Finset Str) (st : StickySessionState n) :
    let i : Fin n := shardIndexForKey hash k
    let st' := st.maybeCleanup ord now i
    let l := lookupEntry st.config.ttl now k allowed (st'.entries i)
    st.lookup hash ord now k.appName k.transport k.affinityKey allowed = (st'.setEntries i l.1, l.2) := rfl

theorem bind_eq (ord : IterOrder (AffinityMapKey × AffinityEntry)) (now : Nat) (k : AffinityMapKey)
    (backend : Str) (st : StickySessionState n) :
    let i : Fin n := shardIndexForKey hash k
    st.bind hash ord now k.appName k.transport k.affinityKey backend
      = (st.setEntries i ((st.entries i).insert k ⟨backend, now + st.config.ttl⟩)).maybeCleanup ord now i := rfl

@[simp] theorem config_exec (st : StickySessionState n) (c : StoreCall) :
    (st.exec hash c).1.config = st.config := by
  obtain ⟨now, ord, op⟩ := c
  cases op with
  | lookup k allowed => simp only [exec, lookup_eq, config_setEntries, config_maybeCleanup]
  | bind k backend => simp only [exec, bind_eq, config_maybeCleanup, config_setEntries]
  | remove k => rfl

end StickySessionState

/-! ## The map of the shards -/

section Map

variable [NeZero n] (hash : AffinityMapKey → UInt64)

open StickySessionState (shardIndexForKey)

theorem shardMap_update (s : Fin n → Entries) (k : AffinityMapKey) (m : Entries)
    (h : ∀ k', k' ≠ k → m.get k' = (s (shardIndexForKey hash k)).get k') :
    shardMap hash (Function.update s (shardIndexForKey hash k) m)
      = Function.update (shardMap hash s) k ((m.get k).map AffinityEntry.stamped) := by
  funext k'
  by_cases hk : k' = k
  · subst hk; simp [shardMap]
  · by_cases hi : (shardIndexForKey hash k' : Fin n) = shardIndexForKey hash k
    · simp [shardMap, hk, hi, h k' hk]
    · simp [shardMap, hk, hi]

theorem toMap_of_shards {st st' : StickySessionState n} (h : st'.shards = st.shards) : st'.toMap hash = st.toMap hash := by
  unfold StickySessionState.toMap StickySessionState.entries
  rw [h]

theorem cleanup_sub (ord : IterOrder (AffinityMapKey × AffinityEntry)) (maxEntries now : Nat)
    (s : Fin n → Entries) :
    TtlMap.Sub (shardMap hash (cleanupEntries ord maxEntries now s)) (shardMap hash s) := by
  intro k e h
  obtain ⟨a, ha, rfl⟩ := Option.map_eq_some_iff.mp h
  exact Option.map_eq_some_iff.mpr ⟨a, (get_cleanupEntries ha).1, rfl⟩

theorem cleanup_covers {ord : IterOrder (AffinityMapKey × AffinityEntry)} {maxEntries now : Nat}
    {s : Fin n → Entries} (hfit : totalLen (sweep now s) ≤ maxEntries) :
    TtlMap.Covers now (shardMap hash (cleanupEntries ord maxEntries now s)) (shardMap hash s) := by
  intro k e h hlt
  obtain ⟨a, ha, rfl⟩ := Option.map_eq_some_iff.mp h
  refine Option.map_eq_some_iff.mpr ⟨a, ?_, rfl⟩
  rw [cleanupEntries_eq, if_pos hfit, get_sweep, ha]
  exact Option.filter_eq_some_iff.mpr ⟨rfl, decide_eq_true hlt⟩

/-- A cleanup that a counter triggers, or none. -/
theorem maybeCleanup_sub (ord : IterOrder (AffinityMapKey × AffinityEntry)) (now : Nat) (i : Fin n)
    (st : StickySessionState n) : TtlMap.Sub ((st.maybeCleanup ord now i).toMap hash) (st.toMap hash) := by
  simp only [StickySessionState.toMap, StickySessionState.entries_maybeCleanup]
  split
  · exact cleanup_sub hash ord _ now _
  · exact .refl _

theorem maybeCleanup_covers {ord : IterOrder (AffinityMapKey × AffinityEntry)} {now : Nat} {i : Fin n}
    {st : StickySessionState n}
    (hfit : (st.counters i).toNat % 128 = 0 → totalLen (sweep now st.entries) ≤ st.config.maxEntries) :
    TtlMap.Covers now ((st.maybeCleanup ord now i).toMap hash) (st.toMap hash) := by
  simp only [StickySessionState.toMap, StickySessionState.entries_maybeCleanup]
  split
  · exact cleanup_covers hash (hfit ‹_›)
  · exact .refl _ _

/-- The `match` of a lookup is the lookup of the map on that key, and touches no other key. -/
theorem lookupEntry_spec (ttl now : Nat) (k : AffinityMapKey) (allowed : Finset Str) (m : Entries) :
    let l := StickySessionState.lookupEntry ttl now k allowed m
    let r := (TtlMap.Op.lookup k allowed).onEntry ttl now ((m.get k).map AffinityEntry.stamped)
    (l.1.get k).map AffinityEntry.stamped = r.1 ∧ l.2 = r.2 ∧ ∀ k', k' ≠ k → l.1.get k' = m.get k' := by
  cases hm : m.get k with
  | none => simp [StickySessionState.lookupEntry, TtlMap.Op.onEntry, hm]
  | some e =>
      by_cases h : now < e.expiresAt ∧ e.backend ∈ allowed
      · have hhit : TtlMap.Hit now allowed e.stamped := h
        have hl : StickySessionState.lookupEntry ttl now k allowed m
            = (m.insert k { e with expiresAt := now + ttl }, some e.backend) := by
          simp only [StickySessionState.lookupEntry, hm, if_pos h]
        simp only [hl, TtlMap.Op.onEntry, Option.map_some, if_pos hhit]
        refine ⟨?_, rfl, fun k' hk => (HashMap.get_insert ..).trans (if_neg hk)⟩
        rw [HashMap.get_insert, if_pos rfl]
        rfl
      · have hmiss : ¬ TtlMap.Hit now allowed e.stamped := h
        have hl : StickySessionState.lookupEntry ttl now k allowed m = (m.remove k, none) := by
          simp only [StickySessionState.lookupEntry, hm, if_neg h]
        simp only [hl, TtlMap.Op.onEntry, Option.map_some, if_neg hmiss]
        refine ⟨?_, trivial, fun k' hk => (HashMap.get_remove ..).trans (if_neg hk)⟩
        rw [HashMap.get_remove, if_pos rfl]
        rfl

/-- The store right after the insertion of `bind`, before its cleanup. -/
def bound (st : StickySessionState n) (now : Nat) (k : AffinityMapKey) (backend : Str) : StickySessionState n :=
  st.setEntries (shardIndexForKey hash k) ((st.entries (shardIndexForKey hash k)).insert k ⟨backend, now + st.config.ttl⟩)

/-- `lookup` is the lookup of the map, after the cleanup. -/
theorem exec_lookup (st : StickySessionState n) (now : Nat) (ord : IterOrder (AffinityMapKey × AffinityEntry))
    (k : AffinityMapKey) (allowed : Finset Str) :
    let r := ((st.maybeCleanup ord now (shardIndexForKey hash k)).toMap hash).exec st.config.ttl now (.lookup k allowed)
    (st.exec hash ⟨now, ord, .lookup k allowed⟩).1.toMap hash = r.1 ∧
      (st.exec hash ⟨now, ord, .lookup k allowed⟩).2 = r.2 := by
  obtain ⟨hget, hout, hother⟩ := lookupEntry_spec st.config.ttl now k allowed
    ((st.maybeCleanup ord now (shardIndexForKey hash k)).entries (shardIndexForKey hash k))
  have hmap := shardMap_update hash _ k _ hother
  rw [hget] at hmap
  exact ⟨hmap, hout⟩

/-- The insertion of `bind` is the `bind` of the map. -/
theorem toMap_bound (st : StickySessionState n) (now : Nat) (k : AffinityMapKey) (backend : Str) :
    (bound hash st now k backend).toMap hash = ((st.toMap hash).exec st.config.ttl now (.bind k backend)).1 := by
  have hmap := shardMap_update hash st.entries k
    ((st.entries (shardIndexForKey hash k)).insert k ⟨backend, now + st.config.ttl⟩)
    (fun k' hk => (HashMap.get_insert ..).trans (if_neg hk))
  rwa [HashMap.get_insert, if_pos rfl] at hmap

/-- `remove` is the removal of the map. -/
theorem exec_remove (st : StickySessionState n) (now : Nat) (ord : IterOrder (AffinityMapKey × AffinityEntry))
    (k : AffinityMapKey) : (st.exec hash ⟨now, ord, .remove k⟩).1.toMap hash
      = ((st.toMap hash).exec st.config.ttl now (.remove k)).1 := by
  have hmap := shardMap_update hash st.entries k ((st.entries (shardIndexForKey hash k)).remove k)
    (fun k' hk => (HashMap.get_remove ..).trans (if_neg hk))
  rwa [HashMap.get_remove, if_pos rfl] at hmap

/-- One call is one call of the map; entries are lost before it or after it, and only expired ones when the
cleanup fits. -/
theorem exec_refines (st : StickySessionState n) (c : StoreCall) :
    ∃ m, TtlMap.Sub m (st.toMap hash) ∧
      TtlMap.Sub ((st.exec hash c).1.toMap hash) (m.exec st.config.ttl c.now c.op).1 ∧
      (st.exec hash c).2 = (m.exec st.config.ttl c.now c.op).2 ∧
      (st.CleanupFits hash c → TtlMap.Covers c.now m (st.toMap hash) ∧
        TtlMap.Covers c.now ((st.exec hash c).1.toMap hash) (m.exec st.config.ttl c.now c.op).1) := by
  obtain ⟨now, ord, op⟩ := c
  cases op with
  | lookup k allowed =>
      obtain ⟨hmap, hout⟩ := exec_lookup hash st now ord k allowed
      refine ⟨(st.maybeCleanup ord now (shardIndexForKey hash k)).toMap hash, maybeCleanup_sub hash _ _ _ _, ?_, hout, ?_⟩
      · rw [hmap]; exact .refl _
      · intro hfit
        refine ⟨maybeCleanup_covers hash (fun hc => ?_), by rw [hmap]; exact .refl _ _⟩
        simpa using hfit _ (if_pos (decide_eq_true hc))
  | bind k backend =>
      refine ⟨st.toMap hash, .refl _, ?_, rfl, fun hfit => ⟨.refl _ _, ?_⟩⟩
      · rw [← toMap_bound]; exact maybeCleanup_sub hash _ _ _ _
      · rw [← toMap_bound]
        refine maybeCleanup_covers hash (fun hc => ?_)
        simpa using hfit _ (if_pos (decide_eq_true hc))
  | remove k =>
      refine ⟨st.toMap hash, .refl _, ?_, rfl, fun _ => ⟨.refl _ _, ?_⟩⟩
      · rw [exec_remove]; exact .refl _
      · rw [exec_remove]; exact .refl _ _

theorem exec_fitting {st : StickySessionState n} {c : StoreCall} (h : st.CleanupFits hash c) :
    TtlMap.FittingCall st.config.ttl c.now c.op (st.toMap hash) ((st.exec hash c).1.toMap hash) (st.exec hash c).2 := by
  obtain ⟨m, hsub, -, hanswer, hfits⟩ := exec_refines hash st c
  obtain ⟨hbefore, hafter⟩ := hfits h
  exact ⟨m, hsub, hbefore, hanswer, hafter⟩

/-- An entry behind a call has the value of an entry before it, or the one that is bound. -/
theorem value_of_exec {st : StickySessionState n} {c : StoreCall} {k : AffinityMapKey} {e : Stamped Str}
    (h : (st.exec hash c).1.toMap hash k = some e) :
    (∃ e₀, st.toMap hash k = some e₀ ∧ e₀.value = e.value) ∨ c.op = .bind k e.value := by
  obtain ⟨m, hbefore, hafter, -⟩ := exec_refines hash st c
  rcases TtlMap.exec_value (hafter k e h) with ⟨e₀, he₀, hvalue⟩ | hbind
  · exact .inl ⟨e₀, hbefore k e₀ he₀, hvalue⟩
  · exact .inr hbind

/-! ## Every entry stays in its shard -/

theorem home_cleanup {st : StickySessionState n} (h : st.Home hash)
    (ord : IterOrder (AffinityMapKey × AffinityEntry)) (now : Nat) (i : Fin n) :
    (st.maybeCleanup ord now i).Home hash := by
  intro j k e hj
  rw [StickySessionState.entries_maybeCleanup] at hj
  split at hj
  · exact h j k e (get_cleanupEntries hj).1
  · exact h j k e hj

/-- Only the entry of `k` may be new, and it goes into the shard of `k`. -/
theorem home_setEntries {st : StickySessionState n} (h : st.Home hash) (k : AffinityMapKey) {m : Entries}
    (hm : ∀ k', k' ≠ k → ∀ e, m.get k' = some e → (st.entries (shardIndexForKey hash k)).get k' = some e) :
    (st.setEntries (shardIndexForKey hash k) m).Home hash := by
  intro j k' e hj
  rw [StickySessionState.entries_setEntries] at hj
  by_cases hjk : j = shardIndexForKey hash k
  · subst hjk
    rw [Function.update_self] at hj
    by_cases hk : k' = k
    · rw [hk]
    · exact h _ k' e (hm k' hk e hj)
  · rw [Function.update_of_ne hjk] at hj
    exact h j k' e hj

theorem home_bound {st : StickySessionState n} (h : st.Home hash) (now : Nat) (k : AffinityMapKey) (backend : Str) :
    (bound hash st now k backend).Home hash := by
  refine home_setEntries hash h k (fun k' hk e he => ?_)
  rwa [HashMap.get_insert, if_neg hk] at he

theorem home_exec {st : StickySessionState n} (h : st.Home hash) (c : StoreCall) :
    (st.exec hash c).1.Home hash := by
  obtain ⟨now, ord, op⟩ := c
  cases op with
  | lookup k allowed =>
      refine home_setEntries hash (home_cleanup hash h ord now _) k (fun k' hk e he => ?_)
      rwa [(lookupEntry_spec _ _ _ _ _).2.2 k' hk] at he
  | bind k backend => exact home_cleanup hash (home_bound hash h now k backend) ord now _
  | remove k =>
      refine home_setEntries hash h k (fun k' hk e he => ?_)
      rwa [HashMap.get_remove, if_neg hk] at he

end Map

end NeemataProxy.Routing
