import NeemataProxy.Lib.Eviction
import NeemataProxy.Router.Lemmas.Store

/-!
# What a cleanup drops

The heap gives its items by expiry, so whatever the loop drops is outlasted by all that it keeps.
-/

namespace NeemataProxy.Routing

open Lib
open StickySessionState (shardIndexForKey)

variable {n : Nat} {ord : IterOrder (AffinityMapKey × AffinityEntry)}

/-! ## The order of the heap -/

theorem EvictionItem.cmp_isLE {a b : EvictionItem n} : (a.cmp b).isLE = true
    ↔ a.expiresAt < b.expiresAt ∨ a.expiresAt = b.expiresAt ∧ a.sequence ≤ b.sequence := by
  simp only [EvictionItem.cmp, Ordering.isLE_then_iff_or, Nat.compare_eq_lt, Nat.compare_eq_eq, Nat.isLE_compare]

/-- The items that `pop` returns later do not expire earlier. -/
theorem popOrder_sorted (items : List (EvictionItem n)) :
    (popOrder EvictionItem.cmp items).Pairwise fun a b => a.expiresAt ≤ b.expiresAt := by
  refine (List.pairwise_mergeSort (fun a b c hab hbc => ?_) (fun a b => ?_) items).imp fun h => ?_
  · rw [EvictionItem.cmp_isLE] at hab hbc ⊢
    omega
  · rw [Bool.or_eq_true, EvictionItem.cmp_isLE, EvictionItem.cmp_isLE]
    omega
  · rw [EvictionItem.cmp_isLE] at h
    omega

/-- The items that a cleanup over capacity leaves on the heap. -/
def survivors (ord : IterOrder (AffinityMapKey × AffinityEntry)) (maxEntries : Nat) (s : Fin n → Entries) :
    List (EvictionItem n) :=
  (popOrder EvictionItem.cmp (evictionCandidates ord s)).drop (totalLen s - maxEntries)

theorem victims_append_survivors (maxEntries : Nat) (s : Fin n → Entries) :
    victims ord maxEntries s ++ survivors ord maxEntries s = popOrder EvictionItem.cmp (evictionCandidates ord s) :=
  List.take_append_drop _ _

theorem survivors_length {maxEntries : Nat} {s : Fin n → Entries} (h : maxEntries ≤ totalLen s) :
    (survivors ord maxEntries s).length = maxEntries := by
  rw [survivors, List.length_drop, heap_length]
  omega

/-- What survives does not expire before a victim. -/
theorem expiresAt_le_of_victim {maxEntries : Nat} {s : Fin n → Entries} {c d : EvictionItem n}
    (hc : c ∈ victims ord maxEntries s) (hd : d ∈ survivors ord maxEntries s) : c.expiresAt ≤ d.expiresAt := by
  have hsorted := popOrder_sorted (evictionCandidates ord s)
  rw [← victims_append_survivors maxEntries] at hsorted
  exact (List.pairwise_append.mp hsorted).2.2 c hc d hd

/-! ## What is dropped -/

theorem exists_heap_item (ord : IterOrder (AffinityMapKey × AffinityEntry)) {s : Fin n → Entries} {i : Fin n}
    {k : AffinityMapKey} {e : AffinityEntry} (h : (s i).get k = some e) :
    ∃ c ∈ popOrder EvictionItem.cmp (evictionCandidates ord s), c.place = (i, k) ∧ c.expiresAt = e.expiresAt := by
  have hplace : (i, k) ∈ (evictionCandidates ord s).map EvictionItem.place := by
    rw [candidates_places]
    exact List.mem_map.mpr ⟨(i, k, e), mem_listed.mpr (HashMap.get_eq_some.mp h), rfl⟩
  obtain ⟨c, hc, hck⟩ := List.mem_map.mp hplace
  obtain ⟨a, ha, hexpires⟩ := candidates_current hc
  obtain ⟨rfl, rfl⟩ := Prod.mk.inj hck
  obtain rfl : e = a := Option.some.inj (h.symm.trans ha)
  exact ⟨c, (popOrder_perm _ _).mem_iff.mpr hc, rfl, hexpires.symm⟩

/-- An unexpired entry that a cleanup drops is a victim, and the store was over capacity. -/
theorem mem_victims_of_dropped {maxEntries now : Nat} {s : Fin n → Entries} {i : Fin n} {k : AffinityMapKey}
    {e : AffinityEntry} (h : (s i).get k = some e) (hnow : now < e.expiresAt)
    (hdropped : (cleanupEntries ord maxEntries now s i).get k = none) :
    maxEntries < totalLen (sweep now s) ∧ (i, k) ∈ (victims ord maxEntries (sweep now s)).map EvictionItem.place := by
  have hswept : (sweep now s i).get k = some e := by
    rw [get_sweep, h]
    exact Option.filter_eq_some_iff.mpr ⟨rfl, decide_eq_true hnow⟩
  rw [cleanupEntries_eq] at hdropped
  split at hdropped
  · simp [hswept] at hdropped
  · rw [get_removeAll] at hdropped
    refine ⟨by omega, ?_⟩
    by_contra hnot
    simp [hnot, hswept] at hdropped

theorem not_mem_victims_of_kept {maxEntries now : Nat} {s : Fin n → Entries} {i : Fin n} {k : AffinityMapKey}
    {e : AffinityEntry} (hover : maxEntries < totalLen (sweep now s))
    (hkept : (cleanupEntries ord maxEntries now s i).get k = some e) :
    (i, k) ∉ (victims ord maxEntries (sweep now s)).map EvictionItem.place := by
  rw [cleanupEntries_eq, if_neg (Nat.not_le_of_lt hover), get_removeAll] at hkept
  intro hmem
  rw [if_pos hmem] at hkept
  cases hkept

section Map

variable [NeZero n] (hash : AffinityMapKey → UInt64)

/-- The entry that an item of the heap stands for is the entry of its key. -/
theorem heap_entry {s : Fin n → Entries} {now : Nat}
    (hhome : ∀ i k e, (s i).get k = some e → i = shardIndexForKey hash k) {c : EvictionItem n}
    (hc : c ∈ popOrder EvictionItem.cmp (evictionCandidates ord (sweep now s))) :
    c.place = (shardIndexForKey hash c.key, c.key) ∧
      ∃ e, shardMap hash s c.key = some e ∧ e.expiresAt = c.expiresAt := by
  obtain ⟨a, ha, hexpires⟩ := heap_current hc
  rw [get_sweep] at ha
  have hget := (Option.filter_eq_some_iff.mp ha).1
  have hi := hhome _ _ _ hget
  refine ⟨Prod.ext hi rfl, a.stamped, ?_, hexpires⟩
  rw [hi] at hget
  exact Option.map_eq_some_iff.mpr ⟨a, hget, rfl⟩

theorem heap_keys_nodup (ord : IterOrder (AffinityMapKey × AffinityEntry)) (now : Nat) {s : Fin n → Entries}
    (hhome : ∀ i k e, (s i).get k = some e → i = shardIndexForKey hash k) :
    ((popOrder EvictionItem.cmp (evictionCandidates ord (sweep now s))).map EvictionItem.key).Nodup := by
  refine List.Nodup.of_map (fun k => ((shardIndexForKey hash k : Fin n), k)) ?_
  have hplaces := heap_places_nodup ord (sweep now s)
  rw [List.map_congr_left fun c hc => (heap_entry hash hhome hc).1] at hplaces
  rwa [List.map_map]

/-- An unexpired entry is only dropped when as many as the capacity outlast it. -/
theorem cleanup_evicts (maxEntries now : Nat) {s : Fin n → Entries}
    (hhome : ∀ i k e, (s i).get k = some e → i = shardIndexForKey hash k) :
    TtlMap.Evicts maxEntries now (shardMap hash s) (shardMap hash (cleanupEntries ord maxEntries now s)) := by
  refine ⟨cleanup_sub hash ord maxEntries now s, fun k e hk hnone hnow => ?_⟩
  obtain ⟨a, ha, rfl⟩ := Option.map_eq_some_iff.mp hk
  obtain ⟨hover, hplace⟩ := mem_victims_of_dropped ha hnow (Option.map_eq_none_iff.mp hnone)
  -- the key of a victim is not the key of a survivor
  obtain ⟨c, hc, hck⟩ := List.mem_map.mp hplace
  obtain ⟨-, rfl⟩ := Prod.mk.inj hck
  have hkeys := heap_keys_nodup hash ord now hhome
  rw [← victims_append_survivors maxEntries, List.map_append, List.nodup_append] at hkeys
  obtain ⟨-, hkept, hdisjoint⟩ := hkeys
  refine ⟨((survivors ord maxEntries (sweep now s)).map EvictionItem.key).toFinset, ?_, fun hmem => ?_, fun k' hk' => ?_⟩
  · rw [List.toFinset_card_of_nodup hkept, List.length_map, survivors_length (by omega)]
  · exact hdisjoint _ (List.mem_map_of_mem hc) _ (List.mem_toFinset.mp hmem) rfl
  · obtain ⟨d, hd, rfl⟩ := List.mem_map.mp (List.mem_toFinset.mp hk')
    obtain ⟨-, e, he, hexpires⟩ := heap_entry hash hhome (List.mem_of_mem_drop hd)
    obtain ⟨-, e', he', hexpires'⟩ := heap_entry hash hhome (List.mem_of_mem_take hc)
    obtain rfl : a.stamped = e' := Option.some.inj (hk.symm.trans he')
    exact ⟨e, he, by rw [hexpires, hexpires']; exact expiresAt_le_of_victim hc hd⟩

theorem maybeCleanup_evicts {st : StickySessionState n} (h : st.Home hash) (now : Nat) (i : Fin n) :
    TtlMap.Evicts st.config.maxEntries now (st.toMap hash) ((st.maybeCleanup ord now i).toMap hash) := by
  simp only [StickySessionState.toMap, StickySessionState.entries_maybeCleanup]
  split
  · exact cleanup_evicts hash _ now h
  · exact .refl _ _ _

theorem exec_evicting {st : StickySessionState n} (h : st.Home hash) (c : StoreCall) :
    TtlMap.EvictingCall st.config.maxEntries st.config.ttl c.now c.op (st.toMap hash) ((st.exec hash c).1.toMap hash)
      (st.exec hash c).2 := by
  obtain ⟨now, ord, op⟩ := c
  cases op with
  | lookup k allowed =>
      obtain ⟨hmap, hanswer⟩ := exec_lookup hash st now ord k allowed
      exact ⟨_, maybeCleanup_evicts hash h now _, hanswer, by rw [hmap]; exact .refl _ _ _⟩
  | bind k backend =>
      refine ⟨_, .refl _ _ _, rfl, ?_⟩
      rw [← toMap_bound]
      exact maybeCleanup_evicts hash (home_bound hash h now k backend) now _
  | remove k =>
      exact ⟨_, .refl _ _ _, rfl, by rw [exec_remove]; exact .refl _ _ _⟩

end Map

end NeemataProxy.Routing
