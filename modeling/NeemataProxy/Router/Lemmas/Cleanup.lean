import NeemataProxy.Router.Sticky

/-!
# What `cleanup_global` keeps and drops

Every item on the heap is current, so the loop drops the first `overflow` items in heap order, and the
fallback loop is never entered.
-/

namespace NeemataProxy.Routing

open Lib

variable {n : Nat} {ord : IterOrder (AffinityMapKey × AffinityEntry)}

/-! ## Counting entries -/

theorem totalLen_update (s : Fin n → Entries) (i : Fin n) (m : Entries) :
    totalLen (Function.update s i m) + (s i).len = totalLen s + m.len := by
  have h (t : Fin n → Entries) := Finset.add_sum_erase Finset.univ (fun j => (t j).len) (Finset.mem_univ i)
  have hrest : ∑ j ∈ Finset.univ.erase i, (Function.update s i m j).len
      = ∑ j ∈ Finset.univ.erase i, (s j).len :=
    Finset.sum_congr rfl (fun j hj => by rw [Function.update_of_ne (Finset.ne_of_mem_erase hj)])
  have h₁ := h (Function.update s i m)
  have h₂ := h s
  simp only [Function.update_self] at h₁
  unfold totalLen
  omega

theorem get_sweep (now : Nat) (s : Fin n → Entries) (i : Fin n) (k : AffinityMapKey) :
    (sweep now s i).get k = ((s i).get k).filter (fun e => now < e.expiresAt) := HashMap.get_retain _ _ _

/-! ## The items on the heap -/

/-- The place of the entry that an item stands for. -/
def EvictionItem.place (c : EvictionItem n) : Fin n × AffinityMapKey := (c.shardIndex, c.key)

/-- The entry that an item stands for is still there, with the same expiry. -/
def EvictionItem.Current (s : Fin n → Entries) (c : EvictionItem n) : Prop :=
  ∃ e, (s c.shardIndex).get c.key = some e ∧ e.expiresAt = c.expiresAt

theorem mem_listed {s : Fin n → Entries} {i : Fin n} {e : AffinityMapKey × AffinityEntry} :
    (i, e) ∈ listed ord s ↔ e ∈ (s i).entries := by
  simp [listed, (ord.perm _).mem_iff]

theorem listed_length (s : Fin n → Entries) : (listed ord s).length = totalLen s := by
  simp [listed, List.length_flatMap, (ord.perm _).length_eq, totalLen, HashMap.len, ← List.sum_ofFn,
    List.ofFn_eq_map]

theorem listed_places_nodup (s : Fin n → Entries) :
    ((listed ord s).map (fun x => (x.1, x.2.1))).Nodup := by
  rw [listed, List.map_flatMap, List.nodup_flatMap]
  constructor
  · intro i _
    have hkeys : ((ord.visit (s i).entries).map Prod.fst).Nodup :=
      ((ord.perm (s i).entries).map Prod.fst).nodup_iff.mpr (s i).nodup
    have h := hkeys.map (f := fun k => (i, k)) (fun _ _ h => (Prod.mk.inj h).2)
    simpa [List.map_map, Function.comp_def] using h
  · refine (List.nodup_finRange n).imp ?_
    intro i j hij x hi hj
    simp only [List.map_map, List.mem_map] at hi hj
    obtain ⟨_, _, rfl⟩ := hi
    obtain ⟨_, _, h⟩ := hj
    exact hij (congrArg Prod.fst h).symm

theorem candidates_length (s : Fin n → Entries) : (evictionCandidates ord s).length = totalLen s := by
  simp [evictionCandidates, listed_length]

theorem candidates_places (s : Fin n → Entries) :
    (evictionCandidates ord s).map EvictionItem.place = (listed ord s).map (fun x => (x.1, x.2.1)) := by
  have h := congrArg (List.map (fun x => (x.1, x.2.1))) (List.zipIdx_map_fst 0 (listed ord s))
  rw [List.map_map] at h
  rw [← h, evictionCandidates, List.map_map]
  rfl

theorem candidates_current {s : Fin n → Entries} {c : EvictionItem n}
    (hc : c ∈ evictionCandidates ord s) : c.Current s := by
  obtain ⟨⟨⟨i, k, e⟩, seq⟩, hm, rfl⟩ := List.mem_map.mp hc
  have hl : (i, k, e) ∈ listed ord s := List.fst_mem_of_mem_zipIdx hm
  exact ⟨e, HashMap.get_eq_some.mpr (mem_listed.mp hl), rfl⟩

/-! ## The eviction loop -/

/-- The shards without the entries that the items stand for. -/
def removeAll (vs : List (EvictionItem n)) (s : Fin n → Entries) : Fin n → Entries :=
  vs.foldl (fun s c => removeAt s c.shardIndex c.key) s

theorem get_removeAt (s : Fin n → Entries) (i j : Fin n) (k k' : AffinityMapKey) :
    (removeAt s i k j).get k' = if (j, k') = (i, k) then none else (s j).get k' := by
  by_cases h : j = i
  · subst h; simp [removeAt, HashMap.get_remove]
  · simp [removeAt, h]

theorem get_removeAll (vs : List (EvictionItem n)) (s : Fin n → Entries) (i : Fin n) (k : AffinityMapKey) :
    (removeAll vs s i).get k = if (i, k) ∈ vs.map EvictionItem.place then none else (s i).get k := by
  induction vs generalizing s with
  | nil => simp [removeAll]
  | cons v vs ih =>
      rw [removeAll, List.foldl_cons, ← removeAll, ih, get_removeAt]
      by_cases h : (i, k) = (v.shardIndex, v.key) <;> simp [EvictionItem.place, h]

theorem EvictionItem.Current.removeAt {s : Fin n → Entries} {c d : EvictionItem n} (h : d.Current s)
    (hne : d.place ≠ c.place) : d.Current (removeAt s c.shardIndex c.key) := by
  obtain ⟨e, he, hx⟩ := h
  exact ⟨e, (get_removeAt ..).trans ((if_neg hne).trans he), hx⟩

theorem totalLen_removeAt {s : Fin n → Entries} {c : EvictionItem n} (h : c.Current s) :
    totalLen (removeAt s c.shardIndex c.key) + 1 = totalLen s := by
  obtain ⟨e, he, _⟩ := h
  have h₁ := totalLen_update s c.shardIndex ((s c.shardIndex).remove c.key)
  have h₂ := HashMap.len_remove_of_get he
  unfold removeAt
  omega

theorem totalLen_removeAll {vs : List (EvictionItem n)} {s : Fin n → Entries}
    (hnd : (vs.map EvictionItem.place).Nodup) (hcur : ∀ c ∈ vs, c.Current s) :
    totalLen (removeAll vs s) + vs.length = totalLen s := by
  induction vs generalizing s with
  | nil => rfl
  | cons v vs ih =>
      obtain ⟨hv, hnd⟩ := List.nodup_cons.mp hnd
      have hrest : ∀ c ∈ vs, c.Current (removeAt s v.shardIndex v.key) := fun c hc =>
        (hcur c (List.mem_cons_of_mem _ hc)).removeAt
          (fun he => hv (he ▸ List.mem_map_of_mem (f := EvictionItem.place) hc))
      have h₁ := ih hnd hrest
      have h₂ := totalLen_removeAt (hcur v List.mem_cons_self)
      rw [removeAll, List.foldl_cons, ← removeAll, List.length_cons]
      omega

/-- The loop drops the first items, as many as are still to be removed. -/
theorem evictOldest_eq (overflow removed : Nat) {cs : List (EvictionItem n)} {s : Fin n → Entries}
    (hnd : (cs.map EvictionItem.place).Nodup) (hcur : ∀ c ∈ cs, c.Current s) :
    evictOldest overflow cs removed s
      = (removeAll (cs.take (overflow - removed)) s, removed + min cs.length (overflow - removed)) := by
  induction cs generalizing removed s with
  | nil => simp [evictOldest, removeAll]
  | cons c cs ih =>
      by_cases hlt : removed < overflow
      · obtain ⟨hc, hnd⟩ := List.nodup_cons.mp hnd
        obtain ⟨e, he, hx⟩ := hcur c List.mem_cons_self
        have hrest : ∀ d ∈ cs, d.Current (removeAt s c.shardIndex c.key) := fun d hd =>
          (hcur d (List.mem_cons_of_mem _ hd)).removeAt
            (fun hp => hc (hp ▸ List.mem_map_of_mem (f := EvictionItem.place) hd))
        obtain ⟨m, hm⟩ : ∃ m, overflow - removed = m + 1 := ⟨overflow - removed - 1, by omega⟩
        have hm' : overflow - (removed + 1) = m := by omega
        simp only [evictOldest, hlt, if_true, he, hx]
        rw [ih _ hnd hrest, hm, hm', List.take_succ_cons, removeAll, removeAll, List.foldl_cons, List.length_cons]
        congr 1
        omega
      · have h0 : overflow - removed = 0 := by omega
        simp [evictOldest, hlt, h0, removeAll]

/-! ## The whole cleanup -/

/-- The items that a cleanup over capacity drops. -/
def victims (ord : IterOrder (AffinityMapKey × AffinityEntry)) (maxEntries : Nat) (s : Fin n → Entries) :
    List (EvictionItem n) :=
  (popOrder EvictionItem.cmp (evictionCandidates ord s)).take (totalLen s - maxEntries)

theorem heap_places_nodup (ord : IterOrder (AffinityMapKey × AffinityEntry)) (s : Fin n → Entries) :
    ((popOrder EvictionItem.cmp (evictionCandidates ord s)).map EvictionItem.place).Nodup := by
  rw [((popOrder_perm _ _).map _).nodup_iff, candidates_places]
  exact listed_places_nodup s

theorem heap_current {s : Fin n → Entries} {c : EvictionItem n}
    (hc : c ∈ popOrder EvictionItem.cmp (evictionCandidates ord s)) : c.Current s :=
  candidates_current ((popOrder_perm _ _).mem_iff.mp hc)

theorem heap_length (s : Fin n → Entries) :
    (popOrder EvictionItem.cmp (evictionCandidates ord s)).length = totalLen s := by
  rw [(popOrder_perm _ _).length_eq, candidates_length]

theorem victims_length (maxEntries : Nat) (s : Fin n → Entries) :
    (victims ord maxEntries s).length = totalLen s - maxEntries := by
  rw [victims, List.length_take, heap_length]
  omega

/-- A cleanup sweeps and, over capacity, drops the victims; the fallback loop is not entered. -/
theorem cleanupEntries_eq (maxEntries now : Nat) (s : Fin n → Entries) :
    cleanupEntries ord maxEntries now s
      = if totalLen (sweep now s) ≤ maxEntries then sweep now s
        else removeAll (victims ord maxEntries (sweep now s)) (sweep now s) := by
  have he := evictOldest_eq (totalLen (sweep now s) - maxEntries) 0
    (heap_places_nodup ord (sweep now s)) (fun _ hc => heap_current hc)
  rw [heap_length] at he
  have hall : min (totalLen (sweep now s)) (totalLen (sweep now s) - maxEntries)
      = totalLen (sweep now s) - maxEntries := by omega
  simp only [cleanupEntries, he, Nat.sub_zero, Nat.zero_add, hall, le_refl, if_true, victims]

/-- A cleanup keeps only entries that are there and have not expired. -/
theorem get_cleanupEntries {maxEntries now : Nat} {s : Fin n → Entries} {i : Fin n} {k : AffinityMapKey}
    {e : AffinityEntry} (h : (cleanupEntries ord maxEntries now s i).get k = some e) :
    (s i).get k = some e ∧ now < e.expiresAt := by
  have hsweep : (sweep now s i).get k = some e := by
    rw [cleanupEntries_eq] at h
    split at h
    · exact h
    · rw [get_removeAll] at h
      split at h
      · cases h
      · exact h
  rw [get_sweep, Option.filter_eq_some_iff] at hsweep
  simpa using hsweep

theorem totalLen_cleanupEntries (maxEntries now : Nat) (s : Fin n → Entries) :
    totalLen (cleanupEntries ord maxEntries now s) = min maxEntries (totalLen (sweep now s)) := by
  rw [cleanupEntries_eq]
  split
  · omega
  · have hnd : ((victims ord maxEntries (sweep now s)).map EvictionItem.place).Nodup :=
      (heap_places_nodup ord (sweep now s)).sublist ((List.take_sublist _ _).map _)
    have hlen := totalLen_removeAll hnd (fun _ hc => heap_current (List.mem_of_mem_take hc))
    rw [victims_length] at hlen
    omega

end NeemataProxy.Routing
