import NeemataProxy.Router.Lemmas.Recency

/-!
# A cleanup is exact

What is left are unexpired entries as they were, as many of them as fit, and none of them expires before one that was
dropped. The fallback behind the heap has nothing left to remove.
-/

namespace NeemataProxy.Routing

open Lib

variable {n : Nat}

/-- The number of entries that have not expired. -/
def unexpiredCount (now : Nat) (s : Fin n → Entries) : Nat :=
  ∑ i, (s i).entries.countP (fun e => now < e.2.expiresAt)

theorem totalLen_sweep (now : Nat) (s : Fin n → Entries) : totalLen (sweep now s) = unexpiredCount now s :=
  Finset.sum_congr rfl fun _ _ => List.countP_eq_length_filter.symm

/-- What a cleanup of a store with these entries must leave. -/
structure CleansTo (maxEntries now : Nat) (old new : Fin n → Entries) : Prop where
  unchanged : ∀ i k e, (new i).get k = some e → (old i).get k = some e
  unexpired : ∀ i k e, (new i).get k = some e → now < e.expiresAt
  count : totalLen new = min maxEntries (unexpiredCount now old)
  keeps : unexpiredCount now old ≤ maxEntries →
    ∀ i k e, (old i).get k = some e → now < e.expiresAt → (new i).get k = some e
  oldest : ∀ i k e, (old i).get k = some e → now < e.expiresAt → (new i).get k = none →
    ∀ j k' e', (new j).get k' = some e' → e.expiresAt ≤ e'.expiresAt

theorem evictOldest_removed (ord : IterOrder (AffinityMapKey × AffinityEntry)) (maxEntries : Nat) (s : Fin n → Entries) :
    (evictOldest (totalLen s - maxEntries) (popOrder EvictionItem.cmp (evictionCandidates ord s)) 0 s).2 =
      totalLen s - maxEntries := by
  rw [evictOldest_eq _ 0 (heap_places_nodup ord s) fun _ hc => heap_current hc, heap_length]
  simp only [Nat.sub_zero, Nat.zero_add]
  omega

/-- A dropped entry that has not expired is a victim, and what is kept survived it. -/
theorem expiresAt_le_of_dropped {ord : IterOrder (AffinityMapKey × AffinityEntry)} {maxEntries now : Nat}
    {s : Fin n → Entries} {i j : Fin n} {k k' : AffinityMapKey} {e e' : AffinityEntry} (h : (s i).get k = some e)
    (hnow : now < e.expiresAt) (hdropped : (cleanupEntries ord maxEntries now s i).get k = none)
    (hkept : (cleanupEntries ord maxEntries now s j).get k' = some e') : e.expiresAt ≤ e'.expiresAt := by
  obtain ⟨hover, hplace⟩ := mem_victims_of_dropped h hnow hdropped
  have hnot := not_mem_victims_of_kept hover hkept
  obtain ⟨c, hc, hck⟩ := List.mem_map.mp hplace
  obtain ⟨a, ha, hexpires⟩ := heap_current (List.mem_of_mem_take hc)
  obtain ⟨rfl, rfl⟩ := Prod.mk.inj hck
  have hae : a = e := by
    rw [get_sweep, h] at ha
    exact (Option.some.inj (Option.filter_eq_some_iff.mp ha).1).symm
  obtain ⟨hget', hnow'⟩ := get_cleanupEntries hkept
  have hswept' : (sweep now s j).get k' = some e' := by
    rw [get_sweep, hget']
    exact Option.filter_eq_some_iff.mpr ⟨rfl, decide_eq_true hnow'⟩
  obtain ⟨d, hd, hdk, hexpires'⟩ := exists_heap_item ord hswept'
  rw [← victims_append_survivors maxEntries, List.mem_append] at hd
  rcases hd with hd | hd
  · exact absurd (hdk ▸ List.mem_map_of_mem hd) hnot
  · rw [← hae, hexpires, ← hexpires']
    exact expiresAt_le_of_victim hc hd

/-- A cleanup leaves the youngest unexpired entries as they are, and never comes to remove arbitrary keys. -/
theorem cleanupGlobal_exact (ord : IterOrder (AffinityMapKey × AffinityEntry)) (now : Nat) (st : StickySessionState n) :
    CleansTo st.config.maxEntries now st.entries (st.cleanupGlobal ord now).entries ∧
      (st.cleanupGlobal ord now).config = st.config ∧ (st.cleanupGlobal ord now).counters = st.counters ∧
      (st.config.maxEntries < totalLen (sweep now st.entries) →
        let overflow := totalLen (sweep now st.entries) - st.config.maxEntries
        let evicted := evictOldest overflow
          (popOrder EvictionItem.cmp (evictionCandidates ord (sweep now st.entries))) 0 (sweep now st.entries)
        evicted.2 = overflow ∧ (st.cleanupGlobal ord now).entries = evicted.1) := by
  refine ⟨⟨?_, ?_, ?_, ?_, ?_⟩, rfl, rfl, fun hover => ⟨?_, ?_⟩⟩
  · exact fun i k e h => (get_cleanupEntries h).1
  · exact fun i k e h => (get_cleanupEntries h).2
  · rw [← totalLen_sweep]
    exact totalLen_cleanupEntries _ _ _
  · intro hroom i k e h hnow
    rw [← totalLen_sweep] at hroom
    have hget : cleanupEntries ord st.config.maxEntries now st.entries = _ := cleanupEntries_eq st.config.maxEntries now st.entries
    rw [if_pos hroom] at hget
    change (cleanupEntries ord st.config.maxEntries now st.entries i).get k = some e
    rw [hget, get_sweep, h]
    exact Option.filter_eq_some_iff.mpr ⟨rfl, decide_eq_true hnow⟩
  · exact fun i k e h hnow hdropped j k' e' hkept => expiresAt_le_of_dropped h hnow hdropped hkept
  · exact evictOldest_removed ord st.config.maxEntries (sweep now st.entries)
  · have hremoved := evictOldest_removed ord st.config.maxEntries (sweep now st.entries)
    change cleanupEntries ord st.config.maxEntries now st.entries = _
    simp only [cleanupEntries, if_neg (Nat.not_le_of_lt hover)]
    rw [if_pos hremoved.ge]

end NeemataProxy.Routing
