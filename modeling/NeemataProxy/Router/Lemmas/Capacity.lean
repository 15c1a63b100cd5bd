import NeemataProxy.Router.Lemmas.Store

/-!
# The size of the store between cleanups

A shard can take part in at most 127 calls without triggering a cleanup; the phase of its counter says in how
many it has taken part since it last could have.
-/

namespace NeemataProxy.Routing

open Lib

variable {n : Nat}

/-- The number of calls that a shard with this counter can have seen since a cleanup. -/
def phase (c : UInt64) : Nat := (c.toNat + 127) % 128

theorem phase_le (c : UInt64) : phase c ≤ 127 := by unfold phase; omega

/-- A call that triggers no cleanup moves the phase on, also where the counter wraps around. -/
theorem phase_succ {c : UInt64} (h : c.toNat % 128 ≠ 0) : phase (c + 1) = phase c + 1 := by
  have hadd : (c + 1).toNat = (c.toNat + 1) % 2 ^ 64 := by simp [UInt64.toNat_add]
  unfold phase
  rw [hadd]
  omega

namespace StickySessionState

/-- The number of entries that may have been bound since the last cleanup. -/
def slack (st : StickySessionState n) : Nat := ∑ i, phase (st.counters i)

theorem slack_le (st : StickySessionState n) : st.slack ≤ n * 127 := by
  have h := Finset.sum_le_card_nsmul Finset.univ (fun i => phase (st.counters i)) 127 (fun i _ => phase_le _)
  simpa [slack] using h

/-- The store holds no more than its capacity and what was bound since the last cleanup. -/
def Bounded (st : StickySessionState n) : Prop := totalLen st.entries ≤ st.config.maxEntries + st.slack

theorem slack_maybeCleanup {ord : IterOrder (AffinityMapKey × AffinityEntry)} {now : Nat} {i : Fin n}
    {st : StickySessionState n} (h : (st.counters i).toNat % 128 ≠ 0) :
    (st.maybeCleanup ord now i).slack = st.slack + 1 := by
  have hsplit (f : Fin n → UInt64) := Finset.add_sum_erase Finset.univ (fun j => phase (f j)) (Finset.mem_univ i)
  have hrest : ∑ j ∈ Finset.univ.erase i, phase (Function.update st.counters i (st.counters i + 1) j)
      = ∑ j ∈ Finset.univ.erase i, phase (st.counters j) :=
    Finset.sum_congr rfl (fun j hj => by rw [Function.update_of_ne (Finset.ne_of_mem_erase hj)])
  have h₁ := hsplit (Function.update st.counters i (st.counters i + 1))
  have h₂ := hsplit st.counters
  simp only [Function.update_self] at h₁
  have h₃ := phase_succ h
  unfold slack
  rw [counters_maybeCleanup]
  omega

/-- The next call on a shard makes room for one more entry, or cleans up. -/
theorem bounded_maybeCleanup {ord : IterOrder (AffinityMapKey × AffinityEntry)} {now : Nat} {i : Fin n}
    {st : StickySessionState n} (h : totalLen st.entries ≤ st.config.maxEntries + st.slack + 1) :
    (st.maybeCleanup ord now i).Bounded := by
  unfold Bounded
  rw [entries_maybeCleanup, config_maybeCleanup]
  by_cases hc : (st.counters i).toNat % 128 = 0
  · rw [if_pos hc, totalLen_cleanupEntries]
    omega
  · rw [if_neg hc, slack_maybeCleanup hc]
    omega

theorem bounded_setEntries {st : StickySessionState n} {i : Fin n} {m : Entries}
    (hm : m.len ≤ (st.entries i).len) (h : st.Bounded) : (st.setEntries i m).Bounded := by
  have hlen := totalLen_update st.entries i m
  have hslack : (st.setEntries i m).slack = st.slack := rfl
  unfold Bounded at h ⊢
  rw [entries_setEntries, config_setEntries, hslack]
  omega

theorem len_lookupEntry_le (ttl now : Nat) (k : AffinityMapKey) (allowed : Finset Str) (m : Entries) :
    (lookupEntry ttl now k allowed m).1.len ≤ m.len := by
  cases hm : m.get k with
  | none => simp [lookupEntry, hm]
  | some e =>
      by_cases h : now < e.expiresAt ∧ e.backend ∈ allowed
      · simp only [lookupEntry, hm, if_pos h]
        exact (HashMap.len_remove_of_get hm).le
      · simp only [lookupEntry, hm, if_neg h]
        exact m.len_remove_le k

variable [NeZero n] (hash : AffinityMapKey → UInt64)

theorem bounded_exec {st : StickySessionState n} (h : st.Bounded) (c : StoreCall) :
    (st.exec hash c).1.Bounded := by
  obtain ⟨now, ord, op⟩ := c
  cases op with
  | lookup k allowed =>
      refine bounded_setEntries (len_lookupEntry_le _ _ _ _ _) (bounded_maybeCleanup ?_)
      exact Nat.le_succ_of_le h
  | bind k backend =>
      refine bounded_maybeCleanup ?_
      have hlen := totalLen_update st.entries (shardIndexForKey hash k)
        ((st.entries (shardIndexForKey hash k)).insert k ⟨backend, now + st.config.ttl⟩)
      have hins := (st.entries (shardIndexForKey hash k)).len_insert_le k ⟨backend, now + st.config.ttl⟩
      unfold Bounded at h
      change totalLen (Function.update st.entries (shardIndexForKey hash k)
        ((st.entries (shardIndexForKey hash k)).insert k ⟨backend, now + st.config.ttl⟩))
          ≤ st.config.maxEntries + st.slack + 1
      omega
  | remove k => exact bounded_setEntries (HashMap.len_remove_le _ _) h

end StickySessionState

end NeemataProxy.Routing
