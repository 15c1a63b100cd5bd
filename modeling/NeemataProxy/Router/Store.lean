import NeemataProxy.Lib.Machine
import NeemataProxy.Lib.TtlMap
import NeemataProxy.Router.Sticky

/-!
# Runs of the affinity store, and the map it stands for

A run is a list of calls with their clock readings. The map that a store stands for reads each key in the shard
that its hash selects.
-/

namespace NeemataProxy.Routing

open Lib

/-- A call on the store: the clock reading, the iteration order of the maps, and what is called. -/
structure StoreCall where
  now : Nat
  ord : IterOrder (AffinityMapKey × AffinityEntry)
  op : TtlMap.Op AffinityMapKey Str

namespace StickySessionState

variable {n : Nat} [NeZero n] (hash : AffinityMapKey → UInt64)

def exec (st : StickySessionState n) (c : StoreCall) : StickySessionState n × Option Str :=
  match c.op with
  | .lookup k allowed => st.lookup hash c.ord c.now k.appName k.transport k.affinityKey allowed
  | .bind k backend => (st.bind hash c.ord c.now k.appName k.transport k.affinityKey backend, none)
  | .remove k => (st.remove hash k.appName k.transport k.affinityKey, none)

/-- The store on which a call runs `cleanup_global`, when it does. -/
def cleanupAt (st : StickySessionState n) (c : StoreCall) : Option (StickySessionState n) :=
  match c.op with
  | .lookup k _ =>
      let r := st.shouldCleanup (shardIndexForKey hash k)
      if r.2 then some r.1 else none
  | .bind k backend =>
      let i : Fin n := shardIndexForKey hash k
      let r := (st.setEntries i ((st.entries i).insert k ⟨backend, c.now + st.config.ttl⟩)).shouldCleanup i
      if r.2 then some r.1 else none
  | .remove _ => none

/-- The cleanup of a call, when there is one, finds at most `max_entries` unexpired entries. -/
def CleanupFits (st : StickySessionState n) (c : StoreCall) : Prop :=
  ∀ st', st.cleanupAt hash c = some st' → totalLen (sweep c.now st'.entries) ≤ st'.config.maxEntries

instance (st : StickySessionState n) (c : StoreCall) : Decidable (st.CleanupFits hash c) :=
  inferInstanceAs (Decidable (∀ st' ∈ st.cleanupAt hash c, totalLen (sweep c.now st'.entries) ≤ st'.config.maxEntries))

/-- Every entry is in the shard that the hash of its key selects. -/
def Home (st : StickySessionState n) : Prop :=
  ∀ i k e, (st.entries i).get k = some e → i = shardIndexForKey hash k

end StickySessionState

/-- An entry as a stamped value. -/
def AffinityEntry.stamped (e : AffinityEntry) : Stamped Str := ⟨e.backend, e.expiresAt⟩

/-- The map that the shards stand for. -/
def shardMap {n : Nat} [NeZero n] (hash : AffinityMapKey → UInt64) (s : Fin n → Entries) :
    TtlMap AffinityMapKey Str :=
  fun k => ((s (StickySessionState.shardIndexForKey hash k)).get k).map AffinityEntry.stamped

/-- The map that the store stands for. -/
def StickySessionState.toMap {n : Nat} [NeZero n] (hash : AffinityMapKey → UInt64) (st : StickySessionState n) :
    TtlMap AffinityMapKey Str := shardMap hash st.entries

/-- The reference: one map that runs no cleanup and has no capacity. -/
def reference (ttl : Nat) (m : TtlMap AffinityMapKey Str) (c : StoreCall) :
    TtlMap AffinityMapKey Str × Option Str := m.exec ttl c.now c.op

end NeemataProxy.Routing
