import NeemataProxy.Lib.HashMap
import NeemataProxy.Lb

/-!
# The affinity store (`StickySessionState` in `src/router.rs`)

The store is split into `n` shards; `hash` stands for `DefaultHasher`, readings of `Instant` are natural
numbers, and `ord` is the order in which a `HashMap` iterates. Each function takes the store and returns the
new one.
-/

namespace NeemataProxy.Routing

open Lib

/-- `StickySessionConfig`; `ttl` is in nanoseconds. -/
structure StickySessionConfig where
  enabled : Bool
  cookieName : Str
  headerName : Str
  ttl : Nat
  maxEntries : Nat
  cookieSecure : Bool
  deriving DecidableEq, Repr

structure AffinityMapKey where
  appName : Str
  transport : TransportKind
  affinityKey : Str
  deriving DecidableEq, Repr

structure AffinityEntry where
  backend : Str
  expiresAt : Nat
  deriving DecidableEq, Repr

/-- The entries of one shard. -/
abbrev Entries := HashMap AffinityMapKey AffinityEntry

structure StickyShard where
  entries : Entries
  opCounter : UInt64

structure StickySessionState (n : Nat) where
  config : StickySessionConfig
  shards : Fin n → StickyShard
  keyCounter : UInt64

def stickyShardCount : Nat := 64

instance : NeZero stickyShardCount := ⟨by decide⟩

/-- The store that `Router::new` builds. -/
def StickySessionState.new (n : Nat) (config : StickySessionConfig) : StickySessionState n where
  config := config
  shards := fun _ => ⟨.empty, 0⟩
  keyCounter := 1

/-- `EvictionItem`; the heap orders items by expiry and then by the order of their insertion. -/
structure EvictionItem (n : Nat) where
  expiresAt : Nat
  sequence : Nat
  shardIndex : Fin n
  key : AffinityMapKey

def EvictionItem.cmp {n : Nat} (a b : EvictionItem n) : Ordering :=
  (compare a.expiresAt b.expiresAt).then (compare a.sequence b.sequence)

/-! ## `cleanup_global` -/

section Cleanup

variable {n : Nat} (ord : IterOrder (AffinityMapKey × AffinityEntry))

/-- `entries.retain(|_, entry| entry.expires_at > now)` on every shard. -/
def sweep (now : Nat) (s : Fin n → Entries) : Fin n → Entries :=
  fun i => (s i).retain (fun _ e => now < e.expiresAt)

/-- The number of entries over all shards. -/
def totalLen (s : Fin n → Entries) : Nat := ∑ i, (s i).len

/-- Every entry with its shard, shard by shard. -/
def listed (s : Fin n → Entries) : List (Fin n × AffinityMapKey × AffinityEntry) :=
  (List.finRange n).flatMap (fun i => (ord.visit (s i).entries).map (fun e => (i, e)))

/-- The items that are pushed onto the heap. -/
def evictionCandidates (s : Fin n → Entries) : List (EvictionItem n) :=
  (listed ord s).zipIdx.map (fun p => ⟨p.1.2.2.expiresAt, p.2, p.1.1, p.1.2.1⟩)

/-- `shard_guards[i].remove(key)`. -/
def removeAt (s : Fin n → Entries) (i : Fin n) (k : AffinityMapKey) : Fin n → Entries :=
  Function.update s i ((s i).remove k)

/-- The loop `while removed < overflow` over the items in the order the heap returns them. -/
def evictOldest (overflow : Nat) :
    List (EvictionItem n) → Nat → (Fin n → Entries) → (Fin n → Entries) × Nat
  | [], removed, s => (s, removed)
  | c :: rest, removed, s =>
      if removed < overflow then
        match (s c.shardIndex).get c.key with
        | some e =>
            if e.expiresAt = c.expiresAt then evictOldest overflow rest (removed + 1) (removeAt s c.shardIndex c.key)
            else evictOldest overflow rest removed s
        | none => evictOldest overflow rest removed s
      else (s, removed)

/-- `while remaining > 0` of the fallback on one shard: drop the first key, as long as there is one. -/
def dropFirst : Nat → Entries → Entries × Nat
  | 0, m => (m, 0)
  | remaining + 1, m =>
      match (ord.visit m.entries).head? with
      | some e => dropFirst remaining (m.remove e.1)
      | none => (m, remaining + 1)

/-- The fallback loop over the shards. -/
def evictArbitrary : List (Fin n) → Nat → (Fin n → Entries) → Fin n → Entries
  | [], _, s => s
  | i :: is, remaining, s =>
      let r := dropFirst ord remaining (s i)
      let s' := Function.update s i r.1
      if r.2 = 0 then s' else evictArbitrary is r.2 s'

/-- What `cleanup_global` does to the entries. -/
def cleanupEntries (maxEntries now : Nat) (s : Fin n → Entries) : Fin n → Entries :=
  let swept := sweep now s
  let current := totalLen swept
  if current ≤ maxEntries then swept
  else
    let overflow := current - maxEntries
    let r := evictOldest overflow (popOrder EvictionItem.cmp (evictionCandidates ord swept)) 0 swept
    if overflow ≤ r.2 then r.1
    else evictArbitrary ord (List.finRange n) (overflow - r.2) r.1

end Cleanup

namespace StickySessionState

variable {n : Nat} (hash : AffinityMapKey → UInt64) (ord : IterOrder (AffinityMapKey × AffinityEntry))

/-- The entries of every shard. -/
def entries (st : StickySessionState n) : Fin n → Entries := fun i => (st.shards i).entries

/-- The counter of every shard. -/
def counters (st : StickySessionState n) : Fin n → UInt64 := fun i => (st.shards i).opCounter

/-- The store with other entries in its shards. -/
def withEntries (st : StickySessionState n) (s : Fin n → Entries) : StickySessionState n :=
  { st with shards := fun i => { st.shards i with entries := s i } }

/-- The store with other entries in one shard. -/
def setEntries (st : StickySessionState n) (i : Fin n) (m : Entries) : StickySessionState n :=
  st.withEntries (Function.update st.entries i m)

def cleanupGlobal (now : Nat) (st : StickySessionState n) : StickySessionState n :=
  st.withEntries (cleanupEntries ord st.config.maxEntries now st.entries)

def shardIndexForKey [NeZero n] (k : AffinityMapKey) : Fin n := Fin.ofNat n (hash k).toNat

/-- `op_counter.fetch_add(1).is_multiple_of(128)`. -/
def shouldCleanup (st : StickySessionState n) (i : Fin n) : StickySessionState n × Bool :=
  let shard := st.shards i
  ({ st with shards := Function.update st.shards i { shard with opCounter := shard.opCounter + 1 } },
    shard.opCounter.toNat % 128 = 0)

/-- The `match` of `lookup` on the entries of the shard. -/
def lookupEntry (ttl now : Nat) (k : AffinityMapKey) (allowed : Finset Str) (m : Entries) :
    Entries × Option Str :=
  match m.get k with
  | some e =>
      if now < e.expiresAt ∧ e.backend ∈ allowed then (m.insert k { e with expiresAt := now + ttl }, some e.backend)
      else (m.remove k, none)
  | none => (m, none)

variable [NeZero n]

def lookup (now : Nat) (appName : Str) (transport : TransportKind) (affinityKey : Str) (allowed : Finset Str)
    (st : StickySessionState n) : StickySessionState n × Option Str :=
  let k : AffinityMapKey := ⟨appName, transport, affinityKey⟩
  let i : Fin n := shardIndexForKey hash k
  let r := st.shouldCleanup i
  let st' := if r.2 then r.1.cleanupGlobal ord now else r.1
  let l := lookupEntry st.config.ttl now k allowed (st'.entries i)
  (st'.setEntries i l.1, l.2)

def bind (now : Nat) (appName : Str) (transport : TransportKind) (affinityKey : Str) (backend : Str)
    (st : StickySessionState n) : StickySessionState n :=
  let k : AffinityMapKey := ⟨appName, transport, affinityKey⟩
  let i : Fin n := shardIndexForKey hash k
  let st' := st.setEntries i ((st.entries i).insert k ⟨backend, now + st.config.ttl⟩)
  let r := st'.shouldCleanup i
  if r.2 then r.1.cleanupGlobal ord now else r.1

def remove (appName : Str) (transport : TransportKind) (affinityKey : Str) (st : StickySessionState n) :
    StickySessionState n :=
  let k : AffinityMapKey := ⟨appName, transport, affinityKey⟩
  let i : Fin n := shardIndexForKey hash k
  st.setEntries i ((st.entries i).remove k)

omit [NeZero n]

/-- `now` is the wall clock in nanoseconds since the epoch, zero before it. -/
def generateAffinityKey (now : Nat) (st : StickySessionState n) : StickySessionState n × Str :=
  ({ st with keyCounter := st.keyCounter + 1 }, Str.hex now ++ Str.hex st.keyCounter.toNat)

def cookieHeaderValue (st : StickySessionState n) (affinityKey : Str) : Str :=
  let maxAgeSeconds := Str.decimal (max (st.config.ttl / 1000000000) 1)
  let value := st.config.cookieName ++ '=' :: affinityKey ++ Str.lit "; Max-Age=" ++ maxAgeSeconds
    ++ Str.lit "; Path=/; HttpOnly; SameSite=Lax"
  if st.config.cookieSecure then value ++ Str.lit "; Secure" else value

end StickySessionState

end NeemataProxy.Routing
