import NeemataProxy.Router.Lemmas.Recency
import NeemataProxy.Router.Theorems

/-!
# Eviction drops what has not been used for longest

Behind a use of a key its entry is the last to expire. Later uses of other keys put entries behind it, so as long as these
are fewer than the capacity, no cleanup drops it.
-/

namespace NeemataProxy.Routing

open Lib

/-- The keys that the calls bound, or found. -/
def touchedKeys (calls : List StoreCall) (answers : List (Option Str)) : Finset AffinityMapKey :=
  ((calls.zip answers).filterMap fun p => p.1.op.touched p.2).toFinset

/-- The call neither removes `k` nor looks it up without allowing `b`. -/
def StoreCall.Spares (k : AffinityMapKey) (b : Str) (c : StoreCall) : Prop :=
  c.op ≠ .remove k ∧ ∀ allowed, c.op = .lookup k allowed → b ∈ allowed

/-- The call binds `k` to `b`, or finds `b` for it. -/
def StoreCall.Uses (k : AffinityMapKey) (b : Str) (c : StoreCall) (answer : Option Str) : Prop :=
  c.op = .bind k b ∨ (∃ allowed, c.op = .lookup k allowed) ∧ answer = some b

theorem touchedKeys_cons (c : StoreCall) (answer : Option Str) (calls : List StoreCall) (answers : List (Option Str)) :
    touchedKeys (c :: calls) (answer :: answers) = (c.op.touched answer).toFinset ∪ touchedKeys calls answers := by
  ext k
  cases h : c.op.touched answer <;> simp [touchedKeys, h]

section Store

variable {n : Nat} [NeZero n] (hash : AffinityMapKey → UInt64)

theorem home_run {st : StickySessionState n} (h : st.Home hash) (calls : List StoreCall) :
    (run (StickySessionState.exec hash) st calls).1.Home hash ∧
      (run (StickySessionState.exec hash) st calls).1.config = st.config :=
  run_invariant (fun s : StickySessionState n => s.Home hash ∧ s.config = st.config)
    (fun s c h => ⟨home_exec hash h.1 c, (StickySessionState.config_exec hash s c).trans h.2⟩) ⟨h, rfl⟩ calls

/-- After earlier calls, every entry expires earlier than what is used now. -/
theorem aged_run {x : Nat} {st : StickySessionState n} (hhome : st.Home hash) (haged : TtlMap.Aged x (st.toMap hash))
    {calls : List StoreCall} (htime : ∀ c ∈ calls, c.now + st.config.ttl < x) :
    TtlMap.Aged x ((run (StickySessionState.exec hash) st calls).1.toMap hash) := by
  induction calls generalizing st with
  | nil => exact haged
  | cons c calls ih =>
      have hstep := haged.call (exec_evicting hash hhome c) (htime c List.mem_cons_self)
      refine ih (home_exec hash hhome c) hstep fun d hd => ?_
      rw [StickySessionState.config_exec]
      exact htime d (List.mem_cons_of_mem c hd)

/-- As long as calls spare the entry and use fewer other keys than the capacity, it stays among the youngest. -/
theorem fresh_run {k : AffinityMapKey} {e : Stamped Str} {E : Finset AffinityMapKey} {st : StickySessionState n}
    (hhome : st.Home hash) (hfresh : TtlMap.Fresh k e E (st.toMap hash)) {calls : List StoreCall}
    (htime : ∀ c ∈ calls, c.now < e.expiresAt) (hspares : ∀ c ∈ calls, c.Spares k e.value)
    (hkey : k ∉ touchedKeys calls (run (StickySessionState.exec hash) st calls).2)
    (htouched : touchedKeys calls (run (StickySessionState.exec hash) st calls).2 ⊆ E)
    (hcard : E.card < st.config.maxEntries) :
    TtlMap.Fresh k e E ((run (StickySessionState.exec hash) st calls).1.toMap hash) := by
  induction calls generalizing st with
  | nil => exact hfresh
  | cons c calls ih =>
      rw [run, touchedKeys_cons, Finset.mem_union, not_or] at hkey
      rw [run, touchedKeys_cons, Finset.union_subset_iff] at htouched
      obtain ⟨hremove, hallowed⟩ := hspares c List.mem_cons_self
      have hstep := hfresh.call (exec_evicting hash hhome c) (htime c List.mem_cons_self) hcard hremove hallowed
        (fun h => hkey.1 (by simp [h])) (fun k' hk' => htouched.1 (by simpa using hk'))
      refine ih (home_exec hash hhome c) hstep (fun d hd => htime d (List.mem_cons_of_mem c hd))
        (fun d hd => hspares d (List.mem_cons_of_mem c hd)) hkey.2 htouched.2 ?_
      rwa [StickySessionState.config_exec]

/-- Eviction is least recently used: a key that was used less than the TTL ago, that has neither been removed nor looked up
without its backend, is found as long as fewer other keys than the capacity have been used since. -/
theorem eviction_least_recently_used (config : StickySessionConfig) (hmax : 1 ≤ config.maxEntries)
    (before since : List StoreCall) (use last : StoreCall)
    (htime : (before ++ use :: (since ++ [last])).Pairwise (fun c d => c.now < d.now))
    (k : AffinityMapKey) (b : Str) (allowed : Finset Str) :
    let st := (run (StickySessionState.exec hash) (StickySessionState.new n config) before).1
    let used := st.exec hash use
    let later := run (StickySessionState.exec hash) used.1 since
    use.Uses k b used.2 → k ∉ touchedKeys since later.2 → (∀ c ∈ since, c.Spares k b) →
    (touchedKeys since later.2).card < config.maxEntries →
    last.op = .lookup k allowed → b ∈ allowed → last.now < use.now + config.ttl →
    (later.1.exec hash last).2 = some b := by
  intro st used later huse hkey hspares hcard hlookup hallowed hsoon
  obtain ⟨-, htail, hbefore⟩ := List.pairwise_append.mp htime
  obtain ⟨huseTime, hsinceTime⟩ := List.pairwise_cons.mp htail
  obtain ⟨-, -, hlastTime⟩ := List.pairwise_append.mp hsinceTime
  have hlast : use.now < last.now := huseTime last (by simp)
  have hnew : (StickySessionState.new n config).Home hash := fun i k e h => by
    simp [StickySessionState.entries, StickySessionState.new] at h
  have hempty : TtlMap.Aged (use.now + config.ttl) ((StickySessionState.new n config).toMap hash) := fun k e h => by
    simp [StickySessionState.toMap, shardMap, StickySessionState.entries, StickySessionState.new] at h
  obtain ⟨hstHome, hstConfig⟩ : st.Home hash ∧ st.config = config := home_run hash hnew before
  have haged : TtlMap.Aged (use.now + config.ttl) (st.toMap hash) := by
    refine aged_run hash hnew hempty fun c hc => ?_
    have := hbefore c hc use List.mem_cons_self
    exact Nat.add_lt_add_right this config.ttl
  -- behind the use nothing outlasts the entry, and the later uses are the only ones that will
  have hcall := exec_evicting hash hstHome use
  rw [hstConfig] at hcall
  have hfresh : TtlMap.Fresh k ⟨b, use.now + config.ttl⟩ (touchedKeys since later.2) (used.1.toMap hash) := by
    refine (TtlMap.Fresh.of_touch hmax (by omega) haged hcall ?_).mono (Finset.empty_subset _)
    exact huse
  have husedHome : used.1.Home hash := home_exec hash hstHome use
  have husedConfig : used.1.config = config := (StickySessionState.config_exec hash st use).trans hstConfig
  have hlater := fresh_run hash husedHome hfresh
    (fun c hc => (hlastTime c hc last (by simp)).trans hsoon) hspares hkey (Finset.Subset.refl _)
    (by rwa [husedConfig])
  obtain ⟨hlaterHome, hlaterConfig⟩ : later.1.Home hash ∧ later.1.config = used.1.config := home_run hash husedHome since
  have hanswer := exec_evicting hash hlaterHome last
  rw [hlaterConfig, husedConfig, hlookup] at hanswer
  exact hlater.hit hanswer hsoon hcard hallowed

end Store

/-- Room for two entries. -/
def pairConfig : StickySessionConfig := { sampleConfig with maxEntries := 2 }

def bindClient (now : Nat) (client : String) : StoreCall :=
  ⟨now, .stored, .bind ⟨Str.lit "app", .http1, Str.lit client⟩ (Str.lit "127.0.0.1:3000")⟩

/-- The client that was bound last but one is still found. -/
theorem eviction_least_recently_used_sample :
    let st := (run (StickySessionState.exec (fun _ => 7)) (StickySessionState.new 4 pairConfig) [bindClient 1 "a"]).1
    let used := (st.exec (fun _ => 7) (bindClient 2 "b")).1
    let later := (run (StickySessionState.exec (fun _ => 7)) used [bindClient 3 "c"]).1
    (later.exec (fun _ => 7) ⟨4, .stored, .lookup ⟨Str.lit "app", .http1, Str.lit "b"⟩ {Str.lit "127.0.0.1:3000"}⟩).2
      = some (Str.lit "127.0.0.1:3000") :=
  eviction_least_recently_used (n := 4) (fun _ => 7) pairConfig (by decide) [bindClient 1 "a"] [bindClient 3 "c"]
    (bindClient 2 "b") ⟨4, .stored, .lookup ⟨Str.lit "app", .http1, Str.lit "b"⟩ {Str.lit "127.0.0.1:3000"}⟩ (by decide)
    ⟨Str.lit "app", .http1, Str.lit "b"⟩ (Str.lit "127.0.0.1:3000") {Str.lit "127.0.0.1:3000"} (.inl rfl) (by decide)
    (fun c hc => by
      rw [List.mem_singleton.mp hc]
      exact ⟨nofun, nofun⟩)
    (by decide) rfl (by decide) (by decide)

end NeemataProxy.Routing
