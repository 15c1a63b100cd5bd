import NeemataProxy.Router.Lemmas.Capacity

/-!
# Theorems about the router

The affinity store refines a map whose entries expire, and stays bounded.
-/

namespace NeemataProxy.Routing

open Lib

/-! ## The affinity store -/

section Store

variable {n : Nat} [NeZero n]

/-- The sharded store refines the reference map: each key lives in its own shard, every answer is an answer of
the reference, and all answers agree when no cleanup finds more unexpired entries than the capacity. -/
theorem store_refines_reference (hash : AffinityMapKey → UInt64) (config : StickySessionConfig)
    (calls : List StoreCall) (htime : calls.Pairwise (fun c d => c.now ≤ d.now)) :
    let st := StickySessionState.new n config
    let answers := (run (StickySessionState.exec hash) st calls).2
    let expected := (run (reference config.ttl) TtlMap.empty calls).2
    (run (StickySessionState.exec hash) st calls).1.Home hash ∧
      List.Forall₂ (fun a b => ∀ v, a = some v → b = some v) answers expected ∧
      (Along (StickySessionState.exec hash) (StickySessionState.CleanupFits hash) st calls → answers = expected) := by
  intro st answers expected
  have hsub : TtlMap.Sub (st.toMap hash) TtlMap.empty := fun k e h => by
    simp [st, StickySessionState.toMap, shardMap, StickySessionState.entries, StickySessionState.new] at h
  refine ⟨?_, ?_, fun hfits => ?_⟩
  · refine run_invariant (StickySessionState.Home hash) (fun s c h => home_exec hash h c) ?_ calls
    intro i k e h
    simp [st, StickySessionState.entries, StickySessionState.new] at h
  · -- entries are only lost: the store stands for a part of the reference map
    refine run_simulates StoreCall.now (fun _ s m => s.config = config ∧ TtlMap.Sub (s.toMap hash) m) ?_
      (c := 0) ⟨rfl, hsub⟩ (by simp) htime (along_true _ _ _)
    rintro _ s m c ⟨rfl, hs⟩ _ _
    obtain ⟨m', h₁, h₂, h₃, _⟩ := exec_refines hash s c
    obtain ⟨h₄, h₅⟩ := TtlMap.sub_exec s.config.ttl c.now c.op (h₁.trans hs)
    exact ⟨⟨by simp, h₂.trans h₄⟩, fun v hv => h₅ v (h₃ ▸ hv)⟩
  · -- and only expired ones are lost
    rw [← List.forall₂_eq_eq_eq]
    refine run_simulates StoreCall.now (fun c s m => s.config = config ∧ TtlMap.Sub (s.toMap hash) m ∧
        TtlMap.Covers c (s.toMap hash) m) ?_
      (c := 0) ⟨rfl, hsub, fun k e h => by simp [TtlMap.empty] at h⟩ (by simp) htime hfits
    rintro c₀ s m c ⟨rfl, hs, hc⟩ htime hfit
    obtain ⟨m', h₁, h₂, h₃, h₄⟩ := exec_refines hash s c
    obtain ⟨h₅, h₆⟩ := h₄ hfit
    obtain ⟨h₇, h₈⟩ := TtlMap.covers_exec s.config.ttl c.op (h₁.trans hs) (h₅.trans (hc.mono htime))
    exact ⟨⟨by simp, h₂.trans (TtlMap.sub_exec s.config.ttl c.now c.op (h₁.trans hs)).1, h₆.trans h₇⟩,
      h₃.trans h₈⟩

/-- A session that is bound and looked up again, before and after it expires. -/
def sampleCalls : List StoreCall :=
  let key : AffinityMapKey := ⟨Str.lit "app", .http1, Str.lit "client"⟩
  let backend := Str.lit "127.0.0.1:3000"
  [⟨1, .stored, .bind key backend⟩, ⟨5, .stored, .lookup key {backend}⟩, ⟨20, .stored, .lookup key {backend}⟩]

def sampleConfig : StickySessionConfig where
  enabled := true
  cookieName := Str.lit "nmt_affinity"
  headerName := Str.lit "x-nmt-affinity-key"
  ttl := 10
  maxEntries := 1
  cookieSecure := false

theorem store_refines_reference_sample :
    let answers := (run (StickySessionState.exec (fun _ => 7)) (StickySessionState.new 4 sampleConfig) sampleCalls).2
    let expected := (run (reference 10) TtlMap.empty sampleCalls).2
    answers = [none, some (Str.lit "127.0.0.1:3000"), none] ∧
      List.Forall₂ (fun a b => ∀ v, a = some v → b = some v) answers expected :=
  ⟨by decide, (store_refines_reference (n := 4) (fun _ => 7) sampleConfig sampleCalls (by decide)).2.1⟩

/-- After every run of calls the store of 64 shards holds at most `max_entries + 64 * 127` entries. -/
theorem store_bounded (hash : AffinityMapKey → UInt64) (config : StickySessionConfig) (calls : List StoreCall) :
    totalLen (run (StickySessionState.exec hash) (StickySessionState.new stickyShardCount config) calls).1.entries
      ≤ config.maxEntries + 64 * 127 := by
  have hinit : (StickySessionState.new stickyShardCount config).Bounded := by
    simp [StickySessionState.Bounded, totalLen, StickySessionState.entries, StickySessionState.new]
  have hinv := run_invariant (fun st : StickySessionState stickyShardCount => st.config = config ∧ st.Bounded)
    (fun s c h => ⟨(StickySessionState.config_exec hash s c).trans h.1, StickySessionState.bounded_exec hash h.2 c⟩)
    ⟨rfl, hinit⟩ calls
  obtain ⟨hconfig, hbound⟩ := hinv
  have hslack := StickySessionState.slack_le
    (run (StickySessionState.exec hash) (StickySessionState.new stickyShardCount config) calls).1
  unfold StickySessionState.Bounded at hbound
  rw [hconfig] at hbound
  unfold stickyShardCount at *
  omega

end Store

end NeemataProxy.Routing
