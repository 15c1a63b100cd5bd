import NeemataProxy.Lib.Hex
import NeemataProxy.Lib.Lts
import NeemataProxy.Router.Sticky

/-!
# Generated affinity keys

A call of `generate_affinity_key` takes a tick of the counter and then reads the wall clock; threads may take these steps in
any order. The key is the reading followed by the tick, both in hexadecimal and without a separator.
-/

namespace NeemataProxy.Routing

open Lib

/-! ## Concurrent calls -/

/-- `duration_since(UNIX_EPOCH).unwrap_or_default().as_nanos()` of a reading in nanoseconds from the epoch. -/
def sinceEpoch (reading : Int) : Nat := reading.toNat

/-- A call that has its tick; it returns once it has its reading. -/
structure KeyCall where
  tick : UInt64
  reading : Option Int
  deriving DecidableEq

def KeyCall.key (c : KeyCall) : Option Str := c.reading.map fun r => Str.hex (sinceEpoch r) ++ Str.hex c.tick.toNat

theorem KeyCall.key_of_reading {c : KeyCall} {r : Int} (h : c.reading = some r) :
    c.key = some (Str.hex (sinceEpoch r) ++ Str.hex c.tick.toNat) := by
  rw [key, h]
  rfl

/-- A store, and the calls in the order of their ticks. -/
structure KeyCalls (n : Nat) where
  store : StickySessionState n
  calls : List KeyCall

inductive KeyLabel where
  /-- `key_counter.fetch_add(1)`. -/
  | fetchAdd
  /-- `SystemTime::now()` of a call. -/
  | readClock (i : Nat) (reading : Int)

namespace KeyCalls

variable {n : Nat}

def new (st : StickySessionState n) : KeyCalls n := ⟨st, []⟩

def step (w : KeyCalls n) : KeyLabel → Option (KeyCalls n)
  | .fetchAdd =>
      some ⟨{ w.store with keyCounter := w.store.keyCounter + 1 }, w.calls ++ [⟨w.store.keyCounter, none⟩]⟩
  | .readClock i reading =>
      match w.calls[i]? with
      | some ⟨tick, none⟩ => some { w with calls := w.calls.set i ⟨tick, some reading⟩ }
      | _ => none

def Steps (w : KeyCalls n) (l : KeyLabel) (w' : KeyCalls n) : Prop := w.step l = some w'

/-- Different calls return different keys. -/
def Distinct (w : KeyCalls n) : Prop :=
  ∀ (i j : Nat) (a b : KeyCall) (key : Str), w.calls[i]? = some a → w.calls[j]? = some b → a.key = some key → b.key = some key → i = j

/-- No two calls have numbers that are made of each other by moving digits from the tick to the reading. -/
def Apart (w : KeyCalls n) : Prop :=
  ∀ (i j : Nat) (a b : KeyCall) (r s : Int) (d : Nat), w.calls[i]? = some a → w.calls[j]? = some b → a.reading = some r → b.reading = some s →
    ¬ Str.Shifts d (sinceEpoch r) a.tick.toNat (sinceEpoch s) b.tick.toNat

/-- The ticks count up from `first`. -/
structure Counted (first : UInt64) (w : KeyCalls n) : Prop where
  counter : w.store.keyCounter = first + UInt64.ofNat w.calls.length
  tick : ∀ (i : Nat) (c : KeyCall), w.calls[i]? = some c → c.tick = first + UInt64.ofNat i

variable {first : UInt64} {w w' : KeyCalls n} {l : KeyLabel}

/-- Without another step in between, the two steps are `generate_affinity_key`. -/
theorem step_step (w : KeyCalls n) (reading : Int) :
    (w.step .fetchAdd).bind (fun w₁ => w₁.step (.readClock w.calls.length reading)) =
      some ⟨(w.store.generateAffinityKey (sinceEpoch reading)).1, w.calls ++ [⟨w.store.keyCounter, some reading⟩]⟩ ∧
    KeyCall.key ⟨w.store.keyCounter, some reading⟩ = some (w.store.generateAffinityKey (sinceEpoch reading)).2 := by
  refine ⟨?_, rfl⟩
  simp [step, StickySessionState.generateAffinityKey]

theorem Counted.step (h : w.Counted first) (hstep : w.Steps l w') : w'.Counted first := by
  cases l with
  | fetchAdd =>
      obtain rfl := Option.some.inj hstep
      constructor
      · simp only [h.counter, List.length_append, List.length_singleton, UInt64.ofNat_add, UInt64.add_assoc]
        rfl
      · intro i c hc
        rcases Nat.lt_trichotomy i w.calls.length with hlt | rfl | hgt
        · rw [List.getElem?_append_left hlt] at hc
          exact h.tick i c hc
        · obtain rfl : (⟨w.store.keyCounter, none⟩ : KeyCall) = c := by simpa using hc
          exact h.counter
        · rw [List.getElem?_eq_none (by simpa using hgt)] at hc
          cases hc
  | readClock i reading =>
      simp only [Steps, KeyCalls.step] at hstep
      split at hstep
      · rename_i tick hget
        obtain rfl := Option.some.inj hstep
        refine ⟨by simpa using h.counter, fun j c hc => ?_⟩
        by_cases hj : i = j
        · subst hj
          have hlt : i < w.calls.length := List.getElem?_eq_some_iff.mp hget |>.1
          obtain rfl : (⟨tick, some reading⟩ : KeyCall) = c := by simpa [hlt] using hc
          exact h.tick i ⟨tick, none⟩ hget
        · exact h.tick j c (by simpa [hj] using hc)
      · cases hstep

theorem counted_of_reach {st : StickySessionState n} (h : Reach Steps (fun _ _ => True) (new st) w) :
    w.Counted st.keyCounter := by
  refine Reach.invariant (P := fun w : KeyCalls n => w.Counted st.keyCounter) ?_ (fun _ _ _ h _ => h.step) h
  exact ⟨(UInt64.add_zero _).symm, nofun⟩

/-- Fewer than `2 ^ 64` ticks do not come round. -/
theorem Counted.inj (h : w.Counted first) (hlen : w.calls.length < 2 ^ 64) {i j : Nat} {a b : KeyCall}
    (ha : w.calls[i]? = some a) (hb : w.calls[j]? = some b) (hticks : a.tick.toNat = b.tick.toNat) : i = j := by
  have hi : i < w.calls.length := List.getElem?_eq_some_iff.mp ha |>.1
  have hj : j < w.calls.length := List.getElem?_eq_some_iff.mp hb |>.1
  rw [h.tick i a ha, h.tick j b hb, UInt64.toNat_add, UInt64.toNat_add, UInt64.toNat_ofNat', UInt64.toNat_ofNat'] at hticks
  have := first.toNat_lt
  omega

/-- Of fewer than `2 ^ 64` calls, in whatever order and at whatever times, all keys are distinct exactly when the readings
and ticks are apart. -/
theorem generated_keys_distinct_iff {st : StickySessionState n} (h : Reach Steps (fun _ _ => True) (new st) w)
    (hlen : w.calls.length < 2 ^ 64) : w.Distinct ↔ w.Apart := by
  have hcounted := counted_of_reach h
  constructor
  · intro hdistinct i j a b r s d ha hb hr hs hshifts
    have hsame := Str.hex_of_shifts hshifts
    obtain rfl := hdistinct i j a b _ ha hb (KeyCall.key_of_reading hr) (hsame ▸ KeyCall.key_of_reading hs)
    obtain rfl : a = b := Option.some.inj (ha.symm.trans hb)
    obtain rfl : r = s := Option.some.inj (hr.symm.trans hs)
    exact Nat.lt_irrefl _ hshifts.length_lt
  · intro hapart i j a b key ha hb hka hkb
    obtain ⟨r, hr, hka⟩ := Option.map_eq_some_iff.mp hka
    obtain ⟨s, hs, hkb⟩ := Option.map_eq_some_iff.mp hkb
    rcases Str.hex_append_eq_iff.mp (hka.trans hkb.symm) with ⟨-, hticks⟩ | ⟨d, hshifts⟩ | ⟨d, hshifts⟩
    · exact hcounted.inj hlen ha hb hticks
    · exact absurd hshifts (hapart i j a b r s d ha hb hr hs)
    · exact absurd hshifts (hapart j i b a s r d hb ha hs hr)

/-- Readings with the same number of digits, such as all between 2007 and 2553, make different keys. -/
theorem apart_of_length {k : Nat}
    (h : ∀ (i : Nat) (c : KeyCall) (r : Int), w.calls[i]? = some c → c.reading = some r → (Str.hex (sinceEpoch r)).length = k) : w.Apart := by
  intro i j a b r s d ha hb hr hs hshifts
  have hlt := hshifts.length_lt
  rw [h i a r ha hr, h j b s hb hs] at hlt
  exact Nat.lt_irrefl k hlt

/-! ## A clock that jumps -/

def keyStore : StickySessionState stickyShardCount :=
  .new stickyShardCount ⟨true, Str.lit "nmt_affinity", Str.lit "x-nmt-affinity-key", 600000000000, 20000, false⟩

/-- Seventeen calls; the first reads a time in 2025, and before the last one the clock jumps to 1973. -/
def jumpingRun : List KeyLabel :=
  List.replicate 17 .fetchAdd ++ [.readClock 0 0x187a3f2e00000001, .readClock 16 0x187a3f2e0000000]

/-- The first and the last call return the same key. -/
theorem generated_key_repeats : ∃ w a b, Reach Steps (fun _ _ => True) (new keyStore) w ∧ w.calls.length = 17 ∧
    w.calls[0]? = some a ∧ w.calls[16]? = some b ∧ a.key = some (Str.lit "187a3f2e000000011") ∧
    b.key = some (Str.lit "187a3f2e000000011") ∧ ¬ w.Distinct := by
  have hrun : (runAllowed step (fun _ _ => True) (new keyStore) jumpingRun).any (fun w => w.calls.length == 17 &&
      w.calls[0]? == some ⟨1, some 0x187a3f2e00000001⟩ && w.calls[16]? == some ⟨17, some 0x187a3f2e0000000⟩) = true := by
    decide +kernel
  obtain ⟨w, hw, hcheck⟩ := Reach.exists_of_any hrun
  simp only [Bool.and_eq_true, beq_iff_eq] at hcheck
  obtain ⟨⟨hlen, hfirst⟩, hlast⟩ := hcheck
  have hkey : KeyCall.key ⟨1, some 0x187a3f2e00000001⟩ = some (Str.lit "187a3f2e000000011") := by decide +kernel
  have hkey' : KeyCall.key ⟨17, some 0x187a3f2e0000000⟩ = some (Str.lit "187a3f2e000000011") := by decide +kernel
  exact ⟨w, _, _, hw, hlen, hfirst, hlast, hkey, hkey',
    fun hdistinct => absurd (hdistinct 0 16 _ _ _ hfirst hlast hkey hkey') (by decide)⟩

/-- Two threads that read the clock in the other order, which has gone back in between. -/
def overtakingRun : List KeyLabel :=
  [.fetchAdd, .fetchAdd, .readClock 1 0x187a3f2e00000001, .readClock 0 0x187a3f2e00000000]

theorem generated_keys_distinct_sample : ∃ w : KeyCalls stickyShardCount,
    w.calls = [⟨1, some 0x187a3f2e00000000⟩, ⟨2, some 0x187a3f2e00000001⟩] ∧ w.Distinct := by
  have hrun : (runAllowed step (fun _ _ => True) (new keyStore) overtakingRun).any (fun w =>
      w.calls == [⟨1, some 0x187a3f2e00000000⟩, ⟨2, some 0x187a3f2e00000001⟩]) = true := by decide +kernel
  obtain ⟨w, hw, hcalls⟩ := Reach.exists_of_any hrun
  have hcalls := beq_iff_eq.mp hcalls
  refine ⟨w, hcalls, (generated_keys_distinct_iff hw (by rw [hcalls]; decide)).mpr ?_⟩
  refine apart_of_length (k := 16) fun i c r hc hr => ?_
  rw [hcalls] at hc
  rcases List.mem_cons.mp (List.mem_of_getElem? hc) with rfl | hc
  · obtain rfl := Option.some.inj hr
    decide +kernel
  · obtain rfl := List.mem_singleton.mp hc
    obtain rfl := Option.some.inj hr
    decide +kernel

end KeyCalls

end NeemataProxy.Routing
