import NeemataProxy.Lib.Lts
import NeemataProxy.Proxy.Step

/-!
# Runs of a proxy
-/

namespace NeemataProxy

open Lib Routing Options

/-- The steps of a proxy as a relation. -/
def Steps (w : World) (l : Label) (w' : World) : Prop := step w l = some w'

/-- Every step is allowed. -/
def Free (_ : World) (_ : Label) : Prop := True

instance (w : World) (l : Label) : Decidable (Free w l) := isTrue trivial

/-- The call has not begun or has ended. -/
def Pc.quiet : Pc → Bool
  | .idle | .done _ => true
  | _ => false

/-- No call is in flight. -/
def World.Quiescent (w : World) : Prop := ∀ c, (w.calls c).quiet

theorem calls_step {w w' : World} {l : Label} (h : step w l = some w') {c : CallId}
    (hc : ∀ p ∈ l.call, p.1 ≠ c) : w'.calls c = w.calls c := by
  rcases step_cases h with ⟨c', choice, s', pc', hl, -, rfl⟩ | ⟨t, rfl, -, rfl⟩
  · exact Function.update_of_ne (hc _ hl).symm _ _
  · rfl

theorem exists_advance {allow : World → Label → Prop} {w : World} {c : CallId} {choice : Choice} {s' : Shared} {pc' : Pc}
    (hallow : allow w (.advance c choice)) (h : w.shared.advance c choice (w.calls c) = some (s', pc')) :
    ∃ w', Reach Steps allow w w' ∧ w'.calls c = pc' ∧ w'.shared = s' := by
  have hstep : Steps w (.advance c choice) ⟨s', Function.update w.calls c pc'⟩ := by simp [Steps, step, h]
  exact ⟨_, .tail .refl hallow hstep, Function.update_self .., rfl⟩

/-- A run of calls below `n` can be executed; the calls from `n` on do not begin in it. -/
theorem reach_of_runAllowed {allow allow' : World → Label → Prop} [∀ w l, Decidable (allow' w l)] {n : Nat}
    (himp : ∀ w l, (∀ c, n ≤ c → w.calls c = .idle) → allow' w l → allow w l) {ls : List Label}
    (hls : ∀ l ∈ ls, ∀ p ∈ l.call, p.1 < n) {w w' : World} (hidle : ∀ c, n ≤ c → w.calls c = .idle)
    (h : runAllowed step allow' w ls = some w') : Reach Steps allow w w' ∧ ∀ c, n ≤ c → w'.calls c = .idle := by
  induction ls generalizing w with
  | nil => obtain rfl := Option.some.inj h; exact ⟨.refl, hidle⟩
  | cons l ls ih =>
      simp only [runAllowed] at h
      split at h
      · obtain ⟨w₁, h₁, h₂⟩ := Option.bind_eq_some_iff.mp h
        have hidle₁ : ∀ c, n ≤ c → w₁.calls c = .idle := fun c hc => by
          rw [calls_step h₁ fun p hp => Nat.ne_of_lt (Nat.lt_of_lt_of_le (hls l List.mem_cons_self p hp) hc), hidle c hc]
        obtain ⟨hreach, hrest⟩ := ih (fun l' hl' => hls l' (List.mem_cons_of_mem _ hl')) hidle₁ h₂
        exact ⟨(Reach.tail .refl (himp w l hidle ‹_›) h₁).trans hreach, hrest⟩
      · simp at h

/-- A run of calls below `n` from a new proxy, up to a state with the checked property. -/
theorem reach_of_check (allow allow' : World → Label → Prop) [∀ w l, Decidable (allow' w l)] (ls : List Label)
    (parsed : ProxyOptionsParsed) (n : Nat) (check : World → Bool)
    (himp : ∀ w l, (∀ c, n ≤ c → w.calls c = .idle) → allow' w l → allow w l) (hls : ∀ l ∈ ls, ∀ p ∈ l.call, p.1 < n)
    (h : (runAllowed step allow' (.new parsed) ls).any check = true) :
    ∃ w, Reach Steps allow (.new parsed) w ∧ (∀ c, n ≤ c → w.calls c = .idle) ∧ check w = true := by
  cases hrun : runAllowed step allow' (.new parsed) ls with
  | none => simp [hrun] at h
  | some w =>
      rw [hrun, Option.any_some] at h
      obtain ⟨hreach, hidle⟩ := reach_of_runAllowed himp hls (fun _ _ => rfl) hrun
      exact ⟨w, hreach, hidle, h⟩

theorem quiescent_of_check {w : World} {n : Nat} (hidle : ∀ c, n ≤ c → w.calls c = .idle)
    (h : ∀ c ∈ List.range n, (w.calls c).quiet = true) : w.Quiescent := by
  intro c
  by_cases hc : c < n
  · exact h c (List.mem_range.mpr hc)
  · rw [hidle c (Nat.le_of_not_lt hc)]
    rfl

theorem proxy_new {options : ProxyOptions} {w : World} (h : Proxy.new options = .ok w) :
    ∃ parsed, parseProxyOptions options = .ok parsed ∧ w = World.new parsed := by
  unfold Proxy.new at h
  cases hp : parseProxyOptions options with
  | error e => simp [hp, Except.map] at h
  | ok parsed => exact ⟨parsed, rfl, by simpa [hp, Except.map] using h.symm⟩

/-! ## A sample proxy -/

/-- A proxy with one application. -/
def sampleOptions : ProxyOptions where
  listen := Str.lit "127.0.0.1:0"
  tls := none
  applications := [⟨Str.lit "app", .default, none⟩]
  healthCheckIntervalMs := none
  stickySessions := none
  limits := .null
  timeouts := none

def sampleParsed : ProxyOptionsParsed where
  listen := Str.lit "127.0.0.1:0"
  tls := none
  applications := [⟨Str.lit "app", .default, none⟩]
  healthCheckIntervalMs := 5000
  stickySessions := ⟨false, Str.lit "nmt_affinity", Str.lit "x-nmt-affinity-key", 600000, 20000⟩
  limits := .disabled
  timeouts := ⟨10000, 60000, 5000, 60000, 60000, 75⟩

theorem sample_new : Proxy.new sampleOptions = .ok (World.new sampleParsed) := rfl

def sampleUpstream : UpstreamOptions :=
  .port ⟨Str.lit "port", Str.lit "http", false, Str.lit "127.0.0.1", 8080⟩

/-- Everything outside works: setups succeed, and an upstream resolves to itself. -/
def sampleChoice : Choice where
  setup := .ok ⟨.ok (), .ok ⟨Str.lit "127.0.0.1", false, 4000⟩, .ok (), .ok ()⟩
  rebuild := .ok ⟨fun u => .ok [⟨u.hostname, false, u.port⟩], fun _ => .ok (), .stored, .stored⟩
  lbOrder := .stored
  poolOrder := .stored
  serviceOrder := .stored

/-- Call `c` begins. -/
def begins (c : CallId) (call : JsCall) : Label := .begin c call sampleChoice

/-- Call `c` takes `n` steps. -/
def steps (c : CallId) (n : Nat) : List Label := List.replicate n (.advance c sampleChoice)

end NeemataProxy
