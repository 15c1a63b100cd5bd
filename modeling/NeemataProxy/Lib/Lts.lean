import Mathlib

/-!
# Reachable states

A transition system is a relation `step` between states, with a label on every step; `allow` says which steps a
run may take.
-/

namespace Lib

variable {S L : Type*}

/-- `s` is reached from `s₀` by steps that are allowed in the state in which they are taken. -/
inductive Reach (step : S → L → S → Prop) (allow : S → L → Prop) (s₀ : S) : S → Prop where
  | refl : Reach step allow s₀ s₀
  | tail {s s' : S} {l : L} : Reach step allow s₀ s → allow s l → step s l s' → Reach step allow s₀ s'

namespace Reach

variable {step : S → L → S → Prop} {allow allow' : S → L → Prop} {s₀ s s' : S}

/-- What holds at first and is kept by every allowed step holds in every reached state. -/
theorem invariant {P : S → Prop} (hinit : P s₀) (hstep : ∀ s l s', P s → allow s l → step s l s' → P s')
    (h : Reach step allow s₀ s) : P s := by
  induction h with
  | refl => exact hinit
  | tail _ ha hs ih => exact hstep _ _ _ ih ha hs

theorem mono (hle : ∀ s l, allow s l → allow' s l) (h : Reach step allow s₀ s) : Reach step allow' s₀ s := by
  induction h with
  | refl => exact .refl
  | tail _ ha hs ih => exact .tail ih (hle _ _ ha) hs

theorem trans {s₁ : S} (h : Reach step allow s₀ s₁) (h' : Reach step allow s₁ s) : Reach step allow s₀ s := by
  induction h' with
  | refl => exact h
  | tail _ ha hs ih => exact .tail ih ha hs

end Reach

/-- The last state of a run of an executable system, when all its steps are allowed. -/
def runAllowed (next : S → L → Option S) (allow : S → L → Prop) [∀ s l, Decidable (allow s l)] :
    S → List L → Option S
  | s, [] => some s
  | s, l :: ls => if allow s l then (next s l).bind (fun s' => runAllowed next allow s' ls) else none

theorem Reach.of_runAllowed {next : S → L → Option S} {allow : S → L → Prop} [∀ s l, Decidable (allow s l)]
    {s s' : S} {ls : List L} (h : runAllowed next allow s ls = some s') :
    Reach (fun s l s' => next s l = some s') allow s s' := by
  induction ls generalizing s with
  | nil => obtain rfl := Option.some.inj h; exact .refl
  | cons l ls ih =>
      simp only [runAllowed] at h
      split at h
      · obtain ⟨s₁, h₁, h₂⟩ := Option.bind_eq_some_iff.mp h
        exact (Reach.tail .refl ‹_› h₁).trans (ih h₂)
      · simp at h

/-- An executed run leads to a state with the checked property. -/
theorem Reach.exists_of_any {next : S → L → Option S} {allow : S → L → Prop} [∀ s l, Decidable (allow s l)]
    {s : S} {ls : List L} {check : S → Bool} (h : (runAllowed next allow s ls).any check = true) :
    ∃ s', Reach (fun s l s' => next s l = some s') allow s s' ∧ check s' = true := by
  obtain ⟨s', hrun, hcheck⟩ := (Option.any_eq_true _ _).mp h
  exact ⟨s', .of_runAllowed hrun, hcheck⟩

end Lib
