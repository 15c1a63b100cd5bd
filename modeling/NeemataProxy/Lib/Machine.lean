import Mathlib

/-!
# Runs of machines

A machine takes an input and returns its next state and an output.
-/

namespace Lib

variable {S T I O : Type*}

/-- The last state and the outputs of a run. -/
def run (step : S → I → S × O) : S → List I → S × List O
  | s, [] => (s, [])
  | s, i :: is => ((run step (step s i).1 is).1, (step s i).2 :: (run step (step s i).1 is).2)

/-- Every input of a run satisfies `P` in the state in which it is taken. -/
def Along (step : S → I → S × O) (P : S → I → Prop) : S → List I → Prop
  | _, [] => True
  | s, i :: is => P s i ∧ Along step P (step s i).1 is

theorem run_invariant {step : S → I → S × O} (P : S → Prop) (hstep : ∀ s i, P s → P (step s i).1) {s : S}
    (h : P s) (is : List I) : P (run step s is).1 := by
  induction is generalizing s with
  | nil => exact h
  | cons i is ih => exact ih (hstep s i h)

/-- Two machines on the same timed inputs: a relation that each step keeps, moving on to the time of the input,
relates their outputs one by one. -/
theorem run_simulates (time : I → Nat) {step : S → I → S × O} {step' : T → I → T × O} {P : S → I → Prop}
    (R : Nat → S → T → Prop) {Q : O → O → Prop}
    (hstep : ∀ c s t i, R c s t → c ≤ time i → P s i →
      R (time i) (step s i).1 (step' t i).1 ∧ Q (step s i).2 (step' t i).2)
    {c : Nat} {s : S} {t : T} {is : List I} (h : R c s t) (htime : ∀ i ∈ is, c ≤ time i)
    (hmono : is.Pairwise (fun i j => time i ≤ time j)) (hP : Along step P s is) :
    List.Forall₂ Q (run step s is).2 (run step' t is).2 := by
  induction is generalizing c s t with
  | nil => exact .nil
  | cons i is ih =>
      obtain ⟨hi, his⟩ := List.pairwise_cons.mp hmono
      obtain ⟨hr, hq⟩ := hstep c s t i h (htime i List.mem_cons_self) hP.1
      exact .cons hq (ih hr hi his hP.2)

theorem along_true (step : S → I → S × O) (s : S) (is : List I) : Along step (fun _ _ => True) s is := by
  induction is generalizing s with
  | nil => trivial
  | cons i is ih => exact ⟨trivial, ih _⟩

end Lib
