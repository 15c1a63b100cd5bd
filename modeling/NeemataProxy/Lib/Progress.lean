import NeemataProxy.Lib.Lts

/-!
# Progress

What a system cannot avoid: a rank that every step lowers bounds all runs, and where some step is always possible they
stop only in the states that are wanted.
-/

namespace Lib

variable {S L : Type*} {step : S → L → S → Prop} {allow : S → L → Prop}

/-- Every run of allowed steps comes to a state with `P`: it neither goes on for ever without, nor gets stuck before. -/
inductive Inevitable (step : S → L → S → Prop) (allow : S → L → Prop) (P : S → Prop) : S → Prop where
  | now {s : S} (h : P s) : Inevitable step allow P s
  | later {s : S} (hmove : ∃ l s', allow s l ∧ step s l s')
      (hall : ∀ l s', allow s l → step s l s' → Inevitable step allow P s') : Inevitable step allow P s

/-- A rank that every step lowers, as long as every state of the invariant without `P` allows a step. -/
theorem Inevitable.of_rank {I P : S → Prop} (rank : S → Nat)
    (hkeep : ∀ s l s', I s → allow s l → step s l s' → I s' ∧ rank s' < rank s)
    (hmove : ∀ s, I s → ¬ P s → ∃ l s', allow s l ∧ step s l s') {s : S} (h : I s) : Inevitable step allow P s := by
  induction hn : rank s using Nat.strong_induction_on generalizing s with
  | _ n ih =>
      by_cases hP : P s
      · exact .now hP
      · refine .later (hmove s h hP) fun l s' hallow hstep => ?_
        obtain ⟨hinv, hlt⟩ := hkeep s l s' h hallow hstep
        exact ih (rank s') (hn ▸ hlt) hinv rfl

/-- The rank of a family of processes, one of which takes a step. -/
theorem sum_rank_update {P T : Type*} [DecidableEq P] (rank : T → Nat) (procs : P → T) {ps : Finset P} {p : P} (hp : p ∈ ps)
    (t : T) :
    (∑ q ∈ ps, rank (Function.update procs p t q)) + rank (procs p) = (∑ q ∈ ps, rank (procs q)) + rank t := by
  have hafter : (∑ q ∈ ps, rank (Function.update procs p t q)) = rank t + ∑ q ∈ ps \ {p}, rank (procs q) := by
    simp only [Function.apply_update (fun _ => rank), Finset.sum_update_of_mem hp]
  have hbefore := Finset.sum_eq_add_sum_sdiff_singleton_of_mem hp fun q => rank (procs q)
  omega

theorem Inevitable.mono {P Q : S → Prop} (hle : ∀ s, P s → Q s) {s : S} (h : Inevitable step allow P s) :
    Inevitable step allow Q s := by
  induction h with
  | now hP => exact .now (hle _ hP)
  | later hmove _ ih => exact .later hmove ih

/-- What is inevitable stays so when other steps can take the place of those that are ruled out. -/
theorem Inevitable.restrict {allow' : S → L → Prop} {P : S → Prop} (hle : ∀ s l, allow' s l → allow s l)
    (hmove : ∀ s l s', allow s l → step s l s' → ∃ l' s'', allow' s l' ∧ step s l' s'') {s : S}
    (h : Inevitable step allow P s) : Inevitable step allow' P s := by
  induction h with
  | now hP => exact .now hP
  | later hsome _ ih =>
      obtain ⟨l, s', hallow, hstep⟩ := hsome
      exact .later (hmove _ l s' hallow hstep) fun l s' hallow' hstep => ih l s' (hle _ _ hallow') hstep

/-- What is inevitable comes about in a state that is reached. -/
theorem Inevitable.reached {P : S → Prop} {s : S} (h : Inevitable step allow P s) :
    Inevitable step allow (fun s' => P s' ∧ Reach step allow s s') s := by
  induction h with
  | now hP => exact .now ⟨hP, .refl⟩
  | later hmove _ ih =>
      refine .later hmove fun l s₁ hallow hstep => ?_
      exact (ih l s₁ hallow hstep).mono fun s' ⟨hP, hrun⟩ => ⟨hP, (Reach.tail .refl hallow hstep).trans hrun⟩

end Lib
