import NeemataProxy.Lib.Locks
import NeemataProxy.Lib.Progress

/-!
# Programs that finish

Processes that take locks in ascending order cannot get stuck. When what an action puts in front weighs less than the action,
they cannot go on for ever either: all programs end, and all locks are free then.
-/

namespace Lib.LockState

variable {P L A S : Type*} [DecidableEq P] [LinearOrder L]

/-- Nothing is left to run, and no lock is held. -/
structure AtRest (w : LockState P L A S) : Prop where
  programs : ∀ p, w.program p = []
  locks : ∀ l, w.owner l = none

def programWeight (weight : LockInstr L A → Nat) (program : LockProgram L A) : Nat := (program.map weight).sum

/-- Every step has a weight, and an action weighs more than what it puts in front. -/
structure Weighs (exec : S → P → A → S × LockProgram L A) (weight : LockInstr L A → Nat) : Prop where
  positive : ∀ instr, 0 < weight instr
  front : ∀ s p a, programWeight weight (exec s p a).2 < weight (.act a)

/-- Finitely many processes have something to run. -/
def Finite (w : LockState P L A S) : Prop := ∃ ps : Finset P, ∀ p, w.Unfinished p → p ∈ ps

variable {exec : S → P → A → S × LockProgram L A} {weight : LockInstr L A → Nat} {w w' : LockState P L A S}

/-- A step makes the program of its process lighter and leaves the others. -/
theorem weight_next (hweight : Weighs exec weight) {p : P} (h : w.next exec p = some w') :
    ∃ new, w'.program = Function.update w.program p new ∧
      programWeight weight new < programWeight weight (w.program p) := by
  rcases next_cases h with ⟨l, rest, hprogram, -, rfl⟩ | ⟨l, rest, hprogram, rfl⟩ | ⟨a, rest, hprogram, rfl⟩
  · refine ⟨rest, rfl, ?_⟩
    have := hweight.positive (.acquire l)
    rw [hprogram, programWeight, programWeight, List.map_cons, List.sum_cons]
    omega
  · refine ⟨rest, rfl, ?_⟩
    have := hweight.positive (.release l)
    rw [hprogram, programWeight, programWeight, List.map_cons, List.sum_cons]
    omega
  · refine ⟨_, rfl, ?_⟩
    have := hweight.front w.shared p a
    rw [programWeight] at this
    rw [hprogram, programWeight, programWeight, List.map_append, List.sum_append, List.map_cons, List.sum_cons]
    omega

theorem unfinished_of_next {p : P} (h : w.next exec p = some w') : w.Unfinished p := by
  intro hnil
  simp [LockState.next, hnil] at h

theorem Finite.step {l : LockLabel P L A} (h : w.Finite) (hstep : w.stepOf exec l = some w') : w'.Finite := by
  obtain ⟨ps, hps⟩ := h
  cases l with
  | begin p program =>
      simp only [stepOf] at hstep
      split at hstep
      · obtain rfl := Option.some.inj hstep
        refine ⟨insert p ps, fun q hq => ?_⟩
        by_cases hqp : q = p
        · exact hqp ▸ Finset.mem_insert_self p ps
        · exact Finset.mem_insert_of_mem (hps q (by simpa [Unfinished, hqp] using hq))
      · cases hstep
  | step p =>
      refine ⟨ps, fun q hq => ?_⟩
      by_cases hqp : q = p
      · exact hps q (hqp ▸ unfinished_of_next hstep)
      · rcases next_cases hstep with ⟨_, _, -, -, rfl⟩ | ⟨_, _, -, rfl⟩ | ⟨_, _, -, rfl⟩
        all_goals exact hps q (by simpa [Unfinished, hqp] using hq)

variable [Fintype L] {needs : A → Finset L → Prop}

theorem AtRest.of_programs (h : w.Disciplined needs) (hall : ∀ p, w.program p = []) : w.AtRest := by
  refine ⟨hall, fun l => ?_⟩
  cases howner : w.owner l with
  | none => rfl
  | some p =>
      have hp := h p
      rw [hall p] at hp
      have hheld : w.held p = ∅ := hp
      exact absurd (hheld ▸ mem_held.mpr howner) (Finset.notMem_empty l)

/-- From a disciplined state every run in which no program begins comes to rest. -/
theorem Disciplined.finishes (h : w.Disciplined needs) (hweight : Weighs exec weight)
    (hexec : ∀ s p a held rest, needs a held → Ascending needs held rest → Ascending needs held ((exec s p a).2 ++ rest))
    (hfinite : w.Finite) :
    Inevitable (fun w l w' => w.stepOf exec l = some w') (fun _ l => ∃ p, l = .step p) AtRest w := by
  obtain ⟨ps, hps⟩ := hfinite
  refine Inevitable.of_rank (I := fun w : LockState P L A S => w.Disciplined needs ∧ ∀ p, w.Unfinished p → p ∈ ps)
    (fun w => ∑ p ∈ ps, programWeight weight (w.program p)) ?_ ?_ ⟨h, hps⟩
  · rintro w _ w' ⟨hdisciplined, hps⟩ ⟨p, rfl⟩ hstep
    obtain ⟨new, hnew, hlt⟩ := weight_next hweight hstep
    have hp := hps p (unfinished_of_next hstep)
    refine ⟨⟨hdisciplined.next hexec hstep, fun q hq => ?_⟩, ?_⟩
    · by_cases hqp : q = p
      · exact hqp ▸ hp
      · exact hps q (by simpa [Unfinished, hnew, hqp] using hq)
    · have hsum := sum_rank_update (programWeight weight) w.program hp new
      rw [hnew]
      omega
  · rintro w ⟨hdisciplined, -⟩ hmoving
    have hsome : ∃ p, w.Unfinished p := by
      by_contra hnone
      refine hmoving (.of_programs hdisciplined fun p => ?_)
      by_contra hp
      exact hnone ⟨p, hp⟩
    obtain ⟨p, hp, hfree⟩ := hdisciplined.exists_not_blocked hsome
    obtain ⟨w', hstep⟩ := exists_next hp hfree
    exact ⟨.step p, w', ⟨p, rfl⟩, hstep⟩

end Lib.LockState
