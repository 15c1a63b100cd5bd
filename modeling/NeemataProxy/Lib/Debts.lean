import NeemataProxy.Lib.Locks

/-!
# What processes owe

A size that must stay within some room, while processes may have grown it before they make room. Each unfinished process
owes as much as it may have added; together the room and the debts bound the size in every state, whatever the order of
the steps.
-/

namespace Lib.LockState

variable {P L A S : Type*} [DecidableEq P] [LinearOrder L]

/-- How the size of what is shared, its room, and the debt of a process with the program that it still has to run change. -/
structure Amortised (exec : S → P → A → S × LockProgram L A) (size room : S → Nat) (debt : S → P → LockProgram L A → Nat)
    (shape : LockProgram L A → Prop) : Prop where
  nil : ∀ s p, debt s p [] = 0
  acquire : ∀ s p l rest, debt s p (.acquire l :: rest) ≤ debt s p rest
  release : ∀ s p l rest, debt s p (.release l :: rest) ≤ debt s p rest
  /-- An action makes the size fit, or grows it by no more than it adds to the room and to the debt. -/
  act : ∀ s p a rest, shape (.act a :: rest) →
    size (exec s p a).1 ≤ room (exec s p a).1 ∨
      size (exec s p a).1 + room s + debt s p (.act a :: rest) ≤
        size s + room (exec s p a).1 + debt (exec s p a).1 p ((exec s p a).2 ++ rest)
  /-- It changes no debt of another process. -/
  other : ∀ s p a q program, q ≠ p → debt (exec s p a).1 q program = debt s q program
  tail : ∀ instr rest, shape (instr :: rest) → shape rest
  front : ∀ s p a rest, shape rest → shape ((exec s p a).2 ++ rest)

/-- The size is within the room and the debts of all who have not finished. -/
def Within (size room : S → Nat) (debt : S → P → LockProgram L A → Nat) (w : LockState P L A S) : Prop :=
  ∀ ps : Finset P, (∀ p, w.Unfinished p → p ∈ ps) →
    size w.shared ≤ room w.shared + ∑ p ∈ ps, debt w.shared p (w.program p)

variable {exec : S → P → A → S × LockProgram L A} {size room : S → Nat} {debt : S → P → LockProgram L A → Nat}
  {shape : LockProgram L A → Prop} {w w' : LockState P L A S}

omit [LinearOrder L] in
theorem sum_debt_update {shared : S} {program : P → LockProgram L A} {ps : Finset P} {p : P} (hp : p ∈ ps)
    (s : S) (new : LockProgram L A) (hother : ∀ q, q ≠ p → debt s q (program q) = debt shared q (program q)) :
    (∑ q ∈ ps, debt s q (Function.update program p new q)) + debt shared p (program p) =
      (∑ q ∈ ps, debt shared q (program q)) + debt s p new := by
  have hafter : (∑ q ∈ ps, debt s q (Function.update program p new q)) =
      debt s p new + ∑ q ∈ ps.erase p, debt shared q (program q) := by
    rw [← Finset.add_sum_erase ps _ hp, Function.update_self]
    refine congrArg _ (Finset.sum_congr rfl fun q hq => ?_)
    rw [Function.update_of_ne (Finset.ne_of_mem_erase hq), hother q (Finset.ne_of_mem_erase hq)]
  have hbefore := Finset.add_sum_erase ps (fun q => debt shared q (program q)) hp
  omega

omit [LinearOrder L] in
theorem Within.of_update (hnil : ∀ s p, debt s p [] = 0) (h : w.Within size room debt) {p : P} {shared : S}
    {owner : L → Option P} {new : LockProgram L A}
    (hother : ∀ q, q ≠ p → debt shared q (w.program q) = debt w.shared q (w.program q))
    (hchange : size shared ≤ room shared ∨
      size shared + room w.shared + debt w.shared p (w.program p) ≤ size w.shared + room shared + debt shared p new) :
    Within size room debt ⟨shared, owner, Function.update w.program p new⟩ := by
  intro ps hps
  rcases hchange with hfits | hchange
  · exact hfits.trans (Nat.le_add_right _ _)
  · -- a process that has finished owes nothing, so that it does not matter whether it is counted
    have hcounted : ∑ q ∈ insert p ps, debt shared q (Function.update w.program p new q) =
        ∑ q ∈ ps, debt shared q (Function.update w.program p new q) := by
      by_cases hp : p ∈ ps
      · rw [Finset.insert_eq_of_mem hp]
      · have hnew : new = [] := by
          by_contra hne
          exact hp (hps p (by simpa [Unfinished] using hne))
        rw [Finset.sum_insert hp, Function.update_self, hnew, hnil, Nat.zero_add]
    have hbefore := h (insert p ps) fun q hq => by
      by_cases hqp : q = p
      · exact hqp ▸ Finset.mem_insert_self p ps
      · exact Finset.mem_insert_of_mem (hps q (by simpa [Unfinished, hqp] using hq))
    have hsum := sum_debt_update (Finset.mem_insert_self p ps) shared new hother
    dsimp only
    omega

theorem Within.next (hamortised : Amortised exec size room debt shape) (h : w.Within size room debt) {p : P}
    (hshape : shape (w.program p)) (hstep : w.next exec p = some w') : w'.Within size room debt := by
  rcases next_cases hstep with ⟨l, rest, hprogram, -, rfl⟩ | ⟨l, rest, hprogram, rfl⟩ | ⟨a, rest, hprogram, rfl⟩
  · refine h.of_update hamortised.nil (fun _ _ => rfl) (.inr ?_)
    have := hamortised.acquire w.shared p l rest
    rw [hprogram]
    omega
  · refine h.of_update hamortised.nil (fun _ _ => rfl) (.inr ?_)
    have := hamortised.release w.shared p l rest
    rw [hprogram]
    omega
  · rw [hprogram] at hshape
    refine h.of_update hamortised.nil (fun q hq => hamortised.other _ _ _ _ _ hq) ?_
    rw [hprogram]
    exact hamortised.act w.shared p a rest hshape

/-- A process that runs nothing owes nothing, and may begin any program. -/
theorem Within.begin (hnil : ∀ s p, debt s p [] = 0) (h : w.Within size room debt) {p : P} {program : LockProgram L A}
    (hstep : w.stepOf exec (.begin p program) = some w') : w'.Within size room debt := by
  simp only [stepOf] at hstep
  split at hstep
  · rename_i hrun
    obtain rfl := Option.some.inj hstep
    refine h.of_update hnil (fun _ _ => rfl) (.inr ?_)
    rw [hrun, hnil]
    omega
  · cases hstep

/-- Every program that is left has the shape of the programs that begin. -/
theorem shape_next (hamortised : Amortised exec size room debt shape) (h : ∀ q, shape (w.program q)) {p : P}
    (hstep : w.next exec p = some w') (q : P) : shape (w'.program q) := by
  have hself : ∀ {program : LockProgram L A}, shape program → shape (Function.update w.program p program q) :=
    fun {program} hprogram => by
      by_cases hq : q = p
      · subst hq
        simpa using hprogram
      · simpa [hq] using h q
  have hp := h p
  rcases next_cases hstep with ⟨l, rest, hprogram, -, rfl⟩ | ⟨l, rest, hprogram, rfl⟩ | ⟨a, rest, hprogram, rfl⟩
  all_goals rw [hprogram] at hp
  · exact hself (hamortised.tail _ _ hp)
  · exact hself (hamortised.tail _ _ hp)
  · exact hself (hamortised.front _ _ _ _ (hamortised.tail _ _ hp))

/-- In every run of programs of the right shape the size stays within the room and the debts. -/
theorem within_of_reach (hamortised : Amortised exec size room debt shape)
    {allow : LockState P L A S → LockLabel P L A → Prop}
    (hbegin : ∀ w p program, allow w (.begin p program) → shape program) (hnil : shape []) {s : S}
    (hinit : size s ≤ room s)
    (h : Reach (fun w l w' => w.stepOf exec l = some w') allow ⟨s, fun _ => none, fun _ => []⟩ w) :
    w.Within size room debt := by
  refine (Reach.invariant (P := fun w : LockState P L A S => (∀ q, shape (w.program q)) ∧ w.Within size room debt)
    ⟨fun _ => hnil, fun ps _ => hinit.trans (Nat.le_add_right _ _)⟩ ?_ h).2
  rintro w l w' ⟨hshape, hwithin⟩ hallow hstep
  cases l with
  | begin p program =>
      refine ⟨fun q => ?_, hwithin.begin hamortised.nil hstep⟩
      simp only [stepOf] at hstep
      split at hstep
      · obtain rfl := Option.some.inj hstep
        by_cases hq : q = p
        · subst hq
          simpa using hbegin w q program hallow
        · simpa [hq] using hshape q
      · cases hstep
  | step p => exact ⟨shape_next hamortised hshape hstep, hwithin.next hamortised (hshape p) hstep⟩

end Lib.LockState
