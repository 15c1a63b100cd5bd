import NeemataProxy.Lib.Lts

/-!
# Locks taken in ascending order

Processes run programs of three kinds of steps: to take a lock, to give it back, and to act on what they share. When every
program takes a lock only above all that it holds, some process can always move on.
-/

namespace Lib

/-- A step of a program. -/
inductive LockInstr (L A : Type*) where
  | acquire (l : L)
  | release (l : L)
  | act (a : A)

abbrev LockProgram (L A : Type*) := List (LockInstr L A)

/-- What the processes share, who holds each lock, and what is left of the programs. -/
structure LockState (P L A S : Type*) where
  shared : S
  owner : L → Option P
  program : P → LockProgram L A

/-- A process begins a program, or takes the next step of the one it runs. -/
inductive LockLabel (P L A : Type*) where
  | begin (p : P) (program : LockProgram L A)
  | step (p : P)

section Programs

variable {L A : Type*} [LinearOrder L]

/-- From the locks that are held, the program takes locks in ascending order, gives back only what it holds and in the end
all of it, and acts under the locks that its actions need. -/
def Ascending (needs : A → Finset L → Prop) : Finset L → LockProgram L A → Prop
  | held, [] => held = ∅
  | held, .acquire l :: rest => (∀ h ∈ held, h < l) ∧ Ascending needs (insert l held) rest
  | held, .release l :: rest => l ∈ held ∧ Ascending needs (held.erase l) rest
  | held, .act a :: rest => needs a held ∧ Ascending needs held rest

variable {needs : A → Finset L → Prop}

theorem ascending_acquire_append {ls : List L} (hls : ls.Pairwise (· < ·)) {held : Finset L}
    (hheld : ∀ h ∈ held, ∀ l ∈ ls, h < l) {rest : LockProgram L A} (h : Ascending needs (held ∪ ls.toFinset) rest) :
    Ascending needs held (ls.map .acquire ++ rest) := by
  induction ls generalizing held with
  | nil => simpa using h
  | cons l ls ih =>
      obtain ⟨hl, hls⟩ := List.pairwise_cons.mp hls
      refine ⟨fun h hh => hheld h hh l List.mem_cons_self, ih hls (fun h hh l' hl' => ?_) ?_⟩
      · rcases Finset.mem_insert.mp hh with rfl | hh
        · exact hl l' hl'
        · exact hheld h hh l' (List.mem_cons_of_mem l hl')
      · rwa [List.toFinset_cons, Finset.union_insert, ← Finset.insert_union] at h

theorem ascending_release_append {ls : List L} (hls : ls.Nodup) {held : Finset L} (hheld : ∀ l ∈ ls, l ∈ held)
    {rest : LockProgram L A} (h : Ascending needs (held \ ls.toFinset) rest) :
    Ascending needs held (ls.map .release ++ rest) := by
  induction ls generalizing held with
  | nil => simpa using h
  | cons l ls ih =>
      obtain ⟨hl, hls⟩ := List.nodup_cons.mp hls
      refine ⟨hheld l List.mem_cons_self, ih hls (fun l' hl' => ?_) ?_⟩
      · exact Finset.mem_erase.mpr ⟨fun heq => hl (heq ▸ hl'), hheld l' (List.mem_cons_of_mem l hl')⟩
      · rwa [List.toFinset_cons, Finset.sdiff_insert, ← Finset.erase_sdiff_comm] at h

end Programs

namespace LockState

variable {P L A S : Type*} [DecidableEq P] [LinearOrder L]

/-- The next step of a process; an action may put further steps in front of the rest. -/
def next (exec : S → P → A → S × LockProgram L A) (w : LockState P L A S) (p : P) : Option (LockState P L A S) :=
  match w.program p with
  | [] => none
  | .acquire l :: rest =>
      if w.owner l = none then
        some { w with owner := Function.update w.owner l (some p), program := Function.update w.program p rest }
      else none
  | .release l :: rest =>
      some { w with owner := Function.update w.owner l none, program := Function.update w.program p rest }
  | .act a :: rest =>
      let r := exec w.shared p a
      some { w with shared := r.1, program := Function.update w.program p (r.2 ++ rest) }

def stepOf (exec : S → P → A → S × LockProgram L A) (w : LockState P L A S) :
    LockLabel P L A → Option (LockState P L A S)
  | .begin p program =>
      match w.program p with
      | [] => some { w with program := Function.update w.program p program }
      | _ :: _ => none
  | .step p => w.next exec p

def Unfinished (w : LockState P L A S) (p : P) : Prop := w.program p ≠ []

/-- The process waits for a lock that is held. -/
def Blocked (w : LockState P L A S) (p : P) : Prop :=
  ∃ l rest q, w.program p = .acquire l :: rest ∧ w.owner l = some q

/-- The process waits for a lock that it holds itself. -/
def WaitsForOwn (w : LockState P L A S) (p : P) : Prop :=
  ∃ l rest, w.program p = .acquire l :: rest ∧ w.owner l = some p

variable [Fintype L]

def held (w : LockState P L A S) (p : P) : Finset L := Finset.univ.filter fun l => w.owner l = some p

/-- Every process runs an ascending program from the locks that it holds. -/
def Disciplined (needs : A → Finset L → Prop) (w : LockState P L A S) : Prop :=
  ∀ p, Ascending needs (w.held p) (w.program p)

variable {needs : A → Finset L → Prop} {w w' : LockState P L A S}

omit [LinearOrder L] in
theorem mem_held {l : L} {p : P} : l ∈ w.held p ↔ w.owner l = some p := by simp [held]

theorem held_update (l : L) (o : Option P) (program : P → LockProgram L A) (shared : S) (q : P) :
    held ⟨shared, Function.update w.owner l o, program⟩ q =
      if o = some q then insert l (w.held q) else (w.held q).erase l := by
  ext l'
  rw [mem_held]
  by_cases hl : l' = l
  · subst hl
    split <;> simp_all
  · split <;> simp [hl, mem_held]

theorem Disciplined.of_update (h : Disciplined needs w) {p : P} {program : LockProgram L A} {owner : L → Option P} {shared : S}
    (hself : Ascending needs (held ⟨shared, owner, Function.update w.program p program⟩ p) program)
    (hother : ∀ q, q ≠ p → held ⟨shared, owner, Function.update w.program p program⟩ q = w.held q) :
    Disciplined needs ⟨shared, owner, Function.update w.program p program⟩ := by
  intro q
  by_cases hq : q = p
  · subst hq
    simpa using hself
  · rw [hother q hq]
    simpa [hq] using h q

variable {exec : S → P → A → S × LockProgram L A}

omit [Fintype L] in
/-- A step takes a free lock, gives one back, or acts. -/
theorem next_cases {p : P} (h : w.next exec p = some w') :
    (∃ l rest, w.program p = .acquire l :: rest ∧ w.owner l = none ∧
      w' = ⟨w.shared, Function.update w.owner l (some p), Function.update w.program p rest⟩) ∨
    (∃ l rest, w.program p = .release l :: rest ∧
      w' = ⟨w.shared, Function.update w.owner l none, Function.update w.program p rest⟩) ∨
    ∃ a rest, w.program p = .act a :: rest ∧
      w' = ⟨(exec w.shared p a).1, w.owner, Function.update w.program p ((exec w.shared p a).2 ++ rest)⟩ := by
  unfold LockState.next at h
  cases hprogram : w.program p with
  | nil =>
      rw [hprogram] at h
      cases h
  | cons instr rest =>
      rw [hprogram] at h
      cases instr with
      | acquire l =>
          simp only at h
          split at h
          · exact .inl ⟨l, rest, rfl, ‹_›, (Option.some.inj h).symm⟩
          · cases h
      | release l => exact .inr (.inl ⟨l, rest, rfl, (Option.some.inj h).symm⟩)
      | act a => exact .inr (.inr ⟨a, rest, rfl, (Option.some.inj h).symm⟩)

omit [Fintype L] in
/-- What is left of the programs was there before, or an action has put it in front. -/
theorem mem_program_next {p : P} (h : w.next exec p = some w') {q : P} {instr : LockInstr L A} (hmem : instr ∈ w'.program q) :
    instr ∈ w.program q ∨ ∃ a, instr ∈ (exec w.shared p a).2 := by
  have hrest : ∀ {program : LockProgram L A}, instr ∈ Function.update w.program p program q →
      instr ∈ w.program q ∨ q = p ∧ instr ∈ program := fun {program} hin => by
    by_cases hq : q = p
    · subst hq
      exact .inr ⟨rfl, by simpa using hin⟩
    · exact .inl (by simpa [hq] using hin)
  rcases next_cases h with ⟨l, rest, hprogram, -, rfl⟩ | ⟨l, rest, hprogram, rfl⟩ | ⟨a, rest, hprogram, rfl⟩
  all_goals rcases hrest hmem with hin | ⟨rfl, hin⟩
  · exact .inl hin
  · exact .inl (hprogram ▸ List.mem_cons_of_mem _ hin)
  · exact .inl hin
  · exact .inl (hprogram ▸ List.mem_cons_of_mem _ hin)
  · exact .inl hin
  · rcases List.mem_append.mp hin with hin | hin
    · exact .inr ⟨a, hin⟩
    · exact .inl (hprogram ▸ List.mem_cons_of_mem _ hin)

/-- A step keeps the discipline, when what an action puts in front does. -/
theorem Disciplined.next (h : Disciplined needs w)
    (hexec : ∀ s p a held rest, needs a held → Ascending needs held rest → Ascending needs held ((exec s p a).2 ++ rest))
    {p : P} (hstep : w.next exec p = some w') : Disciplined needs w' := by
  have hp := h p
  rcases next_cases hstep with ⟨l, rest, hprogram, hfree, rfl⟩ | ⟨l, rest, hprogram, rfl⟩ | ⟨a, rest, hprogram, rfl⟩
  · rw [hprogram] at hp
    refine h.of_update ?_ fun q hq => ?_
    · rw [held_update, if_pos rfl]
      exact hp.2
    · rw [held_update, if_neg (by simpa using Ne.symm hq), Finset.erase_eq_of_notMem]
      rw [mem_held, hfree]
      simp
  · rw [hprogram] at hp
    have howner := mem_held.mp hp.1
    refine h.of_update ?_ fun q hq => ?_
    · rw [held_update, if_neg (by simp)]
      exact hp.2
    · rw [held_update, if_neg (by simp), Finset.erase_eq_of_notMem]
      rw [mem_held, howner]
      simpa using Ne.symm hq
  · rw [hprogram] at hp
    exact h.of_update (hexec _ _ _ _ _ hp.1 hp.2) fun _ _ => rfl

/-- A process that runs nothing may begin an ascending program. -/
theorem Disciplined.begin (h : Disciplined needs w) {p : P} {program : LockProgram L A} (hprogram : Ascending needs ∅ program)
    (hstep : w.stepOf exec (.begin p program) = some w') : Disciplined needs w' := by
  have hp := h p
  cases hrun : w.program p with
  | nil =>
      simp only [stepOf, hrun] at hstep
      rw [hrun] at hp
      obtain rfl := Option.some.inj hstep
      refine h.of_update ?_ fun _ _ => rfl
      have hnone : w.held p = ∅ := hp
      change Ascending needs (w.held p) program
      rwa [hnone]
  | cons instr rest =>
      simp only [stepOf, hrun] at hstep
      cases hstep

theorem Disciplined.not_waitsForOwn (h : Disciplined needs w) (p : P) : ¬ w.WaitsForOwn p := by
  rintro ⟨l, rest, hprogram, howner⟩
  have hp := h p
  rw [hprogram] at hp
  exact lt_irrefl l (hp.1 l (mem_held.mpr howner))

/-- Of the processes that have not finished, one is not blocked: the holder of the highest lock that is waited for. -/
theorem Disciplined.exists_not_blocked (h : Disciplined needs w) (hsome : ∃ p, w.Unfinished p) :
    ∃ p, w.Unfinished p ∧ ¬ w.Blocked p := by
  classical
  by_contra hall
  push Not at hall
  let awaited := Finset.univ.filter fun l => ∃ p rest, w.program p = .acquire l :: rest
  have hmem : ∀ {l p rest}, w.program p = .acquire l :: rest → l ∈ awaited := fun hprogram =>
    Finset.mem_filter.mpr ⟨Finset.mem_univ _, _, _, hprogram⟩
  obtain ⟨p, hp⟩ := hsome
  obtain ⟨l₀, rest₀, -, hprogram₀, -⟩ := hall p hp
  obtain ⟨l, hl, hmax⟩ := Finset.exists_max_image awaited id ⟨l₀, hmem hprogram₀⟩
  obtain ⟨-, p₁, rest₁, hprogram₁⟩ := Finset.mem_filter.mp hl
  obtain ⟨l', rest', q, hprogram', howner⟩ := hall p₁ (by rw [Unfinished, hprogram₁]; simp)
  obtain rfl : l = l' := by
    rw [hprogram₁] at hprogram'
    injection hprogram' with hinstr
    injection hinstr
  have hq := h q
  have hheld : l ∈ w.held q := mem_held.mpr howner
  have hunfinished : w.Unfinished q := fun hnil => by
    rw [hnil] at hq
    have hempty : w.held q = ∅ := hq
    rw [hempty] at hheld
    exact absurd hheld (Finset.notMem_empty l)
  obtain ⟨l₂, rest₂, -, hprogram₂, -⟩ := hall q hunfinished
  rw [hprogram₂] at hq
  exact absurd (hmax l₂ (hmem hprogram₂)) (not_le_of_gt (hq.1 l hheld))

omit [Fintype L] in
/-- What is neither finished nor blocked can take a step. -/
theorem exists_next {p : P} (hp : w.Unfinished p) (hfree : ¬ w.Blocked p) : ∃ w', w.next exec p = some w' := by
  unfold LockState.next
  cases hprogram : w.program p with
  | nil => exact absurd hprogram hp
  | cons instr rest =>
      cases instr with
      | acquire l =>
          cases howner : w.owner l with
          | none => exact ⟨_, if_pos howner⟩
          | some q => exact absurd ⟨l, rest, q, hprogram, howner⟩ hfree
      | release l => exact ⟨_, rfl⟩
      | act a => exact ⟨_, rfl⟩

/-! ## A process that runs alone -/

omit [Fintype L]

/-- Steps of one process only. -/
def Alone (exec : S → P → A → S × LockProgram L A) (p : P) : LockState P L A S → LockState P L A S → Prop :=
  Reach (fun w (_ : Unit) w' => w.next exec p = some w') fun _ _ => True

theorem Alone.single {p : P} (h : w.next exec p = some w') : Alone exec p w w' :=
  Reach.tail (l := ()) .refl trivial h

theorem Alone.trans {p : P} {w₁ : LockState P L A S} (h : Alone exec p w w₁) (h' : Alone exec p w₁ w') :
    Alone exec p w w' := Reach.trans h h'

theorem alone_act {p : P} {a : A} {rest : LockProgram L A} {w : LockState P L A S} (hprogram : w.program p = .act a :: rest)
    (hnone : (exec w.shared p a).2 = []) :
    Alone exec p w ⟨(exec w.shared p a).1, w.owner, Function.update w.program p rest⟩ :=
  .single (by simp only [LockState.next, hprogram, hnone, List.nil_append])

/-- A program that is there already need not be written. -/
theorem alone_nil {p : P} {w : LockState P L A S} {rest : LockProgram L A} (hprogram : w.program p = rest) :
    Alone exec p w ⟨w.shared, w.owner, Function.update w.program p rest⟩ := by
  rw [← hprogram, Function.update_eq_self]
  exact .refl

theorem alone_acquire {p : P} {w : LockState P L A S} (ls : List L) (rest : LockProgram L A) (hls : ls.Nodup)
    (hfree : ∀ l ∈ ls, w.owner l = none) (hprogram : w.program p = ls.map .acquire ++ rest) :
    Alone exec p w ⟨w.shared, fun l => if l ∈ ls then some p else w.owner l, Function.update w.program p rest⟩ := by
  induction ls generalizing w with
  | nil =>
      simp only [List.not_mem_nil, if_false]
      exact alone_nil hprogram
  | cons l ls ih =>
      obtain ⟨hl, hls⟩ := List.nodup_cons.mp hls
      have hstep : w.next exec p = some ⟨w.shared, Function.update w.owner l (some p),
          Function.update w.program p (ls.map .acquire ++ rest)⟩ := by
        simp only [LockState.next, hprogram, List.map_cons, List.cons_append]
        exact if_pos (hfree l List.mem_cons_self)
      have htail := ih (w := ⟨w.shared, Function.update w.owner l (some p),
          Function.update w.program p (ls.map .acquire ++ rest)⟩) hls (fun l' hl' => ?_) (by simp)
      · have howner : (fun l' => if l' ∈ ls then some p else Function.update w.owner l (some p) l') =
            fun l' => if l' ∈ l :: ls then some p else w.owner l' := by
          funext l'
          by_cases heq : l' = l
          · subst heq
            simp
          · simp [heq]
        simp only [howner, Function.update_idem] at htail
        exact .trans (.single hstep) htail
      · have hne : l' ≠ l := fun heq => hl (heq ▸ hl')
        simpa [hne] using hfree l' (List.mem_cons_of_mem l hl')

theorem alone_release {p : P} {w : LockState P L A S} (ls : List L) (rest : LockProgram L A)
    (hprogram : w.program p = ls.map .release ++ rest) :
    Alone exec p w ⟨w.shared, fun l => if l ∈ ls then none else w.owner l, Function.update w.program p rest⟩ := by
  induction ls generalizing w with
  | nil =>
      simp only [List.not_mem_nil, if_false]
      exact alone_nil hprogram
  | cons l ls ih =>
      have hstep : w.next exec p = some ⟨w.shared, Function.update w.owner l none,
          Function.update w.program p (ls.map .release ++ rest)⟩ := by
        simp only [LockState.next, hprogram, List.map_cons, List.cons_append]
      have htail := ih (w := ⟨w.shared, Function.update w.owner l none,
          Function.update w.program p (ls.map .release ++ rest)⟩) (by simp)
      have howner : (fun l' => if l' ∈ ls then none else Function.update w.owner l none l') =
          fun l' => if l' ∈ l :: ls then none else w.owner l' := by
        funext l'
        by_cases heq : l' = l
        · subst heq
          simp
        · simp [heq]
      simp only [howner, Function.update_idem] at htail
      exact .trans (.single hstep) htail

end LockState

end Lib
