import NeemataProxy.Lib.Locks

/-!
# Calls in the order of their actions

Processes run the programs of calls on what they share. The log of the actions, in the order in which they are executed,
contains every call that has returned, and is a run of a sequential specification when each action by itself is a step of it.
-/

namespace Lib

/-- The state of the locks, the calls that each process has begun, and the actions so far with what they answer. -/
structure Recorded (P C L A S O : Type*) where
  state : LockState P L A S
  begun : P → List C
  log : List (P × A × O)

/-- A process begins a call, or takes the next step of the one it is in. -/
inductive CallLabel (P C : Type*) where
  | begin (p : P) (call : C)
  | step (p : P)

/-- A run of a relational specification: each action with its answer is a step. -/
inductive SpecRun {T A O : Type*} (spec : T → A → O → T → Prop) (t₀ : T) : List (A × O) → T → Prop where
  | nil : SpecRun spec t₀ [] t₀
  | snoc {done : List (A × O)} {t t' : T} {a : A} {o : O} :
      SpecRun spec t₀ done t → spec t a o t' → SpecRun spec t₀ (done ++ [(a, o)]) t'

/-- The effects that a program still has. -/
def pending {L A E : Type*} (point : A → Option E) : LockProgram L A → List E
  | [] => []
  | .act a :: rest => (point a).toList ++ pending point rest
  | .acquire _ :: rest | .release _ :: rest => pending point rest

namespace Recorded

variable {P C L A S O E T : Type*} [DecidableEq P] [LinearOrder L]

def idle (s : S) : Recorded P C L A S O := ⟨⟨s, fun _ => none, fun _ => []⟩, fun _ => [], []⟩

/-- The action that the next step of a process executes. -/
def acted (exec : S → P → A → S × LockProgram L A) (out : S → P → A → O) (w : Recorded P C L A S O) (p : P) :
    List (P × A × O) :=
  match w.state.program p with
  | .act a :: _ => [(p, a, out (exec w.state.shared p a).1 p a)]
  | _ => []

def effects (point : A → Option E) (w : Recorded P C L A S O) (p : P) : List E :=
  w.log.filterMap fun r => if r.1 = p then point r.2.1 else none

variable (program : C → LockProgram L A) (exec : S → P → A → S × LockProgram L A) (out : S → P → A → O)

def step (w : Recorded P C L A S O) : CallLabel P C → Option (Recorded P C L A S O)
  | .begin p call => (w.state.stepOf exec (.begin p (program call))).map fun state =>
      { w with state := state, begun := Function.update w.begun p (w.begun p ++ [call]) }
  | .step p => (w.state.next exec p).map fun state => { w with state := state, log := w.log ++ w.acted exec out p }

def Steps : Recorded P C L A S O → Recorded P C L A S O → Prop :=
  Reach (fun w l w' => w.step program exec out l = some w') fun _ _ => True

variable {program exec out} {w w' : Recorded P C L A S O}

/-! ## Steps -/

theorem begin_cases {p : P} {call : C} (h : w.step program exec out (.begin p call) = some w') :
    w.state.program p = [] ∧
      w' = ⟨{ w.state with program := Function.update w.state.program p (program call) },
        Function.update w.begun p (w.begun p ++ [call]), w.log⟩ := by
  obtain ⟨state, hstate, rfl⟩ := Option.map_eq_some_iff.mp h
  simp only [LockState.stepOf] at hstate
  split at hstate
  · obtain rfl := Option.some.inj hstate
    exact ⟨‹_›, rfl⟩
  · cases hstate

/-- A step works on a lock and leaves what is shared and the log, or executes the action that is logged. -/
theorem step_cases {p : P} (h : w.step program exec out (.step p) = some w') :
    (∃ instr rest, w.state.program p = instr :: rest ∧ (∀ a, instr ≠ .act a) ∧
      ∃ owner, w' = ⟨⟨w.state.shared, owner, Function.update w.state.program p rest⟩, w.begun, w.log⟩) ∨
    ∃ a rest, w.state.program p = .act a :: rest ∧
      w' = ⟨⟨(exec w.state.shared p a).1, w.state.owner,
          Function.update w.state.program p ((exec w.state.shared p a).2 ++ rest)⟩, w.begun,
        w.log ++ [(p, a, out (exec w.state.shared p a).1 p a)]⟩ := by
  obtain ⟨state, hstate, rfl⟩ := Option.map_eq_some_iff.mp h
  rcases LockState.next_cases hstate with ⟨l, rest, hprogram, -, rfl⟩ | ⟨l, rest, hprogram, rfl⟩ | ⟨a, rest, hprogram, rfl⟩
  · exact .inl ⟨_, rest, hprogram, nofun, _, by rw [acted, hprogram, List.append_nil]⟩
  · exact .inl ⟨_, rest, hprogram, nofun, _, by rw [acted, hprogram, List.append_nil]⟩
  · exact .inr ⟨a, rest, hprogram, by rw [acted, hprogram]⟩

theorem log_prefix (h : Steps program exec out w w') : w.log <+: w'.log := by
  refine Reach.invariant (P := fun w' => w.log <+: w'.log) (List.prefix_refl _) ?_ h
  intro w₁ l w₂ hprefix _ hstep
  cases l with
  | begin p call =>
      obtain ⟨-, rfl⟩ := begin_cases hstep
      exact hprefix
  | step p =>
      rcases step_cases hstep with ⟨_, _, -, -, _, rfl⟩ | ⟨a, rest, -, rfl⟩
      · exact hprefix
      · exact hprefix.trans (List.prefix_append _ _)

/-! ## Every effect once -/

/-- What the calls of a process have to do is what it has done, followed by what it still has to do. -/
def Accounted (program : C → LockProgram L A) (point : A → Option E) (w : Recorded P C L A S O) : Prop :=
  ∀ p, (w.begun p).flatMap (fun call => pending point (program call)) =
    w.effects point p ++ pending point (w.state.program p)

variable {point : A → Option E}

omit [LinearOrder L] in
theorem pending_append (xs ys : LockProgram L A) : pending point (xs ++ ys) = pending point xs ++ pending point ys := by
  induction xs with
  | nil => rfl
  | cons instr xs ih => cases instr <;> simp [pending, ih]

omit [LinearOrder L] in
theorem effects_append (state : LockState P L A S) (begun : P → List C) (log log' : List (P × A × O)) (p : P) :
    effects point ⟨state, begun, log ++ log'⟩ p =
      effects point ⟨state, begun, log⟩ p ++ log'.filterMap fun r => if r.1 = p then point r.2.1 else none :=
  List.filterMap_append

theorem Accounted.step (hpoint : ∀ s p a, pending point (exec s p a).2 = []) {l : CallLabel P C}
    (h : Accounted program point w) (hstep : w.step program exec out l = some w') : Accounted program point w' := by
  intro q
  cases l with
  | begin p call =>
      obtain ⟨hnil, rfl⟩ := begin_cases hstep
      by_cases hq : q = p
      · subst hq
        have hq := h q
        rw [hnil] at hq
        simpa [pending, effects] using hq
      · simpa [hq, effects] using h q
  | step p =>
      rcases step_cases hstep with ⟨instr, rest, hprogram, hinstr, owner, rfl⟩ | ⟨a, rest, hprogram, rfl⟩
      · by_cases hq : q = p
        · subst hq
          have hsame : pending point (instr :: rest) = pending point rest := by
            cases instr with
            | act a => exact absurd rfl (hinstr a)
            | _ => rfl
          have hq := h q
          rw [hprogram, hsame] at hq
          simpa [effects] using hq
        · simpa [hq, effects] using h q
      · rw [effects_append]
        by_cases hq : q = p
        · subst hq
          have hq := h q
          rw [hprogram] at hq
          cases ha : point a with
          | none => simpa [pending, pending_append, hpoint, ha, effects] using hq
          | some e => simpa [pending, pending_append, hpoint, ha, effects] using hq
        · simpa [hq, Ne.symm hq, effects] using h q

theorem accounted (hpoint : ∀ s p a, pending point (exec s p a).2 = []) {s : S}
    (h : Steps program exec out (idle s) w) : Accounted program point w :=
  Reach.invariant (P := Accounted program point) (fun _ => rfl) (fun _ _ _ hw _ => hw.step hpoint) h

/-! ## Where the actions come from -/

/-- Every action, logged or still to come, stems from a call that its process has begun. -/
structure Stemmed (stems : C → A → Prop) (w : Recorded P C L A S O) : Prop where
  program : ∀ p a, .act a ∈ w.state.program p → ∃ call ∈ w.begun p, stems call a
  log : ∀ p a o, (p, a, o) ∈ w.log → ∃ call ∈ w.begun p, stems call a

variable {stems : C → A → Prop}

theorem Stemmed.step (hprogram : ∀ call a, .act a ∈ program call → stems call a)
    (hexec : ∀ s p call a b, stems call a → .act b ∈ (exec s p a).2 → stems call b) {l : CallLabel P C}
    (h : Stemmed stems w) (hstep : w.step program exec out l = some w') : Stemmed stems w' := by
  cases l with
  | begin p call =>
      obtain ⟨-, rfl⟩ := begin_cases hstep
      have hmore : ∀ {q a}, (∃ c ∈ w.begun q, stems c a) →
          ∃ c ∈ Function.update w.begun p (w.begun p ++ [call]) q, stems c a := fun {q a} ⟨c, hc, ha⟩ => by
        refine ⟨c, ?_, ha⟩
        by_cases hq : q = p
        · subst hq
          simpa using .inl hc
        · simpa [hq] using hc
      refine ⟨fun q a ha => ?_, fun q a o ha => hmore (h.log q a o ha)⟩
      by_cases hq : q = p
      · subst hq
        exact ⟨call, by simp, hprogram call a (by simpa using ha)⟩
      · exact hmore (h.program q a (by simpa [hq] using ha))
  | step p =>
      rcases step_cases hstep with ⟨instr, rest, hrun, -, owner, rfl⟩ | ⟨b, rest, hrun, rfl⟩
      · refine ⟨fun q a ha => ?_, h.log⟩
        by_cases hq : q = p
        · subst hq
          exact h.program q a (hrun ▸ List.mem_cons_of_mem _ (by simpa using ha))
        · exact h.program q a (by simpa [hq] using ha)
      · have hb := h.program p b (hrun ▸ List.mem_cons_self)
        refine ⟨fun q a ha => ?_, fun q a o ha => ?_⟩
        · by_cases hq : q = p
          · subst hq
            simp only [Function.update_self, List.mem_append] at ha
            rcases ha with ha | ha
            · obtain ⟨call, hcall, hstems⟩ := hb
              exact ⟨call, hcall, hexec _ _ _ _ _ hstems ha⟩
            · exact h.program q a (hrun ▸ List.mem_cons_of_mem _ ha)
          · exact h.program q a (by simpa [hq] using ha)
        · rcases List.mem_append.mp ha with ha | ha
          · exact h.log q a o ha
          · obtain ⟨rfl, rfl, -⟩ : q = p ∧ a = b ∧ _ := by simpa using ha
            exact hb

omit [DecidableEq P] [LinearOrder L] in
theorem stemmed_idle (s : S) : Stemmed stems (idle s : Recorded P C L A S O) :=
  ⟨fun _ _ ha => by simp [idle] at ha, fun _ _ _ ha => by simp [idle] at ha⟩

theorem stemmed (hprogram : ∀ call a, .act a ∈ program call → stems call a)
    (hexec : ∀ s p call a b, stems call a → .act b ∈ (exec s p a).2 → stems call b) {s : S}
    (h : Steps program exec out (idle s) w) : Stemmed stems w :=
  Reach.invariant (P := Stemmed stems) (stemmed_idle s) (fun _ _ _ hw _ => hw.step hprogram hexec) h

/-! ## The log as a run -/

/-- When every action that stems from a call is a step of the specification, the log is a run of it. -/
theorem log_specRun (hprogram : ∀ call a, .act a ∈ program call → stems call a)
    (hexec : ∀ s p call a b, stems call a → .act b ∈ (exec s p a).2 → stems call b)
    {spec : T → A → O → T → Prop} {R : S → T → Prop}
    (hspec : ∀ s p call a t, stems call a → R s t →
      ∃ t', spec t a (out (exec s p a).1 p a) t' ∧ R (exec s p a).1 t')
    {s : S} {t₀ : T} (hinit : R s t₀) (h : Steps program exec out (idle s) w) :
    ∃ t, SpecRun spec t₀ (w.log.map Prod.snd) t ∧ R w.state.shared t := by
  have hinv := Reach.invariant (P := fun w : Recorded P C L A S O =>
      Stemmed stems w ∧ ∃ t, SpecRun spec t₀ (w.log.map Prod.snd) t ∧ R w.state.shared t)
    ⟨stemmed_idle s, t₀, .nil, hinit⟩ ?_ h
  · exact hinv.2
  rintro w l w' ⟨hstemmed, t, hrun, hR⟩ - hstep
  refine ⟨hstemmed.step hprogram hexec hstep, ?_⟩
  cases l with
  | begin p call =>
      obtain ⟨-, rfl⟩ := begin_cases hstep
      exact ⟨t, hrun, hR⟩
  | step p =>
      rcases step_cases hstep with ⟨_, _, -, -, _, rfl⟩ | ⟨a, rest, hprogram', rfl⟩
      · exact ⟨t, hrun, hR⟩
      · obtain ⟨call, -, hstems⟩ := hstemmed.program p a (hprogram' ▸ List.mem_cons_self)
        obtain ⟨t', hstep', hR'⟩ := hspec w.state.shared p call a t hstems hR
        refine ⟨t', ?_, hR'⟩
        rw [List.map_append]
        exact hrun.snoc hstep'

end Recorded

end Lib
