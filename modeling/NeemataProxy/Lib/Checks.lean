import Mathlib

/-!
# Readers that fill in and check

A reader takes a raw value, fills in what has been left out, and refuses what is not valid. Such readers compose: what they
accept does not depend on the order of the checks.
-/

namespace Lib

universe u

theorem bind_eq_ok_iff {ε : Type*} {A B : Type u} {x : Except ε A} {f : A → Except ε B} {b : B} :
    x >>= f = .ok b ↔ ∃ a, x = .ok a ∧ f a = .ok b := by
  cases x with
  | error e => exact ⟨nofun, fun ⟨_, ha, _⟩ => by cases ha⟩
  | ok a => exact ⟨fun h => ⟨a, rfl, h⟩, fun ⟨_, ha, h⟩ => by cases ha; exact h⟩

/-- The reader returns what a raw value is filled in to, exactly when that is valid. -/
def Checks {R A ε : Type*} (read : R → Except ε A) (fill : R → Option A) (Valid : A → Prop) : Prop :=
  ∀ r a, read r = .ok a ↔ fill r = some a ∧ Valid a

namespace Checks

variable {R A B ε : Type*} {read : R → Except ε A} {fill : R → Option A} {Valid : A → Prop}

/-- A list is read element by element. -/
theorem mapM (h : Checks read fill Valid) : Checks (List.mapM read) (List.mapM fill) (fun as => ∀ a ∈ as, Valid a) := by
  intro rs
  induction rs with
  | nil => exact fun as => ⟨fun has => by cases has; exact ⟨rfl, nofun⟩, fun ⟨has, _⟩ => by cases has; rfl⟩
  | cons r rs ih =>
      intro as
      simp only [List.mapM_cons, bind_eq_ok_iff, Option.bind_eq_bind, Option.bind_eq_some_iff, h r, ih]
      constructor
      · rintro ⟨a, ⟨ha, hvalid⟩, as', ⟨has, hall⟩, heq⟩
        cases heq
        exact ⟨⟨a, ha, as', has, rfl⟩, List.forall_mem_cons.mpr ⟨hvalid, hall⟩⟩
      · rintro ⟨⟨a, ha, as', has, heq⟩, hall⟩
        cases heq
        obtain ⟨hvalid, hall⟩ := List.forall_mem_cons.mp hall
        exact ⟨a, ⟨ha, hvalid⟩, as', ⟨has, hall⟩, rfl⟩

/-- When every valid value has a raw form that is filled in to it, the values that are read are the valid ones. -/
theorem exists_iff (h : Checks read fill Valid) {render : A → R} (hrender : ∀ a, Valid a → fill (render a) = some a) (a : A) :
    (∃ r, read r = .ok a) ↔ Valid a :=
  ⟨fun ⟨r, hr⟩ => ((h r a).mp hr).2, fun ha => ⟨render a, (h _ a).mpr ⟨hrender a ha, ha⟩⟩⟩

end Checks

/-- A strictly sorted list is determined by its members. -/
theorem eq_of_sorted {α : Type*} {key : α → Nat} {l l' : List α} (h : l.Pairwise (fun a b => key a < key b))
    (h' : l'.Pairwise (fun a b => key a < key b)) (hmem : ∀ a, a ∈ l ↔ a ∈ l') : l = l' := by
  have hnodup : ∀ {m : List α}, m.Pairwise (fun a b => key a < key b) → m.Nodup := fun hm =>
    hm.imp fun hlt heq => hlt.ne (congrArg key heq)
  refine ((List.perm_ext_iff_of_nodup (hnodup h) (hnodup h')).mpr hmem).eq_of_pairwise ?_ h h'
  exact fun a b _ _ hab hba => absurd (hab.trans hba) (lt_irrefl _)

end Lib
