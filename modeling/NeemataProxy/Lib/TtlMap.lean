import Mathlib

/-!
# Maps whose entries expire

A single map without capacity: an entry carries the time at which it expires, a successful lookup renews it,
and a lookup of an expired or disallowed entry deletes it. An implementation may lose entries; what it then
answers is compared with the map that loses none.
-/

namespace Lib

/-- A value and the time at which it expires. -/
structure Stamped (V : Type*) where
  value : V
  expiresAt : Nat

abbrev TtlMap (K V : Type*) := K → Option (Stamped V)

namespace TtlMap

variable {K V : Type*}

def empty : TtlMap K V := fun _ => none

/-- The calls of a map. -/
inductive Op (K V : Type*) where
  | lookup (k : K) (allowed : Finset V)
  | bind (k : K) (v : V)
  | remove (k : K)
  deriving DecidableEq

def Op.key : Op K V → K
  | .lookup k _ => k
  | .bind k _ => k
  | .remove k => k

instance [DecidableEq K] (op : Op K V) (k : K) (P : Finset V → Prop) [DecidablePred P] :
    Decidable (∀ allowed, op = .lookup k allowed → P allowed) :=
  match op with
  | .lookup k' allowed =>
      decidable_of_iff (k' = k → P allowed) ⟨fun h _ heq => by cases heq; exact h rfl, fun h heq => h allowed (heq ▸ rfl)⟩
  | .bind _ _ | .remove _ => isTrue nofun

instance [DecidableEq K] (op : Op K V) (k : K) (P : V → Prop) [DecidablePred P] :
    Decidable (∀ v, op = .bind k v → P v) :=
  match op with
  | .bind k' v => decidable_of_iff (k' = k → P v) ⟨fun h _ heq => by cases heq; exact h rfl, fun h heq => h v (heq ▸ rfl)⟩
  | .lookup _ _ | .remove _ => isTrue nofun

/-- Every entry of `m` is an entry of `m'`. -/
def Sub (m m' : TtlMap K V) : Prop := ∀ k e, m k = some e → m' k = some e

/-- Every entry of `m'` that is unexpired at `c` is an entry of `m`. -/
def Covers (c : Nat) (m m' : TtlMap K V) : Prop := ∀ k e, m' k = some e → c < e.expiresAt → m k = some e

theorem Sub.refl (m : TtlMap K V) : Sub m m := fun _ _ h => h

theorem Sub.trans {m₁ m₂ m₃ : TtlMap K V} (h₁ : Sub m₁ m₂) (h₂ : Sub m₂ m₃) : Sub m₁ m₃ :=
  fun k e h => h₂ k e (h₁ k e h)

theorem Covers.refl (c : Nat) (m : TtlMap K V) : Covers c m m := fun _ _ h _ => h

theorem Covers.trans {c : Nat} {m₁ m₂ m₃ : TtlMap K V} (h₁ : Covers c m₁ m₂) (h₂ : Covers c m₂ m₃) :
    Covers c m₁ m₃ := fun k e h hc => h₁ k e (h₂ k e h hc) hc

theorem Covers.mono {c c' : Nat} {m m' : TtlMap K V} (h : Covers c m m') (hc : c ≤ c') : Covers c' m m' :=
  fun k e hk he => h k e hk (by omega)

/-! ## Calls -/

/-- An entry that a lookup returns. -/
def Hit (now : Nat) (allowed : Finset V) (e : Stamped V) : Prop := now < e.expiresAt ∧ e.value ∈ allowed

variable [DecidableEq V]

instance (now : Nat) (allowed : Finset V) (e : Stamped V) : Decidable (Hit now allowed e) :=
  inferInstanceAs (Decidable (_ ∧ _))

/-- What a call does to the entry of its own key, and what it answers. -/
def Op.onEntry (ttl now : Nat) : Op K V → Option (Stamped V) → Option (Stamped V) × Option V
  | .lookup _ allowed, some e => if Hit now allowed e then (some ⟨e.value, now + ttl⟩, some e.value) else (none, none)
  | .lookup _ _, none => (none, none)
  | .bind _ v, _ => (some ⟨v, now + ttl⟩, none)
  | .remove _, _ => (none, none)

/-- On one key: a call on a subset answers nothing that the call on the whole does not answer. -/
theorem onEntry_sub (ttl now : Nat) (op : Op K V) {o o' : Option (Stamped V)} (h : ∀ e, o = some e → o' = some e) :
    (∀ e, (op.onEntry ttl now o).1 = some e → (op.onEntry ttl now o').1 = some e) ∧
      ∀ v, (op.onEntry ttl now o).2 = some v → (op.onEntry ttl now o').2 = some v := by
  cases o with
  | some e => rw [h e rfl]; exact ⟨fun _ h => h, fun _ h => h⟩
  | none => cases op <;> simp [Op.onEntry]

/-- On one key: when only expired entries are missing, a call leaves and answers the same. -/
theorem onEntry_covers (ttl now : Nat) (op : Op K V) {o o' : Option (Stamped V)}
    (h : ∀ e, o = some e → o' = some e) (hc : ∀ e, o' = some e → now < e.expiresAt → o = some e) :
    op.onEntry ttl now o = op.onEntry ttl now o' := by
  cases o' with
  | none =>
      cases o with
      | none => rfl
      | some e => cases h e rfl
  | some e =>
      by_cases he : now < e.expiresAt
      · rw [hc e rfl he]
      · cases o with
        | some e' => rw [h e' rfl]
        | none => cases op <;> simp [Op.onEntry, Hit, he]

variable [DecidableEq K]

def exec (ttl now : Nat) (m : TtlMap K V) (op : Op K V) : TtlMap K V × Option V :=
  let r := op.onEntry ttl now (m op.key)
  (Function.update m op.key r.1, r.2)

/-- An entry behind a call has the value of an entry before it, or the one that is bound. -/
theorem exec_value {ttl now : Nat} {m : TtlMap K V} {op : Op K V} {k : K} {e : Stamped V}
    (h : (exec ttl now m op).1 k = some e) : (∃ e₀, m k = some e₀ ∧ e₀.value = e.value) ∨ op = .bind k e.value := by
  by_cases hkey : k = op.key
  · subst hkey
    simp only [exec, Function.update_self] at h
    cases op with
    | lookup k allowed =>
        cases hm : m k with
        | none => simp [Op.key, hm, Op.onEntry] at h
        | some e₀ =>
            by_cases hhit : Hit now allowed e₀
            · simp only [Op.key, hm, Op.onEntry, if_pos hhit, Option.some.injEq] at h
              exact .inl ⟨e₀, hm, by rw [← h]⟩
            · simp [Op.key, hm, Op.onEntry, if_neg hhit] at h
    | bind k v => exact .inr (by rw [← Option.some.inj h]; rfl)
    | remove k => simp [Op.onEntry] at h
  · exact .inl ⟨e, (Function.update_of_ne hkey _ _).symm.trans h, rfl⟩

/-- A lookup answers with the value of an entry of its key that is allowed. -/
theorem exec_lookup_eq_some {ttl now : Nat} {m : TtlMap K V} {k : K} {allowed : Finset V} {v : V}
    (h : (exec ttl now m (.lookup k allowed)).2 = some v) : ∃ e, m k = some e ∧ e.value = v ∧ Hit now allowed e := by
  simp only [exec, Op.key] at h
  cases hm : m k with
  | none => simp [hm, Op.onEntry] at h
  | some e =>
      by_cases hhit : Hit now allowed e
      · simp only [hm, Op.onEntry, if_pos hhit, Option.some.injEq] at h
        exact ⟨e, rfl, h, hhit⟩
      · simp [hm, Op.onEntry, if_neg hhit] at h

/-- A call on a subset keeps it a subset, and answers at most what the call on the whole answers. -/
theorem sub_exec (ttl now : Nat) (op : Op K V) {m m' : TtlMap K V} (h : Sub m m') :
    Sub (exec ttl now m op).1 (exec ttl now m' op).1 ∧
      ∀ v, (exec ttl now m op).2 = some v → (exec ttl now m' op).2 = some v := by
  obtain ⟨h₁, h₂⟩ := onEntry_sub ttl now op (h op.key)
  refine ⟨fun k e hk => ?_, h₂⟩
  by_cases hkey : k = op.key
  · subst hkey; simpa [exec] using h₁ e (by simpa [exec] using hk)
  · simpa [exec, hkey] using h k e (by simpa [exec, hkey] using hk)

/-- When only expired entries are missing, a call answers the same, and still only expired ones are missing. -/
theorem covers_exec (ttl : Nat) {now : Nat} (op : Op K V) {m m' : TtlMap K V} (h : Sub m m')
    (hc : Covers now m m') :
    Covers now (exec ttl now m op).1 (exec ttl now m' op).1 ∧
      (exec ttl now m op).2 = (exec ttl now m' op).2 := by
  have heq := onEntry_covers ttl now op (h op.key) (hc op.key)
  refine ⟨fun k e hk he => ?_, by simp only [exec, heq]⟩
  by_cases hkey : k = op.key
  · subst hkey; simpa [exec, heq] using hk
  · simpa [exec, hkey] using hc k e (by simpa [exec, hkey] using hk) he

end TtlMap

end Lib
