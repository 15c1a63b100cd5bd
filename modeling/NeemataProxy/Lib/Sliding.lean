import NeemataProxy.Lib.Eviction

/-!
# Sliding expiration

The uses of an entry are the times of the calls that have touched it since it is there. Each call sets the expiry anew, so an
entry outlasts all its uses exactly when they come in the order of their times.
-/

namespace Lib.TtlMap

variable {K V : Type*} [DecidableEq K]

/-- For each key the times at which its entry was used. -/
abbrev Uses (K : Type*) := K → List Nat

/-- The uses behind a step that leaves `m'`: one key may have been touched, and an entry that is gone has none. -/
def Uses.after (uses : Uses K) (touch : Option (K × Nat)) (m' : TtlMap K V) : Uses K := fun k =>
  match m' k, touch with
  | none, _ => []
  | some _, none => uses k
  | some _, some (k', now) => if k = k' then now :: uses k else uses k

/-- Every entry outlasts each of its uses by the TTL. -/
def Outlasts (ttl : Nat) (m : TtlMap K V) (uses : Uses K) : Prop :=
  ∀ k e, m k = some e → ∀ r ∈ uses k, r + ttl ≤ e.expiresAt

/-- The touch is not earlier than any use of the same entry. -/
def InOrder (uses : Uses K) (touch : Option (K × Nat)) : Prop := ∀ u ∈ touch, ∀ r ∈ uses u.1, r ≤ u.2

instance (uses : Uses K) (touch : Option (K × Nat)) : Decidable (InOrder uses touch) :=
  inferInstanceAs (Decidable (∀ u ∈ touch, ∀ r ∈ uses u.1, r ≤ u.2))

variable {ttl now : Nat} {m m' : TtlMap K V} {uses : Uses K} {touch : Option (K × Nat)} {k : K} {e : Stamped V}

theorem Uses.mem_after (hk : m' k = some e) {r : Nat} :
    r ∈ uses.after touch m' k ↔ touch = some (k, r) ∨ r ∈ uses k := by
  cases touch with
  | none => simp [Uses.after, hk]
  | some u =>
      obtain ⟨k', now⟩ := u
      by_cases hkey : k = k'
      · subst hkey
        simp [Uses.after, hk, eq_comm]
      · have hne : k' ≠ k := Ne.symm hkey
        simp [Uses.after, hk, hkey, hne]

/-- To drop entries puts no expiry forward. -/
theorem Outlasts.sub (h : Outlasts ttl m uses) (hsub : Sub m' m) : Outlasts ttl m' (uses.after none m') := by
  intro k e hk r hr
  rcases (Uses.mem_after hk).mp hr with htouch | hr
  · cases htouch
  · exact h k e (hsub k e hk) r hr

variable [DecidableEq V] {op : Op K V}

/-- The touch of a call. -/
def Op.touchAt (op : Op K V) (now : Nat) (answer : Option V) : Option (K × Nat) := (op.touched answer).map fun k => (k, now)

omit [DecidableEq K] [DecidableEq V] in
theorem Op.touched_key {answer : Option V} (h : op.touched answer = some k) : op.key = k := by
  cases op with
  | lookup k' allowed => cases answer <;> simp_all [Op.touched, Op.key]
  | bind k' v => simpa [Op.touched, Op.key] using h
  | remove k' => simp [Op.touched] at h

/-- What a call touches expires a TTL after it. -/
theorem exists_of_touched (h : op.touched (exec ttl now m op).2 = some k) :
    ∃ v, (exec ttl now m op).1 k = some ⟨v, now + ttl⟩ := by
  obtain rfl := Op.touched_key h
  cases hentry : (exec ttl now m op).1 op.key with
  | some e => exact ⟨e.value, by rw [← (exec_key hentry).1]⟩
  | none =>
      cases op with
      | lookup k allowed =>
          cases hanswer : (exec ttl now m (.lookup k allowed)).2 with
          | none => simp [Op.touched, hanswer] at h
          | some v =>
              obtain ⟨e, he, -, hhit⟩ := exec_lookup_eq_some hanswer
              simp [exec, Op.key, he, Op.onEntry, hhit] at hentry
      | bind k v => simp [exec, Op.key, Op.onEntry] at hentry
      | remove k => simp [Op.touched] at h

/-- Behind a call the entries outlast their uses exactly when its touch is in order. -/
theorem Outlasts.exec_iff (h : Outlasts ttl m uses) :
    Outlasts ttl (exec ttl now m op).1 (uses.after (op.touchAt now (exec ttl now m op).2) (exec ttl now m op).1) ↔
      InOrder uses (op.touchAt now (exec ttl now m op).2) := by
  constructor
  · rintro hafter ⟨k, t⟩ htouch r hr
    obtain ⟨k', htouched, heq⟩ := Option.map_eq_some_iff.mp htouch
    obtain ⟨rfl, rfl⟩ := Prod.mk.inj heq
    obtain ⟨v, hentry⟩ := exists_of_touched htouched
    have := hafter k' _ hentry r ((Uses.mem_after hentry).mpr (.inr hr))
    exact Nat.le_of_add_le_add_right this
  · intro horder k e hk r hr
    by_cases hkey : k = op.key
    · subst hkey
      obtain ⟨hexpires, htouched⟩ := exec_key hk
      have htouch : op.touchAt now (exec ttl now m op).2 = some (op.key, now) := by rw [Op.touchAt, htouched]; rfl
      rw [hexpires]
      rcases (Uses.mem_after hk).mp hr with heq | hr
      · rw [htouch] at heq
        obtain ⟨-, rfl⟩ := Prod.mk.inj (Option.some.inj heq)
        exact Nat.le_refl _
      · exact Nat.add_le_add_right (horder _ htouch r hr) ttl
    · rw [exec_of_ne ttl now m op hkey] at hk
      rcases (Uses.mem_after (by rw [exec_of_ne ttl now m op hkey, hk])).mp hr with heq | hr
      · obtain ⟨k', htouched, heq⟩ := Option.map_eq_some_iff.mp heq
        obtain ⟨rfl, rfl⟩ := Prod.mk.inj heq
        exact absurd (Op.touched_key htouched).symm hkey
      · exact h k e hk r hr

/-- A call takes an entry away that it removes, does not allow, or finds expired. -/
theorem gone_of_exec (hk : m k = some e) (hgone : (exec ttl now m op).1 k = none) :
    op = .remove k ∨ ∃ allowed, op = .lookup k allowed ∧ (e.value ∉ allowed ∨ e.expiresAt ≤ now) := by
  have hkey : k = op.key := by
    by_contra hne
    rw [exec_of_ne ttl now m op hne, hk] at hgone
    cases hgone
  subst hkey
  cases op with
  | lookup k allowed =>
      refine .inr ⟨allowed, rfl, ?_⟩
      by_contra hnot
      obtain ⟨hmem, hexpired⟩ := not_or.mp hnot
      have hhit : Hit now allowed e := ⟨Nat.lt_of_not_le hexpired, by simpa using hmem⟩
      simp [exec, Op.key, show m k = some e from hk, Op.onEntry, hhit] at hgone
  | bind k v => simp [exec, Op.onEntry] at hgone
  | remove k => exact .inl rfl

end Lib.TtlMap
