import NeemataProxy.Lib.TtlMap

/-!
# Leases

The entry of a key holds its value until it expires, as long as each use of the key comes before that and no call drops an
entry that has not expired.
-/

namespace Lib.TtlMap

variable {K V : Type*} [DecidableEq K] [DecidableEq V]

/-- A call around which only expired entries may be dropped. -/
def FittingCall (ttl now : Nat) (op : Op K V) (m m' : TtlMap K V) (answer : Option V) : Prop :=
  ∃ m₁, Sub m₁ m ∧ Covers now m₁ m ∧ answer = (exec ttl now m₁ op).2 ∧ Covers now m' (exec ttl now m₁ op).1

/-- At the time `clock` the entry of `k` holds `v` until `x`, or this time has come. -/
def Leased (k : K) (v : V) (x clock : Nat) (m : TtlMap K V) : Prop := m k = some ⟨v, x⟩ ∨ x ≤ clock

variable {ttl now clock x : Nat} {m m' : TtlMap K V} {op : Op K V} {answer : Option V} {k : K} {v : V}

omit [DecidableEq K] [DecidableEq V] in
theorem Leased.mono (h : Leased k v x clock m) (hclock : clock ≤ now) : Leased k v x now m :=
  h.imp id fun hx => Nat.le_trans hx hclock

/-- A call on another key leaves the lease. -/
theorem Leased.other (h : Leased k v x clock m) (hcall : FittingCall ttl now op m m' answer) (hclock : clock ≤ now)
    (hkey : op.key ≠ k) : Leased k v x now m' := by
  obtain ⟨m₁, -, hbefore, -, hafter⟩ := hcall
  by_cases hx : x ≤ now
  · exact .inr hx
  · have hnow : now < x := Nat.lt_of_not_le hx
    rcases h with h | h
    · have h₁ : m₁ k = some ⟨v, x⟩ := hbefore k _ h hnow
      have h₂ : (exec ttl now m₁ op).1 k = some ⟨v, x⟩ := (Function.update_of_ne (Ne.symm hkey) _ _).trans h₁
      exact .inl (hafter k _ h₂ hnow)
    · omega

/-- What a call binds, or finds, is leased from now on. -/
theorem Leased.of_touch (hcall : FittingCall ttl now op m m' answer)
    (htouch : op = .bind k v ∨ (∃ allowed, op = .lookup k allowed) ∧ answer = some v) : Leased k v (now + ttl) now m' := by
  obtain ⟨m₁, -, -, hanswer, hafter⟩ := hcall
  have hentry : (exec ttl now m₁ op).1 k = some ⟨v, now + ttl⟩ := by
    rcases htouch with rfl | ⟨⟨allowed, rfl⟩, rfl⟩
    · simp [exec, Op.key, Op.onEntry]
    · obtain ⟨e, he, hvalue, hhit⟩ := exec_lookup_eq_some hanswer.symm
      simp [exec, Op.key, he, Op.onEntry, hhit, hvalue]
  by_cases httl : 0 < ttl
  · exact .inl (hafter k _ hentry (Nat.lt_add_of_pos_right httl))
  · exact .inr (by omega)

/-- A lookup before the lease ends finds the value when it is allowed. -/
theorem Leased.hit {allowed : Finset V} (h : Leased k v x clock m)
    (hcall : FittingCall ttl now (.lookup k allowed) m m' answer) (hclock : clock ≤ now) (hx : now < x) (hv : v ∈ allowed) :
    answer = some v := by
  obtain ⟨m₁, -, hbefore, rfl, -⟩ := hcall
  rcases h with h | h
  · have h₁ : m₁ k = some ⟨v, x⟩ := hbefore k _ h hx
    have hhit : Hit now allowed ⟨v, x⟩ := ⟨hx, hv⟩
    simp [exec, Op.key, h₁, Op.onEntry, hhit]
  · omega

end Lib.TtlMap
