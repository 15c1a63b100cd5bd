import NeemataProxy.Lib.TtlMap

/-!
# Eviction by expiry

A map of expiring entries with a capacity: around a call it may drop entries that have expired, and entries that
enough others outlast. Every touch of an entry puts off its expiry, so what is dropped are the entries that have not been
touched for longest.
-/

namespace Lib.TtlMap

variable {K V : Type*}

/-- `m'` is `m` without entries that have expired at `now` or that `cap` others outlast. -/
structure Evicts (cap now : Nat) (m m' : TtlMap K V) : Prop where
  sub : Sub m' m
  dropped : ∀ k e, m k = some e → m' k = none → now < e.expiresAt →
    ∃ T : Finset K, cap ≤ T.card ∧ k ∉ T ∧ ∀ k' ∈ T, ∃ e', m k' = some e' ∧ e.expiresAt ≤ e'.expiresAt

theorem Evicts.refl (cap now : Nat) (m : TtlMap K V) : Evicts cap now m m :=
  ⟨.refl m, fun k e hk hnone => by simp [hk] at hnone⟩

/-- The keys that a call touches: what it binds, and what it finds. -/
def Op.touched (op : Op K V) (answer : Option V) : Option K :=
  match op, answer with
  | .bind k _, _ => some k
  | .lookup k _, some _ => some k
  | _, _ => none

/-- No entry expires at `x` or later. -/
def Aged (x : Nat) (m : TtlMap K V) : Prop := ∀ k e, m k = some e → e.expiresAt < x

/-- The entry of `k`, and among the other keys only those of `E` outlast it. -/
structure Fresh (k : K) (e : Stamped V) (E : Finset K) (m : TtlMap K V) : Prop where
  entry : m k = some e
  younger : ∀ k' e', k' ≠ k → m k' = some e' → e.expiresAt ≤ e'.expiresAt → k' ∈ E

theorem Aged.sub {x : Nat} {m m' : TtlMap K V} (h : Aged x m) (hsub : Sub m' m) : Aged x m' :=
  fun k e hk => h k e (hsub k e hk)

theorem Fresh.mono {k : K} {e : Stamped V} {E E' : Finset K} {m : TtlMap K V} (h : Fresh k e E m) (hE : E ⊆ E') :
    Fresh k e E' m :=
  ⟨h.entry, fun k' e' hne hk' hle => hE (h.younger k' e' hne hk' hle)⟩

/-- An entry that fewer than `cap` others outlast is not dropped before it expires. -/
theorem Fresh.evicts {cap now : Nat} {k : K} {e : Stamped V} {E : Finset K} {m m' : TtlMap K V} (h : Fresh k e E m)
    (hevicts : Evicts cap now m m') (hnow : now < e.expiresAt) (hcard : E.card < cap) : Fresh k e E m' := by
  refine ⟨?_, fun k' e' hne hk' => h.younger k' e' hne (hevicts.sub k' e' hk')⟩
  cases hk : m' k with
  | some e' => exact (hevicts.sub k e' hk).symm.trans h.entry
  | none =>
      obtain ⟨T, hT, hkT, hall⟩ := hevicts.dropped k e h.entry hk hnow
      have hTE : T ⊆ E := fun k' hk' => by
        obtain ⟨e', he', hle⟩ := hall k' hk'
        exact h.younger k' e' (fun heq => hkT (heq ▸ hk')) he' hle
      have := Finset.card_le_card hTE
      omega

section Calls

variable [DecidableEq K] [DecidableEq V]

/-- A call around which entries may be dropped. -/
def EvictingCall (cap ttl now : Nat) (op : Op K V) (m m' : TtlMap K V) (answer : Option V) : Prop :=
  ∃ m₁, Evicts cap now m m₁ ∧ answer = (exec ttl now m₁ op).2 ∧ Evicts cap now (exec ttl now m₁ op).1 m'

theorem exec_of_ne (ttl now : Nat) (m : TtlMap K V) (op : Op K V) {k : K} (h : k ≠ op.key) :
    (exec ttl now m op).1 k = m k := Function.update_of_ne h _ _

/-- An entry of a touched key expires `ttl` after the touch; other calls on a key leave no entry. -/
theorem exec_key {ttl now : Nat} {m : TtlMap K V} {op : Op K V} {e : Stamped V}
    (h : (exec ttl now m op).1 op.key = some e) :
    e.expiresAt = now + ttl ∧ op.touched (exec ttl now m op).2 = some op.key := by
  simp only [exec, Function.update_self] at h ⊢
  cases op with
  | lookup k allowed =>
      cases hm : m k with
      | none => simp [Op.key, hm, Op.onEntry] at h
      | some e' =>
          by_cases hhit : Hit now allowed e'
          · simp only [Op.key, hm, Op.onEntry, if_pos hhit, Option.some.injEq] at h ⊢
            exact ⟨h ▸ rfl, rfl⟩
          · simp [Op.key, hm, Op.onEntry, if_neg hhit] at h
  | bind k v => exact ⟨by rw [← Option.some.inj h], rfl⟩
  | remove k => simp [Op.onEntry] at h

theorem Aged.exec {x ttl now : Nat} {m : TtlMap K V} (h : Aged x m) (op : Op K V) (hnow : now + ttl < x) :
    Aged x (exec ttl now m op).1 := by
  intro k e hk
  by_cases hkey : k = op.key
  · subst hkey
    exact (exec_key hk).1 ▸ hnow
  · rw [exec_of_ne ttl now m op hkey] at hk
    exact h k e hk

/-- Calls at earlier times leave entries that expire earlier. -/
theorem Aged.call {cap x ttl now : Nat} {m m' : TtlMap K V} {op : Op K V} {answer : Option V} (h : Aged x m)
    (hcall : EvictingCall cap ttl now op m m' answer) (hnow : now + ttl < x) : Aged x m' := by
  obtain ⟨m₁, hbefore, -, hafter⟩ := hcall
  exact ((h.sub hbefore.sub).exec op hnow).sub hafter.sub

/-- Behind a call that touches `k`, all entries of the other keys are older. -/
theorem Fresh.of_touch {cap ttl now : Nat} (hcap : 0 < cap) (httl : 0 < ttl) {m m' : TtlMap K V} {op : Op K V} {k : K} {v : V}
    {answer : Option V} (haged : Aged (now + ttl) m) (hcall : EvictingCall cap ttl now op m m' answer)
    (htouch : op = .bind k v ∨ (∃ allowed, op = .lookup k allowed) ∧ answer = some v) :
    Fresh k ⟨v, now + ttl⟩ ∅ m' := by
  obtain ⟨m₁, hbefore, hanswer, hafter⟩ := hcall
  have haged₁ := haged.sub hbefore.sub
  have hkey : op.key = k := by rcases htouch with rfl | ⟨⟨allowed, rfl⟩, -⟩ <;> rfl
  have hentry : (exec ttl now m₁ op).1 k = some ⟨v, now + ttl⟩ := by
    rcases htouch with rfl | ⟨⟨allowed, rfl⟩, rfl⟩
    · simp [exec, Op.key, Op.onEntry]
    · simp only [exec, Op.key, Function.update_self] at hanswer ⊢
      cases hm : m₁ k with
      | none => simp [hm, Op.onEntry] at hanswer
      | some e =>
          by_cases hhit : Hit now allowed e
          · simp only [hm, Op.onEntry, if_pos hhit, Option.some.injEq] at hanswer ⊢
            rw [hanswer]
          · simp [hm, Op.onEntry, if_neg hhit] at hanswer
  refine Fresh.evicts ⟨hentry, fun k' e' hne hk' hle => ?_⟩ hafter (Nat.lt_add_of_pos_right httl) hcap
  rw [exec_of_ne ttl now m₁ op (hkey ▸ hne)] at hk'
  exact absurd (haged₁ k' e' hk') (Nat.not_lt.mpr hle)

/-- A lookup of a fresh entry that allows its value finds it. -/
theorem Fresh.hit {cap ttl now : Nat} {m m' : TtlMap K V} {k : K} {e : Stamped V} {E : Finset K} {allowed : Finset V}
    {answer : Option V} (h : Fresh k e E m) (hcall : EvictingCall cap ttl now (.lookup k allowed) m m' answer)
    (hnow : now < e.expiresAt) (hcard : E.card < cap) (hallowed : e.value ∈ allowed) : answer = some e.value := by
  obtain ⟨m₁, hbefore, rfl, -⟩ := hcall
  have hentry := (h.evicts hbefore hnow hcard).entry
  have hhit : Hit now allowed e := ⟨hnow, hallowed⟩
  simp [exec, Op.key, hentry, Op.onEntry, hhit]

/-- A call that neither removes nor disallows the entry leaves it, and only what it touches may outlast it; `E` holds the
keys touched so far, the one that the call touches included. -/
theorem Fresh.call {cap ttl now : Nat} {m m' : TtlMap K V} {op : Op K V} {k : K} {e : Stamped V} {E : Finset K}
    {answer : Option V} (h : Fresh k e E m) (hcall : EvictingCall cap ttl now op m m' answer) (hnow : now < e.expiresAt)
    (hcard : E.card < cap) (hremove : op ≠ .remove k) (hallowed : ∀ allowed, op = .lookup k allowed → e.value ∈ allowed)
    (htouched : op.touched answer ≠ some k) (hmem : ∀ k' ∈ op.touched answer, k' ∈ E) : Fresh k e E m' := by
  have hkey : k ≠ op.key := by
    rintro rfl
    cases op with
    | lookup k allowed =>
        have hanswer := h.hit hcall hnow hcard (hallowed allowed rfl)
        exact htouched (by rw [hanswer]; rfl)
    | bind k v => exact htouched rfl
    | remove k => exact hremove rfl
  obtain ⟨m₁, hbefore, rfl, hafter⟩ := hcall
  have h₁ := h.evicts hbefore hnow hcard
  refine Fresh.evicts ⟨(exec_of_ne ttl now m₁ op hkey).trans h₁.entry, fun k' e' hne hk' hle => ?_⟩ hafter hnow hcard
  by_cases hk : k' = op.key
  · subst hk
    exact hmem _ (exec_key hk').2
  · exact h₁.younger k' e' hne ((exec_of_ne ttl now m₁ op hk).symm.trans hk') hle

end Calls

end Lib.TtlMap
