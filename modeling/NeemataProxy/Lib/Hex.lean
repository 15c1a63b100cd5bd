import NeemataProxy.Lib.Ascii

/-!
# Hexadecimal numbers one behind the other

The digits of two numbers in a row do not say where the first ends. Other numbers give the same digits exactly when digits
have moved from the front of the second to the end of the first.
-/

namespace Lib.Str

theorem hex_ne_nil (n : Nat) : hex n ≠ [] := Nat.toDigits_ne_nil

theorem hex_of_le {n : Nat} (h : 16 ≤ n) : hex n = hex (n / 16) ++ [Nat.digitChar (n % 16)] :=
  Nat.toDigits_of_base_le (by decide) h

theorem hex_append_digit {n d : Nat} (hn : 0 < n) (hd : d < 16) : hex n ++ [Nat.digitChar d] = hex (n * 16 + d) := by
  have h := Nat.toDigits_append_toDigits (b := 16) (by decide) hn hd
  rw [Nat.toDigits_of_lt_base hd] at h
  rw [Nat.mul_comm]
  exact h

/-- The digits of two numbers in a row are those of one number, when the first is not zero. -/
theorem hex_append_hex {t : Nat} (ht : 0 < t) (u : Nat) : hex t ++ hex u = hex (t * 16 ^ (hex u).length + u) := by
  induction u using Nat.strong_induction_on with
  | _ u ih =>
  by_cases hu : u < 16
  · rw [show hex u = [Nat.digitChar u] from Nat.toDigits_of_lt_base hu]
    exact hex_append_digit ht hu
  · have hu : 16 ≤ u := Nat.le_of_not_lt hu
    have hlen : (hex u).length = (hex (u / 16)).length + 1 := by rw [hex_of_le hu, List.length_append]; rfl
    have hpos : 0 < t * 16 ^ (hex (u / 16)).length + u / 16 := Nat.add_pos_left (Nat.mul_pos ht (Nat.pow_pos (by decide))) _
    calc hex t ++ hex u = (hex t ++ hex (u / 16)) ++ [Nat.digitChar (u % 16)] := by rw [hex_of_le hu, List.append_assoc]
      _ = hex ((t * 16 ^ (hex (u / 16)).length + u / 16) * 16 + u % 16) := by
          rw [ih (u / 16) (by omega), hex_append_digit hpos (Nat.mod_lt u (by decide))]
      _ = hex (t * 16 ^ (hex u).length + u) := by
          rw [hlen, Nat.pow_succ, Nat.add_mul, Nat.mul_assoc, Nat.add_assoc, Nat.div_add_mod' u 16]

/-- The front digits of a number are those of its quotient. -/
theorem hex_front {a : Nat} {u v : Str} (h : hex a = u ++ v) (hu : u ≠ []) : u = hex (a / 16 ^ v.length) := by
  induction v using List.reverseRecOn generalizing a with
  | nil => simpa using h.symm
  | append_singleton v c ih =>
      have hlen : 2 ≤ (hex a).length := by
        have := List.length_pos_of_ne_nil hu
        rw [h, List.length_append, List.length_append]
        simp only [List.length_singleton]
        omega
      have ha : 16 ≤ a := by
        by_contra hlt
        have := length_hex_le (n := a) (k := 1) (by decide) (by omega)
        omega
      rw [hex_of_le ha, ← List.append_assoc] at h
      rw [ih (List.append_inj_left' h rfl), Nat.div_div_eq_div_mul, List.length_append, List.length_singleton, Nat.pow_succ,
        Nat.mul_comm]

theorem hex_inj {a b : Nat} (h : hex a = hex b) : a = b := by
  induction a using Nat.strong_induction_on generalizing b with
  | _ a ih =>
  have hdigit : ∀ d < 16, ∀ e < 16, Nat.digitChar d = Nat.digitChar e → d = e := by decide
  have hsmall : ∀ {n : Nat}, n < 16 ↔ (hex n).length ≤ 1 :=
    (Nat.length_toDigits_le_iff (b := 16) (k := 1) (by decide) (by decide)).symm
  by_cases ha : a < 16
  · have hb : b < 16 := hsmall.mpr (h ▸ hsmall.mp ha)
    rw [show hex a = [Nat.digitChar a] from Nat.toDigits_of_lt_base ha,
      show hex b = [Nat.digitChar b] from Nat.toDigits_of_lt_base hb] at h
    exact hdigit a ha b hb (List.cons.inj h).1
  · have hb : ¬ b < 16 := fun hb => ha (hsmall.mpr (h ▸ hsmall.mp hb))
    rw [hex_of_le (Nat.le_of_not_lt ha), hex_of_le (Nat.le_of_not_lt hb)] at h
    have hfront := ih (a / 16) (by omega) (List.append_inj_left' h rfl)
    have hlast := hdigit (a % 16) (Nat.mod_lt a (by decide)) (b % 16) (Nat.mod_lt b (by decide))
      (List.cons.inj (List.append_inj_right' h rfl)).1
    omega

/-- No digits follow a leading zero. -/
theorem eq_nil_of_hex_zero {n : Nat} {v : Str} (h : hex n = '0' :: v) : v = [] := by
  by_contra hv
  have hzero : n / 16 ^ v.length = 0 := hex_inj ((hex_front (u := ['0']) h (by simp)).symm.trans rfl)
  have hlt : n < 16 ^ v.length := (Nat.div_eq_zero_iff.mp hzero).resolve_left (Nat.ne_of_gt (Nat.pow_pos (by decide)))
  have hlen := length_hex_le (List.length_pos_of_ne_nil hv) hlt
  rw [h, List.length_cons] at hlen
  omega

theorem front_pos {a : Nat} {u v : Str} (h : hex a = u ++ v) (hu : u ≠ []) (hv : v ≠ []) : 0 < a / 16 ^ v.length := by
  refine Nat.pos_of_ne_zero fun hzero => hv (eq_nil_of_hex_zero (n := a) ?_)
  rw [h, hex_front h hu, hzero]
  rfl

/-- The first `d` digits of `a` have moved to the end of `t`. -/
structure Shifts (d t a u b : Nat) : Prop where
  moved : 0 < d
  pos : 0 < t
  length : (hex a).length = d + (hex b).length
  left : u = t * 16 ^ d + a / 16 ^ (hex b).length
  right : b = a % 16 ^ (hex b).length

theorem hex_of_shifts {d t a u b : Nat} (h : Shifts d t a u b) : hex t ++ hex a = hex u ++ hex b := by
  obtain ⟨p, q, hpq, hp⟩ : ∃ p q, hex a = p ++ q ∧ p.length = d :=
    ⟨(hex a).take d, (hex a).drop d, (List.take_append_drop _ _).symm, by rw [List.length_take, h.length]; omega⟩
  have hq : q.length = (hex b).length := by
    have hlen := congrArg List.length hpq
    rw [List.length_append, h.length, hp] at hlen
    omega
  have hpne : p ≠ [] := List.ne_nil_of_length_pos (hp ▸ h.moved)
  have hqne : q ≠ [] := List.ne_nil_of_length_pos (hq ▸ List.length_pos_of_ne_nil (hex_ne_nil b))
  have hfront := hex_front hpq hpne
  have hpos := front_pos hpq hpne hqne
  rw [hq] at hfront hpos
  have hwhole : hex a = p ++ hex b := by
    rw [hfront, hex_append_hex hpos]
    nth_rewrite 1 [← Nat.div_add_mod' a (16 ^ (hex b).length)]
    rw [← h.right]
  rw [hwhole, ← List.append_assoc]
  congr 1
  rw [h.left, hfront, hex_append_hex h.pos, ← hfront, hp]

theorem exists_shifts {t a u b : Nat} (hlt : (hex b).length < (hex a).length) (h : hex t ++ hex a = hex u ++ hex b) :
    ∃ d, Shifts d t a u b := by
  obtain ⟨v, hu, ha⟩ : ∃ v, hex u = hex t ++ v ∧ hex a = v ++ hex b := by
    rcases List.append_eq_append_iff.mp h with ⟨v, hu, ha⟩ | ⟨v, hu, ha⟩
    · exact ⟨v, hu, ha⟩
    · have hlen := congrArg List.length ha
      rw [List.length_append] at hlen
      omega
  have hlen : (hex a).length = v.length + (hex b).length := by rw [ha, List.length_append]
  have hv : v ≠ [] := List.ne_nil_of_length_pos (by omega)
  have ht : 0 < t := by
    refine Nat.pos_of_ne_zero fun hzero => hv (eq_nil_of_hex_zero (n := u) ?_)
    rw [hu, hzero]
    rfl
  have hfront := hex_front ha hv
  have hwhole : a / 16 ^ (hex b).length * 16 ^ (hex b).length + b = a := by
    refine hex_inj ?_
    rw [← hex_append_hex (front_pos ha hv (hex_ne_nil b)), ← hfront, ha]
  refine ⟨v.length, List.length_pos_of_ne_nil hv, ht, hlen, hex_inj ?_, ?_⟩
  · rw [hu, hfront, hex_append_hex ht, ← hfront]
  · have hsplit := Nat.div_add_mod' a (16 ^ (hex b).length)
    omega

/-- Two numbers in a row have the digits of two others only when digits have moved. -/
theorem hex_append_eq_iff {t a u b : Nat} :
    hex t ++ hex a = hex u ++ hex b ↔ (t = u ∧ a = b) ∨ (∃ d, Shifts d t a u b) ∨ ∃ d, Shifts d u b t a := by
  constructor
  · intro h
    rcases Nat.lt_trichotomy (hex b).length (hex a).length with hlt | heq | hgt
    · exact .inr (.inl (exists_shifts hlt h))
    · obtain ⟨ht, ha⟩ := List.append_inj' h heq.symm
      exact .inl ⟨hex_inj ht, hex_inj ha⟩
    · exact .inr (.inr (exists_shifts hgt h.symm))
  · rintro (⟨rfl, rfl⟩ | ⟨d, h⟩ | ⟨d, h⟩)
    · rfl
    · exact hex_of_shifts h
    · exact (hex_of_shifts h).symm

/-- The first number has become longer. -/
theorem Shifts.length_lt {d t a u b : Nat} (h : Shifts d t a u b) : (hex t).length < (hex u).length := by
  have happend := congrArg List.length (hex_of_shifts h)
  have hmoved := h.moved
  rw [List.length_append, List.length_append, h.length] at happend
  omega

end Lib.Str
