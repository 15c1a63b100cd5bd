import NeemataProxy.Lib.Str

/-!
# Letter case and bytes

ASCII lower case changes letters only, so it keeps lengths and everything that is cut at a character other than a
letter. The bytes of a text are visible ASCII exactly when its characters are.
-/

namespace Lib

/-! ## Characters -/

theorem isUpper_iff {c : Char} : c.isUpper = true ↔ 65 ≤ c.toNat ∧ c.toNat ≤ 90 := by
  simp [Char.isUpper, UInt32.le_iff_toNat_le]

theorem isLower_iff {c : Char} : c.isLower = true ↔ 97 ≤ c.toNat ∧ c.toNat ≤ 122 := by
  simp [Char.isLower, UInt32.le_iff_toNat_le]

theorem isDigit_iff {c : Char} : c.isDigit = true ↔ 48 ≤ c.toNat ∧ c.toNat ≤ 57 := by
  simp [Char.isDigit, UInt32.le_iff_toNat_le]

theorem toNat_toLower (c : Char) : c.toLower.toNat = if c.isUpper then c.toNat + 32 else c.toNat := by
  by_cases h : c.isUpper
  · have hle := isUpper_iff.mp h
    rw [if_pos h, Char.toLower, dif_pos (by simpa [Char.isUpper] using h)]
    change (c.val + ('a'.val - 'A'.val)).toNat = c.val.toNat + 32
    have hval : c.val.toNat ≤ 90 := hle.2
    rw [UInt32.toNat_add, show ('a'.val - 'A'.val).toNat = 32 from rfl]
    exact Nat.mod_eq_of_lt (by omega)
  · rw [if_neg h, Char.toLower, dif_neg (by simpa [Char.isUpper] using h)]

theorem toLower_of_not_isUpper {c : Char} (h : c.isUpper = false) : c.toLower = c :=
  Char.toNat_inj.mp (by rw [toNat_toLower, if_neg (by simp [h])])

/-- Only a character that is no letter is turned into itself alone. -/
theorem toLower_eq_iff {c d : Char} (hupper : d.isUpper = false) (hlower : d.isLower = false) :
    c.toLower = d ↔ c = d := by
  constructor
  · rintro rfl
    refine (toLower_of_not_isUpper ?_).symm
    by_contra h
    have hc := isUpper_iff.mp (by simpa using h)
    have : c.toLower.isLower = true := by
      rw [isLower_iff, toNat_toLower, if_pos (by simpa using h)]
      omega
    simp [this] at hlower
  · rintro rfl
    exact toLower_of_not_isUpper hupper

theorem isDigit_toLower (c : Char) : c.toLower.isDigit = c.isDigit := by
  rw [Bool.eq_iff_iff, isDigit_iff, isDigit_iff, toNat_toLower]
  split
  · have := isUpper_iff.mp ‹_›
    omega
  · rfl

theorem utf8Size_eq_one {c : Char} (h : c.toNat < 128) : c.utf8Size = 1 := by
  rw [Char.utf8Size_eq_one_iff, UInt32.le_iff_toNat_le]
  exact Nat.le_of_lt_succ h

/-- A visible ASCII character, a space or a tab. -/
def isVisible (c : Char) : Bool := (32 ≤ c.toNat && c.toNat < 127) || c.toNat == 9

theorem isVisible_iff {c : Char} : isVisible c = true ↔ (32 ≤ c.toNat ∧ c.toNat < 127) ∨ c.toNat = 9 := by
  simp [isVisible]

theorem isVisible_of_isDigit {c : Char} (h : c.isDigit = true) : isVisible c = true := by
  have := isDigit_iff.mp h
  exact isVisible_iff.mpr (by omega)

theorem isVisible_toLower (c : Char) : isVisible c.toLower = isVisible c := by
  rw [Bool.eq_iff_iff, isVisible_iff, isVisible_iff, toNat_toLower]
  split
  · have := isUpper_iff.mp ‹_›
    omega
  · rfl

theorem isAlphanum_iff {c : Char} : c.isAlphanum = true ↔
    (65 ≤ c.toNat ∧ c.toNat ≤ 90) ∨ (97 ≤ c.toNat ∧ c.toNat ≤ 122) ∨ (48 ≤ c.toNat ∧ c.toNat ≤ 57) := by
  simp [Char.isAlphanum, Char.isAlpha, isUpper_iff, isLower_iff, isDigit_iff, or_assoc]

namespace Str

/-! ## Numbers -/

theorem isAlphanum_of_mem_hex {n : Nat} {c : Char} (h : c ∈ hex n) : c.isAlphanum = true := by
  have hdigit : ∀ d < 16, (Nat.digitChar d).isAlphanum = true := by decide
  induction n using Nat.strong_induction_on with
  | _ n ih =>
  rw [hex, Nat.toDigits_eq_if (by decide)] at h
  split at h
  · rw [List.mem_singleton.mp h]
    exact hdigit n ‹_›
  · rcases List.mem_append.mp h with h | h
    · exact ih (n / 16) (by omega) h
    · rw [List.mem_singleton.mp h]
      exact hdigit _ (Nat.mod_lt n (by decide))

theorem length_hex_le {n k : Nat} (hk : 0 < k) (h : n < 16 ^ k) : (hex n).length ≤ k :=
  (Nat.length_toDigits_le_iff (by decide) hk).mpr h

theorem isDigit_of_mem_decimal {n : Nat} {c : Char} (h : c ∈ decimal n) : c.isDigit = true :=
  Nat.isDigit_of_mem_toDigits (by decide) (by decide) h

/-- A text of ASCII characters has one byte for each. -/
theorem len_eq_length {s : Str} (h : ∀ c ∈ s, c.toNat < 128) : len s = s.length := by
  induction s with
  | nil => rfl
  | cons c s ih =>
      rw [len_cons, ih fun d hd => h d (List.mem_cons_of_mem c hd), utf8Size_eq_one (h c List.mem_cons_self),
        List.length_cons, Nat.add_comm]

/-! ## Lower case -/

theorem length_toAsciiLowercase (s : Str) : (toAsciiLowercase s).length = s.length := List.length_map _

theorem toAsciiLowercase_append (s t : Str) : toAsciiLowercase (s ++ t) = toAsciiLowercase s ++ toAsciiLowercase t :=
  List.map_append

theorem toAsciiLowercase_of_not_upper {s : Str} (h : s.any Char.isUpper = false) : toAsciiLowercase s = s := by
  refine (List.map_congr_left fun c hc => ?_).trans (List.map_id s)
  exact toLower_of_not_isUpper (by simpa using List.any_eq_false.mp h c hc)

theorem all_isVisible_toAsciiLowercase (s : Str) : (toAsciiLowercase s).all isVisible = s.all isVisible := by
  simp [toAsciiLowercase, Function.comp_def, isVisible_toLower]

/-- Cutting at a character that is no letter goes along with lower case. -/
theorem splitOnce_toAsciiLowercase {c : Char} (hupper : c.isUpper = false) (hlower : c.isLower = false) (s : Str) :
    splitOnce c (toAsciiLowercase s) =
      (splitOnce c s).map fun p => (toAsciiLowercase p.1, toAsciiLowercase p.2) := by
  induction s with
  | nil => rfl
  | cons d s ih =>
      by_cases hd : d = c
      · subst hd
        simp [splitOnce, toAsciiLowercase, toLower_of_not_isUpper hupper]
      · have hd' : d.toLower ≠ c := mt (toLower_eq_iff hupper hlower).mp hd
        rw [show toAsciiLowercase (d :: s) = d.toLower :: toAsciiLowercase s from rfl, splitOnce, if_neg hd', ih,
          splitOnce, if_neg hd]
        cases splitOnce c s <;> rfl

theorem rsplitOnce_toAsciiLowercase {c : Char} (hupper : c.isUpper = false) (hlower : c.isLower = false) (s : Str) :
    rsplitOnce c (toAsciiLowercase s) =
      (rsplitOnce c s).map fun p => (toAsciiLowercase p.1, toAsciiLowercase p.2) := by
  have hrev : ∀ t : Str, (toAsciiLowercase t).reverse = toAsciiLowercase t.reverse := fun t => List.map_reverse.symm
  rw [rsplitOnce, hrev, splitOnce_toAsciiLowercase hupper hlower, rsplitOnce, Option.map_map, Option.map_map]
  congr 1
  funext p
  simp [hrev]

/-! ## Bytes -/

/-- The UTF-8 bytes of a text. -/
def bytes (s : Str) : List UInt8 := s.flatMap String.utf8EncodeChar

/-- A byte of a visible character. -/
def isVisibleByte (b : UInt8) : Bool := (32 ≤ b.toNat && b.toNat < 127) || b.toNat == 9

theorem utf8EncodeChar_of_lt {c : Char} (h : c.toNat < 128) : String.utf8EncodeChar c = [UInt8.ofNat c.toNat] := by
  rw [String.utf8EncodeChar_eq_singleton (utf8Size_eq_one h), Char.toNat]
  rfl

/-- A character above 127 has a byte above 127. -/
theorem exists_mem_utf8EncodeChar {c : Char} (h : 128 ≤ c.toNat) : ∃ b ∈ String.utf8EncodeChar c, 128 ≤ b.toNat := by
  have hor : ∀ (a : UInt8) {m : UInt8}, 128 ≤ m.toNat → 128 ≤ (a ||| m).toNat := fun a m hm => by
    rw [UInt8.toNat_or]
    exact hm.trans Nat.right_le_or
  have hsize : c.utf8Size = 1 ∨ c.utf8Size = 2 ∨ c.utf8Size = 3 ∨ c.utf8Size = 4 := by
    have := Char.utf8Size_pos c
    have := Char.utf8Size_le_four c
    omega
  rcases hsize with h₁ | h₂ | h₃ | h₄
  · rw [Char.utf8Size_eq_one_iff, UInt32.le_iff_toNat_le] at h₁
    exact absurd h (Nat.not_le_of_lt (Nat.lt_succ_of_le h₁))
  · exact ⟨_, by rw [String.utf8EncodeChar_eq_cons_cons h₂]; exact List.mem_cons_self, hor _ (by decide)⟩
  · exact ⟨_, by rw [String.utf8EncodeChar_eq_cons_cons_cons h₃]; exact List.mem_cons_self, hor _ (by decide)⟩
  · exact ⟨_, by rw [String.utf8EncodeChar_eq_cons_cons_cons_cons h₄]; exact List.mem_cons_self, hor _ (by decide)⟩

/-- The bytes of a text are visible exactly when its characters are. -/
theorem all_isVisibleByte_bytes (s : Str) : (bytes s).all isVisibleByte = s.all isVisible := by
  have hchar : ∀ c : Char, (String.utf8EncodeChar c).all isVisibleByte = isVisible c := by
    intro c
    by_cases h : c.toNat < 128
    · have hbyte : (UInt8.ofNat c.toNat).toNat = c.toNat := by
        rw [UInt8.toNat_ofNat']
        exact Nat.mod_eq_of_lt (by omega)
      simp [utf8EncodeChar_of_lt h, isVisibleByte, isVisible, hbyte]
    · obtain ⟨b, hb, hle⟩ := exists_mem_utf8EncodeChar (Nat.le_of_not_lt h)
      have hno : isVisible c = false := by
        rw [Bool.eq_false_iff, ne_eq, isVisible_iff]
        omega
      rw [hno, List.all_eq_false]
      refine ⟨b, hb, ?_⟩
      simp only [isVisibleByte, Bool.or_eq_true, Bool.and_eq_true, decide_eq_true_eq, beq_iff_eq]
      omega
  induction s with
  | nil => rfl
  | cons c s ih => rw [bytes, List.flatMap_cons, List.all_append, hchar, ← bytes, ih, List.all_cons]

/-- A text of single bytes. -/
def ofBytes (bs : List UInt8) : Str := bs.map fun b => Char.ofNat b.toNat

theorem toNat_ofNat_byte (b : UInt8) : (Char.ofNat b.toNat).toNat = b.toNat := by
  have := b.toNat_lt
  rw [Char.toNat_ofNat, if_pos (.inl (by omega))]

theorem ofBytes_inj {bs bs' : List UInt8} : ofBytes bs = ofBytes bs' ↔ bs = bs' := by
  refine List.map_inj_right fun b b' h => UInt8.toNat_inj.mp ?_
  rw [← toNat_ofNat_byte b, h, toNat_ofNat_byte]

theorem mem_ofBytes {bs : List UInt8} {c : Char} : c ∈ ofBytes bs ↔ ∃ b ∈ bs, b.toNat = c.toNat := by
  simp only [ofBytes, List.mem_map]
  refine exists_congr fun b => and_congr_right fun _ => ⟨?_, fun h => ?_⟩
  · rintro rfl
    exact (toNat_ofNat_byte b).symm
  · rw [h, Char.ofNat_toNat]

/-- The characters of visible bytes give the text back. -/
theorem ofBytes_bytes {s : Str} (h : s.all isVisible = true) : ofBytes (bytes s) = s := by
  induction s with
  | nil => rfl
  | cons c s ih =>
      rw [List.all_cons, Bool.and_eq_true] at h
      have hlt : c.toNat < 128 := by
        have := isVisible_iff.mp h.1
        omega
      have hbyte : (UInt8.ofNat c.toNat).toNat = c.toNat := by
        rw [UInt8.toNat_ofNat']
        exact Nat.mod_eq_of_lt (by omega)
      have hcons : ofBytes (bytes (c :: s)) = ofBytes (String.utf8EncodeChar c) ++ ofBytes (bytes s) := by
        rw [bytes, List.flatMap_cons, ofBytes, List.map_append]
        rfl
      rw [hcons, ih h.2, utf8EncodeChar_of_lt hlt]
      simp [ofBytes, hbyte]

theorem all_isVisible_ofBytes (bs : List UInt8) : (ofBytes bs).all isVisible = bs.all isVisibleByte := by
  simp only [ofBytes, List.all_map, Function.comp_def, isVisible, toNat_ofNat_byte]
  rfl

theorem bytes_ofBytes {bs : List UInt8} (h : bs.all isVisibleByte = true) : bytes (ofBytes bs) = bs :=
  ofBytes_inj.mp (ofBytes_bytes ((all_isVisible_ofBytes bs).trans h))

end Str

end Lib
