import Mathlib

/-!
# Strings as character lists

A `str` is the list of its characters. Byte offsets are those of its UTF-8 encoding, so slicing at an
offset that is out of range or inside a character panics.
-/

namespace Lib

abbrev Str := List Char

/-- Why a computation was aborted. -/
inductive Panic where
  | sliceIndex
  | invalidHeaderName
  deriving DecidableEq, Repr

namespace Str

/-- The text of a literal. -/
abbrev lit (s : String) : Str := s.toList

/-- `s.len()`: the number of bytes. -/
def len (s : Str) : Nat := (s.map Char.utf8Size).sum

/-- `&s[n..]`. -/
def sliceFrom (n : Nat) : Str → Except Panic Str
  | [] => if n = 0 then .ok [] else .error .sliceIndex
  | c :: s =>
      if n = 0 then .ok (c :: s)
      else if c.utf8Size ≤ n then sliceFrom (n - c.utf8Size) s
      else .error .sliceIndex

/-- `&s[..n]`. -/
def sliceTo (n : Nat) : Str → Except Panic Str
  | [] => if n = 0 then .ok [] else .error .sliceIndex
  | c :: s =>
      if n = 0 then .ok []
      else if c.utf8Size ≤ n then (sliceTo (n - c.utf8Size) s).map (c :: ·)
      else .error .sliceIndex

/-- `s.split_once(c)`. -/
def splitOnce (c : Char) : Str → Option (Str × Str)
  | [] => none
  | d :: s => if d = c then some ([], s) else (splitOnce c s).map (fun p => (d :: p.1, p.2))

/-- `s.rsplit_once(c)`. -/
def rsplitOnce (c : Char) (s : Str) : Option (Str × Str) :=
  (splitOnce c s.reverse).map (fun p => (p.2.reverse, p.1.reverse))

/-- `s.find(c)`: the byte offset of the first `c`. -/
def findByte (c : Char) (s : Str) : Option Nat := (splitOnce c s).map (fun p => len p.1)

/-- The characters that `str::trim` removes. -/
def isWhitespace (c : Char) : Bool :=
  let n := c.toNat
  (9 ≤ n && n ≤ 13) || n == 0x20 || n == 0x85 || n == 0xA0 || n == 0x1680 || (0x2000 ≤ n && n ≤ 0x200A)
    || n == 0x2028 || n == 0x2029 || n == 0x202F || n == 0x205F || n == 0x3000

/-- `s.trim()`. -/
def trim (s : Str) : Str := ((s.dropWhile isWhitespace).reverse.dropWhile isWhitespace).reverse

/-- `s.to_ascii_lowercase()`. -/
def toAsciiLowercase (s : Str) : Str := s.map Char.toLower

/-- `n.to_string()`. -/
def decimal (n : Nat) : Str := Nat.toDigits 10 n

/-- `format!("{:x}", n)`. -/
def hex (n : Nat) : Str := Nat.toDigits 16 n

/-! ## Lengths and slices -/

@[simp] theorem len_nil : len [] = 0 := rfl

@[simp] theorem len_cons (c : Char) (s : Str) : len (c :: s) = c.utf8Size + len s := by simp [len]

@[simp] theorem len_append (s t : Str) : len (s ++ t) = len s + len t := by simp [len]

/-- Slicing off a prefix never leaves the string. -/
theorem sliceFrom_append (s t : Str) : sliceFrom (len s) (s ++ t) = .ok t := by
  induction s with
  | nil => cases t <;> simp [sliceFrom]
  | cons c s ih =>
      have hpos := Char.utf8Size_pos c
      simp [sliceFrom, ih, Nat.ne_of_gt hpos]

theorem sliceTo_append (s t : Str) : sliceTo (len s) (s ++ t) = .ok s := by
  induction s with
  | nil => cases t <;> simp [sliceTo]
  | cons c s ih =>
      have hpos := Char.utf8Size_pos c
      simp [sliceTo, ih, Nat.ne_of_gt hpos, Except.map]

/-! ## Trimming -/

theorem dropWhile_of_head? {p : Char → Bool} {s : Str} (h : ∀ c ∈ s.head?, p c = false) : s.dropWhile p = s := by
  cases s with
  | nil => rfl
  | cons c s => exact List.dropWhile_cons_of_neg (by simp [h c rfl])

theorem trim_of_ends {s : Str} (hhead : ∀ c ∈ s.head?, isWhitespace c = false)
    (hlast : ∀ c ∈ s.getLast?, isWhitespace c = false) : trim s = s := by
  rw [trim, dropWhile_of_head? hhead, dropWhile_of_head? (by simpa using hlast), List.reverse_reverse]

theorem trim_cons_of_isWhitespace {c : Char} (h : isWhitespace c = true) (s : Str) : trim (c :: s) = trim s := by
  rw [trim, List.dropWhile_cons_of_pos h, ← trim]

/-- What is trimmed does not begin with a blank. -/
theorem head?_trim (s : Str) : ∀ c ∈ (trim s).head?, isWhitespace c = false := by
  intro c hc
  have hprefix : trim s <+: s.dropWhile isWhitespace := by
    have := List.dropWhile_suffix (l := (s.dropWhile isWhitespace).reverse) isWhitespace
    simpa [trim] using List.reverse_prefix.mpr this
  obtain ⟨rest, hrest⟩ := hprefix
  have hhead : (s.dropWhile isWhitespace).head? = some c := by
    rw [← hrest, List.head?_append, hc]
    rfl
  simpa [hhead] using List.head?_dropWhile_not isWhitespace s

theorem trim_append_of_head? {s : Str} (hhead : ∀ c ∈ s.head?, isWhitespace c = false) :
    ∃ t, s = trim s ++ t ∧ ∀ c ∈ t, isWhitespace c = true := by
  refine ⟨(s.reverse.takeWhile isWhitespace).reverse, ?_, fun c hc => ?_⟩
  · rw [trim, dropWhile_of_head? hhead, ← List.reverse_append, List.takeWhile_append_dropWhile, List.reverse_reverse]
  · exact List.mem_takeWhile_imp (by simpa using hc)

theorem trim_append_of_blank (s : Str) {r : Str} (hr : ∀ c ∈ r, isWhitespace c = true) : trim (s ++ r) = trim s := by
  have hrev : ∀ c ∈ r.reverse, isWhitespace c = true := fun c hc => hr c (List.mem_reverse.mp hc)
  rw [trim, trim, List.dropWhile_append]
  split
  · rename_i hall
    rw [List.isEmpty_iff.mp hall, List.dropWhile_eq_nil_iff.mpr hr]
  · rw [List.reverse_append, List.dropWhile_append_of_pos hrev]

theorem trim_blank_append {l : Str} (hl : ∀ c ∈ l, isWhitespace c = true) (s : Str) : trim (l ++ s) = trim s := by
  rw [trim, List.dropWhile_append_of_pos hl, ← trim]

/-! ## Splitting -/

theorem splitOnce_eq_some {c : Char} {s p q : Str} :
    splitOnce c s = some (p, q) ↔ c ∉ p ∧ s = p ++ c :: q := by
  induction s generalizing p with
  | nil => simp [splitOnce]
  | cons d s ih =>
      by_cases h : d = c
      · subst h
        cases p with
        | nil => simp [splitOnce, eq_comm]
        | cons e p => simpa [splitOnce] using fun h _ he => absurd he h
      · cases p with
        | nil => simp [splitOnce, h]
        | cons e p => simp [splitOnce, h, ih]; grind

theorem splitOnce_eq_none {c : Char} {s : Str} : splitOnce c s = none ↔ c ∉ s := by
  induction s with
  | nil => simp [splitOnce]
  | cons d s ih => by_cases h : d = c <;> simp [splitOnce, h, ih]; grind

theorem rsplitOnce_eq_some {c : Char} {s p q : Str} : rsplitOnce c s = some (p, q) ↔ c ∉ q ∧ s = p ++ c :: q := by
  rw [rsplitOnce, Option.map_eq_some_iff]
  constructor
  · rintro ⟨⟨p', q'⟩, h, heq⟩
    obtain ⟨hc, hs⟩ := splitOnce_eq_some.mp h
    obtain ⟨rfl, rfl⟩ := Prod.mk.inj heq
    exact ⟨by simpa using hc, by simpa using congrArg List.reverse hs⟩
  · rintro ⟨hc, rfl⟩
    exact ⟨(q.reverse, p.reverse), splitOnce_eq_some.mpr ⟨by simpa using hc, by simp⟩, by simp⟩

/-- A character is in one of the parts, or is the separator. -/
theorem mem_splitOn_or_eq {s : Str} (d : Char) {c : Char} (h : c ∈ s) : (∃ p ∈ s.splitOn d, c ∈ p) ∨ c = d := by
  have hjoin : ∀ parts : List Str, c ∈ [d].intercalate parts → (∃ p ∈ parts, c ∈ p) ∨ c = d := fun parts => by
    induction parts with
    | nil => exact nofun
    | cons p parts ih =>
        cases parts with
        | nil => exact fun hc => .inl ⟨p, List.mem_cons_self, by rwa [List.intercalate_singleton] at hc⟩
        | cons q parts =>
            rw [List.intercalate_cons_cons, List.append_assoc, List.mem_append, List.mem_append, List.mem_singleton]
            rintro (hc | rfl | hc)
            · exact .inl ⟨p, List.mem_cons_self, hc⟩
            · exact .inr rfl
            · exact (ih hc).imp_left fun ⟨r, hr, hcr⟩ => ⟨r, List.mem_cons_of_mem p hr, hcr⟩
  exact hjoin _ (by rwa [List.intercalate_splitOn])

/-- The first non-empty part of a string that is split at `c`. -/
theorem head?_parts_eq_some {c : Char} (s seg : Str) :
    ((s.splitOn c).filter (fun p => p ≠ [])).head? = some seg ↔
      ∃ pre post, s = pre ++ seg ++ post ∧ (∀ d ∈ pre, d = c) ∧ seg ≠ [] ∧ c ∉ seg ∧
        (post = [] ∨ post.head? = some c) := by
  induction hn : s.length using Nat.strong_induction_on generalizing s with
  | _ n ih =>
  cases hsplit : splitOnce c s with
  | none =>
      have hc : c ∉ s := splitOnce_eq_none.mp hsplit
      rw [List.splitOn_eq_singleton hc]
      constructor
      · intro h
        obtain ⟨hne, rfl⟩ : s ≠ [] ∧ s = seg := by by_cases hs : s = [] <;> simp_all
        exact ⟨[], [], by simp, by simp, hne, hc, .inl rfl⟩
      · rintro ⟨pre, post, rfl, hpre, hne, _, hpost⟩
        obtain rfl : pre = [] := by
          cases pre with
          | nil => rfl
          | cons d pre => simp [hpre d List.mem_cons_self] at hc
        obtain rfl : post = [] := by
          cases post with
          | nil => rfl
          | cons d post => simp_all
        simp [hne]
  | some p =>
      obtain ⟨p, q⟩ := p
      obtain ⟨hc, rfl⟩ := splitOnce_eq_some.mp hsplit
      rw [List.splitOn_append_cons_self_of_not_mem hc]
      cases p with
      | nil =>
          -- a separator in front belongs to no part
          have ih' := ih q.length (by simp [← hn]) q rfl
          simp only [ne_eq, decide_not, List.nil_append] at ih' ⊢
          rw [List.filter_cons_of_neg (by simp), ih']
          constructor
          · rintro ⟨pre, post, rfl, hpre, h⟩
            exact ⟨c :: pre, post, by simp, by simpa using hpre, h⟩
          · rintro ⟨pre, post, h, hpre, hne, hseg, hpost⟩
            cases pre with
            | nil =>
                cases seg with
                | nil => exact absurd rfl hne
                | cons d seg => simp only [List.nil_append, List.cons_append, List.cons.injEq] at h; simp [h.1] at hseg
            | cons d pre =>
                simp only [List.cons_append, List.cons.injEq] at h
                exact ⟨pre, post, by simpa using h.2, fun e he => hpre e (List.mem_cons_of_mem _ he), hne, hseg, hpost⟩
      | cons d p =>
          rw [List.filter_cons_of_pos (by simp), List.head?_cons]
          constructor
          · intro h
            obtain rfl := Option.some.inj h
            exact ⟨[], c :: q, by simp, by simp, by simp, hc, .inr rfl⟩
          · rintro ⟨pre, post, h, hpre, hne, hseg, hpost⟩
            obtain rfl : pre = [] := by
              cases pre with
              | nil => rfl
              | cons e pre =>
                  simp only [List.cons_append, List.cons.injEq] at h
                  exact absurd (hpre e List.mem_cons_self) (fun he => hc (by simp [h.1, he]))
            simp only [List.nil_append] at h
            obtain ⟨post, rfl⟩ : ∃ r, post = c :: r := by
              rcases hpost with rfl | hpost
              · exact absurd (h ▸ (by simp : c ∈ d :: p ++ c :: q)) (by simpa using hseg)
              · cases post with
                | nil => simp at hpost
                | cons e r => exact ⟨r, by simp_all⟩
            -- both sides are cut at their first `c`
            have h₁ : splitOnce c (seg ++ c :: post) = some (seg, post) := splitOnce_eq_some.mpr ⟨hseg, rfl⟩
            rw [← h, hsplit] at h₁
            simpa using (Prod.mk.inj (Option.some.inj h₁)).1

end Str

end Lib
