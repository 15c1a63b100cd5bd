import NeemataProxy.Router.Cookie

/-!
# Cookies over several fields

A client may spread its cookies over several fields, and other applications put what they like into them. The affinity
cookie is looked up in the first field only, and only when every byte of that field is visible ASCII.
-/

namespace NeemataProxy.Routing

open Lib

/-! ## Pairs and fields -/

/-- A cookie as it is sent: a name without `=`, `;` and a blank in front, and a value without `;`. -/
structure CookiePair where
  name : List UInt8
  value : List UInt8
  name_ok : ∀ b ∈ name, b ≠ 61 ∧ b ≠ 59
  head_ok : ∀ b ∈ name.head?, b ≠ 32 ∧ b ≠ 9
  value_ok : ∀ b ∈ value, b ≠ 59

def isBlank (b : UInt8) : Bool := b == 32 || b == 9

def trimBlanks (value : List UInt8) : List UInt8 := ((value.dropWhile isBlank).reverse.dropWhile isBlank).reverse

/-- The key that a pair carries: its trimmed value, when the name is the wanted one and the value is safe. -/
def CookiePair.carried (cookieName : Str) (p : CookiePair) : Option Str :=
  let value := Str.ofBytes (trimBlanks p.value)
  if p.name = Str.bytes cookieName && isCookieSafeAffinityKey value then some value else none

/-- The pairs of a field, each with the number of spaces in front of it. -/
abbrev CookieField := List (Nat × CookiePair)

/-- A pair with spaces in front of it. -/
def pieceBytes (piece : Nat × CookiePair) : List UInt8 :=
  List.replicate piece.1 32 ++ piece.2.name ++ 61 :: piece.2.value

def CookieField.bytes (field : CookieField) : List UInt8 := [59].intercalate (field.map pieceBytes)

def CookieField.pairs (field : CookieField) : List CookiePair := field.map Prod.snd

/-- The first key that the pairs of the fields carry. -/
def carriedKey (cookieName : Str) (fields : List CookieField) : Option Str :=
  (fields.flatMap CookieField.pairs).findSome? (CookiePair.carried cookieName)

/-! ## One pair -/

theorem dropWhile_congr {α : Type*} {p q : α → Bool} {l : List α} (h : ∀ a ∈ l, p a = q a) :
    l.dropWhile p = l.dropWhile q := by
  induction l with
  | nil => rfl
  | cons a l ih =>
      have ha := h a List.mem_cons_self
      rw [List.dropWhile_cons, List.dropWhile_cons, ha, ih fun b hb => h b (List.mem_cons_of_mem a hb)]

/-- The blanks among visible bytes are those that `str::trim` removes. -/
theorem isWhitespace_ofNat {b : UInt8} (h : Str.isVisibleByte b = true) :
    Str.isWhitespace (Char.ofNat b.toNat) = isBlank b := by
  simp only [Str.isVisibleByte, Bool.or_eq_true, Bool.and_eq_true, decide_eq_true_eq, beq_iff_eq] at h
  rw [Bool.eq_iff_iff]
  simp only [Str.isWhitespace, Str.toNat_ofNat_byte, isBlank, Bool.or_eq_true, Bool.and_eq_true, decide_eq_true_eq,
    beq_iff_eq, ← UInt8.toNat_inj]
  simp only [UInt8.reduceToNat]
  omega

theorem trim_ofBytes {value : List UInt8} (h : value.all Str.isVisibleByte = true) :
    Str.trim (Str.ofBytes value) = Str.ofBytes (trimBlanks value) := by
  have hdrop : ∀ bs : List UInt8, bs.all Str.isVisibleByte = true →
      (Str.ofBytes bs).dropWhile Str.isWhitespace = Str.ofBytes (bs.dropWhile isBlank) := fun bs hbs => by
    have hcongr : bs.dropWhile (Str.isWhitespace ∘ fun b => Char.ofNat b.toNat) = bs.dropWhile isBlank :=
      dropWhile_congr fun b hb => isWhitespace_ofNat (List.all_eq_true.mp hbs b hb)
    rw [Str.ofBytes, List.dropWhile_map, hcongr, Str.ofBytes]
  have hrev : ∀ bs : List UInt8, (Str.ofBytes bs).reverse = Str.ofBytes bs.reverse := fun bs => List.map_reverse.symm
  have hvisible : (value.dropWhile isBlank).reverse.all Str.isVisibleByte = true := by
    rw [List.all_reverse, List.all_eq_true]
    exact fun b hb => List.all_eq_true.mp h b ((List.dropWhile_sublist _).subset hb)
  rw [Str.trim, hdrop value h, hrev, hdrop _ hvisible, hrev, trimBlanks]

theorem ofBytes_eq_iff {name : List UInt8} (h : name.all Str.isVisibleByte = true) (cookieName : Str) :
    Str.ofBytes name = cookieName ↔ name = Str.bytes cookieName := by
  constructor
  · rintro rfl
    exact (Str.bytes_ofBytes h).symm
  · rintro rfl
    exact Str.ofBytes_bytes (Str.all_isVisibleByte_bytes cookieName ▸ h)

/-- What `extract_cookie_value` makes of one visible pair. -/
theorem cookiePairValue_piece (cookieName : Str) {piece : Nat × CookiePair}
    (h : (pieceBytes piece).all Str.isVisibleByte = true) :
    cookiePairValue cookieName (Str.ofBytes (pieceBytes piece)) = piece.2.carried cookieName := by
  obtain ⟨spaces, p⟩ := piece
  have htext : Str.ofBytes (pieceBytes (spaces, p)) =
      List.replicate spaces ' ' ++ (Str.ofBytes p.name ++ '=' :: Str.ofBytes p.value) := by
    simp [pieceBytes, Str.ofBytes]
  simp only [pieceBytes, List.all_append, List.all_cons, Bool.and_eq_true] at h
  obtain ⟨⟨-, hname⟩, -, hvalue⟩ := h
  have hblank : ∀ c ∈ (Str.ofBytes p.name).head?, Str.isWhitespace c = false := fun c hc => by
    rw [Str.ofBytes, List.head?_map] at hc
    obtain ⟨b, hb, rfl⟩ := Option.map_eq_some_iff.mp hc
    rw [isWhitespace_ofNat (List.all_eq_true.mp hname b (List.mem_of_head? hb))]
    simpa [isBlank] using p.head_ok b hb
  have heq : '=' ∉ Str.ofBytes p.name := fun hmem => by
    obtain ⟨b, hb, hcode⟩ := Str.mem_ofBytes.mp hmem
    exact (p.name_ok b hb).1 (UInt8.toNat_inj.mp hcode)
  obtain ⟨value, t, htrim, hsplit, ht⟩ := trim_pair hblank (Str.ofBytes p.value)
  have hspaces : ∀ c ∈ List.replicate spaces ' ', Str.isWhitespace c = true := fun c hc => by
    rw [List.eq_of_mem_replicate hc]
    decide
  have hvalueTrim : Str.trim value = Str.ofBytes (trimBlanks p.value) := by
    rw [← trim_ofBytes hvalue, hsplit, Str.trim_append_of_blank value ht]
  rw [cookiePairValue, htext, Str.trim_blank_append hspaces, htrim, Str.splitOnce_eq_some.mpr ⟨heq, rfl⟩]
  simp only [hvalueTrim, CookiePair.carried, ofBytes_eq_iff hname]

/-! ## One field -/

theorem not_mem_pieceBytes (piece : Nat × CookiePair) : 59 ∉ pieceBytes piece := by
  intro hmem
  rcases List.mem_append.mp hmem with hmem | hmem
  · rcases List.mem_append.mp hmem with hmem | hmem
    · exact absurd (List.eq_of_mem_replicate hmem) (by decide)
    · exact (piece.2.name_ok _ hmem).2 rfl
  · rcases List.mem_cons.mp hmem with habsurd | hmem
    · exact absurd habsurd (by decide)
    · exact piece.2.value_ok _ hmem rfl

theorem intercalate_cons_cons {α : Type*} (c : α) (p q : List α) (ps : List (List α)) :
    [c].intercalate (p :: q :: ps) = p ++ c :: [c].intercalate (q :: ps) := by simp [List.intercalate]

theorem ofBytes_intercalate (pieces : List (List UInt8)) :
    Str.ofBytes ([59].intercalate pieces) = [';'].intercalate (pieces.map Str.ofBytes) := by
  cases pieces with
  | nil => rfl
  | cons p ps =>
      induction ps generalizing p with
      | nil => simp [List.intercalate, Str.ofBytes]
      | cons q ps ih =>
          have hq := ih q
          rw [List.map_cons] at hq
          rw [intercalate_cons_cons, List.map_cons, List.map_cons, intercalate_cons_cons, ← hq]
          simp [Str.ofBytes]

theorem all_intercalate {c : UInt8} {pieces : List (List UInt8)} {f : UInt8 → Bool}
    (h : ([c].intercalate pieces).all f = true) : ∀ p ∈ pieces, p.all f = true := by
  cases pieces with
  | nil => exact fun p hp => absurd hp List.not_mem_nil
  | cons p ps =>
      induction ps generalizing p with
      | nil =>
          intro q hq
          obtain rfl := List.mem_singleton.mp hq
          simpa [List.intercalate] using h
      | cons q ps ih =>
          rw [intercalate_cons_cons, List.all_append, List.all_cons, Bool.and_eq_true, Bool.and_eq_true] at h
          intro r hr
          rcases List.mem_cons.mp hr with rfl | hr
          · exact h.1
          · exact ih q h.2.2 r hr

/-- The pieces of a visible field, as `extract_cookie_value` finds them. -/
theorem findSome?_field (cookieName : Str) {field : CookieField} (h : field.bytes.all Str.isVisibleByte = true) :
    ((Str.ofBytes field.bytes).splitOn ';').findSome? (cookiePairValue cookieName) =
      field.pairs.findSome? (CookiePair.carried cookieName) := by
  by_cases hne : field = []
  · subst hne
    simp only [CookieField.bytes, CookieField.pairs, List.map_nil, List.findSome?_nil]
    rw [show Str.ofBytes ([59].intercalate []) = [] from rfl, List.splitOn_nil]
    rfl
  · have hsplit : (Str.ofBytes field.bytes).splitOn ';' = (field.map pieceBytes).map Str.ofBytes := by
      rw [CookieField.bytes, ofBytes_intercalate]
      refine List.splitOn_intercalate ';' (fun text htext hmem => ?_) (by simpa using hne)
      obtain ⟨bs, hbs, rfl⟩ := List.mem_map.mp htext
      obtain ⟨piece, -, rfl⟩ := List.mem_map.mp hbs
      obtain ⟨b, hb, hcode⟩ := Str.mem_ofBytes.mp hmem
      obtain rfl : b = 59 := UInt8.toNat_inj.mp hcode
      exact not_mem_pieceBytes piece hb
    have hkeys : field.map (fun piece => cookiePairValue cookieName (Str.ofBytes (pieceBytes piece))) =
        field.map (fun piece => piece.2.carried cookieName) :=
      List.map_congr_left fun piece hpiece =>
        cookiePairValue_piece cookieName (all_intercalate h _ (List.mem_map_of_mem hpiece))
    have hfind := congrArg (List.findSome? id) hkeys
    rw [List.findSome?_map, List.findSome?_map] at hfind
    rw [hsplit, List.findSome?_map, List.findSome?_map, CookieField.pairs, List.findSome?_map]
    exact hfind

/-- Only the first field is read, and only when it is visible. -/
theorem extractCookieValue_fields {session : Session} {fields : List CookieField}
    (h : session.fields (Str.lit "cookie") = fields.map CookieField.bytes) (cookieName : Str) :
    extractCookieValue session cookieName =
      (fields.head?.filter fun field => field.bytes.all Str.isVisibleByte).bind fun field =>
        field.pairs.findSome? (CookiePair.carried cookieName) := by
  rw [extractCookieValue, session.header_eq_head?, h, List.head?_map]
  cases fields.head? with
  | none => rfl
  | some field =>
      by_cases hvisible : field.bytes.all Str.isVisibleByte = true
      · have htext : headerToStr field.bytes = some (Str.ofBytes field.bytes) := if_pos hvisible
        rw [Option.map_some, Option.bind_some, htext, Option.filter_some, if_pos hvisible, Option.bind_some]
        exact findSome?_field cookieName hvisible
      · have htext : headerToStr field.bytes = none := if_neg hvisible
        rw [Option.map_some, Option.bind_some, htext, Option.filter_some, if_neg hvisible]
        rfl

/-! ## All fields -/

theorem carriedKey_eq_none {cookieName : Str} {fields : List CookieField} : carriedKey cookieName fields = none ↔
    ∀ field ∈ fields, ∀ p ∈ field.pairs, p.carried cookieName = none := by
  simp only [carriedKey, List.findSome?_eq_none_iff, List.mem_flatMap, forall_exists_index, and_imp]
  exact ⟨fun h field hfield p hp => h p field hfield hp, fun h p field hfield hp => h field hfield p hp⟩

/-- The first key among all pairs is found exactly when there is none, or the first field is visible and has one. -/
theorem extractCookieValue_eq_iff {session : Session} {fields : List CookieField}
    (h : session.fields (Str.lit "cookie") = fields.map CookieField.bytes) (cookieName : Str) :
    extractCookieValue session cookieName = carriedKey cookieName fields ↔
      (∀ field ∈ fields, ∀ p ∈ field.pairs, p.carried cookieName = none) ∨
        ∃ field, fields.head? = some field ∧ field.bytes.all Str.isVisibleByte = true ∧
          ∃ p ∈ field.pairs, p.carried cookieName ≠ none := by
  rw [extractCookieValue_fields h, ← carriedKey_eq_none]
  cases fields with
  | nil => simp [carriedKey]
  | cons field rest =>
      have hkey : carriedKey cookieName (field :: rest) =
          (field.pairs.findSome? (CookiePair.carried cookieName)).or (carriedKey cookieName rest) := by
        rw [carriedKey, List.flatMap_cons, List.findSome?_append, ← carriedKey]
      have hsome : (∃ p ∈ field.pairs, p.carried cookieName ≠ none) ↔
          field.pairs.findSome? (CookiePair.carried cookieName) ≠ none := by
        rw [ne_eq, List.findSome?_eq_none_iff]
        simp
      simp only [List.head?_cons, Option.some.injEq, exists_eq_left', hsome, hkey, Option.filter_some]
      by_cases hvisible : field.bytes.all Str.isVisibleByte = true
      · rw [if_pos hvisible, Option.bind_some]
        cases field.pairs.findSome? (CookiePair.carried cookieName) with
        | none => simpa using eq_comm
        | some key => simp [hvisible]
      · rw [if_neg hvisible, Option.bind_none]
        simp only [hvisible, Bool.false_eq_true, false_and, or_false]
        exact eq_comm

/-- The cookie `sid=k-1`. -/
def sidPair : CookiePair where
  name := Str.bytes (Str.lit "sid")
  value := Str.bytes (Str.lit "k-1")
  name_ok := by decide +kernel
  head_ok := by decide +kernel
  value_ok := by decide +kernel

/-- The cookie `x=é` of another application. -/
def accentPair : CookiePair where
  name := Str.bytes (Str.lit "x")
  value := [0xC3, 0xA9]
  name_ok := by decide +kernel
  head_ok := by decide +kernel
  value_ok := by decide +kernel

/-- The cookie `theme=dark`. -/
def themePair : CookiePair where
  name := Str.bytes (Str.lit "theme")
  value := Str.bytes (Str.lit "dark")
  name_ok := by decide +kernel
  head_ok := by decide +kernel
  value_ok := by decide +kernel

/-- A request with these cookie fields. -/
def fieldsSession (fields : List CookieField) : Session :=
  hostSession none (fields.map fun field => (Str.lit "cookie", field.bytes))

/-- The key is lost beside a foreign value that is not ASCII, and when its cookie is in the second field. -/
theorem foreign_cookies_hide_key :
    carriedKey (Str.lit "sid") [[(0, sidPair), (1, accentPair)]] = some (Str.lit "k-1") ∧
      extractCookieValue (fieldsSession [[(0, sidPair), (1, accentPair)]]) (Str.lit "sid") = none ∧
      carriedKey (Str.lit "sid") [[(0, themePair)], [(0, sidPair)]] = some (Str.lit "k-1") ∧
      extractCookieValue (fieldsSession [[(0, themePair)], [(0, sidPair)]]) (Str.lit "sid") = none := by
  refine ⟨by decide +kernel, by decide +kernel, by decide +kernel, by decide +kernel⟩

theorem extractCookieValue_sample :
    extractCookieValue (fieldsSession [[(0, sidPair)], [(0, accentPair)]]) (Str.lit "sid") =
      carriedKey (Str.lit "sid") [[(0, sidPair)], [(0, accentPair)]] :=
  (extractCookieValue_eq_iff rfl (Str.lit "sid")).mpr
    (.inr ⟨_, rfl, by decide +kernel, sidPair, by simp [CookieField.pairs], by decide +kernel⟩)

end NeemataProxy.Routing
