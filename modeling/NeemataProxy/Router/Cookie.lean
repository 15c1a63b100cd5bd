import NeemataProxy.Router.Affinity

/-!
# The affinity cookie, there and back

`cookie_header_value` writes the cookie, the client sends the pair in it back between other pairs, and
`extract_cookie_value` reads the key. The name of the cookie is only checked not to be blank, so the way back fails for
the names that the pair or the field cannot carry.
-/

namespace NeemataProxy.Routing

open Lib

/-- What a client keeps of a cookie to send it back: the text before the first `;`. -/
def cookiePart (value : Str) : Str := value.takeWhile (fun c => c != ';')

/-- A cookie field with these pairs. -/
def cookieField (pairs : List Str) : Str := (Str.lit "; ").intercalate pairs

/-- The name and the value of another cookie. -/
structure OtherPair (cookieName : Str) (p : Str × Str) : Prop where
  other : p.1 ≠ cookieName
  name : '=' ∉ p.1 ∧ ';' ∉ p.1
  blank : ∀ c ∈ p.1.head?, Str.isWhitespace c = false
  value : ';' ∉ p.2

def pairText (p : Str × Str) : Str := p.1 ++ '=' :: p.2

/-- A cookie name that goes there and back. -/
structure CarriedName (name : Str) : Prop where
  visible : name.all isVisible = true
  separators : '=' ∉ name ∧ ';' ∉ name
  blank : ∀ c ∈ name.head?, Str.isWhitespace c = false

/-- The cookie of a key can be sent, and the field that the client sends back with it gives the key. -/
def RoundTrips (st : StickySessionState stickyShardCount) (key : Str) (before after : List (Str × Str)) : Prop :=
  (∀ router ctx upstreamResponse, router.sticky = some st → ctx.affinityKey = some key → ctx.shouldSetCookie = true →
    responseFilter router upstreamResponse ctx =
      .ok (upstreamResponse ++ [(Str.lit "set-cookie", Str.bytes (st.cookieHeaderValue key))])) ∧
  ∀ session : Session, session.header (Str.lit "cookie") = some (Str.bytes
      (cookieField (before.map pairText ++ cookiePart (st.cookieHeaderValue key) :: after.map pairText))) →
    extractCookieValue session st.config.cookieName = some key

/-! ## Pieces of a cookie field -/

/-- The pieces of a field, as they stand between semicolons. -/
def spaced (pieces : List Str) : List Str :=
  match pieces with
  | [] => []
  | p :: ps => p :: ps.map (' ' :: ·)

theorem cookieField_eq (pieces : List Str) : cookieField pieces = [';'].intercalate (spaced pieces) := by
  cases pieces with
  | nil => rfl
  | cons p ps =>
      induction ps generalizing p with
      | nil => rfl
      | cons q ps ih =>
          have hq := ih q
          simp only [cookieField, spaced, List.map_cons, List.intercalate, List.intersperse, List.flatten_cons] at hq ⊢
          rw [hq]
          cases ps <;> rfl

theorem splitOn_cookieField {pieces : List Str} (hne : pieces ≠ []) (h : ∀ p ∈ pieces, ';' ∉ p) :
    (cookieField pieces).splitOn ';' = spaced pieces := by
  rw [cookieField_eq]
  refine List.splitOn_intercalate ';' (fun text htext => ?_) ?_
  · cases pieces with
    | nil => exact absurd rfl hne
    | cons p ps =>
        rcases List.mem_cons.mp htext with rfl | htext
        · exact h _ List.mem_cons_self
        · obtain ⟨q, hq, rfl⟩ := List.mem_map.mp htext
          simpa using h q (List.mem_cons_of_mem p hq)
  · cases pieces <;> simp_all [spaced]

theorem all_isVisible_cookieField (pieces : List Str) :
    (cookieField pieces).all isVisible = true ↔ ∀ p ∈ pieces, p.all isVisible = true := by
  cases pieces with
  | nil => simp [cookieField]
  | cons p ps =>
      induction ps generalizing p with
      | nil => simp [cookieField, List.intercalate]
      | cons q ps ih =>
          have hlit : (Str.lit "; ").all isVisible = true := by decide
          have hcons : cookieField (p :: q :: ps) = p ++ (Str.lit "; " ++ cookieField (q :: ps)) := by
            simp [cookieField, List.intercalate, List.intersperse]
          rw [hcons, List.all_append, List.all_append, hlit, Bool.true_and, Bool.and_eq_true, ih q]
          simp

theorem findSome?_spaced (name : Str) (pieces : List Str) :
    (spaced pieces).findSome? (cookiePairValue name) = pieces.findSome? (cookiePairValue name) := by
  have hblank : ∀ text, cookiePairValue name (' ' :: text) = cookiePairValue name text := fun text => by
    rw [cookiePairValue, Str.trim_cons_of_isWhitespace (by decide), ← cookiePairValue]
  cases pieces with
  | nil => rfl
  | cons p ps =>
      simp only [spaced, List.findSome?_cons, List.findSome?_map, Function.comp_def, hblank]

/-- What `extract_cookie_value` makes of a field that is made of pieces. -/
theorem extractCookieValue_cookieField {session : Session} {pieces : List Str} (hne : pieces ≠ [])
    (h : ∀ p ∈ pieces, ';' ∉ p)
    (hfield : session.header (Str.lit "cookie") = some (Str.bytes (cookieField pieces))) (name : Str) :
    extractCookieValue session name =
      if (cookieField pieces).all isVisible then pieces.findSome? (cookiePairValue name) else none := by
  rw [extractCookieValue, hfield, Option.bind_some, headerToStr_bytes]
  by_cases hvisible : (cookieField pieces).all isVisible = true
  · rw [if_pos hvisible, if_pos hvisible, ← findSome?_spaced, ← splitOn_cookieField hne h]
  · rw [if_neg hvisible, if_neg hvisible]

/-! ## Pairs -/

/-- A text with `=` in it keeps what is in front of the `=` when it is trimmed, and loses blanks at its end. -/
theorem trim_pair {name : Str} (hblank : ∀ c ∈ name.head?, Str.isWhitespace c = false) (value : Str) :
    ∃ value' t, Str.trim (name ++ '=' :: value) = name ++ '=' :: value' ∧ value = value' ++ t ∧
      ∀ c ∈ t, Str.isWhitespace c = true := by
  have hhead : ∀ c ∈ (name ++ '=' :: value).head?, Str.isWhitespace c = false := by
    cases name with
    | nil => simp [Str.isWhitespace]
    | cons d name => simpa using hblank
  obtain ⟨t, ht, hblanks⟩ := Str.trim_append_of_head? hhead
  rcases List.append_eq_append_iff.mp ht with ⟨a, ha, hat⟩ | ⟨a, ha, hat⟩
  · -- what is trimmed reaches over the whole name
    cases a with
    | nil => exact absurd (hblanks '=' (by simp at hat; simp [← hat])) (by decide)
    | cons d a =>
        obtain ⟨rfl, hvalue⟩ := List.cons.inj hat
        exact ⟨a, t, ha, hvalue, hblanks⟩
  · have hmem : '=' ∈ t := hat ▸ by simp
    exact absurd (hblanks '=' hmem) (by decide)

theorem cookiePairValue_otherPair {cookieName : Str} {p : Str × Str} (h : OtherPair cookieName p) :
    cookiePairValue cookieName (pairText p) = none := by
  obtain ⟨value, -, hvalue, -⟩ := trim_pair h.blank p.2
  rw [cookiePairValue, pairText, hvalue, Str.splitOnce_eq_some.mpr ⟨h.name.1, rfl⟩]
  simp [h.other]

theorem not_mem_cookiePart (value : Str) : ';' ∉ cookiePart value := fun hmem => by
  simpa using List.mem_takeWhile_imp hmem

/-- Under a name without `;` the client keeps the whole pair. -/
theorem cookiePart_cookieHeaderValue {n : Nat} {st : StickySessionState n} (hname : ';' ∉ st.config.cookieName) {key : Str}
    (hkey : ';' ∉ key) : cookiePart (st.cookieHeaderValue key) = st.config.cookieName ++ '=' :: key := by
  have hpair : ';' ∉ st.config.cookieName ++ '=' :: key := by simp [hname, hkey]
  obtain ⟨rest, hrest⟩ : ∃ rest, st.cookieHeaderValue key = (st.config.cookieName ++ '=' :: key) ++ ';' :: rest := by
    rw [cookieHeaderValue_eq]
    exact ⟨_, rfl⟩
  rw [cookiePart, hrest, List.takeWhile_append_of_pos fun c hc => by
    simpa using fun heq : c = ';' => hpair (heq ▸ hc)]
  simp

theorem cookiePairValue_carried {name key : Str} (hname : CarriedName name) (hkey : SafeKey key) :
    cookiePairValue name (name ++ '=' :: key) = some key := by
  have hblank : ∀ c ∈ key, Str.isWhitespace c = false := fun c hc => by
    have := hkey.char hc
    simp only [Str.isWhitespace, Bool.or_eq_false_iff, Bool.and_eq_false_iff, decide_eq_false_iff_not, beq_eq_false_iff_ne]
    omega
  have hhead : ∀ c ∈ (name ++ '=' :: key).head?, Str.isWhitespace c = false := by
    cases hn : name with
    | nil => simp [Str.isWhitespace]
    | cons d name => simpa [hn] using hname.blank
  have hlast : ∀ c ∈ (name ++ '=' :: key).getLast?, Str.isWhitespace c = false := fun c hc => by
    rw [List.getLast?_append, List.getLast?_cons_of_ne_nil hkey.nonempty] at hc
    have hc' : key.getLast? = some c := by
      cases hl : key.getLast? with
      | none => exact absurd (List.getLast?_eq_none_iff.mp hl) hkey.nonempty
      | some d => simpa [hl] using hc
    exact hblank c (List.mem_of_getLast? hc')
  have hkeyTrim : Str.trim key = key :=
    Str.trim_of_ends (fun c hc => hblank c (List.mem_of_head? hc)) fun c hc => hblank c (List.mem_of_getLast? hc)
  rw [cookiePairValue, Str.trim_of_ends hhead hlast, Str.splitOnce_eq_some.mpr ⟨hname.separators.1, rfl⟩]
  simp [hkeyTrim, (isCookieSafeAffinityKey_iff key).mpr hkey]

/-- A piece that gives a value under a name shows that the name can be carried. -/
theorem carriedName_of_value {name piece key : Str} (hpiece : ';' ∉ piece) (h : cookiePairValue name piece = some key) :
    ('=' ∉ name ∧ ';' ∉ name) ∧ ∀ c ∈ name.head?, Str.isWhitespace c = false := by
  unfold cookiePairValue at h
  split at h
  · rename_i name' w hsplit
    obtain ⟨heq, htrim⟩ := Str.splitOnce_eq_some.mp hsplit
    split at h
    · rename_i hcond
      obtain ⟨rfl, -⟩ : name' = name ∧ isCookieSafeAffinityKey (Str.trim w) = true := by simpa using hcond
      have hsub : ∀ c ∈ name', c ∈ piece := fun c hc => by
        have hmem : c ∈ Str.trim piece := htrim ▸ List.mem_append_left _ hc
        rw [Str.trim, List.mem_reverse] at hmem
        exact (List.dropWhile_sublist _).subset (List.mem_reverse.mp ((List.dropWhile_sublist _).subset hmem))
      refine ⟨⟨heq, fun hmem => hpiece (hsub _ hmem)⟩, fun c hc => Str.head?_trim piece c ?_⟩
      rw [htrim, List.head?_append, hc]
      rfl
    · cases h
  · cases h

/-! ## The theorem -/

/-- The cookie of a safe key goes there and back between other pairs exactly when its name is visible, has no `=` and no
`;` and begins with no blank, and the other pairs are visible. -/
theorem cookie_roundTrips_iff (st : StickySessionState stickyShardCount) {key : Str} (hkey : SafeKey key)
    {before after : List (Str × Str)} (hbefore : ∀ p ∈ before, OtherPair st.config.cookieName p)
    (hafter : ∀ p ∈ after, OtherPair st.config.cookieName p) :
    RoundTrips st key before after ↔ CarriedName st.config.cookieName ∧
      ∀ p ∈ before ++ after, (pairText p).all isVisible = true := by
  have hsemi : ∀ p, OtherPair st.config.cookieName p → ';' ∉ pairText p := fun p hp => by
    simp [pairText, hp.name.2, hp.value]
  have hpieces : ∀ p ∈ before.map pairText ++ cookiePart (st.cookieHeaderValue key) :: after.map pairText, ';' ∉ p := by
    intro p hp
    rcases List.mem_append.mp hp with hp | hp
    · obtain ⟨q, hq, rfl⟩ := List.mem_map.mp hp
      exact hsemi q (hbefore q hq)
    · rcases List.mem_cons.mp hp with rfl | hp
      · exact not_mem_cookiePart _
      · obtain ⟨q, hq, rfl⟩ := List.mem_map.mp hp
        exact hsemi q (hafter q hq)
  -- only the piece of this cookie can give a value
  have hfind : (before.map pairText ++ cookiePart (st.cookieHeaderValue key) :: after.map pairText).findSome?
      (cookiePairValue st.config.cookieName) = cookiePairValue st.config.cookieName (cookiePart (st.cookieHeaderValue key)) := by
    have hnone : ∀ ps : List (Str × Str), (∀ p ∈ ps, OtherPair st.config.cookieName p) →
        (ps.map pairText).findSome? (cookiePairValue st.config.cookieName) = none := fun ps hps => by
      refine List.findSome?_eq_none_iff.mpr fun text htext => ?_
      obtain ⟨p, hp, rfl⟩ := List.mem_map.mp htext
      exact cookiePairValue_otherPair (hps p hp)
    rw [List.findSome?_append, hnone before hbefore, Option.none_or, List.findSome?_cons, hnone after hafter]
    cases cookiePairValue st.config.cookieName (cookiePart (st.cookieHeaderValue key)) <;> rfl
  have hextract : ∀ {session : Session}, session.header (Str.lit "cookie") = some (Str.bytes
      (cookieField (before.map pairText ++ cookiePart (st.cookieHeaderValue key) :: after.map pairText))) →
      extractCookieValue session st.config.cookieName = if (cookieField (before.map pairText ++
        cookiePart (st.cookieHeaderValue key) :: after.map pairText)).all isVisible then
          cookiePairValue st.config.cookieName (cookiePart (st.cookieHeaderValue key)) else none := fun hfield => by
    rw [extractCookieValue_cookieField (by simp) hpieces hfield, hfind]
  have hkeysemi : ';' ∉ key := fun hmem => (hkey.char hmem).2.2.1 rfl
  constructor
  · rintro ⟨-, hback⟩
    have hvalue := hback (hostSession none [(Str.lit "cookie", Str.bytes (cookieField (before.map pairText ++
      cookiePart (st.cookieHeaderValue key) :: after.map pairText)))]) rfl
    rw [hextract rfl] at hvalue
    split at hvalue
    · rename_i hvisible
      obtain ⟨hsep, hblank⟩ := carriedName_of_value (not_mem_cookiePart _) hvalue
      have hall := (all_isVisible_cookieField _).mp hvisible
      have hpart := hall (cookiePart (st.cookieHeaderValue key)) (by simp)
      rw [cookiePart_cookieHeaderValue hsep.2 hkeysemi, List.all_append, Bool.and_eq_true] at hpart
      refine ⟨⟨hpart.1, hsep, hblank⟩, fun p hp => hall _ ?_⟩
      rcases List.mem_append.mp hp with hp | hp
      · exact List.mem_append_left _ (List.mem_map_of_mem hp)
      · exact List.mem_append_right _ (List.mem_cons_of_mem _ (List.mem_map_of_mem hp))
    · cases hvalue
  · rintro ⟨hname, hothers⟩
    refine ⟨fun router ctx upstreamResponse hsticky hctx hset =>
      responseFilter_of_key hsticky hctx hset hname.visible hkey upstreamResponse, fun session hfield => ?_⟩
    have hvisible : (cookieField (before.map pairText ++ cookiePart (st.cookieHeaderValue key) :: after.map pairText)).all
        isVisible = true := by
      refine (all_isVisible_cookieField _).mpr fun p hp => ?_
      rcases List.mem_append.mp hp with hp | hp
      · obtain ⟨q, hq, rfl⟩ := List.mem_map.mp hp
        exact hothers q (List.mem_append_left _ hq)
      · rcases List.mem_cons.mp hp with rfl | hp
        · rw [cookiePart_cookieHeaderValue hname.separators.2 hkeysemi, List.all_append, List.all_cons, hname.visible,
            all_isVisible_of_safeKey hkey]
          decide
        · obtain ⟨q, hq, rfl⟩ := List.mem_map.mp hp
          exact hothers q (List.mem_append_right _ hq)
    rw [hextract hfield, if_pos hvisible, cookiePart_cookieHeaderValue hname.separators.2 hkeysemi]
    exact cookiePairValue_carried hname hkey

/-! ## Accepted names -/

/-- The store of a proxy with this cookie name, when the options are accepted. -/
def namedStore (cookieName : Str) : Except JsError (StickySessionState stickyShardCount) :=
  (Options.parseStickySessionOptions (some ⟨none, some cookieName, none, none, none⟩)).map fun parsed =>
    .new stickyShardCount
      { enabled := parsed.enabled
        cookieName := parsed.cookieName
        headerName := parsed.headerName
        ttl := parsed.ttlMs * 1000000
        maxEntries := parsed.maxEntries
        cookieSecure := false }

theorem safeKey_sample : SafeKey (Str.lit "key-2") := (isCookieSafeAffinityKey_iff _).mp (by decide)

/-- The name `a=b` is accepted, and its cookie is never found again. -/
theorem cookie_with_equals_lost :
    ∃ st, namedStore (Str.lit "a=b") = .ok st ∧ st.config.enabled = true ∧ ¬ RoundTrips st (Str.lit "key-2") [] [] := by
  refine ⟨_, rfl, rfl, fun h => ?_⟩
  have hback := h.2 (hostSession none [(Str.lit "cookie", Str.bytes (Str.lit "a=b=key-2"))]) (by decide)
  revert hback
  decide

theorem cookie_roundTrips_sample :
    ∃ st, namedStore (Str.lit "nmt_affinity") = .ok st ∧
      RoundTrips st (Str.lit "key-2") [(Str.lit "id", Str.lit "1")] [(Str.lit "x", Str.lit "y=z")] := by
  have hcarried : CarriedName (Str.lit "nmt_affinity") := ⟨by decide, by decide, fun c hc => by cases hc; decide⟩
  refine ⟨_, rfl, (cookie_roundTrips_iff _ safeKey_sample ?_ ?_).mpr ⟨hcarried, by decide⟩⟩
  · intro p hp
    obtain rfl := List.mem_singleton.mp hp
    exact ⟨by decide, by decide, fun c hc => by cases hc; decide, by decide⟩
  · intro p hp
    obtain rfl := List.mem_singleton.mp hp
    exact ⟨by decide, by decide, fun c hc => by cases hc; decide, by decide⟩

end NeemataProxy.Routing
