import NeemataProxy.Router.Authority
import NeemataProxy.Router.Lemmas.Filter

/-!
# Affinity keys

Which key a request gets, and what the client is told of it. A key comes from a cookie, from a header or from a
generator, and is made of characters that neither end a cookie nor begin an attribute.
-/

namespace NeemataProxy.Routing

open Lib

/-! ## Keys -/

/-- A key that is safe in a cookie. -/
structure SafeKey (key : Str) : Prop where
  nonempty : key ≠ []
  short : Str.len key ≤ 256
  chars : ∀ c ∈ key, c.isAlphanum = true ∨ c = '.' ∨ c = '_' ∨ c = '-'

theorem isCookieSafeAffinityKey_iff (key : Str) : isCookieSafeAffinityKey key = true ↔ SafeKey key := by
  have hsafe : SafeKey key ↔ key ≠ [] ∧ Str.len key ≤ 256 ∧
      ∀ c ∈ key, c.isAlphanum = true ∨ c = '.' ∨ c = '_' ∨ c = '-' :=
    ⟨fun h => ⟨h.1, h.2, h.3⟩, fun h => ⟨h.1, h.2.1, h.2.2⟩⟩
  rw [hsafe]
  simp only [isCookieSafeAffinityKey, Bool.and_eq_true, decide_eq_true_eq, List.all_eq_true, Bool.or_eq_true, beq_iff_eq,
    and_assoc, or_assoc]
  exact Iff.rfl

/-- The characters of a safe key are visible, and none of them ends a pair or trims away. -/
theorem SafeKey.char {key : Str} (h : SafeKey key) {c : Char} (hc : c ∈ key) :
    33 ≤ c.toNat ∧ c.toNat < 127 ∧ c ≠ ';' ∧ c ≠ '=' := by
  rcases h.chars c hc with halpha | rfl | rfl | rfl
  · have hn := isAlphanum_iff.mp halpha
    refine ⟨by omega, by omega, ?_, ?_⟩
    all_goals
      rintro rfl
      simp at hn
  · decide
  · decide
  · decide

theorem safeKey_generated {now counter : Nat} (hnow : now < 2 ^ 128) (hcounter : counter < 2 ^ 64) :
    SafeKey (Str.hex now ++ Str.hex counter) := by
  have hchars : ∀ c ∈ Str.hex now ++ Str.hex counter, c.isAlphanum = true := fun c hc =>
    (List.mem_append.mp hc).elim Str.isAlphanum_of_mem_hex Str.isAlphanum_of_mem_hex
  have hlen : (Str.hex now ++ Str.hex counter).length ≤ 32 + 16 := by
    rw [List.length_append]
    exact Nat.add_le_add (Str.length_hex_le (by decide) (by simpa using hnow))
      (Str.length_hex_le (by decide) (by simpa using hcounter))
  refine ⟨by simp [Str.hex], ?_, fun c hc => .inl (hchars c hc)⟩
  rw [Str.len_eq_length fun c hc => by have := isAlphanum_iff.mp (hchars c hc); omega]
  omega

/-! ## The choice of a key -/

/-- The text is a pair of this name and value, blanks aside. -/
def IsPair (name text value : Str) : Prop := ∃ w, Str.trim text = name ++ '=' :: w ∧ value = Str.trim w

/-- The key is the first safe value that the cookie field has for this name. -/
def FirstSafeValue (name raw key : Str) : Prop :=
  ∃ before pair after, raw.splitOn ';' = before ++ pair :: after ∧ IsPair name pair key ∧ SafeKey key ∧
    ∀ text ∈ before, ∀ value, IsPair name text value → ¬ SafeKey value

/-- The text of the first field of this name, when it can be read. -/
def fieldText (session : Session) (name : Str) : Option Str := (session.header name).bind headerToStr

/-- Where the key of a request comes from: a cookie, else the header, else the generator. -/
inductive KeyChoice (session : Session) (config : StickySessionConfig) (generated : Str) : Str → Prop where
  | cookie {raw key : Str} (hraw : fieldText session (Str.lit "cookie") = some raw)
      (hkey : FirstSafeValue config.cookieName raw key) : KeyChoice session config generated key
  | header {value : Str}
      (hcookie : ∀ raw key, fieldText session (Str.lit "cookie") = some raw → ¬ FirstSafeValue config.cookieName raw key)
      (hvalue : fieldText session (Str.toAsciiLowercase config.headerName) = some value) (hsafe : SafeKey (Str.trim value)) :
      KeyChoice session config generated (Str.trim value)
  | generated
      (hcookie : ∀ raw key, fieldText session (Str.lit "cookie") = some raw → ¬ FirstSafeValue config.cookieName raw key)
      (hheader : ∀ value, fieldText session (Str.toAsciiLowercase config.headerName) = some value →
        ¬ SafeKey (Str.trim value)) : KeyChoice session config generated generated

theorem cookiePairValue_eq_some {name : Str} (hname : '=' ∉ name) {text value : Str} :
    cookiePairValue name text = some value ↔ IsPair name text value ∧ SafeKey value := by
  rw [← isCookieSafeAffinityKey_iff]
  unfold cookiePairValue IsPair
  constructor
  · intro h
    split at h
    · rename_i name' w hsplit
      obtain ⟨-, htext⟩ := Str.splitOnce_eq_some.mp hsplit
      split at h
      · rename_i hcond
        obtain ⟨rfl, hsafe⟩ : name' = name ∧ isCookieSafeAffinityKey (Str.trim w) = true := by simpa using hcond
        obtain rfl := Option.some.inj h
        exact ⟨⟨w, htext, rfl⟩, hsafe⟩
      · cases h
    · cases h
  · rintro ⟨⟨w, htext, rfl⟩, hsafe⟩
    rw [Str.splitOnce_eq_some.mpr ⟨hname, htext⟩]
    simp [hsafe]

theorem cookiePairValue_eq_none {name : Str} (hname : '=' ∉ name) {text : Str} :
    cookiePairValue name text = none ↔ ∀ value, IsPair name text value → ¬ SafeKey value := by
  simp only [Option.eq_none_iff_forall_ne_some, ne_eq, cookiePairValue_eq_some hname, not_and]

theorem extractCookieValue_eq_some {session : Session} {name : Str} (hname : '=' ∉ name) {key : Str} :
    extractCookieValue session name = some key ↔
      ∃ raw, fieldText session (Str.lit "cookie") = some raw ∧ FirstSafeValue name raw key := by
  unfold extractCookieValue fieldText
  split
  · rename_i raw hraw
    simp only [hraw, Option.some.injEq, exists_eq_left']
    rw [List.findSome?_eq_some_iff]
    simp only [cookiePairValue_eq_some hname, cookiePairValue_eq_none hname]
    constructor
    · rintro ⟨before, pair, after, hsplit, ⟨hpair, hsafe⟩, hbefore⟩
      exact ⟨before, pair, after, hsplit, hpair, hsafe, hbefore⟩
    · rintro ⟨before, pair, after, hsplit, hpair, hsafe, hbefore⟩
      exact ⟨before, pair, after, hsplit, ⟨hpair, hsafe⟩, hbefore⟩
  · rename_i hraw
    simp [hraw]

theorem extractHeaderValue_eq_some {session : Session} {name key : Str} :
    extractHeaderValue session name = some key ↔
      ∃ value, fieldText session (Str.toAsciiLowercase name) = some value ∧ SafeKey (Str.trim value) ∧ Str.trim value = key := by
  unfold extractHeaderValue fieldText
  rw [Option.filter_eq_some_iff]
  simp only [Option.map_eq_some_iff, isCookieSafeAffinityKey_iff]
  constructor
  · rintro ⟨⟨value, hvalue, rfl⟩, hsafe⟩
    exact ⟨value, hvalue, hsafe, rfl⟩
  · rintro ⟨value, hvalue, hsafe, rfl⟩
    exact ⟨⟨value, hvalue, rfl⟩, hsafe⟩

theorem keyChoice_assignAffinity {now : Nat} {session : Session} {st : StickySessionState stickyShardCount}
    (hname : '=' ∉ st.config.cookieName) {ctx : RouterCtx} (hnone : ctx.affinityKey = none) {key : Str}
    (hkey : (assignAffinity now session (some st) ctx).2.affinityKey = some key) :
    KeyChoice session st.config (Str.hex now ++ Str.hex st.keyCounter.toNat) key ∧
      (assignAffinity now session (some st) ctx).2.shouldSetCookie = true ∧
      ∃ st', (assignAffinity now session (some st) ctx).1 = some st' ∧ st'.config = st.config := by
  unfold assignAffinity at hkey ⊢
  split at hkey
  · rename_i st' app resolved heq happ hresolved
    obtain rfl := Option.some.inj heq
    obtain rfl := Option.some.inj hkey
    cases hcookie : extractCookieValue session st.config.cookieName with
    | some key =>
        obtain ⟨raw, hraw, hfirst⟩ := (extractCookieValue_eq_some hname).mp hcookie
        exact ⟨.cookie hraw hfirst, rfl, st, rfl, rfl⟩
    | none =>
        have hno : ∀ raw key, fieldText session (Str.lit "cookie") = some raw →
            ¬ FirstSafeValue st.config.cookieName raw key := fun raw key hraw hfirst => by
          have := (extractCookieValue_eq_some hname).mpr ⟨raw, hraw, hfirst⟩
          simp [hcookie] at this
        cases hheader : extractHeaderValue session st.config.headerName with
        | some key =>
            obtain ⟨value, hvalue, hsafe, rfl⟩ := extractHeaderValue_eq_some.mp hheader
            exact ⟨.header hno hvalue hsafe, rfl, st, rfl, rfl⟩
        | none =>
            refine ⟨.generated hno fun value hvalue hsafe => ?_, rfl, _, rfl, rfl⟩
            have := extractHeaderValue_eq_some.mpr ⟨value, hvalue, hsafe, rfl⟩
            simp [hheader] at this
  · simp [hnone] at hkey

theorem KeyChoice.safe {session : Session} {config : StickySessionConfig} {generated key : Str}
    (h : KeyChoice session config generated key) (hgenerated : SafeKey generated) : SafeKey key := by
  cases h with
  | cookie hraw hkey =>
      obtain ⟨before, pair, after, -, -, hsafe, -⟩ := hkey
      exact hsafe
  | header hcookie hvalue hsafe => exact hsafe
  | generated hcookie hheader => exact hgenerated

/-! ## The cookie -/

/-- The attributes of the cookie, as they stand between semicolons. -/
def cookieAttributes (config : StickySessionConfig) : List Str :=
  [Str.lit " Max-Age=" ++ Str.decimal (max (config.ttl / 1000000000) 1), Str.lit " Path=/", Str.lit " HttpOnly",
    Str.lit " SameSite=Lax"] ++ if config.cookieSecure then [Str.lit " Secure"] else []

theorem cookieHeaderValue_eq {n : Nat} (st : StickySessionState n) (key : Str) :
    st.cookieHeaderValue key =
      [';'].intercalate ((st.config.cookieName ++ '=' :: key) :: cookieAttributes st.config) := by
  unfold StickySessionState.cookieHeaderValue cookieAttributes
  cases st.config.cookieSecure
  all_goals
    simp [List.intercalate, List.intersperse]
    rfl

theorem not_mem_cookieAttributes {config : StickySessionConfig} {text : Str} (h : text ∈ cookieAttributes config) :
    ';' ∉ text := by
  have hdigits : ';' ∉ Str.decimal (max (config.ttl / 1000000000) 1) := fun hmem => by
    have := Str.isDigit_of_mem_decimal hmem
    simp at this
  unfold cookieAttributes at h
  rcases List.mem_append.mp h with h | h
  · simp only [List.mem_cons, List.not_mem_nil, or_false] at h
    rcases h with rfl | rfl | rfl | rfl
    · exact fun hmem => (List.mem_append.mp hmem).elim (by decide) hdigits
    all_goals decide
  · split at h
    · rw [List.mem_singleton.mp h]
      decide
    · simp at h

/-- Between semicolons the cookie has the pair and its attributes, and nothing else. -/
theorem splitOn_cookieHeaderValue {n : Nat} {st : StickySessionState n} (hname : ';' ∉ st.config.cookieName) {key : Str}
    (hkey : ';' ∉ key) :
    (st.cookieHeaderValue key).splitOn ';' = (st.config.cookieName ++ '=' :: key) :: cookieAttributes st.config := by
  rw [cookieHeaderValue_eq]
  refine List.splitOn_intercalate ';' (fun text htext => ?_) (by simp)
  rcases List.mem_cons.mp htext with rfl | htext
  · simp [hname, hkey]
  · exact not_mem_cookieAttributes htext

theorem all_isVisible_of_safeKey {key : Str} (h : SafeKey key) : key.all isVisible = true :=
  List.all_eq_true.mpr fun c hc => isVisible_iff.mpr (.inl ⟨(by have := (h.char hc).1; omega), (h.char hc).2.1⟩)

theorem headerValue_of_visible {value : Str} (h : value.all isVisible = true) : headerValue value = some (Str.bytes value) := by
  refine if_pos (List.all_eq_true.mpr fun b hb => ?_)
  have hvisible := List.all_eq_true.mp ((Str.all_isVisibleByte_bytes value).trans h) b hb
  simp only [Str.isVisibleByte, Bool.or_eq_true, Bool.and_eq_true, decide_eq_true_eq, beq_iff_eq] at hvisible ⊢
  omega

theorem all_isVisible_cookieHeaderValue {n : Nat} {st : StickySessionState n} (hname : st.config.cookieName.all isVisible = true)
    {key : Str} (hkey : SafeKey key) : (st.cookieHeaderValue key).all isVisible = true := by
  have hdecimal : (Str.decimal (max (st.config.ttl / 1000000000) 1)).all isVisible = true :=
    List.all_eq_true.mpr fun c hc => isVisible_of_isDigit (Str.isDigit_of_mem_decimal hc)
  have hlit₁ : (Str.lit "; Max-Age=").all isVisible = true := by decide
  have hlit₂ : (Str.lit "; Path=/; HttpOnly; SameSite=Lax").all isVisible = true := by decide
  have hlit₃ : (Str.lit "; Secure").all isVisible = true := by decide
  have heq : isVisible '=' = true := by decide
  unfold StickySessionState.cookieHeaderValue
  split <;>
    simp only [List.all_append, List.all_cons, hname, all_isVisible_of_safeKey hkey, hdecimal, hlit₁, hlit₂,
      hlit₃, heq, Bool.and_self]

/-- `response_filter` sends the cookie of the key in the context. -/
theorem responseFilter_of_key {router : Router} {st : StickySessionState stickyShardCount} (hsticky : router.sticky = some st)
    {ctx : RouterCtx} {key : Str} (hkey : ctx.affinityKey = some key) (hset : ctx.shouldSetCookie = true)
    (hname : st.config.cookieName.all isVisible = true) (hsafe : SafeKey key) (upstreamResponse : List (Str × List UInt8)) :
    responseFilter router upstreamResponse ctx =
      .ok (upstreamResponse ++ [(Str.lit "set-cookie", Str.bytes (st.cookieHeaderValue key))]) := by
  simp only [responseFilter, hsticky, hkey, hset, if_true,
    headerValue_of_visible (all_isVisible_cookieHeaderValue hname hsafe)]

/-! ## The keys of requests -/

/-- A cookie name of visible characters other than the space, `=` and `;`. -/
def CookieToken (name : Str) : Prop := ∀ c ∈ name, 33 ≤ c.toNat ∧ c.toNat < 127 ∧ c ≠ '=' ∧ c ≠ ';'

/-- A store with the default names. -/
def affinityConfig : StickySessionConfig where
  enabled := true
  cookieName := Str.lit "nmt_affinity"
  headerName := Str.lit "x-nmt-affinity-key"
  ttl := 600000000000
  maxEntries := 20000
  cookieSecure := true

/-- A router whose default application has one backend. -/
def affinityRouter : Router :=
  let addr : SocketAddr := ⟨Str.lit "127.0.0.1", false, 3000⟩
  let pool : PoolConfig := ⟨⟨(0, .http1), {addr}, .plain, 5000⟩, false, [], {addr.toStr}⟩
  .new ⟨.empty, .empty, some (Str.lit "app"), HashMap.empty.insert (Str.lit "app") ⟨some pool, none, none⟩⟩ affinityConfig
    .disabled ⟨1, 1, 1, 1, 1, 1⟩

/-- Of three cookies the first does not have the name, and the second is not safe. -/
def cookieSession : Session :=
  hostSession none [(Str.lit "host", Str.bytes (Str.lit "a")),
    (Str.lit "cookie", Str.bytes (Str.lit "id=1; nmt_affinity=a b; nmt_affinity=key-2"))]

theorem cookieToken_affinityConfig : CookieToken affinityConfig.cookieName := by
  have hchars : affinityConfig.cookieName.all (fun c => 33 ≤ c.toNat && c.toNat < 127 && c != '=' && c != ';') = true := by
    decide
  intro c hc
  have := List.all_eq_true.mp hchars c hc
  simpa [and_assoc] using this

end NeemataProxy.Routing
