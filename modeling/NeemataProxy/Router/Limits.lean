import NeemataProxy.Router.Authority

/-!
# Request limits

The checks that `parse_limits_options` lists agree with the limits as they are configured, up to the body: only the
first `Content-Length` field is read, and a value from 2^64 on counts as no length at all.
-/

namespace NeemataProxy.Routing

open Lib
open Options (Nullable ProxyLimitsOptions ProxyLimitsOptionsParsed ProxyLimitCheckParsed)

/-! ## The limits that are configured -/

/-- The limits of a request; one that is switched off is `none`. -/
structure RequestLimits where
  uri : Option Nat
  requestHeaders : Option Nat
  singleHeader : Option Nat
  requestHeader : Option Nat
  requestBody : Option Nat

/-- A limit that is left out has its default, and `null` switches it off. -/
def configuredLimit (value : Nullable Nat) (default : Nat) : Option Nat :=
  match value with
  | .value limit => some limit
  | .null => none
  | .absent => some default

def configuredLimits (limits : Nullable ProxyLimitsOptions) : RequestLimits :=
  match limits with
  | .null => ⟨none, none, none, none, none⟩
  | .absent => ⟨some 8192, some 100, some 8192, some 65536, some 16777216⟩
  | .value limits =>
      { uri := configuredLimit limits.maxUriSize 8192
        requestHeaders := configuredLimit limits.maxRequestHeaders 100
        singleHeader := configuredLimit limits.maxSingleHeaderSize 8192
        requestHeader := configuredLimit limits.maxRequestHeaderSize 65536
        requestBody := configuredLimit limits.maxRequestBodySize 16777216 }

def exceeds (limit : Option Nat) (size : Nat) : Bool := limit.any (fun l => l < size)

/-! ## What a request must keep to -/

/-- The number that a value of decimal digits denotes. -/
def decimalValue (value : List UInt8) : Nat := Nat.ofDigits 10 (value.map (fun b => b.toNat - 48)).reverse

/-- The body lengths that a request declares, one for each `Content-Length` field. -/
def declaredLengths (session : Session) : List Nat := (session.fields (Str.lit "content-length")).map decimalValue

/-- Every `Content-Length` field is a number in decimal digits. -/
def DecimalLengths (session : Session) : Prop :=
  ∀ value ∈ session.fields (Str.lit "content-length"), value ≠ [] ∧ ∀ b ∈ value, 48 ≤ b.toNat ∧ b.toNat ≤ 57

def headersExceed (limits : RequestLimits) (session : Session) : Bool :=
  exceeds limits.requestHeaders session.reqHeader.headers.length ||
    session.reqHeader.headers.any (fun h => exceeds limits.singleHeader (Str.len h.1 + h.2.length)) ||
    exceeds limits.requestHeader session.h1RawLen

/-- The status that the limits demand. -/
def demandedStatus (limits : RequestLimits) (session : Session) : Option Nat :=
  if exceeds limits.uri session.rawPathLen then some 414
  else if headersExceed limits session then some 431
  else if (declaredLengths session).any (exceeds limits.requestBody) then some 413
  else none

/-- Everything about the request is within its limit. -/
structure WithinLimits (limits : RequestLimits) (session : Session) : Prop where
  uri : ∀ limit, limits.uri = some limit → session.rawPathLen ≤ limit
  requestHeaders : ∀ limit, limits.requestHeaders = some limit → session.reqHeader.headers.length ≤ limit
  singleHeader : ∀ limit, limits.singleHeader = some limit →
    ∀ h ∈ session.reqHeader.headers, Str.len h.1 + h.2.length ≤ limit
  requestHeader : ∀ limit, limits.requestHeader = some limit → session.h1RawLen ≤ limit
  requestBody : ∀ limit, limits.requestBody = some limit → ∀ length ∈ declaredLengths session, length ≤ limit

theorem exceeds_eq_false {limit : Option Nat} {size : Nat} :
    exceeds limit size = false ↔ ∀ l, limit = some l → size ≤ l := by
  cases limit <;> simp [exceeds]

theorem demandedStatus_eq_none {limits : RequestLimits} {session : Session} :
    demandedStatus limits session = none ↔ WithinLimits limits session := by
  have hwithin : WithinLimits limits session ↔ exceeds limits.uri session.rawPathLen = false ∧
      headersExceed limits session = false ∧ (declaredLengths session).any (exceeds limits.requestBody) = false := by
    simp only [headersExceed, Bool.or_eq_false_iff, List.any_eq_false, Bool.not_eq_true, exceeds_eq_false]
    constructor
    · intro h
      exact ⟨h.uri, ⟨⟨h.requestHeaders, fun f hf l hl => h.singleHeader l hl f hf⟩, h.requestHeader⟩,
        fun n hn l hl => h.requestBody l hl n hn⟩
    · rintro ⟨huri, ⟨⟨hcount, hsingle⟩, htotal⟩, hbody⟩
      exact ⟨huri, hcount, fun l hl f hf => hsingle f hf l hl, htotal, fun l hl n hn => hbody n hn l hl⟩
  rw [hwithin, demandedStatus]
  cases exceeds limits.uri session.rawPathLen <;> cases headersExceed limits session <;>
    cases (declaredLengths session).any (exceeds limits.requestBody) <;> simp

/-! ## The list of checks -/

/-- The checks of these limits, in the order in which they are made. -/
def RequestLimits.checks (limits : RequestLimits) : List ProxyLimitCheckParsed :=
  (limits.uri.map .uriBytes).toList ++ (limits.requestHeaders.map .requestHeaders).toList ++
    (limits.singleHeader.map .singleHeaderBytes).toList ++ (limits.requestHeader.map .requestHeaderBytes).toList ++
    (limits.requestBody.map .requestBodyBytes).toList

theorem parseNullablePositiveU32_ok {field : Str} {value : Nullable Nat} {default : Nat} {limit : Option Nat}
    (h : Options.parseNullablePositiveU32 field value default = .ok limit) : limit = configuredLimit value default := by
  have hpositive : ∀ {v : Option Nat}, (Options.parsePositiveU32 field v default).map some = .ok limit →
      limit = some (v.getD default) := by
    intro v hv
    simp only [Options.parsePositiveU32] at hv
    split at hv
    · cases hv
    · exact (Except.ok.inj hv).symm
  cases value with
  | value v => exact hpositive (v := some v) h
  | null => exact (Except.ok.inj h).symm
  | absent => exact hpositive (v := none) h

/-- Accepted limits are the list of their checks, or switched off when there is none. -/
theorem parseLimitsOptions_ok {limits : Nullable ProxyLimitsOptions} {parsed : ProxyLimitsOptionsParsed}
    (h : Options.parseLimitsOptions limits = .ok parsed) (session : Session) :
    requestLimitRejectionStatus session parsed =
      (configuredLimits limits).checks.findSome? (limitCheckRejection session) := by
  cases limits with
  | absent =>
      obtain rfl := Except.ok.inj h
      rfl
  | null =>
      obtain rfl := Except.ok.inj h
      rfl
  | value options =>
      obtain ⟨uri, huri, h⟩ := exists_of_bind_eq_ok h
      obtain ⟨count, hcount, h⟩ := exists_of_bind_eq_ok h
      obtain ⟨single, hsingle, h⟩ := exists_of_bind_eq_ok h
      obtain ⟨total, htotal, h⟩ := exists_of_bind_eq_ok h
      obtain ⟨body, hbody, h⟩ := exists_of_bind_eq_ok h
      obtain rfl := parseNullablePositiveU32_ok huri
      obtain rfl := parseNullablePositiveU32_ok hcount
      obtain rfl := parseNullablePositiveU32_ok hsingle
      obtain rfl := parseNullablePositiveU32_ok htotal
      obtain rfl := parseNullablePositiveU32_ok hbody
      have hparsed : parsed = if (configuredLimits (.value options)).checks = [] then .disabled
          else .enabled (configuredLimits (.value options)).checks := (Except.ok.inj h).symm
      rw [hparsed]
      split
      · rename_i hnone
        rw [hnone]
        rfl
      · rfl

theorem findSome?_toList {f : Nat → ProxyLimitCheckParsed} {session : Session} {limit : Option Nat} (p : Nat → Bool)
    (status : Nat) (h : ∀ l, limitCheckRejection session (f l) = if p l then some status else none) :
    (limit.map f).toList.findSome? (limitCheckRejection session) = if limit.any p then some status else none := by
  cases limit with
  | none => rfl
  | some l =>
      simp only [Option.map_some, Option.toList_some, List.findSome?_singleton, h, Option.any_some]

/-! ## The body length -/

theorem foldl_eq_ofDigits (digits : List Nat) :
    digits.foldl (fun n d => n * 10 + d) 0 = Nat.ofDigits 10 digits.reverse := by
  rw [Nat.ofDigits_eq_foldr, List.foldr_reverse]
  congr 1
  funext n d
  simp only [Nat.cast_id]
  omega

/-- A number in decimal digits is read as it is when it fits into 64 bits. -/
theorem parseU64_of_digits {value : List UInt8} (hne : value ≠ []) (hdigits : ∀ b ∈ value, 48 ≤ b.toNat ∧ b.toNat ≤ 57) :
    (headerToStr value).bind parseU64 = if decimalValue value < 2 ^ 64 then some (decimalValue value) else none := by
  have hvisible : value.all (fun b => (32 ≤ b.toNat && b.toNat < 127) || b.toNat == 9) = true := by
    refine List.all_eq_true.mpr fun b hb => ?_
    have := hdigits b hb
    simp only [Bool.or_eq_true, Bool.and_eq_true, decide_eq_true_eq]
    omega
  rw [headerToStr, if_pos hvisible, Option.bind_some, parseU64]
  have hplus : (value.map fun b => Char.ofNat b.toNat).head? ≠ some '+' := by
    cases value with
    | nil => exact absurd rfl hne
    | cons b rest =>
        intro hhead
        have hb := Str.toNat_ofNat_byte b
        have hplus : Char.ofNat b.toNat = '+' := Option.some.inj hhead
        rw [hplus] at hb
        have hge := (hdigits b List.mem_cons_self).1
        rw [← hb] at hge
        exact absurd hge (by decide)
  have hall : (value.map fun b => Char.ofNat b.toNat).all Char.isDigit = true := by
    simp only [List.all_map, List.all_eq_true, Function.comp_apply, isDigit_iff]
    exact fun b hb => by
      rw [Str.toNat_ofNat_byte]
      exact hdigits b hb
  have hvalue : (value.map fun b => Char.ofNat b.toNat).foldl (fun n c => n * 10 + (c.toNat - '0'.toNat)) 0 =
      decimalValue value := by
    rw [decimalValue, ← foldl_eq_ofDigits, List.foldl_map, List.foldl_map]
    exact List.foldl_ext _ _ _ fun n b hb => by
      rw [Str.toNat_ofNat_byte]
      rfl
  simp only [if_neg hplus, hall, hvalue]
  simp [hne]

theorem requestContentLength_eq {session : Session} (h : DecimalLengths session) :
    requestContentLength session = (declaredLengths session).head?.filter (· < 2 ^ 64) := by
  rw [requestContentLength, session.header_eq_head?, declaredLengths, List.head?_map]
  cases hfirst : (session.fields (Str.lit "content-length")).head? with
  | none => rfl
  | some value =>
      obtain ⟨hne, hdigits⟩ := h value (List.mem_of_head? hfirst)
      rw [Option.map_some, Option.bind_some, parseU64_of_digits hne hdigits, Option.filter_some]
      simp

/-! ## The status -/

theorem lt_requestSingleHeaderSize {session : Session} {limit : Nat} : limit < requestSingleHeaderSize session ↔
    ∃ h ∈ session.reqHeader.headers, limit < Str.len h.1 + h.2.length := by
  unfold requestSingleHeaderSize
  cases hmax : (session.reqHeader.headers.map fun h => Str.len h.1 + h.2.length).max? with
  | none =>
      rw [List.max?_eq_none_iff, List.map_eq_nil_iff] at hmax
      simp [hmax]
  | some size =>
      obtain ⟨hmem, hle⟩ := List.max?_eq_some_iff.mp hmax
      obtain ⟨field, hfield, rfl⟩ := List.mem_map.mp hmem
      constructor
      · exact fun hlt => ⟨field, hfield, hlt⟩
      · rintro ⟨other, hother, hlt⟩
        exact hlt.trans_le (hle _ (List.mem_map_of_mem hother))

theorem firstStatus (uri count single total body : Bool) :
    (((((if uri then some 414 else none).or (if count then some 431 else none)).or (if single then some 431 else none)).or
      (if total then some 431 else none)).or (if body then some 413 else none) : Option Nat) =
      if uri then some 414 else if count || single || total then some 431 else if body then some 413 else none := by
  cases uri <;> cases count <;> cases single <;> cases total <;> rfl

/-- The checks give the status of the limits, with the length that was read for the declared ones. -/
theorem requestLimitRejectionStatus_eq {limits : Nullable ProxyLimitsOptions} {parsed : ProxyLimitsOptionsParsed}
    (hparsed : Options.parseLimitsOptions limits = .ok parsed) (session : Session) :
    requestLimitRejectionStatus session parsed =
      if exceeds (configuredLimits limits).uri session.rawPathLen then some 414
      else if headersExceed (configuredLimits limits) session then some 431
      else if (requestContentLength session).any (exceeds (configuredLimits limits).requestBody) then some 413
      else none := by
  have hbody : (configuredLimits limits).requestBody.any (fun l => (requestContentLength session).any fun n => l < n) =
      (requestContentLength session).any (exceeds (configuredLimits limits).requestBody) := by
    cases (configuredLimits limits).requestBody <;> cases requestContentLength session <;> rfl
  have hsingle : (configuredLimits limits).singleHeader.any (fun l => l < requestSingleHeaderSize session) =
      session.reqHeader.headers.any (fun h => exceeds (configuredLimits limits).singleHeader (Str.len h.1 + h.2.length)) := by
    cases (configuredLimits limits).singleHeader with
    | none => simp [exceeds]
    | some l =>
        rw [Option.any_some, Bool.eq_iff_iff, decide_eq_true_eq, lt_requestSingleHeaderSize]
        simp [exceeds]
  rw [parseLimitsOptions_ok hparsed, RequestLimits.checks, List.findSome?_append, List.findSome?_append,
    List.findSome?_append, List.findSome?_append,
    findSome?_toList (fun l => l < session.rawPathLen) 414 fun l => by simp [limitCheckRejection],
    findSome?_toList (fun l => l < requestHeaderCount session) 431 fun l => by simp [limitCheckRejection],
    findSome?_toList (fun l => l < requestSingleHeaderSize session) 431 fun l => by
      simp [limitCheckRejection],
    findSome?_toList (fun l => l < requestHeaderSize session) 431 fun l => by simp [limitCheckRejection],
    findSome?_toList (fun l => (requestContentLength session).any fun n => l < n) 413 fun l => rfl,
    hbody, hsingle]
  exact firstStatus ..

/-- A request that declares these body lengths. -/
def lengthSession (lengths : List Str) : Session :=
  hostSession none (lengths.map fun text => (Str.lit "content-length", Str.bytes text))

end NeemataProxy.Routing
