import NeemataProxy.Lib.Ascii
import NeemataProxy.Router.Filter

/-!
# The host of a request

What is left of a `Host` field when a port is stripped off it, and what `extract_host` makes of a request. Letter case
plays no part in it.
-/

namespace NeemataProxy.Routing

open Lib

/-! ## Ports -/

theorem stripPortStr_bracket {p : Str} (hp : ']' ∉ p) (q : Str) :
    stripPortStr ('[' :: p ++ ']' :: q) = .ok ('[' :: p ++ [']']) := by
  have hsplit : Str.splitOnce ']' (p ++ ']' :: q) = some (p, q) := Str.splitOnce_eq_some.mpr ⟨hp, rfl⟩
  have hlen : Str.len p + 2 = Str.len ('[' :: p ++ [']']) := by
    simp only [List.cons_append, Str.len_cons, Str.len_append, Str.len_nil]
    rw [show '['.utf8Size = 1 from rfl, show ']'.utf8Size = 1 from rfl]
    omega
  simp only [stripPortStr, List.cons_append, Str.findByte, hsplit, Option.map_some, hlen]
  rw [show '[' :: (p ++ ']' :: q) = ('[' :: p ++ [']']) ++ q from by simp]
  exact Str.sliceTo_append _ q

theorem stripPortStr_unclosed {m : Str} (hm : ']' ∉ m) : stripPortStr ('[' :: m) = .ok ('[' :: m) := by
  simp [stripPortStr, Str.findByte, Str.splitOnce_eq_none.mpr hm]

/-- Without a bracket in front, only digits behind the last colon are a port. -/
theorem stripPortStr_plain {host : Str} (hhead : host.head? ≠ some '[') :
    stripPortStr host = .ok (match Str.rsplitOnce ':' host with
      | some (h, port) => if h ≠ [] && port.all Char.isDigit then h else host
      | none => host) := by
  cases host with
  | nil => rfl
  | cons c host =>
      have hc : c ≠ '[' := by simpa using hhead
      rw [stripPortStr.eq_def]
      split
      · rename_i heq
        exact absurd (List.cons.inj heq).1 hc
      · split <;> simp_all

theorem bracket_cases (m : Str) : ']' ∉ m ∨ ∃ p q, ']' ∉ p ∧ m = p ++ ']' :: q := by
  cases hsplit : Str.splitOnce ']' m with
  | none => exact .inl (Str.splitOnce_eq_none.mp hsplit)
  | some p => exact .inr ⟨p.1, p.2, Str.splitOnce_eq_some.mp hsplit⟩

/-- Stripping a port never panics, and leaves a prefix. -/
theorem stripPortStr_prefix (host : Str) : ∃ out rest, stripPortStr host = .ok out ∧ host = out ++ rest := by
  by_cases hhead : host.head? = some '['
  · obtain ⟨m, rfl⟩ : ∃ m, host = '[' :: m := ⟨host.tail, by cases host <;> simp_all⟩
    rcases bracket_cases m with hm | ⟨p, q, hp, rfl⟩
    · exact ⟨_, [], stripPortStr_unclosed hm, by simp⟩
    · exact ⟨_, q, stripPortStr_bracket hp q, by simp⟩
  · rw [stripPortStr_plain hhead]
    split
    · rename_i h port hsplit
      split
      · exact ⟨h, ':' :: port, rfl, (Str.rsplitOnce_eq_some.mp hsplit).2⟩
      · exact ⟨host, [], rfl, by simp⟩
    · exact ⟨host, [], rfl, by simp⟩

theorem stripPortStr_toAsciiLowercase (host : Str) :
    stripPortStr (Str.toAsciiLowercase host) = (stripPortStr host).map Str.toAsciiLowercase := by
  by_cases hhead : host.head? = some '['
  · obtain ⟨m, rfl⟩ : ∃ m, host = '[' :: m := ⟨host.tail, by cases host <;> simp_all⟩
    have hmem : ∀ {p : Str}, ']' ∉ p → ']' ∉ Str.toAsciiLowercase p := fun hp hmem => by
      obtain ⟨c, hc, heq⟩ := List.mem_map.mp hmem
      exact hp ((toLower_eq_iff rfl rfl).mp heq ▸ hc)
    rcases bracket_cases m with hm | ⟨p, q, hp, rfl⟩
    · rw [stripPortStr_unclosed hm]
      exact stripPortStr_unclosed (hmem hm)
    · rw [← List.cons_append, stripPortStr_bracket hp q, Str.toAsciiLowercase_append]
      refine (stripPortStr_bracket (hmem hp) (Str.toAsciiLowercase q)).trans ?_
      rw [Except.map, Str.toAsciiLowercase_append]
      rfl
  · have hhead' : (Str.toAsciiLowercase host).head? ≠ some '[' := by
      cases host with
      | nil => simp [Str.toAsciiLowercase]
      | cons c host => simpa [Str.toAsciiLowercase, toLower_eq_iff (d := '[') rfl rfl] using hhead
    rw [stripPortStr_plain hhead, stripPortStr_plain hhead', Str.rsplitOnce_toAsciiLowercase rfl rfl]
    cases Str.rsplitOnce ':' host with
    | none => rfl
    | some p =>
        have hnil : Str.toAsciiLowercase p.1 = [] ↔ p.1 = [] := List.map_eq_nil_iff
        have hdigits : (Str.toAsciiLowercase p.2).all Char.isDigit = p.2.all Char.isDigit := by
          simp [Str.toAsciiLowercase, Function.comp_def, isDigit_toLower]
        simp only [Option.map_some, ne_eq, decide_not, hnil, hdigits, Except.map]
        split <;> rfl

/-- Names that a `Host` field without a port is routed by: in brackets nothing follows, and without them no port. -/
def BareHost (n : Str) : Prop :=
  if n.head? = some '[' then ∀ p q, ']' ∉ p → n = p ++ ']' :: q → q = []
  else ∀ h port, n = h ++ ':' :: port → h ≠ [] → port.all Char.isDigit = false

/-- Names that a `Host` field with a port is routed by: those in brackets are closed, and nothing follows. -/
def PortHost (n : Str) : Prop := n.head? = some '[' → ∃ p, ']' ∉ p ∧ n = p ++ [']']

theorem stripPortStr_eq_self_iff (n : Str) : stripPortStr n = .ok n ↔ BareHost n := by
  unfold BareHost
  split
  · rename_i hhead
    obtain ⟨m, rfl⟩ : ∃ m, n = '[' :: m := ⟨n.tail, by cases n <;> simp_all⟩
    rcases bracket_cases m with hm | ⟨p, q, hp, rfl⟩
    · refine ⟨fun _ p q _ heq => ?_, fun _ => stripPortStr_unclosed hm⟩
      have : ']' ∈ '[' :: m := heq ▸ by simp
      simp [hm] at this
    · have hstrip := stripPortStr_bracket hp q
      rw [List.cons_append] at hstrip
      rw [hstrip]
      constructor
      · intro heq p' q' hp' hn
        obtain rfl : q = [] := by simpa using Except.ok.inj heq
        have hcut : Str.splitOnce ']' ('[' :: (p ++ [']'])) = some (p', q') := Str.splitOnce_eq_some.mpr ⟨hp', hn⟩
        have hcut' : Str.splitOnce ']' ('[' :: (p ++ [']'])) = some ('[' :: p, []) :=
          Str.splitOnce_eq_some.mpr ⟨by simp [hp], by simp⟩
        exact (Prod.mk.inj (Option.some.inj (hcut.symm.trans hcut'))).2
      · intro h
        rw [h ('[' :: p) q (by simp [hp]) (by simp)]
        simp
  · rename_i hhead
    rw [stripPortStr_plain hhead]
    constructor
    · rintro heq h port rfl hne
      by_contra hport
      have hport' : port.all Char.isDigit = true := by simpa using hport
      have hcolon : ':' ∉ port := fun hmem => by
        have := List.all_eq_true.mp hport' _ hmem
        simp [Char.isDigit] at this
      rw [Str.rsplitOnce_eq_some.mpr ⟨hcolon, rfl⟩] at heq
      simp [hne, hport'] at heq
    · intro h
      split
      · rename_i h' port hsplit
        have hno := h h' port (Str.rsplitOnce_eq_some.mp hsplit).2
        rw [if_neg]
        simp only [Bool.and_eq_true, decide_eq_true_eq, not_and, Bool.not_eq_true]
        exact hno
      · rfl

theorem stripPortStr_port_iff {n port : Str} (hne : n ≠ []) (hport : port.all Char.isDigit = true) :
    stripPortStr (n ++ ':' :: port) = .ok n ↔ PortHost n := by
  have hnot : ∀ {c : Char}, c.isDigit = false → c ∉ port := fun hc hmem => by
    have := List.all_eq_true.mp hport _ hmem
    simp [hc] at this
  unfold PortHost
  by_cases hhead : n.head? = some '['
  · obtain ⟨m, rfl⟩ : ∃ m, n = '[' :: m := ⟨n.tail, by cases n <;> simp_all⟩
    rcases bracket_cases m with hm | ⟨p, q, hp, rfl⟩
    · have hm' : ']' ∉ m ++ ':' :: port := by simp [hm, hnot (show ']'.isDigit = false from rfl)]
      rw [List.cons_append, stripPortStr_unclosed hm']
      refine ⟨fun heq => by simp at heq, fun h => ?_⟩
      obtain ⟨p, -, heq⟩ := h rfl
      have : ']' ∈ '[' :: m := heq ▸ by simp
      simp [hm] at this
    · have hstrip := stripPortStr_bracket hp (q ++ ':' :: port)
      rw [show '[' :: (p ++ ']' :: q) ++ ':' :: port = '[' :: p ++ ']' :: (q ++ ':' :: port) from by simp, hstrip]
      constructor
      · intro heq _
        obtain rfl : q = [] := by simpa using Except.ok.inj heq
        exact ⟨'[' :: p, by simp [hp], by simp⟩
      · intro h
        obtain ⟨p', hp', heq⟩ := h rfl
        have hcut : Str.splitOnce ']' ('[' :: (p ++ ']' :: q)) = some (p', []) := Str.splitOnce_eq_some.mpr ⟨hp', heq⟩
        have hcut' : Str.splitOnce ']' ('[' :: (p ++ ']' :: q)) = some ('[' :: p, q) :=
          Str.splitOnce_eq_some.mpr ⟨by simp [hp], by simp⟩
        obtain rfl := (Prod.mk.inj (Option.some.inj (hcut.symm.trans hcut'))).2
        simp
  · have hhead' : (n ++ ':' :: port).head? ≠ some '[' := by cases n <;> simp_all
    rw [stripPortStr_plain hhead', Str.rsplitOnce_eq_some.mpr ⟨hnot rfl, rfl⟩]
    simp [hne, hport, hhead]

/-- Whether a text is left when a port is stripped does not depend on its letter case. -/
theorem stripPortStr_lower_iff (n rest : Str) :
    stripPortStr (Str.toAsciiLowercase (n ++ rest)) = .ok (Str.toAsciiLowercase n) ↔ stripPortStr (n ++ rest) = .ok n := by
  obtain ⟨out, rest', hout, hprefix⟩ := stripPortStr_prefix (n ++ rest)
  rw [stripPortStr_toAsciiLowercase, hout, Except.map, Except.ok.injEq, Except.ok.injEq]
  refine ⟨fun h => ?_, fun h => h ▸ rfl⟩
  have hlen : out.length = n.length := by
    rw [← Str.length_toAsciiLowercase out, h, Str.length_toAsciiLowercase]
  exact (List.append_inj hprefix hlen.symm).1.symm

/-! ## `extract_host` -/

theorem headerToStr_bytes (s : Str) : headerToStr (Str.bytes s) = if s.all isVisible then some s else none := by
  have hall := Str.all_isVisibleByte_bytes s
  change (if (Str.bytes s).all Str.isVisibleByte then some ((Str.bytes s).map fun b => Char.ofNat b.toNat) else none) = _
  by_cases h : s.all isVisible = true
  · rw [h] at hall
    rw [if_pos h, if_pos hall, ← Str.ofBytes, Str.ofBytes_bytes h]
  · rw [if_neg h, if_neg (hall ▸ h)]

/-- The request has a `Host` field that can be read. -/
def hostField (session : Session) : Option Str := (session.header (Str.lit "host")).bind headerToStr

theorem extractHost_of_field {session : Session} {v out : Str} (hfield : hostField session = some v)
    (hout : stripPortStr v = .ok out) : extractHost session = .ok (some (Str.toAsciiLowercase out)) := by
  have hlower : (if out.any Char.isUpper then Str.toAsciiLowercase out else out) = Str.toAsciiLowercase out := by
    split
    · rfl
    · rename_i hupper
      exact (Str.toAsciiLowercase_of_not_upper (Bool.eq_false_of_not_eq_true hupper)).symm
  unfold hostField at hfield
  simp only [extractHost, hfield, bind, Except.bind, hout, hlower]
  rfl

/-- Without such a field `extract_host` asks for a header of a name that is none. -/
theorem extractHost_of_noField {session : Session} (hfield : hostField session = none) :
    extractHost session = .error .invalidHeaderName := by
  unfold hostField at hfield
  have hname : headerNameFromStatic (Str.lit ":authority") = .error .invalidHeaderName := by decide
  simp only [extractHost, hfield, hname, bind, Except.bind]

end NeemataProxy.Routing
