import NeemataProxy.Lib.Str

/-!
# Errors seen by JavaScript (`src/errors.rs`)
-/

namespace NeemataProxy

open Lib

/-- The codes of `errors::codes`, and the code of `napi::Error::from_reason`. -/
inductive ErrorCode where
  | invalidProxyOptions
  | invalidApplicationOptions
  | unknownApplication
  | alreadyStarted
  | listenBindFailed
  | unsupportedUpstreamType
  | upstreamAlreadyExists
  | upstreamNotFound
  | genericFailure
  deriving DecidableEq, Repr

def ErrorCode.text : ErrorCode → Str
  | .invalidProxyOptions => Str.lit "InvalidProxyOptions"
  | .invalidApplicationOptions => Str.lit "InvalidApplicationOptions"
  | .unknownApplication => Str.lit "UnknownApplication"
  | .alreadyStarted => Str.lit "AlreadyStarted"
  | .listenBindFailed => Str.lit "ListenBindFailed"
  | .unsupportedUpstreamType => Str.lit "UnsupportedUpstreamType"
  | .upstreamAlreadyExists => Str.lit "UpstreamAlreadyExists"
  | .upstreamNotFound => Str.lit "UpstreamNotFound"
  | .genericFailure => Str.lit "GenericFailure"

/-- An error that a call throws or rejects with. -/
structure JsError where
  code : ErrorCode
  message : Str
  deriving DecidableEq, Repr

/-- `napi::Error::from_reason`. -/
def JsError.fromReason (message : Str) : JsError := ⟨.genericFailure, message⟩

/-- What goes through ran both of its parts. -/
theorem exists_of_bind_eq_ok {ε α β : Type*} {x : Except ε α} {f : α → Except ε β} {b : β}
    (h : x.bind f = .ok b) : ∃ a, x = .ok a ∧ f a = .ok b := by
  cases x with
  | error e => simp [Except.bind] at h
  | ok a => exact ⟨a, rfl, h⟩

/-- What fails failed in one of its parts. -/
theorem error_of_bind_eq_error {ε α β : Type*} {x : Except ε α} {f : α → Except ε β} {err : ε} (h : x.bind f = .error err) :
    x = .error err ∨ ∃ a, x = .ok a ∧ f a = .error err := by
  cases x with
  | error err' =>
      obtain rfl := Except.error.inj h
      exact .inl rfl
  | ok a => exact .inr ⟨a, rfl, h⟩

theorem mem_of_mapM_eq_ok {α β ε : Type*} {f : α → Except ε β} {l : List α} {l' : List β} (h : l.mapM f = .ok l') {b : β}
    (hb : b ∈ l') : ∃ a ∈ l, f a = .ok b := by
  induction l generalizing l' with
  | nil =>
      obtain rfl : [] = l' := Except.ok.inj h
      cases hb
  | cons a l ih =>
      rw [List.mapM_cons] at h
      obtain ⟨b', hb', h⟩ := exists_of_bind_eq_ok h
      obtain ⟨rest, hrest, h⟩ := exists_of_bind_eq_ok h
      obtain rfl := Except.ok.inj h
      rcases List.mem_cons.mp hb with rfl | hb
      · exact ⟨a, List.mem_cons_self, hb'⟩
      · obtain ⟨a', ha', heq⟩ := ih hrest hb
        exact ⟨a', List.mem_cons_of_mem _ ha', heq⟩

end NeemataProxy
