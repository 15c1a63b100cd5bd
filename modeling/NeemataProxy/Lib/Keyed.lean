import Mathlib

/-!
# Tables that a fold fills

Every element of a list writes one key of a table. When the keys are distinct nothing is overwritten, and the table
holds what the list holds, in whatever order it is filled.
-/

namespace Lib

variable {S A K V : Type*} [DecidableEq K] {get : S → K → Option V} {step : S → A → S} {key : A → K} {value : A → V}

theorem get_foldl_of_not_mem (hwrite : ∀ s a k, get (step s a) k = if k = key a then some (value a) else get s k)
    {l : List A} {k : K} (h : ∀ a ∈ l, key a ≠ k) (s : S) : get (l.foldl step s) k = get s k := by
  induction l generalizing s with
  | nil => rfl
  | cons a l ih =>
      rw [List.foldl_cons, ih fun b hb => h b (List.mem_cons_of_mem a hb), hwrite]
      exact if_neg fun hk => h a List.mem_cons_self hk.symm

theorem get_foldl_of_mem (hwrite : ∀ s a k, get (step s a) k = if k = key a then some (value a) else get s k)
    {l : List A} (hnodup : (l.map key).Nodup) {a : A} (h : a ∈ l) (s : S) :
    get (l.foldl step s) (key a) = some (value a) := by
  induction l generalizing s with
  | nil => simp at h
  | cons b l ih =>
      rw [List.map_cons, List.nodup_cons] at hnodup
      rw [List.foldl_cons]
      rcases List.mem_cons.mp h with rfl | h
      · rw [get_foldl_of_not_mem hwrite fun c hc heq => hnodup.1 (List.mem_map.mpr ⟨c, hc, heq⟩), hwrite, if_pos rfl]
      · exact ih hnodup.2 h _

/-- A table that is filled from the empty one holds the entries of the list. -/
theorem get_foldl_eq_some (hwrite : ∀ s a k, get (step s a) k = if k = key a then some (value a) else get s k)
    {l : List A} (hnodup : (l.map key).Nodup) {s : S} (hempty : ∀ k, get s k = none) {k : K} {v : V} :
    get (l.foldl step s) k = some v ↔ ∃ a ∈ l, key a = k ∧ value a = v := by
  constructor
  · intro h
    by_cases hk : ∃ a ∈ l, key a = k
    · obtain ⟨a, ha, rfl⟩ := hk
      rw [get_foldl_of_mem hwrite hnodup ha] at h
      exact ⟨a, ha, rfl, Option.some.inj h⟩
    · rw [get_foldl_of_not_mem hwrite (fun a ha heq => hk ⟨a, ha, heq⟩), hempty] at h
      cases h
  · rintro ⟨a, ha, rfl, rfl⟩
    exact get_foldl_of_mem hwrite hnodup ha s

/-- The order of the list does not matter. -/
theorem get_foldl_perm (hwrite : ∀ s a k, get (step s a) k = if k = key a then some (value a) else get s k)
    {l l' : List A} (hperm : l'.Perm l) (hnodup : (l.map key).Nodup) {s : S} (hempty : ∀ k, get s k = none) (k : K) :
    get (l'.foldl step s) k = get (l.foldl step s) k := by
  ext v
  rw [get_foldl_eq_some hwrite hnodup hempty, get_foldl_eq_some hwrite ((hperm.map key).nodup_iff.mpr hnodup) hempty]
  simp only [hperm.mem_iff]

end Lib
