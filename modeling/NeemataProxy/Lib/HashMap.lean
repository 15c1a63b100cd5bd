import Mathlib

/-!
# Hash maps and heaps as lists

A map is the list of its entries, with distinct keys; the list order carries no meaning, and code that
iterates over a map takes an `IterOrder`. A heap that is only popped yields its elements in sorted order.
-/

namespace Lib

/-- A hash map: its entries, whose keys are distinct. -/
structure HashMap (K V : Type*) where
  entries : List (K × V)
  nodup : (entries.map Prod.fst).Nodup

/-- The order in which an iteration visits the entries of a map. -/
structure IterOrder (α : Type*) where
  visit : List α → List α
  perm : ∀ l, (visit l).Perm l

/-- The order in which the entries happen to be stored. -/
def IterOrder.stored {α : Type*} : IterOrder α := ⟨id, fun l => .refl l⟩

namespace HashMap

variable {K V : Type*}

def empty : HashMap K V := ⟨[], List.nodup_nil⟩

def len (m : HashMap K V) : Nat := m.entries.length

def retain (p : K → V → Bool) (m : HashMap K V) : HashMap K V :=
  ⟨m.entries.filter (fun e => p e.1 e.2), m.nodup.sublist (List.filter_sublist.map _)⟩

@[simp] theorem entries_empty : (empty : HashMap K V).entries = [] := rfl

@[simp] theorem len_empty : (empty : HashMap K V).len = 0 := rfl

@[simp] theorem mem_entries_retain {p : K → V → Bool} {m : HashMap K V} {e : K × V} :
    e ∈ (m.retain p).entries ↔ e ∈ m.entries ∧ p e.1 e.2 = true := by simp [retain]

theorem len_retain_le (p : K → V → Bool) (m : HashMap K V) : (m.retain p).len ≤ m.len :=
  List.length_filter_le _ _

theorem eq_of_mem_entries {m : HashMap K V} {k : K} {v w : V} (hv : (k, v) ∈ m.entries)
    (hw : (k, w) ∈ m.entries) : v = w :=
  congrArg Prod.snd (List.inj_on_of_nodup_map m.nodup hv hw rfl)

variable [DecidableEq K]

def get (m : HashMap K V) (k : K) : Option V := (m.entries.find? (fun e => e.1 = k)).map Prod.snd

def remove (m : HashMap K V) (k : K) : HashMap K V := m.retain (fun k' _ => k' ≠ k)

def insert (m : HashMap K V) (k : K) (v : V) : HashMap K V where
  entries := (k, v) :: (m.remove k).entries
  nodup := by
    refine List.nodup_cons.mpr ⟨?_, (m.remove k).nodup⟩
    simp [remove]

/-- The entries of a map and its lookups say the same. -/
theorem get_eq_some {m : HashMap K V} {k : K} {v : V} : m.get k = some v ↔ (k, v) ∈ m.entries := by
  constructor
  · intro h
    obtain ⟨⟨k', v'⟩, hf, rfl⟩ := Option.map_eq_some_iff.mp h
    obtain rfl : k' = k := by simpa using List.find?_some hf
    exact List.mem_of_find?_eq_some hf
  · intro h
    cases hf : m.entries.find? (fun e => e.1 = k) with
    | none => simpa using List.find?_eq_none.mp hf _ h
    | some e =>
        obtain ⟨k', v'⟩ := e
        obtain rfl : k' = k := by simpa using List.find?_some hf
        rw [get, hf, eq_of_mem_entries h (List.mem_of_find?_eq_some hf)]
        rfl

@[simp] theorem get_empty (k : K) : (empty : HashMap K V).get k = none := rfl

theorem mem_entries_remove {m : HashMap K V} {k : K} {e : K × V} :
    e ∈ (m.remove k).entries ↔ e ∈ m.entries ∧ e.1 ≠ k := by simp [remove]

theorem mem_entries_insert {m : HashMap K V} {k : K} {v : V} {e : K × V} :
    e ∈ (m.insert k v).entries ↔ e = (k, v) ∨ e ∈ m.entries ∧ e.1 ≠ k := by
  simp [insert, mem_entries_remove]

theorem get_retain (p : K → V → Bool) (m : HashMap K V) (k : K) :
    (m.retain p).get k = (m.get k).filter (p k) := by
  ext v
  simp [get_eq_some, Option.filter_eq_some_iff]

theorem get_remove (m : HashMap K V) (k k' : K) :
    (m.remove k).get k' = if k' = k then none else m.get k' := by
  ext v
  by_cases h : k' = k <;> simp [get_eq_some, mem_entries_remove, h]

theorem get_insert (m : HashMap K V) (k k' : K) (v : V) :
    (m.insert k v).get k' = if k' = k then some v else m.get k' := by
  ext w
  by_cases h : k' = k
  · subst h; rw [get_eq_some]; simp [mem_entries_insert, eq_comm]
  · simp [get_eq_some, mem_entries_insert, h]

theorem len_remove_le (m : HashMap K V) (k : K) : (m.remove k).len ≤ m.len := len_retain_le _ _

theorem len_insert_le (m : HashMap K V) (k : K) (v : V) : (m.insert k v).len ≤ m.len + 1 :=
  Nat.succ_le_succ (m.len_remove_le k)

theorem len_remove_of_get {m : HashMap K V} {k : K} {v : V} (h : m.get k = some v) :
    (m.remove k).len + 1 = m.len := by
  have hk : m.entries.countP (fun e => e.1 = k) = 1 := by
    have hc := List.count_eq_one_of_mem m.nodup (List.mem_map_of_mem (f := Prod.fst) (get_eq_some.mp h))
    rw [List.count, List.countP_map] at hc
    simpa [Function.comp_def, beq_eq_decide] using hc
  have hs := List.length_eq_countP_add_countP (fun e : K × V => decide (e.1 = k)) (l := m.entries)
  rw [hk] at hs
  simp only [len, remove, retain, ← List.countP_eq_length_filter]
  rw [hs, Nat.add_comm]
  simp

end HashMap

/-- A hash set. -/
abbrev HashSet (K : Type*) := HashMap K Unit

/-- `set.contains(k)`. -/
def HashSet.contains {K : Type*} [DecidableEq K] (s : HashSet K) (k : K) : Bool := (HashMap.get s k).isSome

/-! ## Heaps -/

/-- The elements of a min-heap in the order in which `pop` returns them. -/
def popOrder {α : Type*} (cmp : α → α → Ordering) (l : List α) : List α :=
  l.mergeSort (fun a b => (cmp a b).isLE)

theorem popOrder_perm {α : Type*} (cmp : α → α → Ordering) (l : List α) : (popOrder cmp l).Perm l :=
  List.mergeSort_perm _ _

end Lib
