import Mathlib.Data.List.Nodup

/-!
# Tables of slots

A table that maps every natural number to a slot, of which only finitely many are in use: a list of
slots, continued by free ones. `get_put` and `lowestFree_spec` are all that is needed of it.
-/

/-- A table of slots; a slot past the end of the list is free. -/
structure Slots (α : Type*) where
  slots : List (Option α)
  deriving DecidableEq, Repr

namespace Slots

variable {α : Type*}

/-- The contents of a slot. -/
def get (t : Slots α) (n : Nat) : Option α := (t.slots[n]?).join

/-- The table with the contents of one slot replaced. -/
def put (t : Slots α) (n : Nat) (x : Option α) : Slots α :=
  ⟨(t.slots ++ List.replicate (n + 1 - t.slots.length) none).set n x⟩

/-- The first free slot. -/
def lowestFree (t : Slots α) : Nat := t.slots.findIdx (·.isNone)

/-- The slots in use, in order. -/
def used (t : Slots α) : List Nat := (List.range t.slots.length).filter fun n => (t.get n).isSome

theorem get_of_le {t : Slots α} {n : Nat} (h : t.slots.length ≤ n) : t.get n = none := by
  rw [get, List.getElem?_eq_none h]
  rfl

theorem get_append_replicate (l : List (Option α)) (k n : Nat) :
    get ⟨l ++ List.replicate k none⟩ n = get ⟨l⟩ n := by
  by_cases h : n < l.length
  · rw [get, get, List.getElem?_append_left h]
  · have hle := Nat.le_of_not_lt h
    rw [get_of_le (t := ⟨l⟩) hle, get, List.getElem?_append_right hle, List.getElem?_replicate]
    split <;> rfl

/-- Replacing a slot changes that slot only. -/
theorem get_put (t : Slots α) (n m : Nat) (x : Option α) :
    (t.put n x).get m = if m = n then x else t.get m := by
  by_cases h : m = n
  · subst h
    have hlen : m < (t.slots ++ List.replicate (m + 1 - t.slots.length) (none : Option α)).length := by
      rw [List.length_append, List.length_replicate]
      omega
    rw [if_pos rfl, get, put, List.getElem?_set_self hlen]
    rfl
  · rw [if_neg h, get, put, List.getElem?_set_ne (Ne.symm h)]
    exact get_append_replicate t.slots _ m

/-- The first free slot is free, and the slots before it are not. -/
theorem lowestFree_spec (t : Slots α) :
    t.get t.lowestFree = none ∧ ∀ n < t.lowestFree, t.get n ≠ none := by
  constructor
  · unfold lowestFree
    by_cases h : t.slots.findIdx (·.isNone) < t.slots.length
    · have hnone := List.findIdx_getElem (w := h)
      rw [get, List.getElem?_eq_getElem h]
      exact Option.isNone_iff_eq_none.1 (by simpa using hnone)
    · exact get_of_le (Nat.le_of_not_lt h)
  · intro n hn hnone
    have hlen : n < t.slots.length := Nat.lt_of_lt_of_le hn List.findIdx_le_length
    have hfalse := List.not_of_lt_findIdx hn
    rw [get, List.getElem?_eq_getElem hlen] at hnone
    have : t.slots[n] = none := hnone
    rw [this] at hfalse
    simp at hfalse

theorem mem_used {t : Slots α} {n : Nat} : n ∈ t.used ↔ (t.get n).isSome = true := by
  unfold used
  rw [List.mem_filter, List.mem_range]
  refine ⟨fun h => h.2, fun h => ⟨?_, h⟩⟩
  by_contra hle
  rw [get_of_le (Nat.le_of_not_lt hle)] at h
  cases h

end Slots
