import Qine.Types

/-!
# `IdMap`

The id allocator behind the descriptor table and the fd table (`idmap.h`): a vector of owning
pointers that is grown on demand up to `m_max`. A slot past the end of the vector counts as free.

`free` *releases* the owning pointer, so the object of a freed slot is abandoned rather than
destroyed. The model keeps the object out of the table and leaves it to the caller to say what
becomes of it.
-/

namespace Qine

/-- `IdMap<T>`. -/
structure IdMap (α : Type) where
  max : Nat
  data : List (Option α)
  deriving DecidableEq, Repr

namespace IdMap

variable {α : Type}

/-- `NoFreeId` and `IdAlreadyTaken`. -/
inductive AllocError where
  | noFreeId
  | idAlreadyTaken
  deriving DecidableEq, Repr

/-- `IdMap::IdMap`. -/
def empty (max : Nat) : IdMap α := ⟨max, []⟩

/-- `IdMap::operator[]`: the null pointer is `none`. -/
def get (t : IdMap α) (i : Nat) : Option α := (t.data[i]?).join

/-- The scan of `IdMap::search` over the slots from `i` on. -/
def searchFrom (used : Bool) : List (Option α) → Nat → Nat ⊕ Nat
  | [], i => .inr i
  | x :: xs, i => if x.isSome == used then .inl i else searchFrom used xs (i + 1)

/-- `IdMap::search`; `INVAL` is `none`. -/
def search (t : IdMap α) (start : Nat) (used : Bool) : Option Nat :=
  match searchFrom used (t.data.drop start) start with
  | .inl i => some i
  -- looking for an unused id, the first one past the vector will do
  | .inr i => if !used && i < t.max then some i else none

/-- `IdMap::grow`. -/
def grow (t : IdMap α) (toSize : Nat) : IdMap α :=
  if toSize ≤ t.data.length then t
  else { t with data := t.data ++ List.replicate (toSize - t.data.length) none }

/-- `IdMap::emplace`, with the object the creator built. -/
def emplace (t : IdMap α) (i : Nat) (x : α) : IdMap α :=
  { t.grow (i + 1) with data := (t.grow (i + 1)).data.set i (some x) }

/-- `IdMap::alloc_any`. -/
def allocAny (t : IdMap α) (creator : Nat → α) : Except AllocError (IdMap α × Nat) :=
  match t.search 0 false with
  | none => .error .noFreeId
  | some i => .ok (t.emplace i (creator i), i)

/-- `IdMap::alloc_exactly_at`. -/
def allocExactlyAt (t : IdMap α) (i : Nat) (creator : Nat → α) :
    Except AllocError (IdMap α) :=
  if t.max ≤ i then .error .noFreeId
  else if (t.get i).isSome then .error .idAlreadyTaken
  else .ok (t.emplace i (creator i))

/-- `IdMap::alloc_starting_at`. The outer `none` is the null pointer returned for a start that is
not below `m_max`. -/
def allocStartingAt (t : IdMap α) (start : Nat) (creator : Nat → α) :
    Except AllocError (Option (IdMap α × Nat)) :=
  if t.max ≤ start then .ok none
  else match t.search start false with
    | none => .error .noFreeId
    | some i => .ok (some (t.emplace i (creator i), i))

/-- `IdMap::free`. -/
def free (t : IdMap α) (i : Nat) : IdMap α := { t with data := t.data.set i none }

/-- The object in an occupied slot, changed in place. -/
def store (t : IdMap α) (i : Nat) (x : α) : IdMap α := { t with data := t.data.set i (some x) }

/-! ## Reading the table back -/

theorem get_grow (t : IdMap α) (n i : Nat) : (t.grow n).get i = t.get i := by
  unfold grow
  split
  · rfl
  · simp only [get, List.getElem?_append, List.getElem?_replicate]
    split
    · rfl
    · next h =>
        rw [List.getElem?_eq_none (by omega : t.data.length ≤ i)]
        split <;> rfl

theorem le_length_grow (t : IdMap α) (n : Nat) : n ≤ (t.grow n).data.length := by
  unfold grow
  split
  · next h => exact h
  · simp only [List.length_append, List.length_replicate]
    omega

/-- Emplacing changes its own slot only. -/
theorem get_emplace (t : IdMap α) (i j : Nat) (x : α) :
    (t.emplace i x).get j = if i = j then some x else t.get j := by
  have hlen : i < (t.grow (i + 1)).data.length := le_length_grow t (i + 1)
  by_cases hij : i = j
  · subst hij
    simp [emplace, get, hlen]
  · rw [if_neg hij, ← get_grow t (i + 1) j]
    simp [emplace, get, List.getElem?_set_ne hij]

theorem get_free (t : IdMap α) (i j : Nat) :
    (t.free i).get j = if i = j then none else t.get j := by
  by_cases hij : i = j
  · subst hij
    by_cases hi : i < t.data.length
    · simp [free, get, hi]
    · have hle : (t.data.set i none).length ≤ i := by rw [List.length_set]; omega
      simp [free, get, List.getElem?_eq_none hle]
  · simp [free, get, List.getElem?_set_ne hij, if_neg hij]

theorem get_store {t : IdMap α} {i : Nat} (h : (t.get i).isSome) (j : Nat) (x : α) :
    (t.store i x).get j = if i = j then some x else t.get j := by
  have hlen : i < t.data.length := by
    by_contra hle
    rw [get, List.getElem?_eq_none (Nat.le_of_not_lt hle)] at h
    cases h
  by_cases hij : i = j
  · subst hij
    simp [store, get, hlen]
  · simp [store, get, List.getElem?_set_ne hij, if_neg hij]

/-- What `alloc_exactly_at` has found and done when it returns. -/
theorem allocExactlyAt_ok {t t' : IdMap α} {i : Nat} {creator : Nat → α}
    (h : t.allocExactlyAt i creator = .ok t') :
    i < t.max ∧ t.get i = none ∧ t' = t.emplace i (creator i) := by
  unfold allocExactlyAt at h
  split at h
  · cases h
  · next hmax =>
      split at h
      · cases h
      · next hfree =>
          cases h
          exact ⟨Nat.lt_of_not_le hmax, Option.not_isSome_iff_eq_none.mp hfree, rfl⟩

/-- A scan for a free slot ends at a free slot. -/
theorem searchFrom_free {t : IdMap α} {l : List (Option α)} {k i : Nat} (hl : l = t.data.drop k)
    (h : searchFrom false l k = .inl i ∨ searchFrom false l k = .inr i) : t.get i = none := by
  induction l generalizing k with
  | nil =>
      rcases h with h | h <;> cases h
      have hlen := List.drop_eq_nil_iff.1 hl.symm
      rw [get, List.getElem?_eq_none hlen]
      rfl
  | cons x xs ih =>
      have hx : t.data[k]? = some x := by
        rw [← List.head?_drop, ← hl]
        rfl
      have hxs : xs = t.data.drop (k + 1) := by
        rw [← List.tail_drop, ← hl]
        rfl
      unfold searchFrom at h
      split at h
      · next hsome =>
          rcases h with h | h <;> cases h
          rw [get, hx]
          cases x with
          | none => rfl
          | some x => cases hsome
      · exact ih hxs h

theorem search_free {t : IdMap α} {start i : Nat} (h : t.search start false = some i) :
    t.get i = none := by
  unfold search at h
  split at h
  · next heq =>
      cases h
      exact searchFrom_free rfl (.inl heq)
  · next heq =>
      split at h
      · cases h
        exact searchFrom_free rfl (.inr heq)
      · cases h

end IdMap
end Qine
