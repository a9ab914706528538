import Mathlib.Data.List.Basic

/-!
# Tilings

Things with a place and an extent that follow each other without a gap. They do not overlap, and everything from
the first place to the end of the last one is in one of them.
-/

namespace Tiling

variable {ι : Type} {place extent : ι → Nat} {a b c i : Nat} {l l' : List ι} {x y : ι}

/-- The list goes from one position to another, each thing starting where the one before ends. -/
def Tiles (place extent : ι → Nat) : Nat → List ι → Nat → Prop
  | a, [], b => a = b
  | a, x :: l, b => place x = a ∧ Tiles place extent (a + extent x) l b

/-- A position that a thing covers. -/
def Covers (place extent : ι → Nat) (x : ι) (i : Nat) : Prop := place x ≤ i ∧ i < place x + extent x

namespace Tiles

theorem le (h : Tiles place extent a l b) : a ≤ b := by
  induction l generalizing a with
  | nil => exact Nat.le_of_eq h
  | cons x l ih => exact Nat.le_trans (Nat.le_add_right a _) (ih h.2)

theorem end_le (h : Tiles place extent a l b) (hx : x ∈ l) : place x + extent x ≤ b := by
  induction l generalizing a with
  | nil => cases hx
  | cons y l ih =>
      rcases List.mem_cons.mp hx with rfl | hx
      · exact h.1 ▸ h.2.le
      · exact ih h.2 hx

end Tiles

end Tiling
