import Mathlib.Algebra.Order.Ring.Int

/-!
# Signed machine integers

The numbers of a signed type of `w` bits, as integers. Arithmetic is exact and has no result where the result
does not fit (`checked`), and a conversion to the type keeps the numbers that fit (`wrap`).
-/

namespace Signed

variable {w w' : Nat} {v : Int}

/-- The number is one of the type. -/
def Fits (w : Nat) (v : Int) : Prop := -2 ^ (w - 1) ≤ v ∧ v < 2 ^ (w - 1)

instance : Decidable (Fits w v) := inferInstanceAs (Decidable (_ ∧ _))

/-- The result of an operation, where it is defined. -/
def checked (w : Nat) (v : Int) : Option Int := if Fits w v then some v else none

/-- The conversion to the type. -/
def wrap (w : Nat) (v : Int) : Int := v.bmod (2 ^ w)

theorem Fits.mono (h : Fits w v) (hw : w ≤ w') : Fits w' v := by
  have hpow : (2 : Int) ^ (w - 1) ≤ 2 ^ (w' - 1) := pow_le_pow_right₀ (by decide) (Nat.sub_le_sub_right hw 1)
  exact ⟨(neg_le_neg hpow).trans h.1, h.2.trans_le hpow⟩

theorem checked_of_fits (h : Fits w v) : checked w v = some v := if_pos h

theorem checked_of_not_fits (h : ¬ Fits w v) : checked w v = none := if_neg h

/-- A number of the type is converted to itself. -/
theorem wrap_of_fits (hw : 0 < w) (h : Fits w v) : wrap w v = v := by
  obtain ⟨w, rfl⟩ : ∃ k, w = k + 1 := ⟨w - 1, by omega⟩
  obtain ⟨hlow, hhigh⟩ := h
  rw [Nat.add_sub_cancel] at hlow hhigh
  have hpow : ((2 ^ (w + 1) : Nat) : Int) = 2 * 2 ^ w := by
    rw [Nat.pow_succ']
    push_cast
    rfl
  refine Int.bmod_eq_of_le ?_ ?_
  · rw [hpow]
    omega
  · rw [hpow]
    omega

end Signed
