import Qine.Lib.Endian

/-!
# Stacks of words

A stack that grows down from `top` is a region of memory. `pushWords` stores a list of words the
way a sequence of pushes does, first element first, and `loadWords` reads words upwards, the order
in which they are popped. So what was pushed is read back reversed (`loadWords_pushWords`), and
nothing outside the region changes (`pushWords_of_not_mem`).
-/

namespace Memory

variable {m m' : Memory Byte} {w a top x : Nat} {vs vs' : List (BitVec (8 * w))}

/-- Push a list of `w`-byte words on a stack that grows down from `top`. -/
def pushWords (m : Memory Byte) (w top : Nat) : List (BitVec (8 * w)) → Memory Byte
  | [] => m
  | v :: vs => pushWords (m.storeWord w (top - w) v) w (top - w) vs

/-- The `n` words from address `a` upwards. -/
def loadWords (m : Memory Byte) (w a : Nat) : Nat → List (BitVec (8 * w))
  | 0 => []
  | n + 1 => m.loadWord w a :: loadWords m w (a + w) n

theorem pushWords_append : m.pushWords w top (vs ++ vs') =
    (m.pushWords w top vs).pushWords w (top - w * vs.length) vs' := by
  induction vs generalizing m top with
  | nil => rfl
  | cons v vs ih =>
      have htop : top - w - w * vs.length = top - w * (vs.length + 1) := by
        rw [Nat.mul_succ]
        omega
      rw [List.cons_append, pushWords, ih, htop]
      rfl

/-- Pushing changes the region pushed to only. -/
theorem pushWords_of_not_mem (hle : w * vs.length ≤ top)
    (hx : x < top - w * vs.length ∨ top ≤ x) : m.pushWords w top vs x = m x := by
  induction vs generalizing m top with
  | nil => rfl
  | cons v vs ih =>
      rw [List.length_cons, Nat.mul_succ] at hle hx
      rw [pushWords, ih (by omega) (by omega)]
      exact storeWord_of_not_mem (by omega)

/-- Loading looks at its own cells only. -/
theorem loadWords_congr {n : Nat} (h : ∀ x, a ≤ x → x < a + w * n → m x = m' x) :
    m.loadWords w a n = m'.loadWords w a n := by
  induction n generalizing a with
  | zero => rfl
  | succ n ih =>
      rw [Nat.mul_succ] at h
      have hhead : m.loadWord w a = m'.loadWord w a :=
        loadWord_congr fun x h₁ h₂ => h x h₁ (by omega)
      rw [loadWords, loadWords, hhead, ih fun x h₁ h₂ => h x (by omega) (by omega)]

theorem loadWords_concat {n : Nat} :
    m.loadWords w a (n + 1) = m.loadWords w a n ++ [m.loadWord w (a + w * n)] := by
  induction n generalizing a with
  | zero => simp [loadWords]
  | succ n ih =>
      have haddr : a + w + w * n = a + w * (n + 1) := by
        rw [Nat.mul_succ]
        omega
      rw [loadWords, ih, haddr]
      rfl

/-- The words pushed are found from the new top upwards, the last one first. -/
theorem loadWords_pushWords (hle : w * vs.length ≤ top) :
    (m.pushWords w top vs).loadWords w (top - w * vs.length) vs.length = vs.reverse := by
  induction vs generalizing m top with
  | nil => rfl
  | cons v vs ih =>
      rw [List.length_cons, Nat.mul_succ] at hle
      have htop : top - w * (vs.length + 1) = top - w - w * vs.length := by
        rw [Nat.mul_succ]
        omega
      have hlast : top - w - w * vs.length + w * vs.length = top - w := by omega
      rw [List.length_cons, htop, loadWords_concat, pushWords, ih (by omega), hlast,
        List.reverse_cons]
      -- the first word pushed lies above everything pushed later
      have hfirst : ((m.storeWord w (top - w) v).pushWords w (top - w) vs).loadWord w (top - w) =
          (m.storeWord w (top - w) v).loadWord w (top - w) :=
        loadWord_congr fun x h₁ _ => pushWords_of_not_mem (by omega) (Or.inr h₁)
      rw [hfirst, loadWord_storeWord]

end Memory
