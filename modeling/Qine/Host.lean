import Qine.Segment

/-!
# The host's memory

What the emulator relies on when it asks the host for memory. A `Host` is what the kernel answers at
one moment; the answers to two calls need not agree.
-/

namespace Qine

/-- How a routine that sets up guest memory can end early: `std::bad_alloc` (of which `NoFreeId` is a
kind), the loader's own exception, or a fault. -/
inductive HostError where
  | badAlloc
  | loaderFormat (what : String)
  | fault (f : Fault)
  deriving DecidableEq, Repr

/-- `size_t` and `uintptr_t` arithmetic. -/
def sizeT (n : Nat) : Nat := n % 2 ^ 64

/-- `uint32_t` arithmetic. -/
def uint32 (n : Nat) : Nat := n % 2 ^ 32

theorem sizeT_of_lt {n : Nat} (h : n < 2 ^ 64) : sizeT n = n := Nat.mod_eq_of_lt h

theorem uint32_of_lt {n : Nat} (h : n < 2 ^ 32) : uint32 n = n := Nat.mod_eq_of_lt h

/-- The host kernel's `mmap`. -/
structure Host where
  /-- the address chosen for `mmap(NULL, len, …, MAP_32BIT)`, with the given ranges in use -/
  mmap : List (Nat × Nat) → Nat → Option Nat
  /-- whether `mmap(addr, len, …, MAP_FIXED)` succeeds -/
  mmapFixed : Nat → Nat → Bool
  mmap_pos : ∀ {used len a}, mmap used len = some a → 0 < len
  /-- `MAP_32BIT` means the first two gigabytes -/
  mmap_low : ∀ {used len a}, mmap used len = some a → a + len ≤ 2 ^ 31
  mmap_aligned : ∀ {used len a}, mmap used len = some a → MemOps.pageSize ∣ a
  mmap_apart : ∀ {used len a}, mmap used len = some a →
    ∀ r ∈ used, a + len ≤ r.1 ∨ r.1 + r.2 ≤ a
  mmapFixed_pos : ∀ {a len}, mmapFixed a len = true → 0 < len
  /-- user space is the lower half of the address space -/
  mmapFixed_low : ∀ {a len}, mmapFixed a len = true → a + len < 2 ^ 63

namespace Host

/-- The first page behind all the ranges in use. -/
def nextFree (used : List (Nat × Nat)) : Nat :=
  MemOps.alignPageUp (used.foldr (fun r a => max (r.1 + r.2) a) 0x10000)

theorem le_foldr_end {used : List (Nat × Nat)} {r : Nat × Nat} {bottom : Nat} (h : r ∈ used) :
    r.1 + r.2 ≤ used.foldr (fun r a => max (r.1 + r.2) a) bottom := by
  induction used with
  | nil => cases h
  | cons r' used ih =>
      rcases List.mem_cons.1 h with rfl | h
      · exact Nat.le_max_left _ _
      · exact Nat.le_trans (ih h) (Nat.le_max_right _ _)

theorem le_nextFree {used : List (Nat × Nat)} {r : Nat × Nat} (h : r ∈ used) :
    r.1 + r.2 ≤ nextFree used :=
  Nat.le_trans (le_foldr_end h) (MemOps.le_alignPageUp _)

theorem pos_of_fits {a len : Nat} (h : decide (0 < len ∧ a + len < 2 ^ 63) = true) : 0 < len :=
  (of_decide_eq_true h).1

theorem lt_of_fits {a len : Nat} (h : decide (0 < len ∧ a + len < 2 ^ 63) = true) :
    a + len < 2 ^ 63 := (of_decide_eq_true h).2

/-- A host that has memory as long as there is room, and hands it out from the bottom up. -/
def roomy : Host where
  mmap used len := if 0 < len ∧ nextFree used + len ≤ 2 ^ 31 then some (nextFree used) else none
  mmapFixed a len := decide (0 < len ∧ a + len < 2 ^ 63)
  mmap_pos h := by
    split at h
    · next hlen => exact hlen.1
    · cases h
  mmap_low h := by
    split at h
    · next hlen => cases h; exact hlen.2
    · cases h
  mmap_aligned h := by
    split at h
    · cases h
      exact MemOps.dvd_alignPageUp _
    · cases h
  mmap_apart h r hr := by
    split at h
    · cases h
      exact .inr (le_nextFree hr)
    · cases h
  mmapFixed_pos := @pos_of_fits
  mmapFixed_low := @lt_of_fits

end Host
end Qine
