import Mathlib.Data.Finset.Basic
import Qine.Lib.Tables
import Qine.Types

/-!
# Signal sets

`QnxSigset` (`qnx_sigset.h`) is the QNX signal mask: bit `signo - 1` of a 32-bit word stands for
signal `signo`. Everything the rest of the development needs to know about the bit arithmetic is
said once, through membership (`Has`).
-/

namespace Qine

/-- `QnxSigset`. -/
structure QnxSigset where
  value : BitVec 32
  deriving DecidableEq, Repr

/-- `Qnx::QSIGMIN`. -/
def qsigMin : Nat := 1

/-- `Qnx::QSIGMAX`. -/
def qsigMax : Nat := 32

namespace QnxSigset

/-- `QnxSigset::get_qnx_mask`. -/
def getQnxMask (signo : Nat) : Except Fault (BitVec 32) :=
  if qsigMin ≤ signo ∧ signo ≤ qsigMax then .ok (1#32 <<< (signo - qsigMin))
  else .error (.assertion "signo >= Qnx::QSIGMIN && signo <= Qnx::QSIGMAX")

/-- `QnxSigset::set_qnx_sig`. -/
def setQnxSig (s : QnxSigset) (signo : Nat) : Except Fault QnxSigset := do
  let mask ← getQnxMask signo
  return ⟨s.value ||| mask⟩

/-- `QnxSigset::clear_qnx_sig`. -/
def clearQnxSig (s : QnxSigset) (signo : Nat) : Except Fault QnxSigset := do
  let mask ← getQnxMask signo
  return ⟨s.value &&& ~~~mask⟩

/-- `QnxSigset::operator[]`. -/
def test (s : QnxSigset) (signo : Nat) : Except Fault Bool := do
  let mask ← getQnxMask signo
  return s.value &&& mask != 0

/-- `QnxSigset::modify`. -/
def modify (s mask bits : QnxSigset) : QnxSigset :=
  ⟨(s.value &&& ~~~mask.value) ||| (bits.value &&& mask.value)⟩

/-- `QnxSigset::empty`. -/
def empty : QnxSigset := ⟨0#32⟩

/-- `QnxSigset::is_empty`. -/
def isEmpty (s : QnxSigset) : Bool := s.value == 0

/-- `QnxSigset::find_first`; `none` stands for the `-1` after the loop. -/
def findFirst (s : QnxSigset) : Option Nat :=
  (List.range' qsigMin qsigMax).find? fun signo =>
    match s.test signo with
    | .ok b => b
    | .error _ => false

/-! ## Host signals -/

/-- `SIG_MAP`: pairs of a host and a QNX signal. -/
def sigMap : List (Nat × Nat) :=
  [(1, 1),     -- SIGHUP
   (2, 2),     -- SIGINT
   (3, 3),     -- SIGQUIT
   (4, 4),     -- SIGILL
   (5, 5),     -- SIGTRAP
   (6, 6),     -- SIGIOT
   (8, 8),     -- SIGFPE
   (9, 9),     -- SIGKILL
   (7, 10),    -- SIGBUS
   (11, 11),   -- SIGSEGV
   (31, 12),   -- SIGSYS
   (13, 13),   -- SIGPIPE
   (14, 14),   -- SIGALRM
   (15, 15),   -- SIGTERM
   (10, 16),   -- SIGUSR1
   (12, 17),   -- SIGUSR2
   (17, 18),   -- SIGCHLD
   (30, 19),   -- SIGPWR
   (28, 20),   -- SIGWINCH
   (23, 21),   -- SIGURG
   (29, 22),   -- SIGIO
   (19, 23),   -- SIGSTOP
   (18, 25),   -- SIGCONT
   (21, 26),   -- SIGTTIN
   (22, 27)]   -- SIGTTOU

/-- The host's `SIGSEGV`. -/
def hostSigsegv : Nat := 11

/-- `QnxSigset::map_sig_host_to_qnx`. -/
def mapSigHostToQnx (sig : Nat) : Option Nat := (sigMap.find? (·.1 == sig)).map (·.2)

/-- `QnxSigset::map_sig_qnx_to_host`. -/
def mapSigQnxToHost (sig : Nat) : Option Nat := (sigMap.find? (·.2 == sig)).map (·.1)

/-- `QnxSigset::map_to_host_sigset`. -/
def mapToHostSigset (s : QnxSigset) : Finset Nat :=
  (List.range' qsigMin qsigMax).foldl (fun acc sig =>
    match mapSigQnxToHost sig, s.test sig with
    | some hostSig, .ok true => insert hostSig acc
    | _, _ => acc) ∅

/-! ## Membership -/

/-- Signal `signo` is in the set. -/
def Has (s : QnxSigset) (signo : Nat) : Prop :=
  qsigMin ≤ signo ∧ signo ≤ qsigMax ∧ s.value.getLsbD (signo - qsigMin) = true

instance (s : QnxSigset) (signo : Nat) : Decidable (s.Has signo) :=
  inferInstanceAs (Decidable (_ ∧ _ ∧ _))

variable {s s' t : QnxSigset} {signo other : Nat}

theorem getQnxMask_eq_ok {mask : BitVec 32} :
    getQnxMask signo = .ok mask ↔
      (qsigMin ≤ signo ∧ signo ≤ qsigMax) ∧ mask = 1#32 <<< (signo - qsigMin) := by
  unfold getQnxMask
  split
  · next h => simp [h, eq_comm]
  · next h => simp [h]

/-- One bit of a single-signal mask. -/
theorem getLsbD_bit {i j : Nat} (hj : j < 32) : (1#32 <<< i).getLsbD j = decide (j = i) := by
  rw [BitVec.getLsbD_shiftLeft, BitVec.getLsbD_one, Bool.eq_iff_iff]
  simp only [hj, decide_true, Bool.true_and, Bool.and_eq_true, Bool.not_eq_true', decide_eq_true_eq,
    decide_eq_false_iff_not]
  omega

/-- Probing a word with a single-signal mask looks at that one bit. -/
theorem and_bit_ne_zero {v : BitVec 32} {i : Nat} (hi : i < 32) :
    (v &&& 1#32 <<< i != 0) = v.getLsbD i := by
  rw [Bool.eq_iff_iff, bne_iff_ne]
  exact Flags.and_twoPow_ne_zero hi

theorem test_eq_ok {b : Bool} :
    s.test signo = .ok b ↔ (qsigMin ≤ signo ∧ signo ≤ qsigMax) ∧ b = decide (s.Has signo) := by
  unfold test
  rw [bind_eq_ok]
  simp only [getQnxMask_eq_ok, pure, Except.pure, Except.ok.injEq]
  have hbit (hs : qsigMin ≤ signo ∧ signo ≤ qsigMax) :
      (s.value &&& 1#32 <<< (signo - qsigMin) != 0) = decide (s.Has signo) := by
    have hlt : signo - qsigMin < 32 := by simp only [qsigMin, qsigMax] at hs ⊢; omega
    rw [and_bit_ne_zero hlt, Bool.eq_iff_iff, decide_eq_true_eq]
    exact ⟨fun h => ⟨hs.1, hs.2, h⟩, fun h => h.2.2⟩
  constructor
  · rintro ⟨mask, ⟨hs, rfl⟩, rfl⟩
    exact ⟨hs, hbit hs⟩
  · rintro ⟨hs, rfl⟩
    exact ⟨_, ⟨hs, rfl⟩, hbit hs⟩

theorem has_setQnxSig (h : s.setQnxSig signo = .ok s') :
    s'.Has other ↔ other = signo ∨ s.Has other := by
  obtain ⟨mask, hmask, hs'⟩ := bind_eq_ok.mp h
  obtain ⟨⟨h₁, h₂⟩, rfl⟩ := getQnxMask_eq_ok.mp hmask
  cases hs'
  unfold Has
  simp only [qsigMin, qsigMax] at h₁ h₂ ⊢
  by_cases ho : 1 ≤ other ∧ other ≤ 32
  · rw [BitVec.getLsbD_or, getLsbD_bit (by omega), Bool.or_eq_true, decide_eq_true_eq]
    have heq : other - 1 = signo - 1 ↔ other = signo := by omega
    rw [heq]
    tauto
  · have hne : other ≠ signo := by omega
    tauto

theorem has_clearQnxSig (h : s.clearQnxSig signo = .ok s') :
    s'.Has other ↔ s.Has other ∧ other ≠ signo := by
  obtain ⟨mask, hmask, hs'⟩ := bind_eq_ok.mp h
  obtain ⟨⟨h₁, h₂⟩, rfl⟩ := getQnxMask_eq_ok.mp hmask
  cases hs'
  unfold Has
  simp only [qsigMin, qsigMax] at h₁ h₂ ⊢
  by_cases ho : 1 ≤ other ∧ other ≤ 32
  · have hlt : other - 1 < 32 := by omega
    have heq : other - 1 = signo - 1 ↔ other = signo := by omega
    rw [BitVec.getLsbD_and, BitVec.getLsbD_not, getLsbD_bit hlt]
    simp only [hlt, decide_true, Bool.true_and, Bool.and_eq_true, Bool.not_eq_true',
      decide_eq_false_iff_not, heq]
    tauto
  · tauto

/-- A set without the members of another: how the active signals are computed. -/
theorem has_modify_empty : (s.modify t empty).Has signo ↔ s.Has signo ∧ ¬ t.Has signo := by
  unfold Has modify empty
  by_cases ho : qsigMin ≤ signo ∧ signo ≤ qsigMax
  · have hlt : signo - qsigMin < 32 := by simp only [qsigMin, qsigMax] at ho ⊢; omega
    rw [BitVec.zero_and, BitVec.or_zero]
    simp only [BitVec.getLsbD_and, BitVec.getLsbD_not, hlt,
      decide_true, Bool.true_and, Bool.and_eq_true, Bool.not_eq_true']
    rw [← Bool.not_eq_true]
    tauto
  · tauto

/-! ## The lowest member -/

theorem findFirst_eq_some (h : s.findFirst = some signo) : s.Has signo := by
  have htest := List.find?_some h
  cases ht : s.test signo with
  | error e => rw [ht] at htest; simp at htest
  | ok b =>
      rw [ht] at htest
      obtain ⟨-, hb⟩ := test_eq_ok.mp ht
      rw [hb] at htest
      simpa using htest

/-- The loop goes through the signals in order. -/
theorem findFirst_lowest (h : s.findFirst = some signo) (hlt : other < signo) : ¬ s.Has other := by
  intro hother
  obtain ⟨-, -, hbefore⟩ := List.find?_range'_eq_some.mp h
  have htest := hbefore other hother.1 hlt
  rw [test_eq_ok.mpr ⟨⟨hother.1, hother.2.1⟩, rfl⟩] at htest
  have hdecide : decide (s.Has other) = true := decide_eq_true hother
  rw [hdecide] at htest
  cases htest

/-- The union of two sets. -/
theorem has_or {a b : BitVec 32} :
    (QnxSigset.mk (a ||| b)).Has signo ↔ (QnxSigset.mk a).Has signo ∨ (QnxSigset.mk b).Has signo := by
  unfold Has
  simp only [BitVec.getLsbD_or, Bool.or_eq_true]
  tauto

/-- The loops go through the signals. -/
theorem mem_range'_iff : signo ∈ List.range' qsigMin qsigMax ↔ qsigMin ≤ signo ∧ signo ≤ qsigMax := by
  rw [List.mem_range'_1]
  simp only [qsigMin, qsigMax]
  omega

/-- The loop finds a member of every set that is not empty. -/
theorem exists_findFirst (h : s.isEmpty = false) : ∃ signo, s.findFirst = some signo := by
  have hne : s.value ≠ 0 := by simpa [isEmpty] using h
  obtain ⟨i, hi⟩ : ∃ i, s.value.getLsbD i = true := by
    by_contra hall
    push Not at hall
    exact hne (Flags.eq_zero_iff.mpr fun i _ => by simpa using hall i)
  have hlt : i < 32 := BitVec.lt_of_getLsbD hi
  have hhas : s.Has (i + 1) := ⟨by simp [qsigMin], by simp [qsigMax]; omega, by simpa [qsigMin]⟩
  apply Option.isSome_iff_exists.mp
  rw [findFirst, List.find?_isSome]
  refine ⟨i + 1, mem_range'_iff.mpr ⟨hhas.1, hhas.2.1⟩, ?_⟩
  rw [test_eq_ok.mpr ⟨⟨hhas.1, hhas.2.1⟩, rfl⟩]
  exact decide_eq_true hhas

end QnxSigset
end Qine
