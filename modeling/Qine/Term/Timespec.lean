import Qine.Lib.Signed
import Qine.Signal.Emu

/-!
# Times

`Timespec` (`timespec.h`): seconds and nanoseconds, which the constructor normalises. The terminal filter
works with the operations in unbounded integers. `Bounded` has them in the widths of the source, where the
nanoseconds go through an argument of 32 bits and the seconds have 64.

`valid_make_iff` and `nanos_make` are what normalisation does, for negative arguments as well, and everything
else follows: `bounded_exact` says that the operations are exact on the times from zero on, as long as the
seconds of a sum fit.
-/

namespace Qine

namespace Timespec

/-- Nanoseconds in a second. -/
def nsecPerSec : Int := 1000 * 1000 * 1000

/-- `Timespec::Timespec`, which normalises; division truncates. -/
def make (sec nsec : Int) : Timespec :=
  let sec := sec + nsec.tdiv nsecPerSec
  let nsec := nsec.tmod nsecPerSec
  if 0 < sec ∧ nsec < 0 then ⟨sec - 1, nsec + nsecPerSec⟩ else ⟨sec, nsec⟩

/-- `Timespec::ms`. -/
def ms (n : Int) : Timespec := make (n.tdiv 1000) (n.tmod 1000 * 1000 * 1000)

/-- `Timespec::operator+`. -/
def add (a b : Timespec) : Timespec := make (a.sec + b.sec) (a.nsec + b.nsec)

/-- `Timespec::operator-`. -/
def sub (a b : Timespec) : Timespec := make (a.sec - b.sec) (a.nsec - b.nsec)

/-- `Timespec::operator>`. -/
def gt (a b : Timespec) : Bool := decide (b.sec < a.sec) || a.sec == b.sec && decide (b.nsec < a.nsec)

/-- `Timespec::operator>=`. -/
def ge (a b : Timespec) : Bool := decide (b.sec < a.sec) || a.sec == b.sec && decide (b.nsec ≤ a.nsec)

/-- What a clock shows. -/
structure Valid (t : Timespec) : Prop where
  sec_nonneg : 0 ≤ t.sec
  nsec_nonneg : 0 ≤ t.nsec
  nsec_lt : t.nsec < nsecPerSec

instance (t : Timespec) : Decidable t.Valid :=
  decidable_of_iff (0 ≤ t.sec ∧ 0 ≤ t.nsec ∧ t.nsec < nsecPerSec)
    ⟨fun ⟨h₁, h₂, h₃⟩ => ⟨h₁, h₂, h₃⟩, fun ⟨h₁, h₂, h₃⟩ => ⟨h₁, h₂, h₃⟩⟩

/-- A time in nanoseconds. -/
def nanos (t : Timespec) : Int := t.sec * nsecPerSec + t.nsec

/-! ## Nanoseconds -/

variable {a b : Timespec} {sec nsec n : Int}

theorem nsecPerSec_pos : 0 < nsecPerSec := by decide

theorem nanos_make (sec nsec : Int) : (make sec nsec).nanos = sec * nsecPerSec + nsec := by
  have hdiv := Int.tdiv_mul_add_tmod nsec nsecPerSec
  unfold make
  dsimp only
  generalize nsec.tdiv nsecPerSec = q at hdiv
  generalize nsec.tmod nsecPerSec = r at hdiv
  split
  · simp only [nanos, nsecPerSec] at hdiv ⊢
    omega
  · simp only [nanos, nsecPerSec] at hdiv ⊢
    omega

theorem nanos_add (a b : Timespec) : (a.add b).nanos = a.nanos + b.nanos := by
  unfold add
  rw [nanos_make]
  simp only [nanos, nsecPerSec]
  omega

theorem nanos_sub (a b : Timespec) : (a.sub b).nanos = a.nanos - b.nanos := by
  unfold sub
  rw [nanos_make]
  simp only [nanos, nsecPerSec]
  omega

theorem nanos_ms (n : Int) : (ms n).nanos = n * 1000000 := by
  have hdiv := Int.tdiv_mul_add_tmod n 1000
  unfold ms
  rw [nanos_make]
  simp only [nsecPerSec]
  omega

/-- Different periods end at different times. -/
theorem add_ms_inj {now : Timespec} {m n : Int} : now.add (ms m) = now.add (ms n) ↔ m = n := by
  refine ⟨fun heq => ?_, fun heq => heq ▸ rfl⟩
  have hnanos := congrArg nanos heq
  rw [nanos_add, nanos_add, nanos_ms, nanos_ms] at hnanos
  omega

theorem Valid.nanos_nonneg (ha : a.Valid) : 0 ≤ a.nanos := by
  obtain ⟨hsec, hnsec, -⟩ := ha
  simp only [nanos, nsecPerSec]
  omega

/-- Two times with the same nanoseconds are the same. -/
theorem Valid.nanos_inj (ha : a.Valid) (hb : b.Valid) (h : a.nanos = b.nanos) : a = b := by
  obtain ⟨-, ha₀, ha₁⟩ := ha
  obtain ⟨-, hb₀, hb₁⟩ := hb
  cases a
  cases b
  simp only [nanos, nsecPerSec] at *
  rw [mk.injEq]
  omega

/-- The constructor normalises whatever is not negative as a whole: a negative rest is left only where there is
a second to borrow. -/
theorem valid_make_iff : (make sec nsec).Valid ↔ 0 ≤ (make sec nsec).nanos := by
  refine ⟨Valid.nanos_nonneg, fun h => ?_⟩
  rw [nanos_make] at h
  have hdiv := Int.tdiv_mul_add_tmod nsec nsecPerSec
  have hlow := Int.lt_tmod_of_pos nsec nsecPerSec_pos
  have hhigh := Int.tmod_lt_of_pos nsec nsecPerSec_pos
  unfold make
  dsimp only
  generalize nsec.tdiv nsecPerSec = q at hdiv
  generalize nsec.tmod nsecPerSec = r at hdiv hlow hhigh
  simp only [nsecPerSec] at h hdiv hlow hhigh ⊢
  split
  · constructor <;> simp only [nsecPerSec] <;> omega
  · constructor <;> simp only [nsecPerSec] <;> omega

theorem valid_add (ha : a.Valid) (hb : b.Valid) : (a.add b).Valid := by
  apply valid_make_iff.2
  show 0 ≤ (a.add b).nanos
  rw [nanos_add]
  exact Int.add_nonneg ha.nanos_nonneg hb.nanos_nonneg

theorem valid_sub (h : b.nanos ≤ a.nanos) : (a.sub b).Valid := by
  apply valid_make_iff.2
  show 0 ≤ (a.sub b).nanos
  rw [nanos_sub]
  exact Int.sub_nonneg_of_le h

theorem valid_ms (h : 0 ≤ n) : (ms n).Valid := by
  apply valid_make_iff.2
  show 0 ≤ (ms n).nanos
  rw [nanos_ms]
  omega

/-- The comparisons are those of the nanoseconds. -/
theorem gt_iff (ha : a.Valid) (hb : b.Valid) : a.gt b = true ↔ b.nanos < a.nanos := by
  obtain ⟨-, ha₀, ha₁⟩ := ha
  obtain ⟨-, hb₀, hb₁⟩ := hb
  simp only [nsecPerSec] at ha₁ hb₁
  simp only [gt, nanos, nsecPerSec, Bool.or_eq_true, Bool.and_eq_true, decide_eq_true_eq, beq_iff_eq]
  omega

theorem ge_iff (ha : a.Valid) (hb : b.Valid) : a.ge b = true ↔ b.nanos ≤ a.nanos := by
  obtain ⟨-, ha₀, ha₁⟩ := ha
  obtain ⟨-, hb₀, hb₁⟩ := hb
  simp only [nsecPerSec] at ha₁ hb₁
  simp only [ge, nanos, nsecPerSec, Bool.or_eq_true, Bool.and_eq_true, decide_eq_true_eq, beq_iff_eq]
  omega

/-! ## The widths of the source -/

open Signed

/-- A normalised time from zero on. Its seconds are a `time_t` of 64 bits. -/
structure Normalised (t : Timespec) : Prop extends Valid t where
  sec_lt : t.sec < 2 ^ 63

/-- The seconds fit exactly if the time does. -/
theorem Valid.normalised_iff (ha : a.Valid) : a.Normalised ↔ a.nanos < 2 ^ 63 * nsecPerSec := by
  have hnsec := ha.nsec_nonneg
  have hlt := ha.nsec_lt
  simp only [nanos, nsecPerSec] at hlt ⊢
  constructor
  · rintro ⟨-, hsec⟩
    omega
  · intro h
    exact ⟨ha, by omega⟩

namespace Bounded

/-- `Timespec::Timespec`: the second argument is an `int32_t`, and both fields have 64 bits. There is no result
where the arithmetic overflows. -/
def make (sec nsec : Int) : Option Timespec := do
  let tvNsec := wrap 32 nsec
  let tvSec ← checked 64 (sec + tvNsec.tdiv nsecPerSec)
  let tvNsec := tvNsec.tmod nsecPerSec
  if 0 < tvSec ∧ tvNsec < 0 then
    return ⟨← checked 64 (tvSec - 1), ← checked 64 (tvNsec + nsecPerSec)⟩
  else return ⟨tvSec, tvNsec⟩

/-- `Timespec::ms`. -/
def ms (n : Int) : Option Timespec := do
  let nsec ← checked 64 (n.tmod 1000 * 1000)
  make (n.tdiv 1000) (← checked 64 (nsec * 1000))

/-- `Timespec::operator+`. -/
def add (a b : Timespec) : Option Timespec := do
  make (← checked 64 (a.sec + b.sec)) (← checked 64 (a.nsec + b.nsec))

/-- `Timespec::operator-`. -/
def sub (a b : Timespec) : Option Timespec := do
  make (← checked 64 (a.sec - b.sec)) (← checked 64 (a.nsec - b.nsec))

/-- An argument of 32 bits is not changed, and only the carry can overflow. -/
theorem make_eq (hnsec : Fits 32 nsec) : make sec nsec =
    if Fits 64 (sec + nsec.tdiv nsecPerSec) then some (Timespec.make sec nsec) else none := by
  have hlow := Int.lt_tmod_of_pos nsec nsecPerSec_pos
  unfold make Timespec.make
  rw [wrap_of_fits (by decide) hnsec]
  dsimp only
  generalize nsec.tmod nsecPerSec = r at hlow
  generalize sec + nsec.tdiv nsecPerSec = q
  by_cases hq : Fits 64 q
  · rw [if_pos hq, checked_of_fits hq, Option.bind_eq_bind, Option.bind_some]
    split
    · next hborrow =>
        have hsec : Fits 64 (q - 1) := ⟨by omega, by have := hq.2; omega⟩
        have hrest : Fits 64 (r + nsecPerSec) := by
          simp only [Fits, nsecPerSec] at hlow ⊢
          omega
        rw [checked_of_fits hsec, checked_of_fits hrest]
        rfl
    · rfl
  · rw [if_neg hq, checked_of_not_fits hq]
    rfl

/-- The sum of two nanosecond fields is an argument that fits. -/
theorem fits_add (ha : a.Normalised) (hb : b.Normalised) : Fits 32 (a.nsec + b.nsec) := by
  obtain ⟨⟨-, ha₀, ha₁⟩, -⟩ := ha
  obtain ⟨⟨-, hb₀, hb₁⟩, -⟩ := hb
  simp only [Fits, nsecPerSec] at *
  omega

theorem fits_sub (ha : a.Normalised) (hb : b.Normalised) : Fits 32 (a.nsec - b.nsec) := by
  obtain ⟨⟨-, ha₀, ha₁⟩, -⟩ := ha
  obtain ⟨⟨-, hb₀, hb₁⟩, -⟩ := hb
  simp only [Fits, nsecPerSec] at *
  omega

theorem fits_ms (n : Int) : Fits 32 (n.tmod 1000 * 1000 * 1000) := by
  have hlow := Int.lt_tmod_of_pos n (show 0 < (1000 : Int) by decide)
  have hhigh := Int.tmod_lt_of_pos n (show 0 < (1000 : Int) by decide)
  simp only [Fits]
  omega

/-- A sum is computed exactly if it fits, and it is the one in unbounded integers then. -/
theorem add_eq (ha : a.Normalised) (hb : b.Normalised) :
    add a b = if a.nanos + b.nanos < 2 ^ 63 * nsecPerSec then some (a.add b) else none := by
  have hnsec := fits_add ha hb
  obtain ⟨⟨ha₀, ha₁, ha₂⟩, ha₃⟩ := ha
  obtain ⟨⟨hb₀, hb₁, hb₂⟩, hb₃⟩ := hb
  have hcarry : (a.nsec + b.nsec).tdiv nsecPerSec = (a.nsec + b.nsec) / nsecPerSec :=
    Int.tdiv_eq_ediv_of_nonneg (by omega)
  have hfits : Fits 64 (a.sec + b.sec + (a.nsec + b.nsec).tdiv nsecPerSec) ↔
      a.nanos + b.nanos < 2 ^ 63 * nsecPerSec := by
    rw [hcarry]
    simp only [Fits, nanos, nsecPerSec] at *
    omega
  unfold add
  rw [checked_of_fits (hnsec.mono (by decide))]
  by_cases hsec : Fits 64 (a.sec + b.sec)
  · rw [checked_of_fits hsec]
    show make (a.sec + b.sec) (a.nsec + b.nsec) = _
    rw [make_eq hnsec, if_congr hfits rfl rfl]
    rfl
  · have hlarge : ¬ a.nanos + b.nanos < 2 ^ 63 * nsecPerSec := by
      simp only [Fits, nanos, nsecPerSec] at *
      omega
    rw [checked_of_not_fits hsec, if_neg hlarge]
    rfl

/-- A difference never overflows. -/
theorem sub_eq (ha : a.Normalised) (hb : b.Normalised) : sub a b = some (a.sub b) := by
  have hnsec := fits_sub ha hb
  obtain ⟨⟨ha₀, ha₁, ha₂⟩, ha₃⟩ := ha
  obtain ⟨⟨hb₀, hb₁, hb₂⟩, hb₃⟩ := hb
  have hcarry : (a.nsec - b.nsec).tdiv nsecPerSec = 0 := by
    rw [← Int.natAbs_eq_zero, Int.natAbs_tdiv]
    apply Nat.div_eq_of_lt
    simp only [nsecPerSec] at *
    omega
  have hsec : Fits 64 (a.sec - b.sec) := by
    simp only [Fits, nsecPerSec] at *
    omega
  unfold sub
  rw [checked_of_fits hsec, checked_of_fits (hnsec.mono (by decide))]
  show make (a.sec - b.sec) (a.nsec - b.nsec) = _
  rw [make_eq hnsec, hcarry, Int.add_zero, if_pos hsec]
  rfl

/-- Neither do milliseconds from zero on. -/
theorem ms_eq (hn : 0 ≤ n) (hlt : n < 2 ^ 63) : ms n = some (Timespec.ms n) := by
  have hnsec := fits_ms n
  have hdiv : n.tdiv 1000 = n / 1000 := Int.tdiv_eq_ediv_of_nonneg hn
  have hmod : n.tmod 1000 = n % 1000 := Int.tmod_eq_emod_of_nonneg hn
  have hcarry : (n.tmod 1000 * 1000 * 1000).tdiv nsecPerSec = 0 := by
    rw [hmod]
    exact Int.tdiv_eq_zero_of_lt (by omega) (by simp only [nsecPerSec]; omega)
  have hsec : Fits 64 (n.tdiv 1000) := by
    rw [hdiv]
    simp only [Fits]
    omega
  have hmicros : Fits 64 (n.tmod 1000 * 1000) := by
    rw [hmod]
    simp only [Fits]
    omega
  unfold ms
  rw [checked_of_fits hmicros, Option.bind_eq_bind, Option.bind_some, checked_of_fits (hnsec.mono (by decide))]
  show make (n.tdiv 1000) (n.tmod 1000 * 1000 * 1000) = _
  rw [make_eq hnsec, hcarry, Int.add_zero, if_pos hsec]
  rfl

/-- Sums are exact. -/
theorem add_exact {c : Timespec} (ha : a.Normalised) (hb : b.Normalised) (h : add a b = some c) :
    c.Normalised ∧ c.nanos = a.nanos + b.nanos := by
  rw [add_eq ha hb, Option.ite_none_right_eq_some] at h
  obtain ⟨hfits, h⟩ := h
  cases h
  rw [(valid_add ha.toValid hb.toValid).normalised_iff, nanos_add]
  exact ⟨hfits, rfl⟩

/-- Differences are exact, and what was taken away can be added again. -/
theorem sub_exact (ha : a.Normalised) (hb : b.Normalised) (h : b.nanos ≤ a.nanos) :
    ∃ c, sub a b = some c ∧ c.Normalised ∧ c.nanos = a.nanos - b.nanos ∧ add b c = some a := by
  have hvalid := valid_sub h
  have hnanos := nanos_sub a b
  have hlimit := ha.toValid.normalised_iff.1 ha
  have hnonneg := hb.toValid.nanos_nonneg
  have hsub : (a.sub b).Normalised := hvalid.normalised_iff.2 (by omega)
  have hback : b.add (a.sub b) = a := by
    refine (valid_add hb.toValid hvalid).nanos_inj ha.toValid ?_
    rw [nanos_add, hnanos]
    omega
  refine ⟨a.sub b, sub_eq ha hb, hsub, hnanos, ?_⟩
  rw [add_eq hb hsub, hback]
  exact if_pos (by omega)

/-- Milliseconds are exact. -/
theorem ms_exact (hn : 0 ≤ n) (hlt : n < 2 ^ 63) :
    ∃ c, ms n = some c ∧ c.Normalised ∧ c.nanos = n * 10 ^ 6 := by
  have hnanos := nanos_ms n
  refine ⟨Timespec.ms n, ms_eq hn hlt, (valid_ms hn).normalised_iff.2 ?_, hnanos⟩
  rw [hnanos, nsecPerSec]
  omega

end Bounded

/-- The operations of the source on normalised times from zero on. A sum has a result exactly if its seconds fit
in 64 bits, and it is exact then; the difference of times in order is exact and leads back to the time it was
taken from; the comparisons are those of the nanoseconds; milliseconds are what they say; and no argument of the
constructor overflows its 32 bits. -/
theorem bounded_exact (ha : a.Normalised) (hb : b.Normalised) :
    ((∃ c, Bounded.add a b = some c) ↔ a.nanos + b.nanos < 2 ^ 63 * nsecPerSec) ∧
    (∀ c, Bounded.add a b = some c → c.Normalised ∧ c.nanos = a.nanos + b.nanos) ∧
    (a.ge b = true → ∃ c, Bounded.sub a b = some c ∧ c.Normalised ∧ c.nanos = a.nanos - b.nanos ∧
      Bounded.add b c = some a) ∧
    (a.gt b = true ↔ b.nanos < a.nanos) ∧ (a.ge b = true ↔ b.nanos ≤ a.nanos) ∧
    (∀ n, 0 ≤ n → n < 2 ^ 63 → ∃ c, Bounded.ms n = some c ∧ c.Normalised ∧ c.nanos = n * 10 ^ 6) ∧
    Fits 32 (a.nsec + b.nsec) ∧ Fits 32 (a.nsec - b.nsec) ∧ ∀ n : Int, Fits 32 (n.tmod 1000 * 1000 * 1000) := by
  have hge := ge_iff ha.toValid hb.toValid
  refine ⟨?_, ?_, ?_, gt_iff ha.toValid hb.toValid, hge, ?_, Bounded.fits_add ha hb, Bounded.fits_sub ha hb,
    Bounded.fits_ms⟩
  · rw [Bounded.add_eq ha hb]
    simp
  · intro c hc
    exact Bounded.add_exact ha hb hc
  · intro h
    exact Bounded.sub_exact ha hb (hge.1 h)
  · intro n hn hlt
    exact Bounded.ms_exact hn hlt

/-- A difference with a borrow. -/
theorem bounded_exact_borrow : ∃ c, Bounded.sub ⟨5, 100000000⟩ ⟨2, 900000000⟩ = some c ∧ c.Normalised ∧
    c.nanos = 2200000000 ∧ Bounded.add ⟨2, 900000000⟩ c = some ⟨5, 100000000⟩ := by
  have ha : Normalised ⟨5, 100000000⟩ := ⟨by decide, by decide⟩
  have hb : Normalised ⟨2, 900000000⟩ := ⟨by decide, by decide⟩
  obtain ⟨-, -, hsub, -⟩ := bounded_exact ha hb
  exact hsub (by decide)

/-- A second after the last one there is no time: the sum overflows, and no normalised time is what it should
be. -/
theorem add_overflows : Normalised ⟨2 ^ 63 - 1, 0⟩ ∧ Normalised ⟨1, 0⟩ ∧
    Bounded.add ⟨2 ^ 63 - 1, 0⟩ ⟨1, 0⟩ = none ∧
    ∀ c : Timespec, c.Normalised → c.nanos ≠ nanos ⟨2 ^ 63 - 1, 0⟩ + nanos ⟨1, 0⟩ := by
  have ha : Normalised ⟨2 ^ 63 - 1, 0⟩ := ⟨by decide, by decide⟩
  have hb : Normalised ⟨1, 0⟩ := ⟨by decide, by decide⟩
  refine ⟨ha, hb, by decide, ?_⟩
  intro c hc heq
  have hlimit := hc.toValid.normalised_iff.1 hc
  rw [heq] at hlimit
  revert hlimit
  decide

end Timespec
end Qine
