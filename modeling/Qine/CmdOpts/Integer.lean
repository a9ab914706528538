import Qine.CmdOpts
import Qine.Lib.Strtol

/-!
# Integer arguments

`CommandOptions::Integer<T>` (`cmd_opts.cpp`) converts its argument at 64 bits, narrows the result to `T`,
and only then compares it with the bounds. A number outside the bounds that the narrowing brings inside
them is therefore taken; and so is an empty argument, which the conversion reads as zero.
`integer_handle_iff` says for which arguments the handler takes the numbers between its bounds and nothing
else.
-/

namespace Qine.CommandOptions

open Strtol

/-- The types `Integer` is instantiated with. -/
inductive IntType where
  | uint8
  | uint16
  | uint32
  | uint64
  | int8
  | int16
  | int32
  | int64
  deriving DecidableEq, Repr

namespace IntType

/-- `std::is_signed<T>::value`. -/
def isSigned : IntType → Bool
  | uint8 | uint16 | uint32 | uint64 => false
  | int8 | int16 | int32 | int64 => true

/-- The width of the type. -/
def bits : IntType → Nat
  | uint8 | int8 => 8
  | uint16 | int16 => 16
  | uint32 | int32 => 32
  | uint64 | int64 => 64

/-- The number of values of the type. -/
def modulus (T : IntType) : Int := 2 ^ T.bits

/-- The smallest value of the type. -/
def lowest (T : IntType) : Int := if T.isSigned then -2 ^ (T.bits - 1) else 0

/-- `std::numeric_limits<T>::max`. -/
def max (T : IntType) : Int := T.lowest + T.modulus - 1

/-- The values of the type. -/
abbrev Val (T : IntType) := { v : Int // T.lowest ≤ v ∧ v ≤ T.max }

/-- The value of the type that a number is narrowed to. -/
def narrow (T : IntType) (m : Int) : Int := (m - T.lowest) % T.modulus + T.lowest

theorem modulus_pos (T : IntType) : 0 < T.modulus := by
  unfold modulus
  exact Int.pow_pos (by decide)

theorem narrow_mem (T : IntType) (m : Int) : T.lowest ≤ T.narrow m ∧ T.narrow m ≤ T.max := by
  have hnonneg := Int.emod_nonneg (m - T.lowest) T.modulus_pos.ne'
  have hlt := Int.emod_lt_of_pos (m - T.lowest) T.modulus_pos
  unfold narrow max
  omega

/-- The conversion of a number to the type. -/
def cast (T : IntType) (m : Int) : T.Val := ⟨T.narrow m, T.narrow_mem m⟩

/-- The conversion that `Integer<T>::handle` uses. -/
def convert (T : IntType) (s : List Char) : Result := if T.isSigned then strtoll s else strtoull s

/-- The 64-bit conversion reads the number without an error. -/
def Convertible (T : IntType) (m : Int) : Prop :=
  if T.isSigned then -2 ^ 63 ≤ m ∧ m < 2 ^ 63 else m.natAbs < 2 ^ 64

end IntType

/-- `Integer<T>`, storing through `set`. -/
structure Integer (T : IntType) (σ : Type) where
  set : T.Val → σ → σ
  min : T.Val
  max : T.Val

namespace Integer

variable {T : IntType} {σ : Type}

/-- `Integer<T>::handle`. -/
def handle (i : Integer T σ) : Value σ := fun part s =>
  let cstr := part.takeWhile (· ≠ '\x00')
  let r := T.convert cstr
  let v := T.cast r.value
  if r.erange then .error ⟨"Argument is out of range"⟩
  else if r.stop ≠ [] then .error ⟨"Argument is not an integer"⟩
  else if v.val < i.min.val then .error ⟨"Argument is smaller than " ++ toString i.min.val⟩
  else if v.val > i.max.val then .error ⟨"Argument is bigger than " ++ toString i.max.val⟩
  else .ok (i.set v s)

/-- The value is between the bounds. -/
def InBounds (i : Integer T σ) (m : Int) : Prop := i.min.val ≤ m ∧ m ≤ i.max.val

/-- The handler does the right thing with an argument: it stores a literal between the bounds, and throws at
everything else. -/
def Meets (i : Integer T σ) (part : List Char) (s : σ) : Prop :=
  (∀ v : T.Val, Literal part v → i.InBounds v → i.handle part s = .ok (i.set v s)) ∧
    ((¬ ∃ m, Literal part m ∧ i.InBounds m) → ∃ e, i.handle part s = .error e)

/-- The part of an argument before a terminator is not taken for zero, and it is not a literal that stands for
a number between the bounds without being one. -/
def Exact (i : Integer T σ) (part : List Char) : Prop :=
  (part.takeWhile (· ≠ '\x00') = [] → ¬ i.InBounds 0) ∧
    ∀ m, Literal (part.takeWhile (· ≠ '\x00')) m → T.Convertible m →
      (∃ v, i.InBounds v ∧ v ≡ m [ZMOD T.modulus]) → '\x00' ∉ part ∧ i.InBounds m

/-! ## Narrowing -/

end Integer

namespace IntType

variable {T : IntType}

theorem narrow_modEq (T : IntType) (m : Int) : T.narrow m ≡ m [ZMOD T.modulus] := by
  have h := (Int.mod_modEq (m - T.lowest) T.modulus).add_right T.lowest
  rwa [sub_add_cancel] at h

/-- Numbers of the type that are congruent are the same. -/
theorem eq_of_modEq {v w : Int} (hv : T.lowest ≤ v ∧ v ≤ T.max) (hw : T.lowest ≤ w ∧ w ≤ T.max)
    (h : v ≡ w [ZMOD T.modulus]) : v = w := by
  have hdvd := h.dvd
  have hmax : T.max = T.lowest + T.modulus - 1 := rfl
  have habs : |w - v| < T.modulus := by
    rw [abs_lt]
    omega
  have hzero := Int.eq_zero_of_abs_lt_dvd hdvd habs
  omega

theorem narrow_eq_iff {v m : Int} (hv : T.lowest ≤ v ∧ v ≤ T.max) :
    T.narrow m = v ↔ v ≡ m [ZMOD T.modulus] := by
  constructor
  · rintro rfl
    exact T.narrow_modEq m
  · intro h
    exact eq_of_modEq (T.narrow_mem m) hv ((T.narrow_modEq m).trans h.symm)

/-- The conversion of an unsigned type goes through 64 bits. -/
theorem narrow_emod (T : IntType) (m : Int) : T.narrow (m % 2 ^ 64) = T.narrow m := by
  have hdvd : T.modulus ∣ 2 ^ 64 := by
    cases T <;> decide
  rw [narrow_eq_iff (T.narrow_mem m)]
  exact (T.narrow_modEq m).trans ((Int.mod_modEq m (2 ^ 64)).of_dvd hdvd).symm

/-- A value of the type is within reach of the conversion. -/
theorem convertible_val (v : T.Val) : T.Convertible v.val := by
  obtain ⟨v, hlow, hhigh⟩ := v
  unfold Convertible
  split
  · next hsigned =>
      have hrange : -2 ^ 63 ≤ T.lowest ∧ T.max < 2 ^ 63 := by
        cases T <;> first | exact absurd hsigned (by decide) | decide
      exact ⟨hrange.1.trans hlow, hhigh.trans_lt hrange.2⟩
  · next hunsigned =>
      have hrange : 0 ≤ T.lowest ∧ T.max < 2 ^ 64 := by
        cases T <;> first | exact absurd rfl hunsigned | decide
      show v.natAbs < 2 ^ 64
      omega

/-- The values that the conversion of a string can end in: zero for an empty one, and else the number
narrowed to the type. -/
theorem exists_whole_iff {s : List Char} {v : T.Val} :
    (∃ w, (T.convert s).Whole w ∧ T.cast w = v) ↔
      s = [] ∧ v.val = 0 ∨ ∃ m, Literal s m ∧ T.Convertible m ∧ v.val ≡ m [ZMOD T.modulus] := by
  have hzero : T.cast 0 = v ↔ v.val = 0 := by
    have hmem : T.lowest ≤ 0 ∧ 0 ≤ T.max := by
      cases T <;> decide
    rw [Subtype.ext_iff, show (T.cast 0).val = 0 from (narrow_eq_iff hmem).2 rfl, eq_comm]
  unfold convert Convertible
  split
  · simp only [strtoll_whole]
    constructor
    · rintro ⟨w, ⟨hs, rfl⟩ | ⟨hw, hrange⟩, hcast⟩
      · exact .inl ⟨hs, hzero.1 hcast⟩
      · exact .inr ⟨w, hw, hrange, (narrow_eq_iff v.2).1 (congrArg Subtype.val hcast)⟩
    · rintro (⟨hs, hv⟩ | ⟨m, hm, hrange, hmod⟩)
      · exact ⟨0, .inl ⟨hs, rfl⟩, hzero.2 hv⟩
      · exact ⟨m, .inr ⟨hm, hrange⟩, Subtype.ext ((narrow_eq_iff v.2).2 hmod)⟩
  · simp only [strtoull_whole]
    constructor
    · rintro ⟨w, ⟨hs, rfl⟩ | ⟨m, hm, hrange, rfl⟩, hcast⟩
      · exact .inl ⟨hs, hzero.1 hcast⟩
      · refine .inr ⟨m, hm, hrange, (narrow_eq_iff v.2).1 ?_⟩
        rw [← narrow_emod]
        exact congrArg Subtype.val hcast
    · rintro (⟨hs, hv⟩ | ⟨m, hm, hrange, hmod⟩)
      · exact ⟨0, .inl ⟨hs, rfl⟩, hzero.2 hv⟩
      · refine ⟨m % 2 ^ 64, .inr ⟨m, hm, hrange, rfl⟩, Subtype.ext ?_⟩
        exact (T.narrow_emod m).trans ((narrow_eq_iff v.2).2 hmod)

end IntType

/-! ## The handler -/

namespace Integer

variable {T : IntType} {σ : Type} {i : Integer T σ} {part : List Char} {s : σ}

/-- A value between the bounds that the conversion of the whole string ends in is stored. -/
theorem handle_ok {w : Int} (hw : (T.convert (part.takeWhile (· ≠ '\x00'))).Whole w)
    (hbounds : i.InBounds (T.cast w).val) : i.handle part s = .ok (i.set (T.cast w) s) := by
  obtain ⟨herange, hstop, rfl⟩ := hw
  unfold handle
  simp only [herange, hstop]
  rw [if_neg (by simp), if_neg (by simp), if_neg (not_lt.2 hbounds.1), if_neg (not_lt.2 hbounds.2)]

/-- Where there is no such value, the handler throws. -/
theorem handle_error (h : ∀ w, (T.convert (part.takeWhile (· ≠ '\x00'))).Whole w →
    ¬ i.InBounds (T.cast w).val) : ∃ e, i.handle part s = .error e := by
  unfold handle
  dsimp only
  split_ifs with herange hstop hmin hmax
  · exact ⟨_, rfl⟩
  · exact ⟨_, rfl⟩
  · exact ⟨_, rfl⟩
  · exact ⟨_, rfl⟩
  · refine absurd ⟨not_lt.1 hmin, not_lt.1 hmax⟩ (h _ ⟨?_, ?_, rfl⟩)
    · simpa using herange
    · simpa using hstop

/-- A string without a terminator is read to its end. -/
theorem takeWhile_of_notMem (h : '\x00' ∉ part) : part.takeWhile (· ≠ '\x00') = part := by
  rw [List.takeWhile_eq_self_iff]
  intro c hc
  have hne : c ≠ '\x00' := fun heq => h (heq ▸ hc)
  simpa using hne

/-- The handler takes the literals of numbers between its bounds and nothing else exactly for the arguments
that are not taken for one of these numbers otherwise. -/
theorem integer_handle_iff (i : Integer T σ) (part : List Char) (s : σ) :
    i.Meets part s ↔ i.Exact part := by
  constructor
  · rintro ⟨-, hothers⟩
    -- whatever is stored must be a literal between the bounds
    have htaken : ∀ v : T.Val, (∃ w, (T.convert (part.takeWhile (· ≠ '\x00'))).Whole w ∧ T.cast w = v) →
        i.InBounds v → ∃ m, Literal part m ∧ i.InBounds m := by
      rintro v ⟨w, hw, rfl⟩ hbounds
      by_contra hnone
      obtain ⟨e, he⟩ := hothers hnone
      cases he.symm.trans (handle_ok hw hbounds)
    constructor
    · intro hempty hzero
      have hmem : T.lowest ≤ 0 ∧ 0 ≤ T.max := ⟨i.min.2.1.trans hzero.1, hzero.2.trans i.max.2.2⟩
      obtain ⟨m, hm, -⟩ := htaken ⟨0, hmem⟩ (IntType.exists_whole_iff.2 (.inl ⟨hempty, rfl⟩)) hzero
      rw [takeWhile_of_notMem hm.nul_notMem] at hempty
      exact not_literal_nil (hempty ▸ hm)
    · rintro m hm hrange ⟨v, hv, hmod⟩
      have hmem : T.lowest ≤ v ∧ v ≤ T.max := ⟨i.min.2.1.trans hv.1, hv.2.trans i.max.2.2⟩
      obtain ⟨m', hm', hbounds⟩ :=
        htaken ⟨v, hmem⟩ (IntType.exists_whole_iff.2 (.inr ⟨m, hm, hrange, hmod⟩)) hv
      rw [takeWhile_of_notMem hm'.nul_notMem] at hm
      exact ⟨hm'.nul_notMem, hm.unique hm' ▸ hbounds⟩
  · rintro ⟨hempty, hliteral⟩
    constructor
    · intro v hv hbounds
      obtain ⟨w, hw, rfl⟩ := IntType.exists_whole_iff.2 (.inr ⟨v.val, (takeWhile_of_notMem hv.nul_notMem).symm ▸ hv,
        IntType.convertible_val v, Int.ModEq.refl _⟩)
      exact handle_ok hw hbounds
    · intro hnone
      refine handle_error ?_
      intro w hw hbounds
      rcases IntType.exists_whole_iff.1 ⟨w, hw, rfl⟩ with ⟨hnil, hzero⟩ | ⟨m, hm, hrange, hmod⟩
      · exact hempty hnil (hzero ▸ hbounds)
      · obtain ⟨hnul, hm'⟩ := hliteral m hm hrange ⟨_, hbounds, hmod⟩
        exact hnone ⟨m, takeWhile_of_notMem hnul ▸ hm, hm'⟩

/-- The `entry` of `load_library`, with the default bounds. -/
def entry : Integer .uint32 Int := ⟨fun v _ => v.val, ⟨0, by decide⟩, ⟨2 ^ 32 - 1, by decide⟩⟩

/-- A number of 33 bits is taken for zero. -/
theorem entry_wraps : ¬ entry.Meets "4294967296".toList 7 := by
  rintro ⟨-, hothers⟩
  have hscan : scan "4294967296".toList = some (4294967296, []) := by decide
  have hstored : entry.handle "4294967296".toList 7 = .ok 0 := by decide
  have hnone : ¬ ∃ m, Literal "4294967296".toList m ∧ entry.InBounds m := by
    rintro ⟨m, hm, -, hmax⟩
    rw [← scan_iff, hscan] at hm
    cases hm
    exact absurd hmax (by decide)
  obtain ⟨e, he⟩ := hothers hnone
  cases he.symm.trans hstored

end Integer
end Qine.CommandOptions
