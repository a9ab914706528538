import Qine.Lib.Endian

/-!
# Shared vocabulary

The small types of `types.h` and `qnx/types.h` that every part of the emulator speaks: far
pointers, slices, the access and bitness enumerations, and the ways a host routine can fail.

Registers and fields of fixed-width messages are `BitVec`s of the width the headers give them.
Byte counts of type `size_t` are natural numbers.
-/

namespace Qine

/-- `Access` of a segment, in the QNX executable format's numbering. -/
inductive Access where
  | readWrite
  | readOnly
  | execRead
  | execOnly
  | invalid
  deriving DecidableEq, Repr

/-- `Bitness` of a process or a code segment. -/
inductive Bitness where
  | b32
  | b16
  deriving DecidableEq, Repr

/-- `FarPointer`. The `segment` is a selector, not a segment id. -/
structure FarPointer where
  segment : BitVec 16
  offset : BitVec 32
  deriving DecidableEq, Repr

/-- `FarPointer::null()`. -/
def FarPointer.null : FarPointer := ⟨0, 0⟩

/-- `FarSlice`: a far pointer with a 32-bit size. -/
structure FarSlice where
  ptr : FarPointer
  size : BitVec 32
  deriving DecidableEq, Repr

/-- `FarSlice::is_empty`. -/
def FarSlice.isEmpty (s : FarSlice) : Bool := s.size == 0

/-- How a host routine can leave its normal path: one of the C++ exceptions, a failed `assert`,
or an access the language gives no meaning to. -/
inductive Fault where
  | segmentationFault (what : String)
  | guestState (what : String)
  | assertion (what : String)
  | outOfBounds
  | nullPointer
  deriving DecidableEq, Repr

/-! ## Error numbers -/

/-- `Qnx::QEOK`. -/
def qeok : Int := 0

/-- `Qnx::QESRCH`. -/
def qesrch : Int := 3

/-- `Qnx::QEINTR`. -/
def qeintr : Int := 4

/-- `Qnx::QEIO`. -/
def qeio : Int := 5

/-- `Qnx::QECHILD`. -/
def qechild : Int := 10

/-- `Qnx::QEAGAIN`. -/
def qeagain : Int := 11

/-- `Qnx::QEFAULT`. -/
def qefault : Int := 14

/-- `Qnx::QEINVAL`. -/
def qeinval : Int := 22

/-- `Qnx::QEDEADLK`. -/
def qedeadlk : Int := 45

/-- `Qnx::QENOSYS`. -/
def qenosys : Int := 89

/-- `ERRNO_MAP`: pairs of a host and a QNX error number. -/
def errnoMap : List (Int × Int) :=
  [(0, 0), (1, 1), (2, 2), (3, 3), (4, 4), (5, 5), (6, 6), (8, 8), (9, 9), (10, 10), (11, 11),
   (12, 12), (13, 13), (14, 14), (15, 15), (16, 16), (17, 17), (18, 18), (19, 19), (20, 20),
   (21, 21), (22, 22), (23, 23), (24, 24), (25, 25), (26, 26), (27, 27), (28, 28), (29, 29),
   (30, 30), (31, 31), (32, 32), (33, 33), (34, 34), (42, 35), (43, 36), (44, 37), (45, 38),
   (46, 39), (47, 40), (48, 41), (49, 42), (50, 43), (51, 44), (35, 45), (37, 46), (95, 77),
   (36, 78), (79, 83), (80, 84), (81, 85), (82, 86), (83, 87), (38, 89), (40, 90), (39, 93),
   (116, 122), (115, 236), (114, 16), (88, 238), (89, 239), (90, 240), (91, 241), (92, 242),
   (93, 243), (94, 244), (96, 246), (97, 247), (98, 248), (99, 249), (100, 250), (101, 251),
   (102, 252), (103, 253), (104, 254), (105, 255), (106, 256), (107, 257), (108, 258),
   (109, 259), (110, 260), (111, 261), (112, 264), (113, 265), (66, 271)]

/-- `Emu::map_errno`. -/
def mapErrno (v : Int) : Int := ((errnoMap.find? (·.1 == v)).map (·.2)).getD qeio

/-- An error has the number of the table, or else it is `QEIO`. -/
theorem mapErrno_cases (v : Int) : mapErrno v = qeio ∨ (v, mapErrno v) ∈ errnoMap := by
  unfold mapErrno
  cases hfind : errnoMap.find? (·.1 == v) with
  | none => exact .inl rfl
  | some x =>
      have hx : x.1 = v := by simpa using List.find?_some hfind
      subst hx
      exact .inr (List.mem_of_find?_eq_some hfind)

/-- The guest's numbers fit into a word. -/
theorem mapErrno_bounds (v : Int) : 0 ≤ mapErrno v ∧ mapErrno v < 2 ^ 16 := by
  have htable : ∀ x ∈ errnoMap, 0 ≤ x.2 ∧ x.2 < 2 ^ 16 := by decide
  rcases mapErrno_cases v with h | h
  · rw [h]
    decide
  · exact htable _ h

/-- No error is taken for success. -/
theorem mapErrno_ne_zero {v : Int} (hv : v ≠ 0) : mapErrno v ≠ 0 := by
  have htable : ∀ x ∈ errnoMap, x.1 ≠ 0 → x.2 ≠ 0 := by decide
  rcases mapErrno_cases v with h | h
  · rw [h]
    decide
  · exact htable _ h hv

/-! ## Host routines -/

/-- A sequence of steps succeeds when each of them does. -/
theorem bind_eq_ok {ε α β : Type} {x : Except ε α} {f : α → Except ε β} {b : β} :
    (x >>= f) = .ok b ↔ ∃ a, x = .ok a ∧ f a = .ok b := by
  cases x with
  | error e => simp [bind, Except.bind]
  | ok a => simp [bind, Except.bind]

/-- A step that cannot fail adds no error of its own. -/
theorem bind_pure_eq_error {ε α β : Type} {x : Except ε α} {f : α → β} {e : ε} :
    (x >>= fun a => pure (f a)) = .error e ↔ x = .error e := by
  cases x with
  | error e' => simp [bind, Except.bind]
  | ok a => simp [bind, Except.bind, pure, Except.pure]

/-- Guest memory, by host address. -/
abbrev Mem := Memory Byte

end Qine
