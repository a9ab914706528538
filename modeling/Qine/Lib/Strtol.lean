import Mathlib.Data.List.TakeWhile
import Mathlib.Data.Int.ModEq

/-!
# Reading integers

`strtoll` and `strtoull` of the C library with base 0, on the characters up to the terminator: white space,
a sign, and the digits of a decimal, octal or hexadecimal numeral, as many as there are. `scan_iff` says that
the scan reaches the end of a string exactly if the string is a literal, and which number it finds then.
-/

namespace Strtol

/-- `isspace` of the C locale. -/
def isSpace (c : Char) : Bool := c = ' ' || (9 ≤ c.toNat && c.toNat ≤ 13)

/-- The value of a digit or letter. -/
def digit (c : Char) : Option Nat :=
  if '0' ≤ c ∧ c ≤ '9' then some (c.toNat - '0'.toNat)
  else if 'a' ≤ c ∧ c ≤ 'z' then some (c.toNat - 'a'.toNat + 10)
  else if 'A' ≤ c ∧ c ≤ 'Z' then some (c.toNat - 'A'.toNat + 10)
  else none

/-- A digit of a base. -/
def isDigit (base : Nat) (c : Char) : Bool := (digit c).any (· < base)

/-- The number written by some digits. -/
def number (base : Nat) (ds : List Char) : Nat := ds.foldl (fun n c => base * n + (digit c).getD 0) 0

/-- The string begins with the prefix of a hexadecimal numeral, and a digit follows. -/
def isHex : List Char → Bool
  | '0' :: x :: d :: _ => (x = 'x' || x = 'X') && isDigit 16 d
  | _ => false

/-- The base of the numeral at the front of the string, and where its digits begin. -/
def radix (s : List Char) : Nat × List Char :=
  if isHex s then (16, s.drop 2) else if s.head? = some '0' then (8, s) else (10, s)

/-- The number at the front of the string and what follows it, if there is one. -/
def scanNumeral (s : List Char) : Option (Nat × List Char) :=
  let (base, t) := radix s
  let ds := t.takeWhile (isDigit base)
  if ds.isEmpty then none else some (number base ds, t.dropWhile (isDigit base))

/-- The number and what follows it, behind white space and a sign. -/
def scan (s : List Char) : Option (Int × List Char) :=
  match s.dropWhile isSpace with
  | '-' :: t => (scanNumeral t).map fun r => (-(r.1 : Int), r.2)
  | '+' :: t => (scanNumeral t).map fun r => ((r.1 : Int), r.2)
  | t => (scanNumeral t).map fun r => ((r.1 : Int), r.2)

/-- What a conversion returns, with what stands at `*end`; `errno` is `ERANGE` or as before. -/
structure Result where
  value : Int
  stop : List Char
  erange : Bool
  deriving DecidableEq, Repr

/-- `strtoll(s, &end, 0)`. -/
def strtoll (s : List Char) : Result :=
  match scan s with
  | none => ⟨0, s, false⟩
  | some (m, rest) =>
    if m < -2 ^ 63 then ⟨-2 ^ 63, rest, true⟩
    else if 2 ^ 63 ≤ m then ⟨2 ^ 63 - 1, rest, true⟩
    else ⟨m, rest, false⟩

/-- `strtoull(s, &end, 0)`. A negative number is converted to the unsigned type. -/
def strtoull (s : List Char) : Result :=
  match scan s with
  | none => ⟨0, s, false⟩
  | some (m, rest) =>
    if 2 ^ 64 ≤ m.natAbs then ⟨2 ^ 64 - 1, rest, true⟩ else ⟨m % 2 ^ 64, rest, false⟩

/-! ## Literals -/

/-- The numerals of C. -/
inductive Numeral : List Char → Nat → Prop
  | dec {d : Char} {ds : List Char} (hzero : d ≠ '0') (h : ∀ c ∈ d :: ds, isDigit 10 c = true) :
      Numeral (d :: ds) (number 10 (d :: ds))
  | oct {ds : List Char} (h : ∀ c ∈ ds, isDigit 8 c = true) : Numeral ('0' :: ds) (number 8 ds)
  | hex {x d : Char} {ds : List Char} (hx : x = 'x' ∨ x = 'X') (h : ∀ c ∈ d :: ds, isDigit 16 c = true) :
      Numeral ('0' :: x :: d :: ds) (number 16 (d :: ds))

/-- White space, an optional sign, and a numeral. -/
inductive Literal : List Char → Int → Prop
  | unsigned {ws ds : List Char} {n : Nat} (hws : ∀ c ∈ ws, isSpace c = true) (h : Numeral ds n) :
      Literal (ws ++ ds) n
  | plus {ws ds : List Char} {n : Nat} (hws : ∀ c ∈ ws, isSpace c = true) (h : Numeral ds n) :
      Literal (ws ++ '+' :: ds) n
  | minus {ws ds : List Char} {n : Nat} (hws : ∀ c ∈ ws, isSpace c = true) (h : Numeral ds n) :
      Literal (ws ++ '-' :: ds) (-n)

theorem number_zero (base : Nat) (ds : List Char) : number base ('0' :: ds) = number base ds := by
  simp [number, digit]

theorem scanNumeral_of_all {s ds : List Char} {base : Nat} (hradix : radix s = (base, ds)) (hne : ds ≠ [])
    (h : ∀ c ∈ ds, isDigit base c = true) : scanNumeral s = some (number base ds, []) := by
  unfold scanNumeral
  rw [hradix]
  simp only [List.takeWhile_eq_self_iff.2 h, List.dropWhile_eq_nil_iff.2 h]
  simpa using hne

/-- The scan of a numeral reaches the end of the string exactly if there is nothing else in it. -/
theorem scanNumeral_iff {s : List Char} {n : Nat} : scanNumeral s = some (n, []) ↔ Numeral s n := by
  constructor
  · intro h
    obtain ⟨base, ds, hradix⟩ : ∃ base ds, radix s = (base, ds) := ⟨_, _, rfl⟩
    have hall : ∀ c ∈ ds, isDigit base c = true := by
      unfold scanNumeral at h
      simp only [hradix] at h
      split at h
      · cases h
      · exact List.dropWhile_eq_nil_iff.1 (Prod.mk.inj (Option.some.inj h)).2
    have hne : ds ≠ [] := by
      rintro rfl
      simp [scanNumeral, hradix] at h
    rw [scanNumeral_of_all hradix hne hall, Option.some.injEq, Prod.mk.injEq] at h
    obtain ⟨rfl, -⟩ := h
    unfold radix at hradix
    split at hradix
    · next hhex =>
        cases hradix
        unfold isHex at hhex
        split at hhex
        · next x d rest =>
            rw [Bool.and_eq_true, Bool.or_eq_true, decide_eq_true_eq, decide_eq_true_eq] at hhex
            exact .hex hhex.1 hall
        · cases hhex
    · split at hradix
      · next hzero =>
          cases hradix
          obtain ⟨t, rfl⟩ := List.head?_eq_some_iff.1 hzero
          rw [number_zero]
          exact .oct fun c hc => hall c (List.mem_cons_of_mem _ hc)
      · next hzero =>
          cases hradix
          obtain ⟨d, t, rfl⟩ := List.exists_cons_of_ne_nil hne
          exact .dec (fun hd => hzero (hd ▸ rfl)) hall
  · intro h
    cases h with
    | @dec d ds hzero h =>
        refine scanNumeral_of_all ?_ (List.cons_ne_nil d ds) h
        have hhex : isHex (d :: ds) = false := by
          unfold isHex
          split
          · next heq => exact absurd (List.cons.inj heq).1 hzero
          · rfl
        simp [radix, hhex, hzero]
    | @oct ds h =>
        have hhex : isHex ('0' :: ds) = false := by
          unfold isHex
          split
          · next x d rest heq =>
              have hx := h x (by simp [(List.cons.inj heq).2])
              by_contra hne
              rw [Bool.not_eq_false, Bool.and_eq_true, Bool.or_eq_true, decide_eq_true_eq, decide_eq_true_eq] at hne
              rcases hne.1 with rfl | rfl
              · exact absurd hx (by decide)
              · exact absurd hx (by decide)
          · rfl
        rw [← number_zero]
        refine scanNumeral_of_all (by simp [radix, hhex]) (List.cons_ne_nil '0' ds) ?_
        intro c hc
        rcases List.mem_cons.1 hc with rfl | hc
        · decide
        · exact h c hc
    | @hex x d ds hx h =>
        refine scanNumeral_of_all ?_ (List.cons_ne_nil d ds) h
        have hhex : isHex ('0' :: x :: d :: ds) = true := by
          simp [isHex, hx, h d List.mem_cons_self]
        simp [radix, hhex]

/-- A digit is neither white space nor a sign. -/
theorem ne_of_isDigit {c : Char} (h : isDigit 10 c = true) : isSpace c = false ∧ c ≠ '-' ∧ c ≠ '+' := by
  have hrange : '0' ≤ c ∧ c ≤ '9' := by
    unfold isDigit digit at h
    split at h
    · assumption
    · split at h
      · rw [Option.any_some, decide_eq_true_eq] at h
        omega
      · split at h
        · rw [Option.any_some, decide_eq_true_eq] at h
          omega
        · cases h
  have hlow : 48 ≤ c.toNat := hrange.1
  refine ⟨?_, ?_, ?_⟩
  · have hne : c ≠ ' ' := by
      rintro rfl
      revert hlow
      decide
    simp only [isSpace, decide_eq_false hne, Bool.false_or]
    simp only [Bool.and_eq_false_iff, decide_eq_false_iff_not]
    omega
  · rintro rfl
    revert hlow
    decide
  · rintro rfl
    revert hlow
    decide

theorem Numeral.head {s : List Char} {n : Nat} (h : Numeral s n) :
    ∃ d t, s = d :: t ∧ isSpace d = false ∧ d ≠ '-' ∧ d ≠ '+' := by
  cases h with
  | dec hzero h => exact ⟨_, _, rfl, ne_of_isDigit (h _ List.mem_cons_self)⟩
  | oct h => exact ⟨_, _, rfl, by decide⟩
  | hex hx h => exact ⟨_, _, rfl, by decide⟩

theorem dropWhile_isSpace {ws t : List Char} {c : Char} (hws : ∀ c ∈ ws, isSpace c = true)
    (hc : isSpace c = false) : (ws ++ c :: t).dropWhile isSpace = c :: t := by
  rw [List.dropWhile_append_of_pos hws, List.dropWhile_cons_of_neg (by simp [hc])]

/-- The scan reaches the end of the string exactly if the string is a literal. -/
theorem scan_iff {s : List Char} {m : Int} : scan s = some (m, []) ↔ Literal s m := by
  constructor
  · intro h
    have hws : ∀ c ∈ s.takeWhile isSpace, isSpace c = true := fun c hc => List.mem_takeWhile_imp hc
    have hs := List.takeWhile_append_dropWhile (p := isSpace) (l := s)
    unfold scan at h
    split at h
    · next t ht =>
        obtain ⟨⟨n, rest⟩, hn, heq⟩ := Option.map_eq_some_iff.1 h
        cases heq
        rw [← hs, ht]
        exact .minus hws (scanNumeral_iff.1 hn)
    · next t ht =>
        obtain ⟨⟨n, rest⟩, hn, heq⟩ := Option.map_eq_some_iff.1 h
        cases heq
        rw [← hs, ht]
        exact .plus hws (scanNumeral_iff.1 hn)
    · obtain ⟨⟨n, rest⟩, hn, heq⟩ := Option.map_eq_some_iff.1 h
      cases heq
      rw [← hs]
      exact .unsigned hws (scanNumeral_iff.1 hn)
  · intro h
    cases h with
    | unsigned hws h =>
        obtain ⟨d, t, rfl, hspace, hminus, hplus⟩ := h.head
        unfold scan
        rw [dropWhile_isSpace hws hspace]
        split
        · next heq => exact absurd (List.cons.inj heq).1 hminus
        · next heq => exact absurd (List.cons.inj heq).1 hplus
        · rw [scanNumeral_iff.2 h]
          rfl
    | plus hws h =>
        unfold scan
        rw [dropWhile_isSpace hws (by decide)]
        show (scanNumeral _).map _ = _
        rw [scanNumeral_iff.2 h]
        rfl
    | minus hws h =>
        unfold scan
        rw [dropWhile_isSpace hws (by decide)]
        show (scanNumeral _).map _ = _
        rw [scanNumeral_iff.2 h]
        rfl

theorem Literal.unique {s : List Char} {m m' : Int} (h : Literal s m) (h' : Literal s m') : m = m' := by
  rw [← scan_iff] at h h'
  exact congrArg Prod.fst (Option.some.inj (h.symm.trans h'))

theorem isDigit_nul (base : Nat) : isDigit base '\x00' = false := rfl

theorem Numeral.nul_notMem {s : List Char} {n : Nat} (h : Numeral s n) : '\x00' ∉ s := by
  have hdigits : ∀ {base : Nat} {ds : List Char}, (∀ c ∈ ds, isDigit base c = true) → '\x00' ∉ ds := by
    intro base ds hds hmem
    have hnul := hds _ hmem
    rw [isDigit_nul] at hnul
    cases hnul
  cases h with
  | dec hzero h => exact hdigits h
  | oct h => simpa using hdigits h
  | hex hx h =>
      rcases hx with rfl | rfl
      · simpa using hdigits h
      · simpa using hdigits h

/-- There is no terminator in a literal. -/
theorem Literal.nul_notMem {s : List Char} {m : Int} (h : Literal s m) : '\x00' ∉ s := by
  have hspaces : ∀ {ws : List Char}, (∀ c ∈ ws, isSpace c = true) → '\x00' ∉ ws := by
    intro ws hws hmem
    exact absurd (hws _ hmem) (by decide)
  cases h with
  | unsigned hws h => simpa using ⟨hspaces hws, h.nul_notMem⟩
  | plus hws h => simpa using ⟨hspaces hws, h.nul_notMem⟩
  | minus hws h => simpa using ⟨hspaces hws, h.nul_notMem⟩

theorem not_literal_nil {m : Int} : ¬ Literal [] m := by
  rw [← scan_iff]
  have hnil : scan [] = none := by decide
  simp [hnil]

/-! ## Conversions that read the whole string -/

/-- The conversion reads the whole string without an error, and returns this value. -/
def Result.Whole (r : Result) (v : Int) : Prop := r.erange = false ∧ r.stop = [] ∧ r.value = v

theorem scan_nil : scan [] = none := by decide

theorem ne_nil_of_scan {s : List Char} {r : Int × List Char} (h : scan s = some r) : s ≠ [] := by
  rintro rfl
  rw [scan_nil] at h
  cases h

/-- An empty string is converted to zero. -/
theorem strtoll_whole {s : List Char} {v : Int} :
    (strtoll s).Whole v ↔ s = [] ∧ v = 0 ∨ Literal s v ∧ -2 ^ 63 ≤ v ∧ v < 2 ^ 63 := by
  unfold Result.Whole strtoll
  rw [← scan_iff]
  cases hscan : scan s with
  | none => simp [eq_comm]
  | some r =>
      obtain ⟨m, rest⟩ := r
      have hs := ne_nil_of_scan hscan
      simp only [hs, false_and, false_or, Option.some.injEq, Prod.mk.injEq]
      split_ifs with hlow hhigh
      · simp
        omega
      · simp
        omega
      · constructor
        · rintro ⟨-, hrest, hv⟩
          obtain rfl : m = v := hv
          exact ⟨⟨rfl, hrest⟩, Int.not_lt.1 hlow, Int.not_le.1 hhigh⟩
        · rintro ⟨⟨rfl, hrest⟩, -, -⟩
          exact ⟨rfl, hrest, rfl⟩

theorem strtoull_whole {s : List Char} {v : Int} :
    (strtoull s).Whole v ↔ s = [] ∧ v = 0 ∨ ∃ m, Literal s m ∧ m.natAbs < 2 ^ 64 ∧ v = m % 2 ^ 64 := by
  unfold Result.Whole strtoull
  simp only [← scan_iff]
  cases hscan : scan s with
  | none => simp [eq_comm]
  | some r =>
      obtain ⟨m, rest⟩ := r
      have hs := ne_nil_of_scan hscan
      simp only [hs, false_and, false_or, Option.some.injEq, Prod.mk.injEq]
      split_ifs with hhigh
      · constructor
        · rintro ⟨h, -⟩
          cases h
        · rintro ⟨m', ⟨rfl, -⟩, hlow, -⟩
          exact absurd hlow (Nat.not_lt.2 hhigh)
      · constructor
        · rintro ⟨-, hrest, rfl⟩
          exact ⟨m, ⟨rfl, hrest⟩, Nat.lt_of_not_le hhigh, rfl⟩
        · rintro ⟨m', ⟨rfl, hrest⟩, -, rfl⟩
          exact ⟨rfl, hrest, rfl⟩

end Strtol
