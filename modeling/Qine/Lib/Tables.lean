import Mathlib.Logic.Function.Basic
import Mathlib.Data.List.Nodup

/-!
# Copying along a table

Two records of the same thing keep its fields in different places. A table pairs the places, and a loop over
the rows copies the fields. `Cells.copy` copies cells of arrays. `Flags.copy` copies flags of words: the mask
of a row is cleared, and set if the source has a bit of the other mask. What a loop that only collects ends
with is said by `Rows.foldl_collects`.

What was copied from a word can be copied back with the table the other way round (`Holds.copy_swap`) if the
masks in the word were single flags; a field of several bits comes back with all of its bits, or none.
-/

universe u v w x

/-! ## Loops over rows -/

namespace Rows

variable {σ : Type u} {ι : Type v} {f : σ → ι → σ} {P : σ → Prop} {Q : ι → Prop} {l : List ι}

/-- A loop collects what its rounds contribute. -/
theorem foldl_collects (h : ∀ acc, ∀ r ∈ l, P (f acc r) ↔ P acc ∨ Q r) (acc : σ) :
    P (l.foldl f acc) ↔ P acc ∨ ∃ r ∈ l, Q r := by
  induction l generalizing acc with
  | nil => simp
  | cons r l ih =>
      have hrest : ∀ acc, ∀ r' ∈ l, P (f acc r') ↔ P acc ∨ Q r' :=
        fun acc r' hr' => h acc r' (List.mem_cons_of_mem _ hr')
      rw [List.foldl_cons, ih hrest, h acc r List.mem_cons_self, or_assoc, List.exists_mem_cons_iff]

end Rows

/-! ## Cells -/

namespace Cells

variable {ι : Type u} {κ : Type v} {α : Type w} {β : Type x} [DecidableEq ι]
variable {rows : List (ι × κ)} {f : β → α} {src : κ → β} {dst : ι → α} {i : ι} {k : κ}

/-- Copy cells along the rows of a table, which name the destination first. -/
def copy (rows : List (ι × κ)) (f : β → α) (src : κ → β) (dst : ι → α) : ι → α :=
  rows.foldl (fun dst r => Function.update dst r.1 (f (src r.2))) dst

theorem copy_of_not_mem (h : i ∉ rows.map Prod.fst) : copy rows f src dst i = dst i := by
  induction rows generalizing dst with
  | nil => rfl
  | cons r rows ih =>
      rw [List.map_cons, List.mem_cons, not_or] at h
      exact (ih h.2).trans (Function.update_of_ne h.1 _ _)

theorem copy_of_mem (hnd : (rows.map Prod.fst).Nodup) (hr : (i, k) ∈ rows) : copy rows f src dst i = f (src k) := by
  induction rows generalizing dst with
  | nil => cases hr
  | cons r rows ih =>
      rw [List.map_cons, List.nodup_cons] at hnd
      rcases List.mem_cons.mp hr with rfl | hr
      · exact (copy_of_not_mem hnd.1).trans (Function.update_self _ _ _)
      · exact ih hnd.2 hr

end Cells

/-! ## Flags -/

namespace Flags

variable {n m : Nat} {d a b : BitVec n} {c c' : Prop} [Decidable c] [Decidable c']

/-- Set the bits of a mask or clear them. -/
def put (d mask : BitVec n) (c : Prop) [Decidable c] : BitVec n :=
  if c then (d &&& ~~~mask) ||| mask else d &&& ~~~mask

theorem eq_zero_iff : d = 0#n ↔ ∀ i < n, d.getLsbD i = false := by
  constructor
  · rintro rfl i -
    exact BitVec.getLsbD_zero
  · intro h
    apply BitVec.eq_of_getLsbD_eq
    intro i hi
    rw [h i hi, BitVec.getLsbD_zero]

theorem getLsbD_put {i : Nat} : (put d a c).getLsbD i = if a.getLsbD i then decide c else d.getLsbD i := by
  unfold put
  by_cases hi : i < n
  · split <;> cases ha : a.getLsbD i <;> simp_all
  · rw [BitVec.getLsbD_of_ge _ _ (Nat.le_of_not_lt hi), BitVec.getLsbD_of_ge _ _ (Nat.le_of_not_lt hi),
      BitVec.getLsbD_of_ge _ _ (Nat.le_of_not_lt hi), if_neg Bool.false_ne_true]

theorem not_both (h : a &&& b = 0) {i : Nat} (ha : a.getLsbD i = true) : b.getLsbD i = false := by
  have hab := congrArg (·.getLsbD i) h
  simpa [ha] using hab

theorem put_and_self : put d a c &&& a = if c then a else 0 := by
  apply BitVec.eq_of_getLsbD_eq
  intro i _
  rw [BitVec.getLsbD_and, getLsbD_put]
  by_cases hc : c <;> cases ha : a.getLsbD i <;> simp [hc, ha]

theorem put_and_of_disjoint (h : a &&& b = 0) : put d a c &&& b = d &&& b := by
  apply BitVec.eq_of_getLsbD_eq
  intro i _
  rw [BitVec.getLsbD_and, BitVec.getLsbD_and, getLsbD_put]
  cases ha : a.getLsbD i with
  | false => rfl
  | true => rw [not_both h ha, Bool.and_false, Bool.and_false]

/-- Putting what is there changes nothing. -/
theorem put_eq_self_iff : put d a c = d ↔ d &&& a = if c then a else 0 := by
  refine ⟨fun h => ?_, fun h => ?_⟩
  · rw [← put_and_self (d := d), h]
  · apply BitVec.eq_of_getLsbD_eq
    intro i _
    have hbit : (d &&& a).getLsbD i = (if c then a else 0).getLsbD i := by rw [h]
    rw [BitVec.getLsbD_and] at hbit
    rw [getLsbD_put]
    cases ha : a.getLsbD i with
    | false => rfl
    | true =>
        rw [ha, Bool.and_true] at hbit
        rw [if_pos rfl, hbit]
        by_cases hc : c <;> simp [hc, ha]

/-- Of two masks that are put one after the other, the first does not count if the second covers it. -/
theorem put_put (h : a &&& ~~~b = 0) : put (put d a c) b c' = put d b c' := by
  apply BitVec.eq_of_getLsbD_eq
  intro i hi
  rw [getLsbD_put, getLsbD_put, getLsbD_put]
  cases hb : b.getLsbD i with
  | true => rfl
  | false =>
      cases ha : a.getLsbD i with
      | false => rfl
      | true =>
          have hnot := not_both h ha
          rw [BitVec.getLsbD_not, hb] at hnot
          simp [hi] at hnot

/-! ### Rows of flags -/

variable {β : Type u} {table table' : List (BitVec n × β)} {p p' : β → Prop} [DecidablePred p] [DecidablePred p']
variable {s : BitVec n × β}

/-- Put the masks of the rows, each if a property holds of what is paired with it. -/
def putAll (table : List (BitVec n × β)) (p : β → Prop) [DecidablePred p] (d : BitVec n) : BitVec n :=
  table.foldl (fun d s => put d s.1 (p s.2)) d

@[simp] theorem putAll_nil : putAll [] p d = d := rfl

@[simp] theorem putAll_cons : putAll (s :: table) p d = putAll table p (put d s.1 (p s.2)) := rfl

theorem putAll_append : putAll (table ++ table') p d = putAll table' p (putAll table p d) := List.foldl_append

theorem putAll_and_of_disjoint (h : ∀ s ∈ table, s.1 &&& a = 0) : putAll table p d &&& a = d &&& a := by
  induction table generalizing d with
  | nil => rfl
  | cons s table ih =>
      rw [putAll_cons, ih fun s' hs' => h s' (List.mem_cons_of_mem _ hs'),
        put_and_of_disjoint (h s List.mem_cons_self)]

theorem putAll_and_of_mem (hdisjoint : table.Pairwise fun s s' => s.1 &&& s'.1 = 0) (hs : s ∈ table) :
    putAll table p d &&& s.1 = if p s.2 then s.1 else 0 := by
  induction table generalizing d with
  | nil => cases hs
  | cons s' table ih =>
      rw [List.pairwise_cons] at hdisjoint
      rcases List.mem_cons.mp hs with rfl | hs
      · rw [putAll_cons, putAll_and_of_disjoint, put_and_self]
        intro s' hs'
        rw [BitVec.and_comm]
        exact hdisjoint.1 s' hs'
      · exact ih hdisjoint.2 hs

/-- Putting what is there changes nothing. -/
theorem putAll_eq_self (h : ∀ s ∈ table, d &&& s.1 = if p s.2 then s.1 else 0) : putAll table p d = d := by
  induction table with
  | nil => rfl
  | cons s table ih =>
      rw [putAll_cons, put_eq_self_iff.mpr (h s List.mem_cons_self)]
      exact ih fun s' hs' => h s' (List.mem_cons_of_mem _ hs')

/-- The masks of the rows that a property holds of, one on top of the other. -/
def collect (table : List (BitVec n × β)) (p : β → Prop) [DecidablePred p] (d : BitVec n) : BitVec n :=
  table.foldl (fun d s => if p s.2 then d ||| s.1 else d) d

theorem put_of_disjoint (h : d &&& a = 0) : put d a c = if c then d ||| a else d := by
  have hclear : d &&& ~~~a = d := by
    apply BitVec.eq_of_getLsbD_eq
    intro i hi
    rw [BitVec.getLsbD_and, BitVec.getLsbD_not, decide_eq_true hi, Bool.true_and]
    cases hd : d.getLsbD i with
    | false => rfl
    | true => rw [not_both h hd, Bool.not_false, Bool.and_self]
  unfold put
  rw [hclear]

/-- Collecting is putting masks that are not there. -/
theorem collect_eq_putAll (hdisjoint : table.Pairwise fun s s' => s.1 &&& s'.1 = 0)
    (hd : ∀ s ∈ table, d &&& s.1 = 0) : collect table p d = putAll table p d := by
  induction table generalizing d with
  | nil => rfl
  | cons s table ih =>
      rw [List.pairwise_cons] at hdisjoint
      rw [putAll_cons, ← ih hdisjoint.2, put_of_disjoint (hd s List.mem_cons_self)]
      · rfl
      · intro s' hs'
        rw [put_and_of_disjoint (hdisjoint.1 s' hs')]
        exact hd s' (List.mem_cons_of_mem _ hs')

/-- Two properties collect the same flags exactly if they hold of the same rows. -/
theorem collect_eq_iff (hdisjoint : table.Pairwise fun s s' => s.1 &&& s'.1 = 0) (hne : ∀ s ∈ table, s.1 ≠ 0) :
    collect table p 0 = collect table p' 0 ↔ ∀ s ∈ table, p s.2 ↔ p' s.2 := by
  have hzero : ∀ s ∈ table, (0 : BitVec n) &&& s.1 = 0 := fun _ _ => BitVec.zero_and
  constructor
  · intro h s hs
    rw [collect_eq_putAll hdisjoint hzero, collect_eq_putAll hdisjoint hzero] at h
    have hand : putAll table p 0 &&& s.1 = putAll table p' 0 &&& s.1 := by rw [h]
    rw [putAll_and_of_mem hdisjoint hs, putAll_and_of_mem hdisjoint hs] at hand
    have hs' := hne s hs
    by_cases h₁ : p s.2 <;> by_cases h₂ : p' s.2 <;> simp_all
  · intro h
    unfold collect
    refine List.foldl_ext _ _ _ fun flags s hs => ?_
    simp only [h s hs]

/-! ### There and back -/

variable {rows rows' : List (BitVec n × BitVec m)} {src : BitVec m} {dst q : BitVec n} {r : BitVec n × BitVec m}

/-- Copy flags along the rows of a table, which name the destination first. -/
def copy (rows : List (BitVec n × BitVec m)) (src : BitVec m) (dst : BitVec n) : BitVec n :=
  putAll rows (src &&& · ≠ 0) dst

theorem copy_append : copy (rows ++ rows') src dst = copy rows' src (copy rows src dst) := putAll_append

theorem copy_and_of_disjoint (h : ∀ r ∈ rows, r.1 &&& a = 0) : copy rows src dst &&& a = dst &&& a :=
  putAll_and_of_disjoint h

/-- Along the rows, `q` has what `src` has. -/
def Holds (rows : List (BitVec n × BitVec m)) (src : BitVec m) (q : BitVec n) : Prop :=
  ∀ r ∈ rows, q &&& r.1 = if src &&& r.2 ≠ 0 then r.1 else 0

theorem holds_copy (hdisjoint : rows.Pairwise fun r r' => r.1 &&& r'.1 = 0) : Holds rows src (copy rows src dst) :=
  fun _ hr => putAll_and_of_mem hdisjoint hr

theorem Holds.put (h : Holds rows src q) (hdisjoint : ∀ r ∈ rows, a &&& r.1 = 0) :
    Holds rows src (Flags.put q a c) := fun r hr => (put_and_of_disjoint (hdisjoint r hr)).trans (h r hr)

/-- A mask of one bit: a word has all of it or nothing. -/
def IsFlag (a : BitVec n) : Prop := ∀ x : BitVec n, x &&& a = 0 ∨ x &&& a = a

theorem isFlag_twoPow {i : Nat} : IsFlag (BitVec.twoPow n i) := by
  intro x
  rw [BitVec.and_twoPow]
  split
  · exact .inr rfl
  · exact .inl rfl

/-- Probing a word with a mask of one bit looks at that bit. -/
theorem and_twoPow_ne_zero {x : BitVec n} {i : Nat} (hi : i < n) :
    x &&& BitVec.twoPow n i ≠ 0 ↔ x.getLsbD i = true := by
  rw [BitVec.and_twoPow]
  split
  · next hx =>
      refine iff_of_true (fun h => ?_) hx
      have hbit := congrArg (·.getLsbD i) h
      simp [hi] at hbit
  · next hx => simp [hx]

/-- A table that can be read in both directions. -/
structure Reversible (rows : List (BitVec n × BitVec m)) : Prop where
  disjoint : rows.Pairwise fun r r' => r.1 &&& r'.1 = 0
  nonzero : ∀ r ∈ rows, r.1 ≠ 0
  flags : ∀ r ∈ rows, IsFlag r.2

theorem Reversible.of_twoPow (hdisjoint : rows.Pairwise fun r r' => r.1 &&& r'.1 = 0)
    (hrows : ∀ r ∈ rows, r.1 ≠ 0 ∧ r.2 ∈ (List.range m).map (BitVec.twoPow m)) : Reversible rows := by
  refine ⟨hdisjoint, fun r hr => (hrows r hr).1, fun r hr => ?_⟩
  obtain ⟨i, -, heq⟩ := List.mem_map.mp (hrows r hr).2
  rw [← heq]
  exact isFlag_twoPow

/-- Flags that were copied come back to a word that has them still. -/
theorem Holds.copy_swap {d : BitVec m} (h : Holds rows src q) (hrows : Reversible rows)
    (hd : ∀ r ∈ rows, d &&& r.2 = src &&& r.2) : copy (rows.map Prod.swap) q d = d := by
  apply putAll_eq_self
  intro r' hr'
  obtain ⟨r, hr, rfl⟩ := List.mem_map.mp hr'
  show d &&& r.2 = if q &&& r.1 ≠ 0 then r.2 else 0
  rw [hd r hr, h r hr]
  by_cases hsrc : src &&& r.2 = 0
  · rw [if_neg (not_not.mpr hsrc), if_neg (not_not.mpr rfl), hsrc]
  · rw [if_pos hsrc, if_pos (hrows.nonzero r hr)]
    exact (hrows.flags r hr src).resolve_left hsrc

theorem copy_swap_copy (hrows : Reversible rows) : copy (rows.map Prod.swap) (copy rows src dst) src = src :=
  (holds_copy hrows.disjoint).copy_swap hrows fun _ _ => rfl

end Flags
