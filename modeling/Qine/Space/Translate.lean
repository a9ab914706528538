import Qine.Space.Totality
import Qine.Startup.Context

/-!
# What the bounds check is worth

`check_bounds` looks the pages of a range up in the bitmap one after the other, without a check of its own
that they are there, and `pointer` asserts what `translate_segmented` has just checked. Here both can fail,
and `bounds_exact` says that they never do: in a segment in order the check is exact, byte by byte, and every
far pointer of a process is translated or refused.
-/

namespace Qine

namespace Segment

/-- `m_bitmap[p]`. -/
def bitAt (s : Segment) (p : Nat) : Except Fault Bool :=
  match s.bitmap[p]? with
  | some b => .ok b
  | none => .error .outOfBounds

/-- The loop of `check_bounds`. -/
def probePages (s : Segment) : List Nat → Bool → Except Fault Bool
  | [], ok => .ok ok
  | p :: ps, ok => do probePages s ps (ok && (← s.bitAt p))

/-- `Segment::check_bounds`, with the accesses to the bitmap. -/
def probeBounds (s : Segment) (offset size : Nat) : Except Fault Bool :=
  if offset < s.pagedSize ∧ size ≤ s.pagedSize - offset then
    probePages s (probedPages offset size) true
  else
    .ok false

/-- `Segment::pointer`. -/
def probePointer (s : Segment) (offset size : Nat) : Except Fault Nat := do
  if ← s.probeBounds offset size then return s.pointer offset
  else throw (.assertion "check_bounds(offset, size)")

end Segment

/-- `Process::translate_segmented`, with all it can trip over. -/
def Space.probeSegmented (w : Space) (ptr : FarPointer) (size : Nat) : Except Fault Nat :=
  match w.descriptorBySelector ptr.segment with
  | none => .error (.segmentationFault "segment not present")
  | some sd => do
    if ← (w.segments sd.seg).probeBounds ptr.offset.toNat size then
      (w.segments sd.seg).probePointer ptr.offset.toNat size
    else throw (.segmentationFault "address out of segment bounds")

/-! ## The bitmap -/

namespace Segment

variable {s : Segment} {offset size : Nat}

/-- A page is grown. -/
def Grown (s : Segment) (p : Nat) : Prop := s.bitmap[p]? = some true

theorem probePages_eq {ps : List Nat} (h : ∀ p ∈ ps, p < s.bitmap.length) (ok : Bool) :
    s.probePages ps ok = .ok (ok && ps.all fun p => s.bitmap.getD p false) := by
  induction ps generalizing ok with
  | nil => simp [probePages]
  | cons p ps ih =>
      have hp := h p List.mem_cons_self
      have hbit : s.bitAt p = .ok s.bitmap[p] := by rw [bitAt, List.getElem?_eq_getElem hp]
      have hrest := ih (fun q hq => h q (List.mem_cons_of_mem _ hq)) (ok && s.bitmap[p])
      unfold probePages
      rw [hbit]
      show s.probePages ps (ok && s.bitmap[p]) = _
      rw [hrest]
      simp [hp, Bool.and_assoc]

theorem lt_length_of_mem_probedPages (h : RepInv s) (ho : offset < s.pagedSize)
    (hsize : size ≤ s.pagedSize - offset) {p : Nat} (hp : p ∈ probedPages offset size) :
    p < s.bitmap.length := by
  have hlow := h.low
  have hle := h.paged_le
  rw [mem_probedPages (by omega) (by omega)] at hp
  obtain ⟨k, hk⟩ := h.aligned
  rw [h.bitmap_length, hk]
  simp only [MemOps.pageSize] at hk ⊢
  omega

/-- The check never looks at a page that is not there. -/
theorem probeBounds_eq (h : RepInv s) (offset size : Nat) :
    s.probeBounds offset size = .ok (s.checkBounds offset size) := by
  unfold probeBounds checkBounds
  split
  · next hin =>
      rw [probePages_eq (fun p hp => lt_length_of_mem_probedPages h hin.1 hin.2 hp), Bool.true_and]
  · rfl

/-- The check is exact. -/
theorem checkBounds_iff (h : RepInv s) (hsize : 0 < size) :
    s.checkBounds offset size = true ↔
      ∀ o, offset ≤ o → o < offset + size → o < s.pagedSize ∧ s.Grown (o / MemOps.pageSize) := by
  have hlow := h.low
  have hle := h.paged_le
  obtain ⟨k, hk⟩ := h.aligned
  have hlength := h.bitmap_length
  simp only [MemOps.pageSize] at hk hlength ⊢
  unfold checkBounds
  constructor
  · intro hin o h₁ h₂
    split at hin
    · next hlt =>
        have hpages := List.all_eq_true.mp hin (o / 4096)
          ((mem_probedPages (by omega) (by omega)).mpr (by omega))
        refine ⟨by omega, ?_⟩
        have hp : o / 4096 < s.bitmap.length := by omega
        rw [List.getD_eq_getElem?_getD, List.getElem?_eq_getElem hp, Option.getD_some] at hpages
        rw [Grown, List.getElem?_eq_getElem hp, hpages]
    · cases hin
  · intro hall
    have hfirst := (hall offset (Nat.le_refl _) (by omega)).1
    have hlast := (hall (offset + size - 1) (by omega) (by omega)).1
    rw [if_pos (by omega), List.all_eq_true]
    intro p hp
    rw [mem_probedPages (by omega) (by omega)] at hp
    -- a byte of the range on page `p`
    have hbyte : (max offset (p * 4096)) / 4096 = p := by omega
    have hgrown := (hall (max offset (p * 4096)) (by omega) (by omega)).2
    rw [hbyte] at hgrown
    rw [List.getD_eq_getElem?_getD, hgrown, Option.getD_some]

end Segment

/-! ## Far pointers -/

namespace Space

open SegmentDescriptor

variable {w : Space}

/-- The assertion of `pointer` holds where `translate_segmented` gets to it. -/
theorem probeSegmented_eq (h : w.Inv) (ptr : FarPointer) (size : Nat) :
    (w.probeSegmented ptr size).mapError HostError.fault = w.translateSegmented ptr size := by
  unfold probeSegmented translateSegmented
  cases w.descriptorBySelector ptr.segment with
  | none => rfl
  | some sd =>
      have hbounds := Segment.probeBounds_eq (h.seg sd.seg) ptr.offset.toNat size
      unfold Segment.probePointer
      dsimp only
      rw [hbounds]
      cases (w.segments sd.seg).checkBounds ptr.offset.toNat size with
      | true => rfl
      | false => rfl

theorem probeSegmented_error (h : w.Inv) {ptr : FarPointer} {size : Nat} {e : Fault}
    (herror : w.probeSegmented ptr size = .error e) : ∃ what, e = .segmentationFault what := by
  have heq := probeSegmented_eq h ptr size
  rw [herror] at heq
  unfold translateSegmented at heq
  split at heq
  · cases heq
    exact ⟨_, rfl⟩
  · split at heq
    · cases heq
    · cases heq
      exact ⟨_, rfl⟩

/-- A descriptor is found under its selector. -/
theorem descriptorBySelector_selector (h : w.Inv) {i : Nat} {sd : SegmentDescriptor}
    (hlive : w.descriptors.get i = some sd) : w.descriptorBySelector sd.selector = some sd := by
  have hid := (h.descriptor i sd hlive).1
  rw [descriptorBySelector, selector, hid, Lmf.selToId_mkSel i (h.table.lt_of_some hlive), hlive]

/-- In a segment in order `check_bounds` stays inside the bitmap, and finds a range in bounds exactly if all
its bytes are on pages that were grown. In a process every far pointer is translated or refused, without a
failed assertion, and descriptors that are there have selectors of their own, which lead back to them. -/
theorem bounds_exact :
    (∀ s, Segment.RepInv s → ∀ offset size, ∃ ok, s.probeBounds offset size = .ok ok ∧
      (0 < size → (ok = true ↔ ∀ o, offset ≤ o → o < offset + size →
        o < s.pagedSize ∧ s.Grown (o / MemOps.pageSize)))) ∧
    ∀ w, Reached w →
      (∀ ptr size e, w.probeSegmented ptr size = .error e → ∃ what, e = .segmentationFault what) ∧
      (∀ i sd, w.descriptors.get i = some sd → w.descriptorBySelector sd.selector = some sd) ∧
      ∀ i sd j sd', w.descriptors.get i = some sd → w.descriptors.get j = some sd' → i ≠ j →
        sd.selector ≠ sd'.selector := by
  refine ⟨fun s hs offset size => ⟨_, Segment.probeBounds_eq hs offset size, Segment.checkBounds_iff hs⟩,
    fun w hw => ⟨fun ptr size e => probeSegmented_error hw.inv,
      fun i sd => descriptorBySelector_selector hw.inv, ?_⟩⟩
  intro i sd j sd' hi hj hij hsel
  have hsd := descriptorBySelector_selector hw.inv hi
  rw [hsel, descriptorBySelector_selector hw.inv hj] at hsd
  cases hsd
  exact hij ((hw.inv.descriptor i sd hi).1.symm.trans (hw.inv.descriptor j sd hj).1)

/-- The program in `smallSpace` has two descriptors. -/
theorem bounds_exact_small : ∃ code data,
    smallSpace.descriptors.get 0 = some code ∧ smallSpace.descriptors.get 1 = some data ∧
      code.selector ≠ data.selector := by
  obtain ⟨code, hcode⟩ : ∃ code, smallSpace.descriptors.get 0 = some code :=
    Option.isSome_iff_exists.mp (by decide +kernel)
  obtain ⟨data, hdata⟩ : ∃ data, smallSpace.descriptors.get 1 = some data :=
    Option.isSome_iff_exists.mp (by decide +kernel)
  exact ⟨code, data, hcode, hdata,
    (bounds_exact.2 smallSpace reached_smallSpace).2.2 0 code 1 data hcode hdata (by decide)⟩

end Space
end Qine
