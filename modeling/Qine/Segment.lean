import Qine.IdMap

/-!
# Segments and address translation

A `Segment` (`segment.cpp`) is a reserved range of host memory that is populated page by page; a
bitmap remembers which pages were grown and which were skipped. The guest reaches it through a
`SegmentDescriptor`, and several descriptors may share one segment (the flat model), so a
descriptor holds a reference into the process's segments.

`Process::translate_segmented` is the only way from a far pointer to host memory. The one fact the
rest of the development uses about it is `translateSegmented_mono`: a part of a valid range is
valid and lies where it should.
-/

namespace Qine

/-! ## `MemOps` -/

namespace MemOps

/-- `MemOps::PAGE_SIZE`. -/
def pageSize : Nat := 4096

/-- `MemOps::align_up`. -/
def alignUp (v align : Nat) : Nat := if v % align = 0 then v else (v / align + 1) * align

/-- `MemOps::align_down`. -/
def alignDown (v align : Nat) : Nat := v / align * align

/-- `MemOps::align_page_up`. -/
def alignPageUp (v : Nat) : Nat := alignUp v pageSize

/-- `MemOps::align_page_down`. -/
def alignPageDown (v : Nat) : Nat := alignDown v pageSize

theorem alignPageDown_div (v : Nat) : alignPageDown v / pageSize = v / pageSize := by
  simp only [alignPageDown, alignDown, pageSize]
  omega

theorem alignPageUp_div (v : Nat) : alignPageUp v / pageSize = (v + (pageSize - 1)) / pageSize := by
  unfold alignPageUp alignUp
  split
  · next h => simp only [pageSize] at h ⊢; omega
  · next h => simp only [pageSize] at h ⊢; omega

theorem dvd_alignPageUp (v : Nat) : pageSize ∣ alignPageUp v := by
  unfold alignPageUp alignUp
  split
  · next h => exact Nat.dvd_of_mod_eq_zero h
  · exact Nat.dvd_mul_left _ _

theorem le_alignPageUp (v : Nat) : v ≤ alignPageUp v := by
  unfold alignPageUp alignUp
  split
  · exact Nat.le_refl v
  · simp only [pageSize]
    omega

/-- Rounding up stays below a page border. -/
theorem alignPageUp_le {v w : Nat} (hw : pageSize ∣ w) (h : v ≤ w) : alignPageUp v ≤ w := by
  obtain ⟨k, rfl⟩ := hw
  unfold alignPageUp alignUp
  split
  · exact h
  · next hv =>
      simp only [pageSize] at h hv ⊢
      omega

theorem alignPageUp_lt (v : Nat) : alignPageUp v < v + pageSize := by
  unfold alignPageUp alignUp
  split
  · exact Nat.lt_add_of_pos_right (by decide)
  · next h =>
      simp only [pageSize] at h ⊢
      omega

theorem alignPageUp_of_dvd {v : Nat} (h : pageSize ∣ v) : alignPageUp v = v :=
  Nat.le_antisymm (alignPageUp_le h (Nat.le_refl v)) (le_alignPageUp v)

theorem alignPageUp_mono {v w : Nat} (h : v ≤ w) : alignPageUp v ≤ alignPageUp w :=
  alignPageUp_le (dvd_alignPageUp w) (Nat.le_trans h (le_alignPageUp w))

end MemOps

/-! ## Segments -/

/-- `Segment`. -/
structure Segment where
  location : Nat
  pagedSize : Nat
  limitSize : Nat
  reserved : Nat
  shared : Bool
  /-- `m_bitmap`: one bit per page below `pagedSize`, set for the grown ones. -/
  bitmap : List Bool
  deriving DecidableEq, Repr

namespace Segment

/-- The pages `check_bounds` probes: from the one `offset` falls in to the last one the range
touches. Page numbers are 32 bits wide. -/
def probedPages (offset size : Nat) : List Nat :=
  let first := MemOps.alignPageDown offset / MemOps.pageSize % 2 ^ 32
  let stop := MemOps.alignPageUp (offset + size) / MemOps.pageSize % 2 ^ 32
  List.range' first (stop - first)

/-- `Segment::check_bounds`. -/
def checkBounds (s : Segment) (offset size : Nat) : Bool :=
  if offset < s.pagedSize ∧ size ≤ s.pagedSize - offset then
    (probedPages offset size).all fun p => s.bitmap.getD p false
  else
    false

/-- `Segment::pointer`, without its assertion. -/
def pointer (s : Segment) (offset : Nat) : Nat := s.location + offset

/-- What holds of every segment `reserve` has set up: the reservation lies in the first two
gigabytes of the host address space (`MAP_32BIT`), only reserved pages are populated, and the
bitmap covers exactly the populated pages. -/
structure Wf (s : Segment) : Prop where
  low : s.location + s.reserved ≤ 2 ^ 31
  paged_le : s.pagedSize ≤ s.reserved
  limit_le : s.limitSize ≤ s.pagedSize
  aligned : MemOps.pageSize ∣ s.pagedSize
  bitmap_length : s.bitmap.length = s.pagedSize / MemOps.pageSize

theorem lt_of_checkBounds {s : Segment} {offset size : Nat} (h : s.checkBounds offset size) :
    offset < s.pagedSize ∧ offset + size ≤ s.pagedSize := by
  unfold checkBounds at h
  split at h
  · omega
  · simp at h

/-- With 32-bit offsets and sizes page numbers never reach the 32-bit limit. -/
theorem mem_probedPages {offset size p : Nat} (ho : offset < 2 ^ 32) (hs : size < 2 ^ 32) :
    p ∈ probedPages offset size ↔
      offset / 4096 ≤ p ∧ p < (offset + size + 4095) / 4096 := by
  simp only [probedPages, MemOps.alignPageDown_div, MemOps.alignPageUp_div]
  simp only [MemOps.pageSize]
  rw [Nat.mod_eq_of_lt (by omega), Nat.mod_eq_of_lt (by omega), List.mem_range'_1]
  omega

/-- A non-empty part of a range in bounds is in bounds. -/
theorem checkBounds_mono {s : Segment} {offset size o k : Nat} (ho : offset < 2 ^ 32)
    (hs : size < 2 ^ 32) (h : s.checkBounds offset size) (hk : 0 < k) (hok : o + k ≤ size)
    (hno : offset + o < 2 ^ 32) : s.checkBounds (offset + o) k := by
  have hlt := lt_of_checkBounds h
  unfold checkBounds at h ⊢
  rw [if_pos (by omega)] at h
  rw [if_pos (by omega), List.all_eq_true]
  rw [List.all_eq_true] at h
  intro p hp
  rw [mem_probedPages (by omega) (by omega)] at hp
  exact h p ((mem_probedPages ho hs).mpr (by omega))

end Segment

/-! ## Descriptors and the process -/

/-- `SegmentDescriptor`; `seg` refers to the process's segments. -/
structure SegmentDescriptor where
  id : Nat
  access : Access
  seg : Nat
  bits : Bitness
  deriving DecidableEq, Repr

namespace SegmentDescriptor

/-- `SegmentDescriptor::SEL_LDT`. -/
def selLdt : BitVec 16 := 4

/-- `SegmentDescriptor::mk_sel`. -/
def mkSel (id : Nat) : BitVec 16 := BitVec.ofNat 16 (id <<< 3) ||| selLdt ||| 3

/-- `SegmentDescriptor::sel_to_id`. -/
def selToId (sel : BitVec 16) : Nat := sel.toNat >>> 3

end SegmentDescriptor

/-- The part of `Process` that guest memory accesses and signal emulation look at. -/
structure Process where
  /-- the segments, by reference; `shared_ptr<Segment>` is such a reference -/
  segments : Nat → Segment
  segmentDescriptors : IdMap SegmentDescriptor
  bits : Bitness
  /-- `m_load_exec.cs` -/
  loadExecCs : BitVec 16
  /-- `m_sigtab`, the host address of the guest's signal table once it is registered -/
  sigtab : Option Nat
  /-- `m_time_segment` -/
  timeSegment : Nat
  segments_wf : ∀ i, (segments i).Wf
  /-- every segment is a host mapping of its own -/
  segments_apart : ∀ i j, i ≠ j →
    (segments i).location + (segments i).reserved ≤ (segments j).location ∨
      (segments j).location + (segments j).reserved ≤ (segments i).location

namespace Process

variable {p : Process}

/-- `Process::descriptor_by_selector`. -/
def descriptorBySelector (p : Process) (sel : BitVec 16) : Option SegmentDescriptor :=
  p.segmentDescriptors.get (SegmentDescriptor.selToId sel)

/-- `Process::translate_segmented`. The access kind is not checked by the source either. -/
def translateSegmented (p : Process) (ptr : FarPointer) (size : BitVec 32) : Except Fault Nat :=
  match p.descriptorBySelector ptr.segment with
  | none => .error (.segmentationFault "segment not present")
  | some sd =>
    if (p.segments sd.seg).checkBounds ptr.offset.toNat size.toNat then
      .ok ((p.segments sd.seg).pointer ptr.offset.toNat)
    else
      .error (.segmentationFault "address out of segment bounds")

/-- The host base address a selector leads to. -/
def baseOf (p : Process) (sel : BitVec 16) : Nat :=
  match p.descriptorBySelector sel with
  | some sd => (p.segments sd.seg).location
  | none => 0

/-- What a successful translation means. -/
theorem translateSegmented_eq_ok {ptr : FarPointer} {size : BitVec 32} {a : Nat} :
    p.translateSegmented ptr size = .ok a ↔
      ∃ sd, p.descriptorBySelector ptr.segment = some sd ∧
        (p.segments sd.seg).checkBounds ptr.offset.toNat size.toNat = true ∧
        a = (p.segments sd.seg).location + ptr.offset.toNat := by
  unfold translateSegmented
  cases h : p.descriptorBySelector ptr.segment with
  | none => simp
  | some sd =>
      simp only [Option.some.injEq, exists_eq_left']
      split
      · next hb => simp [hb, Segment.pointer, eq_comm]
      · next hb => simp [hb]

theorem translateSegmented_base {ptr : FarPointer} {size : BitVec 32} {a : Nat}
    (h : p.translateSegmented ptr size = .ok a) : a = p.baseOf ptr.segment + ptr.offset.toNat := by
  obtain ⟨sd, hsd, -, rfl⟩ := translateSegmented_eq_ok.mp h
  simp only [baseOf, hsd]

/-- Host addresses the guest can reach lie below two gigabytes, so 32-bit offset arithmetic inside
a valid range does not wrap. -/
theorem translateSegmented_lt {ptr : FarPointer} {size : BitVec 32} {a : Nat}
    (h : p.translateSegmented ptr size = .ok a) :
    ptr.offset.toNat + size.toNat ≤ 2 ^ 31 ∧ a + size.toNat ≤ 2 ^ 31 := by
  obtain ⟨sd, -, hb, rfl⟩ := translateSegmented_eq_ok.mp h
  have hlt := Segment.lt_of_checkBounds hb
  have hlow := (p.segments_wf sd.seg).low
  have hle := (p.segments_wf sd.seg).paged_le
  omega

/-- A non-empty part of a translatable range is translatable, to the expected address. -/
theorem translateSegmented_mono {sel : BitVec 16} {off size : BitVec 32} {a o k : Nat}
    (h : p.translateSegmented ⟨sel, off⟩ size = .ok a) (hk : 0 < k) (hok : o + k ≤ size.toNat) :
    p.translateSegmented ⟨sel, BitVec.ofNat 32 (off.toNat + o)⟩ (BitVec.ofNat 32 k) =
      .ok (a + o) := by
  have hno : off.toNat + o < 2 ^ 32 := by
    have hle : off.toNat + size.toNat ≤ 2 ^ 31 := (translateSegmented_lt h).1
    omega
  obtain ⟨sd, hsd, hb, rfl⟩ := translateSegmented_eq_ok.mp h
  have hoff : (BitVec.ofNat 32 (off.toNat + o)).toNat = off.toNat + o := by
    rw [BitVec.toNat_ofNat, Nat.mod_eq_of_lt hno]
  have hsize : (BitVec.ofNat 32 k).toNat = k := by
    rw [BitVec.toNat_ofNat, Nat.mod_eq_of_lt (by have := size.isLt; omega)]
  refine translateSegmented_eq_ok.mpr ⟨sd, hsd, ?_, ?_⟩
  · simp only [hoff, hsize]
    exact Segment.checkBounds_mono off.isLt size.isLt hb hk hok hno
  · simp only [hoff, Nat.add_assoc]

/-- A process with a single data segment of one page at host address `0x1000`, reached through
selector 7. -/
def onePage : Process where
  segments i := if i = 0 then ⟨0x1000, 0x1000, 0x1000, 0x1000, false, [true]⟩
    else ⟨0, 0, 0, 0, false, []⟩
  segmentDescriptors := ⟨1024, [some ⟨0, .readWrite, 0, .b32⟩]⟩
  bits := .b32
  loadExecCs := 7
  sigtab := none
  timeSegment := 1
  segments_wf i := by
    split
    · exact ⟨by decide, by decide, by decide, by decide, by decide⟩
    · exact ⟨by decide, by decide, by decide, by decide, by decide⟩
  segments_apart i j hij := by
    by_cases hi : i = 0
    · rw [if_pos hi, if_neg (by omega)]
      exact Or.inr (by decide)
    · rw [if_neg hi]
      exact Or.inl (Nat.zero_le _)

end Process
end Qine
