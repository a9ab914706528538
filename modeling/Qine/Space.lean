import Mathlib.Algebra.Order.BigOperators.Group.Finset
import Mathlib.Logic.Function.Basic
import Mathlib.Order.Interval.Finset.Nat
import Qine.IdMap.Refinement
import Qine.Segment.Grow

/-!
# The address space of the guest

The segments of a process with the host memory behind them, the descriptors that lead to them, and the
local descriptor table the processor reads (`process.cpp`, `segment_descriptor.cpp`). A
`shared_ptr<Segment>` is a reference, the number of the segment in the order of allocation, so that
several descriptors can share one segment.

The table caches what a descriptor says about its segment: `updateDescriptors` computes an entry from the
segment as it is at that moment.
-/

namespace Qine

/-- `Access(type)`; the values without a name are treated alike everywhere. -/
def Access.ofType : Nat → Access
  | 0 => .readWrite
  | 1 => .readOnly
  | 2 => .execRead
  | 3 => .execOnly
  | _ => .invalid

/-- `struct user_desc`, an entry of the local descriptor table. -/
structure UserDesc where
  baseAddr : Nat
  limit : Nat
  limitInPages : Bool
  seg32bit : Bool
  /-- 2 is non-conforming code, 0 is data -/
  contents : Nat
  readExecOnly : Bool
  deriving DecidableEq, Repr

/-- The entry `SegmentDescriptor::update_descriptors` installs. -/
def SegmentDescriptor.userDesc (sd : SegmentDescriptor) (seg : Segment) : UserDesc where
  baseAddr := uint32 seg.location
  limit :=
    if 64 * 1024 < seg.limitSize then
      uint32 (MemOps.alignPageUp seg.limitSize / MemOps.pageSize + (2 ^ 32 - 1))
    else
      uint32 (seg.pagedSize + (2 ^ 32 - 1))
  limitInPages := 64 * 1024 < seg.limitSize
  seg32bit := sd.bits = .b32
  contents := if sd.access = .execOnly ∨ sd.access = .execRead then 2 else 0
  readExecOnly := sd.access = .execOnly ∨ sd.access = .readOnly

/-- `SegmentDescriptor::selector`. -/
def SegmentDescriptor.selector (sd : SegmentDescriptor) : BitVec 16 := mkSel sd.id

/-- `Segment::map_prot`: whether the pages can be accessed at all. With `DEBUG_ALL_WRITEABLE` those that
can be are also writable. -/
def Segment.mapProt (access : Access) : Bool := access ≠ .invalid

/-- The guest's memory and what leads to it. -/
structure Space where
  /-- the segments, by reference -/
  segments : Nat → Segment
  /-- how many of them `allocate_segment` has made -/
  count : Nat
  mem : Mem
  /-- the addresses that `mprotect` has made inaccessible -/
  protNone : Nat → Bool
  /-- `m_segment_descriptors` -/
  descriptors : IdMap SegmentDescriptor
  ldt : Nat → Option UserDesc

/-- A routine that works on the address space. -/
abbrev SpaceM := EStateM HostError Space

namespace Space

/-! ## Segments -/

/-- The reservations, for the host to keep clear of. -/
def used (w : Space) : List (Nat × Nat) :=
  (List.range w.count).map fun i => ((w.segments i).location, (w.segments i).reserved)

/-- A segment with the memory it lives in. -/
def mapped (w : Space) (i : Nat) : Mapped := ⟨w.segments i, w.mem⟩

/-- The space with another segment, and memory, in place of segment `i`. -/
def putMapped (w : Space) (i : Nat) (m : Mapped) : Space :=
  { w with segments := Function.update w.segments i m.seg, mem := m.mem }

/-- Call a routine of segment `i`. -/
def onSegment {α : Type} (i : Nat) (x : SegM α) : SpaceM α :=
  EStateM.zoom (fun w => mapped w i) (fun m w => putMapped w i m) x

/-- The space with one more segment. -/
def pushSegment (w : Space) : Space :=
  { w with segments := Function.update w.segments w.count Segment.init, count := w.count + 1 }

/-- `Process::allocate_segment`. -/
def allocateSegment : SpaceM Nat := do
  let w ← get
  set w.pushSegment
  return w.count

/-- `Segment::reserve`. -/
def reserve (host : Host) (i reservation : Nat) : SpaceM Unit := do
  onSegment i (Segment.reserve host (← get).used reservation)

/-- `Segment::pointer`. -/
def pointer (i offset size : Nat) : SpaceM Nat := do
  let seg := (← get).segments i
  if seg.checkBounds offset size then return seg.pointer offset
  else throw (.fault (.assertion "check_bounds(offset, size)"))

/-- The space after `mprotect` of `size` bytes at `a`. -/
def protect (w : Space) (access : Bool) (a size : Nat) : Space :=
  { w with protNone := fun x => if a ≤ x ∧ x < a + size then !access else w.protNone x }

/-- `Segment::change_access`. The pages are there, so `mprotect` only minds an address that is not the
beginning of a page. -/
def changeAccess (i : Nat) (access : Bool) (offset size : Nat) : SpaceM Unit := do
  let a ← pointer i offset size
  if a % MemOps.pageSize ≠ 0 then throw (.fault (.assertion "r == 0"))
  else modify fun w => w.protect access a size

/-! ## Descriptors -/

/-- The entry of a descriptor computed anew. -/
def refresh (w : Space) (sd : SegmentDescriptor) : Space :=
  { w with ldt := Function.update w.ldt sd.id (some (sd.userDesc (w.segments sd.seg))) }

/-- `SegmentDescriptor::update_descriptors`. `modify_ldt` takes every entry this computes. -/
def updateDescriptors (sd : SegmentDescriptor) : SpaceM Unit := modify fun w => w.refresh sd

/-- The space with a descriptor entered under its id. -/
def install (w : Space) (sd : SegmentDescriptor) (descriptors : IdMap SegmentDescriptor) : Space :=
  { w.refresh sd with descriptors := descriptors }

/-- `Process::create_segment_descriptor`. -/
def createSegmentDescriptor (access : Access) (mem : Nat) (bits : Bitness) :
    SpaceM SegmentDescriptor := do
  let w ← get
  match w.descriptors.allocAny fun id => ⟨id, access, mem, bits⟩ with
  | .error _ => throw .badAlloc
  | .ok (descriptors, id) =>
    set (w.install ⟨id, access, mem, bits⟩ descriptors)
    return ⟨id, access, mem, bits⟩

/-! ## The invariant -/

/-- What holds of the address space between two operations: the segments are in order, each in a
reservation of its own, only populated pages were ever protected, and a descriptor stands under its id
and leads to a segment. -/
structure Inv (w : Space) : Prop where
  seg : ∀ i, Segment.RepInv (w.segments i)
  page : ∀ i, MemOps.pageSize ∣ (w.segments i).location
  apart : ∀ i j, i ≠ j →
    (w.segments i).location + (w.segments i).reserved ≤ (w.segments j).location ∨
      (w.segments j).location + (w.segments j).reserved ≤ (w.segments i).location
  fresh : ∀ i, w.count ≤ i → w.segments i = Segment.init
  prot : ∀ x, w.protNone x = true →
    ∃ i, (w.segments i).location ≤ x ∧ x < (w.segments i).location + (w.segments i).pagedSize
  table : IdMap.Rep 1024 w.descriptors w.descriptors.get
  descriptor : ∀ i sd, w.descriptors.get i = some sd → sd.id = i ∧ sd.seg < w.count

variable {w : Space} {m : Mapped} {i j : Nat} {host : Host}

@[simp] theorem mapped_putMapped : (w.putMapped i m).mapped i = m := by
  simp [mapped, putMapped]

@[simp] theorem putMapped_mapped : w.putMapped i (w.mapped i) = w := by
  simp [mapped, putMapped]

theorem segments_putMapped : (w.putMapped i m).segments i = m.seg := by
  simp [putMapped]

theorem segments_putMapped_of_ne (h : j ≠ i) : (w.putMapped i m).segments j = w.segments j :=
  Function.update_of_ne h _ _

@[simp] theorem count_putMapped : (w.putMapped i m).count = w.count := rfl

@[simp] theorem mem_putMapped : (w.putMapped i m).mem = m.mem := rfl

@[simp] theorem descriptors_putMapped : (w.putMapped i m).descriptors = w.descriptors := rfl

/-- What is in memory does not matter for the invariant. -/
theorem Inv.withMem (h : w.Inv) (mem : Mem) : Inv { w with mem := mem } :=
  ⟨h.seg, h.page, h.apart, h.fresh, h.prot, h.table, h.descriptor⟩

theorem Inv.refresh (h : w.Inv) (sd : SegmentDescriptor) : (w.refresh sd).Inv :=
  ⟨h.seg, h.page, h.apart, h.fresh, h.prot, h.table, h.descriptor⟩

/-- Another segment in place of segment `i` keeps the address space in order if it lies in a reservation
of its own and has the pages segment `i` had. -/
theorem Inv.putMapped (h : w.Inv) (hi : i < w.count) (hm : Segment.RepInv m.seg)
    (hpage : MemOps.pageSize ∣ m.seg.location)
    (hapart : ∀ j, j ≠ i → m.seg.location + m.seg.reserved ≤ (w.segments j).location ∨
      (w.segments j).location + (w.segments j).reserved ≤ m.seg.location)
    (hpages : ∀ x, (w.segments i).location ≤ x →
      x < (w.segments i).location + (w.segments i).pagedSize →
      m.seg.location ≤ x ∧ x < m.seg.location + m.seg.pagedSize) : (w.putMapped i m).Inv := by
  refine ⟨?_, ?_, ?_, ?_, ?_, h.table, h.descriptor⟩
  -- each time segment `i` has the new place, and the others have the old one
  · intro j
    by_cases hj : j = i
    · rw [hj, segments_putMapped]
      exact hm
    · rw [segments_putMapped_of_ne hj]
      exact h.seg j
  · intro j
    by_cases hj : j = i
    · rw [hj, segments_putMapped]
      exact hpage
    · rw [segments_putMapped_of_ne hj]
      exact h.page j
  · intro j k hjk
    by_cases hj : j = i
    · subst hj
      rw [segments_putMapped, segments_putMapped_of_ne (Ne.symm hjk)]
      exact hapart k (Ne.symm hjk)
    · by_cases hk : k = i
      · subst hk
        rw [segments_putMapped, segments_putMapped_of_ne hj]
        exact (hapart j hj).symm
      · rw [segments_putMapped_of_ne hj, segments_putMapped_of_ne hk]
        exact h.apart j k hjk
  · intro j hj
    rw [segments_putMapped_of_ne (by simp only [count_putMapped] at hj; omega)]
    exact h.fresh j hj
  · intro x hx
    obtain ⟨j, h₁, h₂⟩ := h.prot x hx
    refine ⟨j, ?_⟩
    by_cases hj : j = i
    · subst hj
      rw [segments_putMapped]
      exact hpages x h₁ h₂
    · rw [segments_putMapped_of_ne hj]
      exact ⟨h₁, h₂⟩

/-- Growing a segment keeps the address space in order. -/
theorem Inv.extends (h : w.Inv) (hi : i < w.count) (hm : Segment.RepInv m.seg)
    (hext : Segment.Extends (w.mapped i) m) : (w.putMapped i m).Inv := by
  have hlocation : m.seg.location = (w.segments i).location := hext.location
  have hreserved : m.seg.reserved = (w.segments i).reserved := hext.reserved
  have hpaged : (w.segments i).pagedSize ≤ m.seg.pagedSize := hext.paged_le
  refine h.putMapped hi hm ?_ ?_ ?_
  · rw [hlocation]
    exact h.page i
  · intro j hj
    rw [hlocation, hreserved]
    exact h.apart i j (Ne.symm hj)
  · intro x h₁ h₂
    omega

/-- Memory of another segment is not touched. -/
theorem Inv.mem_of_extends (h : w.Inv) (hm : Segment.RepInv m.seg)
    (hext : Segment.Extends (w.mapped i) m) (hij : i ≠ j) {o : Nat}
    (ho : o < (w.segments j).reserved) :
    m.mem ((w.segments j).location + o) = w.mem ((w.segments j).location + o) := by
  have hpaged := hm.paged_le
  have hlocation : m.seg.location = (w.segments i).location := hext.location
  have hreserved : m.seg.reserved = (w.segments i).reserved := hext.reserved
  refine hext.frame _ ?_
  show _ < (w.segments i).location + (w.segments i).pagedSize ∨
    (w.segments i).location + m.seg.pagedSize ≤ _
  rcases h.apart i j hij with h₁ | h₁ <;> omega

theorem onSegment_leaves {α : Type} {x : SegM α} {Q : α → Mapped → Prop}
    {E : HostError → Mapped → Prop} (hx : x.Leaves (w.mapped i) Q E) :
    (onSegment i x).Leaves w (fun a w' => ∃ m, Q a m ∧ w' = w.putMapped i m)
      (fun e w' => ∃ m, E e m ∧ w' = w.putMapped i m) := by
  unfold onSegment
  apply EStateM.leaves_zoom
  exact hx.mono (fun a m hm => ⟨m, hm, rfl⟩) (fun e m hm => ⟨m, hm, rfl⟩)

/-- A process without any memory. -/
def fresh : Space where
  segments _ := Segment.init
  count := 0
  mem _ := 0
  protNone _ := false
  descriptors := IdMap.empty 1024
  ldt _ := none

theorem repInv_init : Segment.RepInv Segment.init :=
  ⟨⟨by decide, by decide, by decide, by decide, by decide⟩, by decide⟩

theorem fresh_inv : fresh.Inv where
  seg _ := repInv_init
  page _ := Nat.dvd_zero _
  apart _ _ _ := .inl (Nat.le_refl _)
  fresh _ _ := rfl
  prot _ h := nomatch h
  table := ⟨rfl, Nat.zero_le _, rfl⟩
  descriptor i _ h := by
    rw [show fresh.descriptors.get i = none from IdMap.get_of_length_le (Nat.zero_le _)] at h
    cases h

/-! ## A new segment -/

theorem allocateSegment_leaves {E : HostError → Space → Prop} :
    allocateSegment.Leaves w (fun i w' => i = w.count ∧ w' = w.pushSegment) E := by
  unfold allocateSegment
  apply EStateM.leaves_get_bind
  refine (EStateM.leaves_set (Q := fun _ w' => w' = w.pushSegment) rfl).bind ?_
  rintro _ _ rfl
  exact EStateM.leaves_pure ⟨rfl, rfl⟩

theorem segments_pushSegment (h : w.Inv) : w.pushSegment.segments = w.segments := by
  show Function.update w.segments w.count Segment.init = w.segments
  rw [← h.fresh w.count (Nat.le_refl _), Function.update_eq_self]

theorem Inv.pushSegment (h : w.Inv) : w.pushSegment.Inv := by
  have hsegments := segments_pushSegment h
  refine ⟨?_, ?_, ?_, ?_, ?_, h.table, ?_⟩
  · rw [hsegments]
    exact h.seg
  · rw [hsegments]
    exact h.page
  · rw [hsegments]
    exact h.apart
  · intro i hi
    rw [hsegments]
    exact h.fresh i (Nat.le_of_succ_le hi)
  · rw [hsegments]
    exact h.prot
  · intro i sd hsd
    obtain ⟨hid, hseg⟩ := h.descriptor i sd hsd
    exact ⟨hid, Nat.lt_succ_of_lt hseg⟩

/-- A segment of its own at `location`, with nothing in it yet. -/
def reservedAt (location reserved : Nat) : Segment :=
  { Segment.init with location := location, reserved := reserved }

/-- Reserving memory for the newest segment. -/
theorem reserve_leaves {n : Nat} (h : w.Inv) (hi : i < w.count)
    (hinit : w.segments i = Segment.init) :
    (reserve host i n).Leaves w
      (fun _ w' => ∃ location,
        w' = w.putMapped i ⟨reservedAt location (sizeT (MemOps.alignPageUp n)), w.mem⟩ ∧ w'.Inv ∧
        ∀ x, location ≤ x → x < location + sizeT (MemOps.alignPageUp n) → w'.protNone x = false)
      (fun e _ => e = .badAlloc) := by
  unfold reserve
  apply EStateM.leaves_get_bind
  have hmapped : w.mapped i = ⟨Segment.init, w.mem⟩ := by rw [mapped, hinit]
  have hleaves := @Segment.reserve_leaves host n w.used w.mem
  rw [← hmapped] at hleaves
  refine (onSegment_leaves hleaves).mono ?_ ?_
  · rintro _ w' ⟨m, ⟨hm, hmem, hseg, hpos, hpage, hused⟩, rfl⟩
    have hreserved : m.seg.reserved = sizeT (MemOps.alignPageUp n) := by rw [hseg]
    have hempty : m.seg.pagedSize = 0 := by rw [hseg]; rfl
    -- the host keeps clear of the segments that were made, and the others reserve nothing
    have hapart : ∀ j, j ≠ i → m.seg.location + m.seg.reserved ≤ (w.segments j).location ∨
        (w.segments j).location + (w.segments j).reserved ≤ m.seg.location := by
      intro j hj
      by_cases hlt : j < w.count
      · exact hused _ (List.mem_map.mpr ⟨j, List.mem_range.mpr hlt, rfl⟩)
      · rw [h.fresh j (Nat.le_of_not_lt hlt)]
        exact .inr (Nat.zero_le _)
    -- only populated pages were ever protected, and those lie in other reservations
    have hprot : ∀ x, m.seg.location ≤ x → x < m.seg.location + m.seg.reserved →
        w.protNone x = false := by
      intro x h₁ h₂
      rw [← Bool.not_eq_true]
      intro hx
      obtain ⟨j, h₃, h₄⟩ := h.prot x hx
      have hpaged := (h.seg j).paged_le
      by_cases hj : j = i
      · subst hj
        rw [hinit] at h₄ h₃
        exact absurd h₄ (Nat.not_lt.mpr h₃)
      · rcases hapart j hj with hlt | hlt <;> omega
    refine ⟨m.seg.location, ?_, ?_, ?_⟩
    · have hm' : m = ⟨reservedAt m.seg.location (sizeT (MemOps.alignPageUp n)), w.mem⟩ := by
        rw [← hmem, reservedAt, ← hseg]
      rw [← hm']
    · refine h.putMapped hi hm hpage hapart ?_
      intro x h₁ h₂
      rw [hinit] at h₁ h₂
      exact absurd h₂ (Nat.not_lt.mpr h₁)
    · rw [← hreserved]
      exact hprot
  · rintro e _ ⟨m, ⟨he, -⟩, -⟩
    exact he

/-! ## Room for segments -/

/-- The addresses a segment has reserved. -/
def block (w : Space) (i : Nat) : Finset Nat :=
  Finset.Ico (w.segments i).location ((w.segments i).location + (w.segments i).reserved)

theorem Inv.disjoint_block (h : w.Inv) (hij : i ≠ j) : Disjoint (w.block i) (w.block j) := by
  rw [Finset.disjoint_left]
  intro x hx hx'
  rw [block, Finset.mem_Ico] at hx hx'
  rcases h.apart i j hij with hle | hle <;> omega

/-- Reservations lie below two gigabytes and do not overlap, so there is room for so many only. -/
theorem Inv.mul_reserved_le {n r : Nat} (h : w.Inv)
    (hr : ∀ k, k < n → (w.segments (i + k)).reserved = r) : n * r ≤ 2 ^ 31 := by
  have hcard : ∀ k ∈ Finset.range n, (w.block (i + k)).card = r := by
    intro k hk
    rw [block, Nat.card_Ico, hr k (Finset.mem_range.mp hk), Nat.add_sub_cancel_left]
  have hdisjoint : ∀ j ∈ Finset.range n, ∀ k ∈ Finset.range n, j ≠ k →
      Disjoint (w.block (i + j)) (w.block (i + k)) := by
    intro j _ k _ hjk
    exact h.disjoint_block (by omega)
  have hsubset : (Finset.range n).biUnion (fun k => w.block (i + k)) ⊆ Finset.range (2 ^ 31) := by
    intro x hx
    obtain ⟨k, -, hx⟩ := Finset.mem_biUnion.mp hx
    rw [block, Finset.mem_Ico] at hx
    have hlow := (h.seg (i + k)).low
    exact Finset.mem_range.mpr (by omega)
  calc n * r = ∑ k ∈ Finset.range n, (w.block (i + k)).card := by
        rw [Finset.sum_const_nat hcard, Finset.card_range]
    _ = ((Finset.range n).biUnion fun k => w.block (i + k)).card := (Finset.card_biUnion hdisjoint).symm
    _ ≤ (Finset.range (2 ^ 31)).card := Finset.card_le_card hsubset
    _ = 2 ^ 31 := Finset.card_range _

/-! ## A new descriptor -/

theorem allocAny_spec {t t' : IdMap SegmentDescriptor} {creator : Nat → SegmentDescriptor} {id : Nat}
    (h : IdMap.Rep 1024 t t.get) (hrun : t.allocAny creator = .ok (t', id)) :
    id < 1024 ∧ t.get id = none ∧ (∀ j, j < id → (t.get j).isSome) ∧
      IdMap.Rep 1024 t' (Function.update t.get id (some (creator id))) := by
  unfold IdMap.allocAny at hrun
  rw [IdMap.search_eq_least h.bounded, h.max_eq] at hrun
  split at hrun
  · cases hrun
  · next i hleast =>
      cases hrun
      obtain ⟨-, hlt, hfree, hmin⟩ := IdMap.least_spec hleast
      refine ⟨hlt, Option.not_isSome_iff_eq_none.mp (by rw [hfree]; decide), ?_, h.emplace hlt _⟩
      intro j hj
      exact (Bool.not_eq_false _).mp (hmin j (Nat.zero_le _) hj)

theorem Inv.install {sd : SegmentDescriptor} {t : IdMap SegmentDescriptor} (h : w.Inv)
    (hseg : sd.seg < w.count)
    (ht : IdMap.Rep 1024 t (Function.update w.descriptors.get sd.id (some sd))) :
    (w.install sd t).Inv := by
  refine ⟨h.seg, h.page, h.apart, h.fresh, h.prot, ⟨ht.max_eq, ht.bounded, rfl⟩, ?_⟩
  intro j sd' hsd'
  have hget : (Function.update w.descriptors.get sd.id (some sd)) j = some sd' := by
    rw [← ht.get_eq]
    exact hsd'
  by_cases hj : j = sd.id
  · subst hj
    rw [Function.update_self] at hget
    cases hget
    exact ⟨rfl, hseg⟩
  · rw [Function.update_of_ne hj] at hget
    exact h.descriptor j sd' hget

/-- A descriptor gets the least free id, and the table entry that goes with its segment. -/
theorem createSegmentDescriptor_leaves {access : Access} {bits : Bitness} {mem : Nat} (h : w.Inv)
    (hmem : mem < w.count) :
    (createSegmentDescriptor access mem bits).Leaves w
      (fun sd w' => sd = ⟨sd.id, access, mem, bits⟩ ∧ sd.id < 1024 ∧
        w.descriptors.get sd.id = none ∧ (∀ j, j < sd.id → (w.descriptors.get j).isSome) ∧
        w'.descriptors.get = Function.update w.descriptors.get sd.id (some sd) ∧
        w' = w.install sd w'.descriptors ∧ w'.Inv)
      (fun e w' => e = .badAlloc ∧ w' = w) := by
  unfold createSegmentDescriptor
  apply EStateM.leaves_get_bind
  split
  · exact EStateM.leaves_throw ⟨rfl, rfl⟩
  · next t id hrun =>
      obtain ⟨hlt, hfree, hmin, ht⟩ := allocAny_spec h.table hrun
      refine (EStateM.leaves_set (Q := fun _ w' => w' = w.install ⟨id, access, mem, bits⟩ t) rfl).bind ?_
      rintro _ _ rfl
      exact EStateM.leaves_pure ⟨rfl, hlt, hfree, hmin, ht.get_eq, rfl, h.install hmem ht⟩

end Space
end Qine
