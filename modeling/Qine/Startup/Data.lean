import Qine.Space.Totality
import Qine.Startup.Strings

/-!
# The data a 32-bit program is started with

Besides the strings there are the magic, to which a segment of its own points, and a segment for the time.
The two segments are new ones, so that the data segment and the descriptors stay as they are, and all that
can go wrong is that there is no memory: `Ready` follows the data segment through it.
-/

namespace Qine

/-! ## Segments of its own -/

namespace StartupInput
open Space SegmentDescriptor
variable {w : Space} {host : Host}

/-- All that goes wrong with a descriptor at a given place is that there is none to be had. -/
theorem createSegmentDescriptorAt_throws {access : Access} {mem id : Nat} {bits : Bitness} :
    (createSegmentDescriptorAt access mem bits id).Leaves w (fun _ _ => True) (fun e _ => e = .badAlloc) := by
  unfold createSegmentDescriptorAt
  apply EStateM.leaves_get_bind
  split
  · exact EStateM.leaves_throw rfl
  · exact EStateM.leaves_set trivial

theorem createTimeSegment_throws (hinv : w.Inv) :
    (createTimeSegment host).Leaves w (fun _ w' => Adds w w') (fun e _ => e = .badAlloc) := by
  have hthrows : (createTimeSegment host).Leaves w (fun _ _ => True) (fun e _ => e = .badAlloc) := by
    unfold createTimeSegment
    refine newSegment_leaves hinv (by decide) ?_ (fun _ => rfl)
    intro w₁ s _ _ h₁
    refine ((createSegmentDescriptor_leaves h₁.inv (h₁.lt_count (k := 0) rfl)).mono (fun _ _ h => h)
      (fun _ _ he => he.1)).bind ?_
    intro _ _ _
    exact EStateM.leaves_pure trivial
  exact ((createTimeSegment_leaves hinv).and hthrows).mono (fun _ _ h => h.1) (fun _ _ he => he.2)

theorem createMagicPointer_throws {nbytes : Nat} {shared : Bool} {ptr : List Byte} (hinv : w.Inv)
    (hpos : 0 < nbytes) (hsize : nbytes < 2 ^ 32) :
    (createMagicPointer host nbytes shared ptr).Leaves w (fun _ w' => Adds w w')
      (fun e _ => e = .badAlloc) := by
  have hthrows : (createMagicPointer host nbytes shared ptr).Leaves w (fun _ _ => True)
      (fun e _ => e = .badAlloc) := by
    unfold createMagicPointer
    refine newSegment_leaves hinv hsize ?_ (fun _ => rfl)
    intro w₁ s hlimit hhole h₁
    -- there is a whole page for the pointer
    have hshape := h₁.shape (k := 0) rfl
    have hbounds : (w₁.segments w.count).checkBounds 0 8 = true := by
      refine (hshape.checkBounds (by decide) (by decide)).mpr ?_
      obtain ⟨k, hk⟩ := hshape.inv.aligned
      have hle := hshape.inv.limit_le
      rw [hshape.paged] at hk hle
      rw [hshape.limit, hlimit] at hle
      simp only [MemOps.pageSize] at hk
      exact ⟨by omega, by omega, .inl (Nat.le_of_eq hhole)⟩
    have hrest : ∀ w₂, (w₂.segments w.count).checkBounds 0 8 = true →
        (storeAt w.count 0 8 ptr >>= fun _ => createSegmentDescriptorAt .readOnly w.count .b32
          (selToId Magic.ptrSelector)).Leaves w₂ (fun _ _ => True) (fun e _ => e = .badAlloc) := by
      intro w₂ h₂
      unfold storeAt pointer
      simp only [bind_assoc]
      apply EStateM.leaves_get_bind
      rw [if_pos h₂, pure_bind]
      apply EStateM.leaves_modify_bind
      exact createSegmentDescriptorAt_throws
    cases shared with
    | false => exact hrest w₁ hbounds
    | true =>
        have hset : makeShared.Leaves (w₁.mapped w.count)
            (fun _ m => m = { w₁.mapped w.count with seg := { w₁.segments w.count with shared := true } })
            (fun e _ => e = .badAlloc) := EStateM.leaves_modify rfl
        refine ((onSegment_leaves hset).mono (fun _ _ h => h) ?_).bind ?_
        · rintro _ _ ⟨m, he, -⟩
          exact he
        · rintro _ _ ⟨m, rfl, rfl⟩
          refine hrest _ ?_
          rw [segments_putMapped]
          exact hbounds
  exact ((createMagicPointer_leaves hinv hsize).and hthrows).mono (fun _ _ h => h.1) (fun _ _ he => he.2)

/-! ## Laying out the startup data -/

variable {w₀ : Space} {dataSd : SegmentDescriptor} {loc hole low offset offset' : Nat} {s : Starting}
  {i : StartupInput}

/-- The descriptors there were are still there. -/
structure Kept (w₀ : Space) (dataSd : SegmentDescriptor) (s : Starting) : Prop where
  inv : s.space.Inv
  data : s.data = dataSd.seg
  lt : s.data < s.space.count
  kept : ∀ id sd, w₀.descriptors.get id = some sd → s.space.descriptors.get id = some sd

/-- The startup data has been laid out up to `offset`. -/
structure Ready (w₀ : Space) (dataSd : SegmentDescriptor) (loc hole low offset : Nat) (s : Starting) :
    Prop extends Kept w₀ dataSd s where
  growing : StartupSbrk.Growing loc hole low offset s.sbrk

open Starting in
theorem ready_onSbrk {α : Type} {x : SbrkM α} {g : Nat → Nat} {Q : α → StartupSbrk → Prop}
    (h : Kept w₀ dataSd s) (hx : StartupSbrk.Bounded x g)
    (hleaves : x.Leaves s.sbrk (fun a t => StartupSbrk.Growing loc hole low offset' t ∧ Q a t)
      (fun e _ => e = .badAlloc)) :
    (onSbrk x).Leaves s (fun a s' => Ready w₀ dataSd loc hole low offset' s' ∧ Q a s'.sbrk)
      (fun e _ => e = .badAlloc) := by
  have hsbrk : ∀ t, (putSbrk t s).sbrk = t := by
    intro t
    simp [putSbrk, sbrk]
  have horderly := orderly_onSbrk hx s h.inv h.lt
  have hzoom : (onSbrk x).Leaves s
      (fun a s' => (StartupSbrk.Growing loc hole low offset' s'.sbrk ∧ Q a s'.sbrk) ∧
        s'.data = s.data ∧ s'.space.descriptors = s.space.descriptors)
      (fun e _ => e = .badAlloc) := by
    apply EStateM.leaves_zoom
    refine hleaves.mono ?_ (fun _ _ he => he)
    intro a t ht
    rw [hsbrk]
    exact ⟨ht, rfl, rfl⟩
  refine (horderly.and hzoom).mono ?_ (fun _ _ he => he.2)
  rintro a s' ⟨⟨hinv, hlt⟩, ⟨hgrowing, hQ⟩, hdata, hdescriptors⟩
  exact ⟨⟨⟨hinv, hdata.trans h.data, hlt, hdescriptors ▸ h.kept⟩, hgrowing⟩, hQ⟩

open Starting in
theorem ready_inSpace {x : SpaceM Unit} (h : Ready w₀ dataSd loc hole low offset s)
    (hx : x.Leaves s.space (fun _ w => Adds s.space w) (fun e _ => e = .badAlloc)) :
    (inSpace x).Leaves s
      (fun _ s' => Ready w₀ dataSd loc hole low offset s' ∧ s'.lastOffset = s.lastOffset)
      (fun e _ => e = .badAlloc) := by
  apply EStateM.leaves_zoom
  refine hx.mono ?_ (fun _ _ he => he)
  intro _ w hadds
  have hseg : w.segments s.data = s.space.segments s.data := hadds.old _ h.lt
  refine ⟨⟨⟨hadds.inv, h.data, Nat.lt_of_lt_of_le h.lt hadds.count, ?_⟩, ?_⟩, rfl⟩
  · intro id sd hsd
    exact (hadds.kept id sd (h.kept id sd hsd)).1
  · -- the data segment is an old one
    obtain ⟨⟨hshape, hlocation, hhole, hlow, hoffset⟩, hfits⟩ := h.growing
    have hsame : (Starting.sbrk { s with space := w }).mapped.seg = s.sbrk.mapped.seg := hseg
    rw [← hsame] at hshape hlocation hfits
    exact ⟨⟨hshape, hlocation, hhole, hlow, hoffset⟩, hfits⟩

open Starting in
theorem ready_store {o : Nat} {bytes : List Byte} (h : Ready w₀ dataSd loc hole low offset s)
    (hlow : low ≤ o) (hpos : 0 < bytes.length) (hend : o + bytes.length ≤ offset) :
    (onSbrk (StartupSbrk.store o bytes)).Leaves s
      (fun _ s' => Ready w₀ dataSd loc hole low offset s') (fun e _ => e = .badAlloc) := by
  refine (ready_onSbrk (Q := fun _ _ => True) h.toKept (StartupSbrk.bounded_store o bytes) ?_).mono
    (fun _ _ hs => hs.1) (fun _ _ he => he)
  refine (StartupSbrk.store_growing h.growing hlow (by omega) hend).mono ?_ (fun _ _ he => he)
  rintro _ _ rfl
  exact ⟨h.growing.written _ _, trivial⟩

open Starting in
theorem ready_setupMagic (h : Kept w₀ dataSd s)
    (hbegun : StartupSbrk.Begun loc hole low offset s.sbrk)
    (hlt : MemOps.alignUp offset 16 + Magic.size < 2 ^ 32) :
    (i.setupMagic host dataSd).Leaves s
      (fun _ s' => Ready w₀ dataSd loc hole low (MemOps.alignUp offset 16 + Magic.size) s')
      (fun e _ => e = .badAlloc) := by
  have hsize : Magic.size = 144 := rfl
  have hle := StartupSbrk.le_alignUp offset
  have hlow := hbegun.low_le
  generalize hmagic : MemOps.alignUp offset 16 = magic at *
  have hplace : (placeMagic host 8 true (farPointer dataSd)).Leaves s
      (fun a s' => Ready w₀ dataSd loc hole low (magic + Magic.size) s' ∧ a = magic)
      (fun e _ => e = .badAlloc) := by
    unfold placeMagic
    have halign : (StartupSbrk.align host).Leaves s.sbrk
        (fun _ t => StartupSbrk.Growing loc hole low (MemOps.alignUp offset 16) t ∧ True)
        (fun e _ => e = .badAlloc) :=
      (StartupSbrk.align_growing hbegun (by omega)).mono (fun _ _ ht => ⟨ht, trivial⟩)
        (fun _ _ he => he)
    refine (ready_onSbrk h StartupSbrk.bounded_align halign).bind ?_
    rintro _ s₁ ⟨h₁, -⟩
    rw [hmagic] at h₁
    refine (ready_onSbrk h₁.toKept (StartupSbrk.bounded_alloc _)
      (StartupSbrk.alloc_growing h₁.growing (by omega))).bind ?_
    rintro _ s₂ ⟨h₂, hlast⟩
    have hptr : StartupSbrk.ptr.Leaves s₂.sbrk
        (fun a t => StartupSbrk.Growing loc hole low (magic + Magic.size) t ∧ a = magic)
        (fun e _ => e = .badAlloc) := by
      refine (StartupSbrk.ptr_growing h₂.growing (by omega) (by omega)).mono ?_ (fun _ _ he => he)
      rintro a t ⟨rfl, ha⟩
      exact ⟨h₂.growing, ha.trans hlast⟩
    refine (ready_onSbrk (Q := fun a _ => a = magic) h₂.toKept StartupSbrk.bounded_ptr hptr).bind ?_
    rintro a s₃ ⟨h₃, rfl⟩
    refine (ready_inSpace h₃ (createMagicPointer_throws h₃.inv (by decide) (by decide))).bind ?_
    rintro _ s₄ ⟨h₄, -⟩
    exact EStateM.leaves_pure ⟨h₄, rfl⟩
  unfold setupMagic
  refine hplace.bind ?_
  rintro a s₁ ⟨h₁, rfl⟩
  have hlength : ((List.range (Magic.size / 4)).flatMap fun k => leBytes 4 (0xDEADBE00 + k)).length =
      Magic.size := by
    simp [List.length_flatMap, length_leBytes, Magic.size]
  refine (ready_store h₁ (by omega) (by rw [hlength]; decide) (by rw [hlength])).bind ?_
  intro _ s₂ h₂
  refine (ready_store h₂ (by omega) (by rw [length_leBytes]; decide) (by rw [length_leBytes]; omega)).bind ?_
  intro _ s₃ h₃
  refine (ready_store h₃ (by omega) (by rw [length_leBytes]; decide) (by rw [length_leBytes]; omega)).bind ?_
  intro _ s₄ h₄
  exact ready_store h₄ (by omega) (by rw [length_leBytes]; decide) (by rw [length_leBytes]; omega)

end StartupInput

end Qine
