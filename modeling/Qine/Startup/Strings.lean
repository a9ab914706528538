import Qine.Segment.Shape
import Qine.Startup.Bounds
import Qine.Startup.Context

/-!
# The strings of the startup data

Strings are packed upwards behind the beginning of the heap, and the segment grows with them. In a segment
without holes there this fails for want of memory only, and every string is found later at the offset that
was remembered for it (`layoutStrings_leaves`).
-/

namespace Qine

/-! ## Laying out strings -/

namespace StartupSbrk

/-- The sizes of a segment that has a hole of the given size at its beginning. -/
def shapeOf (hole : Nat) (seg : Segment) : Shape :=
  ⟨seg.reserved, hole, seg.pagedSize, seg.limitSize⟩

theorem shapeOf_eq {shape : Shape} {seg : Segment} (h : shape.Of seg) : shapeOf shape.hole seg = shape := by
  unfold shapeOf
  rw [h.reserved, h.paged, h.limit]

/-- Startup data can be laid out from `low` on: the hole in the segment at `loc` is below. -/
structure Begun (loc hole low offset : Nat) (s : StartupSbrk) : Prop where
  shape : (shapeOf hole s.mapped.seg).Of s.mapped.seg
  location : s.mapped.seg.location = loc
  hole_le : hole ≤ low
  low_le : low ≤ offset
  offset_eq : s.offset = offset

/-- After the first `move_to`, the segment ends behind the offset. -/
structure Growing (loc hole low offset : Nat) (s : StartupSbrk) : Prop extends
    Begun loc hole low offset s where
  fits : offset ≤ s.mapped.seg.limitSize

variable {s : StartupSbrk} {host : Host} {loc hole low offset offset' size : Nat} {bytes : List Byte}

theorem Growing.limit_lt (h : Growing loc hole low offset s) : s.mapped.seg.limitSize ≤ 2 ^ 31 := by
  have h₁ := h.shape.paged_lt
  have h₂ := h.shape.inv.limit_le
  exact Nat.le_trans h₂ h₁

theorem Growing.checkBounds (h : Growing loc hole low offset s) (hhole : hole ≤ offset')
    (hpaged : offset' < s.mapped.seg.limitSize) (hend : offset' + size ≤ s.mapped.seg.limitSize) :
    s.mapped.seg.checkBounds offset' size = true := by
  have hlimit := h.limit_lt
  have hle := h.shape.inv.limit_le
  exact (h.shape.checkBounds (by omega) (by omega)).mpr
    ⟨Nat.lt_of_lt_of_le hpaged hle, Nat.le_trans hend hle, .inl hhole⟩

theorem moveTo_growing (h : Begun loc hole low offset s) (hlow : low ≤ offset')
    (hlt : offset' < 2 ^ 32) :
    (moveTo host offset').Leaves s
      (fun _ s' => Growing loc hole low offset' s' ∧ s'.lastOffset = s.lastOffset)
      (fun e _ => e = .badAlloc) := by
  unfold moveTo
  apply EStateM.leaves_modify_bind
  apply EStateM.leaves_get_bind
  dsimp only
  split
  · next hgrow =>
      apply EStateM.leaves_zoom
      refine (Shape.growBytes_leaves h.shape (Nat.lt_of_le_of_lt (Nat.sub_le _ _) hlt)).mono ?_
        (fun _ _ he => he)
      rintro _ m ⟨hm, -⟩
      have hlimit : m.seg.limitSize = offset' := by
        rw [hm.shape.limit]
        show s.mapped.seg.limitSize + (offset' - s.mapped.seg.limitSize) = offset'
        omega
      refine ⟨⟨⟨?_, hm.ext.location.trans h.location, h.hole_le, hlow, rfl⟩, Nat.le_of_eq hlimit.symm⟩,
        rfl⟩
      have hshape := hm.shape
      rw [← shapeOf_eq hshape] at hshape
      exact hshape
  · next hless =>
      exact EStateM.leaves_pure ⟨⟨⟨h.shape, h.location, h.hole_le, hlow, rfl⟩, Nat.le_of_not_lt hless⟩, rfl⟩

theorem align_growing (h : Begun loc hole low offset s) (hlt : MemOps.alignUp offset 16 < 2 ^ 32) :
    (align host).Leaves s (fun _ s' => Growing loc hole low (MemOps.alignUp offset 16) s')
      (fun e _ => e = .badAlloc) := by
  unfold align
  apply EStateM.leaves_get_bind
  rw [h.offset_eq, uint32_of_lt hlt]
  exact (moveTo_growing h (Nat.le_trans h.low_le (le_alignUp offset)) hlt).mono (fun _ _ hs => hs.1)
    (fun _ _ he => he)

theorem alloc_growing (h : Growing loc hole low offset s) (hlt : offset + size < 2 ^ 32) :
    (alloc host size).Leaves s
      (fun _ s' => Growing loc hole low (offset + size) s' ∧ s'.lastOffset = offset)
      (fun e _ => e = .badAlloc) := by
  unfold alloc
  apply EStateM.leaves_modify_bind
  apply EStateM.leaves_get_bind
  dsimp only
  rw [h.offset_eq, uint32_of_lt hlt]
  have h' : Begun loc hole low offset ⟨s.mapped, offset, offset⟩ :=
    ⟨h.shape, h.location, h.hole_le, h.low_le, rfl⟩
  exact moveTo_growing h' (Nat.le_trans h.low_le (Nat.le_add_right _ _)) hlt

/-- `ptr` leads to what was allocated last. -/
theorem ptr_growing (h : Growing loc hole low offset s) (hlow : low ≤ s.lastOffset)
    (hlt : s.lastOffset < offset) : ptr.Leaves s (fun o s' => s' = s ∧ o = s.lastOffset)
      (fun e _ => e = .badAlloc) := by
  unfold ptr
  apply EStateM.leaves_get_bind
  have hfits := h.fits
  rw [if_pos (h.checkBounds (Nat.le_trans h.hole_le hlow) (by omega) (by omega))]
  exact EStateM.leaves_pure ⟨rfl, rfl⟩

theorem Growing.written (h : Growing loc hole low offset s) (o : Nat) (bytes : List Byte) :
    Growing loc hole low offset (s.written o bytes) :=
  ⟨⟨h.shape, h.location, h.hole_le, h.low_le, h.offset_eq⟩, h.fits⟩

theorem store_growing {o : Nat} (h : Growing loc hole low offset s) (hlow : low ≤ o) (hlt : o < offset)
    (hend : o + bytes.length ≤ offset) :
    (store o bytes).Leaves s (fun _ s' => s' = s.written o bytes) (fun e _ => e = .badAlloc) := by
  unfold store
  apply EStateM.leaves_get_bind
  have hfits := h.fits
  rw [if_pos (h.checkBounds (Nat.le_trans h.hole_le hlow) (by omega) (by omega))]
  exact EStateM.leaves_set rfl

theorem pushString_growing {str : CString} (h : Growing loc hole low offset s)
    (hlt : offset + (str.length + 1) < 2 ^ 32) :
    (pushString host str).Leaves s
      (fun _ s' => Growing loc hole low (offset + (str.length + 1)) s' ∧ s'.lastOffset = offset)
      (fun e _ => e = .badAlloc) := by
  unfold pushString
  refine (alloc_growing h hlt).bind ?_
  rintro _ s₁ ⟨h₁, hlast⟩
  have hlow := h.low_le
  refine (ptr_growing h₁ (hlast ▸ hlow) (by omega)).bind ?_
  rintro o s₂ ⟨rfl, rfl⟩
  refine (store_growing h₁ (hlast ▸ hlow) (by omega) ?_).mono ?_ (fun _ _ he => he)
  · rw [List.length_append, List.length_singleton, hlast]
  · rintro _ _ rfl
    exact ⟨h₁.written _ _, hlast⟩

/-- The offsets that are remembered are those of strings laid out without gaps. -/
theorem pushStrings_growing (strs : List CString) (h : Growing loc hole low offset s)
    (hlt : offset + packedSize strs < 2 ^ 32) :
    (pushStrings host strs).Leaves s
      (fun offsets s' => Growing loc hole low (offset + packedSize strs) s' ∧
        offsets = Terminated.offsets offset strs)
      (fun e _ => e = .badAlloc) := by
  induction strs generalizing s offset with
  | nil => exact EStateM.leaves_pure ⟨h, rfl⟩
  | cons str strs ih =>
      have hsize : packedSize (str :: strs) = str.length + 1 + packedSize strs := rfl
      rw [hsize] at hlt ⊢
      unfold pushStrings
      refine (pushString_growing h (by omega)).bind ?_
      rintro _ s₁ ⟨h₁, hlast⟩
      apply EStateM.leaves_get_bind
      dsimp only
      rw [hlast]
      refine (ih h₁ (by omega)).bind ?_
      rintro offsets s₂ ⟨h₂, rfl⟩
      have hsum : offset + (str.length + 1 + packedSize strs) =
          offset + (str.length + 1) + packedSize strs := by omega
      rw [hsum]
      exact EStateM.leaves_pure ⟨h₂, rfl⟩

theorem length_pack (strs : List CString) : (Terminated.pack 0 strs).length = packedSize strs := by
  induction strs with
  | nil => rfl
  | cons str strs ih =>
      rw [Terminated.pack_cons, List.length_append, List.length_cons, ih]
      show _ = str.length + 1 + packedSize strs
      omega

/-- There is a terminated copy of the string at offset `o`. -/
def HasString (mem : Mem) (base o : Nat) (str : CString) : Prop :=
  mem.read (base + o) (str.length + 1) = str ++ [0]

/-- Strings laid out without gaps are found at their offsets. -/
theorem forall₂_hasString {mem : Mem} {base o : Nat} {strs : List CString}
    (h : mem.read (base + o) (packedSize strs) = Terminated.pack 0 strs) :
    List.Forall₂ (fun ptr str => (o ≤ ptr ∧ ptr + str.length < o + packedSize strs) ∧
      HasString mem base ptr str) (Terminated.offsets o strs) strs := by
  induction strs generalizing o with
  | nil => exact .nil
  | cons str strs ih =>
      have hsize : packedSize (str :: strs) = str.length + 1 + packedSize strs := rfl
      have hpack : Terminated.pack 0 (str :: strs) = (str ++ [0]) ++ Terminated.pack 0 strs := by simp
      rw [hsize, Memory.read_add, hpack] at h
      obtain ⟨hfirst, hrest⟩ := List.append_inj h (by simp)
      refine .cons ⟨by omega, hfirst⟩ ?_
      have hih := @ih (o + str.length + 1) (by rwa [Nat.add_assoc o, ← Nat.add_assoc base])
      exact hih.imp fun ptr _ hptr => ⟨by omega, hptr.2⟩

end StartupSbrk

section

open StartupSbrk

variable {s s' : StartupSbrk} {host : Host} {loc hole low offset : Nat} {l : Launch} {path : CString}
  {args : List CString} {r : Strings}

/-- A run of `layoutStrings` is one of `layoutSpawn`. -/
theorem layoutSpawn_of_layoutStrings (hpath : l.path = .ok path) (hargs : l.arguments = .ok args)
    (hrun : (l.layoutStrings host).run s = .ok r s') :
    ∃ last, (layoutSpawn host path args l.environment).run s = .ok (r.spawn, last) s' := by
  have hmap := congrArg (EStateM.run · s) (@layoutStrings_eq host l path args hpath hargs)
  have hspawn : ((·.spawn) <$> l.layoutStrings host).run s = .ok r.spawn s' := by
    rw [map_eq_pure_bind, EStateM.run_bind_of_ok hrun]
    rfl
  rw [hspawn, map_eq_pure_bind] at hmap
  obtain ⟨⟨spawn, last⟩, s₁, hlaid, hpure⟩ := EStateM.bind_ok.mp hmap.symm
  obtain ⟨hfst, rfl⟩ := EStateM.pure_ok.mp hpure
  dsimp only at hfst
  exact ⟨last, hfst ▸ hlaid⟩

theorem bounded_layoutStrings (hpath : l.path = .ok path) (hargs : l.arguments = .ok args) :
    Bounded (l.layoutStrings host) (spawnEnd path args l.environment) := by
  have hbounded := @bounded_layoutSpawn host path args l.environment
  refine ⟨hbounded.le, ?_⟩
  intro s b hinv hb
  refine ⟨?_, fun _ => trivial⟩
  intro r s' hrun
  obtain ⟨last, hlaid⟩ := layoutSpawn_of_layoutStrings hpath hargs hrun
  exact (hbounded.leaves s b hinv hb).of_ok hlaid

/-- The strings end up in memory behind the header of the spawn message. -/
theorem layoutStrings_read (hinv : Segment.RepInv s.mapped.seg) (hpath : l.path = .ok path)
    (hargs : l.arguments = .ok args) (hrun : (l.layoutStrings host).run s = .ok r s') :
    let base := s'.mapped.seg.location + r.spawn + SpawnMsg.size + (path.length + 1)
    s'.mapped.mem.read base (packedSize args) = Terminated.pack 0 args ∧
      s'.mapped.mem.read (base + packedSize args + 1) (packedSize l.environment) =
        Terminated.pack 0 l.environment := by
  obtain ⟨last, hlaid⟩ := layoutSpawn_of_layoutStrings hpath hargs hrun
  obtain ⟨header, hheader, hread⟩ := (layoutSpawn_leaves hinv).of_ok hlaid
  have hsize := congrArg List.length hread
  rw [Memory.length_read] at hsize
  rw [hsize] at hread
  generalize hfront : header ++ (leBytes 2 args.length ++ leBytes 2 l.environment.length ++
    (path ++ [0])) = front
  have hlength : front.length = SpawnMsg.size + (path.length + 1) := by
    rw [← hfront]
    simp only [List.length_append, length_leBytes, hheader, List.length_singleton, SpawnMsg.argc,
      SpawnMsg.size]
    omega
  have hsplit : header ++ (leBytes 2 args.length ++ leBytes 2 l.environment.length ++
      Terminated.pack 0 (path :: (args ++ [] :: (l.environment ++ [[]])))) =
        front ++ (Terminated.pack 0 args ++ ([0] ++ (Terminated.pack 0 l.environment ++ [0]))) := by
    rw [← hfront]
    simp
  rw [hsplit] at hread
  have hargs' := Memory.read_of_read_append hread
  rw [← List.append_assoc, ← List.append_assoc] at hread
  have henvs := Memory.read_of_read_append hread
  rw [length_pack, hlength] at hargs'
  rw [length_pack, List.length_append, List.length_append, length_pack, hlength, List.length_singleton]
    at henvs
  dsimp only
  simp only [Nat.add_assoc] at hargs' henvs ⊢
  exact ⟨hargs', henvs⟩

/-- All offsets are known beforehand, and nothing but memory can be missing. -/
theorem layoutStrings_growing (h : Growing loc hole low offset s) (hpath : l.path = .ok path)
    (hargs : l.arguments = .ok args) (hend : spawnEnd path args l.environment offset < 2 ^ 32) :
    (l.layoutStrings host).Leaves s
      (fun r s' => Growing loc hole low (spawnEnd path args l.environment offset) s' ∧
        r.spawn = MemOps.alignUp offset 16 ∧
        r.argvOffsets = Terminated.offsets (r.spawn + SpawnMsg.size + (path.length + 1)) args ∧
        r.envpOffsets = Terminated.offsets
          (r.spawn + SpawnMsg.size + (path.length + 1) + packedSize args + 1) l.environment)
      (fun e _ => e = .badAlloc) := by
  have hlow := h.low_le
  have hle₁ := le_alignUp offset
  have hle₂ := le_alignUp (MemOps.alignUp offset 16 + SpawnMsg.size + (path.length + 1) +
    packedSize args + 1 + packedSize l.environment + 1)
  unfold spawnEnd at hend ⊢
  unfold Launch.layoutStrings
  generalize hspawn : MemOps.alignUp offset 16 = spawn at *
  have hsize : SpawnMsg.size = 24 := rfl
  refine (align_growing h.toBegun (by omega)).bind ?_
  intro _ s₁ h₁
  rw [hspawn] at h₁
  refine (alloc_growing h₁ (by omega)).bind ?_
  rintro _ s₂ ⟨h₂, hlast⟩
  refine (ptr_growing h₂ (by omega) (by omega)).bind ?_
  rintro o s₂ ⟨rfl, rfl⟩
  rw [hlast]
  refine (store_growing h₂ (by omega) (by omega) (by rw [length_leBytes]; omega)).bind ?_
  rintro _ _ rfl
  rw [EStateM.ofExcept_bind_of_ok hpath, EStateM.ofExcept_bind_of_ok hargs]
  refine (pushString_growing (h₂.written _ _) (by omega)).bind ?_
  rintro _ s₃ ⟨h₃, -⟩
  refine (pushStrings_growing args h₃ (by omega)).bind ?_
  rintro argvOffsets s₄ ⟨h₄, rfl⟩
  refine (pushString_growing h₄ (by simp only [List.length_nil]; omega)).bind ?_
  rintro _ s₅ ⟨h₅, -⟩
  simp only [List.length_nil, Nat.zero_add] at h₅
  refine (pushStrings_growing l.environment h₅ (by omega)).bind ?_
  rintro envpOffsets s₆ ⟨h₆, rfl⟩
  refine (pushString_growing h₆ (by simp only [List.length_nil]; omega)).bind ?_
  rintro _ s₇ ⟨h₇, -⟩
  simp only [List.length_nil, Nat.zero_add] at h₇
  refine (store_growing h₇ (by omega) (by simp only [SpawnMsg.argc]; omega) ?_).bind ?_
  · rw [length_leBytes, SpawnMsg.argc]
    omega
  rintro _ _ rfl
  refine (store_growing (h₇.written _ _) (by omega) (by simp only [SpawnMsg.envc]; omega) ?_).bind ?_
  · rw [length_leBytes, SpawnMsg.envc]
    omega
  rintro _ _ rfl
  refine (align_growing ((h₇.written _ _).written _ _).toBegun hend).bind ?_
  intro _ s₈ h₈
  exact EStateM.leaves_pure ⟨h₈, rfl, rfl, rfl⟩

/-- The strings of the spawn message are found at the offsets that are remembered for them. -/
theorem layoutStrings_leaves (h : Growing loc hole low offset s) (hpath : l.path = .ok path)
    (hargs : l.arguments = .ok args) (hend : spawnEnd path args l.environment offset < 2 ^ 32) :
    (l.layoutStrings host).Leaves s
      (fun r s' => Growing loc hole low (spawnEnd path args l.environment offset) s' ∧
        List.Forall₂ (fun ptr str =>
          (low ≤ ptr ∧ ptr + str.length < spawnEnd path args l.environment offset) ∧
            HasString s'.mapped.mem loc ptr str) r.argvOffsets args ∧
        List.Forall₂ (fun ptr str =>
          (low ≤ ptr ∧ ptr + str.length < spawnEnd path args l.environment offset) ∧
            HasString s'.mapped.mem loc ptr str) r.envpOffsets l.environment)
      (fun e _ => e = .badAlloc) := by
  have hlow := h.low_le
  have hle₁ := le_alignUp offset
  have hle₂ := le_alignUp (MemOps.alignUp offset 16 + SpawnMsg.size + (path.length + 1) +
    packedSize args + 1 + packedSize l.environment + 1)
  have hspawnEnd : spawnEnd path args l.environment offset = MemOps.alignUp (MemOps.alignUp offset 16 +
    SpawnMsg.size + (path.length + 1) + packedSize args + 1 + packedSize l.environment + 1) 16 := rfl
  refine ⟨?_, (layoutStrings_growing h hpath hargs hend).of_error⟩
  intro r s' hrun
  obtain ⟨hgrowing, hspawn, hargv, henvp⟩ := (layoutStrings_growing h hpath hargs hend).of_ok hrun
  obtain ⟨hreadArgs, hreadEnvs⟩ := layoutStrings_read h.shape.inv hpath hargs hrun
  rw [hgrowing.location] at hreadArgs hreadEnvs
  simp only [Nat.add_assoc] at hreadArgs hreadEnvs hargv henvp
  rw [hargv, henvp]
  refine ⟨hgrowing, ?_, ?_⟩
  · exact (forall₂_hasString hreadArgs).imp fun ptr _ hptr => ⟨by omega, hptr.2⟩
  · exact (forall₂_hasString hreadEnvs).imp fun ptr _ hptr => ⟨by omega, hptr.2⟩

end

end Qine
