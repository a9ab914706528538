import Mathlib.Order.CompletePartialOrder
import Qine.Loader.Load

/-!
# The stack a program starts on

`loader_load` says where the stack is and where the heap begins; `setup_startup_context` takes the end of
the stack for the first stack pointer, and puts the startup data behind the beginning of the heap, but into
the segment of the stack.

The flat loader keeps all of this apart. The segmented one grows the stack's segment to 64K at most and
still reports the size that the header asks for: `loaderLoad_stack_iff` says for which files the stack is
where it should be.
-/

namespace Qine

namespace Lmf

variable {f : Lmf} {slib : Bool} {w₀ w : Space} {info : LoadInfo}

/-! ## Parts of the new segments -/

/-- The bytes from `start` on in the new segment `k`, each with the number of its segment. -/
def extent (k start size : Nat) : Set (Nat × Nat) := { p | p.1 = k ∧ start ≤ p.2 ∧ p.2 < start + size }

/-- All that is at `start` or above it in the new segment `k`. -/
def upwards (k start : Nat) : Set (Nat × Nat) := { p | p.1 = k ∧ start ≤ p.2 }

/-- The image of a loader segment. -/
def image (f : Lmf) (i : Nat) : Set (Nat × Nat) :=
  if f.hdr.isFlat then { p | ∃ seg, f.flat.segments[i]? = some seg ∧ p ∈ extent 0 seg.start seg.size }
  else { p | ∃ e, f.entries[i]? = some e ∧ p ∈ extent i 0 e.size.toNat }

/-- The new segment for the stack. -/
def stackSegment (f : Lmf) : Nat := f.segmentOf f.hdr.stackIndex.toNat

/-- The new segment for the heap. -/
def heapSegment (f : Lmf) : Nat := f.segmentOf f.hdr.heapIndex.toNat

/-- The stack the program is told about. -/
def stackBytes (f : Lmf) (info : LoadInfo) : Set (Nat × Nat) :=
  extent f.stackSegment info.stackLow info.stackSize

/-- The stack lies in its segment, and apart from the image and from a heap in the same segment. -/
structure StackApart (f : Lmf) (w₀ : Space) (info : LoadInfo) (w : Space) : Prop where
  inside : info.stackLow + info.stackSize ≤ (w.segments (w₀.count + f.stackSegment)).limitSize
  image : ∀ i, Disjoint (f.stackBytes info) (f.image i)
  heap : f.heapSegment = f.stackSegment →
    Disjoint (f.stackBytes info) (upwards f.heapSegment info.heapStart)

/-- The stack lies apart from the startup data. -/
def StartupApart (f : Lmf) (info : LoadInfo) : Prop :=
  Disjoint (f.stackBytes info) (upwards f.stackSegment info.heapStart)

/-- The segment of the stack can grow by what the header asks for. -/
def StackFits (f : Lmf) : Prop :=
  f.hdr.isFlat ∨ f.hdr.stackNbytes.toNat = 0 ∨ ∃ e ∈ f.entries[f.hdr.stackIndex.toNat]?,
    e.size.toNat + f.hdr.stackNbytes.toNat ≤ MemOps.kilo 64

instance (f : Lmf) : Decidable f.StackFits := inferInstanceAs (Decidable (_ ∨ _ ∨ _))

/-- The heap begins behind the stack, be it in the same segment or not. -/
def HeapBehind (f : Lmf) : Prop :=
  f.hdr.isFlat ∨ f.hdr.stackNbytes.toNat = 0 ∨ f.hdr.heapIndex = f.hdr.stackIndex ∨
    ∃ e ∈ f.entries[f.hdr.stackIndex.toNat]?, ∃ t ∈ f.entries[f.hdr.heapIndex.toNat]?,
      e.size.toNat + f.hdr.stackNbytes.toNat ≤ t.size.toNat

instance (f : Lmf) : Decidable f.HeapBehind := inferInstanceAs (Decidable (_ ∨ _ ∨ _ ∨ _))

theorem disjoint_upwards {k start size heap : Nat} :
    Disjoint (extent k start size) (upwards k heap) ↔ size = 0 ∨ start + size ≤ heap := by
  rw [Set.disjoint_left]
  constructor
  · intro h
    by_contra hnot
    have hlast := @h (k, start + size - 1) ⟨rfl, by dsimp only; omega, by dsimp only; omega⟩
    exact hlast ⟨rfl, by dsimp only; omega⟩
  · rintro h ⟨k', o⟩ ⟨-, h₁, h₂⟩ ⟨-, h₃⟩
    dsimp only at h₁ h₂ h₃
    omega

/-! ## The flat layout -/

theorem mem_foldl_allocSegment {l : FlatLoader} {es : List SegEntry} {seg : FlatSegment}
    (h : seg ∈ l.segments) : seg ∈ (es.foldl FlatLoader.allocSegment l).segments := by
  induction es generalizing l with
  | nil => exact h
  | cons e es ih => exact ih (List.mem_append_left _ h)

/-- As long as no sum wraps around, the loader segments come one after the other. -/
theorem foldl_start_le {l : FlatLoader} {es : List SegEntry} {base : Nat} (hpos : base ≤ l.segmentPos)
    (hall : ∀ seg ∈ (es.foldl FlatLoader.allocSegment l).segments, seg.start + seg.size < 2 ^ 32)
    (h : ∀ seg ∈ l.segments, base ≤ seg.start) :
    ∀ seg ∈ (es.foldl FlatLoader.allocSegment l).segments, base ≤ seg.start := by
  induction es generalizing l with
  | nil => exact h
  | cons e es ih =>
      rw [List.foldl_cons] at hall ⊢
      refine ih ?_ hall ?_
      · have hle : MemOps.alignPageUp e.size.toNat ≤ 2 ^ 28 :=
          MemOps.alignPageUp_le (by decide) (Nat.le_of_lt e.size.isLt)
        have hlast := hall _ (mem_foldl_allocSegment (List.mem_append_right _ (List.mem_singleton_self _)))
        dsimp only at hlast
        rw [uint32_of_lt (by omega)] at hlast
        show base ≤ uint32 (l.segmentPos + MemOps.alignPageUp e.size.toNat)
        rw [uint32_of_lt hlast]
        omega
      · intro seg hseg
        rcases List.mem_append.mp hseg with hseg | hseg
        · exact h seg hseg
        · rw [List.mem_singleton.mp hseg]
          exact hpos

theorem flatShape_paged (f : Lmf) : f.flatShape.paged = f.heapStart + f.hdr.heapNbytes.toNat := by
  show 0 + f.skip + f.stack + f.imageSize + _ = _
  rw [Nat.zero_add]
  rfl

theorem imageBase_eq (h : f.FlatFits) : f.imageBase = f.skip + f.stack := by
  obtain ⟨hbelow, -, -, hfits⟩ := h
  have hstack : f.stack ≤ MemOps.mega 512 := by
    unfold heapStart at hfits
    omega
  have hbase : f.imageBase < 2 ^ 32 := uint32_lt _
  have hmega : MemOps.mega 512 = 2 ^ 29 := by decide
  have hpage : MemOps.pageSize = 2 ^ 12 := by decide
  rw [uint32_of_lt (by omega)] at hbelow
  have hskip : f.skip = (f.imageBase + (2 ^ 32 - f.stack)) % 2 ^ 32 := rfl
  omega

theorem start_le (hfits : f.FlatFits) (hheap : f.HeapFits) (hflat : f.hdr.isFlat)
    (hinside : ¬ f.ProtectionFaults) : ∀ seg ∈ f.flat.segments, f.skip + f.stack ≤ seg.start := by
  rw [← imageBase_eq hfits]
  refine foldl_start_le (Nat.le_refl _) ?_ nofun
  intro seg hseg
  have hin : f.flatShape.Fits seg.start (MemOps.alignPageUp seg.size) := by
    by_contra hnot
    exact hinside ⟨hflat, seg, hseg, hnot⟩
  have hle := hin.2.1
  have hmega : MemOps.mega 512 = 2 ^ 29 := by decide
  rw [flatShape_paged, (flatWf hseg).size_aligned] at hle
  have hheap' := hheap.2
  omega

/-! ## The segmented layout -/

/-- What `grow_bytes_64capped` makes of the size of a segment. -/
def capped (limit size : Nat) : Nat := max limit (min (limit + size) (MemOps.kilo 64))

/-- What the segmented loader says, and how large the stack's segment is in the end. -/
theorem Informs.segmented (h : f.Informs slib info) (hflat : ¬ f.hdr.isFlat = true) : ∃ e t u,
    f.entries[f.hdr.stackIndex.toNat]? = some e ∧ f.entries[f.hdr.heapIndex.toNat]? = some t ∧
    info.stackLow = e.size.toNat ∧ info.stackSize = f.hdr.stackNbytes.toNat ∧
    (f.shapes slib)[f.hdr.stackIndex.toNat]? = some u ∧
    (f.hdr.heapIndex = f.hdr.stackIndex ∧ info.heapStart = capped e.size.toNat f.hdr.stackNbytes.toNat ∧
        u.limit = capped info.heapStart f.hdr.heapNbytes.toNat ∨
      f.hdr.heapIndex ≠ f.hdr.stackIndex ∧ info.heapStart = t.size.toNat ∧
        u.limit = capped e.size.toNat f.hdr.stackNbytes.toNat) := by
  rw [Informs, if_neg hflat] at h
  obtain ⟨s, u, hs, hu, hlow, hsize, hheap⟩ := h
  rw [List.getElem?_map, Option.map_eq_some_iff] at hs
  obtain ⟨e, he, rfl⟩ := hs
  have hlimit : ∀ e : SegEntry, (f.entryShape slib e).limit = e.size.toNat := by
    intro e
    exact Nat.zero_add _
  rw [hlimit] at hlow
  rw [shapes, if_neg hflat]
  simp only [List.getElem?_modify, List.getElem?_map, Option.map_eq_map] at hu ⊢
  by_cases hsame : f.hdr.heapIndex = f.hdr.stackIndex
  · simp only [hsame, he, if_pos, Option.map_some, Option.some.injEq] at hu ⊢
    subst hu
    refine ⟨e, e, _, rfl, rfl, hlow, hsize, rfl, .inl ⟨trivial, ?_, ?_⟩⟩
    · rw [hheap, ← hlimit]
      rfl
    · rw [hheap]
      rfl
  · have hne : f.hdr.stackIndex.toNat ≠ f.hdr.heapIndex.toNat := fun heq =>
      hsame (BitVec.eq_of_toNat_eq heq.symm)
    simp only [hne, hne.symm, he, if_pos, if_neg, not_false_eq_true, Option.map_some, Option.map_id_fun',
      Option.map_eq_some_iff, id_eq] at hu ⊢
    obtain ⟨t, ht, rfl⟩ := hu
    refine ⟨e, _, _, rfl, ht, hlow, hsize, rfl, .inr ⟨hsame, ?_, ?_⟩⟩
    · rw [hheap, ← hlimit]
    · rw [← hlimit]
      rfl

/-! ## Both -/

theorem disjoint_image (hflat : ¬ f.hdr.isFlat = true) {e : SegEntry}
    (he : f.entries[f.hdr.stackIndex.toNat]? = some e) {size : Nat} (i : Nat) :
    Disjoint (extent f.hdr.stackIndex.toNat e.size.toNat size) (f.image i) := by
  rw [image, if_neg hflat, Set.disjoint_left]
  rintro ⟨k, o⟩ ⟨rfl, h₁, -⟩ ⟨e', he', rfl, -, h₂⟩
  cases he.symm.trans he'
  dsimp only at h₁ h₂
  omega

theorem stackApart_flat (hflat : f.hdr.isFlat = true) (hfits : f.FlatFits) (hheap : f.HeapFits)
    (hinside : ¬ f.ProtectionFaults) (hinforms : f.Informs slib info)
    (hshape : f.flatShape.Of (w.segments w₀.count)) :
    f.StackApart w₀ info w ∧ f.StartupApart info := by
  rw [Informs, if_pos hflat] at hinforms
  obtain ⟨hlow, hsize, hstart⟩ := hinforms
  have hzero : ∀ i, f.segmentOf i = 0 := fun i => by rw [segmentOf, if_pos hflat]
  have hupwards : Disjoint (extent 0 f.skip f.stack) (upwards 0 f.heapStart) :=
    disjoint_upwards.mpr (.inr (Nat.le_add_right _ _))
  have hlimit : (w.segments w₀.count).limitSize = f.heapStart + f.hdr.heapNbytes.toNat := by
    rw [hshape.limit, ← flatShape_paged]
    rfl
  refine ⟨⟨?_, ?_, ?_⟩, ?_⟩
  · rw [stackSegment, hzero, Nat.add_zero, hlimit, hlow, hsize, heapStart]
    omega
  · intro i
    rw [stackBytes, stackSegment, hzero, hlow, hsize, image, if_pos hflat, Set.disjoint_left]
    rintro ⟨k, o⟩ ⟨rfl, -, h₁⟩ ⟨seg, hseg, -, h₂, -⟩
    have hle := start_le hfits hheap hflat hinside seg (List.mem_of_getElem? hseg)
    dsimp only at h₁ h₂
    omega
  · intro _
    rw [stackBytes, stackSegment, heapSegment, hzero, hzero, hlow, hsize, hstart]
    exact hupwards
  · rw [StartupApart, stackBytes, stackSegment, hzero, hlow, hsize, hstart]
    exact hupwards

theorem stackApart_segmented (hflat : ¬ f.hdr.isFlat = true) (hinforms : f.Informs slib info)
    (hshape : ∀ {k : Nat} {s : Shape}, (f.shapes slib)[k]? = some s → s.Of (w.segments (w₀.count + k))) :
    (f.StackApart w₀ info w ↔ f.StackFits) ∧
      (f.StackApart w₀ info w ∧ f.StartupApart info ↔ f.StackFits ∧ f.HeapBehind) := by
  obtain ⟨e, t, u, he, ht, hlow, hsize, hu, hheap⟩ := hinforms.segmented hflat
  have hid : ∀ i, f.segmentOf i = i := fun i => by rw [segmentOf, if_neg hflat]
  have hlimit := (hshape hu).limit
  have hkilo : MemOps.kilo 64 = 65536 := by decide
  have hfits : f.StackFits ↔ f.hdr.stackNbytes.toNat = 0 ∨
      e.size.toNat + f.hdr.stackNbytes.toNat ≤ 65536 := by
    simp [StackFits, hflat, he, hkilo]
  have hbehind : f.HeapBehind ↔ f.hdr.stackNbytes.toNat = 0 ∨ f.hdr.heapIndex = f.hdr.stackIndex ∨
      e.size.toNat + f.hdr.stackNbytes.toNat ≤ t.size.toNat := by
    simp [HeapBehind, hflat, he, ht]
  have hinside : info.stackLow + info.stackSize ≤
      (w.segments (w₀.count + f.stackSegment)).limitSize ↔ f.StackFits := by
    rw [hfits, stackSegment, hid, hlimit, hlow, hsize]
    unfold capped at hheap
    omega
  have hstartup : f.StackFits → (f.StartupApart info ↔ f.HeapBehind) := by
    intro h
    rw [hfits] at h
    rw [hbehind, StartupApart, stackBytes, disjoint_upwards, hlow, hsize]
    unfold capped at hheap
    rw [hkilo] at hheap
    by_cases hsame : f.hdr.heapIndex = f.hdr.stackIndex
    · simp only [hsame, ne_eq, not_true_eq_false, false_and, or_false, true_and, true_or, or_true,
        iff_true] at hheap ⊢
      omega
    · simp only [hsame, ne_eq, not_false_eq_true, false_and, false_or, true_and] at hheap ⊢
      rw [hheap.1]
  have happart : f.StackApart w₀ info w ↔ f.StackFits := by
    refine ⟨fun h => hinside.mp h.inside, fun h => ⟨hinside.mpr h, ?_, ?_⟩⟩
    · rw [stackBytes, stackSegment, hid, hlow]
      exact disjoint_image hflat he
    · intro hsame
      rw [heapSegment, stackSegment, hid, hid] at hsame
      rw [heapSegment, hsame]
      exact (hstartup h).mpr (hbehind.mpr (.inr (.inl (BitVec.eq_of_toNat_eq hsame))))
  refine ⟨happart, ?_⟩
  rw [happart]
  exact and_congr_right hstartup

theorem stackApart_of_load {host : Host} {info' : LoadInfo} (hinv : w₀.Inv)
    (hload : (f.load host slib info).run w₀ = .ok info' w) :
    (f.StackApart w₀ info' w ↔ f.StackFits) ∧
      (f.StackApart w₀ info' w ∧ f.StartupApart info' ↔ f.StackFits ∧ f.HeapBehind) := by
  obtain ⟨-, r, w₁, ids, img', hlaid, hpublished⟩ := (load_leaves hinv).of_ok hload
  have hinforms : f.Informs slib info' := by
    have h := hlaid.informs
    unfold Informs at h ⊢
    rwa [hpublished.stackLow, hpublished.stackSize, hpublished.heapStart]
  by_cases hflat : f.hdr.isFlat = true
  · obtain ⟨hfits, hheap, -⟩ := hlaid.fits hflat
    have hflatShape : f.flatShape.Of (w.segments w₀.count) := by
      refine hpublished.loaded.shape (k := 0) ?_
      rw [shapes, if_pos hflat]
      rfl
    have happart := stackApart_flat hflat hfits hheap hpublished.inside hinforms hflatShape
    exact ⟨iff_of_true happart.1 (.inl hflat), iff_of_true happart ⟨.inl hflat, .inl hflat⟩⟩
  · exact stackApart_segmented hflat hinforms hpublished.loaded.shape

end Lmf

/-- The stack of a loaded program lies in its segment and apart from the image and the heap just if the
header asks for no more than the segment can grow by; and it lies apart from the startup data as well just
if the heap begins behind it. -/
theorem loaderLoad_stack_iff {host : Host} {slib : Bool} {info info' : LoadInfo} {s s' : Loading}
    (hinv : s.space.Inv) (hrun : (loaderLoad host slib info).run s = .ok info' s') :
    ∃ f, Lmf.parse s.file = .ok f ∧ (f.StackApart s.space info' s'.space ↔ f.StackFits) ∧
      (f.StackApart s.space info' s'.space ∧ f.StartupApart info' ↔ f.StackFits ∧ f.HeapBehind) := by
  obtain ⟨f, hparse, hload⟩ := Lmf.load_of_loaderLoad hrun
  exact ⟨f, hparse, Lmf.stackApart_of_load hinv hload⟩

/-- A segmented executable of one loader segment with 16 bytes. -/
def segmentedFile (stackNbytes : Nat) : List Byte :=
  headerBytes 1 0x02 0 0 0 stackNbytes 0x1000 0 ++ leBytes 4 16 ++ recordBytes LmfRecord.imageEnd []

theorem loaderLoad_stack_small : ∃ info' s' f,
    (loaderLoad Host.roomy false .init).run ⟨Space.fresh, segmentedFile 0x1000⟩ = .ok info' s' ∧
      Lmf.parse (segmentedFile 0x1000) = .ok f ∧ f.StackApart Space.fresh info' s'.space ∧
      f.StartupApart info' := by
  have hrun := EStateM.run_of_run' (show (loaderLoad Host.roomy false .init).run'
    ⟨Space.fresh, segmentedFile 0x1000⟩ = some ⟨.b32, 0, 7, 7, 7, 0x1010, 16, 0x1000⟩ by decide +kernel)
  obtain ⟨f, hparse, -, hiff⟩ := loaderLoad_stack_iff Space.fresh_inv hrun
  have hfits : decide (f.StackFits ∧ f.HeapBehind) = true :=
    Lmf.eq_of_parse (g := fun f => decide (f.StackFits ∧ f.HeapBehind)) hparse (by decide +kernel)
  exact ⟨_, _, f, hrun, hparse, hiff.mpr (of_decide_eq_true hfits)⟩

/-- A stack of 128K, in a segment that is not made larger than 64K. -/
theorem loaderLoad_stack_outside : ∃ info' s' f,
    (loaderLoad Host.roomy false .init).run ⟨Space.fresh, segmentedFile 0x20000⟩ = .ok info' s' ∧
      Lmf.parse (segmentedFile 0x20000) = .ok f ∧ ¬ f.StackApart Space.fresh info' s'.space := by
  have hrun := EStateM.run_of_run' (show (loaderLoad Host.roomy false .init).run'
    ⟨Space.fresh, segmentedFile 0x20000⟩ = some ⟨.b32, 0, 7, 7, 7, 0x10000, 16, 0x20000⟩ by decide +kernel)
  obtain ⟨f, hparse, hload⟩ := Lmf.load_of_loaderLoad hrun
  have hfits : decide f.StackFits = false :=
    Lmf.eq_of_parse (g := fun f => decide f.StackFits) hparse (by decide +kernel)
  refine ⟨_, _, f, hrun, hparse, ?_⟩
  rw [(Lmf.stackApart_of_load Space.fresh_inv hload).1]
  exact of_decide_eq_false hfits

end Qine
