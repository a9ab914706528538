import Qine.Loader.Load

/-!
# Files that are not what they should be

The loader throws an exception if it does not like a file, but it does not look at everything it relies
on. `Lmf.LoadFaults` says for which files an assertion fails or memory is accessed that is not there.

`loaderLoad_safe_iff` says that these are exactly the ones: with any other file the loader ends well or
throws, whatever the host and the process are like, and for each of these there is a process, and a host
with enough memory, where it goes wrong.
-/

namespace Qine

/-! ## Going wrong -/

/-- The computation ends in a fault. -/
def Faults {σ α : Type} (x : EStateM HostError σ α) (s : σ) : Prop :=
  ∃ flt s', x.run s = .error (.fault flt) s'

section

variable {σ α β : Type} {x : EStateM HostError σ α} {f : α → EStateM HostError σ β} {s s₁ : σ} {a : α}

theorem Faults.bind (h : Faults x s) : Faults (x >>= f) s := by
  obtain ⟨flt, s', hrun⟩ := h
  exact ⟨flt, s', by rw [EStateM.run_bind, hrun]⟩

theorem faults_bind_of_ok (h : x.run s = .ok a s₁) (hf : Faults (f a) s₁) : Faults (x >>= f) s := by
  unfold Faults
  rw [EStateM.run_bind_of_ok h]
  exact hf

theorem faults_get_bind {f : σ → EStateM HostError σ β} (h : Faults (f s) s) : Faults (get >>= f) s := h

/-- What cannot return and throws nothing but faults, faults. -/
theorem faults_of_leaves (h : x.Leaves s (fun _ _ => False) (fun e _ => ∃ flt, e = .fault flt)) :
    Faults x s := by
  cases hrun : x.run s with
  | ok a s' => exact (h.of_ok hrun).elim
  | error e s' =>
      obtain ⟨flt, rfl⟩ := h.of_error hrun
      exact ⟨flt, s', hrun⟩

end

/-! ## A host with as much memory as possible -/

namespace Host

/-- Where the ranges in use end. -/
def topOf (used : List (Nat × Nat)) : Nat := used.foldr (fun r a => max (r.1 + r.2) a) 0

theorem topOf_le {used : List (Nat × Nat)} {top : Nat} (h : ∀ r ∈ used, r.1 + r.2 ≤ top) :
    topOf used ≤ top := by
  induction used with
  | nil => exact Nat.zero_le _
  | cons r used ih =>
      rw [List.forall_mem_cons] at h
      exact Nat.max_le.mpr ⟨h.1, ih h.2⟩

/-- A host that hands out all of the first two gigabytes, from the bottom up. -/
def ample : Host where
  mmap used len :=
    if 0 < len ∧ MemOps.alignPageUp (topOf used) + len ≤ 2 ^ 31 then some (MemOps.alignPageUp (topOf used))
    else none
  mmapFixed a len := decide (0 < len ∧ a + len < 2 ^ 63)
  mmap_pos h := by
    split at h
    · next hlen => exact hlen.1
    · cases h
  mmap_low h := by
    split at h
    · next hlen => cases h; exact hlen.2
    · cases h
  mmap_aligned h := by
    split at h
    · cases h
      exact MemOps.dvd_alignPageUp _
    · cases h
  mmap_apart h r hr := by
    split at h
    · cases h
      exact .inr (Nat.le_trans (le_foldr_end hr) (MemOps.le_alignPageUp _))
    · cases h
  mmapFixed_pos := @pos_of_fits
  mmapFixed_low := @lt_of_fits

end Host

namespace Segment

variable {m : Mapped} {size : Nat}

theorem ample_growPagedInternal (h : RepInv m.seg) (haligned : MemOps.pageSize ∣ size) (hpos : 0 < size)
    (hfits : m.seg.pagedSize + size ≤ m.seg.reserved) :
    (growPagedInternal Host.ample size).run m = .ok ⟨⟩ (m.grown size) := by
  have hlow := h.low
  have hmap : Host.ample.mmapFixed (m.seg.location + m.seg.pagedSize) size = true :=
    decide_eq_true ⟨hpos, by omega⟩
  unfold growPagedInternal
  rw [EStateM.run_get_bind, if_neg (not_not.mpr (Nat.mod_eq_zero_of_dvd haligned)),
    if_neg (by rw [sizeT_of_lt (by omega)]; omega), if_pos hmap]
  rfl

theorem ample_growPaged (h : RepInv m.seg) (haligned : MemOps.pageSize ∣ size) (hpos : 0 < size)
    (hfits : m.seg.pagedSize + size ≤ m.seg.reserved) :
    ∃ m', (growPaged Host.ample size).run m = .ok ⟨⟩ m' :=
  ⟨_, EStateM.bind_ok.mpr ⟨_, _, ample_growPagedInternal h haligned hpos hfits, rfl⟩⟩

theorem ample_growBytes (h : RepInv m.seg) (hfits : m.seg.limitSize + size ≤ m.seg.reserved) :
    ∃ m', (growBytes Host.ample size).run m = .ok ⟨⟩ m' := by
  have hlow := h.low
  have hneeded : sizeT (size + m.seg.limitSize) = size + m.seg.limitSize := sizeT_of_lt (by omega)
  unfold growBytes
  rw [EStateM.run_get_bind]
  dsimp only
  rw [hneeded, if_neg (by omega)]
  split
  · next hmore =>
      have hup := MemOps.le_alignPageUp (size + m.seg.limitSize)
      have hle : MemOps.alignPageUp (size + m.seg.limitSize) ≤ m.seg.reserved :=
        MemOps.alignPageUp_le h.reserved_aligned (by omega)
      exact ⟨_, EStateM.bind_ok.mpr ⟨_, _, ample_growPagedInternal h
        (Nat.dvd_sub (MemOps.dvd_alignPageUp _) h.aligned) (by omega) (by omega), rfl⟩⟩
  · exact ⟨_, rfl⟩

theorem ample_growBytes64capped (h : RepInv m.seg) (hfits : MemOps.kilo 64 ≤ m.seg.reserved) :
    ∃ m', (growBytes64capped Host.ample size).run m = .ok ⟨⟩ m' := by
  unfold growBytes64capped
  rw [EStateM.run_get_bind]
  dsimp only
  split
  · exact ample_growBytes h (by omega)
  · exact ⟨_, rfl⟩

theorem ample_skipPaged (h : RepInv m.seg) (haligned : MemOps.pageSize ∣ size)
    (hfits : m.seg.pagedSize + size ≤ m.seg.reserved) : ∃ m', (skipPaged size).run m = .ok ⟨⟩ m' := by
  have hlow := h.low
  unfold skipPaged
  rw [EStateM.run_get_bind, if_neg (not_not.mpr (Nat.mod_eq_zero_of_dvd haligned)),
    if_neg (by rw [sizeT_of_lt (by omega)]; omega)]
  exact ⟨_, rfl⟩

theorem ample_reserve {used : List (Nat × Nat)} {mem : Mem} {top : Nat}
    (hused : ∀ r ∈ used, r.1 + r.2 ≤ top) (htop : MemOps.pageSize ∣ top)
    (hpos : 0 < sizeT (MemOps.alignPageUp size)) (hfits : top + sizeT (MemOps.alignPageUp size) ≤ 2 ^ 31) :
    ∃ m, (reserve Host.ample used size).run ⟨init, mem⟩ = .ok ⟨⟩ m ∧
      m.seg.location + m.seg.reserved ≤ top + sizeT (MemOps.alignPageUp size) := by
  have hle : MemOps.alignPageUp (Host.topOf used) ≤ top := MemOps.alignPageUp_le htop (Host.topOf_le hused)
  have hmap : Host.ample.mmap used (sizeT (MemOps.alignPageUp size)) =
      some (MemOps.alignPageUp (Host.topOf used)) := if_pos ⟨hpos, by omega⟩
  unfold reserve
  rw [EStateM.run_get_bind, if_neg (show ¬ (Segment.init.reserved ≠ 0) from not_not.mpr rfl), hmap]
  exact ⟨_, rfl, Nat.add_le_add_right hle _⟩

end Segment

namespace Space

variable {w w₀ : Space} {top n i : Nat}

/-- All reservations end below `top`. -/
def Below (w : Space) (top : Nat) : Prop :=
  ∀ i, (w.segments i).location + (w.segments i).reserved ≤ top

/-- A call that returns for a segment returns for the space. -/
theorem run_onSegment {x : SegM Unit} {m : Mapped} (h : x.run (w.mapped i) = .ok ⟨⟩ m) :
    (onSegment i x).run w = .ok ⟨⟩ (w.putMapped i m) := EStateM.zoom_ok h

/-- There is room for one more segment. -/
theorem ample_new {β : Type} {f : Nat → SpaceM β} {shapes : List Shape} (h : Laid w₀ shapes w)
    (hbelow : w.Below top) (htop : MemOps.pageSize ∣ top) (hpos : 0 < sizeT (MemOps.alignPageUp n))
    (hfits : top + sizeT (MemOps.alignPageUp n) ≤ 2 ^ 31) : ∃ w',
    Laid w₀ (shapes ++ [Shape.empty (sizeT (MemOps.alignPageUp n))]) w' ∧
    w'.Below (top + sizeT (MemOps.alignPageUp n)) ∧
    (do
      let seg ← allocateSegment
      reserve Host.ample seg n
      f seg).run w = (f (w₀.count + shapes.length)).run w' := by
  have hsegments := segments_pushSegment h.inv
  have hinit : w.pushSegment.segments w.count = Segment.init := by
    rw [hsegments]
    exact h.inv.fresh _ (Nat.le_refl _)
  have hused : ∀ r ∈ w.pushSegment.used, r.1 + r.2 ≤ top := by
    intro r hr
    obtain ⟨i, -, rfl⟩ := List.mem_map.mp hr
    rw [hsegments]
    exact hbelow i
  obtain ⟨m, hm, hend⟩ := @Segment.ample_reserve n w.pushSegment.used w.mem top hused htop hpos hfits
  have hmapped : w.pushSegment.mapped w.count = ⟨Segment.init, w.mem⟩ := by
    rw [mapped, hinit]
    rfl
  have hrun : (reserve Host.ample w.count n).run w.pushSegment =
      .ok ⟨⟩ (w.pushSegment.putMapped w.count m) := by
    unfold reserve
    rw [EStateM.run_get_bind]
    exact run_onSegment (hmapped ▸ hm)
  obtain ⟨location, hw', hinv, hprot⟩ :=
    (@reserve_leaves w.pushSegment w.count Host.ample n h.inv.pushSegment (Nat.lt_succ_self _)
      hinit).of_ok hrun
  refine ⟨w.pushSegment.putMapped w.count m, ?_, ?_, ?_⟩
  · rw [hw'] at hinv hprot ⊢
    exact h.push hinv hprot
  · intro i
    by_cases hi : i = w.count
    · rw [hi, segments_putMapped]
      exact hend
    · rw [segments_putMapped_of_ne hi, hsegments]
      exact Nat.le_trans (hbelow i) (Nat.le_add_right _ _)
  · have hstart : allocateSegment.run w = .ok w.count w.pushSegment := rfl
    rw [EStateM.run_bind_of_ok hstart, EStateM.run_bind_of_ok hrun, h.count]

theorem ample_growPaged {s : Shape} (h : Laid w₀ [s] w) (haligned : MemOps.pageSize ∣ n) (hpos : 0 < n)
    (hfits : s.paged + n ≤ s.reserved) :
    ∃ w', (onSegment w₀.count (Segment.growPaged Host.ample n)).run w = .ok ⟨⟩ w' ∧
      Laid w₀ [s.growPaged n] w' := by
  have hshape : s.Of (w.segments w₀.count) := h.shape (k := 0) rfl
  obtain ⟨m, hm⟩ := @Segment.ample_growPaged (w.mapped w₀.count) n hshape.inv haligned hpos
    (by rw [← hshape.paged, ← hshape.reserved] at hfits; exact hfits)
  have hrun := run_onSegment hm
  have hleaves := @Laid.growPaged_leaves w₀ w s n Host.ample (fun _ _ => True) h haligned
    (fun _ => trivial)
  exact ⟨_, hrun, (hleaves.of_ok hrun).1⟩

theorem ample_skipPaged {reserved : Nat} (h : Laid w₀ [Shape.empty reserved] w)
    (haligned : MemOps.pageSize ∣ n) (hlt : n < 2 ^ 32) (hfits : n ≤ reserved) :
    ∃ w', (onSegment w₀.count (Segment.skipPaged n)).run w = .ok ⟨⟩ w' ∧
      Laid w₀ [(Shape.empty reserved).skipPaged n] w' := by
  have hshape : (Shape.empty reserved).Of (w.segments w₀.count) := h.shape (k := 0) rfl
  have hpaged : (w.segments w₀.count).pagedSize = 0 := hshape.paged
  have hreserved : (w.segments w₀.count).reserved = reserved := hshape.reserved
  obtain ⟨m, hm⟩ := @Segment.ample_skipPaged (w.mapped w₀.count) n hshape.inv haligned
    (by show (w.segments w₀.count).pagedSize + n ≤ (w.segments w₀.count).reserved; omega)
  have hrun := run_onSegment hm
  have hleaves := h.onSegment_leaves (k := 0) (g := fun s => s.skipPaged n) (E := fun _ _ => True) rfl
    (Shape.skipPaged_leaves hshape rfl haligned hlt) (fun _ => trivial)
  exact ⟨_, hrun, (hleaves.of_ok hrun).1⟩

end Space

namespace Lmf

variable {f : Lmf} {slib : Bool} {w₀ w : Space} {img : Image} {info : LoadInfo}

/-! ## The flat layout -/

/-- What is left to do for the flat layout when it comes to the heap. -/
def placeHeap (host : Host) (f : Lmf) (mem : Nat) (info : LoadInfo) : SpaceM (FlatLoader × LoadInfo) := do
  let heapStart := ((← get).segments mem).limitSize
  Space.onSegment mem (Segment.growPaged host f.hdr.heapNbytes.toNat)
  match f.flat.segments[f.hdr.codeIndex.toNat]? with
  | none => throw (.fault .outOfBounds)
  | some code => return ({ f.flat with imageBase := f.imageBase, mem := mem }, { info with
      stackLow := f.skip
      stackSize := f.stack
      heapStart := uint32 heapStart
      entry := uint32 (code.start + f.hdr.codeOffset.toNat) })

/-- With enough memory the flat layout is set up as far as the heap. -/
theorem ample_flat (h : w₀.Inv) (hbelow : w₀.Below 0) (hfits : f.FlatFits) : ∃ w s,
    Laid w₀ [s] w ∧ s.reserved = MemOps.mega 512 ∧ s.paged = f.heapStart ∧
    (f.flat.finalizeSegments Host.ample f.hdr info).run w₀ =
      (f.placeHeap Host.ample w₀.count info).run w := by
  obtain ⟨-, hbase, -⟩ := f.flat_spec
  obtain ⟨hskip, hstack, himage, hheap⟩ := hfits
  have hreserved : sizeT (MemOps.alignPageUp (MemOps.mega 512)) = MemOps.mega 512 := by decide
  have hlow : f.skip + f.stack + f.imageSize ≤ MemOps.mega 512 := hheap
  have hpages : MemOps.pageSize ∣ f.stack := dvd_uint32 (MemOps.dvd_alignPageUp _)
  unfold FlatLoader.finalizeSegments
  dsimp only
  rw [hbase]
  show ∃ w s, _ ∧ _ ∧ _ ∧ (if f.imageBase < uint32 (f.stack + MemOps.pageSize) then _ else _ :
    SpaceM _).run w₀ = _
  rw [if_neg (Nat.not_lt.mpr hskip)]
  -- the reservation, the guard pages, the stack and the image
  obtain ⟨w₁, h₁, -, hrun₁⟩ := Space.ample_new (n := MemOps.mega 512) (f := fun mem => do
    Space.onSegment mem (Segment.skipPaged f.skip)
    Space.onSegment mem (Segment.growPaged Host.ample f.stack)
    Space.onSegment mem (Segment.growPaged Host.ample f.imageSize)
    f.placeHeap Host.ample mem info) (Laid.refl h) hbelow (Nat.dvd_zero _) (by decide) (by decide)
  rw [hreserved] at h₁
  rw [List.length_nil, Nat.add_zero] at hrun₁
  obtain ⟨w₂, hrun₂, h₂⟩ := Space.ample_skipPaged h₁ f.dvd_skip (uint32_lt _) (by omega)
  obtain ⟨w₃, hrun₃, h₃⟩ := Space.ample_growPaged h₂ hpages hstack
    (by show 0 + f.skip + f.stack ≤ MemOps.mega 512; omega)
  obtain ⟨w₄, hrun₄, h₄⟩ := Space.ample_growPaged h₃ f.dvd_imageSize himage
    (by show 0 + f.skip + f.stack + f.imageSize ≤ MemOps.mega 512; omega)
  refine ⟨w₄, _, h₄, rfl, ?_, ?_⟩
  · show 0 + f.skip + f.stack + f.imageSize = f.skip + f.stack + f.imageSize
    rw [Nat.zero_add]
  · refine hrun₁.trans ?_
    rw [EStateM.run_bind_of_ok hrun₂, EStateM.run_bind_of_ok hrun₃, EStateM.run_bind_of_ok hrun₄]

/-- A heap that is not a number of pages. -/
theorem faults_growPaged {m : Mapped} {host : Host} {size : Nat} (h : size % MemOps.pageSize ≠ 0) :
    (Segment.growPaged host size).run m =
      .error (.fault (.assertion "MemOps::is_page_aligned(size)")) m := by
  have hrun : (Segment.growPagedInternal host size).run m =
      .error (.fault (.assertion "MemOps::is_page_aligned(size)")) m := by
    unfold Segment.growPagedInternal
    rw [EStateM.run_get_bind, if_pos h]
    rfl
  unfold Segment.growPaged
  rw [EStateM.run_bind, hrun]

theorem layout_flat {host : Host} (hflat : f.hdr.isFlat) (htable : f.entries.length = f.segmentCount) :
    f.layout host slib info = (do
      let r ← f.flat.finalizeSegments host f.hdr
        { info with bits := if !f.hdr.is32bit then .b16 else .b32 }
      return (AbstractLoader.flat r.1, r.2)) := by
  unfold layout
  dsimp only
  rw [AbstractLoader.prepareSegments, if_pos hflat, foldlM_flat, pure_bind, if_neg (by omega)]
  rfl

theorem faults_layout (h : w₀.Inv) (hbelow : w₀.Below 0) (hfaults : f.LayoutFaults) :
    Faults (f.layout Host.ample slib info) w₀ := by
  obtain ⟨htable, hflat, hfits, hwrong⟩ := hfaults
  rw [layout_flat hflat htable]
  apply Faults.bind
  obtain ⟨w, s, hw, hreserved, hpaged, hrun⟩ := @ample_flat f w₀
    { info with bits := if !f.hdr.is32bit then .b16 else .b32 } h hbelow hfits
  have hplace : Faults (f.placeHeap Host.ample w₀.count
      { info with bits := if !f.hdr.is32bit then .b16 else .b32 }) w := by
    unfold placeHeap
    apply faults_get_bind
    by_cases hodd : f.hdr.heapNbytes.toNat % MemOps.pageSize = 0
    · obtain ⟨⟨hpos, hheap⟩, hcode⟩ : f.HeapFits ∧ f.entries.length ≤ f.hdr.codeIndex.toNat :=
        hwrong.resolve_left (not_not.mpr hodd)
      obtain ⟨w₁, hgrow, -⟩ := Space.ample_growPaged hw (Nat.dvd_of_mod_eq_zero hodd) hpos
        (by rw [hpaged, hreserved]; exact hheap)
      refine faults_bind_of_ok hgrow ?_
      rw [List.getElem?_eq_none (by rw [f.flat_spec.1]; exact hcode)]
      exact ⟨_, _, rfl⟩
    · have hgrow : (Space.onSegment w₀.count (Segment.growPaged Host.ample
          f.hdr.heapNbytes.toNat)).run w = .error _ _ := EStateM.zoom_error (faults_growPaged hodd)
      exact Faults.bind ⟨_, _, hgrow⟩
  obtain ⟨flt, w', hrun'⟩ := hplace
  exact ⟨flt, w', hrun.trans hrun'⟩

theorem ample_layout_flat (h : w₀.Inv) (hbelow : w₀.Below 0) (hflat : f.hdr.isFlat)
    (haccepts : f.Accepts slib) : ∃ r w, (f.layout Host.ample slib info).run w₀ = .ok r w := by
  obtain ⟨htable, haccepts⟩ := haccepts
  rw [if_pos hflat] at haccepts
  obtain ⟨hfits, ⟨hpos, hheap⟩, haligned, hcode⟩ := haccepts
  rw [layout_flat hflat htable]
  obtain ⟨w, s, hw, hreserved, hpaged, hrun⟩ := @ample_flat f w₀
    { info with bits := if !f.hdr.is32bit then .b16 else .b32 } h hbelow hfits
  obtain ⟨w₁, hgrow, -⟩ := Space.ample_growPaged hw (Nat.dvd_of_mod_eq_zero haligned) hpos
    (by rw [hpaged, hreserved]; exact hheap)
  have hplace : ∃ r, (f.placeHeap Host.ample w₀.count
      { info with bits := if !f.hdr.is32bit then .b16 else .b32 }).run w = .ok r w₁ := by
    unfold placeHeap
    rw [EStateM.run_get_bind, EStateM.run_bind_of_ok hgrow,
      List.getElem?_eq_getElem (by rw [f.flat_spec.1]; exact hcode)]
    exact ⟨_, rfl⟩
  obtain ⟨r, hplace⟩ := hplace
  exact ⟨_, _, EStateM.bind_ok.mpr ⟨_, _, hrun.trans hplace, rfl⟩⟩

/-! ## The segmented layout -/

theorem kilo_le_reservation (slib : Bool) (hdr : LmfHeader) :
    MemOps.kilo 64 ≤ SegmentLoader.reservation slib hdr := by
  unfold SegmentLoader.reservation
  split
  · decide
  · split <;> decide

theorem dvd_reservation (slib : Bool) (hdr : LmfHeader) :
    MemOps.pageSize ∣ SegmentLoader.reservation slib hdr := by
  unfold SegmentLoader.reservation
  split
  · decide
  · split <;> decide

theorem ample_allocSegment {shapes : List Shape} {l : SegmentLoader} {e : SegEntry} {top : Nat}
    (h : Laid w₀ shapes w) (hbelow : w.Below top) (htop : MemOps.pageSize ∣ top)
    (hroom : top + SegmentLoader.reservation slib f.hdr ≤ 2 ^ 31)
    (hsize : e.size.toNat ≤ SegmentLoader.reservation slib f.hdr) :
    ∃ l' w', (l.allocSegment Host.ample slib f.hdr e).run w = .ok l' w' ∧
      w'.Below (top + SegmentLoader.reservation slib f.hdr) := by
  have hreservation := @reservation_aligned slib f.hdr
  have hkilo := kilo_le_reservation slib f.hdr
  have hpos : 0 < SegmentLoader.reservation slib f.hdr := Nat.lt_of_lt_of_le (by decide) hkilo
  unfold SegmentLoader.allocSegment
  obtain ⟨w₁, h₁, hbelow₁, hrun₁⟩ := Space.ample_new (n := SegmentLoader.reservation slib f.hdr)
    (f := fun seg => do
      Space.onSegment seg (Segment.growBytes Host.ample e.size.toNat)
      return ({ l with segments := l.segments ++ [seg] } : SegmentLoader)) h hbelow htop
    (by rw [hreservation]; exact hpos) (by rw [hreservation]; exact hroom)
  rw [hreservation] at h₁ hbelow₁
  have hlast : (shapes ++ [Shape.empty (SegmentLoader.reservation slib f.hdr)])[shapes.length]? =
      some (Shape.empty (SegmentLoader.reservation slib f.hdr)) := by
    rw [List.getElem?_append_right (Nat.le_refl _), Nat.sub_self]
    rfl
  have hshape := h₁.shape hlast
  have hlimit : (w₁.segments (w₀.count + shapes.length)).limitSize = 0 := hshape.limit
  have hreserved : (w₁.segments (w₀.count + shapes.length)).reserved =
      SegmentLoader.reservation slib f.hdr := hshape.reserved
  obtain ⟨m, hm⟩ := @Segment.ample_growBytes (w₁.mapped (w₀.count + shapes.length)) e.size.toNat
    hshape.inv (by
      show (w₁.segments _).limitSize + _ ≤ (w₁.segments _).reserved
      omega)
  have hrun₂ := Space.run_onSegment hm
  obtain ⟨-, hext, -⟩ := (@Segment.growBytes_leaves (w₁.mapped (w₀.count + shapes.length)) Host.ample
    e.size.toNat hshape.inv).of_ok hm
  have hrun : (do
      let seg ← Space.allocateSegment
      Space.reserve Host.ample seg (SegmentLoader.reservation slib f.hdr)
      Space.onSegment seg (Segment.growBytes Host.ample e.size.toNat)
      return ({ l with segments := l.segments ++ [seg] } : SegmentLoader)).run w =
      .ok { l with segments := l.segments ++ [w₀.count + shapes.length] }
        (w₁.putMapped (w₀.count + shapes.length) m) := by
    rw [hrun₁, EStateM.run_bind_of_ok hrun₂]
    rfl
  refine ⟨_, _, hrun, ?_⟩
  intro i
  by_cases hi : i = w₀.count + shapes.length
  · rw [hi, Space.segments_putMapped, hext.location, hext.reserved]
    exact hbelow₁ _
  · rw [Space.segments_putMapped_of_ne hi]
    exact hbelow₁ i

theorem ample_foldlM {es : List SegEntry} {shapes : List Shape} {l : SegmentLoader} {top : Nat}
    (h : Laid w₀ shapes w) (hbelow : w.Below top) (htop : MemOps.pageSize ∣ top)
    (hroom : top + es.length * SegmentLoader.reservation slib f.hdr ≤ 2 ^ 31)
    (hsizes : ∀ e ∈ es, e.size.toNat ≤ SegmentLoader.reservation slib f.hdr) :
    ∃ l' w', (es.foldlM (fun l e => AbstractLoader.allocSegment Host.ample slib f.hdr e l)
      (.segmented l)).run w = .ok l' w' := by
  induction es generalizing shapes l w top with
  | nil => exact ⟨_, _, rfl⟩
  | cons e es ih =>
      rw [List.length_cons, Nat.succ_mul] at hroom
      rw [List.forall_mem_cons] at hsizes
      obtain ⟨l₁, w₁, hrun₁, hbelow₁⟩ := @ample_allocSegment f slib w₀ w shapes l e top h hbelow htop
        (by omega) hsizes.1
      obtain ⟨-, h₁, -⟩ := (allocSegment_leaves h).of_ok hrun₁
      obtain ⟨l', w', hrun'⟩ := ih h₁ hbelow₁ ((Nat.dvd_add_right htop).mpr (dvd_reservation _ _))
        (by omega) hsizes.2
      refine ⟨l', w', ?_⟩
      rw [List.foldlM_cons]
      exact EStateM.bind_ok.mpr ⟨_, _, EStateM.bind_ok.mpr ⟨_, _, hrun₁, rfl⟩, hrun'⟩

theorem ample_growBytes64capped {shapes : List Shape} {k n : Nat} (h : Laid w₀ shapes w)
    (hk : k < shapes.length) (hreserved : ∀ s ∈ shapes, MemOps.kilo 64 ≤ s.reserved) :
    ∃ w', (Space.onSegment (w₀.count + k) (Segment.growBytes64capped Host.ample n)).run w = .ok ⟨⟩ w' := by
  have hs := List.getElem?_eq_getElem hk
  have hshape := h.shape hs
  have hle := hreserved _ (List.getElem_mem hk)
  rw [← hshape.reserved] at hle
  obtain ⟨m, hm⟩ := @Segment.ample_growBytes64capped (w.mapped (w₀.count + k)) n hshape.inv hle
  exact ⟨_, Space.run_onSegment hm⟩

theorem ample_layout_segmented (h : w₀.Inv) (hbelow : w₀.Below 0) (hflat : ¬ f.hdr.isFlat = true)
    (haccepts : f.Accepts slib) : ∃ r w, (f.layout Host.ample slib info).run w₀ = .ok r w := by
  obtain ⟨htable, haccepts⟩ := haccepts
  rw [if_neg hflat] at haccepts
  obtain ⟨hsizes, hroom, hstack, hheap⟩ := haccepts
  have hreserved : ∀ s ∈ f.entries.map (f.entryShape slib),
      s.reserved = SegmentLoader.reservation slib f.hdr := by
    intro s hs
    obtain ⟨e, -, rfl⟩ := List.mem_map.mp hs
    rfl
  obtain ⟨l, w₁, hrun₁⟩ := @ample_foldlM f slib w₀ w₀ f.entries [] ⟨[]⟩ 0 (Laid.refl h) hbelow
    (Nat.dvd_zero _) (by omega) hsizes
  obtain ⟨hl, h₁, -⟩ := (foldlM_segmented_leaves (Laid.refl h) rfl).of_ok hrun₁
  rw [List.length_nil, Nat.zero_add] at hl
  rw [List.nil_append] at h₁
  obtain ⟨w₂, hrun₂⟩ := @ample_growBytes64capped w₀ w₁ _ f.hdr.stackIndex.toNat
    f.hdr.stackNbytes.toNat h₁ (by rwa [List.length_map])
    (fun s hs => hreserved s hs ▸ kilo_le_reservation slib f.hdr)
  have hs := List.getElem?_eq_getElem (l := f.entries.map (f.entryShape slib))
    (i := f.hdr.stackIndex.toNat) (by rwa [List.length_map])
  have h₂ := (h₁.growBytes64capped_leaves (E := fun _ _ => True) hs f.hdr.stackNbytes.isLt
    (fun _ => trivial)).of_ok hrun₂
  obtain ⟨w₃, hrun₃⟩ := @ample_growBytes64capped w₀ w₂ _ f.hdr.heapIndex.toNat
    f.hdr.heapNbytes.toNat h₂ (by rwa [List.length_modify, List.length_map])
    (fun s hs => forall_modify (fun _ h => h) hreserved s hs ▸ kilo_le_reservation slib f.hdr)
  have hget : ∀ i, i < f.entries.length →
      ((List.range f.entries.length).map (w₀.count + ·))[i]? = some (w₀.count + i) := by
    intro i hi
    rw [getElem?_segments, if_pos hi]
  unfold layout
  dsimp only
  rw [AbstractLoader.prepareSegments, if_neg hflat, EStateM.run_bind_of_ok hrun₁, if_neg (by omega), hl]
  show ∃ r w, (SegmentLoader.finalizeSegments _ _ _ _ >>= _).run w₁ = .ok r w
  unfold SegmentLoader.finalizeSegments
  dsimp only
  rw [hget _ hstack, hget _ hheap]
  exact ⟨_, _, EStateM.bind_ok.mpr ⟨_, _, EStateM.bind_ok.mpr ⟨_, _, rfl, EStateM.bind_ok.mpr ⟨_, _, hrun₂,
    EStateM.bind_ok.mpr ⟨_, _, rfl, EStateM.bind_ok.mpr ⟨_, _, hrun₃, rfl⟩⟩⟩⟩, rfl⟩⟩

theorem ample_layout (h : w₀.Inv) (hbelow : w₀.Below 0) (haccepts : f.Accepts slib) :
    ∃ r w, (f.layout Host.ample slib info).run w₀ = .ok r w := by
  by_cases hflat : f.hdr.isFlat = true
  · exact ample_layout_flat h hbelow hflat haccepts
  · exact ample_layout_segmented h hbelow hflat haccepts

end Lmf

/-! ## A process with few ids left -/

namespace Space

variable {w : Space} {id : Nat} {ids : List Nat}

/-- `alloc_any` will hand out `ids`, one after the other. -/
structure Frees (w : Space) (ids : List Nat) : Prop where
  increasing : ids.Pairwise (· < ·)
  free : ∀ id ∈ ids, id < 1024 ∧ w.descriptors.get id = none
  only : ∀ j, w.descriptors.get j = none → j ∈ ids ∨ ∀ id ∈ ids, id < j

theorem Frees.congr {w' : Space} (h : w.Frees ids) (heq : w'.descriptors = w.descriptors) : w'.Frees ids :=
  ⟨h.increasing, heq ▸ h.free, heq ▸ h.only⟩

theorem exists_least {α : Type} {max : Nat} {g : Nat → Option α} (hid : id < max) (hfree : g id = none) :
    ∃ i, IdMap.least max g 0 false = some i := by
  unfold IdMap.least
  rw [dif_pos ⟨id, Nat.zero_le _, hid, by rw [hfree]; rfl⟩]
  exact ⟨_, rfl⟩

theorem run_createSegmentDescriptor {access : Access} {bits : Bitness} {mem : Nat} (h : w.Inv)
    (hmem : mem < w.count) (hfrees : w.Frees (id :: ids)) : ∃ sd w',
    (createSegmentDescriptor access mem bits).run w = .ok sd w' ∧ sd.id = id ∧ w'.Inv ∧
      w'.count = w.count ∧ w'.Frees ids := by
  obtain ⟨⟨hid, hfree⟩, hfrees'⟩ := List.forall_mem_cons.mp hfrees.free
  obtain ⟨hhead, htail⟩ := List.pairwise_cons.mp hfrees.increasing
  cases hrun : (createSegmentDescriptor access mem bits).run w with
  | error e w' =>
      exfalso
      obtain ⟨i, hleast⟩ := exists_least hid hfree
      unfold createSegmentDescriptor at hrun
      rw [EStateM.run_get_bind, IdMap.allocAny, IdMap.search_eq_least h.table.bounded, h.table.max_eq,
        hleast] at hrun
      cases hrun
  | ok sd w' =>
      obtain ⟨-, -, hsd, hmin, hget, hw', hinv⟩ := (createSegmentDescriptor_leaves h hmem).of_ok hrun
      have hsd_le : sd.id ≤ id := by
        by_contra hlt
        have hsome := hmin id (Nat.lt_of_not_le hlt)
        rw [hfree] at hsome
        cases hsome
      have hsd_eq : sd.id = id := by
        rcases hfrees.only sd.id hsd with hmem | habove
        · rcases List.mem_cons.mp hmem with heq | hmem
          · exact heq
          · have hlt := hhead _ hmem
            omega
        · have hlt := habove id List.mem_cons_self
          omega
      refine ⟨sd, w', rfl, hsd_eq, hinv, ?_, htail, ?_, ?_⟩
      · rw [hw']
        rfl
      · intro id' hid'
        obtain ⟨hlt, hfree'⟩ := hfrees' id' hid'
        refine ⟨hlt, ?_⟩
        rw [hget, hsd_eq, Function.update_of_ne (Nat.ne_of_gt (hhead id' hid'))]
        exact hfree'
      · intro j hj
        rw [hget, hsd_eq] at hj
        have hne : j ≠ id := by
          rintro rfl
          rw [Function.update_self] at hj
          cases hj
        rw [Function.update_of_ne hne] at hj
        rcases hfrees.only j hj with hmem | habove
        · exact .inl ((List.mem_cons.mp hmem).resolve_left hne)
        · exact .inr fun id' hid' => habove id' (List.mem_cons_of_mem id hid')

theorem run_createDescriptors {hdr : LmfHeader} {l : AbstractLoader} {types : List Access} {si : Nat}
    {info : LoadInfo} {selectors : List (BitVec 16)} (h : w.Inv)
    (hseg : ∀ j, j < types.length → ∃ seg, l.getSegment (si + j) = some seg ∧ seg < w.count)
    (hlength : ids.length = types.length) (hfrees : w.Frees ids) : ∃ info' w',
    (createDescriptors hdr l types si info selectors).run w =
      .ok (info', selectors ++ ids.map SegmentDescriptor.mkSel) w' := by
  induction types generalizing si info selectors w ids with
  | nil =>
      cases List.length_eq_zero_iff.mp hlength
      rw [List.map_nil, List.append_nil]
      exact ⟨_, _, rfl⟩
  | cons type types ih =>
      obtain ⟨id, ids, rfl⟩ := List.exists_cons_of_length_eq_add_one hlength
      obtain ⟨seg, hget, hlt⟩ := hseg 0 (Nat.zero_lt_succ _)
      obtain ⟨sd, w₁, hrun₁, rfl, hinv₁, hcount, hfrees₁⟩ :=
        @run_createSegmentDescriptor w id ids type info.bits seg h hlt hfrees
      have hseg₁ : ∀ j, j < types.length →
          ∃ seg, l.getSegment (si + 1 + j) = some seg ∧ seg < w₁.count := by
        intro j hj
        rw [hcount, Nat.add_assoc, Nat.add_comm 1 j]
        exact hseg (j + 1) (Nat.succ_lt_succ hj)
      obtain ⟨info', w', hrun⟩ := ih hinv₁ hseg₁ (Nat.succ.inj hlength) hfrees₁
      refine ⟨info', w', ?_⟩
      rw [Nat.add_zero] at hget
      unfold createDescriptors
      rw [hget]
      dsimp only
      rw [EStateM.run_bind_of_ok hrun₁, hrun, List.append_assoc]
      rfl

/-- A process with an empty segment, and descriptors of it under all ids but `ids`. -/
def sparing (ids : List Nat) : Space :=
  { fresh with
    count := 1
    descriptors := ⟨1024, (List.range 1024).map fun id =>
      if id ∈ ids then none else some ⟨id, .readWrite, 0, .b32⟩⟩ }

theorem get_sparing (ids : List Nat) (id : Nat) : (sparing ids).descriptors.get id =
    if id < 1024 ∧ id ∉ ids then some ⟨id, .readWrite, 0, .b32⟩ else none := by
  unfold sparing IdMap.get
  rw [List.getElem?_map]
  by_cases hid : id < 1024
  · rw [List.getElem?_range hid]
    by_cases hmem : id ∈ ids <;> simp [hid, hmem]
  · rw [List.getElem?_eq_none (by simpa using hid), if_neg (fun h => hid h.1)]
    rfl

theorem sparing_inv (ids : List Nat) : (sparing ids).Inv := by
  refine ⟨fresh_inv.seg, fresh_inv.page, fresh_inv.apart, fun _ _ => rfl, fresh_inv.prot,
    ⟨rfl, ?_, rfl⟩, ?_⟩
  · simp [sparing, IdMap.Bounded]
  · intro id sd hsd
    rw [get_sparing] at hsd
    split at hsd
    · cases hsd
      exact ⟨rfl, Nat.zero_lt_one⟩
    · cases hsd

theorem sparing_below (ids : List Nat) : (sparing ids).Below 0 := fun _ => Nat.le_refl 0

theorem frees_sparing (hincreasing : ids.Pairwise (· < ·)) (hrange : ∀ id ∈ ids, id < 1024) :
    (sparing ids).Frees ids := by
  refine ⟨hincreasing, ?_, ?_⟩
  · intro id hid
    refine ⟨hrange id hid, ?_⟩
    rw [get_sparing, if_neg (fun h => h.2 hid)]
  · intro j hj
    rw [get_sparing] at hj
    by_cases hmem : j ∈ ids
    · exact .inl hmem
    · refine .inr fun id hid => ?_
      have hlt := hrange id hid
      by_contra hle
      rw [if_pos ⟨by omega, hmem⟩] at hj
      cases hj

end Space

namespace Lmf

variable {f : Lmf} {slib : Bool} {w₀ w : Space} {img : Image} {info : LoadInfo} {ids : List Nat}

/-! ## Each way to go wrong -/

theorem faults_perform (h : Loaded w₀ (f.shapes slib) img (fun _ _ => false) w)
    (hfault : f.RecordsFault slib f.contents) :
    Faults (forM f.contents (perform (f.loader w₀.count))) w := by
  apply faults_of_leaves
  refine (forM_perform_leaves f.contents_wf h).mono ?_ ?_
  · rintro _ w' ⟨-, hok⟩
    exact hok.not_fault hfault
  · rintro e w' ⟨hiff, -⟩
    exact hiff.mpr hfault

theorem faults_finalizeLoading (h : Loaded w₀ (f.shapes slib) img (fun _ _ => false) w)
    (hfault : f.ProtectionFaults) : Faults (f.loader w₀.count).finalizeLoading w := by
  apply faults_of_leaves
  refine (finalizeLoading_leaves h).mono ?_ ?_
  · rintro _ w' ⟨-, hnot⟩
    exact hnot hfault
  · rintro e w' ⟨hflt, -⟩
    exact hflt

theorem faults_relocate {selectors : List (BitVec 16)}
    (h : Loaded w₀ (f.shapes slib) img f.hidden w) (hfault : f.RelocsFault slib selectors f.relocs img) :
    Faults (forM f.relocs (relocate (f.loader w₀.count) selectors.length selectors)) w := by
  apply faults_of_leaves
  refine (forM_relocate_leaves h).mono ?_ ?_
  · rintro _ w' ⟨-, img', hrelocated, -⟩
    exact hrelocated.not_fault hfault
  · intro e w' hiff
    exact hiff.mpr hfault

/-- The ids that are left decide on the selectors, and so on what the fixups make of words that overlap. -/
theorem faults_publish (htable : f.entries.length = f.segmentCount)
    (h : Loaded w₀ (f.shapes slib) img (fun _ _ => false) w) (hinside : ¬ f.ProtectionFaults)
    (hvalid : f.ValidIds ids) (hfrees : w.Frees ids)
    (hfault : f.RelocsFault slib (ids.map SegmentDescriptor.mkSel) f.relocs img) :
    Faults (publish f.hdr f.segmentCount (f.loader w₀.count) f.types info f.relocs) w := by
  obtain ⟨_, w₁, hrun₁, h₁⟩ := ((finalizeLoading_leaves h).mono
    (fun _ _ hw => hw.1) (fun _ _ he => hinside he.2)).exists_ok
  have hsame := Space.finalizeLoading_same.of_ok hrun₁
  obtain ⟨info₂, w₂, hrun₂⟩ := @Space.run_createDescriptors w₁ ids f.hdr (f.loader w₀.count) f.types 0 info []
    h₁.inv (getSegment_types h₁) (by rw [hvalid.1, length_types]) (hfrees.congr hsame.descriptors)
  obtain ⟨h₂, -⟩ := (createDescriptors_loader_leaves h₁).of_ok hrun₂
  have hcount : f.segmentCount = (ids.map SegmentDescriptor.mkSel).length := by
    rw [List.length_map, hvalid.1, htable]
  unfold publish
  refine faults_bind_of_ok hrun₁ (faults_bind_of_ok hrun₂ (Faults.bind ?_))
  rw [hcount]
  exact faults_relocate h₂ hfault

/-- With enough memory the layout is set up, and what comes next decides. -/
theorem faults_load_of_records (hinv : w₀.Inv) (hbelow : w₀.Below 0) (haccepts : f.Accepts slib)
    (hrecords : ∀ info w, Laid w₀ (f.shapes slib) w → Faults (performAll (f.loader w₀.count)
      (f.contents, f.stop)
      (publish f.hdr f.segmentCount (f.loader w₀.count) f.types info f.relocs)) w) :
    Faults (f.load Host.ample slib info) w₀ := by
  obtain ⟨⟨l, info₁⟩, w₁, hrun⟩ := @ample_layout f slib w₀ info hinv hbelow haccepts
  have hlaid := (layout_leaves hinv).of_ok hrun
  have hl : l = f.loader w₀.count := hlaid.loader
  subst hl
  unfold load
  exact faults_bind_of_ok hrun (hrecords info₁ w₁ hlaid.laid)

theorem faults_load_of_publish (hinv : w₀.Inv) (hbelow : w₀.Below 0) (haccepts : f.Accepts slib)
    (hok : f.RecordsOk slib f.contents) (hstop : f.stop = none)
    (hpublish : ∀ info w, Loaded w₀ (f.shapes slib) f.loadedImage (fun _ _ => false) w →
      w.descriptors = w₀.descriptors →
      Faults (publish f.hdr f.segmentCount (f.loader w₀.count) f.types info f.relocs) w) :
    Faults (f.load Host.ample slib info) w₀ := by
  refine faults_load_of_records hinv hbelow haccepts ?_
  intro info₁ w₁ hlaid
  obtain ⟨_, w₂, hrun, h₂⟩ := ((forM_perform_leaves f.contents_wf hlaid.loaded).mono
    (fun _ _ hw => hw.1) (fun _ _ he => he.2 hok)).exists_ok
  have hsame : Space.SameTables w₁ w₂ :=
    (EStateM.leaves_forM (fun _ _ h => Space.perform_same h) (.refl w₁)).of_ok hrun
  unfold performAll
  refine faults_bind_of_ok hrun ?_
  dsimp only
  rw [hstop]
  exact hpublish info₁ w₂ h₂ (hsame.descriptors.trans hlaid.descriptors)

/-- Whatever is wrong with the file, there is a process where it shows. -/
theorem faults_load (hfaults : f.LoadFaults slib) :
    ∃ w, w.Inv ∧ Faults (f.load Host.ample slib info) w := by
  have hinv := Space.sparing_inv
  have hbelow := Space.sparing_below
  rcases hfaults with hlayout | ⟨haccepts, hrecords | ⟨hok, hstop, hprotection | ⟨hinside, ids, hvalid, hrelocs⟩⟩⟩
  · exact ⟨_, hinv [], (faults_layout (hinv []) (hbelow []) hlayout).bind⟩
  · refine ⟨_, hinv [], faults_load_of_records (hinv []) (hbelow []) haccepts ?_⟩
    intro info₁ w h
    exact (faults_perform h.loaded hrecords).bind
  · refine ⟨_, hinv [], faults_load_of_publish (hinv []) (hbelow []) haccepts hok hstop ?_⟩
    intro info₁ w h _
    exact (faults_finalizeLoading h hprotection).bind
  · refine ⟨_, hinv ids, faults_load_of_publish (hinv ids) (hbelow ids) haccepts hok hstop ?_⟩
    intro info₁ w h hdescriptors
    have hfrees := Space.frees_sparing hvalid.2.1 hvalid.2.2
    exact faults_publish haccepts.1 h hinside hvalid (hfrees.congr hdescriptors) hrelocs

end Lmf

/-! ## Taking the file apart -/

/-- Nothing is thrown but `LoaderFormatException`. -/
def Refuses {α : Type} (x : Except HostError α) : Prop :=
  ∀ e, x = .error e → ∃ what, e = .loaderFormat what

section

variable {α β : Type} {x : Except HostError α} {g : α → Except HostError β}

theorem refuses_error {what : String} : Refuses (.error (.loaderFormat what) : Except HostError α) := by
  intro e h
  cases h
  exact ⟨what, rfl⟩

theorem refuses_pure {a : α} : Refuses (pure a) := nofun

theorem Refuses.bind (hx : Refuses x) (hg : ∀ a, Refuses (g a)) : Refuses (x >>= g) := by
  intro e h
  cases x with
  | error e' =>
      cases h
      exact hx e rfl
  | ok a => exact hg a e h

end

theorem refuses_checkValue {n : Nat} {expected got : BitVec n} : Refuses (checkValue expected got) := by
  unfold checkValue
  split
  · exact refuses_error
  · exact refuses_pure

theorem refuses_checkHeader {record : LmfRecord} {hdr : LmfHeader} : Refuses (checkHeader record hdr) := by
  unfold checkHeader
  split
  · exact refuses_error
  · refine refuses_checkValue.bind fun _ => refuses_checkValue.bind fun _ =>
      refuses_checkValue.bind fun _ => refuses_checkValue.bind fun _ => ?_
    split
    · exact refuses_error
    · split
      · exact refuses_error
      · exact refuses_pure

theorem refuses_parse (file : List Byte) : Refuses (Lmf.parse file) := by
  unfold Lmf.parse
  split
  · exact refuses_error
  · exact refuses_checkHeader.bind fun _ => refuses_pure

theorem error_of_forget {α : Type} {r : EStateM.Result HostError Loading α} {e : HostError} {w : Space}
    (h : forget r = .error e w) : ∃ file, r = .error e ⟨w, file⟩ := by
  cases r with
  | ok a s => cases h
  | error e' s =>
      cases h
      exact ⟨s.file, rfl⟩

/-- What goes wrong goes wrong with a file that could be taken apart. -/
theorem faults_loaderLoad_iff {host : Host} {slib : Bool} {info : LoadInfo} {s : Loading} :
    Faults (loaderLoad host slib info) s ↔
      ∃ f, Lmf.parse s.file = .ok f ∧ Faults (f.load host slib info) s.space := by
  have hforget := @forget_loaderLoad s host slib info
  constructor
  · rintro ⟨flt, s', hrun⟩
    rw [hrun] at hforget
    cases hparse : Lmf.parse s.file with
    | error e =>
        rw [hparse] at hforget
        obtain ⟨what, rfl⟩ := refuses_parse s.file e hparse
        exact absurd (EStateM.Result.error.inj hforget).1 nofun
    | ok f =>
        rw [hparse] at hforget
        exact ⟨f, rfl, flt, s'.space, hforget.symm⟩
  · rintro ⟨f, hparse, flt, w, hrun⟩
    rw [hparse] at hforget
    obtain ⟨file, herror⟩ := error_of_forget (hforget.trans hrun)
    exact ⟨flt, _, herror⟩

/-! ## All files -/

theorem leaves_iff_not_faults {σ α : Type} {x : EStateM HostError σ α} {s : σ} :
    x.Leaves s (fun _ _ => True) (fun e _ => e = .badAlloc ∨ ∃ what, e = .loaderFormat what) ↔
      ¬ Faults x s := by
  constructor
  · rintro h ⟨flt, s', hrun⟩
    rcases h.of_error hrun with heq | ⟨what, heq⟩
    · cases heq
    · cases heq
  · intro h
    refine ⟨fun _ => trivial, ?_⟩
    intro e s' hrun
    cases e with
    | badAlloc => exact .inl rfl
    | loaderFormat what => exact .inr ⟨what, rfl⟩
    | fault flt => exact absurd ⟨flt, s', hrun⟩ h

/-- The loader completes, or throws `LoaderFormatException` or `bad_alloc`, on every host and for every
process, if and only if the file asks for none of the things that `LoadFaults` lists. -/
theorem loaderLoad_safe_iff (slib : Bool) (file : List Byte) :
    (∀ host info w, Space.Inv w → (loaderLoad host slib info).Leaves ⟨w, file⟩ (fun _ _ => True)
      (fun e _ => e = .badAlloc ∨ ∃ what, e = .loaderFormat what)) ↔
      ∀ f, Lmf.parse file = .ok f → ¬ f.LoadFaults slib := by
  simp only [leaves_iff_not_faults, faults_loaderLoad_iff]
  constructor
  · intro h f hparse hfaults
    obtain ⟨w, hinv, hw⟩ := @Lmf.faults_load f slib .init hfaults
    exact h Host.ample .init w hinv ⟨f, hparse, hw⟩
  · rintro h host info w hinv ⟨f, hparse, flt, w', hrun⟩
    exact h f hparse ((Lmf.load_leaves hinv).of_error hrun flt rfl)

/-- A flat executable of one loader segment, with a heap of one page and one byte. -/
def oddHeapFile : List Byte :=
  headerBytes 1 0x12 0 0 0 0x1000 0x1001 0x2000 ++ leBytes 4 0x20000010 ++
    recordBytes LmfRecord.imageEnd []

/-- The loader does not look at the size of the heap before it grows the segment by it. -/
theorem loaderLoad_oddHeap : Space.fresh.Inv ∧
    ∃ s', (loaderLoad Host.roomy false .init).run ⟨Space.fresh, oddHeapFile⟩ =
      .error (.fault (.assertion "MemOps::is_page_aligned(size)")) s' :=
  ⟨Space.fresh_inv, EStateM.run_throws (by decide +kernel)⟩

end Qine
