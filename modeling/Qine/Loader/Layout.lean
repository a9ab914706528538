import Qine.Loader.Lmf
import Qine.Segment.Shape

/-!
# Where the loader puts what

Both layouts add segments to the address space, of sizes that follow from the header and the table alone:
`Lmf.shapes` computes them, and `layout_leaves` says that this is what `loader_load` has set up when it
comes to the records.
-/

namespace Qine

/-! ## New segments -/

/-- Segments of the given shapes, with nothing but zeros in them, were added to the address space `w₀`. -/
structure Laid (w₀ : Space) (shapes : List Shape) (w : Space) : Prop where
  inv : w.Inv
  count : w.count = w₀.count + shapes.length
  old : ∀ i, i < w₀.count → w.segments i = w₀.segments i
  shape : ∀ {k : Nat} {s : Shape}, shapes[k]? = some s → s.Of (w.segments (w₀.count + k))
  blank : ∀ {k : Nat} {s : Shape}, shapes[k]? = some s → ∀ o, s.hole ≤ o → o < s.paged →
    w.mem ((w.segments (w₀.count + k)).location + o) = 0
  accessible : ∀ {k : Nat} {s : Shape}, shapes[k]? = some s → ∀ o, o < s.reserved →
    w.protNone ((w.segments (w₀.count + k)).location + o) = false
  mem : ∀ i, i < w₀.count → ∀ o, o < (w₀.segments i).reserved →
    w.mem ((w₀.segments i).location + o) = w₀.mem ((w₀.segments i).location + o)
  descriptors : w.descriptors = w₀.descriptors
  ldt : w.ldt = w₀.ldt

namespace Laid

variable {w₀ w : Space} {shapes : List Shape} {s : Shape} {k n : Nat} {host : Host} {m : Mapped}

theorem refl (h : w₀.Inv) : Laid w₀ [] w₀ where
  inv := h
  count := rfl
  old _ _ := rfl
  shape hk := by cases hk
  blank hk := by cases hk
  accessible hk := by cases hk
  mem _ _ _ _ := rfl
  descriptors := rfl
  ldt := rfl

theorem lt_count (h : Laid w₀ shapes w) (hk : shapes[k]? = some s) : w₀.count + k < w.count := by
  have hlt := (List.getElem?_eq_some_iff.mp hk).1
  have hcount := h.count
  omega

/-- One more segment. -/
theorem push {location : Nat} (h : Laid w₀ shapes w)
    (hinv : (w.pushSegment.putMapped w.count ⟨Space.reservedAt location n, w.mem⟩).Inv)
    (hprot : ∀ x, location ≤ x → x < location + n → w.protNone x = false) :
    Laid w₀ (shapes ++ [Shape.empty n])
      (w.pushSegment.putMapped w.count ⟨Space.reservedAt location n, w.mem⟩) := by
  have hother : ∀ i, i < w.count →
      (w.pushSegment.putMapped w.count ⟨Space.reservedAt location n, w.mem⟩).segments i =
        w.segments i := by
    intro i hi
    rw [Space.segments_putMapped_of_ne (Nat.ne_of_lt hi), Space.segments_pushSegment h.inv]
  have hcases : ∀ {k : Nat} {s : Shape}, (shapes ++ [Shape.empty n])[k]? = some s →
      shapes[k]? = some s ∨ w₀.count + k = w.count ∧ s = Shape.empty n := by
    intro k s hk
    by_cases hlt : k < shapes.length
    · rw [List.getElem?_append_left hlt] at hk
      exact .inl hk
    · rw [List.getElem?_append_right (Nat.le_of_not_lt hlt), List.getElem?_singleton] at hk
      split at hk
      · cases hk
        have hcount := h.count
        exact .inr ⟨by omega, rfl⟩
      · cases hk
  refine ⟨hinv, ?_, ?_, ?_, ?_, ?_, h.mem, h.descriptors, h.ldt⟩
  · show w.count + 1 = w₀.count + (shapes ++ [Shape.empty n]).length
    rw [List.length_append, List.length_singleton, h.count, Nat.add_assoc]
  · intro i hi
    rw [hother i (by have := h.count; omega)]
    exact h.old i hi
  · intro k s hk
    rcases hcases hk with hk | ⟨hlast, rfl⟩
    · rw [hother _ (h.lt_count hk)]
      exact h.shape hk
    · have hseg := hinv.seg w.count
      rw [Space.segments_putMapped] at hseg
      rw [hlast, Space.segments_putMapped]
      exact Shape.of_reserved hseg
  · intro k s hk o h₁ h₂
    rcases hcases hk with hk | ⟨-, rfl⟩
    · rw [hother _ (h.lt_count hk)]
      exact h.blank hk o h₁ h₂
    · exact absurd h₂ (Nat.not_lt_zero o)
  · intro k s hk o ho
    rcases hcases hk with hk | ⟨hlast, rfl⟩
    · rw [hother _ (h.lt_count hk)]
      exact h.accessible hk o ho
    · rw [hlast, Space.segments_putMapped]
      have ho' : o < n := ho
      exact hprot _ (Nat.le_add_right _ _) (Nat.add_lt_add_left ho' location)

/-- Allocating a segment and reserving memory for it. -/
theorem new_leaves {β : Type} {f : Nat → SpaceM β} {Q : β → Space → Prop}
    {E : HostError → Space → Prop} (h : Laid w₀ shapes w)
    (hf : ∀ w', Laid w₀ (shapes ++ [Shape.empty (sizeT (MemOps.alignPageUp n))]) w' →
      (f (w₀.count + shapes.length)).Leaves w' Q E)
    (hE : ∀ w', E .badAlloc w') :
    (do
      let seg ← Space.allocateSegment
      Space.reserve host seg n
      f seg).Leaves w Q E := by
  refine (Space.allocateSegment_leaves).bind ?_
  rintro _ _ ⟨rfl, rfl⟩
  have hinit : w.pushSegment.segments w.count = Segment.init := by
    rw [Space.segments_pushSegment h.inv]
    exact h.inv.fresh _ (Nat.le_refl _)
  have hreserve := @Space.reserve_leaves w.pushSegment w.count host n h.inv.pushSegment
    (Nat.lt_succ_self _) hinit
  refine (hreserve.mono (fun _ _ hw => hw) (fun e w' he => ?_)).bind ?_
  · cases he
    exact hE w'
  · rintro _ _ ⟨location, rfl, hinv, hprot⟩
    rw [h.count]
    exact hf _ (h.count ▸ h.push hinv hprot)

theorem modify_cases {g : Shape → Shape} (hk : shapes[k]? = some s) {j : Nat} {t : Shape}
    (hj : (shapes.modify k g)[j]? = some t) :
    (j = k ∧ t = g s) ∨ w₀.count + j ≠ w₀.count + k ∧ shapes[j]? = some t := by
  rw [List.getElem?_modify] at hj
  by_cases hjk : k = j
  · subst hjk
    rw [hk] at hj
    exact .inl ⟨rfl, (Option.some.inj (by simpa using hj)).symm⟩
  · refine .inr ⟨by omega, ?_⟩
    simpa [hjk] using hj

/-- The pages that are new are blank, and the others stay so. -/
theorem blank_became {s' : Shape} (h : Laid w₀ shapes w) (hk : shapes[k]? = some s)
    (hm : s.Became s' (w.mapped (w₀.count + k)) m) {o : Nat} (h₁ : s'.hole ≤ o) (h₂ : o < s'.paged) :
    m.mem ((w.segments (w₀.count + k)).location + o) = 0 := by
  have hpaged := (h.shape hk).paged
  have hhole := hm.hole
  by_cases ho : o < s.paged
  · rw [hm.ext.frame _ (.inl ?_)]
    · exact h.blank hk o (by omega) ho
    · show _ < (w.segments _).location + (w.segments _).pagedSize
      omega
  · refine hm.ext.zero o ?_ ?_ (hm.shape.populated h₁ h₂)
    · show (w.segments _).pagedSize ≤ o
      omega
    · rw [hm.shape.paged]
      exact h₂

/-- A segment among the new ones gets another shape. -/
theorem became {g : Shape → Shape} (h : Laid w₀ shapes w) (hk : shapes[k]? = some s)
    (hm : s.Became (g s) (w.mapped (w₀.count + k)) m) :
    Laid w₀ (shapes.modify k g) (w.putMapped (w₀.count + k) m) := by
  have hlocation : m.seg.location = (w.segments (w₀.count + k)).location := hm.ext.location
  refine ⟨h.inv.extends (h.lt_count hk) hm.shape.inv hm.ext, ?_, ?_, ?_, ?_, ?_, ?_, h.descriptors,
    h.ldt⟩
  · rw [List.length_modify]
    exact h.count
  · intro i hi
    rw [Space.segments_putMapped_of_ne (by omega)]
    exact h.old i hi
  · intro j t hj
    rcases @modify_cases w₀ shapes s k g hk j t hj with ⟨rfl, rfl⟩ | ⟨hne, hj⟩
    · rw [Space.segments_putMapped]
      exact hm.shape
    · rw [Space.segments_putMapped_of_ne hne]
      exact h.shape hj
  · intro j t hj o h₁ h₂
    rcases @modify_cases w₀ shapes s k g hk j t hj with ⟨rfl, rfl⟩ | ⟨hne, hj⟩
    · rw [Space.segments_putMapped, Space.mem_putMapped, hlocation]
      exact h.blank_became hk hm h₁ h₂
    · -- growing a segment leaves the memory of another one alone
      rw [Space.segments_putMapped_of_ne hne, Space.mem_putMapped]
      have hshape := h.shape hj
      have hle := hshape.inv.paged_le
      rw [h.inv.mem_of_extends hm.shape.inv hm.ext (Ne.symm hne) (by have := hshape.paged; omega)]
      exact h.blank hj o h₁ h₂
  · intro j t hj o ho
    rcases @modify_cases w₀ shapes s k g hk j t hj with ⟨rfl, rfl⟩ | ⟨hne, hj⟩
    · rw [Space.segments_putMapped, hlocation]
      exact h.accessible hk o (hm.reserved ▸ ho)
    · rw [Space.segments_putMapped_of_ne hne]
      exact h.accessible hj o ho
  · intro i hi o ho
    rw [Space.mem_putMapped]
    have hsegment := h.old i hi
    have hmem := @Space.Inv.mem_of_extends w m (w₀.count + k) i h.inv hm.shape.inv hm.ext (by omega) o
      (by rw [hsegment]; exact ho)
    rw [hsegment] at hmem
    rw [hmem]
    exact h.mem i hi o ho

/-- A call of a new segment that moves its shape. -/
theorem onSegment_leaves {x : SegM Unit} {g : Shape → Shape} {P : Prop} {E : HostError → Space → Prop}
    (h : Laid w₀ shapes w) (hk : shapes[k]? = some s)
    (hx : x.Leaves (w.mapped (w₀.count + k))
      (fun _ m => s.Became (g s) (w.mapped (w₀.count + k)) m ∧ P) (fun e _ => e = .badAlloc))
    (hE : ∀ w', E .badAlloc w') :
    (Space.onSegment (w₀.count + k) x).Leaves w
      (fun _ w' => Laid w₀ (shapes.modify k g) w' ∧ P) E := by
  refine (Space.onSegment_leaves hx).mono ?_ ?_
  · rintro _ _ ⟨m, ⟨hm, hP⟩, rfl⟩
    exact ⟨h.became hk hm, hP⟩
  · rintro _ w' ⟨m, rfl, -⟩
    exact hE w'

/-- `grow_bytes_64capped` of a new segment. -/
theorem growBytes64capped_leaves {E : HostError → Space → Prop} (h : Laid w₀ shapes w)
    (hk : shapes[k]? = some s) (hn : n < 2 ^ 32) (hE : ∀ w', E .badAlloc w') :
    (Space.onSegment (w₀.count + k) (Segment.growBytes64capped host n)).Leaves w
      (fun _ w' => Laid w₀ (shapes.modify k (·.growBytes64capped n)) w') E := by
  have hgrow := (@Shape.growBytes64capped_leaves s (w.mapped (w₀.count + k)) host n (h.shape hk) hn).mono
    (fun _ _ hm => And.intro hm trivial) (fun _ _ he => he)
  exact (h.onSegment_leaves (g := fun s => s.growBytes64capped n) hk hgrow hE).mono
    (fun _ _ hw => hw.1) (fun _ _ he => he)

/-- `grow_paged` of the only new segment. -/
theorem growPaged_leaves {E : HostError → Space → Prop} (h : Laid w₀ [s] w)
    (haligned : MemOps.pageSize ∣ n) (hE : ∀ w', E .badAlloc w') :
    (Space.onSegment w₀.count (Segment.growPaged host n)).Leaves w
      (fun _ w' => Laid w₀ [s.growPaged n] w' ∧ 0 < n ∧ s.paged + n ≤ s.reserved) E :=
  h.onSegment_leaves (k := 0) (g := fun s => s.growPaged n) rfl
    (Shape.growPaged_leaves (h.shape rfl) haligned) hE

end Laid

/-! ## What the header and the table ask for -/

namespace Lmf

/-- The flat loader when it has seen the whole table. -/
def flat (f : Lmf) : FlatLoader := f.entries.foldl FlatLoader.allocSegment (.prepareSegments f.hdr)

/-- `m_image_base` of the flat loader. -/
def imageBase (f : Lmf) : Nat := uint32 (MemOps.alignPageUp f.hdr.imageBase.toNat)

/-- `m_stack` of the flat loader. -/
def stack (f : Lmf) : Nat := uint32 (MemOps.alignPageUp f.hdr.stackNbytes.toNat)

/-- `m_skip` of the flat loader, in the end. -/
def skip (f : Lmf) : Nat := uint32 (f.imageBase + (2 ^ 32 - f.stack))

/-- The flat loader's `m_segment_pos - m_image_base`. -/
def imageSize (f : Lmf) : Nat := uint32 (f.flat.segmentPos + (2 ^ 32 - f.imageBase))

/-- Where the flat loader puts the heap. -/
def heapStart (f : Lmf) : Nat := f.skip + f.stack + f.imageSize

/-- The segment of the flat layout. -/
def flatShape (f : Lmf) : Shape :=
  ((((Shape.empty (MemOps.mega 512)).skipPaged f.skip).growPaged f.stack).growPaged
    f.imageSize).growPaged f.hdr.heapNbytes.toNat

/-- The segment for an entry of the table in the segmented layout. -/
def entryShape (slib : Bool) (f : Lmf) (e : SegEntry) : Shape :=
  (Shape.empty (SegmentLoader.reservation slib f.hdr)).growBytes e.size.toNat

/-- The segments of the process, in the order of their allocation. -/
def shapes (slib : Bool) (f : Lmf) : List Shape :=
  if f.hdr.isFlat then [f.flatShape]
  else ((f.entries.map (f.entryShape slib)).modify f.hdr.stackIndex.toNat
    (·.growBytes64capped f.hdr.stackNbytes.toNat)).modify f.hdr.heapIndex.toNat
    (·.growBytes64capped f.hdr.heapNbytes.toNat)

/-- The loader when everything is laid out, in a process that had `count` segments before. -/
def loader (f : Lmf) (count : Nat) : AbstractLoader :=
  if f.hdr.isFlat then .flat { f.flat with mem := count }
  else .segmented ⟨(List.range f.entries.length).map (count + ·)⟩

/-- Up to the heap the flat layout can be set up. -/
def FlatFits (f : Lmf) : Prop :=
  uint32 (f.stack + MemOps.pageSize) ≤ f.imageBase ∧ 0 < f.stack ∧ 0 < f.imageSize ∧
    f.heapStart ≤ MemOps.mega 512

instance (f : Lmf) : Decidable f.FlatFits := inferInstanceAs (Decidable (_ ∧ _ ∧ _ ∧ _))

/-- The heap fits too. -/
def HeapFits (f : Lmf) : Prop :=
  0 < f.hdr.heapNbytes.toNat ∧ f.heapStart + f.hdr.heapNbytes.toNat ≤ MemOps.mega 512

instance (f : Lmf) : Decidable f.HeapFits := inferInstanceAs (Decidable (_ ∧ _))

/-- How laying out the flat segment goes wrong: the heap is not a number of pages, or the code segment is
none of those in the table. -/
def LayoutFaults (f : Lmf) : Prop :=
  f.entries.length = f.segmentCount ∧ f.hdr.isFlat ∧ f.FlatFits ∧
    (f.hdr.heapNbytes.toNat % MemOps.pageSize ≠ 0 ∨
      f.HeapFits ∧ f.entries.length ≤ f.hdr.codeIndex.toNat)

instance (f : Lmf) : Decidable f.LayoutFaults := inferInstanceAs (Decidable (_ ∧ _ ∧ _ ∧ _))

/-- What `loader_load` says about the stack and the heap. -/
def Informs (slib : Bool) (f : Lmf) (info : LoadInfo) : Prop :=
  if f.hdr.isFlat then
    info.stackLow = f.skip ∧ info.stackSize = f.stack ∧ info.heapStart = f.heapStart
  else
    ∃ s t, (f.entries.map (f.entryShape slib))[f.hdr.stackIndex.toNat]? = some s ∧
      ((f.entries.map (f.entryShape slib)).modify f.hdr.stackIndex.toNat
        (·.growBytes64capped f.hdr.stackNbytes.toNat))[f.hdr.heapIndex.toNat]? = some t ∧
      info.stackLow = s.limit ∧ info.stackSize = f.hdr.stackNbytes.toNat ∧ info.heapStart = t.limit

/-- What the loader, what it says, and the address space are when the segments are laid out. -/
structure LaidOut (slib : Bool) (f : Lmf) (w₀ : Space) (r : AbstractLoader × LoadInfo) (w : Space) :
    Prop where
  table : f.entries.length = f.segmentCount
  loader : r.1 = f.loader w₀.count
  laid : Laid w₀ (f.shapes slib) w
  informs : f.Informs slib r.2
  sizes : ∀ e ∈ f.entries, ¬ f.hdr.isFlat → e.size.toNat ≤ SegmentLoader.reservation slib f.hdr
  fits : f.hdr.isFlat → f.FlatFits ∧ f.HeapFits ∧ f.hdr.heapNbytes.toNat % MemOps.pageSize = 0 ∧
    f.hdr.codeIndex.toNat < f.entries.length

variable {f : Lmf} {slib : Bool} {host : Host} {info : LoadInfo} {w w₀ : Space}

/-! ## The flat layout -/

theorem dvd_uint32 {n : Nat} (h : MemOps.pageSize ∣ n) : MemOps.pageSize ∣ uint32 n :=
  (Nat.dvd_mod_iff (by decide)).mpr h

theorem foldl_allocSegment {l : FlatLoader} {es : List SegEntry} (h : MemOps.pageSize ∣ l.segmentPos) :
    (es.foldl FlatLoader.allocSegment l).segments.length = l.segments.length + es.length ∧
      (es.foldl FlatLoader.allocSegment l).imageBase = l.imageBase ∧
      MemOps.pageSize ∣ (es.foldl FlatLoader.allocSegment l).segmentPos := by
  induction es generalizing l with
  | nil => exact ⟨rfl, rfl, h⟩
  | cons e es ih =>
      have hpos : MemOps.pageSize ∣ (l.allocSegment e).segmentPos :=
        dvd_uint32 ((Nat.dvd_add_right h).mpr (MemOps.dvd_alignPageUp _))
      obtain ⟨hlength, hbase, haligned⟩ := ih hpos
      refine ⟨?_, hbase, haligned⟩
      rw [List.foldl_cons, hlength, FlatLoader.allocSegment, List.length_append, List.length_singleton,
        List.length_cons]
      omega

theorem flat_spec (f : Lmf) : f.flat.segments.length = f.entries.length ∧
    f.flat.imageBase = f.imageBase ∧ MemOps.pageSize ∣ f.flat.segmentPos := by
  have hspec := @foldl_allocSegment (.prepareSegments f.hdr) f.entries
    (dvd_uint32 (MemOps.dvd_alignPageUp _))
  rw [show (FlatLoader.prepareSegments f.hdr).segments.length = 0 from rfl, Nat.zero_add] at hspec
  exact hspec

theorem foldlM_flat {l : FlatLoader} {es : List SegEntry} :
    es.foldlM (fun l e => AbstractLoader.allocSegment host slib f.hdr e l) (.flat l) =
      (pure (.flat (es.foldl FlatLoader.allocSegment l)) : SpaceM AbstractLoader) := by
  induction es generalizing l with
  | nil => rfl
  | cons e es ih => exact ih

theorem dvd_skip (f : Lmf) : MemOps.pageSize ∣ f.skip := by
  have h₁ : MemOps.pageSize ∣ f.imageBase := dvd_uint32 (MemOps.dvd_alignPageUp _)
  have h₂ : MemOps.pageSize ∣ f.stack := dvd_uint32 (MemOps.dvd_alignPageUp _)
  exact dvd_uint32 ((Nat.dvd_add_right h₁).mpr (Nat.dvd_sub (by decide) h₂))

theorem dvd_imageSize (f : Lmf) : MemOps.pageSize ∣ f.imageSize := by
  have h₁ : MemOps.pageSize ∣ f.imageBase := dvd_uint32 (MemOps.dvd_alignPageUp _)
  exact dvd_uint32 ((Nat.dvd_add_right f.flat_spec.2.2).mpr (Nat.dvd_sub (by decide) h₁))

theorem uint32_lt (n : Nat) : uint32 n < 2 ^ 32 := Nat.mod_lt n (by decide)

/-- What growing a segment of whole pages asks for. -/
theorem growPaged_of_odd {m : Mapped} {size : Nat} (h : size % MemOps.pageSize ≠ 0) :
    (Segment.growPaged host size).Leaves m (fun _ _ => False) (fun _ _ => True) := by
  have hrun : (Segment.growPagedInternal host size).Leaves m (fun _ _ => False) (fun _ _ => True) := by
    unfold Segment.growPagedInternal
    apply EStateM.leaves_get_bind
    rw [if_pos h]
    exact EStateM.leaves_throw trivial
  exact hrun.bind fun _ _ hfalse => hfalse.elim

theorem finalizeSegments_flat_leaves (h : w₀.Inv) (htable : f.entries.length = f.segmentCount)
    (hflat : f.hdr.isFlat) :
    (f.flat.finalizeSegments host f.hdr info).Leaves w₀
      (fun r w => LaidOut slib f w₀ (.flat r.1, r.2) w)
      (fun e _ => ∀ flt, e = .fault flt → f.LayoutFaults) := by
  obtain ⟨hlength, hbase, -⟩ := f.flat_spec
  have hstack : MemOps.pageSize ∣ f.stack := dvd_uint32 (MemOps.dvd_alignPageUp _)
  unfold FlatLoader.finalizeSegments
  dsimp only
  rw [hbase]
  show (if f.imageBase < uint32 (f.stack + MemOps.pageSize) then _ else _ : SpaceM _).Leaves w₀ _ _
  split
  · exact EStateM.leaves_throw nofun
  next hbelow =>
  refine (Laid.refl h).new_leaves ?_ (fun _ _ => nofun)
  intro w₁ h₁
  have hreserved : sizeT (MemOps.alignPageUp (MemOps.mega 512)) = MemOps.mega 512 := by decide
  rw [hreserved] at h₁
  -- guard pages, stack, image and heap, one after the other
  have hskip := h₁.onSegment_leaves (k := 0) (s := Shape.empty (MemOps.mega 512))
    (g := fun s => s.skipPaged f.skip) (E := fun e _ => ∀ flt, e = .fault flt → f.LayoutFaults) rfl
    (Shape.skipPaged_leaves (h₁.shape rfl) rfl f.dvd_skip (uint32_lt _)) (fun _ => nofun)
  refine hskip.bind ?_
  rintro _ w₂ ⟨h₂, -⟩
  refine (Laid.growPaged_leaves h₂ hstack (fun _ => nofun)).bind ?_
  rintro _ w₃ ⟨h₃, hstack_pos, -⟩
  refine (Laid.growPaged_leaves h₃ f.dvd_imageSize (fun _ => nofun)).bind ?_
  rintro _ w₄ ⟨h₄, himage_pos, himage_fits⟩
  have hfits : f.FlatFits := by
    refine ⟨Nat.le_of_not_lt hbelow, hstack_pos, himage_pos, ?_⟩
    have hle : 0 + f.skip + f.stack + f.imageSize ≤ MemOps.mega 512 := himage_fits
    rwa [Nat.zero_add] at hle
  have hlimit : (w₄.segments w₀.count).limitSize = 0 + f.skip + f.stack + f.imageSize :=
    (h₄.shape (k := 0) rfl).limit
  apply EStateM.leaves_get_bind
  by_cases hodd : f.hdr.heapNbytes.toNat % MemOps.pageSize = 0
  · refine (h₄.growPaged_leaves (Nat.dvd_of_mod_eq_zero hodd) (fun _ => nofun)).bind ?_
    rintro _ w₅ ⟨h₅, hheap_pos, hheap_fits⟩
    have hheapFits : f.HeapFits := by
      refine ⟨hheap_pos, ?_⟩
      have hle : 0 + f.skip + f.stack + f.imageSize + f.hdr.heapNbytes.toNat ≤ MemOps.mega 512 :=
        hheap_fits
      rwa [Nat.zero_add] at hle
    split
    · next hcode =>
        refine EStateM.leaves_throw ?_
        intro _ _
        rw [List.getElem?_eq_none_iff, hlength] at hcode
        exact ⟨htable, hflat, hfits, .inr ⟨hheapFits, hcode⟩⟩
    · next code hcode =>
        have hcode' := (List.getElem?_eq_some_iff.mp hcode).1
        rw [hlength] at hcode'
        refine EStateM.leaves_pure ⟨htable, ?_, ?_, ?_, ?_, ?_⟩
        · rw [loader, if_pos hflat, ← hbase]
          rfl
        · rw [shapes, if_pos hflat]
          exact h₅
        · rw [Informs, if_pos hflat]
          refine ⟨rfl, rfl, ?_⟩
          show uint32 (w₄.segments w₀.count).limitSize = f.heapStart
          rw [hlimit, Nat.zero_add]
          exact uint32_of_lt (Nat.lt_of_le_of_lt hfits.2.2.2 (by decide))
        · intro e _ hnot
          exact absurd hflat hnot
        · intro _
          exact ⟨hfits, hheapFits, hodd, hcode'⟩
  · refine ((Space.onSegment_leaves (growPaged_of_odd hodd)).mono (fun _ _ h => h) ?_).bind ?_
    · intro e w' _ _ _
      exact ⟨htable, hflat, hfits, .inl hodd⟩
    · rintro _ _ ⟨_, hfalse, -⟩
      exact hfalse.elim

/-! ## The segmented layout -/

theorem reservation_aligned (hdr : LmfHeader) :
    sizeT (MemOps.alignPageUp (SegmentLoader.reservation slib hdr)) =
      SegmentLoader.reservation slib hdr := by
  unfold SegmentLoader.reservation
  split
  · decide
  · split <;> decide

theorem modify_last {α : Type} (l : List α) (a : α) (g : α → α) :
    (l ++ [a]).modify l.length g = l ++ [g a] := by
  induction l with
  | nil => rfl
  | cons b l ih => rw [List.cons_append, List.length_cons, List.modify_succ_cons, ih, List.cons_append]

theorem allocSegment_leaves {shapes : List Shape} {l : SegmentLoader} {e : SegEntry}
    (h : Laid w₀ shapes w) :
    (l.allocSegment host slib f.hdr e).Leaves w
      (fun l' w' => l'.segments = l.segments ++ [w₀.count + shapes.length] ∧
        Laid w₀ (shapes ++ [f.entryShape slib e]) w' ∧
        e.size.toNat ≤ SegmentLoader.reservation slib f.hdr)
      (fun e _ => e = .badAlloc) := by
  unfold SegmentLoader.allocSegment
  refine h.new_leaves ?_ (fun _ => rfl)
  intro w₁ h₁
  rw [reservation_aligned] at h₁
  have hlast : (shapes ++ [Shape.empty (SegmentLoader.reservation slib f.hdr)])[shapes.length]? =
      some (Shape.empty (SegmentLoader.reservation slib f.hdr)) := by
    rw [List.getElem?_append_right (Nat.le_refl _), Nat.sub_self]
    rfl
  have hgrow := h₁.onSegment_leaves (E := fun e _ => e = .badAlloc)
    (g := fun s => s.growBytes e.size.toNat) hlast
    (@Shape.growBytes_leaves _ _ host _ (h₁.shape hlast) (by have := e.size.isLt; omega)) (fun _ => rfl)
  refine hgrow.bind ?_
  rintro _ w₂ ⟨h₂, hfits⟩
  refine EStateM.leaves_pure ⟨rfl, ?_, ?_⟩
  · have hmodify : (shapes ++ [Shape.empty (SegmentLoader.reservation slib f.hdr)]).modify shapes.length
        (fun s => s.growBytes e.size.toNat) = shapes ++ [f.entryShape slib e] := modify_last _ _ _
    rwa [hmodify] at h₂
  · have hle : 0 + e.size.toNat ≤ SegmentLoader.reservation slib f.hdr := hfits
    omega

theorem foldlM_segmented_leaves {es : List SegEntry} {shapes : List Shape} {l : SegmentLoader}
    (h : Laid w₀ shapes w) (hl : l.segments = (List.range shapes.length).map (w₀.count + ·)) :
    (es.foldlM (fun l e => AbstractLoader.allocSegment host slib f.hdr e l) (.segmented l)).Leaves w
      (fun l' w' => l' = .segmented ⟨(List.range (shapes.length + es.length)).map (w₀.count + ·)⟩ ∧
        Laid w₀ (shapes ++ es.map (f.entryShape slib)) w' ∧
        ∀ e ∈ es, e.size.toNat ≤ SegmentLoader.reservation slib f.hdr)
      (fun e _ => e = .badAlloc) := by
  induction es generalizing shapes l w with
  | nil =>
      refine EStateM.leaves_pure ⟨?_, ?_, nofun⟩
      · rw [List.length_nil, Nat.add_zero, ← hl]
      · rw [List.map_nil, List.append_nil]
        exact h
  | cons e es ih =>
      rw [List.foldlM_cons]
      show ((l.allocSegment host slib f.hdr e >>= fun l => pure (AbstractLoader.segmented l)) >>=
        _).Leaves w _ _
      rw [bind_assoc]
      refine (allocSegment_leaves h).bind ?_
      rintro l' w' ⟨hl', h', hsize⟩
      rw [pure_bind]
      have hsegments : l'.segments = (List.range (shapes.length + 1)).map (w₀.count + ·) := by
        rw [hl', hl, List.range_succ, List.map_append]
        rfl
      have hlength : (shapes ++ [f.entryShape slib e]).length = shapes.length + 1 := by
        rw [List.length_append, List.length_singleton]
      refine (ih h' (hlength.symm ▸ hsegments)).mono ?_ (fun _ _ he => he)
      rintro l'' w'' ⟨hl'', h'', hsizes⟩
      refine ⟨?_, ?_, ?_⟩
      · rw [hl'', hlength, List.length_cons, Nat.add_assoc, Nat.add_comm 1]
      · rw [List.append_assoc, List.singleton_append, ← List.map_cons] at h''
        exact h''
      · intro e' he'
        rcases List.mem_cons.mp he' with rfl | he'
        · exact hsize
        · exact hsizes e' he'

theorem finalizeSegments_segmented_leaves {l : SegmentLoader} (hflat : f.hdr.isFlat = false)
    (h : Laid w₀ (f.entries.map (f.entryShape slib)) w)
    (hl : l.segments = (List.range f.entries.length).map (w₀.count + ·)) :
    (l.finalizeSegments host f.hdr info).Leaves w
      (fun info' w' => Laid w₀ (f.shapes slib) w' ∧ f.Informs slib info')
      (fun e _ => ∀ flt, e ≠ .fault flt) := by
  have hget : ∀ i seg, l.segments[i]? = some seg → seg = w₀.count + i ∧ i < f.entries.length := by
    intro i seg hseg
    rw [hl, List.getElem?_map, Option.map_eq_some_iff] at hseg
    obtain ⟨j, hj, rfl⟩ := hseg
    obtain ⟨hlt, hval⟩ := List.getElem?_eq_some_iff.mp hj
    rw [List.getElem_range] at hval
    rw [List.length_range] at hlt
    exact ⟨by rw [hval], hlt⟩
  have hlimit : ∀ {s : Shape} {seg : Segment}, s.Of seg → uint32 seg.limitSize = s.limit := by
    intro s seg hs
    have h₁ := hs.inv.limit_le
    have h₂ := hs.paged_lt
    have h₃ := hs.paged
    rw [← hs.limit]
    exact uint32_of_lt (by omega)
  unfold SegmentLoader.finalizeSegments
  split
  · next stackSeg heapSeg hstackSeg hheapSeg =>
      obtain ⟨rfl, hstack⟩ := hget _ _ hstackSeg
      obtain ⟨rfl, hheap⟩ := hget _ _ hheapSeg
      obtain ⟨s, hs⟩ : ∃ s, (f.entries.map (f.entryShape slib))[f.hdr.stackIndex.toNat]? = some s :=
        ⟨_, List.getElem?_eq_getElem (by rwa [List.length_map])⟩
      apply EStateM.leaves_get_bind
      refine (h.growBytes64capped_leaves hs f.hdr.stackNbytes.isLt (fun _ _ => nofun)).bind ?_
      intro _ w₁ h₁
      obtain ⟨t, ht⟩ : ∃ t, ((f.entries.map (f.entryShape slib)).modify f.hdr.stackIndex.toNat
          (·.growBytes64capped f.hdr.stackNbytes.toNat))[f.hdr.heapIndex.toNat]? = some t :=
        ⟨_, List.getElem?_eq_getElem (by rwa [List.length_modify, List.length_map])⟩
      apply EStateM.leaves_get_bind
      refine (h₁.growBytes64capped_leaves ht f.hdr.heapNbytes.isLt (fun _ _ => nofun)).bind ?_
      intro _ w₂ h₂
      refine EStateM.leaves_pure ⟨?_, ?_⟩
      · rw [shapes, if_neg (Bool.eq_false_iff.mp hflat)]
        exact h₂
      · rw [Informs, if_neg (Bool.eq_false_iff.mp hflat)]
        exact ⟨s, t, hs, ht, hlimit (h.shape hs), rfl, hlimit (h₁.shape ht)⟩
  · exact EStateM.leaves_throw nofun

/-! ## Both -/

/-- When the loader comes to the records, the segments are laid out as the header and the table ask for;
it can only have failed in the ways `LayoutFaults` names, or thrown an exception. -/
theorem layout_leaves (h : w₀.Inv) :
    (f.layout host slib info).Leaves w₀ (LaidOut slib f w₀)
      (fun e _ => ∀ flt, e = .fault flt → f.LayoutFaults) := by
  unfold layout
  dsimp only
  by_cases hflat : f.hdr.isFlat = true
  · rw [AbstractLoader.prepareSegments, if_pos hflat, foldlM_flat, pure_bind]
    split
    · exact EStateM.leaves_throw nofun
    · next hlen =>
        have htable : f.entries.length = f.segmentCount := by have := f.entries_le; omega
        have hfinal := @finalizeSegments_flat_leaves f slib host
          { info with bits := if !f.hdr.is32bit then .b16 else .b32 } w₀ h htable hflat
        refine hfinal.bind ?_
        intro r w hr
        exact EStateM.leaves_pure hr
  · rw [AbstractLoader.prepareSegments, if_neg hflat]
    refine ((foldlM_segmented_leaves (Laid.refl h) rfl).mono (fun _ _ hw => hw) ?_).bind ?_
    · rintro _ _ rfl flt
      nofun
    · rintro _ w ⟨rfl, hlaid, hsizes⟩
      rw [List.length_nil, Nat.zero_add]
      rw [List.nil_append] at hlaid
      split
      · exact EStateM.leaves_throw nofun
      · next hlen =>
          have htable : f.entries.length = f.segmentCount := by have := f.entries_le; omega
          refine ((finalizeSegments_segmented_leaves (Bool.eq_false_iff.mpr hflat) hlaid rfl).mono
            (fun _ _ hw => hw) (fun _ _ he flt heq => absurd heq (he flt))).bind ?_
          rintro info' w' ⟨hlaid', hinforms⟩
          refine EStateM.leaves_pure ⟨htable, ?_, hlaid', hinforms, fun e he _ => hsizes e he, ?_⟩
          · rw [loader, if_neg hflat]
          · intro hyes
            exact absurd hyes hflat

end Lmf

end Qine
