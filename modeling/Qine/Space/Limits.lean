import Qine.Space

/-!
# Limits

The guest's hardware checks an access against the limit in the LDT, the emulator against the pages of the
segment. `update_descriptors` computes the limit from either of two sizes: up to 64 kilobytes from
`m_paged_size`, in bytes, above from `m_limit_size`, in pages.

`UserDesc.exposed` is what the hardware lets through. `exposed_iff` says for which segments that is
`m_paged_size`: not for one without a page, whose limit wraps around, and not for one with skipped pages
beyond a limit of more than 64 kilobytes. Skips are not held to a bound here; the sizes stay in step even
if one wraps around, as it comes before anything is grown, so `Sized` is all that can be asked.
-/

namespace Qine

/-- How many bytes the hardware lets through. -/
def UserDesc.exposed (ud : UserDesc) : Nat :=
  if ud.limitInPages then (ud.limit + 1) * 4096 else ud.limit + 1

namespace Segment

/-- What the sizes of a segment keep to, whatever its bitmap is. -/
structure Sized (s : Segment) : Prop where
  reserved_le : s.reserved ≤ 2 ^ 31
  paged_le : s.pagedSize ≤ s.reserved
  limit_le : s.limitSize ≤ s.pagedSize
  aligned : MemOps.pageSize ∣ s.pagedSize

/-- The call is a `skip_paged`. -/
def Growth.IsSkip : Growth → Prop
  | .skipPaged _ => True
  | _ => False

/-- A `grow_bytes` does not wrap around. -/
def Growth.NoCarry (s : Segment) : Growth → Prop
  | .growBytes size => size + s.limitSize < 2 ^ 64
  | _ => True

variable {s s' s₀ s₁ : Mapped} {host : Host} {size : Nat} {g : Growth}

theorem RepInv.sized {s : Segment} (h : RepInv s) : Sized s where
  reserved_le := Nat.le_trans (Nat.le_add_left _ _) h.low
  paged_le := h.paged_le
  limit_le := h.limit_le
  aligned := h.aligned

/-! ## Skips -/

theorem skipPaged_sizes (h : Sized s.seg) (hlimit : s.seg.limitSize = 0)
    (haligned : MemOps.pageSize ∣ size) :
    (skipPaged size).Leaves s (fun _ s' => Sized s'.seg ∧ s'.seg.limitSize = 0)
      (fun _ s' => s' = s) := by
  unfold skipPaged
  apply EStateM.leaves_get_bind
  rw [if_neg (by simpa using Nat.mod_eq_zero_of_dvd haligned)]
  split
  · exact EStateM.leaves_throw rfl
  · next hres =>
      rw [Nat.add_comm] at hres
      refine EStateM.leaves_set ⟨⟨h.reserved_le, Nat.le_of_not_lt hres, ?_, ?_⟩, hlimit⟩
      · show s.seg.limitSize ≤ _
        omega
      · exact (Nat.dvd_mod_iff (by decide)).mpr ((Nat.dvd_add_right h.aligned).mpr haligned)

theorem sized_of_skips (h : Sized s₀.seg) (hlimit : s₀.seg.limitSize = 0)
    (hskips : Relation.ReflTransGen (Grows fun _ g => g.IsSkip) s₀ s) :
    Sized s.seg ∧ s.seg.limitSize = 0 := by
  induction hskips with
  | refl => exact ⟨h, hlimit⟩
  | tail _ hstep ih =>
      obtain ⟨host, g, hvalid, hskip, hend⟩ := hstep
      cases g with
      | skipPaged size =>
          have hleaves := @skipPaged_sizes _ _ ih.1 ih.2 hvalid.2
          rcases hend with hok | herr
          · exact hleaves.of_ok hok
          · rw [hleaves.of_error herr]
            exact ih
      | growPaged _ => exact hskip.elim
      | growBytes _ => exact hskip.elim
      | growBytes64capped _ => exact hskip.elim

/-! ## Growths -/

/-- The segment has the pages it had, and those its limit asks for. -/
structure Fits (s s' : Segment) : Prop where
  sized : Sized s'
  paged : s'.pagedSize = max s.pagedSize (MemOps.alignPageUp s'.limitSize)

theorem Sized.withLimit (h : Sized s.seg) {limit : Nat} (hle : limit ≤ s.seg.pagedSize) :
    Fits s.seg (s.withLimit limit).seg where
  sized := ⟨h.reserved_le, h.paged_le, hle, h.aligned⟩
  paged := (Nat.max_eq_left (MemOps.alignPageUp_le h.aligned hle)).symm

theorem grown_sizes (h : Sized s.seg) (haligned : MemOps.pageSize ∣ size)
    (hfits : s.seg.pagedSize + size ≤ s.seg.reserved) :
    Sized (s.grown size).seg ∧ (s.grown size).seg.pagedSize = s.seg.pagedSize + size := by
  have hpaged : (s.grown size).seg.pagedSize = s.seg.pagedSize + size :=
    sizeT_of_lt (by have := h.reserved_le; omega)
  refine ⟨⟨h.reserved_le, ?_, ?_, ?_⟩, hpaged⟩
  · rw [hpaged]
    exact hfits
  · rw [hpaged]
    exact Nat.le_trans h.limit_le (Nat.le_add_right _ _)
  · rw [hpaged]
    exact (Nat.dvd_add_right h.aligned).mpr haligned

theorem growPaged_sizes (h : Sized s.seg) (haligned : MemOps.pageSize ∣ size) :
    (growPaged host size).Leaves s
      (fun _ s' => Fits s.seg s'.seg ∧ s.seg.limitSize ≤ s'.seg.limitSize) (fun _ s' => s' = s) := by
  refine ((growPagedInternal_leaves haligned).mono (fun _ _ hs => hs) (fun _ _ he => he.2)).bind ?_
  rintro _ _ ⟨rfl, -, hfits⟩
  obtain ⟨hsized, hpaged⟩ := grown_sizes h haligned hfits
  refine EStateM.leaves_modify ⟨⟨(hsized.withLimit (Nat.le_refl _)).sized, ?_⟩, ?_⟩
  · show (s.grown size).seg.pagedSize =
      max s.seg.pagedSize (MemOps.alignPageUp (s.grown size).seg.pagedSize)
    rw [MemOps.alignPageUp_of_dvd hsized.aligned]
    omega
  · show s.seg.limitSize ≤ (s.grown size).seg.pagedSize
    have := h.limit_le
    omega

theorem growBytes_sizes (h : Sized s.seg) {needed : Nat}
    (hneeded : sizeT (size + s.seg.limitSize) = needed) :
    (growBytes host size).Leaves s
      (fun _ s' => Fits s.seg s'.seg ∧ s'.seg.limitSize = needed) (fun _ s' => s' = s) := by
  refine (growBytes_moves h.aligned hneeded).mono ?_ (fun _ _ he => he.2)
  rintro _ s' (⟨hmore, hfits, rfl⟩ | ⟨hless, rfl⟩)
  · have hup := MemOps.le_alignPageUp needed
    have haligned : MemOps.pageSize ∣ MemOps.alignPageUp needed - s.seg.pagedSize :=
      Nat.dvd_sub (MemOps.dvd_alignPageUp needed) h.aligned
    obtain ⟨hsized, hpaged⟩ := grown_sizes h haligned hfits
    refine ⟨⟨(hsized.withLimit (by omega)).sized, ?_⟩, rfl⟩
    show (s.grown _).seg.pagedSize = max s.seg.pagedSize (MemOps.alignPageUp needed)
    omega
  · exact ⟨h.withLimit hless, rfl⟩

theorem growth_sizes (h : Sized s.seg) (hvalid : g.Valid) (hgrow : ¬ g.IsSkip) :
    (g.run host).Leaves s
      (fun _ s' => Fits s.seg s'.seg ∧ (g.NoCarry s.seg → s.seg.limitSize ≤ s'.seg.limitSize))
      (fun _ s' => s' = s) := by
  cases g with
  | growPaged size =>
      exact (growPaged_sizes h hvalid.2).mono (fun _ _ hs => ⟨hs.1, fun _ => hs.2⟩)
        (fun _ _ he => he)
  | growBytes size =>
      refine (growBytes_sizes h rfl).mono ?_ (fun _ _ he => he)
      rintro _ s' ⟨hfits, hlimit⟩
      refine ⟨hfits, fun hcarry => ?_⟩
      rw [hlimit, sizeT_of_lt hcarry]
      exact Nat.le_add_left _ _
  | growBytes64capped size =>
      refine growBytes64capped_rule ?_ ?_
      · intro newSize hnew hlt
        refine (growBytes_sizes h (sizeT_newSize hnew hlt)).mono ?_ (fun _ _ he => he)
        rintro _ s' ⟨hfits, hlimit⟩
        exact ⟨hfits, fun _ => hlimit ▸ Nat.le_of_lt hlt⟩
      · intro _
        exact ⟨h.withLimit (s := s) h.limit_le, fun _ => Nat.le_refl _⟩
  | skipPaged size => exact absurd trivial hgrow

theorem sized_of_growths (h : Sized s₁.seg)
    (hgrowths : Relation.ReflTransGen (Grows fun _ g => ¬ g.IsSkip) s₁ s) : Sized s.seg := by
  induction hgrowths with
  | refl => exact h
  | tail _ hstep ih =>
      obtain ⟨host, g, hvalid, hgrow, hok | herr⟩ := hstep
      · exact ((growth_sizes ih hvalid hgrow).of_ok hok).1.sized
      · rw [(growth_sizes ih hvalid hgrow).of_error herr]
        exact ih

/-- As long as the limit only moves up, the pages are those left out at first, and those up to the
limit. -/
theorem fits_of_growths (h : Sized s₁.seg)
    (hgrowths : Relation.ReflTransGen (Grows fun s g => ¬ g.IsSkip ∧ g.NoCarry s) s₁ s) :
    Fits s₁.seg s.seg := by
  induction hgrowths with
  | refl => exact h.withLimit (s := s₁) h.limit_le
  | tail _ hstep ih =>
      obtain ⟨host, g, hvalid, ⟨hgrow, hcarry⟩, hok | herr⟩ := hstep
      · obtain ⟨hfits, hup⟩ := (growth_sizes ih.sized hvalid hgrow).of_ok hok
        have hmono := MemOps.alignPageUp_mono (hup hcarry)
        have hbefore := ih.paged
        have hafter := hfits.paged
        exact ⟨hfits.sized, by omega⟩
      · rw [(growth_sizes ih.sized hvalid hgrow).of_error herr]
        exact ih

/-! ## The limit in the LDT -/

theorem exposed_of_le (h : Sized s.seg) (sd : SegmentDescriptor) (hle : s.seg.limitSize ≤ 64 * 1024)
    (hpos : 0 < s.seg.pagedSize) : (sd.userDesc s.seg).exposed = s.seg.pagedSize := by
  have h₁ := h.reserved_le
  have h₂ := h.paged_le
  have hlimit : uint32 (s.seg.pagedSize + (2 ^ 32 - 1)) = s.seg.pagedSize - 1 := by
    unfold uint32
    omega
  simp only [UserDesc.exposed, SegmentDescriptor.userDesc, Nat.not_lt.mpr hle, decide_false,
    Bool.false_eq_true, if_false, hlimit]
  omega

theorem exposed_of_empty (sd : SegmentDescriptor) (hle : s.seg.limitSize ≤ 64 * 1024)
    (hzero : s.seg.pagedSize = 0) : (sd.userDesc s.seg).exposed = 2 ^ 32 := by
  simp [UserDesc.exposed, SegmentDescriptor.userDesc, Nat.not_lt.mpr hle, hzero, uint32]

theorem exposed_of_lt (h : Sized s.seg) (sd : SegmentDescriptor) (hlt : 64 * 1024 < s.seg.limitSize) :
    (sd.userDesc s.seg).exposed = MemOps.alignPageUp s.seg.limitSize := by
  have h₁ := h.reserved_le
  have h₂ := h.paged_le
  have hup := MemOps.le_alignPageUp s.seg.limitSize
  have hle := MemOps.alignPageUp_le h.aligned h.limit_le
  obtain ⟨k, hk⟩ := MemOps.dvd_alignPageUp s.seg.limitSize
  have hdiv : MemOps.alignPageUp s.seg.limitSize / MemOps.pageSize = k := by
    rw [hk]
    exact Nat.mul_div_cancel_left k (by decide)
  simp only [MemOps.pageSize] at hk
  have hlimit : uint32 (k + (2 ^ 32 - 1)) = k - 1 := by
    unfold uint32
    omega
  simp only [UserDesc.exposed, SegmentDescriptor.userDesc, hlt, decide_true, if_true, hdiv, hlimit]
  omega

theorem exposed_eq_iff (h : Sized s.seg) (sd : SegmentDescriptor) :
    (sd.userDesc s.seg).exposed = s.seg.pagedSize ↔ 0 < s.seg.pagedSize ∧
      (64 * 1024 < s.seg.limitSize → s.seg.pagedSize < s.seg.limitSize + MemOps.pageSize) := by
  have h₁ := h.limit_le
  by_cases hlt : 64 * 1024 < s.seg.limitSize
  · rw [exposed_of_lt h sd hlt]
    have hup := MemOps.le_alignPageUp s.seg.limitSize
    have hle := MemOps.alignPageUp_le h.aligned h.limit_le
    obtain ⟨j, hj⟩ := h.aligned
    obtain ⟨k, hk⟩ := MemOps.dvd_alignPageUp s.seg.limitSize
    have hnext := MemOps.alignPageUp_lt s.seg.limitSize
    simp only [MemOps.pageSize] at hj hk hnext ⊢
    constructor
    · intro heq
      exact ⟨by omega, fun _ => by omega⟩
    · rintro ⟨-, hlast⟩
      have := hlast hlt
      omega
  · have hle := Nat.le_of_not_lt hlt
    constructor
    · intro heq
      refine ⟨Nat.pos_of_ne_zero fun hzero => ?_, fun h => absurd h hlt⟩
      rw [exposed_of_empty sd hle hzero, hzero] at heq
      cases heq
    · rintro ⟨hpos, -⟩
      exact exposed_of_le h sd hle hpos

/-- After `reserve`, skips and growths, each of which may fail, the hardware lets through the bytes
`check_bounds` does exactly if there is a page, and none beyond the one a limit above 64 kilobytes falls in.
Where no `grow_bytes` wrapped around, that is: something was skipped or grown by at least a byte, and a
limit above 64 kilobytes has come to the last of the pages skipped. -/
theorem exposed_iff {used : List (Nat × Nat)} {n : Nat} {mem : Mem} (sd : SegmentDescriptor)
    (hreserve : (reserve host used n).run ⟨init, mem⟩ = .ok ⟨⟩ s₀)
    (hskips : Relation.ReflTransGen (Grows fun _ g => g.IsSkip) s₀ s₁)
    (hgrowths : Relation.ReflTransGen (Grows fun _ g => ¬ g.IsSkip) s₁ s) :
    ((sd.userDesc s.seg).exposed = s.seg.pagedSize ↔ 0 < s.seg.pagedSize ∧
      (64 * 1024 < s.seg.limitSize → s.seg.pagedSize < s.seg.limitSize + MemOps.pageSize)) ∧
    (Relation.ReflTransGen (Grows fun s g => ¬ g.IsSkip ∧ g.NoCarry s) s₁ s →
      ((sd.userDesc s.seg).exposed = s.seg.pagedSize ↔
        (0 < s₁.seg.pagedSize ∨ 0 < s.seg.limitSize) ∧
          (64 * 1024 < s.seg.limitSize →
            s₁.seg.pagedSize < s.seg.limitSize + MemOps.pageSize))) := by
  obtain ⟨hinv, -, hseg, -⟩ := reserve_leaves.of_ok hreserve
  obtain ⟨hsized, -⟩ := sized_of_skips hinv.sized (by rw [hseg]; rfl) hskips
  have hiff := exposed_eq_iff (sized_of_growths hsized hgrowths) sd
  refine ⟨hiff, fun hcarry => ?_⟩
  have hpaged := (fits_of_growths hsized hcarry).paged
  have hup := MemOps.le_alignPageUp s.seg.limitSize
  have hnext := MemOps.alignPageUp_lt s.seg.limitSize
  rw [hiff]
  constructor
  · rintro ⟨hpos, hlast⟩
    refine ⟨Nat.add_pos_iff_pos_or_pos.mp (Nat.pos_of_ne_zero fun hzero => ?_),
      fun hlt => by have := hlast hlt; omega⟩
    have hlimit : s.seg.limitSize = 0 := by omega
    rw [hlimit, MemOps.alignPageUp_of_dvd (Nat.dvd_zero _)] at hpaged
    omega
  · rintro ⟨hsome, hlast⟩
    exact ⟨by omega, fun hlt => by have := hlast hlt; omega⟩

/-- A data descriptor. -/
def dataDescriptor : SegmentDescriptor := ⟨0, .readWrite, 0, .b32⟩

/-- A page left out, and then a hundred bytes, for which that page is counted. -/
theorem exposed_after_skip :
    (dataDescriptor.userDesc
      ((growBytes Host.roomy 100).after ((skipPaged 0x1000).after twoPages)).seg).exposed = 0x1000 := by
  have h₁ : Grows (fun _ g => g.IsSkip) twoPages ((skipPaged 0x1000).after twoPages) :=
    ⟨Host.roomy, .skipPaged 0x1000, by decide, trivial, .inl (EStateM.run_after (by decide))⟩
  have h₂ : Grows (fun _ g => ¬ g.IsSkip) ((skipPaged 0x1000).after twoPages)
      ((growBytes Host.roomy 100).after ((skipPaged 0x1000).after twoPages)) :=
    ⟨Host.roomy, .growBytes 100, by decide, id, .inl (EStateM.run_after (by decide))⟩
  have hiff := exposed_iff dataDescriptor run_reserve_twoPages (.single h₁) (.single h₂)
  have hpaged : ((growBytes Host.roomy 100).after ((skipPaged 0x1000).after twoPages)).seg.pagedSize =
      0x1000 := by decide
  rw [← hpaged]
  exact hiff.1.mpr (by decide)

/-- The segment `segment_alloc` makes for a request of no bytes has no page, and the hardware lets all of
the address space through. -/
theorem exposed_of_no_bytes : ∃ s₀ s,
    (reserve Host.roomy [] (MemOps.mega 1)).run ⟨init, fun _ => 0⟩ = .ok ⟨⟩ s₀ ∧
      Relation.ReflTransGen (Grows fun _ g => ¬ g.IsSkip) s₀ s ∧
      s.seg.pagedSize = 0 ∧ (dataDescriptor.userDesc s.seg).exposed = 2 ^ 32 := by
  have hreserve : (reserve Host.roomy [] (MemOps.mega 1)).run ⟨init, fun _ => 0⟩ =
      .ok ⟨⟩ ((reserve Host.roomy [] (MemOps.mega 1)).after ⟨init, fun _ => 0⟩) :=
    EStateM.run_after (by decide)
  have hgrow : Grows (fun _ g => ¬ g.IsSkip)
      ((reserve Host.roomy [] (MemOps.mega 1)).after ⟨init, fun _ => 0⟩)
      ((growBytes Host.roomy 0).after
        ((reserve Host.roomy [] (MemOps.mega 1)).after ⟨init, fun _ => 0⟩)) :=
    ⟨Host.roomy, .growBytes 0, by decide, id, .inl (EStateM.run_after (by decide))⟩
  exact ⟨_, _, hreserve, .single hgrow, by decide, by decide⟩

end Segment
end Qine
