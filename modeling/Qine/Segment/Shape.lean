import Qine.Segment.Grow

/-!
# The shape of a segment

A segment that is set up by the loader has at most one hole, at its beginning: `skip_paged` comes before
all other calls. Four numbers then say all that `check_bounds` looks at, and each call moves them in a
way that can be computed without the segment.
-/

namespace Qine

/-- The sizes of a segment whose pages are all populated from `hole` on. -/
structure Shape where
  reserved : Nat
  hole : Nat
  paged : Nat
  limit : Nat
  deriving DecidableEq, Repr

namespace Shape

/-- A segment that was just reserved. -/
def empty (reserved : Nat) : Shape := ⟨reserved, 0, 0, 0⟩

/-- After `skip_paged`, which comes first. -/
def skipPaged (s : Shape) (size : Nat) : Shape :=
  { s with hole := s.hole + size, paged := s.paged + size }

/-- After `grow_paged`. -/
def growPaged (s : Shape) (size : Nat) : Shape :=
  { s with paged := s.paged + size, limit := s.paged + size }

/-- With the limit moved and pages added up to it. -/
def growTo (s : Shape) (limit : Nat) : Shape :=
  { s with paged := max s.paged (MemOps.alignPageUp limit), limit := limit }

/-- After `grow_bytes`. -/
def growBytes (s : Shape) (size : Nat) : Shape := s.growTo (s.limit + size)

/-- After `grow_bytes_64capped`. -/
def growBytes64capped (s : Shape) (size : Nat) : Shape :=
  s.growTo (max s.limit (min (s.limit + size) (MemOps.kilo 64)))

/-- `size` bytes at `offset` are in bounds. Without bytes there may be no page to look at. -/
def Fits (s : Shape) (offset size : Nat) : Prop :=
  offset < s.paged ∧ offset + size ≤ s.paged ∧
    (s.hole ≤ offset ∨ size = 0 ∧ offset % MemOps.pageSize = 0)

instance (s : Shape) (offset size : Nat) : Decidable (s.Fits offset size) :=
  inferInstanceAs (Decidable (_ ∧ _ ∧ _))

/-- The segment has the shape. -/
structure Of (s : Shape) (seg : Segment) : Prop where
  inv : Segment.RepInv seg
  reserved : seg.reserved = s.reserved
  paged : seg.pagedSize = s.paged
  limit : seg.limitSize = s.limit
  hole_aligned : MemOps.pageSize ∣ s.hole
  hole_le : s.hole ≤ s.paged
  bitmap : seg.bitmap = List.replicate (s.hole / MemOps.pageSize) false ++
    List.replicate (s.paged / MemOps.pageSize - s.hole / MemOps.pageSize) true

variable {s s' : Shape} {seg : Segment} {m : Mapped} {host : Host} {size offset o : Nat}

/-! ## Bounds -/

/-- The bit of a page: it is set behind the hole. -/
theorem Of.bit (h : s.Of seg) {p : Nat} (hp : p < s.paged / MemOps.pageSize) :
    seg.bitmap[p]? = some (decide (s.hole / MemOps.pageSize ≤ p)) := by
  rw [h.bitmap, List.getElem?_append, List.length_replicate, List.getElem?_replicate,
    List.getElem?_replicate]
  by_cases hlt : p < s.hole / MemOps.pageSize
  · rw [if_pos hlt, if_pos hlt, decide_eq_false (Nat.not_le.mpr hlt)]
  · rw [if_neg hlt, if_pos (by omega), decide_eq_true (Nat.le_of_not_lt hlt)]

theorem Of.paged_lt (h : s.Of seg) : s.paged ≤ 2 ^ 31 := by
  have h₁ := h.inv.low
  have h₂ := h.inv.paged_le
  have h₃ := h.paged
  omega

/-- A byte behind the hole is on a populated page. -/
theorem Of.populated (h : s.Of seg) (h₁ : s.hole ≤ o) (h₂ : o < s.paged) :
    seg.bitmap[o / MemOps.pageSize]? = some true := by
  have haligned := h.inv.aligned
  rw [h.paged] at haligned
  have hp : o / MemOps.pageSize < s.paged / MemOps.pageSize :=
    Nat.div_lt_div_of_lt_of_dvd haligned h₂
  rw [h.bit hp, decide_eq_true (Nat.div_le_div_right h₁)]

/-- `check_bounds`, without a segment. -/
theorem Of.checkBounds (h : s.Of seg) (ho : offset < 2 ^ 32) (hsize : size < 2 ^ 32) :
    seg.checkBounds offset size = true ↔ s.Fits offset size := by
  obtain ⟨kpaged, hkpaged⟩ := h.inv.aligned
  obtain ⟨khole, hkhole⟩ := h.hole_aligned
  rw [h.paged] at hkpaged
  have hbit : ∀ p < kpaged, seg.bitmap.getD p false = decide (khole ≤ p) := by
    intro p hp
    have hdiv : s.paged / MemOps.pageSize = kpaged := by
      rw [hkpaged, Nat.mul_div_cancel_left _ (by decide)]
    have hdiv' : s.hole / MemOps.pageSize = khole := by
      rw [hkhole, Nat.mul_div_cancel_left _ (by decide)]
    rw [List.getD_eq_getElem?_getD, h.bit (hdiv ▸ hp), hdiv']
    rfl
  have hle := h.hole_le
  unfold Segment.checkBounds Fits
  rw [h.paged]
  simp only [MemOps.pageSize] at hkpaged hkhole ⊢
  by_cases hin : offset < s.paged ∧ size ≤ s.paged - offset
  · rw [if_pos hin, List.all_eq_true]
    constructor
    · intro hall
      refine ⟨hin.1, by omega, ?_⟩
      by_cases hempty : size = 0 ∧ offset % 4096 = 0
      · exact .inr hempty
      · -- the page `offset` falls in is looked at
        have hpage := hall (offset / 4096)
          ((Segment.mem_probedPages ho hsize).mpr ⟨Nat.le_refl _, by omega⟩)
        rw [hbit _ (by omega), decide_eq_true_eq] at hpage
        exact .inl (by omega)
    · rintro ⟨-, -, hhole⟩ p hp
      rw [Segment.mem_probedPages ho hsize] at hp
      rw [hbit p (by omega), decide_eq_true_eq]
      omega
  · rw [if_neg hin]
    constructor
    · intro hfalse
      cases hfalse
    · rintro ⟨h₁, h₂, -⟩
      exact absurd ⟨h₁, by omega⟩ hin

/-! ## The calls -/

/-- What a call does to a segment that had shape `s`: it extends it, and it has shape `s'` then. -/
structure Became (s s' : Shape) (m m' : Mapped) : Prop where
  shape : s'.Of m'.seg
  ext : Segment.Extends m m'
  reserved : s'.reserved = s.reserved
  hole : s.hole ≤ s'.hole

theorem of_reserved {location reserved : Nat} (h : Segment.RepInv
    { Segment.init with location := location, reserved := reserved }) :
    (empty reserved).Of { Segment.init with location := location, reserved := reserved } :=
  ⟨h, rfl, rfl, rfl, Nat.dvd_zero _, Nat.le_refl _, by simp [empty, Segment.init]⟩

/-- Pages that are added behind the others. -/
theorem Of.append {m' : Mapped} (h : s.Of m.seg) (hinv : Segment.RepInv m'.seg)
    (hext : Segment.Extends m m')
    (hbitmap : m'.seg.bitmap = m.seg.bitmap ++
      List.replicate ((m'.seg.pagedSize - m.seg.pagedSize) / MemOps.pageSize) true) :
    s.Became { s with paged := m'.seg.pagedSize, limit := m'.seg.limitSize } m m' := by
  have hle : s.paged ≤ m'.seg.pagedSize := h.paged ▸ hext.paged_le
  have hhole := h.hole_le
  refine ⟨⟨hinv, hext.reserved.trans h.reserved, rfl, rfl, h.hole_aligned, ?_, ?_⟩, hext, rfl,
    Nat.le_refl _⟩
  · exact Nat.le_trans hhole hle
  · rw [hbitmap, h.bitmap, List.append_assoc, List.replicate_append_replicate]
    congr 2
    obtain ⟨k, hk⟩ := h.inv.aligned
    obtain ⟨k', hk'⟩ := hinv.aligned
    obtain ⟨j, hj⟩ := h.hole_aligned
    have hpaged := h.paged
    dsimp only
    rw [hk] at hpaged
    rw [hk, hk', ← hpaged, hj]
    simp only [MemOps.pageSize] at *
    omega

theorem skipPaged_leaves (h : s.Of m.seg) (hfirst : s.hole = s.paged)
    (haligned : MemOps.pageSize ∣ size) (hsize : size < 2 ^ 32) :
    (Segment.skipPaged size).Leaves m
      (fun _ m' => s.Became (s.skipPaged size) m m' ∧ s.paged + size ≤ s.reserved)
      (fun e _ => e = .badAlloc) := by
  have hlt := h.paged_lt
  have hpaged := h.paged
  refine (Segment.skipPaged_leaves h.inv haligned (by omega)).mono ?_ (fun _ _ he => he.1)
  rintro _ m' ⟨hinv, hext, hpaged', hlimit, hbitmap⟩
  rw [hpaged] at hpaged'
  refine ⟨⟨⟨hinv, hext.reserved.trans h.reserved, hpaged', hlimit.trans h.limit, ?_, ?_, ?_⟩, hext, rfl,
    Nat.le_add_right _ _⟩, ?_⟩
  · exact (Nat.dvd_add_right h.hole_aligned).mpr haligned
  · show s.hole + size ≤ s.paged + size
    omega
  · show _ = List.replicate ((s.hole + size) / MemOps.pageSize) false ++ List.replicate
      ((s.paged + size) / MemOps.pageSize - (s.hole + size) / MemOps.pageSize) true
    rw [hbitmap, h.bitmap, hfirst, Nat.sub_self, Nat.sub_self, List.replicate_zero, List.append_nil,
      List.append_nil, List.replicate_append_replicate]
    congr 1
    obtain ⟨j, hj⟩ := h.hole_aligned
    obtain ⟨k, rfl⟩ := haligned
    rw [hfirst] at hj
    simp only [hj, MemOps.pageSize]
    omega
  · have hle := hinv.paged_le
    have hreserved : m'.seg.reserved = s.reserved := hext.reserved.trans h.reserved
    omega

theorem growPaged_leaves (h : s.Of m.seg) (haligned : MemOps.pageSize ∣ size) :
    (Segment.growPaged host size).Leaves m
      (fun _ m' => s.Became (s.growPaged size) m m' ∧ 0 < size ∧ s.paged + size ≤ s.reserved)
      (fun e _ => e = .badAlloc) := by
  refine (Segment.growPaged_leaves h.inv haligned).mono ?_ (fun _ _ he => he.1)
  rintro _ m' ⟨hinv, hext, hpos, hpaged, hlimit, hbitmap⟩
  have hle := hinv.paged_le
  have hreserved : m'.seg.reserved = s.reserved := hext.reserved.trans h.reserved
  have hsize : m'.seg.pagedSize - m.seg.pagedSize = size := by omega
  have hbecame := h.append hinv hext (hsize.symm ▸ hbitmap)
  rw [hlimit, hpaged, h.paged] at hbecame
  refine ⟨hbecame, hpos, ?_⟩
  rw [hpaged, h.paged] at hle
  omega

theorem growBytes_leaves (h : s.Of m.seg) (hsize : size < 2 ^ 32) :
    (Segment.growBytes host size).Leaves m
      (fun _ m' => s.Became (s.growBytes size) m m' ∧ s.limit + size ≤ s.reserved)
      (fun e _ => e = .badAlloc) := by
  have hlt := h.paged_lt
  have hlimit_le := h.inv.limit_le
  have hpaged := h.paged
  have hlimit := h.limit
  refine (Segment.growBytes_leaves h.inv).mono ?_ (fun _ _ he => he.1)
  rintro _ m' ⟨hinv, hext, hlimit', hpaged', hbitmap⟩
  have hbecame := h.append hinv hext hbitmap
  rw [sizeT_of_lt (by omega), hlimit, Nat.add_comm] at hlimit'
  rw [hlimit', hpaged] at hpaged'
  rw [hlimit', hpaged'] at hbecame
  refine ⟨hbecame, ?_⟩
  have h₁ := hinv.limit_le
  have h₂ := hinv.paged_le
  have hreserved : m'.seg.reserved = s.reserved := hext.reserved.trans h.reserved
  omega

theorem growBytes64capped_leaves (h : s.Of m.seg) (hsize : size < 2 ^ 32) :
    (Segment.growBytes64capped host size).Leaves m
      (fun _ m' => s.Became (s.growBytes64capped size) m m')
      (fun e _ => e = .badAlloc) := by
  have hlt := h.paged_lt
  have hlimit_le := h.inv.limit_le
  have hpaged := h.paged
  have hlimit := h.limit
  refine (Segment.growBytes64capped_leaves h.inv).mono ?_ (fun _ _ he => he.1)
  rintro _ m' ⟨hinv, hext, hlimit', hpaged', hbitmap⟩
  have hbecame := h.append hinv hext hbitmap
  rw [sizeT_of_lt (by omega), hlimit] at hlimit'
  rw [hlimit', hpaged] at hpaged'
  rw [hlimit', hpaged'] at hbecame
  exact hbecame

end Shape
end Qine
