import Qine.Startup

/-!
# How far the startup data goes

The startup data is laid out behind the beginning of the heap, and the data segment grows with it. How
large the segment is in the end can be told beforehand, from the lengths of the strings: `Bounded` follows
the offset of the `StartupSbrk` through the routines, and `bounded_layoutSpawn` puts them together.
-/

namespace Qine

/-! ## Growing a segment -/

namespace Segment

/-- The segment with as many bytes as `limit`, if it had less. -/
def grownTo (seg : Segment) (limit : Nat) : Segment :=
  { seg with
    limitSize := max seg.limitSize limit
    pagedSize := max seg.pagedSize (MemOps.alignPageUp (max seg.limitSize limit))
    bitmap := seg.bitmap ++ List.replicate
      ((max seg.pagedSize (MemOps.alignPageUp (max seg.limitSize limit)) - seg.pagedSize) /
        MemOps.pageSize) true }

variable {seg : Segment} {m : Mapped} {host : Host} {limit limit' : Nat}

theorem alignPageUp_mono {a b : Nat} (h : a ≤ b) : MemOps.alignPageUp a ≤ MemOps.alignPageUp b :=
  MemOps.alignPageUp_le (MemOps.dvd_alignPageUp b) (Nat.le_trans h (MemOps.le_alignPageUp b))

theorem grownTo_of_le (h : RepInv seg) (hle : limit ≤ seg.limitSize) : seg.grownTo limit = seg := by
  have hpaged : max seg.pagedSize (MemOps.alignPageUp seg.limitSize) = seg.pagedSize :=
    Nat.max_eq_left (MemOps.alignPageUp_le h.aligned h.limit_le)
  unfold grownTo
  rw [Nat.max_eq_left hle, hpaged, Nat.sub_self, Nat.zero_div, List.replicate_zero, List.append_nil]

theorem grownTo_grownTo (h : RepInv seg) :
    (seg.grownTo limit).grownTo limit' = seg.grownTo (max limit limit') := by
  have hlimit : max (max seg.limitSize limit) limit' = max seg.limitSize (max limit limit') :=
    Nat.max_assoc _ _ _
  have hmono : MemOps.alignPageUp (max seg.limitSize limit) ≤
      MemOps.alignPageUp (max seg.limitSize (max limit limit')) := alignPageUp_mono (by omega)
  obtain ⟨p, hp⟩ := h.aligned
  obtain ⟨q, hq⟩ := MemOps.dvd_alignPageUp (max seg.limitSize limit)
  obtain ⟨r, hr⟩ := MemOps.dvd_alignPageUp (max seg.limitSize (max limit limit'))
  unfold grownTo
  dsimp only
  rw [hlimit, List.append_assoc, List.replicate_append_replicate]
  simp only [hp, hq, hr, MemOps.pageSize] at hmono ⊢
  have hmax : max (max (4096 * p) (4096 * q)) (4096 * r) = max (4096 * p) (4096 * r) := by omega
  rw [hmax]
  congr 3
  omega

theorem growBytes_grownTo (h : RepInv m.seg) (hlt : m.seg.limitSize < limit) (hlimit : limit < 2 ^ 32) :
    (growBytes host (limit - m.seg.limitSize)).Leaves m
      (fun _ m' => m'.seg = m.seg.grownTo limit ∧ RepInv m'.seg) (fun _ _ => True) := by
  refine (growBytes_leaves h).mono ?_ (fun _ _ _ => trivial)
  rintro _ m' ⟨hinv, hext, hlimit', hpaged, hbitmap⟩
  refine ⟨?_, hinv⟩
  have hmax : max m.seg.limitSize limit = limit := by omega
  have hsize : m'.seg.limitSize = limit := by
    rw [hlimit', Nat.sub_add_cancel (Nat.le_of_lt hlt), sizeT_of_lt (by omega)]
  rw [hsize] at hpaged
  rw [hpaged] at hbitmap
  unfold grownTo
  rw [hmax, ← hbitmap, ← hpaged, ← hsize, ← hext.location, ← hext.reserved, ← hext.shared]

end Segment

/-! ## Startup data -/

namespace StartupSbrk

variable {α β : Type} {s s' s'' : StartupSbrk} {host : Host} {bound bound' : Nat}

/-- The segment was grown by no more than what `bound` asks for, and the offset is below it. -/
structure Moved (s : StartupSbrk) (bound : Nat) (s' : StartupSbrk) : Prop where
  inv : Segment.RepInv s'.mapped.seg
  seg : ∃ limit, limit ≤ bound ∧ s'.mapped.seg = s.mapped.seg.grownTo limit
  offset : s'.offset ≤ bound

theorem Moved.trans (hinv : Segment.RepInv s.mapped.seg) (h : s.Moved bound s')
    (h' : s'.Moved bound' s'') (hle : bound ≤ bound') : s.Moved bound' s'' := by
  obtain ⟨limit, hlimit, hseg⟩ := h.seg
  obtain ⟨limit', hlimit', hseg'⟩ := h'.seg
  refine ⟨h'.inv, ⟨max limit limit', by omega, ?_⟩, h'.offset⟩
  rw [hseg', hseg, Segment.grownTo_grownTo hinv]

/-- If the offset is at most `b`, the routine takes it to at most `g b`. -/
structure Bounded (x : SbrkM α) (g : Nat → Nat) : Prop where
  le : ∀ b, b ≤ g b
  leaves : ∀ s b, Segment.RepInv s.mapped.seg → s.offset ≤ b →
    x.Leaves s (fun _ s' => s.Moved (g b) s') (fun _ _ => True)

theorem bounded_of_same {x : SbrkM α} (h : ∀ s, x.Leaves s (fun _ s' => s'.mapped.seg = s.mapped.seg ∧
    s'.offset = s.offset) (fun _ _ => True)) : Bounded x id := by
  refine ⟨fun _ => Nat.le_refl _, ?_⟩
  intro s b hinv hb
  refine (h s).mono ?_ (fun _ _ _ => trivial)
  rintro _ s' ⟨hseg, hoffset⟩
  refine ⟨hseg.symm ▸ hinv, ⟨0, Nat.zero_le _, ?_⟩, hoffset ▸ hb⟩
  rw [Segment.grownTo_of_le hinv (Nat.zero_le _), hseg]

theorem bounded_pure (a : α) : Bounded (pure a) id :=
  bounded_of_same fun _ => EStateM.leaves_pure ⟨rfl, rfl⟩

theorem bounded_ptr : Bounded ptr id :=
  bounded_of_same fun _ => ptr_leaves.mono (fun _ _ h => h.1 ▸ ⟨rfl, rfl⟩) (fun _ _ h => h)

theorem bounded_store (offset : Nat) (bytes : List Byte) : Bounded (store offset bytes) id :=
  bounded_of_same fun _ => store_leaves.mono (fun _ _ h => h.2 ▸ ⟨rfl, rfl⟩) (fun _ _ h => h)

theorem Bounded.bind {x : SbrkM α} {f : α → SbrkM β} {g g' : Nat → Nat} (hx : Bounded x g)
    (hf : ∀ a, Bounded (f a) g') [Inhabited α] : Bounded (x >>= f) (g' ∘ g) := by
  refine ⟨fun b => Nat.le_trans (hx.le b) ((hf default).le (g b)), ?_⟩
  intro s b hinv hb
  refine (hx.leaves s b hinv hb).bind ?_
  intro a s₁ h₁
  refine ((hf a).leaves s₁ (g b) h₁.inv h₁.offset).mono ?_ (fun _ _ h => h)
  intro _ s₂ h₂
  exact h₁.trans hinv h₂ ((hf a).le (g b))

theorem moved_moveTo {offset : Nat} (hinv : Segment.RepInv s.mapped.seg) (hlt : offset < 2 ^ 32)
    (hle : offset ≤ bound) :
    (moveTo host offset).Leaves s (fun _ s' => s.Moved bound s') (fun _ _ => True) := by
  unfold moveTo
  apply EStateM.leaves_modify_bind
  apply EStateM.leaves_get_bind
  dsimp only
  split
  · next hgrow =>
      apply EStateM.leaves_zoom
      refine (Segment.growBytes_grownTo hinv hgrow hlt).mono ?_ (fun _ _ h => h)
      rintro _ m ⟨hseg, hm⟩
      exact ⟨hm, ⟨offset, hle, hseg⟩, hle⟩
  · next hgrow =>
      refine EStateM.leaves_pure ⟨hinv, ⟨offset, hle, ?_⟩, hle⟩
      exact (Segment.grownTo_of_le hinv (Nat.le_of_not_lt hgrow)).symm

theorem uint32_le (n : Nat) : uint32 n ≤ n := Nat.mod_le _ _

theorem bounded_alloc (size : Nat) : Bounded (alloc host size) (· + size) := by
  refine ⟨fun b => Nat.le_add_right b size, ?_⟩
  intro s b hinv hb
  unfold alloc
  apply EStateM.leaves_modify_bind
  apply EStateM.leaves_get_bind
  refine (@moved_moveTo { s with lastOffset := s.offset } host (b + size) _ hinv (Nat.mod_lt _ (by decide))
    ?_).mono (fun _ _ h => ⟨h.inv, h.seg, h.offset⟩) (fun _ _ h => h)
  exact Nat.le_trans (uint32_le _) (Nat.add_le_add_right hb size)

theorem alignUp_mono {a b : Nat} (h : a ≤ b) : MemOps.alignUp a 16 ≤ MemOps.alignUp b 16 := by
  unfold MemOps.alignUp
  split <;> split <;> omega

theorem le_alignUp (v : Nat) : v ≤ MemOps.alignUp v 16 := by
  unfold MemOps.alignUp
  split <;> omega

theorem bounded_align : Bounded (align host) (MemOps.alignUp · 16) := by
  refine ⟨le_alignUp, ?_⟩
  intro s b hinv hb
  unfold align
  apply EStateM.leaves_get_bind
  refine moved_moveTo hinv (Nat.mod_lt _ (by decide)) ?_
  exact Nat.le_trans (uint32_le _) (alignUp_mono hb)

theorem bounded_pushString (str : CString) : Bounded (pushString host str) (· + (str.length + 1)) :=
  (bounded_alloc _).bind (fun _ => bounded_ptr.bind (fun _ => bounded_store _ _))

/-- What a list of strings takes up. -/
def packedSize (strs : List CString) : Nat := (strs.map fun str => str.length + 1).sum

theorem bounded_pushStrings (strs : List CString) :
    Bounded (forM strs (pushString host)) (· + packedSize strs) := by
  induction strs with
  | nil => exact bounded_pure _
  | cons str strs ih =>
      rw [List.forM_cons]
      have hbind := (@bounded_pushString host str).bind (fun _ => ih)
      have hsum : (fun b => b + packedSize (str :: strs)) =
          (fun b => b + packedSize strs) ∘ fun b => b + (str.length + 1) := by
        funext b
        show b + packedSize (str :: strs) = b + (str.length + 1) + packedSize strs
        rw [packedSize, List.map_cons, List.sum_cons, packedSize]
        omega
      rw [hsum]
      exact hbind

theorem bounded_get_bind {f : StartupSbrk → SbrkM β} {g : Nat → Nat} (hle : ∀ b, b ≤ g b)
    (hf : ∀ a, Bounded (f a) g) : Bounded (get >>= f) g :=
  ⟨hle, fun s b hinv hb => EStateM.leaves_get_bind ((hf s).leaves s b hinv hb)⟩

/-- Where the spawn message ends, if `b` is where there is room. -/
def spawnEnd (path : CString) (args envs : List CString) (b : Nat) : Nat :=
  MemOps.alignUp (MemOps.alignUp b 16 + SpawnMsg.size + (path.length + 1) + packedSize args + 1 +
    packedSize envs + 1) 16

theorem bounded_layoutSpawn (path : CString) (args envs : List CString) :
    Bounded (layoutSpawn host path args envs) (spawnEnd path args envs) := by
  exact bounded_align.bind fun _ => (bounded_alloc _).bind fun _ => bounded_ptr.bind fun _ =>
    (bounded_store _ _).bind fun _ => (bounded_pushString path).bind fun _ =>
    (bounded_pushStrings args).bind fun _ => (bounded_pushString []).bind fun _ =>
    (bounded_pushStrings envs).bind fun _ => (bounded_pushString []).bind fun _ =>
    (bounded_store _ _).bind fun _ => (bounded_store _ _).bind fun _ =>
    bounded_get_bind le_alignUp fun _ => bounded_align.bind fun _ => bounded_pure _

end StartupSbrk

end Qine
