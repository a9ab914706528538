import Mathlib.Logic.Relation
import Qine.Loader.Load
import Qine.Space.Calls
import Qine.Startup.Bounds

/-!
# The descriptor table and the segments

Every descriptor has an entry in the local descriptor table, with the size its segment had when the entry
was computed. `Coherent` says that all entries are up to date.

Loading a file, or asking for a new segment, only adds to the address space. `segment_realloc` and
`setup_startup_context` grow a segment that is in use, and then compute the entry of one of its
descriptors anew. `coherent_of_run` says that all entries are up to date throughout a run, as long as
these calls spare the other descriptors of the segment.
-/

namespace Qine

open SegmentDescriptor

/-! ## Entries that are up to date -/

namespace Space

variable {w w₀ w₁ w₂ : Space} {view : Nat → Segment} {host : Host}

/-- Every descriptor has the entry that goes with its segment, if the segments are as `view` says. -/
def Describes (view : Nat → Segment) (w : Space) : Prop :=
  ∀ id sd, w.descriptors.get id = some sd → w.ldt id = some (sd.userDesc (view sd.seg))

/-- Every entry is the one `update_descriptors` would compute. -/
def Coherent (w : Space) : Prop := w.Describes w.segments

/-- `w` is `w₀` with more segments, and with descriptors for these. -/
structure Adds (w₀ w : Space) : Prop where
  inv : w.Inv
  count : w₀.count ≤ w.count
  old : ∀ i, i < w₀.count → w.segments i = w₀.segments i
  kept : ∀ id sd, w₀.descriptors.get id = some sd → w.descriptors.get id = some sd ∧ w.ldt id = w₀.ldt id
  new : ∀ id sd, w.descriptors.get id = some sd → w₀.descriptors.get id = some sd ∨
    w₀.count ≤ sd.seg ∧ w.ldt id = some (sd.userDesc (w.segments sd.seg))

theorem Adds.of_laid {shapes : List Shape} (h : Laid w₀ shapes w) : Adds w₀ w := by
  refine ⟨h.inv, ?_, h.old, ?_, ?_⟩
  · rw [h.count]
    exact Nat.le_add_right _ _
  · intro id sd hsd
    rw [h.descriptors, h.ldt]
    exact ⟨hsd, rfl⟩
  · intro id sd hsd
    rw [h.descriptors] at hsd
    exact .inl hsd

theorem Adds.same (h : Adds w₀ w) (hsame : SameTables w w₁) (hinv : w₁.Inv) : Adds w₀ w₁ := by
  refine ⟨hinv, hsame.count ▸ h.count, ?_, ?_, ?_⟩
  · rw [hsame.segments]
    exact h.old
  · rw [hsame.descriptors, hsame.ldt]
    exact h.kept
  · rw [hsame.descriptors, hsame.ldt, hsame.segments]
    exact h.new

/-- A new segment that no descriptor refers to yet is changed. -/
theorem Adds.putMapped {i : Nat} {m : Mapped} (h : Adds w₀ w) (hi : w₀.count ≤ i)
    (hfree : ∀ id sd, w.descriptors.get id = some sd → sd.seg ≠ i) (hinv : (w.putMapped i m).Inv) :
    Adds w₀ (w.putMapped i m) := by
  refine ⟨hinv, h.count, ?_, h.kept, ?_⟩
  · intro j hj
    rw [segments_putMapped_of_ne (by omega)]
    exact h.old j hj
  · intro id sd hsd
    rw [segments_putMapped_of_ne (hfree id sd hsd)]
    exact h.new id sd hsd

/-- A descriptor for a new segment is entered under a free id. -/
theorem Adds.install {sd : SegmentDescriptor} {t : IdMap SegmentDescriptor} (h : Adds w₀ w)
    (hseg : w₀.count ≤ sd.seg) (hlt : sd.seg < w.count) (hfree : w.descriptors.get sd.id = none)
    (ht : IdMap.Rep 1024 t (Function.update w.descriptors.get sd.id (some sd))) :
    Adds w₀ (w.install sd t) := by
  have hget : (w.install sd t).descriptors.get = Function.update w.descriptors.get sd.id (some sd) :=
    ht.get_eq
  refine ⟨h.inv.install hlt ht, h.count, h.old, ?_, ?_⟩
  · intro id sd' hsd'
    obtain ⟨hlive, hentry⟩ := h.kept id sd' hsd'
    have hne : id ≠ sd.id := by
      rintro rfl
      rw [hfree] at hlive
      cases hlive
    rw [hget, Function.update_of_ne hne]
    exact ⟨hlive, (Function.update_of_ne hne _ _).trans hentry⟩
  · intro id sd' hsd'
    rw [hget] at hsd'
    show _ ∨ _ ∧ (Function.update w.ldt sd.id (some (sd.userDesc (w.segments sd.seg)))) id =
      some (sd'.userDesc (w.segments sd'.seg))
    by_cases hid : id = sd.id
    · subst hid
      rw [Function.update_self] at hsd' ⊢
      cases hsd'
      exact .inr ⟨hseg, rfl⟩
    · rw [Function.update_of_ne hid] at hsd' ⊢
      exact h.new id sd' hsd'

theorem Adds.coherent (h : Adds w₀ w) (hinv : w₀.Inv) (hw₀ : w₀.Coherent) : w.Coherent := by
  intro id sd hsd
  rcases h.new id sd hsd with hold | ⟨-, hentry⟩
  · rw [(h.kept id sd hold).2, h.old _ (hinv.descriptor id sd hold).2]
    exact hw₀ id sd hold
  · exact hentry

/-! ## Calls that only add to the address space -/

theorem storeAt_leaves {i offset size : Nat} {bytes : List Byte} (hinv : w.Inv) :
    (storeAt i offset size bytes).Leaves w (fun _ w' => SameTables w w' ∧ w'.Inv) (fun _ _ => True) := by
  unfold storeAt
  refine (pointer_leaves.mono (fun _ _ h => h) (fun _ _ _ => trivial)).bind ?_
  rintro a w ⟨rfl, -, -⟩
  exact EStateM.leaves_modify ⟨⟨rfl, rfl, rfl, rfl⟩, hinv.withMem _⟩

theorem createSegmentDescriptor_adds {access : Access} {bits : Bitness} {seg : Nat} (h : Adds w₀ w)
    (hseg : w₀.count ≤ seg) (hlt : seg < w.count) :
    (createSegmentDescriptor access seg bits).Leaves w (fun _ w' => Adds w₀ w' ∧ w'.count = w.count)
      (fun _ _ => True) := by
  refine (createSegmentDescriptor_leaves h.inv hlt).mono ?_ (fun _ _ _ => trivial)
  rintro sd w' ⟨hsd, -, hfree, -, hget, hw', hinv'⟩
  have ht := hinv'.table
  rw [hget] at ht
  have hsame : sd.seg = seg := by rw [hsd]
  rw [hw']
  exact ⟨h.install (hsame ▸ hseg) (hsame ▸ hlt) hfree ht, rfl⟩

theorem createSegmentDescriptorAt_adds {access : Access} {bits : Bitness} {seg id : Nat} (h : Adds w₀ w)
    (hseg : w₀.count ≤ seg) (hlt : seg < w.count) :
    (createSegmentDescriptorAt access seg bits id).Leaves w (fun _ w' => Adds w₀ w') (fun _ _ => True) := by
  unfold createSegmentDescriptorAt
  apply EStateM.leaves_get_bind
  cases halloc : w.descriptors.allocExactlyAt id fun id => ⟨id, access, seg, bits⟩ with
  | error e => exact EStateM.leaves_throw trivial
  | ok descriptors =>
      obtain ⟨hmax, hfree, rfl⟩ := IdMap.allocExactlyAt_ok halloc
      rw [h.inv.table.max_eq] at hmax
      exact EStateM.leaves_set (h.install hseg hlt hfree (h.inv.table.emplace hmax _))

/-- A new segment of `size` bytes. -/
theorem newSegment_leaves {β : Type} {f : Nat → SpaceM β} {Q : β → Space → Prop}
    {E : HostError → Space → Prop} {n size : Nat} (hinv : w.Inv) (hsize : size < 2 ^ 32)
    (hf : ∀ w' s, s.limit = size → s.hole = 0 → Laid w [s] w' → (f w.count).Leaves w' Q E)
    (hE : ∀ w', E .badAlloc w') :
    (do
      let seg ← allocateSegment
      reserve host seg n
      onSegment seg (Segment.growBytes host size)
      f seg).Leaves w Q E := by
  refine (Laid.refl hinv).new_leaves ?_ hE
  intro w₁ h₁
  have hgrow := h₁.onSegment_leaves (k := 0) (g := fun s => s.growBytes size) rfl
    (@Shape.growBytes_leaves _ _ host _ (h₁.shape rfl) hsize) hE
  refine hgrow.bind ?_
  rintro _ w₂ ⟨h₂, -⟩
  exact hf w₂ _ (Nat.zero_add size) rfl h₂

theorem procSegmentAlloc_leaves {bits : Bitness} {msg : SegmentRequest} (hinv : w.Inv) :
    (procSegmentAlloc host bits msg).Leaves w (fun _ w' => Adds w w') (fun _ _ => True) := by
  unfold procSegmentAlloc
  dsimp only
  refine newSegment_leaves hinv (BitVec.isLt _) ?_ (fun _ => trivial)
  intro w₁ s _ _ h₁
  have hcount := h₁.lt_count (k := 0) rfl
  refine (createSegmentDescriptor_adds (.of_laid h₁) (Nat.le_refl _) hcount).bind ?_
  rintro sd w₂ ⟨h₂, -⟩
  apply EStateM.leaves_get_bind
  exact EStateM.leaves_pure h₂

theorem createTimeSegment_leaves (hinv : w.Inv) :
    (StartupInput.createTimeSegment host).Leaves w (fun _ w' => Adds w w') (fun _ _ => True) := by
  unfold StartupInput.createTimeSegment
  refine newSegment_leaves hinv (by decide) ?_ (fun _ => trivial)
  intro w₁ s _ _ h₁
  have hcount := h₁.lt_count (k := 0) rfl
  refine (createSegmentDescriptor_adds (.of_laid h₁) (Nat.le_refl _) hcount).bind ?_
  rintro sd w₂ ⟨h₂, -⟩
  exact EStateM.leaves_pure h₂

/-- Sharing a new segment. -/
theorem makeShared_leaves {i : Nat} (h : Adds w₀ w) (hi : w₀.count ≤ i) (hlt : i < w.count)
    (hfree : ∀ id sd, w.descriptors.get id = some sd → sd.seg ≠ i) :
    (onSegment i makeShared).Leaves w (fun _ w' => Adds w₀ w' ∧ w'.count = w.count) (fun _ _ => True) := by
  have hset : makeShared.Leaves (w.mapped i)
      (fun _ m => m = { w.mapped i with seg := { w.segments i with shared := true } }) (fun _ _ => True) :=
    EStateM.leaves_modify rfl
  refine (onSegment_leaves hset).mono ?_ (fun _ _ _ => trivial)
  rintro _ _ ⟨m, rfl, rfl⟩
  have hseg := h.inv.seg i
  refine ⟨h.putMapped hi hfree (h.inv.putMapped hlt ?_ (h.inv.page i) ?_ (fun _ h₁ h₂ => ⟨h₁, h₂⟩)), rfl⟩
  · exact ⟨⟨hseg.low, hseg.paged_le, hseg.limit_le, hseg.aligned, hseg.bitmap_length⟩,
      hseg.reserved_aligned⟩
  · intro j hj
    exact h.inv.apart i j (Ne.symm hj)

theorem createMagicPointer_leaves {nbytes : Nat} {shared : Bool} {ptr : List Byte} (hinv : w.Inv)
    (hsize : nbytes < 2 ^ 32) :
    (StartupInput.createMagicPointer host nbytes shared ptr).Leaves w (fun _ w' => Adds w w')
      (fun _ _ => True) := by
  unfold StartupInput.createMagicPointer
  refine newSegment_leaves hinv hsize ?_ (fun _ => trivial)
  intro w₁ s _ _ h₁
  have hcount := h₁.lt_count (k := 0) rfl
  have hfree : ∀ id sd, w₁.descriptors.get id = some sd → sd.seg ≠ w.count := by
    intro id sd hsd
    rw [h₁.descriptors] at hsd
    exact Nat.ne_of_lt (hinv.descriptor id sd hsd).2
  have hrest : ∀ w₂, Adds w w₂ → w.count < w₂.count →
      (storeAt w.count 0 8 ptr >>= fun _ => createSegmentDescriptorAt .readOnly w.count .b32
        (selToId Magic.ptrSelector)).Leaves w₂ (fun _ w' => Adds w w') (fun _ _ => True) := by
    intro w₂ h₂ hlt
    refine (storeAt_leaves h₂.inv).bind ?_
    rintro _ w₃ ⟨hsame, hinv₃⟩
    exact createSegmentDescriptorAt_adds (h₂.same hsame hinv₃) (Nat.le_refl _) (hsame.count ▸ hlt)
  cases shared with
  | false => exact hrest w₁ (.of_laid h₁) hcount
  | true =>
      refine (makeShared_leaves (.of_laid h₁) (Nat.le_refl _) hcount hfree).bind ?_
      rintro _ w₂ ⟨h₂, hcount₂⟩
      exact hrest w₂ h₂ (hcount₂ ▸ hcount)

/-! ## Loading a file -/

theorem createDescriptors_adds {hdr : LmfHeader} {l : AbstractLoader} {types : List Access} {si : Nat}
    {info : LoadInfo} {selectors : List (BitVec 16)} (h : Adds w₀ w)
    (hseg : ∀ i seg, l.getSegment i = some seg → w₀.count ≤ seg ∧ seg < w.count) :
    (createDescriptors hdr l types si info selectors).Leaves w (fun _ w' => Adds w₀ w')
      (fun _ _ => True) := by
  induction types generalizing si info selectors w with
  | nil => exact EStateM.leaves_pure h
  | cons type types ih =>
      unfold createDescriptors
      split
      · exact EStateM.leaves_throw trivial
      · next seg hget =>
          obtain ⟨hle, hlt⟩ := hseg si seg hget
          refine (createSegmentDescriptor_adds h hle hlt).bind ?_
          rintro sd w₁ ⟨h₁, hcount⟩
          exact ih h₁ (hcount ▸ hseg)

theorem getSegment_range {f : Lmf} {slib : Bool} {img : Image} {hidden : Nat → Nat → Bool}
    (h : Loaded w₀ (f.shapes slib) img hidden w) (i seg : Nat)
    (hget : (f.loader w₀.count).getSegment i = some seg) : w₀.count ≤ seg ∧ seg < w.count := by
  have hcount := h.count
  rw [Lmf.getSegment_loader] at hget
  split at hget
  · next hflat =>
      cases hget
      rw [Lmf.shapes, if_pos hflat] at hcount
      exact ⟨Nat.le_refl _, by rw [hcount]; exact Nat.lt_succ_self _⟩
  · next hflat =>
      split at hget
      · next hi =>
          cases hget
          rw [Lmf.length_shapes slib (Bool.eq_false_iff.mpr hflat)] at hcount
          exact ⟨Nat.le_add_right _ _, by omega⟩
      · cases hget

/-- A file that is loaded gets its descriptors once its segments are there, and the descriptors stay as they
are then. -/
theorem exists_createDescriptors {f : Lmf} {slib : Bool} {info info' : LoadInfo} (hinv : w₀.Inv)
    (hload : (f.load host slib info).run w₀ = .ok info' w) : ∃ info₁ w₁ r w₂, Adds w₀ w₁ ∧
      w₁.descriptors = w₀.descriptors ∧
      (∀ i seg, (f.loader w₀.count).getSegment i = some seg → w₀.count ≤ seg ∧ seg < w₁.count) ∧
      (createDescriptors f.hdr (f.loader w₀.count) f.types 0 info₁ []).run w₁ = .ok r w₂ ∧
      SameTables w₂ w ∧ w.Inv := by
  obtain ⟨-, r, w₁, ids, img', -, hpublished⟩ := (Lmf.load_leaves hinv).of_ok hload
  unfold Lmf.load at hload
  obtain ⟨⟨l, info₁⟩, w₁, h₁, hload⟩ := EStateM.bind_ok.mp hload
  have hlaid := (Lmf.layout_leaves hinv).of_ok h₁
  have hl : l = f.loader w₀.count := hlaid.loader
  subst hl
  unfold Lmf.performAll at hload
  obtain ⟨_, w₂, h₂, hload⟩ := EStateM.bind_ok.mp hload
  have hloaded := ((Lmf.forM_perform_leaves f.contents_wf hlaid.laid.loaded).of_ok h₂).1
  have hsame₂ : SameTables w₁ w₂ :=
    (EStateM.leaves_forM (fun _ _ h => perform_same h) (.refl w₁)).of_ok h₂
  have hadds₂ := (Adds.of_laid hlaid.laid).same hsame₂ hloaded.inv
  dsimp only at hload
  split at hload
  · exact (EStateM.throw_ok.mp hload).elim
  · unfold publish at hload
    obtain ⟨_, w₃, h₃, hload⟩ := EStateM.bind_ok.mp hload
    have hhidden := ((Lmf.finalizeLoading_leaves hloaded).of_ok h₃).1
    have hsame₃ := finalizeLoading_same.of_ok h₃
    have hadds₃ := hadds₂.same hsame₃ hhidden.inv
    have hdescriptors : w₃.descriptors = w₀.descriptors :=
      (hsame₂.trans hsame₃).descriptors.trans hlaid.laid.descriptors
    obtain ⟨⟨info₂, selectors⟩, w₄, h₄, hload⟩ := EStateM.bind_ok.mp hload
    obtain ⟨_, w₅, h₅, hload⟩ := EStateM.bind_ok.mp hload
    obtain ⟨-, rfl⟩ := EStateM.pure_ok.mp hload
    have hsame₅ : SameTables w₄ w₅ :=
      (EStateM.leaves_forM (fun _ _ h => relocate_same h) (.refl w₄)).of_ok h₅
    exact ⟨_, w₃, _, w₄, hadds₃, hdescriptors, getSegment_range hhidden, h₄, hsame₅, hpublished.loaded.inv⟩

theorem adds_of_load {f : Lmf} {slib : Bool} {info info' : LoadInfo} (hinv : w₀.Inv)
    (hload : (f.load host slib info).run w₀ = .ok info' w) : Adds w₀ w := by
  obtain ⟨_, w₁, _, w₂, hadds, -, hseg, hrun, hsame, hinv'⟩ := exists_createDescriptors hinv hload
  exact ((createDescriptors_adds hadds hseg).of_ok hrun).same hsame hinv'

/-! ## Calls that grow a segment in use -/

/-- The other descriptors of the segment have entries that stay right when it grows to `bound` bytes:
there are none, or no page is added and the size does not pass 64K. -/
def Spares (w : Space) (sd : SegmentDescriptor) (bound : Nat) : Prop :=
  ∀ id sd', w.descriptors.get id = some sd' → sd'.seg = sd.seg → id ≠ sd.id →
    ∀ limit, limit ≤ bound →
      sd'.userDesc ((w.segments sd.seg).grownTo limit) = sd'.userDesc (w.segments sd.seg)

/-- One segment has grown, and the entry of one of its descriptors is computed anew. -/
theorem coherent_refresh {sd : SegmentDescriptor} {bound limit : Nat} (hspares : w₀.Spares sd bound)
    (hle : limit ≤ bound) (hseg : w.segments sd.seg = (w₀.segments sd.seg).grownTo limit)
    (hview : w.Describes (Function.update w.segments sd.seg (w₀.segments sd.seg)))
    (hlive : w.descriptors.get sd.id = some sd)
    (hold : ∀ id sd', w.descriptors.get id = some sd' → sd'.seg = sd.seg →
      w₀.descriptors.get id = some sd') : (w.refresh sd).Coherent := by
  intro id sd' hsd'
  show (Function.update w.ldt sd.id (some (sd.userDesc (w.segments sd.seg)))) id =
    some (sd'.userDesc (w.segments sd'.seg))
  by_cases hid : id = sd.id
  · subst hid
    cases hlive.symm.trans hsd'
    rw [Function.update_self]
  · rw [Function.update_of_ne hid, hview id sd' hsd']
    by_cases hsame : sd'.seg = sd.seg
    · rw [hsame, Function.update_self, hseg, hspares id sd' (hold id sd' hsd' hsame) hsame hid limit hle]
    · rw [Function.update_of_ne hsame]

theorem descriptorBySelector_eq_some {sel : BitVec 16} {sd : SegmentDescriptor} (hinv : w.Inv)
    (h : w.descriptorBySelector sel = some sd) :
    selToId sel = sd.id ∧ w.descriptors.get sd.id = some sd ∧ sd.seg < w.count := by
  obtain ⟨hid, hlt⟩ := hinv.descriptor _ _ h
  exact ⟨hid.symm, hid ▸ h, hlt⟩

/-- A segment in use is grown. -/
theorem Inv.grownTo {i limit : Nat} {m : Mapped} (h : w.Inv) (hi : i < w.count)
    (hm : Segment.RepInv m.seg) (hseg : m.seg = (w.segments i).grownTo limit) : (w.putMapped i m).Inv := by
  have hlocation : m.seg.location = (w.segments i).location := by rw [hseg]; rfl
  have hreserved : m.seg.reserved = (w.segments i).reserved := by rw [hseg]; rfl
  have hpaged : (w.segments i).pagedSize ≤ m.seg.pagedSize := by
    rw [hseg]
    exact Nat.le_max_left _ _
  refine h.putMapped hi hm (hlocation ▸ h.page i) ?_ ?_
  · intro j hj
    rw [hlocation, hreserved]
    exact h.apart i j (Ne.symm hj)
  · intro x h₁ h₂
    omega

theorem Inv.growBytes_leaves {i limit : Nat} (h : w.Inv) (hi : i < w.count)
    (hgrow : (w.segments i).limitSize < limit) (hlimit : limit < 2 ^ 32) :
    (onSegment i (Segment.growBytes host (limit - (w.segments i).limitSize))).Leaves w
      (fun _ w' => ∃ m, m.seg = (w.segments i).grownTo limit ∧ (w.putMapped i m).Inv ∧ w' = w.putMapped i m)
      (fun _ _ => True) := by
  have hgrown := @Segment.growBytes_grownTo (w.mapped i) host _ (h.seg i) hgrow hlimit
  refine (onSegment_leaves hgrown).mono ?_ (fun _ _ _ => trivial)
  rintro _ _ ⟨m, ⟨hseg, hm⟩, rfl⟩
  exact ⟨m, hseg, h.grownTo hi hm hseg, rfl⟩

theorem procSegmentRealloc_leaves {msg : SegmentRequest} (hinv : w.Inv) :
    (procSegmentRealloc host msg).Leaves w
      (fun _ w' => w'.Inv ∧ (w.Coherent →
        (∀ sd, w.descriptorBySelector msg.sel = some sd → (w.segments sd.seg).shared = false →
          w.Spares sd msg.nbytes.toNat) → w'.Coherent))
      (fun _ _ => True) := by
  unfold procSegmentRealloc
  apply EStateM.leaves_get_bind
  dsimp only
  split
  · exact EStateM.leaves_pure ⟨hinv, fun hw _ => hw⟩
  · next sd hsd =>
      split
      · exact EStateM.leaves_pure ⟨hinv, fun hw _ => hw⟩
      · next hshared =>
          obtain ⟨hid, hlive, hlt⟩ := descriptorBySelector_eq_some hinv hsd
          split
          · next hgrow =>
              refine (hinv.growBytes_leaves hlt hgrow msg.nbytes.isLt).bind ?_
              rintro _ _ ⟨m, hseg, hinv₁, rfl⟩
              refine EStateM.leaves_modify_bind ?_
              apply EStateM.leaves_get_bind
              refine EStateM.leaves_pure ⟨hinv₁.refresh sd, fun hw hspares => ?_⟩
              refine coherent_refresh (hspares sd hsd (Bool.eq_false_iff.mpr hshared))
                (Nat.le_refl _) (segments_putMapped.trans hseg) ?_ hlive (fun _ _ h _ => h)
              -- before the refresh the entries describe the segment as it was
              intro id sd' hsd'
              rw [show (w.putMapped sd.seg m).ldt id = _ from hw id sd' hsd']
              by_cases hsame : sd'.seg = sd.seg
              · rw [hsame, Function.update_self]
              · rw [Function.update_of_ne hsame, segments_putMapped_of_ne hsame]
          · exact EStateM.leaves_get_bind (EStateM.leaves_pure ⟨hinv, fun hw _ => hw⟩)

theorem coherent_install {sd : SegmentDescriptor} {t : IdMap SegmentDescriptor} (hw : w.Coherent)
    (ht : IdMap.Rep 1024 t (Function.update w.descriptors.get sd.id (some sd))) :
    (w.install sd t).Coherent := by
  intro id sd' hsd'
  rw [show (w.install sd t).descriptors.get = _ from ht.get_eq] at hsd'
  show (Function.update w.ldt sd.id (some (sd.userDesc (w.segments sd.seg)))) id =
    some (sd'.userDesc (w.segments sd'.seg))
  by_cases hid : id = sd.id
  · subst hid
    rw [Function.update_self] at hsd' ⊢
    cases hsd'
    rfl
  · rw [Function.update_of_ne hid] at hsd' ⊢
    exact hw id sd' hsd'

theorem procSegmentFlags_leaves {msg : SegmentRequest} (hinv : w.Inv) :
    (procSegmentFlags msg).Leaves w (fun _ w' => w'.Inv ∧ (w.Coherent → w'.Coherent))
      (fun _ _ => True) := by
  unfold procSegmentFlags
  apply EStateM.leaves_get_bind
  split
  · exact EStateM.leaves_pure ⟨hinv, id⟩
  · next sd hsd =>
      obtain ⟨hid, hlive, hlt⟩ := descriptorBySelector_eq_some hinv hsd
      have hmax := hinv.table.lt_of_some hlive
      dsimp only
      rw [hid]
      generalize hsd' : ({ sd with access := Access.ofType (msg.flags &&& pmfAccessMask).toNat } :
        SegmentDescriptor) = sd'
      have hid' : sd.id = sd'.id := by rw [← hsd']
      have hseg' : sd.seg = sd'.seg := by rw [← hsd']
      rw [hid'] at hmax ⊢
      refine EStateM.leaves_modify_bind (EStateM.leaves_modify_bind (EStateM.leaves_pure ?_))
      have ht := hinv.table.emplace hmax sd'
      exact ⟨hinv.install (hseg' ▸ hlt) ht, fun hw => coherent_install hw ht⟩

end Space

/-! ## `setup_startup_context` -/

namespace StartupInput

open Starting Space

variable {α β : Type} {w₀ : Space} {dataSd : SegmentDescriptor} {s : Starting} {host : Host}
  {bound : Nat}

/-- How far the startup data goes. -/
def startupEnd (i : StartupInput) : Nat :=
  StartupSbrk.spawnEnd i.path i.args i.envs (MemOps.alignUp i.exec.heapStart 16 + Magic.size)

/-- While the startup data is laid out, the table describes the data segment as it was before. -/
structure Keeps (w₀ : Space) (dataSd : SegmentDescriptor) (bound : Nat) (s : Starting) : Prop where
  inv : s.space.Inv
  data : s.data = dataSd.seg
  lt : dataSd.seg < s.space.count
  offset : s.offset ≤ bound
  seg : ∃ limit, limit ≤ bound ∧ s.space.segments dataSd.seg = (w₀.segments dataSd.seg).grownTo limit
  view : s.space.Describes (Function.update s.space.segments dataSd.seg (w₀.segments dataSd.seg))
  live : s.space.descriptors.get dataSd.id = some dataSd
  old : ∀ id sd, s.space.descriptors.get id = some sd → sd.seg = dataSd.seg →
    w₀.descriptors.get id = some sd

/-- A step takes the bound from `b` to `g b`. -/
def KeepsTo (w₀ : Space) (dataSd : SegmentDescriptor) (x : StartM α) (g : Nat → Nat) : Prop :=
  ∀ s b, Keeps w₀ dataSd b s → x.Leaves s (fun _ s' => Keeps w₀ dataSd (g b) s') (fun _ _ => True)

theorem KeepsTo.bind {x : StartM α} {f : α → StartM β} {g g' : Nat → Nat} (hx : KeepsTo w₀ dataSd x g)
    (hf : ∀ a, KeepsTo w₀ dataSd (f a) g') : KeepsTo w₀ dataSd (x >>= f) (g' ∘ g) :=
  fun s b h => (hx s b h).bind fun a s₁ h₁ => hf a s₁ (g b) h₁

theorem keepsTo_pure (a : α) : KeepsTo w₀ dataSd (pure a) id := fun _ _ h => EStateM.leaves_pure h

theorem keepsTo_forM {l : List α} {x : α → StartM Unit} (h : ∀ a, KeepsTo w₀ dataSd (x a) id) :
    KeepsTo w₀ dataSd (forM l x) id :=
  fun _ b hs => EStateM.leaves_forM (fun a s hs => h a s b hs) hs

theorem keepsTo_onSbrk {x : SbrkM α} {g : Nat → Nat} (hinv : Segment.RepInv (w₀.segments dataSd.seg))
    (hx : StartupSbrk.Bounded x g) : KeepsTo w₀ dataSd (onSbrk x) g := by
  intro s b h
  unfold onSbrk
  apply EStateM.leaves_zoom
  refine (hx.leaves s.sbrk b (h.inv.seg s.data) h.offset).mono ?_ (fun _ _ h => h)
  intro _ a ha
  obtain ⟨limit, hlimit, hseg⟩ := h.seg
  obtain ⟨limit', hlimit', hseg'⟩ := ha.seg
  have hdata := h.data
  have hgrown : a.mapped.seg = (s.space.segments dataSd.seg).grownTo limit' := hdata ▸ hseg'
  have hle := hx.le b
  refine ⟨?_, hdata, h.lt, ha.offset, ⟨max limit limit', by omega, ?_⟩, ?_, h.live, h.old⟩
  · show (s.space.putMapped s.data a.mapped).Inv
    rw [hdata]
    exact h.inv.grownTo h.lt ha.inv hgrown
  · show (s.space.putMapped s.data a.mapped).segments dataSd.seg = _
    rw [hdata, segments_putMapped, hgrown, hseg, Segment.grownTo_grownTo hinv]
  · intro id sd hsd
    rw [show (putSbrk a s).space.ldt id = _ from h.view id sd hsd]
    show _ = some (sd.userDesc (Function.update (s.space.putMapped s.data a.mapped).segments dataSd.seg _
      sd.seg))
    by_cases hsame : sd.seg = dataSd.seg
    · rw [hsame, Function.update_self, Function.update_self]
    · rw [Function.update_of_ne hsame, Function.update_of_ne hsame, hdata,
        segments_putMapped_of_ne hsame]

theorem keepsTo_inSpace {x : SpaceM α}
    (hx : ∀ w, w.Inv → x.Leaves w (fun _ w' => Adds w w') (fun _ _ => True)) :
    KeepsTo w₀ dataSd (inSpace x) id := by
  intro s b h
  unfold inSpace
  apply EStateM.leaves_zoom
  refine (hx s.space h.inv).mono ?_ (fun _ _ h => h)
  intro _ w hadds
  refine ⟨hadds.inv, h.data, Nat.lt_of_lt_of_le h.lt hadds.count, h.offset, ?_, ?_,
    (hadds.kept _ _ h.live).1, ?_⟩
  · show ∃ limit, limit ≤ b ∧ w.segments dataSd.seg = _
    rw [hadds.old _ h.lt]
    exact h.seg
  · intro id sd hsd
    show w.ldt id = some (sd.userDesc (Function.update w.segments dataSd.seg _ sd.seg))
    -- a new descriptor leads to a new segment, so not to the data segment
    rcases hadds.new id sd hsd with hold | ⟨hle, hentry⟩
    · rw [(hadds.kept id sd hold).2, h.view id sd hold]
      by_cases hsame : sd.seg = dataSd.seg
      · rw [hsame, Function.update_self, Function.update_self]
      · rw [Function.update_of_ne hsame, Function.update_of_ne hsame,
          hadds.old _ (h.inv.descriptor id sd hold).2]
    · rw [Function.update_of_ne (by have := h.lt; omega), hentry]
  · intro id sd hsd hsame
    rcases hadds.new id sd hsd with hold | ⟨hle, -⟩
    · exact h.old id sd hold hsame
    · have hlt := h.lt
      omega

theorem keepsTo_placeMagic {nbytes : Nat} {shared : Bool} {ptr : Nat → List Byte}
    (hinv : Segment.RepInv (w₀.segments dataSd.seg)) (hsize : nbytes < 2 ^ 32) :
    KeepsTo w₀ dataSd (placeMagic host nbytes shared ptr) (MemOps.alignUp · 16 + Magic.size) :=
  (keepsTo_onSbrk hinv StartupSbrk.bounded_align).bind fun _ =>
    (keepsTo_onSbrk hinv (StartupSbrk.bounded_alloc _)).bind fun _ =>
    (keepsTo_onSbrk hinv StartupSbrk.bounded_ptr).bind fun _ =>
    (keepsTo_inSpace fun _ hw => createMagicPointer_leaves hw hsize).bind fun _ => keepsTo_pure _

theorem keepsTo_store (hinv : Segment.RepInv (w₀.segments dataSd.seg)) (offset : Nat)
    (bytes : List Byte) : KeepsTo w₀ dataSd (onSbrk (StartupSbrk.store offset bytes)) id :=
  keepsTo_onSbrk hinv (StartupSbrk.bounded_store offset bytes)

theorem keepsTo_setupMagic (i : StartupInput) (hinv : Segment.RepInv (w₀.segments dataSd.seg)) :
    KeepsTo w₀ dataSd (i.setupMagic host dataSd) (MemOps.alignUp · 16 + Magic.size) :=
  (keepsTo_placeMagic hinv (by decide)).bind fun _ => (keepsTo_store hinv _ _).bind fun _ =>
    (keepsTo_store hinv _ _).bind fun _ => (keepsTo_store hinv _ _).bind fun _ => keepsTo_store hinv _ _

theorem keepsTo_setupMagic16 (i : StartupInput) (hinv : Segment.RepInv (w₀.segments dataSd.seg)) :
    KeepsTo w₀ dataSd (i.setupMagic16 host dataSd) (MemOps.alignUp · 16 + Magic.size) :=
  (keepsTo_placeMagic hinv (by decide)).bind fun _ =>
    (keepsTo_forM fun _ => keepsTo_store hinv _ _).bind fun _ => (keepsTo_store hinv _ _).bind fun _ =>
    (keepsTo_store hinv _ _).bind fun _ => (keepsTo_store hinv _ _).bind fun _ => keepsTo_store hinv _ _

theorem setupData_leaves {i : StartupInput} (hinv : w₀.Inv) (hspares : w₀.Spares dataSd i.startupEnd)
    (h : Keeps w₀ dataSd i.exec.heapStart s) :
    (i.setupData host dataSd).Leaves s (fun _ s' => s'.space.Inv ∧ s'.space.Coherent)
      (fun _ _ => True) := by
  have hseg := hinv.seg dataSd.seg
  -- the entry of the data segment is computed anew in the end
  have hlast : ∀ s', Keeps w₀ dataSd i.startupEnd s' →
      (inSpace (updateDescriptors dataSd)).Leaves s' (fun _ s' => s'.space.Inv ∧ s'.space.Coherent)
        (fun _ _ => True) := by
    intro s' h'
    apply EStateM.leaves_zoom
    obtain ⟨limit, hle, hgrown⟩ := h'.seg
    exact EStateM.leaves_modify
      ⟨h'.inv.refresh dataSd, coherent_refresh hspares hle hgrown h'.view h'.live h'.old⟩
  have hrest : KeepsTo w₀ dataSd (inSpace (createTimeSegment host) >>= fun _ =>
      onSbrk (layoutSpawn host i.path i.args i.envs)) (StartupSbrk.spawnEnd i.path i.args i.envs) :=
    (keepsTo_inSpace fun _ hw => createTimeSegment_leaves hw).bind fun _ =>
      keepsTo_onSbrk hseg (StartupSbrk.bounded_layoutSpawn _ _ _)
  -- the two kinds of programs differ in the magic structure only
  have hmagic : ∀ x : StartM Unit, KeepsTo w₀ dataSd x (MemOps.alignUp · 16 + Magic.size) →
      (x >>= fun _ => (inSpace (createTimeSegment host) >>= fun _ =>
        onSbrk (layoutSpawn host i.path i.args i.envs)) >>= fun _ =>
        inSpace (updateDescriptors dataSd)).Leaves s
        (fun _ s' => s'.space.Inv ∧ s'.space.Coherent) (fun _ _ => True) := by
    intro x hx
    refine (hx s _ h).bind fun _ s₁ h₁ => ?_
    exact (hrest s₁ _ h₁).bind fun _ s₂ h₂ => hlast s₂ h₂
  simp only [bind_assoc] at hmagic
  unfold setupData
  cases i.exec.bits with
  | b16 => exact hmagic _ (keepsTo_setupMagic16 i hseg)
  | b32 => exact hmagic _ (keepsTo_setupMagic i hseg)

theorem setupStartupContext_leaves {i : StartupInput} (hinv : w₀.Inv) (hw : w₀.Coherent)
    (hspares : ∀ sd, w₀.descriptorBySelector i.exec.ss = some sd → w₀.Spares sd i.startupEnd) :
    (i.setupStartupContext host).Leaves w₀ (fun _ w => w.Inv ∧ w.Coherent) (fun _ _ => True) := by
  unfold setupStartupContext
  split
  · exact EStateM.leaves_throw trivial
  · apply EStateM.leaves_get_bind
    split
    · exact EStateM.leaves_throw trivial
    · next dataSd hsd =>
        obtain ⟨-, hlive, hlt⟩ := descriptorBySelector_eq_some hinv hsd
        apply EStateM.leaves_zoom
        refine setupData_leaves hinv (hspares dataSd hsd) ⟨hinv, rfl, hlt, Nat.le_refl _, ?_, ?_, hlive,
          fun _ _ h _ => h⟩
        · exact ⟨0, Nat.zero_le _, (Segment.grownTo_of_le (hinv.seg _) (Nat.zero_le _)).symm⟩
        · dsimp only
          rw [Function.update_eq_self]
          exact hw

end StartupInput

/-! ## Runs -/

namespace Space

/-- What can happen to the address space of a process. -/
inductive Operation where
  | load (slib : Bool) (info : LoadInfo) (file : List Byte)
  | startup (i : StartupInput)
  | segmentAlloc (bits : Bitness) (msg : SegmentRequest)
  | segmentRealloc (msg : SegmentRequest)
  | segmentFlags (msg : SegmentRequest)
  /-- the program runs -/
  | program (mem : Mem)

namespace Operation

def perform (host : Host) : Operation → SpaceM Unit
  | load slib info file => do
    let _ ← EStateM.zoom (fun w => ⟨w, file⟩) (fun s _ => s.space) (loaderLoad host slib info)
  | startup i => i.setupStartupContext host
  | segmentAlloc bits msg => do let _ ← procSegmentAlloc host bits msg
  | segmentRealloc msg => do let _ ← procSegmentRealloc host msg
  | segmentFlags msg => do let _ ← procSegmentFlags msg
  | program mem => modify fun w => { w with mem := mem }

/-- A segment that is grown has no other descriptors, or these need not be told. -/
def Careful (w : Space) : Operation → Prop
  | startup i => ∀ sd, w.descriptorBySelector i.exec.ss = some sd → w.Spares sd i.startupEnd
  | segmentRealloc msg => ∀ sd, w.descriptorBySelector msg.sel = some sd →
    (w.segments sd.seg).shared = false → w.Spares sd msg.nbytes.toNat
  | _ => True

end Operation

/-- An operation that meets `cond` returns. -/
def Performs (cond : Space → Operation → Prop) (w w' : Space) : Prop :=
  ∃ host op, cond w op ∧ (op.perform host).run w = .ok ⟨⟩ w'

theorem coherent_step {w w' : Space} (hinv : w.Inv) (hw : w.Coherent)
    (h : Performs (fun w op => op.Careful w) w w') : w'.Inv ∧ w'.Coherent := by
  obtain ⟨host, op, hcareful, hrun⟩ := h
  -- loading and allocating only add to the address space
  have hadds : ∀ {α : Type} {x : SpaceM α}, x.Leaves w (fun _ w' => Adds w w') (fun _ _ => True) →
      (x >>= fun _ => pure ⟨⟩).run w = .ok PUnit.unit w' → w'.Inv ∧ w'.Coherent := by
    intro α x hx hrun
    obtain ⟨_, w₁, h₁, hpure⟩ := EStateM.bind_ok.mp hrun
    obtain ⟨-, rfl⟩ := EStateM.pure_ok.mp hpure
    have hadds := hx.of_ok h₁
    exact ⟨hadds.inv, hadds.coherent hinv hw⟩
  cases op with
  | load slib info file =>
      refine hadds (EStateM.leaves_zoom (EStateM.Leaves.mk ?_ (fun _ => trivial))) hrun
      intro info' s' hload
      obtain ⟨f, -, hload⟩ := Lmf.load_of_loaderLoad hload
      exact adds_of_load hinv hload
  | startup i => exact (StartupInput.setupStartupContext_leaves hinv hw hcareful).of_ok hrun
  | segmentAlloc bits msg => exact hadds (procSegmentAlloc_leaves hinv) hrun
  | segmentRealloc msg =>
      obtain ⟨_, w₁, h₁, hpure⟩ := EStateM.bind_ok.mp hrun
      obtain ⟨-, rfl⟩ := EStateM.pure_ok.mp hpure
      obtain ⟨hinv', hcoherent⟩ := (procSegmentRealloc_leaves hinv).of_ok h₁
      exact ⟨hinv', hcoherent hw hcareful⟩
  | segmentFlags msg =>
      obtain ⟨_, w₁, h₁, hpure⟩ := EStateM.bind_ok.mp hrun
      obtain ⟨-, rfl⟩ := EStateM.pure_ok.mp hpure
      obtain ⟨hinv', hcoherent⟩ := (procSegmentFlags_leaves hinv).of_ok h₁
      exact ⟨hinv', hcoherent hw⟩
  | program mem =>
      obtain rfl := EStateM.modify_ok.mp hrun
      exact ⟨hinv.withMem mem, hw⟩

theorem fresh_coherent : fresh.Coherent := by
  intro id sd hsd
  rw [show fresh.descriptors.get id = none from IdMap.get_of_length_le (Nat.zero_le _)] at hsd
  cases hsd

/-- In every state that is reached by operations which spare the other descriptors of the segments they
grow, all entries are up to date. -/
theorem coherent_of_run {w : Space}
    (h : Relation.ReflTransGen (Performs fun w op => op.Careful w) fresh w) : w.Coherent := by
  suffices hboth : w.Inv ∧ w.Coherent from hboth.2
  induction h with
  | refl => exact ⟨fresh_inv, fresh_coherent⟩
  | tail _ hstep ih => exact coherent_step ih.1 ih.2 hstep

/-- A process that has loaded `smallFile`, the descriptors of which share one segment. -/
def smallSpace : Space := ((Operation.load false .init smallFile).perform Host.roomy).after fresh

theorem run_smallSpace :
    ((Operation.load false .init smallFile).perform Host.roomy).run fresh = .ok ⟨⟩ smallSpace :=
  EStateM.run_after (by decide +kernel)

/-- The startup data of a program without arguments. -/
def smallInput : StartupInput := ⟨smallInfo, 10, 1, 1, 0, 0, [97], [[97]], []⟩

/-- There is room for the startup data, so that the shared segment does not grow. -/
theorem coherent_after_startup : ∃ w,
    Relation.ReflTransGen (Performs fun w op => op.Careful w) fresh w ∧
      (w.descriptorBySelector 0x78).isSome ∧ w.Coherent := by
  have hload : Performs (fun w op => op.Careful w) fresh smallSpace :=
    ⟨Host.roomy, .load false .init smallFile, trivial, run_smallSpace⟩
  have hrun := EStateM.run_after (x := smallInput.setupStartupContext Host.roomy) (s := smallSpace)
    (by decide +kernel)
  have hcareful : (Operation.startup smallInput).Careful smallSpace := by
    intro sd hsd id sd' _ _ _ limit hlimit
    have hseg : (smallSpace.descriptorBySelector smallInput.exec.ss).map (·.seg) = some 0 := by
      decide +kernel
    rw [hsd] at hseg
    have hroom : smallInput.startupEnd ≤ (smallSpace.segments 0).limitSize := by decide +kernel
    rw [show sd.seg = 0 from Option.some.inj hseg, Segment.grownTo_of_le
      ((coherent_step fresh_inv fresh_coherent hload).1.seg 0) (Nat.le_trans hlimit hroom)]
  have hsteps : Relation.ReflTransGen (Performs fun w op => op.Careful w) fresh
      ((smallInput.setupStartupContext Host.roomy).after smallSpace) :=
    .tail (.single hload) ⟨Host.roomy, .startup smallInput, hcareful, hrun⟩
  exact ⟨_, hsteps, by decide +kernel, coherent_of_run hsteps⟩

/-- Growing the shared segment through the selector of the code segment leaves the entry of the data
segment as it was. -/
theorem realloc_not_coherent : ∃ w,
    Relation.ReflTransGen (Performs fun _ _ => True) fresh w ∧ ¬ w.Coherent := by
  have hrun := EStateM.run_after (x := (Operation.segmentRealloc ⟨7, 0, 0x8000⟩).perform Host.roomy)
    (s := smallSpace) (by decide +kernel)
  refine ⟨_, .tail (.single ⟨Host.roomy, _, trivial, run_smallSpace⟩) ⟨Host.roomy, _, trivial, hrun⟩, ?_⟩
  intro hcoherent
  have hdata : (((Operation.segmentRealloc ⟨7, 0, 0x8000⟩).perform Host.roomy).after
      smallSpace).descriptors.get 1 = some ⟨1, .readWrite, 0, .b32⟩ := by
    decide +kernel
  have hentry := hcoherent 1 _ hdata
  revert hentry
  decide +kernel

end Space

end Qine
