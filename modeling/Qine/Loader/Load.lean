import Qine.Loader.Image

/-!
# Loading a file

`load_leaves` puts the phases of `loader_load` together: a file is loaded, or an exception is thrown, or
something goes wrong that can be told from the file.

`loaderLoad_image` describes the memory a program starts with, and says that neither the order of the
fixup items nor the way they are mixed with the LOAD records matters for it, as long as the words they
name do not overlap.
-/

namespace Qine

/-- Writes that do not overlap can change places. -/
theorem Space.written_comm {w : Space} {a b : Nat} {bytes bytes' : List Byte}
    (h : a + bytes.length ≤ b ∨ b + bytes'.length ≤ a) :
    (w.written a bytes).written b bytes' = (w.written b bytes').written a bytes := by
  unfold Space.written
  dsimp only
  rw [Memory.write_comm h]

/-! ## What the records leave alone -/

namespace Space

variable {w w₀ w₁ w₂ : Space}

/-- Only memory, or who may access it, is changed. -/
structure SameTables (w w' : Space) : Prop where
  segments : w'.segments = w.segments
  count : w'.count = w.count
  descriptors : w'.descriptors = w.descriptors
  ldt : w'.ldt = w.ldt

theorem SameTables.refl (w : Space) : SameTables w w := ⟨rfl, rfl, rfl, rfl⟩

theorem SameTables.trans (h : SameTables w w₁) (h' : SameTables w₁ w₂) : SameTables w w₂ :=
  ⟨h'.segments.trans h.segments, h'.count.trans h.count, h'.descriptors.trans h.descriptors,
    h'.ldt.trans h.ldt⟩

theorem perform_same {l : AbstractLoader} {c : LmfContent} (h : SameTables w₀ w) :
    (Lmf.perform l c).Leaves w (fun _ w' => SameTables w₀ w') (fun _ _ => True) := by
  have hpointer : ∀ i o n, (pointer i o n).Leaves w (fun _ w' => SameTables w₀ w') (fun _ _ => True) := by
    intro i o n
    exact pointer_leaves.mono (fun _ _ hp => hp.1.symm ▸ h) (fun _ _ _ => trivial)
  cases c with
  | fixup items => exact EStateM.leaves_pure h
  | load ld size data =>
      have hdst : (l.prepareSegmentLoad ld size).Leaves w (fun _ w' => SameTables w₀ w')
          (fun _ _ => True) := by
        cases l with
        | flat l =>
            show (l.prepareSegmentLoad ld size).Leaves w _ _
            unfold FlatLoader.prepareSegmentLoad
            split
            · exact EStateM.leaves_throw trivial
            · exact hpointer _ _ _
        | segmented l =>
            show (l.prepareSegmentLoad ld size).Leaves w _ _
            unfold SegmentLoader.prepareSegmentLoad
            split
            · exact EStateM.leaves_throw trivial
            · exact hpointer _ _ _
      unfold Lmf.perform
      refine hdst.bind ?_
      intro dst w₁ h₁
      apply EStateM.leaves_get_bind
      split
      · exact EStateM.leaves_throw trivial
      · exact EStateM.leaves_modify ⟨h₁.segments, h₁.count, h₁.descriptors, h₁.ldt⟩

theorem changeAccess_same {i offset size : Nat} {access : Bool} (h : SameTables w₀ w) :
    (changeAccess i access offset size).Leaves w (fun _ w' => SameTables w₀ w') (fun _ _ => True) := by
  unfold changeAccess
  refine (pointer_leaves.mono (fun _ _ h => h) (fun _ _ _ => trivial)).bind ?_
  rintro a w ⟨rfl, -, -⟩
  split
  · exact EStateM.leaves_throw trivial
  · exact EStateM.leaves_modify ⟨h.segments, h.count, h.descriptors, h.ldt⟩

theorem finalizeLoading_same {l : AbstractLoader} :
    l.finalizeLoading.Leaves w (fun _ w' => SameTables w w') (fun _ _ => True) := by
  cases l with
  | flat l => exact EStateM.leaves_forM (fun _ _ h => changeAccess_same h) (.refl w)
  | segmented l => exact EStateM.leaves_pure (.refl w)

theorem relocate_same {l : AbstractLoader} {segmentCount : Nat} {selectors : List (BitVec 16)}
    {r : RelocItem} (h : SameTables w₀ w) :
    (relocate l segmentCount selectors r).Leaves w (fun _ w' => SameTables w₀ w') (fun _ _ => True) := by
  unfold relocate
  split
  · exact EStateM.leaves_throw trivial
  · refine (pointer_leaves.mono (fun _ _ h => h) (fun _ _ _ => trivial)).bind ?_
    rintro a w ⟨rfl, -, -⟩
    apply EStateM.leaves_get_bind
    dsimp only
    split
    · exact EStateM.leaves_throw trivial
    · split
      · exact EStateM.leaves_throw trivial
      · split
        · exact EStateM.leaves_throw trivial
        · exact EStateM.leaves_set ⟨h.segments, h.count, h.descriptors, h.ldt⟩

end Space

namespace Lmf

variable {f : Lmf} {slib : Bool} {w₀ w : Space} {img : Image}

/-! ## The whole file -/

/-- The layout can be set up, and was. -/
def Accepts (slib : Bool) (f : Lmf) : Prop :=
  f.entries.length = f.segmentCount ∧
    if f.hdr.isFlat then
      f.FlatFits ∧ f.HeapFits ∧ f.hdr.heapNbytes.toNat % MemOps.pageSize = 0 ∧
        f.hdr.codeIndex.toNat < f.entries.length
    else
      (∀ e ∈ f.entries, e.size.toNat ≤ SegmentLoader.reservation slib f.hdr) ∧
        f.entries.length * SegmentLoader.reservation slib f.hdr ≤ 2 ^ 31 ∧
        f.hdr.stackIndex.toNat < f.entries.length ∧ f.hdr.heapIndex.toNat < f.entries.length

/-- How loading a file can go wrong: while the segments are laid out, while the records are carried out, or
when the whole file is read. -/
def LoadFaults (slib : Bool) (f : Lmf) : Prop :=
  f.LayoutFaults ∨ f.Accepts slib ∧ (f.RecordsFault slib f.contents ∨
    f.RecordsOk slib f.contents ∧ f.stop = none ∧ (f.ProtectionFaults ∨
      ¬ f.ProtectionFaults ∧ ∃ ids, f.ValidIds ids ∧
        f.RelocsFault slib (ids.map SegmentDescriptor.mkSel) f.relocs f.loadedImage))

/-- What growing leaves as it is, is the same for all segments. -/
theorem forall_modify {P : Shape → Prop} {shapes : List Shape} {k n : Nat}
    (hgrow : ∀ s, P s → P (s.growBytes64capped n)) (h : ∀ s ∈ shapes, P s) :
    ∀ s ∈ shapes.modify k (·.growBytes64capped n), P s := by
  intro s hs
  obtain ⟨j, hj⟩ := List.getElem?_of_mem hs
  rw [List.getElem?_modify] at hj
  obtain ⟨t, ht, rfl⟩ := Option.map_eq_some_iff.mp hj
  have htmem := h t (List.mem_of_getElem? ht)
  split
  · exact hgrow t htmem
  · exact htmem

/-- In the segmented layout all segments have the same reservation, and none has a hole. -/
theorem reserved_of_mem (hflat : ¬ f.hdr.isFlat = true) {s : Shape} (hs : s ∈ f.shapes slib) :
    s.reserved = SegmentLoader.reservation slib f.hdr ∧ s.hole = 0 := by
  rw [shapes, if_neg hflat] at hs
  refine forall_modify (P := fun s => s.reserved = _ ∧ s.hole = 0) (fun _ h => h)
    (forall_modify (fun _ h => h) ?_) s hs
  intro s hs
  obtain ⟨e, -, rfl⟩ := List.mem_map.mp hs
  exact ⟨rfl, rfl⟩

theorem LaidOut.accepts {r : AbstractLoader × LoadInfo} (h : f.LaidOut slib w₀ r w) : f.Accepts slib := by
  refine ⟨h.table, ?_⟩
  split
  · next hflat => exact h.fits hflat
  · next hflat =>
      have hinforms := h.informs
      rw [Informs, if_neg hflat] at hinforms
      obtain ⟨s, t, hs, ht, -⟩ := hinforms
      have hstack := (List.getElem?_eq_some_iff.mp hs).1
      have hheap := (List.getElem?_eq_some_iff.mp ht).1
      rw [List.length_map] at hstack
      rw [List.length_modify, List.length_map] at hheap
      refine ⟨fun e he => h.sizes e he hflat, ?_, hstack, hheap⟩
      rw [← length_shapes slib (Bool.eq_false_iff.mpr hflat)]
      refine h.laid.inv.mul_reserved_le (i := w₀.count) ?_
      intro k hk
      have hk' := List.getElem?_eq_getElem hk
      rw [(h.laid.shape hk').reserved]
      exact (reserved_of_mem hflat (List.getElem_mem hk)).1

/-- Loading a file either ends with everything in place, or throws, or goes wrong in a way that can be
told from the file. -/
theorem load_leaves {host : Host} {info : LoadInfo} (h : w₀.Inv) :
    (f.load host slib info).Leaves w₀
      (fun info' w => f.stop = none ∧ ∃ r w₁ ids img', f.LaidOut slib w₀ r w₁ ∧
        f.Published slib w₀ r.2 f.loadedImage ids img' info' w)
      (fun e _ => ∀ flt, e = .fault flt → f.LoadFaults slib) := by
  unfold load
  refine ((layout_leaves h).mono (fun _ _ hw => hw) ?_).bind ?_
  · intro _ _ he flt heq
    exact .inl (he flt heq)
  · rintro ⟨l, info₁⟩ w₁ hlaid
    have haccepts := hlaid.accepts
    have hl : l = f.loader w₀.count := hlaid.loader
    subst hl
    unfold performAll
    refine ((forM_perform_leaves f.contents_wf hlaid.laid.loaded).mono (fun _ _ hw => hw) ?_).bind ?_
    · intro _ _ he flt heq
      exact .inr ⟨haccepts, .inl (he.1.mp ⟨flt, heq⟩)⟩
    · rintro _ w₂ ⟨h₂, hok⟩
      cases hstop : f.stop with
      | some what => exact EStateM.leaves_throw nofun
      | none =>
          refine (publish_leaves hlaid.table h₂).mono ?_ ?_
          · rintro info' w₃ ⟨ids, img', hpublished⟩
            exact ⟨rfl, _, w₁, ids, img', hlaid, hpublished⟩
          · intro _ _ he flt heq
            exact .inr ⟨haccepts, .inr ⟨hok, hstop, he flt heq⟩⟩

theorem ok_of_forget {α : Type} {r : EStateM.Result HostError Loading α} {a : α} {w : Space}
    (h : forget r = .ok a w) : ∃ file, r = .ok a ⟨w, file⟩ := by
  cases r with
  | ok a' s =>
      cases h
      exact ⟨s.file, rfl⟩
  | error e s => cases h

/-- A file that is loaded could be taken apart, and what was in it was loaded. -/
theorem load_of_loaderLoad {host : Host} {info info' : LoadInfo} {s s' : Loading}
    (hrun : (loaderLoad host slib info).run s = .ok info' s') :
    ∃ f, parse s.file = .ok f ∧ (f.load host slib info).run s.space = .ok info' s'.space := by
  have hforget := @forget_loaderLoad s host slib info
  rw [hrun] at hforget
  obtain ⟨f, w, hparse, hload⟩ := EStateM.bind_ok.mp hforget.symm
  obtain ⟨hf, rfl⟩ := EStateM.ofExcept_ok.mp hparse
  exact ⟨f, hf, hload⟩

/-- What can be computed from the bytes of a file holds for what is in it. -/
theorem eq_of_parse {α : Type} {file : List Byte} {g : Lmf → α} {a : α} (hparse : parse file = .ok f)
    (h : (parse file).toOption.map g = some a) : g f = a := by
  rw [hparse] at h
  exact Option.some.inj h

/-! ## The order of the fixup items -/

variable {selectors : List (BitVec 16)} {r r' : RelocItem} {k o : Nat} {sel : BitVec 16}

theorem run_relocate (h : Loaded w₀ (f.shapes slib) img f.hidden w) (hnames : f.Names slib r k o)
    (hsel : selectors[relocatedSegment (img.word k o)]? = some sel) :
    (relocate (f.loader w₀.count) selectors.length selectors r).run w =
      .ok ⟨⟩ (w.written ((w.segments (w₀.count + k)).location + o) (leBytes 2 sel.toNat)) := by
  have hleaves := @relocate_leaves f slib w₀ w img selectors r h
  cases hrun : (relocate (f.loader w₀.count) selectors.length selectors r).run w with
  | ok a w' =>
      obtain ⟨k', o', sel', hnames', hsel', rfl⟩ := hleaves.of_ok hrun
      cases hnames.target.symm.trans hnames'.target
      cases hsel.symm.trans hsel'
      rfl
  | error e w' =>
      rcases hleaves.of_error hrun with ⟨-, ⟨-, hnot⟩ | ⟨-, k', o', hnames', hle⟩⟩
      · exact absurd ⟨k, o, hnames⟩ hnot
      · cases hnames.target.symm.trans hnames'.target
        have hlt := (List.getElem?_eq_some_iff.mp hsel).1
        omega

/-- Two items that name words apart from each other can change places. -/
theorem relocate_swap (hapart : f.Apart r r') (h : Loaded w₀ (f.shapes slib) img f.hidden w)
    {w₂ : Space}
    (hrun : (relocate (f.loader w₀.count) selectors.length selectors r >>= fun _ =>
      relocate (f.loader w₀.count) selectors.length selectors r').run w = .ok ⟨⟩ w₂) :
    (relocate (f.loader w₀.count) selectors.length selectors r' >>= fun _ =>
      relocate (f.loader w₀.count) selectors.length selectors r).run w = .ok ⟨⟩ w₂ := by
  obtain ⟨_, w₁, h₁, h₂⟩ := EStateM.bind_ok.mp hrun
  obtain ⟨k, o, sel, hnames, hsel, rfl⟩ := (relocate_leaves h).of_ok h₁
  obtain ⟨s, hs, -, hle⟩ := hnames.fits
  obtain ⟨k', o', sel', hnames', hsel', rfl⟩ := (relocate_leaves (h.writtenWord hs hle)).of_ok h₂
  obtain ⟨s', hs', -, hle'⟩ := hnames'.fits
  have hwords := hapart k o k' o' hnames.target hnames'.target
  rw [Image.word_write_of_apart hwords] at hsel'
  have hwords' := hapart.symm k' o' k o hnames'.target hnames.target
  rw [← @Image.word_write_of_apart img k' o' k o sel' hwords'] at hsel
  refine EStateM.bind_ok.mpr ⟨_, _, run_relocate h hnames' hsel', ?_⟩
  rw [run_relocate (h.writtenWord hs' hle') hnames hsel]
  -- the two words are at different addresses
  have haddresses : (w.segments (w₀.count + k')).location + o' + 2 ≤
      (w.segments (w₀.count + k)).location + o ∨
      (w.segments (w₀.count + k)).location + o + 2 ≤ (w.segments (w₀.count + k')).location + o' := by
    by_cases hk : k' = k
    · subst hk
      omega
    · have hshape := h.shape hs
      have h₁ := hshape.inv.paged_le
      have h₂ := hshape.paged
      exact h.apart hs' hle' (by omega) (by omega)
  exact congrArg (EStateM.Result.ok _)
    (Space.written_comm (by rw [length_leBytes, length_leBytes]; exact haddresses))

/-- The LOAD records, in file order. -/
def loads (f : Lmf) : List LmfContent :=
  f.contents.filter fun
    | .load .. => true
    | .fixup _ => false

theorem forM_perform_loads {l : AbstractLoader} :
    forM f.contents (perform l) = forM f.loads (perform l) := by
  unfold loads
  induction f.contents with
  | nil => rfl
  | cons c cs ih =>
      cases c with
      | load ld size data => rw [List.forM_cons, ih, List.filter_cons_of_pos rfl, List.forM_cons]
      | fixup items =>
          rw [List.forM_cons, ih, List.filter_cons_of_neg Bool.false_ne_true]
          exact pure_bind _ _

/-- `f'` is `f` but for records without an effect, the order of the fixup items, and the way the fixups
are mixed with the LOAD records. -/
structure Rearranged (f f' : Lmf) : Prop where
  hdr : f'.hdr = f.hdr
  segmentCount : f'.segmentCount = f.segmentCount
  entries : f'.entries = f.entries
  loads : f'.loads = f.loads
  relocs : f.relocs.Perm f'.relocs
  stop : f'.stop = f.stop

theorem load_rearranged {f' : Lmf} {host : Host} {info info' : LoadInfo} (h : w₀.Inv)
    (hload : (f.load host slib info).run w₀ = .ok info' w) (hpair : f.relocs.Pairwise f.Apart)
    (hsame : f.Rearranged f') : (f'.load host slib info).run w₀ = .ok info' w := by
  obtain ⟨hstop, -⟩ := (load_leaves h).of_ok hload
  have hlayout : f'.layout host slib info = f.layout host slib info := by
    unfold layout
    rw [hsame.hdr, hsame.segmentCount, hsame.entries]
  have htypes : f'.types = f.types := by rw [types, hsame.entries, types]
  unfold load at hload ⊢
  rw [hlayout, hsame.hdr, hsame.segmentCount, htypes, hsame.stop]
  obtain ⟨⟨l, info₁⟩, w₁, h₁, hload⟩ := EStateM.bind_ok.mp hload
  refine EStateM.bind_ok.mpr ⟨⟨l, info₁⟩, w₁, h₁, ?_⟩
  have hlaid := (layout_leaves h).of_ok h₁
  have hl : l = f.loader w₀.count := hlaid.loader
  subst hl
  unfold performAll at hload ⊢
  dsimp only at hload ⊢
  rw [hstop] at hload ⊢
  rw [forM_perform_loads, hsame.loads, ← forM_perform_loads]
  obtain ⟨_, w₂, h₂, hload⟩ := EStateM.bind_ok.mp hload
  refine EStateM.bind_ok.mpr ⟨_, w₂, h₂, ?_⟩
  have hloaded := ((forM_perform_leaves f.contents_wf hlaid.laid.loaded).of_ok h₂).1
  unfold publish at hload ⊢
  obtain ⟨_, w₃, h₃, hload⟩ := EStateM.bind_ok.mp hload
  refine EStateM.bind_ok.mpr ⟨_, w₃, h₃, ?_⟩
  have hhidden := ((finalizeLoading_leaves hloaded).of_ok h₃).1
  obtain ⟨⟨info₂, selectors⟩, w₄, h₄, hload⟩ := EStateM.bind_ok.mp hload
  refine EStateM.bind_ok.mpr ⟨⟨info₂, selectors⟩, w₄, h₄, ?_⟩
  obtain ⟨_, w₅, h₅, hload⟩ := EStateM.bind_ok.mp hload
  refine EStateM.bind_ok.mpr ⟨⟨⟩, w₅, ?_, hload⟩
  obtain ⟨hw₄, ids, hselectors, hvalid, -⟩ := (createDescriptors_loader_leaves hhidden).of_ok h₄
  have hcount : f.segmentCount = selectors.length := by
    dsimp only at hselectors
    rw [hselectors, List.length_map, hvalid.1, hlaid.table]
  rw [hcount] at h₅ ⊢
  refine EStateM.forM_perm (P := fun w => ∃ img, Loaded w₀ (f.shapes slib) img f.hidden w)
    Apart.symm ?_ ?_ hsame.relocs hpair ⟨_, hw₄⟩ h₅
  · rintro r w w' ⟨img, hw⟩ hrun
    obtain ⟨k, o, sel, hnames, -, rfl⟩ := (relocate_leaves hw).of_ok hrun
    obtain ⟨s, hs, -, hle⟩ := hnames.fits
    exact ⟨_, hw.writtenWord hs hle⟩
  · rintro r r' w w' hapart ⟨img, hw⟩ hrun
    exact relocate_swap hapart hw hrun

/-! ## The memory a program starts with -/

/-- Of the process that `w₀` was, what is in memory once the file is loaded, and the selectors that lead
there. -/
structure InMemory (slib : Bool) (f : Lmf) (w₀ : Space) (info : LoadInfo)
    (selectors : List (BitVec 16)) (w : Space) : Prop where
  length : selectors.length = f.entries.length
  nodup : selectors.Nodup
  /-- a selector is that of the descriptor for its loader segment -/
  selector : ∀ {i : Nat} {e : SegEntry}, f.entries[i]? = some e → ∃ sd : SegmentDescriptor,
    selectors[i]? = some sd.selector ∧ w.descriptors.get sd.id = some sd ∧ sd.access = e.access ∧
      sd.seg = w₀.count + f.segmentOf i ∧ sd.bits = info.bits
  shape : ∀ {k : Nat} {s : Shape}, (f.shapes slib)[k]? = some s → s.Of (w.segments (w₀.count + k))
  /-- a word named by a fixup item -/
  word : ∀ r ∈ f.relocs, ∃ k o s, f.relocTarget r = some (k, o) ∧ (f.shapes slib)[k]? = some s ∧
    s.hole ≤ o ∧ o + 2 ≤ s.paged ∧
    selectors[(f.loadedImage.word k o).toNat >>> 3]? =
      some (w.mem.loadWord 2 ((w.segments (w₀.count + k)).location + o))
  /-- a byte in none of these words -/
  byte : ∀ {k : Nat} {s : Shape}, (f.shapes slib)[k]? = some s → ∀ o, s.hole ≤ o → o < s.paged →
    (∀ r ∈ f.relocs, ∀ k' o', f.relocTarget r = some (k', o') → k ≠ k' ∨ o < o' ∨ o' + 2 ≤ o) →
    w.mem ((w.segments (w₀.count + k)).location + o) = f.loadedImage k o
  /-- the segments that were there before -/
  frame : ∀ i, i < w₀.count → w.segments i = w₀.segments i ∧ ∀ o, o < (w₀.segments i).reserved →
    w.mem ((w₀.segments i).location + o) = w₀.mem ((w₀.segments i).location + o)

theorem selToId_mkSel :
    ∀ id < 1024, SegmentDescriptor.selToId (SegmentDescriptor.mkSel id) = id := by
  decide +kernel

theorem Published.inMemory {info info' : LoadInfo} {ids : List Nat} {img' : Image}
    (h : f.Published slib w₀ info f.loadedImage ids img' info' w) (hpair : f.relocs.Pairwise f.Apart) :
    f.InMemory slib w₀ info' (ids.map SegmentDescriptor.mkSel) w := by
  obtain ⟨hlength, hincreasing, hrange⟩ := h.valid
  refine ⟨?_, ?_, ?_, h.loaded.shape, ?_, ?_, ?_⟩
  · rw [List.length_map, hlength]
  · refine (List.nodup_map_iff_inj_on (hincreasing.imp Nat.ne_of_lt)).mpr ?_
    intro id hid id' hid' heq
    rw [← selToId_mkSel id (hrange id hid), heq, selToId_mkSel id' (hrange id' hid')]
  · intro i e he
    obtain ⟨id, hid, hget⟩ := h.descriptor he
    refine ⟨⟨id, e.access, w₀.count + f.segmentOf i, info'.bits⟩, ?_, hget, rfl, rfl, rfl⟩
    rw [List.getElem?_map, hid]
    rfl
  · intro r hr
    have hnames := h.relocated.names r hr
    obtain ⟨k, o, hnames⟩ := hnames
    obtain ⟨s, hs, h₁, h₂⟩ := hnames.fits
    refine ⟨k, o, s, hnames.target, hs, h₁, h₂, ?_⟩
    rw [← relocatedSegment_eq, h.relocated.word hpair hr hnames.target, h.loaded.loadWord hs h₁ h₂]
  · intro k s hs o h₁ h₂ hout
    rw [h.loaded.holds hs o h₁ h₂, h.relocated.frame hout]
  · intro i hi
    exact ⟨h.loaded.old i hi, h.loaded.mem i hi⟩

end Lmf

/-- If the fixup items of a file that is loaded name words apart from each other, memory is what the LOAD
records say, with every one of these words replaced by the selector for the segment whose number it held;
and a file in which the items come in another order, or are mixed with the LOAD records in another way,
is loaded to the same effect. -/
theorem loaderLoad_image {host : Host} {slib : Bool} {info info' : LoadInfo} {s s' : Loading}
    (hinv : s.space.Inv) (hrun : (loaderLoad host slib info).run s = .ok info' s') :
    ∃ f, Lmf.parse s.file = .ok f ∧ f.stop = none ∧ (f.relocs.Pairwise f.Apart →
      (∃ selectors, f.InMemory slib s.space info' selectors s'.space) ∧
      ∀ file' f', Lmf.parse file' = .ok f' → f.Rearranged f' →
        ∃ rest, (loaderLoad host slib info).run ⟨s.space, file'⟩ = .ok info' ⟨s'.space, rest⟩) := by
  obtain ⟨f, hparse, hload⟩ := Lmf.load_of_loaderLoad hrun
  obtain ⟨hstop, r, w₁, ids, img', -, hpublished⟩ := (Lmf.load_leaves hinv).of_ok hload
  refine ⟨f, hparse, hstop, ?_⟩
  intro hpair
  refine ⟨⟨_, hpublished.inMemory hpair⟩, ?_⟩
  intro file' f' hparse' hsame
  have hload' := Lmf.load_rearranged hinv hload hpair hsame
  apply Lmf.ok_of_forget
  rw [forget_loaderLoad]
  exact EStateM.bind_ok.mpr ⟨f', s.space, EStateM.ofExcept_ok.mpr ⟨hparse', rfl⟩, hload'⟩

/-- The beginning of a file, up to the table. -/
def headerBytes (segments cflags codeIndex stackIndex heapIndex stackNbytes heapNbytes imageBase : Nat) :
    List Byte :=
  leBytes 2 0 ++ leBytes 2 (LmfHeader.size + 4 * segments) ++ leBytes 2 0 ++
    leBytes 2 400 ++ leBytes 2 cflags ++ leBytes 2 386 ++ leBytes 2 0 ++
    leBytes 2 codeIndex ++ leBytes 2 stackIndex ++ leBytes 2 heapIndex ++ leBytes 10 0 ++
    leBytes 4 0 ++ leBytes 4 stackNbytes ++ leBytes 4 heapNbytes ++ leBytes 4 imageBase ++ leBytes 8 0

/-- The header of a record in front of its data. -/
def recordBytes (recType : Byte) (data : List Byte) : List Byte :=
  recType :: 0 :: leBytes 2 data.length ++ leBytes 2 0 ++ data

/-- A flat executable of two loader segments, with one LOAD record for the second and a fixup for the word
that it loads. -/
def smallFile : List Byte :=
  headerBytes 2 0x12 0 1 1 0x1000 0x1000 0x2000 ++ leBytes 4 0x20000010 ++ leBytes 4 8 ++
    recordBytes LmfRecord.load (leBytes 2 1 ++ leBytes 4 0 ++ leBytes 2 (1 <<< 3)) ++
    recordBytes LmfRecord.fixup (leBytes 2 1 ++ leBytes 4 0x3000) ++
    recordBytes LmfRecord.imageEnd []

/-- What is known about `smallFile` when it is loaded. -/
def smallInfo : LoadInfo := ⟨.b32, 0x2000, 15, 15, 7, 0x4000, 0x1000, 0x1000⟩

theorem loaderLoad_image_smallFile : ∃ s' f,
    (loaderLoad Host.roomy false .init).run ⟨Space.fresh, smallFile⟩ = .ok smallInfo s' ∧
      Lmf.parse smallFile = .ok f ∧ f.relocs = [⟨1, 0x3000⟩] ∧
      ∃ selectors, f.InMemory false Space.fresh smallInfo selectors s'.space := by
  have hrun := EStateM.run_of_run' (show (loaderLoad Host.roomy false .init).run'
    ⟨Space.fresh, smallFile⟩ = some smallInfo by decide +kernel)
  obtain ⟨f, hparse, -, himage⟩ := loaderLoad_image Space.fresh_inv hrun
  have hrelocs : f.relocs = [⟨1, 0x3000⟩] := Lmf.eq_of_parse hparse (by decide +kernel)
  refine ⟨_, f, hrun, hparse, hrelocs, (himage ?_).1⟩
  rw [hrelocs]
  exact List.pairwise_singleton _ _

end Qine
