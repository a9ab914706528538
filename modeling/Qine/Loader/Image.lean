import Qine.Loader.Layout

/-!
# What is in memory after loading

The contents of the new segments are followed in an `Image`, a memory for each of them that knows nothing
of host addresses. A LOAD record overwrites a part of it, and a fixup item replaces a word; `Loaded` ties
the image to the address space.

Each phase of `loader_load` has a lemma that says what it does to the image, and what must be wrong with
the file if it goes wrong.
-/

namespace Qine

/-- The contents of the new segments. -/
abbrev Image := Nat → Mem

namespace Image

/-- Overwrite the bytes at an offset of segment `k`. -/
def write (img : Image) (k o : Nat) (bytes : List Byte) : Image :=
  Function.update img k ((img k).write o bytes)

/-- The word at an offset of segment `k`. -/
def word (img : Image) (k o : Nat) : BitVec 16 := (img k).loadWord 2 o

variable {img img' : Image} {k o k' o' : Nat} {bytes : List Byte}

/-- A byte outside what is written keeps its value. -/
theorem write_of_outside (h : k' ≠ k ∨ o' < o ∨ o + bytes.length ≤ o') :
    img.write k o bytes k' o' = img k' o' := by
  unfold write
  by_cases hk : k' = k
  · subst hk
    rw [Function.update_self, Memory.write_of_not_mem]
    rw [List.mem_range'_1]
    omega
  · rw [Function.update_of_ne hk]

theorem word_congr (h₀ : img k o = img' k o) (h₁ : img k (o + 1) = img' k (o + 1)) :
    img.word k o = img'.word k o := by
  refine Memory.loadWord_congr ?_
  intro x hx hx'
  obtain rfl | rfl : x = o ∨ x = o + 1 := by omega
  · exact h₀
  · exact h₁

theorem word_write_self (sel : BitVec 16) : (img.write k o (leBytes 2 sel.toNat)).word k o = sel := by
  unfold word write
  rw [Function.update_self]
  exact Memory.loadWord_storeWord (w := 2) sel

/-- A word apart from the one that is written keeps its value. -/
theorem word_write_of_apart {sel : BitVec 16} (h : k' ≠ k ∨ o' + 2 ≤ o ∨ o + 2 ≤ o') :
    (img.write k o (leBytes 2 sel.toNat)).word k' o' = img.word k' o' := by
  have hlength : (leBytes 2 sel.toNat).length = 2 := length_leBytes 2 _
  refine word_congr (write_of_outside ?_) (write_of_outside ?_) <;> rw [hlength] <;> omega

end Image

/-- The new segments hold the image. `hidden` says which of their bytes cannot be accessed. -/
structure Loaded (w₀ : Space) (shapes : List Shape) (img : Image) (hidden : Nat → Nat → Bool)
    (w : Space) : Prop where
  inv : w.Inv
  count : w.count = w₀.count + shapes.length
  old : ∀ i, i < w₀.count → w.segments i = w₀.segments i
  shape : ∀ {k : Nat} {s : Shape}, shapes[k]? = some s → s.Of (w.segments (w₀.count + k))
  holds : ∀ {k : Nat} {s : Shape}, shapes[k]? = some s → ∀ o, s.hole ≤ o → o < s.paged →
    w.mem ((w.segments (w₀.count + k)).location + o) = img k o
  prot : ∀ {k : Nat} {s : Shape}, shapes[k]? = some s → ∀ o, o < s.reserved →
    w.protNone ((w.segments (w₀.count + k)).location + o) = hidden k o
  mem : ∀ i, i < w₀.count → ∀ o, o < (w₀.segments i).reserved →
    w.mem ((w₀.segments i).location + o) = w₀.mem ((w₀.segments i).location + o)

theorem Laid.loaded {w₀ w : Space} {shapes : List Shape} (h : Laid w₀ shapes w) :
    Loaded w₀ shapes (fun _ _ => 0) (fun _ _ => false) w :=
  ⟨h.inv, h.count, h.old, h.shape, h.blank, h.accessible, h.mem⟩

namespace Loaded

variable {w₀ w : Space} {shapes : List Shape} {s : Shape} {img : Image} {hidden : Nat → Nat → Bool}
  {k o n : Nat} {bytes : List Byte}

theorem lt_count (h : Loaded w₀ shapes img hidden w) (hk : shapes[k]? = some s) :
    w₀.count + k < w.count := by
  have hlt := (List.getElem?_eq_some_iff.mp hk).1
  have hcount := h.count
  omega

/-- Bytes of two segments are at different addresses. -/
theorem apart (h : Loaded w₀ shapes img hidden w) (hk : shapes[k]? = some s) (ho : o + n ≤ s.paged)
    {j o' n' : Nat} (hj : j ≠ w₀.count + k) (ho' : o' + n' ≤ (w.segments j).reserved) :
    (w.segments (w₀.count + k)).location + o + n ≤ (w.segments j).location + o' ∨
      (w.segments j).location + o' + n' ≤ (w.segments (w₀.count + k)).location + o := by
  have hshape := h.shape hk
  have hle := hshape.inv.paged_le
  have hpaged := hshape.paged
  rcases h.inv.apart _ _ hj with hlt | hlt <;> omega

/-- Writing bytes to a new segment. -/
theorem written (h : Loaded w₀ shapes img hidden w) (hk : shapes[k]? = some s)
    (ho : o + bytes.length ≤ s.paged) :
    Loaded w₀ shapes (img.write k o bytes) hidden
      (w.written ((w.segments (w₀.count + k)).location + o) bytes) := by
  refine ⟨h.inv.withMem _, h.count, h.old, h.shape, ?_, h.prot, ?_⟩
  · intro j t hj o' h₁ h₂
    show (w.mem.write ((w.segments (w₀.count + k)).location + o) bytes)
      ((w.segments (w₀.count + j)).location + o') = Function.update img k _ j o'
    by_cases hjk : j = k
    · subst hjk
      rw [Function.update_self]
      unfold Memory.write
      simp only [h.holds hj o' h₁ h₂, Nat.add_sub_add_left, Nat.add_le_add_iff_left]
    · rw [Function.update_of_ne hjk]
      have hshape := h.shape hj
      have hle := hshape.inv.paged_le
      have hpaged := hshape.paged
      have hne : w₀.count + j ≠ w₀.count + k := by omega
      rw [Memory.write_of_not_mem, h.holds hj o' h₁ h₂]
      rw [List.mem_range'_1]
      have hapart := @apart _ _ _ _ _ _ _ _ _ h hk ho (w₀.count + j) o' 1 hne (by omega)
      omega
  · intro i hi o' ho'
    have hold := h.old i hi
    have hne : i ≠ w₀.count + k := by omega
    have hapart := @apart _ _ _ _ _ _ _ _ _ h hk ho i o' 1 hne (by rw [hold]; omega)
    rw [hold] at hapart
    show (w.mem.write _ bytes) _ = _
    rw [Memory.write_of_not_mem, h.mem i hi o' ho']
    rw [List.mem_range'_1]
    omega

/-- Replacing a word in a new segment. -/
theorem writtenWord {sel : BitVec 16} (h : Loaded w₀ shapes img hidden w) (hk : shapes[k]? = some s)
    (ho : o + 2 ≤ s.paged) :
    Loaded w₀ shapes (img.write k o (leBytes 2 sel.toNat)) hidden
      (w.written ((w.segments (w₀.count + k)).location + o) (leBytes 2 sel.toNat)) :=
  h.written hk (by rw [length_leBytes]; exact ho)

/-- The host sees the image's words. -/
theorem loadWord (h : Loaded w₀ shapes img hidden w) (hk : shapes[k]? = some s) (h₁ : s.hole ≤ o)
    (h₂ : o + 2 ≤ s.paged) :
    w.mem.loadWord 2 ((w.segments (w₀.count + k)).location + o) = img.word k o := by
  have hread : w.mem.read ((w.segments (w₀.count + k)).location + o) 2 = (img k).read o 2 := by
    apply List.ext_getElem?
    intro i
    by_cases hi : i < 2
    · rw [Memory.getElem?_read hi, Memory.getElem?_read hi, Nat.add_assoc, h.holds hk _ (by omega) (by omega)]
    · rw [List.getElem?_eq_none (by rw [Memory.length_read]; omega),
        List.getElem?_eq_none (by rw [Memory.length_read]; omega)]
  rw [Image.word, Memory.loadWord, Memory.loadWord, hread]

theorem accessible_iff (h : Loaded w₀ shapes img hidden w) (hk : shapes[k]? = some s)
    (ho : o + n ≤ s.reserved) :
    w.accessible ((w.segments (w₀.count + k)).location + o) n = true ↔
      ∀ i, i < n → hidden k (o + i) = false := by
  unfold Space.accessible
  rw [List.all_eq_true]
  constructor
  · intro hall i hi
    have hbit := hall ((w.segments (w₀.count + k)).location + o + i)
      (List.mem_range'_1.mpr ⟨by omega, by omega⟩)
    rw [Nat.add_assoc, h.prot hk _ (by omega)] at hbit
    simpa using hbit
  · intro hall x hx
    rw [List.mem_range'_1] at hx
    obtain ⟨i, rfl⟩ : ∃ i, x = (w.segments (w₀.count + k)).location + (o + i) :=
      ⟨x - ((w.segments (w₀.count + k)).location + o), by omega⟩
    rw [h.prot hk _ (by omega), hall i (by omega)]
    rfl

end Loaded

theorem Space.pointer_leaves {w : Space} {i o n : Nat} :
    (Space.pointer i o n).Leaves w
      (fun a w' => w' = w ∧ (w.segments i).checkBounds o n = true ∧ a = (w.segments i).location + o)
      (fun e w' => w' = w ∧ (∃ flt, e = .fault flt) ∧ (w.segments i).checkBounds o n = false) := by
  unfold Space.pointer
  apply EStateM.leaves_get_bind
  dsimp only
  split
  · next hb => exact EStateM.leaves_pure ⟨rfl, hb, rfl⟩
  · next hb => exact EStateM.leaves_throw ⟨rfl, ⟨_, rfl⟩, Bool.eq_false_iff.mpr hb⟩

/-- In a segment of a known shape, the pointer is had exactly if what it is for fits. -/
theorem Space.pointer_shape_leaves {w : Space} {i o n : Nat} {s : Shape} (hshape : s.Of (w.segments i))
    (ho : o < 2 ^ 32) (hn : n < 2 ^ 32) :
    (Space.pointer i o n).Leaves w (fun a w' => a = (w.segments i).location + o ∧ s.Fits o n ∧ w' = w)
      (fun e _ => (∃ flt, e = .fault flt) ∧ ¬ s.Fits o n) := by
  have hbounds := hshape.checkBounds ho hn
  refine pointer_leaves.mono ?_ ?_
  · rintro a _ ⟨rfl, hb, rfl⟩
    exact ⟨rfl, hbounds.mp hb, rfl⟩
  · rintro e _ ⟨-, hflt, hb⟩
    refine ⟨hflt, fun hfits => ?_⟩
    rw [hbounds.mpr hfits] at hb
    cases hb

namespace Lmf

variable {f : Lmf} {slib : Bool} {w₀ w : Space} {img : Image}

/-! ## LOAD records -/

/-- Where a LOAD record puts its data: the number of the new segment, and the offset in it. -/
def loadTarget (f : Lmf) (ld : LmfData) : Option (Nat × Nat) :=
  if f.hdr.isFlat then
    (f.flat.segments[ld.segment.toNat]?).map fun seg => (0, uint32 (seg.start + ld.offset.toNat))
  else if ld.segment.toNat < f.entries.length then some (ld.segment.toNat, ld.offset.toNat)
  else none

/-- The image after a record. -/
def performed (f : Lmf) (img : Image) : LmfContent → Image
  | .load ld _ data =>
    match f.loadTarget ld with
    | some (k, o) => img.write k o data
    | none => img
  | .fixup _ => img

/-- The image after all the records: zeros, overwritten by the LOAD records in file order. -/
def loadedImage (f : Lmf) : Image := f.contents.foldl f.performed fun _ _ => 0

/-- A LOAD record that is carried out leads outside its segment. -/
def RecordsFault (slib : Bool) (f : Lmf) : List LmfContent → Prop
  | [] => False
  | .fixup _ :: cs => RecordsFault slib f cs
  | .load ld size _ :: cs =>
    ∃ k o s, f.loadTarget ld = some (k, o) ∧ (f.shapes slib)[k]? = some s ∧
      (s.Fits o size → RecordsFault slib f cs)

/-- All LOAD records stay inside their segments. -/
def RecordsOk (slib : Bool) (f : Lmf) (cs : List LmfContent) : Prop :=
  ∀ ld size data, LmfContent.load ld size data ∈ cs →
    ∃ k o s, f.loadTarget ld = some (k, o) ∧ (f.shapes slib)[k]? = some s ∧ s.Fits o size

theorem length_shapes (slib : Bool) (hflat : f.hdr.isFlat = false) : (f.shapes slib).length = f.entries.length := by
  rw [shapes, if_neg (Bool.eq_false_iff.mp hflat), List.length_modify, List.length_modify,
    List.length_map]

theorem getElem?_segments {c n i : Nat} :
    ((List.range n).map (c + ·))[i]? = if i < n then some (c + i) else none := by
  rw [List.getElem?_map]
  split
  · next hi => rw [List.getElem?_range hi, Option.map_some]
  · next hi => rw [List.getElem?_eq_none (by rw [List.length_range]; omega), Option.map_none]

theorem prepareSegmentLoad_loader {ld : LmfData} {size c : Nat} :
    (f.loader c).prepareSegmentLoad ld size =
      match f.loadTarget ld with
      | none => panic "data: invalid segment"
      | some (k, o) => Space.pointer (c + k) o size := by
  unfold loader loadTarget
  split
  · show FlatLoader.prepareSegmentLoad _ ld size = _
    unfold FlatLoader.prepareSegmentLoad
    dsimp only
    cases f.flat.segments[ld.segment.toNat]? with
    | none => rfl
    | some seg => rfl
  · show SegmentLoader.prepareSegmentLoad _ ld size = _
    unfold SegmentLoader.prepareSegmentLoad
    dsimp only
    rw [getElem?_segments]
    by_cases hlt : ld.segment.toNat < f.entries.length
    · rw [if_pos hlt, if_pos hlt]
    · rw [if_neg hlt, if_neg hlt]

theorem loadTarget_spec (slib : Bool) {ld : LmfData} {k o : Nat} (h : f.loadTarget ld = some (k, o)) :
    o < 2 ^ 32 ∧ ∃ s, (f.shapes slib)[k]? = some s := by
  unfold loadTarget at h
  split at h
  · next hflat =>
      rw [Option.map_eq_some_iff] at h
      obtain ⟨seg, -, heq⟩ := h
      cases heq
      exact ⟨uint32_lt _, f.flatShape, by rw [shapes, if_pos hflat]; rfl⟩
  · next hflat =>
      split at h
      · next hlt =>
          cases h
          rw [← length_shapes slib (Bool.eq_false_iff.mpr hflat)] at hlt
          exact ⟨ld.offset.isLt, _, List.getElem?_eq_getElem hlt⟩
      · cases h

variable {c : LmfContent} {cs : List LmfContent} {ld : LmfData} {size k o : Nat} {data : List Byte} {s : Shape}

theorem recordsOk_cons :
    f.RecordsOk slib (c :: cs) ↔ f.RecordsOk slib [c] ∧ f.RecordsOk slib cs := by
  simp only [RecordsOk, List.mem_cons, List.not_mem_nil, or_false, or_imp, forall_and]

theorem recordsOk_load (htarget : f.loadTarget ld = some (k, o)) (hs : (f.shapes slib)[k]? = some s) :
    f.RecordsOk slib [.load ld size data] ↔ s.Fits o size := by
  constructor
  · intro hok
    obtain ⟨k', o', s', htarget', hs', hfits⟩ := hok ld size data (List.mem_singleton_self _)
    cases htarget.symm.trans htarget'
    cases hs.symm.trans hs'
    exact hfits
  · intro hfits ld' size' data' hmem
    cases List.mem_singleton.mp hmem
    exact ⟨k, o, s, htarget, hs, hfits⟩

theorem recordsFault_load (htarget : f.loadTarget ld = some (k, o))
    (hs : (f.shapes slib)[k]? = some s) :
    f.RecordsFault slib (.load ld size data :: cs) ↔ (s.Fits o size → f.RecordsFault slib cs) := by
  constructor
  · rintro ⟨k', o', s', htarget', hs', hfault⟩
    cases htarget.symm.trans htarget'
    cases hs.symm.trans hs'
    exact hfault
  · exact fun hfault => ⟨k, o, s, htarget, hs, hfault⟩

/-- Behind a record that is carried out, the others decide. -/
theorem recordsFault_cons (h : f.RecordsOk slib [c]) :
    f.RecordsFault slib (c :: cs) ↔ f.RecordsFault slib cs := by
  cases c with
  | fixup items => exact Iff.rfl
  | load ld size data =>
      obtain ⟨k, o, s, htarget, hs, hfits⟩ := h ld size data (List.mem_singleton_self _)
      rw [recordsFault_load htarget hs]
      exact forall_prop_of_true hfits

theorem RecordsOk.not_fault (h : f.RecordsOk slib cs) : ¬ f.RecordsFault slib cs := by
  induction cs with
  | nil => exact id
  | cons c cs ih =>
      obtain ⟨hc, hcs⟩ := recordsOk_cons.mp h
      rw [recordsFault_cons hc]
      exact ih hcs

theorem perform_load_leaves (hsize : size < 2 ^ 16) (hdata : data.length ≤ size)
    (h : Loaded w₀ (f.shapes slib) img (fun _ _ => false) w) (htarget : f.loadTarget ld = some (k, o))
    (hs : (f.shapes slib)[k]? = some s) :
    (perform (f.loader w₀.count) (.load ld size data)).Leaves w
      (fun _ w' => Loaded w₀ (f.shapes slib) (img.write k o data) (fun _ _ => false) w' ∧ s.Fits o size)
      (fun e _ => (∃ flt, e = .fault flt) ∧ ¬ s.Fits o size) := by
  have hshape := h.shape hs
  have ho := (loadTarget_spec slib htarget).1
  rw [perform, prepareSegmentLoad_loader, htarget]
  refine (Space.pointer_shape_leaves hshape ho (Nat.lt_trans hsize (by decide))).bind ?_
  rintro _ w ⟨rfl, hfits, rfl⟩
  have hle : o + data.length ≤ s.paged := Nat.le_trans (Nat.add_le_add_left hdata o) hfits.2.1
  -- nothing is protected before the whole file is read
  have hacc : w.accessible ((w.segments (w₀.count + k)).location + o) data.length = true := by
    rw [h.accessible_iff hs]
    · exact fun _ _ => rfl
    · have h₁ := hshape.inv.paged_le
      have h₂ := hshape.paged
      have h₃ := hshape.reserved
      omega
  apply EStateM.leaves_get_bind
  rw [hacc]
  exact EStateM.leaves_modify ⟨h.written hs hle, hfits⟩

theorem perform_leaves (cs : List LmfContent) (hc : c.Wf)
    (h : Loaded w₀ (f.shapes slib) img (fun _ _ => false) w) :
    (perform (f.loader w₀.count) c).Leaves w
      (fun _ w' => Loaded w₀ (f.shapes slib) (f.performed img c) (fun _ _ => false) w' ∧
        f.RecordsOk slib [c])
      (fun e _ => ((∃ flt, e = .fault flt) ↔ f.RecordsFault slib (c :: cs)) ∧
        ¬ f.RecordsOk slib (c :: cs)) := by
  cases c with
  | fixup items =>
      refine EStateM.leaves_pure ⟨h, ?_⟩
      intro ld size data hmem
      cases List.mem_singleton.mp hmem
  | load ld size data =>
      cases htarget : f.loadTarget ld with
      | none =>
          -- a segment that is not there is the one thing the loader checks
          rw [perform, prepareSegmentLoad_loader, htarget]
          refine (EStateM.leaves_throw (Q := fun _ _ => False) ⟨⟨?_, ?_⟩, ?_⟩).bind
            (fun _ _ hfalse => hfalse.elim)
          · rintro ⟨flt, hflt⟩
            cases hflt
          · rintro ⟨k, o, s, htarget', -⟩
            cases htarget.symm.trans htarget'
          · intro hok
            obtain ⟨k, o, s, htarget', -⟩ := hok ld size data List.mem_cons_self
            cases htarget.symm.trans htarget'
      | some target =>
          obtain ⟨k, o⟩ := target
          obtain ⟨-, s, hs⟩ := loadTarget_spec slib htarget
          refine (perform_load_leaves hc.1 hc.2 h htarget hs).mono ?_ ?_
          · rintro _ w' ⟨h', hfits⟩
            refine ⟨?_, (recordsOk_load htarget hs).mpr hfits⟩
            rw [performed, htarget]
            exact h'
          · rintro e _ ⟨hflt, hnot⟩
            refine ⟨iff_of_true hflt ((recordsFault_load htarget hs).mpr fun hfits => absurd hfits hnot), ?_⟩
            intro hok
            exact hnot ((recordsOk_load htarget hs).mp (recordsOk_cons.mp hok).1)

/-- After the records, the segments hold what they say; if something goes wrong, one of them is wrong. -/
theorem forM_perform_leaves (hcs : ∀ c ∈ cs, c.Wf)
    (h : Loaded w₀ (f.shapes slib) img (fun _ _ => false) w) :
    (forM cs (perform (f.loader w₀.count))).Leaves w
      (fun _ w' => Loaded w₀ (f.shapes slib) (cs.foldl f.performed img) (fun _ _ => false) w' ∧
        f.RecordsOk slib cs)
      (fun e _ => ((∃ flt, e = .fault flt) ↔ f.RecordsFault slib cs) ∧ ¬ f.RecordsOk slib cs) := by
  induction cs generalizing img w with
  | nil => exact EStateM.leaves_pure ⟨h, nofun⟩
  | cons c cs ih =>
      rw [List.forM_cons]
      refine (perform_leaves cs (hcs c List.mem_cons_self) h).bind ?_
      rintro _ w' ⟨h', hok⟩
      refine (ih (fun c' hc' => hcs c' (List.mem_cons_of_mem c hc')) h').mono ?_ ?_
      · rintro _ w'' ⟨h'', hoks⟩
        exact ⟨h'', recordsOk_cons.mpr ⟨hok, hoks⟩⟩
      · rintro e w'' ⟨hfault, hnot⟩
        exact ⟨hfault.trans (recordsFault_cons hok).symm, fun hoks => hnot (recordsOk_cons.mp hoks).2⟩

/-! ## Protection -/

/-- Which offsets cannot be accessed after `change_access` for the loader segment. -/
def protect (seg : FlatSegment) (hidden : Nat → Bool) (o : Nat) : Bool :=
  if seg.start ≤ o ∧ o < seg.start + MemOps.alignPageUp seg.size then !Segment.mapProt seg.type
  else hidden o

/-- Which bytes of the new segments cannot be accessed after `finalize_loading`. -/
def hidden (f : Lmf) (_ : Nat) : Nat → Bool :=
  if f.hdr.isFlat then f.flat.segments.foldl (fun hidden seg => protect seg hidden) fun _ => false
  else fun _ => false

/-- A loader segment does not lie in the flat segment as a whole. -/
def ProtectionFaults (f : Lmf) : Prop :=
  f.hdr.isFlat ∧ ∃ seg ∈ f.flat.segments, ¬ f.flatShape.Fits seg.start (MemOps.alignPageUp seg.size)

theorem loaded_protect {s : Shape} {hidden : Nat → Bool} {start n : Nat} {access : Bool}
    (h : Loaded w₀ [s] img (fun _ => hidden) w) (hfits : start + n ≤ s.paged) :
    Loaded w₀ [s] img
      (fun _ o => if start ≤ o ∧ o < start + n then !access else hidden o)
      (w.protect access ((w.segments w₀.count).location + start) n) := by
  have hshape : s.Of (w.segments w₀.count) := h.shape (k := 0) rfl
  have hpaged := hshape.paged
  refine ⟨⟨h.inv.seg, h.inv.page, h.inv.apart, h.inv.fresh, ?_, h.inv.table, h.inv.descriptor⟩,
    h.count, h.old, h.shape, h.holds, ?_, h.mem⟩
  · intro x hx
    by_cases hin : (w.segments w₀.count).location + start ≤ x ∧
        x < (w.segments w₀.count).location + start + n
    · exact ⟨w₀.count, by show (w.segments w₀.count).location ≤ x; omega,
        by show x < (w.segments w₀.count).location + (w.segments w₀.count).pagedSize; omega⟩
    · refine h.inv.prot x ?_
      have hx' : (if _ then !access else w.protNone x) = true := hx
      rwa [if_neg hin] at hx'
  · intro k t hk o ho
    obtain ⟨hlt, rfl⟩ := List.getElem?_eq_some_iff.mp hk
    obtain rfl : k = 0 := Nat.lt_one_iff.mp hlt
    show (if (w.segments w₀.count).location + start ≤ (w.segments w₀.count).location + o ∧
      (w.segments w₀.count).location + o < (w.segments w₀.count).location + start + n then !access
      else w.protNone ((w.segments w₀.count).location + o)) = _
    have hprot := h.prot hk o ho
    rw [Nat.add_zero] at hprot
    simp only [hprot, Nat.add_le_add_iff_left, Nat.add_assoc, Nat.add_lt_add_iff_left]

/-- The numbers of a loader segment in the flat layout. -/
structure FlatWf (seg : FlatSegment) : Prop where
  start_lt : seg.start < 2 ^ 32
  start_aligned : MemOps.pageSize ∣ seg.start
  size_le : seg.size ≤ 2 ^ 28
  size_aligned : MemOps.alignPageUp seg.size = seg.size

theorem foldl_flatWf {l : FlatLoader} {es : List SegEntry} (hpos : MemOps.pageSize ∣ l.segmentPos)
    (hlt : l.segmentPos < 2 ^ 32) (h : ∀ seg ∈ l.segments, FlatWf seg) :
    ∀ seg ∈ (es.foldl FlatLoader.allocSegment l).segments, FlatWf seg := by
  induction es generalizing l with
  | nil => exact h
  | cons e es ih =>
      rw [List.foldl_cons]
      refine ih ?_ (uint32_lt _) ?_
      · exact dvd_uint32 ((Nat.dvd_add_right hpos).mpr (MemOps.dvd_alignPageUp _))
      · intro seg hseg
        rcases List.mem_append.mp hseg with hseg | hseg
        · exact h seg hseg
        · rw [List.mem_singleton.mp hseg]
          have hle : MemOps.alignPageUp e.size.toNat ≤ 2 ^ 28 :=
            MemOps.alignPageUp_le (by decide) (Nat.le_of_lt e.size.isLt)
          have hid : uint32 (MemOps.alignPageUp e.size.toNat) = MemOps.alignPageUp e.size.toNat :=
            uint32_of_lt (Nat.lt_of_le_of_lt hle (by decide))
          refine ⟨hlt, hpos, ?_, ?_⟩
          · dsimp only
            rwa [hid]
          · dsimp only
            rw [hid]
            exact Nat.le_antisymm (MemOps.alignPageUp_le (MemOps.dvd_alignPageUp _) (Nat.le_refl _))
              (MemOps.le_alignPageUp _)

theorem flatWf {seg : FlatSegment} (h : seg ∈ f.flat.segments) : FlatWf seg :=
  foldl_flatWf (dvd_uint32 (MemOps.dvd_alignPageUp _)) (uint32_lt _)
    (fun _ hseg => absurd hseg List.not_mem_nil) seg h

theorem changeAccess_leaves {s : Shape} {hidden : Nat → Bool} {seg : FlatSegment} (hseg : FlatWf seg)
    (h : Loaded w₀ [s] img (fun _ => hidden) w) :
    (Space.changeAccess w₀.count (Segment.mapProt seg.type) seg.start
      (MemOps.alignPageUp seg.size)).Leaves w
      (fun _ w' => Loaded w₀ [s] img (fun _ => protect seg hidden) w' ∧
        s.Fits seg.start (MemOps.alignPageUp seg.size))
      (fun e _ => (∃ flt, e = .fault flt) ∧ ¬ s.Fits seg.start (MemOps.alignPageUp seg.size)) := by
  have hshape : s.Of (w.segments w₀.count) := h.shape (k := 0) rfl
  have hsize : MemOps.alignPageUp seg.size < 2 ^ 32 := by
    rw [hseg.size_aligned]
    exact Nat.lt_of_le_of_lt hseg.size_le (by decide)
  unfold Space.changeAccess
  refine (Space.pointer_shape_leaves hshape hseg.start_lt hsize).bind ?_
  rintro _ w ⟨rfl, hfits, rfl⟩
  have hpage : ((w.segments w₀.count).location + seg.start) % MemOps.pageSize = 0 :=
    Nat.mod_eq_zero_of_dvd ((Nat.dvd_add_right (h.inv.page w₀.count)).mpr hseg.start_aligned)
  rw [if_neg (by rw [hpage]; decide)]
  exact EStateM.leaves_modify ⟨loaded_protect h hfits.2.1, hfits⟩

theorem forM_changeAccess_leaves {s : Shape} {hidden : Nat → Bool} {segs : List FlatSegment}
    (hsegs : ∀ seg ∈ segs, FlatWf seg) (h : Loaded w₀ [s] img (fun _ => hidden) w) :
    (forM segs fun seg => Space.changeAccess w₀.count (Segment.mapProt seg.type) seg.start
      (MemOps.alignPageUp seg.size)).Leaves w
      (fun _ w' => Loaded w₀ [s] img
        (fun _ => segs.foldl (fun hidden seg => protect seg hidden) hidden) w' ∧
        ∀ seg ∈ segs, s.Fits seg.start (MemOps.alignPageUp seg.size))
      (fun e _ => (∃ flt, e = .fault flt) ∧
        ∃ seg ∈ segs, ¬ s.Fits seg.start (MemOps.alignPageUp seg.size)) := by
  induction segs generalizing hidden w with
  | nil => exact EStateM.leaves_pure ⟨h, nofun⟩
  | cons seg segs ih =>
      rw [List.forM_cons]
      refine ((changeAccess_leaves (hsegs seg List.mem_cons_self) h).mono (fun _ _ hw => hw)
        (fun _ _ he => ⟨he.1, seg, List.mem_cons_self, he.2⟩)).bind ?_
      rintro _ w' ⟨h', hfits⟩
      refine (ih (fun seg' hseg' => hsegs seg' (List.mem_cons_of_mem _ hseg')) h').mono ?_ ?_
      · rintro _ w'' ⟨h'', hall⟩
        refine ⟨h'', ?_⟩
        intro seg' hseg'
        rcases List.mem_cons.mp hseg' with rfl | hseg'
        · exact hfits
        · exact hall seg' hseg'
      · rintro _ _ ⟨hflt, seg', hseg', hnot⟩
        exact ⟨hflt, seg', List.mem_cons_of_mem _ hseg', hnot⟩

theorem finalizeLoading_leaves (h : Loaded w₀ (f.shapes slib) img (fun _ _ => false) w) :
    (f.loader w₀.count).finalizeLoading.Leaves w
      (fun _ w' => Loaded w₀ (f.shapes slib) img f.hidden w' ∧ ¬ f.ProtectionFaults)
      (fun e _ => (∃ flt, e = .fault flt) ∧ f.ProtectionFaults) := by
  by_cases hflat : f.hdr.isFlat = true
  · rw [shapes, if_pos hflat] at h ⊢
    rw [loader, if_pos hflat]
    show (FlatLoader.finalizeLoading _).Leaves w _ _
    unfold FlatLoader.finalizeLoading
    refine (forM_changeAccess_leaves (fun _ => flatWf) h).mono ?_ ?_
    · rintro _ w' ⟨h', hfits⟩
      refine ⟨?_, ?_⟩
      · have hhidden : f.hidden = fun _ => f.flat.segments.foldl (fun hidden seg => protect seg hidden)
            fun _ => false := by
          funext k
          rw [hidden, if_pos hflat]
        rw [hhidden]
        exact h'
      · rintro ⟨-, seg, hseg, hnot⟩
        exact hnot (hfits seg hseg)
    · rintro _ _ ⟨hflt, hex⟩
      exact ⟨hflt, hflat, hex⟩
  · have hhidden : f.hidden = fun _ _ => false := by
      funext k
      rw [hidden, if_neg hflat]
    rw [loader, if_neg hflat, hhidden]
    exact EStateM.leaves_pure ⟨h, fun hfaults => hflat hfaults.1⟩

/-! ## Descriptors -/

/-- What happens when descriptors are created for the loader segments from `si` on, where the ids below
`bound` are taken. -/
structure Described (l : AbstractLoader) (types : List Access) (si : Nat) (info : LoadInfo)
    (bound : Nat) (w : Space) (ids : List Nat) (info' : LoadInfo) (w' : Space) : Prop where
  length : ids.length = types.length
  increasing : ids.Pairwise (· < ·)
  range : ∀ id ∈ ids, bound ≤ id ∧ id < 1024
  descriptor : ∀ {j : Nat} {type : Access} {seg : Nat}, types[j]? = some type →
    l.getSegment (si + j) = some seg →
    ∃ id, ids[j]? = some id ∧ w'.descriptors.get id = some ⟨id, type, seg, info.bits⟩
  keeps : ∀ {id : Nat} {sd : SegmentDescriptor}, w.descriptors.get id = some sd →
    w'.descriptors.get id = some sd
  bits : info'.bits = info.bits
  stackLow : info'.stackLow = info.stackLow
  stackSize : info'.stackSize = info.stackSize
  heapStart : info'.heapStart = info.heapStart

/-- The descriptor for the first loader segment has the least free id, so the others lie above it. -/
theorem Described.cons {l : AbstractLoader} {hdr : LmfHeader} {type : Access} {types : List Access}
    {si seg bound : Nat} {info info' : LoadInfo} {sd : SegmentDescriptor} {w₁ w₂ : Space} {ids : List Nat}
    (hget : l.getSegment si = some seg) (hsd : sd = ⟨sd.id, type, seg, info.bits⟩) (hle : bound ≤ sd.id)
    (hid : sd.id < 1024) (hfree : w.descriptors.get sd.id = none)
    (hdescriptors : w₁.descriptors.get = Function.update w.descriptors.get sd.id (some sd))
    (hids : Described l types (si + 1) (info.publish hdr si sd.selector) (sd.id + 1) w₁ ids info' w₂) :
    Described l (type :: types) si info bound w (sd.id :: ids) info' w₂ := by
  have hsd₂ : w₂.descriptors.get sd.id = some sd := by
    apply hids.keeps
    rw [hdescriptors, Function.update_self]
  refine ⟨?_, ?_, ?_, ?_, ?_, hids.bits, hids.stackLow, hids.stackSize, hids.heapStart⟩
  · rw [List.length_cons, List.length_cons, hids.length]
  · exact List.pairwise_cons.mpr ⟨fun id hmem => (hids.range id hmem).1, hids.increasing⟩
  · intro id hmem
    rcases List.mem_cons.mp hmem with rfl | hmem
    · exact ⟨hle, hid⟩
    · have hrange := hids.range id hmem
      exact ⟨by omega, hrange.2⟩
  · intro j type' seg' htype hget'
    cases j with
    | zero =>
        rw [Nat.add_zero, hget] at hget'
        cases hget'
        cases htype
        exact ⟨sd.id, rfl, by rw [hsd₂, hsd]⟩
    | succ j =>
        have hget'' : l.getSegment (si + 1 + j) = some seg' := by
          rw [Nat.add_assoc, Nat.add_comm 1 j]
          exact hget'
        exact hids.descriptor htype hget''
  · -- a descriptor that was there has another id than the new one, which was free
    intro id sd' hget'
    apply hids.keeps
    rw [hdescriptors, Function.update_of_ne]
    · exact hget'
    · rintro rfl
      rw [hfree] at hget'
      cases hget'

theorem createDescriptors_leaves {shapes : List Shape} {hidden : Nat → Nat → Bool} {l : AbstractLoader}
    {types : List Access} {si bound : Nat} {info : LoadInfo} {selectors : List (BitVec 16)}
    (h : Loaded w₀ shapes img hidden w)
    (hseg : ∀ j, j < types.length → ∃ seg, l.getSegment (si + j) = some seg ∧ seg < w.count)
    (hbound : ∀ j, j < bound → (w.descriptors.get j).isSome) :
    (createDescriptors f.hdr l types si info selectors).Leaves w
      (fun r w' => Loaded w₀ shapes img hidden w' ∧
        ∃ ids, r.2 = selectors ++ ids.map SegmentDescriptor.mkSel ∧
          Described l types si info bound w ids r.1 w')
      (fun e _ => e = .badAlloc) := by
  -- along the table; `bound` grows to just above the id given out last
  induction types generalizing si bound info selectors w with
  | nil =>
      refine EStateM.leaves_pure ⟨h, [], ?_, ⟨rfl, .nil, nofun, nofun, id, rfl, rfl, rfl, rfl⟩⟩
      rw [List.map_nil, List.append_nil]
  | cons type types ih =>
      obtain ⟨seg, hget, hlt⟩ := hseg 0 (Nat.zero_lt_succ _)
      rw [Nat.add_zero] at hget
      unfold createDescriptors
      rw [hget]
      refine ((Space.createSegmentDescriptor_leaves h.inv hlt).mono (fun _ _ hw => hw)
        (fun _ _ he => he.1)).bind ?_
      rintro sd w₁ ⟨hsd, hid, hfree, hmin, hdescriptors, hw₁, hinv₁⟩
      have h₁ : Loaded w₀ shapes img hidden w₁ := by
        rw [hw₁]
        exact ⟨hw₁ ▸ hinv₁, h.count, h.old, h.shape, h.holds, h.prot, h.mem⟩
      have hle : bound ≤ sd.id := by
        by_contra hlt'
        have hsome := hbound sd.id (Nat.lt_of_not_le hlt')
        rw [hfree] at hsome
        cases hsome
      have hnext : ∀ j, j < sd.id + 1 → (w₁.descriptors.get j).isSome := by
        intro j hj
        rw [hdescriptors]
        by_cases hj' : j = sd.id
        · rw [hj', Function.update_self]
          rfl
        · rw [Function.update_of_ne hj']
          exact hmin j (by omega)
      have hseg' : ∀ j, j < types.length → ∃ seg, l.getSegment (si + 1 + j) = some seg ∧ seg < w₁.count := by
        intro j hj
        rw [hw₁, Nat.add_assoc, Nat.add_comm 1 j]
        exact hseg (j + 1) (Nat.succ_lt_succ hj)
      refine (ih h₁ hseg' hnext).mono ?_ (fun _ _ he => he)
      rintro ⟨info', selectors'⟩ w₂ ⟨h₂, ids, hselectors, hids⟩
      refine ⟨h₂, sd.id :: ids, ?_, .cons hget hsd hle hid hfree hdescriptors hids⟩
      rw [hselectors, List.append_assoc]
      rfl

/-! ## Fixup items -/

/-- The word an item names: the number of the new segment, and the offset in it. The flat loader takes the
item's segment number for granted. -/
def relocTarget (f : Lmf) (r : RelocItem) : Option (Nat × Nat) :=
  if f.hdr.isFlat then some (0, r.relocOffset.toNat)
  else if r.segment.toNat < f.entries.length then some (r.segment.toNat, r.relocOffset.toNat)
  else none

/-- The item names the accessible word at an offset of segment `k`. -/
structure Names (slib : Bool) (f : Lmf) (r : RelocItem) (k o : Nat) : Prop where
  target : f.relocTarget r = some (k, o)
  fits : ∃ s, (f.shapes slib)[k]? = some s ∧ s.hole ≤ o ∧ o + 2 ≤ s.paged
  lower : f.hidden k o = false
  upper : f.hidden k (o + 1) = false

theorem getSegment_loader {c i : Nat} :
    (f.loader c).getSegment i =
      if f.hdr.isFlat then some c else if i < f.entries.length then some (c + i) else none := by
  unfold loader
  split
  · rfl
  · exact getElem?_segments

theorem getSegment_relocTarget {c : Nat} {r : RelocItem} :
    (f.loader c).getSegment r.segment.toNat = (f.relocTarget r).map fun target => c + target.1 := by
  rw [getSegment_loader, relocTarget]
  split
  · rfl
  · split
    · rfl
    · rfl

theorem relocTarget_spec (slib : Bool) {r : RelocItem} {k o : Nat} (h : f.relocTarget r = some (k, o)) :
    o = r.relocOffset.toNat ∧ ∃ s, (f.shapes slib)[k]? = some s := by
  unfold relocTarget at h
  split at h
  · next hflat =>
      cases h
      exact ⟨rfl, f.flatShape, by rw [shapes, if_pos hflat]; rfl⟩
  · next hflat =>
      split at h
      · next hlt =>
          cases h
          rw [← length_shapes slib (Bool.eq_false_iff.mpr hflat)] at hlt
          exact ⟨rfl, _, List.getElem?_eq_getElem hlt⟩
      · cases h

theorem relocatedSegment_eq (word : BitVec 16) : relocatedSegment word = word.toNat >>> 3 := by
  have hmask : ∀ i < 13, (~~~(0x7 : BitVec 16)).getLsbD (3 + i) = true := by decide
  have hshift : (word &&& ~~~0x7) >>> 3 = word >>> 3 := by
    ext i hi
    rw [BitVec.getElem_ushiftRight, BitVec.getElem_ushiftRight, BitVec.getLsbD_and]
    by_cases h : i < 13
    · rw [hmask i h, Bool.and_true]
    · rw [BitVec.getLsbD_of_ge word _ (by omega), Bool.false_and]
  rw [relocatedSegment, hshift, BitVec.toNat_ushiftRight]

/-- The checks on a word are those of `Names`. -/
theorem names_iff {r : RelocItem} {k o : Nat} {s : Shape}
    (h : Loaded w₀ (f.shapes slib) img f.hidden w) (htarget : f.relocTarget r = some (k, o))
    (hs : (f.shapes slib)[k]? = some s) :
    (∃ k o, f.Names slib r k o) ↔
      (w.segments (w₀.count + k)).checkBounds o 2 = true ∧
        w.accessible ((w.segments (w₀.count + k)).location + o) 2 = true := by
  have hshape := h.shape hs
  have ho : o < 2 ^ 32 := (relocTarget_spec slib htarget).1 ▸ r.relocOffset.isLt
  have hle := hshape.inv.paged_le
  have hpaged := hshape.paged
  have hreserved := hshape.reserved
  rw [hshape.checkBounds ho (by decide)]
  constructor
  · rintro ⟨k', o', hnames⟩
    cases htarget.symm.trans hnames.target
    obtain ⟨t, ht, h₁, h₂⟩ := hnames.fits
    cases hs.symm.trans ht
    refine ⟨⟨by omega, h₂, .inl h₁⟩, ?_⟩
    rw [h.accessible_iff hs (by omega)]
    intro i hi
    match i, hi with
    | 0, _ => exact hnames.lower
    | 1, _ => exact hnames.upper
  · rintro ⟨⟨-, h₂, h₁⟩, hacc⟩
    rw [h.accessible_iff hs (by omega)] at hacc
    refine ⟨k, o, htarget, ⟨s, hs, ?_, h₂⟩, hacc 0 (by decide), hacc 1 (by decide)⟩
    rcases h₁ with h₁ | ⟨h₁, -⟩
    · exact h₁
    · cases h₁

/-- What replacing a word does, and that it goes wrong only where the item names no accessible word. -/
theorem relocate_leaves {selectors : List (BitVec 16)} {r : RelocItem}
    (h : Loaded w₀ (f.shapes slib) img f.hidden w) :
    (relocate (f.loader w₀.count) selectors.length selectors r).Leaves w
      (fun _ w' => ∃ k o sel, f.Names slib r k o ∧
        selectors[relocatedSegment (img.word k o)]? = some sel ∧
        w' = w.written ((w.segments (w₀.count + k)).location + o) (leBytes 2 sel.toNat))
      (fun e w' => w' = w ∧ ((∃ flt, e = .fault flt) ∧ (¬ ∃ k o, f.Names slib r k o) ∨
        e = .loaderFormat "relocation out of range" ∧
          ∃ k o, f.Names slib r k o ∧ selectors.length ≤ relocatedSegment (img.word k o))) := by
  unfold relocate
  rw [getSegment_relocTarget]
  cases htarget : f.relocTarget r with
  | none =>
      refine EStateM.leaves_throw ⟨rfl, .inl ⟨⟨_, rfl⟩, ?_⟩⟩
      rintro ⟨k, o, hnames⟩
      cases htarget.symm.trans hnames.target
  | some target =>
      obtain ⟨k, o⟩ := target
      obtain ⟨rfl, s, hs⟩ := relocTarget_spec slib htarget
      have hnames := names_iff h htarget hs
      refine (Space.pointer_leaves.mono (fun _ _ hp => hp) ?_).bind ?_
      · rintro e _ ⟨rfl, hflt, hb⟩
        refine ⟨rfl, .inl ⟨hflt, fun hex => ?_⟩⟩
        rw [(hnames.mp hex).1] at hb
        cases hb
      · rintro _ w ⟨rfl, hb, rfl⟩
        apply EStateM.leaves_get_bind
        dsimp only
        split
        · next hprot =>
            refine EStateM.leaves_throw ⟨rfl, .inl ⟨⟨_, rfl⟩, fun hex => ?_⟩⟩
            rw [(hnames.mp hex).2] at hprot
            cases hprot
        · next hprot =>
            obtain ⟨k', o', hn⟩ := hnames.mpr ⟨hb, by simpa using hprot⟩
            cases htarget.symm.trans hn.target
            obtain ⟨t, ht, h₁, h₂⟩ := hn.fits
            rw [h.loadWord ht h₁ h₂]
            split
            · next hrange => exact EStateM.leaves_throw ⟨rfl, .inr ⟨rfl, k, _, hn, hrange⟩⟩
            · next hrange =>
                rw [List.getElem?_eq_getElem (Nat.lt_of_not_le hrange)]
                exact EStateM.leaves_set ⟨k, _, _, hn, List.getElem?_eq_getElem _, rfl⟩

/-- The items are carried out one after the other. -/
inductive Relocated (slib : Bool) (f : Lmf) (selectors : List (BitVec 16)) :
    List RelocItem → Image → Image → Prop
  | nil (img : Image) : Relocated slib f selectors [] img img
  | cons {r : RelocItem} {rs : List RelocItem} {img img' : Image} {k o : Nat} {sel : BitVec 16}
    (names : f.Names slib r k o) (selector : selectors[relocatedSegment (img.word k o)]? = some sel)
    (rest : Relocated slib f selectors rs (img.write k o (leBytes 2 sel.toNat)) img') :
    Relocated slib f selectors (r :: rs) img img'

/-- One of the items that are carried out names no accessible word. -/
inductive RelocsFault (slib : Bool) (f : Lmf) (selectors : List (BitVec 16)) :
    List RelocItem → Image → Prop
  | here {r : RelocItem} {rs : List RelocItem} {img : Image} (names : ¬ ∃ k o, f.Names slib r k o) :
    RelocsFault slib f selectors (r :: rs) img
  | there {r : RelocItem} {rs : List RelocItem} {img : Image} {k o : Nat} {sel : BitVec 16}
    (names : f.Names slib r k o) (selector : selectors[relocatedSegment (img.word k o)]? = some sel)
    (rest : RelocsFault slib f selectors rs (img.write k o (leBytes 2 sel.toNat))) :
    RelocsFault slib f selectors (r :: rs) img

variable {selectors : List (BitVec 16)} {rs : List RelocItem} {r : RelocItem} {img' : Image} {k o : Nat}
  {sel : BitVec 16}

/-- Behind an item that is carried out, the others decide. -/
theorem relocsFault_cons (names : f.Names slib r k o)
    (hsel : selectors[relocatedSegment (img.word k o)]? = some sel) :
    f.RelocsFault slib selectors (r :: rs) img ↔
      f.RelocsFault slib selectors rs (img.write k o (leBytes 2 sel.toNat)) := by
  constructor
  · intro h
    cases h with
    | here hnot => exact absurd ⟨k, o, names⟩ hnot
    | there names' hsel' rest =>
        cases names.target.symm.trans names'.target
        cases hsel.symm.trans hsel'
        exact rest
  · exact .there names hsel

theorem Relocated.not_fault (h : f.Relocated slib selectors rs img img') :
    ¬ f.RelocsFault slib selectors rs img := by
  induction h with
  | nil img => nofun
  | cons names hsel _ ih =>
      rw [relocsFault_cons names hsel]
      exact ih

theorem forM_relocate_leaves (h : Loaded w₀ (f.shapes slib) img f.hidden w) :
    (forM rs (relocate (f.loader w₀.count) selectors.length selectors)).Leaves w
      (fun _ w' => w'.descriptors = w.descriptors ∧ ∃ img', f.Relocated slib selectors rs img img' ∧
        Loaded w₀ (f.shapes slib) img' f.hidden w')
      (fun e _ => (∃ flt, e = .fault flt) ↔ f.RelocsFault slib selectors rs img) := by
  induction rs generalizing img w with
  | nil => exact EStateM.leaves_pure ⟨rfl, img, .nil img, h⟩
  | cons r rs ih =>
      rw [List.forM_cons]
      refine ((relocate_leaves h).mono (fun _ _ hw => hw) ?_).bind ?_
      · rintro e _ ⟨-, ⟨hflt, hnames⟩ | ⟨rfl, k, o, hnames, hle⟩⟩
        · exact iff_of_true hflt (.here hnames)
        · refine iff_of_false nofun fun hfault => ?_
          cases hfault with
          | here hnot => exact hnot ⟨k, o, hnames⟩
          | there names' hsel _ =>
              cases hnames.target.symm.trans names'.target
              have hlt := (List.getElem?_eq_some_iff.mp hsel).1
              omega
      · rintro _ _ ⟨k, o, sel, hnames, hsel, rfl⟩
        obtain ⟨s, hs, h₁, h₂⟩ := hnames.fits
        refine (ih (h.writtenWord hs h₂)).mono ?_ ?_
        · rintro _ w' ⟨hdescriptors, img', hrest, h'⟩
          exact ⟨hdescriptors, img', .cons hnames hsel hrest, h'⟩
        · intro e _ he
          exact he.trans (relocsFault_cons hnames hsel).symm

/-! ## Items that name words apart from each other -/

/-- The words the items name do not overlap. -/
def Apart (f : Lmf) (r r' : RelocItem) : Prop :=
  ∀ k o k' o', f.relocTarget r = some (k, o) → f.relocTarget r' = some (k', o') →
    k' ≠ k ∨ o' + 2 ≤ o ∨ o + 2 ≤ o'

theorem Apart.symm {r r' : RelocItem} (h : f.Apart r r') : f.Apart r' r := by
  intro k o k' o' hr' hr
  rcases h k' o' k o hr hr' with h | h | h
  · exact .inl (Ne.symm h)
  · exact .inr (.inr h)
  · exact .inr (.inl h)

theorem Relocated.names (h : f.Relocated slib selectors rs img img') :
    ∀ r ∈ rs, ∃ k o, f.Names slib r k o := by
  induction h with
  | nil img => nofun
  | cons names _ _ ih =>
      intro r hr
      rcases List.mem_cons.mp hr with rfl | hr
      · exact ⟨_, _, names⟩
      · exact ih r hr

/-- A byte in none of the words keeps its value. -/
theorem Relocated.frame (h : f.Relocated slib selectors rs img img') {k o : Nat}
    (hout : ∀ r ∈ rs, ∀ k' o', f.relocTarget r = some (k', o') → k ≠ k' ∨ o < o' ∨ o' + 2 ≤ o) :
    img' k o = img k o := by
  induction h with
  | nil img => rfl
  | cons names _ _ ih =>
      rw [ih fun r hr => hout r (List.mem_cons_of_mem _ hr), Image.write_of_outside]
      rw [length_leBytes]
      exact hout _ List.mem_cons_self _ _ names.target

/-- Every word becomes the selector for the segment whose number it held at first. -/
theorem Relocated.word (h : f.Relocated slib selectors rs img img') (hpair : rs.Pairwise f.Apart)
    {r : RelocItem} (hr : r ∈ rs) {k o : Nat} (htarget : f.relocTarget r = some (k, o)) :
    selectors[relocatedSegment (img.word k o)]? = some (img'.word k o) := by
  induction h with
  | nil img => cases hr
  | @cons r₀ rs img img' k₀ o₀ sel names hsel rest ih =>
      rw [List.pairwise_cons] at hpair
      rcases List.mem_cons.mp hr with rfl | hr
      · cases htarget.symm.trans names.target
        -- none of the other items names a byte of this word
        have hkeep : ∀ i, i < 2 → img' k (o + i) = img.write k o (leBytes 2 sel.toNat) k (o + i) := by
          intro i hi
          refine rest.frame ?_
          intro r' hr' k' o' htarget'
          rcases hpair.1 r' hr' k o k' o' htarget htarget' with h | h | h
          · exact .inl (Ne.symm h)
          · exact .inr (.inr (by omega))
          · exact .inr (.inl (by omega))
        have hword : img'.word k o = (img.write k o (leBytes 2 sel.toNat)).word k o :=
          Image.word_congr (hkeep 0 (by decide)) (hkeep 1 (by decide))
        rw [hsel, hword, Image.word_write_self]
      · have hword := ih hpair.2 hr
        rwa [Image.word_write_of_apart] at hword
        exact hpair.1 r hr k₀ o₀ k o names.target htarget

/-! ## Once the file is read -/

/-- The new segment that a loader segment lies in. -/
def segmentOf (f : Lmf) (i : Nat) : Nat := if f.hdr.isFlat then 0 else i

/-- Ids `alloc_any` can hand out one after the other. -/
def ValidIds (f : Lmf) (ids : List Nat) : Prop :=
  ids.length = f.entries.length ∧ ids.Pairwise (· < ·) ∧ ∀ id ∈ ids, id < 1024

/-- What `loader_load` leaves behind: descriptors with the given ids for the loader segments, and in
memory the image, which the fixups have made of `img`. -/
structure Published (slib : Bool) (f : Lmf) (w₀ : Space) (info : LoadInfo) (img : Image)
    (ids : List Nat) (img' : Image) (info' : LoadInfo) (w : Space) : Prop where
  loaded : Loaded w₀ (f.shapes slib) img' f.hidden w
  relocated : f.Relocated slib (ids.map SegmentDescriptor.mkSel) f.relocs img img'
  valid : f.ValidIds ids
  descriptor : ∀ {i : Nat} {e : SegEntry}, f.entries[i]? = some e → ∃ id, ids[i]? = some id ∧
    w.descriptors.get id = some ⟨id, e.access, w₀.count + f.segmentOf i, info'.bits⟩
  inside : ¬ f.ProtectionFaults
  stackLow : info'.stackLow = info.stackLow
  stackSize : info'.stackSize = info.stackSize
  heapStart : info'.heapStart = info.heapStart

theorem getSegment_of_lt {c i : Nat} (hi : i < f.entries.length) :
    (f.loader c).getSegment i = some (c + f.segmentOf i) := by
  rw [getSegment_loader, segmentOf]
  by_cases hflat : f.hdr.isFlat = true
  · rw [if_pos hflat, if_pos hflat]
    rfl
  · rw [if_neg hflat, if_neg hflat, if_pos hi]

theorem segmentOf_lt (slib : Bool) {i : Nat} (hi : i < f.entries.length) :
    f.segmentOf i < (f.shapes slib).length := by
  unfold segmentOf
  split
  · next hflat =>
      rw [shapes, if_pos hflat]
      exact Nat.zero_lt_one
  · next hflat =>
      rw [length_shapes slib (Bool.eq_false_iff.mpr hflat)]
      exact hi

theorem length_types : f.types.length = f.entries.length := List.length_map _

/-- The segments that descriptors are created for are there. -/
theorem getSegment_types {hidden : Nat → Nat → Bool} (h : Loaded w₀ (f.shapes slib) img hidden w) (j : Nat)
    (hj : j < f.types.length) :
    ∃ seg, (f.loader w₀.count).getSegment (0 + j) = some seg ∧ seg < w.count := by
  rw [length_types] at hj
  have hlt := segmentOf_lt slib hj
  have hcount := h.count
  exact ⟨_, by rw [Nat.zero_add]; exact getSegment_of_lt hj, by omega⟩

/-- The descriptors for all loader segments. -/
theorem createDescriptors_loader_leaves {info : LoadInfo}
    (h : Loaded w₀ (f.shapes slib) img f.hidden w) :
    (createDescriptors f.hdr (f.loader w₀.count) f.types 0 info []).Leaves w
      (fun r w' => Loaded w₀ (f.shapes slib) img f.hidden w' ∧
        ∃ ids, r.2 = ids.map SegmentDescriptor.mkSel ∧ f.ValidIds ids ∧
          Described (f.loader w₀.count) f.types 0 info 0 w ids r.1 w')
      (fun e _ => e = .badAlloc) := by
  refine (createDescriptors_leaves h (getSegment_types h) fun j hj => absurd hj (Nat.not_lt_zero j)).mono ?_
    (fun _ _ he => he)
  rintro ⟨info', selectors⟩ w' ⟨h', ids, hselectors, hids⟩
  rw [List.nil_append] at hselectors
  exact ⟨h', ids, hselectors,
    ⟨hids.length.trans length_types, hids.increasing, fun id hmem => (hids.range id hmem).2⟩, hids⟩

theorem publish_leaves {info : LoadInfo} (htable : f.entries.length = f.segmentCount)
    (h : Loaded w₀ (f.shapes slib) img (fun _ _ => false) w) :
    (publish f.hdr f.segmentCount (f.loader w₀.count) f.types info f.relocs).Leaves w
      (fun info' w' => ∃ ids img', f.Published slib w₀ info img ids img' info' w')
      (fun e _ => ∀ flt, e = .fault flt → f.ProtectionFaults ∨
        ¬ f.ProtectionFaults ∧ ∃ ids, f.ValidIds ids ∧
          f.RelocsFault slib (ids.map SegmentDescriptor.mkSel) f.relocs img) := by
  unfold publish
  refine ((finalizeLoading_leaves h).mono (fun _ _ hw => hw) ?_).bind ?_
  · intro _ _ he _ _
    exact .inl he.2
  · rintro _ w₁ ⟨h₁, hinside⟩
    refine ((createDescriptors_loader_leaves h₁).mono (fun _ _ hw => hw) ?_).bind ?_
    · rintro _ _ rfl flt
      nofun
    · rintro ⟨info', selectors⟩ w₂ ⟨h₂, ids, hselectors, hvalid, hids⟩
      dsimp only at hselectors ⊢
      have hcount : f.segmentCount = selectors.length := by
        rw [hselectors, List.length_map, hvalid.1, htable]
      rw [hcount]
      refine ((forM_relocate_leaves h₂).mono (fun _ _ hw => hw) ?_).bind ?_
      · intro _ _ he flt heq
        exact .inr ⟨hinside, ids, hvalid, hselectors ▸ he.mp ⟨flt, heq⟩⟩
      · rintro _ w₃ ⟨hdescriptors, img', hrelocated, h₃⟩
        refine EStateM.leaves_pure ⟨ids, img', h₃, hselectors ▸ hrelocated, hvalid, ?_, hinside,
          hids.stackLow, hids.stackSize, hids.heapStart⟩
        intro i e he
        have hi := (List.getElem?_eq_some_iff.mp he).1
        rw [hdescriptors, hids.bits]
        refine hids.descriptor ?_ (by rw [Nat.zero_add]; exact getSegment_of_lt hi)
        rw [types, List.getElem?_map, he]
        rfl

end Lmf
end Qine
