import Qine.Loader

/-!
# Reading and loading apart

`loader_load` acts on the address space while it reads the file. What it finds in the file does not depend
on what it does, though: `Lmf.parse` takes a file apart without an address space, as far as the loader
would get in it, `Lmf.load` carries out what was found, and `forget_loaderLoad` says that the two together
are `loader_load`.
-/

namespace Qine

/-! ## The contents of a file -/

/-- A record that has an effect. -/
inductive LmfContent where
  /-- a LOAD record; the file may end before there are `size` bytes of data -/
  | load (ld : LmfData) (size : Nat) (data : List Byte)
  | fixup (items : List RelocItem)
  deriving DecidableEq, Repr

/-- The fixup items in the record. -/
def LmfContent.items : LmfContent → List RelocItem
  | .fixup items => items
  | .load .. => []

/-- The contents of the records, and why the loader stops before the end of the image if it does. -/
def LmfContent.parse : Nat → List Byte → List LmfContent × Option String
  | 0, _ => ([], some "EOF")
  | fuel + 1, file =>
    let record := LmfRecord.decode (file.take LmfRecord.size)
    let nbytes := record.dataNbytes.toNat
    let rest := file.drop LmfRecord.size
    let relocs := nbytes / RelocItem.bytes
    let data := (rest.drop LmfData.bytes).take (nbytes - LmfData.bytes)
    let next := parse fuel (rest.drop nbytes)
    if file.length < LmfRecord.size then ([], some "EOF")
    else if record.recType = LmfRecord.fixup then
      if relocs * RelocItem.bytes ≠ nbytes then ([], some "Unaligned relocation segment size")
      else if rest.length < nbytes then ([], some "EOF")
      else (.fixup (RelocItem.decodeAll relocs (rest.take nbytes)) :: next.1, next.2)
    else if record.recType = LmfRecord.linearFixup then
      ([], some "loader: linear fixup rec unsupported")
    else if record.recType = LmfRecord.load then
      if nbytes < LmfData.bytes then ([], some "loader: data: record too short")
      else if rest.length < LmfData.bytes then ([], some "EOF")
      else
        let load := .load (LmfData.decode (rest.take LmfData.bytes)) (nbytes - LmfData.bytes) data
        if rest.length < nbytes then ([load], some "EOF") else (load :: next.1, next.2)
    else if record.recType = LmfRecord.imageEnd then ([], none)
    else next

/-- Sizes are 16 bits wide, and there is not more data than the record says. -/
def LmfContent.Wf : LmfContent → Prop
  | .load _ size data => size < 2 ^ 16 ∧ data.length ≤ size
  | .fixup _ => True

theorem LmfContent.wf_of_mem_parse {fuel : Nat} {file : List Byte} {c : LmfContent}
    (h : c ∈ (LmfContent.parse fuel file).1) : c.Wf := by
  induction fuel generalizing file with
  | zero => cases h
  | succ fuel ih =>
      have hload : ∀ (record : LmfRecord) (ld : LmfData) (rest : List Byte),
          (LmfContent.load ld (record.dataNbytes.toNat - LmfData.bytes)
            (rest.take (record.dataNbytes.toNat - LmfData.bytes))).Wf := by
        intro record ld rest
        have hlt := record.dataNbytes.isLt
        exact ⟨by omega, List.length_take_le _ _⟩
      rw [LmfContent.parse] at h
      dsimp only at h
      split at h
      · cases h
      · split at h
        · split at h
          · cases h
          · split at h
            · cases h
            · rcases List.mem_cons.mp h with rfl | h
              · trivial
              · exact ih h
        · split at h
          · cases h
          · split at h
            · split at h
              · cases h
              · split at h
                · cases h
                · split at h
                  · rw [List.mem_singleton.mp h]
                    exact hload _ _ _
                  · rcases List.mem_cons.mp h with rfl | h
                    · exact hload _ _ _
                    · exact ih h
            · split at h
              · cases h
              · exact ih h

/-- The first `n` entries of the table, or as many as there are. -/
def SegEntry.parse : Nat → List Byte → List SegEntry
  | 0, _ => []
  | n + 1, file => if file.length < 4 then [] else decode (file.take 4) :: parse n (file.drop 4)

theorem SegEntry.length_parse_le (n : Nat) (file : List Byte) : (SegEntry.parse n file).length ≤ n := by
  induction n generalizing file with
  | zero => exact Nat.le_refl 0
  | succ n ih =>
      rw [SegEntry.parse]
      split
      · exact Nat.zero_le _
      · exact Nat.succ_le_succ (ih _)

/-- An LMF file with a header the loader accepts. -/
structure Lmf where
  hdr : LmfHeader
  segmentCount : Nat
  /-- fewer than `segmentCount` if the file ends within the table -/
  entries : List SegEntry
  contents : List LmfContent
  stop : Option String
  entries_le : entries.length ≤ segmentCount
  contents_wf : ∀ c ∈ contents, c.Wf

namespace Lmf

/-- Take apart what is behind the header. -/
def ofImage (hdr : LmfHeader) (segmentCount : Nat) (file : List Byte) : Lmf :=
  let records := file.drop (4 * segmentCount)
  let contents := LmfContent.parse (records.length + 1) records
  ⟨hdr, segmentCount, SegEntry.parse segmentCount file, contents.1, contents.2,
    SegEntry.length_parse_le _ _, fun _ => LmfContent.wf_of_mem_parse⟩

/-- Take a file apart. -/
def parse (file : List Byte) : Except HostError Lmf := do
  if file.length < LmfRecord.size + LmfHeader.size then .error (.loaderFormat "EOF")
  else do
    let bytes := file.take (LmfRecord.size + LmfHeader.size)
    let hdr := LmfHeader.decode (bytes.drop LmfRecord.size)
    let segmentCount ← checkHeader (LmfRecord.decode bytes) hdr
    return ofImage hdr segmentCount (file.drop (LmfRecord.size + LmfHeader.size))

/-- The fixup items of the file, in order. -/
def relocs (f : Lmf) : List RelocItem := f.contents.flatMap LmfContent.items

/-- The types in the table. -/
def types (f : Lmf) : List Access := f.entries.map SegEntry.access

/-! ## Loading what was found -/

/-- Carry out the record. -/
def perform (l : AbstractLoader) : LmfContent → SpaceM Unit
  | .load ld size data => do
    let dst ← l.prepareSegmentLoad ld size
    if !(← get).accessible dst data.length then throw (.fault (.assertion "exit(1)"))
    else modify fun w => w.written dst data
  | .fixup _ => return

/-- Carry out the records of a file, and go on with `rest` if the end of the image was reached. -/
def performAll {β : Type} (l : AbstractLoader) (contents : List LmfContent × Option String)
    (rest : SpaceM β) : SpaceM β := do
  forM contents.1 (perform l)
  match contents.2 with
  | some what => panic what
  | none => rest

/-- Lay the segments out. -/
def layout (host : Host) (slib : Bool) (info : LoadInfo) (f : Lmf) :
    SpaceM (AbstractLoader × LoadInfo) := do
  let info := { info with bits := if !f.hdr.is32bit then .b16 else .b32 }
  let l ← f.entries.foldlM (fun l e => AbstractLoader.allocSegment host slib f.hdr e l)
    (AbstractLoader.prepareSegments f.hdr)
  if f.entries.length < f.segmentCount then panic "EOF"
  else l.finalizeSegments host f.hdr info

/-- Load a file. -/
def load (host : Host) (slib : Bool) (info : LoadInfo) (f : Lmf) : SpaceM LoadInfo := do
  let (l, info) ← f.layout host slib info
  performAll l (f.contents, f.stop) (publish f.hdr f.segmentCount l f.types info f.relocs)

end Lmf

/-! ## The two together -/

/-- A result without what is left of the file. -/
def forget {α : Type} : EStateM.Result HostError Loading α → EStateM.Result HostError Space α
  | .ok a s => .ok a s.space
  | .error e s => .error e s.space

variable {α β γ : Type} {s : Loading}

/-- The same step on the address space, and the same after it. -/
theorem forget_onSpace_bind {x : SpaceM α} {f : α → LoadM β} {g : α → SpaceM β}
    (h : ∀ a w, forget ((f a).run ⟨w, s.file⟩) = (g a).run w) :
    forget ((onSpace x >>= f).run s) = (x >>= g).run s.space := by
  rw [EStateM.run_bind, EStateM.run_bind]
  unfold onSpace
  cases hx : x.run s.space with
  | ok a w =>
      rw [EStateM.zoom_ok hx]
      exact h a w
  | error e w =>
      rw [EStateM.zoom_error hx]
      rfl

theorem forget_onSpace {x : SpaceM α} : forget ((onSpace x).run s) = x.run s.space := by
  unfold onSpace
  cases hx : x.run s.space with
  | ok a w =>
      rw [EStateM.zoom_ok hx]
      rfl
  | error e w =>
      rw [EStateM.zoom_error hx]
      rfl

/-- A read that finds what it asks for. -/
theorem forget_checkedRead_bind {n : Nat} {f : List Byte → LoadM β} (h : n ≤ s.file.length) :
    forget ((checkedRead n >>= f).run s) =
      forget ((f (s.file.take n)).run ⟨s.space, s.file.drop n⟩) := by
  have hrun : (checkedRead n).run s = .ok (s.file.take n) ⟨s.space, s.file.drop n⟩ := by
    show ((if s.file.length < n then panic "EOF" else return s.file.take n : LoadM _)).run
      ⟨s.space, s.file.drop n⟩ = _
    rw [if_neg (Nat.not_lt.mpr h)]
    rfl
  rw [EStateM.run_bind, hrun]

theorem forget_checkedRead_bind_of_lt {n : Nat} {f : List Byte → LoadM β} (h : s.file.length < n) :
    forget ((checkedRead n >>= f).run s) = .error (.loaderFormat "EOF") s.space := by
  have hrun : (checkedRead n).run s = .error (.loaderFormat "EOF") ⟨s.space, s.file.drop n⟩ := by
    show ((if s.file.length < n then panic "EOF" else return s.file.take n : LoadM _)).run
      ⟨s.space, s.file.drop n⟩ = _
    rw [if_pos h]
    rfl
  rw [EStateM.run_bind, hrun]
  rfl

theorem forget_checkedReadTo_bind {dst n : Nat} {f : Unit → LoadM β} {g : SpaceM β}
    (h : n ≤ s.file.length → ∀ w, forget ((f ()).run ⟨w, s.file.drop n⟩) = g.run w) :
    forget ((checkedReadTo dst n >>= f).run s) =
      ((do
        let w ← get
        if !w.accessible dst (s.file.take n).length then throw (.fault (.assertion "exit(1)"))
        else modify fun w => w.written dst (s.file.take n)) >>= fun _ : Unit =>
        if s.file.length < n then panic "EOF" else g : SpaceM β).run s.space := by
  have hleft : (checkedReadTo dst n).run s =
      (if !s.space.accessible dst (s.file.take n).length then throw (.fault (.assertion "exit(1)"))
      else do
        set (⟨s.space.written dst (s.file.take n), s.file.drop n⟩ : Loading)
        if s.file.length < n then panic "EOF" : LoadM Unit).run s := rfl
  rw [EStateM.run_bind, hleft, EStateM.run_bind, EStateM.run_get_bind]
  by_cases hacc : (!s.space.accessible dst (s.file.take n).length) = true
  · rw [if_pos hacc, if_pos hacc]
    rfl
  · rw [if_neg hacc, if_neg hacc]
    by_cases hn : s.file.length < n
    · rw [if_pos hn, if_pos hn]
      rfl
    · rw [if_neg hn, if_neg hn]
      exact h (Nat.le_of_not_lt hn) _

theorem forget_seekForward_bind {n : Nat} {f : Unit → LoadM β} :
    forget ((seekForward n >>= f).run s) = forget ((f ()).run ⟨s.space, s.file.drop n⟩) := rfl

/-- Reading the table and laying out its segments. -/
theorem forget_allocSegments_bind {host : Host} {slib : Bool} {hdr : LmfHeader} {n : Nat}
    {l : AbstractLoader} {types : List Access} {f : AbstractLoader × List Access → LoadM β}
    {g : AbstractLoader → SpaceM β}
    (h : ∀ l w, forget ((f (l, types ++ (SegEntry.parse n s.file).map SegEntry.access)).run
      ⟨w, s.file.drop (4 * n)⟩) = (g l).run w) :
    forget ((allocSegments host slib hdr n l types >>= f).run s) =
      ((SegEntry.parse n s.file).foldlM (fun l e => AbstractLoader.allocSegment host slib hdr e l) l >>=
        fun l => if (SegEntry.parse n s.file).length < n then panic "EOF" else g l).run s.space := by
  induction n generalizing s l types with
  | zero =>
      have hnil := h l s.space
      rw [SegEntry.parse, List.map_nil, List.append_nil, Nat.mul_zero, List.drop_zero] at hnil
      exact hnil
  | succ n ih =>
      rw [allocSegments, bind_assoc, SegEntry.parse]
      by_cases hlen : s.file.length < 4
      · rw [forget_checkedRead_bind_of_lt hlen, if_pos hlen]
        rfl
      · rw [forget_checkedRead_bind (Nat.le_of_not_lt hlen), if_neg hlen, List.foldlM_cons]
        simp only [bind_assoc, List.length_cons, Nat.add_lt_add_iff_right]
        apply forget_onSpace_bind
        intro l' w
        refine @ih ⟨w, s.file.drop 4⟩ l' (types ++ [(SegEntry.decode (s.file.take 4)).access]) ?_
        intro l'' w''
        have hnext := h l'' w''
        rw [SegEntry.parse, if_neg hlen, List.map_cons] at hnext
        rw [List.append_assoc, List.singleton_append, List.drop_drop, Nat.add_comm 4, ← Nat.mul_succ]
        exact hnext

/-- Reading the data of a LOAD record to where it belongs. -/
theorem forget_load_bind {l : AbstractLoader} {ld : LmfData} {n : Nat} {f : Unit → LoadM β} {g : SpaceM β}
    (h : n ≤ s.file.length → ∀ w, forget ((f ()).run ⟨w, s.file.drop n⟩) = g.run w) :
    forget ((onSpace (l.prepareSegmentLoad ld n) >>= fun dst => checkedReadTo dst n >>= f).run s) =
      (Lmf.perform l (.load ld n (s.file.take n)) >>= fun _ =>
        if s.file.length < n then panic "EOF" else g).run s.space := by
  rw [Lmf.perform, bind_assoc]
  apply forget_onSpace_bind
  intro dst w
  exact @forget_checkedReadTo_bind β ⟨w, s.file⟩ dst n f g h

/-- Reading the data of a LOAD record and what is behind it, which `next` was parsed from. -/
theorem forget_loadRecord_bind {l : AbstractLoader} {ld : LmfData} {nbytes : Nat} {rest : List Byte}
    {next : List LmfContent × Option String} {w₀ : Space} {f : Unit → LoadM β} {g : SpaceM β}
    (hdata : LmfData.bytes ≤ nbytes) (hrest : LmfData.bytes ≤ rest.length)
    (h : nbytes ≤ rest.length → ∀ w,
      forget ((f ()).run ⟨w, rest.drop nbytes⟩) = (Lmf.performAll l next g).run w) :
    let load := LmfContent.load ld (nbytes - LmfData.bytes)
      ((rest.drop LmfData.bytes).take (nbytes - LmfData.bytes))
    forget ((onSpace (l.prepareSegmentLoad ld (nbytes - LmfData.bytes)) >>= fun dst =>
        checkedReadTo dst (nbytes - LmfData.bytes) >>= f).run ⟨w₀, rest.drop LmfData.bytes⟩) =
      (Lmf.performAll l
        (if rest.length < nbytes then ([load], some "EOF") else (load :: next.1, next.2)) g).run w₀ := by
  intro load
  have hdrop : (rest.drop LmfData.bytes).drop (nbytes - LmfData.bytes) = rest.drop nbytes := by
    rw [List.drop_drop, Nat.add_sub_cancel' hdata]
  have hlength : (rest.drop LmfData.bytes).length = rest.length - LmfData.bytes := List.length_drop
  by_cases hshort : rest.length < nbytes
  · rw [if_pos hshort]
    refine (@forget_load_bind β ⟨w₀, rest.drop LmfData.bytes⟩ l _ _ _ (panic "EOF") ?_).trans ?_
    · intro hle
      dsimp only at hle
      omega
    · rw [ite_self, Lmf.performAll, List.forM_cons, List.forM_nil, bind_assoc]
      rfl
  · rw [if_neg hshort, Lmf.performAll, List.forM_cons, bind_assoc]
    refine (@forget_load_bind β ⟨w₀, rest.drop LmfData.bytes⟩ l _ _ _ (Lmf.performAll l next g) ?_).trans ?_
    · intro _ w
      dsimp only
      rw [hdrop]
      exact h (Nat.le_of_not_lt hshort) w
    · rw [if_neg (by dsimp only; omega)]
      rfl

/-- Reading the records and carrying them out. -/
theorem forget_loadRecords_bind {l : AbstractLoader} {fuel : Nat} {relocBuf : List RelocItem}
    {f : List RelocItem → LoadM β} {g : SpaceM β} (hfuel : s.file.length < fuel)
    (h : ∀ w file, forget ((f (relocBuf ++
      (LmfContent.parse fuel s.file).1.flatMap LmfContent.items)).run ⟨w, file⟩) = g.run w) :
    forget ((loadRecords l fuel relocBuf >>= f).run s) =
      (Lmf.performAll l (LmfContent.parse fuel s.file) g).run s.space := by
  induction fuel generalizing s relocBuf with
  | zero => exact absurd hfuel (Nat.not_lt_zero _)
  | succ fuel ih =>
      rw [LmfContent.parse] at h ⊢
      dsimp only at h ⊢
      rw [loadRecords, bind_assoc]
      by_cases hlen : s.file.length < LmfRecord.size
      · rw [forget_checkedRead_bind_of_lt hlen, if_pos hlen]
        rfl
      rw [forget_checkedRead_bind (Nat.le_of_not_lt hlen)]
      rw [if_neg hlen] at h ⊢
      dsimp only
      generalize LmfRecord.decode (s.file.take LmfRecord.size) = record at h ⊢
      have hrest : (s.file.drop LmfRecord.size).length < fuel := by
        rw [List.length_drop]
        simp only [LmfRecord.size] at hlen ⊢
        omega
      generalize s.file.drop LmfRecord.size = rest at h hrest ⊢
      generalize record.dataNbytes.toNat = nbytes at h ⊢
      have hnext : (rest.drop nbytes).length < fuel :=
        Nat.lt_of_le_of_lt (by rw [List.length_drop]; exact Nat.sub_le _ _) hrest
      -- the kinds of records, in the order the loader asks for them
      by_cases hfixup : record.recType = LmfRecord.fixup
      · rw [if_pos hfixup] at h ⊢
        rw [if_pos hfixup]
        by_cases hodd : nbytes / RelocItem.bytes * RelocItem.bytes ≠ nbytes
        · rw [if_pos hodd, if_pos hodd]
          rfl
        rw [if_neg hodd] at h ⊢
        rw [if_neg hodd, bind_assoc, Decidable.not_not.mp hodd]
        by_cases hshort : rest.length < nbytes
        · rw [if_pos hshort, forget_checkedRead_bind_of_lt hshort]
          rfl
        rw [if_neg hshort] at h ⊢
        rw [forget_checkedRead_bind (Nat.le_of_not_lt hshort)]
        refine @ih ⟨s.space, rest.drop nbytes⟩ _ hnext ?_
        intro w file
        have hitems := h w file
        rw [List.flatMap_cons, ← List.append_assoc] at hitems
        exact hitems
      rw [if_neg hfixup] at h ⊢
      rw [if_neg hfixup]
      by_cases hlinear : record.recType = LmfRecord.linearFixup
      · rw [if_pos hlinear, if_pos hlinear]
        rfl
      rw [if_neg hlinear] at h ⊢
      rw [if_neg hlinear]
      by_cases hload : record.recType = LmfRecord.load
      · rw [if_pos hload] at h ⊢
        rw [if_pos hload]
        by_cases htiny : nbytes < LmfData.bytes
        · rw [if_pos htiny, if_pos htiny]
          rfl
        rw [if_neg htiny] at h ⊢
        rw [if_neg htiny, bind_assoc]
        by_cases hld : rest.length < LmfData.bytes
        · rw [if_pos hld, forget_checkedRead_bind_of_lt hld]
          rfl
        rw [if_neg hld] at h ⊢
        rw [forget_checkedRead_bind (Nat.le_of_not_lt hld), bind_assoc]
        simp only [bind_assoc]
        refine forget_loadRecord_bind (Nat.le_of_not_lt htiny) (Nat.le_of_not_lt hld) fun hle w => ?_
        rw [if_neg (Nat.not_lt.mpr hle)] at h
        exact @ih ⟨w, rest.drop nbytes⟩ relocBuf hnext h
      rw [if_neg hload] at h ⊢
      rw [if_neg hload, bind_assoc, forget_seekForward_bind]
      by_cases hend : record.recType = LmfRecord.imageEnd
      · rw [if_pos hend] at h ⊢
        rw [if_pos hend]
        have hf := h s.space (rest.drop nbytes)
        rw [List.flatMap_nil, List.append_nil] at hf
        exact hf
      rw [if_neg hend] at h ⊢
      rw [if_neg hend]
      exact @ih ⟨s.space, rest.drop nbytes⟩ _ hnext h

theorem forget_loadImage {host : Host} {slib : Bool} {info : LoadInfo} {hdr : LmfHeader}
    {segmentCount : Nat} :
    forget ((loadImage host slib info hdr segmentCount).run s) =
      ((Lmf.ofImage hdr segmentCount s.file).load host slib info).run s.space := by
  let f := Lmf.ofImage hdr segmentCount s.file
  let info' : LoadInfo := { info with bits := if !hdr.is32bit then .b16 else .b32 }
  -- what follows the table
  let g (l : AbstractLoader) : SpaceM LoadInfo := do
    let (l, info) ← l.finalizeSegments host hdr info'
    Lmf.performAll l (f.contents, f.stop) (publish hdr segmentCount l f.types info f.relocs)
  have htable : forget ((loadImage host slib info hdr segmentCount).run s) =
      (f.entries.foldlM (fun l e => AbstractLoader.allocSegment host slib hdr e l)
        (AbstractLoader.prepareSegments hdr) >>= fun l =>
          if f.entries.length < segmentCount then panic "EOF" else g l).run s.space := by
    unfold loadImage
    apply forget_allocSegments_bind
    intro l w
    apply forget_onSpace_bind
    rintro ⟨l', info''⟩ w'
    rw [EStateM.run_get_bind]
    refine forget_loadRecords_bind (Nat.lt_succ_self _) ?_
    intro w'' file
    exact forget_onSpace
  rw [htable, Lmf.load, Lmf.layout, bind_assoc]
  congr 2
  funext l
  show (if f.entries.length < segmentCount then panic "EOF" else g l) =
    (if f.entries.length < segmentCount then panic "EOF" else l.finalizeSegments host hdr info') >>= _
  split <;> rfl

/-- `loader_load` is: take the file apart, and load what is in it. -/
theorem forget_loaderLoad {host : Host} {slib : Bool} {info : LoadInfo} :
    forget ((loaderLoad host slib info).run s) =
      (EStateM.ofExcept (Lmf.parse s.file) >>= Lmf.load host slib info).run s.space := by
  unfold loaderLoad readHeader Lmf.parse
  by_cases hlen : s.file.length < LmfRecord.size + LmfHeader.size
  · rw [if_pos hlen, bind_assoc, forget_checkedRead_bind_of_lt hlen]
    rfl
  rw [if_neg hlen, bind_assoc, forget_checkedRead_bind (Nat.le_of_not_lt hlen)]
  dsimp only
  cases checkHeader (LmfRecord.decode (s.file.take (LmfRecord.size + LmfHeader.size)))
      (LmfHeader.decode ((s.file.take (LmfRecord.size + LmfHeader.size)).drop LmfRecord.size)) with
  | error e => rfl
  | ok segmentCount => exact forget_loadImage

end Qine
