import Qine.Loader.Load

/-!
# The loop over the records

A pass of the loop in `loader_load` gets behind a record by reading it, by reading its header and a header of
the data, or by seeking, and this may lead behind the end of the file. `recordPass_leaves` says that all the
ways go exactly as far as the record is declared to be long, so that the loop ends, and
`loaderLoad_records` that what it has gone through is the sequence of records up to the end of the image.
-/

namespace Qine

/-! ## One pass -/

/-- A pass of the loop over the records: whether there is another one, and the fixup items so far. -/
def recordPass (l : AbstractLoader) (relocBuf : List RelocItem) : LoadM (Bool × List RelocItem) := do
  let record := LmfRecord.decode (← checkedRead LmfRecord.size)
  let nbytes := record.dataNbytes.toNat
  if record.recType = LmfRecord.fixup then
    let relocs := nbytes / RelocItem.bytes
    if relocs * RelocItem.bytes ≠ nbytes then
      throw (.loaderFormat "Unaligned relocation segment size")
    else do
      let items ← checkedRead (relocs * RelocItem.bytes)
      return (true, relocBuf ++ RelocItem.decodeAll relocs items)
  else if record.recType = LmfRecord.linearFixup then panic "loader: linear fixup rec unsupported"
  else if record.recType = LmfRecord.load then
    if nbytes < LmfData.bytes then panic "loader: data: record too short"
    else do
      let ld := LmfData.decode (← checkedRead LmfData.bytes)
      let dst ← onSpace (l.prepareSegmentLoad ld (nbytes - LmfData.bytes))
      checkedReadTo dst (nbytes - LmfData.bytes)
      return (true, relocBuf)
  else do
    seekForward nbytes
    return (decide (record.recType ≠ LmfRecord.imageEnd), relocBuf)

/-- The loop is made of passes. -/
theorem loadRecords_succ (l : AbstractLoader) (fuel : Nat) (relocBuf : List RelocItem) :
    loadRecords l (fuel + 1) relocBuf =
      recordPass l relocBuf >>= fun r => if r.1 then loadRecords l fuel r.2 else return r.2 := by
  unfold recordPass
  rw [loadRecords, bind_assoc]
  congr 1
  funext bytes
  dsimp only
  split
  · split
    · rfl
    · rw [bind_assoc]
      rfl
  · split
    · rfl
    · split
      · split
        · rfl
        · simp only [bind_assoc, pure_bind, if_true]
      · rw [bind_assoc]
        congr 1
        funext _
        split
        · next hend => simp [hend]
        · next hend => simp [hend]

/-- The length of the data that the record at the front of a file declares. -/
def declared (file : List Byte) : Nat := (LmfRecord.decode (file.take LmfRecord.size)).dataNbytes.toNat

variable {s s' : Loading} {l : AbstractLoader} {relocBuf : List RelocItem}

theorem checkedRead_leaves (n : Nat) :
    (checkedRead n).Leaves s
      (fun bytes s' => n ≤ s.file.length ∧ bytes = s.file.take n ∧ s'.file = s.file.drop n) (fun _ _ => True) := by
  unfold checkedRead
  apply EStateM.leaves_get_bind
  refine (EStateM.leaves_set (Q := fun _ s' => s'.file = s.file.drop n) rfl).bind ?_
  intro _ s' hs'
  split
  · exact EStateM.leaves_throw trivial
  · next h => exact EStateM.leaves_pure ⟨Nat.le_of_not_lt h, rfl, hs'⟩

theorem checkedReadTo_leaves (dst n : Nat) :
    (checkedReadTo dst n).Leaves s (fun _ s' => n ≤ s.file.length ∧ s'.file = s.file.drop n) (fun _ _ => True) := by
  unfold checkedReadTo
  apply EStateM.leaves_get_bind
  dsimp only
  split
  · exact EStateM.leaves_throw trivial
  · refine (EStateM.leaves_set (Q := fun _ s' => s'.file = s.file.drop n) rfl).bind ?_
    intro _ s' hs'
    split
    · exact EStateM.leaves_throw trivial
    · next h => exact EStateM.leaves_pure ⟨Nat.le_of_not_lt h, hs'⟩

theorem onSpace_leaves {α : Type} (x : SpaceM α) :
    (onSpace x).Leaves s (fun _ s' => s'.file = s.file) (fun _ _ => True) :=
  EStateM.leaves_zoom ⟨fun _ => rfl, fun _ => trivial⟩

/-- A pass that returns has read the header of a record, and is as far behind it as the record is long. -/
theorem recordPass_leaves (l : AbstractLoader) (relocBuf : List RelocItem) (s : Loading) :
    (recordPass l relocBuf).Leaves s
      (fun r s' => LmfRecord.size ≤ s.file.length ∧ s'.file = s.file.drop (LmfRecord.size + declared s.file) ∧
        (r.1 = false ↔ (LmfRecord.decode (s.file.take LmfRecord.size)).recType = LmfRecord.imageEnd))
      (fun _ _ => True) := by
  unfold recordPass
  refine (checkedRead_leaves LmfRecord.size).bind ?_
  rintro bytes s₁ ⟨hsize, rfl, hfile₁⟩
  have hdrop : ∀ n, s.file.drop (LmfRecord.size + n) = s₁.file.drop n := by
    intro n
    rw [hfile₁, List.drop_drop]
  unfold declared
  rw [hdrop]
  generalize LmfRecord.decode (s.file.take LmfRecord.size) = record
  dsimp only
  split
  · next hfixup =>
      split
      · exact EStateM.leaves_throw trivial
      · next haligned =>
          rw [Decidable.not_not.mp haligned]
          refine (checkedRead_leaves record.dataNbytes.toNat).bind ?_
          rintro _ s₂ ⟨-, rfl, hfile₂⟩
          refine EStateM.leaves_pure ⟨hsize, hfile₂, ?_⟩
          rw [hfixup]
          exact iff_of_false Bool.noConfusion (by decide)
  · split
    · exact EStateM.leaves_throw trivial
    · split
      · next hload =>
          split
          · exact EStateM.leaves_throw trivial
          · next hlong =>
              refine (checkedRead_leaves LmfData.bytes).bind ?_
              rintro _ s₂ ⟨-, rfl, hfile₂⟩
              refine (onSpace_leaves _).bind ?_
              intro dst s₃ hfile₃
              refine (checkedReadTo_leaves _ _).bind ?_
              rintro _ s₄ ⟨-, hfile₄⟩
              refine EStateM.leaves_pure ⟨hsize, ?_, ?_⟩
              · rw [hfile₄, hfile₃, hfile₂, List.drop_drop, Nat.add_sub_cancel' (Nat.le_of_not_lt hlong)]
              · rw [hload]
                exact iff_of_false Bool.noConfusion (by decide)
      · refine EStateM.leaves_modify_bind (EStateM.leaves_pure ⟨hsize, rfl, ?_⟩)
        rw [decide_eq_false_iff_not, not_not]

/-! ## The loop -/

/-- The loop ends after `n` passes. -/
inductive Loop (l : AbstractLoader) :
    Nat → List RelocItem → Loading → EStateM.Result HostError Loading (List RelocItem) → Prop
  | throws {relocBuf : List RelocItem} {s s' : Loading} {e : HostError}
      (hpass : (recordPass l relocBuf).run s = .error e s') : Loop l 1 relocBuf s (.error e s')
  | ends {relocBuf relocBuf' : List RelocItem} {s s' : Loading}
      (hpass : (recordPass l relocBuf).run s = .ok (false, relocBuf') s') : Loop l 1 relocBuf s (.ok relocBuf' s')
  | next {relocBuf relocBuf' : List RelocItem} {s s' : Loading} {n : Nat}
      {r : EStateM.Result HostError Loading (List RelocItem)}
      (hpass : (recordPass l relocBuf).run s = .ok (true, relocBuf') s') (hrest : Loop l n relocBuf' s' r) :
      Loop l (n + 1) relocBuf s r

/-- There are not more passes than headers that fit in the file. -/
theorem loop_loadRecords (l : AbstractLoader) {fuel : Nat} (hfuel : s.file.length < fuel) :
    ∃ n, LmfRecord.size * n ≤ s.file.length + LmfRecord.size ∧
      Loop l n relocBuf s ((loadRecords l fuel relocBuf).run s) := by
  induction fuel generalizing s relocBuf with
  | zero => exact absurd hfuel (Nat.not_lt_zero _)
  | succ fuel ih =>
      rw [loadRecords_succ, EStateM.run_bind]
      cases hpass : (recordPass l relocBuf).run s with
      | error e s' => exact ⟨1, Nat.le_add_left _ _, .throws hpass⟩
      | ok r s' =>
          obtain ⟨goOn, relocBuf'⟩ := r
          obtain ⟨hsize, hfile, -⟩ := (recordPass_leaves l relocBuf s).of_ok hpass
          cases goOn with
          | false => exact ⟨1, Nat.le_add_left _ _, .ends hpass⟩
          | true =>
              have hlength : s'.file.length + LmfRecord.size ≤ s.file.length := by
                rw [hfile, List.length_drop]
                omega
              have hless : s'.file.length < fuel := by
                simp only [LmfRecord.size] at hlength
                omega
              obtain ⟨n, hn, hloop⟩ := @ih s' relocBuf' hless
              exact ⟨n + 1, by rw [Nat.mul_succ]; omega, .next hpass hloop⟩

/-! ## The records -/

/-- A record of a file, with all of its data. -/
structure RawRecord where
  header : List Byte
  data : List Byte
  header_size : header.length = LmfRecord.size
  data_size : data.length = (LmfRecord.decode header).dataNbytes.toNat

namespace RawRecord

/-- The record as it is in the file. -/
def bytes (r : RawRecord) : List Byte := r.header ++ r.data

def recType (r : RawRecord) : Byte := (LmfRecord.decode r.header).recType

/-- The loader takes the record: the data of a LOAD record has a header, and that of a FIXUP record consists of
whole items. -/
structure Accepted (r : RawRecord) : Prop where
  not_linear : r.recType ≠ LmfRecord.linearFixup
  load : r.recType = LmfRecord.load → LmfData.bytes ≤ r.data.length
  fixup : r.recType = LmfRecord.fixup → RelocItem.bytes ∣ r.data.length

/-- What there is to do for the record. -/
def content (r : RawRecord) : Option LmfContent :=
  if r.recType = LmfRecord.fixup then
    some (.fixup (RelocItem.decodeAll (r.data.length / RelocItem.bytes) r.data))
  else if r.recType = LmfRecord.load then
    some (.load (LmfData.decode (r.data.take LmfData.bytes)) (r.data.length - LmfData.bytes)
      (r.data.drop LmfData.bytes))
  else none

end RawRecord

/-- A file goes on with these records, and with the end of the image behind them. -/
inductive Records : List Byte → List RawRecord → Prop
  | imageEnd {header rest : List Byte} (hsize : header.length = LmfRecord.size)
      (htype : (LmfRecord.decode header).recType = LmfRecord.imageEnd) : Records (header ++ rest) []
  | record {r : RawRecord} {rest : List Byte} {records : List RawRecord} (htype : r.recType ≠ LmfRecord.imageEnd)
      (haccepted : r.Accepted) (hrest : Records rest records) : Records (r.bytes ++ rest) (r :: records)

namespace LmfContent

variable {fuel : Nat} {file rest : List Byte} {contents : List LmfContent}

theorem parse_nil (fuel : Nat) : parse fuel [] = ([], some "EOF") := by
  cases fuel with
  | zero => rfl
  | succ fuel => rfl

theorem parse_imageEnd {header : List Byte} (hsize : header.length = LmfRecord.size)
    (htype : (LmfRecord.decode header).recType = LmfRecord.imageEnd) :
    parse (fuel + 1) (header ++ rest) = ([], none) := by
  have htake : (header ++ rest).take LmfRecord.size = header := by rw [← hsize, List.take_left]
  have hlong : ¬ (header ++ rest).length < LmfRecord.size := by
    rw [List.length_append]
    omega
  rw [parse, htake]
  dsimp only
  rw [if_neg hlong, htype, if_neg (by decide), if_neg (by decide), if_neg (by decide), if_pos rfl]

/-- A record that the loader takes is gone through as a whole. -/
theorem parse_record (r : RawRecord) (htype : r.recType ≠ LmfRecord.imageEnd) (haccepted : r.Accepted) :
    parse (fuel + 1) (r.bytes ++ rest) = (r.content.toList ++ (parse fuel rest).1, (parse fuel rest).2) := by
  have hfile : r.bytes ++ rest = r.header ++ (r.data ++ rest) := List.append_assoc _ _ _
  have htake : (r.bytes ++ rest).take LmfRecord.size = r.header := by
    rw [hfile, ← r.header_size, List.take_left]
  have hdrop : (r.bytes ++ rest).drop LmfRecord.size = r.data ++ rest := by
    rw [hfile, ← r.header_size, List.drop_left]
  have hsize : ¬ (r.bytes ++ rest).length < LmfRecord.size := by
    rw [hfile, List.length_append, r.header_size]
    omega
  have hshort : ¬ (r.data ++ rest).length < r.data.length := by simp
  have hrecType : (LmfRecord.decode r.header).recType = r.recType := rfl
  rw [parse, htake, hdrop, ← r.data_size, List.drop_left, hrecType, if_neg hsize]
  dsimp only
  have hload := haccepted.load
  have hfixup := haccepted.fixup
  unfold RawRecord.content
  rw [if_neg haccepted.not_linear, if_neg htype]
  by_cases hf : r.recType = LmfRecord.fixup
  · have haligned := Nat.div_mul_cancel (hfixup hf)
    rw [if_pos hf, if_pos hf, if_neg (by simpa using haligned), if_neg hshort, List.take_left]
    rfl
  · rw [if_neg hf, if_neg hf]
    by_cases hl : r.recType = LmfRecord.load
    · have hlong := hload hl
      rw [if_pos hl, if_pos hl, if_neg (Nat.not_lt.mpr hlong), if_neg (by rw [List.length_append]; omega),
        if_neg hshort, List.take_append_of_le_length hlong, List.drop_append_of_le_length hlong]
      have hdata : (r.data.drop LmfData.bytes ++ rest).take (r.data.length - LmfData.bytes) =
          r.data.drop LmfData.bytes := List.take_left' List.length_drop
      rw [hdata]
      rfl
    · rw [if_neg hl, if_neg hl]
      rfl

/-- A record that was parsed without a reason to stop is there as a whole, and the loader takes it. -/
theorem fits_of_parse {header : List Byte} (hsize : header.length = LmfRecord.size)
    (htype : (LmfRecord.decode header).recType ≠ LmfRecord.imageEnd)
    (h : parse (fuel + 1) (header ++ rest) = (contents, none)) :
    (LmfRecord.decode header).dataNbytes.toNat ≤ rest.length ∧
      (LmfRecord.decode header).recType ≠ LmfRecord.linearFixup ∧
      ((LmfRecord.decode header).recType = LmfRecord.load →
        LmfData.bytes ≤ (LmfRecord.decode header).dataNbytes.toNat) ∧
      ((LmfRecord.decode header).recType = LmfRecord.fixup →
        RelocItem.bytes ∣ (LmfRecord.decode header).dataNbytes.toNat) := by
  have htake : (header ++ rest).take LmfRecord.size = header := by rw [← hsize, List.take_left]
  have hdrop : (header ++ rest).drop LmfRecord.size = rest := by rw [← hsize, List.drop_left]
  have hlong : ¬ (header ++ rest).length < LmfRecord.size := by
    rw [List.length_append]
    omega
  rw [parse, htake, hdrop] at h
  dsimp only at h
  rw [if_neg hlong, if_neg htype] at h
  generalize LmfRecord.decode header = record at h ⊢
  by_cases hf : record.recType = LmfRecord.fixup
  · rw [if_pos hf] at h
    split at h
    · cases h
    next haligned =>
    split at h
    · cases h
    next hdata =>
    rw [hf]
    exact ⟨Nat.le_of_not_lt hdata, by decide, fun hl => absurd hl (by decide),
      fun _ => Dvd.intro_left _ (Decidable.not_not.mp haligned)⟩
  · rw [if_neg hf] at h
    split at h
    · cases h
    next hlinear =>
    by_cases hl : record.recType = LmfRecord.load
    · rw [if_pos hl] at h
      split at h
      · cases h
      next hlong =>
      split at h
      · cases h
      next hld =>
      split at h
      · cases h
      next hdata =>
      exact ⟨Nat.le_of_not_lt hdata, hlinear, fun _ => Nat.le_of_not_lt hlong, fun h => absurd h hf⟩
    · rw [if_neg hl] at h
      refine ⟨?_, hlinear, fun h => absurd h hl, fun h => absurd h hf⟩
      -- behind a record that goes beyond the end of the file there is no other one
      by_contra hshort
      rw [List.drop_eq_nil_of_le (Nat.le_of_not_le hshort), parse_nil] at h
      cases h

/-- What was parsed without a reason to stop begins with a record that is there as a whole, or with the end of
the image. -/
theorem exists_record (h : parse (fuel + 1) file = (contents, none)) :
    (∃ header rest, file = header ++ rest ∧ header.length = LmfRecord.size ∧
      (LmfRecord.decode header).recType = LmfRecord.imageEnd ∧ contents = []) ∨
    ∃ (r : RawRecord) (rest : List Byte), file = r.bytes ++ rest ∧
      r.recType ≠ LmfRecord.imageEnd ∧ r.Accepted := by
  have hsize : LmfRecord.size ≤ file.length := by
    by_contra hshort
    rw [parse] at h
    dsimp only at h
    rw [if_pos (Nat.lt_of_not_le hshort)] at h
    cases h
  obtain ⟨header, rest, hheader, rfl⟩ : ∃ header rest, header.length = LmfRecord.size ∧ file = header ++ rest :=
    ⟨_, _, List.length_take_of_le hsize, (List.take_append_drop LmfRecord.size file).symm⟩
  by_cases hend : (LmfRecord.decode header).recType = LmfRecord.imageEnd
  · refine .inl ⟨header, rest, rfl, hheader, hend, ?_⟩
    rw [parse_imageEnd hheader hend] at h
    exact (congrArg Prod.fst h).symm
  · obtain ⟨hdata, hlinear, hload, hfixup⟩ := fits_of_parse hheader hend h
    have hlength : (rest.take (LmfRecord.decode header).dataNbytes.toNat).length =
        (LmfRecord.decode header).dataNbytes.toNat := List.length_take_of_le hdata
    refine .inr ⟨⟨header, rest.take (LmfRecord.decode header).dataNbytes.toNat, hheader, hlength⟩,
      rest.drop (LmfRecord.decode header).dataNbytes.toNat, ?_, hend, ⟨hlinear, ?_, ?_⟩⟩
    · rw [RawRecord.bytes, List.append_assoc, List.take_append_drop]
    · rw [hlength]
      exact hload
    · rw [hlength]
      exact hfixup

/-- The records that are parsed are those up to the end of the image. -/
theorem parse_eq_none_iff (hfuel : file.length < fuel) : parse fuel file = (contents, none) ↔
    ∃ records, Records file records ∧ contents = records.filterMap RawRecord.content := by
  induction fuel generalizing file contents with
  | zero => exact absurd hfuel (Nat.not_lt_zero _)
  | succ fuel ih =>
      have hlength : ∀ (r : RawRecord) (rest : List Byte), file = r.bytes ++ rest → rest.length < fuel := by
        rintro r rest rfl
        have hheader := r.header_size
        simp only [RawRecord.bytes, List.length_append, LmfRecord.size] at hfuel hheader
        omega
      constructor
      · intro h
        rcases exists_record h with ⟨header, rest, rfl, hsize, htype, rfl⟩ | ⟨r, rest, rfl, htype, haccepted⟩
        · exact ⟨[], .imageEnd hsize htype, rfl⟩
        · rw [parse_record r htype haccepted, Prod.mk.injEq] at h
          obtain ⟨records, hrecords, hcontents⟩ := (ih (hlength r rest rfl)).1 (Prod.ext rfl h.2)
          refine ⟨r :: records, .record htype haccepted hrecords, ?_⟩
          rw [← h.1, List.filterMap_cons]
          cases r.content with
          | none => exact hcontents
          | some c => exact congrArg (c :: ·) hcontents
      · rintro ⟨records, hrecords, rfl⟩
        cases hrecords with
        | imageEnd hsize htype => exact parse_imageEnd hsize htype
        | @record r rest records htype haccepted hrest =>
            rw [parse_record r htype haccepted, (ih (hlength r rest rfl)).2 ⟨records, hrest, rfl⟩,
              List.filterMap_cons]
            cases r.content with
            | none => rfl
            | some c => rfl

end LmfContent

/-- When the loop returns, it has gone through the records up to the end of the image: it has carried out the
LOAD records among them, and collected the items of the FIXUP records. -/
theorem loadRecords_ok {items : List RelocItem} {fuel : Nat} (hfuel : s.file.length < fuel)
    (hrun : (loadRecords l fuel relocBuf).run s = .ok items s') : ∃ records, Records s.file records ∧
      (forM (records.filterMap RawRecord.content) (Lmf.perform l)).run s.space = .ok ⟨⟩ s'.space ∧
      items = relocBuf ++ (records.filterMap RawRecord.content).flatMap LmfContent.items := by
  generalize hparse : LmfContent.parse fuel s.file = parsed
  obtain ⟨contents, stop⟩ := parsed
  have hforget : forget ((loadRecords l fuel relocBuf >>= pure).run s) =
      (Lmf.performAll l (LmfContent.parse fuel s.file)
        (pure (relocBuf ++ contents.flatMap LmfContent.items))).run s.space := by
    refine forget_loadRecords_bind hfuel ?_
    intro w file
    rw [hparse]
    rfl
  rw [bind_pure, hrun, hparse] at hforget
  obtain ⟨⟨⟩, w, hperform, hrest⟩ := EStateM.bind_ok.mp hforget.symm
  cases stop with
  | some what => cases hrest
  | none =>
      obtain ⟨records, hrecords, rfl⟩ := (LmfContent.parse_eq_none_iff hfuel).1 hparse
      cases hrest
      exact ⟨records, hrecords, hperform, rfl⟩

/-! ## Where the loop begins -/

theorem allocSegments_leaves (host : Host) (slib : Bool) (hdr : LmfHeader) (n : Nat) (types : List Access) :
    (allocSegments host slib hdr n l types).Leaves s (fun _ s' => s'.file = s.file.drop (4 * n))
      (fun _ _ => True) := by
  induction n generalizing s l types with
  | zero => exact EStateM.leaves_pure rfl
  | succ n ih =>
      unfold allocSegments
      refine (checkedRead_leaves 4).bind ?_
      rintro _ s₁ ⟨-, -, hfile₁⟩
      refine (onSpace_leaves _).bind ?_
      intro l' s₂ hfile₂
      refine (ih _).mono ?_ (fun _ _ h => h)
      intro _ s₃ hfile₃
      rw [hfile₃, hfile₂, hfile₁, List.drop_drop]
      congr 1
      omega

theorem readHeader_leaves : readHeader.Leaves s
    (fun r s' => checkHeader (LmfRecord.decode (s.file.take (LmfRecord.size + LmfHeader.size))) r.1 = .ok r.2 ∧
      s'.file = s.file.drop (LmfRecord.size + LmfHeader.size)) (fun _ _ => True) := by
  unfold readHeader
  refine (checkedRead_leaves _).bind ?_
  rintro _ s₁ ⟨-, rfl, hfile⟩
  exact EStateM.leaves_ofExcept_bind (fun _ hcheck => EStateM.leaves_pure ⟨hcheck, hfile⟩) (fun _ _ => trivial)

/-- When a file is loaded, the loop has been run from the end of the table. -/
theorem exists_loop {host : Host} {slib : Bool} {info info' : LoadInfo}
    (hrun : (loaderLoad host slib info).run s = .ok info' s') : ∃ hdr segmentCount l s₁ items s₂,
      checkHeader (LmfRecord.decode (s.file.take (LmfRecord.size + LmfHeader.size))) hdr = .ok segmentCount ∧
      s₁.file = s.file.drop (LmfRecord.size + LmfHeader.size + 4 * segmentCount) ∧
      (loadRecords l (s₁.file.length + 1) []).run s₁ = .ok items s₂ := by
  obtain ⟨⟨hdr, segmentCount⟩, s₁, hheader, himage⟩ := EStateM.bind_ok.mp hrun
  obtain ⟨hcheck, hfile₁⟩ := readHeader_leaves.of_ok hheader
  obtain ⟨⟨l, types⟩, s₂, htable, hrest⟩ := EStateM.bind_ok.mp himage
  have hfile₂ := (allocSegments_leaves host slib hdr segmentCount []).of_ok htable
  obtain ⟨⟨l', info₃⟩, s₃, hsegments, hrest⟩ := EStateM.bind_ok.mp hrest
  have hfile₃ := (onSpace_leaves _).of_ok hsegments
  rw [EStateM.run_get_bind] at hrest
  obtain ⟨items, s₄, hloop, -⟩ := EStateM.bind_ok.mp hrest
  refine ⟨hdr, segmentCount, l', s₃, items, s₄, hcheck, ?_, hloop⟩
  rw [hfile₃, hfile₂, hfile₁, List.drop_drop]

/-- The loop over the records ends, whatever the file and the layout: a pass that returns is behind the record at
which it began, and there are not more passes than headers that fit in the file. When it returns, it has gone
through the records from the end of the table to the end of the image. -/
theorem loaderLoad_records :
    (∀ (l : AbstractLoader) relocBuf (s : Loading) r s', (recordPass l relocBuf).run s = .ok r s' →
      LmfRecord.size ≤ s.file.length ∧ s'.file = s.file.drop (LmfRecord.size + declared s.file) ∧
        s'.file.length + LmfRecord.size ≤ s.file.length) ∧
    (∀ (l : AbstractLoader) relocBuf (s : Loading), ∃ n, LmfRecord.size * n ≤ s.file.length + LmfRecord.size ∧
      Loop l n relocBuf s ((loadRecords l (s.file.length + 1) relocBuf).run s)) ∧
    ∀ host slib info (s : Loading) info' s', (loaderLoad host slib info).run s = .ok info' s' →
      ∃ hdr segmentCount l s₁ items s₂ records,
        checkHeader (LmfRecord.decode (s.file.take (LmfRecord.size + LmfHeader.size))) hdr = .ok segmentCount ∧
        s₁.file = s.file.drop (LmfRecord.size + LmfHeader.size + 4 * segmentCount) ∧
        (loadRecords l (s₁.file.length + 1) []).run s₁ = .ok items s₂ ∧
        Records s₁.file records ∧
        (forM (records.filterMap RawRecord.content) (Lmf.perform l)).run s₁.space = .ok ⟨⟩ s₂.space ∧
        items = (records.filterMap RawRecord.content).flatMap LmfContent.items := by
  refine ⟨?_, ?_, ?_⟩
  · intro l relocBuf s r s' hpass
    obtain ⟨hsize, hfile, -⟩ := (recordPass_leaves l relocBuf s).of_ok hpass
    refine ⟨hsize, hfile, ?_⟩
    rw [hfile, List.length_drop]
    omega
  · intro l relocBuf s
    exact loop_loadRecords l (Nat.lt_succ_self _)
  · intro host slib info s info' s' hrun
    obtain ⟨hdr, segmentCount, l, s₁, items, s₂, hcheck, hfile, hloop⟩ := exists_loop hrun
    obtain ⟨records, hrecords, hperform, hitems⟩ := loadRecords_ok (Nat.lt_succ_self _) hloop
    exact ⟨hdr, segmentCount, l, s₁, items, s₂, records, hcheck, hfile, hloop, hrecords, hperform, hitems⟩

theorem loaderLoad_records_small : ∃ segmentCount records,
    Records (smallFile.drop (LmfRecord.size + LmfHeader.size + 4 * segmentCount)) records := by
  have hrun := EStateM.run_of_run' (show (loaderLoad Host.roomy false .init).run'
    ⟨Space.fresh, smallFile⟩ = some smallInfo by decide +kernel)
  obtain ⟨hdr, segmentCount, l, s₁, items, s₂, records, -, hfile, -, hrecords, -⟩ :=
    loaderLoad_records.2.2 _ _ _ _ _ _ hrun
  exact ⟨segmentCount, records, hfile ▸ hrecords⟩

end Qine
