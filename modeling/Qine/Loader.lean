import Qine.Space

/-!
# The loader

An LMF file is a header with a table of the loader segments and behind it a stream of records
(`loader_format.h`). `loader_load` lays the segments out, copies the data of the LOAD records to where
they say, and once the stream has ended gives every loader segment a descriptor and replaces the segment
numbers at the places the FIXUP records name by selectors (`loader.cpp`).

There are two layouts. In the flat one all loader segments, the stack and the heap share one segment; in
the segmented one each loader segment is a segment of its own.
-/

namespace Qine

/-! ## The file format -/

/-- A 16-bit field of a packed structure. -/
def u16 (bytes : List Byte) (offset : Nat) : BitVec 16 :=
  BitVec.ofNat 16 (leNat ((bytes.drop offset).take 2))

/-- A 32-bit field of a packed structure. -/
def u32 (bytes : List Byte) (offset : Nat) : BitVec 32 :=
  BitVec.ofNat 32 (leNat ((bytes.drop offset).take 4))

/-- `lmf_record`. -/
structure LmfRecord where
  recType : Byte
  reserved : Byte
  dataNbytes : BitVec 16
  spare : BitVec 16
  deriving DecidableEq, Repr

namespace LmfRecord

/-- `sizeof(lmf_record)`. -/
def size : Nat := 6

/-- The record header in the first bytes of a list. -/
def decode (bytes : List Byte) : LmfRecord where
  recType := bytes.getD 0 0
  reserved := bytes.getD 1 0
  dataNbytes := u16 bytes 2
  spare := u16 bytes 4

/-- `LMF_HEADER_REC`. -/
def header : Byte := 0

/-- `LMF_LOAD_REC`. -/
def load : Byte := 2

/-- `LMF_FIXUP_REC`. -/
def fixup : Byte := 3

/-- `LMF_IMAGE_END_REC`. -/
def imageEnd : Byte := 5

/-- `LMF_LINEAR_FIXUP_REC`. -/
def linearFixup : Byte := 8

end LmfRecord

/-- `lmf_header`, without the fields the loader does not look at. -/
structure LmfHeader where
  version : BitVec 16
  cflags : BitVec 16
  cpu : BitVec 16
  codeIndex : BitVec 16
  stackIndex : BitVec 16
  heapIndex : BitVec 16
  codeOffset : BitVec 32
  stackNbytes : BitVec 32
  heapNbytes : BitVec 32
  imageBase : BitVec 32
  deriving DecidableEq, Repr

namespace LmfHeader

/-- `sizeof(lmf_header)`. -/
def size : Nat := 48

/-- The header in the first bytes of a list. -/
def decode (bytes : List Byte) : LmfHeader where
  version := u16 bytes 0
  cflags := u16 bytes 2
  cpu := u16 bytes 4
  codeIndex := u16 bytes 8
  stackIndex := u16 bytes 10
  heapIndex := u16 bytes 12
  codeOffset := u32 bytes 24
  stackNbytes := u32 bytes 28
  heapNbytes := u32 bytes 32
  imageBase := u32 bytes 36

/-- `QNX_VERSION`. -/
def qnxVersion : BitVec 16 := 400

/-- `_TCF_32BIT` is set. -/
def is32bit (hdr : LmfHeader) : Bool := hdr.cflags &&& 0x0002 ≠ 0

/-- `_TCF_FLAT` is set. -/
def isFlat (hdr : LmfHeader) : Bool := hdr.cflags &&& 0x0010 ≠ 0

end LmfHeader

/-- An entry of the table behind the header. -/
structure SegEntry where
  access : Access
  size : BitVec 28
  deriving DecidableEq, Repr

/-- The type is in the upper four bits of an entry, the size in the others. -/
def SegEntry.decode (bytes : List Byte) : SegEntry where
  access := Access.ofType (u32 bytes 0 >>> 28).toNat
  size := (u32 bytes 0).setWidth 28

/-- `lmf_data`, the header of the data in a LOAD record. -/
structure LmfData where
  segment : BitVec 16
  offset : BitVec 32
  deriving DecidableEq, Repr

/-- `sizeof(lmf_data)`. -/
def LmfData.bytes : Nat := 6

def LmfData.decode (bytes : List Byte) : LmfData := ⟨u16 bytes 0, u32 bytes 2⟩

/-- `qnx_reloc_item`. -/
structure RelocItem where
  segment : BitVec 16
  relocOffset : BitVec 32
  deriving DecidableEq, Repr

namespace RelocItem

/-- `sizeof(qnx_reloc_item)`. -/
def bytes : Nat := 6

def decode (bytes : List Byte) : RelocItem := ⟨u16 bytes 0, u32 bytes 2⟩

/-- An array of items. -/
def decodeAll : Nat → List Byte → List RelocItem
  | 0, _ => []
  | n + 1, bs => decode bs :: decodeAll n (bs.drop bytes)

end RelocItem

/-! ## Reading the file -/

/-- The loader's surroundings: the address space, and what it has not read of the file yet. -/
structure Loading where
  space : Space
  file : List Byte

/-- A routine of the loader. -/
abbrev LoadM := EStateM HostError Loading

/-- Run a routine on the address space. -/
def onSpace {α : Type} (x : SpaceM α) : LoadM α :=
  EStateM.zoom Loading.space (fun w s => { s with space := w }) x

/-- `panic`. -/
def panic {σ α : Type} (what : String) : EStateM HostError σ α := throw (.loaderFormat what)

/-- `checked_read`. -/
def checkedRead (size : Nat) : LoadM (List Byte) := do
  let s ← get
  set { s with file := s.file.drop size }
  if s.file.length < size then panic "EOF" else return s.file.take size

/-- None of the `size` bytes at `a` is protected. -/
def Space.accessible (w : Space) (a size : Nat) : Bool :=
  (List.range' a size).all fun x => !w.protNone x

/-- The space with bytes written to memory. -/
def Space.written (w : Space) (a : Nat) (bytes : List Byte) : Space := { w with mem := w.mem.write a bytes }

/-- `checked_read` into guest memory. The kernel does not write to a protected page, and the loader gives
up the process then. -/
def checkedReadTo (dst size : Nat) : LoadM Unit := do
  let s ← get
  let got := s.file.take size
  if !s.space.accessible dst got.length then throw (.fault (.assertion "exit(1)"))
  else do
    set { s with space := s.space.written dst got, file := s.file.drop size }
    if s.file.length < size then panic "EOF"

/-- `lseek` from the current position, which may lead behind the end. -/
def seekForward (n : Nat) : LoadM Unit := modify fun s => { s with file := s.file.drop n }

/-- `check_value`. -/
def checkValue {n : Nat} (expected got : BitVec n) : Except HostError Unit :=
  if expected ≠ got then .error (.loaderFormat "loader value mismatch") else .ok ()

/-- The checks of `loader_load` on the header, and the number of loader segments. -/
def checkHeader (record : LmfRecord) (hdr : LmfHeader) : Except HostError Nat := do
  if record.dataNbytes.toNat < LmfHeader.size then
    .error (.loaderFormat "loader: declared header size too small")
  else do
    checkValue LmfRecord.header record.recType
    checkValue 0 record.reserved
    checkValue 0 record.spare
    checkValue LmfHeader.qnxVersion hdr.version
    if !(hdr.cpu = 386 || hdr.cpu = 486 || hdr.cpu = 286) then
      .error (.loaderFormat "loader: unsupported cpu")
    else if (record.dataNbytes.toNat - LmfHeader.size) % 4 ≠ 0 then
      .error (.loaderFormat "loader: unaligned header size")
    else return (record.dataNbytes.toNat - LmfHeader.size) / 4

/-- The header and the number of entries of the table behind it. -/
def readHeader : LoadM (LmfHeader × Nat) := do
  let bytes ← checkedRead (LmfRecord.size + LmfHeader.size)
  let hdr := LmfHeader.decode (bytes.drop LmfRecord.size)
  let segmentCount ← EStateM.ofExcept (checkHeader (LmfRecord.decode bytes) hdr)
  return (hdr, segmentCount)

/-! ## The two layouts -/

/-- `LoadInfo`. -/
structure LoadInfo where
  bits : Bitness
  entry : Nat
  ss : BitVec 16
  ds : BitVec 16
  cs : BitVec 16
  heapStart : Nat
  stackLow : Nat
  stackSize : Nat
  deriving DecidableEq, Repr

/-- `LoadInfo::LoadInfo`. -/
def LoadInfo.init : LoadInfo := ⟨.b32, 0, 0, 0, 0, 0, 0, 0⟩

/-- `FlatSegment`: a loader segment inside the one segment of the flat model. -/
structure FlatSegment where
  start : Nat
  size : Nat
  type : Access
  deriving DecidableEq, Repr

/-- `FlatLoader`. -/
structure FlatLoader where
  segments : List FlatSegment
  segmentPos : Nat
  imageBase : Nat
  /-- set by `finalize_segments` -/
  mem : Nat
  deriving DecidableEq, Repr

namespace FlatLoader

/-- `FlatLoader::prepare_segments`. -/
def prepareSegments (hdr : LmfHeader) : FlatLoader where
  segments := []
  segmentPos := uint32 (MemOps.alignPageUp hdr.imageBase.toNat)
  imageBase := uint32 (MemOps.alignPageUp hdr.imageBase.toNat)
  mem := 0

/-- `FlatLoader::alloc_segment`. -/
def allocSegment (l : FlatLoader) (e : SegEntry) : FlatLoader :=
  { l with
    segments := l.segments ++ [⟨l.segmentPos, uint32 (MemOps.alignPageUp e.size.toNat), e.access⟩]
    segmentPos := uint32 (l.segmentPos + MemOps.alignPageUp e.size.toNat) }

/-- `FlatLoader::finalize_segments`. -/
def finalizeSegments (host : Host) (hdr : LmfHeader) (info : LoadInfo) (l : FlatLoader) :
    SpaceM (FlatLoader × LoadInfo) := do
  let stack := uint32 (MemOps.alignPageUp hdr.stackNbytes.toNat)
  if l.imageBase < uint32 (stack + MemOps.pageSize) then panic "stack does not fit"
  else do
    -- actual skip can be larger than one page
    let skip := uint32 (l.imageBase + (2 ^ 32 - stack))
    let mem ← Space.allocateSegment
    Space.reserve host mem (MemOps.mega 512)
    Space.onSegment mem (Segment.skipPaged skip)
    Space.onSegment mem (Segment.growPaged host stack)
    Space.onSegment mem (Segment.growPaged host (uint32 (l.segmentPos + (2 ^ 32 - l.imageBase))))
    let heapStart := ((← get).segments mem).limitSize
    Space.onSegment mem (Segment.growPaged host hdr.heapNbytes.toNat)
    match l.segments[hdr.codeIndex.toNat]? with
    | none => throw (.fault .outOfBounds)
    | some code =>
      return ({ l with mem := mem }, { info with
        stackLow := skip
        stackSize := stack
        heapStart := uint32 heapStart
        entry := uint32 (code.start + hdr.codeOffset.toNat) })

/-- `FlatLoader::prepare_segment_load`. -/
def prepareSegmentLoad (l : FlatLoader) (ld : LmfData) (dataSize : Nat) : SpaceM Nat :=
  match l.segments[ld.segment.toNat]? with
  | none => panic "data: invalid segment"
  | some seg => Space.pointer l.mem (uint32 (seg.start + ld.offset.toNat)) dataSize

/-- `FlatLoader::finalize_loading`. -/
def finalizeLoading (l : FlatLoader) : SpaceM Unit :=
  forM l.segments fun seg =>
    Space.changeAccess l.mem (Segment.mapProt seg.type) seg.start (MemOps.alignPageUp seg.size)

end FlatLoader

/-- `SegmentLoader`: the segments, by reference. -/
structure SegmentLoader where
  segments : List Nat
  deriving DecidableEq, Repr

namespace SegmentLoader

/-- What is reserved for a segment, which cannot be moved later. -/
def reservation (slib : Bool) (hdr : LmfHeader) : Nat :=
  if !hdr.is32bit then MemOps.kilo 64
  else if slib then MemOps.mega 4
  else MemOps.mega 64

/-- `SegmentLoader::alloc_segment`. -/
def allocSegment (host : Host) (slib : Bool) (hdr : LmfHeader) (l : SegmentLoader) (e : SegEntry) :
    SpaceM SegmentLoader := do
  let seg ← Space.allocateSegment
  Space.reserve host seg (reservation slib hdr)
  Space.onSegment seg (Segment.growBytes host e.size.toNat)
  return { l with segments := l.segments ++ [seg] }

/-- `SegmentLoader::finalize_segments`. -/
def finalizeSegments (host : Host) (hdr : LmfHeader) (info : LoadInfo) (l : SegmentLoader) :
    SpaceM LoadInfo := do
  match l.segments[hdr.stackIndex.toNat]?, l.segments[hdr.heapIndex.toNat]? with
  | some stackSeg, some heapSeg =>
    let stackStart := ((← get).segments stackSeg).limitSize
    Space.onSegment stackSeg (Segment.growBytes64capped host hdr.stackNbytes.toNat)
    let heapStart := ((← get).segments heapSeg).limitSize
    Space.onSegment heapSeg (Segment.growBytes64capped host hdr.heapNbytes.toNat)
    return { info with
      stackLow := uint32 stackStart
      stackSize := hdr.stackNbytes.toNat
      heapStart := uint32 heapStart
      entry := hdr.codeOffset.toNat }
  | _, _ => throw (.loaderFormat "Stack index specifies invalid index")

/-- `SegmentLoader::prepare_segment_load`. -/
def prepareSegmentLoad (l : SegmentLoader) (ld : LmfData) (dataSize : Nat) : SpaceM Nat :=
  match l.segments[ld.segment.toNat]? with
  | none => panic "data: invalid segment"
  | some seg => Space.pointer seg ld.offset.toNat dataSize

end SegmentLoader

/-- `AbstractLoader`. -/
inductive AbstractLoader where
  | flat (l : FlatLoader)
  | segmented (l : SegmentLoader)
  deriving DecidableEq, Repr

namespace AbstractLoader

/-- The loader `loader_load` creates, after `prepare_segments`. -/
def prepareSegments (hdr : LmfHeader) : AbstractLoader :=
  if hdr.isFlat then .flat (.prepareSegments hdr) else .segmented ⟨[]⟩

def allocSegment (host : Host) (slib : Bool) (hdr : LmfHeader) (e : SegEntry) :
    AbstractLoader → SpaceM AbstractLoader
  | .flat l => return .flat (l.allocSegment e)
  | .segmented l => return .segmented (← l.allocSegment host slib hdr e)

def finalizeSegments (host : Host) (hdr : LmfHeader) (info : LoadInfo) :
    AbstractLoader → SpaceM (AbstractLoader × LoadInfo)
  | .flat l => do
    let (l, info) ← l.finalizeSegments host hdr info
    return (.flat l, info)
  | .segmented l => return (.segmented l, ← l.finalizeSegments host hdr info)

def prepareSegmentLoad (ld : LmfData) (dataSize : Nat) : AbstractLoader → SpaceM Nat
  | .flat l => l.prepareSegmentLoad ld dataSize
  | .segmented l => l.prepareSegmentLoad ld dataSize

/-- The segmented loader leaves the protection as it is. -/
def finalizeLoading : AbstractLoader → SpaceM Unit
  | .flat l => l.finalizeLoading
  | .segmented _ => return

/-- The flat loader does not look at the number; the other one does not check it. -/
def getSegment (segment : Nat) : AbstractLoader → Option Nat
  | .flat l => some l.mem
  | .segmented l => l.segments[segment]?

end AbstractLoader

/-! ## `loader_load` -/

/-- Read the table, and let the loader lay out the segments. -/
def allocSegments (host : Host) (slib : Bool) (hdr : LmfHeader) :
    Nat → AbstractLoader → List Access → LoadM (AbstractLoader × List Access)
  | 0, l, types => return (l, types)
  | n + 1, l, types => do
    let e := SegEntry.decode (← checkedRead 4)
    let l ← onSpace (l.allocSegment host slib hdr e)
    allocSegments host slib hdr n l (types ++ [e.access])

/-- The records up to the end of the image. A round reads at least the header of a record, so `fuel` is
enough if there are not more bytes left than that. -/
def loadRecords (l : AbstractLoader) : Nat → List RelocItem → LoadM (List RelocItem)
  | 0, _ => throw (.fault .outOfBounds)
  | fuel + 1, relocBuf => do
    let record := LmfRecord.decode (← checkedRead LmfRecord.size)
    let nbytes := record.dataNbytes.toNat
    if record.recType = LmfRecord.fixup then
      let relocs := nbytes / RelocItem.bytes
      if relocs * RelocItem.bytes ≠ nbytes then
        throw (.loaderFormat "Unaligned relocation segment size")
      else do
        let items ← checkedRead (relocs * RelocItem.bytes)
        loadRecords l fuel (relocBuf ++ RelocItem.decodeAll relocs items)
    else if record.recType = LmfRecord.linearFixup then panic "loader: linear fixup rec unsupported"
    else if record.recType = LmfRecord.load then
      if nbytes < LmfData.bytes then panic "loader: data: record too short"
      else do
        let ld := LmfData.decode (← checkedRead LmfData.bytes)
        let dst ← onSpace (l.prepareSegmentLoad ld (nbytes - LmfData.bytes))
        checkedReadTo dst (nbytes - LmfData.bytes)
        loadRecords l fuel relocBuf
    else do
      seekForward nbytes
      if record.recType = LmfRecord.imageEnd then return relocBuf
      else loadRecords l fuel relocBuf

/-- What `info_out` gets to know of the descriptor for loader segment `si`. -/
def LoadInfo.publish (hdr : LmfHeader) (si : Nat) (sel : BitVec 16) (info : LoadInfo) : LoadInfo :=
  { info with
    cs := if hdr.codeIndex.toNat = si then sel else info.cs
    ds := if hdr.heapIndex.toNat = si then sel else info.ds
    ss := if hdr.stackIndex.toNat = si then sel else info.ss }

/-- The descriptors for the loader segments from number `si` on. -/
def createDescriptors (hdr : LmfHeader) (l : AbstractLoader) :
    List Access → Nat → LoadInfo → List (BitVec 16) → SpaceM (LoadInfo × List (BitVec 16))
  | [], _, info, selectors => return (info, selectors)
  | type :: types, si, info, selectors =>
    match l.getSegment si with
    | none => throw (.fault .outOfBounds)
    | some seg => do
      let sd ← Space.createSegmentDescriptor type seg info.bits
      createDescriptors hdr l types (si + 1) (info.publish hdr si sd.selector)
        (selectors ++ [sd.selector])

/-- The loader segment a word stands for before it is replaced by a selector. -/
def relocatedSegment (word : BitVec 16) : Nat := ((word &&& ~~~0x7) >>> 3).toNat

/-- Replace the word an item names. -/
def relocate (l : AbstractLoader) (segmentCount : Nat) (selectors : List (BitVec 16)) (r : RelocItem) :
    SpaceM Unit :=
  match l.getSegment r.segment.toNat with
  | none => throw (.fault .outOfBounds)
  | some seg => do
    let what ← Space.pointer seg r.relocOffset.toNat 2
    let w ← get
    if !w.accessible what 2 then throw (.fault (.segmentationFault "protected page"))
    else
      let segment := relocatedSegment (w.mem.loadWord 2 what)
      if segmentCount ≤ segment then throw (.loaderFormat "relocation out of range")
      else match selectors[segment]? with
        | none => throw (.fault .outOfBounds)
        | some value => set { w with mem := w.mem.storeWord 2 what value }

/-- What `loader_load` does once the whole file is read. -/
def publish (hdr : LmfHeader) (segmentCount : Nat) (l : AbstractLoader) (types : List Access)
    (info : LoadInfo) (relocBuf : List RelocItem) : SpaceM LoadInfo := do
  l.finalizeLoading
  let (info, selectors) ← createDescriptors hdr l types 0 info []
  forM relocBuf (relocate l segmentCount selectors)
  return info

/-- What `loader_load` does once the header is read. -/
def loadImage (host : Host) (slib : Bool) (info : LoadInfo) (hdr : LmfHeader) (segmentCount : Nat) :
    LoadM LoadInfo := do
  let info := { info with bits := if !hdr.is32bit then .b16 else .b32 }
  let (l, types) ← allocSegments host slib hdr segmentCount (.prepareSegments hdr) []
  let (l, info) ← onSpace (l.finalizeSegments host hdr info)
  let relocBuf ← loadRecords l ((← get).file.length + 1) []
  onSpace (publish hdr segmentCount l types info relocBuf)

/-- `loader_load`; `info` is what `info_out` holds before the call. -/
def loaderLoad (host : Host) (slib : Bool) (info : LoadInfo) : LoadM LoadInfo := do
  let (hdr, segmentCount) ← readHeader
  loadImage host slib info hdr segmentCount

end Qine
