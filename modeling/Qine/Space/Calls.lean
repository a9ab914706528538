import Qine.Loader
import Qine.Startup

/-!
# Calls that change the address space

Once a program is loaded, `setup_startup_context` (`process.cpp`) puts what the program finds at its start
behind the beginning of the heap, and creates two segments of its own: one for the pointer to the magic
and one for the time. Later the program can ask for segments, and for changes to them, with the messages
`segment_alloc`, `segment_realloc` and `segment_flags` (`main_handler.cpp`).
-/

namespace Qine

namespace Space

/-! ## Segment messages -/

/-- `QnxMsg::proc::segment_request`, without the fields no handler looks at. -/
structure SegmentRequest where
  sel : BitVec 16
  flags : BitVec 16
  nbytes : BitVec 32
  deriving DecidableEq, Repr

/-- `QnxMsg::proc::segment_reply`. -/
structure SegmentReply where
  status : BitVec 16
  sel : BitVec 16
  flags : BitVec 16
  addr : BitVec 32
  nbytes : BitVec 32
  deriving DecidableEq, Repr

/-- The cleared reply, with a status. -/
def SegmentReply.ofStatus (status : Int) : SegmentReply := ⟨BitVec.ofInt 16 status, 0, 0, 0, 0⟩

/-- `Qnx::QEBUSY`. -/
def qebusy : Int := 16

/-- `Process::descriptor_by_selector`. -/
def descriptorBySelector (w : Space) (sel : BitVec 16) : Option SegmentDescriptor :=
  w.descriptors.get (SegmentDescriptor.selToId sel)

/-- What the replies say about a segment. -/
def describe (w : Space) (i : Nat) (sel : BitVec 16) : SegmentReply :=
  { SegmentReply.ofStatus qeok with
    sel := sel
    nbytes := BitVec.ofNat 32 (w.segments i).limitSize
    addr := BitVec.ofNat 32 (w.segments i).location }

/-- `MainHandler::proc_segment_alloc`, in a process of the given bitness. -/
def procSegmentAlloc (host : Host) (bits : Bitness) (msg : SegmentRequest) : SpaceM SegmentReply := do
  let seg ← allocateSegment
  reserve host seg (MemOps.mega 1)
  let nbytes := if bits = .b16 then msg.nbytes &&& 0x1FFFF else msg.nbytes
  onSegment seg (Segment.growBytes host nbytes.toNat)
  let sd ← createSegmentDescriptor .readWrite seg bits
  return (← get).describe seg sd.selector

/-- `MainHandler::proc_segment_realloc`. -/
def procSegmentRealloc (host : Host) (msg : SegmentRequest) : SpaceM SegmentReply := do
  let w ← get
  match w.descriptorBySelector msg.sel with
  | none => return .ofStatus qeinval
  | some sd =>
    if (w.segments sd.seg).shared then return .ofStatus qebusy
    else do
      if (w.segments sd.seg).limitSize < msg.nbytes.toNat then
        onSegment sd.seg (Segment.growBytes host (msg.nbytes.toNat - (w.segments sd.seg).limitSize))
        updateDescriptors sd
      return (← get).describe sd.seg msg.sel

/-- `Process::free_segment_descriptor`. -/
def freeSegmentDescriptor (sd : SegmentDescriptor) : SpaceM Unit :=
  modify fun w => { w with descriptors := w.descriptors.free sd.id }

/-- `MainHandler::proc_segment_free`. -/
def procSegmentFree (msg : SegmentRequest) : SpaceM SegmentReply := do
  match (← get).descriptorBySelector msg.sel with
  | none => return .ofStatus qeinval
  | some sd =>
    freeSegmentDescriptor sd
    return .ofStatus qeok

/-- `Qnx::PMF_ACCESS_MASK`. -/
def pmfAccessMask : BitVec 16 := 0x3

/-- `MainHandler::proc_segment_flags`. The descriptor is changed in place, and the flags are also what
becomes of the selector in the reply. -/
def procSegmentFlags (msg : SegmentRequest) : SpaceM SegmentReply := do
  match (← get).descriptorBySelector msg.sel with
  | none => return .ofStatus qeinval
  | some sd =>
    let sd := { sd with access := Access.ofType (msg.flags &&& pmfAccessMask).toNat }
    modify fun w => { w with descriptors := w.descriptors.emplace (SegmentDescriptor.selToId msg.sel) sd }
    updateDescriptors sd
    return { SegmentReply.ofStatus qeok with flags := msg.flags, sel := msg.flags }

/-! ## Descriptors and stores -/

/-- `Process::create_segment_descriptor_at`. -/
def createSegmentDescriptorAt (access : Access) (mem : Nat) (bits : Bitness) (id : Nat) : SpaceM Unit := do
  let w ← get
  match w.descriptors.allocExactlyAt id fun id => ⟨id, access, mem, bits⟩ with
  | .error _ => throw .badAlloc
  | .ok descriptors => set (w.install ⟨id, access, mem, bits⟩ descriptors)

/-- `Segment::make_shared`. -/
def makeShared : SegM Unit := modify fun m => { m with seg := { m.seg with shared := true } }

/-- Store through `pointer(offset, size)` of segment `i`. -/
def storeAt (i offset size : Nat) (bytes : List Byte) : SpaceM Unit := do
  let a ← pointer i offset size
  modify fun w => { w with mem := w.mem.write a bytes }

end Space

/-! ## Startup -/

/-- `setup_startup_context` at work: the address space, and the `StartupSbrk` that allocates from one of
its segments. -/
structure Starting where
  space : Space
  /-- the data segment -/
  data : Nat
  offset : Nat
  lastOffset : Nat

/-- A step of `setup_startup_context`. -/
abbrev StartM := EStateM HostError Starting

namespace Starting

/-- The `StartupSbrk`. -/
def sbrk (s : Starting) : StartupSbrk := ⟨s.space.mapped s.data, s.offset, s.lastOffset⟩

/-- The `StartupSbrk` replaced. -/
def putSbrk (a : StartupSbrk) (s : Starting) : Starting :=
  { s with space := s.space.putMapped s.data a.mapped, offset := a.offset, lastOffset := a.lastOffset }

/-- Call a routine of the `StartupSbrk`. -/
def onSbrk {α : Type} (x : SbrkM α) : StartM α := EStateM.zoom sbrk putSbrk x

/-- Run a routine on the address space. -/
def inSpace {α : Type} (x : SpaceM α) : StartM α :=
  EStateM.zoom Starting.space (fun w s => { s with space := w }) x

end Starting

/-- `sizeof(Qnx::Magic)`, and of `Qnx::Magic16`. -/
def Magic.size : Nat := 144

/-- `Qnx::MAGIC_PTR_SELECTOR`. -/
def Magic.ptrSelector : BitVec 16 := 0x78

/-- `sizeof(Qnx::timesel)`. -/
def timeselSize : Nat := 32

/-- What `setup_startup_context` takes from the process and from its surroundings. -/
structure StartupInput where
  /-- `m_load_exec` -/
  exec : LoadInfo
  pid : BitVec 16
  parentPid : BitVec 16
  nid : BitVec 32
  /-- `m_load_slib.cs` and `m_slib_entry` -/
  slibCs : BitVec 16
  slibEntry : BitVec 32
  path : CString
  args : List CString
  envs : List CString

namespace StartupInput

open Starting Space

/-- `data_sd->pointer(alloc.offset())`, as it is stored. -/
def farPointer (dataSd : SegmentDescriptor) (offset : Nat) : List Byte :=
  leBytes 4 offset ++ leBytes 2 dataSd.selector.toNat

/-- The same as a `FarPointer16`. -/
def farPointer16 (dataSd : SegmentDescriptor) (offset : Nat) : List Byte :=
  leBytes 2 offset ++ leBytes 2 dataSd.selector.toNat

/-- The segment that `m_magic_pointer` refers to, and its descriptor. -/
def createMagicPointer (host : Host) (nbytes : Nat) (shared : Bool) (ptr : List Byte) : SpaceM Unit := do
  let seg ← allocateSegment
  reserve host seg MemOps.pageSize
  onSegment seg (Segment.growBytes host nbytes)
  if shared then onSegment seg makeShared
  -- `sizeof(FarPointer)` bytes are asked for, however many are stored
  storeAt seg 0 8 ptr
  createSegmentDescriptorAt .readOnly seg .b32 (SegmentDescriptor.selToId Magic.ptrSelector)

/-- What `setup_magic` and `setup_magic16` have in common: room for the magic, and a segment that points
to it. -/
def placeMagic (host : Host) (nbytes : Nat) (shared : Bool) (ptr : Nat → List Byte) : StartM Nat := do
  onSbrk (StartupSbrk.align host)
  onSbrk (StartupSbrk.alloc host Magic.size)
  let magic ← onSbrk StartupSbrk.ptr
  inSpace (createMagicPointer host nbytes shared (ptr magic))
  return magic

/-- `Process::setup_magic`. -/
def setupMagic (host : Host) (dataSd : SegmentDescriptor) (i : StartupInput) : StartM Unit := do
  let magic ← placeMagic host 8 true (farPointer dataSd)
  onSbrk (StartupSbrk.store magic
    ((List.range (Magic.size / 4)).flatMap fun k => leBytes 4 (0xDEADBE00 + k)))
  onSbrk (StartupSbrk.store magic (leBytes 2 i.pid.toNat))
  onSbrk (StartupSbrk.store (magic + 4) (leBytes 2 i.parentPid.toNat))
  onSbrk (StartupSbrk.store (magic + 8) (leBytes 4 i.nid.toNat))

/-- The offset of `sptrs` in `Qnx::Magic16`. -/
def sptrs16 : Nat := 40

/-- `Process::setup_magic16`. It does not share the segment. -/
def setupMagic16 (host : Host) (dataSd : SegmentDescriptor) (i : StartupInput) : StartM Unit := do
  let magic ← placeMagic host 6 false (farPointer16 dataSd)
  forM (List.range 20) fun k =>
    onSbrk (StartupSbrk.store (magic + sptrs16 + 4 * k + 2) (leBytes 2 (0xDEA0 + k)))
  onSbrk (StartupSbrk.store (magic + 2) (leBytes 2 i.pid.toNat))
  onSbrk (StartupSbrk.store (magic + 4) (leBytes 2 i.parentPid.toNat))
  onSbrk (StartupSbrk.store (magic + 8) (leBytes 4 i.nid.toNat))
  onSbrk (StartupSbrk.store (magic + sptrs16) (leBytes 2 i.slibEntry.toNat ++ leBytes 2 i.slibCs.toNat))

/-- The segment for the time. -/
def createTimeSegment (host : Host) : SpaceM Unit := do
  let seg ← allocateSegment
  reserve host seg MemOps.pageSize
  onSegment seg (Segment.growBytes host timeselSize)
  let _ ← createSegmentDescriptor .readOnly seg .b32

/-- What `setup_startup_context` does with the data segment's descriptor at hand. -/
def setupData (host : Host) (dataSd : SegmentDescriptor) (i : StartupInput) : StartM Unit := do
  match i.exec.bits with
  | .b16 => i.setupMagic16 host dataSd
  | .b32 => i.setupMagic host dataSd
  inSpace (createTimeSegment host)
  let _ ← onSbrk (layoutSpawn host i.path i.args i.envs)
  inSpace (updateDescriptors dataSd)

/-- `Process::setup_startup_context`, without the registers and what is pushed to the stack. -/
def setupStartupContext (host : Host) (i : StartupInput) : SpaceM Unit := do
  if i.exec.entry = 0 ∨ i.exec.cs = 0 ∨ i.exec.ds = 0 then
    throw (.fault (.guestState "Loading incomplete"))
  else match (← get).descriptorBySelector i.exec.ss with
    | none =>
      throw (.fault (.guestState "Guest does not seem to be loaded properly (no data segment)"))
    | some dataSd =>
      EStateM.zoom (fun w => ⟨w, dataSd.seg, i.exec.heapStart, 2 ^ 32 - 1⟩) (fun s _ => s.space)
        (i.setupData host dataSd)

end StartupInput
end Qine
