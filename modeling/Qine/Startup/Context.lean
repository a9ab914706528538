import Qine.Signal.Context
import Qine.Space.Calls

/-!
# The startup context

`Process::setup_startup_context` (`process.cpp`) in full: what `Qine.Space.Calls` leaves out of it are the
registers a program starts with, where its arguments and its environment come from, and what is pushed to
the stack of a 32-bit program. The strings lie with the spawn message (`layoutSpawn`), and the stack has
pointers to them; `layoutStrings_eq` says that the message is the same one.
-/

namespace Qine

/-! ## Strings -/

namespace CString

/-- A literal. -/
def ofString (s : String) : CString := s.toList.map fun c => BitVec.ofNat 8 c.toNat

/-- The bytes of a string as the characters of a path. -/
def toPath (str : CString) : List Char := str.map fun b => Char.ofNat b.toNat

/-- `c_str` of a path. -/
def ofPath (path : List Char) : CString := path.map fun c => BitVec.ofNat 8 c.toNat

/-- `starts_with`. -/
def startsWith (str pre : CString) : Bool :=
  if pre.length > str.length then false else pre == str.take pre.length

theorem startsWith_iff {str pre : CString} : startsWith str pre = true ↔ pre <+: str := by
  rw [List.prefix_iff_eq_take]
  unfold startsWith
  split
  · next hlt =>
      refine ⟨Bool.noConfusion, ?_⟩
      intro h
      have hlen := congrArg List.length h
      rw [List.length_take] at hlen
      omega
  · exact beq_iff_eq

/-- `env_cwd_key`. -/
def cwdKey : CString := ofString "__CWD="

/-- `env_pfx_key`. -/
def pfxKey : CString := ofString "__PFX="

end CString

/-- `InterpreterInfo` of a script; the paths are QNX paths. -/
structure InterpreterInfo where
  interpreter : CString
  /-- empty if there is none -/
  interpreterArgs : CString
  originalExecutable : CString

/-- What `setup_startup_context` looks at. -/
structure Launch where
  /-- `m_load_exec` -/
  exec : LoadInfo
  pid : BitVec 16
  parentPid : BitVec 16
  /-- `m_load_slib.cs` -/
  slibCs : BitVec 16
  /-- `m_slib_entry`, zero if there is no slib -/
  slibEntry : BitVec 32
  /-- `m_interpreter_info`, if `has_interpreter` -/
  interpreter : Option InterpreterInfo
  argv : List CString
  environ : List CString
  /-- the QNX path of the working directory -/
  cwd : CString

namespace Launch

open CString

/-- `Process::nid`. -/
def nid : BitVec 32 := 1

/-- `argv[0]` as a string; behind the last argument there is a null pointer. -/
def argv0 (l : Launch) : Except HostError CString :=
  match l.argv with
  | [] => .error (.fault .nullPointer)
  | a :: _ => .ok a

/-- The path in the spawn message. -/
def path (l : Launch) : Except HostError CString :=
  match l.interpreter with
  | none => l.argv0
  | some i => .ok i.originalExecutable

/-- What `push_arg` is called with first, in place of `argv[0]`. -/
def firstArguments (l : Launch) : Except HostError (List CString) :=
  match l.interpreter with
  | none => return [← l.argv0]
  | some i =>
    let interpreterArgs := if i.interpreterArgs.isEmpty then [] else [i.interpreterArgs]
    .ok (i.interpreter :: interpreterArgs ++ [i.originalExecutable])

/-- What `push_arg` is called with. -/
def arguments (l : Launch) : Except HostError (List CString) := do
  return (← l.firstArguments) ++ l.argv.drop 1

/-- The last entry of the environment with a key, empty if there is none. -/
def lastEntry (key : CString) (environ : List CString) : CString :=
  environ.foldl (fun found e => if CString.startsWith e key then e else found) []

/-- The entries that are passed on as they are. -/
def others (environ : List CString) : List CString :=
  environ.filter fun e => !CString.startsWith e cwdKey && !CString.startsWith e pfxKey

/-- `env_pfx`. -/
def envPfx (l : Launch) : CString :=
  if (lastEntry pfxKey l.environ).isEmpty then ofString "__PFX=//1" else lastEntry pfxKey l.environ

/-- `env_cwd`. -/
def envCwd (l : Launch) : CString :=
  if (lastEntry cwdKey l.environ).isEmpty then cwdKey ++ l.cwd else lastEntry cwdKey l.environ

/-- What `push_env` is called with. -/
def environment (l : Launch) : List CString := others l.environ ++ [l.envPfx, l.envCwd]

/-- What `setup_magic` looks at, which does not need the strings. -/
def magicInput (l : Launch) : StartupInput where
  exec := l.exec
  pid := l.pid
  parentPid := l.parentPid
  nid := nid
  slibCs := l.slibCs
  slibEntry := l.slibEntry
  path := []
  args := []
  envs := []

end Launch

/-! ## The strings of the spawn message -/

namespace StartupSbrk

/-- Push strings one after the other, and remember each `offset()`. -/
def pushStrings (host : Host) : List CString → SbrkM (List Nat)
  | [] => return []
  | str :: strs => do
    pushString host str
    let offset := (← get).lastOffset
    let offsets ← pushStrings host strs
    return offset :: offsets

end StartupSbrk

/-- Where the spawn message is, and where the strings are that the stack has pointers to. -/
structure Strings where
  spawn : Nat
  argvOffsets : List Nat
  envpOffsets : List Nat
  deriving DecidableEq, Repr

namespace Launch

open StartupSbrk

/-- The part of `setup_startup_context` that lays out the spawn message. -/
def layoutStrings (host : Host) (l : Launch) : SbrkM Strings := do
  align host
  alloc host SpawnMsg.size
  let spawn ← ptr
  store spawn (leBytes 2 SpawnMsg.type)
  pushString host (← EStateM.ofExcept l.path)
  let argvOffsets ← pushStrings host (← EStateM.ofExcept l.arguments)
  pushString host []
  let envpOffsets ← pushStrings host l.environment
  pushString host []
  store (spawn + SpawnMsg.argc) (leBytes 2 argvOffsets.length)
  store (spawn + SpawnMsg.envc) (leBytes 2 envpOffsets.length)
  align host
  return ⟨spawn, argvOffsets, envpOffsets⟩

end Launch

section

open StartupSbrk

variable {host : Host}

/-- Remembering the offsets does not change what is done. -/
theorem pushStrings_bind {β : Type} {strs : List CString} {f : List Nat → SbrkM β} {x : SbrkM β}
    (h : ∀ offsets, offsets.length = strs.length → f offsets = x) :
    pushStrings host strs >>= f = forM strs (pushString host) >>= fun _ => x := by
  induction strs generalizing f with
  | nil =>
      rw [pushStrings, pure_bind, h [] rfl, List.forM_nil, pure_bind]
  | cons str strs ih =>
      -- under the first string and its offset, the rest is the induction hypothesis
      have hrest : ∀ offset, (pushStrings host strs >>= fun offsets => f (offset :: offsets)) =
          forM strs (pushString host) >>= fun _ => x := by
        intro offset
        refine ih ?_
        intro offsets hlen
        exact h _ (by rw [List.length_cons, hlen, List.length_cons])
      rw [pushStrings, List.forM_cons]
      simp only [bind_assoc, pure_bind, hrest]
      rfl

/-- The spawn message is the one `layoutSpawn` lays out. -/
theorem layoutStrings_eq {l : Launch} {path : CString} {args : List CString} (hpath : l.path = .ok path)
    (hargs : l.arguments = .ok args) :
    (·.spawn) <$> l.layoutStrings host = (·.1) <$> layoutSpawn host path args l.environment := by
  unfold Launch.layoutStrings layoutSpawn
  simp only [map_bind, EStateM.ofExcept_bind_of_ok hpath, EStateM.ofExcept_bind_of_ok hargs]
  refine bind_congr fun _ => bind_congr fun _ => bind_congr fun spawn => bind_congr fun _ =>
    bind_congr fun _ => ?_
  refine pushStrings_bind fun argvOffsets hargv => bind_congr fun _ => ?_
  refine pushStrings_bind fun envpOffsets henvp => bind_congr fun _ => ?_
  rw [hargv, henvp]
  refine bind_congr fun _ => bind_congr fun _ => ?_
  rfl

end

/-! ## Registers and stack -/

/-- `Process::translate_segmented`. -/
def Space.translateSegmented (w : Space) (ptr : FarPointer) (size : Nat) : Except HostError Nat :=
  match w.descriptorBySelector ptr.segment with
  | none => .error (.fault (.segmentationFault "segment not present"))
  | some sd =>
    if (w.segments sd.seg).checkBounds ptr.offset.toNat size then
      .ok ((w.segments sd.seg).pointer ptr.offset.toNat)
    else
      .error (.fault (.segmentationFault "address out of segment bounds"))

/-- The address space, and the registers of `m_startup_context`. -/
structure Entering where
  space : Space
  regs : Registers

/-- A step of `setup_startup_context` before there is a `StartupSbrk`. -/
abbrev EnterM := EStateM HostError Entering

/-- `setup_startup_context` at work, with the registers. -/
structure Launching where
  starting : Starting
  regs : Registers

/-- A step of `setup_startup_context` with a `StartupSbrk`. -/
abbrev LaunchM := EStateM HostError Launching

namespace Launching

/-- Run a step that leaves the registers alone. -/
def onStarting {α : Type} (x : StartM α) : LaunchM α :=
  EStateM.zoom Launching.starting (fun t s => { s with starting := t }) x

/-- Change the registers. -/
def setRegs (f : Registers → Registers) : LaunchM Unit := modify fun s => { s with regs := f s.regs }

/-- The address space after a store. -/
def stored (s : Launching) (linear : Nat) (value : BitVec 32) : Launching :=
  { s with starting.space.mem := s.starting.space.mem.storeWord 4 linear value }

/-- `GuestContext::push_stack`. -/
def pushStack (value : BitVec 32) : LaunchM Unit := do
  setRegs fun r => r.withEsp (r.esp - 4)
  let s ← get
  let linear ← EStateM.ofExcept (s.starting.space.translateSegmented ⟨s.regs.ss, s.regs.esp⟩ 4)
  set (s.stored linear value)

/-- `Process::push_pointer_block`. -/
def pushPointerBlock (block : List Nat) : LaunchM Unit := do
  pushStack 0
  forM block.reverse fun ptr => pushStack (BitVec.ofNat 32 ptr)

end Launching

namespace Launch

open Starting Launching

/-- The stack of a 32-bit program. -/
def pushArguments (l : Launch) (strings : Strings) : LaunchM Unit := do
  pushStack 0
  pushStack nid
  pushStack (l.parentPid.signExtend 32)
  pushStack (l.pid.signExtend 32)
  pushPointerBlock strings.envpOffsets
  pushPointerBlock strings.argvOffsets
  pushStack (BitVec.ofNat 32 strings.argvOffsets.length)

/-- Where the program starts. -/
def setEntry (l : Launch) : LaunchM Unit := do
  if l.slibEntry = 0 ∨ l.exec.bits = .b16 then
    setRegs fun r => { r with cs := l.exec.cs, eip := BitVec.ofNat 32 l.exec.entry }
  else do
    setRegs fun r => { r with cs := l.slibCs, eip := l.slibEntry }
    pushStack (l.exec.cs.setWidth 32)
    pushStack (BitVec.ofNat 32 l.exec.entry)

/-- The break, and what is free behind it. -/
def setBreak : LaunchM Unit := do
  let s ← get
  let size := (s.starting.space.segments s.starting.data).limitSize
  setRegs fun r => { r with
    ebx := BitVec.ofNat 32 s.starting.offset
    ecx := BitVec.ofNat 32 size - BitVec.ofNat 32 s.starting.offset }

/-- The registers that are known from the beginning. -/
def initialRegs (l : Launch) (r : Registers) : Registers :=
  { r with
    ss := l.exec.ss
    cs := l.exec.cs
    ds := l.exec.ds
    es := l.exec.ds
    fs := l.exec.ds
    esp := BitVec.ofNat 32 (l.exec.stackLow + l.exec.stackSize)
    edx := BitVec.ofNat 32 l.exec.stackLow
    ebp := l.pid.signExtend 32 }

/-- What `setup_startup_context` does with the data segment's descriptor at hand. -/
def setupData (host : Host) (dataSd : SegmentDescriptor) (l : Launch) : LaunchM Unit := do
  match l.exec.bits with
  | .b16 => onStarting (l.magicInput.setupMagic16 host dataSd)
  | .b32 => onStarting (l.magicInput.setupMagic host dataSd)
  onStarting (inSpace (StartupInput.createTimeSegment host))
  let strings ← onStarting (onSbrk (l.layoutStrings host))
  setRegs fun r => { r with edi := BitVec.ofNat 32 strings.spawn }
  if l.exec.bits = .b32 then l.pushArguments strings
  l.setEntry
  onStarting (inSpace (Space.updateDescriptors dataSd))
  setBreak

/-- `Process::setup_startup_context`. -/
def setupStartupContext (host : Host) (l : Launch) : EnterM Unit := do
  if l.exec.entry = 0 ∨ l.exec.cs = 0 ∨ l.exec.ds = 0 then
    throw (.fault (.guestState "Loading incomplete"))
  else do
    modify fun s => { s with regs := l.initialRegs s.regs }
    match (← get).space.descriptorBySelector l.exec.ss with
    | none =>
      throw (.fault (.guestState "Guest does not seem to be loaded properly (no data segment)"))
    | some dataSd =>
      EStateM.zoom (fun s => ⟨⟨s.space, dataSd.seg, l.exec.heapStart, 2 ^ 32 - 1⟩, s.regs⟩)
        (fun t _ => ⟨t.starting.space, t.regs⟩) (l.setupData host dataSd)

end Launch

end Qine
