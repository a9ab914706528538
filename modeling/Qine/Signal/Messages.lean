import Qine.Msg.Write
import Qine.Signal.Emu

/-!
# Signal messages

A guest registers handlers, raises signals at itself and changes its mask with messages to the
process manager (`main_handler.cpp`), and the host interrupts it with signals of its own
(`handler_generic`). A message handler may fault on the guest's buffers at any point; the dispatcher
turns that into an error code, with everything done so far still done. So what such a routine leaves
behind is stated for both ways it can end (`EStateM.Leaves`), and put together along its statements
(`Leaves.bind`).
-/

namespace Qine

/-! ## Requests and replies -/

/-- `QnxMsg::proc::signal_request`, the fields the handlers look at. -/
structure SignalRequest where
  signum : BitVec 16
  mask : BitVec 32
  bits : BitVec 32
  offset : BitVec 32
  segment : BitVec 16
  deriving DecidableEq, Repr

/-- `sizeof(QnxMsg::proc::signal_request)`; the structure is packed. -/
def SignalRequest.size : Nat := 24

/-- The packed request. -/
def SignalRequest.ofBytes (bs : List Byte) : SignalRequest where
  signum := BitVec.ofNat 16 (leNat ((bs.drop 4).take 2))
  mask := BitVec.ofNat 32 (leNat ((bs.drop 10).take 4))
  bits := BitVec.ofNat 32 (leNat ((bs.drop 14).take 4))
  offset := BitVec.ofNat 32 (leNat ((bs.drop 18).take 4))
  segment := BitVec.ofNat 16 (leNat ((bs.drop 22).take 2))

/-- The handler a request names. -/
def SignalRequest.handler (req : SignalRequest) : FarPointer := ⟨req.segment, req.offset⟩

/-- `QnxMsg::proc::signal_reply`. -/
structure SignalReply where
  status : BitVec 16
  oldBits : BitVec 32
  newBits : BitVec 32
  deriving DecidableEq, Repr

/-- The packed reply, with two bytes of padding after the status. -/
def SignalReply.toBytes (r : SignalReply) : List Byte :=
  leBytes 2 r.status.toNat ++ leBytes 2 0 ++ leBytes 4 r.oldBits.toNat ++ leBytes 4 r.newBits.toNat

/-- What a host system call answered. -/
structure HostCall where
  result : Int
  errno : Int
  deriving DecidableEq, Repr

variable (p : Process)

/-- `read_type` of a signal request. -/
def SignalRequest.read (m : Mem) (msg : Msg) : Except Fault SignalRequest := do
  let bytes ← msg.read p m 0 SignalRequest.size
  return .ofBytes bytes

/-- `write_type` of a signal reply. -/
def writeReply (msg : Msg) (reply : SignalReply) : EmuM Unit := do
  let _ ← EmuM.onMem (msg.write p 0 reply.toBytes)

/-! ## The emulator's side -/

namespace Emu

/-- What `signal_sigact` stores for a handler: a near pointer, or a `FarPointer16` with the offset in
the lower half. -/
def storedHandler (bits : Bitness) (handler : FarPointer) : BitVec 32 :=
  match bits with
  | .b32 => handler.offset
  | .b16 => handler.segment ++ handler.offset.setWidth 16

/-- Fill in a table entry. -/
def storeAction (bits : Bitness) (si : Nat) (handler : FarPointer) (mask : BitVec 32) (m : Mem) :
    Mem :=
  let m := m.storeWord 2 (si + Sigaction.flags) 0
  let m := m.storeWord 4 si (storedHandler bits handler)
  m.storeWord 4 (si + Sigaction.mask) mask

/-- `Emu::signal_sigact`; `host` is what the host's `sigaction` answers. -/
def signalSigact (host : HostCall) (qnxSig : Nat) (handler : FarPointer) (mask : BitVec 32) :
    EmuM Int := do
  if handler.offset = qsigHold then
    let sigmask ← EStateM.ofExcept ((← get).sigmask.setQnxSig qnxSig)
    modify fun s => { s with sigmask := sigmask }
    return qeok
  else
    match QnxSigset.mapSigQnxToHost qnxSig with
    | none => return qeinval
    | some hostSig =>
      if hostSig ≠ QnxSigset.hostSigsegv ∧ host.result ≠ 0 then
        return mapErrno host.result
      else
        let si ← EStateM.ofExcept (qnxSigtab p qnxSig)
        EmuM.setMem (storeAction p.bits si handler mask)
        return qeok

/-- `Emu::signal_raise`. -/
def signalRaise (qnxSig : Nat) : EmuM Unit := do
  let sigpend ← EStateM.ofExcept ((← get).sigpend.setQnxSig qnxSig)
  modify fun s => { s with sigpend := sigpend }

/-- `Emu::signal_mask`. -/
def signalMask (changeMask bits : BitVec 32) : EmuM Unit :=
  modify fun s => { s with sigmask := s.sigmask.modify ⟨changeMask⟩ ⟨bits⟩ }

/-- `Emu::signal_getmask`. -/
def signalGetmask : EmuM (BitVec 32) := do
  return (← get).sigmask.value

/-- `Emu::handler_generic`. -/
def handlerGeneric (now : Timespec) (sig : Nat) : EmuM Unit := do
  match QnxSigset.mapSigHostToQnx sig with
  | none => throw (.guestState "Received signal, it is registered, but not QNX signal.")
  | some qnxSig =>
    signalRaise qnxSig
    signalTail p now

/-- The `catch` of `dispatch_syscall` and `dispatch_syscall16`, with `set_syscall_error`. -/
def catchSegfault (x : EmuM Unit) : EmuM Unit :=
  tryCatch x fun e =>
    match e with
    | .segmentationFault _ =>
      EmuM.setRegs fun r => { r with eax := BitVec.ofInt 32 qefault, eflags := r.eflags ||| 1 }
    | e => throw e

/-- A message as the dispatcher sees it: its handler, then `set_syscall_ok`. -/
def sendmx (handler : EmuM Unit) : EmuM Unit :=
  catchSegfault do
    handler
    EmuM.setRegs fun r => { r with eax := BitVec.ofInt 32 qeok }

end Emu

/-! ## The process manager's side -/

namespace MainHandler

/-- `MainHandler::proc_sigact`. -/
def procSigact (host : HostCall) (msg : Msg) : EmuM Unit := do
  let req ← EStateM.ofExcept (SignalRequest.read p (← get).mem msg)
  let r ← Emu.signalSigact p host req.signum.toNat req.handler req.mask
  let status := if r < 0 then mapErrno host.errno else qeok
  writeReply p msg ⟨BitVec.ofInt 16 status, 0, 0⟩

/-- `MainHandler::proc_sigraise`. -/
def procSigraise (msg : Msg) : EmuM Unit := do
  let req ← EStateM.ofExcept (SignalRequest.read p (← get).mem msg)
  Emu.signalRaise req.signum.toNat
  writeReply p msg ⟨0, 0, 0⟩

/-- `MainHandler::proc_sigmask`. -/
def procSigmask (msg : Msg) : EmuM Unit := do
  let req ← EStateM.ofExcept (SignalRequest.read p (← get).mem msg)
  let oldBits ← Emu.signalGetmask
  Emu.signalMask req.mask req.bits
  let newBits ← Emu.signalGetmask
  writeReply p msg ⟨0, oldBits, newBits⟩

end MainHandler
end Qine
