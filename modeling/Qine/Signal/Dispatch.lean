import Qine.Pid.Calls

/-!
# Traps

A guest enters the emulator by executing `int 0xF2`, `int 0xF1` or `int 0xF0` (`emu.cpp`). The
instruction faults, `handler_segv` recognises it and calls one of three dispatchers.

Everything a dispatcher looks at is chosen by the guest, and addresses are followed through
`translate_segmented`, which throws. A `SegmentationFault` must not get out of the dispatcher: there is
nobody above `handler_segv` to catch it. `bad_pointers_efault_iff` says when it does not.

What happens to a message once its header has been read is a parameter (`DispatchHost.receive`), and
so are the answers of the host.
-/

namespace Qine

/-- `Qnx::QSIGSEGV`. -/
def qsigsegv : Nat := 11

/-! ## Registers -/

/-- The segment registers that `ExtraContext` moves. -/
structure ExtraContext where
  ds : BitVec 16
  es : BitVec 16
  fs : BitVec 16
  gs : BitVec 16
  deriving DecidableEq, Repr

namespace Registers

/-- `ExtraContext::from_cpu`. -/
def fromCpu (r : Registers) (cpu : ExtraContext) : Registers :=
  { r with ds := cpu.ds, es := cpu.es, ectxFs := cpu.fs, ectxGs := cpu.gs }

/-- `ExtraContext::to_cpu`: what the segment registers hold after it. -/
def toCpu (r : Registers) : ExtraContext := ⟨r.ds, r.es, r.ectxFs, r.ectxGs⟩

/-- `GuestContext::reg_al`. -/
def al (r : Registers) : BitVec 8 := r.eax.setWidth 8

/-- `GuestContext::reg_ah`. -/
def ah (r : Registers) : BitVec 8 := (r.eax >>> 8).setWidth 8

/-- `GuestContext::reg_ch`. -/
def ch (r : Registers) : BitVec 8 := (r.ecx >>> 8).setWidth 8

end Registers

namespace GuestContext

/-- `GuestContext::set_syscall_error`. -/
def setSyscallError (errno : Int) : EmuM Unit :=
  EmuM.setRegs fun r => { r with eax := BitVec.ofInt 32 errno, eflags := r.eflags ||| 1 }

/-- `GuestContext::set_syscall_ok`. The carry flag stays as it was. -/
def setSyscallOk : EmuM Unit := EmuM.setRegs fun r => { r with eax := BitVec.ofInt 32 qeok }

/-- `GuestContext::read_stack16`. -/
def readStack16 (p : Process) (offset count : Nat) : EmuM (List (BitVec 16)) := do
  let s ← get
  let linear ← EStateM.ofExcept (p.translateSegmented
    ⟨s.regs.ss, s.regs.esp + BitVec.ofNat 32 (offset * 2)⟩ (BitVec.ofNat 32 (count * 2)))
  return s.mem.loadWords 2 linear count

end GuestContext

/-! ## Messages -/

/-- `m_via_fd` of a message, with `m_fd` or `m_pid`. -/
inductive Via where
  | fd (fd : Int)
  | pid (pid : Int)
  deriving DecidableEq, Repr

/-- `MsgContext`. -/
structure MsgContext where
  msg : Msg
  via : Via
  deriving DecidableEq, Repr

/-- What the dispatchers rely on. -/
structure DispatchHost where
  /-- `MainHandler::receive` -/
  receive : MsgContext → EmuM Unit
  pids : PidMap
  pidHost : PidHost
  /-- `Process::pid` -/
  pid : Int

/-- A host that answers nothing. -/
def DispatchHost.silent : DispatchHost where
  receive _ := pure ()
  pids := .init
  pidHost := .silent
  pid := 10

/-- `sizeof(Qnx::MsgHeader)`. -/
def msgHeaderSize : Nat := 4

variable (p : Process) (host : DispatchHost)

/-- `Process::handle_msg`. It reads the header for the log. -/
def handleMsg (i : MsgContext) : EmuM Unit := do
  let _ ← EStateM.ofExcept (i.msg.read p (← get).mem 0 msgHeaderSize)
  host.receive i

namespace Emu

/-- What the four ways to send a message have in common. -/
def sendMsg (via : Via) (sendParts : Nat) (send : FarPointer) (rcvParts : Nat) (rcv : FarPointer)
    (bits : Bitness) : EmuM Unit := do
  let msg ← EStateM.ofExcept (Msg.make p (← get).mem sendParts send rcvParts rcv bits)
  handleMsg p host ⟨msg, via⟩
  GuestContext.setSyscallOk

/-- The registers of a 32-bit message. -/
def sendRegs (via : Registers → Via) : EmuM Unit := do
  let r := (← get).regs
  sendMsg p host (via r) r.ah.toNat ⟨r.ds, r.ebx⟩ r.ch.toNat ⟨r.ds, r.esi⟩ .b32

/-- `Emu::syscall_sendmx`. -/
def syscallSendmx : EmuM Unit := sendRegs p host fun r => .pid r.edx.toInt

/-- `Emu::syscall_sendfdmx`. -/
def syscallSendfdmx : EmuM Unit := sendRegs p host fun r => .fd r.edx.toInt

/-- The stack words of a 16-bit message. -/
def sendArgs (via : Int → Via) : EmuM Unit := do
  let args ← GuestContext.readStack16 p 1 7
  let arg (i : Nat) : BitVec 16 := args.getD i 0
  sendMsg p host (via (arg 0).toNat) ((arg 1).setWidth 8).toNat ⟨arg 4, (arg 3).setWidth 32⟩
    ((arg 2).setWidth 8).toNat ⟨arg 6, (arg 5).setWidth 32⟩ .b16

/-- `Emu::syscall16_sendmx`. -/
def syscall16Sendmx : EmuM Unit := sendArgs p host .pid

/-- `Emu::syscall16_sendfdmx`. -/
def syscall16Sendfdmx : EmuM Unit := sendArgs p host .fd

/-- `Emu::syscall_receivmx`. -/
def syscallReceivmx : EmuM Unit := do
  let pid := (← get).regs.edx.toInt
  if pid = host.pid ∨ pid = 1 ∨ pid = 0 then
    -- `pause`
    GuestContext.setSyscallError qeintr
  else
    GuestContext.setSyscallError qesrch

/-- `Emu::syscall16_receivmx`, which is the same. -/
def syscall16Receivmx : EmuM Unit := syscallReceivmx host

/-- `Emu::syscall_priority`. -/
def syscallPriority : EmuM Unit := GuestContext.setSyscallOk

/-- `Emu::syscall_yield`. -/
def syscallYield : EmuM Unit := GuestContext.setSyscallOk

/-- `Emu::syscall_kill`. -/
def syscallKill : EmuM Unit := do
  let r := (← get).regs
  match (Emu.kill host.pidHost r.ebx r.edx).run ⟨host.pids, []⟩ with
  | .error e _ => throw e
  | .ok (.error errno) _ => GuestContext.setSyscallError errno
  | .ok .ok _ => GuestContext.setSyscallOk

/-! ## Dispatchers -/

/-- The system calls of `dispatch_syscall`. -/
def syscalls : EmuM Unit := do
  match (← get).regs.al.toNat with
  | 0 => syscallSendmx p host
  | 1 => syscallReceivmx host
  | 7 => syscallSigreturn p
  | 8 => syscallPriority
  | 10 => syscallYield
  | 11 => syscallSendfdmx p host
  | 14 => syscallKill host
  | _ => GuestContext.setSyscallError qenosys

/-- `Emu::dispatch_syscall`. -/
def dispatchSyscall : EmuM Unit := catchSegfault (syscalls p host)

/-- `sizeof(Qnx::sem_t)`; the value comes first. -/
def semSize : Nat := 8

/-- `Emu::dispatch_syscall_sem`. -/
def dispatchSyscallSem : EmuM Unit := do
  let s ← get
  let r := s.regs
  let sem ← EStateM.ofExcept (p.translateSegmented ⟨r.ds, r.eax⟩ (BitVec.ofNat 32 semSize))
  let value : BitVec 32 := s.mem.loadWord 4 sem
  if r.ebx = 0 then
    -- post
    EmuM.setMem (·.storeWord 4 sem (value + 1))
    GuestContext.setSyscallOk
  else if r.ebx = 1 then
    -- wait
    if value = 0 then GuestContext.setSyscallError qedeadlk
    else
      EmuM.setMem (·.storeWord 4 sem (value - 1))
      GuestContext.setSyscallOk
  else if r.ebx = 2 then
    -- try_wait
    if value = 0 then GuestContext.setSyscallError qeagain
    else
      GuestContext.setSyscallOk
      EmuM.setMem (·.storeWord 4 sem (value - 1))
  else
    GuestContext.setSyscallError qenosys

/-- The system calls of `dispatch_syscall16`. -/
def syscalls16 (syscall : BitVec 16) : EmuM Unit :=
  match syscall.toNat with
  | 0 => syscall16Sendmx p host
  | 1 => syscall16Receivmx host
  | 7 => syscall16Sigreturn p
  | 8 => syscallPriority
  | 10 => syscallYield
  | 11 => syscall16Sendfdmx p host
  | _ => GuestContext.setSyscallError qenosys

/-- The system call number that `dispatch_syscall16` reads. -/
def syscall16Number : EmuM (BitVec 16) := do
  let s ← get
  let linear ← EStateM.ofExcept (p.translateSegmented ⟨s.regs.ss, s.regs.esp⟩ 2)
  return s.mem.loadWord 2 linear

/-- `Emu::dispatch_syscall16`. The number is read in front of the `try`. -/
def dispatchSyscall16 : EmuM Unit := do
  let syscall ← syscall16Number p
  catchSegfault (syscalls16 p host syscall)

/-! ## Bad pointers -/

/-- The three traps, with their dispatchers. -/
inductive Trap where
  | int0xF2
  | int0xF1
  | int0xF0
  deriving DecidableEq, Repr

/-- The dispatcher of a trap. -/
def Trap.dispatch : Trap → EmuM Unit
  | .int0xF2 => dispatchSyscall p host
  | .int0xF1 => dispatchSyscallSem p
  | .int0xF0 => dispatchSyscall16 p host

/-- What the dispatcher does, without its `catch`. -/
def Trap.body : Trap → EmuM Unit
  | .int0xF2 => syscalls p host
  | .int0xF1 => dispatchSyscallSem p
  | .int0xF0 => do
    let syscall ← syscall16Number p
    syscalls16 p host syscall

/-- On the way through the dispatcher an address is followed that does not lead into a segment: a
translation throws. -/
def Trap.FollowsBad (trap : Trap) (s : Machine) : Prop :=
  ∃ what s', (trap.body p host).run s = .error (.segmentationFault what) s'

/-- The answer to a bad address: the error code, and the carry flag. -/
def Answered (s : Machine) : Prop :=
  s.regs.eax = BitVec.ofInt 32 qefault ∧ s.regs.eflags &&& 1 = 1

/-- A bad address is answered, and the exception does not get out. -/
structure Trap.Contains (trap : Trap) (s : Machine) : Prop where
  answers : trap.FollowsBad p host s → ∃ s', (trap.dispatch p host).run s = .ok () s' ∧ Answered s'
  catches : ∀ what s', (trap.dispatch p host).run s ≠ .error (.segmentationFault what) s'

/-- The addresses that are followed outside of a `try` are good. -/
def Trap.Guarded : Trap → Machine → Prop
  | .int0xF2, _ => True
  | .int0xF1, s =>
    ∃ a, p.translateSegmented ⟨s.regs.ds, s.regs.eax⟩ (BitVec.ofNat 32 semSize) = .ok a
  | .int0xF0, s => ∃ a, p.translateSegmented ⟨s.regs.ss, s.regs.esp⟩ 2 = .ok a

variable {p host} {s s' : Machine}

/-- What the `catch` makes of a segmentation fault. -/
theorem catchSegfault_answers {x : EmuM Unit} {what : String}
    (h : x.run s = .error (.segmentationFault what) s') :
    ∃ s₁, (catchSegfault x).run s = .ok () s₁ ∧ Answered s₁ := by
  unfold catchSegfault
  rw [EStateM.run_catch, h]
  refine ⟨_, rfl, rfl, ?_⟩
  show (s'.regs.eflags ||| 1) &&& 1 = 1
  grind

/-- No segmentation fault gets past the `catch`. -/
theorem catchSegfault_catches {x : EmuM Unit} {what : String} :
    (catchSegfault x).run s ≠ .error (.segmentationFault what) s' := by
  unfold catchSegfault
  rw [EStateM.run_catch]
  intro h
  split at h
  · cases h
  · next e s₁ hx =>
      split at h
      · cases h
      · next hne =>
          cases h
          exact hne what rfl

/-- Without a bad address in front of it, the rest of a dispatcher is inside the `catch`. -/
theorem dispatchSyscall16_contains {syscall : BitVec 16}
    (hnumber : (syscall16Number p).run s = .ok syscall s) :
    Trap.int0xF0.Contains p host s := by
  have hbody : (Trap.int0xF0.body p host).run s = (syscalls16 p host syscall).run s :=
    EStateM.run_bind_of_ok hnumber
  have hrun : (Trap.int0xF0.dispatch p host).run s =
      (catchSegfault (syscalls16 p host syscall)).run s := EStateM.run_bind_of_ok hnumber
  refine ⟨?_, ?_⟩
  · rintro ⟨what, s', h⟩
    rw [hrun]
    exact catchSegfault_answers (hbody.symm.trans h)
  · intro what s'
    rw [hrun]
    exact catchSegfault_catches

theorem translate_error {ptr : FarPointer} {size : BitVec 32}
    (h : ¬ ∃ a, p.translateSegmented ptr size = .ok a) :
    ∃ what, p.translateSegmented ptr size = .error (.segmentationFault what) := by
  cases hres : p.translateSegmented ptr size with
  | ok a => exact absurd ⟨a, hres⟩ h
  | error e =>
      unfold Process.translateSegmented at hres
      split at hres
      · cases hres
        exact ⟨_, rfl⟩
      · split at hres
        · cases hres
        · cases hres
          exact ⟨_, rfl⟩

theorem dispatchSyscallSem_error {e : Fault}
    (h : p.translateSegmented ⟨s.regs.ds, s.regs.eax⟩ (BitVec.ofNat 32 semSize) = .error e) :
    (dispatchSyscallSem p).run s = .error e s := by
  unfold dispatchSyscallSem
  rw [EStateM.run_get_bind]
  dsimp only
  rw [h]
  rfl

theorem dispatchSyscall16_error {e : Fault}
    (h : p.translateSegmented ⟨s.regs.ss, s.regs.esp⟩ 2 = .error e) :
    (dispatchSyscall16 p host).run s = .error e s := by
  have hnumber : (syscall16Number p).run s = .error e s := by
    unfold syscall16Number
    rw [EStateM.run_get_bind, h]
    rfl
  unfold dispatchSyscall16
  rw [EStateM.run_bind, hnumber]

/-- A semaphore that can be reached is served. -/
theorem dispatchSyscallSem_returns {sem : Nat}
    (h : p.translateSegmented ⟨s.regs.ds, s.regs.eax⟩ (BitVec.ofNat 32 semSize) = .ok sem) :
    ∃ s', (dispatchSyscallSem p).run s = .ok () s' := by
  unfold dispatchSyscallSem
  rw [EStateM.run_get_bind, EStateM.run_ofExcept_bind h]
  dsimp only
  split_ifs
  all_goals exact ⟨_, rfl⟩

/-- Bad guest pointers become `QEFAULT` exactly if the pointers that are followed outside of a `try`
are good: the semaphore of `int 0xF1`, and the system call number of `int 0xF0`. -/
theorem bad_pointers_efault_iff (trap : Trap) (s : Machine) :
    trap.Contains p host s ↔ trap.Guarded p s := by
  cases trap with
  | int0xF2 =>
      refine ⟨fun _ => trivial, fun _ => ⟨?_, ?_⟩⟩
      · rintro ⟨what, s', h⟩
        exact catchSegfault_answers h
      · intro what s'
        exact catchSegfault_catches
  | int0xF1 =>
      refine ⟨?_, ?_⟩
      · intro h
        by_contra hbad
        obtain ⟨what, hwhat⟩ := translate_error hbad
        exact h.catches what s (dispatchSyscallSem_error hwhat)
      · rintro ⟨sem, hsem⟩
        obtain ⟨s₁, hrun⟩ := dispatchSyscallSem_returns hsem
        refine ⟨?_, ?_⟩
        · rintro ⟨what, s', h⟩
          cases hrun.symm.trans h
        · intro what s' h
          cases hrun.symm.trans h
  | int0xF0 =>
      refine ⟨?_, ?_⟩
      · intro h
        by_contra hbad
        obtain ⟨what, hwhat⟩ := translate_error hbad
        exact h.catches what s (dispatchSyscall16_error hwhat)
      · rintro ⟨a, ha⟩
        have hnumber : (syscall16Number p).run s = .ok (s.mem.loadWord 2 a) s := by
          unfold syscall16Number
          rw [EStateM.run_get_bind, EStateM.run_ofExcept_bind ha]
          rfl
        exact dispatchSyscall16_contains hnumber

/-- A semaphore beyond the end of its segment, and a 16-bit system call with its stack pointer there:
both exceptions get out. -/
theorem bad_pointers_escape :
    let host := DispatchHost.silent
    let s := Machine.smallGuest 7 0x1000
    let sem := { s with regs := { s.regs with eax := 0x1000 } }
    (¬ Trap.int0xF1.Contains Process.onePage host sem ∧ ¬ Trap.int0xF0.Contains Process.onePage host s) ∧
      ((Trap.int0xF1.dispatch Process.onePage host).run sem =
          .error (.segmentationFault "address out of segment bounds") sem ∧
        (Trap.int0xF0.dispatch Process.onePage host).run s =
          .error (.segmentationFault "address out of segment bounds") s) := by
  intro host s sem
  have hsem : (Trap.int0xF1.dispatch Process.onePage host).run sem =
      .error (.segmentationFault "address out of segment bounds") sem := by
    apply dispatchSyscallSem_error
    decide
  have hnumber : (Trap.int0xF0.dispatch Process.onePage host).run s =
      .error (.segmentationFault "address out of segment bounds") s := by
    apply dispatchSyscall16_error
    decide
  exact ⟨⟨fun h => h.catches _ _ hsem, fun h => h.catches _ _ hnumber⟩, hsem, hnumber⟩

/-! ## The signal handler -/

variable (p host)

/-- `Emu::handle_guest_segv`. -/
def handleGuestSegv : EmuM Unit := do
  match p.sigtab with
  | none => throw (.assertion "abort()")
  | some sigtab =>
    if isSpecialSighandler ((← get).mem.loadWord 4 (sigactionAt sigtab qsigsegv)) then
      throw (.assertion "abort()")
    else signalRaise qsigsegv

/-- A byte of guest code. -/
def codeByte (s : Machine) (eip : BitVec 32) : Except Fault Byte := do
  let linear ← p.translateSegmented ⟨s.regs.cs, eip⟩ 1
  return s.mem linear

/-- `Emu::matches_syscall` on readable code, with the length of the instruction. -/
def syscallAt (s : Machine) (intNr : Byte) : Except Fault (Option Nat) := do
  let b ← codeByte p s s.regs.eip
  -- skip a prefix
  let (b, eip, len) ← if b = 0x66 then do
      let b ← codeByte p s (s.regs.eip + 1)
      pure (b, s.regs.eip + 1, 1)
    else pure (b, s.regs.eip, 0)
  if b = 0xCD then
    let nr ← codeByte p s (eip + 1)
    return if nr = intNr then some (len + 2) else none
  else return none

/-- `Emu::matches_syscall`. -/
def matchesSyscall (s : Machine) (intNr : Byte) : Option Nat :=
  match syscallAt p s intNr with
  | .ok len => len
  | .error _ => none

/-- `Qnx::MAGIC_PTR_SELECTOR`. -/
def magicPtrSelector : BitVec 16 := 0x78

/-- The selectors of the GDT that a guest has for its magic pointer are moved to the LDT. -/
def migrate (r : Registers) : Registers :=
  { r with
    es := if r.es = magicPtrSelector then magicPtrSelector ||| SegmentDescriptor.selLdt else r.es
    ds := if r.ds = magicPtrSelector then magicPtrSelector ||| SegmentDescriptor.selLdt else r.ds }

/-- The three tests for a system call in `handler_segv`. -/
def trapped : EmuM Bool := do
  let s ← get
  match matchesSyscall p s 0xF2, matchesSyscall p s 0xF1, matchesSyscall p s 0xF0 with
  | some len, _, _ =>
    EmuM.setRegs fun r => { r with eip := r.eip + BitVec.ofNat 32 len }
    dispatchSyscall p host
    return true
  | none, some len, _ =>
    EmuM.setRegs fun r => { r with eip := r.eip + BitVec.ofNat 32 len }
    dispatchSyscallSem p
    return true
  | none, none, some len =>
    EmuM.setRegs fun r => { r with eip := r.eip + BitVec.ofNat 32 len }
    dispatchSyscall16 p host
    return true
  | none, none, none => return false

/-- `signal_tail` with its `to_cpu`: what the segment registers hold when the guest goes on, or `none`
on the way back to host code. -/
def tailToCpu (now : Timespec) : EmuM (Option ExtraContext) := do
  let toGuest := (← get).regs.cs &&& SegmentDescriptor.selLdt ≠ 0
  signalTail p now
  let s ← get
  return if toGuest then some s.regs.toCpu else none

/-- `Emu::handler_segv`, entered with the given segment registers. -/
def handlerSegv (now : Timespec) (siCode : Int) (cpu : ExtraContext) :
    EmuM (Option ExtraContext) := do
  EmuM.setRegs (·.fromCpu cpu)
  if siCode ≤ 0 then
    -- not a real fault, somebody sent the signal
    handleGuestSegv p
    tailToCpu p now
  else if (← get).regs.cs &&& SegmentDescriptor.selLdt = 0 then
    throw (.assertion "abort()")
  else
    let r := (← get).regs
    EmuM.setRegs migrate
    let migrated := r.es = magicPtrSelector ∨ r.ds = magicPtrSelector
    let syscall ← trapped p host
    if ¬ migrated ∧ ¬ syscall then handleGuestSegv p
    tailToCpu p now

end Emu
end Qine
