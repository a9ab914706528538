import Qine.Signal.Context

/-!
# Signal emulation

The host delivers a signal to `handler_segv` or `handler_generic`; on the way back to the guest
`signal_tail` looks for a pending signal that is not masked and, if there is one, builds a frame on
the guest's stack and enters the guest's signal stub. The stub ends in one of the two `sigreturn`
system calls.

`signalTail` follows `Emu::signal_tail` (`emu.cpp`); its second half, from picking the signal on, is
`deliver`. Log output and the dump before an exception are left out.
-/

namespace Qine

/-! ## The guest's signal table -/

/-- `Qnx::QSIG_DFL`. -/
def qsigDfl : BitVec 32 := 0

/-- `Qnx::QSIG_IGN`. -/
def qsigIgn : BitVec 32 := 1

/-- `Qnx::QSIG_HOLD`. -/
def qsigHold : BitVec 32 := 2

/-- `Qnx::QSIG_ERR`. -/
def qsigErr : BitVec 32 := 0xFFFFFFFF

/-- Offsets and sizes of the packed `Qnx::Sigtab` and `Qnx::Sigaction`. -/
def Sigtab.actions : Nat := 4

def Sigaction.size : Nat := 10

def Sigaction.mask : Nat := 4

def Sigaction.flags : Nat := 8

/-- `Qnx::timesel`, by the offsets of its fields. -/
def Timesel.size : Nat := 32

/-- `Timespec`, as `clock_gettime` fills it in. -/
structure Timespec where
  sec : Int
  nsec : Int
  deriving DecidableEq, Repr

namespace Emu

variable (p : Process)

/-- `Emu::is_special_sighandler`. -/
def isSpecialSighandler (handler : BitVec 32) : Bool :=
  handler == qsigDfl || handler == qsigHold || handler == qsigErr || handler == qsigIgn

/-- The host address of the table entry of a signal. -/
def sigactionAt (sigtab signo : Nat) : Nat :=
  sigtab + Sigtab.actions + Sigaction.size * (signo - 1)

/-- `Emu::qnx_sigtab` with `required` set. -/
def qnxSigtab (signo : Nat) : Except Fault Nat :=
  if qsigMin ≤ signo ∧ signo ≤ qsigMax then
    match p.sigtab with
    | none => .error (.guestState "Sigtab not registered")
    | some sigtab => .ok (sigactionAt sigtab signo)
  else
    .error (.assertion "qnx_signo >= Qnx::QSIGMIN && qnx_signo <= Qnx::QSIGMAX")

/-- `Emu::sync_host_sigmask`. -/
def syncHostSigmask : EmuM Unit :=
  modify fun s => { s with savedSigmask := s.sigmask.mapToHostSigset.erase QnxSigset.hostSigsegv }

/-- What `Process::update_timesel` stores at the time structure `t`. -/
def storeTimesel (now : Timespec) (t : Nat) (m : Mem) : Mem :=
  let seconds : BitVec 32 := BitVec.ofInt 32 now.sec
  let cycles : Int := seconds.toInt * 1000 + (now.nsec.tdiv 1000).tdiv 1000
  let m := m.storeWord 4 (t + 24) 0                               -- cnt8254
  let m := m.storeWord 4 (t + 4) seconds                          -- seconds
  let m := m.storeWord 4 t (BitVec.ofInt 32 now.nsec)             -- nsec
  let m := m.storeWord 4 (t + 8) 0                                -- nsec_inc
  let m := m.storeWord 4 (t + 12) 1000                            -- cycles_per_sec
  let m := m.storeWord 4 (t + 16) (BitVec.ofInt 32 cycles)        -- cycle_lo
  m.storeWord 4 (t + 20) (BitVec.ofInt 32 (cycles / 2 ^ 32))      -- cycle_hi

/-- `Process::update_timesel`. -/
def updateTimesel (now : Timespec) : EmuM Unit := do
  let seg := p.segments p.timeSegment
  if seg.checkBounds 0 Timesel.size then EmuM.setMem (storeTimesel now (seg.pointer 0))
  else throw (.assertion "check_bounds(offset, size)")

/-- `Emu::REDLINE`. -/
def redline : BitVec 32 := 128

/-- The arguments of the signal stub, and where it is entered. -/
def enterStub (sigtab act signo : Nat) : EmuM Unit := do
  match p.bits with
  | .b32 =>
    GuestContext.pushStack p 0 -- unknown
    GuestContext.pushStack p (BitVec.ofNat 32 signo)
    GuestContext.pushStack p ((← get).mem.loadWord 4 act)
    let sigstub : BitVec 32 := (← get).mem.loadWord 4 sigtab
    EmuM.setRegs fun r => { r with cs := p.loadExecCs, eip := sigstub }
  | .b16 =>
    GuestContext.pushStack16 p (BitVec.ofNat 16 signo)
    -- a `FarPointer16` is stored with the offset first
    let offset : BitVec 16 := (← get).mem.loadWord 2 sigtab
    let segment : BitVec 16 := (← get).mem.loadWord 2 (sigtab + 2)
    EmuM.setRegs fun r => { r with cs := segment, eip := offset.setWidth 32 }

/-- The frame of a signal: the interrupted context below the red zone, the old mask, and the
arguments of the stub. -/
def pushFrame (sigtab act signo : Nat) (saveSigmask : QnxSigset) : EmuM Unit := do
  EmuM.setRegs fun r => r.withEsp (r.esp - redline)
  GuestContext.saveContext p
  GuestContext.pushStack p saveSigmask.value
  enterStub p sigtab act signo

/-- Block the signals of the action and enter its handler. -/
def startHandler (act signo : Nat) : EmuM Unit := do
  let saveSigmask := (← get).sigmask
  let actMask : BitVec 32 := (← get).mem.loadWord 4 (act + Sigaction.mask)
  let sigmask ← EStateM.ofExcept ((QnxSigset.mk (saveSigmask.value ||| actMask)).setQnxSig signo)
  modify fun s => { s with sigmask := sigmask }
  syncHostSigmask
  match p.sigtab with
  | some sigtab => pushFrame p sigtab act signo saveSigmask
  | none => throw .nullPointer

/-- The exception that is not supposed to happen. -/
def handlerNotRegistered : Fault :=
  .guestState "Received signal, but handler not registered -- should not happen"

/-- `Emu::signal_tail` from the picked signal on. -/
def deliver (signo : Nat) : EmuM Unit := do
  let sigpend ← EStateM.ofExcept ((← get).sigpend.clearQnxSig signo)
  modify fun s => { s with sigpend := sigpend }
  let act ← EStateM.ofExcept (qnxSigtab p signo)
  if isSpecialSighandler ((← get).mem.loadWord 4 act) then throw handlerNotRegistered
  else startHandler p act signo

/-- The pending signals that are not masked. -/
def activesig (s : Machine) : QnxSigset := s.sigpend.modify s.sigmask .empty

/-- `Emu::signal_tail`. -/
def signalTail (now : Timespec) : EmuM Unit := do
  updateTimesel p now
  let s ← get
  -- returning to host code: nothing special
  if s.regs.cs &&& SegmentDescriptor.selLdt = 0 then return
  if (activesig s).isEmpty then
    syncHostSigmask
  else
    match (activesig s).findFirst with
    | some signo => deliver p signo
    -- `find_first` would answer -1, which `clear_qnx_sig` does not take
    | none => throw (.assertion "signo >= Qnx::QSIGMIN && signo <= Qnx::QSIGMAX")

/-- `Emu::syscall_sigreturn`. -/
def syscallSigreturn : EmuM Unit := do
  let mask ← GuestContext.popStack p
  modify fun s => { s with sigmask := ⟨mask⟩ }
  GuestContext.restoreContext p
  EmuM.setRegs fun r => r.withEsp (r.esp + redline)

/-- `Emu::syscall16_sigreturn`. -/
def syscall16Sigreturn : EmuM Unit := do
  -- throw away the syscall number
  let _ ← GuestContext.popStack16 p
  let mask ← GuestContext.popStack p
  modify fun s => { s with sigmask := ⟨mask⟩ }
  GuestContext.restoreContext p
  EmuM.setRegs fun r => r.withEsp (r.esp + redline)

/-! ## What a frame looks like -/

variable {p} {s s' : Machine} {now : Timespec} {signo sigtab act : Nat}

/-- How many bytes of arguments the stub gets. -/
def argBytes : Bitness → Nat
  | .b32 => 12
  | .b16 => 2

/-- Pushing the stub's arguments touches the bytes just below the stack pointer only. -/
structure ArgsPushed (p : Process) (s s' : Machine) : Prop where
  room : argBytes p.bits ≤ s.regs.esp.toNat
  below : p.Accessible s.regs.ss (s.regs.esp.toNat - 2) 2
  unchanged : ∀ x, x < p.baseOf s.regs.ss + s.regs.esp.toNat - argBytes p.bits ∨
    p.baseOf s.regs.ss + s.regs.esp.toNat ≤ x → s'.mem x = s.mem x
  sigpend : s'.sigpend = s.sigpend
  sigmask : s'.sigmask = s.sigmask
  savedSigmask : s'.savedSigmask = s.savedSigmask

theorem enterStub_ok (h : (enterStub p sigtab act signo).run s = .ok () s') : ArgsPushed p s s' := by
  unfold enterStub at h
  cases hbits : p.bits with
  | b32 =>
      rw [hbits] at h
      simp only [EStateM.bind_ok, EStateM.get_ok, EmuM.setRegs_ok, and_assoc, exists_and_left,
        exists_eq_left'] at h
      obtain ⟨⟨⟩, s₁, h₁, ⟨⟩, s₂, h₂, ⟨⟩, s₃, h₃, rfl⟩ := h
      have hpushes : (forM [0, BitVec.ofNat 32 signo, s₂.mem.loadWord 4 act]
          (GuestContext.pushStack p)).run s = .ok () s₃ :=
        EStateM.bind_ok.mpr ⟨(), s₁, h₁, EStateM.bind_ok.mpr ⟨(), s₂, h₂,
          EStateM.bind_ok.mpr ⟨(), s₃, h₃, rfl⟩⟩⟩
      obtain ⟨hroom, hacc, rfl⟩ := GuestContext.pushAll_ok hpushes
      refine ⟨?_, ?_, ?_, rfl, rfl, rfl⟩
      · rw [hbits]
        exact hroom
      · -- the upper half of the first argument
        have hfirst : p.Accessible s.regs.ss (s.regs.esp.toNat - 4) 4 := hacc 0 (by simp)
        have hroom' : 4 * 3 ≤ s.regs.esp.toNat := hroom
        have hlt := s.regs.esp.isLt
        have hoff : s.regs.esp.toNat - 2 = s.regs.esp.toNat - 4 + 2 := by omega
        rw [hoff]
        exact hfirst.mono (by omega) (by decide) (by decide) (by decide)
      · intro x hx
        rw [hbits] at hx
        exact Memory.pushWords_of_not_mem (le_trans hroom (Nat.le_add_left _ _)) hx
  | b16 =>
      rw [hbits] at h
      simp only [EStateM.bind_ok, EStateM.get_ok, EmuM.setRegs_ok, and_assoc, exists_and_left,
        exists_eq_left'] at h
      obtain ⟨⟨⟩, s₁, h₁, rfl⟩ := h
      obtain ⟨hroom, hacc, rfl⟩ := GuestContext.pushStack16_ok h₁
      refine ⟨?_, hacc, ?_, rfl, rfl, rfl⟩
      · rw [hbits]
        exact hroom
      · intro x hx
        rw [hbits] at hx
        apply Memory.storeWord_of_not_mem
        simp only [argBytes] at hx
        omega

/-- The size of the saved context with the mask below it: sixteen words. -/
def frameBytes : Nat := 64

/-- What `signal_tail` leaves on the guest's stack, from the red zone downwards: the interrupted
context and the old mask, readable where they were stored, and the stub's arguments. -/
structure FramePushed (p : Process) (saveSigmask : QnxSigset) (s s' : Machine) : Prop where
  room : 192 + argBytes p.bits ≤ s.regs.esp.toNat
  accessible : ∀ k < 16, p.Accessible s.regs.ss (s.regs.esp.toNat - 192 + 4 * k) 4
  below : p.Accessible s.regs.ss (s.regs.esp.toNat - 192 - 2) 2
  words : s'.mem.loadWords 4 (p.baseOf s.regs.ss + (s.regs.esp.toNat - 192)) 16 =
    saveSigmask.value ::
      (GuestContext.savedWords (s.regs.withEsp (s.regs.esp - redline))).reverse
  unchanged : ∀ x, x < p.baseOf s.regs.ss + (s.regs.esp.toNat - 192) - argBytes p.bits ∨
    p.baseOf s.regs.ss + (s.regs.esp.toNat - 128) ≤ x → s'.mem x = s.mem x
  sigpend : s'.sigpend = s.sigpend
  sigmask : s'.sigmask = s.sigmask
  savedSigmask : s'.savedSigmask = s.savedSigmask

theorem pushFrame_ok {saveSigmask : QnxSigset}
    (h : (pushFrame p sigtab act signo saveSigmask).run s = .ok () s') :
    FramePushed p saveSigmask s s' := by
  simp only [pushFrame, EStateM.bind_ok, EmuM.setRegs_ok, exists_eq_left'] at h
  obtain ⟨-, ⟨⟩, s₁, h₁, ⟨⟩, s₂, h₂, hargs⟩ := h
  obtain ⟨hroom, htop, hacc, hs₂⟩ := GuestContext.pushContext_ok h₁ h₂
  simp only [Registers.withEsp_esp, Registers.withEsp_ss, Registers.withEsp_withEsp]
    at hroom htop hacc hs₂
  -- the pushes succeeded, so the red zone did not wrap around
  have hlt := s.regs.esp.isLt
  have hred : (s.regs.esp - redline).toNat = (2 ^ 32 - 128 + s.regs.esp.toNat) % 2 ^ 32 :=
    BitVec.toNat_sub _ _
  have hesp : (s.regs.esp - redline).toNat = s.regs.esp.toNat - 128 := by omega
  rw [hesp] at hroom hacc hs₂
  have hoff : s.regs.esp.toNat - 128 - 64 = s.regs.esp.toNat - 192 := by omega
  rw [hoff] at hacc hs₂
  have hesp₂ : s₂.regs.esp.toNat = s.regs.esp.toNat - 192 := by
    rw [hs₂, Registers.withEsp_esp, BitVec.toNat_ofNat]
    exact Nat.mod_eq_of_lt (by omega)
  have hss₂ : s₂.regs.ss = s.regs.ss := by rw [hs₂, Registers.withEsp_ss]
  have hmem₂ : s₂.mem = s.mem.pushWords 4 (p.baseOf s.regs.ss + (s.regs.esp.toNat - 128))
      (GuestContext.savedWords (s.regs.withEsp (s.regs.esp - redline)) ++ [saveSigmask.value]) := by
    rw [hs₂]
  obtain ⟨haroom, habelow, hasame, hapend, hamask, hasaved⟩ := enterStub_ok hargs
  rw [hesp₂] at haroom
  rw [hesp₂, hss₂] at habelow hasame
  have hlen : (GuestContext.savedWords (s.regs.withEsp (s.regs.esp - redline)) ++
      [saveSigmask.value]).length = 16 := rfl
  refine ⟨by omega, hacc, habelow, ?_, ?_, ?_, ?_, ?_⟩
  · -- the arguments lie below the frame, so they leave it alone
    have hframe : s'.mem.loadWords 4 (p.baseOf s.regs.ss + (s.regs.esp.toNat - 192)) 16 =
        s₂.mem.loadWords 4 (p.baseOf s.regs.ss + (s.regs.esp.toNat - 192)) 16 :=
      Memory.loadWords_congr fun x hx _ => hasame x (Or.inr hx)
    have hdown : p.baseOf s.regs.ss + (s.regs.esp.toNat - 192) =
        p.baseOf s.regs.ss + (s.regs.esp.toNat - 128) - 4 * 16 := by omega
    rw [hframe, hmem₂, hdown, ← hlen, Memory.loadWords_pushWords (by rw [hlen]; omega),
      List.reverse_append]
    rfl
  · intro x hx
    have hmem : s₂.mem x = s.mem x := by
      rw [hmem₂]
      apply Memory.pushWords_of_not_mem
      · rw [hlen]
        omega
      · rw [hlen]
        omega
    rw [hasame x (by omega), hmem]
  · rw [hapend, hs₂]
  · rw [hamask, hs₂]
  · rw [hasaved, hs₂]

/-! ## The steps of `signal_tail` -/

/-- Updating the time changes the time structure only. -/
theorem storeTimesel_of_not_mem {t x : Nat} {m : Mem} (h : x < t ∨ t + Timesel.size ≤ x) :
    storeTimesel now t m x = m x := by
  simp only [Timesel.size] at h
  unfold storeTimesel
  iterate 7 rw [Memory.storeWord_of_not_mem (by omega)]

theorem updateTimesel_ok :
    (updateTimesel p now).run s = .ok () s' ↔
      (p.segments p.timeSegment).checkBounds 0 Timesel.size = true ∧
        { s with mem := storeTimesel now (p.segments p.timeSegment).location s.mem } = s' := by
  unfold updateTimesel
  dsimp only
  split
  · next h =>
      rw [EmuM.setMem_ok]
      simp [h, Segment.pointer]
  · next h => simp [h]

theorem qnxSigtab_eq_ok :
    qnxSigtab p signo = .ok act ↔
      (qsigMin ≤ signo ∧ signo ≤ qsigMax) ∧
        ∃ sigtab, p.sigtab = some sigtab ∧ act = sigactionAt sigtab signo := by
  unfold qnxSigtab
  split
  · next h => cases hp : p.sigtab <;> simp [h, eq_comm]
  · next h => simp [h]

/-- Everything `signal_tail` does for a signal it has picked. -/
theorem deliver_ok (h : (deliver p signo).run s = .ok () s') :
    ∃ sigtab sigpend sigmask, p.sigtab = some sigtab ∧
      s.sigpend.clearQnxSig signo = .ok sigpend ∧
      isSpecialSighandler (s.mem.loadWord 4 (sigactionAt sigtab signo)) = false ∧
      QnxSigset.setQnxSig
        ⟨s.sigmask.value ||| s.mem.loadWord 4 (sigactionAt sigtab signo + Sigaction.mask)⟩ signo =
          .ok sigmask ∧
      (pushFrame p sigtab (sigactionAt sigtab signo) signo s.sigmask).run
        { s with
          sigpend := sigpend
          sigmask := sigmask
          savedSigmask := sigmask.mapToHostSigset.erase QnxSigset.hostSigsegv } = .ok () s' := by
  simp only [deliver, EStateM.bind_ok, EStateM.get_ok, EStateM.modify_ok, EStateM.ofExcept_ok, and_assoc,
    exists_and_left, exists_eq_left', exists_eq_left] at h
  obtain ⟨sigpend, hpend, -, act, hact, h⟩ := h
  obtain ⟨-, sigtab, htab, rfl⟩ := qnxSigtab_eq_ok.mp hact
  split at h
  · simp at h
  · next hspecial =>
      simp only [startHandler, syncHostSigmask, htab, EStateM.bind_ok, EStateM.get_ok, EStateM.modify_ok,
        EStateM.ofExcept_ok, and_assoc, exists_and_left, exists_eq_left', exists_eq_left] at h
      obtain ⟨sigmask, hmask, -, -, hframe⟩ := h
      exact ⟨sigtab, sigpend, sigmask, htab, hpend, by simpa using hspecial, hmask, hframe⟩

/-- What a `signal_tail` that returns can have done. -/
theorem signalTail_ok (h : (signalTail p now).run s = .ok () s') :
    ∃ s₁, (updateTimesel p now).run s = .ok () s₁ ∧
      ((s.regs.cs &&& SegmentDescriptor.selLdt = 0 ∧ s' = s₁) ∨
        (s.regs.cs &&& SegmentDescriptor.selLdt ≠ 0 ∧ (activesig s).isEmpty = true ∧
          s' = { s₁ with
            savedSigmask := s₁.sigmask.mapToHostSigset.erase QnxSigset.hostSigsegv }) ∨
        (s.regs.cs &&& SegmentDescriptor.selLdt ≠ 0 ∧ ∃ signo, (activesig s).findFirst = some signo ∧
          (deliver p signo).run s₁ = .ok () s')) := by
  simp only [signalTail, EStateM.bind_ok, EStateM.get_ok, and_assoc, exists_and_left,
    exists_eq_left'] at h
  obtain ⟨⟨⟩, s₁, htime, h⟩ := h
  refine ⟨s₁, htime, ?_⟩
  obtain ⟨-, rfl⟩ := updateTimesel_ok.mp htime
  split at h
  · next hcs =>
      left
      rw [EStateM.pure_ok] at h
      exact ⟨hcs, h.2.symm⟩
  · next hcs =>
      right
      split at h
      · next hempty =>
          left
          rw [syncHostSigmask, EStateM.modify_ok] at h
          exact ⟨hcs, hempty, h.symm⟩
      · right
        refine ⟨hcs, ?_⟩
        split at h
        · next signo hfind => exact ⟨signo, hfind, h⟩
        · simp at h

/-! ## Returning from a handler -/

/-- A `sigreturn` over the words saved for a mask and registers `r` brings them back. -/
theorem syscallSigreturn_ok {r : Registers} {mask : BitVec 32} (hss : s.regs.ss = r.ss)
    (hacc : ∀ k < 16, p.Accessible s.regs.ss (s.regs.esp.toNat + 4 * k) 4)
    (hws : s.mem.loadWords 4 (p.baseOf s.regs.ss + s.regs.esp.toNat) 16 =
      mask :: (GuestContext.savedWords r).reverse) :
    (syscallSigreturn p).run s = .ok () { s with
      sigmask := ⟨mask⟩
      regs := { r with
        esp := s.regs.esp + 4 + 60 + redline
        fs := s.regs.fs
        ectxFs := s.regs.ectxFs
        ectxGs := s.regs.ectxGs } } := by
  have hacc0 : p.Accessible s.regs.ss s.regs.esp.toNat 4 := hacc 0 (by decide)
  have hesp : (s.regs.esp + 4).toNat = s.regs.esp.toNat + 4 := hacc0.toNat_add (by decide)
  rw [Memory.loadWords] at hws
  obtain ⟨hmask, hws⟩ := List.cons.inj hws
  -- what is left after the mask is popped
  let s₁ : Machine := { s with regs := s.regs.withEsp (s.regs.esp + 4), sigmask := ⟨mask⟩ }
  have haccs : ∀ k < 15, p.Accessible s₁.regs.ss (s₁.regs.esp.toNat + 4 * k) 4 := by
    intro k hk
    have hoff : s₁.regs.esp.toNat + 4 * k = s.regs.esp.toNat + 4 * (k + 1) := by
      show (s.regs.esp + 4).toNat + 4 * k = _
      rw [hesp]
      omega
    rw [hoff]
    exact hacc (k + 1) (by omega)
  have hrest : s₁.mem.loadWords 4 (p.baseOf s₁.regs.ss + s₁.regs.esp.toNat) 15 =
      (GuestContext.savedWords r).reverse := by
    show s.mem.loadWords 4 (p.baseOf s.regs.ss + (s.regs.esp + 4).toNat) 15 = _
    rw [hesp, ← Nat.add_assoc]
    exact hws
  have hrestore := GuestContext.restoreContext_savedWords (s := s₁) hss haccs hrest
  simp only [syscallSigreturn, EStateM.bind_ok, EStateM.modify_ok, EmuM.setRegs_ok]
  refine ⟨mask, { s with regs := s.regs.withEsp (s.regs.esp + 4) }, ?_, (), s₁, rfl, (), _,
    hrestore, ?_⟩
  · rw [GuestContext.popStack_eq hacc0, hmask]
  · rfl

theorem syscall16Sigreturn_eq :
    syscall16Sigreturn p = (do
      let _ ← GuestContext.popStack16 p
      syscallSigreturn p) := rfl

end Emu

/-! ## A small guest -/

/-- A process with a page of data and stack at host address `0x1000`, reached through selector 7,
its signal table at the start of that page, and a time segment at `0x3000`, reached through selector
15 with the access given. -/
def Process.smallGuest (bits : Bitness) (timeAccess : Access) : Process where
  segments i :=
    if i = 0 then ⟨0x1000, 0x1000, 0x1000, 0x1000, false, [true]⟩
    else if i = 1 then ⟨0x3000, 0x1000, 32, 0x1000, false, [true]⟩
    else ⟨0, 0, 0, 0, false, []⟩
  segmentDescriptors := ⟨1024, [some ⟨0, .readWrite, 0, bits⟩, some ⟨1, timeAccess, 1, .b32⟩]⟩
  bits := bits
  loadExecCs := 7
  sigtab := some 0x1000
  timeSegment := 1
  segments_wf i := by
    split
    · exact ⟨by decide, by decide, by decide, by decide, by decide⟩
    · split
      · exact ⟨by decide, by decide, by decide, by decide, by decide⟩
      · exact ⟨by decide, by decide, by decide, by decide, by decide⟩
  segments_apart i j hij := by
    by_cases hi : i = 0
    · by_cases hj : j = 1
      · subst hi hj
        decide
      · rw [if_pos hi, if_neg (by omega), if_neg hj]
        exact Or.inr (by decide)
    · by_cases hi' : i = 1
      · by_cases hj : j = 0
        · subst hi' hj
          decide
        · rw [if_neg hi, if_pos hi', if_neg hj, if_neg (by omega)]
          exact Or.inr (by decide)
      · rw [if_neg hi, if_neg hi']
        exact Or.inl (Nat.zero_le _)

/-- A guest that runs with signals 1 and 2 pending and no signal masked. Its memory is filled with
one byte, so every entry of its signal table names a handler. -/
def Machine.smallGuest (ss : BitVec 16) (esp : BitVec 32) : Machine where
  regs := ⟨1, 2, 3, 4, 5, 6, 7, esp, 8, 9, 7, 0, 0, ss, 7, 7, 0, 0⟩
  mem := fun _ => 5
  sigpend := ⟨3⟩
  sigmask := ⟨0⟩
  savedSigmask := ∅

end Qine
