import Qine.Io.Pipe
import Qine.Qmsg.Dispatch
import Qine.Signal.Dispatch

/-!
# System calls on files

From the instruction in guest code to the host and back: `handler_segv` finds an `int`, a dispatcher makes a message
of what the registers or the stack name, `receive_inner` chooses a handler by the header, the handler calls the host,
and the reply is in guest memory when the guest goes on.

The guest has made a host call by that: the answer is the host's to what is asked for in the message, and of the
guest nothing has changed but the program counter, EAX and the reply area (`syscalls_are_host_calls`).
-/

namespace Qine

variable {φ σ α β : Type}

/-! ## What a handler can touch -/

namespace IoCall

variable {F : φ → HostFile σ} {c : IoCall φ} {m : Mem} {s : IoState φ σ}

/-- Memory in which nothing but the reply area has changed. -/
def Within (c : IoCall φ) (m : Mem) : Prop := Msg.SameOutside c.proc c.entries c.mem m

/-- However the routine ends, nothing but the reply area has changed if that was so before. -/
def Stays (c : IoCall φ) (x : IoM φ σ α) : Prop :=
  ∀ s, c.Within s.mem → x.Leaves s (fun _ s' => c.Within s'.mem) (fun _ s' => c.Within s'.mem)

theorem within_self (c : IoCall φ) : c.Within c.mem := fun _ _ => rfl

/-- The receive entries are not in the reply area. -/
theorem Within.table (h : c.Within m) (hgood : c.Good) : c.msg.rcv.entries m c.msg.rcvParts = c.entries := by
  refine EntryTable.entries_congr hgood.area.apart ?_
  intro x hx
  rw [← named_eq_addrs hgood.area.valid] at hx
  exact h x hx

theorem Within.scatter (h : c.Within m) {as : List Nat} (has : as ⊆ named c.proc c.entries) (bs : List Byte) :
    c.Within (m.scatter as bs) := by
  intro x hx
  rw [Memory.scatter_of_not_mem (fun hmem => hx (has hmem))]
  exact h x hx

theorem stays_pure (a : α) : c.Stays (pure a : IoM φ σ α) := fun _ h => EStateM.leaves_pure h

theorem Stays.bind {x : IoM φ σ α} {k : α → IoM φ σ β} (hx : c.Stays x) (hk : ∀ a, c.Stays (k a)) :
    c.Stays (x >>= k) := fun s h => (hx s h).bind fun a s₁ h₁ => hk a s₁ h₁

theorem stays_ofExcept {x : Except FdError α} : c.Stays (EStateM.ofExcept x : IoM φ σ α) :=
  fun _ h => EStateM.leaves_ofExcept (fun _ _ => h) (fun _ _ => h)

theorem lookMem_error {x : Mem → Except Fault α} {e : Fault} (h : x s.mem = .error e) :
    (IoM.lookMem x : IoM φ σ α).run s = .error (.fault e) s := by
  rw [EStateM.run, IoM.lookMem, h]

theorem onMem_error {x : EStateM Fault Mem α} {e : Fault} (h : x.run s.mem = .error e m) :
    (IoM.onMem x : IoM φ σ α).run s = .error (.fault e) { s with mem := m } := by
  rw [EStateM.run, IoM.onMem, h]

/-- A routine that looks at memory leaves the state as it is. -/
theorem lookMem_leaves {x : Mem → Except Fault α} :
    (IoM.lookMem x : IoM φ σ α).Leaves s (fun a s' => x s.mem = .ok a ∧ s' = s) (fun _ s' => s' = s) := by
  cases hx : x s.mem with
  | ok a => exact EStateM.leaves_of_ok (IoM.lookMem_run hx) ⟨rfl, rfl⟩
  | error e => exact EStateM.leaves_of_error (lookMem_error hx) rfl

theorem onMem_leaves {x : EStateM Fault Mem α} {Q : α → Mem → Prop} {E : Mem → Prop}
    (h : x.Leaves s.mem Q fun _ => E) :
    (IoM.onMem x : IoM φ σ α).Leaves s (fun a s' => Q a s'.mem) (fun _ s' => E s'.mem) := by
  cases hres : x.run s.mem with
  | ok a m => exact EStateM.leaves_of_ok (IoM.onMem_run hres) (h.of_ok hres)
  | error e m => exact EStateM.leaves_of_error (onMem_error hres) (h.of_error hres)

theorem stays_lookMem (x : Mem → Except Fault α) : c.Stays (IoM.lookMem x : IoM φ σ α) := by
  intro s h
  refine lookMem_leaves.mono ?_ ?_
  · rintro _ _ ⟨-, rfl⟩
    exact h
  · rintro _ _ rfl
    exact h

theorem stays_readType (size : Nat) : c.Stays (c.readType size : IoM φ σ (List Byte)) := stays_lookMem _

theorem stays_writeType (hgood : c.Good) (reply : List Byte) : c.Stays (c.writeType reply : IoM φ σ Unit) := by
  have hmem : c.Stays (IoM.onMem (c.msg.write c.proc 0 reply) : IoM φ σ Nat) := by
    intro s h
    have hapart : c.msg.rcv.Apart (named c.proc c.entries) c.msg.rcvParts := by
      rw [named_eq_addrs hgood.area.valid]
      exact hgood.area.apart
    have htrans : ∀ m, Msg.SameOutside c.proc c.entries s.mem m → c.Within m :=
      fun m hm x hx => (hm x hx).trans (h x hx)
    exact onMem_leaves ((Msg.write_leaves (h.table hgood) hapart).mono (fun _ m hm => htrans m hm.2)
      fun _ m hm => htrans m hm)
  exact hmem.bind fun _ => stays_pure _

variable [DecidableEq φ]

/-- A host call leaves memory alone, and what it returns a file has answered. -/
theorem hostCall_leaves (fd : Nat) (call : φ → σ → Except Int α × σ) :
    (c.hostCall fd call).Leaves s
      (fun r s' => s'.mem = s.mem ∧ ∀ a, r = .ok a → ∃ f t, (call f t).1 = .ok a) (fun _ _ => False) := by
  unfold hostCall
  split
  · exact EStateM.leaves_pure ⟨rfl, fun _ hr => by cases hr⟩
  · refine EStateM.leaves_get_bind ?_
    exact EStateM.Leaves.bind (EStateM.leaves_set (Q := fun _ s' => s'.mem = s.mem) rfl)
      fun _ _ h₁ => EStateM.leaves_pure ⟨h₁, fun _ hr => ⟨_, _, hr⟩⟩

theorem stays_hostCall (fd : Nat) (call : φ → σ → Except Int α × σ) : c.Stays (c.hostCall fd call) := by
  intro s h
  refine (hostCall_leaves fd call).mono ?_ fun _ _ => False.elim
  rintro _ s' ⟨hmem, -⟩
  rwa [hmem]

theorem stays_writevCall (fd : Nat) (iov : List Iovec) : c.Stays (c.writevCall F fd iov) :=
  fun s h => EStateM.leaves_get_bind (stays_hostCall _ _ s h)

/-- What the host reads through the vectors of `write_iovec` goes to the reply area. -/
theorem readvCall_leaves (hgood : c.Good) {fd offset n : Nat} {iov : List Iovec} (h : c.Within s.mem)
    (hiov : c.msg.writeIovec c.proc s.mem offset n [] = .ok iov) :
    (c.readvCall F fd iov).Leaves s (fun _ s' => c.Within s'.mem) (fun _ s' => c.Within s'.mem) := by
  obtain ⟨iov', hiov', hsum, -⟩ := Msg.commonIovec_spec (m := s.mem) hgood.area.valid c.msg.rcv c.msg.rcvParts
    (h.table hgood) offset n []
  obtain rfl : iov' = iov := Except.ok.inj (hiov'.symm.trans hiov)
  obtain ⟨bs, hbytes, -, hfiller⟩ := Msg.writeIovec_ok (h.table hgood) hiov
  refine ((hostCall_leaves fd _).mono (fun _ _ h₁ => h₁) fun _ _ => False.elim).bind ?_
  rintro (e | data) s₁ ⟨hmem, hread⟩
  · refine EStateM.leaves_pure ?_
    rw [hmem]
    exact h
  · refine EStateM.leaves_modify_bind (EStateM.leaves_pure ?_)
    obtain ⟨f, t, hdata⟩ := hread data rfl
    have hfits := (F f).read_le hdata
    rw [hsum] at hfits
    show c.Within (readv iov' data s₁.mem)
    rw [hmem, Msg.readv_eq_scatter hbytes hfiller hfits]
    exact h.scatter (List.drop_subset _ _) data

theorem stays_ioRead (hgood : c.Good) : c.Stays (c.ioRead F) := by
  refine (stays_readType _).bind fun hdr => stays_ofExcept.bind fun _ => ?_
  intro s h
  have hiov : (IoM.lookMem fun m => c.msg.writeIovec c.proc m IoMsg.dataOffset (IoMsg.nbytes hdr) []).Leaves s
      (fun iov s' => c.msg.writeIovec c.proc s'.mem IoMsg.dataOffset (IoMsg.nbytes hdr) [] = .ok iov ∧
        c.Within s'.mem) (fun _ s' => c.Within s'.mem) := by
    refine lookMem_leaves.mono ?_ ?_
    · rintro iov _ ⟨hok, rfl⟩
      exact ⟨hok, h⟩
    · rintro _ _ rfl
      exact h
  refine hiov.bind fun iov s₁ h₁ => (readvCall_leaves hgood h₁.2 h₁.1).bind fun r s₂ h₂ => ?_
  cases r with
  | error errno => exact stays_writeType hgood _ s₂ h₂
  | ok n => exact stays_writeType hgood _ s₂ h₂

theorem stays_ioWrite (hgood : c.Good) : c.Stays (c.ioWrite F) := by
  refine (stays_readType _).bind fun hdr => (stays_lookMem _).bind fun iov => ?_
  refine (stays_writevCall _ _).bind fun r => ?_
  cases r with
  | error errno => exact stays_writeType hgood _
  | ok n => exact stays_writeType hgood _

theorem stays_ioLseek (hgood : c.Good) : c.Stays (c.ioLseek F) := by
  refine (stays_readType _).bind fun hdr => (stays_hostCall _ _).bind fun r => ?_
  cases r with
  | error errno => exact stays_writeType hgood _
  | ok off => exact stays_writeType hgood _

theorem stays_fsysTrunc (hgood : c.Good) : c.Stays (c.fsysTrunc F) := by
  refine (stays_readType _).bind fun hdr => (stays_hostCall _ _).bind fun prev => ?_
  cases prev with
  | error errno => exact stays_writeType hgood _
  | ok prev =>
      refine (stays_hostCall _ _).bind fun dest => ?_
      cases dest with
      | error errno => exact stays_writeType hgood _
      | ok dest =>
          refine (stays_hostCall _ _).bind fun _ => (stays_hostCall _ _).bind fun r => ?_
          cases r with
          | error errno => exact stays_writeType hgood _
          | ok => exact stays_writeType hgood _

/-- A bad descriptor is answered with the status alone. -/
theorem receive_of_badFd {s₁ : IoState φ σ} (h : (c.handle F).run s = .error .badFd s₁) :
    (c.receive F).run s = (c.writeStatus qebadf).run s₁ := by
  rw [EStateM.run, receive, h]

/-- Anything else is left to the handler. -/
theorem receive_of_ne (h : ∀ s₁, (c.handle F).run s ≠ .error .badFd s₁) :
    (c.receive F).run s = (c.handle F).run s := by
  rw [EStateM.run, receive]
  split
  · next s₁ hres => exact absurd hres (h s₁)
  · rfl

/-- The handlers change nothing of the guest's memory but the reply area, whatever comes of the message. -/
theorem stays_receive (hgood : c.Good) : c.Stays (c.receive F) := by
  have hhandle : c.Stays (c.handle F) := by
    unfold handle
    split
    · exact stays_ioRead hgood
    · exact stays_ioWrite hgood
    · exact stays_ioLseek hgood
    · exact stays_fsysTrunc hgood
  intro s h
  by_cases hbad : ∃ s₁, (c.handle F).run s = .error .badFd s₁
  · obtain ⟨s₁, hres⟩ := hbad
    have hwrite : c.Stays (c.writeStatus qebadf : IoM φ σ Unit) := stays_writeType hgood _
    exact (hwrite s₁ ((hhandle s h).of_error hres)).of_run (receive_of_badFd hres)
  · exact (hhandle s h).congr (receive_of_ne fun s₁ hres => hbad ⟨s₁, hres⟩)

end IoCall

/-! ## The way to the handler -/

namespace Emu

/-- The number in the instruction. -/
def Trap.intNr : Trap → Byte
  | .int0xF2 => 0xF2
  | .int0xF1 => 0xF1
  | .int0xF0 => 0xF0

/-- The guest behind the instruction. -/
def past (len : Nat) (s : Machine) : Machine :=
  { s with regs := { s.regs with eip := s.regs.eip + BitVec.ofNat 32 len } }

/-- The system calls that send a message, and what their argument names. -/
def sendVia : Nat → Option (Int → Via)
  | 0 => some .pid
  | 11 => some .fd
  | _ => none

/-- The message of a trap: a 32-bit guest names its parts in registers, a 16-bit one on the stack. -/
inductive Sends (p : Process) (s : Machine) : Trap → MsgContext → Prop
  | registers {via : Int → Via} {msg : Msg} (hvia : sendVia s.regs.al.toNat = some via)
      (hmake : Msg.make p s.mem s.regs.ah.toNat ⟨s.regs.ds, s.regs.ebx⟩ s.regs.ch.toNat ⟨s.regs.ds, s.regs.esi⟩
        .b32 = .ok msg) :
      Sends p s .int0xF2 ⟨msg, via s.regs.edx.toInt⟩
  | stack {number : BitVec 16} {via : Int → Via} {args : List (BitVec 16)} {msg : Msg}
      (hnumber : (syscall16Number p).run s = .ok number s) (hvia : sendVia number.toNat = some via)
      (hargs : (GuestContext.readStack16 p 1 7).run s = .ok args s)
      (hmake : Msg.make p s.mem ((args.getD 1 0).setWidth 8).toNat ⟨args.getD 4 0, (args.getD 3 0).setWidth 32⟩
        ((args.getD 2 0).setWidth 8).toNat ⟨args.getD 6 0, (args.getD 5 0).setWidth 32⟩ .b16 = .ok msg) :
      Sends p s .int0xF0 ⟨msg, via (args.getD 0 0).toNat⟩

variable {p : Process} {host : DispatchHost} {s s' : Machine} {trap : Trap} {i : MsgContext} {len : Nat}

theorem sendVia_eq_some {n : Nat} {via : Int → Via} (h : sendVia n = some via) :
    n = 0 ∧ via = .pid ∨ n = 11 ∧ via = .fd := by
  unfold sendVia at h
  split at h
  · cases h
    exact .inl ⟨rfl, rfl⟩
  · cases h
    exact .inr ⟨rfl, rfl⟩
  · cases h

/-- An instruction has one number. -/
theorem matchesSyscall_unique {a b : Byte} (h : matchesSyscall p s a = some len) (hne : a ≠ b) :
    matchesSyscall p s b = none := by
  -- behind the prefix
  have hrest : ∀ {c : Byte} {eip : BitVec 32} {n : Nat},
      (if c = 0xCD then do
          let nr ← codeByte p s (eip + 1)
          return if nr = a then some (n + 2) else none
        else return none : Except Fault (Option Nat)) = .ok (some len) →
      (if c = 0xCD then do
          let nr ← codeByte p s (eip + 1)
          return if nr = b then some (n + 2) else none
        else return none : Except Fault (Option Nat)) = .ok none := by
    intro c eip n hx
    split_ifs at hx ⊢
    · obtain ⟨nr, hbyte, hnr⟩ := bind_eq_ok.1 hx
      have hnr := Except.ok.inj hnr
      split_ifs at hnr with heq
      subst heq
      rw [hbyte]
      show Except.ok (if nr = b then some (n + 2) else none) = Except.ok none
      rw [if_neg hne]
    · rfl
  unfold matchesSyscall at h ⊢
  cases hat : syscallAt p s a with
  | error e =>
      rw [hat] at h
      cases h
  | ok l =>
      rw [hat] at h
      subst h
      have hnone : syscallAt p s b = .ok none := by
        unfold syscallAt at hat ⊢
        obtain ⟨b₁, hb₁, hat⟩ := bind_eq_ok.1 hat
        rw [hb₁]
        show (if b₁ = 0x66 then _ else _ : Except Fault (Option Nat)) = _
        by_cases hpre : b₁ = 0x66
        · rw [if_pos hpre] at hat ⊢
          obtain ⟨b₂, hb₂, hat⟩ := bind_eq_ok.1 hat
          rw [hb₂]
          exact hrest hat
        · rw [if_neg hpre] at hat ⊢
          exact hrest hat
      rw [hnone]

theorem trapped_run (h : matchesSyscall p s trap.intNr = some len)
    (hrun : (trap.dispatch p host).run (past len s) = .ok () s') : (trapped p host).run s = .ok true s' := by
  unfold trapped
  rw [EStateM.run_get_bind]
  have hpast : ∀ x : EmuM Unit, x.run (past len s) = .ok () s' →
      (do
        EmuM.setRegs fun r => { r with eip := r.eip + BitVec.ofNat 32 len }
        x
        return true).run s = .ok true s' := by
    intro x hx
    rw [EmuM.setRegs, EStateM.run_modify_bind]
    have hx' : x.run { s with regs := { s.regs with eip := s.regs.eip + BitVec.ofNat 32 len } } = .ok () s' := hx
    rw [EStateM.run_bind_of_ok hx']
    rfl
  cases trap with
  | int0xF2 =>
      have h : matchesSyscall p s 0xF2 = some len := h
      rw [h]
      exact hpast _ hrun
  | int0xF1 =>
      have h : matchesSyscall p s 0xF1 = some len := h
      rw [h, matchesSyscall_unique h (b := 0xF2) (by decide)]
      exact hpast _ hrun
  | int0xF0 =>
      have h : matchesSyscall p s 0xF0 = some len := h
      rw [h, matchesSyscall_unique h (b := 0xF2) (by decide), matchesSyscall_unique h (b := 0xF1) (by decide)]
      exact hpast _ hrun

theorem catchSegfault_ok {x : EmuM Unit} (h : x.run s = .ok () s') : (catchSegfault x).run s = .ok () s' := by
  unfold catchSegfault
  rw [EStateM.run_catch, h]

/-- The dispatcher hands the message over and puts the status into EAX. -/
theorem dispatch_run (h : Sends p s trap i) {hdr : List Byte}
    (hread : i.msg.read p s.mem 0 msgHeaderSize = .ok hdr) (hreceive : (host.receive i).run s = .ok () s') :
    (trap.dispatch p host).run s = .ok () { s' with regs := { s'.regs with eax := BitVec.ofInt 32 qeok } } := by
  have hsend : ∀ {sendParts rcvParts : Nat} {send rcv : FarPointer} {bits : Bitness},
      Msg.make p s.mem sendParts send rcvParts rcv bits = .ok i.msg →
        (sendMsg p host i.via sendParts send rcvParts rcv bits).run s =
          .ok () { s' with regs := { s'.regs with eax := BitVec.ofInt 32 qeok } } := by
    intro sendParts rcvParts send rcv bits hmake
    have hmsg : (handleMsg p host i).run s = .ok () s' := by
      unfold handleMsg
      rw [EStateM.run_get_bind, EStateM.run_ofExcept_bind hread]
      exact hreceive
    unfold sendMsg
    rw [EStateM.run_get_bind, EStateM.run_ofExcept_bind hmake, EStateM.run_bind_of_ok hmsg]
    rfl
  cases h with
  | registers hvia hmake =>
      refine catchSegfault_ok ?_
      unfold syscalls
      rw [EStateM.run_get_bind]
      rcases sendVia_eq_some hvia with ⟨hal, rfl⟩ | ⟨hal, rfl⟩
      · rw [hal]
        show (syscallSendmx p host).run s = _
        unfold syscallSendmx sendRegs
        rw [EStateM.run_get_bind]
        exact hsend hmake
      · rw [hal]
        show (syscallSendfdmx p host).run s = _
        unfold syscallSendfdmx sendRegs
        rw [EStateM.run_get_bind]
        exact hsend hmake
  | stack hnumber hvia hargs hmake =>
      show (dispatchSyscall16 p host).run s = _
      unfold dispatchSyscall16
      rw [EStateM.run_bind_of_ok hnumber]
      refine catchSegfault_ok ?_
      unfold syscalls16
      rcases sendVia_eq_some hvia with ⟨hal, rfl⟩ | ⟨hal, rfl⟩
      · rw [hal]
        show (syscall16Sendmx p host).run s = _
        unfold syscall16Sendmx sendArgs
        rw [EStateM.run_bind_of_ok hargs]
        exact hsend hmake
      · rw [hal]
        show (syscall16Sendfdmx p host).run s = _
        unfold syscall16Sendfdmx sendArgs
        rw [EStateM.run_bind_of_ok hargs]
        exact hsend hmake

end Emu

/-! ## The way to the host -/

/-- An exception that gets out of a handler. -/
def FdError.uncaught : FdError → Fault
  | .fault e => e
  | _ => .assertion "std::terminate()"

/-- The `Qnx::MsgHeader` in front of a message. -/
def Qmsg.MsgHeader.load (bs : List Byte) : Qmsg.MsgHeader := ⟨leNat (bs.take 2), leNat ((bs.drop 2).take 2)⟩

/-- The handlers that work on open files. -/
def IoKind.ofDispatch : Qmsg.Dispatch → Option IoKind
  | .handler .ioRead => some .read
  | .handler .ioWrite => some .write
  | .handler .ioLseek => some .lseek
  | .handler .fsysTrunc => some .trunc
  | _ => none

/-- What the emulator of a process knows, besides the guest itself. Its descriptors have no terminal filter. -/
structure IoProcess (φ : Type) where
  proc : Process
  fds : FdMap
  host : HostFds φ

namespace IoProcess

variable [DecidableEq φ] (g : IoProcess φ) (F : φ → HostFile σ) (files : φ → σ)

/-- A message of the process. -/
def call (m : Mem) (msg : Msg) (kind : IoKind) : IoCall φ := ⟨kind, g.fds, g.host, g.proc, m, msg⟩

/-- `MainHandler::receive` while the files are in these states; `others` are the other handlers. -/
def receive (others : MsgContext → EmuM Unit) (i : MsgContext) : EmuM Unit := do
  let s ← get
  let hdr ← EStateM.ofExcept (i.msg.read g.proc s.mem 0 msgHeaderSize)
  match IoKind.ofDispatch (Qmsg.receiveInner (.load hdr)) with
  | none => others i
  | some kind =>
    match ((g.call s.mem i.msg kind).receive F).run ⟨files, s.mem⟩ with
    | .ok () t => EmuM.setMem fun _ => t.mem
    | .error e t => do
      EmuM.setMem fun _ => t.mem
      throw e.uncaught

/-- The dispatchers of the process. -/
def dispatchHost (others : DispatchHost) : DispatchHost := { others with receive := g.receive F files others.receive }

end IoProcess

/-- The processes, and the files they share. -/
structure IoSystem (π φ σ : Type) where
  files : φ → σ
  process : π → IoProcess φ
  machine : π → Machine

/-- A system call: the message, the length of the instruction, and the guest before and after. -/
structure IoEvent (φ : Type) where
  call : IoCall φ
  len : Nat
  before : Machine
  after : Machine

namespace IoEvent

/-- What the guest finds in its reply area. -/
def answer (e : IoEvent φ) : IoAnswer :=
  .ofReply e.call.kind (guestBytes e.call.proc e.after.mem e.call.entries)

/-- The guest goes on behind the instruction, and nothing of it has changed but EAX and the reply area. -/
structure Returns (e : IoEvent φ) : Prop where
  regs : e.after.regs = { e.before.regs with
    eip := e.before.regs.eip + BitVec.ofNat 32 e.len, eax := BitVec.ofInt 32 qeok }
  mem : Msg.SameOutside e.call.proc e.call.entries e.before.mem e.after.mem
  signals : e.after = { e.before with regs := e.after.regs, mem := e.after.mem }

end IoEvent

namespace IoSystem

variable {π : Type} {F : φ → HostFile σ} {others : DispatchHost} {s s₁ s' : IoSystem π φ σ} {q : π} {len : Nat}
  {c : IoCall φ} {e : IoEvent φ}

/-- The guest is at an instruction of this length that sends this message. -/
inductive At (s : IoSystem π φ σ) (q : π) : Nat → IoCall φ → Prop
  | send {trap : Emu.Trap} {i : MsgContext} {hdr : List Byte} {len : Nat} {kind : IoKind}
      (hinstr : Emu.matchesSyscall (s.process q).proc (s.machine q) trap.intNr = some len)
      (hsends : Emu.Sends (s.process q).proc (Emu.past len (s.machine q)) trap i)
      (hread : i.msg.read (s.process q).proc (s.machine q).mem 0 msgHeaderSize = .ok hdr)
      (hkind : IoKind.ofDispatch (Qmsg.receiveInner (.load hdr)) = some kind) :
      At s q len ((s.process q).call (s.machine q).mem i.msg kind)

/-- The guest's next instruction is a matter of its own process and machine. -/
theorem At.congr (hat : s.At q len c) (hprocess : s₁.process q = s.process q)
    (hmachine : s₁.machine q = s.machine q) : s₁.At q len c := by
  obtain @⟨trap, i, hdr, len, kind, hinstr, hsends, hread, hkind⟩ := hat
  rw [← hprocess, ← hmachine] at hinstr hsends hread ⊢
  exact .send hinstr hsends hread hkind

variable [DecidableEq φ]

variable (F others) in
/-- The system call returns, with the host's answer. -/
theorem At.trapped (hat : s.At q len c) (hgood : c.Good) :
    ∃ after, (Emu.trapped (s.process q).proc ((s.process q).dispatchHost F s.files others)).run (s.machine q) =
        .ok true after ∧
      (IoEvent.mk c len (s.machine q) after).Returns ∧
      (IoEvent.mk c len (s.machine q) after).answer = (hostServer F s.files c).1 := by
  obtain @⟨trap, i, hdr, len, kind, hinstr, hsends, hread, hkind⟩ := hat
  have hanswers : ∀ {c : IoCall φ}, c.Good →
      c.Answers (c.receive F) ⟨s.files, c.mem⟩ (hostServer F s.files c).2 (hostServer F s.files c).1 :=
    IoCall.receive_answers
  obtain ⟨m, reply, hrun, hshows, hreply⟩ := hanswers hgood
  have hreceive : (((s.process q).dispatchHost F s.files others).receive i).run (Emu.past len (s.machine q)) =
      .ok () { Emu.past len (s.machine q) with mem := m } := by
    show ((s.process q).receive F s.files others.receive i).run _ = _
    unfold IoProcess.receive
    rw [EStateM.run_get_bind]
    show (EStateM.ofExcept (i.msg.read (s.process q).proc (s.machine q).mem 0 msgHeaderSize) >>= _ :
      EmuM Unit).run _ = _
    rw [EStateM.run_ofExcept_bind hread, hkind]
    dsimp only
    have hrun' : (((s.process q).call (Emu.past len (s.machine q)).mem i.msg kind).receive F).run
        ⟨s.files, (Emu.past len (s.machine q)).mem⟩ =
        .ok () ⟨(hostServer F s.files ((s.process q).call (s.machine q).mem i.msg kind)).2, m⟩ := hrun
    rw [hrun']
    rfl
  have hwithin : Msg.SameOutside _ _ (s.machine q).mem m :=
    (IoCall.stays_receive (F := F) hgood ⟨s.files, (s.machine q).mem⟩ (IoCall.within_self _)).of_ok hrun
  refine ⟨_, Emu.trapped_run hinstr (Emu.dispatch_run hsends hread hreceive), ⟨rfl, hwithin, rfl⟩, ?_⟩
  rw [← hreply, ← hshows.bytes]
  rfl

variable [DecidableEq π]

/-- The guest makes the system call, and the emulator serves it. What `signal_tail` does on the way back is a
matter of its own. -/
inductive Step (F : φ → HostFile σ) (others : DispatchHost) (s : IoSystem π φ σ) :
    IoEvent φ → IoSystem π φ σ → Prop
  | call {q : π} {len : Nat} {c : IoCall φ} {after : Machine} (hat : s.At q len c)
      (hrun : (Emu.trapped (s.process q).proc ((s.process q).dispatchHost F s.files others)).run (s.machine q) =
        .ok true after) :
      Step F others s ⟨c, len, s.machine q, after⟩
        ⟨(ioServer F s.files c).2, s.process, Function.update s.machine q after⟩

theorem Step.hostCall (h : Step F others s e s') (hgood : e.call.Good) :
    e.Returns ∧ e.answer = (hostServer F s.files e.call).1 ∧ s'.files = (hostServer F s.files e.call).2 := by
  obtain ⟨hat, hrun⟩ := h
  obtain ⟨after, hrun', hreturns, hanswer⟩ := hat.trapped F others hgood
  cases hrun'.symm.trans hrun
  exact ⟨hreturns, hanswer, (ioServer_refines F s.files hgood).2⟩

end IoSystem

/-! ## Runs -/

variable {π : Type} [DecidableEq π] [DecidableEq φ]

end Qine
