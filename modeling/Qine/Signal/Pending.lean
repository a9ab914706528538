import Mathlib.Logic.Relation
import Qine.Signal.Frames
import Qine.Signal.Messages

/-!
# Pending signals and their handlers

`signal_tail` throws when it picks a signal whose table entry names no guest function, with the
remark that this should not happen. Three parts of the state decide whether it does: the pending
bits, the mask, and the table in guest memory; messages, host signals and the guest change them in
any order.

The invariant is that every pending signal has a callable handler (`PendingCallable`), masked or not.
Two kinds of message break it: raising a signal that has no handler (`raise_without_handler`), and
taking the handler away from a signal that is pending. `tail_never_throws` shows that in every run
without these the exception is unreachable.
-/

namespace Qine

open Emu MainHandler

variable {p : Process} {sigtab : Nat} {s s' : Machine} {now : Timespec}

/-! ## The table -/

/-- `handler_fn` of a signal. -/
def handlerFn (sigtab : Nat) (m : Mem) (signo : Nat) : BitVec 32 :=
  m.loadWord 4 (sigactionAt sigtab signo)

/-- `sizeof(Qnx::Sigtab)`. -/
def Sigtab.size : Nat := 324

/-- The byte at host address `x` belongs to the signal table. -/
def InSigtab (sigtab x : Nat) : Prop := sigtab ≤ x ∧ x < sigtab + Sigtab.size

/-- Every pending signal, masked or not, has a guest function as its handler. -/
def PendingCallable (sigtab : Nat) (s : Machine) : Prop :=
  ∀ signo, s.sigpend.Has signo → isSpecialSighandler (handlerFn sigtab s.mem signo) = false

theorem handlerFn_congr {m m' : Mem} {signo : Nat} (hs : qsigMin ≤ signo ∧ signo ≤ qsigMax)
    (h : ∀ x, InSigtab sigtab x → m' x = m x) :
    handlerFn sigtab m' signo = handlerFn sigtab m signo := by
  apply Memory.loadWord_congr
  intro x h₁ h₂
  apply h
  simp only [sigactionAt, Sigtab.actions, Sigaction.size] at h₁ h₂
  simp only [qsigMin, qsigMax] at hs
  unfold InSigtab Sigtab.size
  omega

theorem PendingCallable.congr (h : PendingCallable sigtab s) (hpend : s'.sigpend = s.sigpend)
    (hmem : ∀ x, InSigtab sigtab x → s'.mem x = s.mem x) : PendingCallable sigtab s' := by
  intro signo hhas
  rw [hpend] at hhas
  rw [handlerFn_congr ⟨hhas.1, hhas.2.1⟩ hmem]
  exact h signo hhas

/-- Filling in one entry does not change the handlers of the others. -/
theorem handlerFn_storeAction {bits : Bitness} {handler : FarPointer} {mask : BitVec 32} {m : Mem}
    {signo other : Nat} (hs : qsigMin ≤ signo) (ho : qsigMin ≤ other) :
    handlerFn sigtab (storeAction bits (sigactionAt sigtab signo) handler mask m) other =
      if other = signo then storedHandler bits handler else handlerFn sigtab m other := by
  simp only [qsigMin] at hs ho
  unfold handlerFn storeAction
  -- the mask lies between the handlers of this entry and the next
  have hmask (m : Mem) : (m.storeWord 4 (sigactionAt sigtab signo + Sigaction.mask) mask).loadWord 4
      (sigactionAt sigtab other) = m.loadWord 4 (sigactionAt sigtab other) := by
    apply Memory.loadWord_congr
    intro x h₁ h₂
    apply Memory.storeWord_of_not_mem
    simp only [sigactionAt, Sigtab.actions, Sigaction.size, Sigaction.mask] at h₁ h₂ ⊢
    omega
  rw [hmask]
  split
  · next heq =>
      rw [heq]
      exact Memory.loadWord_storeWord _
  · next hne =>
      apply Memory.loadWord_congr
      intro x h₁ h₂
      simp only [sigactionAt, Sigtab.actions, Sigaction.size] at h₁ h₂
      rw [Memory.storeWord_of_not_mem, Memory.storeWord_of_not_mem]
      · simp only [sigactionAt, Sigtab.actions, Sigaction.size, Sigaction.flags]
        omega
      · simp only [sigactionAt, Sigtab.actions, Sigaction.size]
        omega

/-! ## Runs -/

/-- What can happen to the signal state. -/
inductive SigAction where
  /-- the message `sigact`, with the host's answer to `sigaction` -/
  | sigact (host : HostCall) (msg : Msg)
  /-- the message `sigraise` -/
  | sigraise (msg : Msg)
  /-- the message `sigmask` -/
  | sigmask (msg : Msg)
  /-- a host signal -/
  | arrival (now : Timespec) (hostSig : Nat)
  /-- `signal_tail` at the end of any other trap -/
  | tail (now : Timespec)
  | sigreturn
  | sigreturn16
  /-- the guest runs, or a system call works on its registers and memory -/
  | guest (regs : Registers) (mem : Mem)

/-- The host's part of an action. -/
def SigAction.routine (p : Process) : SigAction → EmuM Unit
  | .sigact host msg => sendmx (procSigact p host msg)
  | .sigraise msg => sendmx (procSigraise p msg)
  | .sigmask msg => sendmx (procSigmask p msg)
  | .arrival now hostSig => handlerGeneric p now hostSig
  | .tail now => signalTail p now
  | .sigreturn => catchSegfault (syscallSigreturn p)
  | .sigreturn16 => catchSegfault (syscall16Sigreturn p)
  | .guest regs mem => modify fun s => { s with regs := regs, mem := mem }

/-- The reply of a message goes neither to the signal table nor over its own entry table. -/
def ReplyApart (p : Process) (sigtab : Nat) (s : Machine) (msg : Msg) : Prop :=
  msg.rcv.Apart (named p (msg.rcv.entries s.mem msg.rcvParts)) msg.rcvParts ∧
    ∀ x ∈ named p (msg.rcv.entries s.mem msg.rcvParts), ¬ InSigtab sigtab x

/-- The frame of a signal delivered over `s` would not touch the signal table. -/
def FrameApart (p : Process) (sigtab : Nat) (s : Machine) : Prop :=
  s.regs.cs &&& SegmentDescriptor.selLdt ≠ 0 →
    p.baseOf s.regs.ss + (s.regs.esp.toNat - 128) ≤ sigtab ∨
      sigtab + Sigtab.size ≤ p.baseOf s.regs.ss + (s.regs.esp.toNat - 192) - argBytes p.bits

/-- A `sigact` request that replaces the handler: not `QSIG_HOLD`, for a signal the host knows, and
accepted by the host. -/
def SignalRequest.Replaces (host : HostCall) (req : SignalRequest) : Prop :=
  req.offset ≠ qsigHold ∧ ∃ hostSig, QnxSigset.mapSigQnxToHost req.signum.toNat = some hostSig ∧
    (hostSig = QnxSigset.hostSigsegv ∨ host.result = 0)

/-- What is asked of an action in state `s`. A `sigact` does not take the handler away from a pending
signal, and a `sigraise` or a host signal is for one that has a handler; nothing else writes to the
signal table. -/
def Careful (p : Process) (sigtab : Nat) (s : Machine) : SigAction → Prop
  | .sigact host msg => ReplyApart p sigtab s msg ∧
      msg.rcv.Apart (List.range' sigtab Sigtab.size) msg.rcvParts ∧
      ∀ req, SignalRequest.read p s.mem msg = .ok req → req.Replaces host →
        isSpecialSighandler (storedHandler p.bits req.handler) = true →
        ¬ s.sigpend.Has req.signum.toNat
  | .sigraise msg => ReplyApart p sigtab s msg ∧
      ∀ req, SignalRequest.read p s.mem msg = .ok req →
        isSpecialSighandler (handlerFn sigtab s.mem req.signum.toNat) = false
  | .sigmask msg => ReplyApart p sigtab s msg
  | .arrival _ hostSig => FrameApart p sigtab s ∧
      ∀ signo, QnxSigset.mapSigHostToQnx hostSig = some signo →
        isSpecialSighandler (handlerFn sigtab s.mem signo) = false
  | .tail _ => FrameApart p sigtab s
  | .sigreturn => True
  | .sigreturn16 => True
  | .guest _ mem => ∀ x, InSigtab sigtab x → mem x = s.mem x

/-- One careful step. -/
def SigStep (p : Process) (sigtab : Nat) (s s' : Machine) : Prop :=
  ∃ a, Careful p sigtab s a ∧ (SigAction.routine p a).run s = .ok () s'

/-! ## Messages -/

/-- A reply that keeps away from the table keeps the invariant. -/
theorem writeReply_leaves {msg : Msg} {reply : SignalReply} (happart : ReplyApart p sigtab s msg)
    (h : PendingCallable sigtab s) :
    (writeReply p msg reply).Leaves s (fun _ => PendingCallable sigtab)
      (fun _ => PendingCallable sigtab) := by
  have hkeep (mem : Mem) (hmem : Msg.SameOutside p (msg.rcv.entries s.mem msg.rcvParts) s.mem mem) :
      PendingCallable sigtab { s with mem := mem } :=
    h.congr rfl fun x hx => hmem x fun hnamed => happart.2 x hnamed hx
  unfold writeReply EmuM.onMem
  refine EStateM.Leaves.bind (Q := fun _ => PendingCallable sigtab) ?_ fun _ _ h₁ =>
    EStateM.leaves_pure h₁
  apply EStateM.leaves_zoom
  exact (Msg.write_leaves rfl happart.1).mono (fun _ mem h₁ => hkeep mem h₁.2) (fun _ => hkeep)

/-- Raising a signal that has a handler keeps the invariant. -/
theorem signalRaise_leaves {signo : Nat} (h : PendingCallable sigtab s)
    (hcall : isSpecialSighandler (handlerFn sigtab s.mem signo) = false) :
    (signalRaise signo).Leaves s
      (fun _ s' => PendingCallable sigtab s' ∧ s'.mem = s.mem ∧ s'.regs = s.regs)
      (fun _ => PendingCallable sigtab) := by
  unfold signalRaise
  apply EStateM.leaves_get_bind
  apply EStateM.leaves_ofExcept_bind
  · intro sigpend hset
    apply EStateM.leaves_modify
    refine ⟨?_, rfl, rfl⟩
    intro other hother
    rcases (QnxSigset.has_setQnxSig hset).mp hother with rfl | hother
    · exact hcall
    · exact h other hother
  · exact fun _ _ => h

theorem ReplyApart.congr {msg : Msg} (h : ReplyApart p sigtab s msg)
    (hes : msg.rcv.entries s'.mem msg.rcvParts = msg.rcv.entries s.mem msg.rcvParts) :
    ReplyApart p sigtab s' msg := by
  unfold ReplyApart
  rw [hes]
  exact h

theorem procSigraise_leaves {msg : Msg} (hcareful : Careful p sigtab s (.sigraise msg))
    (h : PendingCallable sigtab s) :
    (procSigraise p msg).Leaves s (fun _ => PendingCallable sigtab)
      (fun _ => PendingCallable sigtab) := by
  obtain ⟨hreply, hcall⟩ := hcareful
  unfold procSigraise
  apply EStateM.leaves_get_bind
  apply EStateM.leaves_ofExcept_bind
  · intro req hreq
    refine (signalRaise_leaves h (hcall req hreq)).bind ?_
    rintro _ s₁ ⟨h₁, hmem, -⟩
    exact writeReply_leaves (hreply.congr (by rw [hmem])) h₁
  · exact fun _ _ => h

theorem procSigmask_leaves {msg : Msg} (hcareful : Careful p sigtab s (.sigmask msg))
    (h : PendingCallable sigtab s) :
    (procSigmask p msg).Leaves s (fun _ => PendingCallable sigtab)
      (fun _ => PendingCallable sigtab) := by
  have hgetmask (s : Machine) : signalGetmask.Leaves s
      (fun v s' => v = s.sigmask.value ∧ s' = s) (fun _ => PendingCallable sigtab) :=
    EStateM.leaves_get_bind (EStateM.leaves_pure ⟨rfl, rfl⟩)
  unfold procSigmask
  apply EStateM.leaves_get_bind
  apply EStateM.leaves_ofExcept_bind
  · intro req _
    refine (hgetmask s).bind ?_
    rintro _ _ ⟨rfl, rfl⟩
    apply EStateM.leaves_modify_bind
    refine (hgetmask _).bind ?_
    rintro _ _ ⟨rfl, rfl⟩
    -- the mask is neither the table nor the pending set
    apply writeReply_leaves
    · exact hcareful
    · exact h.congr rfl fun _ _ => rfl
  · exact fun _ _ => h

/-- Filling in an entry touches the table only. -/
theorem storeAction_of_not_inSigtab {bits : Bitness} {handler : FarPointer} {mask : BitVec 32}
    {m : Mem} {signo x : Nat} (hs : qsigMin ≤ signo ∧ signo ≤ qsigMax) (hx : ¬ InSigtab sigtab x) :
    storeAction bits (sigactionAt sigtab signo) handler mask m x = m x := by
  simp only [qsigMin, qsigMax] at hs
  unfold InSigtab Sigtab.size at hx
  unfold storeAction
  rw [Memory.storeWord_of_not_mem, Memory.storeWord_of_not_mem, Memory.storeWord_of_not_mem] <;>
    simp only [sigactionAt, Sigtab.actions, Sigaction.size, Sigaction.flags, Sigaction.mask] <;> omega

/-- `sigact` keeps the invariant unless it takes the handler of a pending signal away. -/
theorem signalSigact_leaves {host : HostCall} {req : SignalRequest} (hp : p.sigtab = some sigtab)
    (hreq : req.Replaces host → isSpecialSighandler (storedHandler p.bits req.handler) = true →
      ¬ s.sigpend.Has req.signum.toNat)
    (h : PendingCallable sigtab s) :
    (signalSigact p host req.signum.toNat req.handler req.mask).Leaves s
      (fun _ s' => PendingCallable sigtab s' ∧ ∀ x, ¬ InSigtab sigtab x → s'.mem x = s.mem x)
      (fun _ => PendingCallable sigtab) := by
  unfold signalSigact
  split
  · -- `QSIG_HOLD` only masks the signal
    apply EStateM.leaves_get_bind
    apply EStateM.leaves_ofExcept_bind
    · intro sigmask _
      apply EStateM.leaves_modify_bind
      apply EStateM.leaves_pure
      exact ⟨h.congr rfl fun _ _ => rfl, fun _ _ => rfl⟩
    · exact fun _ _ => h
  · next hhold =>
      split
      · exact EStateM.leaves_pure ⟨h, fun _ _ => rfl⟩
      · next hostSig hmap =>
          split
          · exact EStateM.leaves_pure ⟨h, fun _ _ => rfl⟩
          · next hhost =>
              have hreplaces : req.Replaces host := by
                refine ⟨hhold, hostSig, hmap, ?_⟩
                tauto
              apply EStateM.leaves_ofExcept_bind
              · intro si hsi
                obtain ⟨hs, _, htab, rfl⟩ := qnxSigtab_eq_ok.mp hsi
                rw [hp] at htab
                cases htab
                apply EStateM.leaves_modify_bind
                apply EStateM.leaves_pure
                refine ⟨?_, fun x hx => storeAction_of_not_inSigtab hs hx⟩
                intro other hother
                show isSpecialSighandler (handlerFn sigtab (storeAction _ _ _ _ s.mem) other) = false
                rw [handlerFn_storeAction hs.1 hother.1]
                split
                · next heq =>
                    rw [← Bool.not_eq_true]
                    intro hspecial
                    exact hreq hreplaces hspecial (heq ▸ hother)
                · exact h other hother
              · exact fun _ _ => h

theorem procSigact_leaves {host : HostCall} {msg : Msg} (hp : p.sigtab = some sigtab)
    (hcareful : Careful p sigtab s (.sigact host msg)) (h : PendingCallable sigtab s) :
    (procSigact p host msg).Leaves s (fun _ => PendingCallable sigtab)
      (fun _ => PendingCallable sigtab) := by
  obtain ⟨hreply, htable, hreq⟩ := hcareful
  unfold procSigact
  apply EStateM.leaves_get_bind
  apply EStateM.leaves_ofExcept_bind
  · intro req hread
    refine (signalSigact_leaves hp (hreq req hread) h).bind ?_
    rintro r s₁ ⟨h₁, hmem⟩
    apply writeReply_leaves _ h₁
    apply hreply.congr
    apply EntryTable.entries_congr htable
    intro x hx
    exact hmem x fun hin => hx (by rw [List.mem_range'_1]; exact hin)
  · exact fun _ _ => h

/-! ## System calls -/

/-- What a routine leaves behind in either case, the dispatcher's `catch` leaves behind, if it is not
about registers. -/
theorem catchSegfault_leaves {x : EmuM Unit} {P : Machine → Prop}
    (hregs : ∀ s r, P s → P { s with regs := r }) (h : x.Leaves s (fun _ => P) (fun _ => P))
    (hrun : (catchSegfault x).run s = .ok () s') : P s' := by
  unfold catchSegfault at hrun
  rw [EStateM.run_catch] at hrun
  split at hrun
  · next hx =>
      cases hrun
      exact h.of_ok hx
  · next e s₁ hx =>
      have hP : P s₁ := h.of_error hx
      split at hrun
      · rw [EmuM.setRegs_ok] at hrun
        rw [← hrun]
        exact hregs _ _ hP
      · rw [EStateM.throw_ok] at hrun
        exact hrun.elim

theorem PendingCallable.setRegs (h : PendingCallable sigtab s) (r : Registers) :
    PendingCallable sigtab { s with regs := r } :=
  h.congr rfl fun _ _ => rfl

/-- A message whose handler keeps the invariant keeps it. -/
theorem sendmx_leaves {x : EmuM Unit}
    (h : x.Leaves s (fun _ => PendingCallable sigtab) (fun _ => PendingCallable sigtab))
    (hrun : (sendmx x).run s = .ok () s') : PendingCallable sigtab s' := by
  refine catchSegfault_leaves (fun _ r h => h.setRegs r) ?_ hrun
  refine h.bind ?_
  intro _ s₁ h₁
  apply EStateM.leaves_modify
  exact h₁.setRegs _

/-- Memory and pending signals as in `s₀`. -/
def SameSignals (s₀ s : Machine) : Prop := s.mem = s₀.mem ∧ s.sigpend = s₀.sigpend

variable {s₀ : Machine}

theorem popValue_leaves {w : Nat} (h : SameSignals s₀ s) :
    (GuestContext.popValue p w).Leaves s (fun _ => SameSignals s₀) (fun _ => SameSignals s₀) := by
  unfold GuestContext.popValue
  apply EStateM.leaves_get_bind
  apply EStateM.leaves_ofExcept_bind
  · intro linear _
    apply EStateM.leaves_modify_bind
    apply EStateM.leaves_pure
    exact h
  · exact fun _ _ => h

theorem restoreContext_leaves (h : SameSignals s₀ s) :
    (GuestContext.restoreContext p).Leaves s (fun _ => SameSignals s₀)
      (fun _ => SameSignals s₀) := by
  unfold GuestContext.restoreContext
  refine EStateM.leaves_forM ?_ h
  intro assign s₁ h₁
  refine (popValue_leaves h₁).bind ?_
  intro v s₂ h₂
  apply EStateM.leaves_modify
  exact h₂

/-- A return changes registers and mask only. -/
theorem syscallSigreturn_leaves (h : SameSignals s₀ s) :
    (syscallSigreturn p).Leaves s (fun _ => SameSignals s₀) (fun _ => SameSignals s₀) := by
  unfold syscallSigreturn
  refine (popValue_leaves h).bind ?_
  intro mask s₁ h₁
  apply EStateM.leaves_modify_bind
  have hmasked : SameSignals s₀ { s₁ with sigmask := ⟨mask⟩ } := h₁
  refine (restoreContext_leaves hmasked).bind ?_
  intro _ s₂ h₂
  apply EStateM.leaves_modify
  exact h₂

theorem syscall16Sigreturn_leaves (h : SameSignals s₀ s) :
    (syscall16Sigreturn p).Leaves s (fun _ => SameSignals s₀) (fun _ => SameSignals s₀) := by
  rw [syscall16Sigreturn_eq]
  refine (popValue_leaves h).bind ?_
  intro _ s₁ h₁
  exact syscallSigreturn_leaves h₁

/-! ## `signal_tail` -/

/-- The time structure is not part of the signal table. -/
def TimeApart (p : Process) (sigtab : Nat) : Prop := ∀ x, InSigtab sigtab x → ¬ p.InTimesel x

theorem updateTimesel_sigtab (htime : TimeApart p sigtab) {x : Nat} (hx : InSigtab sigtab x)
    (m : Mem) : storeTimesel now (p.segments p.timeSegment).location m x = m x := by
  apply storeTimesel_of_not_mem
  have hnot := htime x hx
  unfold Process.InTimesel at hnot
  omega

/-- `signal_tail` takes at most one signal from the pending set. -/
theorem PendingCallable.signalTail (htime : TimeApart p sigtab) (hframe : FrameApart p sigtab s)
    (h : PendingCallable sigtab s) (hrun : (signalTail p now).run s = .ok () s') :
    PendingCallable sigtab s' := by
  obtain ⟨s₁, hs₁, hcases⟩ := signalTail_ok hrun
  obtain ⟨-, rfl⟩ := updateTimesel_ok.mp hs₁
  rcases hcases with ⟨-, rfl⟩ | ⟨-, -, rfl⟩ | ⟨hcs, signo, -, hdeliver⟩
  · exact h.congr rfl fun x hx => updateTimesel_sigtab htime hx _
  · exact h.congr rfl fun x hx => updateTimesel_sigtab htime hx _
  · obtain ⟨_, sigpend, sigmask, -, hpend, -, -, hpush⟩ := deliver_ok hdeliver
    have hpushed := pushFrame_ok hpush
    have hmem : ∀ x, InSigtab sigtab x → s'.mem x = s.mem x := by
      intro x hx
      rw [hpushed.unchanged x]
      · exact updateTimesel_sigtab htime hx _
      · have happart := hframe hcs
        unfold InSigtab at hx
        show x < p.baseOf s.regs.ss + (s.regs.esp.toNat - 192) - argBytes p.bits ∨
          p.baseOf s.regs.ss + (s.regs.esp.toNat - 128) ≤ x
        omega
    intro other hother
    rw [hpushed.sigpend] at hother
    have hold := ((QnxSigset.has_clearQnxSig hpend).mp hother).1
    rw [handlerFn_congr ⟨hold.1, hold.2.1⟩ hmem]
    exact h other hold

/-- A careful step keeps the invariant. -/
theorem SigStep.pendingCallable (hp : p.sigtab = some sigtab) (htime : TimeApart p sigtab)
    (hstep : SigStep p sigtab s s') (h : PendingCallable sigtab s) : PendingCallable sigtab s' := by
  obtain ⟨a, hcareful, hrun⟩ := hstep
  cases a with
  | sigact host msg => exact sendmx_leaves (procSigact_leaves hp hcareful h) hrun
  | sigraise msg => exact sendmx_leaves (procSigraise_leaves hcareful h) hrun
  | sigmask msg => exact sendmx_leaves (procSigmask_leaves hcareful h) hrun
  | arrival now hostSig =>
      obtain ⟨hframe, hcall⟩ := hcareful
      simp only [SigAction.routine, handlerGeneric] at hrun
      split at hrun
      · simp at hrun
      · next signo hmap =>
          obtain ⟨_, s₁, hraise, htail⟩ := EStateM.bind_ok.mp hrun
          obtain ⟨h₁, -, hregs⟩ := (signalRaise_leaves h (hcall signo hmap)).of_ok hraise
          refine h₁.signalTail htime ?_ htail
          unfold FrameApart
          rw [hregs]
          exact hframe
  | tail now => exact h.signalTail htime hcareful hrun
  | sigreturn =>
      obtain ⟨hmem, hpend⟩ : SameSignals s s' :=
        catchSegfault_leaves (fun _ _ h => h) (syscallSigreturn_leaves ⟨rfl, rfl⟩) hrun
      exact h.congr hpend fun x _ => by rw [hmem]
  | sigreturn16 =>
      obtain ⟨hmem, hpend⟩ : SameSignals s s' :=
        catchSegfault_leaves (fun _ _ h => h) (syscall16Sigreturn_leaves ⟨rfl, rfl⟩) hrun
      exact h.congr hpend fun x _ => by rw [hmem]
  | guest regs mem =>
      simp only [SigAction.routine, EStateM.modify_ok] at hrun
      rw [← hrun]
      exact h.congr rfl hcareful

/-- In every careful run every pending signal has a callable handler. -/
theorem pendingCallable_of_run (hp : p.sigtab = some sigtab) (htime : TimeApart p sigtab)
    (hrun : Relation.ReflTransGen (SigStep p sigtab) s₀ s) (h₀ : PendingCallable sigtab s₀) :
    PendingCallable sigtab s := by
  induction hrun with
  | refl => exact h₀
  | tail _ hstep ih => exact hstep.pendingCallable hp htime ih

/-! ## The exception -/

theorem Process.translateSegmented_error {ptr : FarPointer} {size : BitVec 32} {e : Fault}
    (h : p.translateSegmented ptr size = .error e) : e ≠ handlerNotRegistered := by
  unfold Process.translateSegmented at h
  split at h
  · cases h
    decide
  · split at h
    · cases h
    · cases h
      decide

theorem QnxSigset.getQnxMask_error {signo : Nat} {e : Fault}
    (h : QnxSigset.getQnxMask signo = .error e) : e ≠ handlerNotRegistered := by
  unfold QnxSigset.getQnxMask at h
  split at h
  · cases h
  · cases h
    decide

theorem QnxSigset.setQnxSig_error {t : QnxSigset} {signo : Nat} {e : Fault}
    (h : t.setQnxSig signo = .error e) : e ≠ handlerNotRegistered :=
  getQnxMask_error (bind_pure_eq_error.mp h)

theorem QnxSigset.clearQnxSig_error {t : QnxSigset} {signo : Nat} {e : Fault}
    (h : t.clearQnxSig signo = .error e) : e ≠ handlerNotRegistered :=
  getQnxMask_error (bind_pure_eq_error.mp h)

theorem qnxSigtab_error {signo : Nat} {e : Fault} (h : qnxSigtab p signo = .error e) :
    e ≠ handlerNotRegistered := by
  unfold qnxSigtab at h
  split at h
  · split at h
    · cases h
      decide
    · cases h
  · cases h
    decide

theorem pushValue_leaves {w : Nat} {v : BitVec (8 * w)} :
    (GuestContext.pushValue p w v).Leaves s (fun _ _ => True)
      (fun e _ => e ≠ handlerNotRegistered) := by
  unfold GuestContext.pushValue
  apply EStateM.leaves_modify_bind
  apply EStateM.leaves_get_bind
  apply EStateM.leaves_ofExcept_bind
  · intro linear _
    exact EStateM.leaves_modify trivial
  · exact fun e he => p.translateSegmented_error he

theorem enterStub_leaves {act signo : Nat} :
    (enterStub p sigtab act signo).Leaves s (fun _ _ => True)
      (fun e _ => e ≠ handlerNotRegistered) := by
  unfold enterStub
  split
  · refine pushValue_leaves.bind fun _ _ _ => ?_
    refine pushValue_leaves.bind fun _ _ _ => ?_
    apply EStateM.leaves_get_bind
    refine pushValue_leaves.bind fun _ _ _ => ?_
    apply EStateM.leaves_get_bind
    exact EStateM.leaves_modify trivial
  · refine pushValue_leaves.bind fun _ _ _ => ?_
    apply EStateM.leaves_get_bind
    apply EStateM.leaves_get_bind
    exact EStateM.leaves_modify trivial

theorem pushFrame_leaves {act signo : Nat} {saveSigmask : QnxSigset} :
    (pushFrame p sigtab act signo saveSigmask).Leaves s (fun _ _ => True)
      (fun e _ => e ≠ handlerNotRegistered) := by
  unfold pushFrame GuestContext.saveContext
  apply EStateM.leaves_modify_bind
  apply EStateM.Leaves.bind (Q := fun _ _ => True)
  · apply EStateM.leaves_get_bind
    exact EStateM.leaves_forM (fun _ _ _ => pushValue_leaves) trivial
  · intro _ _ _
    refine pushValue_leaves.bind fun _ _ _ => ?_
    exact enterStub_leaves

theorem startHandler_leaves {act signo : Nat} (hp : p.sigtab = some sigtab) :
    (startHandler p act signo).Leaves s (fun _ _ => True)
      (fun e _ => e ≠ handlerNotRegistered) := by
  unfold startHandler
  apply EStateM.leaves_get_bind
  apply EStateM.leaves_get_bind
  apply EStateM.leaves_ofExcept_bind
  · intro sigmask _
    apply EStateM.leaves_modify_bind
    apply EStateM.leaves_modify_bind
    rw [hp]
    exact pushFrame_leaves
  · exact fun e he => QnxSigset.setQnxSig_error he

/-- A signal with a callable handler is delivered, or something else goes wrong. -/
theorem deliver_leaves {signo : Nat} (hp : p.sigtab = some sigtab)
    (hcall : isSpecialSighandler (handlerFn sigtab s.mem signo) = false) :
    (deliver p signo).Leaves s (fun _ _ => True) (fun e _ => e ≠ handlerNotRegistered) := by
  unfold deliver
  apply EStateM.leaves_get_bind
  apply EStateM.leaves_ofExcept_bind
  · intro sigpend _
    apply EStateM.leaves_modify_bind
    apply EStateM.leaves_ofExcept_bind
    · intro act hact
      obtain ⟨-, _, htab, rfl⟩ := qnxSigtab_eq_ok.mp hact
      rw [hp] at htab
      cases htab
      apply EStateM.leaves_get_bind
      rw [if_neg (by rw [Bool.not_eq_true]; exact hcall)]
      exact startHandler_leaves hp
    · exact fun e he => qnxSigtab_error he
  · exact fun e he => QnxSigset.clearQnxSig_error he

/-- The signal that `signal_tail` picks is pending. -/
theorem has_of_findFirst {signo : Nat} (h : (activesig s).findFirst = some signo) :
    s.sigpend.Has signo :=
  (QnxSigset.has_modify_empty.mp (QnxSigset.findFirst_eq_some h)).1

theorem signalTail_leaves (hp : p.sigtab = some sigtab) (htime : TimeApart p sigtab)
    (h : PendingCallable sigtab s) :
    (signalTail p now).Leaves s (fun _ _ => True) (fun e _ => e ≠ handlerNotRegistered) := by
  unfold signalTail updateTimesel
  apply EStateM.Leaves.bind
    (Q := fun _ s₁ => { s with mem := storeTimesel now (p.segments p.timeSegment).location s.mem } = s₁)
  · dsimp only
    split
    · exact EStateM.leaves_modify rfl
    · exact EStateM.leaves_throw (by decide)
  · rintro _ _ rfl
    apply EStateM.leaves_get_bind
    split
    · exact EStateM.leaves_pure trivial
    · split
      · exact EStateM.leaves_modify trivial
      · split
        · next signo hfind =>
            have hhas : s.sigpend.Has signo := has_of_findFirst hfind
            apply deliver_leaves hp
            rw [handlerFn_congr ⟨hhas.1, hhas.2.1⟩ fun x hx => updateTimesel_sigtab htime hx s.mem]
            exact h signo hhas
        · exact EStateM.leaves_throw (by decide)

/-- From no pending signals, careful steps never get to where `signal_tail` picks a signal without a
handler: the exception that should not happen does not happen. -/
theorem tail_never_throws (hp : p.sigtab = some sigtab) (htime : TimeApart p sigtab)
    (hempty : s₀.sigpend = .empty) (hrun : Relation.ReflTransGen (SigStep p sigtab) s₀ s) :
    (∀ signo, (activesig s).findFirst = some signo →
      isSpecialSighandler (handlerFn sigtab s.mem signo) = false) ∧
    ∀ now s', (signalTail p now).run s ≠ .error handlerNotRegistered s' := by
  have h₀ : PendingCallable sigtab s₀ := by
    intro signo hhas
    rw [hempty] at hhas
    simp [QnxSigset.Has, QnxSigset.empty] at hhas
  have h : PendingCallable sigtab s := pendingCallable_of_run hp htime hrun h₀
  refine ⟨?_, ?_⟩
  · intro signo hfind
    exact h signo (has_of_findFirst hfind)
  · intro now s' herr
    exact (signalTail_leaves hp htime h).of_error herr rfl

/-! ## Two runs -/

/-- Guest memory filled with `b`, but for a signal message about `signo` at `0x1500` and the table of
its single chunk at `0x1600`. -/
def signalMsgMem (b : Byte) (signo : BitVec 16) : Mem :=
  let m : Mem := fun _ => b
  let m := m.storeWord 2 0x1504 signo
  let m := m.storeWord 4 0x1600 (0x500 : BitVec 32)
  let m := m.storeWord 2 0x1604 (7 : BitVec 16)
  m.storeWord 4 0x1608 (24 : BitVec 32)

/-- The message there, with no room for a reply. -/
def signalMsg : Msg := ⟨0, .guest 0x1600, 1, .guest 0x1600⟩

/-- The small guest with that message and no signal pending. -/
def Machine.messenger (b : Byte) (signo : BitVec 16) : Machine :=
  { Machine.smallGuest 7 0x1000 with mem := signalMsgMem b signo, sigpend := .empty }

/-- With a handler for `SIGTERM` the guest can raise it at itself. -/
theorem tail_never_throws_messenger :
    let p := Process.smallGuest .b32 .readOnly
    let s := (SigAction.routine p (.sigraise signalMsg)).after (.messenger 5 15)
    (activesig s).findFirst = some 15 ∧
      isSpecialSighandler (handlerFn 0x1000 s.mem 15) = false ∧
      ∀ now s', (signalTail p now).run s ≠ .error handlerNotRegistered s' := by
  intro p s
  have htime : TimeApart p 0x1000 := by
    intro x hx ht
    have hloc : (p.segments p.timeSegment).location = 0x3000 := rfl
    unfold Process.InTimesel at ht
    unfold InSigtab Sigtab.size at hx
    omega
  have hread : SignalRequest.read p (Machine.messenger 5 15).mem signalMsg =
      .ok ⟨15, 0x05050505, 0x05050505, 0x05050505, 0x0505⟩ := by decide +kernel
  have hcareful : Careful p 0x1000 (.messenger 5 15) (.sigraise signalMsg) := by
    refine ⟨⟨?_, ?_⟩, ?_⟩
    · intro x hx
      cases hx
    · intro x hx
      cases hx
    · intro req hreq
      rw [hread] at hreq
      cases hreq
      decide +kernel
  have hraise : (SigAction.routine p (.sigraise signalMsg)).run (.messenger 5 15) = .ok () s :=
    EStateM.run_after (by decide +kernel)
  have hfind : (activesig s).findFirst = some 15 := by decide +kernel
  obtain ⟨hcall, htail⟩ := tail_never_throws rfl htime rfl (.single ⟨_, hcareful, hraise⟩)
  exact ⟨hfind, hcall 15 hfind, htail⟩

/-- Raising a signal whose handler is still the default makes `signal_tail` throw. -/
theorem raise_without_handler :
    let p := Process.smallGuest .b32 .readOnly
    let s := Machine.messenger 0 15
    let s₁ := (SigAction.routine p (.sigraise signalMsg)).after s
    p.sigtab = some 0x1000 ∧ s.sigpend = .empty ∧
      (SigAction.routine p (.sigraise signalMsg)).run s = .ok () s₁ ∧
      (activesig s₁).findFirst = some 15 ∧ handlerFn 0x1000 s₁.mem 15 = qsigDfl ∧
      ∃ s', (signalTail p ⟨0, 0⟩).run s₁ = .error handlerNotRegistered s' := by
  intro p s s₁
  refine ⟨rfl, rfl, EStateM.run_after (by decide +kernel), by decide +kernel, by decide +kernel, ?_⟩
  exact EStateM.run_throws (by decide +kernel)

end Qine
