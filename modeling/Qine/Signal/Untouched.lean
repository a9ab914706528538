import Qine.Signal.Frames
import Qine.Signal.Messages

/-!
# What frames and messages leave alone

Pushing and popping the frame of a signal, and handling the messages about signals, change registers, guest
memory and masks. A part of the machine that shows none of these is kept (`Untouched`), but for the FS and
GS of the extra context, which are registers that no routine assigns to.
-/

namespace Qine

open Emu MainHandler

/-- A part of the machine that does not depend on memory, masks, and registers other than FS and GS. -/
structure Machine.Untouched {τ : Type} (part : Machine → τ) : Prop where
  regs : ∀ (s : Machine) (r : Registers), r.ectxFs = s.regs.ectxFs → r.ectxGs = s.regs.ectxGs →
    part { s with regs := r } = part s
  mem : ∀ (s : Machine) (m : Mem), part { s with mem := m } = part s
  sigmask : ∀ (s : Machine) (m : QnxSigset), part { s with sigmask := m } = part s
  savedSigmask : ∀ (s : Machine) (m : Finset Nat), part { s with savedSigmask := m } = part s

namespace Machine.Untouched

variable {τ : Type} {part : Machine → τ} {p : Process}

theorem setRegs (h : Untouched part) {f : Registers → Registers}
    (hf : ∀ r, (f r).ectxFs = r.ectxFs ∧ (f r).ectxGs = r.ectxGs) : (EmuM.setRegs f).Keeps part :=
  EStateM.keeps_modify fun s => h.regs s _ (hf s.regs).1 (hf s.regs).2

theorem setMem (h : Untouched part) {f : Mem → Mem} : (EmuM.setMem f).Keeps part :=
  EStateM.keeps_modify fun s => h.mem s _

/-! ## Frames -/

theorem pushValue (h : Untouched part) {w : Nat} {v : BitVec (8 * w)} :
    (GuestContext.pushValue p w v).Keeps part := by
  unfold GuestContext.pushValue
  refine .bind (h.setRegs fun _ => ⟨rfl, rfl⟩) fun _ => .bind EStateM.keeps_get fun _ => ?_
  exact .bind EStateM.keeps_ofExcept fun _ => h.setMem

theorem popValue (h : Untouched part) {w : Nat} : (GuestContext.popValue p w).Keeps part := by
  unfold GuestContext.popValue
  refine .bind EStateM.keeps_get fun _ => .bind EStateM.keeps_ofExcept fun _ => ?_
  exact .bind (h.setRegs fun _ => ⟨rfl, rfl⟩) fun _ => EStateM.keeps_pure

/-- No line of `restore_context` assigns to FS or GS of the extra context. -/
theorem restoreAssigns_keep : ∀ assign ∈ GuestContext.restoreAssigns, ∀ r v,
    (assign r v).ectxFs = r.ectxFs ∧ (assign r v).ectxGs = r.ectxGs := by
  simp [GuestContext.restoreAssigns]

theorem syscallSigreturn (h : Untouched part) : (syscallSigreturn p).Keeps part := by
  unfold Emu.syscallSigreturn
  refine .bind h.popValue fun _ => .bind (EStateM.keeps_modify fun s => h.sigmask s _) fun _ => ?_
  refine .bind (EStateM.keeps_forM ?_) fun _ => h.setRegs fun _ => ⟨rfl, rfl⟩
  intro assign hassign
  exact .bind h.popValue fun v => h.setRegs fun r => restoreAssigns_keep assign hassign r v

theorem syscall16Sigreturn (h : Untouched part) : (syscall16Sigreturn p).Keeps part := by
  rw [syscall16Sigreturn_eq]
  exact .bind h.popValue fun _ => h.syscallSigreturn

theorem catchSegfault (h : Untouched part) {x : EmuM Unit} (hx : x.Keeps part) :
    (catchSegfault x).Keeps part := by
  refine hx.catch ?_
  intro e
  split
  · exact h.setRegs fun _ => ⟨rfl, rfl⟩
  · exact EStateM.keeps_throw

theorem pushFrame (h : Untouched part) {sigtab act signo : Nat} {saveSigmask : QnxSigset} :
    (pushFrame p sigtab act signo saveSigmask).Keeps part := by
  refine .bind (h.setRegs fun _ => ⟨rfl, rfl⟩) fun _ => .bind ?_ fun _ => .bind h.pushValue fun _ => ?_
  · -- the words of `save_context`
    refine .bind EStateM.keeps_get fun _ => EStateM.keeps_forM ?_
    exact fun _ _ => h.pushValue
  · unfold enterStub
    split
    · refine .bind h.pushValue fun _ => .bind h.pushValue fun _ => ?_
      refine .bind EStateM.keeps_get fun _ => .bind h.pushValue fun _ => ?_
      exact .bind EStateM.keeps_get fun _ => h.setRegs fun _ => ⟨rfl, rfl⟩
    · refine .bind h.pushValue fun _ => .bind EStateM.keeps_get fun _ => ?_
      exact .bind EStateM.keeps_get fun _ => h.setRegs fun _ => ⟨rfl, rfl⟩

theorem syncHostSigmask (h : Untouched part) : syncHostSigmask.Keeps part :=
  EStateM.keeps_modify fun s => h.savedSigmask s _

theorem startHandler (h : Untouched part) {act signo : Nat} : (startHandler p act signo).Keeps part := by
  refine .bind EStateM.keeps_get fun _ => .bind EStateM.keeps_get fun _ => ?_
  refine .bind EStateM.keeps_ofExcept fun _ => ?_
  refine .bind (EStateM.keeps_modify fun s => h.sigmask s _) fun _ => ?_
  refine .bind h.syncHostSigmask fun _ => ?_
  split
  · exact h.pushFrame
  · exact EStateM.keeps_throw

theorem updateTimesel (h : Untouched part) {now : Timespec} : (updateTimesel p now).Keeps part := by
  unfold Emu.updateTimesel
  dsimp only
  split
  · exact h.setMem
  · exact EStateM.keeps_throw

/-! ## Messages -/

theorem writeReply (h : Untouched part) {msg : Msg} {reply : SignalReply} :
    (writeReply p msg reply).Keeps part := by
  unfold Qine.writeReply EmuM.onMem
  exact .bind (EStateM.keeps_zoom fun m s => h.mem s m) fun _ => EStateM.keeps_pure

theorem signalSigact (h : Untouched part) {host : HostCall} {qnxSig : Nat} {handler : FarPointer}
    {mask : BitVec 32} : (signalSigact p host qnxSig handler mask).Keeps part := by
  unfold Emu.signalSigact
  split
  · refine .bind EStateM.keeps_get fun _ => .bind EStateM.keeps_ofExcept fun _ => ?_
    exact .bind (EStateM.keeps_modify fun s => h.sigmask s _) fun _ => EStateM.keeps_pure
  · split
    · exact EStateM.keeps_pure
    · split
      · exact EStateM.keeps_pure
      · exact .bind EStateM.keeps_ofExcept fun _ => .bind h.setMem fun _ => EStateM.keeps_pure

theorem procSigact (h : Untouched part) {host : HostCall} {msg : Msg} :
    (procSigact p host msg).Keeps part :=
  .bind EStateM.keeps_get fun _ => .bind EStateM.keeps_ofExcept fun _ =>
    .bind h.signalSigact fun _ => h.writeReply

theorem signalGetmask : signalGetmask.Keeps part := .bind EStateM.keeps_get fun _ => EStateM.keeps_pure

theorem procSigmask (h : Untouched part) {msg : Msg} : (procSigmask p msg).Keeps part := by
  refine .bind EStateM.keeps_get fun _ => .bind EStateM.keeps_ofExcept fun _ => ?_
  refine .bind signalGetmask fun _ => .bind (EStateM.keeps_modify fun s => h.sigmask s _) fun _ => ?_
  exact .bind signalGetmask fun _ => h.writeReply

theorem sendmx (h : Untouched part) {x : EmuM Unit} (hx : x.Keeps part) : (sendmx x).Keeps part :=
  h.catchSegfault (.bind hx fun _ => h.setRegs fun _ => ⟨rfl, rfl⟩)

end Machine.Untouched
end Qine
