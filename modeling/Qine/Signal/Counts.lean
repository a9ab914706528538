import Qine.Signal.Pending
import Qine.Signal.Untouched

/-!
# Raises and deliveries

`m_sigpend` has one bit for a signal, however often it is raised, and the bit is what decides about a
delivery. To say what it means, the routines that raise and deliver signals are taken with a record of the
raises and the deliveries so far (`Observed`). The record changes nothing (`routine_shadows`). Over every
run, a signal is pending exactly if it was raised since it was last delivered
(`signals_accounted_for`), so none is lost and none comes up twice.
-/

namespace Qine

open Emu MainHandler

/-! ## The record -/

/-- What can happen to a signal. -/
inductive SigEvent where
  | raised (signo : Nat)
  /-- the signal was picked in state `before`, and in state `after` its handler is about to run -/
  | delivered (signo : Nat) (before after : Machine)

/-- The machine, and the events so far, the latest first. -/
structure Observed where
  machine : Machine
  events : List SigEvent

/-- A routine that is observed. -/
abbrev ObservedM := EStateM Fault Observed

namespace Observed

/-- A routine that neither raises nor delivers a signal. -/
def silently {α : Type} (x : EmuM α) : ObservedM α :=
  EStateM.zoom Observed.machine (fun s o => { o with machine := s }) x

/-- `Emu::signal_raise`. -/
def signalRaise (qnxSig : Nat) : ObservedM Unit := do
  silently (Emu.signalRaise qnxSig)
  modify fun o => { o with events := .raised qnxSig :: o.events }

variable (p : Process)

/-- `Emu::signal_tail` from the picked signal on. -/
def deliver (signo : Nat) : ObservedM Unit := do
  let before ← get
  silently (Emu.deliver p signo)
  modify fun o => { o with events := .delivered signo before.machine o.machine :: o.events }

/-- `Emu::signal_tail`. -/
def signalTail (now : Timespec) : ObservedM Unit := do
  silently (updateTimesel p now)
  let o ← get
  if o.machine.regs.cs &&& SegmentDescriptor.selLdt = 0 then return
  if (activesig o.machine).isEmpty then
    silently syncHostSigmask
  else
    match (activesig o.machine).findFirst with
    | some signo => deliver p signo
    | none => throw (.assertion "signo >= Qnx::QSIGMIN && signo <= Qnx::QSIGMAX")

/-- `Emu::handler_generic`. -/
def handlerGeneric (now : Timespec) (sig : Nat) : ObservedM Unit := do
  match QnxSigset.mapSigHostToQnx sig with
  | none => throw (.guestState "Received signal, it is registered, but not QNX signal.")
  | some qnxSig =>
    signalRaise qnxSig
    signalTail p now

/-- `MainHandler::proc_sigraise`. -/
def procSigraise (msg : Msg) : ObservedM Unit := do
  let o ← get
  let req ← EStateM.ofExcept (SignalRequest.read p o.machine.mem msg)
  signalRaise req.signum.toNat
  silently (writeReply p msg ⟨0, 0, 0⟩)

/-- The `catch` of the dispatchers. -/
def catchSegfault (x : ObservedM Unit) : ObservedM Unit :=
  tryCatch x fun e =>
    match e with
    | .segmentationFault _ => silently <|
      EmuM.setRegs fun r => { r with eax := BitVec.ofInt 32 qefault, eflags := r.eflags ||| 1 }
    | e => throw e

/-- A message as the dispatcher sees it. -/
def sendmx (handler : ObservedM Unit) : ObservedM Unit :=
  catchSegfault do
    handler
    silently (EmuM.setRegs fun r => { r with eax := BitVec.ofInt 32 qeok })

end Observed

/-- What can happen: the actions on the signal state, and a signal that `handle_guest_segv` raises. -/
inductive ObservedAction where
  | action (a : SigAction)
  | raise (qnxSig : Nat)

/-- The host's part of an action. -/
def ObservedAction.routine (p : Process) : ObservedAction → EmuM Unit
  | .action a => a.routine p
  | .raise qnxSig => signalRaise qnxSig

/-- The same, observed. -/
def ObservedAction.observed (p : Process) : ObservedAction → ObservedM Unit
  | .action (.sigraise msg) => Observed.sendmx (Observed.procSigraise p msg)
  | .action (.arrival now hostSig) => Observed.handlerGeneric p now hostSig
  | .action (.tail now) => Observed.signalTail p now
  | .action a => Observed.silently (a.routine p)
  | .raise qnxSig => Observed.signalRaise qnxSig

/-! ## The record changes nothing -/

namespace Observed

variable {p : Process} {now : Timespec} {α : Type}

theorem silently_shadows {x : EmuM α} : (silently x).Shadows Observed.machine x :=
  EStateM.shadows_zoom fun _ _ => rfl

theorem signalRaise_shadows {qnxSig : Nat} :
    (signalRaise qnxSig).Shadows Observed.machine (Emu.signalRaise qnxSig) :=
  silently_shadows.modify fun _ => rfl

theorem deliver_shadows {signo : Nat} :
    (deliver p signo).Shadows Observed.machine (Emu.deliver p signo) := by
  intro o
  have h := @silently_shadows _ (Emu.deliver p signo)
  exact h.modify (u := fun o' => { o' with
    events := .delivered signo o.machine o'.machine :: o'.events }) (fun _ => rfl) o

theorem signalTail_shadows : (signalTail p now).Shadows Observed.machine (Emu.signalTail p now) := by
  refine silently_shadows.bind fun _ => EStateM.shadows_get_bind fun o => ?_
  split
  · exact EStateM.shadows_pure
  split
  · exact silently_shadows
  cases (activesig o.machine).findFirst with
  | some signo => exact deliver_shadows
  | none => exact EStateM.shadows_throw

theorem handlerGeneric_shadows {sig : Nat} :
    (handlerGeneric p now sig).Shadows Observed.machine (Emu.handlerGeneric p now sig) := by
  unfold handlerGeneric Emu.handlerGeneric
  cases QnxSigset.mapSigHostToQnx sig with
  | none => exact EStateM.shadows_throw
  | some qnxSig => exact signalRaise_shadows.bind fun _ => signalTail_shadows

theorem procSigraise_shadows {msg : Msg} :
    (procSigraise p msg).Shadows Observed.machine (MainHandler.procSigraise p msg) :=
  EStateM.shadows_get_bind fun _ => EStateM.shadows_ofExcept.bind fun _ =>
    signalRaise_shadows.bind fun _ => silently_shadows

theorem catchSegfault_shadows {y : ObservedM Unit} {x : EmuM Unit} (h : y.Shadows Observed.machine x) :
    (catchSegfault y).Shadows Observed.machine (Emu.catchSegfault x) := by
  refine h.catch fun e => ?_
  cases e with
  | segmentationFault what => exact silently_shadows
  | _ => exact EStateM.shadows_throw

theorem sendmx_shadows {y : ObservedM Unit} {x : EmuM Unit} (h : y.Shadows Observed.machine x) :
    (sendmx y).Shadows Observed.machine (Emu.sendmx x) :=
  catchSegfault_shadows (h.bind fun _ => silently_shadows)

end Observed

theorem routine_shadows (p : Process) (a : ObservedAction) :
    (a.observed p).Shadows Observed.machine (a.routine p) := by
  cases a with
  | raise qnxSig => exact Observed.signalRaise_shadows
  | action a =>
      cases a with
      | sigraise msg => exact Observed.sendmx_shadows Observed.procSigraise_shadows
      | arrival now hostSig => exact Observed.handlerGeneric_shadows
      | tail now => exact Observed.signalTail_shadows
      | _ => exact Observed.silently_shadows

/-! ## The books -/

/-- How often the signal was raised. -/
def raises (signo : Nat) : List SigEvent → Nat
  | [] => 0
  | .raised n :: es => raises signo es + if n = signo then 1 else 0
  | .delivered _ _ _ :: es => raises signo es

/-- How often the signal was delivered. -/
def deliveries (signo : Nat) : List SigEvent → Nat
  | [] => 0
  | .raised _ :: es => deliveries signo es
  | .delivered n _ _ :: es => deliveries signo es + if n = signo then 1 else 0

/-- The signal was raised since it was last delivered. -/
def Outstanding (signo : Nat) : List SigEvent → Prop
  | [] => False
  | .raised n :: es => n = signo ∨ Outstanding signo es
  | .delivered n _ _ :: es => n ≠ signo ∧ Outstanding signo es

/-- A delivery as it should be: of the lowest signal that is pending and not masked. The signal is not
pending any more, and masked like those its action masks, and nothing else has changed about signals. -/
structure Proper (p : Process) (signo : Nat) (before after : Machine) : Prop where
  pending : before.sigpend.Has signo
  unmasked : ¬ before.sigmask.Has signo
  lowest : ∀ n < signo, before.sigpend.Has n → before.sigmask.Has n
  cleared : ∀ n, after.sigpend.Has n ↔ before.sigpend.Has n ∧ n ≠ signo
  masked : ∃ sigtab, p.sigtab = some sigtab ∧ ∀ n, after.sigmask.Has n ↔ before.sigmask.Has n ∨
    QnxSigset.Has ⟨before.mem.loadWord 4 (sigactionAt sigtab signo + Sigaction.mask)⟩ n ∨ n = signo

/-- The record agrees with the pending set. -/
structure Bookkept (p : Process) (o : Observed) : Prop where
  pending : ∀ signo, o.machine.sigpend.Has signo ↔ Outstanding signo o.events
  le : ∀ signo, deliveries signo o.events ≤ raises signo o.events
  lt : ∀ signo, Outstanding signo o.events → deliveries signo o.events < raises signo o.events
  proper : ∀ signo before after, .delivered signo before after ∈ o.events → Proper p signo before after

variable {p : Process} {o o' : Observed} {s s' : Machine} {signo : Nat} {now : Timespec}

theorem Bookkept.congr (h : Bookkept p o) (hpend : s.sigpend = o.machine.sigpend) :
    Bookkept p { o with machine := s } :=
  ⟨fun n => by rw [hpend]; exact h.pending n, h.le, h.lt, h.proper⟩

/-- A raise is written down. -/
theorem Bookkept.raised (h : Bookkept p o) (hset : o.machine.sigpend.setQnxSig signo = .ok s.sigpend) :
    Bookkept p ⟨s, .raised signo :: o.events⟩ := by
  refine ⟨?_, ?_, ?_, ?_⟩
  · intro n
    show s.sigpend.Has n ↔ signo = n ∨ Outstanding n o.events
    rw [QnxSigset.has_setQnxSig hset, h.pending n, eq_comm]
  · intro n
    exact Nat.le_trans (h.le n) (Nat.le_add_right _ _)
  · rintro n (hn | hn)
    · have hle := h.le n
      show deliveries n o.events < raises n o.events + if signo = n then 1 else 0
      rw [if_pos hn]
      exact Nat.lt_succ_of_le hle
    · exact Nat.lt_of_lt_of_le (h.lt n hn) (Nat.le_add_right _ _)
  · intro n before after hmem
    rcases List.mem_cons.mp hmem with heq | hold
    · cases heq
    · exact h.proper n before after hold

/-- A delivery is written down. -/
theorem Bookkept.delivered (h : Bookkept p o) (hd : Proper p signo o.machine s) :
    Bookkept p ⟨s, .delivered signo o.machine s :: o.events⟩ := by
  have hout : Outstanding signo o.events := (h.pending signo).mp hd.pending
  refine ⟨?_, ?_, ?_, ?_⟩
  · intro n
    show s.sigpend.Has n ↔ signo ≠ n ∧ Outstanding n o.events
    rw [hd.cleared n, h.pending n]
    tauto
  · intro n
    show deliveries n o.events + (if signo = n then 1 else 0) ≤ raises n o.events
    split
    · next heq => exact h.lt n (heq ▸ hout)
    · exact h.le n
  · rintro n ⟨hne, hn⟩
    show deliveries n o.events + (if signo = n then 1 else 0) < raises n o.events
    rw [if_neg hne]
    exact h.lt n hn
  · intro n before after hmem
    rcases List.mem_cons.mp hmem with heq | hold
    · cases heq
      exact hd
    · exact h.proper n before after hold

/-- What `signal_tail` delivers, it delivers as it should. -/
theorem proper_of_deliver (hfind : (activesig s).findFirst = some signo)
    (h : (deliver p signo).run s = .ok () s') : Proper p signo s s' := by
  obtain ⟨sigtab, sigpend, sigmask, htab, hclear, -, hset, hframe⟩ := deliver_ok h
  have hpushed := pushFrame_ok hframe
  obtain ⟨hpending, hunmasked⟩ := QnxSigset.has_modify_empty.mp (QnxSigset.findFirst_eq_some hfind)
  refine ⟨hpending, hunmasked, ?_, ?_, sigtab, htab, ?_⟩
  · intro n hlt hn
    by_contra hmask
    exact QnxSigset.findFirst_lowest hfind hlt (QnxSigset.has_modify_empty.mpr ⟨hn, hmask⟩)
  · intro n
    rw [hpushed.sigpend]
    exact QnxSigset.has_clearQnxSig hclear
  · intro n
    rw [hpushed.sigmask]
    show sigmask.Has n ↔ _
    rw [QnxSigset.has_setQnxSig hset, QnxSigset.has_or]
    tauto

/-! ## Routines -/

theorem Machine.sigpend_untouched : Untouched Machine.sigpend :=
  ⟨fun _ _ _ _ => rfl, fun _ _ => rfl, fun _ _ => rfl, fun _ _ => rfl⟩

namespace Observed

/-- What keeps the pending set keeps the books. -/
theorem silently_leaves {α : Type} {x : EmuM α} (hx : x.Keeps Machine.sigpend) (h : Bookkept p o) :
    (silently x).Leaves o (fun _ => Bookkept p) (fun _ => Bookkept p) := by
  apply EStateM.leaves_zoom
  exact (hx o.machine).mono (fun _ _ h₁ => h.congr h₁) (fun _ _ h₁ => h.congr h₁)

theorem signalRaise_leaves {qnxSig : Nat} (h : Bookkept p o) :
    (signalRaise qnxSig).Leaves o (fun _ => Bookkept p) (fun _ => Bookkept p) := by
  unfold signalRaise
  refine EStateM.Leaves.bind (Q := fun _ o₁ => o₁.events = o.events ∧
    o.machine.sigpend.setQnxSig qnxSig = .ok o₁.machine.sigpend) ?_ ?_
  · apply EStateM.leaves_zoom
    unfold Emu.signalRaise
    apply EStateM.leaves_get_bind
    apply EStateM.leaves_ofExcept_bind
    · exact fun sigpend hset => EStateM.leaves_modify ⟨rfl, hset⟩
    · exact fun _ _ => h
  · rintro _ o₁ ⟨hevents, hset⟩
    apply EStateM.leaves_modify
    rw [hevents]
    exact h.raised hset

theorem deliver_leaves (hfind : (activesig o.machine).findFirst = some signo) (h : Bookkept p o) :
    (deliver p signo).Leaves o (fun _ => Bookkept p) (fun _ _ => True) := by
  unfold deliver
  apply EStateM.leaves_get_bind
  refine EStateM.Leaves.bind (Q := fun _ o₁ => o₁.events = o.events ∧
    Proper p signo o.machine o₁.machine) ?_ ?_
  · apply EStateM.leaves_zoom
    exact ⟨fun hrun => ⟨rfl, proper_of_deliver hfind hrun⟩, fun _ => trivial⟩
  · rintro _ o₁ ⟨hevents, hproper⟩
    apply EStateM.leaves_modify
    rw [hevents]
    exact h.delivered hproper

theorem signalTail_leaves (h : Bookkept p o) :
    (signalTail p now).Leaves o (fun _ => Bookkept p) (fun _ _ => True) := by
  unfold signalTail
  have hbooks {x : ObservedM Unit} {o₁ : Observed}
      (hx : x.Leaves o₁ (fun _ => Bookkept p) (fun _ => Bookkept p)) :
      x.Leaves o₁ (fun _ => Bookkept p) (fun _ _ => True) :=
    hx.mono (fun _ _ h => h) (fun _ _ _ => trivial)
  refine (hbooks (silently_leaves Machine.sigpend_untouched.updateTimesel h)).bind fun _ o₁ h₁ => ?_
  apply EStateM.leaves_get_bind
  split
  · exact EStateM.leaves_pure h₁
  split
  · exact hbooks (silently_leaves Machine.sigpend_untouched.syncHostSigmask h₁)
  split
  · next signo hfind => exact deliver_leaves hfind h₁
  · exact EStateM.leaves_throw trivial

theorem handlerGeneric_leaves {sig : Nat} (h : Bookkept p o) :
    (handlerGeneric p now sig).Leaves o (fun _ => Bookkept p) (fun _ _ => True) := by
  unfold handlerGeneric
  split
  · exact EStateM.leaves_throw trivial
  · next qnxSig _ =>
      refine ((signalRaise_leaves h).mono (fun _ _ h => h) (fun _ _ _ => trivial)).bind ?_
      exact fun _ _ h₁ => signalTail_leaves h₁

theorem procSigraise_leaves {msg : Msg} (h : Bookkept p o) :
    (procSigraise p msg).Leaves o (fun _ => Bookkept p) (fun _ => Bookkept p) := by
  unfold procSigraise
  apply EStateM.leaves_get_bind
  apply EStateM.leaves_ofExcept_bind
  · intro req _
    refine (signalRaise_leaves h).bind fun _ _ h₁ => ?_
    exact silently_leaves Machine.sigpend_untouched.writeReply h₁
  · exact fun _ _ => h

/-- The reply may fault after the raise; the dispatcher goes on all the same. -/
theorem sendmx_leaves {x : ObservedM Unit}
    (h : x.Leaves o (fun _ => Bookkept p) (fun _ => Bookkept p)) :
    (sendmx x).Leaves o (fun _ => Bookkept p) (fun _ => Bookkept p) := by
  have hregs (f : Registers → Registers) : (EmuM.setRegs f).Keeps Machine.sigpend :=
    EStateM.keeps_modify fun _ => rfl
  refine EStateM.leaves_catch (h.bind fun _ _ h₁ => silently_leaves (hregs _) h₁) fun e o₁ h₁ => ?_
  split
  · exact silently_leaves (hregs _) h₁
  · exact EStateM.leaves_throw h₁

end Observed

/-- One action keeps the books. -/
theorem observed_leaves (a : ObservedAction) (h : Bookkept p o) :
    (a.observed p).Leaves o (fun _ => Bookkept p) (fun _ _ => True) := by
  have hbooks {x : ObservedM Unit} (hx : x.Leaves o (fun _ => Bookkept p) (fun _ => Bookkept p)) :
      x.Leaves o (fun _ => Bookkept p) (fun _ _ => True) :=
    hx.mono (fun _ _ h => h) (fun _ _ _ => trivial)
  have hpart := Machine.sigpend_untouched
  cases a with
  | raise qnxSig => exact hbooks (Observed.signalRaise_leaves h)
  | action a =>
      cases a with
      | sigraise msg => exact hbooks (Observed.sendmx_leaves (Observed.procSigraise_leaves h))
      | arrival now hostSig => exact Observed.handlerGeneric_leaves h
      | tail now => exact Observed.signalTail_leaves h
      | sigact host msg => exact hbooks (Observed.silently_leaves (hpart.sendmx hpart.procSigact) h)
      | sigmask msg => exact hbooks (Observed.silently_leaves (hpart.sendmx hpart.procSigmask) h)
      | sigreturn =>
          exact hbooks (Observed.silently_leaves (hpart.catchSegfault hpart.syscallSigreturn) h)
      | sigreturn16 =>
          exact hbooks (Observed.silently_leaves (hpart.catchSegfault hpart.syscall16Sigreturn) h)
      | guest regs mem => exact hbooks (Observed.silently_leaves (EStateM.keeps_modify fun _ => rfl) h)

/-! ## Runs -/

/-- One action that returns. -/
def ObservedStep (p : Process) (o o' : Observed) : Prop := ∃ a, (ObservedAction.observed p a).run o = .ok () o'

/-- Every run of the emulator has a record. -/
theorem exists_record (hrun : Relation.ReflTransGen
    (fun s s' => ∃ a, (ObservedAction.routine p a).run s = .ok () s') s s') :
    ∃ o, Relation.ReflTransGen (ObservedStep p) ⟨s, []⟩ o ∧ o.machine = s' := by
  induction hrun with
  | refl => exact ⟨_, .refl, rfl⟩
  | tail _ hstep ih =>
      obtain ⟨o, hrun, rfl⟩ := ih
      obtain ⟨a, ha⟩ := hstep
      obtain ⟨o', ho', hmachine⟩ := (routine_shadows p a).exists_ok ha
      exact ⟨o', hrun.tail ⟨a, ho'⟩, hmachine⟩

theorem bookkept_of_run (hempty : s.sigpend = .empty)
    (hrun : Relation.ReflTransGen (ObservedStep p) ⟨s, []⟩ o) : Bookkept p o := by
  induction hrun with
  | refl =>
      refine ⟨?_, fun _ => Nat.le_refl _, fun _ h => h.elim, fun _ _ _ h => by cases h⟩
      intro signo
      show s.sigpend.Has signo ↔ False
      rw [hempty]
      simp [QnxSigset.Has, QnxSigset.empty]
  | tail _ hstep ih =>
      obtain ⟨a, ha⟩ := hstep
      exact (observed_leaves a ih).of_ok ha

/-- Over every run from no pending signals: each delivery is of the lowest signal that is pending and not
masked, a signal is pending exactly if it was raised since it was last delivered, and no signal is
delivered more often than it is raised. -/
theorem signals_accounted_for (hempty : s.sigpend = .empty)
    (hrun : Relation.ReflTransGen (ObservedStep p) ⟨s, []⟩ o) :
    (∀ signo before after, .delivered signo before after ∈ o.events → Proper p signo before after) ∧
      (∀ signo, o.machine.sigpend.Has signo ↔ Outstanding signo o.events) ∧
      ∀ signo, deliveries signo o.events ≤ raises signo o.events := by
  have hbooks := bookkept_of_run hempty hrun
  exact ⟨hbooks.proper, hbooks.pending, hbooks.le⟩

/-- A signal is raised twice and delivered once. -/
theorem signals_accounted_for_twice :
    let p := Process.smallGuest .b32 .readOnly
    let s : Machine := { Machine.smallGuest 7 0x1000 with sigpend := .empty }
    let o₁ := ((ObservedAction.raise 1).observed p).after ⟨s, []⟩
    let o₂ := ((ObservedAction.raise 1).observed p).after o₁
    let o₃ := ((ObservedAction.action (.tail ⟨0, 0⟩)).observed p).after o₂
    raises 1 o₃.events = 2 ∧ deliveries 1 o₃.events = 1 ∧ ¬ o₃.machine.sigpend.Has 1 ∧
      deliveries 1 o₃.events ≤ raises 1 o₃.events := by
  intro p s o₁ o₂ o₃
  have h₁ : ObservedStep p ⟨s, []⟩ o₁ := ⟨_, EStateM.run_after (by decide +kernel)⟩
  have h₂ : ObservedStep p o₁ o₂ := ⟨_, EStateM.run_after (by decide +kernel)⟩
  have h₃ : ObservedStep p o₂ o₃ := ⟨_, EStateM.run_after (by decide +kernel)⟩
  obtain ⟨-, -, hle⟩ := signals_accounted_for rfl (((Relation.ReflTransGen.refl.tail h₁).tail h₂).tail h₃)
  exact ⟨by decide +kernel, by decide +kernel, by decide +kernel, hle 1⟩

end Qine
