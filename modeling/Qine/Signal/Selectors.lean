import Qine.Signal.Dispatch
import Qine.Signal.Untouched

/-!
# FS and GS across a signal

On the way into the emulator `ExtraContext::from_cpu` takes the segment registers from the CPU, on the
way out `to_cpu` loads them. `save_context` and `restore_context` go through the accessors of
`GuestContext`; of the four registers these take DS and ES from `ExtraContext`, but FS and GS from the
host's `ucontext_t`, where nobody has put them. So a `sigreturn` brings back DS and ES, and FS and GS
stay as the handler left them (`fs_gs_survive_iff`).
-/

namespace Qine

open Emu

variable {p : Process} {host : DispatchHost} {s s' : Machine} {now : Timespec}

/-- `FS` and `GS` of the extra context. -/
def Machine.fsGs (s : Machine) : BitVec 16 × BitVec 16 := (s.regs.ectxFs, s.regs.ectxGs)

/-- `FS` and `GS` of the segment registers. -/
def ExtraContext.fsGs (cpu : ExtraContext) : BitVec 16 × BitVec 16 := (cpu.fs, cpu.gs)

/-! ## What does not touch them -/

theorem Machine.fsGs_untouched : Untouched Machine.fsGs where
  regs _ _ hfs hgs := Prod.ext hfs hgs
  mem _ _ := rfl
  sigmask _ _ := rfl
  savedSigmask _ _ := rfl

theorem deliver_keeps {signo : Nat} : (deliver p signo).Keeps Machine.fsGs := by
  refine .bind EStateM.keeps_get fun _ => .bind EStateM.keeps_ofExcept fun _ => ?_
  refine .bind (EStateM.keeps_modify fun _ => rfl) fun _ => .bind EStateM.keeps_ofExcept fun _ => ?_
  refine .bind EStateM.keeps_get fun _ => ?_
  split
  · exact EStateM.keeps_throw
  · exact Machine.fsGs_untouched.startHandler

theorem signalTail_keeps : (signalTail p now).Keeps Machine.fsGs := by
  refine .bind Machine.fsGs_untouched.updateTimesel fun _ => .bind EStateM.keeps_get fun s => ?_
  split
  · exact EStateM.keeps_pure
  split
  · exact Machine.fsGs_untouched.syncHostSigmask
  split
  · exact deliver_keeps
  · exact EStateM.keeps_throw

/-! ## The trap of a `sigreturn` -/

/-- The guest is about to enter the emulator for a `sigreturn`. -/
def AtSigreturn (p : Process) (s : Machine) : Prop :=
  (matchesSyscall p s 0xF2 ≠ none ∧ s.regs.al = 7) ∨
    (matchesSyscall p s 0xF2 = none ∧ matchesSyscall p s 0xF1 = none ∧
      matchesSyscall p s 0xF0 ≠ none ∧
      ∃ a, p.translateSegmented ⟨s.regs.ss, s.regs.esp⟩ 2 = .ok a ∧ s.mem.loadWord 2 a = 7#16)

theorem dispatchSyscall_sigreturn (hal : s.regs.al = 7) :
    (dispatchSyscall p host).run s = (catchSegfault (syscallSigreturn p)).run s := by
  have hsyscalls : (syscalls p host).run s = (syscallSigreturn p).run s := by
    unfold syscalls
    rw [EStateM.run_get_bind, hal]
    rfl
  unfold dispatchSyscall catchSegfault
  rw [EStateM.run_catch, EStateM.run_catch, hsyscalls]

theorem dispatchSyscall16_sigreturn {a : Nat}
    (ha : p.translateSegmented ⟨s.regs.ss, s.regs.esp⟩ 2 = .ok a)
    (hnumber : s.mem.loadWord 2 a = 7#16) :
    (dispatchSyscall16 p host).run s = (catchSegfault (syscall16Sigreturn p)).run s := by
  have hread : (syscall16Number p).run s = .ok 7 s := by
    unfold syscall16Number
    rw [EStateM.run_get_bind, EStateM.run_ofExcept_bind ha, hnumber]
    rfl
  exact EStateM.run_bind_of_ok hread

theorem trapped_leaves (h : AtSigreturn p s) :
    (trapped p host).Leaves s (fun _ s' => s'.fsGs = s.fsGs) (fun _ s' => s'.fsGs = s.fsGs) := by
  apply EStateM.leaves_get_bind
  -- in both cases the instruction is skipped and the return carried out
  rcases h with ⟨hmatch, hal⟩ | ⟨hf2, hf1, hmatch, a, ha, hnumber⟩
  · obtain ⟨len, hlen⟩ := Option.ne_none_iff_exists'.mp hmatch
    rw [hlen]
    apply EStateM.leaves_modify_bind
    refine .bind ((Machine.fsGs_untouched.catchSegfault Machine.fsGs_untouched.syscallSigreturn _).congr
      (dispatchSyscall_sigreturn hal)) ?_
    exact fun _ _ h => EStateM.leaves_pure h
  · obtain ⟨len, hlen⟩ := Option.ne_none_iff_exists'.mp hmatch
    rw [hf2, hf1, hlen]
    apply EStateM.leaves_modify_bind
    refine .bind ((Machine.fsGs_untouched.catchSegfault Machine.fsGs_untouched.syscall16Sigreturn _).congr
      (dispatchSyscall16_sigreturn ha hnumber)) ?_
    exact fun _ _ h => EStateM.leaves_pure h

theorem handleGuestSegv_keeps : (handleGuestSegv p).Keeps Machine.fsGs := by
  unfold handleGuestSegv
  split
  · exact EStateM.keeps_throw
  refine .bind EStateM.keeps_get fun s => ?_
  split
  · exact EStateM.keeps_throw
  · refine .bind EStateM.keeps_get fun _ => .bind EStateM.keeps_ofExcept fun _ => ?_
    exact EStateM.keeps_modify fun _ => rfl

/-- What `to_cpu` loads after `signal_tail` is what there was before it. -/
theorem tailToCpu_leaves {fsGs : BitVec 16 × BitVec 16} (h : s.fsGs = fsGs) :
    (tailToCpu p now).Leaves s (fun loaded _ => ∀ l, loaded = some l → l.fsGs = fsGs)
      (fun _ s' => s'.fsGs = fsGs) := by
  unfold tailToCpu
  apply EStateM.leaves_get_bind
  refine .bind ((signalTail_keeps s).mono (fun _ _ h => h) fun _ _ h₁ => h₁.trans h) ?_
  intro _ s₁ h₁
  apply EStateM.leaves_get_bind
  apply EStateM.leaves_pure
  intro l hl
  split at hl
  · cases hl
    exact h₁.trans h
  · cases hl

/-- From the trap of a `sigreturn` the CPU goes on with the `FS` and `GS` it came with. -/
theorem handlerSegv_sigreturn {siCode : Int} {cpu loaded : ExtraContext} (hat : AtSigreturn p s)
    (h : (handlerSegv p host now siCode cpu).run s = .ok (some loaded) s') :
    loaded.fsGs = cpu.fsGs := by
  have hleaves : (handlerSegv p host now siCode cpu).Leaves s
      (fun loaded _ => ∀ l, loaded = some l → l.fsGs = cpu.fsGs)
      (fun _ s' => s'.fsGs = cpu.fsGs) := by
    unfold handlerSegv
    apply EStateM.leaves_modify_bind
    split
    · refine .bind (Q := fun _ s' => s'.fsGs = cpu.fsGs) (handleGuestSegv_keeps _) ?_
      exact fun _ s₁ h₁ => tailToCpu_leaves h₁
    apply EStateM.leaves_get_bind
    split
    · exact EStateM.leaves_throw rfl
    apply EStateM.leaves_get_bind
    apply EStateM.leaves_modify_bind
    dsimp only
    -- the migration does not change what the instruction is
    have hat' : AtSigreturn p { s with regs := migrate (s.regs.fromCpu cpu) } := hat
    refine .bind (Q := fun _ s' => s'.fsGs = cpu.fsGs) (trapped_leaves hat') ?_
    intro syscall s₁ h₁
    split
    · refine .bind (Q := fun _ s' => s'.fsGs = cpu.fsGs) ?_ fun _ s₂ h₂ => tailToCpu_leaves h₂
      rw [← h₁]
      exact handleGuestSegv_keeps s₁
    · exact tailToCpu_leaves h₁
  exact hleaves.of_ok h loaded rfl

/-! ## From a delivery to the return -/

/-- A signal, from the trap that delivers it to the trap from which the interrupted code goes on. In
between the handler runs: it may leave the machine in any state in which it calls `sigreturn`. -/
structure Interruption (p : Process) (host : DispatchHost) where
  now : Timespec
  /-- what `from_cpu` finds when the signal is delivered -/
  captured : ExtraContext
  interrupted : Machine
  entered : Machine
  delivery : Delivery p now { interrupted with regs := interrupted.regs.fromCpu captured } entered
  now' : Timespec
  siCode : Int
  /-- what the handler has in the segment registers when it returns -/
  left : ExtraContext
  returning : Machine
  sigreturn : AtSigreturn p returning
  /-- what `to_cpu` loads then -/
  loaded : ExtraContext
  resumed : Machine
  resume : (handlerSegv p host now' siCode left).run returning = .ok (some loaded) resumed

/-- FS and GS survive a signal exactly if the handler has them back itself when it returns. -/
theorem fs_gs_survive_iff (i : Interruption p host) :
    (i.loaded.fs = i.captured.fs ∧ i.loaded.gs = i.captured.gs) ↔
      (i.left.fs = i.captured.fs ∧ i.left.gs = i.captured.gs) := by
  have hloaded : i.loaded.fsGs = i.left.fsGs := handlerSegv_sigreturn i.sigreturn i.resume
  obtain ⟨hfs, hgs⟩ := Prod.ext_iff.mp hloaded
  rw [show i.loaded.fs = i.left.fs from hfs, show i.loaded.gs = i.left.gs from hgs]

/-- The guest is interrupted with selector 15 in FS and GS, its handler loads the null selector into
both and returns. DS and ES come back, FS and GS do not. -/
theorem fs_gs_lost :
    ∃ i : Interruption (Process.smallGuest .b32 .readOnly) .silent,
      i.loaded.ds = i.captured.ds ∧ i.loaded.es = i.captured.es ∧
        ¬ (i.loaded.fs = i.captured.fs ∧ i.loaded.gs = i.captured.gs) := by
  let p := Process.smallGuest .b32 .readOnly
  let cpu : ExtraContext := ⟨7, 7, 15, 15⟩
  let s : Machine := { Machine.smallGuest 7 0x1000 with sigpend := ⟨1⟩ }
  let interrupted : Machine := { s with regs := s.regs.fromCpu cpu }
  let entered := (signalTail p ⟨0, 0⟩).after interrupted
  -- the handler has gone back up to its frame, and is at an `int 0xF2`
  let returning : Machine := { entered with
    regs := { entered.regs with eax := 7, esp := 0xF40, eip := 0x800 }
    mem := entered.mem.storeWord 2 0x1800 0xF2CD#16 }
  have hd : Delivery p ⟨0, 0⟩ interrupted entered :=
    ⟨by decide +kernel, by decide +kernel, EStateM.run_after (by decide +kernel)⟩
  have hresume : (handlerSegv p .silent ⟨1, 0⟩ 1 ⟨0, 0, 0, 0⟩).run' returning =
      some (some ⟨7, 7, 0, 0⟩) := by decide +kernel
  have hlost : ¬ ((0 : BitVec 16) = 15 ∧ (0 : BitVec 16) = 15) := by decide
  exact ⟨⟨⟨0, 0⟩, cpu, s, entered, hd, ⟨1, 0⟩, 1, ⟨0, 0, 0, 0⟩, returning, .inl (by decide +kernel),
    ⟨7, 7, 0, 0⟩, _, EStateM.run_of_run' hresume⟩, rfl, rfl, hlost⟩

end Qine
