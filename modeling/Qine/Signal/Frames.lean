import Mathlib.Logic.Relation
import Qine.Signal.Emu

/-!
# Nested signals

A guest is interrupted, its handler runs, is interrupted itself, and so on; each `sigreturn` has to
bring back the context its delivery interrupted. The code keeps no record of the open deliveries:
what there is to know about them lies in the frames on the guest's stack.

The model adds the record. A `Config` carries, besides the machine, a `Frame` for every delivery
that has not returned yet, with the context as it was just before. `intact_of_run` shows that in
every run the frames stay readable as they were stored, and `sigreturn_restores` that therefore
every well-nested return restores its context.

Nothing but the guest's own stack pointer keeps a delivery away from the frames of the outer ones,
and `signal_tail` rewrites the time segment whatever is stored there. So deliveries are asked to be
`Clear`; `unclear_deliveries` shows both parts of that to be needed.
-/

namespace Qine

open Emu

variable {p : Process} {now : Timespec} {s s' t u v : Machine}

/-! ## Frames -/

/-- A delivery that has not returned yet: the registers and the mask just before it. -/
structure Frame where
  regs : Registers
  sigmask : QnxSigset
  deriving DecidableEq, Repr

namespace Frame

/-- The frame of a delivery that interrupts `s`. -/
def of (s : Machine) : Frame := ⟨s.regs, s.sigmask⟩

/-- The stack offset of the saved mask. -/
def maskOffset (f : Frame) : Nat := f.regs.esp.toNat - 192

/-- The host address of the saved mask, the lowest word of the frame. -/
def addr (p : Process) (f : Frame) : Nat := p.baseOf f.regs.ss + f.maskOffset

/-- The words of the frame, upwards from the mask. -/
def words (f : Frame) : List (BitVec 32) :=
  f.sigmask.value :: (GuestContext.savedWords (f.regs.withEsp (f.regs.esp - redline))).reverse

/-- The byte at host address `x` belongs to the frame. -/
def Covers (p : Process) (f : Frame) (x : Nat) : Prop :=
  f.addr p ≤ x ∧ x < f.addr p + frameBytes

/-- A handler of this frame calls `sigreturn`: its stack pointer is back at the saved mask. -/
def Entered (f : Frame) (u : Machine) : Prop :=
  u.regs.ss = f.regs.ss ∧ u.regs.esp.toNat = f.maskOffset

/-- A handler of this frame calls the 16-bit `sigreturn`: the system call number is still below the
saved mask. -/
def Entered16 (f : Frame) (u : Machine) : Prop :=
  u.regs.ss = f.regs.ss ∧ u.regs.esp.toNat + 2 = f.maskOffset

end Frame

/-- Registers and mask of `v` are those of `s`. `FS` and the two selectors that are only kept in
`ExtraContext` are not part of a frame and stay as the handler (`u`) left them. -/
def Restored (s u v : Machine) : Prop :=
  v.regs = { s.regs with fs := u.regs.fs, ectxFs := u.regs.ectxFs, ectxGs := u.regs.ectxGs } ∧
    v.sigmask = s.sigmask

/-! ## Runs -/

/-- `signal_tail` picks a pending signal of the guest. -/
structure Delivery (p : Process) (now : Timespec) (s s' : Machine) : Prop where
  toGuest : s.regs.cs &&& SegmentDescriptor.selLdt ≠ 0
  active : (activesig s).isEmpty = false
  run : (signalTail p now).run s = .ok () s'

/-- The selector does not lead to the time segment. -/
def Process.NotTime (p : Process) (sel : BitVec 16) : Prop :=
  ∀ sd, p.descriptorBySelector sel = some sd → sd.seg ≠ p.timeSegment

/-- What a delivery would push over `s` lies outside the frame. -/
def Frame.Spared (p : Process) (s : Machine) (f : Frame) : Prop :=
  p.baseOf s.regs.ss + (s.regs.esp.toNat - 128) ≤ f.addr p ∨
    f.addr p + frameBytes ≤ p.baseOf s.regs.ss + (s.regs.esp.toNat - 192) - argBytes p.bits

/-- A delivery over `s` spares the live frames and does not go to the time segment. -/
structure Clear (p : Process) (s : Machine) (live : List Frame) : Prop where
  spared : ∀ f ∈ live, f.Spared p s
  notTime : p.NotTime s.regs.ss

/-- A machine with its open deliveries, the innermost first. -/
structure Config where
  machine : Machine
  live : List Frame

/-- One step of a well-nested run in which deliveries meet `Adm`. The guest may change any register
and any byte outside the live frames; its own system calls and messages are such steps too. -/
inductive NestStep (p : Process) (Adm : Machine → List Frame → Prop) : Config → Config → Prop
  | deliver {now s s' live} (hadm : Adm s live) (h : Delivery p now s s') :
      NestStep p Adm ⟨s, live⟩ ⟨s', .of s :: live⟩
  | guest {s s' live} (h : ∀ f ∈ live, ∀ x, f.Covers p x → s'.mem x = s.mem x) :
      NestStep p Adm ⟨s, live⟩ ⟨s', live⟩
  | sigreturn {s s' f live} (hin : f.Entered s) (h : (syscallSigreturn p).run s = .ok () s') :
      NestStep p Adm ⟨s, f :: live⟩ ⟨s', live⟩
  | sigreturn16 {s s' f live} (hin : f.Entered16 s) (h : (syscall16Sigreturn p).run s = .ok () s') :
      NestStep p Adm ⟨s, f :: live⟩ ⟨s', live⟩

/-- A well-nested run. -/
def NestRun (p : Process) (Adm : Machine → List Frame → Prop) : Config → Config → Prop :=
  Relation.ReflTransGen (NestStep p Adm)

/-! ## The invariant -/

/-- The frame is on the stack as it was stored, and a return can read it. -/
structure Frame.Intact (p : Process) (m : Mem) (f : Frame) : Prop where
  room : 194 ≤ f.regs.esp.toNat
  accessible : ∀ k < 16, p.Accessible f.regs.ss (f.maskOffset + 4 * k) 4
  below : p.Accessible f.regs.ss (f.maskOffset - 2) 2
  notTime : p.NotTime f.regs.ss
  words : m.loadWords 4 (f.addr p) 16 = f.words

/-- The time structure that `signal_tail` rewrites. -/
def Process.InTimesel (p : Process) (x : Nat) : Prop :=
  (p.segments p.timeSegment).location ≤ x ∧
    x < (p.segments p.timeSegment).location + Timesel.size

/-- Memory that is reached through another segment is not part of the time structure. -/
theorem Process.NotTime.not_inTimesel {sel : BitVec 16} {off size x : Nat} (hnt : p.NotTime sel)
    (hacc : p.Accessible sel off size) (hoff : off < 2 ^ 32) (hsize : size < 2 ^ 32)
    (htime : (p.segments p.timeSegment).checkBounds 0 Timesel.size = true)
    (hx : p.baseOf sel + off ≤ x ∧ x < p.baseOf sel + off + size) : ¬ p.InTimesel x := by
  obtain ⟨sd, hsd, hbounds, hloc⟩ := Process.translateSegmented_eq_ok.mp hacc
  simp only [BitVec.toNat_ofNat, Nat.mod_eq_of_lt hoff, Nat.mod_eq_of_lt hsize] at hbounds hloc
  have hin := (Segment.lt_of_checkBounds hbounds).2
  have htin := (Segment.lt_of_checkBounds htime).2
  have hpaged := (p.segments_wf sd.seg).paged_le
  have htpaged := (p.segments_wf p.timeSegment).paged_le
  have hapart := p.segments_apart sd.seg p.timeSegment (hnt sd hsd)
  unfold Process.InTimesel
  omega

/-- What a delivery does to guest memory. -/
structure Delivered (p : Process) (s s' : Machine) : Prop where
  timeBounds : (p.segments p.timeSegment).checkBounds 0 Timesel.size = true
  room : 192 + argBytes p.bits ≤ s.regs.esp.toNat
  accessible : ∀ k < 16, p.Accessible s.regs.ss (s.regs.esp.toNat - 192 + 4 * k) 4
  below : p.Accessible s.regs.ss (s.regs.esp.toNat - 192 - 2) 2
  words : s'.mem.loadWords 4 ((Frame.of s).addr p) 16 = (Frame.of s).words
  unchanged : ∀ x, ¬ p.InTimesel x →
    x < p.baseOf s.regs.ss + (s.regs.esp.toNat - 192) - argBytes p.bits ∨
      p.baseOf s.regs.ss + (s.regs.esp.toNat - 128) ≤ x → s'.mem x = s.mem x

theorem Delivery.delivered (h : Delivery p now s s') : Delivered p s s' := by
  obtain ⟨s₁, htime, hcases⟩ := signalTail_ok h.run
  obtain ⟨htb, rfl⟩ := updateTimesel_ok.mp htime
  rcases hcases with ⟨hcs, -⟩ | ⟨-, hempty, -⟩ | ⟨-, signo, -, hdeliver⟩
  · exact absurd hcs h.toGuest
  · rw [h.active] at hempty
    exact absurd hempty (by decide)
  · obtain ⟨sigtab, sigpend, sigmask, -, -, -, -, hframe⟩ := deliver_ok hdeliver
    obtain ⟨hroom, hacc, hbelow, hwords, hsame, -, -, -⟩ := pushFrame_ok hframe
    refine ⟨htb, hroom, hacc, hbelow, ?_, ?_⟩
    · unfold Frame.addr Frame.maskOffset Frame.words Frame.of
      exact hwords
    · intro x hxt hx
      rw [hsame x hx]
      apply storeTimesel_of_not_mem
      unfold Process.InTimesel at hxt
      omega

/-- A byte of an intact frame is not part of the time structure. -/
theorem Frame.Intact.not_inTimesel {f : Frame} {m : Mem} (h : f.Intact p m) {x : Nat}
    (htime : (p.segments p.timeSegment).checkBounds 0 Timesel.size = true)
    (hx : f.Covers p x) : ¬ p.InTimesel x := by
  obtain ⟨h₁, h₂⟩ := hx
  have hlt := f.regs.esp.isLt
  unfold frameBytes at h₂
  unfold Frame.addr Frame.maskOffset at h₁ h₂
  -- the word of the frame that the byte belongs to
  have hk : (x - (p.baseOf f.regs.ss + (f.regs.esp.toNat - 192))) / 4 < 16 := by omega
  have hacc := h.accessible _ hk
  unfold Frame.maskOffset at hacc
  exact h.notTime.not_inTimesel hacc (by omega) (by decide) htime (by omega)

/-- A frame stays intact as long as its bytes do. -/
theorem Frame.Intact.congr {f : Frame} {m m' : Mem} (h : f.Intact p m)
    (hsame : ∀ x, f.Covers p x → m' x = m x) : f.Intact p m' := by
  refine ⟨h.room, h.accessible, h.below, h.notTime, ?_⟩
  rw [← h.words]
  exact Memory.loadWords_congr fun x h₁ h₂ => hsame x ⟨h₁, h₂⟩

/-- A delivery adds an intact frame. -/
theorem Delivered.intact (h : Delivered p s s') (hnt : p.NotTime s.regs.ss) :
    (Frame.of s).Intact p s'.mem := by
  refine ⟨?_, h.accessible, h.below, hnt, h.words⟩
  have hargs : 2 ≤ argBytes p.bits := by cases p.bits <;> decide
  have hroom := h.room
  show 194 ≤ s.regs.esp.toNat
  omega

/-- A clear delivery leaves the live frames alone. -/
theorem Delivered.keeps {f : Frame} (h : Delivered p s s') (hf : f.Intact p s.mem)
    (hspared : f.Spared p s) : f.Intact p s'.mem := by
  apply hf.congr
  intro x hx
  apply h.unchanged x (hf.not_inTimesel h.timeBounds hx)
  obtain ⟨h₁, h₂⟩ := hx
  unfold Frame.Spared at hspared
  omega

/-! ## Returning -/

/-- The context of a frame, with the selectors that no frame holds taken from `u`. -/
def Frame.restore (f : Frame) (u : Machine) : Machine :=
  { u with
    sigmask := f.sigmask
    regs := { f.regs with
      fs := u.regs.fs
      ectxFs := u.regs.ectxFs
      ectxGs := u.regs.ectxGs } }

/-- `sigreturn` over an intact frame restores its context. -/
theorem Frame.Intact.sigreturn {f : Frame} (hf : f.Intact p u.mem) (hin : f.Entered u) :
    (syscallSigreturn p).run u = .ok () (f.restore u) := by
  obtain ⟨hss, hesp⟩ := hin
  have hret := syscallSigreturn_ok (p := p) (s := u) (r := f.regs.withEsp (f.regs.esp - redline)) hss
    (by
      intro k hk
      rw [hss, hesp]
      exact hf.accessible k hk)
    (by
      rw [hss, hesp]
      exact hf.words)
  -- the stack pointer has gone all the way back up
  have hup : u.regs.esp + 4 + 60 + redline = f.regs.esp := by
    apply BitVec.eq_of_toNat_eq
    have hroom := hf.room
    have hlt := f.regs.esp.isLt
    unfold Frame.maskOffset at hesp
    rw [BitVec.toNat_add, BitVec.toNat_add, BitVec.toNat_add, hesp]
    show (((f.regs.esp.toNat - 192 + 4) % 2 ^ 32 + 60) % 2 ^ 32 + 128) % 2 ^ 32 = f.regs.esp.toNat
    omega
  rw [hret, hup]
  rfl

theorem Frame.Intact.sigreturn16 {f : Frame} (hf : f.Intact p u.mem) (hin : f.Entered16 u) :
    (syscall16Sigreturn p).run u = .ok () (f.restore u) := by
  obtain ⟨hss, hesp⟩ := hin
  have hbelow : p.Accessible u.regs.ss u.regs.esp.toNat 2 := by
    have hoff : u.regs.esp.toNat = f.maskOffset - 2 := by omega
    rw [hss, hoff]
    exact hf.below
  have hup : (u.regs.esp + 2).toNat = f.maskOffset := (hbelow.toNat_add (by decide)).trans hesp
  rw [syscall16Sigreturn_eq, EStateM.bind_ok]
  refine ⟨_, { u with regs := u.regs.withEsp (u.regs.esp + 2) },
    GuestContext.popStack16_eq hbelow, ?_⟩
  rw [Frame.Intact.sigreturn (u := { u with regs := u.regs.withEsp (u.regs.esp + 2) }) hf ⟨hss, hup⟩]
  rfl

/-! ## Steps and runs -/

/-- One step keeps all live frames intact. -/
theorem NestStep.intact {c c' : Config} (h : NestStep p (Clear p) c c')
    (hi : ∀ f ∈ c.live, f.Intact p c.machine.mem) : ∀ f ∈ c'.live, f.Intact p c'.machine.mem := by
  cases h with
  | deliver hclear hd =>
      intro f hf
      rcases List.mem_cons.mp hf with rfl | hf
      · exact hd.delivered.intact hclear.notTime
      · exact hd.delivered.keeps (hi f hf) (hclear.spared f hf)
  | guest hsame =>
      intro f hf
      exact (hi f hf).congr (hsame f hf)
  | sigreturn hin hret =>
      -- a return only reads the stack
      rw [(hi _ List.mem_cons_self).sigreturn hin] at hret
      cases hret
      intro f hf
      exact hi f (List.mem_cons_of_mem _ hf)
  | sigreturn16 hin hret =>
      rw [(hi _ List.mem_cons_self).sigreturn16 hin] at hret
      cases hret
      intro f hf
      exact hi f (List.mem_cons_of_mem _ hf)

/-- In every run all live frames are intact. -/
theorem intact_of_run {c c' : Config} (hrun : NestRun p (Clear p) c c')
    (hi : ∀ f ∈ c.live, f.Intact p c.machine.mem) : ∀ f ∈ c'.live, f.Intact p c'.machine.mem := by
  induction hrun with
  | refl => exact hi
  | tail _ hstep ih => exact hstep.intact ih

/-- Signals are transparent to the guest. Take any run from a machine without open deliveries, and
in it a delivery that interrupts `s`. The delivery changed nothing from the red zone upwards; and
whenever the same deliveries are open again and the handler returns, it gets back the registers and
the mask of `s`. -/
theorem sigreturn_restores {s₀ : Machine} {live : List Frame}
    (hrun : NestRun p (Clear p) ⟨s₀, []⟩ ⟨s, live⟩) (hclear : Clear p s live)
    (hdeliver : Delivery p now s t)
    (hnested : NestRun p (Clear p) ⟨t, .of s :: live⟩ ⟨u, .of s :: live⟩) :
    (∀ (off : BitVec 32) (a : Nat), s.regs.esp.toNat ≤ off.toNat + 128 →
      p.translateSegmented ⟨s.regs.ss, off⟩ 1 = .ok a → t.mem a = s.mem a) ∧
    ((Frame.of s).Entered u → ∃ v, (syscallSigreturn p).run u = .ok () v ∧ Restored s u v) ∧
    ((Frame.of s).Entered16 u → ∃ v, (syscall16Sigreturn p).run u = .ok () v ∧ Restored s u v) := by
  have hopen : NestRun p (Clear p) ⟨s₀, []⟩ ⟨t, .of s :: live⟩ :=
    hrun.tail (.deliver hclear hdeliver)
  have hintact : (Frame.of s).Intact p u.mem :=
    intact_of_run (hopen.trans hnested) (by simp) _ List.mem_cons_self
  refine ⟨?_, ?_, ?_⟩
  · intro off a hoff ha
    have hd := hdeliver.delivered
    have hbase : a = p.baseOf s.regs.ss + off.toNat := p.translateSegmented_base ha
    have hacc : p.Accessible s.regs.ss off.toNat 1 := by
      rw [Process.Accessible, BitVec.ofNat_toNat, BitVec.setWidth_eq, ← hbase]
      exact ha
    apply hd.unchanged a
    · exact hclear.notTime.not_inTimesel hacc off.isLt (by decide) hd.timeBounds (by omega)
    · right
      omega
  · intro hin
    exact ⟨_, hintact.sigreturn hin, rfl, rfl⟩
  · intro hin
    exact ⟨_, hintact.sigreturn16 hin, rfl, rfl⟩

/-- The machine with another stack pointer: a step the guest can always make. -/
def Machine.moveEsp (s : Machine) (e : BitVec 32) : Machine := { s with regs := s.regs.withEsp e }

/-- A handler that moves its stack pointer to `e₁`, is interrupted there by one more signal, which
returns from `e₂`, and then moves its stack pointer to `e₃`. -/
theorem NestRun.interrupted {Adm : Machine → List Frame → Prop} {live : List Frame}
    {e₁ e₂ e₃ : BitVec 32} (hadm : Adm (t.moveEsp e₁) live)
    (hd : Delivery p now (t.moveEsp e₁) u) (hin : (Frame.of (t.moveEsp e₁)).Entered (u.moveEsp e₂))
    (hret : (syscallSigreturn p).run (u.moveEsp e₂) = .ok () v) :
    NestRun p Adm ⟨t, live⟩ ⟨v.moveEsp e₃, live⟩ := by
  have hmove {s : Machine} {live : List Frame} (e : BitVec 32) :
      NestStep p Adm ⟨s, live⟩ ⟨s.moveEsp e, live⟩ := .guest fun _ _ _ _ => rfl
  have hup : NestRun p Adm ⟨t, live⟩ ⟨u, .of (t.moveEsp e₁) :: live⟩ :=
    (Relation.ReflTransGen.single (hmove e₁)).tail (.deliver hadm hd)
  exact ((hup.tail (hmove e₂)).tail (.sigreturn hin hret)).tail (hmove e₃)

/-- The small guest, interrupted by signal 1, its handler by signal 2. -/
theorem sigreturn_restores_smallGuest :
    let p := Process.smallGuest .b32 .readOnly
    let s := Machine.smallGuest 7 0x1000
    let t := (signalTail p ⟨0, 0⟩).after s
    let t' := (signalTail p ⟨1, 0⟩).after (t.moveEsp 0xF00)
    let u := ((syscallSigreturn p).after (t'.moveEsp 0xE40)).moveEsp 0xF40
    ∃ v, (syscallSigreturn p).run u = .ok () v ∧ Restored s u v := by
  intro p s t t' u
  have hnt : p.NotTime 7 := by
    intro sd hsd
    have hget : p.descriptorBySelector 7 = some ⟨0, .readWrite, 0, .b32⟩ := rfl
    rw [hget] at hsd
    cases hsd
    decide
  have hd : Delivery p ⟨0, 0⟩ s t :=
    ⟨by decide +kernel, by decide +kernel, EStateM.run_after (by decide +kernel)⟩
  have hd' : Delivery p ⟨1, 0⟩ (t.moveEsp 0xF00) t' :=
    ⟨by decide +kernel, by decide +kernel, EStateM.run_after (by decide +kernel)⟩
  have hclear : Clear p (t.moveEsp 0xF00) [.of s] := by
    refine ⟨?_, ?_⟩
    · intro f hf
      rw [List.mem_singleton.mp hf]
      exact Or.inl (by decide +kernel)
    · have hss : (t.moveEsp 0xF00).regs.ss = 7 := by decide +kernel
      rwa [hss]
  have hnested : NestRun p (Clear p) ⟨t, [.of s]⟩ ⟨u, [.of s]⟩ :=
    .interrupted hclear hd' ⟨by decide +kernel, by decide +kernel⟩
      (EStateM.run_after (by decide +kernel))
  exact (sigreturn_restores .refl ⟨by simp, hnt⟩ hd hnested).2.1
    ⟨by decide +kernel, by decide +kernel⟩

/-! ## What goes wrong otherwise -/

/-- A return that comes back with another mask restores nothing. -/
theorem not_restored (hret : (syscallSigreturn p).returns u = true)
    (hmask : ((syscallSigreturn p).after u).sigmask ≠ s.sigmask) :
    ¬ ∃ v, (syscallSigreturn p).run u = .ok () v ∧ Restored s u v := by
  rintro ⟨v, hv, -, hv'⟩
  rw [EStateM.run_after hret] at hv
  cases hv
  exact hmask hv'

/-- Both parts of `Clear` are needed. A handler that moves its stack pointer back up lets the next
delivery overwrite its own frame; and a frame in the time segment, once the guest has made that
writable, is overwritten by the time. -/
theorem unclear_deliveries :
    (∃ (p : Process) (s t u : Machine) (now : Timespec), Delivery p now s t ∧
      NestRun p (fun _ _ => True) ⟨t, [.of s]⟩ ⟨u, [.of s]⟩ ∧ (Frame.of s).Entered u ∧
      ¬ ∃ v, (syscallSigreturn p).run u = .ok () v ∧ Restored s u v) ∧
    (∃ (p : Process) (s t u : Machine) (now : Timespec), Delivery p now s t ∧
      NestRun p (fun s live => ∀ f ∈ live, f.Spared p s) ⟨t, [.of s]⟩ ⟨u, [.of s]⟩ ∧
      (Frame.of s).Entered u ∧
      ¬ ∃ v, (syscallSigreturn p).run u = .ok () v ∧ Restored s u v) := by
  refine ⟨?_, ?_⟩
  · let p := Process.smallGuest .b32 .readOnly
    let s := Machine.smallGuest 7 0x1000
    let t := (signalTail p ⟨0, 0⟩).after s
    -- the handler goes back up to where it was interrupted
    let t' := (signalTail p ⟨1, 0⟩).after (t.moveEsp 0x1000)
    let u := ((syscallSigreturn p).after (t'.moveEsp 0xF40)).moveEsp 0xF40
    have hd : Delivery p ⟨0, 0⟩ s t :=
      ⟨by decide +kernel, by decide +kernel, EStateM.run_after (by decide +kernel)⟩
    have hd' : Delivery p ⟨1, 0⟩ (t.moveEsp 0x1000) t' :=
      ⟨by decide +kernel, by decide +kernel, EStateM.run_after (by decide +kernel)⟩
    refine ⟨p, s, t, u, ⟨0, 0⟩, hd, ?_, ⟨by decide +kernel, by decide +kernel⟩, ?_⟩
    · exact .interrupted trivial hd' ⟨by decide +kernel, by decide +kernel⟩
        (EStateM.run_after (by decide +kernel))
    · exact not_restored (by decide +kernel) (by decide +kernel)
  · let p := Process.smallGuest .b32 .readWrite
    let s := Machine.smallGuest 15 204
    let t := (signalTail p ⟨0, 0⟩).after s
    -- 15 milliseconds after the epoch: what takes the place of the saved SS is the same selector
    let t' := (signalTail p ⟨0, 15000000⟩).after (t.moveEsp 0x1000)
    let u := ((syscallSigreturn p).after (t'.moveEsp 0xF40)).moveEsp 12
    have hd : Delivery p ⟨0, 0⟩ s t :=
      ⟨by decide +kernel, by decide +kernel, EStateM.run_after (by decide +kernel)⟩
    have hd' : Delivery p ⟨0, 15000000⟩ (t.moveEsp 0x1000) t' :=
      ⟨by decide +kernel, by decide +kernel, EStateM.run_after (by decide +kernel)⟩
    have hspared : (Frame.of s).Spared p (t.moveEsp 0x1000) := Or.inr (by decide +kernel)
    refine ⟨p, s, t, u, ⟨0, 0⟩, hd, ?_, ⟨by decide +kernel, by decide +kernel⟩, ?_⟩
    · refine .interrupted ?_ hd' ⟨by decide +kernel, by decide +kernel⟩
        (EStateM.run_after (by decide +kernel))
      intro f hf
      rw [List.mem_singleton.mp hf]
      exact hspared
    · exact not_restored (by decide +kernel) (by decide +kernel)

end Qine
