import Qine.Lib.Stack
import Qine.Lib.StateExcept
import Qine.Segment
import Qine.Signal.Sigset

/-!
# The guest context

`GuestContext` (`guest_context.cpp`) gives host code access to the interrupted guest's registers and
stack. A routine that works on it may throw half-way, and what it did until then stays done, so
routines live in `EStateM`.

`save_context` and `restore_context` are two hand-written lists of pushes and pops. `pushAll_ok` and
`popAll_ok` say what such lists do to registers and memory; `restoreContext_savedWords` then puts the
two lists against each other.
-/

namespace Qine

/-! ## Registers -/

/-- The guest's registers. `ds`, `es`, `ectxFs` and `ectxGs` are kept in `ExtraContext`, the others
in the host's `ucontext_t`. -/
structure Registers where
  eax : BitVec 32
  ebx : BitVec 32
  ecx : BitVec 32
  edx : BitVec 32
  edi : BitVec 32
  esi : BitVec 32
  ebp : BitVec 32
  esp : BitVec 32
  eip : BitVec 32
  eflags : BitVec 32
  cs : BitVec 16
  gs : BitVec 16
  fs : BitVec 16
  ss : BitVec 16
  ds : BitVec 16
  es : BitVec 16
  ectxFs : BitVec 16
  ectxGs : BitVec 16
  deriving DecidableEq, Repr

/-- The registers with another stack pointer. -/
def Registers.withEsp (r : Registers) (e : BitVec 32) : Registers := { r with esp := e }

@[simp] theorem Registers.withEsp_esp (r : Registers) (e : BitVec 32) : (r.withEsp e).esp = e := rfl

@[simp] theorem Registers.withEsp_ss (r : Registers) (e : BitVec 32) : (r.withEsp e).ss = r.ss := rfl

@[simp] theorem Registers.withEsp_self (r : Registers) : r.withEsp r.esp = r := rfl

@[simp] theorem Registers.withEsp_withEsp (r : Registers) (e e' : BitVec 32) :
    (r.withEsp e).withEsp e' = r.withEsp e' := rfl

/-- What signal emulation works on: the guest context, guest memory and the signal state of `Emu`. -/
structure Machine where
  regs : Registers
  mem : Mem
  /-- `m_sigpend` -/
  sigpend : QnxSigset
  /-- `m_sigmask` -/
  sigmask : QnxSigset
  /-- `saved_sigmask()`, the host mask that the host restores on the way back to the guest -/
  savedSigmask : Finset Nat

/-- Routines of the emulator. An exception leaves the state as it was when it was thrown. -/
abbrev EmuM := EStateM Fault Machine

namespace EmuM

/-- Change the registers. -/
def setRegs (f : Registers → Registers) : EmuM Unit :=
  modify fun s => { s with regs := f s.regs }

/-- Change guest memory. -/
def setMem (f : Mem → Mem) : EmuM Unit :=
  modify fun s => { s with mem := f s.mem }

/-- Run a routine that works on guest memory only. -/
def onMem {α : Type} (x : EStateM Fault Mem α) : EmuM α :=
  EStateM.zoom Machine.mem (fun mem s => { s with mem := mem }) x

variable {s s' : Machine}

@[simp] theorem setRegs_ok {f : Registers → Registers} {u : Unit} :
    (setRegs f).run s = .ok u s' ↔ { s with regs := f s.regs } = s' := EStateM.modify_ok

@[simp] theorem setMem_ok {f : Mem → Mem} {u : Unit} :
    (setMem f).run s = .ok u s' ↔ { s with mem := f s.mem } = s' := EStateM.modify_ok

end EmuM

/-! ## Stack access -/

namespace GuestContext

variable (p : Process)

/-- Push a value of `w` bytes. -/
def pushValue (w : Nat) (value : BitVec (8 * w)) : EmuM Unit := do
  EmuM.setRegs fun r => r.withEsp (r.esp - BitVec.ofNat 32 w)
  let r := (← get).regs
  let linear ← EStateM.ofExcept (p.translateSegmented ⟨r.ss, r.esp⟩ (BitVec.ofNat 32 w))
  EmuM.setMem (·.storeWord w linear value)

/-- Pop a value of `w` bytes. -/
def popValue (w : Nat) : EmuM (BitVec (8 * w)) := do
  let s ← get
  let linear ← EStateM.ofExcept (p.translateSegmented ⟨s.regs.ss, s.regs.esp⟩ (BitVec.ofNat 32 w))
  EmuM.setRegs fun r => r.withEsp (r.esp + BitVec.ofNat 32 w)
  return s.mem.loadWord w linear

/-- `GuestContext::push_stack`. -/
def pushStack (value : BitVec 32) : EmuM Unit := pushValue p 4 value

/-- `GuestContext::push_stack16`. -/
def pushStack16 (value : BitVec 16) : EmuM Unit := pushValue p 2 value

/-- `GuestContext::pop_stack`. -/
def popStack : EmuM (BitVec 32) := popValue p 4

/-- `GuestContext::pop_stack16`. -/
def popStack16 : EmuM (BitVec 16) := popValue p 2

/-! ## Saving and restoring -/

/-- The words `save_context` pushes, in its order. The stack pointer among them is the one it was
entered with; selectors are widened. -/
def savedWords (r : Registers) : List (BitVec 32) :=
  [r.eax, r.ecx, r.edx, r.ebx, r.esp, r.ebp, r.esi, r.edi,
    r.eflags, r.cs.setWidth 32, r.eip, r.ds.setWidth 32, r.es.setWidth 32, r.gs.setWidth 32,
    r.ss.setWidth 32]

/-- `GuestContext::save_context`. -/
def saveContext : EmuM Unit := do
  let r := (← get).regs
  forM (savedWords r) (pushStack p)

/-- An assignment of a popped word to a register. -/
abbrev Assign := Registers → BitVec 32 → Registers

/-- The assignments of `restore_context`, in its order. The popped stack pointer is dropped. -/
def restoreAssigns : List Assign :=
  [fun r v => { r with ss := v.setWidth 16 },
   fun r v => { r with gs := v.setWidth 16 },
   fun r v => { r with es := v.setWidth 16 },
   fun r v => { r with ds := v.setWidth 16 },
   fun r v => { r with eip := v },
   fun r v => { r with cs := v.setWidth 16 },
   fun r v => { r with eflags := v },
   fun r v => { r with edi := v },
   fun r v => { r with esi := v },
   fun r v => { r with ebp := v },
   fun r _ => r,
   fun r v => { r with ebx := v },
   fun r v => { r with edx := v },
   fun r v => { r with ecx := v },
   fun r v => { r with eax := v }]

/-- One line of `restore_context`. -/
def popInto (assign : Assign) : EmuM Unit := do
  let v ← popStack p
  EmuM.setRegs (assign · v)

/-- `GuestContext::restore_context`. -/
def restoreContext : EmuM Unit := forM restoreAssigns (popInto p)

end GuestContext

/-! ## What a list of pushes does -/

/-- The `size` bytes at offset `off` of a selector can be accessed, where they should be. -/
def Process.Accessible (p : Process) (sel : BitVec 16) (off size : Nat) : Prop :=
  p.translateSegmented ⟨sel, BitVec.ofNat 32 off⟩ (BitVec.ofNat 32 size) = .ok (p.baseOf sel + off)

variable {p : Process} {s s' : Machine} {sel : BitVec 16} {off size : Nat}

/-- An accessible range lies in the lower two gigabytes of its segment. -/
theorem Process.Accessible.le (h : p.Accessible sel off size) (hoff : off < 2 ^ 32)
    (hsize : size < 2 ^ 32) : off + size ≤ 2 ^ 31 := by
  have hle := (p.translateSegmented_lt h).1
  rwa [BitVec.toNat_ofNat, BitVec.toNat_ofNat, Nat.mod_eq_of_lt hoff, Nat.mod_eq_of_lt hsize] at hle

theorem Process.Accessible.mono (h : p.Accessible sel off size) (hoff : off < 2 ^ 32)
    (hsize : size < 2 ^ 32) {o k : Nat} (hk : 0 < k) (hok : o + k ≤ size) :
    p.Accessible sel (off + o) k := by
  have hmono := p.translateSegmented_mono h hk (by rwa [BitVec.toNat_ofNat, Nat.mod_eq_of_lt hsize])
  rw [BitVec.toNat_ofNat, Nat.mod_eq_of_lt hoff, Nat.add_assoc] at hmono
  exact hmono

/-- Going up over an accessible range does not wrap around. -/
theorem Process.Accessible.toNat_add {e : BitVec 32} (h : p.Accessible sel e.toNat size)
    (hsize : size < 2 ^ 31) : (e + BitVec.ofNat 32 size).toNat = e.toNat + size := by
  have hle := h.le e.isLt (by omega)
  have hmod : size % 2 ^ 32 = size := Nat.mod_eq_of_lt (by omega)
  rw [BitVec.toNat_add, BitVec.toNat_ofNat, hmod, Nat.mod_eq_of_lt (by omega)]

/-- A translation below some offset succeeds only if the offset did not wrap around. -/
theorem Process.accessible_of_sub {e size : BitVec 32} {n a : Nat} (hn : n < 2 ^ 31)
    (h : p.translateSegmented ⟨sel, e - BitVec.ofNat 32 n⟩ size = .ok a) :
    n ≤ e.toNat ∧ a = p.baseOf sel + (e.toNat - n) ∧
      p.Accessible sel (e.toNat - n) size.toNat := by
  have hlt : (e - BitVec.ofNat 32 n).toNat + size.toNat ≤ 2 ^ 31 := (p.translateSegmented_lt h).1
  have hbase : a = p.baseOf sel + (e - BitVec.ofNat 32 n).toNat := p.translateSegmented_base h
  have he : e.toNat < 2 ^ 32 := e.isLt
  have hsub : (e - BitVec.ofNat 32 n).toNat = (2 ^ 32 - n + e.toNat) % 2 ^ 32 := by
    have hmod : n % 2 ^ 32 = n := Nat.mod_eq_of_lt (by omega)
    rw [BitVec.toNat_sub, BitVec.toNat_ofNat, hmod]
  have hle : n ≤ e.toNat := by
    by_contra hgt
    rw [hsub, Nat.mod_eq_of_lt (by omega)] at hlt
    omega
  have hnat : (e - BitVec.ofNat 32 n).toNat = e.toNat - n := by
    rw [hsub]
    omega
  have hoff : e - BitVec.ofNat 32 n = BitVec.ofNat 32 (e.toNat - n) := by
    rw [← hnat, BitVec.ofNat_toNat, BitVec.setWidth_eq]
  rw [hnat] at hbase
  refine ⟨hle, hbase, ?_⟩
  rw [hoff] at h
  unfold Process.Accessible
  rw [BitVec.ofNat_toNat, BitVec.setWidth_eq, h, hbase]

namespace GuestContext

/-- A push that succeeds did not wrap around. -/
theorem pushValue_ok {w : Nat} {v : BitVec (8 * w)} (hw : w < 2 ^ 31)
    (h : (pushValue p w v).run s = .ok () s') :
    w ≤ s.regs.esp.toNat ∧ p.Accessible s.regs.ss (s.regs.esp.toNat - w) w ∧
      s' = { s with
        regs := s.regs.withEsp (s.regs.esp - BitVec.ofNat 32 w)
        mem := s.mem.storeWord w (p.baseOf s.regs.ss + s.regs.esp.toNat - w) v } := by
  -- the stack pointer moves first, so the address is below the old one
  have hrun : (EStateM.ofExcept (p.translateSegmented ⟨s.regs.ss, s.regs.esp - BitVec.ofNat 32 w⟩
      (BitVec.ofNat 32 w)) >>= fun a => EmuM.setMem (·.storeWord w a v)).run
      { s with regs := s.regs.withEsp (s.regs.esp - BitVec.ofNat 32 w) } = .ok () s' := h
  obtain ⟨a, s₁, htrans, hstore⟩ := EStateM.bind_ok.mp hrun
  obtain ⟨ha, rfl⟩ := EStateM.ofExcept_ok.mp htrans
  cases hstore
  obtain ⟨hle, rfl, hacc⟩ := Process.accessible_of_sub hw ha
  rw [BitVec.toNat_ofNat, Nat.mod_eq_of_lt (by omega)] at hacc
  refine ⟨hle, hacc, ?_⟩
  rw [Nat.add_sub_assoc hle]

theorem pushStack_ok {v : BitVec 32} (h : (pushStack p v).run s = .ok () s') :
    4 ≤ s.regs.esp.toNat ∧ p.Accessible s.regs.ss (s.regs.esp.toNat - 4) 4 ∧
      s' = { s with
        regs := s.regs.withEsp (s.regs.esp - 4)
        mem := s.mem.storeWord 4 (p.baseOf s.regs.ss + s.regs.esp.toNat - 4) v } :=
  pushValue_ok (by decide) h

theorem pushStack16_ok {v : BitVec 16} (h : (pushStack16 p v).run s = .ok () s') :
    2 ≤ s.regs.esp.toNat ∧ p.Accessible s.regs.ss (s.regs.esp.toNat - 2) 2 ∧
      s' = { s with
        regs := s.regs.withEsp (s.regs.esp - 2)
        mem := s.mem.storeWord 2 (p.baseOf s.regs.ss + s.regs.esp.toNat - 2) v } :=
  pushValue_ok (by decide) h

/-- A list of pushes moves the stack pointer down and stores the words below it. -/
theorem pushAll_ok {ws : List (BitVec 32)} (h : (forM ws (pushStack p)).run s = .ok () s') :
    4 * ws.length ≤ s.regs.esp.toNat ∧
      (∀ k < ws.length, p.Accessible s.regs.ss (s.regs.esp.toNat - 4 * (k + 1)) 4) ∧
      s' = { s with
        regs := s.regs.withEsp (BitVec.ofNat 32 (s.regs.esp.toNat - 4 * ws.length))
        mem := s.mem.pushWords 4 (p.baseOf s.regs.ss + s.regs.esp.toNat) ws } := by
  induction ws generalizing s with
  | nil =>
      cases h
      simp [Memory.pushWords]
  | cons v ws ih =>
      obtain ⟨⟨⟩, s₁, hpush, hrest⟩ := EStateM.bind_ok.mp h
      obtain ⟨h4, hacc, rfl⟩ := pushStack_ok hpush
      obtain ⟨hlen, haccs, rfl⟩ := ih hrest
      have hesp : (s.regs.esp - 4).toNat = s.regs.esp.toNat - 4 := BitVec.toNat_sub_of_le h4
      simp only [Registers.withEsp_esp, Registers.withEsp_ss, Registers.withEsp_withEsp, hesp]
        at hlen haccs ⊢
      refine ⟨?_, ?_, ?_⟩
      · rw [List.length_cons]
        omega
      · intro k hk
        cases k with
        | zero => exact hacc
        | succ k =>
            have hk' : k < ws.length := by simpa using hk
            have hoff : s.regs.esp.toNat - 4 * (k + 1 + 1) = s.regs.esp.toNat - 4 - 4 * (k + 1) := by
              omega
            rw [hoff]
            exact haccs k hk'
      · have hdown : s.regs.esp.toNat - 4 - 4 * ws.length =
            s.regs.esp.toNat - 4 * (ws.length + 1) := by omega
        have htop : p.baseOf s.regs.ss + (s.regs.esp.toNat - 4) =
            p.baseOf s.regs.ss + s.regs.esp.toNat - 4 := by omega
        rw [hdown, htop, List.length_cons, Memory.pushWords]

theorem saveContext_ok :
    (saveContext p).run s = .ok () s' ↔
      (forM (savedWords s.regs) (pushStack p)).run s = .ok () s' := by
  simp only [saveContext, EStateM.bind_ok, EStateM.get_ok, and_assoc, exists_and_left, exists_eq_left']

/-- `save_context` and one more push: sixteen words in a row. -/
theorem pushContext_ok {s₁ : Machine} {v : BitVec 32} (hsave : (saveContext p).run s = .ok () s₁)
    (hpush : (pushStack p v).run s₁ = .ok () s') :
    64 ≤ s.regs.esp.toNat ∧ s.regs.esp.toNat ≤ 2 ^ 31 ∧
      (∀ k < 16, p.Accessible s.regs.ss (s.regs.esp.toNat - 64 + 4 * k) 4) ∧
      s' = { s with
        regs := s.regs.withEsp (BitVec.ofNat 32 (s.regs.esp.toNat - 64))
        mem := s.mem.pushWords 4 (p.baseOf s.regs.ss + s.regs.esp.toNat)
          (savedWords s.regs ++ [v]) } := by
  have hpushes : (forM (savedWords s.regs ++ [v]) (pushStack p)).run s = .ok () s' := by
    rw [List.forM_append]
    apply EStateM.bind_ok.mpr
    refine ⟨(), s₁, saveContext_ok.mp hsave, ?_⟩
    rw [List.forM_cons, List.forM_nil]
    exact EStateM.bind_ok.mpr ⟨(), s', hpush, EStateM.pure_ok.mpr ⟨rfl, rfl⟩⟩
  obtain ⟨hroom, hacc, hs'⟩ := pushAll_ok hpushes
  have hlen : (savedWords s.regs ++ [v]).length = 16 := rfl
  have hbytes : 4 * 16 = 64 := rfl
  rw [hlen, hbytes] at hroom hs'
  rw [hlen] at hacc
  have hlt := s.regs.esp.isLt
  have htop := (hacc 0 (by decide)).le (by omega) (by decide)
  refine ⟨hroom, by omega, ?_, hs'⟩
  intro k hk
  have hoff : s.regs.esp.toNat - 64 + 4 * k = s.regs.esp.toNat - 4 * (15 - k + 1) := by omega
  rw [hoff]
  exact hacc (15 - k) (by omega)

/-! ## What a list of pops does -/

theorem popValue_eq {w : Nat} (h : p.Accessible s.regs.ss s.regs.esp.toNat w) :
    (popValue p w).run s = .ok (s.mem.loadWord w (p.baseOf s.regs.ss + s.regs.esp.toNat))
      { s with regs := s.regs.withEsp (s.regs.esp + BitVec.ofNat 32 w) } := by
  unfold Process.Accessible at h
  rw [BitVec.ofNat_toNat, BitVec.setWidth_eq] at h
  apply EStateM.bind_ok.mpr
  refine ⟨s, s, rfl, EStateM.bind_ok.mpr ⟨_, s, EStateM.ofExcept_ok.mpr ⟨h, rfl⟩, rfl⟩⟩

theorem popStack_eq (h : p.Accessible s.regs.ss s.regs.esp.toNat 4) :
    (popStack p).run s = .ok (s.mem.loadWord 4 (p.baseOf s.regs.ss + s.regs.esp.toNat))
      { s with regs := s.regs.withEsp (s.regs.esp + 4) } := popValue_eq h

theorem popStack16_eq (h : p.Accessible s.regs.ss s.regs.esp.toNat 2) :
    (popStack16 p).run s = .ok (s.mem.loadWord 2 (p.baseOf s.regs.ss + s.regs.esp.toNat))
      { s with regs := s.regs.withEsp (s.regs.esp + 2) } := popValue_eq h

/-- Carry out assignments with the words popped for them. -/
def assignAll (r : Registers) : List (Assign × BitVec 32) → Registers
  | [] => r
  | (assign, v) :: rest => assignAll (assign r v) rest

/-- An assignment that leaves the stack pointer alone and, with this word, the stack segment. -/
def Assign.KeepsStack (ss : BitVec 16) (assign : Assign) (v : BitVec 32) : Prop :=
  ∀ r : Registers, (r.ss = ss → (assign r v).ss = ss) ∧
    ∀ e, assign (r.withEsp e) v = (assign r v).withEsp e

theorem assignAll_esp {ss : BitVec 16} {l : List (Assign × BitVec 32)} {r : Registers} {e : BitVec 32}
    (h : ∀ x ∈ l, x.1.KeepsStack ss x.2) :
    assignAll (r.withEsp e) l = (assignAll r l).withEsp e := by
  induction l generalizing r with
  | nil => rfl
  | cons x l ih =>
      rw [assignAll, (h x List.mem_cons_self r).2 e, ih fun y hy => h y (List.mem_cons_of_mem _ hy),
        assignAll]

/-- One pop hands the word at the stack pointer to its assignment. -/
theorem popInto_eq {assign : Assign} (hacc : p.Accessible s.regs.ss s.regs.esp.toNat 4)
    (hkeep : assign.KeepsStack s.regs.ss
      (s.mem.loadWord 4 (p.baseOf s.regs.ss + s.regs.esp.toNat))) :
    (popInto p assign).run s = .ok () { s with
      regs := (assign s.regs (s.mem.loadWord 4 (p.baseOf s.regs.ss + s.regs.esp.toNat))).withEsp
        (s.regs.esp + 4) } := by
  apply EStateM.bind_ok.mpr
  refine ⟨_, _, popStack_eq hacc, ?_⟩
  rw [EmuM.setRegs_ok]
  dsimp only
  rw [(hkeep s.regs).2]

/-- A list of pops hands the words from the stack pointer upwards to the assignments. -/
theorem popAll_ok {l : List (Assign × BitVec 32)} (hkeep : ∀ x ∈ l, x.1.KeepsStack s.regs.ss x.2)
    (hacc : ∀ k < l.length, p.Accessible s.regs.ss (s.regs.esp.toNat + 4 * k) 4)
    (hws : s.mem.loadWords 4 (p.baseOf s.regs.ss + s.regs.esp.toNat) l.length = l.map (·.2)) :
    (forM (l.map (·.1)) (popInto p)).run s = .ok ()
      { s with
        regs := (assignAll s.regs l).withEsp (s.regs.esp + BitVec.ofNat 32 (4 * l.length)) } := by
  induction l generalizing s with
  | nil => simp [assignAll]
  | cons x l ih =>
      obtain ⟨assign, v⟩ := x
      have hhead : Assign.KeepsStack s.regs.ss assign v := hkeep _ List.mem_cons_self
      have hacc0 : p.Accessible s.regs.ss s.regs.esp.toNat 4 := hacc 0 (Nat.succ_pos _)
      have hesp : (s.regs.esp + 4).toNat = s.regs.esp.toNat + 4 := hacc0.toNat_add (by decide)
      rw [List.length_cons, Memory.loadWords, List.map_cons] at hws
      obtain ⟨hv, hws⟩ := List.cons.inj hws
      -- the state after the first pop and assignment
      let s₁ : Machine := { s with regs := (assign s.regs v).withEsp (s.regs.esp + 4) }
      have hss : s₁.regs.ss = s.regs.ss := (hhead s.regs).1 rfl
      have hpop : (popInto p assign).run s = .ok () s₁ := by
        rw [popInto_eq hacc0 (by rw [hv]; exact hhead), hv]
      have hrest : (forM (l.map (·.1)) (popInto p)).run s₁ = .ok ()
          { s₁ with
            regs := (assignAll s₁.regs l).withEsp (s₁.regs.esp + BitVec.ofNat 32 (4 * l.length)) } := by
        apply ih
        · intro y hy
          rw [hss]
          exact hkeep y (List.mem_cons_of_mem _ hy)
        · intro k hk
          have hoff : (s.regs.esp + 4).toNat + 4 * k = s.regs.esp.toNat + 4 * (k + 1) := by
            rw [hesp]
            omega
          rw [hss]
          show p.Accessible s.regs.ss ((s.regs.esp + 4).toNat + 4 * k) 4
          rw [hoff]
          exact hacc (k + 1) (Nat.succ_lt_succ hk)
        · rw [hss]
          show s.mem.loadWords 4 (p.baseOf s.regs.ss + (s.regs.esp + 4).toNat) l.length = _
          rw [hesp, ← Nat.add_assoc]
          exact hws
      have hregs : assignAll s₁.regs l =
          (assignAll (assign s.regs v) l).withEsp (s.regs.esp + 4) :=
        assignAll_esp fun y hy => hkeep y (List.mem_cons_of_mem _ hy)
      rw [List.map_cons, List.forM_cons]
      apply EStateM.bind_ok.mpr
      refine ⟨(), s₁, hpop, ?_⟩
      rw [hrest, hregs, assignAll]
      have hup : s.regs.esp + 4 + BitVec.ofNat 32 (4 * l.length) =
          s.regs.esp + BitVec.ofNat 32 (4 * (l.length + 1)) := by
        rw [Nat.mul_succ, BitVec.ofNat_add, BitVec.add_comm (BitVec.ofNat 32 (4 * l.length)),
          ← BitVec.add_assoc]
        rfl
      rw [List.length_cons, ← hup]
      rfl

/-- The assignments of `restore_context` with the words `save_context` stored for them. -/
def restorePairs (r : Registers) : List (Assign × BitVec 32) :=
  restoreAssigns.zip (savedWords r).reverse

theorem restorePairs_keepsStack (r : Registers) :
    ∀ x ∈ restorePairs r, x.1.KeepsStack r.ss x.2 := by
  simp [restorePairs, restoreAssigns, savedWords, Assign.KeepsStack, Registers.withEsp]

/-- `restore_context` undoes `save_context`: over the words saved for `r` it brings back all of `r`
but the stack pointer and what `save_context` does not save. -/
theorem restoreContext_savedWords {r : Registers} (hss : s.regs.ss = r.ss)
    (hacc : ∀ k < 15, p.Accessible s.regs.ss (s.regs.esp.toNat + 4 * k) 4)
    (hws : s.mem.loadWords 4 (p.baseOf s.regs.ss + s.regs.esp.toNat) 15 = (savedWords r).reverse) :
    (restoreContext p).run s = .ok () { s with regs := { r with
      esp := s.regs.esp + 60
      fs := s.regs.fs
      ectxFs := s.regs.ectxFs
      ectxGs := s.regs.ectxGs } } := by
  have hpops := popAll_ok (l := restorePairs r) (hss ▸ restorePairs_keepsStack r) hacc hws
  have hregs : assignAll s.regs (restorePairs r) = { r with
      esp := s.regs.esp
      fs := s.regs.fs
      ectxFs := s.regs.ectxFs
      ectxGs := s.regs.ectxGs } := by
    simp [restorePairs, restoreAssigns, savedWords, assignAll]
  rw [hregs] at hpops
  exact hpops

end GuestContext
end Qine
