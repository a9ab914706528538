import Qine.Signal.Dispatch
import Qine.Signal.HostMask

/-!
# Entering emulation

`Emu::enter_emu` takes the guest's mask from the host, clears the way for the `SIGUSR1` that it raises, and the
handler of that signal loads the registers that `setup_startup_context` has prepared. When the guest replaces
itself by another program, the new qine process starts here again, with the host mask it has inherited.

So the mask passes from the one program to the next through the host (`mask_survives_exec`): it is translated to
host signals on the way back to the guest, inherited by `exec`, and translated back. On the way `SIGSEGV` gets
lost, which the host keeps for the traps, and so does what the table does not know. `SIGUSR1` is lost if the
program has not come back to the emulator once before it is replaced.
-/

namespace Qine

namespace Emu

open QnxSigset

/-! ## The entry -/

/-- The host's `SIGUSR1`. -/
def hostSigusr1 : Nat := 10

/-- `Qnx::QSIGUSR1`. -/
def qsigusr1 : Nat := 16

/-- `Emu::static_handler_user`: the guest's registers, where `raised` are those at the `raise`. All are cleared,
and those of the startup context that are named in the handler are copied. `EBP` is not among them. -/
def staticHandlerUser (startup raised : Registers) : Registers :=
  { startup with ebp := 0, eflags := raised.eflags, ectxFs := raised.ectxFs, ectxGs := raised.ectxGs }

/-- `Emu::enter_emu` with the handler, where `current` is the host mask: the state the guest starts in. -/
def enterEmu (current : Finset Nat) (startup raised : Registers) (mem : Mem) : Machine where
  regs := staticHandlerUser startup raised
  mem := mem
  sigpend := .empty
  sigmask := mapSigmaskHostToQnx current
  savedSigmask := current.erase hostSigusr1

/-! ## One program after the other -/

/-- A guest program while it runs. -/
structure Session where
  process : Process
  machine : Machine

namespace Session

variable {g g' : Session}

/-- The program at its start, under the host mask `current`. -/
def Starts (g : Session) (current : Finset Nat) : Prop :=
  ∃ startup raised mem, g.machine = enterEmu current startup raised mem

/-- The guest comes to the emulator and goes on: it traps, or it is interrupted by a signal. -/
inductive Returns : Session → Session → Prop
  | trap {p : Process} {host : DispatchHost} {now : Timespec} {siCode : Int} {cpu loaded : ExtraContext}
      {s s' : Machine} (h : (handlerSegv p host now siCode cpu).run s = .ok (some loaded) s') :
      Returns ⟨p, s⟩ ⟨p, s'⟩
  | arrival {p : Process} {now : Timespec} {hostSig : Nat} {s s' : Machine}
      (hguest : s.regs.cs &&& SegmentDescriptor.selLdt ≠ 0)
      (h : (handlerGeneric p now hostSig).run s = .ok () s') : Returns ⟨p, s⟩ ⟨p, s'⟩

/-- `g'` is the program that replaces `g`. The host mask in a trap is that of the guest, where `handler_segv` has
unblocked `SIGSEGV`. -/
def Execs (g g' : Session) : Prop := g'.Starts (g.machine.savedSigmask.erase hostSigsegv)

/-- The guest runs by itself, a system call changes its segments, or a signal is noted in host code. -/
def Runs (g g' : Session) : Prop :=
  g'.machine.sigmask = g.machine.sigmask ∧ g'.machine.savedSigmask = g.machine.savedSigmask

/-- What happens to a guest, and to the programs it becomes. -/
def Step (g g' : Session) : Prop := g.Runs g' ∨ g.Returns g' ∨ g.Execs g'

/-- The host mask and the guest's mask agree about every signal that both of them have, except for the signals the
emulator needs itself. -/
def Agrees (g : Session) : Prop :=
  ∀ host sig, (host, sig) ∈ sigMap → host ≠ hostSigsegv → host ≠ hostSigusr1 →
    (host ∈ g.machine.savedSigmask ↔ g.machine.sigmask.Has sig)

/-! ## What the masks say about each other -/

/-- The table has at most one row for a QNX signal. -/
theorem sigMap_host_unique {host host' sig : Nat} (h : (host, sig) ∈ sigMap) (h' : (host', sig) ∈ sigMap) :
    host = host' := by
  rw [← mapSigQnxToHost_eq_some] at h h'
  exact Option.some.inj (h.symm.trans h')

theorem sig_range {host sig : Nat} (h : (host, sig) ∈ sigMap) : qsigMin ≤ sig ∧ sig ≤ qsigMax := by
  have hrows : ∀ x ∈ sigMap, qsigMin ≤ x.2 ∧ x.2 ≤ qsigMax := by decide
  exact hrows _ h

/-- The mask a program starts with. -/
theorem has_of_starts {current : Finset Nat} {host sig : Nat} (h : g.Starts current)
    (hrow : (host, sig) ∈ sigMap) :
    g.machine.sigmask.Has sig ↔ host ∈ current := by
  obtain ⟨startup, raised, mem, hstart⟩ := h
  rw [hstart]
  refine has_mapSigmaskHostToQnx.trans ⟨?_, ?_⟩
  · rintro ⟨-, host', hmem, hrow'⟩
    rwa [sigMap_host_unique hrow hrow']
  · intro hmem
    exact ⟨sig_range hrow, host, hmem, hrow⟩

theorem agrees_of_starts {current : Finset Nat} (h : g.Starts current) : g.Agrees := by
  intro host sig hrow _ husr
  rw [has_of_starts h hrow]
  obtain ⟨startup, raised, mem, hstart⟩ := h
  rw [hstart]
  simp [enterEmu, husr]

/-- Masks that are synchronised agree, about `SIGUSR1` too. -/
theorem mem_of_synced {host sig : Nat} (h : MaskSynced g.machine) (hrow : (host, sig) ∈ sigMap)
    (hsegv : host ≠ hostSigsegv) : host ∈ g.machine.savedSigmask ↔ g.machine.sigmask.Has sig := by
  rw [maskSynced_iff.mp h]
  refine ⟨?_, ?_⟩
  · rintro ⟨-, sig', hhas, hrow'⟩
    rwa [sigMap_injective hrow hrow']
  · intro hhas
    exact ⟨hsegv, sig, hhas, hrow⟩

theorem tailToCpu_synced {p : Process} {now : Timespec} {s s' : Machine} {loaded : ExtraContext}
    (h : (tailToCpu p now).run s = .ok (some loaded) s') : MaskSynced s' := by
  unfold tailToCpu at h
  rw [EStateM.run_get_bind] at h
  obtain ⟨⟨⟩, s₁, htail, h⟩ := EStateM.bind_ok.mp h
  rw [EStateM.run_get_bind] at h
  obtain ⟨hloaded, rfl⟩ := EStateM.Result.ok.inj h
  apply signalTail_maskSynced htail
  intro hhost
  rw [if_neg (by simpa using hhost)] at hloaded
  cases hloaded

theorem signalRaise_regs {signo : Nat} {s s' : Machine} (h : (signalRaise signo).run s = .ok () s') :
    s'.regs = s.regs := by
  unfold signalRaise at h
  rw [EStateM.run_get_bind] at h
  obtain ⟨sigpend, s₁, hset, hmodify⟩ := EStateM.bind_ok.mp h
  obtain ⟨-, rfl⟩ := EStateM.ofExcept_ok.mp hset
  rw [← EStateM.modify_ok.mp hmodify]

/-- Whenever the guest goes on, the masks are synchronised. -/
theorem synced_of_returns (h : Returns g g') : MaskSynced g'.machine := by
  cases h with
  | trap h =>
      unfold handlerSegv at h
      obtain ⟨⟨⟩, s₁, -, h⟩ := EStateM.bind_ok.mp h
      split at h
      · obtain ⟨⟨⟩, s₂, -, h⟩ := EStateM.bind_ok.mp h
        exact tailToCpu_synced h
      · rw [EStateM.run_get_bind] at h
        split at h
        · cases h
        · rw [EStateM.run_get_bind] at h
          obtain ⟨⟨⟩, s₂, -, h⟩ := EStateM.bind_ok.mp h
          obtain ⟨syscall, s₃, -, h⟩ := EStateM.bind_ok.mp h
          split at h
          · obtain ⟨⟨⟩, s₄, -, h⟩ := EStateM.bind_ok.mp h
            exact tailToCpu_synced h
          · exact tailToCpu_synced h
  | arrival hguest h =>
      unfold handlerGeneric at h
      split at h
      · cases h
      · obtain ⟨⟨⟩, s₁, hraise, h⟩ := EStateM.bind_ok.mp h
        apply signalTail_maskSynced h
        rwa [signalRaise_regs hraise]

/-! ## Runs -/

theorem runs_of_reflTransGen (h : Relation.ReflTransGen Runs g g') : g.Runs g' := by
  induction h with
  | refl => exact ⟨rfl, rfl⟩
  | tail _ hstep ih => exact ⟨hstep.1.trans ih.1, hstep.2.trans ih.2⟩

theorem Agrees.step (h : g.Agrees) (hstep : g.Step g') : g'.Agrees := by
  rcases hstep with ⟨hmask, hsaved⟩ | hreturns | hexecs
  · intro host sig hrow hsegv husr
    rw [hmask, hsaved]
    exact h host sig hrow hsegv husr
  · intro host sig hrow hsegv _
    exact mem_of_synced (synced_of_returns hreturns) hrow hsegv
  · exact agrees_of_starts hexecs

theorem agrees_of_run {first : Session} {current : Finset Nat} (hfirst : first.Starts current)
    (hrun : Relation.ReflTransGen Step first g) : g.Agrees := by
  induction hrun with
  | refl => exact agrees_of_starts hfirst
  | tail _ hstep ih => exact ih.step hstep

/-- What the next program gets of the mask. -/
theorem has_of_execs {host sig : Nat} (h : g.Execs g') (hrow : (host, sig) ∈ sigMap) (hsegv : host ≠ hostSigsegv) :
    g'.machine.sigmask.Has sig ↔ host ∈ g.machine.savedSigmask := by
  rw [has_of_starts h hrow, Finset.mem_erase]
  exact and_iff_right hsegv

/-- In every run of a guest, of the signals it gets and of the programs it becomes, the next program starts with
the mask of the last one, as far as it is about signals the host has too, other than `SIGSEGV`. Whether `SIGUSR1`
is masked is passed on if the last program has come back from the emulator since it was started; from one that has
not, it is not masked. Nothing else is masked in the next program. -/
theorem mask_survives_exec {first : Session} {current : Finset Nat} (hfirst : first.Starts current)
    (hrun : Relation.ReflTransGen Step first g) (hexec : g.Execs g') :
    (∀ host sig, (host, sig) ∈ sigMap → host ≠ hostSigsegv → host ≠ hostSigusr1 →
      (g'.machine.sigmask.Has sig ↔ g.machine.sigmask.Has sig)) ∧
    (∀ g₀ g₁, Returns g₀ g₁ → Relation.ReflTransGen Runs g₁ g →
      (g'.machine.sigmask.Has qsigusr1 ↔ g.machine.sigmask.Has qsigusr1)) ∧
    (∀ g₀ current, g₀.Starts current → Relation.ReflTransGen Runs g₀ g → ¬ g'.machine.sigmask.Has qsigusr1) ∧
    ∀ sig, g'.machine.sigmask.Has sig → ∃ host, host ≠ hostSigsegv ∧ (host, sig) ∈ sigMap := by
  have husr : (hostSigusr1, qsigusr1) ∈ sigMap := by decide
  refine ⟨?_, ?_, ?_, ?_⟩
  · intro host sig hrow hsegv hne
    rw [has_of_execs hexec hrow hsegv]
    exact agrees_of_run hfirst hrun host sig hrow hsegv hne
  · intro g₀ g₁ hreturns hruns
    have hsame := runs_of_reflTransGen hruns
    rw [has_of_execs hexec husr (by decide), hsame.1, hsame.2]
    exact mem_of_synced (synced_of_returns hreturns) husr (by decide)
  · intro g₀ current hstarts hruns
    rw [has_of_execs hexec husr (by decide), (runs_of_reflTransGen hruns).2]
    obtain ⟨startup, raised, mem, hstart⟩ := hstarts
    rw [hstart]
    simp [enterEmu]
  · intro sig hhas
    obtain ⟨startup, raised, mem, hstart⟩ := hexec
    rw [hstart] at hhas
    obtain ⟨-, host, hmem, hrow⟩ := has_mapSigmaskHostToQnx.mp hhas
    exact ⟨host, (Finset.mem_erase.mp hmem).1, hrow⟩

/-- A shell that was started with `SIGINT` and `SIGUSR1` masked gets a `SIGHUP`, and starts another program in the
handler. -/
theorem mask_survives_exec_shell :
    let p := Process.smallGuest .b32 .readOnly
    let s := Machine.smallGuest 7 0x1000
    let shell : Session := ⟨p, enterEmu {2, 10} s.regs s.regs s.mem⟩
    let handling : Session := ⟨p, (handlerGeneric p ⟨0, 0⟩ 1).after shell.machine⟩
    let current := handling.machine.savedSigmask.erase hostSigsegv
    let program : Session := ⟨p, enterEmu current s.regs s.regs s.mem⟩
    program.machine.sigmask.Has 1 ∧ program.machine.sigmask.Has 2 ∧ program.machine.sigmask.Has qsigusr1 := by
  intro p s shell handling current program
  have hshell : shell.Starts {2, 10} := ⟨s.regs, s.regs, s.mem, rfl⟩
  have harrival : shell.Returns handling := by
    apply Returns.arrival
    · decide
    · exact EStateM.run_after (by decide +kernel)
  have hexec : handling.Execs program := ⟨s.regs, s.regs, s.mem, rfl⟩
  have hkept := mask_survives_exec hshell (.single (.inr (.inl harrival))) hexec
  have hmasked : handling.machine.sigmask.Has 1 ∧ handling.machine.sigmask.Has 2 ∧
      handling.machine.sigmask.Has qsigusr1 := by decide +kernel
  obtain ⟨hhup, hint, husr⟩ := hmasked
  refine ⟨?_, ?_, ?_⟩
  · exact (hkept.1 1 1 (by decide) (by decide) (by decide)).mpr hhup
  · exact (hkept.1 2 2 (by decide) (by decide) (by decide)).mpr hint
  · exact (hkept.2.1 shell handling harrival .refl).mpr husr

end Session
end Emu
end Qine
