import Qine.Signal.Emu

/-!
# The host's signal mask

Host signals that the guest has masked stay masked on the host, where other processes and the terminal can
see it. The mask of the guest is a word and the host's is a set, with numbers of its own; `SIG_MAP` goes
between the two. `hostSigmask_refines` says that the saved host mask stands for the guest's mask on every
way back to the guest, and that the two conversions undo each other as far as the table goes.
-/

namespace Qine

namespace QnxSigset

/-- `QnxSigset::map_sigmask_host_to_qnx`. -/
def mapSigmaskHostToQnx (hostSet : Finset Nat) : QnxSigset :=
  (List.range' qsigMin qsigMax).foldl (fun acc sig =>
    match mapSigQnxToHost sig, getQnxMask sig with
    | some hostSig, .ok mask => if hostSig ∈ hostSet then ⟨acc.value ||| mask⟩ else acc
    | _, _ => acc) ⟨0⟩

variable {s : QnxSigset} {sig host : Nat}

/-- The table has at most one row for a QNX signal. -/
theorem mapSigQnxToHost_eq_some : mapSigQnxToHost sig = some host ↔ (host, sig) ∈ sigMap := by
  have hrows : ∀ x ∈ sigMap, mapSigQnxToHost x.2 = some x.1 := by decide
  constructor
  · intro h
    obtain ⟨x, hfind, rfl⟩ := Option.map_eq_some_iff.mp h
    have hx : x.2 = sig := by simpa using List.find?_some hfind
    subst hx
    exact List.mem_of_find?_eq_some hfind
  · intro h
    exact hrows _ h

/-- The table has at most one row for a host signal. -/
theorem sigMap_injective {sig' : Nat} (h : (host, sig) ∈ sigMap) (h' : (host, sig') ∈ sigMap) : sig = sig' := by
  have hrows : ∀ x ∈ sigMap, ∀ y ∈ sigMap, x.1 = y.1 → x.2 = y.2 := by decide
  exact hrows _ h _ h' rfl

/-- The host signals of a mask are those of its signals. -/
theorem mem_mapToHostSigset : host ∈ s.mapToHostSigset ↔ ∃ sig, s.Has sig ∧ (host, sig) ∈ sigMap := by
  unfold mapToHostSigset
  rw [Rows.foldl_collects (P := (host ∈ ·)) (Q := fun sig => s.Has sig ∧ (host, sig) ∈ sigMap)]
  · constructor
    · rintro (h | ⟨sig, -, hsig⟩)
      · simp at h
      · exact ⟨sig, hsig⟩
    · rintro ⟨sig, hhas, hrow⟩
      exact .inr ⟨sig, mem_range'_iff.mpr ⟨hhas.1, hhas.2.1⟩, hhas, hrow⟩
  · intro acc sig hsig
    rw [test_eq_ok.mpr ⟨mem_range'_iff.mp hsig, rfl⟩, ← mapSigQnxToHost_eq_some]
    cases hhost : mapSigQnxToHost sig with
    | none => simp
    | some hostSig =>
        by_cases hhas : s.Has sig
        · simp [hhas, or_comm, eq_comm]
        · simp [hhas]

/-- A single signal. -/
theorem has_mask {mask : BitVec 32} {other : Nat} (h : getQnxMask sig = .ok mask) :
    (QnxSigset.mk mask).Has other ↔ other = sig := by
  have hset : (QnxSigset.mk 0).setQnxSig sig = .ok ⟨mask⟩ :=
    bind_eq_ok.mpr ⟨mask, h, congrArg (fun v => Except.ok (QnxSigset.mk v)) (BitVec.zero_or)⟩
  have hno : ¬ (QnxSigset.mk 0).Has other := fun h => by
    simpa using h.2.2
  rw [has_setQnxSig hset, or_iff_left hno]

/-- A host set is taken for the signals whose host signals are in it. -/
theorem has_mapSigmaskHostToQnx {hostSet : Finset Nat} :
    (mapSigmaskHostToQnx hostSet).Has sig ↔
      (qsigMin ≤ sig ∧ sig ≤ qsigMax) ∧ ∃ host ∈ hostSet, (host, sig) ∈ sigMap := by
  have hcollects := Rows.foldl_collects (P := (QnxSigset.Has · sig))
    (Q := fun i => i = sig ∧ ∃ host ∈ hostSet, (host, sig) ∈ sigMap) (l := List.range' qsigMin qsigMax)
    (f := fun acc i =>
      match mapSigQnxToHost i, getQnxMask i with
      | some hostSig, .ok mask => if hostSig ∈ hostSet then ⟨acc.value ||| mask⟩ else acc
      | _, _ => acc) ?_ ⟨0⟩
  · have hempty : ¬ (QnxSigset.mk 0).Has sig := fun h => by simpa using h.2.2
    refine hcollects.trans ((or_iff_right hempty).trans ?_)
    constructor
    · rintro ⟨i, hi, rfl, h⟩
      exact ⟨mem_range'_iff.mp hi, h⟩
    · rintro ⟨hi, h⟩
      exact ⟨sig, mem_range'_iff.mpr hi, rfl, h⟩
  · intro acc i hi
    have hmask : getQnxMask i = .ok (1#32 <<< (i - qsigMin)) := getQnxMask_eq_ok.mpr ⟨mem_range'_iff.mp hi, rfl⟩
    rw [hmask]
    cases hhost : mapSigQnxToHost i with
    | none =>
        have hno : ¬ (i = sig ∧ ∃ host ∈ hostSet, (host, sig) ∈ sigMap) := by
          rintro ⟨rfl, host, -, hrow⟩
          rw [mapSigQnxToHost_eq_some.mpr hrow] at hhost
          cases hhost
        exact (or_iff_left hno).symm
    | some hostSig =>
        have hrow : (∃ host ∈ hostSet, (host, i) ∈ sigMap) ↔ hostSig ∈ hostSet := by
          simp [← mapSigQnxToHost_eq_some, hhost]
        by_cases hmem : hostSig ∈ hostSet
        · simp only [hmem, if_true]
          rw [has_or, has_mask hmask]
          refine or_congr_right ?_
          constructor
          · rintro rfl
            exact ⟨rfl, hrow.mpr hmem⟩
          · rintro ⟨rfl, -⟩
            rfl
        · simp only [hmem, if_false]
          have hno : ¬ (i = sig ∧ ∃ host ∈ hostSet, (host, sig) ∈ sigMap) := by
            rintro ⟨rfl, h⟩
            exact hmem (hrow.mp h)
          exact (or_iff_left hno).symm

/-- Mapped to the host and back, a mask has the signals it had before that are in the table. -/
theorem has_mapSigmaskHostToQnx_mapToHostSigset :
    (mapSigmaskHostToQnx s.mapToHostSigset).Has sig ↔ s.Has sig ∧ ∃ host, (host, sig) ∈ sigMap := by
  rw [has_mapSigmaskHostToQnx]
  constructor
  · rintro ⟨-, host, hmem, hrow⟩
    obtain ⟨sig', hhas, hrow'⟩ := mem_mapToHostSigset.mp hmem
    rw [sigMap_injective hrow hrow']
    exact ⟨hhas, host, hrow'⟩
  · rintro ⟨hhas, host, hrow⟩
    exact ⟨⟨hhas.1, hhas.2.1⟩, host, mem_mapToHostSigset.mpr ⟨sig, hhas, hrow⟩, hrow⟩

end QnxSigset

namespace Emu

open QnxSigset

variable {p : Process} {s s' : Machine} {now : Timespec}

/-- The saved host mask stands for the guest's mask; the host keeps `SIGSEGV`. -/
def MaskSynced (s : Machine) : Prop := s.savedSigmask = s.sigmask.mapToHostSigset.erase hostSigsegv

theorem maskSynced_iff : MaskSynced s ↔ ∀ host, host ∈ s.savedSigmask ↔
    host ≠ hostSigsegv ∧ ∃ sig, s.sigmask.Has sig ∧ (host, sig) ∈ sigMap := by
  unfold MaskSynced
  rw [Finset.ext_iff]
  simp only [Finset.mem_erase, mem_mapToHostSigset]

/-- The frame of a signal is built after the masks have been changed together. -/
theorem deliver_maskSynced {signo : Nat} (h : (deliver p signo).run s = .ok () s') : MaskSynced s' := by
  obtain ⟨sigtab, sigpend, sigmask, -, -, -, -, hframe⟩ := deliver_ok h
  have hpushed := pushFrame_ok hframe
  unfold MaskSynced
  rw [hpushed.savedSigmask, hpushed.sigmask]

/-- The masks agree on every way back to the guest. -/
theorem signalTail_maskSynced (h : (signalTail p now).run s = .ok () s')
    (hguest : s.regs.cs &&& SegmentDescriptor.selLdt ≠ 0) : MaskSynced s' := by
  obtain ⟨s₁, -, ⟨hhost, -⟩ | ⟨-, -, rfl⟩ | ⟨-, signo, -, hdeliver⟩⟩ := signalTail_ok h
  · exact absurd hhost hguest
  · rfl
  · exact deliver_maskSynced hdeliver

/-- Whenever `signal_tail` returns to the guest, the saved host mask is the set of the host signals of the
guest's mask, without `SIGSEGV`; and a mask that is mapped to the host and back is the same as far as the
table covers it. -/
theorem hostSigmask_refines :
    (∀ (p : Process) (now : Timespec) (s s' : Machine), (signalTail p now).run s = .ok () s' →
      s.regs.cs &&& SegmentDescriptor.selLdt ≠ 0 → ∀ host, host ∈ s'.savedSigmask ↔
        host ≠ hostSigsegv ∧ ∃ sig, s'.sigmask.Has sig ∧ (host, sig) ∈ sigMap) ∧
    ∀ (mask : QnxSigset) (sig : Nat),
      (mapSigmaskHostToQnx mask.mapToHostSigset).Has sig ↔ mask.Has sig ∧ ∃ host, (host, sig) ∈ sigMap := by
  constructor
  · intro p now s s' h hguest
    exact maskSynced_iff.mp (signalTail_maskSynced h hguest)
  · intro mask sig
    exact has_mapSigmaskHostToQnx_mapToHostSigset

/-- The small guest with two signals pending: the first one is delivered, and is masked on the host then. -/
theorem hostSigmask_refines_smallGuest :
    let p := Process.smallGuest .b32 .readOnly
    let s := Machine.smallGuest 7 0x1000
    let s' := (signalTail p ⟨0, 0⟩).after s
    1 ∈ s'.savedSigmask := by
  intro p s s'
  have hrun : (signalTail p ⟨0, 0⟩).run s = .ok () s' := EStateM.run_after (by decide +kernel)
  have hguest : s.regs.cs &&& SegmentDescriptor.selLdt ≠ 0 := by decide
  have hmasked : s'.sigmask.Has 1 := by decide +kernel
  exact (hostSigmask_refines.1 p ⟨0, 0⟩ s s' hrun hguest 1).mpr ⟨by decide, 1, hmasked, by decide⟩

end Emu
end Qine
