import Qine.Signal.Pending

/-!
# Answers to the registration of a handler

`signal_sigact` returns QNX status codes, which are positive; `proc_sigact` takes a negative number for a
failure. So a registration that was turned down is answered like one that took effect
(`sigactReply_iff`).
-/

namespace Qine

open Emu

variable {p : Process} {sigtab : Nat} {host : HostCall} {req : SignalRequest} {s s' : Machine} {signo : Nat}

/-! ## What a request asks for -/

/-- `mask` of a signal. -/
def actionMask (sigtab : Nat) (m : Mem) (signo : Nat) : BitVec 32 :=
  m.loadWord 4 (sigactionAt sigtab signo + Sigaction.mask)

/-- The slot of a signal holds the handler and the mask of the request. -/
def SignalRequest.StoredIn (req : SignalRequest) (bits : Bitness) (sigtab : Nat) (m : Mem) : Prop :=
  handlerFn sigtab m req.signum.toNat = storedHandler bits req.handler ∧
    actionMask sigtab m req.signum.toNat = req.mask

/-- What the request is for is the case: `QSIG_HOLD` masks the signal, anything else is stored. -/
def SignalRequest.InEffect (req : SignalRequest) (bits : Bitness) (sigtab : Nat) (s : Machine) : Prop :=
  if req.offset = qsigHold then s.sigmask.Has req.signum.toNat else req.StoredIn bits sigtab s.mem

/-- The error a request is turned down with. -/
def SignalRequest.error (req : SignalRequest) (host : HostCall) : Int :=
  match QnxSigset.mapSigQnxToHost req.signum.toNat with
  | none => qeinval
  | some _ => mapErrno host.errno

/-- A reply that tells what has become of the request. -/
structure Truthful (bits : Bitness) (sigtab : Nat) (host : HostCall) (req : SignalRequest) (s : Machine)
    (reply : SignalReply) (s' : Machine) : Prop where
  success : reply.status = BitVec.ofInt 16 qeok ↔ req.InEffect bits sigtab s'
  failure : ¬ req.InEffect bits sigtab s' → reply.status = BitVec.ofInt 16 (req.error host) ∧
    (∀ x, InSigtab sigtab x → s'.mem x = s.mem x) ∧ s'.sigmask = s.sigmask

/-! ## The reply -/

namespace MainHandler

/-- The part of `proc_sigact` between reading the request and writing the reply. -/
def sigactReply (p : Process) (host : HostCall) (req : SignalRequest) : EmuM SignalReply := do
  let r ← Emu.signalSigact p host req.signum.toNat req.handler req.mask
  let status := if r < 0 then mapErrno host.errno else qeok
  return ⟨BitVec.ofInt 16 status, 0, 0⟩

theorem procSigact_eq {msg : Msg} : procSigact p host msg = (do
    let req ← EStateM.ofExcept (SignalRequest.read p (← get).mem msg)
    let reply ← sigactReply p host req
    writeReply p msg reply) := by
  unfold procSigact sigactReply
  simp only [bind_assoc, pure_bind]

end MainHandler

namespace Emu

/-- Filling in the entry of a signal stores the handler and the mask. -/
theorem storedIn_storeAction {m : Mem} (hs : qsigMin ≤ req.signum.toNat) :
    req.StoredIn p.bits sigtab
      (storeAction p.bits (sigactionAt sigtab req.signum.toNat) req.handler req.mask m) :=
  ⟨(handlerFn_storeAction hs hs).trans (if_pos rfl), Memory.loadWord_storeWord _⟩

/-- What `signal_sigact` does: its result is never negative, and if the request does not take effect
nothing is changed. -/
theorem signalSigact_run (hp : p.sigtab = some sigtab)
    (hs : qsigMin ≤ req.signum.toNat ∧ req.signum.toNat ≤ qsigMax) :
    (signalSigact p host req.signum.toNat req.handler req.mask).Leaves s
      (fun r s' => 0 ≤ r ∧ (req.offset = qsigHold ∨ req.Replaces host → req.InEffect p.bits sigtab s') ∧
        (¬ (req.offset = qsigHold ∨ req.Replaces host) → s' = s)) fun _ _ => False := by
  have hoffset : req.handler.offset = req.offset := rfl
  unfold signalSigact
  rw [hoffset]
  by_cases hhold : req.offset = qsigHold
  · rw [if_pos hhold]
    refine EStateM.leaves_get_bind (EStateM.leaves_ofExcept_bind ?_ ?_)
    · intro sigmask hset
      refine EStateM.leaves_modify_bind (EStateM.leaves_pure ⟨by decide, fun _ => ?_, fun h => ?_⟩)
      · unfold SignalRequest.InEffect
        rw [if_pos hhold]
        exact (QnxSigset.has_setQnxSig hset).mpr (.inl rfl)
      · exact absurd (.inl hhold) h
    · intro err herr
      rw [QnxSigset.setQnxSig, QnxSigset.getQnxMask, if_pos hs] at herr
      cases herr
  · rw [if_neg hhold]
    split
    · next hmap =>
        refine EStateM.leaves_pure ⟨by decide, fun h => ?_, fun _ => rfl⟩
        obtain ⟨_, hostSig, hsome, _⟩ := h.resolve_left hhold
        cases hmap.symm.trans hsome
    · next hostSig hmap =>
        split
        · next hfailed =>
            refine EStateM.leaves_pure ⟨(mapErrno_bounds _).1, fun h => ?_, fun _ => rfl⟩
            obtain ⟨_, _, hsome, hok⟩ := h.resolve_left hhold
            cases hmap.symm.trans hsome
            exact absurd hok (not_or.mpr hfailed)
        · next hok =>
            have hreplaces : req.Replaces host := ⟨hhold, hostSig, hmap, by tauto⟩
            rw [qnxSigtab_eq_ok.mpr ⟨hs, sigtab, hp, rfl⟩]
            refine EStateM.leaves_bind_of_ok rfl (EStateM.leaves_modify_bind (EStateM.leaves_pure ?_))
            refine ⟨by decide, fun _ => ?_, fun h => absurd (.inr hreplaces) h⟩
            unfold SignalRequest.InEffect
            rw [if_neg hhold]
            exact storedIn_storeAction hs.1

end Emu

open MainHandler

/-- The reply to `sigact` tells what has become of the request exactly if the request is `QSIG_HOLD`, or is
for a signal the host knows and accepted by the host, or asks for what is in the slot already. -/
theorem sigactReply_iff (hp : p.sigtab = some sigtab)
    (hs : qsigMin ≤ req.signum.toNat ∧ req.signum.toNat ≤ qsigMax) :
    ∃ reply s', (sigactReply p host req).run s = .ok reply s' ∧
      (Truthful p.bits sigtab host req s reply s' ↔
        req.offset = qsigHold ∨ req.Replaces host ∨ req.StoredIn p.bits sigtab s.mem) := by
  obtain ⟨r, s', hrun, hr, htook, hsame⟩ := (@Emu.signalSigact_run p sigtab host req s hp hs).exists_ok
  refine ⟨⟨BitVec.ofInt 16 qeok, 0, 0⟩, s', ?_, ?_⟩
  · unfold sigactReply
    rw [EStateM.run_bind_of_ok hrun, if_neg (Int.not_lt.mpr hr)]
    rfl
  · by_cases hdone : req.offset = qsigHold ∨ req.Replaces host
    · refine iff_of_true ⟨iff_of_true rfl (htook hdone), fun h => absurd (htook hdone) h⟩ ?_
      tauto
    · have hhold : ¬ req.offset = qsigHold := fun h => hdone (.inl h)
      have hstored : req.InEffect p.bits sigtab s' ↔ req.StoredIn p.bits sigtab s.mem := by
        unfold SignalRequest.InEffect
        rw [if_neg hhold, hsame hdone]
      constructor
      · intro h
        exact .inr (.inr (hstored.mp (h.success.mp rfl)))
      · intro h
        have hin : req.StoredIn p.bits sigtab s.mem := by tauto
        exact ⟨iff_of_true rfl (hstored.mpr hin), fun h => absurd (hstored.mpr hin) h⟩

/-- A request for a handler at `0x8000`. -/
def handlerRequest (signum : BitVec 16) : SignalRequest := ⟨signum, 0x40, 0, 0x8000, 7⟩

/-- `SIGTERM` gets a handler. -/
theorem sigactReply_sigterm :
    let s : Machine := .messenger 0 15
    ∃ reply s', (sigactReply (.smallGuest .b32 .readOnly) ⟨0, 0⟩ (handlerRequest 15)).run s = .ok reply s' ∧
      Truthful .b32 0x1000 ⟨0, 0⟩ (handlerRequest 15) s reply s' := by
  intro s
  obtain ⟨reply, s', hrun, hiff⟩ := @sigactReply_iff (.smallGuest .b32 .readOnly) 0x1000 ⟨0, 0⟩
    (handlerRequest 15) s rfl (by decide)
  exact ⟨reply, s', hrun, hiff.mpr (.inr (.inl ⟨by decide, 15, by decide, by decide⟩))⟩

/-- Signal 24 is none the host knows, and `SIGKILL` is one for which it turns a handler down with `EINVAL`:
nothing is stored, and the answer is that all is well. -/
theorem sigactReply_turned_down :
    let p := Process.smallGuest .b32 .readOnly
    let s : Machine := .messenger 0 15
    ∀ r ∈ [((⟨0, 0⟩ : HostCall), (24 : BitVec 16)), (⟨-1, 22⟩, 9)],
      p.sigtab = some 0x1000 ∧ ∃ s', (sigactReply p r.1 (handlerRequest r.2)).run s = .ok ⟨0, 0, 0⟩ s' ∧
        ¬ (handlerRequest r.2).InEffect .b32 0x1000 s' ∧
        ¬ Truthful .b32 0x1000 r.1 (handlerRequest r.2) s ⟨0, 0, 0⟩ s' := by
  intro p s r hr
  have hslot : ∀ n : BitVec 16, n ∈ [(24 : BitVec 16), 9] →
      ¬ (handlerRequest n).InEffect .b32 0x1000 s := by
    simp only [List.mem_cons, List.not_mem_nil, or_false]
    rintro n (rfl | rfl) ⟨hhandler, -⟩ <;> revert hhandler <;> decide +kernel
  simp only [List.mem_cons, List.not_mem_nil, or_false] at hr
  rcases hr with rfl | rfl
  · exact ⟨rfl, s, rfl, hslot 24 (by decide), fun h => hslot 24 (by decide) (h.success.mp rfl)⟩
  · exact ⟨rfl, s, rfl, hslot 9 (by decide), fun h => hslot 9 (by decide) (h.success.mp rfl)⟩

end Qine
