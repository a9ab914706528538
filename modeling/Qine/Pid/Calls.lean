import Qine.Pid.Fork
import Qine.Signal.Messages

/-!
# Guest pids on their way to the host

`kill`, `waitpid`, `setpgid` and `tcsetpgrp` take pids, and the guest names them by its own. All four
handlers look them up with `PidMap::qnx_valid_host`, and all four check the pointer it returns. The
lookup itself looks into the entry before anybody has checked that there is one; and its parameter is
an `mpid_t`, so what `kill` passes is cut to 16 bits first and may meet the entry of another pid.

`pids_translate_iff` says exactly which pids still come out right.
-/

namespace Qine

/-- The host calls that take pids. -/
inductive PidCall where
  | kill (pid : Int) (sig : Nat)
  | waitpid (pid : Int) (nohang : Bool)
  | setpgid (pid pgid : Int)
  | tcsetpgrp (fd : Int) (pgrp : Int)
  deriving DecidableEq, Repr

/-- The host, by its answers. -/
structure PidHost where
  answer : PidCall → HostCall
  /-- what `waitpid` stores through its second argument -/
  status : PidCall → BitVec 32

/-- What the handlers work on, and the calls they have made. -/
structure PidState where
  pids : PidMap
  calls : List PidCall

/-- The handlers. A pointer to an entry that is gone is an access without a meaning. -/
abbrev PidM := EStateM Fault PidState

/-- How a system call ends: `set_syscall_ok`, or `set_syscall_error`. -/
inductive SyscallResult where
  | ok
  | error (errno : Int)
  deriving DecidableEq, Repr

/-- The pids in a reply to `wait`. With an error before the call only the status is written. -/
inductive WaitReply where
  | status (status : Int)
  | full (status pid xstatus : Int)
  deriving DecidableEq, Repr

/-! ## The lookup -/

/-- What is left of a pid that is passed as `mpid_t`. -/
def toMpid (pid : Int) : Int := (BitVec.ofInt 16 pid).toInt

namespace PidMap

/-- `PidMap::qnx_valid_host`, with the conversion of its argument. -/
def qnxValidHost (s : PidMap) (pid : Int) : Except Fault (Option QnxPid) :=
  match s.qnx (toMpid pid) with
  | none => .error .nullPointer
  | some node => .ok (if node.pid.hostPid = -1 then none else some node.pid)

/-- The branches on the sign of a code that `Emu::kill` and `proc_wait` share. Negating the lowest
`int` is not defined; what is left after the conversion to 16 bits is the same for any result that
wraps around. -/
def targetOf (s : PidMap) (code : Int) : Except Fault (Option Int) :=
  if code = 0 ∨ code = -1 then .ok (some code)
  else if 0 < code then (Option.map QnxPid.hostPid) <$> s.qnxValidHost code
  else (Option.map fun pi => -pi.hostPid) <$> s.qnxValidHost (-code)

/-- The two lookups of `proc_setpgid`; 0 stands for itself. -/
def pgidOf (s : PidMap) (pid : Int) : Except Fault (Option Int) :=
  if pid = 0 then .ok (some 0) else (Option.map QnxPid.hostPid) <$> s.qnxValidHost pid

end PidMap

/-! ## The handlers -/

/-- Call the host. -/
def hostCall (host : PidHost) (c : PidCall) : PidM HostCall := do
  modify fun s => { s with calls := s.calls ++ [c] }
  return host.answer c

/-- `Emu::kill`. -/
def Emu.kill (host : PidHost) (signo code : BitVec 32) : PidM SyscallResult := do
  match QnxSigset.mapSigQnxToHost signo.toNat with
  | none => return .error qeinval
  | some hostSigno =>
    match ← EStateM.ofExcept ((← get).pids.targetOf code.toInt) with
    | none => return .error qesrch
    | some hostCode =>
      let r ← hostCall host (.kill hostCode hostSigno)
      return if r.result < 0 then .error (mapErrno r.errno) else .ok

/-- `WTERMSIG`. -/
def wTermsig (status : BitVec 32) : Nat := (status &&& 0x7F).toNat

/-- `WSTOPSIG`, which is also `WEXITSTATUS`. -/
def wExitstatus (status : BitVec 32) : Nat := (status >>> 8 &&& 0xFF).toNat

/-- `map_sig_host_to_qnx` as a number. -/
def xstatusOf (hostSig : Nat) : Int :=
  match QnxSigset.mapSigHostToQnx hostSig with
  | some signo => signo
  | none => -1

/-- `m_xstatus` of a reply: first the test of `WIFSIGNALED`, then that of `WIFSTOPPED`. -/
def xstatus (status : BitVec 32) : Int :=
  if 0 < wTermsig status ∧ wTermsig status < 0x7F then xstatusOf (wTermsig status)
  else if status &&& 0xFF = 0x7F then xstatusOf (wExitstatus status)
  else wExitstatus status <<< 8

namespace MainHandler

/-- `proc_wait`, once `waitpid` has answered. -/
def waited (host : PidHost) (c : PidCall) (r : HostCall) : PidM WaitReply := do
  if r.result < 0 then
    return .full (mapErrno r.errno) (-1) 0
  else if r.result = 0 then
    return .full qeok 0 0
  else
    let pids := (← get).pids
    match pids.host r.result with
    | none => return .full qeok pidUnknown (xstatus (host.status c))
    | some childPid =>
      match pids.deref (some childPid) with
      | .error _ => throw .outOfBounds
      | .ok pi =>
        modify fun s => { s with pids := pids.freePid ⟨childPid, pi⟩ }
        return .full qeok pi.qnxPid (xstatus (host.status c))

/-- `MainHandler::proc_wait`. -/
def procWait (host : PidHost) (options pid : BitVec 16) : PidM WaitReply := do
  match ← EStateM.ofExcept ((← get).pids.targetOf pid.toInt) with
  | none => return .status qechild
  | some waitCode =>
    let c := .waitpid waitCode (options &&& 1 ≠ 0)
    let r ← hostCall host c
    waited host c r

/-- `MainHandler::proc_setpgid`; the result is the status of the reply. -/
def procSetpgid (host : PidHost) (pid pgid : BitVec 16) : PidM Int := do
  match ← EStateM.ofExcept ((← get).pids.pgidOf pid.toInt) with
  | none => return qesrch
  | some hostPid =>
    match ← EStateM.ofExcept ((← get).pids.pgidOf pgid.toInt) with
    | none => return qesrch
    | some hostPgid =>
      let r ← hostCall host (.setpgid hostPid hostPgid)
      return if r.result < 0 then mapErrno r.errno else qeok

/-- `MainHandler::handle_tcsetpgrp` on an open descriptor. -/
def handleTcsetpgrp (host : PidHost) (hostFd : Int) (pgrp : BitVec 16) : PidM Int := do
  match ← EStateM.ofExcept ((← get).pids.qnxValidHost pgrp.toInt) with
  | none => return qeinval
  | some pgrpPid =>
    let r ← hostCall host (.tcsetpgrp hostFd pgrpPid.hostPid)
    return if r.result < 0 then mapErrno r.errno else qeok

end MainHandler

/-! ## What a pid stands for -/

namespace PidMap

/-- The host pid of the entry with exactly this QNX pid. -/
def hostPidOf (s : PidMap) (pid : Int) : Option Int :=
  match s.qnx pid with
  | none => none
  | some node => if node.pid.hostPid = -1 then none else some node.pid.hostPid

/-- What a code stands for: 0 and -1 for themselves, other negative ones for a group. -/
def codeTarget (s : PidMap) (code : Int) : Option Int :=
  if code = 0 ∨ code = -1 then some code
  else if 0 < code then s.hostPidOf code
  else (s.hostPidOf (-code)).map (-·)

/-- What a pid in `setpgid` stands for. -/
def pgidTarget (s : PidMap) (pid : Int) : Option Int :=
  if pid = 0 then some 0 else s.hostPidOf pid

/-- The lookup of this pid finds an entry, and the right one or one that no signal goes to. -/
def Covers (s : PidMap) (pid : Int) : Prop :=
  ∃ node, s.qnx (toMpid pid) = some node ∧ (toMpid pid = pid ∨ node.pid.hostPid = -1)

/-- The pointer `m_reverse_map` has for a host pid, if any, leads to an entry. -/
def LiveAt (s : PidMap) (hostPid : Int) : Prop :=
  ∀ a, s.host hostPid = some a → ∃ k, s.At a k

/-- The QNX pids of a call are values of type `mpid_t`. -/
def Typed : PidMap → Op → Prop
  | _, .permanent pid _ => toMpid pid = pid
  | _, _ => True

end PidMap

/-- From `s`, the handler makes the one call, or, where there is none to make, answers `e`. -/
def Makes {α : Type} (x : PidM α) (s : PidMap) (e : α) : Option PidCall → Prop
  | some c => ∃ a s', x.run ⟨s, []⟩ = .ok a s' ∧ s'.calls = [c]
  | none => x.run ⟨s, []⟩ = .ok e ⟨s, []⟩

/-! ## Keys are pids -/

namespace PidMap

variable {s s' : PidMap} {pid k code hostPid : Int}

theorem toMpid_of_mem (h : startPid ≤ pid ∧ pid ≤ lastPid) : toMpid pid = pid := by
  unfold toMpid startPid lastPid at *
  rw [BitVec.toInt_ofInt]
  exact Int.bmod_eq_of_le (by omega) (by omega)

theorem choosePid_mem (hhost : -1 ≤ hostPid) (h : s.choosePid hostPid = .ok pid) :
    startPid ≤ pid ∧ pid ≤ lastPid := by
  by_cases hwraps : s.WrapsOntoTaken hostPid
  · rw [choosePid_of_wraps hwraps] at h
    cases h
    decide
  · rcases choosePid_of_not_wraps hhost hwraps with ⟨pid', hpid, hlo, hhi, -⟩ | ⟨hpid, -⟩
    · rw [hpid] at h
      cases h
      exact ⟨hlo, hhi⟩
    · rw [hpid] at h
      cases h

/-- Every key is a value of type `mpid_t`. -/
def Keyed (s : PidMap) : Prop := ∀ k node, s.qnx k = some node → toMpid k = k

theorem Keyed.allocates {addr : Nat} {type : PidType} (h : s.Keyed) (hpid : toMpid pid = pid)
    (halloc : Allocates s s' pid addr type hostPid) : s'.Keyed := by
  intro k node hk
  rcases halloc.cases hk with ⟨rfl, -⟩ | ⟨-, hold⟩
  · exact hpid
  · exact h k node hold

theorem Keyed.step (h : s.Keyed) (hstep : Step Typed s s') : s'.Keyed := by
  obtain ⟨op, hvalid, htyped, happly⟩ := hstep
  cases op with
  | permanent pid hostPid =>
      obtain ⟨addr, hok⟩ := map_fst_eq_ok happly
      unfold allocPermanentPid at hok
      split at hok
      · cases hok
      split at hok
      · cases hok
      cases hok
      exact h.allocates htyped (s.allocates_createEmpty pid hostPid .permanent)
  | related hostPid type =>
      obtain ⟨_, hok⟩ := map_fst_eq_ok happly
      rcases allocRelatedPid_ok hvalid hok with ⟨rfl, -⟩ | ⟨-, -, pid, addr, -, hpid, halloc⟩
      · exact h
      · exact h.allocates (toMpid_of_mem (choosePid_mem hvalid hpid)) halloc
  | child hostPid =>
      obtain ⟨_, hok⟩ := map_fst_eq_ok happly
      obtain ⟨-, pid, hpid, halloc⟩ := allocChildPid_ok hok
      exact h.allocates (toMpid_of_mem (choosePid_mem hvalid hpid)) halloc
  | free pid =>
      unfold apply at happly
      dsimp only at happly
      split at happly
      · cases happly
        intro k node hk
        exact h k node (qnx_of_freePid hk).2
      · cases happly
        exact h

theorem keyed_of_run (h : Relation.ReflTransGen (Step Typed) init s) : s.Keyed := by
  induction h with
  | refl =>
      intro k node hk
      cases hk
  | tail _ hstep ih => exact ih.step hstep

/-! ## The lookup, right and wrong -/

/-- A lookup that goes wrong: it fails, or finds something where there is nothing to find. -/
def Wrong {β : Type} (t : Except Fault (Option β)) (target : Option β) : Prop :=
  (∃ e, t = .error e) ∨ (target = none ∧ ∃ b, t = .ok (some b))

theorem Wrong.map {β γ : Type} {t : Except Fault (Option β)} {target : Option β} (f : β → γ)
    (h : Wrong t target) : Wrong (Option.map f <$> t) (target.map f) := by
  rcases h with ⟨e, rfl⟩ | ⟨rfl, b, rfl⟩
  · exact .inl ⟨e, rfl⟩
  · exact .inr ⟨rfl, f b, rfl⟩

/-- A pid beyond 16 bits has no entry. -/
theorem Keyed.hostPidOf (hs : s.Keyed) (h : toMpid pid ≠ pid) : s.hostPidOf pid = none := by
  cases hpid : s.qnx pid with
  | none => simp [PidMap.hostPidOf, hpid]
  | some node => exact absurd (hs pid node hpid) h

theorem qnxValidHost_right (hs : s.Keyed) (h : s.Covers pid) :
    Option.map QnxPid.hostPid <$> s.qnxValidHost pid = .ok (s.hostPidOf pid) := by
  obtain ⟨node, hnode, hright⟩ := h
  simp only [qnxValidHost, hnode]
  by_cases heq : toMpid pid = pid
  · rw [heq] at hnode
    simp only [PidMap.hostPidOf, hnode]
    split <;> rfl
  · have hhost : node.pid.hostPid = -1 := hright.resolve_left heq
    rw [hs.hostPidOf heq, if_pos hhost]
    rfl

theorem qnxValidHost_wrong (hs : s.Keyed) (h : ¬ s.Covers pid) :
    Wrong (Option.map QnxPid.hostPid <$> s.qnxValidHost pid) (s.hostPidOf pid) := by
  cases hnode : s.qnx (toMpid pid) with
  | none =>
      left
      refine ⟨.nullPointer, ?_⟩
      simp only [qnxValidHost, hnode]
      rfl
  | some node =>
      right
      have hboth : toMpid pid ≠ pid ∧ node.pid.hostPid ≠ -1 := by
        refine ⟨?_, ?_⟩
        · exact fun heq => h ⟨node, hnode, .inl heq⟩
        · exact fun heq => h ⟨node, hnode, .inr heq⟩
      refine ⟨hs.hostPidOf hboth.1, node.pid.hostPid, ?_⟩
      simp only [qnxValidHost, hnode, if_neg hboth.2]
      rfl

/-- The code needs no lookup, or the lookup is right. -/
def CodeCovers (s : PidMap) (code : Int) : Prop := code = 0 ∨ code = -1 ∨ s.Covers code.natAbs

/-- The pid is 0, or the lookup is right. -/
def PgidCovers (s : PidMap) (pid : Int) : Prop := pid = 0 ∨ s.Covers pid

theorem targetOf_neg (s : PidMap) (code : Int) :
    (Option.map fun pi => -pi.hostPid) <$> s.qnxValidHost (-code) =
      Option.map (-·) <$> Option.map QnxPid.hostPid <$> s.qnxValidHost (-code) := by
  cases s.qnxValidHost (-code) with
  | error e => rfl
  | ok pi => cases pi <;> rfl

theorem targetOf_right (hs : s.Keyed) (h : s.CodeCovers code) :
    s.targetOf code = .ok (s.codeTarget code) := by
  unfold targetOf codeTarget
  split
  · rfl
  next hcode =>
  have hcov : s.Covers code.natAbs := by
    rcases h with hzero | hneg | hcov
    · exact absurd (Or.inl hzero) hcode
    · exact absurd (Or.inr hneg) hcode
    · exact hcov
  split
  · next hpos =>
      rw [Int.natAbs_of_nonneg (by omega)] at hcov
      exact qnxValidHost_right hs hcov
  · next hpos =>
      rw [Int.ofNat_natAbs_of_nonpos (by omega)] at hcov
      rw [targetOf_neg, qnxValidHost_right hs hcov]
      rfl

theorem targetOf_wrong (hs : s.Keyed) (h : ¬ s.CodeCovers code) :
    Wrong (s.targetOf code) (s.codeTarget code) := by
  unfold CodeCovers at h
  push Not at h
  obtain ⟨hzero, hneg, hcov⟩ := h
  have hcode : ¬ (code = 0 ∨ code = -1) := by omega
  unfold targetOf codeTarget
  rw [if_neg hcode, if_neg hcode]
  split
  · next hpos =>
      rw [Int.natAbs_of_nonneg (by omega)] at hcov
      exact qnxValidHost_wrong hs hcov
  · next hpos =>
      rw [Int.ofNat_natAbs_of_nonpos (by omega)] at hcov
      rw [targetOf_neg]
      exact (qnxValidHost_wrong hs hcov).map _

theorem pgidOf_right (hs : s.Keyed) (h : s.PgidCovers pid) :
    s.pgidOf pid = .ok (s.pgidTarget pid) := by
  unfold pgidOf pgidTarget
  split
  · rfl
  · next hne => exact qnxValidHost_right hs (h.resolve_left hne)

/-- The pids in a message have 16 bits, so what goes wrong with them is a missing entry. -/
theorem pgidOf_wrong (hpid : toMpid pid = pid) (h : ¬ s.PgidCovers pid) :
    s.pgidOf pid = .error .nullPointer := by
  unfold PgidCovers at h
  push Not at h
  unfold pgidOf qnxValidHost
  rw [if_neg h.1, hpid]
  cases hnode : s.qnx pid with
  | none => rfl
  | some node => exact absurd ⟨node, by rwa [hpid], .inl hpid⟩ h.2

end PidMap

/-! ## The handlers, right and wrong -/

open PidMap MainHandler

variable {s : PidMap} {host : PidHost}

/-- How a handler ends that has looked something up: with what is thrown, with the answer `e` if there
is nothing, or as `next` says. -/
def lookedUp {α β : Type} (s : PidMap) (t : Except Fault (Option β)) (e : α)
    (next : β → EStateM.Result Fault PidState α) : EStateM.Result Fault PidState α :=
  match t with
  | .error f => .error f ⟨s, []⟩
  | .ok none => .ok e ⟨s, []⟩
  | .ok (some b) => next b

/-- A handler that looks something up and then makes one call for it does what it should exactly if
the lookup is right and, where there is a call to make, it gets through what it does after the call. -/
theorem makes_iff {α β : Type} {x : PidM α} {e : α} {t : Except Fault (Option β)}
    {next : β → EStateM.Result Fault PidState α} {target : Option β} {call : β → PidCall}
    {right : Prop} {through : β → Prop} (hrun : x.run ⟨s, []⟩ = lookedUp s t e next)
    (hright : right → t = .ok target) (hwrong : ¬ right → Wrong t target)
    (hcalls : ∀ b a s', next b = .ok a s' → s'.calls = [call b])
    (hret : ∀ b, (∃ a s', next b = .ok a s') ↔ through b) :
    Makes x s e (target.map call) ↔ right ∧ ∀ b, target = some b → through b := by
  by_cases h : right
  · rw [hright h] at hrun
    cases target with
    | none =>
        have hnone : x.run ⟨s, []⟩ = .ok e ⟨s, []⟩ := hrun
        simp [Makes, h, hnone]
    | some b =>
        have hnext : x.run ⟨s, []⟩ = next b := hrun
        simp only [Option.map_some, Makes, h, true_and, Option.some.injEq, forall_eq', ← hret b,
          hnext]
        refine ⟨?_, ?_⟩
        · rintro ⟨a, s', hok, -⟩
          exact ⟨a, s', hok⟩
        · rintro ⟨a, s', hok⟩
          exact ⟨a, s', hok, hcalls b a s' hok⟩
  · rcases hwrong h with ⟨f, hf⟩ | ⟨rfl, b, hb⟩
    · -- the lookup failed, and so does the handler
      rw [hf] at hrun
      have herr : x.run ⟨s, []⟩ = .error f ⟨s, []⟩ := hrun
      cases target <;> simp [Makes, herr, h]
    · -- the handler makes a call, and there is none to make
      rw [hb] at hrun
      simp only [Option.map_none, Makes, h, false_and, iff_false]
      intro hok
      have hcall := hcalls b e ⟨s, []⟩ (hrun.symm.trans hok)
      cases hcall

/-- Three of the handlers do nothing after the call that can fail. -/
theorem makes_iff_of_ok {α β : Type} {x : PidM α} {e : α} {t : Except Fault (Option β)}
    {answer : β → α} {target : Option β} {call : β → PidCall} {right : Prop}
    (hrun : x.run ⟨s, []⟩ = lookedUp s t e fun b => .ok (answer b) ⟨s, [call b]⟩)
    (hright : right → t = .ok target) (hwrong : ¬ right → Wrong t target) :
    Makes x s e (target.map call) ↔ right := by
  have hret : ∀ b, (∃ a s', (.ok (answer b) ⟨s, [call b]⟩ : EStateM.Result Fault PidState α) =
      .ok a s') ↔ True := by simp
  have hmakes := makes_iff hrun hright hwrong (by rintro b a s' ⟨⟩; rfl) hret
  simpa using hmakes

theorem kill_run {signo code : BitVec 32} {hostSigno : Nat}
    (hsig : QnxSigset.mapSigQnxToHost signo.toNat = some hostSigno) :
    (Emu.kill host signo code).run ⟨s, []⟩ =
      lookedUp s (s.targetOf code.toInt) (.error qesrch) fun hostCode =>
        let r := host.answer (.kill hostCode hostSigno)
        .ok (if r.result < 0 then .error (mapErrno r.errno) else .ok)
          ⟨s, [.kill hostCode hostSigno]⟩ := by
  unfold Emu.kill
  simp only [hsig, EStateM.run_get_bind]
  cases s.targetOf code.toInt with
  | error f => rfl
  | ok t => cases t <;> rfl

theorem procWait_run {options pid : BitVec 16} :
    (procWait host options pid).run ⟨s, []⟩ =
      lookedUp s (s.targetOf pid.toInt) (.status qechild) fun waitCode =>
        let c := .waitpid waitCode (options &&& 1 ≠ 0)
        (waited host c (host.answer c)).run ⟨s, [c]⟩ := by
  unfold procWait
  simp only [EStateM.run_get_bind]
  cases s.targetOf pid.toInt with
  | error f => rfl
  | ok t => cases t <;> rfl

/-- Both lookups of `proc_setpgid`. -/
def PidMap.pgidsOf (s : PidMap) (pid pgid : Int) : Except Fault (Option (Int × Int)) := do
  match ← s.pgidOf pid with
  | none => return none
  | some hostPid =>
    let hostPgid ← s.pgidOf pgid
    return hostPgid.map (hostPid, ·)

/-- What the two pids stand for. -/
def PidMap.pgidTargets (s : PidMap) (pid pgid : Int) : Option (Int × Int) :=
  match s.pgidTarget pid with
  | none => none
  | some hostPid => (s.pgidTarget pgid).map (hostPid, ·)

theorem procSetpgid_run {pid pgid : BitVec 16} :
    (procSetpgid host pid pgid).run ⟨s, []⟩ =
      lookedUp s (s.pgidsOf pid.toInt pgid.toInt) qesrch fun ids =>
        let r := host.answer (.setpgid ids.1 ids.2)
        .ok (if r.result < 0 then mapErrno r.errno else qeok) ⟨s, [.setpgid ids.1 ids.2]⟩ := by
  unfold procSetpgid pgidsOf
  simp only [EStateM.run_get_bind]
  cases s.pgidOf pid.toInt with
  | error f => rfl
  | ok t =>
      cases t with
      | none => rfl
      | some hostPid =>
          rw [EStateM.run_ofExcept_bind rfl]
          simp only [EStateM.run_get_bind]
          cases s.pgidOf pgid.toInt with
          | error f => rfl
          | ok t => cases t <;> rfl

theorem handleTcsetpgrp_run {hostFd : Int} {pgrp : BitVec 16} :
    (handleTcsetpgrp host hostFd pgrp).run ⟨s, []⟩ =
      lookedUp s (Option.map QnxPid.hostPid <$> s.qnxValidHost pgrp.toInt) qeinval fun hostPgrp =>
        let r := host.answer (.tcsetpgrp hostFd hostPgrp)
        .ok (if r.result < 0 then mapErrno r.errno else qeok)
          ⟨s, [.tcsetpgrp hostFd hostPgrp]⟩ := by
  unfold handleTcsetpgrp
  simp only [EStateM.run_get_bind]
  cases s.qnxValidHost pgrp.toInt with
  | error f => rfl
  | ok t => cases t <;> rfl

/-- A pointer can be followed if it leads to an entry. -/
theorem PidMap.deref_ok_iff {a : Nat} : (∃ pi, s.deref (some a) = .ok pi) ↔ ∃ k, s.At a k := by
  refine ⟨?_, ?_⟩
  · rintro ⟨pi, hpi⟩
    obtain ⟨k, hk⟩ := deref_ok hpi
    exact ⟨k, ⟨a, pi⟩, hk, rfl⟩
  · rintro ⟨k, node, hnode, rfl⟩
    have hmem : (k, node) ∈ s.qnxMap.toList := Std.TreeMap.mem_toList_iff_getElem?_eq_some.2 hnode
    unfold deref
    split
    · next x _ => exact ⟨x.2.pid, rfl⟩
    · next hnone => exact absurd (beq_self_eq_true _) (List.find?_eq_none.1 hnone _ hmem)

/-- `proc_wait` gets through, once `waitpid` has answered, unless the reaped host pid has a pointer
that leads nowhere. -/
theorem waited_ok {c : PidCall} {r : HostCall} {cs : List PidCall} :
    (∃ a s', (waited host c r).run ⟨s, cs⟩ = .ok a s') ↔ (0 < r.result → s.LiveAt r.result) := by
  unfold waited
  split
  · next hneg => exact ⟨fun _ hpos => absurd hneg (by omega), fun _ => ⟨_, _, rfl⟩⟩
  split
  · next hzero => exact ⟨fun _ hpos => absurd hzero (by omega), fun _ => ⟨_, _, rfl⟩⟩
  next hneg hzero =>
  have hpos : 0 < r.result := by omega
  simp only [EStateM.run_get_bind, hpos, forall_const, LiveAt]
  cases hrev : s.host r.result with
  | none => simp
  | some a =>
      simp only [Option.some.injEq, forall_eq', ← deref_ok_iff]
      cases s.deref (some a) with
      | error e =>
          refine ⟨?_, ?_⟩
          · rintro ⟨_, _, ⟨⟩⟩
          · rintro ⟨_, ⟨⟩⟩
      | ok pi => exact ⟨fun _ => ⟨pi, rfl⟩, fun _ => ⟨_, _, rfl⟩⟩

theorem waited_calls {c : PidCall} {r : HostCall} {cs : List PidCall} {a : WaitReply}
    {s' : PidState} (h : (waited host c r).run ⟨s, cs⟩ = .ok a s') : s'.calls = cs := by
  unfold waited at h
  split at h
  · cases h
    rfl
  split at h
  · cases h
    rfl
  simp only [EStateM.run_get_bind] at h
  cases hrev : s.host r.result with
  | none =>
      rw [hrev] at h
      cases h
      rfl
  | some a =>
      simp only [hrev] at h
      cases hderef : s.deref (some a) with
      | error e =>
          rw [hderef] at h
          cases h
      | ok pi =>
          rw [hderef] at h
          cases h
          rfl

/-- Every lookup that `setpgid` gets to is right. -/
def PidMap.PgidsCover (s : PidMap) (pid pgid : Int) : Prop :=
  s.PgidCovers pid ∧ ∀ hostPid, s.pgidTarget pid = some hostPid → s.PgidCovers pgid

theorem PidMap.pgidsOf_right {pid pgid : Int} (hs : s.Keyed) (h : s.PgidsCover pid pgid) :
    s.pgidsOf pid pgid = .ok (s.pgidTargets pid pgid) := by
  unfold pgidsOf pgidTargets
  rw [pgidOf_right hs h.1]
  cases hpid : s.pgidTarget pid with
  | none => rfl
  | some hostPid =>
      show (s.pgidOf pgid >>= fun t => pure (t.map (hostPid, ·))) = _
      rw [pgidOf_right hs (h.2 hostPid hpid)]
      rfl

theorem PidMap.pgidsOf_wrong {pid pgid : Int} (hs : s.Keyed) (hpid : toMpid pid = pid)
    (hpgid : toMpid pgid = pgid) (h : ¬ s.PgidsCover pid pgid) :
    s.pgidsOf pid pgid = .error .nullPointer := by
  unfold pgidsOf
  by_cases hcov : s.PgidCovers pid
  · have hsecond : ∃ hostPid, s.pgidTarget pid = some hostPid ∧ ¬ s.PgidCovers pgid := by
      by_contra hall
      push Not at hall
      exact h ⟨hcov, hall⟩
    obtain ⟨hostPid, htarget, hcov'⟩ := hsecond
    rw [pgidOf_right hs hcov, htarget]
    show (s.pgidOf pgid >>= fun t => pure (t.map (hostPid, ·))) = _
    rw [pgidOf_wrong hpgid hcov']
    rfl
  · rw [pgidOf_wrong hpid hcov]
    rfl

theorem toMpid_toInt (pid : BitVec 16) : toMpid pid.toInt = pid.toInt := by
  unfold toMpid
  rw [BitVec.ofInt_toInt]

/-- When each handler gets the pids of a guest right: exactly if every lookup it makes finds an entry,
and one for the pid that was asked for or one without a host pid; and if the host pid `waitpid` returns
has no pointer to an entry that was freed. -/
theorem pids_translate_iff (hs : Relation.ReflTransGen (Step Typed) init s) (host : PidHost) :
    (∀ (signo code : BitVec 32) (hostSigno : Nat),
      QnxSigset.mapSigQnxToHost signo.toNat = some hostSigno →
      (Makes (Emu.kill host signo code) s (.error qesrch)
        ((s.codeTarget code.toInt).map (.kill · hostSigno)) ↔ s.CodeCovers code.toInt)) ∧
    (∀ options pid : BitVec 16,
      let call := fun waitCode => .waitpid waitCode (options &&& 1 ≠ 0)
      (Makes (procWait host options pid) s (.status qechild) ((s.codeTarget pid.toInt).map call) ↔
        s.CodeCovers pid.toInt ∧ ∀ waitCode, s.codeTarget pid.toInt = some waitCode →
          0 < (host.answer (call waitCode)).result →
            s.LiveAt (host.answer (call waitCode)).result)) ∧
    (∀ pid pgid : BitVec 16,
      (Makes (procSetpgid host pid pgid) s qesrch
        ((s.pgidTargets pid.toInt pgid.toInt).map fun ids => .setpgid ids.1 ids.2) ↔
          s.PgidsCover pid.toInt pgid.toInt)) ∧
    ∀ (hostFd : Int) (pgrp : BitVec 16),
      (Makes (handleTcsetpgrp host hostFd pgrp) s qeinval
        ((s.hostPidOf pgrp.toInt).map (.tcsetpgrp hostFd ·)) ↔ s.Covers pgrp.toInt) := by
  have hkeyed := keyed_of_run hs
  refine ⟨?_, ?_, ?_, ?_⟩
  · intro signo code hostSigno hsig
    exact makes_iff_of_ok (kill_run hsig) (targetOf_right hkeyed) (targetOf_wrong hkeyed)
  · intro options pid call
    exact makes_iff procWait_run (targetOf_right hkeyed) (targetOf_wrong hkeyed)
      (fun b a s' => waited_calls) (fun b => waited_ok)
  · intro pid pgid
    refine makes_iff_of_ok procSetpgid_run (pgidsOf_right hkeyed) ?_
    intro h
    exact .inl ⟨_, pgidsOf_wrong hkeyed (toMpid_toInt pid) (toMpid_toInt pgid) h⟩
  · intro hostFd pgrp
    exact makes_iff_of_ok handleTcsetpgrp_run (qnxValidHost_right hkeyed)
      (qnxValidHost_wrong hkeyed)

/-- A host that answers every call with zeroes. -/
def PidHost.silent : PidHost where
  answer _ := ⟨0, 0⟩
  status _ := 0

/-- A map in which process 4711 is a child: it can be killed, and so can its group. -/
theorem pids_translate_child :
    let s := init.after (.child 4711)
    Makes (Emu.kill .silent 15 4711) s (.error qesrch) (some (.kill 4711 15)) ∧
      Makes (Emu.kill .silent 15 (-4711)) s (.error qesrch) (some (.kill (-4711) 15)) := by
  intro s
  have hrun : Relation.ReflTransGen (Step Typed) init s :=
    run_after .refl (.child 4711) (by decide) trivial
  have hcov : s.Covers 4711 :=
    ⟨⟨0, ⟨.child, 4711, 4711⟩⟩, by decide +kernel, .inl (by decide +kernel)⟩
  have hkill := (pids_translate_iff hrun .silent).1
  have htarget : s.codeTarget 4711 = some 4711 ∧ s.codeTarget (-4711) = some (-4711) := by
    decide +kernel
  have hcode := (hkill 15 4711 15 rfl).mpr (.inr (.inr hcov))
  have hgroup := (hkill 15 (-4711) 15 rfl).mpr (.inr (.inr hcov))
  rw [show (4711 : BitVec 32).toInt = 4711 by decide, htarget.1] at hcode
  rw [show (-4711 : BitVec 32).toInt = -4711 by decide, htarget.2] at hgroup
  exact ⟨hcode, hgroup⟩

/-- The lookup of a pid without an entry goes through a null pointer, and that of a pid beyond 16 bits
signals the process that has the lower half of it. -/
theorem pids_not_translated :
    let s := init.after (.child 4711)
    let host := PidHost.silent
    Relation.ReflTransGen (Step Typed) init s ∧
      (Emu.kill host 15 4712).run ⟨s, []⟩ = .error .nullPointer ⟨s, []⟩ ∧
      ¬ Makes (Emu.kill host 15 4712) s (.error qesrch)
        ((s.codeTarget 4712).map (.kill · 15)) ∧
      ¬ Makes (Emu.kill host 15 (65536 + 4711)) s (.error qesrch)
        ((s.codeTarget (65536 + 4711)).map (.kill · 15)) := by
  intro s host
  refine ⟨run_after .refl (.child 4711) (by decide) trivial, ?_⟩
  have hmissing : s.targetOf 4712 = .error .nullPointer := by decide +kernel
  have hother : s.targetOf (65536 + 4711) = .ok (some 4711) := by decide +kernel
  have hnone : s.codeTarget 4712 = none ∧ s.codeTarget (65536 + 4711) = none := by decide +kernel
  have hrun : (Emu.kill host 15 4712).run ⟨s, []⟩ = .error .nullPointer ⟨s, []⟩ := by
    rw [kill_run rfl, show (4712 : BitVec 32).toInt = 4712 by decide, hmissing]
    rfl
  have hrun' := @kill_run s host 15 (65536 + 4711) 15 rfl
  rw [show (65536 + 4711 : BitVec 32).toInt = 65536 + 4711 by decide, hother] at hrun'
  refine ⟨hrun, ?_, ?_⟩
  · rw [hnone.1]
    intro h
    cases hrun.symm.trans h
  · rw [hnone.2]
    intro h
    have hcalls := hrun'.symm.trans h
    simp [lookedUp] at hcalls

end Qine
