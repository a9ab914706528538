import Qine.Lib.Slots
import Qine.IdMap
import Qine.Path.Mapper

/-!
# Guest and host file descriptors

`FdMap` (`qnx_fd.cpp`) keeps an entry for every attached guest descriptor. A guest descriptor is
meant to have the number of the host descriptor behind it, so host descriptors are renumbered with
`dup2` after they are opened.

The host keeps a table of descriptors; opening, `pipe` and `dup` take the lowest free number.
Owning handles (`UniqueFd`) are the descriptor number, and their destructor is a call of
`UniqueFd.close` where the source has the end of their scope. The filter of a terminal descriptor
and the unused `m_handle` are not modelled.
-/

namespace Qine

variable {φ : Type}

/-! ## The host -/

/-- A host descriptor: the open file it refers to, and its close-on-exec flag. -/
structure HostFd (φ : Type) where
  file : φ
  cloexec : Bool
  deriving DecidableEq, Repr

/-- The descriptor table of the host process. -/
abbrev HostFds (φ : Type) := Slots (HostFd φ)

namespace HostFds

/-- A host call that opens `file`. -/
def openFile (host : HostFds φ) (file : φ) : HostFds φ × Nat :=
  (host.put host.lowestFree (some ⟨file, false⟩), host.lowestFree)

/-- `::close`. -/
def close (host : HostFds φ) (fd : Nat) : HostFds φ := host.put fd none

/-- The descriptor behind a number that may be `-1`. -/
def lookup (host : HostFds φ) (fd : Int) : Option (HostFd φ) :=
  if fd < 0 then none else host.get fd.toNat

/-- `dup`; it fails on a number that is not open. -/
def dup (host : HostFds φ) (fd : Int) : Option (HostFds φ × Nat) :=
  (host.lookup fd).map fun d => host.openFile d.file

/-- `dup2`; it fails on a number that is not open. -/
def dup2 (host : HostFds φ) (fd : Int) (newFd : Nat) : Option (HostFds φ) :=
  (host.lookup fd).map fun d => if fd = newFd then host else host.put newFd (some ⟨d.file, false⟩)

/-- `fcntl(fd, F_SETFD, FD_CLOEXEC)`; it fails on a number that is not open. -/
def setCloexec (host : HostFds φ) (fd : Int) : Option (HostFds φ) :=
  (host.lookup fd).map fun d => host.put fd.toNat (some { d with cloexec := true })

end HostFds

/-- `UniqueFd::close`, on the number the handle owns: it leaves descriptor 0 alone. -/
def UniqueFd.close (host : HostFds φ) (fd : Int) : HostFds φ :=
  if fd > 0 then host.close fd.toNat else host

/-! ## Entries -/

/-- `QnxFd`. -/
structure QnxFd where
  fd : Nat
  nid : Int
  pid : Int
  vid : Int
  flags : BitVec 16
  isOpen : Bool
  path : PathInfo
  hostFd : Int
  /-- Whether a directory stream was opened on the descriptor. -/
  hostDir : Bool
  deriving DecidableEq, Repr

/-- How a message can end other than with a reply of success. -/
inductive FdError where
  | badFd
  | noFreeId
  | idAlreadyTaken
  /-- A host call failed. -/
  | hostCall
  | fault (f : Fault)
  deriving DecidableEq, Repr

namespace QnxFd

/-- `QnxFd::QnxFd`. -/
def make (nid pid vid : Int) (flags : BitVec 16) (fd : Nat) : QnxFd :=
  ⟨fd, nid, pid, vid, flags, false, PathInfo.empty, 0, false⟩

/-- `QnxFd::is_close_on_exec`. -/
def isCloseOnExec (fd : QnxFd) : Bool := fd.flags &&& 0x40#16 ≠ 0

/-- Marking the entry open on a host descriptor, and the descriptor close-on-exec if need be. -/
def finish (host : HostFds φ) (fd : QnxFd) (hostFd : Int) : Except FdError (HostFds φ × QnxFd) :=
  let fd := { fd with isOpen := true, hostFd := hostFd }
  if fd.isCloseOnExec then
    match host.setCloexec hostFd with
    | none => .error .hostCall
    | some host => .ok (host, fd)
  else .ok (host, fd)

/-- `QnxFd::assign_fd`: the host table, the entry, and what is left in the handle `tmp_fd`. -/
def assignFd (host : HostFds φ) (fd : QnxFd) (tmpFd : Int) :
    Except FdError (HostFds φ × QnxFd × Int) :=
  if fd.isOpen then .error (.fault (.assertion "!m_open"))
  else if tmpFd ≠ fd.fd then
    match host.dup2 tmpFd fd.fd with
    | none => .error .hostCall
    | some host => do
      let (host, fd) ← fd.finish host fd.fd
      return (host, fd, tmpFd)
  else do
    let (host, fd) ← fd.finish host tmpFd
    return (host, fd, -1)

/-- `QnxFd::close`. `closedir` closes the descriptor of the stream. -/
def close (host : HostFds φ) (fd : QnxFd) : Except FdError (HostFds φ × QnxFd) :=
  if !fd.isOpen then .error (.fault (.assertion "m_open"))
  else if (host.lookup fd.hostFd).isNone then .error .hostCall
  else .ok (host.close fd.hostFd.toNat, { fd with isOpen := false, hostDir := false, hostFd := -1 })

end QnxFd

/-- Handing over an open host descriptor at most sets its close-on-exec flag. -/
theorem QnxFd.finish_spec (host : HostFds φ) (fd : QnxFd) (n : Nat)
    (hopen : (host.get n).isSome = true) :
    ∃ host', fd.finish host n = .ok (host', { fd with isOpen := true, hostFd := n }) ∧
      (∀ k, (host'.get k).map (·.file) = (host.get k).map (·.file)) ∧
      ∀ k, k ≠ n → host'.get k = host.get k := by
  obtain ⟨d, hd⟩ := Option.isSome_iff_exists.1 hopen
  have hlookup : host.lookup n = some d := by
    unfold HostFds.lookup
    rw [if_neg (by omega), Int.toNat_natCast, hd]
  unfold finish
  dsimp only
  split
  · rw [HostFds.setCloexec, hlookup]
    refine ⟨_, rfl, fun k => ?_, fun k hk => ?_⟩
    · rw [Int.toNat_natCast, Slots.get_put]
      split
      · next hk => rw [hk, hd]; rfl
      · rfl
    · rw [Int.toNat_natCast, Slots.get_put, if_neg hk]
  · exact ⟨host, rfl, fun _ => rfl, fun _ _ => rfl⟩

/-- `FdMap`. -/
abbrev FdMap := IdMap QnxFd

namespace FdMap

/-- `FdMap::FdMap`. -/
def init : FdMap := IdMap.empty (1024 * 16)

/-- `FdMap::scan_host_fds`. The descriptor of the scan itself is skipped, and closed at the end. -/
def scanHostFds (host : HostFds φ) (nid pid vid : Int) : Except IdMap.AllocError FdMap :=
  host.used.foldlM (fun fds n =>
    fds.allocExactlyAt n fun n => { QnxFd.make nid pid vid 0 n with isOpen := true, hostFd := n }) init

/-- `FdMap::qnx_fd_attach`; the null pointer is `none`. -/
def qnxFdAttach (fds : FdMap) (first : Nat) (nid pid vid : Int) (flags : BitVec 16) :
    Except IdMap.AllocError (Option (FdMap × Nat)) :=
  fds.allocStartingAt first (QnxFd.make nid pid vid flags)

/-- `FdMap::qnx_fd_detach`. -/
def qnxFdDetach (fds : FdMap) (fd : Nat) : FdMap × Bool := (fds.free fd, (fds.get fd).isSome)

/-- `FdMap::get_attached_fd`. -/
def getAttachedFd (fds : FdMap) (fd : Nat) : Except FdError QnxFd :=
  match fds.get fd with
  | some e => .ok e
  | none => .error .badFd

/-- `FdMap::get_open_fd`. -/
def getOpenFd (fds : FdMap) (fd : Nat) : Except FdError QnxFd := do
  let e ← fds.getAttachedFd fd
  if e.isOpen then return e else .error .badFd

end FdMap
end Qine
