import Qine.Fd.AssignFds
import Mathlib.Logic.Relation

/-!
# The messages that change descriptors

The handlers for `fd_attach`, `fd_detach`, `io_open` and `handle`, `io_close`, `io_dup` and
`fsys_pipe` (`main_handler.cpp`), on the descriptor map of the process and the descriptor table of the
host. An open message carries the path information the mapper produced and the file the host opens.
-/

namespace Qine

variable {φ : Type}

/-- The descriptors of the process. -/
structure FdState (φ : Type) where
  fds : FdMap
  host : HostFds φ
  deriving DecidableEq, Repr

/-- The messages. -/
inductive FdMsg (φ : Type) where
  | fdAttach (first : Nat) (nid pid vid : Int) (flags : BitVec 16)
  | fdDetach (fd : Nat)
  | ioOpen (fd : Nat) (path : PathInfo) (file : φ)
  | ioClose (fd : Nat)
  | ioDup (srcFd dstFd : Nat)
  | fsysPipe (fdIn fdOut : Nat) (fileIn fileOut : φ)
  deriving DecidableEq, Repr

namespace FdState

/-- `MainHandler::proc_fd_attach`; it answers `QEMFILE` when no descriptor is free. -/
def procFdAttach (s : FdState φ) (first : Nat) (nid pid vid : Int) (flags : BitVec 16) :
    Except FdError (FdState φ) :=
  match s.fds.qnxFdAttach first nid pid vid flags with
  | .ok (some (fds, _)) => .ok { s with fds := fds }
  | .ok none => .error (.fault .nullPointer)
  | .error _ => .ok s

/-- `MainHandler::proc_fd_detach`. -/
def procFdDetach (s : FdState φ) (fd : Nat) : FdState φ := { s with fds := (s.fds.qnxFdDetach fd).1 }

/-- `MainHandler::io_open`, whose handle `tmp_fd` goes out of scope at the end. -/
def ioOpen (s : FdState φ) (fd : Nat) (path : PathInfo) (file : φ) :
    Except FdError (FdState φ) := do
  let e ← s.fds.getAttachedFd fd
  let (host, tmpFd) := s.host.openFile file
  let (host, e, tmpFd) ← { e with path := path }.assignFd host tmpFd
  return ⟨s.fds.store fd e, UniqueFd.close host tmpFd⟩

/-- `MainHandler::io_close`. -/
def ioClose (s : FdState φ) (fd : Nat) : Except FdError (FdState φ) := do
  let e ← s.fds.getOpenFd fd
  let (host, e) ← e.close s.host
  return ⟨s.fds.store fd e, host⟩

/-- The destination of `io_dup` is closed first if it is open. -/
def closeIfOpen (s : FdState φ) (fd : Nat) (e : QnxFd) : Except FdError (FdState φ) :=
  if e.isOpen then s.ioClose fd else .ok s

/-- `MainHandler::io_dup`. Both descriptors are looked up before the destination is closed, and read
afterwards. -/
def ioDup (s : FdState φ) (srcFd dstFd : Nat) : Except FdError (FdState φ) := do
  let _ ← s.fds.getOpenFd srcFd
  let dst ← s.fds.getAttachedFd dstFd
  let s ← s.closeIfOpen dstFd dst
  let src ← s.fds.getAttachedFd srcFd
  let dst ← s.fds.getAttachedFd dstFd
  match s.host.dup2 src.hostFd dst.fd with
  | none => .error .hostCall
  | some host =>
    let (host, dst, newFd) ← dst.assignFd host dst.fd
    return ⟨s.fds.store dstFd { dst with hostFd := dstFd }, UniqueFd.close host newFd⟩

/-- `MainHandler::fsys_pipe`. -/
def fsysPipe (s : FdState φ) (fdIn fdOut : Nat) (fileIn fileOut : φ) :
    Except FdError (FdState φ) := do
  let eIn ← s.fds.getAttachedFd fdIn
  let eOut ← s.fds.getAttachedFd fdOut
  let (host, hostIn) := s.host.openFile fileIn
  let (host, hostOut) := HostFds.openFile host fileOut
  match ← FdMap.assignFds host [eIn, eOut] [hostIn, hostOut] with
  | (host, [eIn, eOut]) => return ⟨(s.fds.store fdIn eIn).store fdOut eOut, host⟩
  | _ => .error (.fault .outOfBounds)

/-- The handler of a message. -/
def handle (s : FdState φ) : FdMsg φ → Except FdError (FdState φ)
  | .fdAttach first nid pid vid flags => s.procFdAttach first nid pid vid flags
  | .fdDetach fd => .ok (s.procFdDetach fd)
  | .ioOpen fd path file => s.ioOpen fd path file
  | .ioClose fd => s.ioClose fd
  | .ioDup srcFd dstFd => s.ioDup srcFd dstFd
  | .fsysPipe fdIn fdOut fileIn fileOut => s.fsysPipe fdIn fdOut fileIn fileOut

/-- `MainHandler::receive`: a `BadFdException` is answered with `QEBADF`. The handlers throw it before
they change anything. -/
def receive (s : FdState φ) (msg : FdMsg φ) : Except FdError (FdState φ) :=
  match s.handle msg with
  | .error .badFd => .ok s
  | r => r

/-- A message whose host calls succeed, under a condition on the state before it. -/
def Step (cond : FdState φ → FdMsg φ → Prop) (s s' : FdState φ) : Prop :=
  ∃ msg, cond s msg ∧ s.receive msg = .ok s'

/-- The state after a message, if it is handled. -/
def after (s : FdState φ) (msg : FdMsg φ) : FdState φ :=
  match s.receive msg with
  | .ok s' => s'
  | .error _ => s

theorem run_after {cond : FdState φ → FdMsg φ → Prop} {s₀ s : FdState φ}
    (h : Relation.ReflTransGen (Step cond) s₀ s) (msg : FdMsg φ) (hcond : cond s msg) :
    Relation.ReflTransGen (Step cond) s₀ (s.after msg) := by
  unfold after
  split
  · next hok => exact h.tail ⟨msg, hcond, hok⟩
  · exact h

end FdState
end Qine
