import Qine.Fd.Invariant
import Qine.Lib.StateExcept

/-!
# The descriptor handlers with their error paths

The handlers for `fd_attach`, `fd_detach`, `fd_query`, `fd_action1`, `io_open` and `handle`,
`io_close`, `io_dup`, `io_readdir`, `io_rewinddir`, `fsys_pipe` and `fsys_link` (`main_handler.cpp`) on
decoded messages, with the replies they write. The host may refuse any call it is asked for; a call on a
number that is not open fails in any case.

A handler returns the reply it has written, if it has written one. It throws `BadFdException`, which
`receive` turns into `QEBADF`, or it ends in a failed assertion or an access without a meaning.
-/

namespace Qine

variable {φ : Type}

/-! ## Messages and replies -/

/-- The two messages of `io_open`. -/
inductive OpenType where
  | ioOpen
  | handle
  deriving DecidableEq, Repr

/-- The requests. The text of a path is a field of `QPATH_MAX_T` characters. -/
inductive FdRequest where
  | fdAttach (fd : Nat) (nid pid vid : Int) (flags : BitVec 16)
  | fdDetach (fd : Nat)
  | fdQuery (fd : Nat)
  | fdAction1 (fd : Nat) (flags : BitVec 16)
  | ioOpen (type : OpenType) (fd : Nat) (oflag mode : BitVec 16) (file : List Char)
  | ioClose (fd : Nat)
  | ioDup (srcFd dstFd : Nat)
  | ioReaddir (fd ndirs : Nat)
  | ioRewinddir (fd : Nat)
  | fsysPipe (fdIn fdOut : Nat)
  | fsysLink (fd : Nat) (newPath : List Char)
  deriving DecidableEq, Repr

/-- `QnxMsg::proc::fd_entry`; the handle of an entry is never set. -/
structure FdEntry where
  nid : Int
  pid : Int
  vid : Int
  flags : BitVec 16
  deriving DecidableEq, Repr

/-- What the replies hold after the status. -/
inductive FdReplyBody where
  | none
  | attached (fd : Nat)
  | queried (info : FdEntry) (fd : Nat)
  | dirents (names : List Path)
  deriving DecidableEq, Repr

/-- A reply. -/
structure FdReply where
  status : Int
  body : FdReplyBody
  deriving DecidableEq, Repr

/-- `Qnx::QEBADF`, which is `EBADF` too. -/
def qebadf : Int := 9

/-- `Qnx::QEMFILE`. -/
def qemfile : Int := 24

/-- `Qnx::QPATH_MAX_T`. -/
def qpathMax : Nat := 256

/-- `Qnx::QNAME_MAX_T`. -/
def qnameMax : Nat := 49

/-! ## The host -/

/-- The host calls of the handlers. -/
inductive FdCall where
  | openPath (path : Path) (flags : BitVec 32) (mode : BitVec 16)
  | pipe
  | dup (fd : Int)
  | dup2 (fd : Int) (newFd : Nat)
  | setfd (fd : Int) (cloexec : Bool)
  | close (fd : Int)
  | fdopendir (fd : Int)
  | link (path newPath : Path)
  deriving DecidableEq, Repr

/-- What the kernel does during a message. -/
structure FdHost (φ : Type) where
  /-- the error with which it refuses a call it is able to do -/
  refuse : FdCall → Option Int
  /-- the file behind a path -/
  file : Path → φ
  /-- the files of the two ends of a pipe -/
  ends : φ × φ
  /-- the names `readdir` has left, and the error it then ends with -/
  entries : List Path
  readError : Option Int

/-- The handlers. -/
abbrev FdM (φ : Type) := EStateM FdError (FdState φ)

namespace FdHandler

/-- A host call, by what it does to the host table that is a part of the state. -/
def hostCallOn {σ α : Type} (part : σ → HostFds φ) (put : HostFds φ → σ → σ) (refused : Option Int)
    (x : HostFds φ → Option (HostFds φ × α)) : EStateM FdError σ (Except Int α) := do
  let s ← get
  match refused, x (part s) with
  | some errno, _ => return .error errno
  | none, none => return .error qebadf
  | none, some (host, a) =>
    set (put host s)
    return .ok a

/-- A host call of a handler. -/
def hostCall {α : Type} (refused : Option Int) (x : HostFds φ → Option (HostFds φ × α)) :
    FdM φ (Except Int α) := hostCallOn FdState.host (fun host s => { s with host := host }) refused x

/-- The reply of `write_status`. -/
def writeStatus (status : Int) : FdM φ (Option FdReply) := return some ⟨status, .none⟩

/-- The reply for an error of the host. -/
def writeErrno (errno : Int) : FdM φ (Option FdReply) := writeStatus (mapErrno errno)

/-- `FdMap::get_attached_fd`. -/
def attachedFd (fd : Nat) : FdM φ QnxFd := do EStateM.ofExcept ((← get).fds.getAttachedFd fd)

/-- `FdMap::get_open_fd`. -/
def openFd (fd : Nat) : FdM φ QnxFd := do EStateM.ofExcept ((← get).fds.getOpenFd fd)

/-- Changing an entry in place. -/
def storeFd (fd : Nat) (e : QnxFd) : FdM φ Unit := modify fun s => { s with fds := s.fds.store fd e }

/-- The end of the scope of a `UniqueFd`. -/
def closeHandle (fd : Int) : FdM φ Unit := modify fun s => { s with host := UniqueFd.close s.host fd }

/-- The string in a field of a message; a field without a terminator is read past its end. -/
def cString (field : List Char) : Except Fault Path :=
  if '\x00' ∈ field then .ok (field.takeWhile (· ≠ '\x00')) else .error .outOfBounds

/-- A routine that can only end in a fault. -/
def liftFault {α : Type} (x : Except Fault α) : FdM φ α := EStateM.ofExcept (x.mapError .fault)

variable (h : FdHost φ)

/-! ## Entries -/

/-- The last part of `QnxFd::assign_fd` and `FdMap::assign_fds`. -/
def finishFd (fd : Nat) (hostFd : Int) : FdM φ Unit := do
  let e ← attachedFd fd
  let (host, e) ← EStateM.ofExcept (e.finish (← get).host hostFd)
  modify fun s => ⟨s.fds.store fd e, host⟩

/-- `dup2`. -/
def dup2 (fd : Int) (newFd : Nat) : FdM φ (Except Int Unit) :=
  hostCall (h.refuse (.dup2 fd newFd)) fun host => (host.dup2 fd newFd).map (·, ())

/-- `QnxFd::assign_fd`, with what is left in the handle `tmp_fd`. -/
def assignFd (fd : Nat) (tmpFd : Int) : FdM φ (Except Int Unit × Int) := do
  let e ← attachedFd fd
  if e.isOpen then throw (.fault (.assertion "!m_open"))
  else if tmpFd ≠ e.fd then
    match ← dup2 h tmpFd e.fd with
    | .error errno => return (.error errno, tmpFd)
    | .ok () =>
      finishFd fd e.fd
      return (.ok (), tmpFd)
  else
    finishFd fd tmpFd
    return (.ok (), -1)

/-- `QnxFd::close`. The host frees the number even if it reports an error. -/
def closeFd (fd : Nat) : FdM φ (Except Int Unit) := do
  let e ← attachedFd fd
  if !e.isOpen then throw (.fault (.assertion "m_open"))
  else
    storeFd fd { e with isOpen := false, hostDir := false, hostFd := -1 }
    match (← get).host.lookup e.hostFd with
    | none => return .error qebadf
    | some _ =>
      modify fun s => { s with host := s.host.close e.hostFd.toNat }
      return (h.refuse (.close e.hostFd)).elim (.ok ()) .error

/-- `QnxFd::prepare_dir`. -/
def prepareDir (fd : Nat) : FdM φ (Except Int Unit) := do
  let e ← attachedFd fd
  if e.hostDir then return .ok ()
  else
    match ← hostCall (h.refuse (.fdopendir e.hostFd)) fun host =>
        (host.lookup e.hostFd).map fun _ => (host, ()) with
    | .error errno => return .error errno
    | .ok () =>
      storeFd fd { e with hostDir := true }
      return .ok ()

/-! ## `assign_fds` -/

/-- The loop of `assign_fds`, on the host table, the handles and `fd_to_index`. -/
abbrev AssignM (φ : Type) := EStateM FdError (AssignState φ)

namespace AssignM

/-- A host call of `assign_fds`. -/
def assignCall {α : Type} (refused : Option Int) (x : HostFds φ → Option (HostFds φ × α)) :
    AssignM φ (Except Int α) :=
  hostCallOn AssignState.host (fun host st => { st with host := host }) refused x

/-- `host_fd_moved`. -/
def movedTo (index : Nat) (to' : Int) : AssignM φ Unit := do
  set (← EStateM.ofExcept ((← get).hostFdMoved index to'))

/-- `realloc_fd`. -/
def reallocFd (hostFd : Nat) : AssignM φ (Except Int Unit) := do
  match (← get).fdToIndex hostFd with
  | none => return .ok ()
  | some _ =>
    match ← assignCall (h.refuse (.dup hostFd)) (·.dup hostFd) with
    | .error errno => return .error errno
    | .ok newFd =>
      movedTo hostFd newFd
      return .ok ()

/-- `host_fds[i]`. -/
def hostFdAt (i : Nat) : AssignM φ Int := do
  EStateM.ofExcept (((← get).hostFds[i]?).elim (.error (.fault .outOfBounds)) .ok)

/-- One pass of the main loop. -/
def assignStep (i : Nat) (fd : QnxFd) : AssignM φ (Except Int Unit) := do
  if fd.fd = (← hostFdAt i) then
    modify fun st => { st with fdToIndex := Function.update st.fdToIndex fd.hostFd none }
    return .ok ()
  else
    match ← reallocFd h fd.fd with
    | .error errno => return .error errno
    | .ok () =>
      let hostFd ← hostFdAt i
      match ← assignCall (h.refuse (.dup2 hostFd fd.fd)) fun host =>
          (host.dup2 hostFd fd.fd).map (·, ()) with
      | .error errno => return .error errno
      | .ok () =>
        movedTo i fd.fd
        return .ok ()

/-- The main loop from index `i` on. -/
def assignLoop : List QnxFd → Nat → AssignM φ (Except Int Unit)
  | [], _ => return .ok ()
  | fd :: toFds, i => do
    match ← assignStep h i fd with
    | .error errno => return .error errno
    | .ok () => assignLoop toFds (i + 1)

end AssignM

/-- The variables of `assign_fds` after its first loop. -/
def assignStart (hostFds : List Int) (s : FdState φ) : AssignState φ :=
  ⟨s.host, hostFds, storeIndices hostFds 0 fun _ => none⟩

/-- `FdMap::assign_fds`. The handles that are left on an error are closed by the caller. -/
def assignFds (toFds : List Nat) (hostFds : List Int) : FdM φ (Except Int Unit) := do
  let entries ← toFds.mapM attachedFd
  let (r, handles) ← EStateM.zoom (assignStart hostFds) (fun st s => { s with host := st.host })
    (do return (← AssignM.assignLoop h entries 0, (← get).hostFds))
  match r with
  | .error errno =>
    handles.forM closeHandle
    return .error errno
  | .ok () =>
    (toFds.zip handles).forM fun m => finishFd m.1 m.2
    return .ok ()

/-! ## Handlers -/

/-- `MainHandler::proc_fd_attach`. -/
def procFdAttach (fd : Nat) (nid pid vid : Int) (flags : BitVec 16) : FdM φ (Option FdReply) := do
  let s ← get
  match s.fds.qnxFdAttach fd nid pid vid flags with
  | .ok (some (fds, n)) =>
    set { s with fds := fds }
    return some ⟨qeok, .attached n⟩
  | .ok none => throw (.fault .nullPointer)
  | .error _ => writeStatus qemfile

/-- `MainHandler::proc_fd_detach`. -/
def procFdDetach (fd : Nat) : FdM φ (Option FdReply) := do
  let s ← get
  set { s with fds := (s.fds.qnxFdDetach fd).1 }
  writeStatus (if (s.fds.qnxFdDetach fd).2 then qeok else qebadf)

/-- `FdMap::fd_query`. -/
def fdQuery (fds : FdMap) (start : Nat) : Option QnxFd := (fds.search start true).bind fds.get

/-- `MainHandler::proc_fd_query`. -/
def procFdQuery (bits : Bitness) (fd : Nat) : FdM φ (Option FdReply) := do
  match fdQuery (← get).fds fd with
  | some e =>
    let flags := if bits = .b32 then e.flags <<< 8 else e.flags
    return some ⟨qeok, .queried ⟨e.nid, e.pid, e.vid, flags⟩ e.fd⟩
  | none => return some ⟨qeinval, .queried ⟨0, 0, 0, 0⟩ 0⟩

/-- `fcntl(fd, F_SETFD, …)`. -/
def setfd (fd : Int) (cloexec : Bool) : FdM φ (Except Int Unit) :=
  hostCall (h.refuse (.setfd fd cloexec)) fun host =>
    (host.lookup fd).map fun d => (host.put fd.toNat (some { d with cloexec := cloexec }), ())

/-- The host descriptor of an entry gets the flag if there is one. -/
def setfdIfOpen (e : QnxFd) (cloexec : Bool) : FdM φ (Except Int Unit) :=
  if e.isOpen then setfd h e.hostFd cloexec else return .ok ()

/-- `MainHandler::proc_fd_setfd`. -/
def procFdSetfd (fd : Nat) (flags : BitVec 16) : FdM φ (Option FdReply) := do
  let e ← attachedFd fd
  match ← setfdIfOpen h e (flags ≠ 0) with
  | .error errno => writeErrno errno
  | .ok () =>
    storeFd fd { e with flags := flags }
    writeStatus qeok

/-- `MainHandler::map_file_flags_to_host`, in the host's numbers. -/
def mapFileFlagsToHost (oflag : BitVec 32) : BitVec 32 :=
  let acc := oflag &&& 0o3
  let flag (qnx host : BitVec 32) : BitVec 32 := if oflag &&& qnx ≠ 0 then host else 0
  (if acc = 1 then 1 else 0) ||| (if acc = 2 then 2 else 0) ||| flag 0o10 0o2000 |||
    flag 0o400 0o100 ||| (if acc = 2 ∨ acc = 1 then flag 0o1000 0o1000 else 0) |||
    flag 0o4000 0o400 ||| flag 0o2000 0o200 ||| flag 0o40 0o4010000 ||| flag 0o20 0o10000

/-- The flags `io_open` opens a file with. -/
def openFlags (oflag mode : BitVec 16) : OpenType → BitVec 32
  | .ioOpen => mapFileFlagsToHost (oflag.setWidth 32)
  | .handle =>
    if oflag = 2 then 0o200000  -- `O_DIRECTORY`
    else if oflag = 3 ∨ oflag = 4 then 0
    else 0o10000000 ||| if mode &&& 0xA000 ≠ 0 then 0o400000 else 0  -- `O_PATH`, `O_NOFOLLOW`

/-- `MainHandler::io_open`. -/
def ioOpen (pm : PathMapper) (type : OpenType) (fd : Nat) (oflag mode : BitVec 16) (file : List Char) :
    FdM φ (Option FdReply) := do
  let e ← attachedFd fd
  let path ← liftFault (cString file)
  let info ← liftFault (pm.mapPathToHost path true)
  storeFd fd { e with path := info }
  match ← hostCall (h.refuse (.openPath info.hostPath (openFlags oflag mode type) mode)) fun host =>
      some (host.openFile (h.file info.hostPath)) with
  | .error errno => writeErrno errno
  | .ok tmpFd =>
    let (r, tmpFd) ← assignFd h fd tmpFd
    closeHandle tmpFd
    match r with
    | .error errno => writeErrno errno
    | .ok () => writeStatus qeok

/-- `MainHandler::io_close`. -/
def ioClose (fd : Nat) : FdM φ (Option FdReply) := do
  let _ ← openFd fd
  match ← closeFd h fd with
  | .error errno => writeErrno errno
  | .ok () => writeStatus qeok

/-- The destination of `io_dup` is closed first if it is open. -/
def closeIfOpen (fd : Nat) (e : QnxFd) : FdM φ (Except Int Unit) :=
  if e.isOpen then closeFd h fd else return .ok ()

/-- `MainHandler::io_dup`. Both entries are looked up before the destination is closed, and read
afterwards; they may be the same. -/
def ioDup (srcFd dstFd : Nat) : FdM φ (Option FdReply) := do
  let _ ← openFd srcFd
  let dst ← attachedFd dstFd
  let _ ← closeIfOpen h dstFd dst
  let src ← attachedFd srcFd
  match ← dup2 h src.hostFd dst.fd with
  | .error errno => writeErrno errno
  | .ok () =>
    let (_, newFd) ← assignFd h dstFd dst.fd
    storeFd dstFd { ← attachedFd dstFd with hostFd := dstFd }
    closeHandle newFd
    writeStatus qeok

/-- What the loop of `io_readdir` gets: the names it writes, cut to the field, and the error it
ends with. -/
def readDirents (ndirs : Nat) : List Path × Option Int :=
  ((h.entries.take ndirs).map (·.take (qnameMax - 1)),
    if ndirs ≤ h.entries.length then none else h.readError)

/-- `MainHandler::io_readdir`. An error of `readdir` is put into the reply, which is not written. -/
def ioReaddir (fd ndirs : Nat) : FdM φ (Option FdReply) := do
  let _ ← openFd fd
  match ← prepareDir h fd with
  | .error errno => writeErrno errno
  | .ok () =>
    match readDirents h ndirs with
    | (_, some _) => return none
    | (names, none) => return some ⟨qeok, .dirents names⟩

/-- `MainHandler::io_rewinddir`. -/
def ioRewinddir (fd : Nat) : FdM φ (Option FdReply) := do
  let _ ← openFd fd
  match ← prepareDir h fd with
  | .error errno => writeErrno errno
  | .ok () => writeStatus qeok

/-- `MainHandler::fsys_pipe`. -/
def fsysPipe (fdIn fdOut : Nat) : FdM φ (Option FdReply) := do
  let _ ← attachedFd fdIn
  let _ ← attachedFd fdOut
  match ← hostCall (h.refuse .pipe) fun host =>
      some (pipeHosts host h.ends.1 h.ends.2, pipeNumbers host h.ends.1 h.ends.2) with
  | .error errno => writeErrno errno
  | .ok (hostIn, hostOut) =>
    match ← assignFds h [fdIn, fdOut] [hostIn, hostOut] with
    | .error errno => writeErrno errno
    | .ok () => writeStatus qeok

/-- `MainHandler::fsys_link`. -/
def fsysLink (pm : PathMapper) (fd : Nat) (newPath : List Char) : FdM φ (Option FdReply) := do
  let e ← openFd fd
  let info ← liftFault (pm.mapInfoToHost e.path)
  storeFd fd { e with path := info }
  let dst ← liftFault (cString newPath)
  let dst ← liftFault (pm.mapPathToHost dst false)
  match h.refuse (.link info.hostPath dst.hostPath) with
  | some errno => writeErrno errno
  | none => writeStatus qeok

/-- The handler of a request, for a process of the given bitness. -/
def receiveInner (pm : PathMapper) (bits : Bitness) : FdRequest → FdM φ (Option FdReply)
  | .fdAttach fd nid pid vid flags => procFdAttach fd nid pid vid flags
  | .fdDetach fd => procFdDetach fd
  | .fdQuery fd => procFdQuery bits fd
  | .fdAction1 fd flags => procFdSetfd h fd flags
  | .ioOpen type fd oflag mode file => ioOpen h pm type fd oflag mode file
  | .ioClose fd => ioClose h fd
  | .ioDup srcFd dstFd => ioDup h srcFd dstFd
  | .ioReaddir fd ndirs => ioReaddir h fd ndirs
  | .ioRewinddir fd => ioRewinddir h fd
  | .fsysPipe fdIn fdOut => fsysPipe h fdIn fdOut
  | .fsysLink fd newPath => fsysLink h pm fd newPath

/-- `MainHandler::receive`. -/
def receive (pm : PathMapper) (bits : Bitness) (request : FdRequest) : FdM φ (Option FdReply) :=
  tryCatch (receiveInner h pm bits request) fun
    | .badFd => writeStatus qebadf
    | e => throw e

end FdHandler
end Qine
