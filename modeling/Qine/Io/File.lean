import Qine.Fd.Readdir
import Qine.Msg.Iovec

/-!
# Reading and writing host files

`io_read`, `io_write`, `io_lseek` and `fsys_trunc` (`main_handler.cpp`) on descriptors without a terminal
filter. The processes have their own memory and descriptors; the open files of the host are shared. Data is
not copied: the vectors of `write_iovec` and `read_iovec` let the host transfer it from one memory to another.

Through all of this the guests use the host's files as if they called the host directly
(`io_refines_host`). The descriptor map is asked by `io_read` only, as `map_fd` takes every number for that of
the host.
-/

namespace Qine

variable {φ σ α : Type}

/-! ## The host's files -/

/-- The number of an error. -/
def Errno (e : Int) : Prop := 0 < e ∧ e < 2 ^ 16

/-- An open file of the host, as the calls on its descriptors see it. -/
structure HostFile (σ : Type) where
  read : σ → Nat → Except Int (List Byte) × σ
  write : σ → List Byte → Except Int Nat × σ
  lseek : σ → Int → Nat → Except Int Nat × σ
  ftruncate : σ → Nat → Except Int Unit × σ
  read_le : ∀ {s n bs}, (read s n).1 = .ok bs → bs.length ≤ n
  write_le : ∀ {s bs n}, (write s bs).1 = .ok n → n ≤ bs.length
  read_errno : ∀ {s n e}, (read s n).1 = .error e → Errno e
  write_errno : ∀ {s bs e}, (write s bs).1 = .error e → Errno e
  lseek_errno : ∀ {s off whence e}, (lseek s off whence).1 = .error e → Errno e
  ftruncate_errno : ∀ {s n e}, (ftruncate s n).1 = .error e → Errno e

/-- `SEEK_SET`. -/
def seekSet : Nat := 0

/-- `SEEK_CUR`. -/
def seekCur : Nat := 1

/-- `SEEK_END`. -/
def seekEnd : Nat := 2

/-- The byte at a place of host memory. -/
def HostByte.load (m : Mem) : HostByte → Byte
  | .guest a => m a
  | .garbageRead i => if i = 0 then 0x58 else 0
  | .garbageWrite _ => 0

/-! ## The handlers -/

/-- The message. -/
inductive IoKind where
  | read
  | write
  | lseek
  | trunc
  deriving DecidableEq, Repr

/-- A message, with the process it comes from. -/
structure IoCall (φ : Type) where
  kind : IoKind
  fds : FdMap
  host : HostFds φ
  proc : Process
  mem : Mem
  msg : Msg

/-- The open files of the host, and the memory of the process. -/
structure IoState (φ σ : Type) where
  files : φ → σ
  mem : Mem

/-- The handlers. -/
abbrev IoM (φ σ : Type) := EStateM FdError (IoState φ σ)

namespace IoM

/-- A routine that works on guest memory. -/
def onMem (x : EStateM Fault Mem α) : IoM φ σ α := fun s =>
  match x.run s.mem with
  | .ok a m => .ok a { s with mem := m }
  | .error e m => .error (.fault e) { s with mem := m }

/-- A routine that only looks at guest memory. -/
def lookMem (x : Mem → Except Fault α) : IoM φ σ α := fun s =>
  match x s.mem with
  | .ok a => .ok a s
  | .error e => .error (.fault e) s

end IoM

/-! ### Fields of the messages -/

/-- `m_fd`. -/
def IoMsg.fd (hdr : List Byte) : Nat := leNat ((hdr.drop 2).take 2)

/-- `m_nbytes` of `read_request` and `write_request`. -/
def IoMsg.nbytes (hdr : List Byte) : Nat := leNat ((hdr.drop 4).take 2)

/-- `m_offset` of `lseek_request` and `trunc_request`. -/
def IoMsg.offset (hdr : List Byte) : Int := (BitVec.ofNat 32 (leNat ((hdr.drop 4).take 4))).toInt

/-- `m_whence`. -/
def IoMsg.whence (hdr : List Byte) : Nat := leNat ((hdr.drop 8).take 2)

/-- `sizeof(QnxMsg::io::read_request)` and `sizeof(QnxMsg::io::write_request)`. -/
def IoMsg.dataOffset : Nat := 8

/-- `sizeof(QnxMsg::io::lseek_request)` and `sizeof(QnxMsg::fsys::trunc_request)`. -/
def IoMsg.seekSize : Nat := 12

/-- The bytes of `io::read_reply`. -/
def ioReadReply (status : Int) (nbytes : Nat) : List Byte :=
  leBytes 2 (BitVec.ofInt 16 status).toNat ++ leBytes 2 nbytes ++ leBytes 4 0

/-- The bytes of `io::write_reply`. -/
def ioWriteReply (status : Int) (nbytes : Nat) : List Byte :=
  leBytes 2 (BitVec.ofInt 16 status).toNat ++ leBytes 2 nbytes ++ leBytes 2 0

/-- The bytes of `io::lseek_reply` and of `fsys::trunc_reply`. -/
def seekReply (status offset : Int) : List Byte :=
  leBytes 2 (BitVec.ofInt 16 status).toNat ++ leBytes 2 0 ++ leBytes 4 (BitVec.ofInt 32 offset).toNat

namespace IoCall

variable (F : φ → HostFile σ) (c : IoCall φ)

/-- `Msg::read_type`. -/
def readType (size : Nat) : IoM φ σ (List Byte) := IoM.lookMem fun m => c.msg.read c.proc m 0 size

/-- `Msg::write_type(0, …)`, of which the handlers do not look at the result. -/
def writeType (reply : List Byte) : IoM φ σ Unit := do
  let _ ← IoM.onMem (c.msg.write c.proc 0 reply)

/-- `Msg::write_status`. -/
def writeStatus (status : Int) : IoM φ σ Unit := c.writeType (leBytes 2 (BitVec.ofInt 16 status).toNat)

/-- The open file behind a number; `FdMap::get_host_fd` takes it for a descriptor of the host. -/
def fileOf (fd : Nat) : Option φ := (c.host.lookup fd).map (·.file)

variable [DecidableEq φ]

/-- A host call on a descriptor. -/
def hostCall (fd : Nat) (call : φ → σ → Except Int α × σ) : IoM φ σ (Except Int α) := do
  match c.fileOf fd with
  | none => return .error qebadf
  | some f =>
    let s ← get
    set { s with files := Function.update s.files f (call f (s.files f)).2 }
    return (call f (s.files f)).1

/-- `readv`. -/
def readvCall (fd : Nat) (iov : List Iovec) : IoM φ σ (Except Int Nat) := do
  match ← c.hostCall fd fun f s => (F f).read s (iov.map (·.len)).sum with
  | .error errno => return .error errno
  | .ok data =>
    modify fun s => { s with mem := readv iov data s.mem }
    return .ok data.length

/-- `writev`. -/
def writevCall (fd : Nat) (iov : List Iovec) : IoM φ σ (Except Int Nat) := do
  let data := (Iovec.bytes iov).map (HostByte.load (← get).mem)
  c.hostCall fd fun f s => (F f).write s data

/-- `::lseek`. -/
def lseekCall (fd : Nat) (offset : Int) (whence : Nat) : IoM φ σ (Except Int Nat) :=
  c.hostCall fd fun f s => (F f).lseek s offset whence

/-- `::ftruncate`. -/
def ftruncateCall (fd length : Nat) : IoM φ σ (Except Int Unit) :=
  c.hostCall fd fun f s => (F f).ftruncate s length

/-- `MainHandler::io_read` on an entry without a filter. The error is not mapped. -/
def ioRead : IoM φ σ Unit := do
  let hdr ← c.readType IoMsg.dataOffset
  let _ ← EStateM.ofExcept (c.fds.getOpenFd (IoMsg.fd hdr))
  let iov ← IoM.lookMem fun m => c.msg.writeIovec c.proc m IoMsg.dataOffset (IoMsg.nbytes hdr) []
  match ← c.readvCall F (IoMsg.fd hdr) iov with
  | .error errno => c.writeType (ioReadReply errno 0)
  | .ok n => c.writeType (ioReadReply qeok n)

/-- `MainHandler::io_write`. The error is not mapped. -/
def ioWrite : IoM φ σ Unit := do
  let hdr ← c.readType IoMsg.dataOffset
  let iov ← IoM.lookMem fun m => c.msg.readIovec c.proc m IoMsg.dataOffset (IoMsg.nbytes hdr) []
  match ← c.writevCall F (IoMsg.fd hdr) iov with
  | .error errno => c.writeType (ioWriteReply errno 0)
  | .ok n => c.writeType (ioWriteReply qeok n)

/-- `MainHandler::io_lseek`. -/
def ioLseek : IoM φ σ Unit := do
  let hdr ← c.readType IoMsg.seekSize
  match ← c.lseekCall F (IoMsg.fd hdr) (IoMsg.offset hdr) (IoMsg.whence hdr) with
  | .error errno => c.writeType (seekReply (mapErrno errno) (-1))
  | .ok off => c.writeType (seekReply qeok off)

/-- `MainHandler::fsys_trunc`. -/
def fsysTrunc : IoM φ σ Unit := do
  let hdr ← c.readType IoMsg.seekSize
  match ← c.lseekCall F (IoMsg.fd hdr) 0 seekCur with
  | .error errno => c.writeStatus (mapErrno errno)
  | .ok prev =>
    match ← c.lseekCall F (IoMsg.fd hdr) (IoMsg.offset hdr) (IoMsg.whence hdr) with
    | .error errno => c.writeStatus (mapErrno errno)
    | .ok dest =>
      let _ ← c.lseekCall F (IoMsg.fd hdr) prev seekSet
      match ← c.ftruncateCall F (IoMsg.fd hdr) dest with
      | .error errno => c.writeStatus (mapErrno errno)
      | .ok () => c.writeType (seekReply qeok dest)

/-- The handler of the message. -/
def handle : IoM φ σ Unit :=
  match c.kind with
  | .read => c.ioRead F
  | .write => c.ioWrite F
  | .lseek => c.ioLseek F
  | .trunc => c.fsysTrunc F

/-- `MainHandler::receive`. -/
def receive : IoM φ σ Unit := fun s =>
  match (c.handle F).run s with
  | .error .badFd s' => (c.writeStatus qebadf).run s'
  | r => r

/-- The receive entries. -/
def entries : List MxferEntry := c.msg.rcv.entries c.mem c.msg.rcvParts

end IoCall

/-- The emulator as the guests' messages reach it, one after the other: each is answered with what is in the
reply area afterwards, if the handler returns. -/
def ioServer [DecidableEq φ] (F : φ → HostFile σ) :
    Transducer (φ → σ) (IoCall φ) (Option (List Byte)) := fun files c =>
  match (c.receive F).run ⟨files, c.mem⟩ with
  | .ok () s => (some (guestBytes c.proc s.mem c.entries), s.files)
  | .error _ s => (none, s.files)

/-! ## What the guest asks for -/

/-- A request. -/
inductive IoRequest where
  | read (nbytes : Nat)
  | write (data : List Byte)
  | lseek (offset : Int) (whence : Nat)
  | trunc (offset : Int) (whence : Nat)
  deriving DecidableEq, Repr

/-- What the guest learns from the reply. -/
inductive IoAnswer where
  | data (bs : List Byte)
  | count (n : Nat)
  | offset (o : BitVec 32)
  | error (status : BitVec 16)
  deriving DecidableEq, Repr

/-- What the guest finds in the reply area. -/
def IoAnswer.ofReply (kind : IoKind) (reply : List Byte) : IoAnswer :=
  if replyStatus reply ≠ 0 then .error (BitVec.ofNat 16 (replyStatus reply))
  else
    match kind with
    | .read => .data ((reply.drop 8).take (leNat ((reply.drop 2).take 2)))
    | .write => .count (leNat ((reply.drop 2).take 2))
    | .lseek => .offset (BitVec.ofNat 32 (leNat ((reply.drop 4).take 4)))
    | .trunc => .offset (BitVec.ofNat 32 (leNat ((reply.drop 4).take 4)))

/-- The filler behind the end of a message. -/
def filler (k : Nat) : Byte := if k % Msg.garbageSize = 0 then 0x58 else 0

namespace IoCall

variable (c : IoCall φ)

/-- What the guest sent. -/
def sent : List Byte := guestBytes c.proc c.mem (c.msg.send.entries c.mem c.msg.sendParts)

/-- The fields in front. -/
def header (size : Nat) : List Byte := (List.range size).map fun k => ((c.sent)[k]?).getD 0xCC

/-- The data of a write, filled up if the message is too short. -/
def payload (nbytes : Nat) : List Byte :=
  (c.sent.drop IoMsg.dataOffset).take nbytes ++
    (List.range (nbytes - (c.sent.length - IoMsg.dataOffset))).map filler

/-- The request in the message. -/
def request : IoRequest :=
  match c.kind with
  | .read => .read (IoMsg.nbytes (c.header IoMsg.dataOffset))
  | .write => .write (c.payload (IoMsg.nbytes (c.header IoMsg.dataOffset)))
  | .lseek => .lseek (IoMsg.offset (c.header IoMsg.seekSize)) (IoMsg.whence (c.header IoMsg.seekSize))
  | .trunc => .trunc (IoMsg.offset (c.header IoMsg.seekSize)) (IoMsg.whence (c.header IoMsg.seekSize))

/-- The descriptor in the message. -/
def fd : Nat := IoMsg.fd (c.header 4)

/-- The file it is about, if the descriptor is good for the request. -/
def target : Option φ :=
  match c.kind with
  | .read => if (c.fds.getOpenFd c.fd).isOk then c.fileOf c.fd else none
  | _ => c.fileOf c.fd

/-- The room a reply needs. -/
def replySize : Nat :=
  match c.kind with
  | .read => 8 + IoMsg.nbytes (c.header IoMsg.dataOffset)
  | .write => 6
  | .lseek => 8
  | .trunc => 8

/-- A message in valid memory, with a reply area that is good enough for the answer. -/
structure Good : Prop where
  send : ∀ e ∈ c.msg.send.entries c.mem c.msg.sendParts, e.Valid c.proc
  area : c.msg.Area c.proc c.entries
  room : c.replySize ≤ (addrs c.proc c.entries).length

end IoCall

/-! ## Calling the host directly -/

/-- Setting the length to a position: the position itself does not move. -/
def HostFile.trunc (F : HostFile σ) (s : σ) (offset : Int) (whence : Nat) : Except Int Nat × σ :=
  match F.lseek s 0 seekCur with
  | (.error errno, s) => (.error errno, s)
  | (.ok prev, s) =>
    match F.lseek s offset whence with
    | (.error errno, s) => (.error errno, s)
    | (.ok dest, s) =>
      match F.ftruncate (F.lseek s prev seekSet).2 dest with
      | (.error errno, s) => (.error errno, s)
      | (.ok (), s) => (.ok dest, s)

/-- An answer from a result. -/
def IoAnswer.ofResult (error : Int → Int) (ok : α → IoAnswer) : Except Int α → IoAnswer
  | .error errno => .error (BitVec.ofInt 16 (error errno))
  | .ok a => ok a

/-- A request to an open file. -/
def IoRequest.direct (F : HostFile σ) (s : σ) : IoRequest → IoAnswer × σ
  | .read n => (.ofResult id .data (F.read s n).1, (F.read s n).2)
  | .write data => (.ofResult id .count (F.write s data).1, (F.write s data).2)
  | .lseek offset whence =>
    (.ofResult mapErrno (fun o => .offset (BitVec.ofNat 32 o)) (F.lseek s offset whence).1,
      (F.lseek s offset whence).2)
  | .trunc offset whence =>
    (.ofResult mapErrno (fun o => .offset (BitVec.ofNat 32 o)) (F.trunc s offset whence).1,
      (F.trunc s offset whence).2)

/-- The host without the emulator: it gets the request itself. -/
def hostServer [DecidableEq φ] (F : φ → HostFile σ) : Transducer (φ → σ) (IoCall φ) IoAnswer := fun files c =>
  match c.target with
  | none => (.error (BitVec.ofInt 16 qebadf), files)
  | some f =>
    ((c.request.direct (F f) (files f)).1, Function.update files f (c.request.direct (F f) (files f)).2)

/-! ## The parts of a handler -/

variable {F : φ → HostFile σ} {c : IoCall φ} {files : φ → σ} {m m' : Mem} {s : IoState φ σ} {f : φ} {t : σ}
  {n : Nat}

theorem IoM.onMem_run {x : EStateM Fault Mem α} {a : α} (h : x.run s.mem = .ok a m) :
    (IoM.onMem x).run s = .ok a { s with mem := m } := by
  show (match x.run s.mem with
    | .ok a m => _
    | .error e m => _) = _
  rw [h]

theorem IoM.lookMem_run {x : Mem → Except Fault α} {a : α} (h : x s.mem = .ok a) :
    (IoM.lookMem x).run s = .ok a s := by
  show (match x s.mem with
    | .ok a => _
    | .error e => _) = _
  rw [h]

/-- The filler's vectors, byte by byte. -/
theorem Msg.garbageLoop_bytes {n size : Nat} (hn : size ≤ n) (dst : List Iovec) :
    Iovec.bytes (Msg.garbageLoop n size dst) =
      Iovec.bytes dst ++ (List.range size).map fun k => .garbageRead (k % Msg.garbageSize) := by
  induction n generalizing size dst with
  | zero =>
      obtain rfl : size = 0 := Nat.le_zero.1 hn
      simp [Msg.garbageLoop]
  | succ n ih =>
      unfold Msg.garbageLoop
      by_cases hsize : size = 0
      · simp [hsize]
      · have hpos : 0 < Msg.garbageSize := by decide
        have hblock : Iovec.bytes [⟨.garbageRead 0, min size Msg.garbageSize⟩] =
            (List.range (min size Msg.garbageSize)).map fun k => .garbageRead (k % Msg.garbageSize) := by
          simp only [Iovec.bytes, List.flatMap_singleton, HostByte.shift, Nat.zero_add]
          refine List.map_congr_left fun k hk => ?_
          have hlt := List.mem_range.1 hk
          rw [Nat.mod_eq_of_lt (by omega)]
        have hsplit : size = min size Msg.garbageSize + (size - min size Msg.garbageSize) := by omega
        rw [if_neg hsize, ih (by omega), Iovec.bytes_append, List.append_assoc, hblock]
        conv_rhs => rw [hsplit, List.range_add, List.map_append, List.map_map]
        congr 2
        refine List.map_congr_left fun k hk => ?_
        have hlt := List.mem_range.1 hk
        have hfull : min size Msg.garbageSize = Msg.garbageSize := by omega
        rw [Function.comp_apply, hfull, Nat.add_mod_left]

namespace IoCall

/-- The reply area shows these bytes. -/
def Shows (c : IoCall φ) (m : Mem) (bs : List Byte) : Prop := c.msg.Shows c.proc c.entries m bs

theorem shows_self (c : IoCall φ) : c.Shows c.mem (guestBytes c.proc c.mem c.entries) := ⟨rfl, rfl⟩

theorem Good.room_bytes (hgood : c.Good) : c.replySize ≤ (guestBytes c.proc c.mem c.entries).length := by
  rw [length_guestBytes]
  exact hgood.room

theorem readType_run (hgood : c.Good) (size : Nat) :
    (c.readType size).run ⟨files, c.mem⟩ = .ok (c.header size) ⟨files, c.mem⟩ := by
  refine IoM.lookMem_run ((Msg.copyOut_spec hgood.send _ _ rfl 0 size).trans ?_)
  simp only [Nat.zero_add]
  rfl

theorem take_header {k : Nat} (h : k ≤ n) : (c.header n).take k = c.header k := by
  rw [header, ← List.map_take, List.take_range, Nat.min_eq_left h, header]

/-- The descriptor is where every handler looks for it. -/
theorem fd_header (h : 4 ≤ n) : IoMsg.fd (c.header n) = c.fd := by
  have hfour : ∀ bs : List Byte, (bs.drop 2).take 2 = ((bs.take 4).drop 2).take 2 := by
    intro bs
    rw [List.drop_take, List.take_take]
    rfl
  rw [fd, IoMsg.fd, IoMsg.fd, hfour, take_header h]

theorem length_payload (c : IoCall φ) (n : Nat) : (c.payload n).length = n := by
  simp only [payload, List.length_append, List.length_take, List.length_drop, List.length_map, List.length_range]
  omega

theorem nbytes_lt (hdr : List Byte) : IoMsg.nbytes hdr < 2 ^ 16 := by
  have hlt := leNat_lt ((hdr.drop 4).take 2)
  have hpow : 256 ^ ((hdr.drop 4).take 2).length ≤ 256 ^ 2 :=
    Nat.pow_le_pow_right (by decide) (List.length_take_le 2 _)
  exact Nat.lt_of_lt_of_le hlt hpow

theorem writeType_shows (hgood : c.Good) {old post reply : List Byte} (h : c.Shows m (old ++ post))
    (hlen : old.length = reply.length) :
    ∃ m', (c.writeType reply).run ⟨files, m⟩ = .ok () ⟨files, m'⟩ ∧ c.Shows m' (reply ++ post) := by
  have hs : c.Shows m ([] ++ (old ++ post)) := h
  obtain ⟨k, m', hrun, hm'⟩ := hgood.area.write_shows hs hlen
  have hmem : (IoM.onMem (c.msg.write c.proc 0 reply)).run ⟨files, m⟩ = .ok k ⟨files, m'⟩ := IoM.onMem_run hrun
  refine ⟨m', ?_, hm'⟩
  rw [writeType, EStateM.run_bind_of_ok hmem]
  rfl

/-- A write goes to the front of what the area shows. -/
theorem writeType_front (hgood : c.Good) {bs reply : List Byte} (h : c.Shows m bs)
    (hlen : reply.length ≤ bs.length) :
    ∃ m', (c.writeType reply).run ⟨files, m⟩ = .ok () ⟨files, m'⟩ ∧
      c.Shows m' (reply ++ bs.drop reply.length) := by
  have hsplit : c.Shows m (bs.take reply.length ++ bs.drop reply.length) := by rwa [List.take_append_drop]
  apply writeType_shows hgood hsplit
  rw [List.length_take, Nat.min_eq_left hlen]

/-- Vectors for the data of a read: through them the host stores what it reads behind the reply. -/
theorem writeIovec_run (hgood : c.Good) (n : Nat) :
    ∃ iov, c.msg.writeIovec c.proc c.mem IoMsg.dataOffset n [] = .ok iov ∧ (iov.map (·.len)).sum = n ∧
      ∀ {pre old post data : List Byte}, pre.length = IoMsg.dataOffset → old.length = data.length →
        data.length ≤ n → c.Shows c.mem (pre ++ (old ++ post)) →
        c.Shows (readv iov data c.mem) (pre ++ (data ++ post)) := by
  obtain ⟨iov, hiov, hsum, -⟩ := Msg.commonIovec_spec (m := c.mem) hgood.area.valid c.msg.rcv c.msg.rcvParts rfl
    IoMsg.dataOffset n []
  rw [List.nil_append] at hiov
  refine ⟨iov, hiov, hsum, ?_⟩
  intro pre old post data hpre hold hdata hs
  obtain ⟨bs, hbytes, -, hfiller⟩ := Msg.writeIovec_ok hs.table hiov
  have hread : readv iov data c.mem = c.mem.scatter ((addrs c.proc c.entries).drop pre.length) data := by
    rw [Msg.readv_eq_scatter hbytes hfiller hdata, named_eq_addrs hgood.area.valid, hpre]
  rw [hread]
  refine ⟨?_, Memory.gather_scatter hgood.area.nodup hs.bytes hold⟩
  exact (EntryTable.entries_scatter (hgood.area.apart.mono (List.drop_subset _ _)) data).trans hs.table

/-- Vectors for the data of a write: the host finds what the guest sent. -/
theorem readIovec_run (hgood : c.Good) (n : Nat) :
    ∃ iov, c.msg.readIovec c.proc c.mem IoMsg.dataOffset n [] = .ok iov ∧
      (Iovec.bytes iov).map (HostByte.load c.mem) = c.payload n := by
  have hat := Iterator.skipTo_spec (m := c.mem) (p := c.proc) c.msg.send c.msg.sendParts IoMsg.dataOffset rfl
  obtain ⟨vs, hvs, hbytes⟩ := Msg.iovecLoop_spec hgood.send n hat n (Nat.le_refl n) []
  generalize hes : c.msg.send.entries c.mem c.msg.sendParts = es at hat hvs hbytes
  have hlen : c.sent.length = (addrs c.proc es).length := by
    rw [sent, hes, length_guestBytes]
  have hleft : n - ((addrs c.proc es).length - min IoMsg.dataOffset (addrs c.proc es).length) =
      n - (c.sent.length - IoMsg.dataOffset) := by
    rw [hlen]
    omega
  rw [hleft] at hvs
  refine ⟨Msg.garbageLoop (n - (c.sent.length - IoMsg.dataOffset)) (n - (c.sent.length - IoMsg.dataOffset)) vs,
    ?_, ?_⟩
  · rw [Msg.readIovec, Msg.commonIovec, Msg.iterateSend, hvs]
    rfl
  · have hloaded : (((addrs c.proc es).drop (min IoMsg.dataOffset (addrs c.proc es).length)).take n).map c.mem =
        (c.sent.drop IoMsg.dataOffset).take n := by
      rw [sent, hes, guestBytes, Memory.gather, ← List.drop_eq_drop_min, List.map_take, List.map_drop]
    rw [Msg.garbageLoop_bytes (Nat.le_refl _), hbytes, List.map_append, List.map_map, List.map_map,
      payload]
    exact congrArg₂ _ hloaded rfl

/-! ## One message -/

variable [DecidableEq φ] {fd : Nat} {call : φ → σ → Except Int α × σ}

theorem hostCall_none (h : c.fileOf fd = none) : (c.hostCall fd call).run s = .ok (.error qebadf) s := by
  rw [hostCall, h]
  rfl

theorem hostCall_some (h : c.fileOf fd = some f) :
    (c.hostCall fd call).run ⟨Function.update files f t, m⟩ =
      .ok (call f t).1 ⟨Function.update files f (call f t).2, m⟩ := by
  rw [hostCall, h]
  show EStateM.Result.ok (call f (Function.update files f t f)).1 (IoState.mk (Function.update
    (Function.update files f t) f (call f (Function.update files f t f)).2) m) = _
  rw [Function.update_self, Function.update_idem]

/-- From this state on the handler returns, with this answer in the reply area. -/
def Answers (c : IoCall φ) (x : IoM φ σ Unit) (s : IoState φ σ) (files' : φ → σ) (a : IoAnswer) : Prop :=
  ∃ m' reply, x.run s = .ok () ⟨files', m'⟩ ∧ c.Shows m' reply ∧ IoAnswer.ofReply c.kind reply = a

section

variable {a : IoAnswer} {files' : φ → σ} {bs reply : List Byte}

omit [DecidableEq φ]

theorem Answers.bind {x : IoM φ σ α} {k : α → IoM φ σ Unit} {v : α} {s' : IoState φ σ}
    (hrun : x.run s = .ok v s') (h : c.Answers (k v) s' files' a) : c.Answers (x >>= k) s files' a := by
  rwa [Answers, EStateM.run_bind_of_ok hrun]

theorem writeType_answers (hgood : c.Good) (hs : c.Shows m bs) (hlen : reply.length ≤ bs.length)
    (ha : IoAnswer.ofReply c.kind (reply ++ bs.drop reply.length) = a) :
    c.Answers (c.writeType reply) ⟨files, m⟩ files a := by
  obtain ⟨m', hrun, hs'⟩ := writeType_front hgood hs hlen
  exact ⟨m', _, hrun, hs', ha⟩

theorem ofReply_error (kind : IoKind) {e : Int} (he : (BitVec.ofInt 16 e).toNat ≠ 0) (rest : List Byte) :
    IoAnswer.ofReply kind (leBytes 2 (BitVec.ofInt 16 e).toNat ++ rest) = .error (BitVec.ofInt 16 e) := by
  rw [IoAnswer.ofReply.eq_def, replyStatus_append, if_pos he, BitVec.ofNat_toNat, BitVec.setWidth_eq]

/-- An answer that begins with an error. -/
theorem writeType_error (hgood : c.Good) (hs : c.Shows m bs) {e : Int} (he : (BitVec.ofInt 16 e).toNat ≠ 0)
    (more : List Byte) (hlen : 2 + more.length ≤ bs.length) :
    c.Answers (c.writeType (leBytes 2 (BitVec.ofInt 16 e).toNat ++ more)) ⟨files, m⟩ files
      (.error (BitVec.ofInt 16 e)) := by
  refine writeType_answers hgood hs (by simpa using hlen) ?_
  rw [List.append_assoc, ofReply_error _ he]

theorem writeStatus_error (hgood : c.Good) (hs : c.Shows m bs) {e : Int} (he : (BitVec.ofInt 16 e).toNat ≠ 0)
    (hlen : 2 ≤ bs.length) : c.Answers (c.writeStatus e) ⟨files, m⟩ files (.error (BitVec.ofInt 16 e)) :=
  writeType_answers hgood hs (by simpa using hlen) (ofReply_error _ he _)

theorem errno_word {e : Int} (he : Errno e) : (BitVec.ofInt 16 e).toNat ≠ 0 := by
  obtain ⟨hpos, hlt⟩ := he
  rw [BitVec.toNat_ofInt]
  omega

theorem ofReply_read {data : List Byte} (hdata : data.length < 2 ^ 16) (rest : List Byte) :
    IoAnswer.ofReply .read (ioReadReply qeok data.length ++ (data ++ rest)) = .data data := by
  have hstatus : replyStatus (ioReadReply qeok data.length ++ (data ++ rest)) = 0 := by
    rw [ioReadReply, List.append_assoc, List.append_assoc, replyStatus_append]
    rfl
  have hcount : leNat (((ioReadReply qeok data.length ++ (data ++ rest)).drop 2).take 2) = data.length := by
    rw [ioReadReply, List.append_assoc, List.append_assoc, List.drop_left' (length_leBytes 2 _),
      List.take_left' (length_leBytes 2 _), leNat_leBytes]
    exact Nat.mod_eq_of_lt hdata
  have hdrop : (ioReadReply qeok data.length ++ (data ++ rest)).drop 8 = data ++ rest :=
    List.drop_left' (by simp [ioReadReply])
  rw [IoAnswer.ofReply, if_neg (by rw [hstatus]; decide), hcount, hdrop, List.take_left' rfl]

theorem ofReply_write {n : Nat} (hn : n < 2 ^ 16) (rest : List Byte) :
    IoAnswer.ofReply .write (ioWriteReply qeok n ++ rest) = .count n := by
  have hstatus : replyStatus (ioWriteReply qeok n ++ rest) = 0 := by
    rw [ioWriteReply, List.append_assoc, List.append_assoc, replyStatus_append]
    rfl
  have hcount : leNat (((ioWriteReply qeok n ++ rest).drop 2).take 2) = n := by
    rw [ioWriteReply, List.append_assoc, List.append_assoc, List.drop_left' (length_leBytes 2 _),
      List.take_left' (length_leBytes 2 _), leNat_leBytes]
    exact Nat.mod_eq_of_lt hn
  rw [IoAnswer.ofReply, if_neg (by rw [hstatus]; decide), hcount]

theorem ofReply_seek {kind : IoKind} (hkind : kind = .lseek ∨ kind = .trunc) (off : Nat) (rest : List Byte) :
    IoAnswer.ofReply kind (seekReply qeok off ++ rest) = .offset (BitVec.ofNat 32 off) := by
  have hstatus : replyStatus (seekReply qeok off ++ rest) = 0 := by
    rw [seekReply, List.append_assoc, List.append_assoc, replyStatus_append]
    rfl
  have hoffset : BitVec.ofNat 32 (leNat (((seekReply qeok off ++ rest).drop 4).take 4)) = BitVec.ofNat 32 off := by
    have hdrop : (seekReply qeok off ++ rest).drop 4 = leBytes 4 (BitVec.ofInt 32 off).toNat ++ rest := by
      rw [seekReply, List.append_assoc]
      exact List.drop_left' (by simp)
    have hmod : (BitVec.ofNat 32 off).toNat % 256 ^ 4 = (BitVec.ofNat 32 off).toNat :=
      Nat.mod_eq_of_lt (BitVec.ofNat 32 off).isLt
    rw [hdrop, List.take_left' (length_leBytes 4 _), leNat_leBytes, BitVec.ofInt_natCast, hmod, BitVec.ofNat_toNat,
      BitVec.setWidth_eq]
  rw [IoAnswer.ofReply.eq_def, if_neg (by rw [hstatus]; decide)]
  rcases hkind with rfl | rfl
  · exact congrArg _ hoffset
  · exact congrArg _ hoffset

end

/-! ### The handlers -/

theorem readvCall_none {iov : List Iovec} (hfile : c.fileOf fd = none) :
    (c.readvCall F fd iov).run s = .ok (.error qebadf) s := by
  rw [readvCall, EStateM.run_bind_of_ok (hostCall_none hfile)]
  rfl

theorem readvCall_error {iov : List Iovec} (hfile : c.fileOf fd = some f) {e : Int}
    (he : ((F f).read t (iov.map (·.len)).sum).1 = .error e) :
    (c.readvCall F fd iov).run ⟨Function.update files f t, m⟩ =
      .ok (.error e) ⟨Function.update files f ((F f).read t (iov.map (·.len)).sum).2, m⟩ := by
  rw [readvCall, EStateM.run_bind_of_ok (hostCall_some hfile), he]
  rfl

theorem readvCall_ok {iov : List Iovec} (hfile : c.fileOf fd = some f) {data : List Byte}
    (hdata : ((F f).read t (iov.map (·.len)).sum).1 = .ok data) :
    (c.readvCall F fd iov).run ⟨Function.update files f t, m⟩ =
      .ok (.ok data.length)
        ⟨Function.update files f ((F f).read t (iov.map (·.len)).sum).2, readv iov data m⟩ := by
  rw [readvCall, EStateM.run_bind_of_ok (hostCall_some hfile), hdata]
  rfl

theorem ioRead_none (hgood : c.Good) (hkind : c.kind = .read) {e : QnxFd} (hopen : c.fds.getOpenFd c.fd = .ok e)
    (hfile : c.fileOf c.fd = none) :
    c.Answers (c.ioRead F) ⟨files, c.mem⟩ files (.error (BitVec.ofInt 16 qebadf)) := by
  have hroom : 8 + IoMsg.nbytes (c.header IoMsg.dataOffset) ≤ (guestBytes c.proc c.mem c.entries).length := by
    have h := hgood.room_bytes
    rwa [replySize, hkind] at h
  obtain ⟨iov, hiov, -, -⟩ := writeIovec_run hgood (IoMsg.nbytes (c.header IoMsg.dataOffset))
  refine .bind (readType_run hgood _) ?_
  rw [fd_header (by decide), EStateM.ofExcept_bind_of_ok hopen]
  refine .bind (IoM.lookMem_run hiov) (.bind (readvCall_none hfile) ?_)
  refine writeType_error hgood c.shows_self (by decide) (leBytes 2 0 ++ leBytes 4 0) ?_
  simp only [List.length_append, length_leBytes]
  omega

theorem ioRead_some (hgood : c.Good) (hkind : c.kind = .read) {e : QnxFd} (hopen : c.fds.getOpenFd c.fd = .ok e)
    (hfile : c.fileOf c.fd = some f) :
    c.Answers (c.ioRead F) ⟨Function.update files f t, c.mem⟩
      (Function.update files f (c.request.direct (F f) t).2) (c.request.direct (F f) t).1 := by
  have hroom : 8 + IoMsg.nbytes (c.header IoMsg.dataOffset) ≤ (guestBytes c.proc c.mem c.entries).length := by
    have h := hgood.room_bytes
    rwa [replySize, hkind] at h
  rw [request, hkind]
  obtain ⟨iov, hiov, hsum, hstore⟩ := writeIovec_run hgood (IoMsg.nbytes (c.header IoMsg.dataOffset))
  have hn := nbytes_lt (c.header IoMsg.dataOffset)
  refine .bind (readType_run hgood _) ?_
  rw [fd_header (by decide), EStateM.ofExcept_bind_of_ok hopen]
  refine .bind (IoM.lookMem_run hiov) ?_
  generalize IoMsg.nbytes (c.header IoMsg.dataOffset) = n at hroom hsum hstore hn ⊢
  simp only [IoRequest.direct]
  subst hsum
  cases hread : ((F f).read t (iov.map (·.len)).sum).1 with
  | error errno =>
      refine .bind (readvCall_error hfile hread) ?_
      refine writeType_error hgood c.shows_self (errno_word ((F f).read_errno hread))
        (leBytes 2 0 ++ leBytes 4 0) ?_
      simp only [List.length_append, length_leBytes]
      omega
  | ok data =>
      have hle := (F f).read_le hread
      refine .bind (readvCall_ok hfile hread) ?_
      have hs : c.Shows c.mem ((guestBytes c.proc c.mem c.entries).take 8 ++
          (((guestBytes c.proc c.mem c.entries).drop 8).take data.length ++
            ((guestBytes c.proc c.mem c.entries).drop 8).drop data.length)) := by
        rw [List.take_append_drop, List.take_append_drop]
        exact c.shows_self
      have hpre : ((guestBytes c.proc c.mem c.entries).take 8).length = 8 := by
        rw [List.length_take]
        omega
      have hold : (((guestBytes c.proc c.mem c.entries).drop 8).take data.length).length = data.length := by
        rw [List.length_take, List.length_drop]
        omega
      have hs' := hstore hpre hold hle hs
      have hreply : IoMsg.dataOffset = (ioReadReply qeok data.length).length := by
        simp [ioReadReply, IoMsg.dataOffset]
      obtain ⟨m', hrun, hm'⟩ := writeType_shows hgood hs' (hpre.trans hreply)
      refine ⟨m', _, hrun, hm', ?_⟩
      rw [hkind, ofReply_read (by omega)]
      rfl

/-! A write -/

theorem writevCall_none {iov : List Iovec} (hfile : c.fileOf fd = none) :
    (c.writevCall F fd iov).run s = .ok (.error qebadf) s := by
  rw [writevCall, EStateM.run_get_bind, hostCall_none hfile]

theorem writevCall_some {iov : List Iovec} {data : List Byte} (hfile : c.fileOf fd = some f)
    (hdata : (Iovec.bytes iov).map (HostByte.load m) = data) :
    (c.writevCall F fd iov).run ⟨Function.update files f t, m⟩ =
      .ok ((F f).write t data).1 ⟨Function.update files f ((F f).write t data).2, m⟩ := by
  subst hdata
  rw [writevCall, EStateM.run_get_bind, hostCall_some hfile]

theorem ioWrite_none (hgood : c.Good) (hkind : c.kind = .write) (hfile : c.fileOf c.fd = none) :
    c.Answers (c.ioWrite F) ⟨files, c.mem⟩ files (.error (BitVec.ofInt 16 qebadf)) := by
  have hroom := hgood.room_bytes
  rw [replySize, hkind] at hroom
  obtain ⟨iov, hiov, -⟩ := readIovec_run hgood (IoMsg.nbytes (c.header IoMsg.dataOffset))
  refine .bind (readType_run hgood _) ?_
  rw [fd_header (by decide)]
  refine .bind (IoM.lookMem_run hiov) (.bind (writevCall_none hfile) ?_)
  exact writeType_error hgood c.shows_self (by decide) (leBytes 2 0 ++ leBytes 2 0) (by simpa using hroom)

theorem ioWrite_some (hgood : c.Good) (hkind : c.kind = .write) (hfile : c.fileOf c.fd = some f) :
    c.Answers (c.ioWrite F) ⟨Function.update files f t, c.mem⟩
      (Function.update files f (c.request.direct (F f) t).2) (c.request.direct (F f) t).1 := by
  have hroom := hgood.room_bytes
  rw [replySize, hkind] at hroom
  rw [request, hkind]
  obtain ⟨iov, hiov, hdata⟩ := readIovec_run hgood (IoMsg.nbytes (c.header IoMsg.dataOffset))
  have hn := nbytes_lt (c.header IoMsg.dataOffset)
  refine .bind (readType_run hgood _) ?_
  rw [fd_header (by decide)]
  refine .bind (IoM.lookMem_run hiov) (.bind (writevCall_some hfile hdata) ?_)
  simp only [IoRequest.direct]
  have hlen := c.length_payload (IoMsg.nbytes (c.header IoMsg.dataOffset))
  generalize c.payload (IoMsg.nbytes (c.header IoMsg.dataOffset)) = data at hlen ⊢
  cases hwrite : ((F f).write t data).1 with
  | error errno =>
      exact writeType_error hgood c.shows_self (errno_word ((F f).write_errno hwrite)) (leBytes 2 0 ++ leBytes 2 0)
        (by simpa using hroom)
  | ok n =>
      have hle := (F f).write_le hwrite
      refine writeType_answers hgood c.shows_self (by simpa [ioWriteReply] using hroom) ?_
      rw [hkind, ofReply_write (by omega)]
      rfl

/-! A change of the position, or of the length -/

theorem lseekCall_none {offset : Int} {whence : Nat} (hfile : c.fileOf fd = none) :
    (c.lseekCall F fd offset whence).run s = .ok (.error qebadf) s := hostCall_none hfile

theorem lseekCall_some {offset : Int} {whence : Nat} (hfile : c.fileOf fd = some f) {t' : σ}
    {r : Except Int Nat} (h : (F f).lseek t offset whence = (r, t')) :
    (c.lseekCall F fd offset whence).run ⟨Function.update files f t, m⟩ =
      .ok r ⟨Function.update files f t', m⟩ := by
  rw [lseekCall, hostCall_some hfile, h]

theorem ftruncateCall_some {length : Nat} (hfile : c.fileOf fd = some f) {t' : σ} {r : Except Int Unit}
    (h : (F f).ftruncate t length = (r, t')) :
    (c.ftruncateCall F fd length).run ⟨Function.update files f t, m⟩ =
      .ok r ⟨Function.update files f t', m⟩ := by
  rw [ftruncateCall, hostCall_some hfile, h]

theorem mapErrno_word {e : Int} (he : Errno e) : (BitVec.ofInt 16 (mapErrno e)).toNat ≠ 0 :=
  mapErrno_word_ne_zero (Int.ne_of_gt he.1)

theorem lseek_errno_of_eq {F : HostFile σ} {t t' : σ} {offset : Int} {whence : Nat} {e : Int}
    (h : F.lseek t offset whence = (.error e, t')) : Errno e := F.lseek_errno (congrArg Prod.fst h)

theorem ioLseek_none (hgood : c.Good) (hkind : c.kind = .lseek) (hfile : c.fileOf c.fd = none) :
    c.Answers (c.ioLseek F) ⟨files, c.mem⟩ files (.error (BitVec.ofInt 16 qebadf)) := by
  have hroom := hgood.room_bytes
  rw [replySize, hkind] at hroom
  refine .bind (readType_run hgood _) ?_
  rw [fd_header (by decide)]
  refine .bind (lseekCall_none hfile) ?_
  exact writeType_error hgood c.shows_self (by decide) (leBytes 2 0 ++ leBytes 4 (BitVec.ofInt 32 (-1)).toNat)
    (by simpa using hroom)

theorem ioLseek_some (hgood : c.Good) (hkind : c.kind = .lseek) (hfile : c.fileOf c.fd = some f) :
    c.Answers (c.ioLseek F) ⟨Function.update files f t, c.mem⟩
      (Function.update files f (c.request.direct (F f) t).2) (c.request.direct (F f) t).1 := by
  have hroom := hgood.room_bytes
  rw [replySize, hkind] at hroom
  rw [request, hkind]
  refine .bind (readType_run hgood _) ?_
  rw [fd_header (by decide)]
  simp only [IoRequest.direct]
  cases hseek : (F f).lseek t (IoMsg.offset (c.header IoMsg.seekSize))
    (IoMsg.whence (c.header IoMsg.seekSize)) with
  | mk r t' =>
      refine .bind (lseekCall_some hfile hseek) ?_
      cases r with
      | error errno =>
          exact writeType_error hgood c.shows_self (mapErrno_word (lseek_errno_of_eq hseek))
            (leBytes 2 0 ++ leBytes 4 (BitVec.ofInt 32 (-1)).toNat) (by simpa using hroom)
      | ok off =>
          refine writeType_answers hgood c.shows_self (by simpa [seekReply] using hroom) ?_
          rw [hkind, ofReply_seek (.inl rfl)]
          rfl

theorem fsysTrunc_none (hgood : c.Good) (hkind : c.kind = .trunc) (hfile : c.fileOf c.fd = none) :
    c.Answers (c.fsysTrunc F) ⟨files, c.mem⟩ files (.error (BitVec.ofInt 16 qebadf)) := by
  have hroom : 8 ≤ (guestBytes c.proc c.mem c.entries).length := by
    have h := hgood.room_bytes
    rwa [replySize, hkind] at h
  refine .bind (readType_run hgood _) ?_
  rw [fd_header (by decide)]
  refine .bind (lseekCall_none hfile) ?_
  exact writeStatus_error hgood c.shows_self (by decide) (by omega)

theorem fsysTrunc_some (hgood : c.Good) (hkind : c.kind = .trunc) (hfile : c.fileOf c.fd = some f) :
    c.Answers (c.fsysTrunc F) ⟨Function.update files f t, c.mem⟩
      (Function.update files f (c.request.direct (F f) t).2) (c.request.direct (F f) t).1 := by
  have hroom : 8 ≤ (guestBytes c.proc c.mem c.entries).length := by
    have h := hgood.room_bytes
    rwa [replySize, hkind] at h
  rw [request, hkind]
  refine .bind (readType_run hgood _) ?_
  rw [fd_header (by decide)]
  simp only [IoRequest.direct]
  generalize IoMsg.offset (c.header IoMsg.seekSize) = offset
  generalize IoMsg.whence (c.header IoMsg.seekSize) = whence
  -- one host call after the other; an error ends the handler with the state it leaves
  rcases hprev : (F f).lseek t 0 seekCur with ⟨e | prev, t₁⟩
  · have htrunc : (F f).trunc t offset whence = (.error e, t₁) := by simp only [HostFile.trunc, hprev]
    rw [htrunc]
    exact .bind (lseekCall_some hfile hprev)
      (writeStatus_error hgood c.shows_self (mapErrno_word (lseek_errno_of_eq hprev)) (by omega))
  refine .bind (lseekCall_some hfile hprev) ?_
  rcases hdest : (F f).lseek t₁ offset whence with ⟨e | dest, t₂⟩
  · have htrunc : (F f).trunc t offset whence = (.error e, t₂) := by simp only [HostFile.trunc, hprev, hdest]
    rw [htrunc]
    exact .bind (lseekCall_some hfile hdest)
      (writeStatus_error hgood c.shows_self (mapErrno_word (lseek_errno_of_eq hdest)) (by omega))
  refine .bind (lseekCall_some hfile hdest) (.bind (lseekCall_some hfile rfl) ?_)
  rcases hcut : (F f).ftruncate ((F f).lseek t₂ prev seekSet).2 dest with ⟨e | ⟨⟩, t₃⟩
  · have htrunc : (F f).trunc t offset whence = (.error e, t₃) := by
      simp only [HostFile.trunc, hprev, hdest, hcut]
    rw [htrunc]
    exact .bind (ftruncateCall_some hfile hcut)
      (writeStatus_error hgood c.shows_self (mapErrno_word ((F f).ftruncate_errno (congrArg Prod.fst hcut)))
        (by omega))
  · have htrunc : (F f).trunc t offset whence = (.ok dest, t₃) := by
      simp only [HostFile.trunc, hprev, hdest, hcut]
    rw [htrunc]
    refine .bind (ftruncateCall_some hfile hcut) ?_
    have hsize : (seekReply qeok dest).length ≤ (guestBytes c.proc c.mem c.entries).length := by
      simpa [seekReply] using hroom
    refine writeType_answers hgood c.shows_self hsize ?_
    rw [hkind, ofReply_seek (.inr rfl)]
    rfl

/-! ### Dispatch -/

theorem receive_of_handle {files' : φ → σ} {a : IoAnswer} (h : c.Answers (c.handle F) s files' a) :
    c.Answers (c.receive F) s files' a := by
  obtain ⟨m', reply, hrun, hs, ha⟩ := h
  refine ⟨m', reply, ?_, hs, ha⟩
  show (match (c.handle F).run s with
    | .error .badFd s' => _
    | r => r) = _
  rw [hrun]

/-- A descriptor that is not open, in a message that asks the map. -/
theorem receive_badFd (hgood : c.Good) (hkind : c.kind = .read)
    (hclosed : c.fds.getOpenFd c.fd = .error .badFd) :
    c.Answers (c.receive F) ⟨files, c.mem⟩ files (.error (BitVec.ofInt 16 qebadf)) := by
  have hroom : 8 + IoMsg.nbytes (c.header IoMsg.dataOffset) ≤ (guestBytes c.proc c.mem c.entries).length := by
    have h := hgood.room_bytes
    rwa [replySize, hkind] at h
  have hanswers : c.Answers (c.writeStatus qebadf) ⟨files, c.mem⟩ files (.error (BitVec.ofInt 16 qebadf)) :=
    writeStatus_error hgood c.shows_self (by decide) (by omega)
  obtain ⟨m', reply, hrun, hs, ha⟩ := hanswers
  refine ⟨m', reply, ?_, hs, ha⟩
  have hhandle : (c.handle F).run ⟨files, c.mem⟩ = .error .badFd ⟨files, c.mem⟩ := by
    rw [handle, hkind]
    dsimp only
    rw [ioRead, EStateM.run_bind_of_ok (readType_run hgood _), fd_header (by decide), hclosed]
    rfl
  show (match (c.handle F).run ⟨files, c.mem⟩ with
    | .error .badFd s' => (c.writeStatus qebadf).run s'
    | r => r) = _
  rw [hhandle]
  exact hrun

theorem getOpenFd_cases (fds : FdMap) (fd : Nat) :
    (∃ e, fds.getOpenFd fd = .ok e) ∨ fds.getOpenFd fd = .error .badFd := by
  unfold FdMap.getOpenFd FdMap.getAttachedFd
  cases fds.get fd with
  | none => exact .inr rfl
  | some e =>
      by_cases hopen : e.isOpen = true
      · exact .inl ⟨e, if_pos hopen⟩
      · exact .inr (if_neg hopen)

/-- The message is answered as the host would answer the request. -/
theorem receive_answers (hgood : c.Good) :
    c.Answers (c.receive F) ⟨files, c.mem⟩ (hostServer F files c).2 (hostServer F files c).1 := by
  have hself : ∀ f, IoState.mk (Function.update files f (files f)) c.mem = ⟨files, c.mem⟩ := by
    intro f
    rw [Function.update_eq_self]
  rw [hostServer, target]
  cases hkind : c.kind with
  | read =>
      rcases getOpenFd_cases c.fds c.fd with ⟨e, hopen⟩ | hclosed
      · rw [hopen]
        cases hfile : c.fileOf c.fd with
        | none =>
            refine receive_of_handle ?_
            rw [handle, hkind]
            exact ioRead_none hgood hkind hopen hfile
        | some f =>
            refine receive_of_handle ?_
            rw [handle, hkind, ← hself f]
            exact ioRead_some hgood hkind hopen hfile
      · rw [hclosed]
        exact receive_badFd hgood hkind hclosed
  | write =>
      refine receive_of_handle ?_
      rw [handle, hkind]
      cases hfile : c.fileOf c.fd with
      | none => exact ioWrite_none hgood hkind hfile
      | some f =>
          rw [← hself f]
          exact ioWrite_some hgood hkind hfile
  | lseek =>
      refine receive_of_handle ?_
      rw [handle, hkind]
      cases hfile : c.fileOf c.fd with
      | none => exact ioLseek_none hgood hkind hfile
      | some f =>
          rw [← hself f]
          exact ioLseek_some hgood hkind hfile
  | trunc =>
      refine receive_of_handle ?_
      rw [handle, hkind]
      cases hfile : c.fileOf c.fd with
      | none => exact fsysTrunc_none hgood hkind hfile
      | some f =>
          rw [← hself f]
          exact fsysTrunc_some hgood hkind hfile

end IoCall

/-! ## Runs -/

/-- What the guests find in the replies. -/
def learned (c : IoCall φ) (reply : Option (List Byte)) : Option IoAnswer := reply.map (IoAnswer.ofReply c.kind)

theorem ioServer_refines [DecidableEq φ] (F : φ → HostFile σ) (files : φ → σ) (hgood : c.Good) :
    learned c (ioServer F files c).1 = some (hostServer F files c).1 ∧
      (ioServer F files c).2 = (hostServer F files c).2 := by
  have hanswers : c.Answers (c.receive F) ⟨files, c.mem⟩ (hostServer F files c).2 (hostServer F files c).1 :=
    IoCall.receive_answers hgood
  obtain ⟨m', reply, hrun, hs, ha⟩ := hanswers
  have hserver : ioServer F files c = (some (guestBytes c.proc m' c.entries), (hostServer F files c).2) := by
    rw [ioServer, hrun]
  rw [hserver, learned, Option.map_some, hs.bytes, ha]
  exact ⟨rfl, rfl⟩

end Qine
