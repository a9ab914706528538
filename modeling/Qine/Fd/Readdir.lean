import Qine.Fd.Handlers
import Qine.Lib.Terminated
import Qine.Lib.Transducer
import Qine.Msg.Write

/-!
# Paging through a directory

`io_readdir` writes one fixed-size record for each name it gets from the host's directory stream, and the
header last. The stream is opened by the first request on a descriptor and kept with it, so a directory is
read in pages, from one request to the next, until `io_rewinddir`.

What the guest decodes from the replies since the last rewinding is the beginning of the listing, as long
as it asked for (`readdir_pages`). The reply areas may be split as the guest likes; as for every reply,
they must not cover the entry table of a 32-bit message (`readdir_over_own_table`).
-/

namespace Qine

/-! ## The host's directory -/

/-- `d_name`: a string without a terminator in it. -/
structure DirName where
  bytes : List Byte
  noNul : 0 ∉ bytes

/-- What the field of a record has room for. -/
def DirName.cut (name : DirName) : List Byte := name.bytes.take (qnameMax - 1)

/-- What the host does during a request. -/
structure DirHost where
  /-- the error with which `fdopendir` fails -/
  refuse : Option Int
  /-- the error with which `readdir` fails, by the number of the call -/
  readError : Nat → Option Int
  /-- what is in `path_buf` before its first use -/
  pathBuf : Fin qnameMax → Byte

/-- The entry of the descriptor, the names its directory stream has left (if there is a stream) and guest
memory. -/
structure DirState where
  entry : QnxFd
  left : List DirName
  mem : Mem

/-- The handlers. -/
abbrev DirM := EStateM FdError DirState

/-- A routine that works on guest memory. -/
def onMem {α : Type} (x : EStateM Fault Mem α) : DirM α := fun s =>
  match x.run s.mem with
  | .ok a m => .ok a { s with mem := m }
  | .error e m => .error (.fault e) { s with mem := m }

/-! ## Records -/

/-- `qine_strlcpy`; the length of the buffer is its `maxlen`. -/
def qineStrlcpy (dst : List Byte) (src : DirName) : List Byte :=
  if src.bytes.length + 1 < dst.length then
    src.bytes ++ [0] ++ dst.drop (src.bytes.length + 1)
  else if dst.length ≠ 0 then src.bytes.take (dst.length - 1) ++ [0]
  else dst

/-- `sizeof(QnxMsg::io::stat)`. -/
def statSize : Nat := 56

/-- `dirent_size`. -/
def direntSize : Nat := statSize + qnameMax

/-- `QnxMsg::io::readdir_reply`, without its padding. -/
structure ReaddirReply where
  status : BitVec 16
  ndirs : BitVec 8
  deriving DecidableEq, Repr

/-- The bytes of the reply; the padding is zero. -/
def ReaddirReply.bytes (reply : ReaddirReply) : List Byte :=
  leBytes 2 reply.status.toNat ++ [reply.ndirs, 0] ++ leBytes 4 0

/-- `sizeof(QnxMsg::io::readdir_reply)`. -/
def readdirReplySize : Nat := 8

/-! ## The handlers -/

/-- A request on the descriptor. -/
inductive DirRequest where
  | readdir (ndirs : BitVec 8)
  | rewinddir
  deriving DecidableEq, Repr

/-- A request, with what it finds: the process and its memory, the message and the host. -/
structure DirCall where
  request : DirRequest
  proc : Process
  mem : Mem
  msg : Msg
  host : DirHost

namespace DirCall

variable (names : List DirName) (c : DirCall)

/-- `Msg::write`, of which the handlers do not look at the result. -/
def write (offset : Nat) (src : List Byte) : DirM Unit := do
  let _ ← onMem (c.msg.write c.proc offset src)

/-- `Msg::write_status`. -/
def writeStatus (status : Int) : DirM Unit := c.write 0 (leBytes 2 (BitVec.ofInt 16 status).toNat)

/-- `QnxFd::check_open`. -/
def checkOpen : DirM Unit := do
  if !(← get).entry.isOpen then throw .badFd

/-- `QnxFd::prepare_dir`. A stream begins with the first name. -/
def prepareDir : DirM (Except Int Unit) := do
  if (← get).entry.hostDir then return .ok ()
  else
    match c.host.refuse with
    | some errno => return .error errno
    | none =>
      modify fun s => { s with entry := { s.entry with hostDir := true }, left := names }
      return .ok ()

/-- The loop of `io_readdir` from the `di`-th round on, with the rounds left; `none` when `readdir`
fails. -/
def direntLoop : Nat → Nat → List Byte → Nat → ReaddirReply → DirM (Option ReaddirReply)
  | 0, _, _, _, reply => return some reply
  | n + 1, di, pathBuf, dstOff, reply => do
    match c.host.readError di, (← get).left with
    | some _, _ => return none
    | none, [] => return some reply
    | none, name :: left =>
      modify fun s => { s with left := left }
      let pathBuf := qineStrlcpy pathBuf name
      c.write dstOff (List.replicate statSize 0)
      c.write (dstOff + statSize) pathBuf
      direntLoop n (di + 1) pathBuf (dstOff + direntSize) { reply with ndirs := reply.ndirs + 1 }

/-- `MainHandler::io_readdir`. An error of `readdir` is put into the reply, which is not written. -/
def ioReaddir (ndirs : BitVec 8) : DirM Unit := do
  checkOpen
  match ← c.prepareDir names with
  | .error errno => c.writeStatus (mapErrno errno)
  | .ok () =>
    match ← c.direntLoop ndirs.toNat 0 (List.ofFn c.host.pathBuf) readdirReplySize ⟨0, 0⟩ with
    | none => return ()
    | some reply => c.write 0 { reply with status := BitVec.ofInt 16 qeok }.bytes

/-- `MainHandler::io_rewinddir`. -/
def ioRewinddir : DirM Unit := do
  checkOpen
  match ← c.prepareDir names with
  | .error errno => c.writeStatus (mapErrno errno)
  | .ok () =>
    modify fun s => { s with left := names }
    c.writeStatus qeok

/-- The handler of the request. -/
def serve : DirM Unit :=
  match c.request with
  | .readdir ndirs => c.ioReaddir names ndirs
  | .rewinddir => c.ioRewinddir names

/-- The receive entries. -/
def entries : List MxferEntry := c.msg.rcv.entries c.mem c.msg.rcvParts

end DirCall

/-- The descriptor as it takes requests: each is answered with what is in the reply area afterwards, if the
handler returns. -/
def dirServer (names : List DirName) :
    Transducer (QnxFd × List DirName) DirCall (Option (List Byte)) := fun s c =>
  match (c.serve names).run ⟨s.1, s.2, c.mem⟩ with
  | .ok _ s' => (some (guestBytes c.proc s'.mem c.entries), (s'.entry, s'.left))
  | .error _ s' => (none, (s'.entry, s'.left))

/-! ## What the guest reads -/

/-- The names in the first records. -/
def decodeRecords : Nat → List Byte → List (List Byte)
  | 0, _ => []
  | n + 1, bs => Terminated.stringAt 0 (bs.take direntSize) statSize :: decodeRecords n (bs.drop direntSize)

/-- The status of a reply. -/
def replyStatus (reply : List Byte) : Nat := leNat (reply.take 2)

/-- The names in a reply; one that reports an error has none. -/
def decodeNames (reply : List Byte) : List (List Byte) :=
  if replyStatus reply = 0 then
    decodeRecords (reply.getD 2 0).toNat (reply.drop readdirReplySize)
  else []

/-- The names a guest has read since the last rewinding, after one more answer. -/
def listed (got : List (List Byte)) : DirRequest × Option (List Byte) → List (List Byte)
  | (.rewinddir, _) => []
  | (.readdir _, some reply) => got ++ decodeNames reply
  | (.readdir _, none) => got

/-- The number of names it has asked for since then. A request that failed does not count. -/
def asked (n : Nat) : DirRequest × Option (List Byte) → Nat
  | (.rewinddir, _) => 0
  | (.readdir ndirs, some reply) => if replyStatus reply = 0 then n + ndirs.toNat else n
  | (.readdir _, none) => n

/-! ## Records -/

variable {names : List DirName} {c : DirCall} {s : DirState} {m m' : Mem} {bs : List Byte}

@[simp] theorem length_qineStrlcpy (dst : List Byte) (src : DirName) :
    (qineStrlcpy dst src).length = dst.length := by
  unfold qineStrlcpy
  split_ifs
  · simp
    omega
  · simp
    omega
  · rfl

/-- The copied string, as far as there is room for it. -/
theorem takeWhile_qineStrlcpy {dst : List Byte} (src : DirName) (h : 0 < dst.length) :
    (qineStrlcpy dst src).takeWhile (· != 0) = src.bytes.take (dst.length - 1) := by
  unfold qineStrlcpy
  split_ifs with hshort
  · rw [List.append_assoc, List.singleton_append,
      Terminated.takeWhile_append_stop src.noNul, List.take_of_length_le (by omega)]
  · exact Terminated.takeWhile_append_stop fun hmem => src.noNul (List.mem_of_mem_take hmem)
  · omega

/-- A record is read back, whatever follows it. -/
theorem decodeRecords_record {n : Nat} {buf rest : List Byte} (name : DirName)
    (hbuf : buf.length = qnameMax) :
    decodeRecords (n + 1) (List.replicate statSize 0 ++ (qineStrlcpy buf name ++ rest)) =
      name.cut :: decodeRecords n rest := by
  have hlen : (List.replicate statSize 0 ++ qineStrlcpy buf name).length = direntSize := by
    simp [hbuf, direntSize]
  rw [decodeRecords, ← List.append_assoc, List.take_left' hlen, List.drop_left' hlen,
    Terminated.stringAt, List.drop_left' (by simp), takeWhile_qineStrlcpy name (by simp [hbuf, qnameMax]),
    hbuf]
  rfl

/-! ## Handlers on the reply area -/

theorem onMem_run {α : Type} {x : EStateM Fault Mem α} {a : α} (h : x.run s.mem = .ok a m) :
    (onMem x).run s = .ok a { s with mem := m } := by
  show (match x.run s.mem with
    | .ok a m => _
    | .error e m => _) = _
  rw [h]

namespace DirCall

/-- A call whose reply area is good enough for the answer, with a host that does not fail to read. -/
structure Good (c : DirCall) : Prop where
  area : c.msg.Area c.proc c.entries
  large : ∀ ndirs, c.request = .readdir ndirs →
    readdirReplySize + direntSize * ndirs.toNat ≤ (addrs c.proc c.entries).length
  reads : ∀ k, c.host.readError k = none
  errno : ∀ e, c.host.refuse = some e → e ≠ 0

/-- The reply area shows these bytes. -/
def Shows (c : DirCall) (m : Mem) (bs : List Byte) : Prop := c.msg.Shows c.proc c.entries m bs

theorem write_shows (ha : c.msg.Area c.proc c.entries) {pre old post : List Byte}
    (h : c.Shows s.mem (pre ++ (old ++ post))) (src : List Byte) (hlen : old.length = src.length) :
    ∃ m', (c.write pre.length src).run s = .ok () { s with mem := m' } ∧
      c.Shows m' (pre ++ (src ++ post)) := by
  obtain ⟨k, m', hrun, hm'⟩ := ha.write_shows h hlen
  refine ⟨m', ?_, hm'⟩
  rw [write, EStateM.run_bind_of_ok (onMem_run hrun)]
  rfl

/-- The two writes of a record go where there is room for it. -/
theorem writeRecord_shows (ha : c.msg.Area c.proc c.entries) {α : Type} {x : DirM α} {path pre rest : List Byte}
    (hpath : path.length = qnameMax) (hs : c.Shows s.mem (pre ++ rest)) (hroom : direntSize ≤ rest.length) :
    ∃ m', (do
        c.write pre.length (List.replicate statSize 0)
        c.write (pre.length + statSize) path
        x : DirM α).run s = x.run { s with mem := m' } ∧
      c.Shows m' (pre ++ (List.replicate statSize 0 ++ path) ++ rest.drop direntSize) := by
  rw [direntSize] at hroom ⊢
  have hsplit : rest = rest.take statSize ++ ((rest.drop statSize).take qnameMax ++
      rest.drop (statSize + qnameMax)) := by
    rw [← List.drop_drop, List.take_append_drop, List.take_append_drop]
  rw [hsplit] at hs
  obtain ⟨m₁, hrun₁, hs₁⟩ := write_shows ha hs (List.replicate statSize 0)
    (by rw [List.length_take, List.length_replicate]; omega)
  have hpre : pre.length + statSize = (pre ++ List.replicate statSize 0).length := by simp
  have hlen : ((rest.drop statSize).take qnameMax).length = path.length := by
    rw [List.length_take, List.length_drop, hpath]
    omega
  rw [← List.append_assoc] at hs₁
  obtain ⟨m₂, hrun₂, hs₂⟩ := write_shows (s := { s with mem := m₁ }) ha hs₁ path hlen
  refine ⟨m₂, ?_, ?_⟩
  · rw [EStateM.run_bind_of_ok hrun₁, hpre, EStateM.run_bind_of_ok hrun₂]
  · simpa only [List.append_assoc] using hs₂

/-- The loop writes a record for each name it gets, one behind the other. -/
theorem direntLoop_shows (hgood : c.Good) (n di : Nat) (reply : ReaddirReply)
    {pathBuf pre rest : List Byte} (hbuf : pathBuf.length = qnameMax) (hs : c.Shows s.mem (pre ++ rest))
    (hlen : direntSize * n ≤ rest.length) :
    ∃ m' recs post, (c.direntLoop n di pathBuf pre.length reply).run s =
        .ok (some { reply with ndirs := reply.ndirs + BitVec.ofNat 8 (s.left.take n).length })
          { s with left := s.left.drop n, mem := m' } ∧
      c.Shows m' (pre ++ (recs ++ post)) ∧
      ∀ post', decodeRecords (s.left.take n).length (recs ++ post') = (s.left.take n).map DirName.cut := by
  induction n generalizing s di pathBuf pre rest reply with
  | zero =>
      refine ⟨s.mem, [], rest, ?_, hs, ?_⟩
      · simp [direntLoop]
      · intro post'
        simp [decodeRecords]
  | succ n ih =>
      unfold direntLoop
      rw [EStateM.run_get_bind, hgood.reads di]
      cases hleft : s.left with
      | nil =>
          refine ⟨s.mem, [], rest, ?_, hs, ?_⟩
          · obtain ⟨entry, left, mem⟩ := s
            subst hleft
            simp
          · intro post'
            simp [decodeRecords]
      | cons name left =>
          have hbuf' : (qineStrlcpy pathBuf name).length = qnameMax := (length_qineStrlcpy _ _).trans hbuf
          have hsize : direntSize * (n + 1) = direntSize + direntSize * n := by
            rw [Nat.mul_succ, Nat.add_comm]
          have hlen' : direntSize * n ≤ (rest.drop direntSize).length := by
            rw [List.length_drop]
            omega
          dsimp only
          rw [EStateM.run_modify_bind]
          obtain ⟨m₁, hrun₁, hs₁⟩ := writeRecord_shows (s := { s with left := left })
            (x := c.direntLoop n (di + 1) (qineStrlcpy pathBuf name) (pre.length + direntSize)
              { reply with ndirs := reply.ndirs + 1 }) hgood.area hbuf' hs (by omega)
          obtain ⟨m₂, recs, post, hrun₂, hs₂, hdecode⟩ := ih (s := { s with left := left, mem := m₁ })
            (di + 1) { reply with ndirs := reply.ndirs + 1 } hbuf' hs₁ hlen'
          have hnext : pre.length + direntSize =
              (pre ++ (List.replicate statSize 0 ++ qineStrlcpy pathBuf name)).length := by
            simp [hbuf, direntSize]
          rw [hrun₁, hnext, hrun₂]
          refine ⟨m₂, List.replicate statSize 0 ++ (qineStrlcpy pathBuf name ++ recs), post, ?_, ?_, ?_⟩
          · have hcount : reply.ndirs + 1 + BitVec.ofNat 8 (left.take n).length =
                reply.ndirs + BitVec.ofNat 8 ((left.take n).length + 1) := by
              rw [BitVec.add_assoc, BitVec.ofNat_add, BitVec.add_comm 1]
              rfl
            simp only [List.take_succ_cons, List.drop_succ_cons, List.length_cons, hcount]
          · simpa [List.append_assoc] using hs₂
          · intro post'
            simp only [List.take_succ_cons, List.length_cons, List.append_assoc, List.map_cons]
            rw [decodeRecords_record name hbuf, hdecode]

end DirCall

/-! ## Replies -/

/-- The word of an error is not that of success. -/
theorem mapErrno_word_ne_zero {e : Int} (he : e ≠ 0) : (BitVec.ofInt 16 (mapErrno e)).toNat ≠ 0 := by
  have hbounds := mapErrno_bounds e
  have hne := mapErrno_ne_zero he
  rw [BitVec.toNat_ofInt]
  omega

theorem replyStatus_append (status : BitVec 16) :
    replyStatus (leBytes 2 status.toNat ++ bs) = status.toNat := by
  rw [replyStatus, List.take_left' (length_leBytes 2 _), leNat_leBytes]
  exact Nat.mod_eq_of_lt status.isLt

theorem decodeNames_reply (reply : ReaddirReply) (hok : reply.status = 0) :
    decodeNames (reply.bytes ++ bs) = decodeRecords reply.ndirs.toNat bs := by
  have hlen : reply.bytes.length = readdirReplySize := by simp [ReaddirReply.bytes, readdirReplySize]
  have hstatus : replyStatus (reply.bytes ++ bs) = 0 := by
    rw [ReaddirReply.bytes, List.append_assoc, List.append_assoc, replyStatus_append, hok]
    rfl
  have hndirs : (reply.bytes ++ bs).getD 2 0 = reply.ndirs := by
    simp [ReaddirReply.bytes, leBytes]
  rw [decodeNames, if_pos hstatus, hndirs, List.drop_left' hlen]

/-! ## One request -/

/-- The descriptor is open, its stream stands behind the first `n` names if there is one, and these are what
the guest has got. -/
structure Paged (names : List DirName) (e : QnxFd) (left : List DirName) (got : List (List Byte))
    (n : Nat) : Prop where
  isOpen : e.isOpen = true
  fresh : e.hostDir = false → n = 0
  stream : e.hostDir = true → left = names.drop n
  got_eq : got = (names.take n).map DirName.cut

variable {got : List (List Byte)} {n : Nat}

namespace DirCall

theorem checkOpen_run (h : s.entry.isOpen = true) : checkOpen.run s = .ok () s := by
  unfold checkOpen
  rw [EStateM.run_get_bind, h]
  rfl

/-- After `prepare_dir` there is a stream, where the one before stood. -/
theorem prepareDir_paged (h : Paged names s.entry s.left got n) :
    (∃ errno, c.host.refuse = some errno ∧ s.entry.hostDir = false ∧
        (c.prepareDir names).run s = .ok (.error errno) s) ∨
      ∃ e, (c.prepareDir names).run s = .ok (.ok ()) { s with entry := e, left := names.drop n } ∧
        e.hostDir = true ∧ e.isOpen = true := by
  obtain ⟨entry, left, mem⟩ := s
  unfold prepareDir
  rw [EStateM.run_get_bind]
  dsimp only at h ⊢
  by_cases hdir : entry.hostDir = true
  · rw [if_pos hdir, ← h.stream hdir]
    exact .inr ⟨entry, rfl, hdir, h.isOpen⟩
  · have hnone : entry.hostDir = false := by simpa using hdir
    rw [if_neg hdir, h.fresh hnone]
    cases c.host.refuse with
    | some errno => exact .inl ⟨errno, rfl, hnone, rfl⟩
    | none => exact .inr ⟨{ entry with hostDir := true }, rfl, rfl, h.isOpen⟩

/-- An answer of an error only leaves everything as it was. -/
theorem writeStatus_shows (ha : c.msg.Area c.proc c.entries) (status : Int)
    (h : c.Shows s.mem bs) (hlen : 2 ≤ bs.length) :
    ∃ m', (c.writeStatus status).run s = .ok () { s with mem := m' } ∧
      c.Shows m' (leBytes 2 (BitVec.ofInt 16 status).toNat ++ bs.drop 2) := by
  have hs : c.Shows s.mem ([] ++ (bs.take 2 ++ bs.drop 2)) := by simpa using h
  exact write_shows ha hs (leBytes 2 (BitVec.ofInt 16 status).toNat) (by simp; omega)

theorem ioReaddir_paged (hgood : c.Good) {ndirs : BitVec 8} (hreq : c.request = .readdir ndirs)
    (hs : c.Shows s.mem bs) (h : Paged names s.entry s.left got n) :
    ∃ s' reply, (c.ioReaddir names ndirs).run s = .ok () s' ∧ c.Shows s'.mem reply ∧
      (c.host.refuse = none → replyStatus reply = 0) ∧
      Paged names s'.entry s'.left (got ++ decodeNames reply)
        (if replyStatus reply = 0 then n + ndirs.toNat else n) := by
  have hlarge : readdirReplySize + direntSize * ndirs.toNat ≤ bs.length := by
    rw [← hs.bytes, length_guestBytes]
    exact hgood.large ndirs hreq
  unfold ioReaddir
  rw [EStateM.run_bind_of_ok (checkOpen_run h.isOpen)]
  rcases prepareDir_paged (c := c) h with ⟨errno, hrefuse, -, hprep⟩ | ⟨e, hprep, hdir, hopen⟩
  · obtain ⟨m', hrun, hs'⟩ := writeStatus_shows hgood.area (mapErrno errno) hs
      (by unfold readdirReplySize at hlarge; omega)
    have hstatus : replyStatus (leBytes 2 (BitVec.ofInt 16 (mapErrno errno)).toNat ++ bs.drop 2) =
        (BitVec.ofInt 16 (mapErrno errno)).toNat := replyStatus_append _
    have hne := mapErrno_word_ne_zero (hgood.errno errno hrefuse)
    rw [EStateM.run_bind_of_ok hprep]
    refine ⟨_, _, hrun, hs', fun hnone => ?_, ?_⟩
    · rw [hnone] at hrefuse
      cases hrefuse
    rw [decodeNames, hstatus, if_neg hne, if_neg hne, List.append_nil]
    exact h
  · rw [EStateM.run_bind_of_ok hprep]
    have hpre : (bs.take readdirReplySize).length = readdirReplySize := by
      rw [List.length_take]
      omega
    have hs' : c.Shows s.mem (bs.take readdirReplySize ++ bs.drop readdirReplySize) := by
      rwa [List.take_append_drop]
    obtain ⟨m₁, recs, post, hloop, hs₁, hdecode⟩ :=
      direntLoop_shows (s := { s with entry := e, left := names.drop n }) hgood ndirs.toNat 0 ⟨0, 0⟩
        (List.length_ofFn (f := c.host.pathBuf)) hs' (by rw [List.length_drop]; omega)
    rw [hpre] at hloop
    dsimp only at hloop hdecode ⊢
    rw [EStateM.run_bind_of_ok hloop]
    -- the header comes last, over the place kept for it
    generalize hreply : (⟨BitVec.ofInt 16 qeok,
      0 + BitVec.ofNat 8 ((names.drop n).take ndirs.toNat).length⟩ : ReaddirReply) = reply
    have hstatus : reply.status = 0 := by
      rw [← hreply]
      rfl
    have hcount : reply.ndirs.toNat = ((names.drop n).take ndirs.toNat).length := by
      have hle := List.length_take_le ndirs.toNat (names.drop n)
      have hlt := ndirs.isLt
      rw [← hreply]
      simp only [BitVec.ofNat_eq_ofNat, BitVec.zero_add, BitVec.toNat_ofNat]
      exact Nat.mod_eq_of_lt (by omega)
    have hs₁' : c.Shows m₁ ([] ++ (bs.take readdirReplySize ++ (recs ++ post))) := hs₁
    have hsize : (bs.take readdirReplySize).length = reply.bytes.length := by
      rw [hpre]
      simp [ReaddirReply.bytes, readdirReplySize]
    obtain ⟨m₂, hrun, hs₂⟩ :=
      write_shows (s := ⟨e, (names.drop n).drop ndirs.toNat, m₁⟩) hgood.area hs₁' reply.bytes hsize
    dsimp only
    rw [hreply]
    have hok : replyStatus (reply.bytes ++ (recs ++ post)) = 0 := by
      rw [ReaddirReply.bytes, List.append_assoc, List.append_assoc, replyStatus_append, hstatus]
      rfl
    refine ⟨_, _, hrun, hs₂, fun _ => hok, ?_⟩
    rw [List.nil_append, decodeNames_reply reply hstatus, hcount, hdecode, if_pos hok]
    refine ⟨hopen, ?_, fun _ => List.drop_drop, ?_⟩
    · exact fun hnone => absurd (hnone.symm.trans hdir) (by decide)
    · rw [h.got_eq, ← List.map_append, ← List.take_add]

theorem ioRewinddir_paged (hgood : c.Good) (hs : c.msg.rcv.entries s.mem c.msg.rcvParts = c.entries)
    (h : Paged names s.entry s.left got n) :
    ∃ s', (c.ioRewinddir names).run s = .ok () s' ∧ Paged names s'.entry s'.left [] 0 := by
  have hwrite : ∀ (status : Int) (entry : QnxFd) (left : List DirName),
      ∃ m', (c.writeStatus status).run ⟨entry, left, s.mem⟩ = .ok () ⟨entry, left, m'⟩ := by
    intro status entry left
    have hrun := Msg.write_spec hgood.area.valid hs hgood.area.apart 0
      (leBytes 2 (BitVec.ofInt 16 status).toNat)
    have hmem := onMem_run (s := ⟨entry, left, s.mem⟩) hrun
    exact ⟨_, by rw [writeStatus, write, EStateM.run_bind_of_ok hmem]; rfl⟩
  unfold ioRewinddir
  rw [EStateM.run_bind_of_ok (checkOpen_run h.isOpen)]
  rcases prepareDir_paged (c := c) h with ⟨errno, hrefuse, hnone, hprep⟩ | ⟨e, hprep, hdir, hopen⟩
  · obtain ⟨m', hrun⟩ := hwrite (mapErrno errno) s.entry s.left
    rw [EStateM.run_bind_of_ok hprep]
    exact ⟨_, hrun, h.isOpen, fun _ => rfl, fun hdir => absurd (hnone.symm.trans hdir) (by decide), rfl⟩
  · obtain ⟨m', hrun⟩ := hwrite qeok e names
    rw [EStateM.run_bind_of_ok hprep]
    dsimp only
    rw [EStateM.run_modify_bind]
    exact ⟨_, hrun, hopen, fun _ => rfl, fun _ => rfl, rfl⟩

end DirCall

/-- The request is answered, one for names without an error unless the host cannot open a stream. -/
def DirCall.Answered (c : DirCall) (answer : Option (List Byte)) : Prop :=
  ∃ reply, answer = some reply ∧
    (c.request ≠ .rewinddir → c.host.refuse = none → replyStatus reply = 0)

/-- One request: the guest gets the next names. -/
theorem dirServer_paged {t : QnxFd × List DirName} (hgood : c.Good) (h : Paged names t.1 t.2 got n) :
    ∃ reply, (dirServer names t c).1 = some reply ∧ c.Answered (some reply) ∧
      Paged names (dirServer names t c).2.1 (dirServer names t c).2.2
        (listed got (c.request, some reply)) (asked n (c.request, some reply)) := by
  have hs : c.Shows c.mem (guestBytes c.proc c.mem c.entries) := ⟨rfl, rfl⟩
  unfold dirServer DirCall.serve
  cases hreq : c.request with
  | readdir ndirs =>
      obtain ⟨s', reply, hrun, hshows, hok, hpaged⟩ :=
        DirCall.ioReaddir_paged (s := ⟨t.1, t.2, c.mem⟩) hgood hreq hs h
      simp only [hrun]
      exact ⟨reply, congrArg some hshows.bytes, ⟨reply, rfl, fun _ => hok⟩, hpaged⟩
  | rewinddir =>
      obtain ⟨s', hrun, hpaged⟩ := DirCall.ioRewinddir_paged (s := ⟨t.1, t.2, c.mem⟩) hgood rfl h
      simp only [hrun]
      exact ⟨_, rfl, ⟨_, rfl, fun hne => absurd hreq hne⟩, hpaged⟩

/-! ## A whole session -/

/-- The requests of a session, with their answers. -/
def session (names : List DirName) (t : QnxFd × List DirName) (calls : List DirCall) :
    List (DirRequest × Option (List Byte)) :=
  (calls.map (·.request)).zip ((dirServer names).run t calls).1

theorem session_paged {t : QnxFd × List DirName} {calls : List DirCall}
    (hgood : ∀ c ∈ calls, c.Good) (h : Paged names t.1 t.2 got n) :
    List.Forall₂ DirCall.Answered calls ((dirServer names).run t calls).1 ∧
      (session names t calls).foldl listed got =
        (names.take ((session names t calls).foldl asked n)).map DirName.cut := by
  induction calls generalizing t got n with
  | nil => exact ⟨.nil, h.got_eq⟩
  | cons c calls ih =>
      obtain ⟨reply, hreply, hanswered, hnext⟩ := dirServer_paged (hgood c List.mem_cons_self) h
      obtain ⟨hanswers, hgot⟩ := ih (fun c' hc' => hgood c' (List.mem_cons_of_mem _ hc')) hnext
      refine ⟨.cons (hreply ▸ hanswered) hanswers, ?_⟩
      simpa only [session, Transducer.run, List.map_cons, List.zip_cons_cons, List.foldl_cons, hreply]
        using hgot

/-- A directory is read in pages without gaps or repeats. In every session on an open descriptor without a
stream yet, or with one at the beginning, every request is answered, and the names decoded from the replies
since the last `io_rewinddir` are the first ones of the listing, as many as were asked for; the whole listing
when more were asked for. -/
theorem readdir_pages (names : List DirName) {e : QnxFd} {left : List DirName} (hopen : e.isOpen = true)
    (hleft : e.hostDir = true → left = names) {calls : List DirCall} (hgood : ∀ c ∈ calls, c.Good) :
    List.Forall₂ DirCall.Answered calls ((dirServer names).run (e, left) calls).1 ∧
      (session names (e, left) calls).foldl listed [] =
        (names.map DirName.cut).take ((session names (e, left) calls).foldl asked 0) := by
  have hstart : Paged names e left [] 0 := ⟨hopen, fun _ => rfl, hleft, rfl⟩
  rw [← List.map_take]
  exact session_paged hgood hstart

/-- A reply area in two parts, and a page of two names after the first name was read and the directory
rewound. -/
theorem readdir_pages_onePage :
    let names : List DirName := [⟨[46], by decide⟩, ⟨[46, 46], by decide⟩, ⟨[97, 98], by decide⟩]
    let call : DirRequest → DirCall := fun request =>
      ⟨request, Process.onePage, fun _ => 1,
        ⟨2, .translated [⟨0x200, 7, 0, 100⟩, ⟨0x300, 7, 0, 118⟩], 0, .translated []⟩,
        ⟨none, fun _ => none, fun _ => 2⟩⟩
    let calls := [call (.readdir 1), call .rewinddir, call (.readdir 2)]
    let e : QnxFd := { QnxFd.make 0 0 0 0 3 with isOpen := true }
    (session names (e, []) calls).foldl listed [] = [[46], [46, 46]] := by
  intro names call calls e
  have hgood : ∀ request, (∀ ndirs, request = .readdir ndirs → ndirs.toNat ≤ 2) →
      (call request).Good := by
    intro request hndirs
    refine ⟨⟨?_, ?_, trivial⟩, ?_, fun _ => rfl, fun e he => by cases he⟩
    · show ∀ e ∈ (call .rewinddir).entries, e.Valid Process.onePage
      decide +kernel
    · show (addrs Process.onePage (call .rewinddir).entries).Nodup
      decide +kernel
    · intro ndirs hreq
      have hlen : (addrs Process.onePage (call request).entries).length = 218 := by
        show (addrs Process.onePage (call .rewinddir).entries).length = 218
        decide +kernel
      have hle := hndirs ndirs hreq
      rw [hlen, readdirReplySize, direntSize, statSize, qnameMax]
      omega
  have hcalls : ∀ c ∈ calls, c.Good := by
    intro c hc
    simp only [calls, List.mem_cons, List.not_mem_nil, or_false] at hc
    rcases hc with rfl | rfl | rfl
    · exact hgood _ (by rintro _ ⟨⟩; decide)
    · exact hgood _ (by rintro _ ⟨⟩)
    · exact hgood _ (by rintro _ ⟨⟩; decide)
  have hasked : (session names (e, []) calls).foldl asked 0 = 2 := by decide +kernel
  rw [(readdir_pages names rfl (fun h => by cases h) hcalls).2, hasked]
  rfl

/-- A reply area that covers the entry table: clearing the first record clears the table, and the header
goes nowhere. -/
theorem readdir_over_own_table :
    let names : List DirName := [⟨[97], by decide⟩]
    let m : Mem := Memory.write (fun _ => 0) 0x1108
      (leBytes 4 0x100 ++ leBytes 2 7 ++ leBytes 2 0 ++ leBytes 4 113)
    let c : DirCall := ⟨.readdir 1, Process.onePage, m, ⟨1, .guest 0x1108, 0, .translated []⟩,
      ⟨none, fun _ => none, fun _ => 0⟩⟩
    let e : QnxFd := { QnxFd.make 0 0 0 0 3 with isOpen := true }
    (∀ e ∈ c.entries, e.Valid c.proc) ∧ (addrs c.proc c.entries).Nodup ∧
      (addrs c.proc c.entries).length = readdirReplySize + direntSize * 1 ∧
      (session names (e, []) [c]).foldl listed [] = [] ∧
      (names.map DirName.cut).take ((session names (e, []) [c]).foldl asked 0) = [[97]] := by
  decide +kernel

end Qine
