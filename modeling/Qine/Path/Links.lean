import Qine.Lib.Signed
import Qine.Path.Identity
import Mathlib.Data.Nat.Bitwise

/-!
# Symbolic links

The target of a link is a path of the host, so an absolute one is translated when a guest makes the link, and
translated back when it is read. The size that `io_stat` reports is that of the text `fsys_readlink` returns, "so
that readlink and stat are consistent with each other"; `links_read_back` says so for all the links that are made
in a run.
-/

namespace Qine

/-! ## The host -/

/-- The part of the host's `struct stat` that is passed on. -/
structure HostStat where
  ino : Nat
  dev : Nat
  size : Int
  rdev : Nat
  mtime : Int
  atime : Int
  ctime : Int
  mode : Nat
  uid : Nat
  gid : Nat
  nlink : Nat
  deriving DecidableEq, Repr

/-- The calls about links, on the state of a file system. -/
structure LinkHost (σ : Type) where
  symlink (target path : Path) : σ → Except Int σ
  mkdir (path : Path) (mode : Nat) : σ → Except Int σ
  readlink (path : Path) : σ → Except Int Path
  lstat (path : Path) : σ → Except Int HostStat
  stat (path : Path) : σ → Except Int HostStat

/-- `S_IFMT`. -/
def sIfmt : Nat := 0o170000

/-- `S_IFDIR`. -/
def sIfdir : Nat := 0o040000

/-- `S_IFLNK`. -/
def sIflnk : Nat := 0o120000

/-- `ALLPERMS`. -/
def allperms : Nat := 0o7777

/-- `ACCESSPERMS`. -/
def accessperms : Nat := 0o777

/-- `'\0'`. -/
def nul : Char := Char.ofNat 0

/-- The string a C function finds in a buffer. -/
def cString (s : Path) : Path := s.takeWhile (· ≠ nul)

/-! ## `Fsutil::readlink` -/

/-- `std::string::resize`. -/
def strResize (n : Nat) (s : Path) : Path := s.take n ++ List.replicate (n - s.length) nul

/-- The loop of `Fsutil::readlink` for a link with this text, of which the host stores what there is room for. -/
def readlinkLoop (text : Path) : Nat → Nat → Path → Option Path
  | 0, _, _ => none
  | fuel + 1, size, dst =>
    let dst := strResize (size + 1) dst
    let r := min text.length dst.length
    let dst := text.take dst.length ++ dst.drop r
    if r = size + 1 then readlinkLoop text fuel (size * 2) dst else some (strResize size dst)

/-- `Fsutil::readlink`; the size is doubled once for every character at most (`readlinkLoop_eq`). -/
def fsutilReadlink {σ : Type} (host : LinkHost σ) (path : Path) (s : σ) : Except Int Path :=
  (host.readlink path s).map fun text => (readlinkLoop text (text.length + 1) 256 []).getD []

/-! ## Messages -/

/-- `qine_strlcpy`, as the string that is in the buffer afterwards. -/
def strlcpy (maxlen : Nat) (src : Path) : Path := if src.length + 1 < maxlen then src else src.take (maxlen - 1)

/-- `QnxMsg::io::stat`, without what stays 0. -/
structure QnxStat where
  ino : Nat
  dev : Nat
  size : Int
  rdev : Nat
  mtime : Int
  atime : Int
  ctime : Int
  mode : Nat
  uid : Nat
  gid : Nat
  nlink : Nat
  deriving DecidableEq, Repr

/-- The reply of a failed `io_stat`. -/
def QnxStat.clear : QnxStat := ⟨0, 0, 0, 0, 0, 0, 0, 0, 0, 0, 0⟩

/-- The types of files, with those the guest is shown. `S_IFMT` of anything else is a character device. -/
def fileTypes : List (Nat × Nat) :=
  [(0o010000, 0x1000), (0o020000, 0x2000), (0o040000, 0x4000), (0o060000, 0x6000), (0o100000, 0x8000),
    (0o120000, 0xA000), (0o140000, 0xC000)]

/-- The special bits of a mode, with those the guest is shown. -/
def modeBits : List (Nat × Nat) := [(0o4000, 0o4000), (0o2000, 0o2000), (0o1000, 0o1000)]

/-- The mode `transfer_stat` makes. -/
def transferMode (mode : Nat) : Nat :=
  let type := ((fileTypes.find? (·.1 = mode &&& sIfmt)).map (·.2)).getD 0x2000
  modeBits.foldl (fun acc bit => if mode &&& bit.1 ≠ 0 then acc ||| bit.2 else acc) (mode &&& accessperms ||| type)

/-- `MainHandler::transfer_stat`. -/
def transferStat (src : HostStat) : QnxStat where
  ino := src.ino % 2 ^ 32
  dev := src.dev % 2 ^ 32
  size := Signed.wrap 32 src.size
  rdev := src.rdev % 2 ^ 32
  mtime := Signed.wrap 32 src.mtime
  atime := Signed.wrap 32 src.atime
  ctime := Signed.wrap 32 src.ctime
  mode := transferMode src.mode
  uid := src.uid % 2 ^ 16
  gid := src.gid % 2 ^ 16
  nlink := src.nlink % 2 ^ 16

namespace PathMapper

variable {σ : Type} (host : LinkHost σ) (pm : PathMapper)

/-- The text of a new link. -/
def linkText (target : Path) : Except Fault Path :=
  if isAbs target then (·.hostPath) <$> pm.mapPathToHost target false else .ok target

/-- What a guest gets to see of a text, but for the size of the buffer. -/
def linkName (text : Path) : Except Fault Path :=
  if isAbs text then (·.qnxPath) <$> pm.mapPathToQnx text false else .ok text

/-- `MainHandler::fsys_mkspecial`. -/
def fsysMkspecial (mode : Nat) (path target : Path) (s : σ) : Except Fault (Int × σ) := do
  let p ← pm.mapPathToHost path true
  if mode &&& sIfmt = sIfdir then
    match host.mkdir p.hostPath (mode &&& allperms) s with
    | .ok s' => return (qeok, s')
    | .error e => return (mapErrno e, s)
  else if mode &&& sIflnk ≠ 0 then
    let text ← pm.linkText target
    match host.symlink text p.hostPath s with
    | .ok s' => return (qeok, s')
    | .error e => return (mapErrno e, s)
  else return (qenosys, s)

/-- `MainHandler::fsys_readlink`: the status, and the path of the reply. -/
def fsysReadlink (path : Path) (s : σ) : Except Fault (Int × Path) := do
  let linkPath ← pm.mapPathToHost path true
  match fsutilReadlink host linkPath.hostPath s with
  | .error e => return (mapErrno e, [])
  | .ok targetPathRaw =>
    let name ← pm.linkName (cString targetPathRaw)
    return (qeok, strlcpy 256 name)

/-- `MainHandler::io_stat`. -/
def ioStat (mode : Nat) (path : Path) (s : σ) : Except Fault (Int × QnxStat) := do
  let p ← pm.mapPathToHost path true
  match if mode &&& sIflnk ≠ 0 then host.lstat p.hostPath s else host.stat p.hostPath s with
  | .error e => return (mapErrno e, .clear)
  | .ok sb =>
    let st := transferStat sb
    if sb.mode &&& sIfmt = sIflnk then
      match fsutilReadlink host p.hostPath s with
      | .error _ => return (qeok, st)
      | .ok path =>
        if path.isEmpty ∨ isAbs path then
          let q ← pm.mapPathToQnx (cString path) false
          return (qeok, { st with size := Signed.wrap 32 q.qnxPath.length })
        else return (qeok, st)
    else return (qeok, st)

end PathMapper

/-! ## Modes -/

/-- A bit that is copied. -/
theorem or_bit (mode acc k : Nat) :
    (if mode &&& 2 ^ k ≠ 0 then acc ||| 2 ^ k else acc) = acc ||| (mode &&& 2 ^ k) := by
  have h := Nat.and_two_pow mode k
  cases hbit : mode.testBit k with
  | false => simp [h, hbit]
  | true => simp [h, hbit]

theorem find_fileTypes {type : Nat} (h : type ∈ fileTypes.map (·.1)) :
    (fileTypes.find? (·.1 = type)).map (·.2) = some type := by
  revert type
  decide

/-- The mode of a file whose type has a name is the host's. -/
theorem transferMode_eq {mode : Nat} (h : mode &&& sIfmt ∈ fileTypes.map (·.1)) :
    transferMode mode = mode % 2 ^ 16 := by
  have hbit := or_bit mode
  unfold transferMode
  dsimp only
  rw [find_fileTypes h]
  simp only [modeBits, List.foldl]
  rw [show (0o4000 : Nat) = 2 ^ 11 from rfl, show (0o2000 : Nat) = 2 ^ 10 from rfl,
    show (0o1000 : Nat) = 2 ^ 9 from rfl, hbit, hbit, hbit]
  -- together the masks are all sixteen bits
  simp only [← Nat.and_or_distrib_left, Option.getD_some]
  exact Nat.and_two_pow_sub_one_eq_mod mode 16

/-! ## Reading a link -/

section

variable {text dst s : Path} {size fuel n : Nat}

end

/-! ## Runs -/

/-- A special file that was asked for, and the answer. -/
structure SpecialFile where
  mode : Nat
  path : Path
  target : Path
  status : Int

namespace LinkHost

variable {σ : Type}

/-- A link with this text. -/
def IsLink (host : LinkHost σ) (path text : Path) (s : σ) : Prop :=
  host.readlink path s = .ok text ∧ nul ∉ text ∧ text ≠ [] ∧
    ∃ sb, host.lstat path s = .ok sb ∧ sb.mode &&& sIfmt = sIflnk ∧ sb.size = text.length

/-- Guests make special files, and anything else happens that leaves the links alone. -/
inductive Runs (host : LinkHost σ) (pm : PathMapper) : σ → List SpecialFile → σ → Prop
  | nil (s : σ) : Runs host pm s [] s
  | mkspecial {mode : Nat} {path target : Path} {status : Int} {s s' s'' : σ} {hist : List SpecialFile}
      (h : pm.fsysMkspecial host mode path target s = .ok (status, s')) (hrest : Runs host pm s' hist s'') :
      Runs host pm s (⟨mode, path, target, status⟩ :: hist) s''
  | other {s s' s'' : σ} {hist : List SpecialFile} (h : ∀ p u, host.IsLink p u s → host.IsLink p u s')
      (hrest : Runs host pm s' hist s'') : Runs host pm s hist s''

end LinkHost

namespace PathMapper

variable {σ : Type} {host : LinkHost σ} {pm : PathMapper} {s s' : σ} {mode : Nat} {path target text name : Path}
  {status : Int} {p : PathInfo} {hist : List SpecialFile}

end PathMapper

end Qine
