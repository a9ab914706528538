import Mathlib.Data.Bool.AllAny
import Qine.Lib.Tables
import Qine.Fd.Handlers

/-!
# Status flags of a file

`io_fcntl_flags` (`main_handler.cpp`) merges the flags of a descriptor with the wanted ones and sets them with
`fcntl(fd, F_SETFL)`, without the third argument; so the host gets what happens to be in its place. The flags
in the reply are translated from the answer to that call, because the variable they are read into afterwards
is another one of the same name. `ioFcntlFlags_iff` says when that makes no difference.
-/

namespace Qine

/-- The flags that `F_SETFL` changes: `O_APPEND`, `O_NONBLOCK`, `O_ASYNC`, `O_DIRECT` and `O_NOATIME`. -/
def setflMask : BitVec 32 := 0o1066000

/-- The host's flags of open descriptors. -/
structure FlagHost where
  /-- the flags, or the error of a call on a descriptor that is not open -/
  flags : Nat → Except Int (BitVec 32)
  /-- the error with which the host refuses flags -/
  refuse : Nat → BitVec 32 → Option Int

namespace FlagHost

/-- `fcntl(fd, F_GETFL)`. -/
def getfl (host : FlagHost) (fd : Nat) : Except Int (BitVec 32) := host.flags fd

/-- The host with other flags for a descriptor. -/
def put (host : FlagHost) (fd : Nat) (flags : BitVec 32) : FlagHost :=
  { host with flags := Function.update host.flags fd (.ok flags) }

theorem put_flags (host : FlagHost) (fd : Nat) (flags : BitVec 32) : (host.put fd flags).flags fd = .ok flags :=
  Function.update_self _ _ _

/-- `fcntl(fd, F_SETFL, arg)`. -/
def setfl (host : FlagHost) (fd : Nat) (arg : BitVec 32) : Except Int FlagHost := do
  let old ← host.flags fd
  match host.refuse fd arg with
  | some errno => throw errno
  | none => return host.put fd ((arg &&& setflMask) ||| (old &&& ~~~setflMask))

end FlagHost

/-- `QnxMsg::io::fcntl_flags_reply`. -/
structure FcntlReply where
  status : Int
  flags : BitVec 16
  deriving DecidableEq, Repr

namespace FdHandler

/-- The flags that the reply can tell: QNX and host flags. -/
def fileFlagsMap : List (BitVec 16 × BitVec 32) :=
  [(0o1, 0o1),          -- QO_WRONLY
   (0o2, 0o2),          -- QO_RDWR
   (0o10, 0o2000),      -- QO_APPEND
   (0o400, 0o100),      -- QO_CREAT
   (0o1000, 0o1000),    -- QO_TRUNC
   (0o4000, 0o400),     -- QO_NOCTTY
   (0o2000, 0o200),     -- QO_EXCL
   (0o40, 0o4010000),   -- QO_SYNC
   (0o20, 0o10000)]     -- QO_DSYNC

/-- The last part of `io_fcntl_flags`. -/
def fileFlagsToQnx (r : BitVec 32) : BitVec 16 := Flags.collect fileFlagsMap (r &&& · ≠ 0) 0

/-- `MainHandler::io_fcntl_flags`; `arg` is what `fcntl` finds in the place of its third argument. -/
def ioFcntlFlags (host : FlagHost) (arg : BitVec 32) (fd : Nat) (mask bits : BitVec 16) :
    FcntlReply × FlagHost :=
  match host.getfl fd with
  | .error errno => (⟨mapErrno errno, 0⟩, host)
  | .ok r =>
    if mask ≠ 0 then
      -- the merged flags are overwritten by the answer to `F_SETFL`
      let _r := (r &&& ~~~mapFileFlagsToHost (mask.setWidth 32)) ||| mapFileFlagsToHost (bits.setWidth 32)
      match host.setfl fd arg with
      | .error errno => (⟨mapErrno errno, 0⟩, host)
      | .ok host =>
        let r := 0
        match host.getfl fd with
        | .error errno => (⟨mapErrno errno, 0⟩, host)
        | .ok _ => (⟨qeok, fileFlagsToQnx r⟩, host)
    else (⟨qeok, fileFlagsToQnx r⟩, host)

/-! ## What a request asks for -/

/-- The flags after the request: those that can be changed and are in the mask are the wanted ones. -/
def wantedFlags (mask bits : BitVec 16) (old : BitVec 32) : BitVec 32 :=
  let changed := mapFileFlagsToHost (mask.setWidth 32) &&& setflMask
  (old &&& ~~~changed) ||| (mapFileFlagsToHost (bits.setWidth 32) &&& changed)

/-- The QNX flags all of whose host flags are set. -/
def qnxFlags (flags : BitVec 32) : BitVec 16 := Flags.collect fileFlagsMap (fun f => flags &&& f = f) 0

/-- The answer to a request whose host calls succeed, and the flags it leaves. -/
structure FlagsUpdated (mask bits : BitVec 16) (old : BitVec 32) (reply : FcntlReply) (new : BitVec 32) : Prop where
  status : reply.status = qeok
  updated : new = wantedFlags mask bits old
  reported : reply.flags = qnxFlags new

/-! ## When it is done -/

variable {host : FlagHost} {arg old : BitVec 32} {fd : Nat} {mask bits : BitVec 16}

theorem disjoint_fileFlagsMap : fileFlagsMap.Pairwise fun s s' => s.1 &&& s'.1 = 0 := by decide

theorem ne_zero_fileFlagsMap : ∀ s ∈ fileFlagsMap, s.1 ≠ 0 := List.all_iff_forall_prop.mp (by decide)

/-- Only `O_SYNC` is more than one bit, one of which is `O_DSYNC`. -/
theorem fileFlagsMap_cases : ∀ s ∈ fileFlagsMap, s = (0o40, 0o4010000) ∨
    s.2 ∈ (List.range 32).map (BitVec.twoPow 32) := List.all_iff_forall_prop.mp (by decide)

theorem fileFlagsToQnx_iff {r : BitVec 32} : fileFlagsToQnx r = qnxFlags r ↔
    r &&& 0o4010000 = 0 ∨ r &&& 0o4010000 = 0o4010000 := by
  unfold fileFlagsToQnx qnxFlags
  rw [Flags.collect_eq_iff disjoint_fileFlagsMap ne_zero_fileFlagsMap]
  constructor
  · intro h
    have hsync := h (0o40, 0o4010000) (by decide)
    by_cases hzero : r &&& 0o4010000 = 0
    · exact .inl hzero
    · exact .inr (hsync.mp hzero)
  · intro h s hs
    have hflag : r &&& s.2 = 0 ∨ r &&& s.2 = s.2 := by
      rcases fileFlagsMap_cases s hs with rfl | hone
      · exact h
      · obtain ⟨i, -, heq⟩ := List.mem_map.mp hone
        rw [← heq]
        exact Flags.isFlag_twoPow r
    have hnonzero : ∀ s ∈ fileFlagsMap, s.2 ≠ 0 := List.all_iff_forall_prop.mp (by decide)
    have hne : s.2 ≠ 0 := hnonzero s hs
    rcases hflag with hzero | hall
    · rw [hzero]
      exact iff_of_false (not_not.mpr rfl) hne.symm
    · rw [hall]
      exact iff_of_true hne rfl

theorem qnxFlags_eq_zero_iff {r : BitVec 32} : fileFlagsToQnx 0 = qnxFlags r ↔
    ∀ s ∈ fileFlagsMap, r &&& s.2 ≠ s.2 := by
  unfold fileFlagsToQnx qnxFlags
  rw [Flags.collect_eq_iff disjoint_fileFlagsMap ne_zero_fileFlagsMap]
  refine forall₂_congr fun s _ => ?_
  simp

theorem wantedFlags_zero : wantedFlags 0 bits old = old := by
  have hmap : mapFileFlagsToHost (BitVec.setWidth 32 (0 : BitVec 16)) = 0#32 := by decide
  unfold wantedFlags
  rw [hmap, BitVec.zero_and]
  show (old &&& ~~~0#32) ||| (_ &&& 0#32) = old
  rw [BitVec.and_zero, BitVec.or_zero, BitVec.not_zero, BitVec.and_allOnes]

/-- Flags that `F_SETFL` leaves alone are not asked for. -/
theorem wantedFlags_and_not : wantedFlags mask bits old &&& ~~~setflMask = old &&& ~~~setflMask := by
  apply BitVec.eq_of_getLsbD_eq
  intro i hi
  unfold wantedFlags
  simp only [BitVec.getLsbD_and, BitVec.getLsbD_or, BitVec.getLsbD_not, decide_eq_true hi, Bool.true_and]
  cases setflMask.getLsbD i <;> simp

/-- What `F_SETFL` makes of an argument is what is wanted exactly if the argument has the wanted flags. -/
theorem setfl_eq_iff {w : BitVec 32} (hw : w &&& ~~~setflMask = old &&& ~~~setflMask) :
    (arg &&& setflMask) ||| (old &&& ~~~setflMask) = w ↔ arg &&& setflMask = w &&& setflMask := by
  have hbit : ∀ i < 32, w.getLsbD i = (w.getLsbD i && setflMask.getLsbD i || old.getLsbD i && !setflMask.getLsbD i) := by
    intro i hi
    have heq : (w &&& ~~~setflMask).getLsbD i = (old &&& ~~~setflMask).getLsbD i := by rw [hw]
    simp only [BitVec.getLsbD_and, BitVec.getLsbD_not, decide_eq_true hi, Bool.true_and] at heq
    cases hm : setflMask.getLsbD i <;> simp_all
  constructor
  · intro h
    rw [← h]
    apply BitVec.eq_of_getLsbD_eq
    intro i hi
    simp only [BitVec.getLsbD_and, BitVec.getLsbD_or, BitVec.getLsbD_not, decide_eq_true hi, Bool.true_and]
    cases setflMask.getLsbD i <;> simp
  · intro h
    apply BitVec.eq_of_getLsbD_eq
    intro i hi
    have heq : (arg &&& setflMask).getLsbD i = (w &&& setflMask).getLsbD i := by rw [h]
    rw [BitVec.getLsbD_or, heq, hbit i hi]
    simp only [BitVec.getLsbD_and, BitVec.getLsbD_not, decide_eq_true hi, Bool.true_and]

/-- Flags are read, or updated and reported, as the request asks for exactly if none are to be updated and
`O_DSYNC` is not set without the rest of `O_SYNC`, or the argument that is not passed has the wanted flags and
there is nothing to report of them. -/
theorem ioFcntlFlags_iff (hold : host.flags fd = .ok old) (hwilling : host.refuse fd arg = none) :
    ∃ reply new host', ioFcntlFlags host arg fd mask bits = (reply, host') ∧ host'.flags fd = .ok new ∧
      (FlagsUpdated mask bits old reply new ↔
        if mask = 0 then old &&& 0o4010000 = 0 ∨ old &&& 0o4010000 = 0o4010000
        else arg &&& setflMask = wantedFlags mask bits old &&& setflMask ∧
          ∀ s ∈ fileFlagsMap, wantedFlags mask bits old &&& s.2 ≠ s.2) := by
  have hget : host.getfl fd = .ok old := hold
  unfold ioFcntlFlags
  rw [hget]
  dsimp only
  by_cases hmask : mask = 0
  · rw [if_neg (not_not.mpr hmask), if_pos hmask]
    refine ⟨_, old, host, rfl, hold, ?_⟩
    rw [← fileFlagsToQnx_iff, hmask]
    exact ⟨fun h => h.reported, fun h => ⟨rfl, wantedFlags_zero.symm, h⟩⟩
  · have hset : host.setfl fd arg = .ok (host.put fd ((arg &&& setflMask) ||| (old &&& ~~~setflMask))) := by
      unfold FlagHost.setfl
      simp only [hold, bind, Except.bind, hwilling]
      rfl
    rw [if_pos hmask, if_neg hmask, hset]
    dsimp only
    rw [FlagHost.getfl, FlagHost.put_flags]
    refine ⟨_, _, _, rfl, FlagHost.put_flags _ _ _, ?_⟩
    rw [← setfl_eq_iff wantedFlags_and_not, ← qnxFlags_eq_zero_iff]
    constructor
    · intro h
      exact ⟨h.updated, h.updated ▸ h.reported⟩
    · rintro ⟨h₁, h₂⟩
      exact ⟨rfl, h₁, h₁ ▸ h₂⟩

/-- A descriptor with the given flags. -/
def oneFile (flags : BitVec 32) : FlagHost where
  flags _ := .ok flags
  refuse _ _ := none

/-- The flags of a descriptor for writing are read. -/
theorem ioFcntlFlags_read : ∃ reply new host', ioFcntlFlags (oneFile 1) 0 3 0 0 = (reply, host') ∧
    host'.flags 3 = .ok new ∧ FlagsUpdated 0 0 1 reply new := by
  obtain ⟨reply, new, host', hrun, hnew, hiff⟩ := @ioFcntlFlags_iff (oneFile 1) 0 1 3 0 0 rfl rfl
  exact ⟨reply, new, host', hrun, hnew, hiff.mpr (.inl (by decide))⟩

/-- Appending is switched on for a descriptor for writing, with nothing in the place of the argument: the
flags stay as they are, and the reply has none. -/
theorem ioFcntlFlags_append :
    (ioFcntlFlags (oneFile 1) 0 3 0o10 0o10).1 = ⟨qeok, 0⟩ ∧
      (ioFcntlFlags (oneFile 1) 0 3 0o10 0o10).2.flags 3 = .ok 1 ∧
      wantedFlags 0o10 0o10 1 = 0o2001 ∧ ¬ FlagsUpdated 0o10 0o10 1 ⟨qeok, 0⟩ 1 := by
  refine ⟨by decide, by rfl, by decide, fun h => ?_⟩
  exact absurd h.updated (by decide)

end FdHandler
end Qine
