import Mathlib.Data.Bool.AllAny
import Qine.Lib.Tables
import Qine.Types

/-!
# Terminal settings

`tcgetattr` and `tcsetattr` messages (`term_handler.cpp`) translate between the host's `termios` and the
QNX one along tables, and `dev_mode` changes some of the host's flags directly.

* Control characters have different places in the two structures. Both handlers store at the QNX place and
  read at the host's, which is right in `handle_tcgetattr` only (`controlChars_iff`).
* The size of a character is a field of two bits, which the tables treat like a flag (`modeFlags_iff`).
* `dev_mode` clears all four of its flags whatever the mask says, and sets two of them by their QNX values in
  the wrong word (`devMode_iff`).
-/

namespace Qine

/-! ## The two structures -/

/-- The host's `struct termios`; the line discipline is not touched. -/
structure HostTermios where
  iflag : BitVec 32
  oflag : BitVec 32
  cflag : BitVec 32
  lflag : BitVec 32
  /-- the control characters, by index -/
  cc : Nat → Byte
  ispeed : BitVec 32
  ospeed : BitVec 32

/-- `Qnx::termios`, as far as the handlers look at it. -/
structure QnxTermios where
  iflag : BitVec 32
  oflag : BitVec 32
  cflag : BitVec 32
  lflag : BitVec 32
  cc : Nat → BitVec 16
  ispeed : BitVec 32
  ospeed : BitVec 32

/-- `CC_MAP`: places in the QNX and the host's array. -/
def ccMap : List (Nat × Nat) :=
  [(0, 0),    -- QVINTR
   (1, 1),    -- QVQUIT
   (2, 2),    -- QVERASE
   (3, 3),    -- QVKILL
   (4, 4),    -- QVEOF
   (5, 11),   -- QVEOL
   (8, 8),    -- QVSTART
   (9, 9),    -- QVSTOP
   (10, 10),  -- QVSUSP
   (16, 6),   -- QVMIN
   (17, 5)]   -- QVTIME

/-- `IFLAG_MAP`: QNX and host flags. -/
def iflagMap : List (BitVec 32 × BitVec 32) :=
  [(0x0001, 0x0001),  -- QIGNBRK
   (0x0002, 0x0002),  -- QBRKINT
   (0x0004, 0x0004),  -- QIGNPAR
   (0x0008, 0x0008),  -- QPARMRK
   (0x0010, 0x0010),  -- QINPCK
   (0x0020, 0x0020),  -- QISTRIP
   (0x0040, 0x0040),  -- QINLCR
   (0x0080, 0x0080),  -- QIGNCR
   (0x0100, 0x0100),  -- QICRNL
   (0x1000, 0x1000),  -- QIXOFF
   (0x0400, 0x0400)]  -- QIXON

/-- `OFLAG_MAP`. -/
def oflagMap : List (BitVec 32 × BitVec 32) := [(0x0001, 0x0001)]  -- QOPOST

/-- The first rows of `CFLAG_MAP`: the size of a character and its four values. -/
def csizeMap : List (BitVec 32 × BitVec 32) :=
  [(0x0030, 0x0030),  -- QCSIZE
   (0x0000, 0x0000),  -- QCS5
   (0x0010, 0x0010),  -- QCS6
   (0x0020, 0x0020),  -- QCS7
   (0x0030, 0x0030)]  -- QCS8

/-- The other rows of `CFLAG_MAP`. -/
def controlMap : List (BitVec 32 × BitVec 32) :=
  [(0x0040, 0x0040),  -- QCSTOPB
   (0x0080, 0x0080),  -- QCREAD
   (0x0100, 0x0100),  -- QPARENB
   (0x0200, 0x0200),  -- QPARODD
   (0x0400, 0x0400),  -- QHUPCL
   (0x0800, 0x0800)]  -- QCLOCAL

/-- `CFLAG_MAP`. -/
def cflagMap : List (BitVec 32 × BitVec 32) := csizeMap ++ controlMap

/-- `LFLAG_MAP`. -/
def lflagMap : List (BitVec 32 × BitVec 32) :=
  [(0x0001, 0x0001),  -- QISIG
   (0x0002, 0x0002),  -- QICANON
   (0x0008, 0x0008),  -- QECHO
   (0x0010, 0x0010),  -- QECHOE
   (0x0020, 0x0020),  -- QECHOK
   (0x0040, 0x0040),  -- QECHONL
   (0x0080, 0x0080),  -- QNOFLSH
   (0x0100, 0x0100),  -- QTOSTOP
   (0x8000, 0x8000)]  -- QIEXTEN

/-- `Qnx::QIHFLOW | Qnx::QOHFLOW`. -/
def qhflow : BitVec 32 := 0x0003

/-- The host's `CRTSCTS`. -/
def crtscts : BitVec 32 := 0x80000000

/-- The host's `CSIZE`. -/
def csize : BitVec 32 := 0x0030

/-- The host's `ONLCR`. -/
def onlcr : BitVec 32 := 0x0004

/-! ## Translation -/

/-- What `handle_tcgetattr` fills in. -/
def QnxTermios.fromHost (dst : QnxTermios) (attr : HostTermios) : QnxTermios where
  iflag := Flags.copy iflagMap attr.iflag dst.iflag
  oflag := Flags.copy oflagMap attr.oflag dst.oflag
  cflag := Flags.put (Flags.copy cflagMap attr.cflag dst.cflag) qhflow (attr.cflag &&& crtscts ≠ 0)
  lflag := Flags.copy lflagMap attr.lflag dst.lflag
  cc := Cells.copy ccMap (·.setWidth 16) attr.cc dst.cc
  ispeed := attr.ispeed
  ospeed := attr.ospeed

/-- What `handle_tcsetattr` makes of the settings it has read. Control characters are cut to a byte; the
places of the table are not exchanged. -/
def HostTermios.update (attr : HostTermios) (q : QnxTermios) : HostTermios where
  iflag := Flags.copy (iflagMap.map Prod.swap) q.iflag attr.iflag
  oflag := Flags.copy (oflagMap.map Prod.swap) q.oflag attr.oflag ||| onlcr
  cflag := Flags.put (Flags.copy (cflagMap.map Prod.swap) q.cflag attr.cflag) crtscts (q.cflag &&& qhflow ≠ 0)
  lflag := Flags.copy (lflagMap.map Prod.swap) q.lflag attr.lflag
  cc := Cells.copy ccMap (·.setWidth 8) q.cc attr.cc
  ispeed := q.ispeed
  ospeed := q.ospeed

/-! ## The handlers -/

/-- The terminals of the host. -/
structure Terminals where
  /-- the terminal behind a descriptor, or the error of a call on it -/
  terminal : Int → Except Int Nat
  attrs : Nat → HostTermios
  /-- the error with which the host refuses new settings -/
  refuse : Int → Nat → HostTermios → Option Int

namespace Terminals

/-- `tcgetattr`. -/
def tcgetattr (host : Terminals) (fd : Int) : Except Int HostTermios := (host.terminal fd).map host.attrs

/-- `tcsetattr`. -/
def tcsetattr (host : Terminals) (fd : Int) (actions : Nat) (attr : HostTermios) : Except Int Terminals := do
  let t ← host.terminal fd
  match host.refuse fd actions attr with
  | some errno => throw errno
  | none => return { host with attrs := Function.update host.attrs t attr }

end Terminals

namespace TermHandler

/-- The `actions` of `handle_tcsetattr`. -/
def hostActions (qnxAction : BitVec 32) : Nat :=
  if qnxAction &&& 0x0004 ≠ 0 then 2  -- `TCSAFLUSH`
  else if qnxAction &&& 0x0002 ≠ 0 then 1  -- `TCSADRAIN`
  else 0

/-- `MainHandler::handle_tcgetattr`. -/
def handleTcgetattr (host : Terminals) (qnxFd : Int) (dst : QnxTermios) : Int × QnxTermios :=
  match host.tcgetattr qnxFd with
  | .error errno => (mapErrno errno, dst)
  | .ok attr => (qeok, dst.fromHost attr)

/-- `MainHandler::handle_tcsetattr`. The settings are read from the descriptor in the message, and written to
the one the message was sent to. -/
def handleTcsetattr (host : Terminals) (fd qnxFd : Int) (qnxAttr : QnxTermios) (qnxAction : BitVec 32) :
    Int × Terminals :=
  match host.tcgetattr qnxFd with
  | .error errno => (mapErrno errno, host)
  | .ok attr =>
    match host.tcsetattr fd (hostActions qnxAction) (attr.update qnxAttr) with
    | .error errno => (mapErrno errno, host)
    | .ok host => (qeok, host)

end TermHandler

/-- Both descriptors are of terminal `t`, and the host does what it is asked for. -/
structure Terminals.Serves (host : Terminals) (fd qnxFd : Int) (t : Nat) : Prop where
  fd : host.terminal fd = .ok t
  qnxFd : host.terminal qnxFd = .ok t
  willing : ∀ fd actions attr, host.refuse fd actions attr = none

namespace TermHandler

variable {host : Terminals} {fd qnxFd : Int} {t : Nat} {q dst : QnxTermios} {action : BitVec 32}

theorem handleTcgetattr_eq (h : host.terminal qnxFd = .ok t) :
    handleTcgetattr host qnxFd dst = (qeok, dst.fromHost (host.attrs t)) := by
  unfold handleTcgetattr Terminals.tcgetattr
  rw [h]
  rfl

theorem handleTcsetattr_eq (h : host.Serves fd qnxFd t) : handleTcsetattr host fd qnxFd q action =
    (qeok, { host with attrs := Function.update host.attrs t ((host.attrs t).update q) }) := by
  have hget : host.tcgetattr qnxFd = .ok (host.attrs t) := by
    unfold Terminals.tcgetattr
    rw [h.qnxFd]
    rfl
  have hset (attr : HostTermios) : host.tcsetattr fd (hostActions action) attr =
      .ok { host with attrs := Function.update host.attrs t attr } := by
    unfold Terminals.tcsetattr
    rw [h.fd]
    simp only [bind, Except.bind, h.willing]
    rfl
  unfold handleTcsetattr
  rw [hget]
  dsimp only
  rw [hset]

end TermHandler

/-! ## Control characters -/

section ControlChars

variable {h : HostTermios} {q dst : QnxTermios} {i k : Nat}

theorem update_cc_of_mem (hr : (i, k) ∈ ccMap) : (h.update q).cc i = (q.cc k).setWidth 8 :=
  Cells.copy_of_mem (by decide) hr

theorem update_cc_of_not_mem (hi : i ∉ ccMap.map Prod.fst) : (h.update q).cc i = h.cc i :=
  Cells.copy_of_not_mem hi

theorem fromHost_cc_of_mem (hr : (i, k) ∈ ccMap) : (dst.fromHost h).cc i = (h.cc k).setWidth 16 :=
  Cells.copy_of_mem (by decide) hr

theorem fromHost_cc_of_not_mem (hi : i ∉ ccMap.map Prod.fst) : (dst.fromHost h).cc i = dst.cc i :=
  Cells.copy_of_not_mem hi

/-- The places that differ are those of `VEOL`, `VMIN` and `VTIME`. -/
theorem ccMap_cases : ∀ r ∈ ccMap, r.1 = r.2 ∨ r = (5, 11) ∨ r = (16, 6) ∨ r = (17, 5) := by decide

theorem setWidth_byte (b : Byte) : (b.setWidth 16).setWidth 8 = b := by
  rw [BitVec.setWidth_setWidth_of_le _ (by decide), BitVec.setWidth_eq]

theorem byte_setWidth {v : BitVec 16} (hv : v.toNat < 256) : (v.setWidth 8).setWidth 16 = v := by
  apply BitVec.eq_of_toNat_eq
  rw [BitVec.toNat_setWidth, BitVec.toNat_setWidth]
  omega

/-- Characters that were set are read back. -/
theorem readBack_iff (hq : ∀ i, (q.cc i).toNat < 256) :
    (∀ r ∈ ccMap, (dst.fromHost (h.update q)).cc r.1 = q.cc r.1) ↔
      q.cc 5 = (h.cc 11).setWidth 16 ∧ q.cc 16 = (h.cc 6).setWidth 16 ∧ q.cc 17 = q.cc 11 := by
  have heol : (dst.fromHost (h.update q)).cc 5 = (h.cc 11).setWidth 16 := by
    rw [fromHost_cc_of_mem (show (5, 11) ∈ ccMap by decide), update_cc_of_not_mem (by decide)]
  have hmin : (dst.fromHost (h.update q)).cc 16 = (h.cc 6).setWidth 16 := by
    rw [fromHost_cc_of_mem (show (16, 6) ∈ ccMap by decide), update_cc_of_not_mem (by decide)]
  have htime : (dst.fromHost (h.update q)).cc 17 = q.cc 11 := by
    rw [fromHost_cc_of_mem (show (17, 5) ∈ ccMap by decide),
      update_cc_of_mem (show (5, 11) ∈ ccMap by decide), byte_setWidth (hq 11)]
  constructor
  · intro hall
    exact ⟨(hall (5, 11) (by decide)).symm.trans heol, (hall (16, 6) (by decide)).symm.trans hmin,
      (hall (17, 5) (by decide)).symm.trans htime⟩
  · rintro ⟨h₁, h₂, h₃⟩ ⟨i, k⟩ hr
    rcases ccMap_cases (i, k) hr with heq | heq | heq | heq
    · cases heq
      rw [fromHost_cc_of_mem hr, update_cc_of_mem hr, byte_setWidth (hq i)]
    · cases heq
      exact heol.trans h₁.symm
    · cases heq
      exact hmin.trans h₂.symm
    · cases heq
      exact htime.trans h₃.symm

/-- Characters that are not in the table are kept. -/
theorem outside_iff : (∀ i, i ∉ ccMap.map Prod.snd → (h.update q).cc i = h.cc i) ↔
    (q.cc 6).setWidth 8 = h.cc 16 ∧ (q.cc 5).setWidth 8 = h.cc 17 := by
  have hmin : (h.update q).cc 16 = (q.cc 6).setWidth 8 := update_cc_of_mem (by decide)
  have htime : (h.update q).cc 17 = (q.cc 5).setWidth 8 := update_cc_of_mem (by decide)
  constructor
  · intro hall
    exact ⟨hmin.symm.trans (hall 16 (by decide)), htime.symm.trans (hall 17 (by decide))⟩
  · rintro ⟨h₁, h₂⟩ i hi
    by_cases hfst : i ∈ ccMap.map Prod.fst
    · obtain ⟨⟨i, k⟩, hr, rfl⟩ := List.mem_map.mp hfst
      rcases ccMap_cases (i, k) hr with heq | heq | heq | heq
      · cases heq
        exact absurd (List.mem_map.mpr ⟨_, hr, rfl⟩) hi
      · cases heq
        exact absurd (by decide) hi
      · cases heq
        exact hmin.trans h₁
      · cases heq
        exact htime.trans h₂
    · exact update_cc_of_not_mem hfst

/-- Characters that were read are set to what they are. -/
theorem restored_iff : (h.update (dst.fromHost h)).cc = h.cc ↔
    (dst.cc 11).setWidth 8 = h.cc 5 ∧ (dst.cc 6).setWidth 8 = h.cc 16 ∧ h.cc 11 = h.cc 17 := by
  have htime : (h.update (dst.fromHost h)).cc 5 = (dst.cc 11).setWidth 8 := by
    rw [update_cc_of_mem (show (5, 11) ∈ ccMap by decide), fromHost_cc_of_not_mem (by decide)]
  have hmin : (h.update (dst.fromHost h)).cc 16 = (dst.cc 6).setWidth 8 := by
    rw [update_cc_of_mem (show (16, 6) ∈ ccMap by decide), fromHost_cc_of_not_mem (by decide)]
  have heol : (h.update (dst.fromHost h)).cc 17 = h.cc 11 := by
    rw [update_cc_of_mem (show (17, 5) ∈ ccMap by decide), fromHost_cc_of_mem (show (5, 11) ∈ ccMap by decide),
      setWidth_byte]
  constructor
  · intro heq
    exact ⟨htime.symm.trans (congrFun heq 5), hmin.symm.trans (congrFun heq 16), heol.symm.trans (congrFun heq 17)⟩
  · rintro ⟨h₁, h₂, h₃⟩
    funext i
    by_cases hfst : i ∈ ccMap.map Prod.fst
    · obtain ⟨⟨i, k⟩, hr, rfl⟩ := List.mem_map.mp hfst
      rcases ccMap_cases (i, k) hr with heq | heq | heq | heq
      · cases heq
        rw [update_cc_of_mem hr, fromHost_cc_of_mem hr, setWidth_byte]
      · cases heq
        exact htime.trans h₁
      · cases heq
        exact hmin.trans h₂
      · cases heq
        exact heol.trans h₃
    · exact update_cc_of_not_mem hfst

end ControlChars

open TermHandler

variable {host : Terminals} {fd qnxFd : Int} {t : Nat} {q dst : QnxTermios} {action : BitVec 32}

/-- Setting control characters and reading them, in either order. -/
structure CcRoundTrip (host : Terminals) (fd qnxFd : Int) (t : Nat) (q dst : QnxTermios) (action : BitVec 32) :
    Prop where
  readBack : ∀ r ∈ ccMap,
    (handleTcgetattr (handleTcsetattr host fd qnxFd q action).2 qnxFd dst).2.cc r.1 = q.cc r.1
  outside : ∀ i, i ∉ ccMap.map Prod.snd →
    ((handleTcsetattr host fd qnxFd q action).2.attrs t).cc i = (host.attrs t).cc i
  restored : ((handleTcsetattr host fd qnxFd (handleTcgetattr host qnxFd dst).2 action).2.attrs t).cc =
    (host.attrs t).cc

/-- The characters have the values that the exchanged places call for. -/
structure CcAgree (h : HostTermios) (q dst : QnxTermios) : Prop where
  set : q.cc 5 = (h.cc 11).setWidth 16 ∧ q.cc 16 = (h.cc 6).setWidth 16 ∧ q.cc 17 = q.cc 11
  kept : (q.cc 6).setWidth 8 = h.cc 16 ∧ (q.cc 5).setWidth 8 = h.cc 17
  given : (dst.cc 11).setWidth 8 = h.cc 5 ∧ (dst.cc 6).setWidth 8 = h.cc 16 ∧ h.cc 11 = h.cc 17

/-- Control characters make the round trips exactly if those whose places differ have the right values by
chance. -/
theorem controlChars_iff (hserves : host.Serves fd qnxFd t) (hq : ∀ i, (q.cc i).toNat < 256) :
    CcRoundTrip host fd qnxFd t q dst action ↔ CcAgree (host.attrs t) q dst := by
  have hset : ∀ q, (handleTcsetattr host fd qnxFd q action).2.attrs t = (host.attrs t).update q := by
    intro q
    rw [handleTcsetattr_eq hserves]
    exact Function.update_self _ _ _
  have hget : (handleTcgetattr (handleTcsetattr host fd qnxFd q action).2 qnxFd dst).2 =
      dst.fromHost ((host.attrs t).update q) := by
    rw [handleTcgetattr_eq (by rw [handleTcsetattr_eq hserves]; exact hserves.qnxFd), hset]
  have hread : (handleTcgetattr host qnxFd dst).2 = dst.fromHost (host.attrs t) := by
    rw [handleTcgetattr_eq hserves.qnxFd]
  constructor
  · rintro ⟨h₁, h₂, h₃⟩
    rw [hget] at h₁
    rw [hset] at h₂
    rw [hread, hset] at h₃
    exact ⟨(readBack_iff hq).mp h₁, outside_iff.mp h₂, restored_iff.mp h₃⟩
  · rintro ⟨h₁, h₂, h₃⟩
    refine ⟨?_, ?_, ?_⟩
    · rw [hget]
      exact (readBack_iff hq).mpr h₁
    · rw [hset]
      exact outside_iff.mpr h₂
    · rw [hread, hset]
      exact restored_iff.mpr h₃

/-- A terminal with all its settings zero, at every descriptor. -/
def oneTerminal (attr : HostTermios) : Terminals where
  terminal _ := .ok 0
  attrs _ := attr
  refuse _ _ _ := none

theorem oneTerminal_serves (attr : HostTermios) : (oneTerminal attr).Serves 0 0 0 :=
  ⟨rfl, rfl, fun _ _ _ => rfl⟩

/-- Settings with the given control characters. -/
def HostTermios.withChars (cc : Nat → Byte) : HostTermios := ⟨0, 0, 0, 0, cc, 0, 0⟩

def QnxTermios.withChars (cc : Nat → BitVec 16) : QnxTermios := ⟨0, 0, 0, 0, cc, 0, 0⟩

/-- All characters disabled. -/
theorem controlChars_disabled :
    CcRoundTrip (oneTerminal (.withChars fun _ => 0)) 0 0 0 (.withChars fun _ => 0) (.withChars fun _ => 0) 0 := by
  refine (controlChars_iff (oneTerminal_serves _) fun _ => (by decide : (0 : BitVec 16).toNat < 256)).mpr ⟨?_, ?_, ?_⟩ <;> decide

/-- A guest that sets `VMIN` to one reads back what was there before, and the host's `VTIME` is not what it was. -/
theorem controlChars_exchanged :
    let attr := HostTermios.withChars fun i => if i = 5 then 2 else 0
    let q := QnxTermios.withChars fun i => if i = 16 then 1 else 0
    let host := oneTerminal attr
    (∀ i, (q.cc i).toNat < 256) ∧
      (handleTcgetattr (handleTcsetattr host 0 0 q 1).2 0 (.withChars fun _ => 0)).2.cc 16 = 0 ∧
      ((handleTcsetattr host 0 0 (handleTcgetattr host 0 (.withChars fun _ => 0)).2 1).2.attrs 0).cc 5 = 0 ∧
      ¬ CcRoundTrip host 0 0 0 q (.withChars fun _ => 0) 1 := by
  intro attr q host
  have hread : (handleTcgetattr (handleTcsetattr host 0 0 q 1).2 0 (.withChars fun _ => 0)).2.cc 16 = 0 := by
    decide
  refine ⟨fun i => ?_, hread, by decide, fun h => ?_⟩
  · show (if i = 16 then (1 : BitVec 16) else 0).toNat < 256
    split <;> decide
  · cases hread.symm.trans (h.readBack (16, 6) (by decide))

/-! ## Mode flags -/

section ModeFlags

variable {h : HostTermios} {dst : QnxTermios} {src d : BitVec 32}

theorem reversible_iflagMap : Flags.Reversible iflagMap :=
  .of_twoPow (by decide) (List.all_iff_forall_prop.mp (by decide))

theorem reversible_oflagMap : Flags.Reversible oflagMap :=
  .of_twoPow (by decide) (List.all_iff_forall_prop.mp (by decide))

theorem reversible_controlMap : Flags.Reversible controlMap :=
  .of_twoPow (by decide) (List.all_iff_forall_prop.mp (by decide))

theorem reversible_lflagMap : Flags.Reversible lflagMap :=
  .of_twoPow (by decide) (List.all_iff_forall_prop.mp (by decide))

theorem isFlag_crtscts : Flags.IsFlag crtscts := @Flags.isFlag_twoPow 32 31

/-- The last row for the size of a character overwrites what the rows before it have done. -/
theorem copy_csizeMap : Flags.copy csizeMap src d = Flags.put d csize (src &&& csize ≠ 0) := by
  unfold csizeMap Flags.copy
  simp only [Flags.putAll_cons, Flags.putAll_nil]
  rw [Flags.put_put (by decide), Flags.put_put (by decide), Flags.put_put (by decide), Flags.put_put (by decide)]
  rfl

theorem map_swap_csizeMap : csizeMap.map Prod.swap = csizeMap := rfl

/-- What becomes of the control modes: the size of a character has all of its bits, or none. -/
theorem update_fromHost_cflag :
    (h.update (dst.fromHost h)).cflag = Flags.put h.cflag csize (h.cflag &&& csize ≠ 0) := by
  have hqcsize : (dst.fromHost h).cflag &&& csize ≠ 0 ↔ h.cflag &&& csize ≠ 0 := by
    show Flags.put _ _ _ &&& csize ≠ 0 ↔ _
    rw [Flags.put_and_of_disjoint (by decide), cflagMap, Flags.copy_append,
      Flags.copy_and_of_disjoint (List.all_iff_forall_prop.mp (by decide)), copy_csizeMap, Flags.put_and_self]
    by_cases hc : h.cflag &&& csize = 0
    · simp [hc]
    · simp only [ne_eq, hc, not_false_eq_true, if_true, iff_true]
      decide
  have hqflow : (dst.fromHost h).cflag &&& qhflow ≠ 0 ↔ h.cflag &&& crtscts ≠ 0 := by
    show Flags.put _ _ _ &&& qhflow ≠ 0 ↔ _
    rw [Flags.put_and_self]
    by_cases hc : h.cflag &&& crtscts = 0
    · simp [hc]
    · simp only [ne_eq, hc, not_false_eq_true, if_true, iff_true]
      decide
  have hholds : Flags.Holds controlMap h.cflag (dst.fromHost h).cflag := by
    show Flags.Holds controlMap h.cflag (Flags.put (Flags.copy cflagMap _ _) _ _)
    rw [cflagMap, Flags.copy_append]
    exact (Flags.holds_copy reversible_controlMap.disjoint).put (List.all_iff_forall_prop.mp (by decide))
  have hsize : Flags.put h.cflag csize ((dst.fromHost h).cflag &&& csize ≠ 0) =
      Flags.put h.cflag csize (h.cflag &&& csize ≠ 0) := by simp only [hqcsize]
  have hcontrol : ∀ r ∈ controlMap, csize &&& r.2 = 0 := List.all_iff_forall_prop.mp (by decide)
  show Flags.put (Flags.copy (cflagMap.map Prod.swap) _ _) _ _ = _
  rw [cflagMap, List.map_append, map_swap_csizeMap, Flags.copy_append, copy_csizeMap, hsize,
    hholds.copy_swap reversible_controlMap fun r hr => Flags.put_and_of_disjoint (hcontrol r hr),
    Flags.put_eq_self_iff, Flags.put_and_of_disjoint (by decide)]
  by_cases hflow : h.cflag &&& crtscts = 0
  · rw [if_neg fun hq => hqflow.mp hq hflow, hflow]
  · rw [if_pos (hqflow.mpr hflow)]
    exact (isFlag_crtscts _).resolve_left hflow

theorem update_fromHost_iflag : (h.update (dst.fromHost h)).iflag = h.iflag :=
  Flags.copy_swap_copy reversible_iflagMap

theorem update_fromHost_oflag : (h.update (dst.fromHost h)).oflag = h.oflag ||| onlcr :=
  congrArg (· ||| onlcr) (Flags.copy_swap_copy reversible_oflagMap)

theorem update_fromHost_lflag : (h.update (dst.fromHost h)).lflag = h.lflag :=
  Flags.copy_swap_copy reversible_lflagMap

end ModeFlags

/-- The modes are the same, except that `ONLCR` is set. -/
structure ModesKept (h h' : HostTermios) : Prop where
  iflag : h'.iflag = h.iflag
  oflag : h'.oflag = h.oflag ||| onlcr
  cflag : h'.cflag = h.cflag
  lflag : h'.lflag = h.lflag

/-- Setting the modes that were read keeps them exactly if characters have five bits or eight. -/
theorem modeFlags_iff (hserves : host.Serves fd qnxFd t) :
    ModesKept (host.attrs t)
        ((handleTcsetattr host fd qnxFd (handleTcgetattr host qnxFd dst).2 action).2.attrs t) ↔
      (host.attrs t).cflag &&& csize = 0 ∨ (host.attrs t).cflag &&& csize = csize := by
  rw [handleTcgetattr_eq hserves.qnxFd, handleTcsetattr_eq hserves]
  dsimp only
  rw [Function.update_self]
  have hcflag : ((host.attrs t).update (dst.fromHost (host.attrs t))).cflag = (host.attrs t).cflag ↔
      (host.attrs t).cflag &&& csize = 0 ∨ (host.attrs t).cflag &&& csize = csize := by
    rw [update_fromHost_cflag, Flags.put_eq_self_iff]
    by_cases hsize : (host.attrs t).cflag &&& csize = 0
    · simp [hsize]
    · rw [if_pos hsize, or_iff_right hsize]
  exact ⟨fun h => hcflag.mp h.cflag,
    fun h => ⟨update_fromHost_iflag, update_fromHost_oflag, hcflag.mpr h, update_fromHost_lflag⟩⟩

/-- Settings with the given control modes. -/
def HostTermios.withControl (cflag : BitVec 32) : HostTermios := ⟨0, 0, cflag, 0, fun _ => 0, 0, 0⟩

/-- Eight bits, the receiver enabled, and flow control. -/
theorem modeFlags_eight_bits :
    let host := oneTerminal (.withControl 0x800000B0)
    ModesKept (host.attrs 0)
      ((handleTcsetattr host 0 0 (handleTcgetattr host 0 (.withChars fun _ => 0)).2 1).2.attrs 0) := by
  intro host
  exact (modeFlags_iff (oneTerminal_serves _)).mpr (.inr (by decide))

/-- Characters of seven bits become characters of eight. -/
theorem modeFlags_seven_bits :
    let host := oneTerminal (.withControl 0x000000A0)
    let attr := (handleTcsetattr host 0 0 (handleTcgetattr host 0 (.withChars fun _ => 0)).2 1).2.attrs 0
    attr.cflag = 0x000000B0 ∧ ¬ ModesKept (host.attrs 0) attr := by
  intro host attr
  have hcflag : attr.cflag = 0x000000B0 := by decide
  exact ⟨hcflag, fun h => absurd (hcflag.symm.trans h.cflag) (by decide)⟩

/-! ## Modes of a device -/

namespace TermHandler

/-- `Qnx::DEV_ECHO`. -/
def devEcho : BitVec 16 := 0x0001

/-- `Qnx::DEV_EDIT`. -/
def devEdit : BitVec 16 := 0x0002

/-- `Qnx::DEV_ISIG`. -/
def devIsig : BitVec 16 := 0x0004

/-- `Qnx::DEV_OPOST`. -/
def devOpost : BitVec 16 := 0x0008

/-- The host's `ECHO`. -/
def echo : BitVec 32 := 0x0008

/-- The host's `ICANON`. -/
def icanon : BitVec 32 := 0x0002

/-- The host's `ISIG`. -/
def isig : BitVec 32 := 0x0001

/-- The host's `OPOST`, among the output modes. -/
def opost : BitVec 32 := 0x0001

/-- The host's `ICRNL | IGNCR | INLCR`. -/
def crnl : BitVec 32 := 0x01C0

/-- `m_oldmode` as `dev_mode` computes it. -/
def oldMode (ts : HostTermios) : BitVec 16 :=
  (if ts.lflag &&& echo ≠ 0 then devEcho else 0) ||| (if ts.lflag &&& icanon ≠ 0 then devEdit else 0) |||
    (if ts.lflag &&& isig ≠ 0 then devIsig else 0) ||| (if ts.oflag &&& opost ≠ 0 then devOpost else 0)

/-- The part of `dev_mode` for one bit of the mask: flags to clear, and flags to set. -/
def changeMode (mode mask bit : BitVec 16) (clear set : BitVec 32) (lflag : BitVec 32) : BitVec 32 :=
  if mask &&& bit ≠ 0 then
    if mode &&& bit ≠ 0 then (lflag &&& ~~~clear) ||| set else lflag &&& ~~~clear
  else lflag

/-- The settings `dev_mode` hands to `tcsetattr`. All four flags are cleared first. The last two parts set
the QNX values of the bits, and the last one is about local modes too. -/
def devModeSettings (mode mask : BitVec 16) (ts : HostTermios) : HostTermios :=
  let lflag := ts.lflag &&& ~~~(echo ||| icanon ||| isig)
  let lflag := changeMode mode mask devEcho echo echo lflag
  let lflag := changeMode mode mask devEdit icanon icanon lflag
  let lflag := changeMode mode mask devIsig isig (devIsig.setWidth 32) lflag
  let lflag := changeMode mode mask devOpost opost (devOpost.setWidth 32) lflag
  { ts with
    iflag := if mask &&& devEdit ≠ 0 then ts.iflag &&& ~~~crnl else ts.iflag
    oflag := ts.oflag &&& ~~~opost
    lflag := lflag }

/-- The bits in the mask are as in `mode`, and all else is as before, but for the treatment of line ends if
editing is in the mask. -/
structure MaskedUpdate (mode mask : BitVec 16) (ts ts' : HostTermios) : Prop where
  mode : oldMode ts' = (oldMode ts &&& ~~~mask) ||| (mode &&& mask)
  iflag : ts'.iflag &&& ~~~crnl = ts.iflag &&& ~~~crnl
  lineEnds : mask &&& devEdit = 0 → ts'.iflag = ts.iflag
  oflag : ts'.oflag &&& ~~~opost = ts.oflag &&& ~~~opost
  cflag : ts'.cflag = ts.cflag
  lflag : ts'.lflag &&& ~~~(echo ||| icanon ||| isig) = ts.lflag &&& ~~~(echo ||| icanon ||| isig)
  cc : ts'.cc = ts.cc
  speeds : ts'.ispeed = ts.ispeed ∧ ts'.ospeed = ts.ospeed

variable {ts : HostTermios} {mode mask : BitVec 16} {i : Nat}

/-- A bit of a word that is set on the condition that a flag of another word is. -/
theorem getLsbD_flag {x : BitVec 32} {k j : Nat} (hk : k < 32) (hj : j < 16) :
    (if x &&& BitVec.twoPow 32 k ≠ 0 then BitVec.twoPow 16 j else 0).getLsbD i =
      (x.getLsbD k && decide (j = i)) := by
  by_cases hx : x.getLsbD k = true
  · rw [if_pos ((Flags.and_twoPow_ne_zero hk).mpr hx), BitVec.getLsbD_twoPow, hx]
    simp [hj]
  · rw [if_neg (mt (Flags.and_twoPow_ne_zero hk).mp hx), Bool.eq_false_iff.mpr hx]
    simp

theorem getLsbD_oldMode : (oldMode ts).getLsbD i =
    (ts.lflag.getLsbD 3 && decide (0 = i) || ts.lflag.getLsbD 1 && decide (1 = i) ||
      ts.lflag.getLsbD 0 && decide (2 = i) || ts.oflag.getLsbD 0 && decide (3 = i)) := by
  have hecho : (if ts.lflag &&& echo ≠ 0 then devEcho else 0).getLsbD i =
      (ts.lflag.getLsbD 3 && decide (0 = i)) := @getLsbD_flag i ts.lflag 3 0 (by decide) (by decide)
  have hedit : (if ts.lflag &&& icanon ≠ 0 then devEdit else 0).getLsbD i =
      (ts.lflag.getLsbD 1 && decide (1 = i)) := @getLsbD_flag i ts.lflag 1 1 (by decide) (by decide)
  have hisig : (if ts.lflag &&& isig ≠ 0 then devIsig else 0).getLsbD i =
      (ts.lflag.getLsbD 0 && decide (2 = i)) := @getLsbD_flag i ts.lflag 0 2 (by decide) (by decide)
  have hopost : (if ts.oflag &&& opost ≠ 0 then devOpost else 0).getLsbD i =
      (ts.oflag.getLsbD 0 && decide (3 = i)) := @getLsbD_flag i ts.oflag 0 3 (by decide) (by decide)
  unfold oldMode
  rw [BitVec.getLsbD_or, BitVec.getLsbD_or, BitVec.getLsbD_or, hecho, hedit, hisig, hopost]

/-- A bit after the part of `dev_mode` for bit `k` of the mask. -/
theorem getLsbD_changeMode {k : Nat} (hk : k < 16) {clear set lflag : BitVec 32} (hi : i < 32) :
    (changeMode mode mask (BitVec.twoPow 16 k) clear set lflag).getLsbD i =
      (mask.getLsbD k && mode.getLsbD k && set.getLsbD i ||
        lflag.getLsbD i && !(mask.getLsbD k && clear.getLsbD i)) := by
  unfold changeMode
  simp only [Flags.and_twoPow_ne_zero hk]
  cases mask.getLsbD k <;> cases mode.getLsbD k <;> simp [hi, Bool.or_comm]

/-- The local modes bit by bit. -/
theorem getLsbD_lflag (hi : i < 32) : (devModeSettings mode mask ts).lflag.getLsbD i =
    if i = 3 then mask.getLsbD 0 && mode.getLsbD 0 || mask.getLsbD 3 && mode.getLsbD 3
    else if i = 1 then mask.getLsbD 1 && mode.getLsbD 1
    else if i = 0 then false
    else if i = 2 then mask.getLsbD 2 && mode.getLsbD 2 || ts.lflag.getLsbD 2
    else ts.lflag.getLsbD i := by
  have hecho : echo = BitVec.twoPow 32 3 := by decide
  have hicanon : icanon = BitVec.twoPow 32 1 := by decide
  have hisig : isig = BitVec.twoPow 32 0 := by decide
  have hopost : opost = BitVec.twoPow 32 0 := by decide
  have hxcase : devIsig.setWidth 32 = BitVec.twoPow 32 2 := by decide
  have hecho' : devOpost.setWidth 32 = BitVec.twoPow 32 3 := by decide
  have h₀ : devEcho = BitVec.twoPow 16 0 := by decide
  have h₁ : devEdit = BitVec.twoPow 16 1 := by decide
  have h₂ : devIsig = BitVec.twoPow 16 2 := by decide
  have h₃ : devOpost = BitVec.twoPow 16 3 := by decide
  unfold devModeSettings
  dsimp only
  rw [hxcase, hecho', h₀, h₁, h₂, h₃, getLsbD_changeMode (by decide) hi, getLsbD_changeMode (by decide) hi,
    getLsbD_changeMode (by decide) hi, getLsbD_changeMode (by decide) hi, hecho, hicanon, hisig, hopost]
  simp only [BitVec.getLsbD_and, BitVec.getLsbD_not, BitVec.getLsbD_or, BitVec.getLsbD_twoPow, hi]
  obtain rfl | rfl | rfl | rfl | hi : i = 0 ∨ i = 1 ∨ i = 2 ∨ i = 3 ∨ 4 ≤ i := by omega
  · simp
  · simp
  · simp
  · simp [Bool.or_comm]
  · have hne : ∀ k < 4, k ≠ i := fun k hk => by omega
    simp [hne, Ne.symm (hne _ _)]

/-- The mode afterwards: nothing of what was there before, and only the first two bits where they belong. -/
theorem getLsbD_oldMode_settings : (oldMode (devModeSettings mode mask ts)).getLsbD i =
    ((mask.getLsbD 0 && mode.getLsbD 0 || mask.getLsbD 3 && mode.getLsbD 3) && decide (0 = i) ||
      mask.getLsbD 1 && mode.getLsbD 1 && decide (1 = i)) := by
  have hopost : (devModeSettings mode mask ts).oflag.getLsbD 0 = false := by
    show (ts.oflag &&& ~~~opost).getLsbD 0 = false
    simp [opost]
  rw [getLsbD_oldMode, hopost, getLsbD_lflag (by decide), getLsbD_lflag (by decide), getLsbD_lflag (by decide)]
  simp

/-- The mask covers the old mode. -/
theorem covered_iff : oldMode ts &&& ~~~mask = 0#16 ↔
    ∀ i < 16, ((oldMode ts).getLsbD i && !mask.getLsbD i) = false := by
  rw [Flags.eq_zero_iff]
  refine forall₂_congr fun i hi => ?_
  rw [BitVec.getLsbD_and, BitVec.getLsbD_not, decide_eq_true hi, Bool.true_and]

/-- Nothing but echo and editing is to be switched on. -/
theorem asked_iff : mode &&& mask &&& ~~~(devEcho ||| devEdit) = 0#16 ↔
    ∀ i < 16, 2 ≤ i → (mode.getLsbD i && mask.getLsbD i) = false := by
  have hlow : ∀ i < 16, (~~~(devEcho ||| devEdit)).getLsbD i = decide (2 ≤ i) := by decide
  rw [Flags.eq_zero_iff]
  refine forall₂_congr fun i hi => ?_
  rw [BitVec.getLsbD_and, BitVec.getLsbD_and, hlow i hi]
  by_cases hle : 2 ≤ i
  · simp [hle]
  · simp [hle]

/-- Bits of the old mode outside the mask, or of the new one inside that the handler gets wrong, make it
miss the update. -/
theorem oldMode_settings_iff :
    oldMode (devModeSettings mode mask ts) = (oldMode ts &&& ~~~mask) ||| (mode &&& mask) ↔
      oldMode ts &&& ~~~mask = 0#16 ∧ mode &&& mask &&& ~~~(devEcho ||| devEdit) = 0#16 := by
  have hwanted : ∀ i < 16, ((oldMode ts &&& ~~~mask) ||| (mode &&& mask)).getLsbD i =
      ((oldMode ts).getLsbD i && !mask.getLsbD i || mode.getLsbD i && mask.getLsbD i) := by
    intro i hi
    simp [hi]
  -- the handler sets none of the bits from the third on
  have hhigh : ∀ i, 2 ≤ i → (oldMode (devModeSettings mode mask ts)).getLsbD i = false := by
    intro i hle
    rw [getLsbD_oldMode_settings, decide_eq_false (by omega), decide_eq_false (by omega), Bool.and_false,
      Bool.and_false, Bool.or_false]
  rw [covered_iff, asked_iff]
  constructor
  · intro h
    have hbit : ∀ i < 16, (oldMode (devModeSettings mode mask ts)).getLsbD i =
        ((oldMode ts).getLsbD i && !mask.getLsbD i || mode.getLsbD i && mask.getLsbD i) := by
      intro i hi
      rw [h, hwanted i hi]
    have hnone : ∀ i < 16, 2 ≤ i → ((oldMode ts).getLsbD i && !mask.getLsbD i) = false ∧
        (mode.getLsbD i && mask.getLsbD i) = false := by
      intro i hi hle
      exact Bool.or_eq_false_iff.mp ((hbit i hi).symm.trans (hhigh i hle))
    refine ⟨fun i hi => ?_, fun i hi hle => (hnone i hi hle).2⟩
    obtain rfl | rfl | hle : i = 0 ∨ i = 1 ∨ 2 ≤ i := by omega
    · have hzero := hbit 0 hi
      have hthree := (hnone 3 (by decide) (by decide)).2
      rw [getLsbD_oldMode_settings, Bool.and_comm (mask.getLsbD 3), hthree] at hzero
      cases hm : mask.getLsbD 0 with
      | true => rw [Bool.not_true, Bool.and_false]
      | false =>
          rw [hm] at hzero
          simpa using hzero.symm
    · have hone := hbit 1 hi
      rw [getLsbD_oldMode_settings] at hone
      cases hm : mask.getLsbD 1 with
      | true => rw [Bool.not_true, Bool.and_false]
      | false =>
          rw [hm] at hone
          simpa using hone.symm
    · exact (hnone i hi hle).1
  · rintro ⟨hold, hnew⟩
    apply BitVec.eq_of_getLsbD_eq
    intro i hi
    rw [hwanted i hi, hold i hi, Bool.false_or]
    obtain rfl | rfl | hle : i = 0 ∨ i = 1 ∨ 2 ≤ i := by omega
    · rw [getLsbD_oldMode_settings, Bool.and_comm (mask.getLsbD 3), hnew 3 (by decide) (by decide)]
      simp [Bool.and_comm]
    · rw [getLsbD_oldMode_settings]
      simp [Bool.and_comm]
    · rw [hhigh i hle, hnew i hi hle]

/-- The update of the terminal's mode is the masked one exactly if the mask covers the old mode, and nothing
but echo and editing is to be switched on. -/
theorem devMode_iff : MaskedUpdate mode mask ts (devModeSettings mode mask ts) ↔
    oldMode ts &&& ~~~mask = 0#16 ∧ mode &&& mask &&& ~~~(devEcho ||| devEdit) = 0#16 := by
  rw [← oldMode_settings_iff]
  refine ⟨fun h => h.mode, fun h => ⟨h, ?_, ?_, ?_, rfl, ?_, rfl, rfl, rfl⟩⟩
  · show (if mask &&& devEdit ≠ 0 then ts.iflag &&& ~~~crnl else ts.iflag) &&& ~~~crnl = ts.iflag &&& ~~~crnl
    split
    · rw [BitVec.and_assoc, BitVec.and_self]
    · rfl
  · intro hedit
    exact if_neg (not_not.mpr hedit)
  · show ts.oflag &&& ~~~opost &&& ~~~opost = ts.oflag &&& ~~~opost
    rw [BitVec.and_assoc, BitVec.and_self]
  · have htwo : (mask.getLsbD 2 && mode.getLsbD 2) = false := by
      rw [Bool.and_comm]
      exact asked_iff.mp (oldMode_settings_iff.mp h).2 2 (by decide) (by decide)
    have hlocal : ∀ i < 32, (~~~(echo ||| icanon ||| isig)).getLsbD i =
        (decide (i ≠ 0) && decide (i ≠ 1) && decide (i ≠ 3)) := by decide
    apply BitVec.eq_of_getLsbD_eq
    intro i hi
    rw [BitVec.getLsbD_and, BitVec.getLsbD_and, hlocal i hi, getLsbD_lflag hi, htwo, Bool.false_or]
    obtain rfl | rfl | rfl | rfl | hle : i = 0 ∨ i = 1 ∨ i = 2 ∨ i = 3 ∨ 4 ≤ i := by omega
    · simp
    · simp
    · simp
    · simp
    · rw [if_neg (by omega), if_neg (by omega), if_neg (by omega), if_neg (by omega)]

/-- A terminal that echoes: a request that is about signals only switches the echo off, and the signals are not
switched on. -/
theorem devMode_signals :
    let ts : HostTermios := ⟨0, 0, 0, echo, fun _ => 0, 0, 0⟩
    let ts' := devModeSettings devIsig devIsig ts
    oldMode ts = devEcho ∧ oldMode ts' = 0 ∧ ts'.lflag = 0x0004 ∧ ¬ MaskedUpdate devIsig devIsig ts ts' := by
  intro ts ts'
  refine ⟨by decide, by decide, by decide, fun h => ?_⟩
  exact absurd h.mode (by decide)

end TermHandler
end Qine
