import Qine.Qmsg

/-!
# Which message is which

A message is looked at twice: the switch of `MainHandler::receive_inner` calls a handler for it, and the log finds
its description in the generated lists (`Process::handle_msg`, `Meta::find_message`). `dispatch_logged` compares
the two for every type and subtype.
-/

namespace Qine
namespace Qmsg

/-- `Qnx::MsgHeader`. -/
structure MsgHeader where
  type : Nat
  subtype : Nat
  deriving DecidableEq, Repr

/-! ## The log -/

/-- The descriptions that are compiled in. -/
inductive Module where
  | proc
  | io
  | fsys
  | dev
  deriving DecidableEq, Repr

/-- The messages of `proc.qmsg`. -/
def procList : List (Msg Unit) :=
  [⟨"slib_register", 1, some 0, (), ()⟩, ⟨"spawn", 3, none, (), ()⟩, ⟨"exec", 4, none, (), ()⟩,
    ⟨"fork", 5, none, (), ()⟩, ⟨"setpgid", 7, none, (), ()⟩, ⟨"name_attach", 10, some 0, (), ()⟩,
    ⟨"timer_create", 11, some 0, (), ()⟩, ⟨"timer_settime", 11, some 9, (), ()⟩,
    ⟨"timer_alarm", 11, some 10, (), ()⟩, ⟨"wait", 27, none, (), ()⟩, ⟨"segment_alloc", 9, some 1, (), ()⟩,
    ⟨"segment_realloc", 9, some 3, (), ()⟩, ⟨"segment_free", 9, some 4, (), ()⟩,
    ⟨"segment_flags", 9, some 7, (), ()⟩, ⟨"segment_global", 9, some 9, (), ()⟩,
    ⟨"segment_arm", 9, some 11, (), ()⟩, ⟨"segment_put", 9, some 13, (), ()⟩,
    ⟨"segment_priv", 9, some 17, (), ()⟩, ⟨"time", 14, none, (), ()⟩, ⟨"proc_flags", 15, none, (), ()⟩,
    ⟨"terminate", 24, none, (), ()⟩, ⟨"open", 25, none, (), ()⟩, ⟨"fd_attach", 22, some 0, (), ()⟩,
    ⟨"fd_detach", 22, some 1, (), ()⟩, ⟨"fd_query", 22, some 2, (), ()⟩, ⟨"fd_action1", 22, some 4, (), ()⟩,
    ⟨"vc_attach", 31, none, (), ()⟩, ⟨"vc_detach", 32, none, (), ()⟩, ⟨"psinfo", 34, none, (), ()⟩,
    ⟨"sigtab", 8, some 0, (), ()⟩, ⟨"sigmask", 8, some 2, (), ()⟩, ⟨"sigraise", 8, some 3, (), ()⟩,
    ⟨"sigpending", 8, some 4, (), ()⟩, ⟨"sigact", 8, some 5, (), ()⟩, ⟨"sigsuspend", 8, some 6, (), ()⟩,
    ⟨"getid", 12, some 0, (), ()⟩, ⟨"osinfo", 23, none, (), ()⟩, ⟨"prefix", 26, some 2, (), ()⟩,
    ⟨"sid_query", 40, some 2, (), ()⟩, ⟨"sid_set", 40, some 0, (), ()⟩, ⟨"sem_init", 0x2c, some 0, (), ()⟩,
    ⟨"sem_destroy", 0x2c, some 1, (), ()⟩]

/-- The messages of `io.qmsg`. -/
def ioList : List (Msg Unit) :=
  [⟨"io_open", 0x101, none, (), ()⟩, ⟨"close", 0x102, none, (), ()⟩, ⟨"handle", 0x109, none, (), ()⟩,
    ⟨"rename", 0x106, none, (), ()⟩, ⟨"chdir", 0x110, none, (), ()⟩, ⟨"read", 0x103, none, (), ()⟩,
    ⟨"write", 0x104, none, (), ()⟩, ⟨"lseek", 0x105, none, (), ()⟩, ⟨"stat", 0x115, none, (), ()⟩,
    ⟨"fstat", 0x10a, none, (), ()⟩, ⟨"readdir", 0x112, none, (), ()⟩, ⟨"rewinddir", 0x113, none, (), ()⟩,
    ⟨"fcntl_flags", 0x10e, none, (), ()⟩, ⟨"dup", 0x108, none, (), ()⟩, ⟨"fpathconf", 0x107, none, (), ()⟩,
    ⟨"chmod", 0x10b, none, (), ()⟩, ⟨"chown", 0x10c, none, (), ()⟩, ⟨"utime", 0x10d, none, (), ()⟩,
    ⟨"ioctl", 0x114, none, (), ()⟩, ⟨"qioctl", 0x117, none, (), ()⟩, ⟨"lock", 0x10f, none, (), ()⟩]

/-- The messages of `fsys.qmsg`. -/
def fsysList : List (Msg Unit) :=
  [⟨"unlink", 0x203, none, (), ()⟩, ⟨"mkspecial", 0x202, none, (), ()⟩, ⟨"link", 0x204, none, (), ()⟩,
    ⟨"disk_entry", 0x209, none, (), ()⟩, ⟨"sync", 0x20a, none, (), ()⟩, ⟨"trunc", 0x210, none, (), ()⟩,
    ⟨"readlink", 0x216, none, (), ()⟩, ⟨"fsync", 0x218, none, (), ()⟩, ⟨"fdinfo", 0x21a, none, (), ()⟩,
    ⟨"get_mount", 0x20d, none, (), ()⟩, ⟨"disk_space", 0x20e, none, (), ()⟩, ⟨"pipe", 0x20f, none, (), ()⟩]

/-- The messages of `dev.qmsg`. -/
def devList : List (Msg Unit) :=
  [⟨"tcgetattr", 0x310, none, (), ()⟩, ⟨"tcsetattr", 0x311, none, (), ()⟩, ⟨"tcgetpgrp", 0x316, none, (), ()⟩,
    ⟨"tcsetpgrp", 0x317, none, (), ()⟩, ⟨"dev_info", 0x31b, none, (), ()⟩, ⟨"dev_fdinfo", 0x320, none, (), ()⟩,
    ⟨"term_size", 0x323, none, (), ()⟩, ⟨"tcdrain", 0x313, none, (), ()⟩, ⟨"tcflush", 0x314, none, (), ()⟩,
    ⟨"read", 0x31e, none, (), ()⟩, ⟨"insert_chars", 0x318, none, (), ()⟩, ⟨"mode", 0x319, none, (), ()⟩]

/-- `Meta::find_message`. -/
def findMessage (list : List (Msg Unit)) (hdr : MsgHeader) : Option (Msg Unit) :=
  list.find? fun t => t.type = hdr.type && (t.subtype.isNone || t.subtype.getD 0 = hdr.subtype)

/-- The `list` of a description. -/
def Module.list : Module → List (Msg Unit)
  | .proc => procList
  | .io => ioList
  | .fsys => fsysList
  | .dev => devList

/-- The description a type belongs to. -/
def moduleOf (type : Nat) : Option Module :=
  match type / 256 % 256 with
  | 0 => some .proc
  | 1 => some .io
  | 2 => some .fsys
  | 3 => some .dev
  | _ => none

/-- The message the log of `Process::handle_msg` shows. -/
def logged (hdr : MsgHeader) : Option (Msg Unit) :=
  (moduleOf hdr.type).bind fun module => findMessage module.list hdr

/-! ## The switch -/

/-- The functions of `MainHandler` that serve messages. -/
inductive Handler where
  | procSlibRegister
  | procSegmentRealloc
  | procSegmentAlloc
  | procSegmentFree
  | procSegmentFlags
  | procSegmentPut
  | procSegmentArm
  | procSegmentPriv
  | procNameAttach
  | procTime
  | procSetpgid
  | procTerminate
  | procOpen
  | procFdAttach
  | procFdDetach
  | procFdQuery
  | procFdSetfd
  | procVcAttach
  | procVcDetach
  | procPsinfo
  | procSigtab
  | procSigraise
  | procSigact
  | procSigmask
  | procGetid
  | procOsinfo
  | procSpawn
  | procFork
  | procExec
  | procTimerCreate
  | procTimerSettime
  | procTimerAlarm
  | procWait
  | procPrefix
  | procSidQuery
  | procSidSet
  | procSemInit
  | procSemDestroy
  | ioOpen
  | ioChdir
  | ioRename
  | ioStat
  | ioFstat
  | ioClose
  | ioRead
  | ioWrite
  | ioLseek
  | ioReaddir
  | ioRewinddir
  | ioFcntlFlags
  | ioDup
  | ioFpathconf
  | ioChmod
  | ioChown
  | ioUtime
  | ioIoctl
  | ioQioctl
  | ioLock
  | fsysUnlink
  | fsysMkspecial
  | fsysLink
  | fsysSync
  | fsysReadlink
  | fsysTrunc
  | fsysFsync
  | fsysPipe
  | fsysDiskEntry
  | fsysGetMount
  | fsysDiskSpace
  | devTcgetattr
  | devTcsetattr
  | devInfo
  | devFdinfo
  | devTcgetpgrp
  | devTcsetpgrp
  | devTermSize
  | devTcdrain
  | devTcflush
  | devRead
  | devInsertChars
  | devMode
  deriving DecidableEq, Repr

/-- What becomes of a message; one that is unhandled is answered with `ENOSYS`, one that is ignored not at all. -/
inductive Dispatch where
  | handler (h : Handler)
  | unhandled
  | ignored
  deriving DecidableEq, Repr

/-- `MainHandler::receive_inner`. -/
def receiveInner (hdr : MsgHeader) : Dispatch :=
  match hdr.type with
  | 1 => .handler .procSlibRegister
  | 9 =>
    match hdr.subtype with
    | 3 => .handler .procSegmentRealloc
    | 1 => .handler .procSegmentAlloc
    | 4 => .handler .procSegmentFree
    | 7 => .handler .procSegmentFlags
    | 13 => .handler .procSegmentPut
    | 11 => .handler .procSegmentArm
    | 17 => .handler .procSegmentPriv
    | _ => .unhandled
  | 10 =>
    match hdr.subtype with
    | 0 => .handler .procNameAttach
    | _ => .unhandled
  | 14 => .handler .procTime
  | 7 => .handler .procSetpgid
  | 24 => .handler .procTerminate
  | 25 => .handler .procOpen
  | 22 =>
    match hdr.subtype with
    | 0 => .handler .procFdAttach
    | 1 => .handler .procFdDetach
    | 2 => .handler .procFdQuery
    | 4 => .handler .procFdSetfd
    | _ => .unhandled
  | 31 => .handler .procVcAttach
  | 32 => .handler .procVcDetach
  | 34 => .handler .procPsinfo
  | 8 =>
    match hdr.subtype with
    | 0 => .handler .procSigtab
    | 3 => .handler .procSigraise
    | 5 => .handler .procSigact
    | 2 => .handler .procSigmask
    | _ => .unhandled
  | 12 =>
    match hdr.subtype with
    | 0 => .handler .procGetid
    | _ => .unhandled
  | 23 => .handler .procOsinfo
  | 3 => .handler .procSpawn
  | 5 => .handler .procFork
  | 4 => .handler .procExec
  | 11 =>
    match hdr.subtype with
    | 0 => .handler .procTimerCreate
    | 9 => .handler .procTimerSettime
    | 10 => .handler .procTimerAlarm
    | _ => .unhandled
  | 27 => .handler .procWait
  | 26 => .handler .procPrefix
  | 40 =>
    match hdr.subtype with
    | 2 => .handler .procSidQuery
    | 0 => .handler .procSidSet
    | _ => .unhandled
  | 0x2c =>
    match hdr.subtype with
    | 0 => .handler .procSemInit
    | 1 => .handler .procSemDestroy
    | _ => .ignored
  | 0x109 | 0x101 => .handler .ioOpen
  | 0x110 => .handler .ioChdir
  | 0x106 => .handler .ioRename
  | 0x115 => .handler .ioStat
  | 0x10a => .handler .ioFstat
  | 0x102 => .handler .ioClose
  | 0x103 => .handler .ioRead
  | 0x104 => .handler .ioWrite
  | 0x105 => .handler .ioLseek
  | 0x112 => .handler .ioReaddir
  | 0x113 => .handler .ioRewinddir
  | 0x10e => .handler .ioFcntlFlags
  | 0x108 => .handler .ioDup
  | 0x107 => .handler .ioFpathconf
  | 0x10b => .handler .ioChmod
  | 0x10c => .handler .ioChown
  | 0x10d => .handler .ioUtime
  | 0x114 => .handler .ioIoctl
  | 0x117 => .handler .ioQioctl
  | 0x10f => .handler .ioLock
  | 0x203 => .handler .fsysUnlink
  | 0x202 => .handler .fsysMkspecial
  | 0x204 => .handler .fsysLink
  | 0x20a => .handler .fsysSync
  | 0x216 => .handler .fsysReadlink
  | 0x210 => .handler .fsysTrunc
  | 0x218 => .handler .fsysFsync
  | 0x20f => .handler .fsysPipe
  | 0x209 => .handler .fsysDiskEntry
  | 0x20d => .handler .fsysGetMount
  | 0x20e => .handler .fsysDiskSpace
  | 0x310 => .handler .devTcgetattr
  | 0x311 => .handler .devTcsetattr
  | 0x31b => .handler .devInfo
  | 0x320 => .handler .devFdinfo
  | 0x316 => .handler .devTcgetpgrp
  | 0x317 => .handler .devTcsetpgrp
  | 0x323 => .handler .devTermSize
  | 0x313 => .handler .devTcdrain
  | 0x314 => .handler .devTcflush
  | 0x31e => .handler .devRead
  | 0x318 => .handler .devInsertChars
  | 0x319 => .handler .devMode
  | _ => .unhandled

/-- The messages a handler is for. -/
def Handler.messages : Handler → Module × List String
  | .procSlibRegister => (.proc, ["slib_register"])
  | .procSegmentRealloc => (.proc, ["segment_realloc"])
  | .procSegmentAlloc => (.proc, ["segment_alloc"])
  | .procSegmentFree => (.proc, ["segment_free"])
  | .procSegmentFlags => (.proc, ["segment_flags"])
  | .procSegmentPut => (.proc, ["segment_put"])
  | .procSegmentArm => (.proc, ["segment_arm"])
  | .procSegmentPriv => (.proc, ["segment_priv"])
  | .procNameAttach => (.proc, ["name_attach"])
  | .procTime => (.proc, ["time"])
  | .procSetpgid => (.proc, ["setpgid"])
  | .procTerminate => (.proc, ["terminate"])
  | .procOpen => (.proc, ["open"])
  | .procFdAttach => (.proc, ["fd_attach"])
  | .procFdDetach => (.proc, ["fd_detach"])
  | .procFdQuery => (.proc, ["fd_query"])
  | .procFdSetfd => (.proc, ["fd_action1"])
  | .procVcAttach => (.proc, ["vc_attach"])
  | .procVcDetach => (.proc, ["vc_detach"])
  | .procPsinfo => (.proc, ["psinfo"])
  | .procSigtab => (.proc, ["sigtab"])
  | .procSigraise => (.proc, ["sigraise"])
  | .procSigact => (.proc, ["sigact"])
  | .procSigmask => (.proc, ["sigmask"])
  | .procGetid => (.proc, ["getid"])
  | .procOsinfo => (.proc, ["osinfo"])
  | .procSpawn => (.proc, ["spawn"])
  | .procFork => (.proc, ["fork"])
  | .procExec => (.proc, ["exec"])
  | .procTimerCreate => (.proc, ["timer_create"])
  | .procTimerSettime => (.proc, ["timer_settime"])
  | .procTimerAlarm => (.proc, ["timer_alarm"])
  | .procWait => (.proc, ["wait"])
  | .procPrefix => (.proc, ["prefix"])
  | .procSidQuery => (.proc, ["sid_query"])
  | .procSidSet => (.proc, ["sid_set"])
  | .procSemInit => (.proc, ["sem_init"])
  | .procSemDestroy => (.proc, ["sem_destroy"])
  | .ioOpen => (.io, ["handle", "io_open"])
  | .ioChdir => (.io, ["chdir"])
  | .ioRename => (.io, ["rename"])
  | .ioStat => (.io, ["stat"])
  | .ioFstat => (.io, ["fstat"])
  | .ioClose => (.io, ["close"])
  | .ioRead => (.io, ["read"])
  | .ioWrite => (.io, ["write"])
  | .ioLseek => (.io, ["lseek"])
  | .ioReaddir => (.io, ["readdir"])
  | .ioRewinddir => (.io, ["rewinddir"])
  | .ioFcntlFlags => (.io, ["fcntl_flags"])
  | .ioDup => (.io, ["dup"])
  | .ioFpathconf => (.io, ["fpathconf"])
  | .ioChmod => (.io, ["chmod"])
  | .ioChown => (.io, ["chown"])
  | .ioUtime => (.io, ["utime"])
  | .ioIoctl => (.io, ["ioctl"])
  | .ioQioctl => (.io, ["qioctl"])
  | .ioLock => (.io, ["lock"])
  | .fsysUnlink => (.fsys, ["unlink"])
  | .fsysMkspecial => (.fsys, ["mkspecial"])
  | .fsysLink => (.fsys, ["link"])
  | .fsysSync => (.fsys, ["sync"])
  | .fsysReadlink => (.fsys, ["readlink"])
  | .fsysTrunc => (.fsys, ["trunc"])
  | .fsysFsync => (.fsys, ["fsync"])
  | .fsysPipe => (.fsys, ["pipe"])
  | .fsysDiskEntry => (.fsys, ["disk_entry"])
  | .fsysGetMount => (.fsys, ["get_mount"])
  | .fsysDiskSpace => (.fsys, ["disk_space"])
  | .devTcgetattr => (.dev, ["tcgetattr"])
  | .devTcsetattr => (.dev, ["tcsetattr"])
  | .devInfo => (.dev, ["dev_info"])
  | .devFdinfo => (.dev, ["dev_fdinfo"])
  | .devTcgetpgrp => (.dev, ["tcgetpgrp"])
  | .devTcsetpgrp => (.dev, ["tcsetpgrp"])
  | .devTermSize => (.dev, ["term_size"])
  | .devTcdrain => (.dev, ["tcdrain"])
  | .devTcflush => (.dev, ["tcflush"])
  | .devRead => (.dev, ["read"])
  | .devInsertChars => (.dev, ["insert_chars"])
  | .devMode => (.dev, ["mode"])

/-- Messages that are described but have no handler. -/
def unserved : List String := ["segment_global", "proc_flags", "sigpending", "sigsuspend", "fdinfo"]

/-- What becomes of a message of this name. -/
def Dispatch.Fits (module : Option Module) (name : String) : Dispatch → Prop
  | .handler h => module = some h.messages.1 ∧ name ∈ h.messages.2
  | .unhandled => name ∈ unserved
  | .ignored => False

instance {module : Option Module} {name : String} : (d : Dispatch) → Decidable (d.Fits module name)
  | .handler h => inferInstanceAs (Decidable (module = some h.messages.1 ∧ name ∈ h.messages.2))
  | .unhandled => inferInstanceAs (Decidable (name ∈ unserved))
  | .ignored => inferInstanceAs (Decidable False)

/-- The types for which the switch looks at the subtype. -/
def subtyped : List Nat := [8, 9, 10, 11, 12, 22, 40, 0x2c]

/-- What becomes of a message that is not described. Three types are served, or not answered, whatever the
subtype. -/
def undescribed (hdr : MsgHeader) : Dispatch :=
  match hdr.type with
  | 1 => .handler .procSlibRegister
  | 26 => .handler .procPrefix
  | 0x2c => .ignored
  | _ => .unhandled

section

variable {list : List (Msg Unit)} {hdr : MsgHeader} {m : Msg Unit}

theorem receiveInner_of_not_subtyped {type : Nat} (h : type ∉ subtyped) (subtype : Nat) :
    receiveInner ⟨type, subtype⟩ = receiveInner ⟨type, 0⟩ := by
  unfold receiveInner
  dsimp only
  split <;> first | rfl | exact absurd (by decide) h

theorem mem_of_findMessage (h : findMessage list hdr = some m) :
    m ∈ list ∧ hdr.type = m.type ∧ ∀ k ∈ m.subtype, hdr.subtype = k := by
  have hmatch := List.find?_some h
  simp only [Bool.and_eq_true, Bool.or_eq_true, decide_eq_true_eq] at hmatch
  refine ⟨List.mem_of_find?_eq_some h, hmatch.1.symm, fun k hk => ?_⟩
  rw [Option.mem_def.mp hk] at hmatch
  exact (hmatch.2.resolve_left nofun).symm

/-- The switch has the messages of the description. -/
def Module.Covered (module : Module) : Prop :=
  ∀ m ∈ module.list, (∀ k ∈ m.subtype, (receiveInner ⟨m.type, k⟩).Fits module m.name) ∧
    (m.subtype = none → m.type ∉ subtyped ∧ (receiveInner ⟨m.type, 0⟩).Fits module m.name)

instance (module : Module) : Decidable module.Covered := inferInstanceAs (Decidable (∀ _ ∈ _, _))

theorem Module.covered (module : Module) : module.Covered := by
  cases module <;> decide

theorem logged_fits (h : logged hdr = some m) : (receiveInner hdr).Fits (moduleOf hdr.type) m.name := by
  obtain ⟨module, hmodule, h⟩ := Option.bind_eq_some_iff.mp h
  rw [hmodule]
  obtain ⟨type, subtype⟩ := hdr
  obtain ⟨hm, rfl, hsubtype⟩ := mem_of_findMessage h
  obtain ⟨hsome, hnone⟩ := module.covered m hm
  cases hk : m.subtype with
  | some k =>
      obtain rfl : subtype = k := hsubtype k hk
      exact hsome subtype hk
  | none =>
      obtain ⟨hnot, hfits⟩ := hnone hk
      rw [receiveInner_of_not_subtyped hnot]
      exact hfits

theorem receiveInner_of_not_logged (h : logged hdr = none) : receiveInner hdr = undescribed hdr := by
  obtain ⟨type, subtype⟩ := hdr
  have hfound : ((moduleOf type).bind fun module => findMessage module.list ⟨type, subtype⟩).isSome ≠ true := by
    rw [show (moduleOf type).bind _ = none from h]
    nofun
  unfold receiveInner
  dsimp only
  split
  all_goals first | rfl | exact absurd rfl hfound | skip
  all_goals first | (split <;> first | rfl | exact absurd rfl hfound) | skip
  -- a type the switch does not have
  unfold undescribed
  split <;> first | rfl | contradiction

/-- Every message the log has a description of is served by the handler for it, or refused because there is none,
and what becomes of all others does not depend on their subtype. -/
theorem dispatch_logged (hdr : MsgHeader) :
    match logged hdr with
    | some m => (receiveInner hdr).Fits (moduleOf hdr.type) m.name
    | none => receiveInner hdr = undescribed hdr := by
  split
  next hm => exact logged_fits hm
  next hnone => exact receiveInner_of_not_logged hnone

end

end Qmsg
end Qine
