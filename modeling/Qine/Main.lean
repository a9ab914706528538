import Qine.Lib.Getopt
import Qine.Path.Identity
import Qine.Startup.Context

/-!
# The command line

`main` (`qine.cpp`) reads its options with `getopt_long`, configures the process with them, keeps them for the
next start of the emulator (`m_self_call`) and finds out which program to run. Loading that program is in
`Qine.Loader`, and what the program finds in memory in `Qine.Startup`.

The table `cmd_options` has no last entry. A name that is in the table is found before its end is reached; for
any other name `getopt_long` reads past the table.
-/

namespace Qine

open CString (ofString toPath)

/-! ## The log -/

namespace Log

/-- `Log::Category`. -/
inductive Category where
  | invalid
  | msg
  | msgReply
  | loader
  | unhandled
  | map
  | fd
  | sig
  | debug
  deriving DecidableEq, Repr

/-- The number of a category. -/
def Category.number : Category → Nat
  | invalid => 0
  | msg => 1
  | msgReply => 2
  | loader => 3
  | unhandled => 4
  | map => 5
  | fd => 6
  | sig => 7
  | debug => 8

/-- `Log::log_mask`. -/
def mask (c : Category) : BitVec 64 := 1 <<< c.number

/-- `Log::enable`. -/
def enable (logged : BitVec 64) (c : Category) (enabled : Bool) : BitVec 64 :=
  if enabled then logged &&& ~~~ mask c ||| mask c else logged &&& ~~~ mask c

/-- `Log::by_name`. -/
def byName (name : CString) : Category :=
  if name = ofString "debug" then .debug
  else if name = ofString "msg" then .msg
  else if name = ofString "msg_reply" then .msgReply
  else if name = ofString "unhandled" then .unhandled
  else if name = ofString "loader" then .loader
  else if name = ofString "sig" then .sig
  else if name = ofString "map" then .map
  else if name = ofString "fd" then .fd
  else .invalid

end Log

/-! ## Options -/

/-- How `main` ends before there is a program to run. -/
inductive MainExit where
  | exit (status : Nat)
  | fault (f : Fault)
  deriving DecidableEq, Repr

/-- What `getopt_long` returns for an option. -/
inductive MainOption where
  | help
  | termEmu
  | debug
  | map
  | lib
  | noSlib
  | exec
  /-- `r` and `s`, which `opts` lists and the loop has no case for -/
  | unknown
  deriving DecidableEq, Repr

open Getopt (Arity)

/-- `opts`: `d:hr:m:s:l:`. -/
def opts : List (CString × MainOption × Arity) :=
  [(ofString "d", .debug, .required), (ofString "h", .help, .no), (ofString "r", .unknown, .required),
   (ofString "m", .map, .required), (ofString "s", .unknown, .required), (ofString "l", .lib, .required)]

/-- `cmd_options`. -/
def longOptions : List (CString × MainOption × Arity) :=
  [(ofString "help", .help, .no), (ofString "term-emu", .termEmu, .no), (ofString "debug", .debug, .required),
   (ofString "map", .map, .required), (ofString "lib", .lib, .required), (ofString "no-slib", .noSlib, .no),
   (ofString "exec", .exec, .required)]

/-- The options of `main`. -/
def cmdOptions : Getopt.Options Byte MainOption where
  dash := 0x2D
  eq := 0x3D
  letter c := (opts.find? (·.1 = [c])).map (·.2)
  name word := (longOptions.find? (·.1 = word)).map (·.2)

/-- What the options say, and what does not depend on where the process runs. -/
structure Settings where
  pathMapper : PathMapper
  /-- `Log::m_enabled` -/
  logEnabled : BitVec 64
  /-- `delayed_args`, the libraries -/
  delayedArgs : List CString
  /-- `opt_exec` -/
  optExec : CString
  /-- `opt_no_slib` -/
  optNoSlib : Bool
  deriving DecidableEq, Repr

/-- The process while the options are handled. -/
structure MainConfig where
  settings : Settings
  /-- descriptor 0 has a `TerminalFilter` -/
  termFilter : Bool
  environ : List CString
  deriving DecidableEq, Repr

/-- What `main` looks at besides its arguments and the environment. -/
structure MainHost where
  /-- what `/proc/self/exe` links to -/
  exe : CString
  exe_absolute : exe.head? = some 0x2F
  /-- descriptor 0 is open, and a terminal -/
  tty : Bool
  /-- `Fsutil::realpath`, the empty string if it fails -/
  realpath : CString → CString

/-- `setenv` for a key with its `=`, replacing an entry that is there. -/
def setenv (key value : CString) : List CString → List CString
  | [] => [key ++ value]
  | e :: es => if CString.startsWith e key then (key ++ value) :: es else e :: setenv key value es

/-- The key of the terminal type. -/
def termKey : CString := ofString "TERM="

/-- `getopt_long` moves operands behind the options. -/
def permutes (environ : List CString) : Bool :=
  !environ.any (CString.startsWith · (ofString "POSIXLY_CORRECT="))

/-- `handle_log_opt`. -/
def handleLogOpt (opt : CString) (logged : BitVec 64) : Except MainExit (BitVec 64) :=
  let (enabled, name) : Bool × CString :=
    match opt with
    | [] => (true, [])
    | c :: rest => if c = 0x2B then (true, rest) else if c = 0x2D then (false, rest) else (true, opt)
  if Log.byName name = .invalid then .error (.exit 1) else .ok (Log.enable logged (Log.byName name) enabled)

/-- `Process::attach_term_emu`. -/
def attachTermEmu (host : MainHost) (c : MainConfig) : MainConfig :=
  if host.tty then { c with termFilter := true, environ := setenv termKey (ofString "xterm-qine1") c.environ }
  else c

/-- One round of the loop over the options; a `ConfigurationError` ends `main` with status 1. -/
def handleOption (host : MainHost) (c : MainConfig) : Getopt.Item Byte MainOption → Except MainExit MainConfig
  | .bad => .error (.exit 1)
  | .unmatched _ => .error (.fault .outOfBounds)
  | .option .lib (some arg) =>
    .ok { c with settings.delayedArgs := c.settings.delayedArgs ++ [arg] }
  | .option .help _ => .error (.exit 0)
  | .option .debug (some arg) => do
    let logged ← handleLogOpt arg c.settings.logEnabled
    return { c with settings.logEnabled := logged }
  | .option .map (some arg) =>
    match c.settings.pathMapper.addMap (toPath arg) with
    | .error _ => .error (.exit 1)
    | .ok pm => .ok { c with settings.pathMapper := pm }
  | .option .exec (some arg) => .ok { c with settings.optExec := arg }
  | .option .termEmu _ => .ok (attachTermEmu host c)
  | .option .noSlib _ => .ok { c with settings.optNoSlib := true }
  | .option .unknown _ => .error (.exit 1)
  | .option _ none => .error (.fault .nullPointer)

/-- The process before the first option. -/
def MainConfig.init (environ : List CString) : MainConfig := ⟨⟨PathMapper.init, 0, [], [], false⟩, false, environ⟩

/-! ## The program to run -/

/-- `exec_path`. -/
def execPath (host : MainHost) (c : MainConfig) (argv : List CString) : Except Fault PathInfo :=
  if c.settings.optExec ≠ [] then c.settings.pathMapper.mapPathToQnx (toPath c.settings.optExec) false
  else
    match argv with
    | [] => .error .nullPointer
    | a :: _ =>
      if isAbs (toPath a) then c.settings.pathMapper.mapPathToHost (toPath a) false
      else c.settings.pathMapper.mapPathToQnx (toPath (host.realpath a)) false

/-- What `main` has when it loads the program. -/
structure Started where
  config : MainConfig
  /-- `m_self_call` -/
  selfCall : List CString
  /-- `argv` behind the options -/
  argv : List CString
  execPath : PathInfo
  deriving DecidableEq, Repr

/-- The strings of `argv[0]` to `argv[optind - 1]` that are kept. -/
def keptArgs (argv0 : List CString) (scan : Getopt.Scan Byte MainOption) : List CString :=
  (argv0 ++ cmdOptions.front scan).filter (· ≠ cmdOptions.dashes)

/-- `main`, up to where the program is loaded. -/
def main (host : MainHost) (argv environ : List CString) : Except MainExit Started := do
  let scan := cmdOptions.scan (permutes environ) (argv.drop 1)
  let config ← scan.items.foldlM (handleOption host) (MainConfig.init environ)
  match keptArgs (argv.take 1) scan with
  | [] => .error (.fault .outOfBounds)
  | _ :: rest =>
    if scan.operands = [] ∧ config.settings.optExec = [] then .error (.exit 1)
    else
      match execPath host config scan.operands with
      | .error f => .error (.fault f)
      | .ok path => return ⟨config, host.exe :: rest, scan.operands, path⟩

end Qine
