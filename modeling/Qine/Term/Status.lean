import Qine.Fd.Handlers
import Qine.Term.Settings
import Qine.Term.Waiting

/-!
# The status of a reply

A handler learns of a failed host call through `errno`, and the guest has error numbers of its own, so on its
way into the reply an error goes through `map_errno`. Not every handler of terminal and file requests does it
right:

* `io_read` without a filter and `io_write` put `errno` itself into the reply;
* `dev_tcflush`, `dev_tcdrain` and `dev_mode` map what the call returned, which is -1;
* `TerminalFilter::read` does not expect `tcgetattr` to fail;
* `TerminalFilter::dev_read` maps `errno` also where a signal ended the read, and `errno` is an old one.

Many of the numbers are the same, so often enough it makes no difference; `status_iff` says when.
-/

namespace Qine

/-- `Qnx::QENOTSUP`. -/
def qenotsup : Int := 77

/-! ## What the host does -/

/-- What the host does during a request. -/
structure DevHost where
  tcgetattr : Except Int HostTermios
  tcsetattr : HostTermios → Except Int Unit
  readv : Except Int Nat
  writev : Except Int Nat
  tcflush : Except Int Unit
  tcdrain : Except Int Unit
  /-- the time when `common_read` is prepared, and the passes it makes -/
  start : Timespec
  passes : List Pass

/-- What an operation on the descriptor came to. -/
inductive HostEvent where
  | done
  | failed (errno : Int)
  /-- `common_read` was preempted by a signal -/
  | preempted
  /-- `common_read` still waits -/
  | waiting
  deriving DecidableEq, Repr

/-- A status, or that of a read with the number of bytes. -/
structure DevReply where
  status : BitVec 16
  nbytes : Option (BitVec 16)
  deriving DecidableEq, Repr

/-- The descriptor, the host's `errno`, the operations there were, and the reply that was written last. -/
structure DevState where
  isOpen : Bool
  filter : Option TerminalFilter
  errno : Int
  events : List HostEvent
  reply : Option DevReply

/-- The handlers. -/
abbrev DevM := EStateM FdError DevState

/-! ## The handlers -/

/-- A request on the descriptor. -/
inductive DevRequest where
  | ioRead (nbytes : BitVec 16)
  | ioWrite
  | devRead (proxy nbytes minimum time timeout : BitVec 16)
  | tcflush
  | tcdrain
  | devMode (mode mask : BitVec 16)
  deriving DecidableEq, Repr

/-- The status of a reply is a word. -/
def statusWord (status : Int) : BitVec 16 := BitVec.ofInt 16 status

/-- How `TerminalFilter::read` and `dev_read` come to a status after `common_read` has failed. -/
def ReadMsg.failStatus (body : ReadMsg) (status errno : Int) : Int :=
  match body with
  | .read _ => status
  | .devRead .. => mapErrno errno

theorem ReadRequest.failStatus_eq (r : ReadRequest) (status errno : Int) :
    r.failStatus status errno = r.body.failStatus status errno := rfl

/-- How the passes of `common_read` end. -/
def Terminal.readEvent (rc : ReadContext) : Bool → List Pass → Terminal → HostEvent
  | _, [], _ => .waiting
  | firstPass, pass :: passes, t =>
    match t.commonRead rc firstPass [pass] with
    | (.waiting, t') => readEvent rc false passes t'
    | (.ready, _) => .done
    | (.failed _, t') => if pass.shouldPreempt then .preempted else .failed t'.errno

/-- How `common_read` ends, for the given settings. -/
def DevHost.readOutcome (host : DevHost) (ts : Termios) (filter : TerminalFilter) (errno : Int) : HostEvent :=
  Terminal.readEvent (.setup host.start ts) true host.passes ⟨filter, errno, []⟩

namespace DevHandler

/-- An operation was carried out. -/
def note (event : HostEvent) : DevM Unit := modify fun s => { s with events := s.events ++ [event] }

/-- A host call; `none` if it returns -1 and sets `errno`. -/
def call {α : Type} (outcome : Except Int α) : DevM (Option α) := do
  match outcome with
  | .ok a =>
    note .done
    return some a
  | .error e =>
    note (.failed e)
    modify fun s => { s with errno := e }
    return none

/-- What a call without a result returns. -/
def returned (r : Option Unit) : Int := if r.isSome then 0 else -1

/-- `write_type` of a reply to a read or write. -/
def writeReply (status : Int) (nbytes : BitVec 16) : DevM Unit :=
  modify fun s => { s with reply := some ⟨statusWord status, some nbytes⟩ }

/-- `Msg::write_status`. -/
def writeStatus (status : Int) : DevM Unit :=
  modify fun s => { s with reply := some ⟨statusWord status, none⟩ }

/-- The filter of an open descriptor. -/
def openFilter : DevM (Option TerminalFilter) := do
  let s ← get
  if s.isOpen then return s.filter else throw .badFd

variable (host : DevHost)

/-- The settings a read through the filter goes by. -/
def readSettings : ReadMsg → DevM Termios
  | .read _ => do
    match ← call host.tcgetattr with
    | none => throw (.fault (.assertion "r == 0"))
    | some ts => return ⟨ts.cc 6, ts.cc 5⟩
  | .devRead _ minimum time timeout => return .approximate minimum time timeout

/-- `TerminalFilter::read` and `TerminalFilter::dev_read`. There is no reply while the read waits. -/
def filterRead (body : ReadMsg) (filter : TerminalFilter) : DevM Unit := do
  let ts ← readSettings host body
  let errno := (← get).errno
  note (host.readOutcome ts filter errno)
  let (res, t) := Terminal.commonRead (.setup host.start ts) true host.passes ⟨filter, errno, []⟩
  modify fun s => { s with filter := some t.filter, errno := t.errno }
  match res with
  | .waiting => return ()
  | .failed status => writeReply (body.failStatus status t.errno) 0
  | .ready =>
    let nbytes := BitVec.ofNat 16 (min t.filter.ready.length (body.toSize body.nbytes))
    writeReply qeok nbytes
    -- a negative count would run past the end of `m_ready`
    if t.filter.ready.length < body.toSize nbytes then throw (.fault .outOfBounds)
    modify fun s => { s with
      filter := some { t.filter with ready := t.filter.ready.drop (body.toSize nbytes) } }

/-- `MainHandler::io_read`. -/
def ioRead (nbytes : BitVec 16) : DevM Unit := do
  match ← openFilter with
  | some filter => filterRead host (.read nbytes) filter
  | none =>
    match ← call host.readv with
    | none => writeReply (← get).errno 0
    | some r => writeReply qeok (BitVec.ofNat 16 r)

/-- `MainHandler::io_write`. -/
def ioWrite : DevM Unit := do
  match ← call host.writev with
  | none => writeReply (← get).errno 0
  | some r => writeReply qeok (BitVec.ofNat 16 r)

/-- `MainHandler::dev_tcflush`. -/
def devTcflush : DevM Unit := do
  let r ← call host.tcflush
  writeStatus (mapErrno (returned r))

/-- `MainHandler::dev_tcdrain`. -/
def devTcdrain : DevM Unit := do
  let r ← call host.tcdrain
  writeStatus (mapErrno (returned r))

/-- `TermiosSettings::approximate` of the host's settings. -/
def approximateSettings (minimum time timeout : BitVec 16) (ts : HostTermios) : HostTermios :=
  let t := Termios.approximate minimum time timeout
  { ts with
    lflag := ts.lflag &&& ~~~TermHandler.icanon
    cc := Function.update (Function.update ts.cc 5 t.vtime) 6 t.vmin }

/-- `MainHandler::dev_read`. -/
def devRead (proxy nbytes minimum time timeout : BitVec 16) : DevM Unit := do
  if proxy ≠ 0 then writeStatus qenotsup
  else
    match ← openFilter with
    | some filter => filterRead host (.devRead nbytes minimum time timeout) filter
    | none =>
      match ← call host.tcgetattr with
      | none => writeStatus (mapErrno (← get).errno)
      | some ts =>
        match ← call (host.tcsetattr (approximateSettings minimum time timeout ts)) with
        | none => writeStatus (mapErrno (← get).errno)
        | some () =>
          match ← call host.readv with
          | none => writeReply (mapErrno (← get).errno) 0
          | some r => writeReply qeok (BitVec.ofNat 16 r)

/-- `MainHandler::dev_mode`. -/
def devMode (mode mask : BitVec 16) : DevM Unit := do
  match ← call host.tcgetattr with
  | none => writeStatus (mapErrno (← get).errno)
  | some ts =>
    let r ← call (host.tcsetattr (TermHandler.devModeSettings mode mask ts))
    writeStatus (mapErrno (returned r))

/-- The handler of a request. -/
def receiveInner : DevRequest → DevM Unit
  | .ioRead nbytes => ioRead host nbytes
  | .ioWrite => ioWrite host
  | .devRead proxy nbytes minimum time timeout => devRead host proxy nbytes minimum time timeout
  | .tcflush => devTcflush host
  | .tcdrain => devTcdrain host
  | .devMode mode mask => devMode host mode mask

/-- `MainHandler::receive`. -/
def receive (request : DevRequest) : DevM Unit :=
  tryCatch (receiveInner host request) fun
    | .badFd => writeStatus qebadf
    | e => throw e

/-- The state after a request, whether the handler returned or threw. -/
def after (request : DevRequest) (s : DevState) : DevState :=
  match (receive host request).run s with
  | .ok _ s' => s'
  | .error _ s' => s'

end DevHandler

/-! ## The status that is due -/

/-- How an operation is to be told. -/
def HostEvent.status : HostEvent → Option Int
  | .done => some qeok
  | .failed e => some (mapErrno e)
  | .preempted => some qeintr
  | .waiting => none

/-- How the operations of a request are to be told: like the first one that did not succeed. There is nothing
to tell of none. -/
def dueStatus (events : List HostEvent) : Option Int :=
  match events.find? (· ≠ .done) with
  | some event => event.status
  | none => if events = [] then none else some qeok

/-- A descriptor when a request arrives; `errno` may be left from anything before. -/
def DevState.start (isOpen : Bool) (filter : Option TerminalFilter) (errno : Int) : DevState :=
  ⟨isOpen, filter, errno, [], none⟩

/-- The reply has the status that is due. -/
def StatusTold (s : DevState) : Prop :=
  ∀ status, dueStatus s.events = some status → s.reply.map (·.status) = some (statusWord status)

/-- The two systems have the same number for the error. -/
def SameNumber (e : Int) : Prop := statusWord (mapErrno e) = statusWord e

/-- When a request is told right. -/
def ToldRight (host : DevHost) (isOpen : Bool) (filter : Option TerminalFilter) (errno : Int) :
    DevRequest → Prop
  | .ioRead _ => isOpen = true →
      (filter = none → ∀ e, host.readv = .error e → SameNumber e) ∧
        (filter ≠ none → ∀ e, host.tcgetattr ≠ .error e)
  | .ioWrite => ∀ e, host.writev = .error e → SameNumber e
  | .devRead proxy _ minimum time timeout => proxy = 0 → isOpen = true → ∀ f, filter = some f →
      host.readOutcome (.approximate minimum time timeout) f errno = .preempted → mapErrno errno = qeintr
  | .tcflush => ∀ e, host.tcflush = .error e → mapErrno e = qeio
  | .tcdrain => ∀ e, host.tcdrain = .error e → mapErrno e = qeio
  | .devMode mode mask => ∀ ts, host.tcgetattr = .ok ts → ∀ e,
      host.tcsetattr (TermHandler.devModeSettings mode mask ts) = .error e → mapErrno e = qeio

/-! ## Error numbers -/

/-- Small numbers are told by their words. -/
theorem statusWord_inj {a b : Int} (ha : 0 ≤ a ∧ a < 2 ^ 16) (hb : 0 ≤ b ∧ b < 2 ^ 16) :
    statusWord a = statusWord b ↔ a = b := by
  refine ⟨fun h => ?_, congrArg statusWord⟩
  have htoInt := congrArg BitVec.toNat h
  rw [statusWord, statusWord, BitVec.toNat_ofInt, BitVec.toNat_ofInt] at htoInt
  omega

/-! ## How `common_read` ends -/

/-- What `common_read` returns and the `errno` it leaves, by how it ends. An error is the last one; a signal
leaves `errno` alone. -/
inductive ReadEnds (errno : Int) : HostEvent → ReadEnd → Int → Prop where
  | done (e : Int) : ReadEnds errno .done .ready e
  | failed (e : Int) : ReadEnds errno (.failed e) (.failed (mapErrno e)) e
  | preempted : ReadEnds errno .preempted (.failed qeintr) errno
  | waiting (e : Int) : ReadEnds errno .waiting .waiting e

namespace Terminal

variable {rc : ReadContext} {firstPass : Bool} {pass : Pass} {passes : List Pass} {t t' : Terminal}

/-- A pass that does not end the read has nothing to do with `errno`. -/
theorem OnePass.errno_eq (h : OnePass rc firstPass pass t .waiting t') : t'.errno = t.errno := by
  cases h with
  | idle => rfl
  | got => rfl

theorem readEnds (rc : ReadContext) (firstPass : Bool) (passes : List Pass) (t : Terminal) :
    ReadEnds t.errno (t.readEvent rc firstPass passes) (t.commonRead rc firstPass passes).1
      (t.commonRead rc firstPass passes).2.errno := by
  induction passes generalizing firstPass t with
  | nil => exact .waiting _
  | cons pass passes ih =>
      have hpass := onePass rc firstPass pass t
      rw [commonRead_cons_eq, readEvent]
      generalize t.commonRead rc firstPass [pass] = r at hpass
      obtain ⟨res, t'⟩ := r
      cases res with
      | ready => exact .done _
      | waiting =>
          rw [← hpass.errno_eq]
          exact ih false t'
      | failed status =>
          cases hpass with
          | preempted hsig =>
              rw [hsig]
              exact .preempted
          | failed hsig =>
              rw [hsig]
              exact .failed _

end Terminal

/-! ## The handlers, operation by operation -/

namespace DevHandler

variable {host : DevHost} {s s' : DevState} {x : DevM Unit}

/-- The handler returns, or faults, in the state `s'`. -/
def EndsIn (x : DevM Unit) (s s' : DevState) : Prop :=
  x.run s = .ok () s' ∨ ∃ f, x.run s = .error (.fault f) s'

/-- `receive` leaves a fault alone. -/
theorem EndsIn.after {request : DevRequest} (h : EndsIn (receiveInner host request) s s') :
    after host request s = s' := by
  unfold DevHandler.after receive
  rw [EStateM.run_catch]
  rcases h with h | ⟨f, h⟩
  · rw [h]
  · rw [h]
    rfl

theorem call_ok {α : Type} {a : α} : (call (.ok a) : DevM (Option α)).run s =
    .ok (some a) { s with events := s.events ++ [.done] } := rfl

/-- The status after a read through the filter. -/
def filterStatus (body : ReadMsg) (errno : Int) : HostEvent → Option Int
  | .done => some qeok
  | .failed e => some (body.failStatus (mapErrno e) e)
  | .preempted => some (body.failStatus qeintr errno)
  | .waiting => none

theorem filterRead_ends {body : ReadMsg} (filter : TerminalFilter) {ts : Termios} {s₁ : DevState}
    (hts : (readSettings host body).run s = .ok ts s₁) (hreply : s₁.reply = none) :
    ∃ s', EndsIn (filterRead host body filter) s s' ∧
      s'.events = s₁.events ++ [host.readOutcome ts filter s₁.errno] ∧
      s'.reply.map (·.status) =
        (filterStatus body s₁.errno (host.readOutcome ts filter s₁.errno)).map statusWord := by
  have hends := Terminal.readEnds (.setup host.start ts) true host.passes ⟨filter, s₁.errno, []⟩
  rw [← DevHost.readOutcome] at hends
  unfold filterRead EndsIn
  rw [EStateM.run_bind_of_ok hts, EStateM.run_get_bind]
  dsimp only
  rw [note, EStateM.run_modify_bind]
  generalize host.readOutcome ts filter s₁.errno = event at *
  generalize Terminal.commonRead (.setup host.start ts) true host.passes ⟨filter, s₁.errno, []⟩ = r at *
  obtain ⟨res, t⟩ := r
  dsimp only
  rw [EStateM.run_modify_bind]
  dsimp only at hends
  generalize herrno : t.errno = e at *
  cases hends with
  | done e =>
      dsimp only
      rw [writeReply, EStateM.run_modify_bind]
      split
      · exact ⟨_, .inr ⟨.outOfBounds, rfl⟩, rfl, rfl⟩
      · exact ⟨_, .inl rfl, rfl, rfl⟩
  | failed e => exact ⟨_, .inl rfl, rfl, rfl⟩
  | preempted => exact ⟨_, .inl rfl, rfl, rfl⟩
  | waiting e => exact ⟨_, .inl rfl, rfl, by rw [hreply]; rfl⟩

/-- A request that was carried out up to its last operation is told by that. -/
theorem told_iff {before : List HostEvent} {event : HostEvent} {reply : Option (BitVec 16)}
    (hdone : ∀ e ∈ before, e = .done) (hevents : s'.events = before ++ [event])
    (hreply : s'.reply.map (·.status) = reply) :
    StatusTold s' ↔ ∀ status, event.status = some status → reply = some (statusWord status) := by
  have hfind : before.find? (· ≠ .done) = none := by simpa using hdone
  have hdue : dueStatus (before ++ [event]) = event.status := by
    rw [dueStatus, List.find?_append, hfind]
    cases event <;> simp [HostEvent.status]
  rw [StatusTold, hevents, hreply, hdue]

variable {request : DevRequest} {before : List HostEvent} {s₁ : DevState}

/-- A transfer the error of which goes into the reply as it is. -/
theorem transfer_told {outcome : Except Int Nat} (hdone : ∀ e ∈ s₁.events, e = .done)
    (hrun : (receiveInner host request).run s = (do
      match ← call outcome with
      | none => writeReply (← get).errno 0
      | some r => writeReply qeok (BitVec.ofNat 16 r) : DevM Unit).run s₁) :
    StatusTold (after host request s) ↔ ∀ e, outcome = .error e → SameNumber e := by
  cases outcome with
  | ok n =>
      have hend : EndsIn (receiveInner host request) s _ := .inl (hrun.trans rfl)
      rw [hend.after, told_iff hdone rfl rfl]
      simp [HostEvent.status]
  | error e =>
      have hend : EndsIn (receiveInner host request) s _ := .inl (hrun.trans rfl)
      rw [hend.after, told_iff hdone rfl rfl]
      simp [HostEvent.status, SameNumber, eq_comm]

/-- A call the result of which is mapped instead of its error. -/
theorem returned_told {outcome : Except Int Unit} (hdone : ∀ e ∈ s₁.events, e = .done)
    (hrun : (receiveInner host request).run s = (do
      let r ← call outcome
      writeStatus (mapErrno (returned r)) : DevM Unit).run s₁) :
    StatusTold (after host request s) ↔ ∀ e, outcome = .error e → mapErrno e = qeio := by
  cases outcome with
  | ok _ =>
      have hend : EndsIn (receiveInner host request) s _ := .inl (hrun.trans rfl)
      have hzero : mapErrno 0 = qeok := by decide
      rw [hend.after, told_iff hdone rfl rfl]
      simp [HostEvent.status, returned, hzero]
  | error e =>
      have hend : EndsIn (receiveInner host request) s _ := .inl (hrun.trans rfl)
      have hminus : mapErrno (-1) = qeio := by decide
      rw [hend.after, told_iff hdone rfl rfl]
      have hqeio : 0 ≤ qeio ∧ qeio < 2 ^ 16 := by decide
      simp [HostEvent.status, returned, hminus, statusWord_inj hqeio (mapErrno_bounds e), eq_comm]

/-- A handler that replies what its last operation came to. -/
theorem right_told (before : List HostEvent) (event : HostEvent) (hdone : ∀ e ∈ before, e = .done)
    (hrun : (receiveInner host request).run s = .ok () s') (hevents : s'.events = before ++ [event])
    (hreply : s'.reply.map (·.status) = event.status.map statusWord) :
    StatusTold (after host request s) := by
  have hend : EndsIn (receiveInner host request) s s' := .inl hrun
  rw [hend.after, told_iff hdone hevents hreply]
  rintro status hstatus
  rw [hstatus]
  rfl

theorem filterRead_told {body : ReadMsg} {filter : TerminalFilter} {ts : Termios}
    (hts : (readSettings host body).run s = .ok ts s₁) (hdone : ∀ e ∈ s₁.events, e = .done)
    (hreply : s₁.reply = none)
    (hrun : (receiveInner host request).run s = (filterRead host body filter).run s) :
    StatusTold (after host request s) ↔ ∀ status,
      (host.readOutcome ts filter s₁.errno).status = some status →
        (filterStatus body s₁.errno (host.readOutcome ts filter s₁.errno)).map statusWord =
          some (statusWord status) := by
  obtain ⟨s', hend, hevents, hstatus⟩ := filterRead_ends filter hts hreply
  have hend' : EndsIn (receiveInner host request) s s' := by
    unfold EndsIn
    rw [hrun]
    exact hend
  rw [hend'.after, told_iff hdone hevents hstatus]

variable {isOpen : Bool} {filter : Option TerminalFilter} {errno : Int}

/-- A descriptor that is not open: nothing is done. -/
theorem closed_told (hrun : (receiveInner host request).run s = .error .badFd s) (hevents : s.events = []) :
    StatusTold (after host request s) := by
  have hafter : (after host request s).events = [] := by
    unfold after receive
    rw [EStateM.run_catch, hrun]
    exact hevents
  intro status hdue
  rw [hafter] at hdue
  cases hdue

theorem ioRead_told {nbytes : BitVec 16} :
    StatusTold (after host (.ioRead nbytes) (.start isOpen filter errno)) ↔
      ToldRight host isOpen filter errno (.ioRead nbytes) := by
  unfold ToldRight
  cases isOpen with
  | false => exact iff_of_true (closed_told rfl rfl) (fun h => by cases h)
  | true =>
      cases filter with
      | none =>
          have hrun : (receiveInner host (.ioRead nbytes)).run (.start true none errno) = (do
              match ← call host.readv with
              | none => writeReply (← get).errno 0
              | some r => writeReply qeok (BitVec.ofNat 16 r) : DevM Unit).run (.start true none errno) := rfl
          rw [transfer_told (by simp [DevState.start]) hrun]
          simp
      | some f =>
          have hopen : openFilter.run (.start true (some f) errno) =
              .ok (some f) (.start true (some f) errno) := rfl
          have hrun : (receiveInner host (.ioRead nbytes)).run (.start true (some f) errno) =
              (filterRead host (.read nbytes) f).run (.start true (some f) errno) := by
            unfold receiveInner ioRead
            rw [EStateM.run_bind_of_ok hopen]
          cases hget : host.tcgetattr with
          | error e =>
              have hend : EndsIn (receiveInner host (.ioRead nbytes)) (.start true (some f) errno)
                  ⟨true, some f, e, [.failed e], none⟩ := by
                refine .inr ⟨.assertion "r == 0", ?_⟩
                rw [hrun]
                unfold filterRead readSettings
                rw [hget]
                rfl
              rw [hend.after]
              refine (told_iff (by simp) (show _ = [] ++ [HostEvent.failed e] from rfl) rfl).trans ?_
              simp [HostEvent.status]
          | ok ts =>
              have hts : (readSettings host (.read nbytes)).run (.start true (some f) errno) =
                  .ok ⟨ts.cc 6, ts.cc 5⟩ ⟨true, some f, errno, [.done], none⟩ := by
                unfold readSettings
                rw [hget]
                rfl
              rw [filterRead_told hts (by simp) rfl hrun]
              generalize DevHost.readOutcome _ _ _ _ = event
              cases event <;> simp [HostEvent.status, filterStatus, ReadMsg.failStatus]

/-- Without a filter, each of the three calls has its error told. -/
theorem devRead_plain_told {nbytes minimum time timeout : BitVec 16} :
    StatusTold (after host (.devRead 0 nbytes minimum time timeout) (.start true none errno)) := by
  have hrun : (receiveInner host (.devRead 0 nbytes minimum time timeout)).run
      (.start true none errno) = (do
        match ← call host.tcgetattr with
        | none => writeStatus (mapErrno (← get).errno)
        | some ts =>
          match ← call (host.tcsetattr (approximateSettings minimum time timeout ts)) with
          | none => writeStatus (mapErrno (← get).errno)
          | some () =>
            match ← call host.readv with
            | none => writeReply (mapErrno (← get).errno) 0
            | some r => writeReply qeok (BitVec.ofNat 16 r) : DevM Unit).run
      (.start true none errno) := rfl
  cases hget : host.tcgetattr with
  | error e =>
      rw [hget] at hrun
      exact right_told [] (.failed e) (by simp) hrun rfl rfl
  | ok ts =>
      rw [hget, EStateM.run_bind_of_ok call_ok] at hrun
      dsimp only at hrun
      cases hset : host.tcsetattr (approximateSettings minimum time timeout ts) with
      | error e =>
          rw [hset] at hrun
          exact right_told [.done] (.failed e) (by simp) hrun rfl rfl
      | ok _ =>
          rw [hset, EStateM.run_bind_of_ok call_ok] at hrun
          dsimp only at hrun
          cases hread : host.readv with
          | error e =>
              rw [hread] at hrun
              exact right_told [.done, .done] (.failed e) (by simp) hrun rfl rfl
          | ok n =>
              rw [hread] at hrun
              exact right_told [.done, .done] .done (by simp) hrun rfl rfl

/-- Through a filter, a signal is told by the `errno` from before. -/
theorem devRead_filter_told {nbytes minimum time timeout : BitVec 16} {f : TerminalFilter} :
    StatusTold (after host (.devRead 0 nbytes minimum time timeout) (.start true (some f) errno)) ↔
      (host.readOutcome (.approximate minimum time timeout) f errno = .preempted → mapErrno errno = qeintr) := by
  have hrun : (receiveInner host (.devRead 0 nbytes minimum time timeout)).run
      (.start true (some f) errno) = (filterRead host (.devRead nbytes minimum time timeout) f).run
        (.start true (some f) errno) := rfl
  have hts : (readSettings host (.devRead nbytes minimum time timeout)).run (.start true (some f) errno) =
      .ok (.approximate minimum time timeout) ⟨true, some f, errno, [], none⟩ := rfl
  rw [filterRead_told hts (by simp) rfl hrun]
  dsimp only
  generalize DevHost.readOutcome _ _ _ _ = event
  cases event with
  | preempted =>
      have hqeintr : 0 ≤ qeintr ∧ qeintr < 2 ^ 16 := by decide
      have hinj := statusWord_inj (mapErrno_bounds errno) hqeintr
      simp [HostEvent.status, filterStatus, ReadMsg.failStatus, hinj]
  | done => simp [HostEvent.status, filterStatus]
  | failed e => simp [HostEvent.status, filterStatus, ReadMsg.failStatus]
  | waiting => simp [HostEvent.status]

theorem devRead_told {proxy nbytes minimum time timeout : BitVec 16} :
    StatusTold (after host (.devRead proxy nbytes minimum time timeout) (.start isOpen filter errno)) ↔
      ToldRight host isOpen filter errno (.devRead proxy nbytes minimum time timeout) := by
  unfold ToldRight
  by_cases hproxy : proxy = 0
  · subst hproxy
    cases isOpen with
    | false => exact iff_of_true (closed_told rfl rfl) (fun _ h => by cases h)
    | true =>
        cases filter with
        | none => exact iff_of_true devRead_plain_told (fun _ _ f hf => by cases hf)
        | some f =>
            rw [devRead_filter_told]
            simp only [true_implies, Option.some.injEq, forall_eq']
  · have hrun : (receiveInner host (.devRead proxy nbytes minimum time timeout)).run
        (.start isOpen filter errno) = (writeStatus qenotsup).run (.start isOpen filter errno) := by
      show EStateM.run (if proxy ≠ 0 then writeStatus qenotsup else _) _ = _
      rw [if_pos hproxy]
    have hend : EndsIn (receiveInner host (.devRead proxy nbytes minimum time timeout))
        (.start isOpen filter errno) ⟨isOpen, filter, errno, [], some ⟨statusWord qenotsup, none⟩⟩ :=
      .inl hrun
    rw [hend.after]
    exact iff_of_true (fun status hdue => by cases hdue) (fun hzero => absurd hzero hproxy)

theorem devMode_told {mode mask : BitVec 16} :
    StatusTold (after host (.devMode mode mask) (.start isOpen filter errno)) ↔
      ToldRight host isOpen filter errno (.devMode mode mask) := by
  unfold ToldRight
  cases hget : host.tcgetattr with
  | error e =>
      refine iff_of_true ?_ (fun ts hts => by cases hts)
      have hrun : (receiveInner host (.devMode mode mask)).run (.start isOpen filter errno) = .ok ()
          ⟨isOpen, filter, e, [.failed e], some ⟨statusWord (mapErrno e), none⟩⟩ := by
        unfold receiveInner devMode
        rw [hget]
        rfl
      exact right_told [] (.failed e) (by simp) hrun rfl rfl
  | ok ts =>
      have hrun : (receiveInner host (.devMode mode mask)).run (.start isOpen filter errno) = (do
          let r ← call (host.tcsetattr (TermHandler.devModeSettings mode mask ts))
          writeStatus (mapErrno (returned r)) : DevM Unit).run ⟨isOpen, filter, errno, [.done], none⟩ := by
        unfold receiveInner devMode
        rw [hget]
        rfl
      rw [returned_told (by simp) hrun]
      simp

end DevHandler

/-- When the status of a reply is the one that is due, for every request and whatever the host does. -/
theorem status_iff (host : DevHost) (isOpen : Bool) (filter : Option TerminalFilter) (errno : Int)
    (request : DevRequest) :
    StatusTold (DevHandler.after host request (.start isOpen filter errno)) ↔
      ToldRight host isOpen filter errno request := by
  cases request with
  | ioRead nbytes => exact DevHandler.ioRead_told
  | ioWrite => exact DevHandler.transfer_told (fun e he => by cases he) rfl
  | devRead proxy nbytes minimum time timeout => exact DevHandler.devRead_told
  | tcflush => exact DevHandler.returned_told (fun e he => by cases he) rfl
  | tcdrain => exact DevHandler.returned_told (fun e he => by cases he) rfl
  | devMode mode mask => exact DevHandler.devMode_told

/-- A host on which every call fails, and where a signal is pending. -/
def DevHost.failing (e : Int) : DevHost where
  tcgetattr := .error e
  tcsetattr _ := .error e
  readv := .error e
  writev := .error e
  tcflush := .error e
  tcdrain := .error e
  start := ⟨1, 0⟩
  passes := [⟨⟨1, 0⟩, ⟨2#32⟩, .empty, .ok 0, .ok []⟩]

/-- `ECONNRESET` in a write has another number; a flush of a file that is no terminal is told as `QEIO`; a
terminal that was hung up has no settings; and a signal is told by the error before it. -/
theorem status_wrong :
    ¬StatusTold (DevHandler.after (.failing 104) .ioWrite (.start true none 0)) ∧
      ¬StatusTold (DevHandler.after (.failing 25) .tcflush (.start true none 0)) ∧
      ¬StatusTold (DevHandler.after (.failing 5) (.ioRead 1) (.start true (some .init) 0)) ∧
      ¬StatusTold (DevHandler.after (.failing 5) (.devRead 0 1 1 0 0) (.start true (some .init) 2)) := by
  refine ⟨?_, ?_, ?_, ?_⟩
  · intro h
    have htold := h 254 rfl
    revert htold
    decide
  · intro h
    have htold := h 25 rfl
    revert htold
    decide
  · intro h
    have htold := h 5 rfl
    revert htold
    decide
  · intro h
    have htold := h 4 rfl
    revert htold
    decide

end Qine
