import Qine.Msg.Write
import Qine.Term.Filter

/-!
# Reading through the terminal filter

`TerminalFilter::read` and `dev_read` serve the guest's requests: `common_read` waits for input, a
signal or a deadline in passes, and the bytes that are ready then go into the reply. What the host
answers in a pass is part of the request here; a request whose passes run out is still waiting.

As long as the host sends no `ESC [ M`, the filter only moves bytes along: what the guest has got,
then `m_ready`, then `m_buffer` are the bytes read from the host (`served_eq_input`).
-/

namespace Qine

/-! ## Deadlines -/

/-- `Deadline`; time zero means that there is none. -/
structure Deadline where
  v : Timespec
  deriving DecidableEq, Repr

namespace Deadline

/-- `Deadline::Deadline`. -/
def none : Deadline := ⟨.make 0 0⟩

/-- `Deadline::is_set`. -/
def isSet (d : Deadline) : Bool := d.v.sec != 0 || d.v.nsec != 0

/-- `Deadline::operator|=`. There is no order on deadlines, so `<` compares the two conversions to
`bool`. -/
def combine (d b : Deadline) : Deadline :=
  if !d.isSet || b.isSet && decide (b.isSet.toNat < d.isSet.toNat) then b else d

end Deadline

/-! ## What a request waits for -/

/-- `c_cc[VMIN]` and `c_cc[VTIME]` of the terminal's settings. -/
structure Termios where
  vmin : Byte
  vtime : Byte
  deriving DecidableEq, Repr

/-- The fields of `io::read_request` and of `dev::read_request`. -/
inductive ReadMsg where
  | read (nbytes : BitVec 16)
  | devRead (nbytes minimum time timeout : BitVec 16)
  deriving DecidableEq, Repr

/-- `m_nbytes` as a `size_t`. It is signed in a `dev::read_request`. -/
def ReadMsg.toSize : ReadMsg → BitVec 16 → Nat
  | .read _, n => n.toNat
  | .devRead .., n => (n.signExtend 64).toNat

/-- `m_nbytes`. -/
def ReadMsg.nbytes : ReadMsg → BitVec 16
  | .read n => n
  | .devRead n .. => n

/-- `TermiosSettings::approximate`. -/
def Termios.approximate (minimum time timeout : BitVec 16) : Termios :=
  if timeout ≠ 0 then ⟨0, timeout.setWidth 8⟩ else ⟨minimum.setWidth 8, time.setWidth 8⟩

/-- `TerminalFilter::ReadContext`. -/
structure ReadContext where
  deadline : Deadline
  minBytes : Nat
  deriving DecidableEq, Repr

/-- `TerminalFilter::ReadContext::setup`. -/
def ReadContext.setup (now : Timespec) (ts : Termios) : ReadContext :=
  if ts.vmin = 0 then
    if ts.vtime = 0 then ⟨.none, 0⟩
    else ⟨⟨now.add (.ms (ts.vtime.toNat * 100))⟩, 1⟩
  else if ts.vtime = 0 then ⟨.none, ts.vmin.toNat⟩
  else ⟨.none, 1⟩

/-! ## Waiting -/

/-- What a pass of `common_read` gets from the clock, from signals and from the host. -/
structure Pass where
  now : Timespec
  sigpend : QnxSigset
  sigmask : QnxSigset
  /-- the error number, or how many descriptors are ready -/
  ppoll : Except Int Nat
  /-- the error number, or the input there is -/
  input : Except Int (List Byte)

/-- `Emu::should_preempt`. -/
def Pass.shouldPreempt (pass : Pass) : Bool := !(pass.sigpend.modify pass.sigmask .empty).isEmpty

/-- `::read` into the buffer of 128 bytes. -/
def Pass.read (pass : Pass) : Except Int (List Byte) := pass.input.map (·.take 128)

/-- The filter, the host's `errno`, and all the filter has read from the host. -/
structure Terminal where
  filter : TerminalFilter
  errno : Int
  input : List Byte

/-- `common_read` returned `true`, or `false` with a status, or still waits. -/
inductive ReadEnd where
  | ready
  | failed (status : Int)
  | waiting
  deriving DecidableEq, Repr

/-- What a pass does after it has looked at what is buffered. -/
inductive Wait where
  | expired
  | failed (errno : Int)
  | go (shouldReadData : Bool)
  deriving DecidableEq, Repr

namespace Terminal

/-- A fresh filter. -/
def init : Terminal := ⟨.init, 0, []⟩

/-- Wait for input or the nearer deadline. -/
def wait (rc : ReadContext) (pass : Pass) (t : Terminal) : Wait :=
  let deadline :=
    if t.filter.waitingForEsc then rc.deadline.combine ⟨t.filter.escStartTime.add escTimeout⟩
    else rc.deadline
  let polled :=
    match pass.ppoll with
    | .error e => .failed e
    | .ok n => .go (decide (0 < n))
  if rc.minBytes = 0 then polled
  else if deadline.isSet then if pass.now.ge deadline.v then .expired else polled
  else .go true

/-- More input at the end of `m_buffer`. -/
def receive (t : Terminal) (bytes : List Byte) : Terminal where
  filter := { t.filter with buffer := t.filter.buffer ++ bytes }
  errno := t.errno
  input := t.input ++ bytes

/-- `TerminalFilter::common_read`. -/
def commonRead (rc : ReadContext) : Bool → List Pass → Terminal → ReadEnd × Terminal
  | _, [], t => (.waiting, t)
  | firstPass, pass :: passes, t =>
    if pass.shouldPreempt then (.failed qeintr, t)
    else
      let t := { t with filter := t.filter.process pass.now }
      let n := t.filter.ready.length
      if (decide (0 < n) || !firstPass) && decide (rc.minBytes ≤ n) then (.ready, t)
      else match t.wait rc pass with
        | .expired => (.ready, t)
        | .failed e => (.failed (mapErrno e), { t with errno := e })
        | .go false => commonRead rc false passes t
        | .go true =>
          match pass.read with
          | .error e => (.failed (mapErrno e), { t with errno := e })
          | .ok bytes => commonRead rc false passes (t.receive bytes)

end Terminal

/-! ## Requests -/

/-- A request, the guest memory when it arrives, and what the host answers meanwhile. -/
structure ReadRequest where
  p : Process
  msg : Msg
  mem : Mem
  body : ReadMsg
  /-- the terminal's settings; only `read` asks for them -/
  tcgetattr : Option Termios
  start : Timespec
  passes : List Pass

/-- `sizeof(reply)` of both kinds. -/
def readReplySize : Nat := 8

/-- `io::read_reply` and `dev::read_reply`; the other fields are cleared. -/
def readReply (status : Int) (nbytes : BitVec 16) : List Byte :=
  leBytes 2 (BitVec.ofInt 16 status).toNat ++ leBytes 2 nbytes.toNat ++ leBytes 4 0

/-- The terminal and guest memory. -/
structure ReadState where
  term : Terminal
  mem : Mem

namespace ReadRequest

/-- A step on guest memory. -/
def onMem {α : Type} (x : EStateM Fault Mem α) : EStateM Fault ReadState α :=
  EStateM.zoom ReadState.mem (fun mem s => { s with mem := mem }) x

/-- Reply with what is ready. The result is what `Msg::write` transferred of it. -/
def handOver (r : ReadRequest) : EStateM Fault ReadState (List Byte) := do
  let ready := (← get).term.filter.ready
  let nbytes := BitVec.ofNat 16 (min ready.length (r.body.toSize r.body.nbytes))
  let n := r.body.toSize nbytes
  let _ ← onMem (r.msg.write r.p 0 (readReply qeok nbytes))
  -- a negative count would run past the end of `m_ready`
  if ready.length < n then throw .outOfBounds
  let k ← onMem (r.msg.write r.p readReplySize (ready.take n))
  modify fun s => { s with term.filter.ready := s.term.filter.ready.drop n }
  return (ready.take n).take k

/-- The settings the request goes by. -/
def settings (r : ReadRequest) : Except Fault Termios :=
  match r.body with
  | .read _ =>
    match r.tcgetattr with
    | some ts => .ok ts
    | none => .error (.assertion "r == 0")
  | .devRead _ minimum time timeout => .ok (.approximate minimum time timeout)

/-- The status of a reply after `common_read` has failed. `dev_read` takes it from `errno`. -/
def failStatus (r : ReadRequest) (status errno : Int) : Int :=
  match r.body with
  | .read _ => status
  | .devRead .. => mapErrno errno

/-- `TerminalFilter::read` and `TerminalFilter::dev_read`: what the guest got, unless the request is
still waiting. -/
def serve (r : ReadRequest) : EStateM Fault ReadState (Option (List Byte)) := do
  let ts ← EStateM.ofExcept r.settings
  let (res, t) := (← get).term.commonRead (.setup r.start ts) true r.passes
  modify fun s => { s with term := t }
  match res with
  | .waiting => return none
  | .failed status =>
    let _ ← onMem (r.msg.write r.p 0 (readReply (r.failStatus status t.errno) 0))
    return some []
  | .ready => return some (← r.handOver)

end ReadRequest

/-- A request that was answered, what the guest got, and guest memory after it. -/
structure Answer where
  request : ReadRequest
  bytes : List Byte
  mem : Mem

/-- One request after the other. The guest gets nothing from a request that faults, and none is served
while another one waits. -/
def serveAll : List ReadRequest → Terminal → List Answer × Terminal
  | [], t => ([], t)
  | r :: rs, t =>
    match r.serve.run ⟨t, r.mem⟩ with
    | .ok none s => ([], s.term)
    | .ok (some bytes) s => (⟨r, bytes, s.mem⟩ :: (serveAll rs s.term).1, (serveAll rs s.term).2)
    | .error _ s => serveAll rs s.term

/-- All the guest got. -/
def Answer.bytesOf (as : List Answer) : List Byte := (as.map Answer.bytes).flatten

/-! ## The filter moves bytes along -/

/-- There is no `ESC [ M` in the bytes. -/
def NoReport (cs : List Byte) : Prop := ¬ [esc, lbracket, letterM] <:+: cs

theorem NoReport.mono {cs ds : List Byte} (h : NoReport ds) (hsub : cs <:+: ds) : NoReport cs :=
  fun hrep => h (hrep.trans hsub)

namespace TerminalFilter

/-- `g` has the bytes of `f`, and some that waited in `f` may be ready in `g`. -/
structure Moved (f g : TerminalFilter) : Prop where
  bytes : g.ready ++ g.buffer = f.ready ++ f.buffer
  rest : g.buffer <:+ f.buffer

variable {now : Timespec} {f g h : TerminalFilter}

theorem Moved.refl (f : TerminalFilter) : Moved f f := ⟨rfl, List.suffix_rfl⟩

theorem Moved.trans (h₁ : Moved f g) (h₂ : Moved g h) : Moved f h :=
  ⟨h₂.bytes.trans h₁.bytes, h₂.rest.trans h₁.rest⟩

theorem moved_transfer (f : TerminalFilter) (size : Nat) : Moved f (f.transfer size) where
  bytes := by
    show f.ready ++ f.buffer.take size ++ f.buffer.drop size = f.ready ++ f.buffer
    rw [List.append_assoc, List.take_append_drop]
  rest := List.drop_suffix size f.buffer

theorem moved_round (hno : NoReport f.buffer) : Moved f (round now f).1 := by
  have hplain : Moved f f.passPlain := by
    rw [← transfer_takeWhile]
    exact moved_transfer f _
  have hround := round_cases now f
  refine hplain.trans ?_
  have hno' := hno.mono hplain.rest.isInfix
  generalize f.passPlain = g at hround hno'
  generalize (round now f).1 = g', (round now f).2 = more at hround
  cases hround with
  | empty => exact .refl g
  | report hbuf => exact absurd ⟨[], _, hbuf.symm⟩ hno'
  | unknown hbuf => exact ⟨by simp [hbuf], hbuf ▸ List.suffix_cons _ _⟩
  | expired hbuf => exact ⟨by simp [hbuf], hbuf ▸ List.suffix_cons _ _⟩
  | waits => exact .refl g
  | begins => exact ⟨rfl, List.suffix_rfl⟩

theorem moved_processLoop (n : Nat) (hno : NoReport f.buffer) : Moved f (processLoop now n f) := by
  induction n generalizing f with
  | zero => exact .refl f
  | succ n ih =>
      have hround : Moved f (round now f).1 := moved_round hno
      unfold processLoop
      split
      · next heq =>
          rw [heq] at hround
          exact hround.trans (ih (hno.mono hround.rest.isInfix))
      · next heq => rwa [heq] at hround

end TerminalFilter

/-! ## One request -/

namespace Terminal

variable {given : List Byte} {t : Terminal} {rc : ReadContext} {firstPass : Bool} {passes : List Pass}

/-- What the guest has got, then `m_ready`, then `m_buffer` are what was read from the host. -/
def Conserves (given : List Byte) (t : Terminal) : Prop :=
  given ++ t.filter.ready ++ t.filter.buffer = t.input

theorem Conserves.moved {f : TerminalFilter} (h : t.Conserves given)
    (hmoved : TerminalFilter.Moved t.filter f) : Conserves given { t with filter := f } := by
  show given ++ f.ready ++ f.buffer = t.input
  rw [List.append_assoc, hmoved.bytes, ← List.append_assoc]
  exact h

theorem Conserves.receive (h : t.Conserves given) (bytes : List Byte) :
    (t.receive bytes).Conserves given := by
  show given ++ t.filter.ready ++ (t.filter.buffer ++ bytes) = t.input ++ bytes
  rw [← List.append_assoc, h]

/-- `common_read` only adds to what was read. -/
theorem input_commonRead (rc : ReadContext) (firstPass : Bool) (passes : List Pass) (t : Terminal) :
    t.input <+: (t.commonRead rc firstPass passes).2.input := by
  induction passes generalizing t firstPass with
  | nil => exact List.prefix_rfl
  | cons pass passes ih =>
      unfold commonRead
      dsimp only
      split
      · exact List.prefix_rfl
      · split
        · exact List.prefix_rfl
        · split
          · exact List.prefix_rfl
          · exact List.prefix_rfl
          · exact ih false { t with filter := t.filter.process pass.now }
          · split
            · exact List.prefix_rfl
            · next bytes _ =>
                have hrest := ih false
                  (receive { t with filter := t.filter.process pass.now } bytes)
                exact (List.prefix_append _ bytes).trans hrest

/-- However it ends, `common_read` loses, changes and reorders nothing. -/
theorem Conserves.commonRead (h : t.Conserves given)
    (hno : NoReport (t.commonRead rc firstPass passes).2.input) :
    (t.commonRead rc firstPass passes).2.Conserves given := by
  induction passes generalizing t firstPass with
  | nil => exact h
  | cons pass passes ih =>
      have hbuf : NoReport t.filter.buffer := by
        have hin := (input_commonRead rc firstPass (pass :: passes) t).isInfix
        refine hno.mono (List.IsInfix.trans ?_ hin)
        rw [← h]
        exact (List.suffix_append _ _).isInfix
      have hproc : Conserves given { t with filter := t.filter.process pass.now } :=
        h.moved (TerminalFilter.moved_processLoop _ hbuf)
      unfold Terminal.commonRead at hno ⊢
      dsimp only at hno ⊢
      split
      · exact h
      · next hpreempt =>
          rw [if_neg hpreempt] at hno
          split
          · exact hproc
          · next hready =>
              rw [if_neg hready] at hno
              split
              · exact hproc
              · exact hproc
              · next hwait =>
                  rw [hwait] at hno
                  exact ih hproc hno
              · next hwait =>
                  rw [hwait] at hno
                  dsimp only at hno
                  split
                  · exact hproc
                  · next hread =>
                      rw [hread] at hno
                      exact ih (hproc.receive _) hno

/-- Nothing is lost, unless there is a report in the input. -/
def Tracks (given : List Byte) (t : Terminal) : Prop := NoReport t.input → t.Conserves given

theorem Tracks.commonRead (h : t.Tracks given) :
    (t.commonRead rc firstPass passes).2.Tracks given := by
  intro hno
  have hinput := (input_commonRead rc firstPass passes t).isInfix
  exact (h (hno.mono hinput)).commonRead hno

/-- Ready bytes that go to the guest are not lost. -/
theorem Tracks.handOver {bytes : List Byte} (h : t.Tracks given)
    (htake : bytes = t.filter.ready.take bytes.length) :
    Tracks (given ++ bytes) { t with filter.ready := t.filter.ready.drop bytes.length } := by
  intro hno
  have hsplit : bytes ++ t.filter.ready.drop bytes.length = t.filter.ready := by
    conv_lhs => arg 1; rw [htake]
    exact List.take_append_drop _ _
  show given ++ bytes ++ t.filter.ready.drop bytes.length ++ t.filter.buffer = t.input
  rw [List.append_assoc given, hsplit]
  exact h hno

end Terminal

namespace ReadRequest

variable {given : List Byte} {r : ReadRequest} {t : Terminal} {s : ReadState}

/-- `m_nbytes` is not negative. -/
def Nonneg (r : ReadRequest) : Prop :=
  match r.body with
  | .read _ => True
  | .devRead nbytes .. => 0 ≤ nbytes.toInt

/-- The reply area is large enough: up to `m_nbytes` bytes behind a header are transferred whole, if
the area does not fault. -/
def LargeEnough (r : ReadRequest) : Prop :=
  ∀ header data m₁ m₂ k₁ k₂, header.length = readReplySize → data.length ≤ r.body.nbytes.toNat →
    (r.msg.write r.p 0 header).run r.mem = .ok k₁ m₁ →
    (r.msg.write r.p readReplySize data).run m₁ = .ok k₂ m₂ → k₂ = data.length

/-- That is so if the receive entries have room for all of it and do not cover their own table. -/
theorem largeEnough_of_room {es : List MxferEntry} (hes : r.msg.rcv.entries r.mem r.msg.rcvParts = es)
    (hapart : r.msg.rcv.Apart (named r.p es) r.msg.rcvParts)
    (hroom : readReplySize + r.body.nbytes.toNat ≤ (addrs r.p es).length) : r.LargeEnough := by
  intro header data m₁ m₂ k₁ k₂ _ hdata hheader hwrite
  have hsame := ((Msg.write_leaves hes hapart).of_ok hheader).2
  have hes₁ := (EntryTable.entries_congr hapart hsame).trans hes
  have hk := ((Msg.write_leaves hes₁ hapart).of_ok hwrite).1
  omega

/-- Counts up to a request's `m_nbytes` survive the conversions. -/
theorem toSize_ofNat (hnn : r.Nonneg) {k : Nat} (hk : k ≤ r.body.nbytes.toNat) :
    r.body.toSize (BitVec.ofNat 16 k) = k := by
  unfold Nonneg at hnn
  cases hbody : r.body with
  | read nbytes =>
      rw [hbody] at hk
      have hlt : nbytes.toNat < 2 ^ 16 := nbytes.isLt
      exact Nat.mod_eq_of_lt (Nat.lt_of_le_of_lt hk hlt)
  | devRead nbytes minimum time timeout =>
      rw [hbody] at hk hnn
      have hk' : k ≤ nbytes.toNat := hk
      have hlt := nbytes.isLt
      have hpos := BitVec.toInt_eq_toNat_cond nbytes
      have hmsb : (BitVec.ofNat 16 k).msb = false := by
        rw [BitVec.msb_eq_decide, decide_eq_false_iff_not, BitVec.toNat_ofNat]
        split at hpos <;> omega
      show ((BitVec.ofNat 16 k).signExtend 64).toNat = k
      rw [BitVec.toNat_signExtend, hmsb, if_neg Bool.false_ne_true, BitVec.toNat_setWidth,
        BitVec.toNat_ofNat]
      split at hpos <;> omega

theorem toSize_nbytes (hnn : r.Nonneg) : r.body.toSize r.body.nbytes = r.body.nbytes.toNat := by
  have h := toSize_ofNat hnn (Nat.le_refl _)
  rwa [BitVec.ofNat_toNat, BitVec.setWidth_eq] at h

/-- The reply to a request: a header that announces `bytes`, and `bytes` behind it. -/
def Replied (r : ReadRequest) (bytes : List Byte) (m' : Mem) : Prop :=
  bytes.length ≤ r.body.nbytes.toNat ∧ ∃ status k₁ m₁ k₂,
    (r.msg.write r.p 0 (readReply status (BitVec.ofNat 16 bytes.length))).run r.mem = .ok k₁ m₁ ∧
      (r.msg.write r.p readReplySize bytes).run m₁ = .ok k₂ m'

/-- What is handed over is what `m_ready` loses, and the guest finds it behind the header. -/
theorem handOver_leaves (hnn : r.Nonneg) (hlarge : r.LargeEnough) (hmem : s.mem = r.mem) :
    r.handOver.Leaves s
      (fun bytes s' => bytes.length ≤ r.body.nbytes.toNat ∧
        s'.term = { s.term with filter.ready := s.term.filter.ready.drop bytes.length } ∧
        bytes = s.term.filter.ready.take bytes.length ∧
        ∃ k₁ m₁ k₂, (r.msg.write r.p 0 (readReply qeok (BitVec.ofNat 16 bytes.length))).run r.mem =
            .ok k₁ m₁ ∧
          (r.msg.write r.p readReplySize bytes).run m₁ = .ok k₂ s'.mem)
      (fun _ s' => s'.term = s.term) := by
  unfold handOver
  apply EStateM.leaves_get_bind
  dsimp only
  generalize hn : min s.term.filter.ready.length (r.body.toSize r.body.nbytes) = n
  rw [toSize_nbytes hnn] at hn
  have hle : n ≤ r.body.nbytes.toNat := by omega
  have hlen : n ≤ s.term.filter.ready.length := by omega
  have hdata : (s.term.filter.ready.take n).length = n := List.length_take_of_le hlen
  rw [toSize_ofNat hnn hle, if_neg (by omega)]
  refine EStateM.Leaves.bind (Q := fun k₁ s₁ => s₁.term = s.term ∧
    (r.msg.write r.p 0 (readReply qeok (BitVec.ofNat 16 n))).run r.mem = .ok k₁ s₁.mem) ?_ ?_
  · apply EStateM.leaves_zoom
    rw [hmem]
    exact ⟨fun h => ⟨rfl, h⟩, fun _ => rfl⟩
  · rintro k₁ s₁ ⟨hterm₁, hheader⟩
    refine EStateM.Leaves.bind (Q := fun k₂ s₂ => s₂.term = s.term ∧
      (r.msg.write r.p readReplySize (s.term.filter.ready.take n)).run s₁.mem = .ok k₂ s₂.mem) ?_ ?_
    · apply EStateM.leaves_zoom
      exact ⟨fun h => ⟨hterm₁, h⟩, fun _ => hterm₁⟩
    · rintro k₂ s₂ ⟨hterm₂, hwrite⟩
      have hk₂ := hlarge _ _ _ _ _ _ rfl (by rw [hdata]; exact hle) hheader hwrite
      apply EStateM.leaves_modify_bind
      apply EStateM.leaves_pure
      rw [hk₂, List.take_length, hdata]
      exact ⟨hle, by rw [hterm₂], rfl, k₁, s₁.mem, k₂, hheader, hwrite⟩

theorem serve_leaves (hnn : r.Nonneg) (hlarge : r.LargeEnough) (h : t.Tracks given) :
    r.serve.Leaves ⟨t, r.mem⟩
      (fun bytes s' => s'.term.Tracks (given ++ bytes.getD []) ∧
        ∀ b, bytes = some b → r.Replied b s'.mem)
      (fun _ s' => s'.term.Tracks given) := by
  unfold serve
  apply EStateM.leaves_ofExcept_bind
  · intro ts _
    apply EStateM.leaves_get_bind
    dsimp only
    have hread : (t.commonRead (.setup r.start ts) true r.passes).2.Tracks given := h.commonRead
    generalize t.commonRead (.setup r.start ts) true r.passes = res at hread
    obtain ⟨res, t'⟩ := res
    dsimp only at hread ⊢
    apply EStateM.leaves_modify_bind
    cases res with
    | waiting =>
        refine EStateM.leaves_pure ⟨?_, fun b hb => nomatch hb⟩
        rw [Option.getD_none, List.append_nil]
        exact hread
    | failed status =>
        refine EStateM.Leaves.bind (Q := fun k₁ s₁ => s₁.term = t' ∧
          (r.msg.write r.p 0 (readReply (r.failStatus status t'.errno) 0)).run r.mem =
            .ok k₁ s₁.mem) ?_ ?_
        · apply EStateM.leaves_zoom
          exact ⟨fun hw => ⟨rfl, hw⟩, fun _ => hread⟩
        · rintro k₁ s₁ ⟨hterm, hheader⟩
          refine EStateM.leaves_pure ⟨?_, ?_⟩
          · rw [Option.getD_some, List.append_nil, hterm]
            exact hread
          · rintro b ⟨⟩
            exact ⟨Nat.zero_le _, _, k₁, s₁.mem, 0, hheader, rfl⟩
    | ready =>
        refine EStateM.Leaves.bind ((handOver_leaves hnn hlarge rfl).mono (fun _ _ h => h) ?_) ?_
        · intro e s' hterm
          rw [hterm]
          exact hread
        · rintro bytes s' ⟨hle, hterm, htake, hwrites⟩
          refine EStateM.leaves_pure ⟨?_, ?_⟩
          · rw [Option.getD_some, hterm]
            exact hread.handOver htake
          · rintro b ⟨⟩
            exact ⟨hle, qeok, hwrites⟩
  · intro e _
    exact h

/-- The reply area is guest memory without overlaps, apart from the table that describes it, and has
room for the reply. -/
structure Plain (r : ReadRequest) : Prop where
  valid : ∀ e ∈ r.msg.rcv.entries r.mem r.msg.rcvParts, e.Valid r.p
  disjoint : (r.msg.rcv.entries r.mem r.msg.rcvParts).Pairwise (MxferEntry.DisjointFrom r.p)
  apart : r.msg.rcv.Apart (addrs r.p (r.msg.rcv.entries r.mem r.msg.rcvParts)) r.msg.rcvParts
  room : readReplySize + r.body.nbytes.toNat ≤
    (addrs r.p (r.msg.rcv.entries r.mem r.msg.rcvParts)).length

/-- The guest that reads its reply area finds the reply there. -/
theorem Replied.readWritten {bytes : List Byte} {m' : Mem} (h : r.Replied bytes m') (hr : r.Plain) :
    ∃ status, r.msg.readWritten r.p m' 0 (readReplySize + bytes.length) =
      .ok (readReply status (BitVec.ofNat 16 bytes.length) ++ bytes) := by
  obtain ⟨hle, status, k₁, m₁, k₂, hheader, hbytes⟩ := h
  refine ⟨status, ?_⟩
  generalize hhdr : readReply status (BitVec.ofNat 16 bytes.length) = header at hheader
  have hlen : header.length = readReplySize := by rw [← hhdr]; rfl
  obtain ⟨hv, hdisj, hapart, hroom⟩ := hr
  generalize hes : r.msg.rcv.entries r.mem r.msg.rcvParts = es at *
  rw [Msg.write_spec hv hes hapart] at hheader
  cases hheader
  have htable := EntryTable.entries_scatter (m := r.mem) (hapart.mono (List.drop_subset 0 _)) header
  rw [Msg.write_spec hv (htable.trans hes) hapart] at hbytes
  cases hbytes
  have hread := Msg.readWritten_scatterAll hv hes hapart (addrs_nodup hdisj)
    [(0, header), (readReplySize, bytes)] 0 (readReplySize + bytes.length)
  refine hread.trans ?_
  congr 1
  apply List.ext_getElem
  · rw [List.length_map, List.length_range, List.length_append, hlen]
  · intro i hi _
    rw [List.length_map, List.length_range] at hi
    rw [List.getElem_map, List.getElem_range, dif_pos (by omega)]
    by_cases hi' : i < readReplySize
    · rw [List.getElem_append_left (by omega)]
      simp [Memory.lastStored, Nat.not_le.mpr hi', hlen, hi']
    · rw [List.getElem_append_right (by omega)]
      have hb : i - readReplySize < bytes.length := by omega
      simp [Memory.lastStored, Nat.not_lt.mp hi', hlen, hb]

end ReadRequest

/-! ## All requests -/

theorem tracks_serveAll {rs : List ReadRequest} {given : List Byte} {t : Terminal}
    (hnn : ∀ r ∈ rs, r.Nonneg) (hlarge : ∀ r ∈ rs, r.LargeEnough) (h : t.Tracks given) :
    (serveAll rs t).2.Tracks (given ++ Answer.bytesOf (serveAll rs t).1) ∧
      ∀ a ∈ (serveAll rs t).1, a.request ∈ rs ∧ a.request.Replied a.bytes a.mem := by
  induction rs generalizing given t with
  | nil => exact ⟨by rwa [serveAll, Answer.bytesOf, List.map_nil, List.flatten_nil, List.append_nil],
      fun a ha => nomatch ha⟩
  | cons r rs ih =>
      have hserve := r.serve_leaves (hnn r List.mem_cons_self) (hlarge r List.mem_cons_self) h
      have hrest {given' : List Byte} {t' : Terminal} :=
        @ih given' t' (fun r hr => hnn r (List.mem_cons_of_mem _ hr))
          (fun r hr => hlarge r (List.mem_cons_of_mem _ hr))
      unfold serveAll
      split
      · next hres => exact ⟨(hserve.of_ok hres).1, fun a ha => nomatch ha⟩
      · next bytes s hres =>
          obtain ⟨htracks, hreplied⟩ := hserve.of_ok hres
          obtain ⟨hend, hall⟩ := hrest htracks
          refine ⟨?_, ?_⟩
          · rw [Option.getD_some, List.append_assoc] at hend
            exact hend
          · intro a ha
            rcases List.mem_cons.mp ha with rfl | ha
            · exact ⟨List.mem_cons_self, hreplied _ rfl⟩
            · exact ⟨List.mem_cons_of_mem _ (hall a ha).1, (hall a ha).2⟩
      · next hres =>
          obtain ⟨hend, hall⟩ := hrest (hserve.of_error hres)
          exact ⟨hend, fun a ha => ⟨List.mem_cons_of_mem _ (hall a ha).1, (hall a ha).2⟩⟩

/-- Without `ESC [ M` the filter is transparent. For every sequence of requests, whatever the clock,
the signals and the host do in between: the bytes the guest got, followed by `m_ready` and
`m_buffer`, are the bytes read from the host. In a reply area that is plain guest memory the guest
finds the bytes behind a header that announces them. -/
theorem served_eq_input {rs : List ReadRequest} (hnn : ∀ r ∈ rs, r.Nonneg)
    (hlarge : ∀ r ∈ rs, r.LargeEnough) (hno : NoReport (serveAll rs .init).2.input) :
    let (answers, t) := serveAll rs .init
    Answer.bytesOf answers ++ t.filter.ready ++ t.filter.buffer = t.input ∧
      ∀ a ∈ answers, a.request.Plain →
        ∃ status, a.request.msg.readWritten a.request.p a.mem 0 (readReplySize + a.bytes.length) =
          .ok (readReply status (BitVec.ofNat 16 a.bytes.length) ++ a.bytes) := by
  have hinit : Terminal.init.Tracks [] := fun _ => rfl
  obtain ⟨hend, hall⟩ := tracks_serveAll hnn hlarge hinit
  refine ⟨hend hno, ?_⟩
  intro a ha hplain
  exact (hall a ha).2.readWritten hplain

/-- A `dev_read` for four bytes, at least one, while the host delivers a letter and an `ESC`. -/
def readLetter : ReadRequest where
  p := Process.onePage
  msg := ⟨1, .translated [⟨0x100, 7, 0, 16⟩], 0, .translated []⟩
  mem := fun _ => 0
  body := .devRead 4 1 0 0
  tcgetattr := none
  start := ⟨1, 0⟩
  passes :=
    [⟨⟨1, 0⟩, .empty, .empty, .ok 1, .ok [0x41, esc]⟩, ⟨⟨1, 5000⟩, .empty, .empty, .ok 0, .ok []⟩]

/-- The letter goes to the guest and the `ESC` is held back. -/
theorem served_readLetter :
    let (answers, t) := serveAll [readLetter] .init
    Answer.bytesOf answers = [0x41] ∧ t.filter.buffer = [esc] ∧
      Answer.bytesOf answers ++ t.filter.ready ++ t.filter.buffer = t.input := by
  have hnn : ∀ r ∈ [readLetter], r.Nonneg := by
    intro r hr
    obtain rfl := List.mem_singleton.mp hr
    show (0 : Int) ≤ (4 : BitVec 16).toInt
    decide
  have hlarge : ∀ r ∈ [readLetter], r.LargeEnough := by
    intro r hr
    obtain rfl := List.mem_singleton.mp hr
    exact ReadRequest.largeEnough_of_room rfl trivial (by decide)
  have hno : NoReport (serveAll [readLetter] .init).2.input := by
    unfold NoReport
    decide +kernel
  exact ⟨by decide +kernel, by decide +kernel, (served_eq_input hnn hlarge hno).1⟩

end Qine
