import Qine.Term.Timespec

/-!
# The terminal filter

`TerminalFilter` (`fd_filter.cpp`) sits on a terminal fd and translates the xterm mouse reports
`ESC [ M b x y` in what the host delivers. Bytes wait in `m_buffer` as long as they may be the start
of a report, but not longer than 200 ms, and in `m_ready` until the guest asks for them.

`scan` says what `process` makes of a buffer when no timeout expires: a byte string comes out, and at
most the first two bytes of a report are held back (`process_eq_settle`).
-/

namespace Qine

/-! ## Times -/

/-- `esc_timeout`. -/
def escTimeout : Timespec := .ms 200

theorem Timespec.valid_escTimeout : escTimeout.Valid := valid_ms (by decide)

/-- The end of a wait. -/
theorem Timespec.nanos_add_escTimeout (start : Timespec) : (start.add escTimeout).nanos = start.nanos + 200000000 := by
  rw [nanos_add, escTimeout, nanos_ms]
  rfl

/-- The code's comparison with the end of a wait is one of nanoseconds. -/
theorem Timespec.ge_escTimeout {now start : Timespec} (hnow : now.Valid) (hstart : start.Valid) :
    now.ge (start.add escTimeout) = true ↔ start.nanos + 200000000 ≤ now.nanos := by
  rw [ge_iff hnow (valid_add hstart valid_escTimeout), nanos_add_escTimeout]

/-! ## The filter -/

/-- `TerminalFilter`. -/
structure TerminalFilter where
  buttons : Nat
  waitingForEsc : Bool
  escStartTime : Timespec
  buffer : List Byte
  ready : List Byte
  deriving DecidableEq, Repr

/-- `ESC`. -/
def esc : Byte := 27

/-- Not an escape character. -/
def isPlain (c : Byte) : Bool := c != esc

/-- The bracket after `ESC`. -/
def lbracket : Byte := 0x5B

/-- The letter of a mouse report. -/
def letterM : Byte := 0x4D

/-- `%d`. -/
def decimal (n : Int) : List Byte :=
  (if n < 0 then [0x2D] else []) ++ (Nat.toDigits 10 n.natAbs).map fun c => BitVec.ofNat 8 c.toNat

/-- `ESC [`, the arguments separated by semicolons, and `t`. The buffer of 50 characters is large
enough for five arguments. -/
def escMessage (args : List Int) : List Byte :=
  [esc, lbracket] ++ List.intercalate [0x3B] (args.map decimal) ++ [0x74]

/-- `EscType`. -/
inductive EscType where
  | unknown
  | recognized
  | incomplete
  deriving DecidableEq, Repr

/-- `K_MOUSE_BSELECT`, `K_MOUSE_BADJUST` or `K_MOUSE_BMENU`. -/
def qnxButton (b : BitVec 32) : Nat :=
  if b &&& 3 = 0 then 0x400 else if b &&& 3 = 1 then 0x200 else if b &&& 3 = 2 then 0x100 else 0

/-- The QNX message for a mouse report with the bytes `b`, `x`, `y`, and `m_buttons` after it. -/
def mouseMessage (buttons : Nat) (b x y : Byte) : List Byte × Nat :=
  let b := BitVec.ofInt 32 (b.toNat - 32)
  let column : Int := x.toNat - 33
  let row : Int := y.toNat - 33
  -- motion of a held button, release, press
  if b &&& 32 ≠ 0 then (escMessage [33, row, column, buttons / 256], buttons)
  else if b &&& 3 = 3 then (escMessage [32, row, column, buttons / 256], 0)
  else (escMessage [31, row, column, qnxButton b / 256, 1], buttons ||| qnxButton b)

namespace TerminalFilter

/-- `TerminalFilter::TerminalFilter`. -/
def init : TerminalFilter := ⟨0, false, ⟨0, 0⟩, [], []⟩

/-- `TerminalFilter::transfer`. -/
def transfer (f : TerminalFilter) (size : Nat) : TerminalFilter :=
  { f with ready := f.ready ++ f.buffer.take size, buffer := f.buffer.drop size }

/-- `TerminalFilter::drop`. -/
def drop (f : TerminalFilter) (size : Nat) : TerminalFilter :=
  { f with buffer := f.buffer.drop size }

/-- `TerminalFilter::parse_esc`, with the escape character at the head of the buffer. -/
def parseEsc (f : TerminalFilter) : EscType × TerminalFilter :=
  match f.buffer with
  | _ :: c :: rest =>
    if c = lbracket then
      match rest with
      | [] => (.incomplete, f)
      | d :: rest =>
        if d = letterM then
          match rest with
          | b :: x :: y :: _ =>
            let (msg, buttons) := mouseMessage f.buttons b x y
            (.recognized, { f with ready := f.ready ++ msg, buttons := buttons }.drop 6)
          -- a report whose coordinates have not arrived yet
          | _ => (.unknown, f)
        else (.unknown, f)
    else (.unknown, f)
  | _ => (.incomplete, f)

/-- One round of the loop of `TerminalFilter::process`, and whether there is another one. -/
def round (now : Timespec) (f : TerminalFilter) : TerminalFilter × Bool :=
  let f := f.transfer (f.buffer.takeWhile isPlain).length
  if f.buffer = [] then (f, false)
  else match f.parseEsc with
    | (.recognized, f) => ({ f with waitingForEsc := false }, true)
    | (.unknown, f) => ({ f with waitingForEsc := false }.transfer 1, true)
    | (.incomplete, f) =>
      if f.waitingForEsc then
        if now.ge (f.escStartTime.add escTimeout) then
          ({ f.transfer 1 with waitingForEsc := false }, true)
        else (f, false)
      else ({ f with escStartTime := now, waitingForEsc := true }, true)

/-- The loop of `TerminalFilter::process`. -/
def processLoop (now : Timespec) : Nat → TerminalFilter → TerminalFilter
  | 0, f => f
  | n + 1, f =>
    match round now f with
    | (f, true) => processLoop now n f
    | (f, false) => f

/-- `TerminalFilter::process`. A round takes a byte away, or starts to wait, or is the last one, which
bounds the fuel. -/
def process (now : Timespec) (f : TerminalFilter) : TerminalFilter :=
  processLoop now (2 * f.buffer.length + 2) f

end TerminalFilter

/-! ## What comes out of a byte string -/

/-- What comes out of a byte string, what of it is held back, and the buttons held after it. -/
structure Scanned where
  out : List Byte
  held : List Byte
  buttons : Nat
  deriving DecidableEq, Repr

/-- More output in front. -/
def Scanned.prepend (out : List Byte) (r : Scanned) : Scanned := { r with out := out ++ r.out }

/-- The start of a report that has to wait for more: `ESC` or `ESC [`. -/
def incomplete : List Byte → Bool
  | [c] => c == esc
  | [c, d] => c == esc && d == lbracket
  | _ => false

/-- A whole report at the head. -/
def startsReport : List Byte → Bool
  | c :: d :: e :: _ :: _ :: _ :: _ => c == esc && d == lbracket && e == letterM
  | _ => false

/-- Reports are translated, and all other bytes are passed on, except for the start of a report at
the end. -/
def scan (buttons : Nat) : List Byte → Scanned
  | [] => ⟨[], [], buttons⟩
  | c :: cs =>
    if incomplete (c :: cs) then ⟨[], c :: cs, buttons⟩
    else match cs with
      | d :: e :: b :: x :: y :: rest =>
        if startsReport (c :: d :: e :: b :: x :: y :: rest) then
          (scan (mouseMessage buttons b x y).2 rest).prepend (mouseMessage buttons b x y).1
        else (scan buttons (d :: e :: b :: x :: y :: rest)).prepend [c]
      | cs => (scan buttons cs).prepend [c]

variable {buttons : Nat} {c d : Byte} {cs : List Byte}

theorem scan_incomplete (h : incomplete cs = true) : scan buttons cs = ⟨[], cs, buttons⟩ := by
  cases cs with
  | nil => cases h
  | cons c cs =>
      unfold scan
      exact if_pos h

theorem scan_report (b x y : Byte) (rest : List Byte) :
    scan buttons (esc :: lbracket :: letterM :: b :: x :: y :: rest) =
      (scan (mouseMessage buttons b x y).2 rest).prepend (mouseMessage buttons b x y).1 := rfl

theorem scan_cons (hinc : incomplete (c :: cs) = false) (hrep : startsReport (c :: cs) = false) :
    scan buttons (c :: cs) = (scan buttons cs).prepend [c] := by
  conv_lhs => unfold scan
  rw [if_neg (by rw [hinc]; exact Bool.false_ne_true)]
  split
  · rw [if_neg (by rw [hrep]; exact Bool.false_ne_true)]
  · rfl

theorem eq_of_startsReport (h : startsReport cs = true) :
    ∃ b x y rest, cs = esc :: lbracket :: letterM :: b :: x :: y :: rest := by
  unfold startsReport at h
  split at h
  · next c d e b x y rest =>
      simp only [Bool.and_eq_true, beq_iff_eq] at h
      obtain ⟨⟨rfl, rfl⟩, rfl⟩ := h
      exact ⟨b, x, y, rest, rfl⟩
  · cases h

theorem eq_of_incomplete (h : incomplete cs = true) : cs = [esc] ∨ cs = [esc, lbracket] := by
  unfold incomplete at h
  split at h
  · rw [beq_iff_eq] at h
    exact .inl (by rw [h])
  · simp only [Bool.and_eq_true, beq_iff_eq] at h
    exact .inr (by rw [h.1, h.2])
  · cases h

/-- A byte string is empty, or waits, or begins with a report, or with a byte that is passed on. -/
theorem scan_cases (cs : List Byte) :
    cs = [] ∨ incomplete cs = true ∨ startsReport cs = true ∨
      ∃ c cs', cs = c :: cs' ∧ incomplete (c :: cs') = false ∧ startsReport (c :: cs') = false := by
  cases cs with
  | nil => exact .inl rfl
  | cons c cs =>
      cases hinc : incomplete (c :: cs) with
      | true => exact .inr (.inl rfl)
      | false =>
          cases hrep : startsReport (c :: cs) with
          | true => exact .inr (.inr (.inl rfl))
          | false => exact .inr (.inr (.inr ⟨c, cs, rfl, hinc, hrep⟩))

theorem incomplete_of_ne (h : c ≠ esc) : incomplete (c :: cs) = false := by
  unfold incomplete
  split
  · next heq => cases heq; simpa using h
  · next heq => cases heq; simp [h]
  · rfl

theorem startsReport_of_ne (h : c ≠ esc) : startsReport (c :: cs) = false := by
  unfold startsReport
  split
  · next heq => cases heq; simp [h]
  · rfl

theorem prepend_prepend (a b : List Byte) (r : Scanned) :
    (r.prepend b).prepend a = r.prepend (a ++ b) := by
  simp [Scanned.prepend]

/-- Bytes up to the first `ESC` are passed on. -/
theorem scan_takeWhile (cs : List Byte) :
    scan buttons cs = (scan buttons (cs.dropWhile isPlain)).prepend (cs.takeWhile isPlain) := by
  induction cs with
  | nil => rfl
  | cons c cs ih =>
      by_cases hc : c = esc
      · subst hc
        rfl
      · have hplain : isPlain c = true := by simpa [isPlain] using hc
        rw [scan_cons (incomplete_of_ne hc) (startsReport_of_ne hc), ih, prepend_prepend,
          List.takeWhile_cons_of_pos hplain, List.dropWhile_cons_of_pos hplain]
        rfl

/-! ## `process` scans the buffer -/

namespace TerminalFilter

variable {now : Timespec} {f : TerminalFilter}

/-- What `process` leaves when no timeout expires. The wait for the rest of a report starts when its
first byte is seen. -/
def settle (now : Timespec) (f : TerminalFilter) : TerminalFilter :=
  let r := scan f.buttons f.buffer
  { buttons := r.buttons
    waitingForEsc := !r.held.isEmpty
    escStartTime :=
      if r.held.isEmpty || f.waitingForEsc && incomplete f.buffer then f.escStartTime else now
    buffer := r.held
    ready := f.ready ++ r.out }

/-- A filter that waits has an `ESC` at the head of its buffer, and has not waited too long if it goes
on waiting. -/
structure Quiet (now : Timespec) (f : TerminalFilter) : Prop where
  head : f.waitingForEsc = true → f.buffer.head? = some esc
  soon : f.waitingForEsc = true → incomplete f.buffer = true →
    now.ge (f.escStartTime.add escTimeout) = false

theorem parseEsc_incomplete (h : incomplete f.buffer = true) : f.parseEsc = (.incomplete, f) := by
  unfold parseEsc
  rcases eq_of_incomplete h with h | h
  · rw [h]
  · rw [h]
    rfl

theorem parseEsc_report {b x y : Byte} {rest : List Byte}
    (h : f.buffer = esc :: lbracket :: letterM :: b :: x :: y :: rest) :
    f.parseEsc = (.recognized,
      { f with
        ready := f.ready ++ (mouseMessage f.buttons b x y).1
        buttons := (mouseMessage f.buttons b x y).2
        buffer := rest }) := by
  simp [parseEsc, TerminalFilter.drop, h]

theorem parseEsc_unknown (hbuf : f.buffer = esc :: cs) (hinc : incomplete (esc :: cs) = false)
    (hrep : startsReport (esc :: cs) = false) : f.parseEsc = (.unknown, f) := by
  unfold parseEsc
  rw [hbuf]
  cases cs with
  | nil => cases hinc
  | cons d cs =>
      dsimp only
      by_cases hd : d = lbracket
      · rw [if_pos hd]
        cases cs with
        | nil => rw [hd] at hinc; cases hinc
        | cons e cs =>
            dsimp only
            by_cases he : e = letterM
            · rw [if_pos he]
              split
              · next b x y rest _ => rw [hd, he] at hrep; cases hrep
              · rfl
            · rw [if_neg he]
      · rw [if_neg hd]

/-- The filter after the bytes up to the first `ESC` were passed on. -/
def passPlain (f : TerminalFilter) : TerminalFilter :=
  { f with
    ready := f.ready ++ f.buffer.takeWhile isPlain
    buffer := f.buffer.dropWhile isPlain }

theorem transfer_takeWhile (f : TerminalFilter) :
    f.transfer (f.buffer.takeWhile isPlain).length = f.passPlain := by
  have hsplit := List.takeWhile_append_dropWhile (p := isPlain) (l := f.buffer)
  have htake : f.buffer.take (f.buffer.takeWhile isPlain).length =
      f.buffer.takeWhile isPlain := by
    conv_lhs => rw [← hsplit]
    rw [List.take_left' (by simp)]
  have hdrop : f.buffer.drop (f.buffer.takeWhile isPlain).length =
      f.buffer.dropWhile isPlain := by
    conv_lhs => rw [← hsplit]
    rw [List.drop_left' (by simp)]
  rw [transfer, htake, hdrop, passPlain]

/-- What is left after that is empty or begins with `ESC`. -/
theorem head_passPlain {c : Byte} {cs : List Byte} (h : f.passPlain.buffer = c :: cs) : c = esc := by
  have hhead := List.head?_dropWhile_not (p := isPlain) f.buffer
  rw [show f.buffer.dropWhile isPlain = c :: cs from h] at hhead
  simpa [isPlain] using hhead

/-- There is nothing to pass on in front of an `ESC`. -/
theorem passPlain_of_head (h : f.buffer.head? = some esc) : f.passPlain = f := by
  cases f with
  | mk buttons waiting start buffer ready =>
      cases buffer with
      | nil => cases h
      | cons c cs =>
          cases h
          have hesc : isPlain esc = false := rfl
          simp [passPlain, hesc]

/-- What a round does once the plain bytes are passed on, and whether there is another one. -/
inductive Round (now : Timespec) (g : TerminalFilter) : TerminalFilter → Bool → Prop where
  | empty (hbuf : g.buffer = []) : Round now g g false
  | report {b x y : Byte} {rest : List Byte}
      (hbuf : g.buffer = esc :: lbracket :: letterM :: b :: x :: y :: rest) :
      Round now g { g with
        ready := g.ready ++ (mouseMessage g.buttons b x y).1
        buttons := (mouseMessage g.buttons b x y).2
        buffer := rest
        waitingForEsc := false } true
  | unknown {cs : List Byte} (hbuf : g.buffer = esc :: cs) (hinc : incomplete (esc :: cs) = false)
      (hrep : startsReport (esc :: cs) = false) :
      Round now g { g with ready := g.ready ++ [esc], buffer := cs, waitingForEsc := false } true
  | expired {cs : List Byte} (hbuf : g.buffer = esc :: cs) (hinc : incomplete (esc :: cs) = true)
      (hw : g.waitingForEsc = true) (hnow : now.ge (g.escStartTime.add escTimeout) = true) :
      Round now g { g with ready := g.ready ++ [esc], buffer := cs, waitingForEsc := false } true
  | waits (hinc : incomplete g.buffer = true) (hw : g.waitingForEsc = true)
      (hnow : now.ge (g.escStartTime.add escTimeout) = false) : Round now g g false
  | begins (hinc : incomplete g.buffer = true) (hw : g.waitingForEsc = false) :
      Round now g { g with escStartTime := now, waitingForEsc := true } true

theorem round_cases (now : Timespec) (f : TerminalFilter) :
    Round now f.passPlain (round now f).1 (round now f).2 := by
  have hhead := @head_passPlain f
  unfold round
  rw [transfer_takeWhile]
  generalize f.passPlain = g at hhead
  dsimp only
  rcases scan_cases g.buffer with hnil | hinc | hrep | ⟨c, cs, hbuf, hinc, hrep⟩
  · rw [if_pos hnil]
    exact .empty hnil
  · obtain ⟨cs, hbuf⟩ : ∃ cs, g.buffer = esc :: cs := by
      rcases eq_of_incomplete hinc with hbuf | hbuf
      · exact ⟨_, hbuf⟩
      · exact ⟨_, hbuf⟩
    rw [if_neg (by simp [hbuf]), parseEsc_incomplete hinc]
    dsimp only
    cases hw : g.waitingForEsc with
    | true =>
        rw [if_pos rfl]
        split
        · next hnow =>
            have h := Round.expired hbuf (hbuf ▸ hinc) hw hnow
            simpa [transfer, hbuf] using h
        · next hnow => exact .waits hinc hw (Bool.eq_false_iff.mpr hnow)
    | false => exact .begins hinc hw
  · obtain ⟨b, x, y, rest, hbuf⟩ := eq_of_startsReport hrep
    rw [if_neg (by simp [hbuf]), parseEsc_report hbuf]
    exact .report hbuf
  · obtain rfl : c = esc := hhead hbuf
    rw [if_neg (by simp [hbuf]), parseEsc_unknown hbuf hinc hrep]
    have h := @Round.unknown now _ _ hbuf hinc hrep
    simpa [transfer, hbuf] using h

theorem Quiet.passPlain_of_waiting (h : Quiet now f) (hw : f.waitingForEsc = true) :
    f.passPlain = f := passPlain_of_head (h.head hw)

theorem quiet_of_not_waiting (h : f.waitingForEsc = false) : Quiet now f where
  head hw := absurd (h.symm.trans hw) Bool.false_ne_true
  soon hw := absurd (h.symm.trans hw) Bool.false_ne_true

theorem Quiet.passPlain (h : Quiet now f) : Quiet now f.passPlain := by
  by_cases hw : f.waitingForEsc = true
  · rwa [h.passPlain_of_waiting hw]
  · exact quiet_of_not_waiting (f := f.passPlain) (Bool.not_eq_true _ ▸ hw)

theorem settle_passPlain (h : Quiet now f) : settle now f.passPlain = settle now f := by
  by_cases hw : f.waitingForEsc = true
  · rw [h.passPlain_of_waiting hw]
  · have hw' : f.waitingForEsc = false := by simpa using hw
    have hscan := @scan_takeWhile f.buttons f.buffer
    simp only [settle, hscan]
    simp [TerminalFilter.passPlain, Scanned.prepend, hw']

/-- What bounds the number of rounds. -/
def weight (f : TerminalFilter) : Nat := 2 * f.buffer.length + if f.waitingForEsc then 0 else 1

theorem weight_passPlain (f : TerminalFilter) : f.passPlain.weight ≤ f.weight := by
  have hle : (f.buffer.dropWhile isPlain).length ≤ f.buffer.length :=
    (List.dropWhile_sublist _).length_le
  unfold weight passPlain
  dsimp only
  omega

/-- A round after which there is another one takes weight away. -/
theorem Round.weight_lt {g h : TerminalFilter} (hround : Round now g h true) : h.weight < g.weight := by
  unfold weight
  cases hround with
  | report hbuf => grind
  | unknown hbuf => grind
  | expired hbuf => grind
  | begins hinc hw => grind

theorem isEmpty_of_incomplete {l : List Byte} (h : incomplete l = true) : l.isEmpty = false := by
  cases l with
  | nil => cases h
  | cons c cs => rfl

/-- A round either ends the loop in the settled state, or goes on from a filter with less weight that
settles to the same state. -/
theorem round_spec (hnow : now.Valid) (h : Quiet now f) :
    (round now f = (settle now f, false)) ∨
      ∃ g, round now f = (g, true) ∧ g.weight < f.weight ∧ Quiet now g ∧
        settle now g = settle now f := by
  have hq := h.passPlain
  have hle := weight_passPlain f
  have hround := round_cases now f
  rw [← settle_passPlain h]
  generalize round now f = r at hround
  obtain ⟨g, more⟩ := r
  dsimp only at hround
  generalize f.passPlain = f' at hq hle hround
  have hmore : more = true → g.weight < f.weight := by
    rintro rfl
    exact Nat.lt_of_lt_of_le hround.weight_lt hle
  cases hround with
  | empty hbuf =>
      -- nothing is left, and nothing waits
      have hw : g.waitingForEsc = false := by
        by_contra hw
        have hhead := hq.head (by simpa using hw)
        rw [hbuf] at hhead
        cases hhead
      left
      cases g with
      | mk buttons waiting start buffer ready =>
          cases hbuf
          cases hw
          simp [settle, scan]
  | waits hinc hw hnow =>
      left
      have hscan := @scan_incomplete g.buttons _ hinc
      have hempty := isEmpty_of_incomplete hinc
      cases g with
      | mk buttons waiting start buffer ready =>
          cases hw
          simp_all [settle]
  | begins hinc hw =>
      right
      have hscan := @scan_incomplete f'.buttons _ hinc
      have hempty := isEmpty_of_incomplete hinc
      refine ⟨_, rfl, hmore rfl, ⟨?_, ?_⟩, ?_⟩
      · intro _
        rcases eq_of_incomplete hinc with hbuf | hbuf <;>
        · show f'.buffer.head? = some esc
          rw [hbuf]
          rfl
      · -- the wait has just begun
        intro _ _
        rw [← Bool.not_eq_true, Timespec.ge_escTimeout hnow hnow]
        omega
      · simp [settle, hscan, hinc, hw, hempty]
  | expired hbuf hinc hw hexpired =>
      -- a quiet filter does not wait that long
      rw [hq.soon hw (hbuf ▸ hinc)] at hexpired
      cases hexpired
  | report hbuf =>
      right
      refine ⟨_, rfl, hmore rfl, quiet_of_not_waiting rfl, ?_⟩
      simp [settle, hbuf, scan_report, Scanned.prepend, incomplete]
  | unknown hbuf hinc hrep =>
      right
      refine ⟨_, rfl, hmore rfl, quiet_of_not_waiting rfl, ?_⟩
      simp [settle, hbuf, scan_cons hinc hrep, Scanned.prepend, hinc]

/-- With enough fuel for its rounds the loop ends in the settled state. -/
theorem processLoop_eq_settle (hnow : now.Valid) (n : Nat) (h : Quiet now f) (hn : f.weight < n) :
    processLoop now n f = settle now f := by
  induction n generalizing f with
  | zero => cases hn
  | succ n ih =>
      unfold processLoop
      rcases round_spec hnow h with hround | ⟨g, hround, hweight, hquiet, hsettle⟩
      · rw [hround]
      · rw [hround]
        dsimp only
        rw [ih hquiet (by omega), hsettle]

/-- `process` scans the buffer: what comes out is ready, and the rest waits. -/
theorem process_eq_settle (hnow : now.Valid) (h : Quiet now f) : process now f = settle now f := by
  apply processLoop_eq_settle hnow _ h
  unfold weight
  split <;> omega

end TerminalFilter
end Qine
