import Qine.Term.HangUp

/-!
# Deadlines

`Deadline::operator|=` is to keep the nearer of two deadlines. It compares them as truth values, so it keeps
its left side whenever that is set (`nearest_deadline_iff`), and a pass of `common_read` waits for the
deadline of the read although an escape sequence is given up earlier. The timeout it gives `ppoll` is exact
(`poll_timeout`).

A `dev_read` has its own minimum, time and timeout, which go through the control characters of the host's
terminal settings. These have 8 bits, and 0 stands for a mode of its own (`dev_read_honoured_iff`).
-/

namespace Qine

/-! ## The nearer deadline -/

/-- The earlier of two times. -/
def Timespec.earlier (a b : Timespec) : Timespec := if a.ge b then b else a

/-- The time of a deadline, if there is one. -/
def Deadline.time (d : Deadline) : Option Timespec := if d.isSet then some d.v else Option.none

/-- Both deadlines are set, and the second one is earlier. -/
def Deadline.Overlooks (a b : Deadline) : Prop :=
  a.isSet = true ∧ b.isSet = true ∧ b.v.ge a.v = false

theorem Timespec.ge_total (a b : Timespec) : a.ge b = true ∨ b.ge a = true := by
  simp only [ge, Bool.or_eq_true, Bool.and_eq_true, decide_eq_true_eq, beq_iff_eq]
  omega

theorem Timespec.ge_antisymm {a b : Timespec} (h : a.ge b = true) (h' : b.ge a = true) : a = b := by
  cases a
  cases b
  simp only [ge, Bool.or_eq_true, Bool.and_eq_true, decide_eq_true_eq, beq_iff_eq] at h h'
  rw [Timespec.mk.injEq]
  omega

/-- The left side is the earlier one, unless the right side is strictly earlier. -/
theorem Timespec.earlier_eq_left_iff {a b : Timespec} : a.earlier b = a ↔ b.ge a = true := by
  unfold earlier
  split
  · next h =>
      constructor
      · rintro rfl
        exact h
      · exact fun h' => (ge_antisymm h h').symm
  · next h => exact iff_of_true rfl ((ge_total a b).resolve_left h)

theorem Deadline.time_combine (a b : Deadline) : (a.combine b).time = a.time.or b.time := by
  rw [combine_eq]
  unfold time
  cases ha : a.isSet <;> simp [ha]

/-- `|=` keeps the nearer deadline exactly if it does not overlook the right one. -/
theorem Deadline.time_combine_iff (a b : Deadline) :
    (a.combine b).time = Option.merge Timespec.earlier a.time b.time ↔ ¬ a.Overlooks b := by
  rw [time_combine]
  unfold time Overlooks
  cases a.isSet with
  | false => simp
  | true =>
      cases b.isSet with
      | false => simp
      | true =>
          simp only [if_true, Option.or_some, Option.merge_some_some, Option.some.injEq, true_and,
            Bool.not_eq_false]
          rw [eq_comm]
          exact Timespec.earlier_eq_left_iff

namespace Terminal

/-- The end of the wait for the rest of an escape sequence. -/
def escDeadline (t : Terminal) : Option Timespec :=
  if t.filter.waitingForEsc then some (t.filter.escStartTime.add escTimeout) else none

/-- The end of an escape sequence comes before the deadline of the read. -/
def EscFirst (rc : ReadContext) (t : Terminal) : Prop :=
  t.filter.waitingForEsc = true ∧ rc.deadline.isSet = true ∧
    (t.filter.escStartTime.add escTimeout).ge rc.deadline.v = false

theorem time_deadline_iff {rc : ReadContext} {t : Terminal}
    (h : TerminalFilter.Reached Timespec.Valid t.filter) :
    (t.deadline rc).time = Option.merge Timespec.earlier rc.deadline.time t.escDeadline ↔
      ¬ t.EscFirst rc := by
  unfold deadline escDeadline EscFirst
  cases hw : t.filter.waitingForEsc with
  | false => simp
  | true =>
      have hset := isSet_escTimeout (h.start hw)
      have htime : Deadline.time ⟨t.filter.escStartTime.add escTimeout⟩ =
          some (t.filter.escStartTime.add escTimeout) := if_pos hset
      rw [if_pos rfl, if_pos rfl, ← htime, Deadline.time_combine_iff]
      unfold Deadline.Overlooks
      rw [hset]
      simp

end Terminal

open Terminal in
/-- `|=` keeps the nearer of two deadlines exactly if it is not the right one of two that are set; and the
time a pass of `common_read` waits for is the nearer one exactly if it is not that of an escape sequence
while the read has a deadline of its own. -/
theorem nearest_deadline_iff (a b : Deadline) :
    ((a.combine b).time = Option.merge Timespec.earlier a.time b.time ↔ ¬ a.Overlooks b) ∧
    ∀ (rc : ReadContext) (pass : Pass) (t : Terminal), TerminalFilter.Reached Timespec.Valid t.filter →
      pass.now.Valid →
      (((t.processed pass.now).deadline rc).time =
          Option.merge Timespec.earlier rc.deadline.time (t.processed pass.now).escDeadline ↔
        ¬ (t.processed pass.now).EscFirst rc) :=
  ⟨Deadline.time_combine_iff a b, fun _ pass _ ht hnow => time_deadline_iff (ht.process pass.now hnow)⟩

/-- A read with a second to go, and an escape sequence that began with it. -/
theorem nearest_deadline_of_read :
    (Deadline.combine ⟨⟨3, 0⟩⟩ ⟨⟨5, 0⟩⟩).time = Option.merge Timespec.earlier (some ⟨3, 0⟩) (some ⟨5, 0⟩) ∧
      ((Terminal.init.processed ⟨1, 0⟩).deadline (.setup ⟨1, 0⟩ ⟨0, 10⟩)).time =
        Option.merge Timespec.earlier (some ⟨2, 0⟩) none := by
  have hnow : Timespec.Valid ⟨1, 0⟩ := by decide
  have hfirst : ¬ (Terminal.init.processed ⟨1, 0⟩).EscFirst (.setup ⟨1, 0⟩ ⟨0, 10⟩) := by
    rintro ⟨hw, -⟩
    revert hw
    decide
  have hkeeps : ¬ Deadline.Overlooks ⟨⟨3, 0⟩⟩ ⟨⟨5, 0⟩⟩ := by
    rintro ⟨-, -, hlate⟩
    revert hlate
    decide
  obtain ⟨hcombine, hpass⟩ := nearest_deadline_iff ⟨⟨3, 0⟩⟩ ⟨⟨5, 0⟩⟩
  exact ⟨hcombine.mpr hkeeps,
    (hpass (.setup ⟨1, 0⟩ ⟨0, 10⟩) (Terminal.quietPass 1) .init .init hnow).mpr hfirst⟩

/-- Of two deadlines that are set the left one is kept. So a read with a second to go waits for it, although
the escape sequence that began with it is given up after 200 ms. -/
theorem later_deadline_kept :
    let t := (Terminal.init.receive [esc]).processed ⟨1, 0⟩
    (Deadline.combine ⟨⟨5, 0⟩⟩ ⟨⟨3, 0⟩⟩).time = some ⟨5, 0⟩ ∧
      Deadline.combine ⟨⟨5, 0⟩⟩ ⟨⟨3, 0⟩⟩ ≠ Deadline.combine ⟨⟨3, 0⟩⟩ ⟨⟨5, 0⟩⟩ ∧
      TerminalFilter.Reached Timespec.Valid t.filter ∧ t.escDeadline = some ⟨1, 200000000⟩ ∧
      (t.deadline (.setup ⟨1, 0⟩ ⟨0, 10⟩)).time = some ⟨2, 0⟩ := by
  have hnow : Timespec.Valid ⟨1, 0⟩ := by decide
  refine ⟨by decide, by decide, ?_, by decide, by decide⟩
  exact .process _ hnow (.append [esc] .init)

/-! ## The timeout of a poll -/

/-- A time on the clock that leaves room for the longest wait. -/
structure Timespec.OnClock (t : Timespec) : Prop extends Valid t where
  sec_lt : t.sec < 2 ^ 63 - 60

namespace Timespec

variable {start : Timespec} {n : Int}

theorem OnClock.normalised (h : start.OnClock) : start.Normalised := by
  have hsec := h.sec_lt
  exact ⟨h.toValid, by omega⟩

/-- The end of a wait of up to a minute can be computed. -/
theorem OnClock.add_ms (h : start.OnClock) (hn : 0 ≤ n) (hlt : n ≤ 60000) :
    Bounded.ms n = some (ms n) ∧ Bounded.add start (ms n) = some (start.add (ms n)) ∧
      (start.add (ms n)).Normalised := by
  have hsec := h.sec_lt
  have hnsec := h.nsec_lt
  have hperiod := nanos_ms n
  have hroom : start.nanos + (ms n).nanos < 2 ^ 63 * nsecPerSec := by
    rw [hperiod]
    simp only [nanos, nsecPerSec] at hnsec ⊢
    omega
  have hms : (ms n).Normalised := by
    rw [(valid_ms hn).normalised_iff, hperiod, nsecPerSec]
    omega
  refine ⟨Bounded.ms_eq hn (by omega), ?_, ?_⟩
  · rw [Bounded.add_eq h.normalised hms]
    exact if_pos hroom
  · rw [(valid_add h.toValid (valid_ms hn)).normalised_iff, nanos_add]
    exact hroom

end Timespec

namespace Terminal

open Timespec

variable {start : Timespec} {ts : Termios} {pass : Pass} {t : Terminal}

/-- What a read waits for is a time that can be computed. -/
theorem normalised_deadline (hstart : start.OnClock) (h : TerminalFilter.Reached OnClock t.filter)
    (hset : (t.deadline (.setup start ts)).isSet = true) : (t.deadline (.setup start ts)).v.Normalised := by
  rw [deadline_eq] at hset ⊢
  split at hset
  · next hesc =>
      rw [if_pos hesc]
      exact ((h.start hesc.1).add_ms (n := 200) (by decide) (by decide)).2.2
  · next hesc =>
      rw [if_neg hesc]
      unfold ReadContext.setup at hset ⊢
      split at hset
      · next hmin =>
          split at hset
          · cases hset
          · next htime =>
              have hvtime := ts.vtime.isLt
              rw [if_pos hmin, if_neg htime]
              exact (hstart.add_ms (by omega) (by omega)).2.2
      · split at hset <;> cases hset

/-- A pass that waits for a time and is not too late gives `ppoll` a timeout that is exact: it is more than zero, and
leads from now to the deadline. -/
theorem poll_timeout (hstart : start.OnClock) (h : TerminalFilter.Reached OnClock t.filter)
    (hnow : pass.now.OnClock) (hmin : (ReadContext.setup start ts).minBytes ≠ 0)
    (hset : (t.deadline (.setup start ts)).isSet = true) (hwait : t.wait (.setup start ts) pass ≠ .expired) :
    ∃ timeout, Bounded.sub (t.deadline (.setup start ts)).v pass.now = some timeout ∧ timeout.Normalised ∧
      0 < timeout.nanos ∧ Bounded.add pass.now timeout = some (t.deadline (.setup start ts)).v := by
  have hdeadline := normalised_deadline hstart h hset
  have hearly : ¬ pass.now.ge (t.deadline (.setup start ts)).v = true := by
    intro hlate
    rw [wait_eq, if_neg (by simp [hset]), if_pos ⟨hmin, hlate⟩] at hwait
    exact hwait rfl
  rw [ge_iff hnow.toValid hdeadline.toValid] at hearly
  obtain ⟨timeout, hsub, hnormal, hnanos, hadd⟩ := Bounded.sub_exact hdeadline hnow.normalised (by omega)
  exact ⟨timeout, hsub, hnormal, by omega, hadd⟩

end Terminal

/-! ## The settings of a `dev_read` -/

/-- The read waits as the fields of the request say: for one byte until a timeout, or else for the minimum,
or a single byte with an inter-byte time, or else until the time has passed, and it polls if there is none
of them. -/
structure ReadContext.Honours (rc : ReadContext) (now : Timespec) (minimum time timeout : BitVec 16) :
    Prop where
  waits_timeout : timeout ≠ 0 → rc.minBytes = 1 ∧ rc.deadline = ⟨now.add (.ms (timeout.toNat * 100))⟩
  waits_minimum : timeout = 0 → minimum ≠ 0 →
    rc.minBytes = (if time = 0 then minimum.toNat else 1) ∧ rc.deadline = .none
  waits_time : timeout = 0 → minimum = 0 → time ≠ 0 →
    rc.deadline = ⟨now.add (.ms (time.toNat * 100))⟩
  polls : rc.minBytes = 0 → minimum = 0 ∧ time = 0 ∧ timeout = 0

theorem ReadContext.honours_iff {rc : ReadContext} {now : Timespec} {minimum time timeout : BitVec 16} :
    rc.Honours now minimum time timeout ↔
      (timeout ≠ 0 → rc.minBytes = 1 ∧ rc.deadline = ⟨now.add (.ms (timeout.toNat * 100))⟩) ∧
      (timeout = 0 → minimum ≠ 0 →
        rc.minBytes = (if time = 0 then minimum.toNat else 1) ∧ rc.deadline = .none) ∧
      (timeout = 0 → minimum = 0 → time ≠ 0 → rc.deadline = ⟨now.add (.ms (time.toNat * 100))⟩) ∧
      (rc.minBytes = 0 → minimum = 0 ∧ time = 0 ∧ timeout = 0) :=
  ⟨fun ⟨h₁, h₂, h₃, h₄⟩ => ⟨h₁, h₂, h₃, h₄⟩, fun ⟨h₁, h₂, h₃, h₄⟩ => ⟨h₁, h₂, h₃, h₄⟩⟩

/-- The fields that count survive in 8 bits. -/
def Narrow (minimum time timeout : BitVec 16) : Prop :=
  if timeout ≠ 0 then timeout.toNat < 256
  else if minimum = 0 then time.toNat < 256
  else if time = 0 then minimum.toNat < 256
  else minimum.toNat % 256 ≠ 0 ∧ (time.toNat % 256 ≠ 0 ∨ minimum.toNat % 256 = 1)

variable {now : Timespec} {minimum time timeout : BitVec 16}

theorem setWidth_eq_zero_iff {x : BitVec 16} : x.setWidth 8 = 0#8 ↔ x.toNat % 256 = 0 := by
  rw [← BitVec.toNat_inj, BitVec.toNat_setWidth]
  rfl

theorem eq_zero_iff {x : BitVec 16} : x = 0 ↔ x.toNat = 0 := by
  rw [← BitVec.toNat_inj]
  rfl

/-- What the settings for a request make of it. -/
theorem setup_approximate : ReadContext.setup now (.approximate minimum time timeout) =
    if timeout.toNat ≠ 0 then
      if timeout.toNat % 256 = 0 then ⟨.none, 0⟩
      else ⟨⟨now.add (.ms ((timeout.toNat % 256 : Nat) * 100))⟩, 1⟩
    else if minimum.toNat % 256 = 0 then
      if time.toNat % 256 = 0 then ⟨.none, 0⟩
      else ⟨⟨now.add (.ms ((time.toNat % 256 : Nat) * 100))⟩, 1⟩
    else if time.toNat % 256 = 0 then ⟨.none, minimum.toNat % 256⟩
    else ⟨.none, 1⟩ := by
  unfold ReadContext.setup Termios.approximate
  by_cases htimeout : timeout = 0#16
  · have hzero := eq_zero_iff.mp htimeout
    simp [htimeout, setWidth_eq_zero_iff]
  · have hpos := mt eq_zero_iff.mpr htimeout
    simp [htimeout, hpos, setWidth_eq_zero_iff]

/-- The four modes of a request with the timeout `T`, the minimum `m` and the time `t`, where `d` is the
deadline after some tenths of a second. -/
theorem modes_iff {d : Nat → Deadline} (hinj : ∀ a b, d a = d b ↔ a = b) (hnone : ∀ a ≠ 0, d a ≠ .none)
    {rc : ReadContext} {m t T : Nat}
    (hrc : rc = if T ≠ 0 then
        if T % 256 = 0 then ⟨.none, 0⟩ else ⟨d (T % 256), 1⟩
      else if m % 256 = 0 then
        if t % 256 = 0 then ⟨.none, 0⟩ else ⟨d (t % 256), 1⟩
      else if t % 256 = 0 then ⟨.none, m % 256⟩ else ⟨.none, 1⟩) :
    ((T ≠ 0 → rc.minBytes = 1 ∧ rc.deadline = d T) ∧
      (T = 0 → m ≠ 0 → rc.minBytes = (if t = 0 then m else 1) ∧ rc.deadline = .none) ∧
      (T = 0 → m = 0 → t ≠ 0 → rc.deadline = d t) ∧
      (rc.minBytes = 0 → m = 0 ∧ t = 0 ∧ T = 0)) ↔
    if T ≠ 0 then T < 256 else if m = 0 then t < 256 else if t = 0 then m < 256
      else m % 256 ≠ 0 ∧ (t % 256 ≠ 0 ∨ m % 256 = 1) := by
  subst hrc
  split
  · split <;> grind
  · split
    · split <;> grind
    · split <;> grind

/-- A time on the clock and more is not time zero. -/
theorem add_ms_ne_none (hnow : now.Valid) {n : Nat} (hn : n ≠ 0) :
    (⟨now.add (.ms (n * 100))⟩ : Deadline) ≠ .none := by
  have hnonneg := hnow.nanos_nonneg
  have hset : Deadline.isSet ⟨now.add (.ms (n * 100))⟩ = true := by
    apply Deadline.isSet_of_pos
    rw [Timespec.nanos_add, Timespec.nanos_ms]
    omega
  intro heq
  rw [heq] at hset
  cases hset

/-- `dev_read` waits as the request says exactly if the fields it goes by survive in 8 bits. -/
theorem dev_read_honoured_iff (hnow : now.Valid) (minimum time timeout : BitVec 16) :
    (ReadContext.setup now (.approximate minimum time timeout)).Honours now minimum time timeout ↔
      Narrow minimum time timeout := by
  have hinj : ∀ m n : Nat, (⟨now.add (.ms (m * 100))⟩ : Deadline) = ⟨now.add (.ms (n * 100))⟩ ↔ m = n := by
    intro m n
    rw [Deadline.mk.injEq, Timespec.add_ms_inj]
    omega
  have hmodes := modes_iff hinj (fun n hn => add_ms_ne_none hnow hn)
    (@setup_approximate now minimum time timeout)
  simp only [ne_eq, ← eq_zero_iff] at hmodes
  unfold Narrow
  rw [ReadContext.honours_iff]
  exact hmodes

/-- A `dev_read` for one byte, without a limit of time. -/
theorem dev_read_one_honoured :
    (ReadContext.setup ⟨1, 0⟩ (.approximate 1 0 0)).Honours ⟨1, 0⟩ 1 0 0 := by
  have hnow : Timespec.Valid ⟨1, 0⟩ := by decide
  refine (dev_read_honoured_iff hnow 1 0 0).mpr ?_
  unfold Narrow
  decide

/-- A `dev_read` with a timeout of 25.6 seconds only polls. -/
theorem dev_read_timeout_lost :
    ReadContext.setup ⟨1, 0⟩ (.approximate 0 0 256) = ⟨.none, 0⟩ ∧
      ¬ (ReadContext.setup ⟨1, 0⟩ (.approximate 0 0 256)).Honours ⟨1, 0⟩ 0 0 256 := by
  refine ⟨by decide, fun h => ?_⟩
  have hpolls := (h.polls (by decide)).2.2
  revert hpolls
  decide

end Qine
