import Qine.Term.Waiting

/-!
# Reading from a terminal that was hung up

Every host read of a terminal that was hung up returns 0 bytes, and `common_read` takes that for a read
that brought nothing yet. `commonRead_ends_iff` says which reads end all the same: those that only poll,
those with a deadline, and those for which the bytes that arrived before are enough.
-/

namespace Qine

namespace TerminalFilter

variable {f : TerminalFilter} {c : Nat → Timespec} {clock : Timespec → Prop}

/-! ## A filter to which nothing is appended -/

/-- The filter after `k` calls of `process` at the times `c`. -/
def settling (c : Nat → Timespec) (f : TerminalFilter) : Nat → TerminalFilter
  | 0 => f
  | k + 1 => (settling c f k).process (c k)

theorem total_settling (k : Nat) : (settling c f k).total = f.total := by
  induction k with
  | zero => rfl
  | succ k ih => exact (total_process _ _).trans ih

theorem reached_settling (hc : ∀ k, clock (c k)) (h : Reached clock f) (k : Nat) :
    Reached clock (settling c f k) := by
  induction k with
  | zero => exact h
  | succ k ih => exact ih.process _ (hc k)

theorem settled_settling (h : f.Armed) (k : Nat) : (settling c f (k + 1)).Settled (c k) := by
  induction k with
  | zero => exact h.settled_process
  | succ k ih => exact ih.armed.settled_process

theorem process_of_nil {now : Timespec} (h : f.buffer = []) : f.process now = f := by
  rw [process_of_plain (by simp [h]), h, List.append_nil, ← h]

/-- While a filter waits for the rest of a report it is as it was when the wait was first noticed, and the
time is not up. -/
theorem settling_of_waiting (h : f.Armed) (k : Nat) (hw : (settling c f (k + 1)).waitingForEsc = true) :
    settling c f (k + 1) = settling c f 1 ∧
      ∀ j ≤ k, (c j).ge ((settling c f 1).escStartTime.add escTimeout) = false := by
  induction k with
  | zero =>
      refine ⟨rfl, fun j hj => ?_⟩
      obtain rfl := Nat.le_zero.mp hj
      exact ((settled_settling h 0).holds hw).early
  | succ k ih =>
      have hholds := (settled_settling h (k + 1)).holds hw
      cases hw' : (settling c f (k + 1)).waitingForEsc with
      | false =>
          -- there is nothing to wait for any more
          have hnil := (settled_settling h k).buffer_eq hw'
          have hsame : settling c f (k + 1 + 1) = settling c f (k + 1) := process_of_nil hnil
          rw [hsame] at hw
          cases hw.symm.trans hw'
      | true =>
          obtain ⟨hsame, hearly⟩ := ih hw'
          have hheld := ((settled_settling h k).holds hw').held
          cases hlate : (c (k + 1)).ge ((settling c f (k + 1)).escStartTime.add escTimeout) with
          | true =>
              have hnil : (settling c f (k + 1 + 1)).buffer = [] := process_of_late hheld hw' hlate
              have hheld' := hholds.held
              rw [hnil] at hheld'
              cases hheld'
          | false =>
              have hstays : settling c f (k + 1 + 1) = settling c f (k + 1) :=
                process_of_early hheld hw' hlate
              refine ⟨hstays.trans hsame, fun j hj => ?_⟩
              rcases Nat.lt_or_eq_of_le hj with hlt | rfl
              · exact hearly j (Nat.le_of_lt_succ hlt)
              · rw [← hsame]
                exact hlate

/-- A filter keeps waiting until the time is up. -/
theorem settling_of_early (h : f.Armed) (hw : (settling c f 1).waitingForEsc = true) (k : Nat)
    (hearly : ∀ j ≤ k, (c j).ge ((settling c f 1).escStartTime.add escTimeout) = false) :
    settling c f (k + 1) = settling c f 1 := by
  induction k with
  | zero => rfl
  | succ k ih =>
      have hsame := ih fun j hj => hearly j (Nat.le_succ_of_le hj)
      have hheld := ((settled_settling h 0).holds hw).held
      show (settling c f (k + 1)).process _ = _
      rw [hsame]
      exact process_of_early hheld hw (hearly (k + 1) (Nat.le_refl _))

/-- With a clock that goes on, all there is gets ready. -/
theorem exists_settling_ready (h : f.Armed) (hclock : ∀ T, ∃ m, ∀ k ≥ m, (c k).ge T = true) :
    ∃ k, (settling c f (k + 1)).ready.length = f.total := by
  obtain ⟨m, hm⟩ := hclock ((settling c f 1).escStartTime.add escTimeout)
  refine ⟨m, ?_⟩
  have hw : (settling c f (m + 1)).waitingForEsc = false := by
    rw [← Bool.not_eq_true]
    intro hw
    have hearly := (settling_of_waiting h m hw).2 m (Nat.le_refl _)
    cases hearly.symm.trans (hm m (Nat.le_refl _))
  rw [length_ready_of_nil ((settled_settling h m).buffer_eq hw), total_settling]

end TerminalFilter

/-! ## The passes after the hang-up -/

namespace Terminal

open TerminalFilter

variable {rc : ReadContext} {firstPass : Bool} {pass : Pass} {passes : Nat → Pass} {t t' t₀ : Terminal}
  {N m n k : Nat}

/-- What the first `n` of the passes do to a read. -/
def firstPasses (rc : ReadContext) (passes : Nat → Pass) (t : Terminal) (n : Nat) : ReadEnd × Terminal :=
  t.commonRead rc true ((List.range n).map passes)

theorem firstPasses_add (m n : Nat) : t.firstPasses rc passes (m + n) =
    match t.firstPasses rc passes m with
    | (.waiting, t') => commonRead rc (decide (m = 0)) ((List.range n).map fun k => passes (m + k)) t'
    | r => r := by
  have hempty : (List.map passes (List.range m)).isEmpty = decide (m = 0) := by
    cases m with
    | zero => rfl
    | succ m => simp
  unfold firstPasses
  rw [List.range_add, List.map_append, commonRead_append, hempty, Bool.true_and, List.map_map]
  rfl

theorem waiting_of_le (hle : m ≤ n) (h : (t.firstPasses rc passes n).1 = .waiting) :
    (t.firstPasses rc passes m).1 = .waiting := by
  obtain ⟨k, rfl⟩ := Nat.exists_eq_add_of_le hle
  rw [firstPasses_add] at h
  split at h
  · next heq => rw [heq]
  · exact h

/-- One pass more. -/
theorem onePass_firstPasses (h : (t.firstPasses rc passes n).1 = .waiting) :
    OnePass rc (decide (n = 0)) (passes n) (t.firstPasses rc passes n).2
      (t.firstPasses rc passes (n + 1)).1 (t.firstPasses rc passes (n + 1)).2 := by
  rw [firstPasses_add]
  generalize t.firstPasses rc passes n = r at h
  obtain ⟨res, t₁⟩ := r
  cases h
  exact onePass rc _ (passes n) t₁

/-- From a pass on, there are no signals, and every host read returns 0 bytes. -/
def HungUp (N : Nat) (passes : Nat → Pass) : Prop :=
  ∀ n ≥ N, (passes n).shouldPreempt = false ∧ (passes n).read = .ok []

/-- A `ppoll` fails while the filter `f` waits for the rest of an escape sequence. -/
def PollFails (passes : Nat → Pass) (f : TerminalFilter) : Prop :=
  f.waitingForEsc = true ∧ ∃ (k : Nat) (e : Int), (passes k).ppoll = .error e ∧
    ∀ j ≤ k, (passes j).now.ge (f.escStartTime.add escTimeout) = false

/-- After the hang-up `process` is all that happens to the filter. -/
theorem filter_firstPasses (hhung : HungUp N passes)
    (h : (t.firstPasses rc passes (N + k)).1 = .waiting) :
    (t.firstPasses rc passes (N + k)).2.filter =
      settling (fun k => (passes (N + k)).now) (t.firstPasses rc passes N).2.filter k := by
  induction k with
  | zero => rfl
  | succ k ih =>
      have hbefore := waiting_of_le (Nat.le_succ (N + k)) h
      have hpass := onePass_firstPasses hbefore
      have hread := (hhung (N + k) (Nat.le_add_right N k)).2
      rw [show (t.firstPasses rc passes (N + k + 1)).1 = .waiting from h] at hpass
      rw [settling, ← ih hbefore]
      show (t.firstPasses rc passes (N + k + 1)).2.filter = _
      generalize (t.firstPasses rc passes (N + k + 1)).2 = t' at hpass
      cases hpass with
      | idle => rfl
      | got _ _ _ hread' =>
          cases hread.symm.trans hread'
          simp [receive, processed]

/-- A time on the clock and 200 ms are not time zero, which stands for no deadline. -/
theorem isSet_escTimeout {start : Timespec} (h : start.Valid) :
    Deadline.isSet ⟨start.add escTimeout⟩ = true := by
  have hnonneg := h.nanos_nonneg
  apply Deadline.isSet_of_pos
  rw [Timespec.nanos_add_escTimeout]
  omega

variable {e : Int}

/-- A poll without a deadline of its own is one during an escape sequence. -/
theorem waiting_of_failed (hset : rc.deadline.isSet = false) (hmin : rc.minBytes ≠ 0)
    (h : t.wait rc pass = .failed e) : pass.ppoll = .error e ∧ t.filter.waitingForEsc = true := by
  rw [wait_eq] at h
  split at h
  · cases h
  · next hnot =>
      split at h
      · cases h
      · cases hp : pass.ppoll with
        | ok n => rw [hp] at h; cases h
        | error e' =>
            rw [hp] at h
            cases h
            refine ⟨rfl, ?_⟩
            by_contra hw
            rw [deadline_eq, if_neg (fun hesc => hw hesc.1)] at hnot
            exact hnot ⟨hmin, hset⟩

/-- Without the time, bytes, or a failing poll to end it, a pass after the hang-up does not end the read. -/
theorem waiting_of_hungUp {res : ReadEnd} (hpass : OnePass rc firstPass pass t res t')
    (hsig : pass.shouldPreempt = false) (hread : pass.read = .ok [])
    (hsettled : (t.processed pass.now).filter.Settled pass.now)
    (hset : rc.deadline.isSet = false) (hmin : rc.minBytes ≠ 0) (hfew : t.filter.total < rc.minBytes)
    (hpoll : (t.processed pass.now).filter.waitingForEsc = true → ∀ e, pass.ppoll ≠ .error e) :
    res = .waiting := by
  cases hpass with
  | preempted hsig' => cases hsig.symm.trans hsig'
  | enough _ henough =>
      have hle := length_ready_le (t.filter.process pass.now)
      rw [total_process] at hle
      exact absurd (Nat.le_trans henough.2 hle) (Nat.not_le.mpr hfew)
  | expired _ _ hwait => cases hset.symm.trans (ge_deadline_of_expired hsettled hwait).1
  | failed _ _ hwait =>
      rcases hwait with hwait | ⟨-, hread'⟩
      · obtain ⟨hp, hw⟩ := waiting_of_failed hset hmin hwait
        exact absurd hp (hpoll hw _)
      · cases hread.symm.trans hread'
  | idle => rfl
  | got => rfl

theorem reached_firstPasses (h : Reached Timespec.Valid t.filter) (hclock : ∀ n, (passes n).now.Valid)
    (n : Nat) : Reached Timespec.Valid (t.firstPasses rc passes n).2.filter := by
  refine reached_commonRead (fun pass hpass => ?_) h
  obtain ⟨k, -, rfl⟩ := List.mem_map.mp hpass
  exact hclock k

/-- Then the read goes on for ever. -/
theorem waiting_firstPasses (h : (t.firstPasses rc passes N).2.filter.Armed) (hhung : HungUp N passes)
    (hwaits : (t.firstPasses rc passes N).1 = .waiting) (hset : rc.deadline.isSet = false)
    (hmin : rc.minBytes ≠ 0) (hfew : (t.firstPasses rc passes N).2.filter.total < rc.minBytes)
    (hpoll : ¬ PollFails (fun k => passes (N + k))
      ((t.firstPasses rc passes N).2.filter.process (passes N).now)) (k : Nat) :
    (t.firstPasses rc passes (N + k)).1 = .waiting := by
  induction k with
  | zero => exact hwaits
  | succ k ih =>
      obtain ⟨hsig, hread⟩ := hhung (N + k) (Nat.le_add_right N k)
      have hfilter := filter_firstPasses hhung ih
      have hsettled := settled_settling h (c := fun k => (passes (N + k)).now) k
      have hpass : OnePass rc _ (passes (N + k)) _ _ _ := onePass_firstPasses ih
      refine waiting_of_hungUp hpass hsig hread ?_ hset hmin ?_ ?_
      · rw [processed, hfilter]
        exact hsettled
      · rw [hfilter, total_settling]
        exact hfew
      · rw [processed, hfilter]
        intro hw e hfails
        obtain ⟨hsame, hearly⟩ := settling_of_waiting h k hw
        have hw' : (settling (fun k => (passes (N + k)).now) (t.firstPasses rc passes N).2.filter
            (k + 1)).waitingForEsc = true := hw
        rw [hsame] at hw'
        exact hpoll ⟨hw', k, e, hfails, hearly⟩

/-! ## A read that goes on for ever -/

/-- A pass that does not end the read has found too few bytes, and has not found the time over. -/
theorem few_firstPasses (h : (t.firstPasses rc passes (n + 1)).1 = .waiting) :
    ¬ Enough rc (decide (n = 0)) ((t.firstPasses rc passes n).2.processed (passes n).now) ∧
      ∃ b, ((t.firstPasses rc passes n).2.processed (passes n).now).wait rc (passes n) = .go b := by
  have hpass := onePass_firstPasses (waiting_of_le (Nat.le_succ n) h)
  rw [h] at hpass
  exact hpass.few

theorem processed_firstPasses (hhung : HungUp N passes)
    (h : (t.firstPasses rc passes (N + k)).1 = .waiting) :
    ((t.firstPasses rc passes (N + k)).2.processed (passes (N + k)).now).filter =
      settling (fun k => (passes (N + k)).now) (t.firstPasses rc passes N).2.filter (k + 1) := by
  rw [processed, filter_firstPasses hhung h]
  rfl

section

variable (hall : ∀ n, (t.firstPasses rc passes n).1 = .waiting)
include hall

theorem minBytes_ne_zero_of_waiting : rc.minBytes ≠ 0 := by
  intro hmin
  -- the second pass of a poll returns
  refine (few_firstPasses (hall 2)).1 ⟨.inr (by simp), ?_⟩
  rw [hmin]
  exact Nat.zero_le _

variable (hgoes : ∀ T, ∃ m, ∀ n ≥ m, (passes n).now.ge T = true)
include hgoes

theorem no_deadline_of_waiting : rc.deadline.isSet = false := by
  rw [← Bool.not_eq_true]
  intro hset
  obtain ⟨m, hm⟩ := hgoes rc.deadline.v
  obtain ⟨b, hgo⟩ := (few_firstPasses (hall (m + 1))).2
  cases hgo.symm.trans (wait_of_late (minBytes_ne_zero_of_waiting hall) hset (hm m (Nat.le_refl m)))

variable (hhung : HungUp N passes)
include hhung

/-- The bytes that have arrived are too few, as all of them get ready at last. -/
theorem total_lt_of_waiting (harmed : (t.firstPasses rc passes N).2.filter.Armed) :
    (t.firstPasses rc passes N).2.filter.total < rc.minBytes := by
  by_contra hnot
  have hle := Nat.le_of_not_lt hnot
  obtain ⟨k, hk⟩ := exists_settling_ready harmed (c := fun k => (passes (N + k)).now) fun T => by
    obtain ⟨m, hm⟩ := hgoes T
    exact ⟨m, fun k hk => hm (N + k) (by omega)⟩
  have hready := processed_firstPasses hhung (hall (N + k))
  refine (few_firstPasses (hall (N + k + 1))).1 ⟨.inl ?_, ?_⟩
  · rw [hready, hk]
    exact Nat.lt_of_lt_of_le (Nat.pos_of_ne_zero (minBytes_ne_zero_of_waiting hall)) hle
  · rw [hready, hk]
    exact hle

theorem not_pollFails_of_waiting (hreached : Reached Timespec.Valid (t.firstPasses rc passes N).2.filter)
    (hclock : ∀ n, (passes n).now.Valid) :
    ¬ PollFails (fun k => passes (N + k))
      ((t.firstPasses rc passes N).2.filter.process (passes N).now) := by
  rintro ⟨hw, k, e, hfails, hearly⟩
  obtain ⟨b, hgo⟩ := (few_firstPasses (hall (N + k + 1))).2
  have hw' : (settling (fun k => (passes (N + k)).now) (t.firstPasses rc passes N).2.filter
      1).waitingForEsc = true := hw
  have hsame := (processed_firstPasses hhung (hall (N + k))).trans
    (settling_of_early hreached.armed hw' k hearly)
  have hstart := (reached_settling (fun k => hclock (N + k)) hreached 1).start hw'
  have hwait := @wait_of_fails rc (passes (N + k)) _ e (no_deadline_of_waiting hall hgoes)
    (by rw [hsame]; exact hw') (by rw [hsame]; exact isSet_escTimeout hstart)
    (by rw [hsame]; exact hearly k (Nat.le_refl k)) hfails
  cases hgo.symm.trans hwait

end

/-- A read of a terminal that is hung up before pass `N` ends exactly if it has ended by then, or only
polls, or has a deadline, or was to wait for no more bytes than have arrived, or a `ppoll` fails. -/
theorem commonRead_ends_iff (h : Reached Timespec.Valid t.filter) (hclock : ∀ n, (passes n).now.Valid)
    (hgoes : ∀ T, ∃ m, ∀ n ≥ m, (passes n).now.ge T = true) (hhung : HungUp N passes) :
    (∃ n, (t.firstPasses rc passes n).1 ≠ .waiting) ↔
      ∀ t₀, t.firstPasses rc passes N = (.waiting, t₀) →
        rc.minBytes = 0 ∨ rc.deadline.isSet = true ∨ rc.minBytes ≤ t₀.filter.total ∨
          PollFails (fun k => passes (N + k)) (t₀.filter.process (passes N).now) := by
  have hreached := @reached_firstPasses rc passes t h hclock N
  have harmed := hreached.armed
  constructor
  · rintro ⟨n, hends⟩ t₀ ht₀
    by_contra hnot
    simp only [not_or] at hnot
    obtain ⟨hmin, hset, hfew, hpoll⟩ := hnot
    have hwaits : (t.firstPasses rc passes N).1 = .waiting := by rw [ht₀]
    have ht₀' : (t.firstPasses rc passes N).2 = t₀ := by rw [ht₀]
    rw [← ht₀'] at hfew hpoll
    have hforever := waiting_firstPasses harmed hhung hwaits (by simpa using hset) hmin
      (Nat.lt_of_not_le hfew) hpoll n
    exact hends (waiting_of_le (Nat.le_add_left n N) hforever)
  · intro hcond
    by_contra hnot
    have hall : ∀ n, (t.firstPasses rc passes n).1 = .waiting := by
      intro n
      by_contra hends
      exact hnot ⟨n, hends⟩
    rcases hcond _ (Prod.ext (hall N) rfl) with hmin | hset | hle | hpoll
    · exact minBytes_ne_zero_of_waiting hall hmin
    · cases hset.symm.trans (no_deadline_of_waiting hall hgoes)
    · exact absurd hle (Nat.not_le.mpr (total_lt_of_waiting hall hgoes hhung harmed))
    · exact not_pollFails_of_waiting hall hgoes hhung hreached hclock hpoll

/-- A terminal that is hung up, with a pass every second. -/
def hungUpPasses (n : Nat) : Pass := ⟨⟨n + 1, 0⟩, .empty, .empty, .ok 1, .ok []⟩

theorem hungUp_hungUpPasses : HungUp 0 hungUpPasses := by
  refine fun n _ => ⟨?_, rfl⟩
  show (!(QnxSigset.empty.modify .empty .empty).isEmpty) = false
  decide

/-- A read with `VTIME` 10 ends. -/
theorem timed_read_ends :
    ∃ n, (init.firstPasses (.setup ⟨1, 0⟩ ⟨0, 10⟩) hungUpPasses n).1 ≠ .waiting := by
  have hset : (ReadContext.setup ⟨1, 0⟩ ⟨0, 10⟩).deadline.isSet = true := by decide
  refine (commonRead_ends_iff .init ?_ ?_ hungUp_hungUpPasses).mpr fun t₀ _ => .inr (.inl hset)
  · intro n
    have hpos : (0 : Int) ≤ n + 1 := by omega
    exact ⟨hpos, Int.le_refl 0, Timespec.nsecPerSec_pos⟩
  · intro T
    refine ⟨T.sec.toNat, fun n hn => ?_⟩
    have hlt : T.sec < n + 1 := by omega
    simp [hungUpPasses, Timespec.ge, hlt]

/-- A read with `VMIN` 1 and without `VTIME`, which waits for a byte, does not. -/
theorem blocking_read_never_ends :
    HungUp 0 hungUpPasses ∧
      ∀ n, (init.firstPasses (.setup ⟨1, 0⟩ ⟨1, 0⟩) hungUpPasses n).1 = .waiting := by
  refine ⟨hungUp_hungUpPasses, fun n => ?_⟩
  have hpoll : ¬ PollFails (fun k => hungUpPasses (0 + k)) (init.filter.process (hungUpPasses 0).now) := by
    rintro ⟨hw, -⟩
    revert hw
    decide
  have harmed : init.filter.Armed := fun hw => nomatch hw
  have hwaits := @waiting_firstPasses (.setup ⟨1, 0⟩ ⟨1, 0⟩) hungUpPasses init 0 harmed hungUp_hungUpPasses
    rfl (by decide) (by decide) (by decide) hpoll n
  rwa [Nat.zero_add] at hwaits

end Terminal
end Qine
