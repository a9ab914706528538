import Mathlib.Data.List.TakeWhile
import Qine.Term.Filter

/-!
# The loop of `process`

`process` loops until it has nothing to do, and one of its branches only starts to wait and goes round
again. `Returns` is the loop without a bound on its rounds; `returns_process` says that it ends from every
state and at every time, and that the rounds allowed to `processLoop` are enough.

A filter is `Reached` by appending to `m_buffer`, by `process`, and by taking bytes out of `m_ready`, in
any order. What is held back in such a filter after `process` is the start of a mouse report that has not
waited too long.
-/

namespace Qine

namespace TerminalFilter

variable {now : Timespec} {f g h : TerminalFilter} {clock : Timespec → Prop}

/-! ## The loop ends -/

/-- The loop of `TerminalFilter::process`, from `f` at the time `now`, returns and leaves `g`. -/
inductive Returns (now : Timespec) : TerminalFilter → TerminalFilter → Prop where
  | last {f g : TerminalFilter} (hround : round now f = (g, false)) : Returns now f g
  | again {f g h : TerminalFilter} (hround : round now f = (g, true)) (hrest : Returns now g h) :
      Returns now f h

theorem returns_processLoop (n : Nat) (hn : f.weight < n) : Returns now f (processLoop now n f) := by
  induction n generalizing f with
  | zero => cases hn
  | succ n ih =>
      have hcases := round_cases now f
      unfold processLoop
      split
      · next g hround =>
          rw [hround] at hcases
          have hlt : g.weight < f.passPlain.weight := hcases.weight_lt
          have hle := weight_passPlain f
          exact .again hround (ih (by omega))
      · next g hround => exact .last hround

/-- Whatever is buffered and whatever the time, `process` terminates. -/
theorem returns_process (now : Timespec) (f : TerminalFilter) : Returns now f (f.process now) := by
  apply returns_processLoop
  unfold weight
  split <;> omega

/-- There is only one way for the loop to end. -/
theorem Returns.unique (h₁ : Returns now f g) (h₂ : Returns now f h) : g = h := by
  induction h₁ with
  | last hround =>
      cases h₂ with
      | last hround' => cases hround.symm.trans hround'; rfl
      | again hround' _ => cases hround.symm.trans hround'
  | again hround _ ih =>
      cases h₂ with
      | last hround' => cases hround.symm.trans hround'
      | again hround' hrest' => cases hround.symm.trans hround'; exact ih hrest'

/-- What every round keeps, and what the last one establishes. -/
theorem Returns.rule {P Q : TerminalFilter → Prop} (hreturns : Returns now f g) (hf : P f)
    (hplain : ∀ f, P f → P f.passPlain) (hagain : ∀ f g, P f → Round now f g true → P g)
    (hlast : ∀ f g, P f → Round now f g false → Q g) : Q g := by
  induction hreturns with
  | @last f g hround =>
      have hcases := round_cases now f
      rw [hround] at hcases
      exact hlast _ _ (hplain _ hf) hcases
  | @again f g h hround _ ih =>
      have hcases := round_cases now f
      rw [hround] at hcases
      exact ih (hagain _ _ (hplain _ hf) hcases)

/-! ## What is held back -/

/-- The waiting flag does not outlive the `ESC` it refers to. -/
def Armed (f : TerminalFilter) : Prop := f.waitingForEsc = true → f.buffer.head? = some esc

theorem Armed.passPlain (h : f.Armed) : f.passPlain.Armed := by
  intro hw
  have hhead := h hw
  rwa [passPlain_of_head hhead]

theorem head_of_incomplete {cs : List Byte} (h : incomplete cs = true) : cs.head? = some esc := by
  rcases eq_of_incomplete h with rfl | rfl <;> rfl

theorem Armed.round (hround : Round now f g true) : g.Armed := by
  cases hround with
  | report => exact fun hw => nomatch hw
  | unknown => exact fun hw => nomatch hw
  | expired => exact fun hw => nomatch hw
  | begins hinc => exact fun _ => head_of_incomplete hinc

/-- A mouse report. -/
def IsReport (cs : List Byte) : Prop := ∃ b x y, cs = [esc, lbracket, letterM, b, x, y]

/-- The beginning of a mouse report, but not all of it, is held back, and its time is not up. -/
structure Holds (now : Timespec) (f : TerminalFilter) : Prop where
  waiting : f.waitingForEsc = true
  early : now.ge (f.escStartTime.add escTimeout) = false
  held : incomplete f.buffer = true
  head : f.buffer.head? = some esc
  start : ∃ report, IsReport report ∧ f.buffer <+: report ∧ f.buffer ≠ report

/-- Nothing is left to do for `process`. -/
def Settled (now : Timespec) (f : TerminalFilter) : Prop :=
  f.buffer = [] ∧ f.waitingForEsc = false ∨ f.Holds now

theorem Armed.settled (h : f.Armed) (hround : Round now f g false) : g.Settled now := by
  cases hround with
  | empty hbuf =>
      refine .inl ⟨hbuf, Bool.eq_false_iff.mpr fun hw => ?_⟩
      have hhead := h hw
      rw [hbuf] at hhead
      cases hhead
  | waits hinc hw hnow =>
      refine .inr ⟨hw, hnow, hinc, head_of_incomplete hinc, [esc, lbracket, letterM, 0, 0, 0],
        ⟨0, 0, 0, rfl⟩, ?_⟩
      rcases eq_of_incomplete hinc with hbuf | hbuf <;> rw [hbuf] <;> decide

theorem Armed.settled_process (h : f.Armed) : (f.process now).Settled now :=
  (returns_process now f).rule h (fun _ => Armed.passPlain) (fun _ _ _ => Armed.round)
    fun _ _ => Armed.settled

theorem Settled.buffer_eq (h : f.Settled now) (hw : f.waitingForEsc = false) : f.buffer = [] := by
  rcases h with ⟨hbuf, -⟩ | hholds
  · exact hbuf
  · cases hw.symm.trans hholds.waiting

theorem Settled.holds (h : f.Settled now) (hw : f.waitingForEsc = true) : f.Holds now := by
  rcases h with ⟨-, hw'⟩ | hholds
  · cases hw.symm.trans hw'
  · exact hholds

theorem Settled.armed (h : f.Settled now) : f.Armed := by
  rcases h with ⟨-, hw⟩ | hholds
  · exact fun hw' => nomatch hw.symm.trans hw'
  · exact fun _ => hholds.head

/-! ## Reachable filters -/

/-- The filters there can be, with a clock that shows the times `clock`. -/
inductive Reached (clock : Timespec → Prop) : TerminalFilter → Prop where
  | init : Reached clock init
  | append {f : TerminalFilter} (bytes : List Byte) (h : Reached clock f) :
      Reached clock { f with buffer := f.buffer ++ bytes }
  | process {f : TerminalFilter} (now : Timespec) (hnow : clock now) (h : Reached clock f) :
      Reached clock (f.process now)
  | take {f : TerminalFilter} (n : Nat) (h : Reached clock f) :
      Reached clock { f with ready := f.ready.drop n }

theorem Reached.armed (h : Reached clock f) : f.Armed := by
  induction h with
  | init => exact fun hw => nomatch hw
  | append bytes _ ih =>
      intro hw
      rw [List.head?_append, ih hw]
      rfl
  | process now _ _ ih => exact ih.settled_process.armed
  | take n _ ih => exact ih

/-- A wait starts at a time that the clock has shown. -/
theorem Reached.start (h : Reached clock f) : f.waitingForEsc = true → clock f.escStartTime := by
  induction h with
  | init => exact fun hw => nomatch hw
  | append bytes _ ih => exact ih
  | take n _ ih => exact ih
  | @process f now hnow _ ih =>
      have hround : ∀ (g h : TerminalFilter) (more : Bool), (g.waitingForEsc = true → clock g.escStartTime) →
          Round now g h more → h.waitingForEsc = true → clock h.escStartTime := by
        intro g h more hg hround
        cases hround with
        | empty => exact hg
        | report => exact fun hw => nomatch hw
        | unknown => exact fun hw => nomatch hw
        | expired => exact fun hw => nomatch hw
        | waits => exact hg
        | begins => exact fun _ => hnow
      exact (returns_process now f).rule (P := fun g => g.waitingForEsc = true → clock g.escStartTime) ih
        (fun _ hg => hg) (fun g h => hround g h true) fun g h => hround g h false

/-- `process` returns, and what it leaves in a filter that can be reached is either nothing or the start
of a mouse report, for which it waits. -/
theorem process_settles (now : Timespec) :
    (∀ f g : TerminalFilter, Returns now f g ↔ g = f.process now) ∧
      ∀ f, Reached (fun _ => True) f → (f.process now).Settled now := by
  refine ⟨fun f g => ⟨fun hg => hg.unique (returns_process now f), ?_⟩,
    fun f hf => hf.armed.settled_process⟩
  rintro rfl
  exact returns_process now f

/-- `ESC [` is held back for a report. -/
theorem process_settles_bracket :
    Settled ⟨1, 0⟩ (process ⟨1, 0⟩ { init with buffer := init.buffer ++ [esc, lbracket] }) ∧
      (process ⟨1, 0⟩ { init with buffer := init.buffer ++ [esc, lbracket] }).buffer = [esc, lbracket] :=
  ⟨(process_settles ⟨1, 0⟩).2 _ (.append [esc, lbracket] .init), by decide⟩

/-! ## How many bytes there are -/

/-- The number of bytes that are ready, or will be if no more arrive. -/
def total (f : TerminalFilter) : Nat :=
  f.ready.length + (scan f.buttons f.buffer).out.length + (scan f.buttons f.buffer).held.length

theorem total_passPlain (f : TerminalFilter) : f.passPlain.total = f.total := by
  have hscan := @scan_takeWhile f.buttons f.buffer
  simp only [total, hscan]
  simp [TerminalFilter.passPlain, Scanned.prepend, Nat.add_assoc]

theorem Round.total_eq {more : Bool} (hround : Round now f g more) : g.total = f.total := by
  cases hround with
  | empty => rfl
  | report hbuf => simp [total, hbuf, scan_report, Scanned.prepend, Nat.add_assoc]
  | unknown hbuf hinc hrep =>
      simp [total, hbuf, scan_cons hinc hrep, Scanned.prepend]
      omega
  | expired hbuf hinc =>
      -- a bracket behind the `ESC` is plain
      rcases eq_of_incomplete hinc with heq | heq
      · cases heq
        simp [total, hbuf, scan_incomplete hinc, scan]
      · cases heq
        simp [total, hbuf, scan, incomplete, lbracket, esc, Scanned.prepend]
  | waits => rfl
  | begins => rfl

theorem total_process (now : Timespec) (f : TerminalFilter) : (f.process now).total = f.total :=
  (returns_process now f).rule (P := fun g => g.total = f.total) rfl
    (fun g hg => (total_passPlain g).trans hg) (fun _ _ hg hround => hround.total_eq.trans hg)
    fun _ _ hg hround => hround.total_eq.trans hg

theorem length_ready_le (f : TerminalFilter) : f.ready.length ≤ f.total := by
  unfold total
  omega

theorem length_ready_of_nil (h : f.buffer = []) : f.ready.length = f.total := by
  simp [total, h, scan]

/-- Bytes in front of which there is no `ESC` are passed on at once. -/
theorem process_of_plain (hplain : ∀ c ∈ f.buffer, isPlain c = true) :
    f.process now = { f with ready := f.ready ++ f.buffer, buffer := [] } := by
  refine (returns_process now f).unique (.last ?_)
  unfold TerminalFilter.round
  rw [transfer_takeWhile]
  simp [passPlain, List.takeWhile_eq_self_iff.mpr hplain, List.dropWhile_eq_nil_iff.mpr hplain]

/-- Bytes that are waited for stay where they are until their time is up. -/
theorem process_of_early (hinc : incomplete f.buffer = true) (hw : f.waitingForEsc = true)
    (hnow : now.ge (f.escStartTime.add escTimeout) = false) : f.process now = f := by
  refine (returns_process now f).unique (.last ?_)
  unfold TerminalFilter.round
  rw [transfer_takeWhile, passPlain_of_head (head_of_incomplete hinc)]
  dsimp only
  rw [parseEsc_incomplete hinc]
  have hne : f.buffer ≠ [] := by
    intro hnil
    rw [hnil] at hinc
    cases hinc
  simp [hne, hw, hnow]

/-- When their time is up, they are passed on. -/
theorem process_of_late (hinc : incomplete f.buffer = true) (hw : f.waitingForEsc = true)
    (hnow : now.ge (f.escStartTime.add escTimeout) = true) : (f.process now).buffer = [] := by
  obtain ⟨buttons, waiting, start, buffer, ready⟩ := f
  cases hw
  have hreturns : Returns now ⟨buttons, true, start, buffer, ready⟩
      ⟨buttons, false, start, [], ready ++ buffer⟩ := by
    rcases eq_of_incomplete hinc with heq | heq
    · cases heq
      refine .again (g := ⟨buttons, false, start, [], ready ++ [esc]⟩) ?_ (.last ?_)
      · simp [TerminalFilter.round, parseEsc, transfer, isPlain, hnow]
      · simp [TerminalFilter.round, transfer]
    · cases heq
      refine .again (g := ⟨buttons, false, start, [lbracket], ready ++ [esc]⟩) ?_ (.last ?_)
      · simp [TerminalFilter.round, parseEsc, transfer, isPlain, hnow]
      · have hplain : isPlain lbracket = true := rfl
        simp [TerminalFilter.round, transfer, hplain]
  rw [(returns_process now _).unique hreturns]

end TerminalFilter
end Qine
