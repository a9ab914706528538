import Qine.Term.Process
import Qine.Term.Read

/-!
# The passes of `common_read`

A pass of `common_read` ends the read, or leaves the terminal for the next pass to look at. `OnePass` says
once what a pass can do.

A read that returns less than it was asked to wait for does so at its own deadline: the time of an escape
sequence does not end it (`short_read_at_deadline`). Nothing else ends a read without a deadline but bytes,
signals and errors. A terminal that was hung up delivers none of them, so such a read goes on for ever
(`commonRead_ends_iff`), and the bytes it has to wait for are the `VMIN` of the terminal, also when the guest
asks for fewer (`satisfiable_read_returns_iff`).
-/

namespace Qine

theorem Deadline.combine_eq (d b : Deadline) : d.combine b = if d.isSet then d else b := by
  unfold combine
  cases d.isSet <;> cases b.isSet <;> rfl

/-- Time zero alone stands for no deadline. -/
theorem Deadline.isSet_of_pos {t : Timespec} (h : 0 < t.nanos) : isSet ⟨t⟩ = true := by
  simp only [isSet, Timespec.nanos, Timespec.nsecPerSec, Bool.or_eq_true, bne_iff_ne] at h ⊢
  omega

namespace Terminal

variable {rc : ReadContext} {firstPass : Bool} {pass : Pass} {passes : List Pass} {t t' t₀ : Terminal}

/-! ## One pass -/

/-- The terminal after `process`. -/
def processed (t : Terminal) (now : Timespec) : Terminal := { t with filter := t.filter.process now }

/-- The variable `deadline` of `common_read`. -/
def deadline (rc : ReadContext) (t : Terminal) : Deadline :=
  if t.filter.waitingForEsc then rc.deadline.combine ⟨t.filter.escStartTime.add escTimeout⟩
  else rc.deadline

/-- There are enough bytes to return before anything is waited for. -/
def Enough (rc : ReadContext) (firstPass : Bool) (t : Terminal) : Prop :=
  (0 < t.filter.ready.length ∨ firstPass = false) ∧ rc.minBytes ≤ t.filter.ready.length

/-- What a pass does to the terminal `t`, and whether it ends the read. -/
inductive OnePass (rc : ReadContext) (firstPass : Bool) (pass : Pass) (t : Terminal) :
    ReadEnd → Terminal → Prop where
  | preempted (hsig : pass.shouldPreempt = true) : OnePass rc firstPass pass t (.failed qeintr) t
  | enough (hsig : pass.shouldPreempt = false) (henough : Enough rc firstPass (t.processed pass.now)) :
      OnePass rc firstPass pass t .ready (t.processed pass.now)
  | expired (hsig : pass.shouldPreempt = false) (hfew : ¬ Enough rc firstPass (t.processed pass.now))
      (hwait : (t.processed pass.now).wait rc pass = .expired) :
      OnePass rc firstPass pass t .ready (t.processed pass.now)
  | failed {e : Int} (hsig : pass.shouldPreempt = false)
      (hfew : ¬ Enough rc firstPass (t.processed pass.now))
      (hwait : (t.processed pass.now).wait rc pass = .failed e ∨
        (t.processed pass.now).wait rc pass = .go true ∧ pass.read = .error e) :
      OnePass rc firstPass pass t (.failed (mapErrno e)) { t.processed pass.now with errno := e }
  | idle (hsig : pass.shouldPreempt = false) (hfew : ¬ Enough rc firstPass (t.processed pass.now))
      (hwait : (t.processed pass.now).wait rc pass = .go false) :
      OnePass rc firstPass pass t .waiting (t.processed pass.now)
  | got {bytes : List Byte} (hsig : pass.shouldPreempt = false)
      (hfew : ¬ Enough rc firstPass (t.processed pass.now))
      (hwait : (t.processed pass.now).wait rc pass = .go true) (hread : pass.read = .ok bytes) :
      OnePass rc firstPass pass t .waiting ((t.processed pass.now).receive bytes)

theorem commonRead_cons : t.commonRead rc firstPass (pass :: passes) =
    if pass.shouldPreempt then (.failed qeintr, t)
    else if (decide (0 < (t.processed pass.now).filter.ready.length) || !firstPass) &&
        decide (rc.minBytes ≤ (t.processed pass.now).filter.ready.length) then
      (.ready, t.processed pass.now)
    else match (t.processed pass.now).wait rc pass with
      | .expired => (.ready, t.processed pass.now)
      | .failed e => (.failed (mapErrno e), { t.processed pass.now with errno := e })
      | .go false => commonRead rc false passes (t.processed pass.now)
      | .go true =>
        match pass.read with
        | .error e => (.failed (mapErrno e), { t.processed pass.now with errno := e })
        | .ok bytes => commonRead rc false passes ((t.processed pass.now).receive bytes) := rfl

theorem onePass (rc : ReadContext) (firstPass : Bool) (pass : Pass) (t : Terminal) :
    OnePass rc firstPass pass t (t.commonRead rc firstPass [pass]).1 (t.commonRead rc firstPass [pass]).2 := by
  rw [commonRead_cons]
  split
  · next hsig => exact .preempted hsig
  · next hsig =>
      rw [Bool.not_eq_true] at hsig
      split
      · next henough => exact .enough hsig (by simpa [Enough] using henough)
      · next hfew =>
          have hfew' : ¬ Enough rc firstPass (t.processed pass.now) := by simpa [Enough] using hfew
          split
          · next hwait => exact .expired hsig hfew' hwait
          · next e hwait => exact .failed hsig hfew' (.inl hwait)
          · next hwait => exact .idle hsig hfew' hwait
          · next hwait =>
              split
              · next e hread => exact .failed hsig hfew' (.inr ⟨hwait, hread⟩)
              · next bytes hread => exact .got hsig hfew' hwait hread

/-- The next pass goes on where this one stopped. -/
theorem commonRead_cons_eq : t.commonRead rc firstPass (pass :: passes) =
    match t.commonRead rc firstPass [pass] with
    | (.waiting, t') => commonRead rc false passes t'
    | r => r := by
  rw [commonRead_cons, commonRead_cons]
  split
  · rfl
  · split
    · rfl
    · split
      · rfl
      · rfl
      · rfl
      · split <;> rfl

theorem commonRead_append {before after : List Pass} :
    t.commonRead rc firstPass (before ++ after) =
      match t.commonRead rc firstPass before with
      | (.waiting, t') => commonRead rc (firstPass && before.isEmpty) after t'
      | r => r := by
  induction before generalizing t firstPass with
  | nil => simp [commonRead]
  | cons pass before ih =>
      rw [List.cons_append, commonRead_cons_eq, @commonRead_cons_eq _ _ _ before]
      generalize t.commonRead rc firstPass [pass] = r
      obtain ⟨res, t₁⟩ := r
      cases res with
      | ready => rfl
      | failed status => rfl
      | waiting =>
          have hrest := @ih false t₁
          rw [Bool.false_and] at hrest
          simpa using hrest

/-! ## How a pass waits -/

theorem wait_eq (rc : ReadContext) (pass : Pass) (t : Terminal) : t.wait rc pass =
    if rc.minBytes ≠ 0 ∧ (t.deadline rc).isSet = false then .go true
    else if rc.minBytes ≠ 0 ∧ pass.now.ge (t.deadline rc).v = true then .expired
    else match pass.ppoll with
      | .error e => .failed e
      | .ok n => .go (decide (0 < n)) := by
  unfold wait deadline
  cases pass.ppoll <;> grind

/-- A filter that is not settled can wait for one time only: that of the read, or else that of the escape
sequence. -/
theorem deadline_eq (rc : ReadContext) (t : Terminal) : t.deadline rc =
    if t.filter.waitingForEsc = true ∧ rc.deadline.isSet = false then
      ⟨t.filter.escStartTime.add escTimeout⟩
    else rc.deadline := by
  unfold deadline
  rw [Deadline.combine_eq]
  cases t.filter.waitingForEsc <;> cases rc.deadline.isSet <;> rfl

theorem OnePass.reached {clock : Timespec → Prop} {res : ReadEnd}
    (hpass : OnePass rc firstPass pass t res t') (hnow : clock pass.now)
    (h : TerminalFilter.Reached clock t.filter) : TerminalFilter.Reached clock t'.filter := by
  cases hpass with
  | preempted => exact h
  | enough => exact h.process _ hnow
  | expired => exact h.process _ hnow
  | failed => exact h.process _ hnow
  | idle => exact h.process _ hnow
  | got => exact (h.process _ hnow).append _

theorem reached_commonRead {clock : Timespec → Prop} (hclock : ∀ pass ∈ passes, clock pass.now)
    (h : TerminalFilter.Reached clock t.filter) :
    TerminalFilter.Reached clock (t.commonRead rc firstPass passes).2.filter := by
  induction passes generalizing t firstPass with
  | nil => exact h
  | cons pass passes ih =>
      have hreached := (onePass rc firstPass pass t).reached (hclock pass List.mem_cons_self) h
      rw [commonRead_cons_eq]
      generalize t.commonRead rc firstPass [pass] = r at hreached
      obtain ⟨res, t₁⟩ := r
      cases res with
      | ready => exact hreached
      | failed status => exact hreached
      | waiting => exact ih (fun pass hpass => hclock pass (List.mem_cons_of_mem _ hpass)) hreached

/-- The time of an escape sequence never ends a pass. -/
theorem ge_deadline_of_expired (hsettled : t.filter.Settled pass.now) (h : t.wait rc pass = .expired) :
    rc.deadline.isSet = true ∧ pass.now.ge rc.deadline.v = true := by
  rw [wait_eq] at h
  split at h
  · cases h
  · next hset =>
      split at h
      · next hlate =>
          obtain ⟨hmin, hlate⟩ := hlate
          have hset' : (t.deadline rc).isSet = true := by simpa [hmin] using hset
          rw [deadline_eq] at hset' hlate
          split at hset'
          · next hesc =>
              -- `process` would have given the escape sequence up
              rw [if_pos hesc] at hlate
              rcases hsettled with ⟨-, hw⟩ | hholds
              · cases hw.symm.trans hesc.1
              · cases hholds.early.symm.trans hlate
          · next hesc =>
              rw [if_neg hesc] at hlate
              exact ⟨hset', hlate⟩
      · cases hp : pass.ppoll <;> rw [hp] at h <;> cases h

/-- What is missing in a pass that does not end the read. -/
theorem OnePass.few (hpass : OnePass rc firstPass pass t .waiting t') :
    ¬ Enough rc firstPass (t.processed pass.now) ∧ ∃ b, (t.processed pass.now).wait rc pass = .go b := by
  cases hpass with
  | idle _ hfew hwait => exact ⟨hfew, _, hwait⟩
  | got _ hfew hwait _ => exact ⟨hfew, _, hwait⟩

/-- The read's own deadline ends it, whatever else it waits for. -/
theorem wait_of_late (hmin : rc.minBytes ≠ 0) (hset : rc.deadline.isSet = true)
    (hlate : pass.now.ge rc.deadline.v = true) : t.wait rc pass = .expired := by
  have hdeadline : t.deadline rc = rc.deadline := by
    rw [deadline_eq, if_neg]
    rintro ⟨-, hnot⟩
    cases hset.symm.trans hnot
  rw [wait_eq, hdeadline]
  simp [hmin, hset, hlate]

/-- While an escape sequence is waited for, a `ppoll` is asked, and may fail. -/
theorem wait_of_fails {e : Int} (hset : rc.deadline.isSet = false) (hw : t.filter.waitingForEsc = true)
    (hesc : Deadline.isSet ⟨t.filter.escStartTime.add escTimeout⟩ = true)
    (hearly : pass.now.ge (t.filter.escStartTime.add escTimeout) = false)
    (hfails : pass.ppoll = .error e) : t.wait rc pass = .failed e := by
  have hdeadline : t.deadline rc = ⟨t.filter.escStartTime.add escTimeout⟩ := by
    rw [deadline_eq, if_pos ⟨hw, hset⟩]
  rw [wait_eq, hdeadline]
  simp [hesc, hearly, hfails]

/-- A read that returns successfully with less than it was to wait for does so in a pass whose clock shows
the read's own deadline, or later. -/
theorem short_read_at_deadline (h : TerminalFilter.Reached (fun _ => True) t.filter)
    (hend : t.commonRead rc firstPass passes = (.ready, t'))
    (hfew : t'.filter.ready.length < rc.minBytes) :
    rc.deadline.isSet = true ∧ ∃ before pass after, passes = before ++ pass :: after ∧
      (t.commonRead rc firstPass before).1 = .waiting ∧
      (t.commonRead rc firstPass (before ++ [pass])) = (.ready, t') ∧
      pass.now.ge rc.deadline.v = true := by
  induction passes generalizing t firstPass with
  | nil => cases hend
  | cons pass passes ih =>
      have hpass := onePass rc firstPass pass t
      rw [commonRead_cons_eq] at hend
      cases hres : t.commonRead rc firstPass [pass] with
      | mk res t₁ =>
          rw [hres] at hpass hend
          cases res with
          | failed status => cases hend
          | ready =>
              cases hend
              cases hpass with
              | enough hsig henough => exact absurd henough.2 (Nat.not_le.mpr hfew)
              | expired hsig _ hwait =>
                  have hdeadline := ge_deadline_of_expired h.armed.settled_process hwait
                  exact ⟨hdeadline.1, [], pass, passes, rfl, rfl, hres, hdeadline.2⟩
          | waiting =>
              obtain ⟨hset, before, last, after, rfl, hbefore, hlast, hlate⟩ :=
                ih (hpass.reached trivial h) hend
              refine ⟨hset, pass :: before, last, after, rfl, ?_, ?_, hlate⟩
              · rw [commonRead_cons_eq, hres]
                exact hbefore
              · rw [List.cons_append, commonRead_cons_eq, hres]
                exact hlast

/-- A pass in which there is no input. -/
def quietPass (sec : Int) : Pass := ⟨⟨sec, 0⟩, .empty, .empty, .ok 0, .ok []⟩

/-- A read with `VTIME` 10 that gets nothing for a second. -/
theorem short_read_after_a_second : ∃ before pass after,
    [quietPass 1, quietPass 2] = before ++ pass :: after ∧ pass.now.ge ⟨2, 0⟩ = true := by
  have hend : init.commonRead (.setup ⟨1, 0⟩ ⟨0, 10⟩) true [quietPass 1, quietPass 2] = (.ready, init) := rfl
  obtain ⟨-, before, pass, after, hsplit, -, -, hlate⟩ :=
    short_read_at_deadline .init hend (by decide)
  exact ⟨before, pass, after, hsplit, hlate⟩

end Terminal

/-! ## Requests that can be satisfied -/

/-- What `setup` waits for is at most `n` bytes if `VMIN` is, or if there is a `VTIME`. -/
theorem ReadContext.minBytes_setup_le_iff (now : Timespec) (ts : Termios) {n : Nat} (hn : 0 < n) :
    (setup now ts).minBytes ≤ n ↔ ts.vmin.toNat ≤ n ∨ ts.vtime ≠ 0 := by
  unfold setup
  split
  · next hmin =>
      have hle : ts.vmin.toNat ≤ n := by
        rw [hmin]
        exact Nat.zero_le n
      split
      · exact iff_of_true (Nat.zero_le n) (.inl hle)
      · exact iff_of_true hn (.inl hle)
  · split
    · next htime => exact ⟨.inl, fun h => h.resolve_right (not_not.mpr htime)⟩
    · next htime => exact iff_of_true hn (.inr htime)

theorem ReadContext.deadline_setup {now : Timespec} {ts : Termios} (h : ts.vtime = 0) :
    (setup now ts).deadline = .none := by
  unfold setup
  rw [if_pos h, if_pos h]
  split <;> rfl

namespace Terminal

/-- A terminal that has just received `n` letters. -/
def letters (n : Nat) : Terminal := init.receive (List.replicate n 0x41)

theorem reached_letters (n : Nat) : TerminalFilter.Reached (fun _ => True) (letters n).filter :=
  .append _ .init

theorem ready_letters (n : Nat) (now : Timespec) : ((letters n).processed now).filter.ready.length = n := by
  have hplain : ∀ c ∈ (letters n).filter.buffer, isPlain c = true := by
    intro c hc
    rw [List.eq_of_mem_replicate hc]
    rfl
  rw [processed, TerminalFilter.process_of_plain hplain]
  simp [letters, receive, init, TerminalFilter.init]

/-- With too few letters and no deadline a pass does not end the read. -/
theorem not_ready_of_few {n : Nat} (hmin : ¬ rc.minBytes ≤ n) (hset : rc.deadline.isSet = false) :
    (letters n).commonRead rc true [quietPass 1] ≠ (.ready, (letters n).processed ⟨1, 0⟩) := by
  intro hend
  have hpass := onePass rc true (quietPass 1) (letters n)
  rw [hend] at hpass
  cases hpass with
  | enough _ henough => exact hmin (Nat.le_trans henough.2 (Nat.le_of_eq (ready_letters n _)))
  | expired _ _ hwait =>
      have hsettled : ((letters n).filter.process (quietPass 1).now).Settled (quietPass 1).now :=
        (reached_letters n).armed.settled_process
      cases hset.symm.trans (ge_deadline_of_expired hsettled hwait).1

end Terminal

open Terminal in
/-- A request for `nbytes` bytes returns as soon as there are that many, exactly if the terminal's `VMIN` is
not more, or there is a `VTIME`: the size of the request is not looked at. -/
theorem satisfiable_read_returns_iff (ts : Termios) {nbytes : BitVec 16} (hn : 0 < nbytes.toNat) :
    (∀ r : ReadRequest, r.settings = .ok ts → r.body.nbytes = nbytes →
      ∀ (t : Terminal) (firstPass : Bool) (pass : Pass),
        TerminalFilter.Reached (fun _ => True) t.filter → pass.shouldPreempt = false →
        r.body.nbytes.toNat ≤ (t.processed pass.now).filter.ready.length →
        t.commonRead (.setup r.start ts) firstPass [pass] = (.ready, t.processed pass.now)) ↔
      ts.vmin.toNat ≤ nbytes.toNat ∨ ts.vtime ≠ 0 := by
  constructor
  · intro h
    by_contra hnot
    have hmin : ¬ (ReadContext.setup ⟨1, 0⟩ ts).minBytes ≤ nbytes.toNat :=
      mt (ReadContext.minBytes_setup_le_iff _ ts hn).mp hnot
    rw [not_or, not_not] at hnot
    have hset : (ReadContext.setup ⟨1, 0⟩ ts).deadline.isSet = false := by
      rw [ReadContext.deadline_setup hnot.2]
      rfl
    -- as many letters as are asked for
    exact not_ready_of_few hmin hset
      (h { readLetter with body := .read nbytes, tcgetattr := some ts } rfl rfl (letters nbytes.toNat) true
        (quietPass 1) (reached_letters _) (by decide) (Nat.le_of_eq (ready_letters _ _).symm))
  · intro hmin r hts hr t firstPass pass _ hsig hready
    rw [hr] at hready
    have hle := (ReadContext.minBytes_setup_le_iff r.start ts hn).mpr hmin
    have hpos : 0 < (t.processed pass.now).filter.ready.length := by omega
    have hge : (ReadContext.setup r.start ts).minBytes ≤ (t.processed pass.now).filter.ready.length := by
      omega
    rw [commonRead_cons, if_neg (by simp [hsig]), if_pos (by simp [hpos, hge])]

/-- With `VMIN` 2, a request for two bytes returns when there are two. -/
theorem two_bytes_return :
    (Terminal.init.receive [0x41, 0x42]).commonRead (.setup ⟨1, 0⟩ ⟨2, 0⟩) true [Terminal.quietPass 1] =
      (.ready, (Terminal.init.receive [0x41, 0x42]).processed ⟨1, 0⟩) := by
  have hsatisfiable := (@satisfiable_read_returns_iff ⟨2, 0⟩ 2 (by decide)).mpr (.inl (by decide))
  exact hsatisfiable { readLetter with body := .read 2, tcgetattr := some ⟨2, 0⟩ } rfl rfl _ true
    (Terminal.quietPass 1) (.append _ .init) (by decide) (by decide)

/-- With `VMIN` 2, a request for one byte goes on waiting with one byte ready. -/
theorem one_byte_keeps_waiting :
    let r : ReadRequest := { readLetter with body := .read 1, tcgetattr := some ⟨2, 0⟩ }
    let t := Terminal.init.receive [0x41]
    r.settings = .ok ⟨2, 0⟩ ∧ r.body.nbytes.toNat = 1 ∧ TerminalFilter.Reached (fun _ => True) t.filter ∧
      (t.processed ⟨1, 0⟩).filter.ready = [0x41] ∧
      (t.commonRead (.setup r.start ⟨2, 0⟩) true [Terminal.quietPass 1]).1 = .waiting := by
  exact ⟨rfl, rfl, .append _ .init, by decide, by decide⟩

end Qine
