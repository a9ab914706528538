import Qine.Term.Filter

/-!
# Reads that cut a report

The host hands the terminal's bytes over in reads of up to 128 bytes, and a read may end anywhere. The
filter is meant to give the same result wherever the cuts are. `scan_append` shows that it does across
a cut that does not fall behind the `ESC [ M` of a report; `not_prefix_of_splits` shows that it does
not across one that does, since `parse_esc` takes a report whose coordinates are missing for an
unknown sequence. Together: feeding chunks is feeding their concatenation exactly if no cut splits a
report (`feedAll_eq_iff`).
-/

namespace Qine

/-- The cut between `front` and `next` falls three to five bytes into a report, where the reports are
found by reading from left to right. -/
def splitsReport : List Byte → List Byte → Bool
  | [], _ => false
  | c :: cs, next =>
    match cs with
    | d :: e :: b :: x :: y :: rest =>
      if startsReport (c :: d :: e :: b :: x :: y :: rest) then splitsReport rest next
      else splitsReport (d :: e :: b :: x :: y :: rest) next
    | cs => startsReport (c :: cs ++ next) && decide (3 ≤ cs.length + 1) || splitsReport cs next

variable {buttons : Nat} {c : Byte} {cs front next : List Byte}

theorem splitsReport_report (b x y : Byte) (rest next : List Byte) :
    splitsReport (esc :: lbracket :: letterM :: b :: x :: y :: rest) next =
      splitsReport rest next := rfl

theorem splitsReport_of_incomplete (h : incomplete front = true) : splitsReport front next = false := by
  rcases eq_of_incomplete h with rfl | rfl
  · simp [splitsReport]
  · simp [splitsReport, startsReport_of_ne (c := lbracket) (by decide)]

theorem splitsReport_cons (hrep : startsReport (c :: cs) = false) :
    splitsReport (c :: cs) next =
      (startsReport (c :: cs ++ next) && decide (3 ≤ cs.length + 1 ∧ cs.length < 5) ||
        splitsReport cs next) := by
  conv_lhs => unfold splitsReport
  split
  · next d e b x y rest =>
      rw [if_neg (by rw [hrep]; exact Bool.false_ne_true)]
      simp
  · next hlong =>
      have hlt : cs.length < 5 := by
        match cs, hlong with
        | [], _ | [_], _ | [_, _], _ | [_, _, _], _ | [_, _, _, _], _ => simp
        | d :: e :: b :: x :: y :: rest, hlong => exact (hlong d e b x y rest rfl).elim
      simp [hlt]

/-- More bytes behind a cut do not mend a split report. -/
theorem splitsReport_append (more : List Byte) (h : splitsReport front next = true) :
    splitsReport front (next ++ more) = true := by
  induction hn : front.length using Nat.strongRecOn generalizing front with
  | _ n ih =>
      rcases scan_cases front with rfl | hinc | hrep | ⟨c, cs, rfl, hinc, hrep⟩
      · cases h
      · rw [splitsReport_of_incomplete hinc] at h
        cases h
      · obtain ⟨b, x, y, rest, rfl⟩ := eq_of_startsReport hrep
        rw [splitsReport_report] at h ⊢
        exact ih rest.length (by simp at hn; omega) h rfl
      · rw [splitsReport_cons hrep, Bool.or_eq_true] at h ⊢
        rcases h with h | h
        · left
          rw [Bool.and_eq_true] at h ⊢
          refine ⟨?_, h.2⟩
          obtain ⟨b, x, y, rest, hall⟩ := eq_of_startsReport h.1
          rw [← List.append_assoc, hall]
          rfl
        · exact .inr (ih cs.length (by simp at hn; omega) h rfl)

/-! ## Across a cut -/

theorem mouseMessage_head (buttons : Nat) (b x y : Byte) :
    ∃ rest, (mouseMessage buttons b x y).1 = esc :: lbracket :: 0x33 :: rest := by
  have hmsg : ∀ n ∈ [(31 : Int), 32, 33], ∀ args,
      ∃ rest, escMessage (n :: args) = esc :: lbracket :: 0x33 :: rest := by
    intro n hn args
    have hdec : ∃ d, decimal n = [0x33, d] := by
      simp only [List.mem_cons, List.not_mem_nil, or_false] at hn
      rcases hn with rfl | rfl | rfl
      · exact ⟨0x31, by decide⟩
      · exact ⟨0x32, by decide⟩
      · exact ⟨0x33, by decide⟩
    obtain ⟨d, hd⟩ := hdec
    cases args with
    | nil => exact ⟨_, by rw [escMessage, List.map_cons, hd]; rfl⟩
    | cons a args => exact ⟨_, by rw [escMessage, List.map_cons, hd]; rfl⟩
  unfold mouseMessage
  dsimp only
  split
  · exact hmsg 33 (by simp) _
  · split
    · exact hmsg 32 (by simp) _
    · exact hmsg 31 (by simp) _

/-- A byte that is passed on is passed on whatever follows, unless the cut behind splits a report. -/
theorem cut_cons (hinc : incomplete (c :: cs) = false) (hrep : startsReport (c :: cs) = false)
    (hsplit : (startsReport (c :: cs ++ next) && decide (3 ≤ cs.length + 1 ∧ cs.length < 5)) = false) :
    incomplete (c :: (cs ++ next)) = false ∧ startsReport (c :: (cs ++ next)) = false := by
  constructor
  · rw [← Bool.not_eq_true]
    intro h
    -- a start of `ESC` or `ESC [` would have been held back
    rcases eq_of_incomplete h with heq | heq
    · simp only [List.cons.injEq, List.append_eq_nil_iff] at heq
      rw [heq.1, heq.2.1] at hinc
      cases hinc
    · match cs, heq with
      | [], heq => cases heq; cases hinc
      | d :: cs, heq =>
          simp only [List.cons_append, List.cons.injEq, List.append_eq_nil_iff] at heq
          rw [heq.1, heq.2.1, heq.2.2.1] at hinc
          cases hinc
  · rw [← Bool.not_eq_true]
    intro h
    rw [List.cons_append, h, Bool.true_and, decide_eq_false_iff_not] at hsplit
    obtain ⟨b, x, y, rest, heq⟩ := eq_of_startsReport h
    match cs, heq with
    | [], heq => cases heq; cases hinc
    | [d], heq => cases heq; cases hinc
    | [d, e], heq => exact hsplit (by simp)
    | [d, e, b], heq => exact hsplit (by simp)
    | [d, e, b, x], heq => exact hsplit (by simp)
    | d :: e :: b :: x :: y :: cs, heq =>
        cases heq
        cases hrep

/-- Across a cut that splits no report, scanning goes on where it stopped. -/
theorem scan_append (h : splitsReport front next = false) :
    scan buttons (front ++ next) =
      (scan (scan buttons front).buttons ((scan buttons front).held ++ next)).prepend
        (scan buttons front).out := by
  induction hn : front.length using Nat.strongRecOn generalizing front buttons with
  | _ n ih =>
      rcases scan_cases front with rfl | hinc | hrep | ⟨c, cs, rfl, hinc, hrep⟩
      · rfl
      · rw [scan_incomplete hinc]
        rfl
      · obtain ⟨b, x, y, rest, rfl⟩ := eq_of_startsReport hrep
        rw [splitsReport_report] at h
        have hrest := @ih rest.length (by simp at hn; omega) (mouseMessage buttons b x y).2 rest h rfl
        simp only [List.cons_append, scan_report, hrest, prepend_prepend]
        rfl
      · rw [splitsReport_cons hrep, Bool.or_eq_false_iff] at h
        obtain ⟨hinc', hrep'⟩ := cut_cons hinc hrep h.1
        have hrest := @ih cs.length (by simp at hn; omega) buttons cs h.2 rfl
        rw [List.cons_append, scan_cons hinc' hrep', scan_cons hinc hrep, hrest, prepend_prepend]
        rfl

/-- Across a cut that splits a report, what has come out before the cut is not how the output of the
whole begins. -/
theorem not_prefix_of_splits (h : splitsReport front next = true) :
    ¬ (scan buttons front).out <+: (scan buttons (front ++ next)).out := by
  induction hn : front.length using Nat.strongRecOn generalizing front buttons with
  | _ n ih =>
      rcases scan_cases front with rfl | hinc | hrep | ⟨c, cs, rfl, hinc, hrep⟩
      · cases h
      · rw [splitsReport_of_incomplete hinc] at h
        cases h
      · obtain ⟨b, x, y, rest, rfl⟩ := eq_of_startsReport hrep
        rw [splitsReport_report] at h
        simp only [List.cons_append, scan_report, Scanned.prepend]
        rw [List.prefix_append_right_inj]
        exact ih rest.length (by simp at hn; omega) h rfl
      · rw [splitsReport_cons hrep] at h
        cases hsplit : startsReport (c :: cs ++ next) &&
            decide (3 ≤ cs.length + 1 ∧ cs.length < 5) with
        | true =>
            -- the head of the report has come out as it is; the whole report comes out translated
            rw [Bool.and_eq_true, decide_eq_true_eq] at hsplit
            obtain ⟨b, x, y, rest, hall⟩ := eq_of_startsReport hsplit.1
            obtain ⟨msg, hmsg⟩ := mouseMessage_head buttons b x y
            obtain ⟨d, e, cs, rfl⟩ : ∃ d e t, cs = d :: e :: t := by
              have hlong : 2 ≤ cs.length := by omega
              rcases cs with _ | ⟨d, _ | ⟨e, t⟩⟩
              · cases hlong
              · simp at hlong
              · exact ⟨d, e, t, rfl⟩
            have hhead := hall
            simp only [List.cons_append, List.cons.injEq] at hhead
            obtain ⟨rfl, rfl, rfl, -⟩ := hhead
            rw [hall, scan_report, scan_cons hinc hrep,
              scan_cons (incomplete_of_ne (by decide)) (startsReport_of_ne (by decide)),
              scan_cons (incomplete_of_ne (by decide)) (startsReport_of_ne (by decide))]
            simp only [Scanned.prepend, hmsg]
            rintro ⟨t, ht⟩
            simp only [List.cons_append, List.nil_append, List.cons.injEq] at ht
            exact absurd ht.2.2.1 (by decide)
        | false =>
            rw [hsplit, Bool.false_or] at h
            obtain ⟨hinc', hrep'⟩ := cut_cons hinc hrep hsplit
            rw [List.cons_append, scan_cons hinc' hrep', scan_cons hinc hrep]
            simp only [Scanned.prepend]
            rw [List.prefix_append_right_inj]
            exact ih cs.length (by simp at hn; omega) h rfl

theorem scan_held (buttons : Nat) (cs : List Byte) :
    (scan buttons cs).held = [] ∨ incomplete (scan buttons cs).held = true := by
  induction hn : cs.length using Nat.strongRecOn generalizing cs buttons with
  | _ n ih =>
      rcases scan_cases cs with rfl | hinc | hrep | ⟨c, cs, rfl, hinc, hrep⟩
      · exact .inl rfl
      · rw [scan_incomplete hinc]
        exact .inr hinc
      · obtain ⟨b, x, y, rest, rfl⟩ := eq_of_startsReport hrep
        rw [scan_report]
        exact ih rest.length (by simp at hn; omega) _ rest rfl
      · rw [scan_cons hinc hrep]
        exact ih cs.length (by simp at hn; omega) _ cs rfl

/-! ## Feeding chunks -/

/-- What one host read brought, and the time at which it is processed. -/
structure Chunk where
  time : Timespec
  bytes : List Byte
  deriving DecidableEq, Repr

/-- The bytes of the chunks. -/
def Chunk.bytesOf (cs : List Chunk) : List Byte := (cs.map (·.bytes)).flatten

/-- Of the chunks, each that is reached with at most one byte behind a chunk processed at `t` (of which
`n` came before) is processed less than 200 ms after `t`. -/
def Soon (t : Timespec) : Nat → List Chunk → Prop
  | _, [] => True
  | n, c :: cs =>
    (n + c.bytes.length ≤ 1 → c.time.nanos < t.nanos + 200000000) ∧ Soon t (n + c.bytes.length) cs

/-- No escape timeout can expire: where a chunk can leave an `ESC` waiting, what follows is processed
less than 200 ms later until the wait is over. -/
def Prompt : List Chunk → Prop
  | [] => True
  | c :: cs => c.time.Valid ∧ Soon c.time 0 cs ∧ Prompt cs

theorem soon_of_close {t : Timespec} {cs : List Chunk} (n : Nat)
    (h : ∀ c ∈ cs, c.time.nanos < t.nanos + 200000000) : Soon t n cs := by
  induction cs generalizing n with
  | nil => trivial
  | cons c cs ih =>
      exact ⟨fun _ => h c List.mem_cons_self, ih _ fun d hd => h d (List.mem_cons_of_mem c hd)⟩

/-- Chunks that are all less than 200 ms apart are prompt. -/
theorem prompt_of_pairwise {cs : List Chunk} (hvalid : ∀ c ∈ cs, c.time.Valid)
    (h : cs.Pairwise fun c d => d.time.nanos < c.time.nanos + 200000000) : Prompt cs := by
  induction cs with
  | nil => trivial
  | cons c cs ih =>
      rw [List.pairwise_cons] at h
      exact ⟨hvalid c List.mem_cons_self, soon_of_close 0 h.1,
        ih (fun d hd => hvalid d (List.mem_cons_of_mem c hd)) h.2⟩

/-- Chunks that are not empty are prompt already if each is less than 200 ms after the one before. -/
theorem prompt_of_chain {cs : List Chunk} (hvalid : ∀ c ∈ cs, c.time.Valid)
    (hne : ∀ c ∈ cs, c.bytes ≠ [])
    (h : cs.IsChain fun c d => d.time.nanos < c.time.nanos + 200000000) : Prompt cs := by
  induction cs with
  | nil => trivial
  | cons c cs ih =>
      refine ⟨hvalid c List.mem_cons_self, ?_, ih (fun d hd => hvalid d (List.mem_cons_of_mem c hd))
        (fun d hd => hne d (List.mem_cons_of_mem c hd)) h.tail⟩
      cases cs with
      | nil => trivial
      | cons d cs =>
          rw [List.isChain_cons_cons] at h
          refine ⟨fun _ => h.1, ?_⟩
          -- the second chunk behind `c` brings the second byte at the latest
          have hfar : ∀ (n : Nat) (ds : List Chunk), 1 ≤ n → (∀ e ∈ ds, e.bytes ≠ []) →
              Soon c.time n ds := by
            intro n ds
            induction ds generalizing n with
            | nil => intros; trivial
            | cons e ds ih =>
                intro hn hds
                have hpos := List.length_pos_of_ne_nil (hds e List.mem_cons_self)
                exact ⟨fun hle => by omega,
                  ih _ (by omega) fun x hx => hds x (List.mem_cons_of_mem e hx)⟩
          have hpos := List.length_pos_of_ne_nil (hne d (by simp))
          exact hfar _ _ (by omega) fun e he =>
            hne e (List.mem_cons_of_mem c (List.mem_cons_of_mem d he))

namespace TerminalFilter

variable {f : TerminalFilter} {pre : List Byte} {c : Chunk} {cs : List Chunk}

/-- A chunk is appended to the buffer and processed. -/
def feed (f : TerminalFilter) (c : Chunk) : TerminalFilter :=
  process c.time { f with buffer := f.buffer ++ c.bytes }

/-- One chunk after the other. -/
def feedAll (f : TerminalFilter) (cs : List Chunk) : TerminalFilter := cs.foldl feed f

theorem ready_transfer (f : TerminalFilter) (k : Nat) : f.ready <+: (f.transfer k).ready :=
  List.prefix_append _ _

theorem ready_round (now : Timespec) (f : TerminalFilter) : f.ready <+: (round now f).1.ready := by
  have hplain : f.ready <+: f.passPlain.ready := by
    rw [← transfer_takeWhile]
    exact ready_transfer f _
  have hround := round_cases now f
  refine hplain.trans ?_
  generalize f.passPlain = g at hround
  generalize (round now f).1 = g', (round now f).2 = more at hround
  cases hround with
  | empty => exact List.prefix_rfl
  | report => exact List.prefix_append _ _
  | unknown => exact List.prefix_append _ _
  | expired => exact List.prefix_append _ _
  | waits => exact List.prefix_rfl
  | begins => exact List.prefix_rfl

/-- What is ready stays ready. -/
theorem ready_processLoop (now : Timespec) (n : Nat) (f : TerminalFilter) :
    f.ready <+: (processLoop now n f).ready := by
  induction n generalizing f with
  | zero => exact List.prefix_rfl
  | succ n ih =>
      have hround := ready_round now f
      unfold processLoop
      split
      · next heq =>
          rw [heq] at hround
          exact hround.trans (ih _)
      · next heq => rwa [heq] at hround

theorem ready_feedAll (f : TerminalFilter) (cs : List Chunk) : f.ready <+: (feedAll f cs).ready := by
  induction cs generalizing f with
  | nil => exact List.prefix_rfl
  | cons c cs ih => exact (ready_processLoop c.time _ { f with buffer := f.buffer ++ c.bytes }).trans (ih _)

/-- The filter has scanned `pre` and holds the rest back, and it will not have to give it up before
the chunks `cs` are processed. -/
structure Fed (pre : List Byte) (cs : List Chunk) (f : TerminalFilter) : Prop where
  buttons : f.buttons = (scan 0 pre).buttons
  buffer : f.buffer = (scan 0 pre).held
  ready : f.ready = (scan 0 pre).out
  waiting : f.waitingForEsc = !f.buffer.isEmpty
  pending : f.buffer ≠ [] →
    f.escStartTime.Valid ∧ ∃ n, n < f.buffer.length ∧ Soon f.escStartTime n cs

theorem fed_init (cs : List Chunk) : Fed [] cs init := ⟨rfl, rfl, rfl, rfl, fun h => absurd rfl h⟩

theorem length_of_incomplete {l : List Byte} (h : incomplete l = true) :
    1 ≤ l.length ∧ l.length ≤ 2 := by
  rcases eq_of_incomplete h with rfl | rfl <;> simp

/-- The next chunk finds the filter waiting for no longer than it may. -/
theorem Fed.quiet (h : Fed pre (c :: cs) f) (htime : c.time.Valid) :
    Quiet c.time { f with buffer := f.buffer ++ c.bytes } := by
  have hheld : f.waitingForEsc = true → f.buffer ≠ [] ∧ incomplete f.buffer = true := by
    intro hw
    have hne : f.buffer ≠ [] := by
      rw [h.waiting] at hw
      simpa using hw
    refine ⟨hne, ?_⟩
    rw [h.buffer] at hne ⊢
    exact (scan_held 0 pre).resolve_left hne
  refine ⟨?_, ?_⟩
  · intro hw
    rcases eq_of_incomplete (hheld hw).2 with hb | hb <;> rw [hb] <;> rfl
  · intro hw hinc
    obtain ⟨hvalid, n, hn, hsoon, -⟩ := h.pending (hheld hw).1
    have hlen := (length_of_incomplete hinc).2
    rw [List.length_append] at hlen
    have hlt := hsoon (by omega)
    rw [← Bool.not_eq_true, Timespec.ge_escTimeout htime hvalid]
    omega

/-- A chunk behind a cut that splits no report is scanned as if there were no cut. -/
theorem Fed.feed (h : Fed pre (c :: cs) f) (htime : c.time.Valid) (hsoon : Soon c.time 0 cs)
    (hcut : splitsReport pre c.bytes = false) : Fed (pre ++ c.bytes) cs (f.feed c) := by
  have hscan := @scan_append 0 _ _ hcut
  rw [← h.buttons, ← h.buffer, ← h.ready] at hscan
  have hfeed : f.feed c = settle c.time { f with buffer := f.buffer ++ c.bytes } :=
    process_eq_settle htime (h.quiet htime)
  rw [hfeed]
  refine ⟨?_, ?_, ?_, rfl, ?_⟩
  · rw [hscan]
    rfl
  · rw [hscan]
    rfl
  · rw [hscan]
    rfl
  · intro hne
    have hheld : (scan f.buttons (f.buffer ++ c.bytes)).held ≠ [] := hne
    have hstart : (settle c.time { f with buffer := f.buffer ++ c.bytes }).escStartTime =
        if f.waitingForEsc && incomplete (f.buffer ++ c.bytes) then f.escStartTime else c.time := by
      simp [settle, hheld]
    rw [hstart]
    show _ ∧ ∃ n, n < (scan f.buttons (f.buffer ++ c.bytes)).held.length ∧ _
    split
    · next hsame =>
        -- the same `ESC` goes on waiting
        rw [Bool.and_eq_true] at hsame
        have hbuf : f.buffer ≠ [] := by
          have hw := hsame.1
          rw [h.waiting] at hw
          simpa using hw
        obtain ⟨hvalid, n, hn, -, hrest⟩ := h.pending hbuf
        refine ⟨hvalid, n + c.bytes.length, ?_, hrest⟩
        rw [scan_incomplete hsame.2, List.length_append]
        omega
    · exact ⟨htime, 0, List.length_pos_of_ne_nil hheld, hsoon⟩

/-- At the end of the input there is nothing to cut. -/
theorem splitsReport_nil (pre : List Byte) : splitsReport pre [] = false := by
  rw [← Bool.not_eq_true]
  intro hsplit
  have hnot := @not_prefix_of_splits 0 _ _ hsplit
  rw [List.append_nil] at hnot
  exact hnot List.prefix_rfl

/-- The first cut, and the others. -/
theorem forall_cuts_cons :
    (∀ k, splitsReport (pre ++ Chunk.bytesOf ((c :: cs).take k)) (Chunk.bytesOf ((c :: cs).drop k)) =
        false) ↔
      splitsReport pre (Chunk.bytesOf (c :: cs)) = false ∧
      ∀ k, splitsReport (pre ++ c.bytes ++ Chunk.bytesOf (cs.take k)) (Chunk.bytesOf (cs.drop k)) =
        false := by
  constructor
  · intro hall
    refine ⟨?_, fun k => ?_⟩
    · have hzero := hall 0
      rw [List.take_zero, show Chunk.bytesOf [] = [] from rfl, List.append_nil] at hzero
      exact hzero
    · rw [List.append_assoc]
      exact hall (k + 1)
  · rintro ⟨hzero, hrest⟩ k
    cases k with
    | zero =>
        rw [List.take_zero, show Chunk.bytesOf [] = [] from rfl, List.append_nil]
        exact hzero
    | succ k =>
        have hk := hrest k
        rw [List.append_assoc] at hk
        exact hk

/-- From a filter that has scanned `pre` on: feeding chunks is scanning all the bytes exactly if no
cut splits a report. -/
theorem Fed.feedAll_iff (h : Fed pre cs f) (hprompt : Prompt cs) :
    ((feedAll f cs).ready = (scan 0 (pre ++ Chunk.bytesOf cs)).out ∧
        (feedAll f cs).buffer = (scan 0 (pre ++ Chunk.bytesOf cs)).held ∧
        (feedAll f cs).buttons = (scan 0 (pre ++ Chunk.bytesOf cs)).buttons) ↔
      ∀ k, splitsReport (pre ++ Chunk.bytesOf (cs.take k)) (Chunk.bytesOf (cs.drop k)) = false := by
  induction cs generalizing pre f with
  | nil =>
      simp only [Chunk.bytesOf, List.take_nil, List.drop_nil, List.map_nil, List.flatten_nil,
        List.append_nil, splitsReport_nil, implies_true, iff_true]
      exact ⟨h.ready, h.buffer, h.buttons⟩
  | cons c cs ih =>
      have hbytes : Chunk.bytesOf (c :: cs) = c.bytes ++ Chunk.bytesOf cs := rfl
      rw [forall_cuts_cons]
      cases hcut : splitsReport pre (Chunk.bytesOf (c :: cs)) with
      | true =>
          -- what has become ready up to the cut never becomes unready again
          refine iff_of_false ?_ (fun hall => nomatch hall.1)
          intro heq
          have hprefix := ready_feedAll f (c :: cs)
          rw [heq.1, h.ready] at hprefix
          exact not_prefix_of_splits hcut hprefix
      | false =>
          have hcut' : splitsReport pre c.bytes = false := by
            rw [← Bool.not_eq_true]
            intro hsplit
            rw [hbytes, splitsReport_append _ hsplit] at hcut
            cases hcut
          have hrest := ih (h.feed hprompt.1 hprompt.2.1 hcut') hprompt.2.2
          rw [List.append_assoc, ← hbytes] at hrest
          rw [show feedAll f (c :: cs) = feedAll (f.feed c) cs from rfl, hrest]
          exact (and_iff_right rfl).symm

end TerminalFilter

open TerminalFilter in
/-- From a fresh filter, as long as no timeout expires: appending chunks and processing after each
ends as appending all their bytes and processing once does, exactly if no cut between two chunks falls
three to five bytes into a mouse report. -/
theorem feedAll_eq_iff {cs : List Chunk} {now : Timespec} (hprompt : Prompt cs) (hnow : now.Valid) :
    let f := feedAll init cs
    let g := process now { init with buffer := Chunk.bytesOf cs }
    (f.ready = g.ready ∧ f.buffer = g.buffer ∧ f.buttons = g.buttons) ↔
      ∀ k, splitsReport (Chunk.bytesOf (cs.take k)) (Chunk.bytesOf (cs.drop k)) = false := by
  intro f g
  have hg : g = settle now { init with buffer := Chunk.bytesOf cs } :=
    process_eq_settle hnow (quiet_of_not_waiting rfl)
  rw [hg]
  exact (fed_init cs).feedAll_iff hprompt

/-- A press of the first button at the origin, cut after `bytes` bytes, the second part 100 ms after
the first. -/
def pressCutAfter (bytes : Nat) : List Chunk :=
  let report := [esc, lbracket, letterM, 0x20, 0x21, 0x21]
  [⟨⟨1, 0⟩, report.take bytes⟩, ⟨⟨1, 100000000⟩, report.drop bytes⟩]

theorem prompt_pressCutAfter (bytes : Nat) : Prompt (pressCutAfter bytes) := by
  have hvalid : (⟨1, 0⟩ : Timespec).Valid ∧ (⟨1, 100000000⟩ : Timespec).Valid := by decide
  apply prompt_of_pairwise
  · intro c hc
    simp only [pressCutAfter, List.mem_cons, List.not_mem_nil, or_false] at hc
    rcases hc with rfl | rfl
    · exact hvalid.1
    · exact hvalid.2
  · simp only [pressCutAfter, List.pairwise_cons, List.mem_singleton, forall_eq, List.not_mem_nil,
      IsEmpty.forall_iff, implies_true, List.Pairwise.nil, and_true]
    decide

open TerminalFilter in
/-- A cut behind `ESC [` does no harm. -/
theorem feedAll_pressCutAfter_two :
    let f := feedAll init (pressCutAfter 2)
    let g := process ⟨1, 0⟩ { init with buffer := Chunk.bytesOf (pressCutAfter 2) }
    f.ready = g.ready ∧ f.buffer = g.buffer ∧ f.buttons = g.buttons := by
  refine (feedAll_eq_iff (prompt_pressCutAfter 2) ⟨by decide, by decide, by decide⟩).mpr ?_
  intro k
  match k with
  | 0 => decide
  | 1 => decide
  | k + 2 =>
      have htake : (pressCutAfter 2).take (k + 2) = pressCutAfter 2 :=
        List.take_of_length_le (by simp [pressCutAfter])
      have hdrop : (pressCutAfter 2).drop (k + 2) = [] :=
        List.drop_of_length_le (by simp [pressCutAfter])
      rw [htake, hdrop]
      decide

open TerminalFilter in
/-- A cut behind `ESC [ M` does: the report reaches the guest as it is. -/
theorem feedAll_pressCutAfter_three :
    Prompt (pressCutAfter 3) ∧
      (feedAll init (pressCutAfter 3)).ready = [esc, lbracket, letterM, 0x20, 0x21, 0x21] ∧
      (process ⟨1, 0⟩ { init with buffer := Chunk.bytesOf (pressCutAfter 3) }).ready =
        escMessage [31, 0, 0, 4, 1] ∧
      escMessage [31, 0, 0, 4, 1] ≠ [esc, lbracket, letterM, 0x20, 0x21, 0x21] :=
  ⟨prompt_pressCutAfter 3, by decide, by decide, by decide⟩

end Qine
