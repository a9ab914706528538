import Qine.Lib.Strtol
import Qine.Path.Mapper
import Qine.Startup.Context

/-!
# Scripts

`loader_check_interpreter` (`loader.cpp`) looks for `#!` at the front of a file and takes the line behind it
apart, in a buffer that it writes terminators into while it walks through it. A line ends at a newline, at a
terminator, or where the buffer is full; a newline is white space as well.

`loaderCheckInterpreter_eq` says what comes out in terms of how the line is cut, and
`loaderCheckInterpreter_spec` for which files.
-/

namespace Qine

open Strtol (isSpace)

namespace Shebang

/-- `end`. -/
def atEnd (c : Char) : Bool := c = '\x00' || c = '\n'

/-- `*c`. -/
def charAt (buf : List Char) (c : Nat) : Char := buf.getD c '\x00'

/-- `while (p(*c) && !end()) c++`, with a bound on the rounds. -/
def skip (p : Char → Bool) (buf : List Char) : Nat → Nat → Nat
  | 0, c => c
  | n + 1, c => if p (charAt buf c) && !atEnd (charAt buf c) then skip p buf n (c + 1) else c

/-- The loop that replaces white space by terminators. -/
def blank : Nat → List Char → Nat → List Char × Nat
  | 0, buf, c => (buf, c)
  | n + 1, buf, c =>
    if isSpace (charAt buf c) && !atEnd (charAt buf c) then blank n (buf.set c '\x00') (c + 1) else (buf, c)

/-- What `loader_check_interpreter` stores. -/
structure Script where
  interpreter : PathInfo
  interpreterArgs : List Char
  deriving DecidableEq, Repr

/-- `interp_buf_size`. -/
def interpBufSize : Nat := 1024

/-- The buffer behind `#!` and its terminator. -/
def readBuf (file : List Byte) : List Char :=
  CString.toPath ((file.drop 2).take (interpBufSize - 1)) ++ ['\x00']

/-- `loader_check_interpreter` from where the buffer has been read. -/
def scanLine (buf : List Char) : Except HostError (Option Script) :=
  let interpStart := skip isSpace buf buf.length 0
  let interpEnd := skip (!isSpace ·) buf buf.length interpStart
  let (buf, argsStart) := blank buf.length buf interpEnd
  let c := skip (fun _ => true) buf buf.length argsStart
  let buf := buf.set c '\x00'
  if charAt buf interpStart = '\x00' then .error (.loaderFormat "Invalid shebang")
  else
    .ok (some ⟨PathInfo.mkQnxPath ((buf.drop interpStart).takeWhile (· ≠ '\x00')) false,
      (buf.drop argsStart).take (c - argsStart)⟩)

/-- `loader_check_interpreter`, on the contents of the file. -/
def loaderCheckInterpreter (file : List Byte) : Except HostError (Option Script) :=
  let shebang := CString.toPath (file.take 2)
  if shebang.length < 2 then .ok none
  else if shebang ≠ ['#', '!'] then .ok none
  else scanLine (readBuf file)

/-! ## The line -/

/-- The line behind `#!`. -/
def line (file : List Byte) : List Char :=
  (CString.toPath ((file.drop 2).take (interpBufSize - 1))).takeWhile (!atEnd ·)

/-- A line is white space, the interpreter as the first run of other characters, white space, and the
arguments. -/
structure Cut (line ws interp gap args : List Char) : Prop where
  eq : line = ws ++ (interp ++ (gap ++ args))
  ws_space : ∀ c ∈ ws, isSpace c = true
  interp_word : ∀ c ∈ interp, isSpace c = false
  gap_space : ∀ c ∈ gap, isSpace c = true
  args_start : ∀ c ∈ args.head?, isSpace c = false
  gap_of_interp : interp = [] → gap = []
  args_of_gap : gap = [] → args = []

theorem head_dropWhile (p : Char → Bool) (l : List Char) : ∀ c ∈ (l.dropWhile p).head?, p c = false := by
  intro c hc
  have hhead := List.head?_dropWhile_not p l
  rw [hc] at hhead
  simpa using hhead

/-- Every line can be cut. -/
theorem exists_cut (line : List Char) : ∃ ws interp gap args, Cut line ws interp gap args := by
  have hbody := head_dropWhile isSpace line
  generalize hb : line.dropWhile isSpace = body at hbody
  have hrest := head_dropWhile (!isSpace ·) body
  generalize hr : body.dropWhile (!isSpace ·) = rest at hrest
  refine ⟨line.takeWhile isSpace, body.takeWhile (!isSpace ·), rest.takeWhile isSpace, rest.dropWhile isSpace,
    ?_, ?_, ?_, ?_, head_dropWhile isSpace rest, ?_, ?_⟩
  · rw [List.takeWhile_append_dropWhile, ← hr, List.takeWhile_append_dropWhile, ← hb,
      List.takeWhile_append_dropWhile]
  · intro c hc
    exact List.mem_takeWhile_imp hc
  · intro c hc
    simpa using List.mem_takeWhile_imp hc
  · intro c hc
    exact List.mem_takeWhile_imp hc
  · intro hempty
    have hnil : body = [] := by
      cases body with
      | nil => rfl
      | cons c t => simp [hbody c rfl] at hempty
    simp [← hr, hnil]
  · intro hempty
    cases rest with
    | nil => rfl
    | cons c t =>
        have hc : isSpace c = true := by simpa using hrest c rfl
        simp [hc] at hempty

/-! ## The loops -/

section
variable {p : Char → Bool} {pre run rest : List Char} {n : Nat}

theorem charAt_append (c : Char) : charAt (pre ++ c :: rest) pre.length = c := by
  simp [charAt]

/-- Behind the buffer there is nothing to go on with. -/
theorem stop_of_head? (hstop : ∀ c ∈ rest.head?, p c = false ∨ atEnd c = true) :
    (p (charAt (pre ++ rest) pre.length) && !atEnd (charAt (pre ++ rest) pre.length)) = false := by
  cases rest with
  | nil =>
      have hend : atEnd (charAt (pre ++ []) pre.length) = true := by simp [charAt, atEnd]
      rw [hend, Bool.not_true, Bool.and_false]
  | cons c rest =>
      rw [charAt_append]
      rcases hstop c rfl with h | h
      · simp [h]
      · simp [h]

/-- The loop goes to the end of a run of characters. -/
theorem skip_eq (pre run rest : List Char) (hrun : ∀ c ∈ run, p c = true ∧ atEnd c = false)
    (hstop : ∀ c ∈ rest.head?, p c = false ∨ atEnd c = true) (hn : run.length ≤ n) :
    skip p (pre ++ (run ++ rest)) n pre.length = pre.length + run.length := by
  induction run generalizing pre n with
  | nil =>
      cases n with
      | zero => rfl
      | succ n =>
          rw [List.nil_append, skip, if_neg (by simp [stop_of_head? hstop])]
          rfl
  | cons c run ih =>
      rw [List.length_cons] at hn
      obtain ⟨n, rfl⟩ : ∃ k, n = k + 1 := ⟨n - 1, by omega⟩
      rw [List.forall_mem_cons] at hrun
      have hnext := ih (pre ++ [c]) (n := n) hrun.2 (by omega)
      rw [List.append_assoc, List.singleton_append, List.length_append, List.length_singleton] at hnext
      rw [List.cons_append, skip, charAt_append, if_pos (by simp [hrun.1]), hnext, List.length_cons]
      omega

/-- There is room for the run in the buffer. -/
theorem skip_run (pre run rest : List Char) {buf : List Char} (hbuf : buf = pre ++ (run ++ rest))
    (hrun : ∀ c ∈ run, p c = true ∧ atEnd c = false) (hstop : ∀ c ∈ rest.head?, p c = false ∨ atEnd c = true) :
    skip p buf buf.length pre.length = pre.length + run.length := by
  subst hbuf
  apply skip_eq pre run rest hrun hstop
  simp only [List.length_append]
  omega

/-- The loop replaces a run of white space. -/
theorem blank_eq (pre run rest : List Char) (hrun : ∀ c ∈ run, isSpace c = true ∧ atEnd c = false)
    (hstop : ∀ c ∈ rest.head?, isSpace c = false ∨ atEnd c = true) (hn : run.length ≤ n) :
    blank n (pre ++ (run ++ rest)) pre.length =
      (pre ++ (List.replicate run.length '\x00' ++ rest), pre.length + run.length) := by
  induction run generalizing pre n with
  | nil =>
      cases n with
      | zero => rfl
      | succ n =>
          rw [List.nil_append, blank, if_neg (by simp [stop_of_head? hstop])]
          rfl
  | cons c run ih =>
      rw [List.length_cons] at hn
      obtain ⟨n, rfl⟩ : ∃ k, n = k + 1 := ⟨n - 1, by omega⟩
      rw [List.forall_mem_cons] at hrun
      have hset : (pre ++ c :: (run ++ rest)).set pre.length '\x00' = (pre ++ ['\x00']) ++ (run ++ rest) := by
        simp
      have hnext := ih (pre ++ ['\x00']) (n := n) hrun.2 (by omega)
      rw [List.length_append, List.length_singleton] at hnext
      rw [List.cons_append, blank, charAt_append, if_pos (by simp [hrun.1]), hset, hnext, List.length_cons,
        List.replicate_succ]
      simp [Nat.add_assoc, Nat.add_comm 1]

end

/-- The line, and what ends it, at the front of the buffer. -/
theorem readBuf_eq (file : List Byte) : ∃ e rest, readBuf file = line file ++ e :: rest ∧ atEnd e = true ∧
    ∀ c ∈ line file, atEnd c = false := by
  have hline : ∀ c ∈ line file, atEnd c = false := by
    intro c hc
    simpa using List.mem_takeWhile_imp hc
  have hsplit := List.takeWhile_append_dropWhile (p := (!atEnd ·))
    (l := CString.toPath ((file.drop 2).take (interpBufSize - 1)))
  have hhead := head_dropWhile (!atEnd ·) (CString.toPath ((file.drop 2).take (interpBufSize - 1)))
  unfold readBuf
  rw [← hsplit]
  cases hrest : (CString.toPath ((file.drop 2).take (interpBufSize - 1))).dropWhile (!atEnd ·) with
  | nil => exact ⟨'\x00', [], by simp [line], by decide, hline⟩
  | cons e rest =>
      rw [hrest] at hhead
      exact ⟨e, rest ++ ['\x00'], by simp [line], by simpa using hhead e rfl, hline⟩

section
variable {ws interp gap args l rest : List Char} {e : Char}

/-- Where the three runs of a line that is cut end. -/
theorem Cut.stops (rest : List Char) (hcut : Cut l ws interp gap args) (he : atEnd e = true) :
    (∀ c ∈ (interp ++ (gap ++ (args ++ e :: rest))).head?, isSpace c = false ∨ atEnd c = true) ∧
      (∀ c ∈ (gap ++ (args ++ e :: rest)).head?, (!isSpace c) = false ∨ atEnd c = true) ∧
      ∀ c ∈ (args ++ e :: rest).head?, isSpace c = false ∨ atEnd c = true := by
  have hargs : ∀ c ∈ (args ++ e :: rest).head?, isSpace c = false ∨ atEnd c = true := by
    cases args with
    | nil => simp [he]
    | cons a args =>
        have ha := hcut.args_start a rfl
        simp [ha]
  refine ⟨?_, ?_, hargs⟩
  · cases interp with
    | nil =>
        have hgap := hcut.gap_of_interp rfl
        have hnone := hcut.args_of_gap hgap
        simp [hgap, hnone, he]
    | cons i interp =>
        have hi := hcut.interp_word i List.mem_cons_self
        simp [hi]
  · cases gap with
    | nil =>
        have hnone := hcut.args_of_gap rfl
        simp [hnone, he]
    | cons g gap =>
        have hg := hcut.gap_space g List.mem_cons_self
        simp [hg]

/-- The buffer in the end: the gap and what ended the line are terminators. -/
def written (ws interp gap args rest : List Char) : List Char :=
  ws ++ (interp ++ (List.replicate gap.length '\x00' ++ (args ++ '\x00' :: rest)))

/-- Where the loops leave the pointers into a line that is cut. -/
theorem scanLine_loops (hcut : Cut l ws interp gap args) (hl : ∀ c ∈ l, atEnd c = false) (he : atEnd e = true) :
    scanLine (l ++ e :: rest) =
      if charAt (written ws interp gap args rest) ws.length = '\x00' then .error (.loaderFormat "Invalid shebang")
      else .ok (some ⟨PathInfo.mkQnxPath
          (((written ws interp gap args rest).drop ws.length).takeWhile (· ≠ '\x00')) false,
        ((written ws interp gap args rest).drop ((ws ++ interp).length + gap.length)).take args.length⟩) := by
  obtain ⟨hstop₁, hstop₂, hstop₃⟩ := hcut.stops rest he
  rw [hcut.eq] at hl ⊢
  simp only [List.forall_mem_append] at hl
  obtain ⟨hws, hinterp, hgap, hargs⟩ := hl
  have hbuf : ws ++ (interp ++ (gap ++ args)) ++ e :: rest = ws ++ (interp ++ (gap ++ (args ++ e :: rest))) := by
    simp
  rw [hbuf]
  -- the four loops
  have h₁ : skip isSpace (ws ++ (interp ++ (gap ++ (args ++ e :: rest))))
      (ws ++ (interp ++ (gap ++ (args ++ e :: rest)))).length 0 = ws.length := by
    have h := skip_run [] ws _ rfl (fun c hc => ⟨hcut.ws_space c hc, hws c hc⟩) hstop₁
    rwa [List.nil_append, List.length_nil, Nat.zero_add] at h
  have h₂ : skip (!isSpace ·) (ws ++ (interp ++ (gap ++ (args ++ e :: rest))))
      (ws ++ (interp ++ (gap ++ (args ++ e :: rest)))).length ws.length = (ws ++ interp).length := by
    have hword : ∀ c ∈ interp, (!isSpace c) = true ∧ atEnd c = false :=
      fun c hc => ⟨by simp [hcut.interp_word c hc], hinterp c hc⟩
    rw [skip_run ws interp _ rfl hword hstop₂, List.length_append]
  have h₃ : blank (ws ++ (interp ++ (gap ++ (args ++ e :: rest)))).length
      (ws ++ (interp ++ (gap ++ (args ++ e :: rest)))) (ws ++ interp).length =
        (ws ++ interp ++ (List.replicate gap.length '\x00' ++ (args ++ e :: rest)),
          (ws ++ interp).length + gap.length) := by
    rw [← List.append_assoc ws]
    refine blank_eq (ws ++ interp) gap (args ++ e :: rest) (fun c hc => ⟨hcut.gap_space c hc, hgap c hc⟩) hstop₃ ?_
    simp only [List.length_append]
    omega
  have h₄ : skip (fun _ => true) (ws ++ interp ++ (List.replicate gap.length '\x00' ++ (args ++ e :: rest)))
      (ws ++ interp ++ (List.replicate gap.length '\x00' ++ (args ++ e :: rest))).length
      ((ws ++ interp).length + gap.length) = (ws ++ interp).length + gap.length + args.length := by
    have hpre : (ws ++ interp ++ List.replicate gap.length '\x00').length = (ws ++ interp).length + gap.length := by
      rw [List.length_append, List.length_replicate]
    rw [← hpre]
    refine skip_run _ args (e :: rest) ?_ (fun c hc => ⟨rfl, hargs c hc⟩) ?_
    · rw [List.append_assoc (ws ++ interp)]
    · intro c hc
      cases hc
      exact .inr he
  -- the last terminator
  have hset : (ws ++ interp ++ (List.replicate gap.length '\x00' ++ (args ++ e :: rest))).set
      ((ws ++ interp).length + gap.length + args.length) '\x00' =
        written ws interp gap args rest := by
    have hlen : (ws ++ (interp ++ (List.replicate gap.length '\x00' ++ args))).length =
        (ws ++ interp).length + gap.length + args.length := by
      simp only [List.length_append, List.length_replicate]
      omega
    have hfront : ws ++ interp ++ (List.replicate gap.length '\x00' ++ (args ++ e :: rest)) =
        ws ++ (interp ++ (List.replicate gap.length '\x00' ++ args)) ++ e :: rest := by
      simp
    rw [hfront, ← hlen, List.set_append_right _ _ le_rfl, Nat.sub_self]
    simp [written]
  unfold scanLine
  simp only [h₁, h₂, h₃, h₄, hset, Nat.add_sub_cancel_left]

/-- What the routine makes of a line that is cut. -/
theorem scanLine_eq (hcut : Cut l ws interp gap args) (hl : ∀ c ∈ l, atEnd c = false) (he : atEnd e = true) :
    scanLine (l ++ e :: rest) = if interp = [] then .error (.loaderFormat "Invalid shebang")
      else .ok (some ⟨PathInfo.mkQnxPath interp false, args⟩) := by
  have hline : ∀ c ∈ interp, c ≠ '\x00' := by
    intro c hc hnul
    have hend := hl c (by simp [hcut.eq, hc])
    rw [hnul] at hend
    cases hend
  have hargs : (written ws interp gap args rest).drop ((ws ++ interp).length + gap.length) = args ++ '\x00' :: rest := by
    have hlen : (ws ++ (interp ++ List.replicate gap.length '\x00')).length = (ws ++ interp).length + gap.length := by
      simp only [List.length_append, List.length_replicate]
      omega
    have hfront : written ws interp gap args rest =
        ws ++ (interp ++ List.replicate gap.length '\x00') ++ (args ++ '\x00' :: rest) := by
      simp [written]
    rw [hfront, ← hlen, List.drop_left]
  -- a terminator follows the interpreter, be it in the gap or at the end of the line
  have hnul : (List.replicate gap.length '\x00' ++ (args ++ '\x00' :: rest)).takeWhile (· ≠ '\x00') = [] := by
    cases gap with
    | nil => simp [hcut.args_of_gap rfl]
    | cons g gap => simp [List.replicate_succ]
  have hinterp : ((written ws interp gap args rest).drop ws.length).takeWhile (· ≠ '\x00') = interp := by
    rw [written, List.drop_left, List.takeWhile_append_of_pos (by simpa using hline), hnul, List.append_nil]
  have hfirst : charAt (written ws interp gap args rest) ws.length = '\x00' ↔ interp = [] := by
    cases interp with
    | nil =>
        have hgap := hcut.gap_of_interp rfl
        simp [written, hgap, hcut.args_of_gap hgap, charAt]
    | cons i interp =>
        rw [written, List.cons_append, charAt_append]
        simp [hline i List.mem_cons_self]
  rw [scanLine_loops hcut hl he, hinterp, hargs, List.take_left]
  simp only [hfirst]

/-- There is no interpreter on a line of white space. -/
theorem Cut.interp_eq_nil_iff (hcut : Cut l ws interp gap args) : interp = [] ↔ ∀ c ∈ l, isSpace c = true := by
  constructor
  · intro hnone
    have hgap := hcut.gap_of_interp hnone
    rw [hcut.eq, hnone, hgap, hcut.args_of_gap hgap]
    simpa using hcut.ws_space
  · intro hall
    cases interp with
    | nil => rfl
    | cons i interp =>
        have hspace := hall i (by simp [hcut.eq])
        rw [hcut.interp_word i List.mem_cons_self] at hspace
        cases hspace

end

theorem loaderCheckInterpreter_eq (file : List Byte) : loaderCheckInterpreter file =
    if ['#', '!'] <+: CString.toPath file then scanLine (readBuf file) else .ok none := by
  have htake : CString.toPath (file.take 2) = (CString.toPath file).take 2 := List.map_take
  have hmagic : ['#', '!'] <+: CString.toPath file ↔ (CString.toPath file).take 2 = ['#', '!'] := by
    rw [List.prefix_iff_eq_take]
    exact eq_comm
  unfold loaderCheckInterpreter
  rw [htake]
  dsimp only
  by_cases hprefix : ['#', '!'] <+: CString.toPath file
  · rw [if_pos hprefix, hmagic.1 hprefix]
    rfl
  · have hother := mt hmagic.2 hprefix
    rw [if_neg hprefix, if_pos hother, ite_self]

/-- An interpreter is found exactly if the file begins with `#!` and there is something on the line behind it: the
first run of other characters than white space. What follows it are the arguments. On a blank line the routine
throws. -/
theorem loaderCheckInterpreter_spec (file : List Byte) :
    ((∃ script, loaderCheckInterpreter file = .ok (some script)) ↔
      ['#', '!'] <+: CString.toPath file ∧ ∃ c ∈ line file, isSpace c = false) ∧
    (∀ script, loaderCheckInterpreter file = .ok (some script) → ∃ ws interp gap,
      Cut (line file) ws interp gap script.interpreterArgs ∧ interp ≠ [] ∧
        script.interpreter.qnxValid = true ∧ script.interpreter.qnxPath = normalizePath interp) ∧
    ((∃ what, loaderCheckInterpreter file = .error (.loaderFormat what)) ↔
      ['#', '!'] <+: CString.toPath file ∧ ∀ c ∈ line file, isSpace c = true) ∧
    (loaderCheckInterpreter file = .ok none ↔ ¬ ['#', '!'] <+: CString.toPath file) := by
  obtain ⟨ws, interp, gap, args, hcut⟩ := exists_cut (line file)
  obtain ⟨e, rest, hbuf, he, hline⟩ := readBuf_eq file
  have hblank := hcut.interp_eq_nil_iff
  have hword : (∃ c ∈ line file, isSpace c = false) ↔ interp ≠ [] := by
    rw [Ne, hblank]
    simp
  rw [loaderCheckInterpreter_eq, hbuf, scanLine_eq hcut hline he, hword, ← hblank]
  by_cases hmagic : ['#', '!'] <+: CString.toPath file
  · by_cases hinterp : interp = []
    · simp [hmagic, hinterp]
    · simp only [if_pos hmagic, if_neg hinterp]
      refine ⟨?_, ?_, ?_, ?_⟩
      · exact ⟨fun _ => ⟨hmagic, hinterp⟩, fun _ => ⟨_, rfl⟩⟩
      · rintro script ⟨⟩
        exact ⟨ws, interp, gap, hcut, hinterp, rfl, rfl⟩
      · constructor
        · rintro ⟨what, ⟨⟩⟩
        · exact fun h => absurd h.2 hinterp
      · constructor
        · intro h
          cases h
        · exact fun h => absurd hmagic h
  · simp [hmagic]

/-- A script with an argument for its interpreter. -/
theorem loaderCheckInterpreter_spec_sh : ∃ ws interp gap,
    Cut (line (CString.ofString "#! /bin/../bin/sh\t-e \r\nexit")) ws interp gap "-e \r".toList ∧
      normalizePath interp = "/bin/sh".toList := by
  have hscript : loaderCheckInterpreter (CString.ofString "#! /bin/../bin/sh\t-e \r\nexit") =
      .ok (some ⟨PathInfo.mkQnxPath "/bin/../bin/sh".toList false, "-e \r".toList⟩) := by decide +kernel
  obtain ⟨ws, interp, gap, hcut, -, -, hpath⟩ :=
    (loaderCheckInterpreter_spec (CString.ofString "#! /bin/../bin/sh\t-e \r\nexit")).2.1 _ hscript
  exact ⟨ws, interp, gap, hcut, hpath.symm.trans (by decide +kernel)⟩

end Shebang
end Qine
